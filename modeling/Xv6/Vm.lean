import Xv6.Bytes
import Xv6.Wp

/-!
# Virtual memory

kalloc.c and vm.c. Physical memory is its frames of 4096 bytes, by number; a pointer to a
page is the number of its frame, and the free list is the list of its frames. Addresses are
numbers below 2 ^ 32, and sums of them are taken modulo 2 ^ 32. `kalloc` fails when the free
list is empty; a free list of the right length makes any given call fail.
-/
namespace Xv6.Vm

open Function (update)
open Bytes

/-! ## mmu.h and memlayout.h -/

/-- `PHYSTOP`, as a frame. -/
abbrev topFrame : Nat := 0xE000

/-- The page of `KERNBASE`. -/
abbrev kernPage : Nat := 0x80000

/-- Where the linker has put `data`, and the first frame that is not part of the kernel. -/
structure Layout where
  data : Nat
  first : Nat
  text_before : 0x100 < data
  data_before : data < first
  first_before : first < topFrame

def pdx (va : Nat) : Nat := va / 2 ^ 22 % 1024
def ptx (va : Nat) : Nat := va / 2 ^ 12 % 1024

def pgroundup (sz : Nat) : Nat := (sz + 4095) % 2 ^ 32 / 4096 * 4096
def pgrounddown (a : Nat) : Nat := a / 4096 * 4096

/-- `PTE_P` and `PTE_U` of an entry. -/
abbrev Present (w : Nat) : Prop := w % 2 = 1
abbrev User (w : Nat) : Prop := w / 4 % 2 = 1

/-- `PTE_ADDR`, as a frame, and `PTE_FLAGS`. -/
abbrev frameOf (w : Nat) : Nat := w / 4096
abbrev flagsOf (w : Nat) : Nat := w % 4096

/-- `nulls` counts how often a null pointer has been dereferenced. -/
structure Phys where
  mem : Nat → Buf
  free : List Nat
  nulls : Nat

abbrev VmM := StateT Phys (Except String)

/-- Entry `k` of the page directory or page table in a frame. -/
def Phys.word (s : Phys) (f k : Nat) : Nat := getLE (s.mem f) (4 * k) 4

def Phys.setPage (s : Phys) (f : Nat) (b : Buf) : Phys := { s with mem := update s.mem f b }

def Phys.setWord (s : Phys) (f k w : Nat) : Phys := s.setPage f (putLE (s.mem f) (4 * k) 4 w)

/-! ## kalloc.c -/

/-- A page on the free list: it is filled with junk, and its first word is the pointer to
the next page. -/
def freePage (free : List Nat) : Buf :=
  putLE (fun _ => 1) 0 4 (match free with
    | [] => 0
    | f :: _ => f * 4096 + 2 ^ 31)

def kfree (K : Layout) (f : Nat) : VmM Unit := do
  if f < K.first ∨ f ≥ topFrame then throw "kfree"
  else modify fun s => { s.setPage f (freePage s.free) with free := f :: s.free }

def kalloc : VmM (Option Nat) := do
  match (← get).free with
  | [] => pure none
  | f :: free => do
    modify fun s => { s with free }
    pure (some f)

/-- `memset(v, 0, PGSIZE)`. -/
def zeroPage (f : Nat) : VmM Unit := modify fun s => s.setPage f fun _ => 0

/-! ## vm.c -/

/-- The place of the entry for `va`: a page table and an index in it. -/
def walkpgdir (pgdir va : Nat) (alloc : Bool) : VmM (Option (Nat × Nat)) := do
  let pde := (← get).word pgdir (pdx va)
  if Present pde then pure (some (frameOf pde, ptx va))
  else if !alloc then pure none
  else do
    match ← kalloc with
    | none => pure none
    | some pgtab => do
      zeroPage pgtab
      modify fun s => s.setWord pgdir (pdx va) (pgtab * 4096 ||| 7)
      pure (some (pgtab, ptx va))

/-- The loop of `mappages`. -/
def mapLoop (pgdir perm last : Nat) : Nat → Nat → Nat → VmM Bool
  | 0, _, _ => throw "mappages does not return"
  | fuel + 1, a, pa => do
    match ← walkpgdir pgdir a true with
    | none => pure false
    | some (pgtab, k) => do
      if Present ((← get).word pgtab k) then throw "remap"
      else do
        modify fun s => s.setWord pgtab k (pa ||| perm ||| 1)
        if a = last then pure true
        else mapLoop pgdir perm last fuel ((a + 4096) % 2 ^ 32) ((pa + 4096) % 2 ^ 32)

/-- The result is `false` for -1. -/
def mappages (pgdir va size pa perm : Nat) : VmM Bool :=
  mapLoop pgdir perm (pgrounddown ((va + size + (2 ^ 32 - 1)) % 2 ^ 32))
    (2 ^ 20) (pgrounddown va) pa

/-- The loop of `deallocuvm`. -/
def deallocLoop (K : Layout) (pgdir oldsz : Nat) : Nat → Nat → VmM Unit
  | 0, _ => throw "deallocuvm does not return"
  | fuel + 1, a =>
    if a < oldsz then do
      match ← walkpgdir pgdir a false with
      | none =>
        let a := ((pdx a + 1) * 2 ^ 22 % 2 ^ 32 + (2 ^ 32 - 4096)) % 2 ^ 32
        deallocLoop K pgdir oldsz fuel ((a + 4096) % 2 ^ 32)
      | some (pgtab, k) => do
        let w := (← get).word pgtab k
        if Present w then
          if frameOf w = 0 then throw "kfree"
          else do
            kfree K (frameOf w)
            modify fun s => s.setWord pgtab k 0
            deallocLoop K pgdir oldsz fuel ((a + 4096) % 2 ^ 32)
        else deallocLoop K pgdir oldsz fuel ((a + 4096) % 2 ^ 32)
    else pure ()

def deallocuvm (K : Layout) (pgdir oldsz newsz : Nat) : VmM Nat :=
  if newsz ≥ oldsz then pure oldsz
  else do
    deallocLoop K pgdir oldsz (2 ^ 20) (pgroundup newsz)
    pure newsz

/-- The loop of `allocuvm`. -/
def allocLoop (K : Layout) (pgdir oldsz newsz : Nat) : Nat → Nat → VmM Nat
  | 0, _ => throw "allocuvm does not return"
  | fuel + 1, a =>
    if a < newsz then do
      match ← kalloc with
      | none => do
        let _ ← deallocuvm K pgdir newsz oldsz
        pure 0
      | some mem => do
        zeroPage mem
        if ← mappages pgdir a 4096 (mem * 4096) 6 then
          allocLoop K pgdir oldsz newsz fuel ((a + 4096) % 2 ^ 32)
        else do
          let _ ← deallocuvm K pgdir newsz oldsz
          kfree K mem
          pure 0
    else pure newsz

def allocuvm (K : Layout) (pgdir oldsz newsz : Nat) : VmM Nat :=
  if newsz ≥ 2 ^ 31 then pure 0
  else if newsz < oldsz then pure oldsz
  else allocLoop K pgdir oldsz newsz (2 ^ 20) (pgroundup oldsz)

/-- The loop of `freevm` over the page tables. -/
def freeTables (K : Layout) (pgdir : Nat) : List Nat → VmM Unit
  | [] => pure ()
  | i :: l => do
    let pde := (← get).word pgdir i
    if Present pde then kfree K (frameOf pde)
    freeTables K pgdir l

def freevm (K : Layout) (pgdir : Nat) : VmM Unit := do
  if pgdir = 0 then throw "freevm: no pgdir"
  else do
    let _ ← deallocuvm K pgdir (2 ^ 31) 0
    freeTables K pgdir (List.range 1024)
    kfree K pgdir

/-- `struct kmap`. -/
structure Kmap where
  virt : Nat
  physStart : Nat
  physEnd : Nat
  perm : Nat

def kmap (K : Layout) : List Kmap :=
  [⟨0x80000000, 0, 0x100000, 2⟩,
   ⟨0x80100000, 0x100000, K.data * 4096, 0⟩,
   ⟨0x80000000 + K.data * 4096, K.data * 4096, 0xE000000, 2⟩,
   ⟨0xFE000000, 0xFE000000, 0, 2⟩]

/-- The loop of `setupkvm`. -/
def mapKernel (pgdir : Nat) : List Kmap → VmM Bool
  | [] => pure true
  | k :: l => do
    if ← mappages pgdir k.virt
        ((k.physEnd + (2 ^ 32 - k.physStart)) % 2 ^ 32) k.physStart k.perm then
      mapKernel pgdir l
    else pure false

def setupkvm (K : Layout) : VmM (Option Nat) := do
  match ← kalloc with
  | none => pure none
  | some pgdir => do
    zeroPage pgdir
    if ← mapKernel pgdir (kmap K) then pure (some pgdir)
    else do
      freevm K pgdir
      pure none

/-- The loop of `copyuvm`; `false` is the jump to `bad`. -/
def copyLoop (K : Layout) (pgdir sz d : Nat) : Nat → Nat → VmM Bool
  | 0, _ => throw "copyuvm does not return"
  | fuel + 1, i =>
    if i < sz then do
      match ← walkpgdir pgdir i false with
      | none => throw "copyuvm: pte should exist"
      | some (pgtab, k) => do
        let w := (← get).word pgtab k
        if ¬ Present w then throw "copyuvm: page not present"
        else do
          match ← kalloc with
          | none => pure false
          | some mem => do
            modify fun s => s.setPage mem (memmove (s.mem mem) 0 (s.mem (frameOf w)) 4096)
            if ← mappages d i 4096 (mem * 4096) (flagsOf w) then
              copyLoop K pgdir sz d fuel ((i + 4096) % 2 ^ 32)
            else do
              kfree K mem
              pure false
    else pure true

def copyuvm (K : Layout) (pgdir sz : Nat) : VmM (Option Nat) := do
  match ← setupkvm K with
  | none => pure none
  | some d => do
    if ← copyLoop K pgdir sz d (2 ^ 20) 0 then pure (some d)
    else do
      freevm K d
      pure none

/-- The word at address 0, read by the kernel through the page directory of the current
process; if there is no page there, the kernel traps. -/
def loadNull (cur : Nat) : VmM Nat := do
  match ← walkpgdir cur 0 false with
  | none => throw "trap"
  | some (pgtab, k) => do
    let s ← get
    if Present (s.word pgtab k) then do
      modify fun s => { s with nulls := s.nulls + 1 }
      pure (s.word (frameOf (s.word pgtab k)) 0)
    else throw "trap"

/-- `*pte` in `uva2ka`, where `pte` may be null. -/
def loadPte (cur : Nat) : Option (Nat × Nat) → VmM Nat
  | some (pgtab, k) => do pure ((← get).word pgtab k)
  | none => loadNull cur

/-- The frame of a user page; `cur` is the page directory of the current process. The address
of frame 0x80000 is 0 in the kernel. -/
def uva2ka (cur pgdir uva : Nat) : VmM (Option Nat) := do
  let pte ← walkpgdir pgdir uva false
  let w ← loadPte cur pte
  if ¬ Present w then pure none
  else if ¬ User w then pure none
  else if frameOf w = 0x80000 then pure none
  else pure (some (frameOf w))

/-- A write by the kernel to the frame; it traps at the text of the kernel and where there is
no memory. -/
def kernelWrite (K : Layout) (f o : Nat) (buf : Buf) (n : Nat) : VmM Unit :=
  if f < topFrame ∧
    ¬ (0x100 ≤ f ∧ f < K.data) then modify fun s => s.setPage f (memmove (s.mem f) o buf n)
  else throw "trap"

/-- The loop of `copyout`; each round copies a byte at least. -/
def copyoutLoop (K : Layout) (cur pgdir : Nat) : Nat → Nat → Buf → Nat → VmM Bool
  | 0, _, _, _ => pure true
  | fuel + 1, va, buf, len =>
    if len > 0 then do
      let va0 := pgrounddown va
      match ← uva2ka cur pgdir va0 with
      | none => pure false
      | some f => do
        let n := min (4096 - (va - va0)) len
        kernelWrite K f (va - va0) buf n
        copyoutLoop K cur pgdir fuel ((va0 + 4096) % 2 ^ 32) (fun j => buf (n + j)) (len - n)
    else pure true

/-- The result is `false` for -1. -/
def copyout (K : Layout) (cur pgdir va : Nat) (p : Buf) (len : Nat) : VmM Bool :=
  copyoutLoop K cur pgdir len va p len

end Xv6.Vm
