import Xv6.UmallocHeap
import Xv6.VmAlloc

/-!
# malloc and the kernel

sys_sbrk and growproc, with the `allocuvm` and `deallocuvm` of vm.c, as the kernel that
`malloc` runs on. The argument of sbrk is an `int`: a request for 2 ^ 31 bytes or more makes
the process smaller or leaves it as it is, and sbrk succeeds all the same.
-/
namespace Xv6.Umalloc

open Bytes Wp Intervals Proc
open Vm (Layout Phys VmM allocuvm deallocuvm Space Filled Present User pages kernPage)

/-! ## sbrk -/

/-- What the kernel has for a process. -/
structure Image where
  phys : Phys
  sz : Nat

abbrev KernelM := StateT Image (Except String)

/-- A function of vm.c. -/
def onPhys {α : Type} (m : VmM α) : KernelM α := fun t =>
  (m t.phys).map fun (r, phys) => (r, { t with phys })

section Program

variable (K : Layout) (pgdir : Nat)

/-- The result is `false` for -1. From 2 ^ 31 on `n` is negative, as an `int`. -/
def growproc (n : Nat) : KernelM Bool := do
  let sz := (← get).sz
  let newsz ←
    if 0 < n ∧ n < 2 ^ 31 then onPhys (allocuvm K pgdir sz ((sz + n) % 2 ^ 32))
    else if n ≠ 0 then onPhys (deallocuvm K pgdir sz ((sz + n) % 2 ^ 32))
    else pure sz
  if n ≠ 0 ∧ newsz = 0 then pure false
  else do
    modify fun t => { t with sz := newsz }
    pure true

def sysSbrk (n : Nat) : KernelM (Option Nat) := do
  let addr := (← get).sz
  if ← growproc K pgdir n then pure (some addr) else pure none

/-- User code can access a page that is present, writable and open to it. -/
def kernel : Os Image where
  sbrk := sysSbrk K pgdir
  mapped t x := t.phys.pte pgdir (x / 4096) % 8 = 7

end Program

variable {K : Layout} {pgdir base start n d nbytes fuel : Nat} {R : Nat → Prop}
  {t t' : Image} {s s' : Proc Image}
  {L : List (Extent Nat)}

/-- The heap of the process starts at `start`, and all of it can be accessed; `base` is below it. -/
structure Valid (K : Layout) (pgdir : Nat) (R : Nat → Prop) (base start : Nat) (t : Image) :
    Prop where
  space : Space t.phys pgdir K R 0
  filled : Filled t.phys pgdir t.sz
  lt : t.sz < 2 ^ 31
  le : start ≤ t.sz
  header : ∀ k, k < 8 → t.phys.pte pgdir ((base + k) / 4096) % 8 = 7
  heap : ∀ n, start / 4096 ≤ n → n < pages t.sz → t.phys.pte pgdir n % 8 = 7

/-- Where the linker has put `base`, and where the heap starts. -/
structure Segments (base start : Nat) : Prop where
  base_pos : 0 < base
  below : base + 8 ≤ start
  aligned : start % 4096 = 0
  lt : start < 2 ^ 31

theorem Segments.base_lt (h : Segments base start) : base < 2 ^ 32 := by
  have := h.below
  have := h.lt
  omega

theorem lt_pages {m sz : Nat} : m < pages sz ↔ m * 4096 < sz := by
  unfold pages
  omega

section Kernel

variable (hseg : Segments base start) (hV : Valid K pgdir R base start t)

include hseg

theorem Valid.below (hV : Valid K pgdir R base start t) (k : Nat) (hk : k < 8) :
    (base + k) / 4096 < pages t.sz := by
  have := hseg.below
  have := hV.le
  rw [lt_pages]
  omega

omit hseg in
theorem Valid.mapped (hV : Valid K pgdir R base start t) {x : Nat} (hlo : start ≤ x)
    (hhi : x < t.sz) :
    t.phys.pte pgdir (x / 4096) % 8 = 7 :=
  hV.heap _ (Nat.div_le_div_right hlo) (by rw [lt_pages]; omega)

include hV

end Kernel

/-! ## Large requests -/

section Large

variable (hseg : Segments base start) (hV : Valid K pgdir R base start s.os)
  (h : Heap (kernel K pgdir) base s L) (hL : ∀ b ∈ L, start ≤ b.lo ∧ b.hi ≤ s.os.sz)

include hseg

include hV h hL

end Large

end Xv6.Umalloc
