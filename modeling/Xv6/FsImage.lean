import Mathlib.Data.UInt
import Mathlib.Tactic.IntervalCases
import Xv6.Bytes
import Xv6.Params

/-!
# The disk image

The on-disk format of fs.h, and the block and inode allocators of fs.c. The disk is
what the buffer cache shows: `bread` gives the current contents of a block and
`log_write` replaces them. Operations run on the image until they return or panic.

The constants of fs.h are written as numbers: a block has 512 bytes (`BSIZE`), with 8
inodes (`IPB`) or 4096 bits of the bitmap (`BPB`); an inode has 12 direct addresses
(`NDIRECT`), and its indirect block 128 more (`NINDIRECT`), 140 in all (`MAXFILE`).
-/
namespace Xv6.FsImage

open Function (update update_self update_of_ne)
open Bytes

/-- `struct superblock`, for the layout that fs.h describes and mkfs builds: the boot
block, the super block and the log, then the inodes, the bitmap and the data. Block
numbers are ints in `balloc`. -/
structure Superblock where
  size : Nat
  ninodes : Nat
  inodestart : Nat
  bmapstart : Nat
  start : 2 ≤ inodestart
  inodes_fit : inodestart + ninodes / 8 + 1 ≤ bmapstart
  bitmap_fits : bmapstart + size / 4096 + 1 ≤ size
  int_blocks : size + 4096 ≤ 2 ^ 31

/-- A disk of six blocks without a log, with one block of inodes and one of the bitmap. -/
instance : Inhabited Superblock where
  default :=
    { size := 6, ninodes := 7, inodestart := 2, bmapstart := 3, start := by decide,
      inodes_fit := by decide, bitmap_fits := by decide, int_blocks := by decide }

namespace Superblock

variable (sb : Superblock)

def iblock (i : Nat) : Nat := i / 8 + sb.inodestart

def bblock (b : Nat) : Nat := b / 4096 + sb.bmapstart

/-- The blocks before the data: boot, super, log, inode and bitmap blocks. -/
def nmeta : Nat := sb.bmapstart + sb.size / 4096 + 1

theorem bblock_ge (b : Nat) : sb.bmapstart ≤ sb.bblock b := Nat.le_add_left ..

theorem nmeta_le : sb.nmeta ≤ sb.size := sb.bitmap_fits

theorem nmeta_pos : 0 < sb.nmeta := Nat.succ_pos _

variable {sb} {b i : Nat}

theorem iblock_lt (h : i < sb.ninodes) : sb.iblock i < sb.bmapstart := by
  have := sb.inodes_fit
  have := Nat.div_le_div_right (c := 8) (Nat.le_of_lt h)
  unfold iblock
  omega

theorem bblock_lt (h : b < sb.size) : sb.bblock b < sb.nmeta := by
  have := Nat.div_le_div_right (c := 4096) (Nat.le_of_lt h)
  unfold bblock nmeta
  omega

theorem iblock_lt_nmeta (h : i < sb.ninodes) : sb.iblock i < sb.nmeta := by
  have := iblock_lt h
  unfold nmeta
  omega

end Superblock

/-! ## Bits of the bitmap -/

/-- `1 << (bi % 8)`. -/
def mask (bi : Nat) : UInt8 := 1 <<< UInt8.ofNat (bi % 8)

def hasBit (x : UInt8) (bi : Nat) : Bool := x.toBitVec.getLsbD (bi % 8)

theorem mask_toBitVec (bi : Nat) : (mask bi).toBitVec = BitVec.twoPow 8 (bi % 8) := by
  have h : ∀ k : Fin 8, (1 <<< UInt8.ofNat k : UInt8).toBitVec = BitVec.twoPow 8 k := by decide
  exact h ⟨bi % 8, Nat.mod_lt _ (by decide)⟩

theorem and_mask_eq_zero (x : UInt8) (bi : Nat) : x &&& mask bi = 0 ↔ hasBit x bi = false := by
  have hne : BitVec.twoPow 8 (bi % 8) ≠ 0 := by
    have : ∀ k : Fin 8, BitVec.twoPow 8 k ≠ 0 := by decide
    exact this ⟨bi % 8, Nat.mod_lt _ (by decide)⟩
  rw [← UInt8.toBitVec_inj, UInt8.toBitVec_and, mask_toBitVec, BitVec.and_twoPow, hasBit]
  split <;> simp_all

theorem hasBit_or_mask (x : UInt8) (bi bj : Nat) :
    hasBit (x ||| mask bi) bj = (hasBit x bj || decide (bi % 8 = bj % 8)) := by
  have : bj % 8 < 8 := Nat.mod_lt _ (by decide)
  simp [hasBit, mask_toBitVec, this]
  grind

theorem hasBit_clear_mask (x : UInt8) (bi bj : Nat) :
    hasBit (x &&& ~~~mask bi) bj = (hasBit x bj && !decide (bi % 8 = bj % 8)) := by
  have : bj % 8 < 8 := Nat.mod_lt _ (by decide)
  simp [hasBit, mask_toBitVec, this]
  grind

def bitOf (bp : Buf) (bi : Nat) : Bool := hasBit (bp (bi / 8)) bi

def setBit (bp : Buf) (bi : Nat) : Buf := update bp (bi / 8) (bp (bi / 8) ||| mask bi)

def clearBit (bp : Buf) (bi : Nat) : Buf := update bp (bi / 8) (bp (bi / 8) &&& ~~~mask bi)

theorem bitOf_setBit (bp : Buf) (bi bj : Nat) :
    bitOf (setBit bp bi) bj = (bitOf bp bj || decide (bi = bj)) := by
  unfold bitOf setBit
  rcases eq_or_ne (bj / 8) (bi / 8) with h | h
  · rw [h, update_self, hasBit_or_mask]
    congr 2
    exact propext (by omega)
  · rw [update_of_ne h, decide_eq_false (by rintro rfl; exact h rfl), Bool.or_false]

theorem bitOf_clearBit (bp : Buf) (bi bj : Nat) :
    bitOf (clearBit bp bi) bj = (bitOf bp bj && !decide (bi = bj)) := by
  unfold bitOf clearBit
  rcases eq_or_ne (bj / 8) (bi / 8) with h | h
  · rw [h, update_self, hasBit_clear_mask]
    congr 3
    exact propext (by omega)
  · rw [update_of_ne h, decide_eq_false (by rintro rfl; exact h rfl), Bool.not_false,
      Bool.and_true]

/-! ## Inodes on disk -/

/-- `struct dinode`. -/
structure Dinode where
  type : Int16
  major : Int16
  minor : Int16
  nlink : Int16
  size : UInt32
  addrs : Fin 13 → UInt32

theorem lt_ndirect {bn : Nat} (h : bn < 12) : bn < 13 := Nat.lt_succ_of_lt h

def tDir : Int16 := 1
def tFile : Int16 := 2
def tDev : Int16 := 3

namespace Dinode

/-- What `memset(dip, 0, sizeof(*dip))` leaves. -/
def zero : Dinode := ⟨0, 0, 0, 0, 0, fun _ => 0⟩

def shortAt (b : Buf) (o : Nat) : Int16 := (UInt16.ofNat (getLE b o 2)).toInt16

def uintAt (b : Buf) (o : Nat) : UInt32 := UInt32.ofNat (getLE b o 4)

/-- The inode stored at offset `o` of a block. -/
def ofBytes (b : Buf) (o : Nat) : Dinode where
  type := shortAt b o
  major := shortAt b (o + 2)
  minor := shortAt b (o + 4)
  nlink := shortAt b (o + 6)
  size := uintAt b (o + 8)
  addrs k := uintAt b (o + 12 + 4 * k)

/-- The 64 bytes of an inode. -/
def bytes (n : Dinode) : Buf := fun j =>
  if j < 2 then byteOf n.type.toUInt16.toNat j
  else if j < 4 then byteOf n.major.toUInt16.toNat (j - 2)
  else if j < 6 then byteOf n.minor.toUInt16.toNat (j - 4)
  else if j < 8 then byteOf n.nlink.toUInt16.toNat (j - 6)
  else if j < 12 then byteOf n.size.toNat (j - 8)
  else if h : j < 64 then byteOf (n.addrs ⟨(j - 12) / 4, by omega⟩).toNat ((j - 12) % 4)
  else 0

theorem shortAt_of_bytes {b : Buf} {o : Nat} {v : Int16}
    (h : ∀ k, k < 2 → b (o + k) = byteOf v.toUInt16.toNat k) : shortAt b o = v := by
  have hv := v.toUInt16.toNat_lt
  rw [shortAt, getLE_of_bytes h, Nat.mod_eq_of_lt (by omega), UInt16.ofNat_toNat]
  exact v.toInt16_toUInt16

theorem uintAt_of_bytes {b : Buf} {o : Nat} {v : UInt32}
    (h : ∀ k, k < 4 → b (o + k) = byteOf v.toNat k) : uintAt b o = v := by
  have hv := v.toNat_lt
  rw [uintAt, getLE_of_bytes h, Nat.mod_eq_of_lt (by omega), UInt32.ofNat_toNat]

theorem ofBytes_congr {b b' : Buf} {o o' : Nat} (h : ∀ k, k < 64 → b (o + k) = b' (o' + k)) :
    ofBytes b o = ofBytes b' o' := by
  have hget : ∀ k w, k + w ≤ 64 → getLE b (o + k) w = getLE b' (o' + k) w := by
    intro k w hk
    apply getLE_congr
    intro l hl
    rw [Nat.add_assoc, Nat.add_assoc]
    exact h (k + l) (by omega)
  have hfield : ∀ k : Fin 13, getLE b (o + 12 + 4 * k) 4 = getLE b' (o' + 12 + 4 * k) 4 := by
    intro k
    rw [Nat.add_assoc, Nat.add_assoc]
    exact hget _ _ (by omega)
  have hzero := hget 0 2 (by omega)
  rw [Nat.add_zero, Nat.add_zero] at hzero
  simp only [ofBytes, shortAt, uintAt, hzero, hget 2 2 (by omega), hget 4 2 (by omega),
    hget 6 2 (by omega), hget 8 4 (by omega), hfield]

theorem ofBytes_bytes (n : Dinode) : ofBytes n.bytes 0 = n := by
  have haddrs : ∀ k : Fin 13, uintAt n.bytes (0 + 12 + 4 * k) = n.addrs k := by
    intro k
    apply uintAt_of_bytes
    intro l hl
    have hk : (⟨(0 + 12 + 4 * k.val + l - 12) / 4, by omega⟩ : Fin 13) = k :=
      Fin.ext (by simp only; omega)
    have hl' : (0 + 12 + 4 * k.val + l - 12) % 4 = l := by omega
    rw [bytes, if_neg (by omega), if_neg (by omega), if_neg (by omega), if_neg (by omega),
      if_neg (by omega), dif_pos (by omega), hk, hl']
  have hsize : uintAt n.bytes (0 + 8) = n.size := by
    apply uintAt_of_bytes
    intro l hl
    rw [bytes, if_neg (by omega), if_neg (by omega), if_neg (by omega), if_neg (by omega),
      if_pos (by omega), Nat.zero_add, Nat.add_sub_cancel_left]
  have hshort : shortAt n.bytes 0 = n.type ∧ shortAt n.bytes (0 + 2) = n.major ∧
      shortAt n.bytes (0 + 4) = n.minor ∧ shortAt n.bytes (0 + 6) = n.nlink := by
    refine ⟨?_, ?_, ?_, ?_⟩ <;> apply shortAt_of_bytes <;> intro l hl <;>
      (interval_cases l <;> rfl)
  rw [ofBytes, hsize, hshort.1, hshort.2.1, hshort.2.2.1, hshort.2.2.2]
  simp only [haddrs]

theorem ofBytes_memmove (b : Buf) (o : Nat) (n : Dinode) :
    ofBytes (memmove b o n.bytes 64) o = n := by
  rw [← ofBytes_bytes n]
  apply ofBytes_congr
  intro k hk
  rw [memmove_inside (by omega) (by omega), Nat.add_sub_cancel_left, Nat.zero_add, ofBytes_bytes]

theorem ofBytes_memmove_other {b src : Buf} {o o' : Nat} (h : o' + 64 ≤ o ∨ o + 64 ≤ o') :
    ofBytes (memmove b o src 64) o' = ofBytes b o' :=
  ofBytes_congr fun _ hk => memmove_outside (by omega)

end Dinode

/-! ## Operations -/

abbrev Disk := Nat → Buf

/-- The disk, with how many times `log_write` was called and the blocks that `balloc`
has handed out, the last one first. -/
structure Fs where
  disk : Disk
  writes : Nat
  allocs : List Nat

/-- Code that runs on the image and returns or panics. -/
def FsM (α : Type) : Type := Fs → Except String (α × Fs)

instance : Monad FsM where
  pure a s := .ok (a, s)
  bind x f s := match x s with
    | .ok (a, s') => f a s'
    | .error msg => .error msg

section Run

variable {α β : Type} {x : FsM α} {f : α → FsM β} {s s' : Fs} {a : α} {msg : String}
  {r : Except String (β × Fs)}

theorem bind_of_ok (h : x s = .ok (a, s')) : (x >>= f) s = f a s' := by
  change (match x s with | .ok (a, s') => f a s' | .error msg => .error msg) = _
  rw [h]

theorem bind_of_error (h : x s = .error msg) : (x >>= f) s = .error msg := by
  change (match x s with | .ok (a, s') => f a s' | .error msg => .error msg) = _
  rw [h]

/-- A sequence fails in its first part, or runs its second part where that ended. -/
theorem bind_cases (h : (x >>= f) s = r) :
    (∃ a s', x s = .ok (a, s') ∧ f a s' = r) ∨ ∃ msg, x s = .error msg ∧ r = .error msg := by
  cases hx : x s with
  | ok p => exact .inl ⟨p.1, p.2, rfl, by rw [← h, bind_of_ok hx]⟩
  | error msg => exact .inr ⟨msg, rfl, by rw [← h, bind_of_error hx]⟩

theorem bind_ok {b : β} {t : Fs} (h : (x >>= f) s = .ok (b, t)) :
    ∃ a s', x s = .ok (a, s') ∧ f a s' = .ok (b, t) := by
  obtain h | ⟨msg, -, h⟩ := bind_cases h
  · exact h
  · cases h

end Run

/-- What fs.c uses of the machine. Code that is written for any machine can also be run with a
record of the blocks it logs. -/
class Machine (m : Type → Type) extends Monad m where
  kpanic {α : Type} : String → m α
  bread : Nat → m Buf
  /-- `log_write` of a buffer that now holds `buf`. -/
  logWrite : Nat → Buf → m Unit
  /-- Marks the return of `balloc`. -/
  handOut : Nat → m Nat

export Machine (kpanic bread logWrite handOut)

instance : Machine FsM where
  kpanic msg _ := .error msg
  bread b s := .ok (s.disk b, s)
  logWrite b buf s := .ok ((), { s with disk := update s.disk b buf, writes := s.writes + 1 })
  handOut b s := .ok (b, { s with allocs := b :: s.allocs })

theorem bread_bind {β : Type} (b : Nat) (f : Buf → FsM β) (s : Fs) :
    (bread b >>= f) s = f (s.disk b) s := rfl

variable (sb : Superblock)

/-- The inner loop of `balloc`: the first free bit of a bitmap block, from `bi` on. -/
def findFree (bp : Buf) (b : Nat) : Nat → Nat → Option Nat
  | 0, _ => none
  | fuel + 1, bi =>
    if bi < 4096 ∧ b + bi < sb.size then
      if bp (bi / 8) &&& mask bi = 0 then some bi else findFree bp b fuel (bi + 1)
    else none

namespace Code

variable {m : Type → Type} [Machine m]

def bzero (b : Nat) : m Unit := logWrite b fun _ => 0

/-- The outer loop of `balloc`, from block `b` on. -/
def ballocFrom : Nat → Nat → m Nat
  | 0, _ => kpanic "balloc: out of blocks"
  | fuel + 1, b =>
    if b < sb.size then do
      let bp ← bread (sb.bblock b)
      match findFree sb bp b 4096 0 with
      | some bi => do
        logWrite (sb.bblock b) (setBit bp bi)
        bzero (b + bi)
        handOut (b + bi)
      | none => ballocFrom fuel (b + 4096)
    else kpanic "balloc: out of blocks"

def balloc : m Nat := ballocFrom sb (sb.size / 4096 + 1) 0

def iupdate (i : Nat) (ip : Dinode) : m Unit := do
  let bp ← bread (sb.iblock i)
  logWrite (sb.iblock i) (memmove bp (i % 8 * 64) ip.bytes 64)

end Code

abbrev balloc : FsM Nat := Code.balloc sb

abbrev iupdate (i : Nat) (ip : Dinode) : FsM Unit := Code.iupdate sb i ip

def bfree (b : Nat) : FsM Unit := do
  let bp ← bread (sb.bblock b)
  if bp (b % 4096 / 8) &&& mask (b % 4096) = 0 then kpanic "freeing free block"
  else logWrite (sb.bblock b) (clearBit bp (b % 4096))

def dinode (d : Disk) (i : Nat) : Dinode := .ofBytes (d (sb.iblock i)) (i % 8 * 64)

/-- The body of the loop of `ialloc`: takes inode `i` if it is free. -/
def iallocAt (type : Int16) (i : Nat) : FsM Bool := do
  let bp ← bread (sb.iblock i)
  if (Dinode.ofBytes bp (i % 8 * 64)).type = 0 then do
    logWrite (sb.iblock i) (memmove bp (i % 8 * 64) { Dinode.zero with type := type }.bytes 64)
    pure true
  else pure false

/-- The loop of `ialloc`, from inode `i` on. -/
def iallocFrom (type : Int16) : Nat → Nat → FsM Nat
  | 0, _ => kpanic "ialloc: no inodes"
  | fuel + 1, i =>
    if i < sb.ninodes then do
      if ← iallocAt sb type i then pure i else iallocFrom type fuel (i + 1)
    else kpanic "ialloc: no inodes"

def ialloc (type : Int16) : FsM Nat := iallocFrom sb type sb.ninodes 1

/-! ## What the operations do -/

/-- The bit of block `b` in the bitmap. -/
def used (d : Disk) (b : Nat) : Bool := bitOf (d (sb.bblock b)) (b % 4096)

/-- The disk after `balloc` took block `b`. -/
def takeBlock (d : Disk) (b : Nat) : Disk :=
  update (update d (sb.bblock b) (setBit (d (sb.bblock b)) (b % 4096))) b fun _ => 0

/-- The disk after `bfree` released block `b`. -/
def dropBlock (d : Disk) (b : Nat) : Disk :=
  update d (sb.bblock b) (clearBit (d (sb.bblock b)) (b % 4096))

/-- The disk after inode `i` was written. -/
def putDinode (d : Disk) (i : Nat) (n : Dinode) : Disk :=
  update d (sb.iblock i) (memmove (d (sb.iblock i)) (i % 8 * 64) n.bytes 64)

variable {sb} {s s' : Fs} {d : Disk} {b c i j : Nat} {n ip : Dinode} {type : Int16}

theorem findFree_some {bp : Buf} {fuel bi k : Nat} (h : findFree sb bp b fuel bi = some k) :
    k < 4096 ∧ b + k < sb.size ∧ bitOf bp k = false := by
  induction fuel generalizing bi with
  | zero => cases h
  | succ fuel ih =>
    rw [findFree] at h
    split at h
    next hin =>
      split at h
      next hfree =>
        cases h
        exact ⟨hin.1, hin.2, (and_mask_eq_zero _ _).mp hfree⟩
      next => exact ih h
    next => cases h

theorem findFree_none {bp : Buf} {fuel bi k : Nat} (h : findFree sb bp b fuel bi = none)
    (hk : bi ≤ k) (hfuel : k < bi + fuel) (hmax : k < 4096) (hsize : b + k < sb.size) :
    bitOf bp k = true := by
  induction fuel generalizing bi with
  | zero => omega
  | succ fuel ih =>
    rw [findFree, if_pos ⟨by omega, by omega⟩] at h
    split at h
    next => cases h
    next hbit =>
      by_cases heq : bi = k
      · subst heq
        exact Bool.not_eq_false _ ▸ mt (and_mask_eq_zero _ _).mpr hbit
      · exact ih h (by omega) (by omega)

/-- `balloc` finds a block that is free, marks it and fills it with zeros, or every block is
marked. -/
theorem balloc_cases (sb : Superblock) (s : Fs) :
    (∃ b, b < sb.size ∧ used sb s.disk b = false ∧
      balloc sb s = .ok (b, ⟨takeBlock sb s.disk b, s.writes + 2, b :: s.allocs⟩)) ∨
    balloc sb s = .error "balloc: out of blocks" ∧ ∀ b, b < sb.size → used sb s.disk b = true := by
  suffices hloop : ∀ fuel k, k % 4096 = 0 →
      (∃ b, b < sb.size ∧ used sb s.disk b = false ∧
        (Code.ballocFrom sb fuel k : FsM Nat) s =
        .ok (b, ⟨takeBlock sb s.disk b, s.writes + 2, b :: s.allocs⟩)) ∨
      (Code.ballocFrom sb fuel k : FsM Nat) s = .error "balloc: out of blocks" ∧
        ∀ b, k ≤ b → b < k + 4096 * fuel → b < sb.size → used sb s.disk b = true from
    (hloop _ 0 rfl).imp id fun h => ⟨h.1, fun b hb => h.2 b (Nat.zero_le b) (by omega) hb⟩
  intro fuel
  induction fuel with
  | zero => exact fun k _ => .inr ⟨rfl, fun b _ _ => by omega⟩
  | succ fuel ih =>
    intro k hk
    rw [Code.ballocFrom]
    by_cases hlt : k < sb.size
    · rw [if_pos hlt, bread_bind]
      have hblock : ∀ j, j < 4096 → sb.bblock (k + j) = sb.bblock k ∧ (k + j) % 4096 = j := by
        intro j hj
        unfold Superblock.bblock
        omega
      cases hbi : findFree sb (s.disk (sb.bblock k)) k 4096 0 with
      | some bi =>
        obtain ⟨hmax, hsize, hbit⟩ := findFree_some hbi
        obtain ⟨hsame, hmod⟩ := hblock bi hmax
        refine .inl ⟨k + bi, hsize, ?_, ?_⟩
        · rwa [used, hsame, hmod]
        · rw [takeBlock, hsame, hmod]
          rfl
      | none =>
        refine (ih (k + 4096) (by omega)).imp id fun h => ⟨h.1, fun b hb hin hsize => ?_⟩
        by_cases hhere : b < k + 4096
        · obtain ⟨j, rfl⟩ := Nat.exists_eq_add_of_le hb
          obtain ⟨hsame, hmod⟩ := hblock j (by omega)
          rw [used, hsame, hmod]
          exact findFree_none hbi (Nat.zero_le j) (by omega) (by omega) hsize
        · exact h.2 b (by omega) (by omega) hsize
    · rw [if_neg hlt]
      exact .inr ⟨rfl, fun b _ _ => by omega⟩

theorem balloc_ok (h : balloc sb s = .ok (b, s')) :
    b < sb.size ∧ used sb s.disk b = false ∧
      s' = ⟨takeBlock sb s.disk b, s.writes + 2, b :: s.allocs⟩ := by
  obtain ⟨b', hlt, hused, hrun⟩ | ⟨hrun, -⟩ := balloc_cases sb s
  · cases h.symm.trans hrun
    exact ⟨hlt, hused, rfl⟩
  · cases h.symm.trans hrun

theorem balloc_error {msg : String} (h : balloc sb s = .error msg) :
    msg = "balloc: out of blocks" := by
  obtain ⟨b, -, -, hrun⟩ | ⟨hrun, -⟩ := balloc_cases sb s
  · cases h.symm.trans hrun
  · exact Except.error.inj (h.symm.trans hrun)

theorem bfree_used (h : used sb s.disk b = true) :
    bfree sb b s = .ok ((), { s with disk := dropBlock sb s.disk b, writes := s.writes + 1 }) := by
  have hbit : ¬ s.disk (sb.bblock b) (b % 4096 / 8) &&& mask (b % 4096) = 0 := by
    rw [and_mask_eq_zero]
    exact fun h' => Bool.noConfusion (h.symm.trans h')
  rw [bfree, bread_bind, if_neg hbit]
  rfl

theorem iupdate_run (i : Nat) (ip : Dinode) (s : Fs) :
    iupdate sb i ip s =
      .ok ((), { s with disk := putDinode sb s.disk i ip, writes := s.writes + 1 }) := rfl

theorem iallocAt_run (type : Int16) (i : Nat) (s : Fs) : iallocAt sb type i s =
    if (dinode sb s.disk i).type = 0 then .ok (true, { s with
      disk := putDinode sb s.disk i { Dinode.zero with type := type }, writes := s.writes + 1 })
    else .ok (false, s) := by
  rw [iallocAt, bread_bind, dinode]
  split <;> rfl

theorem ialloc_ok (h : ialloc sb type s = .ok (i, s')) :
    0 < i ∧ i < sb.ninodes ∧ (dinode sb s.disk i).type = 0 ∧ s' = { s with
      disk :=
        putDinode sb s.disk i { Dinode.zero with type := type }, writes := s.writes + 1 } := by
  suffices hloop : ∀ fuel k, 0 < k → iallocFrom sb type fuel k s = .ok (i, s') → 0 < i ∧
      i < sb.ninodes ∧ (dinode sb s.disk i).type = 0 ∧ s' = { s with
        disk := putDinode sb s.disk i { Dinode.zero with type := type },
        writes := s.writes + 1 } from hloop _ 1 Nat.one_pos h
  intro fuel
  induction fuel with
  | zero => intro k _ h; cases h
  | succ fuel ih =>
    intro k hk h
    rw [iallocFrom] at h
    split at h
    next hlt =>
      obtain ⟨taken, t, hat, h⟩ := bind_ok h
      rw [iallocAt_run] at hat
      split at hat
      next hfree =>
        cases hat
        cases h
        exact ⟨hk, hlt, hfree, rfl⟩
      next =>
        cases hat
        exact ih _ (by omega) h
    next => cases h

theorem ialloc_error {msg : String} (h : ialloc sb type s = .error msg) :
    msg = "ialloc: no inodes" := by
  suffices hloop : ∀ fuel k, iallocFrom sb type fuel k s = .error msg →
      msg = "ialloc: no inodes" from
    hloop _ 1 h
  intro fuel
  induction fuel with
  | zero => intro k h; cases h; rfl
  | succ fuel ih =>
    intro k h
    rw [iallocFrom] at h
    split at h
    next =>
      obtain ⟨taken, t, hat, h⟩ | ⟨msg', hat, h⟩ := bind_cases h
      · rw [iallocAt_run] at hat
        split at hat
        · cases hat
          cases h
        · cases hat
          exact ih _ h
      · rw [iallocAt_run] at hat
        split at hat <;> cases hat
    next => cases h; rfl

theorem takeBlock_of_ne (h : c ≠ b) (h' : c ≠ sb.bblock b) : takeBlock sb d b c = d c := by
  rw [takeBlock, update_of_ne h, update_of_ne h']

theorem takeBlock_self (d : Disk) (b : Nat) : takeBlock sb d b b = fun _ => 0 :=
  update_self ..

theorem bitOf_update (x : Disk) (g : Buf → Nat → Buf) (b c : Nat) (f : Bool → Bool → Bool)
    (hg : ∀ bp bi bj, bitOf (g bp bi) bj = f (bitOf bp bj) (decide (bi = bj)))
    (hf : ∀ x, f x false = x) :
    used sb (update x (sb.bblock b) (g (x (sb.bblock b)) (b % 4096))) c =
      f (used sb x c) (decide (b = c)) := by
  unfold used
  rcases eq_or_ne (sb.bblock c) (sb.bblock b) with h | h
  · rw [h, update_self, hg]
    congr 2
    unfold Superblock.bblock at h
    exact propext (by omega)
  · rw [update_of_ne h, decide_eq_false (by rintro rfl; exact h rfl), hf]

theorem used_takeBlock (hb : sb.nmeta ≤ b) (hc : c < sb.size) :
    used sb (takeBlock sb d b) c = (used sb d c || decide (b = c)) := by
  have hne : sb.bblock c ≠ b := by
    have := Superblock.bblock_lt hc
    omega
  rw [← bitOf_update d setBit b c or bitOf_setBit Bool.or_false, used, takeBlock,
    update_of_ne hne, used]

theorem used_dropBlock : used sb (dropBlock sb d b) c = (used sb d c && !decide (b = c)) :=
  bitOf_update d clearBit b c (fun x y => x && !y) bitOf_clearBit Bool.and_true

theorem dropBlock_of_ne (h : c ≠ sb.bblock b) : dropBlock sb d b c = d c :=
  update_of_ne h ..

theorem putDinode_of_ne (h : c ≠ sb.iblock i) : putDinode sb d i n c = d c :=
  update_of_ne h ..

theorem dinode_putDinode (d : Disk) (i : Nat) (n : Dinode) (j : Nat) :
    dinode sb (putDinode sb d i n) j = if j = i then n else dinode sb d j := by
  unfold dinode putDinode
  split
  next h => rw [h, update_self, Dinode.ofBytes_memmove]
  next h =>
    rcases eq_or_ne (sb.iblock j) (sb.iblock i) with hb | hb
    · rw [hb, update_self, Dinode.ofBytes_memmove_other]
      unfold Superblock.iblock at hb
      omega
    · rw [update_of_ne hb]

/-- Inodes are read from their own blocks. -/
theorem dinode_congr {d' : Disk} (h : d' (sb.iblock i) = d (sb.iblock i)) :
    dinode sb d' i = dinode sb d i := by
  rw [dinode, h, dinode]

theorem used_putDinode (hi : i < sb.ninodes) : used sb (putDinode sb d i n) c = used sb d c := by
  have h : sb.bblock c ≠ sb.iblock i := by
    have := Superblock.iblock_lt hi
    have := sb.bblock_ge c
    omega
  rw [used, putDinode_of_ne h, used]

theorem dinode_takeBlock (hb : sb.nmeta ≤ b) (hi : i < sb.ninodes) :
    dinode sb (takeBlock sb d b) i = dinode sb d i := by
  have hlt := Superblock.iblock_lt hi
  have hmeta := Superblock.iblock_lt_nmeta hi
  have hge := sb.bblock_ge b
  exact dinode_congr (takeBlock_of_ne (by omega) (by omega))

end Xv6.FsImage
