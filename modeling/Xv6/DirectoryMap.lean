import Xv6.DirentWrite
import Xv6.FileRuns
import Xv6.PathElements
import Xv6.SlotMap

/-!
# A directory as a finite map

`dirlookup`, `dirlink` and the part of `sys_unlink` that clears an entry, on the inode of a
directory that is locked. The entries are slots: one with inode number 0 is empty, and the
others bind a name to an inode number.
-/
namespace Xv6.DirectoryMap

open Function (update update_self update_of_ne)
open Bytes FsImage BlockMap Directory DirentWrite PathElements SlotMap

/-! ## The code -/

/-- The second loop of `strncpy`: zeros from offset `o` on. -/
def zeros : Buf → Nat → Nat → Buf
  | s, _, 0 => s
  | s, o, n + 1 => zeros (update s o 0) (o + 1) n

/-- `strncpy(s + o, t + o, n)`. -/
def strncpy (t : Buf) : Buf → Nat → Nat → Buf
  | s, _, 0 => s
  | s, o, n + 1 =>
    if t o ≠ 0 then strncpy t (update s o (t o)) (o + 1) n else zeros (update s o (t o)) (o + 1) n

/-- The entry that `dirlink` fills in. -/
def linkBytes (name : Buf) (inum : Nat) : Buf := fun j =>
  if j < 2 then byteOf (UInt16.ofNat inum).toNat j else strncpy name (fun _ => 0) 0 14 (j - 2)

variable (sb : Superblock)

/-- `dirlink`, without the `iput` of an inode that was found. -/
def dirlink (i : Nat) (ip : Dinode) (name : Buf) (inum : Nat) : FsM (Dinode × Int) := do
  let (ip, r) ← dirlookup sb ip (nameIn name)
  match r with
  | some _ => pure (ip, -1)
  | none => do
    let (ip, off) ← emptySlot sb ip
    let (ip, r) ← FileData.writei sb i ip (linkBytes name inum) (UInt32.ofNat off) 16
    if r ≠ some 16 then kpanic "dirlink" else pure (ip, 0)

/-- `sys_unlink` looks the name up, and clears the entry. -/
def unlinkEntry (i : Nat) (ip : Dinode) (name : Buf) : FsM (Dinode × Option (Nat × Nat)) := do
  let (ip, r) ← dirlookup sb ip (nameIn name)
  match r with
  | none => pure (ip, none)
  | some (inum, off) => do
    let (ip, r) ← FileData.writei sb i ip (fun _ => 0) (UInt32.ofNat off) 16
    if r ≠ some 16 then kpanic "unlink: writei" else pure (ip, some (inum, off))

/-- The file system, and the copy of the directory's inode. -/
structure Dir where
  fs : Fs
  ip : Dinode

inductive DirOp where
  | dirlookup (name : Buf)
  | dirlink (name : Buf) (inum : Nat)
  | unlink (name : Buf)
  | isdirempty

inductive DirReply where
  | found (r : Option (Nat × Nat))
  | int (r : Int)
  | bool (b : Bool)
  deriving DecidableEq

def body (i : Nat) (ip : Dinode) : DirOp → FsM (Dinode × DirReply)
  | .dirlookup name => do
    let (ip, r) ← dirlookup sb ip (nameIn name)
    pure (ip, .found r)
  | .dirlink name inum => do
    let (ip, r) ← dirlink sb i ip name inum
    pure (ip, .int r)
  | .unlink name => do
    let (ip, r) ← unlinkEntry sb i ip name
    pure (ip, .found r)
  | .isdirempty => do
    let (ip, r) ← isdirempty sb ip
    pure (ip, .bool r)

def step (i : Nat) (st : Dir) (op : DirOp) : Except String (DirReply × Dir) :=
  match body sb i st.ip op st.fs with
  | .ok ((ip, r), fs) => .ok (r, ⟨fs, ip⟩)
  | .error msg => .error msg

def next (i : Nat) (st : Dir) (op : DirOp) : Option Dir :=
  match step sb i st op with
  | .ok (_, st') => some st'
  | .error _ => none

/-! ## What it should do -/

def slotOf (de : Dirent) : Option (Name × Nat) :=
  if de.inum = 0 then none else some (de.name, de.inum.toNat)

def slots (st : Dir) : Slots Name Nat :=
  (List.range (st.ip.size.toNat / 16)).map fun k => slotOf (direntAt st.fs.disk st.ip (16 * k))

/-- The map from names to inode numbers. -/
def dirMap (st : Dir) : Name → Option Nat := lookup (slots st)

/-- A directory without holes, whose entries in use have different names. -/
structure Good (i : Fin sb.ninodes) (st : Dir) : Prop where
  owned : Owned sb st.fs.disk (dinode sb st.fs.disk)
  copy : dinode sb st.fs.disk i = st.ip
  type : st.ip.type = tDir
  mapped : Mapped st.fs.disk st.ip
  aligned : st.ip.size.toNat % 16 = 0
  distinct : Distinct (slots st)

/-- There is an empty entry, or room for another one. -/
def Room (st : Dir) : Prop :=
  (∃ k : Nat, (slots st)[k]? = some none) ∨ st.ip.size.toNat + 16 ≤ 140 * 512

/-- Inode number 0 is not linked, numbers fit in an entry, and there is room. -/
def Allowed (st : Dir) : DirOp → Prop
  | .dirlink _ inum => inum ≠ 0 ∧ inum < 65536 ∧ Room st
  | _ => True

variable {sb} {i : Fin sb.ninodes} {st st' : Dir} {name : Name} {k : Nat}
  {s s' : Fs} {ip ip' : Dinode}
  {msg : String} {off : Nat}

/-! ## Names in entries -/

theorem length_slots (st : Dir) : (slots st).length = st.ip.size.toNat / 16 := by
  rw [slots, List.length_map, List.length_range]

theorem getElem?_slots (hk : k < st.ip.size.toNat / 16) :
    (slots st)[k]? = some (slotOf (direntAt st.fs.disk st.ip (16 * k))) := by
  rw [slots, List.getElem?_map, List.getElem?_range hk]
  rfl

theorem slotOf_eq_some {de : Dirent} {inum : Nat} :
    slotOf de = some (name, inum) ↔ hasName name de = true ∧ de.inum.toNat = inum := by
  rw [slotOf, hasName, Bool.and_eq_true, bne_iff_ne, beq_iff_eq]
  split
  case isTrue h => exact ⟨fun h => (by cases h), fun hand => absurd h hand.1.1⟩
  case isFalse h =>
    rw [Option.some.injEq, Prod.mk.injEq]
    exact ⟨fun hand => ⟨⟨h, hand.1⟩, hand.2⟩, fun hand => ⟨hand.1.2, hand.2⟩⟩

theorem binds_iff {inum : Nat} : Binds (slots st) k name inum ↔ k < st.ip.size.toNat / 16 ∧
    hasName name (direntAt st.fs.disk st.ip (16 * k)) = true ∧
    (direntAt st.fs.disk st.ip (16 * k)).inum.toNat = inum := by
  by_cases hk : k < st.ip.size.toNat / 16
  · rw [Binds, getElem?_slots hk, Option.some.injEq, slotOf_eq_some]
    exact ⟨fun h => ⟨hk, h⟩, fun h => h.2⟩
  · rw [Binds, List.getElem?_eq_none (by rw [length_slots]; omega)]
    exact ⟨fun h => (by cases h), fun h => absurd h.1 hk⟩

/-- `dirlookup` answers what the map has. -/
theorem Good.dirlookup (h : Good sb i st) (name : Name) : ∃ o,
    Directory.dirlookup sb st.ip name st.fs = .ok ((st.ip, o), st.fs) ∧
      dirMap st name = o.map Prod.fst ∧
      ∀ inum off, o = some (inum, off) → ∃ k, off = 16 * k ∧ Binds (slots st) k name inum := by
  rw [Directory.dirlookup, if_neg (not_not.mpr h.type)]
  have haligned := h.aligned
  obtain ⟨hscan, hnone⟩ | ⟨k, hscan, hlt, hacc⟩ := scan_run h.mapped h.aligned
    (rfl : 0 % 16 = 0) (by omega : st.ip.size.toNat < 0 + 16 * (st.ip.size.toNat / 16 + 1))
  · rw [bind_of_ok hscan]
    refine ⟨none, rfl, lookup_eq_none.mpr fun k inum hk => ?_, fun _ _ h => by cases h⟩
    obtain ⟨hlt, hname, -⟩ := binds_iff.mp hk
    have := hnone k (by omega)
    rw [Nat.zero_add, hname] at this
    cases this
  · rw [Nat.zero_add] at hscan hlt hacc
    rw [bind_of_ok hscan]
    have hbinds : Binds (slots st) k name (direntAt st.fs.disk st.ip (16 * k)).inum.toNat :=
      binds_iff.mpr ⟨by omega, hacc, rfl⟩
    refine ⟨_, rfl, (lookup_eq_some h.distinct).mpr ⟨k, hbinds⟩, fun inum off heq => ?_⟩
    cases heq
    exact ⟨k, rfl, hbinds⟩

/-- `dirlink` finds an empty entry, or the end of the directory. -/
theorem Good.emptySlot (h : Good sb i st) (hroom : Room st) : ∃ k,
    Directory.emptySlot sb st.ip st.fs = .ok ((st.ip, 16 * k), st.fs) ∧ 16 * k ≤ st.ip.size.toNat ∧
      16 * k + 16 ≤ 140 * 512 ∧ ∀ name inum, ¬ Binds (slots st) k name inum := by
  have haligned := h.aligned
  have hmax := h.mapped.size_le
  rw [Directory.emptySlot]
  obtain ⟨hscan, hnone⟩ | ⟨k, hscan, hlt, hacc⟩ := scan_run h.mapped h.aligned
    (rfl : 0 % 16 = 0) (by omega : st.ip.size.toNat < 0 + 16 * (st.ip.size.toNat / 16 + 1))
  · rw [bind_of_ok hscan]
    refine ⟨st.ip.size.toNat / 16, ?_, by omega, ?_, fun name inum hk => ?_⟩
    · rw [show 16 * (st.ip.size.toNat / 16) = (st.ip.size.toNat + 15) / 16 * 16 by omega]
      rfl
    · obtain ⟨k, hk⟩ | hgrow := hroom
      · -- the loop would have found an empty entry
        have hlt : k < st.ip.size.toNat / 16 := by
          rw [← length_slots]
          exact (List.getElem?_eq_some_iff.mp hk).1
        rw [getElem?_slots hlt, slotOf] at hk
        have := hnone k (by omega)
        rw [Nat.zero_add, beq_eq_false_iff_ne] at this
        rw [if_neg this] at hk
        cases hk
      · omega
    · exact absurd (binds_iff.mp hk).1 (Nat.lt_irrefl _)
  · rw [Nat.zero_add] at hscan hlt hacc
    rw [bind_of_ok hscan]
    refine ⟨k, rfl, by omega, by omega, fun name inum hk => ?_⟩
    have hname := (binds_iff.mp hk).2.1
    rw [hasName, Bool.and_eq_true, bne_iff_ne] at hname
    exact hname.1 (beq_iff_eq.mp hacc)

theorem Good.isdirempty (h : Good sb i st) : ∃ b,
    Directory.isdirempty sb st.ip st.fs = .ok ((st.ip, b), st.fs) ∧
      (b = true ↔ ∀ k name inum, Binds (slots st) k name inum → k < 2) := by
  have haligned := h.aligned
  rw [Directory.isdirempty]
  obtain ⟨hscan, hnone⟩ | ⟨k, hscan, hlt, hacc⟩ := scan_run h.mapped h.aligned
    (rfl : 32 % 16 = 0) (by omega : st.ip.size.toNat < 32 + 16 * (st.ip.size.toNat / 16 + 1))
  · rw [bind_of_ok hscan]
    refine ⟨true, rfl, fun _ k name inum hk => Nat.not_le.mp fun hge => ?_, fun _ => rfl⟩
    obtain ⟨hlt, hname, -⟩ := binds_iff.mp hk
    have := hnone (k - 2) (by omega)
    rw [show 32 + 16 * (k - 2) = 16 * k by omega, bne_eq_false_iff_eq] at this
    rw [hasName, Bool.and_eq_true, bne_iff_ne] at hname
    exact hname.1 this
  · rw [bind_of_ok hscan]
    refine ⟨false, rfl, fun h => (by cases h), fun hall => ?_⟩
    have hk : 32 + 16 * k = 16 * (k + 2) := by omega
    rw [hk] at hlt hacc
    have hbinds : Binds (slots st) (k + 2) (direntAt st.fs.disk st.ip (16 * (k + 2))).name
        (direntAt st.fs.disk st.ip (16 * (k + 2))).inum.toNat := by
      refine binds_iff.mpr ⟨by omega, ?_, rfl⟩
      rw [hasName, hacc, Bool.true_and, beq_self_eq_true]
    have := hall _ _ _ hbinds
    omega

/-! ## Writing an entry -/

/-- An entry is written: the slot changes, and the others stay. -/
theorem Good.writei {src : Buf} {r : Option UInt32} (h : Good sb i st)
    (hk : 16 * k ≤ st.ip.size.toNat) (hmax : 16 * k + 16 ≤ 140 * 512)
    (hrun : FileData.writei sb i st.ip src (UInt32.ofNat (16 * k)) 16 st.fs = .ok ((ip', r), s')) :
    r = some 16 ∧ (Distinct (slots ⟨s', ip'⟩) → Good sb i ⟨s', ip'⟩) ∧
      slots ⟨s', ip'⟩ = put (slots st) k (slotOf (.ofBytes ((List.range 16).map src))) := by
  have haligned := h.aligned
  have htype : (dinode sb st.fs.disk i).type ≠ 0 := by rw [h.copy, h.type]; decide
  have hmapped := h.mapped
  have hcopy := h.copy
  rw [← hcopy] at hrun hmapped haligned hk
  obtain ⟨hr, hself, hw⟩ := entered_writei h.owned i.isLt htype hmapped haligned hk hmax hrun
  have hsize := hw.size
  have hentry := hw.entry
  rw [hself, hcopy] at hsize hentry
  rw [hcopy] at haligned hk
  refine ⟨hr, fun hdistinct => ⟨hw.owned, hself, ?_, ?_, ?_, hdistinct⟩, ?_⟩
  · have := hw.nums.type
    rwa [hself, hcopy, h.type] at this
  · exact hself ▸ hw.mapped
  · change ip'.size.toNat % 16 = 0
    omega
  · have hlen : k ≤ (slots st).length := by rw [length_slots]; omega
    refine List.ext_getElem? fun j => ?_
    rw [getElem?_put hlen]
    by_cases hj : j < ip'.size.toNat / 16
    · have hget : (slots ⟨s', ip'⟩)[j]? = _ := getElem?_slots hj
      rw [hget, hentry j (by omega)]
      split
      case isTrue => rfl
      case isFalse hne => rw [getElem?_slots (by omega)]
    · rw [List.getElem?_eq_none (by rw [length_slots]; exact Nat.not_lt.mp hj), if_neg (by omega),
        List.getElem?_eq_none (by rw [length_slots]; omega)]

open FileRuns (tinySb tinyFs)

end Xv6.DirectoryMap
