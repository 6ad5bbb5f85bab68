import Xv6.FileData

/-!
# Directories and names

Directory entries, the loops over them of `dirlookup`, `dirlink` and `isdirempty`, and the
elements of a path. A name has at most `DIRSIZ`, that is 14, bytes, none of them zero.
-/
namespace Xv6.Directory

open Bytes FsImage BlockMap

abbrev Name := List UInt8

abbrev Path := List UInt8

/-- `/`, `.` and `..`. -/
def slash : UInt8 := 47
def dot : Name := [46]
def dotdot : Name := [46, 46]

/-- `skipelem`: the next element, and the path after it without leading slashes. -/
def skipelem (path : Path) : Option (Name × Path) :=
  let path := path.dropWhile (· = slash)
  if path = [] then none
  else some ((path.takeWhile (· ≠ slash)).take 14,
    (path.dropWhile (· ≠ slash)).dropWhile (· = slash))

/-- The elements that repeated calls of `skipelem` give. -/
def elemsFrom : Nat → Path → List Name
  | 0, _ => []
  | fuel + 1, path =>
    match skipelem path with
    | none => []
    | some (name, path) => name :: elemsFrom fuel path

/-- A string ends at its first zero byte. Each element takes a byte at least, so the length
of the path is enough. -/
def elems (path : Path) : List Name := elemsFrom path.length (path.takeWhile (· ≠ 0))

/-- `struct dirent`. -/
structure Dirent where
  inum : UInt16
  name : Name
  deriving DecidableEq

def Dirent.ofBytes (b : List UInt8) : Dirent where
  inum := UInt16.ofNat ((b.getD 0 0).toNat + 256 * (b.getD 1 0).toNat)
  name := ((b.drop 2).take 14).takeWhile (· ≠ 0)

/-- The 16 bytes of an entry, the name padded with zeros by `strncpy`. -/
def Dirent.bytes (de : Dirent) : Buf := fun j =>
  if j < 2 then byteOf de.inum.toNat j else de.name.getD (j - 2) 0

/-- A string in a buffer of `n` bytes, which a zero ends unless it fills the buffer. -/
theorem takeWhile_string {l : List UInt8} {b : Buf} {n : Nat} (hz : 0 ∉ l) (hlen : l.length ≤ n)
    (hb : ∀ j < l.length, b j = l.getD j 0) (hend : l.length < n → b l.length = 0) :
    ((List.range n).map b).takeWhile (· ≠ 0) = l := by
  induction l generalizing n b with
  | nil =>
    cases n with
    | zero => rfl
    | succ n =>
      rw [List.range_succ_eq_map, List.map_cons, List.takeWhile_cons_of_neg]
      simpa using hend (Nat.zero_lt_succ n)
  | cons a l ih =>
    cases n with
    | zero => exact absurd hlen (Nat.not_succ_le_zero _)
    | succ n =>
      have ha : b 0 = a := hb 0 (Nat.zero_lt_succ _)
      have hne : b 0 ≠ 0 := fun h => hz (by rw [← h, ha]; exact List.mem_cons_self)
      have hrest := ih (b := fun j => b (j + 1)) (n := n) (fun h => hz (List.mem_cons_of_mem a h))
        (Nat.le_of_succ_le_succ hlen) (fun j hj => hb (j + 1) (Nat.succ_lt_succ hj))
        (fun h => hend (Nat.succ_lt_succ h))
      rw [List.range_succ_eq_map, List.map_cons, List.map_map,
        List.takeWhile_cons_of_pos (by simpa using hne), ha]
      exact congrArg (a :: ·) hrest

/-- An entry is stored in its bytes. -/
theorem Dirent.ofBytes_bytes {de : Dirent} (hlen : de.name.length ≤ 14) (hz : 0 ∉ de.name) :
    Dirent.ofBytes ((List.range 16).map de.bytes) = de := by
  have hname : (((List.range 16).map de.bytes).drop 2).take 14 =
    (List.range 14).map fun j => de.name.getD j 0 := rfl
  have hinum : UInt16.ofNat
      ((byteOf de.inum.toNat 0).toNat + 256 * (byteOf de.inum.toNat 1).toNat) = de.inum := by
    have hsum := getLE_byteOf de.inum.toNat 2
    rw [Nat.mod_eq_of_lt (show de.inum.toNat < 256 ^ 2 from de.inum.toNat_lt)] at hsum
    change
      (byteOf de.inum.toNat 0).toNat + 256 * ((byteOf de.inum.toNat 1).toNat + 256 * 0) = _ at hsum
    rw [Nat.mul_zero, Nat.add_zero] at hsum
    rw [hsum, UInt16.ofNat_toNat]
  have hfirst : ((List.range 16).map de.bytes).getD 0 0 = byteOf de.inum.toNat 0 := rfl
  have hsecond : ((List.range 16).map de.bytes).getD 1 0 = byteOf de.inum.toNat 1 := rfl
  rw [Dirent.ofBytes, hname, takeWhile_string hz hlen (fun _ _ => rfl)
    (fun _ => by simp), hfirst, hsecond, hinum]

variable (sb : Superblock)

/-- `readi(dp, (char*)&de, off, sizeof(de)) != sizeof(de)` panics. -/
def readDirent (msg : String) (ip : Dinode) (off : Nat) : FsM (Dinode × Dirent) := do
  let (ip, r) ← FileData.readi sb ip (UInt32.ofNat off) 16
  match r with
  | some b => if b.length = 16 then pure (ip, .ofBytes b) else kpanic msg
  | none => kpanic msg

/-- The loops over a directory: from offset `off` on, the first entry that is accepted. -/
def scan (msg : String) (accept : Dirent → Bool) :
    Nat → Dinode → Nat → FsM (Dinode × Option (Nat × Dirent))
  | 0, ip, _ => pure (ip, none)
  | fuel + 1, ip, off =>
    if off < ip.size.toNat then do
      let (ip, de) ← readDirent sb msg ip off
      if accept de then pure (ip, some (off, de)) else scan msg accept fuel ip (off + 16)
    else pure (ip, none)

/-- An entry in use with this name. -/
def hasName (name : Name) (de : Dirent) : Bool := de.inum != 0 && de.name == name

/-- `dirlookup` without its `iget`: the inode number and the offset of the entry. -/
def dirlookup (ip : Dinode) (name : Name) : FsM (Dinode × Option (Nat × Nat)) :=
  if ip.type ≠ tDir then kpanic "dirlookup not DIR"
  else do
    let (ip, r) ← scan sb "dirlookup read" (hasName name) (ip.size.toNat / 16 + 1) ip 0
    pure (ip, r.map fun p => (p.2.inum.toNat, p.1))

/-- `dirlink`'s loop for an empty entry: its offset, or the one after the last entry. -/
def emptySlot (ip : Dinode) : FsM (Dinode × Nat) := do
  let (ip, r) ← scan sb "dirlink read" (fun de => de.inum == 0) (ip.size.toNat / 16 + 1) ip 0
  pure (ip, match r with
    | some (off, _) => off
    | none => (ip.size.toNat + 15) / 16 * 16)

/-- The loop of `isdirempty` starts after `.` and `..`. -/
def isdirempty (ip : Dinode) : FsM (Dinode × Bool) := do
  let (ip, r) ← scan sb "isdirempty: readi" (fun de => de.inum != 0) (ip.size.toNat / 16 + 1) ip 32
  pure (ip, r.isNone)

/-! ## Directories without holes -/

/-- The entry at an offset. -/
def direntAt (d : Disk) (ip : Dinode) (off : Nat) : Dirent :=
  .ofBytes ((List.range 16).map fun k => content d ip (off + k))

section Mapped

variable {sb} {msg : String} {name : Name} {ip : Dinode} {off fuel : Nat}
  {s : Fs} {accept : Dirent → Bool}

/-- The blocks of the first `n` bytes are there. -/
def Present (d : Disk) (ip : Dinode) (n : Nat) : Prop := ∀ k, k < n → ptr d ip (slot (k / 512)) ≠ 0

theorem readDirent_present (hp : Present s.disk ip (off + 16)) (hsize : off + 16 ≤ ip.size.toNat) :
    readDirent sb msg ip off s = .ok ((ip, direntAt s.disk ip off), s) := by
  have hlt := ip.size.toNat_lt
  have hoff : (UInt32.ofNat off).toNat = off :=
    UInt32.toNat_ofNat_of_lt' (show off < 2 ^ 32 by omega)
  have h16 : (16 : UInt32).toNat = 16 := rfl
  have href : ¬ FileData.Refused ip.size (UInt32.ofNat off) 16 := by
    unfold FileData.Refused
    omega
  have hlen : min (16 : UInt32).toNat (ip.size.toNat - (UInt32.ofNat off).toNat) = 16 := by omega
  rw [readDirent, bind_of_ok (FileData.readi_present href fun k hk => hp _ (by omega)), hlen, hoff]
  rfl

/-- The loop stops at the first entry that is accepted, whatever comes after it. -/
theorem scan_first {k : Nat} (hp : Present s.disk ip (off + 16 * (k + 1)))
    (hsize : off + 16 * (k + 1) ≤ ip.size.toNat) (hfuel : k < fuel)
    (hacc : accept (direntAt s.disk ip (off + 16 * k)) = true)
    (hbefore : ∀ j, j < k → accept (direntAt s.disk ip (off + 16 * j)) = false) :
    scan sb msg accept fuel ip off s =
      .ok ((ip, some (off + 16 * k, direntAt s.disk ip (off + 16 * k))), s) := by
  induction fuel generalizing off k with
  | zero => omega
  | succ fuel ih =>
    have hread : readDirent sb msg ip off s = .ok ((ip, direntAt s.disk ip off), s) :=
      readDirent_present (fun j hj => hp j (by omega)) (by omega)
    rw [scan, if_pos (by omega), bind_of_ok hread]
    dsimp only
    cases k with
    | zero =>
      rw [Nat.mul_zero, Nat.add_zero] at hacc ⊢
      rw [if_pos hacc]
      rfl
    | succ k =>
      have hfirst := hbefore 0 (Nat.zero_lt_succ k)
      rw [Nat.mul_zero, Nat.add_zero] at hfirst
      have hassoc : ∀ j, off + 16 * (j + 1) = off + 16 + 16 * j := fun j => by omega
      rw [hassoc] at hacc hsize hp ⊢
      rw [hfirst, if_neg Bool.false_ne_true]
      refine ih hp hsize (by omega) hacc fun j hj => ?_
      have := hbefore (j + 1) (by omega)
      rwa [hassoc] at this

/-- The loop comes to the end of a directory in which no entry is accepted. -/
theorem scan_none (hm : Mapped s.disk ip) (hsize : ip.size.toNat % 16 = 0) (hoff : off % 16 = 0)
    (hnone : ∀ j, off + 16 * j < ip.size.toNat →
      accept (direntAt s.disk ip (off + 16 * j)) = false) :
    scan sb msg accept fuel ip off s = .ok ((ip, none), s) := by
  induction fuel generalizing off with
  | zero => rfl
  | succ fuel ih =>
    rw [scan]
    by_cases hlt : off < ip.size.toNat
    · have hread : readDirent sb msg ip off s = .ok ((ip, direntAt s.disk ip off), s) :=
        readDirent_present (fun j hj => hm _ (by omega)) (by omega)
      have hfirst := hnone 0 (by omega)
      rw [Nat.mul_zero, Nat.add_zero] at hfirst
      rw [if_pos hlt, bind_of_ok hread]
      dsimp only
      rw [hfirst, if_neg Bool.false_ne_true]
      refine ih (by omega) fun j hj => ?_
      have := hnone (j + 1) (by omega)
      rwa [show off + 16 * (j + 1) = off + 16 + 16 * j by omega] at this
    · rw [if_neg hlt]
      rfl

/-- A loop over a directory of whole entries finds the first one that is accepted, or none. -/
theorem scan_run (hm : Mapped s.disk ip) (hsize : ip.size.toNat % 16 = 0) (hoff : off % 16 = 0)
    (hfuel : ip.size.toNat < off + 16 * fuel) :
    (scan sb msg accept fuel ip off s = .ok ((ip, none), s) ∧
      ∀ j, off + 16 * j < ip.size.toNat → accept (direntAt s.disk ip (off + 16 * j)) = false) ∨
    ∃ k, scan sb msg accept fuel ip off s =
        .ok ((ip, some (off + 16 * k, direntAt s.disk ip (off + 16 * k))), s) ∧
      off + 16 * k < ip.size.toNat ∧ accept (direntAt s.disk ip (off + 16 * k)) = true := by
  by_cases h : ∃ k, off + 16 * k < ip.size.toNat ∧ accept (direntAt s.disk ip (off + 16 * k)) = true
  case neg =>
    have hnone : ∀ j, off + 16 * j < ip.size.toNat →
        accept (direntAt s.disk ip (off + 16 * j)) = false :=
      fun j hj => Bool.not_eq_true _ ▸ fun hacc => h ⟨j, hj, hacc⟩
    exact .inl ⟨scan_none hm hsize hoff hnone, hnone⟩
  case pos =>
    obtain ⟨hlt, hacc⟩ := Nat.find_spec h
    refine .inr ⟨Nat.find h,
      scan_first (fun j hj => hm _ (by omega)) (by omega) (by omega) hacc fun j hj => ?_, hlt, hacc⟩
    rw [← Bool.not_eq_true]
    exact fun hj' => Nat.find_min h hj ⟨by omega, hj'⟩

theorem dirlookup_first {k : Nat} (htype : ip.type = tDir) (hp : Present s.disk ip (16 * (k + 1)))
    (hsize : 16 * (k + 1) ≤ ip.size.toNat)
    (hacc : hasName name (direntAt s.disk ip (16 * k)) = true)
    (hbefore : ∀ j, j < k → hasName name (direntAt s.disk ip (16 * j)) = false) :
    dirlookup sb ip name s =
      .ok ((ip, some ((direntAt s.disk ip (16 * k)).inum.toNat, 16 * k)), s) := by
  have hscan : scan sb "dirlookup read" (hasName name) (ip.size.toNat / 16 + 1) ip 0 s =
      .ok ((ip, some (0 + 16 * k, direntAt s.disk ip (0 + 16 * k))), s) := by
    refine scan_first ?_ ?_ (by omega) ?_ fun j hj => ?_ <;> rw [Nat.zero_add]
    exacts [hp, hsize, hacc, hbefore j hj]
  rw [Nat.zero_add] at hscan
  rw [dirlookup, if_neg (not_not.mpr htype), bind_of_ok hscan]
  rfl

end Mapped

example : elems [47, 47, 97, 47, 47, 98, 98, 47] = [[97], [98, 98]] := by decide

end Xv6.Directory
