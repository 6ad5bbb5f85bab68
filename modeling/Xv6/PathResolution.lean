import Mathlib.Data.List.TakeWhile
import Mathlib.Tactic.Abel
import Xv6.FsCalls
import Xv6.InodeRuns
import Xv6.PathElements

/-!
# Path resolution

What `namei` and `nameiparent` return on a directory tree that does not change meanwhile.
The tree is on the disk; the calls go through the inode cache, where they need at most two
entries that nobody uses.
-/
namespace Xv6.PathResolution

open Function (update)
open FsImage BlockMap Directory FsSystem FsCalls Interleave InodeRuns PathElements RunRules

/-! ## The tree -/

def entries (d : Disk) (ip : Dinode) : List Dirent :=
  (List.range (ip.size.toNat / 16)).map fun k => direntAt d ip (16 * k)

/-- The inode number that a directory has for a name. -/
def lookup (d : Disk) (ip : Dinode) (name : Name) : Option Nat :=
  ((entries d ip).find? (hasName name)).map fun de => de.inum.toNat

/-- The inode reached from inode `i` by looking up the names in turn. -/
def resolve (sb : Superblock) (d : Disk) : Nat → List Name → Option Nat
  | i, [] => some i
  | i, name :: rest =>
    if (dinode sb d i).type = tDir then
      match lookup d (dinode sb d i) name with
      | some j => resolve sb d j rest
      | none => none
    else none

/-- The directory reached by all names but the last, and the last name. -/
def resolveParent (sb : Superblock) (d : Disk) (i : Nat) (names : List Name) :
    Option (Nat × Name) :=
  match names.getLast? with
  | none => none
  | some name =>
    match resolve sb d i names.dropLast with
    | some j => if (dinode sb d j).type = tDir then some (j, name) else none
    | none => none

/-- Inodes that are allocated and linked, with the root among them and all that their
directories name; the directories have no holes. -/
structure Tree (sb : Superblock) (d : Disk) (live : Nat → Prop) : Prop where
  root : live 1
  node : ∀ i, live i → (dinode sb d i).type ≠ 0 ∧ (dinode sb d i).nlink ≠ 0
  dir : ∀ i, live i → (dinode sb d i).type = tDir →
    Mapped d (dinode sb d i) ∧ (dinode sb d i).size.toNat % 16 = 0
  entry : ∀ i, live i → (dinode sb d i).type = tDir →
    ∀ de ∈ entries d (dinode sb d i), de.inum ≠ 0 → live de.inum.toNat

/-- What paths may lead over while the process holds references: directories without holes,
of whole entries, and inodes that are not freed when they are given up. -/
structure Passable (tidy : Prop) (sb : Superblock) (x₀ : Sys) (d : Disk) (live : Nat → Prop) :
    Prop where
  safe : ∀ i, live i → Safe tidy sb x₀ d i
  range : tidy → ∀ i, live i → i < sb.ninodes
  dir : ∀ i, live i → (dinode sb d i).type = tDir →
    Mapped d (dinode sb d i) ∧ (dinode sb d i).size.toNat % 16 = 0
  entry : ∀ i, live i → (dinode sb d i).type = tDir →
    ∀ de ∈ entries d (dinode sb d i), de.inum ≠ 0 → live de.inum.toNat

variable {tidy : Prop} {sb : Superblock} {d : Disk} {live : Nat → Prop}
  {t : Proc} {x₀ x y : Sys} {fs : Fs}
  {held : List (Entry × Nat)} {e : Entry} {i j : Nat} {name : Name} {S : Stop → Prop}

theorem Tree.passable (h : Tree sb d live) (x₀ : Sys) : Passable False sb x₀ d live where
  safe i hi hlink := absurd hlink (h.node i hi).2
  range := False.elim
  dir := h.dir
  entry := h.entry

theorem Passable.lookup (h : Passable tidy sb x₀ d live) (hi : live i)
    (ht : (dinode sb d i).type = tDir) (hl : lookup d (dinode sb d i) name = some j) : live j := by
  obtain ⟨de, hfind, rfl⟩ := Option.map_eq_some_iff.mp hl
  have hname := List.find?_some hfind
  rw [hasName, Bool.and_eq_true, bne_iff_ne] at hname
  exact h.entry i hi ht de (List.mem_of_find?_eq_some hfind) hname.1

/-- `dirlookup` finds what the directory has for the name, and leaves the disk as it is. -/
theorem dirlookup_eq {ip : Dinode} {s : Fs} (ht : ip.type = tDir) (hm : Mapped s.disk ip)
    (hsize : ip.size.toNat % 16 = 0) (name : Name) :
    ∃ r, Directory.dirlookup sb ip name s = .ok ((ip, r), s) ∧
      r.map Prod.fst = lookup s.disk ip name := by
  rw [lookup, entries, List.find?_map]
  cases hfind : (List.range (ip.size.toNat / 16)).find?
    (hasName name ∘ fun k => direntAt s.disk ip (16 * k)) with
  | none =>
    rw [List.find?_range_eq_none] at hfind
    refine ⟨none, ?_, rfl⟩
    have hscan : scan sb "dirlookup read" (hasName name)
        (ip.size.toNat / 16 + 1) ip 0 s = .ok ((ip, none), s) := by
      refine scan_none hm hsize rfl fun k hk => ?_
      have := hfind k (by omega)
      rw [Nat.zero_add]
      simpa using this
    rw [Directory.dirlookup, if_neg (not_not.mpr ht), bind_of_ok hscan]
    rfl
  | some k =>
    obtain ⟨hacc, hk, hbefore⟩ := List.find?_range_eq_some.mp hfind
    have hk := List.mem_range.mp hk
    refine ⟨_, dirlookup_first ht (fun b hb => hm _ (by omega)) (by omega) hacc fun b hb => ?_, rfl⟩
    simpa using hbefore b hb

theorem Passable.dirlookup (h : Passable tidy sb x₀ fs.disk live) (hi : live i)
    (ht : (dinode sb fs.disk i).type = tDir) (name : Name) :
    ∃ r, Directory.dirlookup sb (dinode sb fs.disk i) name fs = .ok ((dinode sb fs.disk i, r), fs) ∧
      r.map Prod.fst = PathResolution.lookup fs.disk (dinode sb fs.disk i) name ∧
      (tidy → ∀ j, r.map Prod.fst = some j → j < sb.ninodes) := by
  obtain ⟨hm, hsize⟩ := h.dir i hi ht
  obtain ⟨r, hr, hl⟩ := dirlookup_eq ht hm hsize name
  exact ⟨r, hr, hl, fun htidy j hj => h.range htidy j (h.lookup hi ht (hl.symm.trans hj))⟩

theorem resolveParent_single (sb : Superblock) (d : Disk) (i : Nat) (a : Name) :
    resolveParent sb d i [a] = if (dinode sb d i).type = tDir then some (i, a) else none := rfl

theorem resolveParent_cons (sb : Superblock) (d : Disk) (i : Nat) (a b : Name) (l : List Name) :
    resolveParent sb d i (a :: b :: l) =
      if (dinode sb d i).type = tDir then
        match lookup d (dinode sb d i) a with
        | some j => resolveParent sb d j (b :: l)
        | none => none
      else none := by
  obtain ⟨name, hlast⟩ : ∃ name, (b :: l).getLast? = some name :=
    ⟨_, List.getLast?_eq_some_getLast (by simp)⟩
  have hlast' : (a :: b :: l).getLast? = some name := by rwa [List.getLast?_cons_cons]
  by_cases ht : (dinode sb d i).type = tDir
  · cases hl : lookup d (dinode sb d i) a with
    | none => simp [resolveParent, hlast', resolve, ht, hl]
    | some j => simp [resolveParent, hlast, hlast', resolve, ht, hl]
  · simp [resolveParent, hlast', resolve, ht]

theorem resolve_of_ne {l : List Name} {a : Name} (ht : (dinode sb d i).type ≠ tDir) :
    resolve sb d i (a :: l) = none := if_neg ht

theorem resolveParent_of_ne {l : List Name} {a : Name} (ht : (dinode sb d i).type ≠ tDir) :
    resolveParent sb d i (a :: l) = none := by
  cases l with
  | nil => rw [resolveParent_single, if_neg ht]
  | cons b l => rw [resolveParent_cons, if_neg ht]

theorem resolveParent_dir {l : List Name} (h : resolveParent sb d i l = some (j, name)) :
    (dinode sb d j).type = tDir := by
  rw [resolveParent] at h
  split at h
  next => cases h
  next =>
    split at h
    next =>
      split at h
      next ht =>
        cases h
        exact ht
      next => cases h
    next => cases h

theorem ne_tDir_of_free (ht : (dinode sb d i).type = 0) : (dinode sb d i).type ≠ tDir := by
  rw [ht]
  decide

/-- A path leads over an inode that is not allocated. -/
def Stale (sb : Superblock) (d : Disk) : Nat → List Name → Prop
  | _, [] => False
  | i, name :: rest => (dinode sb d i).type = 0 ∨
    ((dinode sb d i).type = tDir ∧ ∃ j, lookup d (dinode sb d i) name = some j ∧ Stale sb d j rest)

theorem Stale.resolve {l : List Name} (h : Stale sb d i l) : resolve sb d i l = none := by
  induction l generalizing i with
  | nil => exact h.elim
  | cons a l ih =>
    rcases h with h0 | ⟨ht, j, hj, h⟩
    · exact resolve_of_ne (ne_tDir_of_free h0)
    · rw [PathResolution.resolve, if_pos ht, hj]
      exact ih h

theorem Stale.resolveParent {l : List Name} (h : Stale sb d i l) :
    resolveParent sb d i l = none := by
  cases l with
  | nil => exact h.elim
  | cons a l =>
    induction l generalizing i a with
    | nil =>
      rcases h with h0 | ⟨-, -, -, ⟨⟩⟩
      exact resolveParent_of_ne (ne_tDir_of_free h0)
    | cons b l ih =>
      rcases h with h0 | ⟨ht, j, hj, h⟩
      · exact resolveParent_of_ne (ne_tDir_of_free h0)
      · rw [resolveParent_cons, if_pos ht, hj]
        exact ih b h

theorem Tree.not_stale (h : Tree sb d live) {l : List Name} (hi : live i) : ¬ Stale sb d i l := by
  induction l generalizing i with
  | nil => exact id
  | cons a l ih =>
    rintro (h0 | ⟨ht, j, hj, hst⟩)
    · exact (h.node i hi).1 h0
    · exact ih ((h.passable (Sys.boot ⟨d, 0, []⟩)).lookup hi ht hj) hst

/-! ## The loop of namex -/

/-- What a call that returns a pointer to an inode leaves behind. -/
def Returns (tidy : Prop) (sb : Superblock) (t : Proc) (x₀ : Sys) (fs : Fs)
    (held : List (Entry × Nat)) (o : Option Nat) (r : Option Entry) (y : Sys) : Prop :=
  match o with
  | some j => ∃ e, r = some e ∧ Walk tidy sb t x₀ fs ((e, j) :: held) [] y
  | none => r = none ∧ Walk tidy sb t x₀ fs held [] y

/-- `nameiparent` returns the directory, and the name in it. -/
def ReturnsParent (tidy : Prop) (sb : Superblock) (t : Proc) (x₀ : Sys) (fs : Fs)
    (held : List (Entry × Nat)) (o : Option (Nat × Name)) (r : Option (Entry × Name)) (y : Sys) :
    Prop :=
  match o with
  | some (j, name) => ∃ e, r = some (e, name) ∧ Walk tidy sb t x₀ fs ((e, j) :: held) [] y
  | none => r = none ∧ Walk tidy sb t x₀ fs held [] y

theorem Returns.cases {o : Option Nat} {r : Option Entry} (h : Returns tidy sb t x₀ fs held o r y) :
    o = none ∧ r = none ∧ Walk tidy sb t x₀ fs held [] y ∨
      ∃ i e, o = some i ∧ r = some e ∧ Walk tidy sb t x₀ fs ((e, i) :: held) [] y := by
  cases o with
  | none => exact .inl ⟨rfl, h⟩
  | some i =>
    obtain ⟨e, he⟩ := h
    exact .inr ⟨i, e, rfl, he⟩

theorem ReturnsParent.cases {o : Option (Nat × Name)} {r : Option (Entry × Name)}
    (h : ReturnsParent tidy sb t x₀ fs held o r y) :
    o = none ∧ r = none ∧ Walk tidy sb t x₀ fs held [] y ∨
      ∃ j name e, o = some (j, name) ∧ r = some (e, name) ∧
        Walk tidy sb t x₀ fs ((e, j) :: held) [] y := by
  cases o with
  | none => exact .inl ⟨rfl, h⟩
  | some q =>
    obtain ⟨e, he⟩ := h
    exact .inr ⟨q.1, q.2, e, rfl, he⟩

section Walks

variable (hpass : Passable tidy sb x₀ fs.disk live)
  (hfull : spare x₀ ≤ held.length + 1 → S (.panic "iget: no inodes"))

include hpass hfull

theorem sat_namexFrom (l : List Name) (hi : live i) (h : Walk tidy sb t x₀ fs ((e, i) :: held) [] x)
    (name : Name) (hdead : Stale sb fs.disk i l → tidy ∧ S (.panic "ilock: no type")) :
    Sat (alone sb t) S (namexFrom false l name e) (fun r y =>
      Returns tidy sb t x₀ fs held (resolve sb fs.disk i l) (r.map Prod.fst) y) x := by
  induction l generalizing i e x name with
  | nil => exact .ret ⟨e, rfl, h⟩
  | cons a l ih =>
    rw [namexFrom]
    refine h.lock_bind (absurd · List.not_mem_nil) (fun h0 => hdead (.inl h0)) fun x₁ _ h₁ => ?_
    refine Sat.after (h₁.run_inode List.mem_cons_self List.mem_cons_self) ?_
    by_cases ht : (dinode sb fs.disk i).type = tDir
    · rw [if_neg (not_not.mpr ht), if_neg (by simp)]
      rw [resolve, if_pos ht]
      obtain ⟨r, hr, hl, hrange⟩ := hpass.dirlookup hi ht a
      rw [← hl]
      refine h₁.component (hpass.safe i hi) hr hrange hfull
        (fun hj y hy => ?_) fun j hj e' y hy => ?_
      · rw [hj]
        exact ⟨rfl, hy⟩
      · rw [hj] at hl ⊢
        exact ih (hpass.lookup hi ht hl.symm) hy a fun hst => hdead (.inr ⟨ht, j, hl.symm, hst⟩)
    · obtain ⟨y, hput, hy⟩ := h₁.unlockput List.not_mem_nil (hpass.safe i hi)
      rw [if_pos ht, resolve_of_ne ht]
      exact Sat.after hput (.ret ⟨rfl, hy⟩)

theorem sat_parent_cons (a : Name) (l : List Name) (hi : live i)
    (h : Walk tidy sb t x₀ fs ((e, i) :: held) [] x) (name : Name)
    (hdead : Stale sb fs.disk i (a :: l) → tidy ∧ S (.panic "ilock: no type")) :
    Sat (alone sb t) S (namexFrom true (a :: l) name e)
      (ReturnsParent tidy sb t x₀ fs held (resolveParent sb fs.disk i (a :: l))) x := by
  induction l generalizing a i e x name with
  | nil =>
    rw [namexFrom]
    refine h.lock_bind (absurd · List.not_mem_nil) (fun h0 => hdead (.inl h0)) fun x₁ _ h₁ => ?_
    refine Sat.after (h₁.run_inode List.mem_cons_self List.mem_cons_self) ?_
    rw [resolveParent_single]
    by_cases ht : (dinode sb fs.disk i).type = tDir
    · obtain ⟨y, hunlock, hy⟩ := h₁.iunlock List.mem_cons_self List.not_mem_nil
      rw [if_neg (not_not.mpr ht), if_pos (by simp), if_pos ht]
      exact Sat.after hunlock (.ret ⟨e, rfl, hy⟩)
    · obtain ⟨y, hput, hy⟩ := h₁.unlockput List.not_mem_nil (hpass.safe i hi)
      rw [if_pos ht, if_neg ht]
      exact Sat.after hput (.ret ⟨rfl, hy⟩)
  | cons b l ih =>
    rw [namexFrom]
    refine h.lock_bind (absurd · List.not_mem_nil) (fun h0 => hdead (.inl h0)) fun x₁ _ h₁ => ?_
    refine Sat.after (h₁.run_inode List.mem_cons_self List.mem_cons_self) ?_
    by_cases ht : (dinode sb fs.disk i).type = tDir
    · rw [if_neg (not_not.mpr ht), if_neg (by simp)]
      rw [resolveParent_cons, if_pos ht]
      obtain ⟨r, hr, hl, hrange⟩ := hpass.dirlookup hi ht a
      rw [← hl]
      refine h₁.component (hpass.safe i hi) hr hrange hfull
        (fun hj y hy => ?_) fun j hj e' y hy => ?_
      · rw [hj]
        exact ⟨rfl, hy⟩
      · rw [hj] at hl ⊢
        exact ih b (hpass.lookup hi ht hl.symm) hy a fun hst => hdead (.inr ⟨ht, j, hl.symm, hst⟩)
    · obtain ⟨y, hput, hy⟩ := h₁.unlockput List.not_mem_nil (hpass.safe i hi)
      rw [if_pos ht, resolveParent_of_ne ht]
      exact Sat.after hput (.ret ⟨rfl, hy⟩)

theorem sat_parent (l : List Name) (hi : live i) (h : Walk tidy sb t x₀ fs ((e, i) :: held) [] x)
    (name : Name) (hdead : Stale sb fs.disk i l → tidy ∧ S (.panic "ilock: no type")) :
    Sat (alone sb t) S (namexFrom true l name e)
      (ReturnsParent tidy sb t x₀ fs held (resolveParent sb fs.disk i l)) x := by
  cases l with
  | nil =>
    obtain ⟨y, hput, hy⟩ := h.put List.not_mem_nil (hpass.safe i hi)
    exact Sat.after hput (.ret ⟨rfl, hy⟩)
  | cons a l => exact sat_parent_cons hpass hfull a l hi h name hdead

/-! ## The calls -/

variable (hroot : tidy → 1 < sb.ninodes)
  (hcwd : ∃ e, (x₀.procs t).cwd = some e ∧ 0 < (x₀.icache e).ref)

include hroot hcwd

theorem sat_namei (h : Walk tidy sb t x₀ fs held [] x) {path : Path}
    (hstart : live (start x₀ t path))
    (hdead : Stale sb fs.disk (start x₀ t path) (elems path) → tidy ∧ S (.panic "ilock: no type")) :
    Sat (alone sb t) S (namei path)
      (Returns tidy sb t x₀ fs held (resolve sb fs.disk (start x₀ t path) (elems path))) x := by
  refine Sat.bind (Q :=
    fun r y => Returns tidy sb t x₀ fs held (resolve sb fs.disk (start x₀ t path) (elems path))
    (r.map Prod.fst) y) ?_ fun r y hr => ?_
  · rw [namex_eq]
    exact Sat.bind (h.start hroot hcwd (fun hle => hfull (by omega)) path) fun e y hy =>
      sat_namexFrom hpass hfull _ hstart hy [] hdead
  · cases r with
    | none => exact .ret hr
    | some q => exact .ret hr

theorem sat_nameiparent (h : Walk tidy sb t x₀ fs held [] x) {path : Path}
    (hstart : live (start x₀ t path))
    (hdead : Stale sb fs.disk (start x₀ t path) (elems path) → tidy ∧ S (.panic "ilock: no type")) :
    Sat (alone sb t) S (nameiparent path)
      (ReturnsParent tidy sb t x₀ fs held
      (resolveParent sb fs.disk (start x₀ t path) (elems path))) x := by
  rw [nameiparent, namex_eq]
  exact Sat.bind (h.start hroot hcwd (fun hle => hfull (by omega)) path) fun e y hy =>
    sat_parent hpass hfull _ hstart hy [] hdead

end Walks

/-! ## Trees -/

/-- The parent is looked up, and the last name in it. -/
def lookupInParent (path : Path) : P (Option Entry) := do
  match ← nameiparent path with
  | none => pure none
  | some (dp, name) => do
    ilock dp
    match ← FsCalls.dirlookup .namex dp name with
    | none => do
      iunlockput dp
      pure none
    | some (ip, _) => do
      iunlockput dp
      pure (some ip)

/-- Looking up all names is looking up the last one in the parent. -/
theorem resolve_cons (sb : Superblock) (d : Disk) (i : Nat) (a : Name) (l : List Name) :
    resolve sb d i (a :: l) =
      (resolveParent sb d i (a :: l)).bind fun q => lookup d (dinode sb d q.1) q.2 := by
  induction l generalizing i a with
  | nil =>
    rw [resolve, resolveParent_single]
    by_cases ht : (dinode sb d i).type = tDir
    · rw [if_pos ht, if_pos ht]
      cases hl : lookup d (dinode sb d i) a <;> simp [resolve, hl]
    · rw [if_neg ht, if_neg ht]
      rfl
  | cons b l ih =>
    rw [resolve, resolveParent_cons]
    by_cases ht : (dinode sb d i).type = tDir
    · rw [if_pos ht, if_pos ht]
      cases hl : lookup d (dinode sb d i) a with
      | none => rfl
      | some j => exact ih j b
    · rw [if_neg ht, if_neg ht]
      rfl

theorem resolveParent_live (hpass : Passable tidy sb x₀ d live) (hi : live i) {a : Name}
    {l : List Name} (h : resolveParent sb d i (a :: l) = some (j, name)) : live j := by
  induction l generalizing i a with
  | nil =>
    rw [resolveParent_single] at h
    split at h
    next =>
      cases h
      exact hi
    next => cases h
  | cons b l ih =>
    rw [resolveParent_cons] at h
    split at h
    next ht =>
      split at h
      next k hl => exact ih (hpass.lookup hi ht hl) h
      next => cases h
    next => cases h

theorem start_live (htree : Tree sb x.fs.disk live) (h : Idle sb t x)
    (hcwd : ∀ e, (x.procs t).cwd = some e → live (x.icache e).inum) (path : Path) :
    live (start x t path) := by
  obtain ⟨e, he, -⟩ := h.cwd
  rw [start, he]
  split
  next => exact htree.root
  next => exact hcwd e he

section Tree

variable (htree : Tree sb x.fs.disk live) (h : Idle sb t x) {path : Path}
  (hstart : live (start x t path))

include htree h hstart

theorem tree_namei : Sat (alone sb t) (Full x) (namei path)
    (Returns False sb t x x.fs [] (resolve sb x.fs.disk (start x t path) (elems path))) x :=
  sat_namei (htree.passable x)
      (fun hle => ⟨rfl, crowded_of_spare hle⟩) False.elim h.cwd h.walk hstart fun hst =>
    absurd hst (htree.not_stale hstart)

theorem tree_nameiparent : Sat (alone sb t) (Full x) (nameiparent path)
    (ReturnsParent False sb t x x.fs []
      (resolveParent sb x.fs.disk (start x t path) (elems path))) x :=
  sat_nameiparent (htree.passable x)
    (fun hle => ⟨rfl, crowded_of_spare hle⟩) False.elim h.cwd h.walk hstart
    fun hst => absurd hst (htree.not_stale hstart)

theorem tree_lookupInParent (hne : elems path ≠ []) :
    Sat (alone sb t) (Full x) (lookupInParent path)
    (Returns False sb t x x.fs [] (resolve sb x.fs.disk (start x t path) (elems path))) x := by
  obtain ⟨a, l, hl⟩ := List.exists_cons_of_ne_nil hne
  have hpass := htree.passable x
  refine Sat.bind (tree_nameiparent htree h hstart) fun r y hr => ?_
  rw [hl] at hr ⊢
  rw [resolve_cons]
  obtain ⟨hparent, rfl, hy⟩ | ⟨j, name, e, hparent, rfl, hy⟩ := hr.cases
  · rw [hparent]
    exact .ret ⟨rfl, hy⟩
  · have hj := resolveParent_live hpass hstart hparent
    have ht := resolveParent_dir hparent
    obtain ⟨r, hr, hl, hrange⟩ := hpass.dirlookup hj ht name
    rw [hparent, Option.bind_some, ← hl]
    refine hy.lock_bind (absurd · List.not_mem_nil) (absurd · (htree.node j hj).1) fun z _ hz => ?_
    refine hz.component (hpass.safe j hj) hr hrange
      (fun hle => ⟨rfl, crowded_of_spare hle⟩) (fun hnone y hy => ?_) fun i hi e' y hy => ?_
    · rw [hnone]
      exact ⟨rfl, hy⟩
    · rw [hi]
      exact .ret ⟨e', rfl, hy⟩

end Tree

/-- On a consistent tree `namei` returns the inode that the components of the path lead to,
`nameiparent` the directory that all but the last lead to, with the last in its buffer, and
`namei` is a lookup of the last component there. -/
theorem path_resolution (htree : Tree sb x.fs.disk live) (h : Idle sb t x)
    (hcwd : ∀ e, (x.procs t).cwd = some e → live (x.icache e).inum) (path : Path) :
    (∀ b, (buffersFrom path.length (path.takeWhile (· ≠ 0)) b).map nameIn =
      components (path.takeWhile (· ≠ 0))) ∧
    Ends sb t x (namei path)
      (Returns False sb t x x.fs []
        (resolve sb x.fs.disk (start x t path) (components (path.takeWhile (· ≠ 0))))) x ∧
    Ends sb t x (nameiparent path)
      (ReturnsParent False sb t x x.fs []
        (resolveParent sb x.fs.disk (start x t path) (components (path.takeWhile (· ≠ 0))))) x ∧
    (components (path.takeWhile (· ≠ 0)) ≠ [] → Ends sb t x (lookupInParent path)
      (Returns False sb t x x.fs []
        (resolve sb x.fs.disk (start x t path) (components (path.takeWhile (· ≠ 0))))) x) := by
  have hz : 0 ∉ path.takeWhile (· ≠ 0) := fun h => by simpa using List.mem_takeWhile_imp h
  have hstart := start_live htree h hcwd path
  rw [← elems_eq_components]
  exact ⟨buffersFrom_eq hz, .of_sat (tree_namei htree h hstart),
    .of_sat (tree_nameiparent htree h hstart),
    fun hne => .of_sat (tree_lookupInParent htree h hstart hne)⟩

/-! ## A small tree -/

def treeSb : Superblock :=
  { (default : Superblock) with size := 11, bitmap_fits := by decide, int_blocks := by decide }

def direntBlock (l : List (Nat × Name)) : Bytes.Buf := fun j =>
  match l[j / 16]? with
  | some (i, name) => Dirent.bytes ⟨UInt16.ofNat i, name⟩ (j % 16)
  | none => 0

/-- The block of inodes that has these inodes from number 1 on. -/
def inodeBlock (l : List Dinode) : Bytes.Buf := fun j =>
  match l[j / 64 - 1]? with
  | some n => if 64 ≤ j then n.bytes (j % 64) else 0
  | none => 0

def oneBlock (type nlink : Int16) (size b : UInt32) : Dinode :=
  ⟨type, 0, 0, nlink, size, update (fun _ => 0) 0 b⟩

/-- The directories `/`, `/a` and `/a/b`, and a file `/f` that has the byte `c`. -/
def treeFs : Fs where
  disk
    | 2 => inodeBlock [oneBlock tDir 2 64 4, oneBlock tDir 2 48 5, oneBlock tDir 1 32 6,
        oneBlock tFile 1 1 7]
    | 3 => update (fun _ => 0) 0 255
    | 4 => direntBlock [(1, dot), (1, dotdot), (2, [97]), (4, [102])]
    | 5 => direntBlock [(2, dot), (1, dotdot), (3, [98])]
    | 6 => direntBlock [(3, dot), (2, dotdot)]
    | 7 => update (fun _ => 0) 0 99
    | _ => fun _ => 0
  writes := 0
  allocs := []

def treeLive (i : Nat) : Prop := i = 1 ∨ i = 2 ∨ i = 3 ∨ i = 4

instance : DecidablePred treeLive :=
  fun i => inferInstanceAs (Decidable (i = 1 ∨ i = 2 ∨ i = 3 ∨ i = 4))

theorem treeLive_forall {P : Nat → Prop} (h : P 1 ∧ P 2 ∧ P 3 ∧ P 4) : ∀ i, treeLive i → P i := by
  rintro i (rfl | rfl | rfl | rfl)
  exacts [h.1, h.2.1, h.2.2.1, h.2.2.2]

theorem tree_treeFs : Tree treeSb treeFs.disk treeLive where
  root := .inl rfl
  node := treeLive_forall (by decide +kernel)
  dir := by
    have hsize : ∀ i, treeLive i → (dinode treeSb treeFs.disk i).type = tDir →
        (dinode treeSb treeFs.disk i).size.toNat ≤ 512 ∧
        ptr treeFs.disk (dinode treeSb treeFs.disk i) 0 ≠ 0 ∧
          (dinode treeSb treeFs.disk i).size.toNat % 16 = 0 := treeLive_forall (by decide +kernel)
    intro i hi ht
    obtain ⟨hle, hptr, hmod⟩ := hsize i hi ht
    refine ⟨fun bn hbn => ?_, hmod⟩
    obtain rfl : bn = 0 := by omega
    exact hptr
  entry := treeLive_forall (by decide +kernel)

/-- `a//b` is inode 3. -/
theorem path_resolution_tree : ∃ e y,
    (namei [97, 47, 47, 98]).run (alone treeSb 0) (Sys.boot treeFs) = .done (some e) y ∧
      (y.icache e).inum = 3 := by
  have hcwd : ∀ e, ((Sys.boot treeFs).procs 0).cwd = some e →
      treeLive ((Sys.boot treeFs).icache e).inum := by
    intro e he
    obtain rfl : (0 : Entry) = e := Option.some.inj he
    exact .inl rfl
  obtain ⟨-, hnamei, -⟩ :=
    path_resolution tree_treeFs (idle_boot treeSb treeFs) hcwd [97, 47, 47, 98]
  rcases hnamei with ⟨r, y, hrun, hr⟩ | ⟨-, hcrowded⟩
  · have hresolve : resolve treeSb (Sys.boot treeFs).fs.disk
        (start (Sys.boot treeFs) 0 [97, 47, 47, 98])
        (components ([97, 47, 47, 98].takeWhile (· ≠ 0))) = some 3 := by decide +kernel
    rw [hresolve] at hr
    obtain ⟨e, rfl, hwalk⟩ := hr
    exact ⟨e, y, hrun, hwalk.inum List.mem_cons_self⟩
  · exact absurd (hcrowded 1 2 rfl rfl) (by decide)

end Xv6.PathResolution
