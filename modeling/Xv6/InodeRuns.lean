import Xv6.FsCalls
import Xv6.RunRules

/-!
# Inodes in the cache of a process that runs alone

The calls on inodes of a process while no other process moves. A walk over the file system
holds references to some entries of the cache and the locks of some of them; the references
that others hold are those of the state it started in.
-/
namespace Xv6.InodeRuns

open Function (update update_self update_of_ne)
open FsImage Directory FsSystem FsCalls Interleave RunRules

variable {sb : Superblock} {x y : Sys} {t : Proc} {e : Entry} {i : Nat}

/-- An operation of the process `t` while no other process moves. -/
def alone (sb : Superblock) (t : Proc) (x : Sys) (o : Op) : Outcome Sys (Resp o) :=
  x.exec sb (fun _ => false) t o 0

def withEntry (x : Sys) (e : Entry) (n : Inode) : Sys := { x with icache := update x.icache e n }

theorem withEntry_eta (x : Sys) (e : Entry) : withEntry x e (x.icache e) = x := by
  simp [withEntry]

theorem withEntry_self (x : Sys) (e : Entry) (n : Inode) : (withEntry x e n).icache e = n :=
  update_self ..

theorem withEntry_of_ne {e' : Entry} (h : e' ≠ e) (n : Inode) :
    (withEntry x e n).icache e' = x.icache e' :=
  update_of_ne h ..

theorem withEntry_idem (x : Sys) (e : Entry) (n n' : Inode) :
    withEntry (withEntry x e n) e n' = withEntry x e n' := by
  simp [withEntry]

/-! ## Operations on one entry of the cache -/

section Operations

variable {o : InoOp} {r : InoResp o} {n : Inode}

theorem run_ino (h : x.inoState.exec sb t o = .done r (x.inoState.set e n)) :
    (ino o).run (alone sb t) x = .done r (withEntry x e n) := by
  refine Prog.run_perform ?_
  change Sys.lift x.withIno (x.inoState.exec sb t o) = _
  rw [h]
  rfl

theorem run_ino_same (h : x.inoState.exec sb t o = .done r x.inoState) :
    (ino o).run (alone sb t) x = .done r x := by
  refine Prog.run_perform ?_
  change Sys.lift x.withIno (x.inoState.exec sb t o) = _
  rw [h]
  rfl

theorem run_checkRef (h : 1 ≤ (x.icache e).ref) :
    (ino (.checkRef e)).run (alone sb t) x = .done () x :=
  run_ino_same (if_neg (Int.not_lt.mpr h))

theorem run_acquire (h : (x.icache e).holder = none) : (ino (.acquire e)).run (alone sb t) x =
    .done () (withEntry x e { x.icache e with holder := some t }) := by
  refine run_ino (if_neg ?_)
  change ¬ (x.icache e).holder.isSome = true
  rw [h]
  exact Bool.false_ne_true

theorem run_acquire_held {β : Type} {k : Unit → P β} (h : (x.icache e).holder = some t) :
    (ino (.acquire e) >>= k).run (alone sb t) x = .blocked := by
  have hexec : alone sb t x (.ino (.acquire e)) = .blocked := by
    change Sys.lift x.withIno (if (x.icache e).holder.isSome then _ else _) = _
    rw [h]
    rfl
  change (Prog.op (.ino (.acquire e)) _).run (alone sb t) x = _
  rw [Prog.run, hexec]

theorem run_release (sb : Superblock) (t : Proc) (x : Sys) (e : Entry) :
    (ino (.release e)).run (alone sb t) x =
    .done () (withEntry x e { x.icache e with holder := none }) := run_ino rfl

theorem run_unref (sb : Superblock) (t : Proc) (x : Sys) (e : Entry) :
    (ino (.unref e)).run (alone sb t) x =
    .done () (withEntry x e { x.icache e with ref := (x.icache e).ref - 1 }) := run_ino rfl

theorem run_idup : (ino (.idup e)).run (alone sb t) x =
    .done () (withEntry x e { x.icache e with ref := (x.icache e).ref + 1 }) := run_ino rfl

theorem run_iunlock (h : (x.icache e).holder = some t) (href : 1 ≤ (x.icache e).ref) :
    (iunlock e).run (alone sb t) x = .done () (withEntry x e { x.icache e with holder := none }) :=
  run_ino (if_neg fun hor => hor.elim (fun hne => hne h) (Int.not_lt.mpr href))

/-- `iput` does not free an inode that has links or that others refer to. -/
theorem run_lastLink (sb : Superblock) (t : Proc) (x : Sys) (e : Entry)
    (h : (x.icache e).valid = true → (x.icache e).copy.nlink = 0 → (x.icache e).ref ≠ 1) :
    (ino (.lastLink e)).run (alone sb t) x = .done false x := by
  refine run_ino_same ?_
  have hfalse :
      ((x.icache e).valid && (x.icache e).copy.nlink == 0 && (x.icache e).ref == 1) = false := by
    refine Bool.eq_false_iff.mpr fun htrue => ?_
    rw [Bool.and_eq_true, Bool.and_eq_true, beq_iff_eq, beq_iff_eq] at htrue
    exact h htrue.1.1 htrue.1.2 htrue.2
  exact congrArg (Outcome.done · x.inoState) hfalse

theorem run_iput (hfree : (x.icache e).holder = none)
    (h : (x.icache e).valid = true → (x.icache e).copy.nlink = 0 → (x.icache e).ref ≠ 1) :
    (iput e).run (alone sb t) x =
      .done () (withEntry x e { x.icache e with holder := none, ref := (x.icache e).ref - 1 }) := by
  have hlast := run_lastLink sb t (withEntry x e { x.icache e with holder := some t }) e
  have hrelease := run_release sb t (withEntry x e { x.icache e with holder := some t }) e
  have hunref := run_unref sb t (withEntry x e { x.icache e with holder := none }) e
  rw [withEntry_self] at hlast
  rw [withEntry_self, withEntry_idem] at hrelease hunref
  exact (Prog.run_bind (run_acquire hfree)).trans ((Prog.run_bind (hlast h)).trans
    ((Prog.run_bind hrelease).trans hunref))

/-- `iget` finds the inode in the cache, takes an entry that nobody uses, or panics. -/
theorem run_iget (sb : Superblock) (t : Proc) (x : Sys) (site : Site) (i : Nat) :
    (∃ e, (ino (.iget site i)).run (alone sb t) x =
        .done e (withEntry x e { x.icache e with ref := (x.icache e).ref + 1 }) ∧
      0 < (x.icache e).ref ∧ (x.icache e).inum = i) ∨
    (∃ e, (ino (.iget site i)).run (alone sb t) x =
        .done e (withEntry x e { x.icache e with inum := i, ref := 1, valid := false }) ∧
      (x.icache e).ref = 0 ∧ ∀ e', 0 < (x.icache e').ref → (x.icache e').inum ≠ i) ∨
    ((ino (.iget site i)).run (alone sb t) x = .panic "iget: no inodes" ∧
      ∀ e, (x.icache e).ref ≠ 0) := by
  have hexec : x.inoState.exec sb t (.iget site i) = x.inoState.iget i := rfl
  cases hcached : x.inoState.cached i with
  | some e =>
    have hfound := List.find?_some hcached
    simp only [Bool.and_eq_true, decide_eq_true_eq, beq_iff_eq] at hfound
    refine .inl ⟨e, run_ino ?_, hfound⟩
    rw [hexec, InoState.iget, hcached]
    rfl
  | none =>
    cases hempty : x.inoState.empty with
    | some e =>
      have hfree := List.find?_some hempty
      refine .inr (.inl ⟨e, run_ino ?_, beq_iff_eq.mp hfree, fun e' hpos heq => ?_⟩)
      · rw [hexec, InoState.iget, hcached, hempty]
        rfl
      · have hnot := List.find?_eq_none.mp hcached e' (List.mem_finRange e')
        rw [Bool.and_eq_true, decide_eq_true_eq, beq_iff_eq] at hnot
        exact hnot ⟨hpos, heq⟩
    | none =>
      refine .inr (.inr ⟨Prog.run_panic ?_, fun e he => ?_⟩)
      · change Sys.lift x.withIno (x.inoState.iget i) = _
        rw [InoState.iget, hcached, hempty]
        rfl
      · exact absurd (beq_iff_eq.mpr he) (List.find?_eq_none.mp hempty e (List.mem_finRange e))

theorem run_inode : (ino (.inode e)).run (alone sb t) x = .done (x.icache e).copy x :=
  run_ino_same rfl

/-- A copy that is valid already is the one on disk. -/
theorem run_load (sb : Superblock) (t : Proc) (x : Sys) (e : Entry)
    (ht : (dinode sb x.fs.disk (x.icache e).inum).type ≠ 0)
    (hcopy : (x.icache e).valid = true →
      (x.icache e).copy = dinode sb x.fs.disk (x.icache e).inum) :
    (ino (.load e)).run (alone sb t) x = .done ()
      (withEntry x e
        { x.icache e with valid := true, copy := dinode sb x.fs.disk (x.icache e).inum }) := by
  cases hv : (x.icache e).valid with
  | true =>
    have hsame :
        ({ x.icache e with valid := true, copy := dinode sb x.fs.disk (x.icache e).inum } : Inode) =
        x.icache e := by rw [← hcopy hv, ← hv]
    rw [hsame, withEntry_eta]
    exact run_ino_same (if_pos hv)
  | false =>
    refine run_ino ((if_neg ?_).trans (if_neg ht))
    rw [Bool.not_eq_true]
    exact hv

/-- `ilock` of an inode that is allocated. -/
theorem run_ilock (hpos : 1 ≤ (x.icache e).ref) (hfree : (x.icache e).holder = none)
    (ht : (dinode sb x.fs.disk (x.icache e).inum).type ≠ 0)
    (hcopy : (x.icache e).valid = true →
      (x.icache e).copy = dinode sb x.fs.disk (x.icache e).inum) :
    (ilock e).run (alone sb t) x = .done () (withEntry x e { x.icache e with
      holder := some t, valid := true, copy := dinode sb x.fs.disk (x.icache e).inum }) := by
  have hload := run_load sb t (withEntry x e { x.icache e with holder := some t }) e
  rw [withEntry_self, withEntry_idem] at hload
  exact (Prog.run_bind (run_checkRef hpos)).trans ((Prog.run_bind (run_acquire hfree)).trans
    (hload ht hcopy))

theorem run_ilock_free (hpos : 1 ≤ (x.icache e).ref) (hfree : (x.icache e).holder = none)
    (hv : (x.icache e).valid = false) (ht : (dinode sb x.fs.disk (x.icache e).inum).type = 0) :
    (ilock e).run (alone sb t) x = .panic "ilock: no type" := by
  refine (Prog.run_bind (run_checkRef hpos)).trans
    ((Prog.run_bind (run_acquire hfree)).trans (Prog.run_panic ?_))
  have hload : ∀ s : InoState, (s.icache e).valid = false →
      (dinode sb s.fs.disk (s.icache e).inum).type = 0 → s.load sb e = .panic "ilock: no type" := by
    intro s hv ht
    rw [InoState.load, if_neg (by rw [hv]; exact Bool.false_ne_true)]
    exact if_pos ht
  have hself := withEntry_self x e { x.icache e with holder := some t }
  change Sys.lift _ ((withEntry x e { x.icache e with holder := some t }).inoState.load sb e) = _
  rw [hload _ ((congrArg Inode.valid hself).trans hv)
    ((congrArg (fun n : Inode => (dinode sb x.fs.disk n.inum).type) hself).trans ht)]
  rfl

theorem onCopy_eq {α : Type} (x : Sys) (e : Entry) (code : Dinode → FsM (Dinode × α)) :
    x.inoState.onCopy e code =
    match code (x.icache e).copy x.fs with
    | .ok ((ip, a), fs) => .done a ⟨fs, update x.icache e { x.icache e with copy := ip }⟩
    | .error msg => .panic msg := rfl

/-- Code on a locked inode, which may change it on disk and in memory. -/
theorem run_onCopy_ok {α : Type} {code : Dinode → FsM (Dinode × α)} {a : α} {ip : Dinode} {fs : Fs}
    (h : code (x.icache e).copy x.fs = .ok ((ip, a), fs)) :
    x.inoState.onCopy e code = .done a ⟨fs, update x.icache e { x.icache e with copy := ip }⟩ := by
  rw [onCopy_eq, h]

theorem run_onCopy_error {α : Type} {code : Dinode → FsM (Dinode × α)} {msg : String}
    (h : code (x.icache e).copy x.fs = .error msg) : x.inoState.onCopy e code = .panic msg := by
  rw [onCopy_eq, h]

/-- Reading the inode through its copy, which stays as it is. -/
theorem run_onCopy {α : Type} (code : Dinode → FsM (Dinode × α)) {a : α}
    (h : code (x.icache e).copy x.fs = .ok (((x.icache e).copy, a), x.fs)) :
    x.inoState.onCopy e code = .done a x.inoState := by
  have hcopy :
      (⟨x.fs, update x.icache e { x.icache e with copy := (x.icache e).copy }⟩ : InoState) =
      x.inoState := congrArg (InoState.mk x.fs) (Function.update_eq_self e x.icache)
  rw [run_onCopy_ok h, hcopy]

end Operations

/-! ## Files and transactions -/

section

variable (sb : Superblock) (t : Proc) (x : Sys)

theorem run_beginOp :
    beginOp.run (alone sb t) x = .done () { x with depth := update x.depth t (x.depth t + 1) } :=
  rfl

theorem run_endOp :
    endOp.run (alone sb t) x = .done () { x with depth := update x.depth t (x.depth t - 1) } := rfl

theorem run_file (f : File) : (file (.file f)).run (alone sb t) x = .done (x.ftable f) x := rfl

theorem run_setOff (f : File) (off : UInt32) : (file (.setOff f off)).run (alone sb t) x = .done ()
    { x with ftable := update x.ftable f { x.ftable f with off } } := rfl

end

/-! ## References -/

theorem count_cons_self (held : List (Entry × Nat)) (e : Entry) (i : Nat) :
    (((e, i) :: held).map Prod.fst).count e =
    (held.map Prod.fst).count e + 1 := List.count_cons_self ..

theorem count_cons_ne (held : List (Entry × Nat)) {e e' : Entry} (he : e' ≠ e) (i : Nat) :
    (((e, i) :: held).map Prod.fst).count e' = (held.map Prod.fst).count e' :=
    List.count_cons_of_ne he.symm

/-- An entry that nobody uses is not among those of which references are held. -/
theorem not_held {held : List (Entry × Nat)} (hpos : ∀ {e i}, (e, i) ∈ held → 1 ≤ (x.icache e).ref)
    (hfree : (x.icache e).ref = 0) : e ∉ held.map Prod.fst := by
  intro hmem
  obtain ⟨⟨e', j⟩, hp, rfl⟩ := List.mem_map.mp hmem
  have hused : 1 ≤ (x.icache e').ref := hpos hp
  have hfree : (x.icache e').ref = 0 := hfree
  omega

/-! ## Walks -/

/-- What an entry of the cache has, for a process `t` that started at `x₀` and holds a
reference for each place in a list, and some locks. A `tidy` cache has only inodes of the
file system, and valid copies of allocated ones. -/
structure Slot (tidy : Prop) (sb : Superblock) (t : Proc) (x₀ : Sys) (d : Disk)
    (held : List (Entry × Nat)) (locks : List Entry) (e : Entry) (n : Inode) : Prop where
  holder : n.holder = if e ∈ locks then some t else none
  ref : n.ref = (x₀.icache e).ref + (held.map Prod.fst).count e
  inum : ∀ i, (e, i) ∈ held → n.inum = i
  kept : 0 < (x₀.icache e).ref → n.inum = (x₀.icache e).inum
  range : tidy → 0 < n.ref → n.inum < sb.ninodes
  copy : 0 < n.ref → n.valid = true → n.copy = dinode sb d n.inum ∧ (tidy → n.copy.type ≠ 0)
  loaded : e ∈ locks → n.valid = true

/-- The process `t` started at `x₀`, and has come to `x` with the disk `fs`. A `tidy` cache
has no inode twice. -/
structure Walk (tidy : Prop) (sb : Superblock) (t : Proc) (x₀ : Sys) (fs : Fs)
    (held : List (Entry × Nat)) (locks : List Entry) (x : Sys) : Prop where
  disk : x.fs = fs
  procs : x.procs = x₀.procs
  ftable : x.ftable = x₀.ftable
  base : ∀ p ∈ held, 0 ≤ (x₀.icache p.1).ref
  slot : ∀ e, Slot tidy sb t x₀ fs.disk held locks e (x.icache e)
  unique : tidy → ∀ e e', 0 < (x.icache e).ref → 0 < (x.icache e').ref →
    (x.icache e).inum = (x.icache e').inum → e = e'

/-- How many entries of the cache are free. -/
def spare (x : Sys) : Nat := (Finset.univ.filter fun e => (x.icache e).ref = 0).card

/-- Giving up a reference to inode `i` does not free it: it has links, or somebody else uses it. -/
def Safe (tidy : Prop) (sb : Superblock) (x₀ : Sys) (d : Disk) (i : Nat) : Prop :=
  (dinode sb d i).nlink = 0 → tidy ∧
    ((dinode sb d i).type ≠ 0 → ∃ e, 0 < (x₀.icache e).ref ∧ (x₀.icache e).inum = i)

variable {tidy : Prop} {x₀ : Sys} {fs fs' : Fs} {held held' : List (Entry × Nat)}
  {locks locks' : List Entry}
  {n : Inode} {j : Nat} {S : Stop → Prop} {α : Type}

namespace Walk

/-! ## Changes of one entry -/

section

variable (h : Walk tidy sb t x₀ fs held locks x)
include h

theorem pos (hp : (e, i) ∈ held) : 1 ≤ (x.icache e).ref := by
  have hmem : e ∈ held.map Prod.fst := List.mem_map_of_mem hp
  have hcount := List.count_pos_iff.mpr hmem
  have hbase : 0 ≤ (x₀.icache e).ref := h.base (e, i) hp
  rw [(h.slot e).ref]
  omega

theorem inum (hp : (e, i) ∈ held) : (x.icache e).inum = i :=
  (h.slot e).inum i hp

/-- Entries that are held for different inodes are different. -/
theorem ne_of_inum {e' : Entry} (hp : (e, i) ∈ held) (hp' : (e', j) ∈ held) (hne : i ≠ j) :
    e ≠ e' := by
  rintro rfl
  exact hne ((h.inum hp).symm.trans (h.inum hp'))

theorem perm (hperm : held.Perm held') : Walk tidy sb t x₀ fs held' locks x :=
  { h with
    base := fun p hp => h.base p (hperm.mem_iff.mpr hp)
    slot := fun e => { h.slot e with
      ref := by rw [(h.slot e).ref, (hperm.map Prod.fst).count_eq]
      inum := fun i hi => (h.slot e).inum i (hperm.mem_iff.mpr hi) } }

theorem permLocks (hperm : locks.Perm locks') : Walk tidy sb t x₀ fs held locks' x :=
  { h with
    slot := fun e => { h.slot e with
      holder := by
        rw [(h.slot e).holder]
        simp only [hperm.mem_iff]
      loaded := fun he => (h.slot e).loaded (hperm.mem_iff.mpr he) } }

theorem withDepth (d : Proc → Int) : Walk tidy sb t x₀ fs held locks { x with depth := d } :=
  { h with }

/-- Files and processes change. -/
theorem rebase (F : File → FileS) (P : Procs) : Walk tidy sb t
    { x₀ with ftable := F, procs := P } fs held locks { x with ftable := F, procs := P } where
  disk := h.disk
  procs := rfl
  ftable := rfl
  base := h.base
  slot e := { h.slot e with }
  unique := h.unique

/-- One entry changes, and what is held of it. -/
theorem set (hn : Slot tidy sb t x₀ fs.disk held' locks' e n)
    (hlock : ∀ e', e' ≠ e → (e' ∈ locks' ↔ e' ∈ locks))
    (hcount : ∀ e', e' ≠ e → (held'.map Prod.fst).count e' = (held.map Prod.fst).count e')
    (hbase : ∀ p ∈ held', 0 ≤ (x₀.icache p.1).ref)
    (hheld : ∀ e' i, e' ≠ e → (e', i) ∈ held' → (e', i) ∈ held)
    (hunique : tidy → 0 < n.ref → ∀ e', e' ≠ e → 0 < (x.icache e').ref →
      (x.icache e').inum ≠ n.inum) : Walk tidy sb t x₀ fs held' locks' (withEntry x e n) where
  disk := h.disk
  procs := h.procs
  ftable := h.ftable
  base := hbase
  slot e' := by
    by_cases he : e' = e
    · subst he
      rwa [withEntry_self]
    · rw [withEntry_of_ne he]
      exact { h.slot e' with
        holder := by
          rw [(h.slot e').holder]
          simp only [hlock e' he]
        ref := by rw [(h.slot e').ref, hcount e' he]
        inum := fun i hi => (h.slot e').inum i (hheld e' i he hi)
        loaded := fun hl => (h.slot e').loaded ((hlock e' he).mp hl) }
  unique htidy e₁ e₂ := by
    by_cases h₁ : e₁ = e
    · by_cases h₂ : e₂ = e
      · exact fun _ _ _ => h₁.trans h₂.symm
      · subst h₁
        rw [withEntry_self, withEntry_of_ne h₂]
        exact fun hpos hpos' heq => absurd heq.symm (hunique htidy hpos e₂ h₂ hpos')
    · by_cases h₂ : e₂ = e
      · subst h₂
        rw [withEntry_self, withEntry_of_ne h₁]
        exact fun hpos hpos' heq => absurd heq (hunique htidy hpos' e₁ h₁ hpos)
      · rw [withEntry_of_ne h₁, withEntry_of_ne h₂]
        exact h.unique htidy e₁ e₂

/-- The references stay as they are. -/
theorem setSame (hn : Slot tidy sb t x₀ fs.disk held locks' e n)
    (hlock : ∀ e', e' ≠ e → (e' ∈ locks' ↔ e' ∈ locks)) (href : n.ref = (x.icache e).ref)
    (hinum : n.inum = (x.icache e).inum) : Walk tidy sb t x₀ fs held locks' (withEntry x e n) := by
  refine h.set hn hlock (fun _ _ => rfl) h.base (fun _ _ _ => id)
    fun htidy hpos e' he hpos' heq => he ?_
  rw [href] at hpos
  exact h.unique htidy e' e hpos' hpos (heq.trans hinum)

/-! ## Locks -/

/-- The copy of a locked inode is the inode on disk. -/
theorem copied (hp : (e, i) ∈ held) (hl : e ∈ locks) :
    (x.icache e).copy = dinode sb fs.disk i ∧ (tidy → (dinode sb fs.disk i).type ≠ 0) := by
  have hpos := h.pos hp
  obtain ⟨hcopy, htype⟩ := (h.slot e).copy (by omega) ((h.slot e).loaded hl)
  rw [h.inum hp] at hcopy
  exact ⟨hcopy, hcopy ▸ htype⟩

theorem lock (hp : (e, i) ∈ held) (hblock : e ∈ locks → S .blocked)
    (hdead : (dinode sb fs.disk i).type = 0 → tidy ∧ S (.panic "ilock: no type")) :
    Sat (alone sb t) S (FsCalls.ilock e) (fun _ y => e ∉ locks ∧
      (dinode sb fs.disk i).type ≠ 0 ∧ Walk tidy sb t x₀ fs held (e :: locks) y) x := by
  have hpos := h.pos hp
  have hdisk : dinode sb x.fs.disk (x.icache e).inum = dinode sb fs.disk i := by
    rw [h.inum hp, h.disk]
  by_cases hl : e ∈ locks
  · have hholder : (x.icache e).holder = some t := (h.slot e).holder.trans (if_pos hl)
    exact .of_blocked
      ((Prog.run_bind (run_checkRef hpos)).trans (run_acquire_held hholder)) (hblock hl)
  · have hholder : (x.icache e).holder = none := (h.slot e).holder.trans (if_neg hl)
    have hcopy : (x.icache e).valid = true → (x.icache e).copy = dinode sb fs.disk i := fun hv => by
      rw [((h.slot e).copy (by omega) hv).1, h.inum hp]
    by_cases ht : (dinode sb fs.disk i).type = 0
    · obtain ⟨htidy, hstop⟩ := hdead ht
      -- a valid copy would be of an allocated inode
      have hv : (x.icache e).valid = false := by
        refine Bool.eq_false_iff.mpr fun hv => ((h.slot e).copy (by omega) hv).2 htidy ?_
        rw [hcopy hv, ht]
      exact .of_panic (run_ilock_free hpos hholder hv (by rw [hdisk, ht])) hstop
    · refine .of_run
        (run_ilock hpos hholder (by rwa [hdisk]) fun hv => by rw [hdisk, hcopy hv]) ⟨hl, ht, ?_⟩
      rw [hdisk]
      refine h.setSame ?_ (fun e' he => ?_) rfl rfl
      · exact { h.slot e with
          holder := (if_pos List.mem_cons_self).symm
          copy := fun _ _ => ⟨(congrArg (dinode sb fs.disk) (h.inum hp)).symm, fun _ => ht⟩
          loaded := fun _ => rfl }
      · rw [List.mem_cons]
        exact or_iff_right he

end

/-- The rest of a program that locks the inode it has found last. -/
theorem lock_bind {f : Unit → P α} {Q : α → Sys → Prop}
    (h : Walk tidy sb t x₀ fs ((e, i) :: held) locks x) (hblock : e ∈ locks → S .blocked)
    (hdead : (dinode sb fs.disk i).type = 0 → tidy ∧ S (.panic "ilock: no type"))
    (hrest : ∀ y, e ∉ locks → Walk tidy sb t x₀ fs ((e, i) :: held) (e :: locks) y →
      Sat (alone sb t) S (f ()) Q y) : Sat (alone sb t) S (FsCalls.ilock e >>= f) Q x :=
  Sat.bind (h.lock List.mem_cons_self hblock hdead) fun _ y hy => hrest y hy.1 hy.2.2

theorem iunlock (h : Walk tidy sb t x₀ fs held (e :: locks) x) (hp : (e, i) ∈ held)
    (hl : e ∉ locks) :
    ∃ y, (FsCalls.iunlock e).run (alone sb t) x = .done () y ∧
      Walk tidy sb t x₀ fs held locks y := by
  have hholder : (x.icache e).holder = some t := (h.slot e).holder.trans (if_pos List.mem_cons_self)
  refine ⟨_, run_iunlock hholder (h.pos hp), h.setSame ?_ (fun e' he => ?_) rfl rfl⟩
  · exact { h.slot e with
      holder := (if_neg hl).symm
      loaded := fun he => absurd he hl }
  · rw [List.mem_cons]
    exact (or_iff_right he).symm

/-! ## References -/

theorem mem_of_cons {e' : Entry} (he : e' ≠ e) (h : (e', j) ∈ (e, i) :: held) : (e', j) ∈ held :=
  (List.mem_cons.mp h).resolve_left fun heq => he (congrArg Prod.fst heq)

theorem notLast (h : Walk tidy sb t x₀ fs ((e, i) :: held) locks x)
    (hsafe : Safe tidy sb x₀ fs.disk i) (hv : (x.icache e).valid = true)
    (hlink : (x.icache e).copy.nlink = 0) : (x.icache e).ref ≠ 1 := by
  have hpos := h.pos List.mem_cons_self
  have hinum := h.inum List.mem_cons_self
  obtain ⟨hcopy, htype⟩ := (h.slot e).copy (by omega) hv
  rw [hinum] at hcopy
  rw [hcopy] at hlink htype
  obtain ⟨htidy, hused⟩ := hsafe hlink
  obtain ⟨e', hpos', hinum'⟩ := hused (htype htidy)
  have hkept := (h.slot e').kept hpos'
  obtain rfl : e' = e := by
    refine h.unique htidy e' e ?_ (by omega) (hkept.trans (hinum'.trans hinum.symm))
    rw [(h.slot e').ref]
    omega
  rw [(h.slot e').ref, count_cons_self]
  omega

theorem put (h : Walk tidy sb t x₀ fs ((e, i) :: held) locks x) (hl : e ∉ locks)
    (hsafe : Safe tidy sb x₀ fs.disk i) :
    ∃ y, (FsCalls.iput e).run (alone sb t) x = .done () y ∧ Walk tidy sb t x₀ fs held locks y := by
  have hpos := h.pos List.mem_cons_self
  have hholder : (x.icache e).holder = none := (h.slot e).holder.trans (if_neg hl)
  refine ⟨_, run_iput hholder (h.notLast hsafe), ?_⟩
  refine h.set ?_ (fun _ _ => Iff.rfl) (fun e' he => (count_cons_ne held he i).symm)
    (fun p hp => h.base p (List.mem_cons_of_mem _ hp)) (fun e' j _ => List.mem_cons_of_mem _)
    fun htidy _ e' he hpos' heq => he (h.unique htidy e' e hpos' (by omega) heq)
  exact { h.slot e with
    holder := (if_neg hl).symm
    ref := by
      change (x.icache e).ref - 1 = _
      rw [(h.slot e).ref, count_cons_self]
      omega
    inum := fun j hj => (h.slot e).inum j (List.mem_cons_of_mem _ hj)
    range := fun htidy _ => (h.slot e).range htidy (by omega)
    copy := fun _ => (h.slot e).copy (by omega) }

theorem unlockput (h : Walk tidy sb t x₀ fs ((e, i) :: held) (e :: locks) x) (hl : e ∉ locks)
    (hsafe : Safe tidy sb x₀ fs.disk i) :
    ∃ y, (FsCalls.iunlockput e).run (alone sb t) x = .done () y ∧
      Walk tidy sb t x₀ fs held locks y := by
  obtain ⟨x₁, hunlock, h₁⟩ := h.iunlock List.mem_cons_self hl
  obtain ⟨y, hput, hy⟩ := h₁.put hl hsafe
  exact ⟨y, (Prog.run_bind hunlock).trans hput, hy⟩

section

variable (h : Walk tidy sb t x₀ fs held locks x)
include h

/-- One more reference to an entry that is in use. -/
theorem dup (hpos : 0 < (x.icache e).ref) (hinum : (x.icache e).inum = i) : Walk tidy sb t x₀ fs
    ((e, i) :: held) locks (withEntry x e { x.icache e with ref := (x.icache e).ref + 1 }) := by
  have hbase : 0 ≤ (x₀.icache e).ref := by
    by_cases hmem : e ∈ held.map Prod.fst
    · obtain ⟨p, hp, rfl⟩ := List.mem_map.mp hmem
      exact h.base p hp
    · have := (h.slot e).ref
      rw [List.count_eq_zero_of_not_mem hmem] at this
      omega
  refine h.set ?_ (fun _ _ => Iff.rfl) (fun e' he => count_cons_ne held he i)
    (List.forall_mem_cons.mpr ⟨hbase, h.base⟩) (fun e' j he => mem_of_cons he)
    fun htidy _ e' he hpos' heq => he (h.unique htidy e' e hpos' hpos heq)
  exact { h.slot e with
    ref := by
      change (x.icache e).ref + 1 = _
      rw [(h.slot e).ref, count_cons_self]
      omega
    inum := fun j hj => by
      rcases List.mem_cons.mp hj with heq | hj
      · cases heq
        exact hinum
      · exact (h.slot e).inum j hj
    range := fun htidy _ => (h.slot e).range htidy hpos
    copy := fun _ => (h.slot e).copy hpos }

/-- An entry that nobody uses is taken for inode `i`. -/
theorem take (hlock : ∀ e', e' ∈ locks → e' ∈ held.map Prod.fst) (hfree : (x.icache e).ref = 0)
    (hi : tidy → i < sb.ninodes) (hnone : ∀ e', 0 < (x.icache e').ref → (x.icache e').inum ≠ i) :
    Walk tidy sb t x₀ fs ((e, i) :: held) locks
    (withEntry x e { x.icache e with inum := i, ref := 1, valid := false }) := by
  have hnot := not_held h.pos hfree
  have hcount : (held.map Prod.fst).count e = 0 := List.count_eq_zero_of_not_mem hnot
  have hbase : (x₀.icache e).ref = 0 := by
    have := (h.slot e).ref
    rw [hcount] at this
    omega
  refine h.set ?_ (fun _ _ => Iff.rfl) (fun e' he => count_cons_ne held he i)
    (List.forall_mem_cons.mpr ⟨hbase.ge, h.base⟩) (fun e' j he => mem_of_cons he)
    fun _ _ e' _ hpos' => hnone e' hpos'
  exact { h.slot e with
    ref := by
      rw [count_cons_self, hcount, hbase]
      rfl
    inum := fun j hj => by
      rcases List.mem_cons.mp hj with heq | hj
      · cases heq
        rfl
      · exact absurd (List.mem_map_of_mem hj) hnot
    kept := fun hpos => by omega
    range := fun htidy _ => hi htidy
    copy := nofun
    loaded := fun hl => absurd (hlock e hl) hnot }

/-- Where every entry is in use, the ones that were free at the start are held. -/
theorem spare_le (hused : ∀ e, (x.icache e).ref ≠ 0) : spare x₀ ≤ held.length := by
  have hsub : (Finset.univ.filter fun e => (x₀.icache e).ref = 0) ⊆
      (held.map Prod.fst).toFinset := by
    intro e he
    have he := (Finset.mem_filter.mp he).2
    have hne := hused e
    rw [(h.slot e).ref, he] at hne
    exact List.mem_toFinset.mpr (List.count_pos_iff.mp (by omega))
  calc spare x₀ ≤ (held.map Prod.fst).toFinset.card := Finset.card_le_card hsub
    _ ≤ (held.map Prod.fst).length := List.toFinset_card_le _
    _ = held.length := List.length_map ..

/-- `iget` takes a reference, unless it needs a free entry and there is none. -/
theorem iget (hlock : ∀ e', e' ∈ locks → e' ∈ held.map Prod.fst) (site : Site)
    (hi : tidy → i < sb.ninodes) (hfull : spare x₀ ≤ held.length → S (.panic "iget: no inodes")) :
    Sat (alone sb t) S (ino (.iget site i)) (fun e y =>
      Walk tidy sb t x₀ fs ((e, i) :: held) locks y) x := by
  obtain ⟨e, hrun, hpos, hinum⟩ | ⟨e, hrun, hfree, hnone⟩
    | ⟨hpanic, hused⟩ := run_iget sb t x site i
  · exact .of_run hrun (h.dup hpos hinum)
  · exact .of_run hrun (h.take hlock hfree hi hnone)
  · exact .of_panic hpanic (hfull (h.spare_le hused))

/-! ## Reading a locked inode -/

theorem run_inode (hp : (e, i) ∈ held) (hl : e ∈ locks) :
    (ino (.inode e)).run (alone sb t) x = .done (dinode sb fs.disk i) x := by
  rw [← (h.copied hp hl).1]
  exact InodeRuns.run_inode

theorem run_inum (hp : (e, i) ∈ held) : (ino (.inum e)).run (alone sb t) x = .done i x := by
  rw [← h.inum hp]
  exact run_ino_same rfl

/-- Code that reads a locked inode. -/
theorem onCopy (code : Dinode → FsM (Dinode × α)) {r : α} (hp : (e, i) ∈ held)
    (hl : e ∈ locks) (hr : code (dinode sb fs.disk i) fs = .ok ((dinode sb fs.disk i, r), fs)) :
    x.inoState.onCopy e code = .done r x.inoState := by
  refine run_onCopy code ?_
  rw [(h.copied hp hl).1, h.disk]
  exact hr

theorem run_dirlookup {name : Name} {r : Option (Nat × Nat)} (hp : (e, i) ∈ held) (hl : e ∈ locks)
    (hr : Directory.dirlookup sb (dinode sb fs.disk i) name fs = .ok ((dinode sb fs.disk i, r), fs))
    : (ino (.dirlookup e name)).run (alone sb t) x = .done r x :=
  run_ino_same (h.onCopy (fun ip => Directory.dirlookup sb ip name) hp hl hr)

theorem run_readi {off len : UInt32} {r : Option (List UInt8)} (hp : (e, i) ∈ held) (hl : e ∈ locks)
    (hr : FileData.readi sb (dinode sb fs.disk i) off len fs = .ok ((dinode sb fs.disk i, r), fs)) :
    (ino (.readi e off len)).run (alone sb t) x = .done r x :=
  run_ino_same (h.onCopy (fun ip => FileData.readi sb ip off len) hp hl hr)

end

end Walk

/-! ## One component of a path -/

/-- A locked directory is searched. -/
theorem Walk.dirlookup {name : Name} {r : Option (Nat × Nat)}
    (h : Walk tidy sb t x₀ fs held locks x) (hp : (e, i) ∈ held) (hl : e ∈ locks)
    (hlocks : ∀ e', e' ∈ locks → e' ∈ held.map Prod.fst)
    (hr : Directory.dirlookup sb (dinode sb fs.disk i) name fs = .ok ((dinode sb fs.disk i, r), fs))
    (hrange : tidy → ∀ j, r.map Prod.fst = some j → j < sb.ninodes)
    (hfull : spare x₀ ≤ held.length → S (.panic "iget: no inodes")) (site : Site) :
    Sat (alone sb t) S (FsCalls.dirlookup site e name) (fun a y =>
      match r.map Prod.fst with
      | some j => ∃ e' off, a = some (e', off) ∧ Walk tidy sb t x₀ fs ((e', j) :: held) locks y
      | none => a = none ∧ Walk tidy sb t x₀ fs held locks y) x := by
  refine Sat.after (h.run_dirlookup hp hl hr) ?_
  cases r with
  | none => exact .ret ⟨rfl, h⟩
  | some q =>
    refine Sat.bind (h.iget hlocks site (fun htidy => hrange htidy q.1 rfl) hfull) fun e' y hy => ?_
    exact .ret ⟨e', q.2, rfl, hy⟩

/-- The loop body of `namex` after the check of the type: the name is looked up, and the
directory given up. -/
theorem Walk.component {name : Name} {r : Option (Nat × Nat)} {f : Entry → P (Option α)}
    {Q : Option α → Sys → Prop} (h : Walk tidy sb t x₀ fs ((e, i) :: held) [e] x)
    (hsafe : Safe tidy sb x₀ fs.disk i)
    (hr : Directory.dirlookup sb (dinode sb fs.disk i) name fs = .ok ((dinode sb fs.disk i, r), fs))
    (hrange : tidy → ∀ j, r.map Prod.fst = some j → j < sb.ninodes)
    (hfull : spare x₀ ≤ held.length + 1 → S (.panic "iget: no inodes"))
    (hnone : r.map Prod.fst = none → ∀ y, Walk tidy sb t x₀ fs held [] y → Q none y)
    (hsome : ∀ j, r.map Prod.fst = some j → ∀ e' y, Walk tidy sb t x₀ fs ((e', j) :: held) [] y →
      Sat (alone sb t) S (f e') Q y) :
    Sat (alone sb t) S (do
      match ← FsCalls.dirlookup .namex e name with
      | none => do
        iunlockput e
        pure none
      | some (ip, _) => do
        iunlockput e
        f ip) Q x := by
  refine Sat.bind
    (h.dirlookup List.mem_cons_self List.mem_cons_self (by simp) hr hrange hfull .namex)
    fun a y ha => ?_
  cases hj : r.map Prod.fst with
  | none =>
    rw [hj] at ha
    obtain ⟨rfl, hy⟩ := ha
    obtain ⟨z, hput, hz⟩ := hy.unlockput List.not_mem_nil hsafe
    exact Sat.after hput (.ret (hnone hj z hz))
  | some j =>
    rw [hj] at ha
    obtain ⟨e', off, rfl, hy⟩ := ha
    obtain ⟨z, hput, hz⟩ := (hy.perm (List.Perm.swap _ _ _)).unlockput List.not_mem_nil hsafe
    exact Sat.after hput (hsome j hj e' z hz)

/-! ## The start of a path -/

/-- Where a path starts. -/
def start (x : Sys) (t : Proc) (path : Path) : Nat :=
  if path.head? = some slash then 1
  else match (x.procs t).cwd with
    | some e => (x.icache e).inum
    | none => 0

/-- No inode is locked, and the cache agrees with the disk; the process has a current
directory. -/
structure Idle (sb : Superblock) (t : Proc) (x : Sys) : Prop where
  unlocked : ∀ e, (x.icache e).holder = none
  copies : ∀ e, 0 < (x.icache e).ref → (x.icache e).valid = true →
    (x.icache e).copy = dinode sb x.fs.disk (x.icache e).inum
  cwd : ∃ e, (x.procs t).cwd = some e ∧ 0 < (x.icache e).ref

theorem idle_boot (sb : Superblock) (fs : Fs) : Idle sb 0 (Sys.boot fs) := by
  refine ⟨fun e => ?_, fun e _ hv => ?_, 0, rfl, Int.one_pos⟩
  · by_cases he : e = 0
    · subst he
      rfl
    · simp [Sys.boot, he]
  · by_cases he : e = 0
    · subst he
      cases hv
    · simp [Sys.boot, he] at hv

theorem Idle.walk (h : Idle sb t x) : Walk False sb t x x.fs [] [] x where
  disk := rfl
  procs := rfl
  ftable := rfl
  base := nofun
  slot e :=
    { holder := h.unlocked e
      ref := (Int.add_zero _).symm
      inum := nofun
      kept := fun _ => rfl
      range := False.elim
      copy := fun hpos hv => ⟨h.copies e hpos hv, False.elim⟩
      loaded := nofun }
  unique := False.elim

theorem namex_eq (path : Path) (parent : Bool) : namex path parent =
    (if path.head? = some slash then ino (.iget .namex 1) else idupCwd : P Entry) >>=
      namexFrom parent (elems path) [] := by
  unfold namex
  split <;> rfl

/-- A path starts at the root or at the current directory. -/
theorem Walk.start (h : Walk tidy sb t x₀ fs held [] x) (hroot : tidy → 1 < sb.ninodes)
    (hcwd : ∃ e, (x₀.procs t).cwd = some e ∧ 0 < (x₀.icache e).ref)
    (hfull : spare x₀ ≤ held.length → S (.panic "iget: no inodes")) (path : Path) :
    Sat (alone sb t) S (if path.head? = some slash then ino (.iget .namex 1) else idupCwd : P Entry)
      (fun e y => Walk tidy sb t x₀ fs ((e, InodeRuns.start x₀ t path) :: held) [] y) x := by
  by_cases hslash : path.head? = some slash
  · rw [if_pos hslash, InodeRuns.start, if_pos hslash]
    exact h.iget (fun e' he => absurd he List.not_mem_nil) .namex hroot hfull
  · obtain ⟨e, he, hpos⟩ := hcwd
    have hread : (proc .cwd).run (alone sb t) x = .done (some e) x := by
      refine Prog.run_perform ?_
      change Outcome.done (x.procs t).cwd x = _
      rw [h.procs, he]
    rw [if_neg hslash, InodeRuns.start, if_neg hslash, he]
    refine Sat.after hread (Sat.after run_idup (.ret (h.dup ?_ ((h.slot e).kept hpos))))
    rw [(h.slot e).ref]
    omega

/-! ## Runs that may find the cache full -/

/-- At most one entry of the inode cache is free. -/
def Crowded (x : Sys) : Prop :=
  ∀ e e', (x.icache e).ref = 0 → (x.icache e').ref = 0 → e = e'

theorem crowded_of_spare (h : spare x ≤ 1) : Crowded x := fun e e' he he' =>
  Finset.card_le_one.mp h e (Finset.mem_filter.mpr ⟨Finset.mem_univ e, he⟩) e'
    (Finset.mem_filter.mpr ⟨Finset.mem_univ e', he'⟩)

/-- The program ends so that `Q` holds, or `iget` panics because the cache was crowded. -/
def Ends (sb : Superblock) (t : Proc) (x₀ : Sys) (p : P α) (Q : α → Sys → Prop) (x : Sys) : Prop :=
  (∃ r y, p.run (alone sb t) x = .done r y ∧ Q r y) ∨
    (p.run (alone sb t) x = .panic "iget: no inodes" ∧ Crowded x₀)

/-- The only reason to stop is a full cache. -/
def Full (x₀ : Sys) (r : Stop) : Prop := r = .panic "iget: no inodes" ∧ Crowded x₀

theorem Ends.of_sat {p : P α} {Q : α → Sys → Prop} (h : Sat (alone sb t) (Full x₀) p Q x) :
    Ends sb t x₀ p Q x := by
  rw [Sat] at h
  split at h
  next r y hrun => exact .inl ⟨r, y, hrun, h⟩
  next => cases h.1
  next msg hrun =>
    obtain ⟨hmsg, hcrowded⟩ := h
    cases hmsg
    exact .inr ⟨hrun, hcrowded⟩

end Xv6.InodeRuns
