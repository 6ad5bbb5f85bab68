import Xv6.FailedOpen

/-!
# Full directories

`link`, `mkdir`, `mknod` and `open` with `O_CREATE` of a name that is not there, with enough
free blocks, inodes and cache entries. The one thing that stops them is a directory of the
largest size without an empty entry: `dirlink` panics.
-/
namespace Xv6.FullDirectory

open FsImage BlockMap Directory DirentWrite FreeBlocks FsSystem FsCalls Interleave
  InodeRuns PathResolution RunRules
open SoloRuns SoloPaths SoloLinks FailedCalls FailedOpen

/-- Directories name inodes that are allocated. -/
def Names (sb : Superblock) (d : Disk) : Prop :=
  ∀ i, i < sb.ninodes → (dinode sb d i).type = tDir →
    ∀ de ∈ entries d (dinode sb d i), de.inum ≠ 0 →
    (dinode sb d de.inum.toNat).type ≠ 0

/-- A consistent state in which directories name allocated inodes, paths start at one, and a
file structure that is not in use is empty. -/
structure Sound (sb : Superblock) (t : Proc) (x : Sys) : Prop extends Consistent sb t x where
  names : Names sb x.fs.disk
  starts : ∀ path, (dinode sb x.fs.disk (start x t path)).type ≠ 0
  files : ∀ f, (x.ftable f).ref = 0 → (x.ftable f).type = .none

variable {sb : Superblock} {t : Proc} {x y : Sys} {fs : Fs} {d d' : Disk} {i j : Nat}
  {name : Name} {path : Path}
  {c : Call} {S : Stop → Prop}

/-! ## Paths on a consistent disk -/

theorem start_lt (h : Consistent sb t x) (path : Path) : start x t path < sb.ninodes := by
  obtain ⟨e, he, hpos⟩ := h.cwd
  rw [start, he]
  split
  next => exact h.root
  next => exact h.range e hpos

theorem Names.lookup (h : Names sb d) (hd : Dirs sb d) (hi : i < sb.ninodes)
    (ht : (dinode sb d i).type = tDir) (hl : lookup d (dinode sb d i) name = some j) :
    j < sb.ninodes ∧ (dinode sb d j).type ≠ 0 := by
  refine ⟨(hd i hi ht).lookup_lt hl, ?_⟩
  obtain ⟨de, hfind, rfl⟩ := Option.map_eq_some_iff.mp hl
  have hname := List.find?_some hfind
  rw [hasName, Bool.and_eq_true, bne_iff_ne] at hname
  exact h i hi ht de (List.mem_of_find?_eq_some hfind) hname.1

section

variable (h : Names sb d)
  (hd : Dirs sb d) (l : List Name) (hi : i < sb.ninodes) (ht : (dinode sb d i).type ≠ 0)
include h hd l hi ht

/-- Paths lead over allocated inodes only. -/
theorem Names.not_stale : ¬ Stale sb d i l := by
  induction l generalizing i with
  | nil => exact id
  | cons a l ih =>
    rintro (h0 | ⟨hdir, j, hj, hst⟩)
    · exact ht h0
    · obtain ⟨hlt, hlive⟩ := h.lookup hd hi hdir hj
      exact ih hlt hlive hst

/-- A path leads to an allocated inode. -/
theorem Names.resolve (hj : resolve sb d i l = some j) :
    j < sb.ninodes ∧ (dinode sb d j).type ≠ 0 := by
  induction l generalizing i with
  | nil =>
    cases hj
    exact ⟨hi, ht⟩
  | cons a l ih =>
    rw [PathResolution.resolve] at hj
    split at hj
    next hdir =>
      split at hj
      next k hk =>
        obtain ⟨hlt, hlive⟩ := h.lookup hd hi hdir hk
        exact ih hlt hlive hj
      next => cases hj
    next => cases hj

end

/-- Paths lead to the same inodes as long as directories have the same entries. -/
theorem resolve_congr (hd : Dirs sb d)
    (htype : ∀ i, i < sb.ninodes → (dinode sb d' i).type = (dinode sb d i).type)
    (hkept : ∀ i, i < sb.ninodes → (dinode sb d i).type = tDir → DirKept sb d d' i) (l : List Name)
    (hi : i < sb.ninodes) : resolve sb d' i l = resolve sb d i l := by
  induction l generalizing i with
  | nil => rfl
  | cons a l ih =>
    rw [resolve, resolve, htype i hi]
    by_cases ht : (dinode sb d i).type = tDir
    · rw [if_pos ht, if_pos ht, (hkept i hi ht).lookup a]
      cases hl : PathResolution.lookup d (dinode sb d i) a with
      | none => rfl
      | some j => exact ih ((hd i hi ht).lookup_lt hl)
    · rw [if_neg ht, if_neg ht]

theorem resolve_lt (hd : Dirs sb d) (l : List Name) (hi : i < sb.ninodes)
    (h : resolve sb d i l = some j) :
    j < sb.ninodes := by
  induction l generalizing i with
  | nil =>
    cases h
    exact hi
  | cons a l ih =>
    rw [resolve] at h
    split at h
    next ht =>
      split at h
      next k hk => exact ih ((hd i hi ht).lookup_lt hk) h
      next => cases h
    next => cases h

theorem resolveParent_congr (hd : Dirs sb d)
    (htype : ∀ i, i < sb.ninodes → (dinode sb d' i).type = (dinode sb d i).type)
    (hkept : ∀ i, i < sb.ninodes → (dinode sb d i).type = tDir → DirKept sb d d' i) (l : List Name)
    (hi : i < sb.ninodes) : resolveParent sb d' i l = resolveParent sb d i l := by
  rw [resolveParent, resolveParent]
  cases l.getLast? with
  | none => rfl
  | some name =>
    dsimp only
    rw [resolve_congr hd htype hkept l.dropLast hi]
    cases hj : resolve sb d i l.dropLast with
    | none => rfl
    | some j =>
      dsimp only
      rw [htype j (resolve_lt hd _ hi hj)]

theorem resolveParent_lt (hd : Dirs sb d) (l : List Name) (hi : i < sb.ninodes)
    (h : resolveParent sb d i l = some (j, name)) : j < sb.ninodes := by
  rw [resolveParent] at h
  split at h
  next => cases h
  next =>
    split at h
    next k hk =>
      split at h
      next =>
        cases h
        exact resolve_lt hd _ hi hk
      next => cases h
    next => cases h

/-! ## While a link count is one too high -/

theorem relinked_nums (sb : Superblock) (fs : Fs) (i k : Nat) :
    Renumbers (dinode sb fs.disk k) (dinode sb (relinked sb fs i 1).disk k) :=
  table_putDinode _ (renumbers_nlink ..) k

section Relinked

variable (h : Sound sb t x) (hi : i < sb.ninodes)

include h hi

theorem relinked_dirs : Dirs sb (relinked sb x.fs i 1).disk :=
  dirs_putDinode h.dirs h.owned hi (renumbers_nlink ..)

theorem relinked_kept (hj : j < sb.ninodes) (ht : (dinode sb x.fs.disk j).type = tDir) :
    DirKept sb x.fs.disk (relinked sb x.fs i 1).disk j := by
  refine .putDinode (h.dirs j hj ht) h.owned hi hj (by rw [ht]; decide) fun heq => ?_
  subst heq
  exact renumbers_nlink ..

theorem relinked_names : Names sb (relinked sb x.fs i 1).disk := by
  intro k hk ht de hde hne
  rw [(relinked_nums sb x.fs i k).type] at ht
  rw [(relinked_kept h hi hk ht).entries] at hde
  rw [(relinked_nums sb x.fs i _).type]
  exact h.names k hk ht de hde hne

theorem relinked_not_stale (path : Path) :
    ¬ Stale sb (relinked sb x.fs i 1).disk (start x t path) (elems path) := by
  refine (relinked_names h hi).not_stale (relinked_dirs h hi) _ (start_lt h.toConsistent path) ?_
  rw [(relinked_nums sb x.fs i _).type]
  exact h.starts path

theorem relinked_resolveParent (path : Path) :
    resolveParent sb (relinked sb x.fs i 1).disk (start x t path) (elems path) =
      resolveParent sb x.fs.disk (start x t path) (elems path) :=
  resolveParent_congr h.dirs (fun k _ => (relinked_nums sb x.fs i k).type)
    (fun _ => relinked_kept h hi) _
    (start_lt h.toConsistent path)

end Relinked

/-! ## The calls -/

/-- The name that a call makes. -/
def newName : Call → Option Path
  | .link _ new => new
  | .mkdir path => path
  | .mknod path _ _ => path
  | .open_ path m => if m.create then path else none
  | _ => none

/-- A path leads to a file or a device. -/
def LeadsToFile (sb : Superblock) (t : Proc) (x : Sys) (path : Option Path) : Prop :=
  ∃ p i, path = some p ∧ resolve sb x.fs.disk (start x t p) (elems p) = some i ∧
    (dinode sb x.fs.disk i).type ≠ tDir

/-- What a call needs besides blocks and inodes to make a name in directory `j`. -/
def Fits (sb : Superblock) (t : Proc) (x : Sys) (j : Nat) : Call → Prop
  | .link old _ => Room x.fs.disk (dinode sb x.fs.disk j) ∨ ¬ LeadsToFile sb t x old
  | .open_ _ _ => Room x.fs.disk (dinode sb x.fs.disk j) ∧ ¬ Exhausted x t
  | _ => Room x.fs.disk (dinode sb x.fs.disk j)

/-- The call succeeds, or returns -1 and has changed nothing. -/
def Good (sb : Superblock) (t : Proc) (x : Sys) (r : Int) (y : Sys) : Prop :=
  0 ≤ r ∨ (r = -1 ∧ Unchanged sb t x y)

/-- How a call ends: well if it fits, and badly if it does not. -/
def Ended (sb : Superblock) (t : Proc) (x : Sys) (j : Nat) (c : Call) (r : Int) (y : Sys) : Prop :=
  (Fits sb t x j c ∧ Good sb t x r y) ∨ (¬ Fits sb t x j c ∧ ¬ Good sb t x r y)

/-- A call that does not fit may panic. -/
def Stopped (sb : Superblock) (t : Proc) (x : Sys) (j : Nat) (c : Call) (s : Stop) : Prop :=
  s = .panic "dirlink" ∧ ¬ Fits sb t x j c

section Calls

variable (h : Sound sb t x) (hblocks : 3 ≤ (free sb x.fs.disk).card)
  (hinode : ∃ i, 1 ≤ i ∧ i < sb.ninodes ∧ (dinode sb x.fs.disk i).type = 0) (hspare : 3 ≤ spare x)
  (hp : resolveParent sb x.fs.disk (start x t path) (elems path) = some (j, name))
  (hl : lookup x.fs.disk (dinode sb x.fs.disk j) name = none)

include h hblocks hinode hspare hp hl

/-- `create` of a name that is not there. -/
theorem sat_createName {z : Sys} (hz : Solo sb t x x.fs [] [] z) {type : Int16} (htype : type ≠ 0)
    (hroom : ¬ Room x.fs.disk (dinode sb x.fs.disk j) → S (.panic "dirlink"))
    (major minor : Int16) :
    Sat (alone sb t) S (create sb path type major minor) (fun r y => ∃ ip i fs, r = some ip ∧
      Created sb x j type i fs ∧ Solo sb t x fs [(ip, i)] [ip] y) z := by
  refine sat_create h.toConsistent hz (fun hle => by omega) (fun hno => absurd hl (hno j name hp))
    (fun hno => absurd (hp.symm.trans hno) nofun) (fun j' name' i hp' hl' => ?_)
    (fun j' name' i hp' hl' => ?_)
    fun j' name' dp y hp' _ hy => ?_
  · cases hp.symm.trans hp'
    exact absurd (hl.symm.trans hl') nofun
  · cases hp.symm.trans hp'
    exact absurd (hl.symm.trans hl') nofun
  · cases hp.symm.trans hp'
    refine (sat_createNew (fun hlt => by omega) hroom h.toConsistent hy
      (resolveParent_dir hp) hl htype
      (fun hle => by omega) (fun hall => ?_) major minor).mono fun ip z hz => ?_
    · obtain ⟨i, hi, hlt, h0⟩ := hinode
      exact absurd h0 (hall i hi hlt)
    · obtain ⟨i, fs, hc, -, hz⟩ := hz
      exact ⟨ip, i, fs, rfl, hc, hz⟩

theorem sat_mkName {type : Int16} (htype : type ≠ 0)
    (hroom : ¬ Room x.fs.disk (dinode sb x.fs.disk j) → S (.panic "dirlink"))
    (major minor : Int16) :
    Sat (alone sb t) S (mkInode sb (some path) type major minor) (fun r _ => r = 0 ∧
      Room x.fs.disk (dinode sb x.fs.disk j)) x := by
  refine Sat.after (run_beginOp sb t x) (Sat.bind (sat_createName h hblocks hinode hspare hp hl
    (h.solo.withDepth _) htype hroom major minor) fun r y hr => ?_)
  obtain ⟨ip, i, fs, rfl, hc, hy⟩ := hr
  obtain ⟨z, hput, -⟩ := hy.iunlockput List.not_mem_nil hc.orphans
  exact Sat.after hput (Sat.after (run_endOp sb t z) (.ret ⟨rfl, hc.room⟩))

/-- Without room the kernel panics. -/
theorem mkName_panics {type : Int16} (htype : type ≠ 0)
    (hno : ¬ Room x.fs.disk (dinode sb x.fs.disk j)) (major minor : Int16) :
    (mkInode sb (some path) type major minor).run (alone sb t) x = .panic "dirlink" :=
  Sat.panics ((sat_mkName h hblocks hinode hspare hp hl htype
      (fun _ => rfl) major minor).mono fun _ _ hr =>
    hno hr.2)

theorem sat_openName {m : OMode} (hm : m.create = true) :
    Sat (alone sb t) (Stopped sb t x j (.open_ (some path) m)) (sysOpen sb (some path) m)
      (Ended sb t x j (.open_ (some path) m)) x := by
  refine Sat.after (run_beginOp sb t x) ?_
  rw [openInode, if_pos hm]
  refine Sat.bind (sat_createName h hblocks hinode hspare hp hl (h.solo.withDepth _)
    (by decide) (fun hno => ⟨rfl, fun hfits => hno hfits.1⟩) 0 0) fun r y hr => ?_
  obtain ⟨ip, i, fs, rfl, hc, hy⟩ := hr
  refine (sat_openFile hy hc.orphans h.files m).mono fun r z hz => ?_
  rcases hz with ⟨hex, rfl, hz⟩ | ⟨f, fd, hf, hfd, rfl, -⟩
  · refine .inr ⟨fun hfits => hfits.2 hex, ?_⟩
    rintro (hneg | ⟨-, hsame⟩)
    · exact absurd hneg (by decide)
    · have hnew := hc.type
      rw [← hz.disk, hsame.inodes i hc.lt, hc.free] at hnew
      exact absurd hnew (by decide)
  · refine .inl ⟨⟨hc.room, ?_⟩, .inl (Int.natCast_nonneg _)⟩
    rintro (hall | hall)
    · exact hall f hf
    · exact hall fd hfd

omit hinode hspare in
/-- The new name is entered in directory `j`. -/
theorem sat_linkName {z : Sys} {dp ip : Entry} (hi : i < sb.ninodes) (hj : j < sb.ninodes)
    (hz : Solo sb t x (relinked sb x.fs i 1) [(dp, j), (ip, i)] [] z)
    (hroom : ¬ Room x.fs.disk (dinode sb x.fs.disk j) → S (.panic "dirlink")) :
    Sat (alone sb t) S (linkInto ip dp name)
      (fun r _ => r = 0 ∧ Room x.fs.disk (dinode sb x.fs.disk j)) z := by
  have ht := resolveParent_dir hp
  have hkept := relinked_kept h hi hj ht
  have ht' : (dinode sb (relinked sb x.fs i 1).disk j).type = tDir := hkept.type.trans ht
  have hfree : 3 ≤ (free sb (relinked sb x.fs i 1).disk).card :=
    hblocks.trans (takes_putDinode hi x.fs.disk _)
  refine hz.ilock_bind (absurd · List.not_mem_nil) (fun h0 => ?_) fun y _ hy => ?_
  · rw [ht'] at h0
    exact absurd h0 (by decide)
  · refine Sat.after (hy.run_inum (List.mem_cons_of_mem _ List.mem_cons_self)) ?_
    refine Sat.bind (sat_dirlink_new hy List.mem_cons_self List.mem_cons_self
      (owned_putDinode h.owned hi (renumbers_nlink ..)) ht' hkept.ok ((hkept.lookup name).trans hl)
      (fun hno => hroom (mt hkept.room.mpr hno)) (fun k _ hlt => ?_) i) fun r w hr => ?_
    · have :=
        need_le (relinked sb x.fs i 1).disk (dinode sb (relinked sb x.fs i 1).disk j) (16 * k / 512)
      omega
    · obtain ⟨rfl, hfits, k, fs', -, hw, -, hsolo⟩ := hr
      have ho := orphans_entered (orphans_relinked h.toConsistent hi) hw
      obtain ⟨v, hput, hv⟩ := hsolo.iunlockput List.not_mem_nil ho
      obtain ⟨u, hput', -⟩ := hv.iput List.not_mem_nil ho
      rw [if_neg (by decide)]
      exact Sat.after hput
        (Sat.after hput' (Sat.after (run_endOp sb t u) (.ret ⟨rfl, hkept.room.mp hfits⟩)))

omit hinode in
/-- The link count of the file is raised, and the directory for the new name looked up. -/
theorem sat_linkFile {z : Sys} {ip : Entry} (hz : Solo sb t x x.fs [(ip, i)] [ip] z)
    (hroom : ¬ Room x.fs.disk (dinode sb x.fs.disk j) → S (.panic "dirlink")) :
    Sat (alone sb t) S (do
        ino (.addLink ip 1)
        ino (.iupdate ip)
        iunlock ip
        match ← nameiparent path with
        | none => linkBad ip
        | some (dp, name) => linkInto ip dp name)
      (fun r _ => r = 0 ∧ Room x.fs.disk (dinode sb x.fs.disk j)) z := by
  have hi := hz.range List.mem_cons_self
  obtain ⟨z₁, w, hadd, hupdate, hw⟩ := hz.addLink List.mem_cons_self List.mem_cons_self 1
  obtain ⟨v, hunlock, hv⟩ := hw.iunlock List.mem_cons_self List.not_mem_nil
  refine Sat.after hadd (Sat.after hupdate (Sat.after hunlock ?_))
  refine Sat.bind
    (sat_nameiparent (orphans_relinked h.toConsistent hi) (relinked_dirs h hi) (fun hle => ?_)
    h.root h.cwd hv path fun hst => absurd hst (relinked_not_stale h hi path)) fun r u hr => ?_
  · simp only [List.length_cons, List.length_nil] at hle
    omega
  · have hparent := (relinked_resolveParent h hi path).trans hp
    rw [show resolveParent sb _ (start x t path) (elems path) = _ from hparent] at hr
    obtain ⟨dp, rfl, hu⟩ := hr
    exact sat_linkName h hblocks hp hl hi
      (resolveParent_lt h.dirs _ (start_lt h.toConsistent path) hp) hu hroom

omit hinode in
theorem sat_link (old : Option Path) :
    Sat (alone sb t) (Stopped sb t x j (.link old (some path))) (sysLink old (some path))
      (Ended sb t x j (.link old (some path))) x := by
  -- without a file to link nothing is changed
  have hfail : ¬ LeadsToFile sb t x old → ∀ y, Solo sb t x x.fs [] [] y →
      Sat (alone sb t) (Stopped sb t x j (.link old (some path))) (do endOp; pure (-1 : Int))
        (Ended sb t x j (.link old (some path))) y := by
    refine fun hno y hy => Sat.after (run_endOp sb t y) (.ret (.inl ⟨.inr hno, .inr ⟨rfl, ?_⟩⟩))
    exact (SameFiles.refl ..).unchanged h.toConsistent (hy.withDepth _)
  cases old with
  | none =>
    refine .ret (.inl ⟨.inr ?_, .inr ⟨rfl, (SameFiles.refl ..).unchanged h.toConsistent h.solo⟩⟩)
    rintro ⟨p, i, hnone, -⟩
    cases hnone
  | some old =>
    have hstart := start_lt h.toConsistent old
    refine Sat.after (run_beginOp sb t x) ?_
    refine Sat.bind
      (sat_namei h.orphans h.dirs (fun hle => ?_) h.root h.cwd (h.solo.withDepth _) old
      fun hst => absurd hst (h.names.not_stale h.dirs _ hstart (h.starts old))) fun r y hr => ?_
    · simp only [List.length_nil] at hle
      omega
    · obtain ⟨hi, rfl, hy⟩ | ⟨i, ip, hi, rfl, hy⟩ := hr.cases
      · refine hfail ?_ y hy
        rintro ⟨p, i, heq, hsome, -⟩
        cases heq
        cases hi.symm.trans hsome
      · obtain ⟨hlt, hlive⟩ := h.names.resolve h.dirs _ hstart (h.starts old) hi
        refine hy.ilock_bind (absurd · List.not_mem_nil) (absurd · hlive) fun z _ hz => ?_
        refine Sat.after (hz.run_inode List.mem_cons_self List.mem_cons_self) ?_
        split
        next hdir =>
          obtain ⟨w, hput, hw⟩ := hz.iunlockput List.not_mem_nil h.orphans
          refine Sat.after hput (hfail ?_ w hw)
          rintro ⟨p, k, heq, hsome, hne⟩
          cases heq
          cases hi.symm.trans hsome
          exact hne hdir
        next hfile =>
          have hleads : LeadsToFile sb t x (some old) := ⟨old, i, rfl, hi, hfile⟩
          refine (sat_linkFile h hblocks hspare hp hl hz fun hno => ⟨rfl, ?_⟩).mono fun r u hr => ?_
          · obtain ⟨rfl, hroom⟩ := hr
            exact .inl ⟨.inl hroom, .inl (Int.le_refl 0)⟩
          · rintro (hroom | hnot)
            · exact hno hroom
            · exact hnot hleads

end Calls

/-- The call succeeds, or returns -1 and has changed nothing; in particular it does not panic. -/
def Proper (sb : Superblock) (t : Proc) (x : Sys) (c : Call) : Prop :=
  ∃ r y, (prog sb c).run (alone sb t) x = .done r y ∧ Good sb t x r y

theorem proper_iff (h : Sat (alone sb t) (Stopped sb t x j c) (prog sb c) (Ended sb t x j c) x) :
    Proper sb t x c ↔ Fits sb t x j c := by
  constructor
  · rintro ⟨r, y, hrun, hgood⟩
    rcases h.done hrun with ⟨hfits, -⟩ | ⟨-, hbad⟩
    · exact hfits
    · exact absurd hgood hbad
  · intro hfits
    have hreturns : Sat (alone sb t) (fun _ => False) (prog sb c) (Ended sb t x j c) x :=
      h.stops fun s hs => hs.2 hfits
    obtain ⟨r, y, hrun, ⟨-, hgood⟩ | ⟨hno, -⟩⟩ := hreturns.returns
    · exact ⟨r, y, hrun, hgood⟩
    · exact absurd hfits hno

/-- A call that makes a new name is proper if and only if its directory has room, apart from
a `link` that has no file to link, and for `open` also a descriptor is free. -/
theorem new_name_iff (h : Sound sb t x) (hblocks : 3 ≤ (free sb x.fs.disk).card)
    (hinode : ∃ i, 1 ≤ i ∧ i < sb.ninodes ∧ (dinode sb x.fs.disk i).type = 0) (hspare : 3 ≤ spare x)
    (hc : newName c = some path)
    (hp : resolveParent sb x.fs.disk (start x t path) (elems path) = some (j, name))
    (hl : lookup x.fs.disk (dinode sb x.fs.disk j) name = none) :
    Proper sb t x c ↔ Fits sb t x j c := by
  refine proper_iff ?_
  have hmake : ∀ r y, r = 0 ∧ Room x.fs.disk (dinode sb x.fs.disk j) →
      Room x.fs.disk (dinode sb x.fs.disk j) ∧ Good sb t x r y := by
    rintro r y ⟨rfl, hroom⟩
    exact ⟨hroom, .inl (Int.le_refl 0)⟩
  cases c with
  | link old new =>
    obtain rfl : new = some path := hc
    exact sat_link h hblocks hspare hp hl old
  | mkdir p =>
    obtain rfl : p = some path := hc
    exact (sat_mkName h hblocks hinode hspare hp hl (by decide) (fun hno => ⟨rfl, hno⟩) 0 0).mono
      fun r y hr => .inl (hmake r y hr)
  | mknod p major minor =>
    obtain rfl : p = some path := hc
    exact (sat_mkName h hblocks hinode hspare hp hl (by decide)
      (fun hno => ⟨rfl, hno⟩) major minor).mono fun r y hr => .inl (hmake r y hr)
  | open_ p m =>
    rw [newName] at hc
    split at hc
    next hm =>
      subst hc
      exact sat_openName h hblocks hinode hspare hp hl hm
    next => cases hc
  | _ => cases hc

/-- A new directory in the root, which takes the last three blocks. -/
theorem new_name_iff_tree : (free treeSb treeFs.disk).card = 3 ∧
    Proper treeSb 0 (Sys.boot treeFs) (.mkdir (some [110])) := by
  have hnames : ∀ i : Fin 7, (dinode treeSb treeFs.disk i).type = tDir →
      ∀ de ∈ entries treeFs.disk (dinode treeSb treeFs.disk i), de.inum ≠ 0 →
        (dinode treeSb treeFs.disk de.inum.toNat).type ≠ 0 := by decide +kernel
  have hroot : (dinode treeSb treeFs.disk 1).type ≠ 0 := by decide +kernel
  have hsound : Sound treeSb 0 (Sys.boot treeFs) := by
    refine ⟨consistent_tree, fun i hi => hnames ⟨i, hi⟩, fun path => ?_, fun _ _ => rfl⟩
    rw [start]
    split <;> exact hroot
  have hfree : (free treeSb treeFs.disk).card = 3 := by decide +kernel
  have hroom : Fits treeSb 0 (Sys.boot treeFs) 1 (.mkdir (some [110])) :=
    .inr (show (dinode treeSb treeFs.disk 1).size.toNat + 16 ≤ 140 * 512 by decide +kernel)
  have hparent : resolveParent treeSb (Sys.boot treeFs).fs.disk
      (start (Sys.boot treeFs) 0 [110]) (elems [110]) = some (1, [110]) := by decide +kernel
  have hnone : lookup (Sys.boot treeFs).fs.disk
      (dinode treeSb (Sys.boot treeFs).fs.disk 1) [110] = none := by
    decide +kernel
  exact ⟨hfree,
    (new_name_iff hsound (Nat.le_of_eq hfree.symm) ⟨5, by decide +kernel⟩ (by decide +kernel) rfl
    hparent hnone).mpr hroom⟩

/-! ## A full directory -/

def fullSb : Superblock :=
  { (default : Superblock) with size := 160, bitmap_fits := by decide, int_blocks := by decide }

/-- The entries after `.` and `..` are links to one file, with names of two bytes. -/
def fullEntry (m : Nat) : Dirent :=
  if m = 0 then ⟨1, dot⟩ else if m = 1 then ⟨1, dotdot⟩
  else ⟨2, [UInt8.ofNat (65 + m / 128), UInt8.ofNat (128 + m % 128)]⟩

/-- The root directory has the blocks from 4 on, with the block of its indirect pointers
between them; it is as large as a directory can be. -/
def fullFs : Fs where
  disk b :=
    if b = 2 then inodeBlock
      [⟨tDir, 0, 0, 1, 71680, fun k => UInt32.ofNat (4 + k)⟩, ⟨tFile, 0, 0, 4478, 0, fun _ => 0⟩]
    else if b = 3 then fun j => if j < 18 then 255 else if j = 18 then 1 else 0
    else if b = 16 then fun j => if j % 4 = 0 then UInt8.ofNat (17 + j / 4) else 0
    else if 4 ≤ b ∧ b < 145 then
      fun j => (fullEntry (32 * (if b < 16 then b - 4 else b - 5) + j / 16)).bytes (j % 16)
    else fun _ => 0
  writes := 0
  allocs := []

theorem full_ptr : ∀ k : Fin 141, ptr fullFs.disk (dinode fullSb fullFs.disk 1) k = 4 + k := by
  decide +kernel

theorem full_nums :
    (dinode fullSb fullFs.disk 1).type = tDir ∧ (dinode fullSb fullFs.disk 1).size.toNat = 71680 ∧
    (dinode fullSb fullFs.disk 2).type = tFile ∧
    ∀ i : Fin 7, (dinode fullSb fullFs.disk i).type = tDir → i = 1 := by decide +kernel

theorem owned_full : Owned fullSb fullFs.disk (dinode fullSb fullFs.disk) :=
  owned_of_owner (fun b => (1, b - 4)) (by decide +kernel) (by decide +kernel)

theorem full_content {m k : Nat} (hm : m < 4480) (hk : k < 16) :
    content fullFs.disk (dinode fullSb fullFs.disk 1) (16 * m + k) = (fullEntry m).bytes k := by
  have hdiv : (16 * m + k) / 512 = m / 32 := by omega
  have hmod : (16 * m + k) % 512 = 16 * (m % 32) + k := by omega
  have hslot : slot (m / 32) < 141 ∧ slot (m / 32) ≠ 12 ∧
      (if 4 + slot (m / 32) <
      16 then 4 + slot (m / 32) - 4 else 4 + slot (m / 32) - 5) = m / 32 := by
    unfold slot
    split <;> split <;> omega
  obtain ⟨hlt, hne, hblock⟩ := hslot
  rw [content, hdiv, hmod, show ptr _ _ _ = _ from full_ptr ⟨slot (m / 32), hlt⟩]
  dsimp only [fullFs]
  rw [if_neg (by omega), if_neg (by omega), if_neg (by omega), if_pos (by omega), hblock]
  congr 2 <;> omega

theorem fullEntry_spec {m : Nat} (hm : m < 4480) :
    ((fullEntry m).inum = 1 ∨ (fullEntry m).inum = 2) ∧
    (fullEntry m).name.length ≤ 14 ∧ 0 ∉ (fullEntry m).name ∧
      (fullEntry m).name ≠ [110] := by
  unfold fullEntry
  split
  next => decide
  next =>
    split
    next => decide
    next =>
      have hne : ∀ k, 0 < k → k < 256 → (0 : UInt8) ≠ UInt8.ofNat k := by
        intro k hpos hlt h0
        have := congrArg UInt8.toNat h0
        rw [UInt8.toNat_ofNat_of_lt' (by exact hlt)] at this
        exact absurd this (Nat.ne_of_lt hpos)
      refine ⟨.inr rfl, by simp, ?_, by simp⟩
      simp only [List.mem_cons, List.not_mem_nil, or_false, not_or]
      exact ⟨hne _ (by omega) (by omega), hne _ (by omega) (by omega)⟩

theorem full_entries {de : Dirent} (h : de ∈ entries fullFs.disk (dinode fullSb fullFs.disk 1)) :
    (de.inum = 1 ∨ de.inum = 2) ∧ de.name ≠ [110] := by
  obtain ⟨m, hm, rfl⟩ := mem_entries.mp h
  rw [full_nums.2.1] at hm
  obtain ⟨hinum, hlen, hzero, hname⟩ := fullEntry_spec hm
  have hbytes : (List.range 16).map
      (fun k => content fullFs.disk (dinode fullSb fullFs.disk 1) (16 * m + k)) =
      (List.range 16).map (fullEntry m).bytes :=
    List.map_congr_left fun k hk => full_content hm (List.mem_range.mp hk)
  rw [direntAt, hbytes, Dirent.ofBytes_bytes hlen hzero]
  exact ⟨hinum, hname⟩

theorem sound_full : Sound fullSb 0 (Sys.boot fullFs) := by
  have hdirs : Dirs fullSb fullFs.disk := by
    intro i hi ht
    obtain rfl : i = 1 := congrArg Fin.val (full_nums.2.2.2 ⟨i, hi⟩ ht)
    refine ⟨fun bn hbn => ?_, by rw [full_nums.2.1], fun de hde _ => ?_⟩
    · have hlt : slot bn < 141 := by
        rw [full_nums.2.1] at hbn
        unfold slot
        split <;> omega
      rw [show ptr _ _ _ = _ from full_ptr ⟨slot bn, hlt⟩]
      exact Nat.ne_of_gt (Nat.add_pos_left (by decide) _)
    · rcases (full_entries hde).1 with h | h <;> rw [h] <;> decide
  have hlinks : ∀ i : Fin 7, (dinode fullSb fullFs.disk i).type ≠ 0 →
      0 < (dinode fullSb fullFs.disk i).nlink := by
    decide +kernel
  have hstart : ∀ path, start (Sys.boot fullFs) 0 path = 1 := by
    intro path
    rw [start]
    split <;> rfl
  refine ⟨consistent_boot (by decide) owned_full hdirs fun i hi => hlinks ⟨i, hi⟩,
    fun i hi ht de hde _ => ?_, fun path => ?_, fun _ _ => rfl⟩
  · obtain rfl : i = 1 := congrArg Fin.val (full_nums.2.2.2 ⟨i, hi⟩ ht)
    rcases (full_entries hde).1 with h | h <;> rw [h]
    · exact ne_of_eq_of_ne full_nums.1 (by decide)
    · exact ne_of_eq_of_ne full_nums.2.2.1 (by decide)
  · rw [hstart]
    exact ne_of_eq_of_ne full_nums.1 (by decide)

theorem full_not_room : ¬ Room fullFs.disk (dinode fullSb fullFs.disk 1) := by
  rintro (⟨de, hde, h0⟩ | hgrow)
  · rcases (full_entries hde).1 with h | h <;> rw [h] at h0 <;> exact absurd h0 (by decide)
  · rw [full_nums.2.1] at hgrow
    omega

theorem full_resources : 3 ≤ (free fullSb fullFs.disk).card ∧
    (∃ i, 1 ≤ i ∧ i < fullSb.ninodes ∧ (dinode fullSb fullFs.disk i).type = 0) ∧
    3 ≤ spare (Sys.boot fullFs) :=
  ⟨by decide +kernel, ⟨3, by decide +kernel⟩, by decide +kernel⟩

/-- A directory or a device with a new name in the full directory: the kernel panics. -/
theorem full_directory_panics :
    Sound fullSb 0 (Sys.boot fullFs) ∧ 3 ≤ (free fullSb fullFs.disk).card ∧
    lookup fullFs.disk (dinode fullSb fullFs.disk 1) [110] = none ∧
    (prog fullSb (.mkdir (some [110]))).run (alone fullSb 0) (Sys.boot fullFs) = .panic "dirlink" ∧
    (prog fullSb (.mknod (some [110]) 1 1)).run (alone fullSb 0)
    (Sys.boot fullFs) = .panic "dirlink" := by
  obtain ⟨hblocks, hinode, hspare⟩ := full_resources
  have hnone : lookup fullFs.disk (dinode fullSb fullFs.disk 1) [110] = none := by
    refine Option.map_eq_none_iff.mpr (List.find?_eq_none.mpr fun de hde hname => ?_)
    rw [hasName, Bool.and_eq_true] at hname
    exact (full_entries hde).2 (beq_iff_eq.mp hname.2)
  have hparent : resolveParent fullSb fullFs.disk (start (Sys.boot fullFs) 0 [110]) (elems [110]) =
      some (1, [110]) := by
    change (if (dinode fullSb fullFs.disk 1).type = tDir then some (1, [110]) else none) =
      some (1, ([110] : Name))
    rw [if_pos full_nums.1]
  have hpanic := @mkName_panics fullSb 0 (Sys.boot fullFs) 1 [110]
    [110] sound_full hblocks hinode hspare hparent hnone
  exact ⟨sound_full, hblocks, hnone, hpanic (by decide) full_not_room 0 0,
    hpanic (by decide) full_not_room 1 1⟩

end Xv6.FullDirectory
