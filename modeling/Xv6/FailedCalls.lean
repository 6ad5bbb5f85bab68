import Xv6.SoloPaths

/-!
# Calls that fail

The calls `link`, `unlink`, `mkdir`, `mknod` and `chdir` of a process that runs alone. When
one of them returns -1, the disk is as before but for blocks that no file has, and so is the
current directory.
-/
namespace Xv6.FailedCalls

open FsImage BlockMap Directory FsSystem FsCalls Interleave InodeRuns PathResolution
  RunRules SoloRuns SoloPaths

variable {sb : Superblock} {t : Proc} {x₀ x y : Sys} {fs : Fs}
  {e dp ip : Entry} {i j : Nat} {name : Name}
  {S : Stop → Prop}

/-- The inodes and the data of a disk are those of another one. -/
structure SameFiles (sb : Superblock) (d d' : Disk) : Prop where
  inodes : ∀ i, i < sb.ninodes → dinode sb d' i = dinode sb d i
  data : SameData sb d d'

theorem SameFiles.refl (sb : Superblock) (d : Disk) : SameFiles sb d d :=
  ⟨fun _ _ => rfl, fun _ _ => rfl⟩

/-- What is left by a call that fails. -/
def Failed (sb : Superblock) (t : Proc) (x₀ : Sys) (r : Int) (y : Sys) : Prop :=
  r = -1 → ∃ fs, SameFiles sb x₀.fs.disk fs.disk ∧ Solo sb t x₀ fs [] [] y

theorem Failed.of_solo (h : Solo sb t x₀ x₀.fs [] [] y) (r : Int) : Failed sb t x₀ r y :=
  fun _ => ⟨x₀.fs, .refl .., h⟩

theorem Failed.of_ne {r : Int} (h : r ≠ -1) : Failed sb t x₀ r y := fun heq => absurd heq h

/-- The last steps of a call that fails. -/
theorem sat_fail (h : Solo sb t x₀ fs [] [] x) (hsame : SameFiles sb x₀.fs.disk fs.disk) :
    Sat (alone sb t) S (do endOp; pure (-1 : Int)) (Failed sb t x₀) x :=
  Sat.after (run_endOp sb t x) (.ret fun _ => ⟨fs, hsame, h.withDepth _⟩)

/-- The last steps of a call that succeeds. -/
theorem sat_zero (p : P Unit) (x : Sys) :
    Sat (alone sb t) (fun _ => True) (do p; endOp; pure (0 : Int)) (Failed sb t x₀) x :=
  .skip _ (fun _ => .skip _ fun _ _ => .ret (.of_ne (by decide))) _

variable (h : Consistent sb t x₀)

include h

/-! ## unlink -/

theorem sat_unlinkBad (hx : Solo sb t x₀ x₀.fs [(dp, j)] [dp] x) :
    Sat (alone sb t) S (unlinkBad dp) (Failed sb t x₀) x := by
  obtain ⟨y, hput, hy⟩ := hx.iunlockput List.not_mem_nil h.orphans
  exact Sat.after hput (sat_fail hy (.refl ..))

omit h in
theorem sat_unlinkEntry (type : Int16) (off : Nat) :
    Sat (alone sb t) (fun _ => True) (FsCalls.unlinkEntry dp ip type off) (Failed sb t x₀) x := by
  have hrest : ∀ y : Sys, Sat (alone sb t) (fun _ => True) (do
      iunlockput dp
      ino (.addLink ip (-1))
      ino (.iupdate ip)
      iunlockput ip
      endOp
      pure (0 : Int)) (Failed sb t x₀) y := fun y =>
    .skip _ (fun _ _ => .skip _ (fun _ _ => .skip _ (fun _ => sat_zero _) _) _) y
  refine .skip _ (fun r y => ?_) x
  split
  next => exact .of_panic rfl trivial
  next =>
    dsimp only
    split
    next => exact .skip _ (fun _ => .skip _ fun _ => hrest) y
    next => exact hrest y

/-- The inode that the name leads to is locked too. -/
theorem sat_unlinkFound (hx : Solo sb t x₀ x₀.fs [(ip, i), (dp, j)] [ip, dp] x) (hne : ip ≠ dp)
    (off : Nat) :
    Sat (alone sb t) (fun _ => True) (unlinkFound dp ip off) (Failed sb t x₀) x := by
  have hbad : ∀ y, Solo sb t x₀ x₀.fs [(ip, i), (dp, j)] [ip, dp] y →
      Sat (alone sb t) (fun _ => True) (do iunlockput ip; unlinkBad dp) (Failed sb t x₀) y := by
    intro y hy
    obtain ⟨z, hput, hz⟩ := hy.iunlockput (by simpa using hne) h.orphans
    exact Sat.after hput (sat_unlinkBad h hz)
  refine Sat.after (hx.run_inode List.mem_cons_self List.mem_cons_self) ?_
  split
  next => exact .of_panic rfl trivial
  next =>
    split
    next ht =>
      obtain ⟨b, hb⟩ := (h.dirs i (hx.range List.mem_cons_self) ht).isdirempty
      refine Sat.after (hx.run_isdirempty List.mem_cons_self List.mem_cons_self hb) ?_
      cases b with
      | true => exact sat_unlinkEntry _ off
      | false => exact hbad x hx
    next => exact sat_unlinkEntry _ off

theorem sat_sysUnlink (path : Option Path) :
    Sat (alone sb t) (fun _ => True) (sysUnlink path) (Failed sb t x₀) x₀ := by
  cases path with
  | none => exact .ret (.of_solo h.solo _)
  | some path =>
    refine Sat.after (run_beginOp sb t x₀) ?_
    refine Sat.bind
      (sat_nameiparent h.orphans h.dirs (fun _ => trivial) h.root h.cwd (h.solo.withDepth _) path
      fun _ => trivial) fun r y hr => ?_
    obtain ⟨-, rfl, hy⟩ | ⟨j, name, dp, hparent, rfl, hy⟩ := hr.cases
    · exact sat_fail hy (.refl ..)
    · have ht := resolveParent_dir hparent
      refine hy.ilock_bind (fun _ => trivial) (fun _ => trivial) fun z _ hz => ?_
      split
      next => exact sat_unlinkBad h hz
      next =>
        refine Sat.bind
          (sat_dirlookup hz List.mem_cons_self List.mem_cons_self (fun _ he => by simpa using he) ht
          (h.dirs j (hz.range List.mem_cons_self) ht) (fun _ => trivial) .unlink name)
          fun a w ha => ?_
        split at ha
        next i _ =>
          obtain ⟨ip, off, rfl, hw⟩ := ha
          refine hw.ilock_bind (fun _ => trivial) (fun _ => trivial) fun v hne hv => ?_
          exact sat_unlinkFound h hv (by simpa using hne) off
        next =>
          obtain ⟨rfl, hw⟩ := ha
          exact sat_unlinkBad h hw

/-! ## mkdir and mknod -/

/-- The cases of `create`: there is no directory for the name, the name is there already, or
a new inode is made. -/
theorem sat_create {Q : Option Entry → Sys → Prop} {type major minor : Int16} {path : Path}
    (hx : Solo sb t x₀ x₀.fs [] [] x) (hfull : spare x₀ ≤ 1 → S (.panic "iget: no inodes"))
    (hdead : (∀ j name,
      resolveParent sb x₀.fs.disk (start x₀ t path) (elems path) = some (j, name) →
      lookup x₀.fs.disk (dinode sb x₀.fs.disk j) name ≠ none) → S (.panic "ilock: no type"))
    (hnone : resolveParent sb x₀.fs.disk (start x₀ t path) (elems path) = none →
      ∀ y, Solo sb t x₀ x₀.fs [] [] y → Q none y)
    (hopen : ∀ j name i,
      resolveParent sb x₀.fs.disk (start x₀ t path) (elems path) = some (j, name) →
      lookup x₀.fs.disk (dinode sb x₀.fs.disk j) name = some i → type = tFile →
      (dinode sb x₀.fs.disk i).type = tFile →
      ∀ ip y, Solo sb t x₀ x₀.fs [(ip, i)] [ip] y → Q (some ip) y)
    (hexists : ∀ j name i,
      resolveParent sb x₀.fs.disk (start x₀ t path) (elems path) = some (j, name) →
      lookup x₀.fs.disk (dinode sb x₀.fs.disk j) name = some i →
      ¬ (type = tFile ∧ (dinode sb x₀.fs.disk i).type = tFile) →
      ∀ y, Solo sb t x₀ x₀.fs [] [] y → Q none y)
    (hnew : ∀ j name dp y,
      resolveParent sb x₀.fs.disk (start x₀ t path) (elems path) = some (j, name) →
      lookup x₀.fs.disk (dinode sb x₀.fs.disk j) name = none → Solo sb t x₀ x₀.fs [(dp, j)] [dp] y →
      Sat (alone sb t) S (createNew sb dp name type major minor) (fun ip => Q (some ip)) y) :
    Sat (alone sb t) S (create sb path type major minor) Q x := by
  have hfull' : spare x₀ ≤ ([] : List (Entry × Nat)).length + 1 → S (.panic "iget: no inodes") :=
    hfull
  have hstale (hst : Stale sb x₀.fs.disk (start x₀ t path) (elems path)) :
      S (.panic "ilock: no type") := by
    refine hdead fun j name hp => ?_
    rw [hst.resolveParent] at hp
    cases hp
  refine Sat.bind (sat_nameiparent h.orphans h.dirs hfull' h.root h.cwd hx path hstale)
    fun r y hr => ?_
  obtain ⟨hparent, rfl, hy⟩ | ⟨j, name, dp, hparent, rfl, hy⟩ := hr.cases
  · exact .ret (hnone hparent y hy)
  · have ht := resolveParent_dir hparent
    refine hy.ilock_bind (absurd · List.not_mem_nil)
      (fun h0 => absurd ht (ne_tDir_of_free h0)) fun z _ hz => ?_
    refine Sat.bind
      (sat_dirlookup hz List.mem_cons_self List.mem_cons_self (fun _ he => by simpa using he) ht
      (h.dirs j (hz.range List.mem_cons_self) ht) hfull .create name) fun a w ha => ?_
    split at ha
    next i hi =>
      obtain ⟨ip, off, rfl, hw⟩ := ha
      obtain ⟨v, hput, hv⟩ := (hw.perm (List.Perm.swap _ _ _)).iunlockput List.not_mem_nil h.orphans
      have hfound : ∀ j' name', resolveParent sb x₀.fs.disk (start x₀ t path)
          (elems path) = some (j', name') →
          lookup x₀.fs.disk (dinode sb x₀.fs.disk j') name' ≠ none := by
        intro j' name' hp
        cases hparent.symm.trans hp
        rw [hi]
        nofun
      refine Sat.after hput
        (hv.ilock_bind (absurd · List.not_mem_nil) (fun _ => hdead hfound) fun u _ hu => ?_)
      refine Sat.after (hu.run_inode List.mem_cons_self List.mem_cons_self) ?_
      split
      next hboth => exact .ret (hopen j name i hparent hi hboth.1 hboth.2 ip u hu)
      next hnot =>
        obtain ⟨u', hput, hu'⟩ := hu.iunlockput List.not_mem_nil h.orphans
        exact Sat.after hput (.ret (hexists j name i hparent hi hnot u' hu'))
    next hi =>
      obtain ⟨rfl, hw⟩ := ha
      exact Sat.bind (hnew j name dp w hparent hi hw) fun ip v hv => .ret hv

theorem sat_mkInode (path : Option Path) {type : Int16} (major minor : Int16)
    (htype : type ≠ tFile) :
    Sat (alone sb t) (fun _ => True) (mkInode sb path type major minor) (Failed sb t x₀) x₀ := by
  refine Sat.after (run_beginOp sb t x₀) ?_
  cases path with
  | none => exact sat_fail (h.solo.withDepth _) (.refl ..)
  | some path =>
    refine Sat.bind (Q := fun r y => r = none → Solo sb t x₀ x₀.fs [] [] y) ?_ fun r y hr => ?_
    · exact sat_create h (h.solo.withDepth _) (fun _ => trivial)
        (fun _ => trivial) (fun _ _ hy _ => hy)
        (fun _ _ _ _ _ hfile => absurd hfile htype) (fun _ _ _ _ _ _ _ hy _ => hy)
        fun _ _ _ _ _ _ _ => (Sat.any _ _).mono fun _ _ _ => nofun
    · cases r with
      | none => exact sat_fail (hr rfl) (.refl ..)
      | some ip => exact sat_zero _ y

/-! ## chdir -/

theorem sat_sysChdir (path : Option Path) :
    Sat (alone sb t) (fun _ => True) (sysChdir path) (Failed sb t x₀) x₀ := by
  refine Sat.after (run_beginOp sb t x₀) ?_
  cases path with
  | none => exact sat_fail (h.solo.withDepth _) (.refl ..)
  | some path =>
    refine Sat.bind
      (sat_namei h.orphans h.dirs (fun _ => trivial) h.root h.cwd (h.solo.withDepth _) path
      fun _ => trivial) fun r y hr => ?_
    obtain ⟨-, rfl, hy⟩ | ⟨i, ip, -, rfl, hy⟩ := hr.cases
    · exact sat_fail hy (.refl ..)
    · refine hy.ilock_bind (fun _ => trivial) (fun _ => trivial) fun z _ hz => ?_
      refine Sat.after (hz.run_inode List.mem_cons_self List.mem_cons_self) ?_
      split
      next =>
        obtain ⟨w, hput, hw⟩ := hz.iunlockput List.not_mem_nil h.orphans
        exact Sat.after hput (sat_fail hw (.refl ..))
      next =>
        exact .skip _ (fun _ => .skip _ fun _ => .skip _ fun _ => .skip _
          fun _ _ => .ret (.of_ne (by decide))) z

/-! ## link -/

/-- The disk after the link count of inode `i` has been changed. -/
def relinked (sb : Superblock) (fs : Fs) (i : Nat) (d : Int16) : Fs :=
  putInode sb fs i { dinode sb fs.disk i with nlink := (dinode sb fs.disk i).nlink + d }

omit h in
theorem renumbers_nlink (ip : Dinode) (n : Int16) :
    Renumbers ip { ip with nlink := n } := ⟨rfl, rfl, rfl⟩

omit h in
theorem sameFiles_relinked (hi : i < sb.ninodes) :
    SameFiles sb fs.disk (relinked sb (relinked sb fs i 1) i (-1)).disk := by
  have hfirst : dinode sb (relinked sb fs i 1).disk i = { dinode sb fs.disk i with
      nlink := (dinode sb fs.disk i).nlink + 1 } := (dinode_putDinode ..).trans (if_pos rfl)
  have hback : (dinode sb fs.disk i).nlink + 1 + -1 = (dinode sb fs.disk i).nlink := by grind
  refine ⟨fun j _ => (dinode_putDinode ..).trans ?_,
    (sameData_putDinode hi _ _).trans (sameData_putDinode hi _ _)⟩
  split
  next hj =>
    subst hj
    rw [hfirst]
    dsimp only
    rw [hback]
  next hj => exact (dinode_putDinode ..).trans (if_neg hj)

omit h in
theorem SameFiles.orphans {d d' : Disk} (hs : SameFiles sb d d') (ho : Orphans sb x d) :
    Orphans sb x d' := by
  intro i hi ht hlink
  rw [hs.inodes i hi] at ht hlink
  exact ho i hi ht hlink

theorem sat_linkBad (hx : Solo sb t x₀ (relinked sb x₀.fs i 1) [(ip, i)] [] x) :
    Sat (alone sb t) (fun _ => True) (linkBad ip) (Failed sb t x₀) x := by
  refine hx.ilock_bind (fun _ => trivial) (fun _ => trivial) fun y _ hy => ?_
  obtain ⟨y₁, z, hadd, hupdate, hz⟩ := hy.addLink List.mem_cons_self List.mem_cons_self (-1)
  have hsame : SameFiles sb x₀.fs.disk (relinked sb (relinked sb x₀.fs i 1) i (-1)).disk :=
    sameFiles_relinked (hx.range List.mem_cons_self)
  obtain ⟨w, hput, hw⟩ := hz.iunlockput List.not_mem_nil (hsame.orphans h.orphans)
  exact Sat.after hadd (Sat.after hupdate (Sat.after hput (sat_fail hw hsame)))

/-- The conditions for walks hold while the link count is one too high. -/
theorem orphans_relinked (hi : i < sb.ninodes) : Orphans sb x₀ (relinked sb x₀.fs i 1).disk := by
  refine orphans_putDinode h.orphans fun ht hlink => ?_
  have hlinks := h.links i hi ht
  dsimp only at hlink
  have hneg : (dinode sb x₀.fs.disk i).nlink = -1 := by grind
  rw [hneg] at hlinks
  exact absurd hlinks (by decide)

theorem sat_linkInto (hx : Solo sb t x₀ (relinked sb x₀.fs i 1) [(dp, j), (ip, i)] [] x)
    (ht : (dinode sb (relinked sb x₀.fs i 1).disk j).type = tDir) (name : Name) :
    Sat (alone sb t) (fun _ => True) (linkInto ip dp name) (Failed sb t x₀) x := by
  have hi := hx.range (List.mem_cons_of_mem _ List.mem_cons_self)
  have hdirs : Dirs sb (relinked sb x₀.fs i 1).disk :=
    dirs_putDinode h.dirs h.owned hi (renumbers_nlink ..)
  have hd := hdirs j (hx.range List.mem_cons_self) ht
  have ho := orphans_relinked h hi
  refine hx.ilock_bind (fun _ => trivial) (fun _ => trivial) fun y _ hy => ?_
  refine Sat.after (hy.run_inum (List.mem_cons_of_mem _ List.mem_cons_self)) ?_
  cases hfound : lookup (relinked sb x₀.fs i 1).disk
    (dinode sb (relinked sb x₀.fs i 1).disk j) name with
  | some k =>
    refine Sat.bind (sat_dirlink_found hy List.mem_cons_self List.mem_cons_self (fun _ he => by
      rw [List.mem_singleton.mp he]
      exact List.mem_cons_self) ho ht hd hfound (fun _ => trivial) trivial i) fun r z ⟨hr, hz⟩ => ?_
    rw [hr, if_pos (by decide)]
    obtain ⟨w, hput, hw⟩ := hz.iunlockput List.not_mem_nil ho
    exact Sat.after hput (sat_linkBad h hw)
  | none =>
    refine Sat.bind (Q := fun r _ => r = 0) ?_ fun r z hr => ?_
    · refine Sat.bind (sat_dirlookup hy List.mem_cons_self List.mem_cons_self (fun _ he => by
        rw [List.mem_singleton.mp he]
        exact List.mem_cons_self) ht hd (fun _ => trivial) .dirlink name) fun a z ha => ?_
      rw [hfound] at ha
      obtain ⟨rfl, -⟩ := ha
      refine .skip _ (fun off => .skip _ fun r w => ?_) z
      split
      next => exact .of_panic rfl trivial
      next => exact .ret rfl
    · rw [hr, if_neg (by decide)]
      exact .skip _ (fun _ => sat_zero _) z

theorem sat_sysLink (old new : Option Path) :
    Sat (alone sb t) (fun _ => True) (sysLink old new) (Failed sb t x₀) x₀ := by
  unfold sysLink
  split
  next old new =>
    refine Sat.after (run_beginOp sb t x₀) ?_
    refine Sat.bind
      (sat_namei h.orphans h.dirs (fun _ => trivial) h.root h.cwd (h.solo.withDepth _) old
      fun _ => trivial) fun r y hr => ?_
    obtain ⟨-, rfl, hy⟩ | ⟨i, ip, -, rfl, hy⟩ := hr.cases
    · exact sat_fail hy (.refl ..)
    · refine hy.ilock_bind (fun _ => trivial) (fun _ => trivial) fun z _ hz => ?_
      refine Sat.after (hz.run_inode List.mem_cons_self List.mem_cons_self) ?_
      split
      next =>
        obtain ⟨w, hput, hw⟩ := hz.iunlockput List.not_mem_nil h.orphans
        exact Sat.after hput (sat_fail hw (.refl ..))
      next =>
        obtain ⟨z₁, w, hadd, hupdate, hw⟩ := hz.addLink List.mem_cons_self List.mem_cons_self 1
        obtain ⟨v, hunlock, hv⟩ := hw.iunlock List.mem_cons_self List.not_mem_nil
        refine Sat.after hadd (Sat.after hupdate (Sat.after hunlock ?_))
        have hlt := hz.range List.mem_cons_self
        refine Sat.bind (sat_nameiparent (orphans_relinked h hlt)
          (dirs_putDinode h.dirs h.owned hlt (renumbers_nlink ..))
          (fun _ => trivial) h.root h.cwd hv new
          fun _ => trivial) fun r u hr => ?_
        obtain ⟨-, rfl, hu⟩ | ⟨j, name, dp, hparent, rfl, hu⟩ := hr.cases
        · exact sat_linkBad h hu
        · exact sat_linkInto h hu (resolveParent_dir hparent) name
  next => exact .ret (.of_solo h.solo _)

/-! ## All of them -/

/-- The inodes with their types and link counts, the contents of files, the entries of
directories and the current directory are the same. -/
structure Unchanged (sb : Superblock) (t : Proc) (x y : Sys) : Prop where
  inodes : ∀ i, i < sb.ninodes → dinode sb y.fs.disk i = dinode sb x.fs.disk i
  contents : ∀ i, i < sb.ninodes → (dinode sb x.fs.disk i).type ≠ 0 → ∀ k,
    content y.fs.disk (dinode sb y.fs.disk i) k = content x.fs.disk (dinode sb x.fs.disk i) k
  entries : ∀ i, i < sb.ninodes → (dinode sb x.fs.disk i).type = tDir →
    entries y.fs.disk (dinode sb y.fs.disk i) = entries x.fs.disk (dinode sb x.fs.disk i)
  cwd : (y.procs t).cwd = (x.procs t).cwd
  cwdInode : ∀ e, (x.procs t).cwd = some e → (y.icache e).inum = (x.icache e).inum

theorem SameFiles.unchanged (hs : SameFiles sb x₀.fs.disk fs.disk) (hy : Solo sb t x₀ fs [] [] y) :
    Unchanged sb t x₀ y := by
  have hinodes : ∀ i, i < sb.ninodes → dinode sb y.fs.disk i = dinode sb x₀.fs.disk i := by
    rw [hy.disk]
    exact hs.inodes
  have hcontents : ∀ i, i < sb.ninodes → (dinode sb x₀.fs.disk i).type ≠ 0 → ∀ k,
      content y.fs.disk (dinode sb x₀.fs.disk i) k =
        content x₀.fs.disk (dinode sb x₀.fs.disk i) k := by
    rw [hy.disk]
    exact fun i hi ht => hs.data.content h.owned hi ht
  refine ⟨hinodes, fun i hi ht k => ?_, fun i hi ht => ?_, by rw [hy.procs], fun e he => ?_⟩
  · rw [hinodes i hi, hcontents i hi ht k]
  · rw [hinodes i hi]
    exact entries_congr (hcontents i hi (by rw [ht]; decide))
  · obtain ⟨e', he', hpos⟩ := h.cwd
    obtain rfl : e' = e := Option.some.inj (he'.symm.trans he)
    exact (hy.slot e').kept hpos

omit h in
/-- The calls that make, remove or follow names. -/
def namesCall : Call → Bool
  | .link .. | .unlink .. | .mkdir .. | .mknod .. | .chdir .. => true
  | _ => false

/-- A call on names that returns -1 has changed nothing. -/
theorem failed_call_unchanged {c : Call} (hc : namesCall c = true)
    (hrun : (prog sb c).run (alone sb t) x₀ = .done (-1) y) : Unchanged sb t x₀ y := by
  have hfailed : Failed sb t x₀ (-1) y := by
    cases c with
    | link old new => exact (sat_sysLink h old new).done hrun
    | unlink path => exact (sat_sysUnlink h path).done hrun
    | mkdir path => exact (sat_mkInode h path 0 0 (by decide)).done hrun
    | mknod path major minor => exact (sat_mkInode h path major minor (by decide)).done hrun
    | chdir path => exact (sat_sysChdir h path).done hrun
    | _ => cases hc
  obtain ⟨fs, hsame, hy⟩ := hfailed rfl
  exact hsame.unchanged h hy

omit h in
/-- A link to the file `f` at `a/b`, where there is a directory, takes its count back. -/
theorem failed_call_unchanged_link : ∃ y,
    (prog treeSb (.link (some [102]) (some [97, 47, 98]))).run (alone treeSb 0)
    (Sys.boot treeFs) = .done (-1) y ∧
      y.fs.writes = 2 ∧ Unchanged treeSb 0 (Sys.boot treeFs) y := by
  have hrun : ((prog treeSb (.link (some [102]) (some [97, 47, 98]))).run (alone treeSb 0)
      (Sys.boot treeFs)).passes
      (fun r y => decide (r = -1 ∧ y.fs.writes = 2)) = true := by decide +kernel
  obtain ⟨r, y, heq, htest⟩ := Outcome.of_passes hrun
  obtain ⟨rfl, hwrites⟩ := of_decide_eq_true htest
  exact ⟨y, heq, hwrites, failed_call_unchanged consistent_tree rfl heq⟩

end Xv6.FailedCalls
