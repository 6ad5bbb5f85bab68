import Xv6.FailedCalls
import Xv6.SoloLinks

/-!
# A failing open

`sys_open` makes the file before it looks for an entry of the file table and for a
descriptor. If one of them is missing, it returns -1, and the new file stays.
-/
namespace Xv6.FailedOpen

open Function (update update_self)
open FsImage Directory FsSystem FsCalls Interleave InodeRuns PathResolution
  RunRules SoloRuns SoloPaths
open SoloLinks FailedCalls

variable {sb : Superblock} {t : Proc} {x₀ x y : Sys} {fs : Fs}
  {ip : Entry} {i j : Nat} {name : Name}
  {S : Stop → Prop} {m : OMode} {path : Path}

/-- There is no free entry in the file table, or no free descriptor. -/
def Exhausted (x : Sys) (t : Proc) : Prop :=
  (∀ f, (x.ftable f).ref ≠ 0) ∨ ∀ fd, (x.procs t).ofile fd ≠ none

/-- The path has a directory for a name that is not there, and the mode asks for it. -/
def Creates (sb : Superblock) (t : Proc) (x : Sys) (path : Path) (m : OMode) : Prop :=
  m.create = true ∧
    ∃ j name, resolveParent sb x.fs.disk (start x t path) (elems path) = some (j, name) ∧
    lookup x.fs.disk (dinode sb x.fs.disk j) name = none

/-! ## Files and descriptors -/

theorem run_filealloc (sb : Superblock) (t : Proc) (x : Sys) :
    ((file .filealloc).run (alone sb t) x = .done none x ∧ ∀ f, (x.ftable f).ref ≠ 0) ∨
    ∃ f, (x.ftable f).ref = 0 ∧ (file .filealloc).run (alone sb t) x =
      .done (some f) { x with ftable := update x.ftable f { x.ftable f with ref := 1 } } := by
  have hexec : alone sb t x (.file .filealloc) =
    Sys.lift x.withFile (x.fileState.exec 0 .filealloc) := rfl
  rw [FileState.exec] at hexec
  cases hfind : (List.finRange 100).find? fun f => (x.fileState.ftable f).ref == 0 with
  | none =>
    rw [hfind] at hexec
    refine .inl ⟨Prog.run_perform hexec, fun f h0 => ?_⟩
    exact List.find?_eq_none.mp hfind f (List.mem_finRange f) (beq_iff_eq.mpr h0)
  | some f =>
    rw [hfind] at hexec
    have hfree := List.find?_some hfind
    exact .inr ⟨f, beq_iff_eq.mp hfree, Prog.run_perform hexec⟩

theorem run_fdalloc (sb : Superblock) (t : Proc) (x : Sys) (f : File) :
    ((proc (.fdalloc f)).run (alone sb t) x = .done none x ∧ ∀ fd, (x.procs t).ofile fd ≠ none) ∨
    ∃ fd, (x.procs t).ofile fd = none ∧ (proc (.fdalloc f)).run (alone sb t) x =
      .done (some fd) { x with procs := Procs.setFd x.procs t fd (some f) } := by
  have hexec : alone sb t x (.proc (.fdalloc f)) = Sys.lift (fun P => { x with procs := P })
      (Procs.exec x.procs (fun _ => false) t 0 (.fdalloc f)) := rfl
  rw [Procs.exec] at hexec
  cases hfind : (List.finRange 16).find? fun fd => (x.procs t).ofile fd == none with
  | none =>
    rw [hfind] at hexec
    refine .inl ⟨Prog.run_perform hexec, fun fd h0 => ?_⟩
    exact List.find?_eq_none.mp hfind fd (List.mem_finRange fd) (beq_iff_eq.mpr h0)
  | some fd =>
    rw [hfind] at hexec
    have hfree := List.find?_some hfind
    exact .inr ⟨fd, beq_iff_eq.mp hfree, Prog.run_perform hexec⟩

theorem filedrop_fresh (s : FileState) {f : File} {v : FileS} (hv : v.ref = 1)
    (hback : s.ftable f = { v with ref := 0, type := .none }) :
    (s.set f v).filedrop f = .done (some v) s := by
  have hself : (s.set f v).ftable f = v := update_self ..
  have hset : (s.set f v).set f { v with ref := 0, type := .none } = s := by
    rw [FileState.set, FileState.set]
    dsimp only
    rw [Function.update_idem, ← hback, Function.update_eq_self]
  rw [FileState.filedrop]
  simp only [hself]
  rw [if_neg (by omega), if_neg (by omega), hset]

/-- A file that has just been allocated is given back. -/
theorem run_fileclose {f : File} (href : (x.ftable f).ref = 0) (htype : (x.ftable f).type = .none) :
    (fileclose f).run (alone sb t)
    { x with ftable := update x.ftable f { x.ftable f with ref := 1 } } = .done () x := by
  have hdrop : (file (.filedrop f)).run (alone sb t)
      { x with ftable := update x.ftable f { x.ftable f with ref := 1 } } =
        .done (some { x.ftable f with ref := 1 }) x := by
    refine Prog.run_perform ?_
    change Sys.lift _ ((x.fileState.set f { x.ftable f with ref := 1 }).filedrop f) = _
    rw [filedrop_fresh x.fileState rfl ?_]
    · rfl
    · change x.ftable f = { x.ftable f with ref := 0, type := .none }
      rw [← href, ← htype]
  refine (Prog.run_bind hdrop).trans ?_
  dsimp only
  rw [htype]
  rfl

theorem run_setInode (sb : Superblock) (t : Proc) (x : Sys) (f : File) (e : Entry)
    (readable writable : Bool) :
    (file (.setInode f e readable writable)).run (alone sb t) x = .done () { x with
      ftable := update x.ftable f
        { x.ftable f with type := .inode e, off := 0, readable, writable } } := rfl

/-! ## The end of open -/

/-- The state in which `open` has begun, if file `f` and descriptor `fd` were taken before. -/
def openedAt (x : Sys) (t : Proc) (f : File) (fd : Fd) (ip : Entry) (m : OMode) : Sys :=
  { x with
    ftable := update x.ftable f ⟨.inode ip, 1, !m.wronly, m.wronly || m.rdwr, 0⟩
    procs := Procs.setFd x.procs t fd (some f) }

/-- How `sys_open` ends once it has its inode. -/
def Opened (sb : Superblock) (t : Proc) (x₀ : Sys) (fs : Fs) (ip : Entry) (i : Nat) (m : OMode)
    (r : Int) (y : Sys) : Prop :=
  (Exhausted x₀ t ∧ r = -1 ∧ Solo sb t x₀ fs [] [] y) ∨
    ∃ f fd, (x₀.ftable f).ref = 0 ∧ (x₀.procs t).ofile fd = none ∧ r = fd.val ∧
      Solo sb t (openedAt x₀ t f fd ip m) fs [(ip, i)] [] y

theorem sat_openFile (hx : Solo sb t x₀ fs [(ip, i)] [ip] x) (ho : Orphans sb x₀ fs.disk)
    (hfiles : ∀ f, (x₀.ftable f).ref = 0 → (x₀.ftable f).type = .none) (m : OMode) :
    Sat (alone sb t) S (openFile ip m) (Opened sb t x₀ fs ip i m) x := by
  have hfail : Exhausted x₀ t → Sat (alone sb t) S (do iunlockput ip; endOp; pure (-1 : Int))
      (Opened sb t x₀ fs ip i m) x := by
    intro hex
    obtain ⟨z, hput, hz⟩ := hx.iunlockput List.not_mem_nil ho
    exact Sat.after hput (Sat.after (run_endOp sb t z) (.ret (.inl ⟨hex, rfl, hz.withDepth _⟩)))
  rcases run_filealloc sb t x with ⟨hrun, hall⟩ | ⟨f, href, hrun⟩
  · exact Sat.after hrun (hfail (.inl (hx.ftable ▸ hall)))
  · refine Sat.after hrun ?_
    rcases run_fdalloc sb t
        { x with ftable := update x.ftable f { x.ftable f with ref := 1 } } f with
      ⟨hrun', hall⟩ | ⟨fd, hfd, hrun'⟩
    · refine Sat.after hrun' (Sat.after (run_fileclose href ?_) (hfail (.inr (hx.procs ▸ hall))))
      rw [hx.ftable] at href ⊢
      exact hfiles f href
    · refine Sat.after hrun' ?_
      have hx' := hx.rebase (update x.ftable f { x.ftable f with ref := 1 })
        (Procs.setFd x.procs t fd (some f))
      obtain ⟨y, hunlock, hy⟩ := hx'.iunlock List.mem_cons_self List.not_mem_nil
      refine Sat.after hunlock
        (Sat.after (run_endOp sb t y) (Sat.after (run_setInode ..) (.ret (.inr ?_))))
      have hF : update y.ftable f { y.ftable f with
          type := .inode ip, off := 0, readable := !m.wronly, writable := m.wronly || m.rdwr } =
          update x₀.ftable f ⟨.inode ip, 1, !m.wronly, m.wronly || m.rdwr, 0⟩ := by
        rw [hy.ftable]
        dsimp only
        rw [update_self, Function.update_idem, hx.ftable]
      have hz := (hy.withDepth (update y.depth t (y.depth t - 1))).rebase
        (update x₀.ftable f ⟨.inode ip, 1, !m.wronly, m.wronly || m.rdwr, 0⟩)
        (Procs.setFd x₀.procs t fd (some f))
      refine ⟨f, fd, hx.ftable ▸ href, hx.procs ▸ hfd, rfl, ?_⟩
      have hprocs : y.procs = Procs.setFd x₀.procs t fd (some f) := by
        rw [hy.procs]
        dsimp only
        rw [hx.procs]
      dsimp only
      rw [hF]
      rw [← hprocs] at hz
      rw [openedAt, ← hprocs]
      exact hz

/-! ## The inode -/

/-- Opening what is there: the inode that the path leads to, unless it is a directory that is
to be written. -/
theorem sat_openPath (h : Consistent sb t x₀) (hx : Solo sb t x₀ x₀.fs [] [] x)
    (hm : m.create = false) (hfull : spare x₀ ≤ 1 → S (.panic "iget: no inodes"))
    (hdead : resolve sb x₀.fs.disk (start x₀ t path) (elems path) = none →
      S (.panic "ilock: no type"))
    (hfree : ∀ i, resolve sb x₀.fs.disk (start x₀ t path) (elems path) = some i →
      (dinode sb x₀.fs.disk i).type = 0 → S (.panic "ilock: no type")) :
    Sat (alone sb t) S (openInode sb path m) (fun r y =>
      (r = none ∧ Solo sb t x₀ x₀.fs [] [] y ∧
      ∀ i, resolve sb x₀.fs.disk (start x₀ t path) (elems path) = some i →
        (dinode sb x₀.fs.disk i).type = tDir ∧ m.isRdonly = false) ∨
      ∃ ip i, r = some ip ∧ resolve sb x₀.fs.disk (start x₀ t path) (elems path) = some i ∧
        Solo sb t x₀ x₀.fs [(ip, i)] [ip] y) x := by
  rw [openInode, if_neg (by rw [hm]; exact Bool.false_ne_true)]
  have hfull' : spare x₀ ≤ ([] : List (Entry × Nat)).length + 1 →
    S (.panic "iget: no inodes") := hfull
  refine Sat.bind
    (sat_namei h.orphans h.dirs hfull' h.root h.cwd hx path fun hst => hdead hst.resolve)
    fun r y hr => ?_
  obtain ⟨hi, rfl, hy⟩ | ⟨i, ip, hi, rfl, hy⟩ := hr.cases
  · exact .ret (.inl ⟨rfl, hy, fun i h => by cases hi.symm.trans h⟩)
  · refine hy.ilock_bind (absurd · List.not_mem_nil) (hfree i hi) fun z _ hz => ?_
    refine Sat.after (hz.run_inode List.mem_cons_self List.mem_cons_self) ?_
    split
    next hdir =>
      obtain ⟨w, hput, hw⟩ := hz.iunlockput List.not_mem_nil h.orphans
      refine Sat.after hput (.ret (.inl ⟨rfl, hw, fun i' heq => ?_⟩))
      obtain rfl := Option.some.inj (hi.symm.trans heq)
      exact ⟨hdir.1, by simpa using hdir.2⟩
    next => exact .ret (.inr ⟨ip, i, rfl, hi, hz⟩)

/-- What the inode part of `sys_open` leaves. -/
def Gets (sb : Superblock) (t : Proc) (x₀ : Sys) (path : Path) (m : OMode) (r : Option Entry)
    (y : Sys) : Prop :=
  match r with
  | none => ¬ Creates sb t x₀ path m ∧ Solo sb t x₀ x₀.fs [] [] y
  | some ip => ∃ i fs, Solo sb t x₀ fs [(ip, i)] [ip] y ∧
    ((Creates sb t x₀ path m ∧ ∃ j, Created sb x₀ j tFile i fs) ∨
    (¬ Creates sb t x₀ path m ∧ fs = x₀.fs))

theorem sat_openInode (h : Consistent sb t x₀) (hx : Solo sb t x₀ x₀.fs [] [] x) (path : Path)
    (m : OMode) :
    Sat (alone sb t) (fun _ => True) (openInode sb path m) (Gets sb t x₀ path m) x := by
  by_cases hm : m.create = true
  · rw [openInode, if_pos hm]
    refine sat_create h hx (fun _ => trivial) (fun _ => trivial) (fun hnone y hy => ⟨?_, hy⟩)
      (fun j name i hp hl _ _ ip y hy => ⟨i, x₀.fs, hy, .inr ⟨?_, rfl⟩⟩)
      (fun j name i hp hl _ y hy => ⟨?_, hy⟩)
      fun j name dp y hp hl hy => ?_
    · rintro ⟨-, j, name, hp, -⟩
      rw [hnone] at hp
      cases hp
    · rintro ⟨-, j', name', hp', hl'⟩
      cases hp.symm.trans hp'
      rw [hl] at hl'
      cases hl'
    · rintro ⟨-, j', name', hp', hl'⟩
      cases hp.symm.trans hp'
      rw [hl] at hl'
      cases hl'
    · refine (sat_createNew (fun _ => trivial) (fun _ => trivial) h hy
        (resolveParent_dir hp) hl (by decide)
        (fun _ => trivial) (fun _ => trivial) 0 0).mono fun ip z hz => ?_
      obtain ⟨i, fs, hc, -, hz⟩ := hz
      exact ⟨i, fs, hz, .inl ⟨⟨hm, j, name, hp, hl⟩, j, hc⟩⟩
  · have hno : ¬ Creates sb t x₀ path m := fun hc => hm hc.1
    refine (sat_openPath h hx (Bool.not_eq_true _ ▸ hm) (fun _ => trivial) (fun _ => trivial)
      fun _ _ _ => trivial).mono fun r y hr => ?_
    rcases hr with ⟨rfl, hy, -⟩ | ⟨ip, i, rfl, -, hy⟩
    · exact ⟨hno, hy⟩
    · exact ⟨i, x₀.fs, hy, .inr ⟨hno, rfl⟩⟩

/-! ## A failing open -/

/-- The call makes a file. -/
def MakesFile (sb : Superblock) (t : Proc) (x : Sys) (path : Option Path) (m : OMode) : Prop :=
  ∃ p, path = some p ∧ Creates sb t x p m

/-- Nothing is left of a call: no file, directory entry or link, no entry of the file table,
descriptor or reference to an inode. -/
structure NoTrace (sb : Superblock) (t : Proc) (x y : Sys) : Prop where
  unchanged : Unchanged sb t x y
  files : y.ftable = x.ftable
  descriptors : (y.procs t).ofile = (x.procs t).ofile
  refs : ∀ e, (y.icache e).ref = (x.icache e).ref

theorem noTrace_of_solo (h : Consistent sb t x) (hy : Solo sb t x x.fs [] [] y) :
    NoTrace sb t x y where
  unchanged := (SameFiles.refl sb x.fs.disk).unchanged h hy
  files := hy.ftable
  descriptors := by rw [hy.procs]
  refs e := (hy.slot e).ref.trans (Int.add_zero _)

/-- A failing open leaves no trace, unless it has made the file that it cannot open. -/
theorem failing_open_iff (h : Consistent sb t x)
    (hfiles : ∀ f, (x.ftable f).ref = 0 → (x.ftable f).type = .none) {path : Option Path}
    (hrun : (prog sb (.open_ path m)).run (alone sb t) x = .done (-1) y) :
    NoTrace sb t x y ↔ ¬ (MakesFile sb t x path m ∧ Exhausted x t) := by
  have hsat : Sat (alone sb t) (fun _ => True) (sysOpen sb path m) (fun r y => r = -1 →
      (¬ MakesFile sb t x path m ∧ Solo sb t x x.fs [] [] y) ∨
      (MakesFile sb t x path m ∧ Exhausted x t ∧
        ∃ j i fs, Created sb x j tFile i fs ∧ Solo sb t x fs [] [] y)) x := by
    cases path with
    | none => exact .ret fun _ => .inl ⟨fun ⟨p, hp, _⟩ => (nomatch hp), h.solo⟩
    | some p =>
      have hmakes : MakesFile sb t x (some p) m ↔ Creates sb t x p m :=
        ⟨fun ⟨p', hp, hc⟩ => Option.some.inj hp ▸ hc, fun hc => ⟨p, rfl, hc⟩⟩
      rw [hmakes]
      refine Sat.after (run_beginOp sb t x)
        (Sat.bind (sat_openInode h (h.solo.withDepth _) p m) fun r z hz => ?_)
      cases r with
      | none => exact Sat.after (run_endOp sb t z) (.ret fun _ => .inl ⟨hz.1, hz.2.withDepth _⟩)
      | some ip =>
        obtain ⟨i, fs, hz, hcase⟩ := hz
        have ho : Orphans sb x fs.disk := by
          rcases hcase with ⟨-, j, hc⟩ | ⟨-, rfl⟩
          · exact hc.orphans
          · exact h.orphans
        refine (sat_openFile hz ho hfiles m).mono fun r y hy hr => ?_
        rcases hy with ⟨hex, -, hy⟩ | ⟨f, fd, -, -, rfl, -⟩
        · rcases hcase with ⟨hmake, j, hc⟩ | ⟨hno, rfl⟩
          · exact .inr ⟨hmake, hex, j, i, fs, hc, hy⟩
          · exact .inl ⟨hno, hy⟩
        · omega
  rcases hsat.done hrun rfl with ⟨hno, hy⟩ | ⟨hmake, hex, j, i, fs, hc, hy⟩
  · exact iff_of_true (noTrace_of_solo h hy) fun hand => hno hand.1
  · refine iff_of_false (fun htrace => ?_) (not_not.mpr ⟨hmake, hex⟩)
    have hsame := htrace.unchanged.inodes i hc.lt
    have hnew := hc.type
    rw [← hy.disk, hsame, hc.free] at hnew
    exact absurd hnew (by decide)

/-- A process makes a call and goes on with it for a number of steps. -/
def callFor (t : Proc) (c : Call) (n : Nat) : List Action :=
  .start t c :: List.replicate n (.step t 1)

/-- A process opens a pipe and duplicates its first descriptor, until it has all of them. -/
def fillDescriptors : List Action :=
  callFor 0 .pipe 5 ++ (List.replicate 14 (callFor 0 (.dup 0) 3)).flatten

/-- With all descriptors in use, `open` of a new name makes the file and returns -1. -/
theorem created_and_failed :
    ∃ c y, Runs.Reachable (next treeSb) (boot treeFs) c ∧ c.thread 0 = none ∧
    (prog treeSb (.open_ (some [110]) ⟨0x201⟩)).run (alone treeSb 0) c.state = .done (-1) y ∧
    resolve treeSb c.state.fs.disk 1 [[110]] = none ∧ resolve treeSb y.fs.disk 1 [[110]] = some 5 ∧
    (dinode treeSb c.state.fs.disk 5).type = 0 ∧ (dinode treeSb y.fs.disk 5).type = tFile ∧
    ¬ NoTrace treeSb 0 c.state y := by
  have hrun : (Runs.exec (next treeSb) fillDescriptors (boot treeFs)).any
      (fun c => (c.thread 0).isNone &&
      ((prog treeSb (.open_ (some [110]) ⟨0x201⟩)).run (alone treeSb 0) c.state).passes fun r y =>
        decide (r = -1 ∧ resolve treeSb c.state.fs.disk 1 [[110]] = none ∧
          resolve treeSb y.fs.disk 1 [[110]] = some 5 ∧
          (dinode treeSb c.state.fs.disk 5).type = 0 ∧ (dinode treeSb y.fs.disk 5).type = tFile)) =
          true := by
    decide +kernel
  obtain ⟨c, hc, hrun⟩ := (Option.any_eq_true ..).mp hrun
  rw [Bool.and_eq_true, Option.isNone_iff_eq_none] at hrun
  obtain ⟨hthread, hrun⟩ := hrun
  obtain ⟨r, y, hy, htest⟩ := Outcome.of_passes hrun
  obtain ⟨rfl, hbefore, hafter, hfree, hnew⟩ := of_decide_eq_true htest
  refine ⟨c, y, Runs.reachable_of_exec hc, hthread, hy, hbefore, hafter,
    hfree, hnew, fun htrace => ?_⟩
  have hsame := htrace.unchanged.inodes 5 (by decide)
  rw [hsame, hfree] at hnew
  exact absurd hnew (by decide)

/-- A file that is not there is not opened, and nothing is left. -/
theorem failing_open_missing : ∃ y,
    (prog treeSb (.open_ (some [110]) ⟨0x002⟩)).run (alone treeSb 0)
    (Sys.boot treeFs) = .done (-1) y ∧
      NoTrace treeSb 0 (Sys.boot treeFs) y := by
  have hrun : ((prog treeSb (.open_ (some [110]) ⟨0x002⟩)).run (alone treeSb 0)
      (Sys.boot treeFs)).passes (fun r _ => decide (r = -1)) = true := by decide +kernel
  obtain ⟨r, y, hy, hr⟩ := Outcome.of_passes hrun
  obtain rfl := of_decide_eq_true hr
  refine ⟨y, hy, (failing_open_iff consistent_tree (fun _ _ => rfl) hy).mpr fun hand => ?_⟩
  obtain ⟨-, -, hcreate, -⟩ := hand.1
  cases hcreate

end Xv6.FailedOpen
