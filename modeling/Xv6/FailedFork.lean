import Xv6.Parents

/-!
# A fork that fails

`allocproc` lists the new process in the first queue and opens its statistics before it
knows whether the process can be made. When the table is full, or when there is no
memory for the kernel stack or the image, `fork` returns -1 and leaves these writes behind.
-/
namespace Xv6.FailedFork

open Function (update)
open ProcTable Scheduler ProcSystem RunState Parents

abbrev nofile : Nat := 16

/-- The globals of proc.c with what `fork` copies of the file system: a file is an index of
`ftable`, an inode one of `icache`. -/
structure Tables where
  k : Kernel
  ofile : Slot → Fin nofile → Option Nat
  cwd : Slot → Option Nat
  fileRef : Nat → Int
  inodeRef : Nat → Int

/-- `filedup`; none is its panic. -/
def filedup (x : Tables) (f : Nat) : Option Tables :=
  if x.fileRef f < 1 then none
  else some { x with fileRef := update x.fileRef f (x.fileRef f + 1) }

/-- `np->ofile[i] = filedup(curproc->ofile[i])`, for an open file. -/
def copyFile (cur np : Slot) (x : Tables) (i : Fin nofile) : Option Tables :=
  match x.ofile cur i with
  | none => some x
  | some f =>
    (filedup x f).map fun x =>
      { x with ofile := update x.ofile np (update (x.ofile np) i (some f)) }

/-- `np->cwd = idup(curproc->cwd)`; none is the access through a null pointer. -/
def copyCwd (cur np : Slot) (x : Tables) : Option Tables :=
  (x.cwd cur).map fun i =>
    { x with
      inodeRef := update x.inodeRef i (x.inodeRef i + 1)
      cwd := update x.cwd np (some i) }

/-- `fork` by `cur`, with what it returns. `stack` and `uvm` say whether `kalloc` and
`copyuvm` find memory. -/
def fork (x : Tables) (cur : Slot) (stray : Int) (stack uvm : Bool) : Option (Tables × Int) :=
  match allocproc x.k stray with
  | (k, none) => some ({ x with k := k }, -1)
  | (k, some np) =>
    let k := allocStack k np stack
    if stack = false then some ({ x with k := k }, -1)
    else
      let k := copyProc k cur np uvm
      if uvm = false then some ({ x with k := k }, -1)
      else
        ((List.finRange nofile).foldlM (copyFile cur np) { x with k := k }).bind fun x =>
          (copyCwd cur np x).map fun x =>
            ({ x with k := x.k.setState np .runnable }, (x.k.proc np).pid)

section Fork

variable {x x' : Tables} {cur np : Slot} {stray : Int} {stack uvm : Bool}

theorem copyFile_k {i : Fin nofile} (h : copyFile cur np x i = some x') : x'.k = x.k := by
  unfold copyFile filedup at h
  split at h
  · rw [← Option.some.inj h]
  · split at h
    · cases h
    · obtain rfl := Option.some.inj h
      rfl

theorem copyFiles_k {l : List (Fin nofile)} (h : l.foldlM (copyFile cur np) x = some x') :
    x'.k = x.k := by
  induction l generalizing x with
  | nil => rw [← Option.some.inj h]
  | cons i l ih =>
    obtain ⟨y, hy, hrest⟩ := Option.bind_eq_some_iff.mp h
    rw [ih hrest, copyFile_k hy]

theorem copyCwd_k (h : copyCwd cur np x = some x') : x'.k = x.k := by
  obtain ⟨i, -, rfl⟩ := Option.map_eq_some_iff.mp h
  rfl

/-- The ways in which `fork` returns. -/
inductive Returns (x : Tables) (cur : Slot) (stray : Int) : Bool → Bool → Tables → Int → Prop where
  | full {k : Kernel} (stack uvm : Bool) (h : allocproc x.k stray = (k, none)) :
      Returns x cur stray stack uvm { x with k := k } (-1)
  | noStack {k : Kernel} {np : Slot} (uvm : Bool) (h : allocproc x.k stray = (k, some np)) :
      Returns x cur stray false uvm { x with k := allocStack k np false } (-1)
  | noImage {k : Kernel} {np : Slot} (h : allocproc x.k stray = (k, some np)) :
      Returns x cur stray true false
        { x with k := copyProc (allocStack k np true) cur np false } (-1)
  | done {k : Kernel} {np : Slot} {x' : Tables} (h : allocproc x.k stray = (k, some np))
      (hk : x'.k = (copyProc (allocStack k np true) cur np true).setState np .runnable) :
      Returns x cur stray true true x' (k.proc np).pid

theorem returns_of_fork {r : Int} (h : fork x cur stray stack uvm = some (x', r)) :
    Returns x cur stray stack uvm x' r := by
  unfold fork at h
  split at h
  next k ha =>
    obtain ⟨rfl, rfl⟩ := Prod.mk.inj (Option.some.inj h)
    exact .full stack uvm ha
  next k np ha =>
    cases stack with
    | false =>
      obtain ⟨rfl, rfl⟩ := Prod.mk.inj (Option.some.inj h)
      exact .noStack uvm ha
    | true =>
      cases uvm with
      | false =>
        obtain ⟨rfl, rfl⟩ := Prod.mk.inj (Option.some.inj h)
        exact .noImage ha
      | true =>
        obtain ⟨y, hy, h⟩ := Option.bind_eq_some_iff.mp h
        obtain ⟨z, hz, h⟩ := Option.map_eq_some_iff.mp h
        obtain ⟨rfl, rfl⟩ := Prod.mk.inj h
        have hk : z.k = copyProc (allocStack k np true) cur np true := by
          rw [copyCwd_k hz, copyFiles_k hy]
        have hpid : (z.k.proc np).pid = (k.proc np).pid := by
          rw [hk]
          simp [copyProc, allocStack]
        rw [hpid]
        exact .done ha (by rw [hk])

/-- What the rest of the kernel can see is as before. -/
structure Unseen (x x' : Tables) : Prop where
  state : ∀ p, (x'.k.proc p).state = (x.k.proc p).state
  pid : ∀ p, (x'.k.proc p).pid = (x.k.proc p).pid
  parent : ∀ p, (x'.k.proc p).parent = (x.k.proc p).parent
  ofile : x'.ofile = x.ofile
  qxj : x'.k.qxj = x.k.qxj
  cxj : x'.k.cxj = x.k.cxj
  pstat : x'.k.pstat = x.k.pstat

theorem allocproc_cxj (k : Kernel) (stray : Int) : (allocproc k stray).1.cxj 0 = k.cxj 0 + 1 := by
  unfold allocproc
  split <;> simp [Kernel.push, Kernel.openStat, allocFound, Kernel.setProc]

@[simp] theorem allocStack_cxj (k : Kernel) (p : Slot) (ok : Bool) :
    (allocStack k p ok).cxj = k.cxj := by
  cases ok <;> rfl

@[simp] theorem copyProc_cxj (k : Kernel) (p q : Slot) (ok : Bool) :
    (copyProc k p q ok).cxj = k.cxj := by
  cases ok <;> rfl

/-- Every path of `fork` leaves one entry more in the first queue. -/
theorem Returns.cxj {r : Int} (h : Returns x cur stray stack uvm x' r) :
    x'.k.cxj 0 = x.k.cxj 0 + 1 := by
  have hone := allocproc_cxj x.k stray
  cases h with
  | full _ _ ha => rwa [ha] at hone
  | noStack _ ha =>
    rw [ha] at hone
    simpa using hone
  | noImage ha =>
    rw [ha] at hone
    simpa using hone
  | done ha hk =>
    rw [ha] at hone
    rw [hk]
    simpa [Kernel.setState, Kernel.setProc] using hone

theorem allocproc_none_iff (k : Kernel) (stray : Int) :
    (allocproc k stray).2 = none ↔ ∀ p, (k.proc p).state ≠ .unused := by
  unfold allocproc
  cases hf : findSlot fun p => decide ((k.proc p).state = .unused) with
  | none => simpa using findSlot_eq_none.mp hf
  | some p =>
    have := findSlot_some hf
    simp only [reduceCtorEq, false_iff, not_forall, not_not]
    exact ⟨p, by simpa using this⟩

/-- `fork` returns -1 when the table is full or memory is short. -/
theorem fork_fails (h : ¬ ((∃ p, (x.k.proc p).state = .unused) ∧ stack = true ∧ uvm = true)) :
    ∃ x', fork x cur stray stack uvm = some (x', -1) := by
  have hfull := allocproc_none_iff x.k stray
  unfold fork
  split
  next k ha => exact ⟨_, rfl⟩
  next k np ha =>
    have hfree : ∃ p, (x.k.proc p).state = .unused := by
      by_contra hn
      rw [ha] at hfull
      cases hfull.mpr fun p hp => hn ⟨p, hp⟩
    cases stack with
    | false => exact ⟨_, rfl⟩
    | true =>
      cases uvm with
      | false => exact ⟨_, rfl⟩
      | true => exact absurd ⟨hfree, rfl, rfl⟩ h

/-- In every reachable state, a call of `fork` leaves no trace when it returns -1 if and
only if it cannot fail. -/
theorem failed_fork_unseen_iff {n : Nat} {b : Build} {s : System n} (h : Reachable b s)
    (hx : x.k = s.k) :
    (∀ x', fork x cur stray stack uvm = some (x', -1) → Unseen x x') ↔
      (∃ p, (x.k.proc p).state = .unused) ∧ stack = true ∧ uvm = true := by
  constructor
  · intro hunseen
    by_contra hn
    obtain ⟨x', hf⟩ : ∃ x', fork x cur stray stack uvm = some (x', -1) := fork_fails hn
    have hone := (returns_of_fork hf).cxj
    rw [(hunseen x' hf).cxj] at hone
    omega
  · rintro ⟨⟨p, hp⟩, rfl, rfl⟩ x' hf
    have hfam := inv_reachable h
    have hroot := hfam.numbered.bound 0 (by rw [hfam.kinship.alive]; simp)
    have hnext : 1 < x.k.nextpid := by
      rw [hx]
      exact lt_of_le_of_lt hroot.1 hroot.2
    generalize hr : (-1 : Int) = r at hf
    cases returns_of_fork hf with
    | full _ _ ha =>
      have := (allocproc_none_iff x.k stray).mp (by rw [ha]) p
      exact absurd hp this
    | @done k np _ ha hk =>
      have hpid : (k.proc np).pid = x.k.nextpid := by
        have hnp : (allocproc x.k stray).2 = some np := by rw [ha]
        have hsome := (allocproc_some hnp).2
        rw [ha] at hsome
        have hk' : k = allocFound x.k np := hsome
        rw [hk']
        simp
      omega

end Fork

/-- The calls and lock operations of a `fork` that nothing interrupts. -/
def forkActions {n : Nat} (c : Fin n) (k : Kernel) (stray : Int) (stack uvm : Bool) :
    List (Fin n × Action) :=
  if (allocproc k stray).2 = none then [(c, .fork stray)]
  else if stack = false then [(c, .fork stray), (c, .kalloc false)]
  else if uvm = false then [(c, .fork stray), (c, .kalloc true), (c, .copyuvm false)]
  else [(c, .fork stray), (c, .kalloc true), (c, .copyuvm true), (c, .forkDone)]

/-- They are steps of the system, and leave the globals of proc.c as `fork` does. -/
theorem fork_steps {n : Nat} {b : Build} {s : System n} {c : Fin n} {p : Slot} (hw : Wf s)
    (hr : RunsOn s c p) (ha : (s.thread p).act = .user) (hlock : s.lock = none) {x x' : Tables}
    (hx : x.k = s.k) {stray r : Int} {stack uvm : Bool}
    (hf : fork x p stray stack uvm = some (x', r)) :
    ∃ s', Runs.exec (step b) (forkActions c s.k stray stack uvm) s = some s' ∧ s'.k = x'.k := by
  have hne : ∀ {k : Kernel} {np : Slot}, allocproc s.k stray = (k, some np) → p ≠ np := by
    rintro k np hk rfl
    have hnp : (allocproc s.k stray).2 = some p := by rw [hk]
    have hfree := (allocproc_some hnp).1
    rw [(hw.runs c p hr.1).1] at hfree
    cases hfree
  obtain ⟨hcpu, hframe⟩ := hr
  -- each of the four ways is a short list of actions, which is executed symbolically
  cases returns_of_fork hf with
  | @full k stack uvm hk =>
    rw [hx] at hk
    simp [forkActions, Runs.exec, step, System.act, System.forkStart, hcpu, hframe, ha, hlock, hk]
  | noStack uvm hk =>
    rw [hx] at hk
    simp [forkActions, Runs.exec, step, System.act, System.forkStart, System.setAct,
      System.setThread, hcpu, hframe, ha, hlock, hk]
  | noImage hk =>
    rw [hx] at hk
    simp [forkActions, Runs.exec, step, System.act, System.forkStart, System.setAct,
      System.setThread, hcpu, hframe, ha, hlock, hk, hne hk]
  | done hk hk' =>
    rw [hx] at hk
    simp [forkActions, Runs.exec, step, System.act, System.forkStart, System.setAct,
      System.setThread, hcpu, hframe, ha, hlock, hk, hk', hne hk]

instance {n : Nat} (s : System n) (c : Fin n) (p : Slot) : Decidable (RunsOn s c p) :=
  inferInstanceAs (Decidable (_ ∧ _))

/-- The tables of a system whose processes have no open files. -/
def noFiles (k : Kernel) : Tables where
  k := k
  ofile := fun _ _ => none
  cwd := fun _ => some 0
  fileRef := fun _ => 0
  inodeRef := fun _ => 1

/-- A `fork` of init for which there is memory. -/
theorem failed_fork_unseen_init : ∃ s : System 1, Reachable .dflt s ∧ RunsOn s 0 0 ∧
    ∀ x', fork (noFiles s.k) 0 0 true true = some (x', -1) → Unseen (noFiles s.k) x' := by
  obtain ⟨s, hr, hruns, hfree⟩ : ∃ s : System 1, Reachable .dflt s ∧ RunsOn s 0 0 ∧
      (s.k.proc 1).state = .unused := Runs.exists_of_exec (l := initRuns) (by decide +kernel)
  exact ⟨s, hr, hruns, (failed_fork_unseen_iff hr rfl).mpr ⟨⟨1, hfree⟩, rfl, rfl⟩⟩

/-- Without a frame for the stack, init's `fork` returns -1 and leaves slot 1, UNUSED, with
pid 2 and listed in the first queue. -/
theorem failed_fork_seen : ∃ s : System 1, Reachable .dflt s ∧ RunsOn s 0 0 ∧
    ∃ x', fork (noFiles s.k) 0 0 false true = some (x', -1) ∧
      (s.k.proc 1).pid = 0 ∧ (x'.k.proc 1).pid = 2 ∧
      s.k.cxj 0 = 0 ∧ x'.k.cxj 0 = 1 ∧ x'.k.qxj 0 1 = .proc 1 ∧ (x'.k.proc 1).state = .unused := by
  have hexec : (Runs.exec (step .dflt) initRuns (bootSystem 1)).map
      (fun s => (decide (RunsOn s 0 0), (s.k.proc 1).pid, s.k.cxj 0)) = some (true, 0, 0) := by
    decide +kernel
  have hfork : ((Runs.exec (step .dflt) initRuns (bootSystem 1)).bind
      fun s => fork (noFiles s.k) 0 0 false true).map
      (fun y => (y.2, (y.1.k.proc 1).pid, y.1.k.cxj 0, y.1.k.qxj 0 1, (y.1.k.proc 1).state)) =
        some (-1, 2, 1, .proc 1, .unused) := by
    decide +kernel
  obtain ⟨s, hs, he⟩ := Option.map_eq_some_iff.mp hexec
  rw [hs, Option.bind_some] at hfork
  obtain ⟨⟨x', r⟩, hx, hy⟩ := Option.map_eq_some_iff.mp hfork
  simp only [Prod.mk.injEq, decide_eq_true_eq] at he hy
  obtain ⟨hr, h₁, h₂⟩ := he
  obtain ⟨rfl, h₃, h₄, h₅, h₆⟩ := hy
  exact ⟨s, Runs.reachable_of_exec hs, hr, x', hx, h₁, h₃, h₂, h₄, h₅, h₆⟩

end Xv6.FailedFork
