import Xv6.Family
import Xv6.Runs
import Xv6.Scheduler

/-!
# Processes on CPUs

The process table with any number of CPUs. Each CPU runs either its scheduler or
the kernel thread of one process. Code between an `acquire` and a `release` of
`ptable.lock` that does not switch threads is one step, taken when the lock is
free; code that calls `sched` keeps the lock, which the scheduler of the same
CPU, or the process it dispatches next, releases. Writes that the source makes
without the lock, as `fork` does to the slot it has allocated, are steps of
their own. A process can be preempted wherever it does not hold the lock.
-/
namespace Xv6.ProcSystem

open Function (update)
open ProcTable Scheduler
open Family (Event)

/-- What a process does while it does not hold `ptable.lock`. -/
inductive Activity where
  /-- User code, or kernel code outside the functions below. -/
  | user : Activity
  /-- In `fork`: `allocproc` has taken slot `np` and released the lock. -/
  | allocated : (np : Slot) → Activity
  /-- In `fork`: `np` has a kernel stack. -/
  | stacked : (np : Slot) → Activity
  /-- In `fork`: `np` is complete but for its state. -/
  | copied : (np : Slot) → Activity
  /-- In `exit`: `etime` is recorded. -/
  | exiting : Activity
  deriving DecidableEq, Repr

/-- Whether the thread runs its activity or has called `sched`, and from where. -/
inductive Frame where
  | run | yielded | slept | waited | forked | dead
  deriving DecidableEq, Repr

structure Thread where
  act : Activity
  frame : Frame
  deriving DecidableEq, Repr

/-- `proc` is the field `c->proc`. `run` is the process whose code the CPU
executes, none for the scheduler; `pc` is where the scheduler is or, while a
process runs, where it will continue. -/
structure Cpu where
  proc : Option Slot
  run : Option Slot
  pc : SchedPc
  deriving DecidableEq, Repr

/-- `tickslock` is set between `ticks++` and `updatestatistics` of a timer interrupt.
`log` is the history of the run. -/
structure System (n : Nat) where
  k : Kernel
  lock : Option (Fin n)
  cpu : Fin n → Cpu
  thread : Slot → Thread
  tickslock : Bool
  log : List Event

inductive Action where
  /-- One step of the scheduler. -/
  | sched : Action
  /-- The code after `sched` in the process that has just been dispatched. -/
  | resume : Action
  | fork : (stray : Int) → Action
  | kalloc : (ok : Bool) → Action
  | copyuvm : (ok : Bool) → Action
  | forkDone : Action
  | stamp : Action
  | exit : Action
  | wait : Action
  | yield : Action
  | sleep : (a : Nat) → Action
  | wakeup : Chan → Action
  | kill : (pid : Int) → Action
  | chprty : (pid priority : Int) → Action
  | tick : Action
  | updateStatistics : Action
  deriving DecidableEq, Repr

variable {n : Nat}

def System.pid (s : System n) (p : Slot) : Int := (s.k.proc p).pid

def System.setThread (s : System n) (p : Slot) (f : Thread → Thread) : System n :=
  { s with thread := update s.thread p (f (s.thread p)) }

def System.setAct (s : System n) (p : Slot) (a : Activity) : System n :=
  s.setThread p fun t => { t with act := a }

@[simp] theorem setAct_frame (s : System n) (p q : Slot) (a : Activity) :
    ((s.setAct p a).thread q).frame = (s.thread q).frame := by
  by_cases hq : q = p
  · subst hq
    simp [System.setAct, System.setThread]
  · simp [System.setAct, System.setThread, hq]

theorem setAct_act (s : System n) (p q : Slot) (a : Activity) :
    ((s.setAct p a).thread q).act = if q = p then a else (s.thread q).act := by
  by_cases hq : q = p
  · subst hq
    simp [System.setAct, System.setThread]
  · simp [System.setAct, System.setThread, hq]

/-- Return from the code that follows `sched`, releasing the lock. -/
def System.release (s : System n) (p : Slot) (k : Kernel) : System n :=
  { s with k := k, lock := none, thread := update s.thread p { s.thread p with frame := .run } }

/-- `sched`: process `p`, holding the lock, switches to the scheduler of its CPU. -/
def System.switchOut (s : System n) (c : Fin n) (p : Slot) (k : Kernel) (f : Frame) : System n :=
  { s with
    k := k
    lock := some c
    cpu := update s.cpu c { s.cpu c with run := none }
    thread := update s.thread p { s.thread p with frame := f } }

@[simp] theorem release_k (s : System n) (p : Slot) (k : Kernel) : (s.release p k).k = k := rfl
@[simp] theorem switchOut_k (s : System n) (c : Fin n) (p : Slot) (k : Kernel) (f : Frame) :
    (s.switchOut c p k f).k = k := rfl

/-- The loop body of `wait` and `waitx`, run with the lock held. -/
def System.waitLoop (s : System n) (c : Fin n) (p : Slot) (k : Kernel) : System n :=
  match findZombie k p with
  | some z =>
    { s.release p (reap k z) with log := .wait (k.proc p).pid (k.proc z).pid :: s.log }
  | none =>
    if haveKids k p = false ∨ (k.proc p).killed = true then s.release p k
    else
      s.switchOut c p (k.setProc p fun q => { q with chan := .proc p, state := .sleeping }) .waited

/-- `fork` up to the return of the critical section of `allocproc`. -/
def System.forkStart (s : System n) (p : Slot) (stray : Int) : System n :=
  match allocproc s.k stray with
  | (k, none) => { s with k := k }
  | (k, some np) => { s.setAct p (.allocated np) with k := k }

/-- The scheduler of CPU `c` makes a step with the lock held. The code between
`swtch` and the next loop test ends with `c->proc = 0`. -/
def System.schedMove (b : Build) (s : System n) (c : Fin n) : System n :=
  match schedStep b s.k (s.cpu c).pc with
  | .goto k pc =>
    { s with
      k := k
      cpu := update s.cpu c
        { proc := if returned (s.cpu c).pc = none then (s.cpu c).proc else none
          run := none
          pc := pc } }
  | .dispatch k p pc' =>
    { s with k := k, cpu := update s.cpu c { proc := some p, run := some p, pc := pc' } }
  | .finish k =>
    { s with k := k, lock := none, cpu := update s.cpu c { s.cpu c with pc := .idle } }

/-- A step of the scheduler of CPU `c`: at the top of its loop it acquires the lock. -/
def System.sched (b : Build) (s : System n) (c : Fin n) : Option (System n) :=
  if (s.cpu c).run = none then
    if (s.cpu c).pc = .idle then
      if s.lock = none then
        some { s with lock := some c, cpu := update s.cpu c { s.cpu c with pc := entryPc b } }
      else none
    else some (s.schedMove b c)
  else none

/-- The code after `sched` in process `p`, by the place that called it. -/
def System.resume (s : System n) (c : Fin n) (p : Slot) : Option (System n) :=
  match (s.thread p).frame with
  | .yielded => some (s.release p s.k)
  | .forked => some (s.release p s.k)
  | .slept => some (s.release p (s.k.setProc p fun q => { q with chan := .null }))
  | .waited => some (s.waitLoop c p (s.k.setProc p fun q => { q with chan := .null }))
  | .run => none
  | .dead => none

/-- A step of process `p`, running its own code on CPU `c` without the lock. -/
def System.act (s : System n) (c : Fin n) (p : Slot) : Action → Option (System n)
  | .fork stray =>
    if (s.thread p).act = .user ∧ s.lock = none then some (s.forkStart p stray) else none
  | .kalloc ok =>
    match (s.thread p).act with
    | .allocated np =>
      let s' := s.setAct p (if ok then .stacked np else .user)
      let s' := if ok then s'.setThread np fun _ => ⟨.user, .forked⟩ else s'
      some { s' with k := allocStack s.k np ok }
    | _ => none
  | .copyuvm ok =>
    match (s.thread p).act with
    | .stacked np =>
      some { s.setAct p (if ok then .copied np else .user) with k := copyProc s.k p np ok }
    | _ => none
  | .forkDone =>
    match (s.thread p).act with
    | .copied np =>
      if s.lock = none then
        some { s.setAct p .user with
          k := s.k.setState np .runnable, log := .fork (s.pid p) (s.pid np) :: s.log }
      else none
    | _ => none
  | .stamp =>
    if (s.thread p).act = .user ∧ some p ≠ s.k.initproc then
      some { s.setAct p .exiting with k := s.k.setProc p fun q => { q with etime := s.k.ticks } }
    else none
  | .exit =>
    if (s.thread p).act = .exiting ∧ s.lock = none then
      some { s.switchOut c p (exitBody s.k p) .dead with log := .exit (s.pid p) :: s.log }
    else none
  | .wait =>
    if (s.thread p).act = .user ∧ s.lock = none then some (s.waitLoop c p s.k) else none
  | .yield =>
    if s.lock = none then some (s.switchOut c p (s.k.setState p .runnable) .yielded) else none
  | .sleep a =>
    if (s.thread p).act = .user ∧ s.lock = none then
      some (s.switchOut c p
        (s.k.setProc p fun q => { q with chan := .addr a, state := .sleeping }) .slept)
    else none
  | .kill pid =>
    if (s.thread p).act = .user ∧ s.lock = none then some { s with k := (kill s.k pid).1 }
    else none
  | .chprty pid priority =>
    if (s.thread p).act = .user ∧ s.lock = none then
      some { s with k := chprty s.k pid priority }
    else none
  | _ => none

/-- CPU `c` performs an action. `wakeup` and the timer interrupt run on whatever
thread the CPU has. -/
def step (b : Build) (s : System n) : Fin n × Action → Option (System n)
  | (c, .sched) => s.sched b c
  | (_, .wakeup chan) =>
    if s.lock = none then some { s with k := { s.k with proc := wakeup1 chan s.k.proc } } else none
  | (c, .tick) =>
    if s.lock ≠ some c ∧ s.tickslock = false then
      some { s with k := { s.k with ticks := s.k.ticks + 1 }, tickslock := true }
    else none
  | (_, .updateStatistics) =>
    if s.lock = none ∧ s.tickslock = true then
      some { s with k := updateStatistics s.k, tickslock := false }
    else none
  | (c, .resume) =>
    match (s.cpu c).run with
    | none => none
    | some p => s.resume c p
  | (c, a) =>
    match (s.cpu c).run with
    | none => none
    | some p => if (s.thread p).frame = .run then s.act c p a else none

/-- `userinit` has run and every CPU is at the top of its scheduler. -/
def bootSystem (n : Nat) : System n where
  k := boot
  lock := none
  cpu := fun _ => { proc := none, run := none, pc := .idle }
  thread := fun _ => ⟨.user, .forked⟩
  tickslock := false
  log := []

/-- The only CPU dispatches init. -/
def initRuns : List (Fin 1 × Action) := [(0, .sched), (0, .sched), (0, .resume)]

/-- The running process forks up to the point where the child is complete but for its state. -/
def forking : List (Fin 1 × Action) := [(0, .fork 0), (0, .kalloc true), (0, .copyuvm true)]

/-- The states of the runs of a build on `n` CPUs. -/
def Reachable (b : Build) (s : System n) : Prop := Runs.Reachable (step b) (bootSystem n) s

/-- A call of `wait` by `p`, at its start or after a sleep, with the tables as
the next pass over the process table finds them. -/
def WaitCall (s : System n) (a : Action) (p : Slot) (k : Kernel) : Prop :=
  a = .wait ∧ (s.thread p).frame = .run ∧ (s.thread p).act = .user ∧ s.lock = none ∧ k = s.k ∨
    a = .resume ∧ (s.thread p).frame = .waited ∧
      k = s.k.setProc p fun q => { q with chan := .null }

/-- The pass sees the table as it is, but for the channel of the caller. -/
theorem WaitCall.field {s : System n} {a : Action} {p : Slot} {k : Kernel}
    (h : WaitCall s a p k) {β : Type} (g : Proc → β)
    (hg : ∀ q : Proc, g { q with chan := .null } = g q) (q : Slot) :
    g (k.proc q) = g (s.k.proc q) := by
  rcases h with ⟨-, -, -, -, rfl⟩ | ⟨-, -, rfl⟩
  · rfl
  · exact update_field g (hg _) q

/-- A process runs its own code on a CPU. -/
def RunsOn (s : System n) (c : Fin n) (p : Slot) : Prop :=
  (s.cpu c).run = some p ∧ (s.thread p).frame = .run

/-- Everything the steps of CPU `c` can do, by action. -/
inductive Move (b : Build) (s : System n) (c : Fin n) : Action → System n → Prop where
  | acquire (hrun : (s.cpu c).run = none) (hpc : (s.cpu c).pc = .idle) (hlock : s.lock = none) :
      Move b s c .sched { s with
        lock := some c, cpu := update s.cpu c { s.cpu c with pc := entryPc b } }
  | goto {k : Kernel} {pc : SchedPc} (hrun : (s.cpu c).run = none) (hpc : (s.cpu c).pc ≠ .idle)
      (h : Goto s.k (s.cpu c).pc k pc) :
      Move b s c .sched { s with
        k := k
        cpu := update s.cpu c
          { proc := if returned (s.cpu c).pc = none then (s.cpu c).proc else none
            run := none
            pc := pc } }
  | dispatch {k : Kernel} {p : Slot} {pc : SchedPc} (hrun : (s.cpu c).run = none)
      (hpc : (s.cpu c).pc ≠ .idle) (h : Dispatch s.k (s.cpu c).pc k p pc) :
      Move b s c .sched { s with
        k := k, cpu := update s.cpu c { proc := some p, run := some p, pc := pc } }
  | finish (hrun : (s.cpu c).run = none) (hpc : (s.cpu c).pc ≠ .idle)
      (h : schedStep b s.k (s.cpu c).pc = .finish s.k) :
      Move b s c .sched { s with lock := none, cpu := update s.cpu c { s.cpu c with pc := .idle } }
  | resume {p : Slot} (hrun : (s.cpu c).run = some p)
      (hf : (s.thread p).frame = .yielded ∨ (s.thread p).frame = .forked) :
      Move b s c .resume (s.release p s.k)
  | woken {p : Slot} (hrun : (s.cpu c).run = some p) (hf : (s.thread p).frame = .slept) :
      Move b s c .resume (s.release p (s.k.setProc p fun q => { q with chan := .null }))
  | reap {a : Action} {p z : Slot} {k : Kernel}
    (hrun : (s.cpu c).run = some p) (hw : WaitCall s a p k)
      (hz : findZombie k p = some z) :
      Move b s c a { s.release p (reap k z) with
        log := .wait (k.proc p).pid (k.proc z).pid :: s.log }
  | waitFail {a : Action} {p : Slot} {k : Kernel}
    (hrun : (s.cpu c).run = some p) (hw : WaitCall s a p k)
      (hz : findZombie k p = none) (hk : haveKids k p = false ∨ (k.proc p).killed = true) :
      Move b s c a (s.release p k)
  | waitSleep {a : Action} {p : Slot} {k : Kernel}
    (hrun : (s.cpu c).run = some p) (hw : WaitCall s a p k)
      (hz : findZombie k p = none) (hk : haveKids k p = true) :
      Move b s c a (s.switchOut c p
        (k.setProc p fun q => { q with chan := .proc p, state := .sleeping }) .waited)
  | forkFull {p : Slot} {stray : Int} (hr : RunsOn s c p) (ha : (s.thread p).act = .user)
      (hlock : s.lock = none) (h : (allocproc s.k stray).2 = none) :
      Move b s c (.fork stray) { s with k := (allocproc s.k stray).1 }
  | forkAlloc {p np : Slot} {stray : Int} (hr : RunsOn s c p) (ha : (s.thread p).act = .user)
      (hlock : s.lock = none) (h : (allocproc s.k stray).2 = some np) :
      Move b s c (.fork stray) { s.setAct p (.allocated np) with k := (allocproc s.k stray).1 }
  | kallocOk {p np : Slot} (hr : RunsOn s c p) (ha : (s.thread p).act = .allocated np) :
      Move b s c (.kalloc true)
          { (s.setAct p (.stacked np)).setThread np fun _ => ⟨.user, .forked⟩ with
        k := allocStack s.k np true }
  | kallocFail {p np : Slot} (hr : RunsOn s c p) (ha : (s.thread p).act = .allocated np) :
      Move b s c (.kalloc false) { s.setAct p .user with k := allocStack s.k np false }
  | copyOk {p np : Slot} (hr : RunsOn s c p) (ha : (s.thread p).act = .stacked np) :
      Move b s c (.copyuvm true) { s.setAct p (.copied np) with k := copyProc s.k p np true }
  | copyFail {p np : Slot} (hr : RunsOn s c p) (ha : (s.thread p).act = .stacked np) :
      Move b s c (.copyuvm false) { s.setAct p .user with k := copyProc s.k p np false }
  | forkDone {p np : Slot} (hr : RunsOn s c p) (ha : (s.thread p).act = .copied np)
      (hlock : s.lock = none) :
      Move b s c .forkDone { s.setAct p .user with
        k := s.k.setState np .runnable, log := .fork (s.pid p) (s.pid np) :: s.log }
  | stamp {p : Slot} (hr : RunsOn s c p) (ha : (s.thread p).act = .user)
      (hinit : some p ≠ s.k.initproc) :
      Move b s c .stamp { s.setAct p .exiting with
        k := s.k.setProc p fun q => { q with etime := s.k.ticks } }
  | exit {p : Slot} (hr : RunsOn s c p) (ha : (s.thread p).act = .exiting) (hlock : s.lock = none) :
      Move b s c .exit
        { s.switchOut c p (exitBody s.k p) .dead with log := .exit (s.pid p) :: s.log }
  | yield {p : Slot} (hr : RunsOn s c p) (hlock : s.lock = none) :
      Move b s c .yield (s.switchOut c p (s.k.setState p .runnable) .yielded)
  | sleep {p : Slot} (a : Nat) (hr : RunsOn s c p) (ha : (s.thread p).act = .user)
      (hlock : s.lock = none) :
      Move b s c (.sleep a) (s.switchOut c p
        (s.k.setProc p fun q => { q with chan := .addr a, state := .sleeping }) .slept)
  | kill {p : Slot} (pid : Int) (hr : RunsOn s c p) (hlock : s.lock = none) :
      Move b s c (.kill pid) { s with k := (kill s.k pid).1 }
  | chprty {p : Slot} (pid priority : Int) (hr : RunsOn s c p) (hlock : s.lock = none) :
      Move b s c (.chprty pid priority) { s with k := chprty s.k pid priority }
  | wakeup (chan : Chan) (hlock : s.lock = none) :
      Move b s c (.wakeup chan) { s with k := { s.k with proc := wakeup1 chan s.k.proc } }
  | tick : Move b s c .tick { s with k := { s.k with ticks := s.k.ticks + 1 }, tickslock := true }
  | updateStatistics (hlock : s.lock = none) :
      Move b s c .updateStatistics { s with k := updateStatistics s.k, tickslock := false }

section Inversion

variable {b : Build} {s s' : System n} {c : Fin n} {p : Slot} {a : Action}

theorem sched_move (h : s.sched b c = some s') : Move b s c .sched s' := by
  unfold System.sched at h
  split at h
  next hrun =>
    split at h
    next hpc =>
      split at h
      next hlock =>
        obtain rfl := Option.some.inj h
        exact .acquire hrun hpc hlock
      next => cases h
    next hpc =>
      obtain rfl := Option.some.inj h
      unfold System.schedMove
      rcases schedStep_cases b s.k (s.cpu c).pc with ⟨k, pc, he, hg⟩ | ⟨k, p, pc, he, hd⟩ | he
      · rw [he]
        exact .goto hrun hpc hg
      · rw [he]
        exact .dispatch hrun hpc hd
      · rw [he]
        exact .finish hrun hpc he
  next => cases h

theorem waitLoop_move {k : Kernel} (hrun : (s.cpu c).run = some p) (hw : WaitCall s a p k) :
    Move b s c a (s.waitLoop c p k) := by
  unfold System.waitLoop
  cases hz : findZombie k p with
  | some z => exact .reap hrun hw hz
  | none =>
    by_cases hk : haveKids k p = false ∨ (k.proc p).killed = true
    · simp only [hk, if_true]
      exact .waitFail hrun hw hz hk
    · simp only [hk, if_false]
      exact .waitSleep hrun hw hz (by simpa using fun he => hk (.inl he))

theorem resume_move (hrun : (s.cpu c).run = some p) (h : s.resume c p = some s') :
    Move b s c .resume s' := by
  unfold System.resume at h
  split at h
  next hf => obtain rfl := Option.some.inj h; exact .resume hrun (.inl hf)
  next hf => obtain rfl := Option.some.inj h; exact .resume hrun (.inr hf)
  next hf => obtain rfl := Option.some.inj h; exact .woken hrun hf
  next hf => obtain rfl := Option.some.inj h; exact waitLoop_move hrun (.inr ⟨rfl, hf, rfl⟩)
  next => cases h
  next => cases h

theorem act_move (hr : RunsOn s c p) (h : s.act c p a = some s') : Move b s c a s' := by
  cases a with
  | fork stray =>
    obtain ⟨⟨ha, hlock⟩, rfl⟩ := Runs.of_guarded h
    unfold System.forkStart
    cases hn : (allocproc s.k stray).2 with
    | none =>
      rw [show allocproc s.k stray = ((allocproc s.k stray).1, none) from Prod.ext rfl hn]
      exact .forkFull hr ha hlock hn
    | some np =>
      rw [show allocproc s.k stray = ((allocproc s.k stray).1, some np) from Prod.ext rfl hn]
      exact .forkAlloc hr ha hlock hn
  | kalloc ok =>
    simp only [System.act] at h
    split at h
    next np ha =>
      obtain rfl := Option.some.inj h
      cases ok with
      | true => exact .kallocOk hr ha
      | false => exact .kallocFail hr ha
    next => cases h
  | copyuvm ok =>
    simp only [System.act] at h
    split at h
    next np ha =>
      obtain rfl := Option.some.inj h
      cases ok with
      | true => exact .copyOk hr ha
      | false => exact .copyFail hr ha
    next => cases h
  | forkDone =>
    simp only [System.act] at h
    split at h
    next np ha =>
      obtain ⟨hlock, rfl⟩ := Runs.of_guarded h
      exact .forkDone hr ha hlock
    next => cases h
  | stamp =>
    obtain ⟨⟨ha, hinit⟩, rfl⟩ := Runs.of_guarded h
    exact .stamp hr ha hinit
  | exit =>
    obtain ⟨⟨ha, hlock⟩, rfl⟩ := Runs.of_guarded h
    exact .exit hr ha hlock
  | wait =>
    obtain ⟨⟨ha, hlock⟩, rfl⟩ := Runs.of_guarded h
    exact waitLoop_move hr.1 (.inl ⟨rfl, hr.2, ha, hlock, rfl⟩)
  | yield =>
    obtain ⟨hlock, rfl⟩ := Runs.of_guarded h
    exact .yield hr hlock
  | sleep a =>
    obtain ⟨⟨ha, hlock⟩, rfl⟩ := Runs.of_guarded h
    exact .sleep a hr ha hlock
  | kill pid =>
    obtain ⟨⟨-, hlock⟩, rfl⟩ := Runs.of_guarded h
    exact .kill pid hr hlock
  | chprty pid priority =>
    obtain ⟨⟨-, hlock⟩, rfl⟩ := Runs.of_guarded h
    exact .chprty pid priority hr hlock
  | sched => cases h
  | resume => cases h
  | wakeup chan => cases h
  | tick => cases h
  | updateStatistics => cases h

/-- A process action is a step of the process that the CPU runs. -/
theorem proc_move
    (h : (match (s.cpu c).run with
      | none => none
      | some p => if (s.thread p).frame = .run then s.act c p a else none) = some s') :
    Move b s c a s' := by
  cases hrun : (s.cpu c).run with
  | none => simp [hrun] at h
  | some p =>
    simp only [hrun, Option.ite_none_right_eq_some] at h
    exact act_move ⟨hrun, h.1⟩ h.2

theorem step_move (h : step b s (c, a) = some s') : Move b s c a s' := by
  cases a with
  | sched => exact sched_move h
  | wakeup chan =>
    obtain ⟨hlock, rfl⟩ := Runs.of_guarded h
    exact .wakeup chan hlock
  | tick =>
    obtain ⟨-, rfl⟩ := Runs.of_guarded h
    exact .tick
  | updateStatistics =>
    obtain ⟨⟨hlock, -⟩, rfl⟩ := Runs.of_guarded h
    exact .updateStatistics hlock
  | resume =>
    simp only [step] at h
    cases hrun : (s.cpu c).run with
    | none => simp [hrun] at h
    | some p =>
      simp only [hrun] at h
      exact resume_move hrun h
  | fork | kalloc | copyuvm | forkDone | stamp | exit | wait | yield | sleep | kill | chprty =>
    exact proc_move h

end Inversion

end Xv6.ProcSystem
