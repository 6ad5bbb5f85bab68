import Xv6.MlfqPromotion

/-!
# Steps and the MLFQ queues

What `allocproc` and a pass over a queue do to the entries, and processes lined up in one
queue.
-/
namespace Xv6.MlfqSteps

open Function (update)
open ProcTable Scheduler ProcSystem RunState
open MlfqPromotion (lineUp lineUp_state)

variable {n : Nat} {b : Build} {s s' : System n} {c : Fin n} {a : Action}

/-- The process that CPU `c` has switched to in a step. -/
def switched (c : Fin n) (s s' : System n) : Option Slot :=
  if (s.cpu c).run = none then (s'.cpu c).run else none

theorem switched_eq_none {d : Fin n}
    (h : (s'.cpu d).run = (s.cpu d).run ∨ (s'.cpu d).run = none) : switched d s s' = none := by
  unfold switched
  split
  next hrun =>
    rcases h with h | h
    · rw [h, hrun]
    · exact h
  next => rfl

/-- `allocproc` adds an entry at the end of the first queue and touches no other. -/
theorem allocproc_queues (k : Kernel) (stray : Int) :
    ∃ e, (allocproc k stray).1.cxj = update k.cxj 0 (k.cxj 0 + 1) ∧
      (allocproc k stray).1.qxj = update k.qxj 0 (update (k.qxj 0) (k.cxj 0 + 1) e) := by
  unfold allocproc
  split
  · exact ⟨_, rfl, rfl⟩
  · exact ⟨_, rfl, rfl⟩

section Entry

variable {k : Kernel} {t i : Nat} {p : Slot}

/-- Whether an entry is a RUNNABLE process. -/
def ready (k : Kernel) : Entry → Bool
  | .proc p => decide ((k.proc p).state = .runnable)
  | _ => false

/-- At an index in use, a RUNNABLE process is dispatched. -/
theorem takeEntry_runnable {next : SchedPc} {after : Slot → SchedPc} (hq : k.qxj t i = .proc p)
    (hp : (k.proc p).state = .runnable) :
    takeEntry k t i next after = .dispatch (startRun k i p) p (after p) := by
  simp [takeEntry, hq, hp, startRun]

theorem takeEntry_skip {next : SchedPc} {after : Slot → SchedPc} (hq : k.qxj t i = .proc p)
    (hp : (k.proc p).state ≠ .runnable) :
    takeEntry k t i next after = .goto (k.index i) next := by
  simp [takeEntry, hq, hp]

end Entry

/-- One CPU whose scheduler is at `pc`, with processes lined up in queue `q`. -/
def atLine (q : Nat) (order : List Slot) (numRun : Int → Int) (pc : SchedPc) : System 1 where
  k :=
    { lineUp q order with
      pstat := { (lineUp q order).pstat with numRun := numRun } }
  lock := some 0
  cpu := fun _ => { proc := none, run := none, pc := pc }
  thread := fun _ => ⟨.user, .yielded⟩
  tickslock := false
  log := []

theorem wf_atLine {q : Nat} {order : List Slot} {numRun : Int → Int} {pc : SchedPc}
    (hpc : pc ≠ .idle) (hback : returned pc = none) : Wf (atLine q order numRun pc) where
  runs c p h := by cases h
  running p h := by
    change ((lineUp q order).proc p).state = .running at h
    rw [lineUp_state] at h
    split at h <;> cases h
  unique c d p h := by cases h
  sched c h := hback.symm
  idle c h := absurd (congrArg some (Subsingleton.elim 0 c)) h
  frame c p h h' := by cases h'
  busy c h h' := hpc
  locked c p h h' := by cases h'
  embryo p np h := by cases h
  parent p q np h := by cases h
  fresh p np h := by rcases h with h | h <;> cases h
  parked p h := by
    show Frame.yielded ≠ Frame.run
    simp

end Xv6.MlfqSteps
