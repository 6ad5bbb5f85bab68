import Xv6.KernelLocks
import Xv6.LogDisk
import Xv6.SleepRule

/-!
# Operations on the log

`begin_op`, `log_write` and `end_op` of log.c, with `commit`, as a program for the
threads of `Kthread`. A process is in one operation at a time: it begins it, logs
blocks, and ends it; the one that ends the last operation commits. What else an
operation does, disk input and output included, takes time and nothing of the log,
so it is left out: a process can be preempted where it would be.
-/
namespace Xv6.LogOps

open Function (update)
open ProcTable Kthread SleepPlan
open KernelLocks (Lock)
open LogDisk (logsize)

abbrev maxopblocks : Nat := 10

/-- `blockno` of a buffer. -/
structure BlockNo where
  val : UInt32
  deriving DecidableEq, Repr

/-- A block that has been logged, with the number of the operation that did and the
group it went into. -/
structure Entry where
  op : Nat
  group : Nat
  block : BlockNo
  deriving DecidableEq, Repr

/-- `struct log`, where the length of `lh` is `lh.n`, and a history: how many operations
have been admitted and which one each process is in, the blocks it has logged, how many
groups have been erased from the log, all that has been logged, the blocks that
`write_log` copied last, and the groups whose header has been written. -/
structure LogData where
  size : Nat
  outstanding : Int
  committing : Bool
  lh : List BlockNo
  ops : Nat
  op : Slot → Nat
  wrote : Slot → List BlockNo
  group : Nat
  logged : List Entry
  copied : List BlockNo
  committed : List (Nat × List BlockNo)

inductive Label where
  | idle
  | beginLock | beginTest | beginSleep | beginUnlock
  | inOp
  | check : BlockNo → Label
  | writeLock : BlockNo → Label
  | put : BlockNo → Label
  | writeUnlock
  | endLock | endDec | endWake
  | endUnlock : (doCommit : Bool) → Label
  | writeLog | writeHead | installTrans | clear
  | doneLock | done | doneWake | doneUnlock
  /-- `panic`, with its message. -/
  | tooBig | outsideOfTrans | logCommitting
  deriving DecidableEq, Repr

/-- What a process does next. -/
inductive Choice where
  | begin : Choice
  | write : BlockNo → Choice
  | finish : Choice

/-- `&log`. -/
def logChan : Chan := .addr 0

/-- The second test of `begin_op`. -/
def NoRoom (d : LogData) : Prop :=
  (d.lh.length : Int) + (d.outstanding + 1) * maxopblocks > logsize

instance (d : LogData) : Decidable (NoRoom d) :=
  inferInstanceAs (Decidable ((d.lh.length : Int) + (d.outstanding + 1) * maxopblocks > logsize))

theorem noRoom_iff (d : LogData) :
    NoRoom d ↔ (d.lh.length : Int) + (d.outstanding + 1) * 10 > 30 := Iff.rfl

/-- An operation is let in. -/
def letIn (p : Slot) (d : LogData) : LogData :=
  { d with
    outstanding := d.outstanding + 1
    ops := d.ops + 1
    op := update d.op p d.ops
    wrote := update d.wrote p [] }

@[simp] theorem letIn_op_self (p : Slot) (d : LogData) : (letIn p d).op p = d.ops := by
  simp [letIn]

theorem letIn_op_ne {p q : Slot} (h : q ≠ p) (d : LogData) : (letIn p d).op q = d.op q := by
  simp [letIn, h]

@[simp] theorem letIn_wrote_self (p : Slot) (d : LogData) : (letIn p d).wrote p = [] := by
  simp [letIn]

theorem letIn_wrote_ne {p q : Slot} (h : q ≠ p) (d : LogData) :
    (letIn p d).wrote q = d.wrote q := by
  simp [letIn, h]

/-- The loop body of `begin_op`. -/
def beginTest (p : Slot) (d : LogData) : LogData × Label :=
  if d.committing then (d, .beginSleep)
  else if NoRoom d then (d, .beginSleep)
  else (letIn p d, .beginUnlock)

/-- The tests of `log_write`, made without the lock. -/
def check (b : BlockNo) (d : LogData) : Label :=
  if d.lh.length ≥ logsize ∨ (d.lh.length : Int) ≥ (d.size : Int) - 1 then .tooBig
  else if d.outstanding < 1 then .outsideOfTrans
  else .writeLock b

/-- The critical section of `log_write`: a block that is in the log stays where it is. -/
def put (p : Slot) (b : BlockNo) (d : LogData) : LogData :=
  { d with
    lh := if b ∈ d.lh then d.lh else d.lh ++ [b]
    wrote := update d.wrote p (if b ∈ d.wrote p then d.wrote p else b :: d.wrote p)
    logged := ⟨d.op p, d.group, b⟩ :: d.logged }

theorem mem_put_lh {p : Slot} {b b' : BlockNo} {d : LogData} :
    b' ∈ (put p b d).lh ↔ b' ∈ d.lh ∨ b' = b := by
  by_cases h : b ∈ d.lh <;> simp [put, h]
  rintro rfl
  exact h

@[simp] theorem put_wrote_self (p : Slot) (b : BlockNo) (d : LogData) :
    (put p b d).wrote p = if b ∈ d.wrote p then d.wrote p else b :: d.wrote p := by
  simp [put]

theorem put_wrote_ne {p q : Slot} (h : q ≠ p) (b : BlockNo) (d : LogData) :
    (put p b d).wrote q = d.wrote q := by
  simp [put, h]

/-- The first critical section of `end_op`. -/
def endDec (d : LogData) : LogData × Label :=
  let d := { d with outstanding := d.outstanding - 1 }
  if d.committing then (d, .logCommitting)
  else if d.outstanding = 0 then ({ d with committing := true }, .endUnlock true)
  else (d, .endWake)

def code : Label → Instr LogData Choice Label Lock
  | .idle => .act fun _ k d =>
    match k with
    | .begin => some (d, .beginLock)
    | _ => none
  | .beginLock => .acquire .log .beginTest
  | .beginTest => .act fun p _ d => some (beginTest p d)
  | .beginSleep => .sleep logChan .log .beginTest
  | .beginUnlock => .release .log .inOp
  | .inOp => .act fun _ k d =>
    match k with
    | .begin => none
    | .write b => some (d, .check b)
    | .finish => some (d, .endLock)
  | .check b => .act fun _ _ d => some (d, check b d)
  | .writeLock b => .acquire .log (.put b)
  | .put b => .act fun p _ d => some (put p b d, .writeUnlock)
  | .writeUnlock => .release .log .inOp
  | .endLock => .acquire .log .endDec
  | .endDec => .act fun _ _ d => some (endDec d)
  | .endWake => .call (.wakeup logChan) (.endUnlock false)
  | .endUnlock doCommit => .release .log (if doCommit then .writeLog else .idle)
  -- `commit`, which reads the header again at each of its steps
  | .writeLog => .act fun _ _ d =>
    if d.lh.length > 0 then some ({ d with copied := d.lh }, .writeHead) else some (d, .doneLock)
  | .writeHead => .act fun _ _ d =>
    some ({ d with committed := (d.group, d.lh) :: d.committed }, .installTrans)
  | .installTrans => .act fun _ _ d => some (d, .clear)
  | .clear => .act fun _ _ d => some ({ d with lh := [], group := d.group + 1 }, .doneLock)
  | .doneLock => .acquire .log .done
  | .done => .act fun _ _ d => some ({ d with committing := false }, .doneWake)
  | .doneWake => .call (.wakeup logChan) .doneUnlock
  | .doneUnlock => .release .log .idle
  | .tooBig | .outsideOfTrans | .logCommitting => .act fun _ _ _ => none

def program : Program LogData Choice Label Lock where
  ptable := .ptable
  code := code

@[simp] theorem program_code (x : Label) : program.code x = code x := rfl

/-- The log as `initlog` leaves it. -/
def emptyLog (size : Nat) : LogData where
  size := size
  outstanding := 0
  committing := false
  lh := []
  ops := 0
  op := fun _ => 0
  wrote := fun _ => []
  group := 0
  logged := []
  copied := []
  committed := []

/-- The processes in `used`, none of them in an operation. -/
def initial (k : Kernel) (size : Nat) (used : Slot → Bool) (n : Nat) :
    State LogData Label Lock n :=
  start k (emptyLog size) used .idle

/-- What the actions do. -/
inductive LogStep (p : Slot) (d : LogData) : Label → LogData → Label → Prop where
  | start : LogStep p d .idle d .beginLock
  | wait (h : d.committing = true ∨ NoRoom d) : LogStep p d .beginTest d .beginSleep
  | letIn (hc : d.committing = false) (hroom : ¬ NoRoom d) :
      LogStep p d .beginTest (letIn p d) .beginUnlock
  | write (b : BlockNo) : LogStep p d .inOp d (.check b)
  | finish : LogStep p d .inOp d .endLock
  | tooBig (b : BlockNo)
      (h : d.lh.length ≥ logsize ∨ (d.lh.length : Int) ≥ (d.size : Int) - 1) :
      LogStep p d (.check b) d .tooBig
  | outside (b : BlockNo) (h : d.outstanding < 1) : LogStep p d (.check b) d .outsideOfTrans
  | checked (b : BlockNo) (hlog : d.lh.length < logsize)
      (hsize : (d.lh.length : Int) < (d.size : Int) - 1) :
      LogStep p d (.check b) d (.writeLock b)
  | put (b : BlockNo) : LogStep p d (.put b) (put p b d) .writeUnlock
  | ended (hc : d.committing = true) :
      LogStep p d .endDec { d with outstanding := d.outstanding - 1 } .logCommitting
  | last (hc : d.committing = false) (h : d.outstanding - 1 = 0) :
      LogStep p d .endDec { d with outstanding := d.outstanding - 1, committing := true }
        (.endUnlock true)
  | notLast (hc : d.committing = false) (h : d.outstanding - 1 ≠ 0) :
      LogStep p d .endDec { d with outstanding := d.outstanding - 1 } .endWake
  | copy (h : d.lh.length > 0) : LogStep p d .writeLog { d with copied := d.lh } .writeHead
  | nothing (h : d.lh = []) : LogStep p d .writeLog d .doneLock
  | head : LogStep p d .writeHead { d with committed := (d.group, d.lh) :: d.committed }
      .installTrans
  | install : LogStep p d .installTrans d .clear
  | clear : LogStep p d .clear { d with lh := [], group := d.group + 1 } .doneLock
  | done : LogStep p d .done { d with committing := false } .doneWake

theorem act_step {x y : Label} {f : Slot → Choice → LogData → Option (LogData × Label)} {p : Slot}
    {k : Choice} {d d' : LogData} (hx : code x = .act f) (h : f p k d = some (d', y)) :
    LogStep p d x d' y := by
  cases x <;> simp only [code, Instr.act.injEq, reduceCtorEq] at hx <;> subst hx
  case idle =>
    cases k <;> simp only [Option.some.injEq, Prod.mk.injEq, reduceCtorEq] at h
    obtain ⟨rfl, rfl⟩ := h
    exact .start
  case beginTest =>
    simp only [beginTest, Option.some.injEq] at h
    by_cases hc : d.committing = true
    · rw [if_pos hc] at h
      cases h
      exact .wait (.inl hc)
    · rw [if_neg hc] at h
      by_cases hroom : NoRoom d
      · rw [if_pos hroom] at h
        cases h
        exact .wait (.inr hroom)
      · rw [if_neg hroom] at h
        cases h
        exact .letIn (by simpa using hc) hroom
  case inOp =>
    cases k <;> simp only [Option.some.injEq, Prod.mk.injEq, reduceCtorEq] at h
    · obtain ⟨rfl, rfl⟩ := h
      exact .write _
    · obtain ⟨rfl, rfl⟩ := h
      exact .finish
  case check b =>
    simp only [check, Option.some.injEq, Prod.mk.injEq] at h
    obtain ⟨rfl, rfl⟩ := h
    split
    · exact .tooBig b (by assumption)
    · split
      · exact .outside b (by assumption)
      · exact .checked b (by omega) (by omega)
  case endDec =>
    simp only [endDec, Option.some.injEq] at h
    by_cases hc : d.committing = true
    · rw [if_pos hc] at h
      cases h
      exact .ended hc
    · rw [if_neg hc] at h
      have hc' : d.committing = false := by simpa using hc
      by_cases hlast : d.outstanding - 1 = 0
      · rw [if_pos hlast] at h
        cases h
        exact .last hc' hlast
      · rw [if_neg hlast] at h
        cases h
        exact .notLast hc' hlast
  case writeLog =>
    dsimp only at h
    split at h
    · cases h
      exact .copy (by assumption)
    · cases h
      exact .nothing (List.eq_nil_of_length_eq_zero (by omega))
  case put | writeHead | installTrans | clear | done =>
    simp only [Option.some.injEq, Prod.mk.injEq] at h
    obtain ⟨rfl, rfl⟩ := h
    constructor
  all_goals cases h

/-- A process sleeps in `begin_op` because a commit is under way or there is no room;
`clear` is reached only while a commit is under way. -/
def plan : Plan LogData Label Lock where
  held
    | .beginTest | .beginSleep | .beginUnlock | .put _ | .writeUnlock | .endDec | .endWake
    | .endUnlock _ | .done | .doneWake | .doneUnlock | .logCommitting => [.log]
    | _ => []
  lockOf _ := .log
  Knows x d := x = .clear → d.committing = true
  Reason chan _ d := chan = logChan → d.committing = true ∨ NoRoom d
  Owes x chan := (x = .endWake ∨ x = .doneWake) ∧ chan = logChan

theorem awake_of_ne {x : Label} (hx : x ≠ .beginSleep) : Awake program x := by
  intro chan lk z h
  cases x <;> simp_all [code]

/-- Every action keeps the reasons to sleep, or comes to a wakeup with the lock held. -/
theorem logStep_ok {x y : Label} {p : Slot} {d d' : LogData} (h : LogStep p d x d' y) :
    plan.held y = plan.held x ∧ (plan.Knows x d → plan.ActOk program x p d d' y) := by
  have quiet : ∀ {x y : Label} {d' : LogData}, y ≠ .beginSleep →
      (d.committing = true ∨ NoRoom d → d'.committing = true ∨ NoRoom d') →
      plan.ActOk program x p d d' y := by
    intro x y d' hy hkeep
    exact ⟨fun chan lk z hz => (awake_of_ne hy chan lk z hz).elim,
      fun chan r _ hr => .inl fun hchan => hkeep (hr hchan)⟩
  have owe : ∀ {x y : Label} {d' : LogData}, y = .endWake ∨ y = .doneWake →
      .log ∈ plan.held x → plan.ActOk program x p d d' y := by
    intro x y d' hy hlog
    refine ⟨fun chan lk z hz => ?_, fun chan r _ hr => ?_⟩
    · exact (awake_of_ne (by rcases hy with rfl | rfl <;> simp) chan lk z hz).elim
    · by_cases hchan : chan = logChan
      · exact .inr ⟨hlog, hy, hchan⟩
      · exact .inl fun h => (hchan h).elim
  cases h with
  | wait h =>
    refine ⟨rfl, fun _ => ⟨fun _ _ _ _ _ => h, fun chan r _ hr => .inl hr⟩⟩
  | letIn hc hroom =>
    refine ⟨rfl, fun _ => quiet (by simp) ?_⟩
    rintro (h | h)
    · exact .inl h
    · exact .inr (by simp only [noRoom_iff, letIn] at h ⊢; omega)
  | put b =>
    refine ⟨rfl, fun _ => quiet (by simp) ?_⟩
    rintro (h | h)
    · exact .inl h
    · right
      simp only [noRoom_iff, put] at h ⊢
      split
      · exact h
      · rw [List.length_append, List.length_singleton]
        push_cast
        omega
  | ended hc => exact ⟨rfl, fun _ => quiet (by simp) fun _ => .inl hc⟩
  | last hc h => exact ⟨rfl, fun _ => quiet (by simp) fun _ => .inl rfl⟩
  | notLast hc h => exact ⟨rfl, fun _ => owe (.inl rfl) (by simp [plan])⟩
  | clear => exact ⟨rfl, fun hk => quiet (by simp) fun _ => .inl (hk rfl)⟩
  | done => exact ⟨rfl, fun _ => owe (.inr rfl) (by simp [plan])⟩
  | _ => exact ⟨rfl, fun _ => quiet (by simp) id⟩

theorem plan_sound : plan.Sound program where
  ok x := by
    have hact : ∀ {f}, code x = .act f → plan.Ok program x := by
      intro f hx
      apply Plan.ok_act hx
      intro p k d d' y h
      exact logStep_ok (act_step hx h)
    cases x with
    | beginLock | writeLock | endLock | doneLock =>
      exact Plan.ok_acquire rfl rfl (awake_of_ne (by simp))
    | beginSleep => exact Plan.ok_sleep rfl rfl rfl rfl (awake_of_ne (by simp))
    | beginUnlock | writeUnlock | doneUnlock =>
      exact Plan.ok_release rfl (by simp [plan]) (awake_of_ne (by simp))
    | endWake => exact Plan.ok_call rfl rfl (awake_of_ne (by simp))
    | endUnlock doCommit =>
      cases doCommit <;> exact Plan.ok_release rfl (by simp [plan]) (awake_of_ne (by simp))
    | doneWake => exact Plan.ok_call rfl rfl (awake_of_ne (by simp))
    | _ => exact hact rfl
  owes x chan h := by
    obtain ⟨hx, rfl⟩ := h
    rcases hx with rfl | rfl <;> simp [plan, Plan.Pays, code]

end Xv6.LogOps
