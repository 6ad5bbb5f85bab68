import Xv6.ProcTable
import Xv6.ShiftQueue

/-!
# The four schedulers of proc.c

Each scheduler is cut at its loop tests and at `swtch`: a program counter names
the place, with the local variables that are live there, and one step runs the
code up to the next place. Everything from `idle` on, until `finish`, happens
with `ptable.lock` held; `dispatch` is the call of `swtch`, and the counter it
carries is where the scheduler continues when the process switches back.
-/
namespace Xv6.Scheduler

open Function (update)
open ProcTable

/-- The `SCHEDULER` variable of the Makefile. -/
inductive Build where
  | dflt | pbs | fcfs | mlfq
  deriving DecidableEq, Repr

inductive SchedPc where
  /-- The top of the loop of `scheduler`, without the lock. -/
  | idle : SchedPc
  /-- The loop test of a scan of the process table, with `p = &ptable.proc[p]`. -/
  | scan : Nat → SchedPc
  /-- After `swtch` in such a scan, with the local `p`. -/
  | back : Slot → SchedPc
  /-- The table scan of the starvation pass of queue `t`. -/
  | starve : (t p : Nat) → SchedPc
  /-- The loop test of queue `t`, one of the first four, at index `i`. -/
  | level : (t i : Nat) → SchedPc
  | levelBack : (t i : Nat) → Slot → SchedPc
  /-- The loop test of the last queue at index `i`. -/
  | last : Nat → SchedPc
  | lastBack : Nat → Slot → SchedPc
  /-- A null entry of `qxj`, or one past the table, has been dereferenced. -/
  | wild : SchedPc
  deriving DecidableEq, Repr

inductive SchedStep where
  | goto : Kernel → SchedPc → SchedStep
  | dispatch : Kernel → Slot → SchedPc → SchedStep
  | finish : Kernel → SchedStep

/-- `p < &ptable.proc[NPROC]`. -/
def slotAt (p : Nat) : Option Slot := if h : p < nproc then some ⟨p, h⟩ else none

@[simp] theorem slotAt_val (p : Slot) : slotAt p.val = some p := by simp [slotAt, p.isLt]

/-- The inner loop of the priority and FCFS schedulers: a RUNNABLE slot replaces
the candidate when the candidate's key is larger. -/
def highP {κ : Type} [LT κ] [DecidableLT κ] (key : Proc → κ) (k : Kernel) (p : Slot) : Slot :=
  (List.finRange nproc).foldl (fun high p1 =>
    if (k.proc p1).state ≠ .runnable then high
    else if key (k.proc p1) < key (k.proc high) then p1 else high) p

section HighP

variable {κ μ : Type} [LT κ] [DecidableLT κ] [LinearOrder μ] (key : Proc → κ) {k : Kernel}
  {m : Slot → μ}

/-- What the inner loop has found after any part of the table. -/
theorem highP_fold (hm : ∀ a b, key (k.proc a) < key (k.proc b) ↔ m a < m b)
    (l : List Slot) (hl : l.Pairwise (· < ·)) (p : Slot) (hp : (k.proc p).state = .runnable) :
    let h := l.foldl (fun high p1 =>
      if (k.proc p1).state ≠ .runnable then high
      else if key (k.proc p1) < key (k.proc high) then p1 else high) p
    (k.proc h).state = .runnable ∧ m h ≤ m p ∧
      (∀ x ∈ l, (k.proc x).state = .runnable → m h ≤ m x) ∧
      (h = p ∨ m h < m p ∧ ∀ x ∈ l, (k.proc x).state = .runnable → m x = m h → h ≤ x) := by
  induction l generalizing p with
  | nil => simp [hp]
  | cons a l ih =>
    obtain ⟨ha, hl⟩ := List.pairwise_cons.mp hl
    simp only [List.foldl_cons, List.forall_mem_cons]
    by_cases hr : (k.proc a).state = .runnable
    · by_cases hlt : m a < m p
      · rw [if_neg (by simpa using hr), if_pos ((hm a p).mpr hlt)]
        obtain ⟨h₁, h₂, h₃, h₄⟩ := ih hl a hr
        refine ⟨h₁, h₂.trans hlt.le, ⟨fun _ => h₂, h₃⟩, .inr ⟨h₂.trans_lt hlt, ?_⟩⟩
        rcases h₄ with h₄ | ⟨h₄, h₅⟩
        · rw [h₄]
          exact ⟨fun _ _ => le_rfl, fun x hx _ _ => (ha x hx).le⟩
        · exact ⟨fun _ he => absurd he h₄.ne', h₅⟩
      · rw [if_neg (by simpa using hr), if_neg (fun hc => hlt ((hm a p).mp hc))]
        obtain ⟨h₁, h₂, h₃, h₄⟩ := ih hl p hp
        have hle := h₂.trans (not_lt.mp hlt)
        refine ⟨h₁, h₂, ⟨fun _ => hle, h₃⟩, h₄.imp_right ?_⟩
        rintro ⟨h₅, h₆⟩
        exact ⟨h₅, fun _ he => absurd he (h₅.trans_le (not_lt.mp hlt)).ne', h₆⟩
    · rw [if_pos hr]
      obtain ⟨h₁, h₂, h₃, h₄⟩ := ih hl p hp
      exact ⟨h₁, h₂, ⟨fun hc => absurd hc hr, h₃⟩,
        h₄.imp_right fun h => ⟨h.1, fun hc => absurd hc hr, h.2⟩⟩

/-- The inner loop ends at a RUNNABLE slot of smallest key: at the slot it
started from if that is one, and otherwise at the first one of the table. -/
theorem highP_spec (hm : ∀ a b, key (k.proc a) < key (k.proc b) ↔ m a < m b)
    (p : Slot) (hp : (k.proc p).state = .runnable) :
    (k.proc (highP key k p)).state = .runnable ∧
      (∀ x, (k.proc x).state = .runnable → m (highP key k p) ≤ m x) ∧
      (highP key k p = p ∨ m (highP key k p) < m p ∧
        ∀ x, (k.proc x).state = .runnable → m x = m (highP key k p) → highP key k p ≤ x) := by
  obtain ⟨h₁, -, h₃, h₄⟩ :=
    highP_fold key hm (List.finRange nproc) (List.pairwise_lt_finRange _) p hp
  exact ⟨h₁, fun x => h₃ x (List.mem_finRange x),
    h₄.imp_right fun h => ⟨h.1, fun x => h.2 x (List.mem_finRange x)⟩⟩

end HighP

def defaultScheduler (k : Kernel) (p : Slot) : SchedStep :=
  if (k.proc p).state ≠ .runnable then .goto k (.scan (p + 1))
  else .dispatch (k.setState p .running) p (.back p)

def priorityScheduler (k : Kernel) (p : Slot) : SchedStep :=
  if (k.proc p).state ≠ .runnable then .goto k (.scan (p + 1))
  else
    let p := highP Proc.priority k p
    .dispatch (k.setState p .running) p (.back p)

/-- The condition under which `fcfs_scheduler` gives `p` the CPU. -/
def fcfsMayRun (k : Kernel) (p : Slot) : Bool :=
  match k.runningP with
  | none => true
  | some r => decide ((k.proc r).state = .running ∧ (k.proc p).ctime < (k.proc r).ctime) ||
      decide ((k.proc r).state ≠ .running)

def fcfsScheduler (k : Kernel) (p : Slot) : SchedStep :=
  if (k.proc p).state ≠ .runnable then .goto k (.scan (p + 1))
  else
    let p := highP Proc.ctime k p
    if fcfsMayRun k p then
      .dispatch { k.setState p .running with runningP := some p } p (.back p)
    else .goto k (.scan (p + 1))

/-- `ticksTodur`. -/
def ticksTodur : Int := 30

/-- `timedur[t]`, scaled by `ticksTodur`. -/
def timedur (t : Nat) : Int := [1, 2, 4, 8, 16].getD t 0 * ticksTodur

/-- `exceededTimedur`. -/
def exceededTimedur : UInt32 := 25 * 30

/-- The code that deletes entry `i` of queue `t`. -/
def deleteEntry (k : Kernel) (t : Nat) (i : Int) : Kernel :=
  { k with
    qxj := update k.qxj t (ShiftQueue.close (k.qxj t) (k.cxj t) i .null .null)
    cxj := update k.cxj t (k.cxj t - 1)
    overrun := k.overrun || outside i || outside (k.cxj t) }

/-- `p` enters queue `t` at its end: `cxj`, `qxj`, `current_queue`, `runtime` and `num_run`. -/
def enterQueue (k : Kernel) (t : Nat) (p : Slot) : Kernel :=
  let pid := (k.proc p).pid
  let k := (k.push t (.proc p)).index pid
  { k with
    pstat := { k.pstat with
      currentQueue := update k.pstat.currentQueue pid t
      runtime := update k.pstat.runtime pid k.ticks
      numRun := update k.pstat.numRun pid 0 } }

/-- `p` enters queue `u`, and entry `i` of queue `t` is deleted. -/
def moveQueue (k : Kernel) (t u : Nat) (i : Int) (p : Slot) : Kernel :=
  deleteEntry (enterQueue k u p) t i

/-- The body of the starvation pass: `p` moves from queue `t` to queue `t - 1`.
The entry deleted from queue `t` is the one at index `p->pid`. -/
def promote (k : Kernel) (t : Nat) (p : Slot) : Kernel := moveQueue k t (t - 1) (k.proc p).pid p

/-- The allotment of `p` is used up: it moves from queue `t` to queue `t + 1`. -/
def demote (k : Kernel) (t i : Nat) (p : Slot) : Kernel := moveQueue k t (t + 1) i p

/-- Whether the starvation pass over queue `t` moves `p`. -/
def starving (k : Kernel) (t : Nat) (p : Slot) : Prop :=
  (k.proc p).state = .runnable ∧ k.pstat.currentQueue (k.proc p).pid = t ∧
    exceededTimedur ≤ k.ticks - k.pstat.runtime (k.proc p).pid

instance (k : Kernel) (t : Nat) (p : Slot) : Decidable (starving k t p) :=
  inferInstanceAs (Decidable (_ ∧ _ ∧ _))

/-- One slot of the starvation pass over queue `t`. -/
def starvePass (k : Kernel) (t : Nat) (p : Slot) : Kernel :=
  if (k.proc p).state ≠ .runnable then k
  else if starving k t p then (promote k t p).index (k.proc p).pid
  else k.index (k.proc p).pid

/-- Take entry `i` of queue `t`: skip it, or count the run and give it the CPU. -/
def takeEntry (k : Kernel) (t i : Nat) (next : SchedPc) (after : Slot → SchedPc) : SchedStep :=
  match k.qxj t i with
  | .null => .goto (k.index i) .wild
  | .past => .goto (k.index i) .wild
  | .proc p =>
    if (k.proc p).state ≠ .runnable then .goto (k.index i) next
    else
      let pid := (k.proc p).pid
      let k := (k.index i).index pid
      let k := { k with
        pstat := { k.pstat with numRun := update k.pstat.numRun pid (k.pstat.numRun pid + 1) } }
      .dispatch (k.setState p .running) p (after p)

/-- `pstat_var.ticks[p->pid][t] = pstat_var.num_run[p->pid]`. -/
def noteTicks (k : Kernel) (t : Nat) (p : Slot) : Kernel :=
  let pid := (k.proc p).pid
  let k := k.index pid
  { k with
    pstat := { k.pstat with
      ticks := update k.pstat.ticks pid (update (k.pstat.ticks pid) t (k.pstat.numRun pid)) } }

/-- After `swtch` in one of the first four queues. -/
def levelReturn (k : Kernel) (t i : Nat) (p : Slot) : Kernel :=
  let k := noteTicks k t p
  if k.pstat.numRun (k.proc p).pid = timedur t then demote k t i p else k

/-- After `swtch` in the last queue: `p` moves to its end. -/
def lastReturn (k : Kernel) (i : Nat) (p : Slot) : Kernel :=
  let k := noteTicks k 3 p
  { k with
    qxj := update k.qxj 4 (ShiftQueue.close (k.qxj 4) (k.cxj 4) i .null (.proc p))
    overrun := k.overrun || outside i || outside (k.cxj 4) }

/-- Where a scheduler call starts once it has the lock. -/
def entryPc : Build → SchedPc
  | .mlfq => .starve 1 0
  | _ => .scan 0

/-- One step of a scheduler that holds `ptable.lock`. -/
def schedStep (b : Build) (k : Kernel) : SchedPc → SchedStep
  | .idle => .finish k
  | .wild => .goto k .wild
  | .scan p =>
    match slotAt p with
    | none => .finish k
    | some p =>
      match b with
      | .pbs => priorityScheduler k p
      | .fcfs => fcfsScheduler k p
      | _ => defaultScheduler k p
  | .back p => .goto k (.scan (p + 1))
  | .starve t p =>
    if t < 5 then
      match slotAt p with
      | none => .goto k (.starve (t + 1) 0)
      | some q => .goto (starvePass k t q) (.starve t (p + 1))
    else .goto k (.level 0 0)
  | .level t i =>
    if t < 4 then
      if k.cxj t ≠ -1 ∧ (i : Int) ≤ k.cxj t then
        takeEntry k t i (.level t (i + 1)) (.levelBack t i)
      else .goto k (.level (t + 1) 0)
    else .goto k (.last 0)
  | .levelBack t i p => .goto (levelReturn k t i p) (.level t (i + 1))
  | .last i =>
    if k.cxj 4 ≠ -1 ∧ (i : Int) ≤ k.cxj 4 then
      takeEntry k 4 i (.last (i + 1)) (.lastBack i)
    else .finish k
  | .lastBack i p => .goto (lastReturn k i p) (.last (i + 1))

/-- The places after `swtch`, with the process that has switched back. -/
def returned : SchedPc → Option Slot
  | .back p => some p
  | .levelBack _ _ p => some p
  | .lastBack _ p => some p
  | _ => none

section Spec

variable {b : Build} {k k' : Kernel} {pc pc' : SchedPc} {p : Slot}

@[simp] theorem starvePass_proc (k : Kernel) (t : Nat) (p : Slot) :
    (starvePass k t p).proc = k.proc := by
  unfold starvePass
  split
  · rfl
  · split <;> rfl

@[simp] theorem levelReturn_proc (k : Kernel) (t i : Nat) (p : Slot) :
    (levelReturn k t i p).proc = k.proc := by
  unfold levelReturn
  simp only
  split <;> rfl

/-- A scheduler marks `p` RUNNING; the rest of the table is as it was. -/
structure Dispatched (k k' : Kernel) (p : Slot) (pc' : SchedPc) : Prop where
  runnable : (k.proc p).state = .runnable
  proc : k'.proc = update k.proc p { k.proc p with state := .running }
  initproc : k'.initproc = k.initproc
  nextpid : k'.nextpid = k.nextpid
  back : returned pc' = some p

theorem highP_runnable {κ μ : Type} [LT κ] [DecidableLT κ] [LinearOrder μ] (key : Proc → κ)
    {m : Slot → μ} (hm : ∀ a b, key (k.proc a) < key (k.proc b) ↔ m a < m b)
    (hp : (k.proc p).state = .runnable) : (k.proc (highP key k p)).state = .runnable :=
  (highP_spec key hm p hp).1

/-- The steps of a scheduler that stay inside it. -/
inductive Goto (k : Kernel) : SchedPc → Kernel → SchedPc → Prop where
  | scan (i j : Nat) : Goto k (.scan i) k (.scan j)
  | back (p : Slot) : Goto k (.back p) k (.scan (p + 1))
  | wild : Goto k .wild k .wild
  | starve (t : Nat) (p : Slot) (ht : t < 5) :
      Goto k (.starve t p) (starvePass k t p) (.starve t (p + 1))
  | starveNext (t p : Nat) (ht : t < 5) : Goto k (.starve t p) k (.starve (t + 1) 0)
  | starveEnd (t p : Nat) : Goto k (.starve t p) k (.level 0 0)
  | skip (t i : Nat) (ht : t < 4) (hi : (i : Int) ≤ k.cxj t) :
      Goto k (.level t i) (k.index i) (.level t (i + 1))
  | fault (t i : Nat) (ht : t < 4) (hi : (i : Int) ≤ k.cxj t) :
      Goto k (.level t i) (k.index i) .wild
  | levelNext (t i : Nat) (ht : t < 4) : Goto k (.level t i) k (.level (t + 1) 0)
  | levelEnd (t i : Nat) : Goto k (.level t i) k (.last 0)
  | levelBack (t i : Nat) (p : Slot) :
      Goto k (.levelBack t i p) (levelReturn k t i p) (.level t (i + 1))
  | lastSkip (i : Nat) (hi : (i : Int) ≤ k.cxj 4) :
      Goto k (.last i) (k.index i) (.last (i + 1))
  | lastFault (i : Nat) (hi : (i : Int) ≤ k.cxj 4) : Goto k (.last i) (k.index i) .wild
  | lastBack (i : Nat) (p : Slot) : Goto k (.lastBack i p) (lastReturn k i p) (.last (i + 1))

/-- Count a run of `p` and mark it RUNNING, as the MLFQ loops do. -/
def startRun (k : Kernel) (i : Nat) (p : Slot) : Kernel :=
  let pid := (k.proc p).pid
  let k := (k.index i).index pid
  ({ k with
    pstat :=
      { k.pstat with numRun := update k.pstat.numRun pid (k.pstat.numRun pid + 1) } }).setState
    p .running

/-- The calls of `swtch` of a scheduler. -/
inductive Dispatch (k : Kernel) : SchedPc → Kernel → Slot → SchedPc → Prop where
  | scan (i : Nat) (p : Slot) (r : Option Slot) (hp : (k.proc p).state = .runnable) :
      Dispatch k (.scan i) { k.setState p .running with runningP := r } p (.back p)
  | level (t i : Nat) (p : Slot) (ht : t < 4) (hi : (i : Int) ≤ k.cxj t)
      (hq : k.qxj t i = .proc p) (hp : (k.proc p).state = .runnable) :
      Dispatch k (.level t i) (startRun k i p) p (.levelBack t i p)
  | last (i : Nat) (p : Slot) (hi : (i : Int) ≤ k.cxj 4)
      (hq : k.qxj 4 i = .proc p) (hp : (k.proc p).state = .runnable) :
      Dispatch k (.last i) (startRun k i p) p (.lastBack i p)

theorem slotAt_eq_some {i : Nat} (h : slotAt i = some p) : i = p := by
  unfold slotAt at h
  split at h
  · rw [← Option.some.inj h]
  · cases h

/-- What a scan of the process table does with one slot. -/
theorem scanSlot_cases (b : Build) (k : Kernel) (p : Slot) (r : SchedStep)
    (h : (match b with
      | .pbs => priorityScheduler k p
      | .fcfs => fcfsScheduler k p
      | _ => defaultScheduler k p) = r) :
    (∃ j, r = .goto k (.scan j)) ∨
      ∃ q r', (k.proc q).state = .runnable ∧
        r = .dispatch { k.setState q .running with runningP := r' } q (.back q) := by
  subst h
  by_cases hp : (k.proc p).state = .runnable
  · have hprio := highP_runnable Proc.priority (m := fun p => (k.proc p).priority)
      (fun _ _ => Iff.rfl) hp
    have hctime := highP_runnable Proc.ctime (m := fun p => (k.proc p).ctime.toNat)
      (fun _ _ => UInt32.lt_iff_toNat_lt) hp
    cases b with
    | pbs => exact .inr ⟨_, k.runningP, hprio, by simp [priorityScheduler, hp]; rfl⟩
    | fcfs =>
      cases hm : fcfsMayRun k (highP Proc.ctime k p) with
      | true => exact .inr ⟨_, some _, hctime, by simp [fcfsScheduler, hp, hm]; rfl⟩
      | false => exact .inl ⟨_, by simp [fcfsScheduler, hp, hm]; rfl⟩
    | dflt | mlfq => exact .inr ⟨p, k.runningP, hp, by simp [defaultScheduler, hp]; rfl⟩
  · refine .inl ⟨p + 1, ?_⟩
    cases b <;> simp [defaultScheduler, priorityScheduler, fcfsScheduler, hp]

/-- What the MLFQ loops do with one entry. -/
theorem takeEntry_cases (k : Kernel) (t i : Nat) (next : SchedPc) (after : Slot → SchedPc) :
    takeEntry k t i next after = .goto (k.index i) next ∨
    takeEntry k t i next after = .goto (k.index i) .wild ∨
    ∃ p, k.qxj t i = .proc p ∧ (k.proc p).state = .runnable ∧
      takeEntry k t i next after = .dispatch (startRun k i p) p (after p) := by
  unfold takeEntry
  cases hq : k.qxj t i with
  | null => exact .inr (.inl rfl)
  | past => exact .inr (.inl rfl)
  | proc p =>
    by_cases hp : (k.proc p).state = .runnable
    · exact .inr (.inr ⟨p, rfl, hp, by simp [hp, startRun]⟩)
    · exact .inl (by simp [hp])

/-- Everything one step of a scheduler that holds the lock can do. -/
theorem schedStep_cases (b : Build) (k : Kernel) (pc : SchedPc) :
    (∃ k' pc', schedStep b k pc = .goto k' pc' ∧ Goto k pc k' pc') ∨
    (∃ k' p pc', schedStep b k pc = .dispatch k' p pc' ∧ Dispatch k pc k' p pc') ∨
    schedStep b k pc = .finish k := by
  cases pc with
  | idle => exact .inr (.inr rfl)
  | wild => exact .inl ⟨_, _, rfl, .wild⟩
  | back p => exact .inl ⟨_, _, rfl, .back p⟩
  | levelBack t i p => exact .inl ⟨_, _, rfl, .levelBack t i p⟩
  | lastBack i p => exact .inl ⟨_, _, rfl, .lastBack i p⟩
  | scan i =>
    cases hi : slotAt i with
    | none => exact .inr (.inr (by simp [schedStep, hi]))
    | some p =>
      rcases scanSlot_cases b k p _ rfl with ⟨j, h⟩ | ⟨q, r, hq, h⟩
      · exact .inl ⟨k, .scan j, by rw [← h]; simp only [schedStep, hi], .scan i j⟩
      · exact .inr (.inl ⟨_, q, .back q, by rw [← h]; simp only [schedStep, hi], .scan i q r hq⟩)
  | starve t i =>
    by_cases ht : t < 5
    · cases hi : slotAt i with
      | none => exact .inl ⟨_, _, by simp only [schedStep, ht, hi, if_true], .starveNext t i ht⟩
      | some p =>
        obtain rfl := slotAt_eq_some hi
        exact .inl ⟨_, _, by simp only [schedStep, ht, hi, if_true], .starve t p ht⟩
    · exact .inl ⟨_, _, by simp only [schedStep, ht, if_false], .starveEnd t i⟩
  | level t i =>
    by_cases ht : t < 4
    · by_cases hi : k.cxj t ≠ -1 ∧ (i : Int) ≤ k.cxj t
      · have he : schedStep b k (.level t i) =
            takeEntry k t i (.level t (i + 1)) (.levelBack t i) := by
          simp only [schedStep, ht, if_true, if_pos hi]
        rcases takeEntry_cases k t i (.level t (i + 1)) (.levelBack t i) with
          h | h | ⟨p, hq, hp, h⟩
        · exact .inl ⟨_, _, he.trans h, .skip t i ht hi.2⟩
        · exact .inl ⟨_, _, he.trans h, .fault t i ht hi.2⟩
        · exact .inr (.inl ⟨_, p, _, he.trans h, .level t i p ht hi.2 hq hp⟩)
      · exact .inl ⟨_, _, by simp only [schedStep, ht, if_true, if_neg hi], .levelNext t i ht⟩
    · exact .inl ⟨_, _, by simp only [schedStep, ht, if_false], .levelEnd t i⟩
  | last i =>
    by_cases hi : k.cxj 4 ≠ -1 ∧ (i : Int) ≤ k.cxj 4
    · have he : schedStep b k (.last i) = takeEntry k 4 i (.last (i + 1)) (.lastBack i) := by
        simp only [schedStep, if_pos hi]
      rcases takeEntry_cases k 4 i (.last (i + 1)) (.lastBack i) with h | h | ⟨p, hq, hp, h⟩
      · exact .inl ⟨_, _, he.trans h, .lastSkip i hi.2⟩
      · exact .inl ⟨_, _, he.trans h, .lastFault i hi.2⟩
      · exact .inr (.inl ⟨_, p, _, he.trans h, .last i p hi.2 hq hp⟩)
    · exact .inr (.inr (by simp only [schedStep, if_neg hi]))

/-- No step inside a scheduler touches the process table. -/
theorem Goto.proc (h : Goto k pc k' pc') : k'.proc = k.proc := by
  cases h <;> first | rfl | simp

theorem starvePass_globals (k : Kernel) (t : Nat) (p : Slot) :
    (starvePass k t p).initproc = k.initproc ∧ (starvePass k t p).nextpid = k.nextpid := by
  unfold starvePass
  split
  · exact ⟨rfl, rfl⟩
  · split <;> exact ⟨rfl, rfl⟩

theorem levelReturn_globals (k : Kernel) (t i : Nat) (p : Slot) :
    (levelReturn k t i p).initproc = k.initproc ∧ (levelReturn k t i p).nextpid = k.nextpid := by
  unfold levelReturn
  simp only
  split <;> exact ⟨rfl, rfl⟩

theorem Goto.globals (h : Goto k pc k' pc') :
    k'.initproc = k.initproc ∧ k'.nextpid = k.nextpid := by
  cases h with
  | starve t p ht => exact starvePass_globals k t p
  | levelBack t i p => exact levelReturn_globals k t i p
  | _ => exact ⟨rfl, rfl⟩

/-- A step inside a scheduler ends neither after a `swtch` nor without the lock. -/
theorem Goto.target (h : Goto k pc k' pc') : returned pc' = none ∧ pc' ≠ .idle := by
  cases h <;> exact ⟨rfl, by simp⟩

theorem returned_of_finish (h : schedStep b k pc = .finish k') : returned pc = none := by
  cases pc with
  | back p => cases h
  | levelBack t i p => cases h
  | lastBack i p => cases h
  | _ => rfl

theorem Dispatch.dispatched (h : Dispatch k pc k' p pc') : Dispatched k k' p pc' := by
  cases h with
  | scan _ _ _ hp | level _ _ _ _ _ _ hp | last _ _ _ _ hp => exact ⟨hp, rfl, rfl, rfl, rfl⟩

end Spec

end Xv6.Scheduler
