import Xv6.MlfqSteps

/-!
# Ticks reported to users

`getpinfo` copies what the scheduler has noted of a process when it last came back from a
queue. The history of a run says how often the process has been dispatched.
-/
namespace Xv6.MlfqTicks

open Function (update update_self update_of_ne)
open ProcTable Scheduler ProcSystem RunState StateChange SlotChange Parents MlfqSteps

/-! ## getpinfo -/

/-- The loops of `getpinfo`: what the user's structure `u` holds afterwards. -/
def getpinfo (k : Kernel) (u : ProcStat) : ProcStat :=
  let copy {α : Type} (f g : Int → α) : Int → α := fun i => if 0 ≤ i ∧ i < 64 then f i else g i
  { inuse := copy k.pstat.inuse u.inuse
    pid := copy k.pstat.pid u.pid
    runtime := copy k.pstat.runtime u.runtime
    numRun := copy k.pstat.numRun u.numRun
    currentQueue := copy k.pstat.currentQueue u.currentQueue
    ticks := copy (fun i j => if j < 4 then k.pstat.ticks i j else u.ticks i j) u.ticks }

/-! ## The history of a run -/

/-- What the scheduler does with a process: it puts it into a queue, dispatches it from a
queue's loop, and gets it back there. -/
inductive QueueEvent where
  | enter : (q : Nat) → QueueEvent
  | dispatch : (q : Nat) → QueueEvent
  | back : (q : Nat) → QueueEvent
  deriving DecidableEq, Repr

/-- For each pid what has happened to it, the latest first. -/
abbrev History := Int → List QueueEvent

namespace History

def empty : History := fun _ => []

def note (h : History) (pid : Int) (e : QueueEvent) : History := update h pid (e :: h pid)

/-- How often the process has been dispatched since it changed its queue. -/
def runs : List QueueEvent → Nat
  | [] => 0
  | .enter _ :: _ => 0
  | .dispatch _ :: l => runs l + 1
  | .back _ :: l => runs l

/-- How often it has been dispatched from queue `q` in its latest stay there. -/
def stay (q : Nat) : List QueueEvent → Nat
  | [] => 0
  | .enter t :: l => if t = q then 0 else stay q l
  | .dispatch t :: l => if t = q then stay q l + 1 else stay q l
  | .back _ :: l => stay q l

end History

/-- The queue whose loop continues at a place after `swtch`. -/
def queueOf : SchedPc → Option Nat
  | .levelBack t _ _ => some t
  | .lastBack _ _ => some 4
  | _ => none

/-- What a step of a scheduler does to the history. -/
def History.sched (b : Build) (h : History) (k : Kernel) (pc : SchedPc) : History :=
  match pc with
  | .starve t p =>
    match slotAt p with
    | some q => if t < 5 ∧ starving k t q then h.note (k.proc q).pid (.enter (t - 1)) else h
    | none => h
  | .levelBack t _ p =>
    let h := h.note (k.proc p).pid (.back t)
    if k.pstat.numRun (k.proc p).pid = timedur t then h.note (k.proc p).pid (.enter (t + 1)) else h
  | .lastBack _ p => h.note (k.proc p).pid (.back 4)
  | _ =>
    match schedStep b k pc with
    | .dispatch _ p pc' =>
      match queueOf pc' with
      | some q => h.note (k.proc p).pid (.dispatch q)
      | none => h
    | _ => h

variable {n : Nat} {b : Build} {s s' : System n} {c : Fin n} {a : Action}
  {h : History} {k k' : Kernel}

def record (b : Build) (s : System n) (h : History) : Fin n × Action → History
  | (c, .sched) => if (s.cpu c).run = none then h.sched b s.k (s.cpu c).pc else h
  | _ => h

/-- A step of the system, with its history. -/
def recorded (b : Build) (x : System n × History) (a : Fin n × Action) :
    Option (System n × History) :=
  (step b x.1 a).map fun s => (s, record b x.1 x.2 a)

/-! ## What the scheduler has noted -/

/-- The column of `ticks` that is written after a return from a queue. -/
def column (t : Nat) : Nat := if t = 4 then 3 else t

/-- What a column of `ticks` holds: the dispatches since the last change of queue, at the latest
return that has written it. -/
def noted (q : Nat) : List QueueEvent → Nat
  | [] => 0
  | .back t :: l => if column t = q then History.runs l else noted q l
  | .enter _ :: l => noted q l
  | .dispatch _ :: l => noted q l

theorem noted_eq_zero {q : Nat} {l : List QueueEvent} (h : ∀ t, column t = q → .back t ∉ l) :
    noted q l = 0 := by
  induction l with
  | nil => rfl
  | cons e l ih =>
    have hl : noted q l = 0 := ih fun t ht hm => h t ht (List.mem_cons_of_mem e hm)
    cases e with
    | back t => exact (if_neg fun ht => h t ht List.mem_cons_self).trans hl
    | enter t | dispatch t => exact hl

/-- The counters are those of the history. -/
structure Noted (k : Kernel) (h : History) : Prop where
  numRun : ∀ pid, k.pstat.numRun pid = History.runs (h pid)
  ticks : ∀ pid q, q < 4 → k.pstat.ticks pid q = noted q (h pid)
  fresh : ∀ pid, k.nextpid ≤ pid → ∀ t, .back t ∉ h pid

section

variable (hn : Noted k h)
include hn

theorem Noted.congr (hpstat : k'.pstat = k.pstat) (hnext : k.nextpid ≤ k'.nextpid) :
    Noted k' h := by
  refine ⟨fun pid => ?_, fun pid q hq => ?_, fun pid hpid => hn.fresh pid (hnext.trans hpid)⟩
  · rw [hpstat, hn.numRun]
  · rw [hpstat, hn.ticks pid q hq]

/-- A new process has a pid that has not been used. -/
theorem Noted.allocFound (p : Slot) : Noted (allocFound k p) h := by
  refine ⟨hn.numRun, fun pid q hq => ?_, fun pid hpid => hn.fresh pid ?_⟩
  · show update k.pstat.ticks k.nextpid
      (fun t => if t < 4 then 0 else k.pstat.ticks k.nextpid t) pid q = _
    by_cases hp : pid = k.nextpid
    · rw [hp, update_self, if_pos hq, noted_eq_zero fun t _ => hn.fresh _ le_rfl t]
      rfl
    · rw [update_of_ne hp, hn.ticks pid q hq]
  · have hle : k.nextpid + 1 ≤ pid := hpid
    omega

/-- An event of the process in slot `p` that the kernel counts as the history does. -/
theorem Noted.note {p : Slot} {e : QueueEvent} (hnext : k'.nextpid = k.nextpid)
    (hrun : k'.pstat.numRun =
      update k.pstat.numRun (k.proc p).pid (History.runs (e :: h (k.proc p).pid)))
    (hticks : ∀ pid q, q < 4 → k'.pstat.ticks pid q =
      if pid = (k.proc p).pid then (noted q (e :: h pid) : Int) else k.pstat.ticks pid q)
    (hback : ∀ t, e = .back t → (k.proc p).pid < k.nextpid) :
    Noted k' (h.note (k.proc p).pid e) := by
  have hlog : ∀ pid, h.note (k.proc p).pid e pid =
      if pid = (k.proc p).pid then e :: h pid else h pid := by
    intro pid
    by_cases hp : pid = (k.proc p).pid
    · rw [if_pos hp, hp, History.note, update_self]
    · rw [if_neg hp, History.note, update_of_ne hp]
  refine ⟨fun pid => ?_, fun pid q hq => ?_, fun pid hpid t => ?_⟩
  · rw [hrun, hlog]
    by_cases hp : pid = (k.proc p).pid
    · rw [if_pos hp, hp, update_self]
    · rw [if_neg hp, update_of_ne hp, hn.numRun]
  · rw [hticks pid q hq, hlog]
    split
    · rfl
    · exact hn.ticks pid q hq
  · rw [hnext] at hpid
    rw [hlog]
    split
    next hp =>
      intro ht
      rcases List.mem_cons.mp ht with he | ht
      · have hlt := hback t he.symm
        omega
      · exact hn.fresh pid hpid t ht
    next => exact hn.fresh pid hpid t

theorem Noted.enterQueue (t : Nat) (p : Slot) :
    Noted (enterQueue k t p) (h.note (k.proc p).pid (.enter t)) := by
  refine hn.note rfl rfl (fun pid q hq => ?_) (fun _ he => by cases he)
  split
  · exact hn.ticks pid q hq
  · rfl

theorem Noted.moveQueue (t u : Nat) (i : Int) (p : Slot) :
    Noted (moveQueue k t u i p) (h.note (k.proc p).pid (.enter u)) :=
  (hn.enterQueue u p).congr rfl le_rfl

theorem Noted.startRun (i t : Nat) (p : Slot) :
    Noted (startRun k i p) (h.note (k.proc p).pid (.dispatch t)) := by
  refine hn.note rfl ?_ (fun pid q hq => ?_) (fun _ he => by cases he)
  · show update k.pstat.numRun (k.proc p).pid (k.pstat.numRun (k.proc p).pid + 1) = _
    rw [hn.numRun]
    rfl
  · split
    · exact hn.ticks pid q hq
    · rfl

theorem Noted.noteTicks {t u : Nat} {p : Slot} (hu : column u = t) (hp : (k.proc p).pid < k.nextpid)
    : Noted (noteTicks k t p) (h.note (k.proc p).pid (.back u)) := by
  refine hn.note rfl ?_ (fun pid q hq => ?_) (fun _ _ => hp)
  · show k.pstat.numRun = _
    rw [show History.runs (.back u :: h (k.proc p).pid) = History.runs (h (k.proc p).pid) from rfl,
      ← hn.numRun, Function.update_eq_self]
  · show update k.pstat.ticks (k.proc p).pid
      (update (k.pstat.ticks (k.proc p).pid) t (k.pstat.numRun (k.proc p).pid)) pid q = _
    by_cases hpid : pid = (k.proc p).pid
    · rw [hpid, update_self, if_pos rfl, noted, hu, hn.numRun]
      by_cases htq : t = q
      · rw [htq, update_self, if_pos rfl]
      · rw [update_of_ne (Ne.symm htq), if_neg htq, hn.ticks _ q hq]
    · rw [update_of_ne hpid, if_neg hpid]

end

section Steps

variable {pc pc' : SchedPc} {p : Slot}

theorem Noted.starvePass (hn : Noted k h) {t : Nat} (ht : t < 5) (p : Slot) :
    Noted (starvePass k t p)
      (if t < 5 ∧ starving k t p then h.note (k.proc p).pid (.enter (t - 1)) else h) := by
  unfold Scheduler.starvePass
  by_cases hrun : (k.proc p).state ≠ .runnable
  · rw [if_pos hrun, if_neg fun hs => hrun hs.2.1]
    exact hn
  · rw [if_neg hrun]
    by_cases hs : starving k t p
    · rw [if_pos hs, if_pos ⟨ht, hs⟩]
      exact (hn.moveQueue t (t - 1) (k.proc p).pid p).congr rfl le_rfl
    · rw [if_neg hs, if_neg fun hc => hs hc.2]
      exact hn.congr rfl le_rfl

/-- A step inside a scheduler. -/
theorem Noted.goto (hn : Noted k h) (hstep : schedStep b k pc = .goto k' pc')
    (hback : ∀ p, returned pc = some p → (k.proc p).pid < k.nextpid)
    (hlevel : ∀ t i p, pc = .levelBack t i p → t < 4) : Noted k' (h.sched b k pc) := by
  cases pc with
  | starve t p =>
    rw [schedStep] at hstep
    split at hstep
    next ht =>
      split at hstep
      next hp =>
        obtain ⟨rfl, -⟩ := SchedStep.goto.inj hstep
        rw [History.sched, hp]
        exact hn
      next q hp =>
        obtain ⟨rfl, -⟩ := SchedStep.goto.inj hstep
        rw [History.sched, hp]
        exact hn.starvePass ht q
    next ht =>
      obtain ⟨rfl, -⟩ := SchedStep.goto.inj hstep
      rw [History.sched]
      split
      · rw [if_neg fun hc => ht hc.1]
        exact hn
      · exact hn
  | levelBack t i p =>
    obtain ⟨rfl, -⟩ := SchedStep.goto.inj hstep
    have hnote :=
      hn.noteTicks (t := t) (u := t) (p := p) (if_neg (hlevel t i p rfl).ne) (hback p rfl)
    rw [History.sched, levelReturn]
    by_cases hfull : k.pstat.numRun (k.proc p).pid = timedur t
    · rw [if_pos hfull, if_pos (by exact hfull)]
      exact hnote.moveQueue t (t + 1) i p
    · rw [if_neg hfull, if_neg (by exact hfull)]
      exact hnote
  | lastBack i p =>
    obtain ⟨rfl, -⟩ := SchedStep.goto.inj hstep
    exact (hn.noteTicks (t := 3) (u := 4) rfl (hback p rfl)).congr rfl le_rfl
  | idle | scan i | back p | level t i | last i | wild =>
    have hsame : k'.pstat = k.pstat ∧ k'.nextpid = k.nextpid := by
      cases goto_of_step hstep <;> exact ⟨rfl, rfl⟩
    simp only [History.sched, hstep]
    exact hn.congr hsame.1 hsame.2.ge

/-- A dispatch is counted, both by the scheduler and by the history. -/
theorem Noted.dispatch (hn : Noted k h) (hstep : schedStep b k pc = .dispatch k' p pc') :
    Noted k' (h.sched b k pc) := by
  cases dispatch_of_step hstep with
  | scan i p r hp =>
    simp only [History.sched, hstep, queueOf]
    exact hn.congr rfl le_rfl
  | level t i p ht hi hq hp =>
    simp only [History.sched, hstep, queueOf]
    exact hn.startRun i t p
  | last i p hi hq hp =>
    simp only [History.sched, hstep, queueOf]
    exact hn.startRun i 4 p

theorem Noted.finish (hn : Noted k h) (hstep : schedStep b k pc = .finish k') :
    Noted k' (h.sched b k pc) := by
  have hk : k' = k := by
    rcases schedStep_cases b k pc with ⟨_, _, he, -⟩ | ⟨_, _, _, he, -⟩ | he
    · cases hstep.symm.trans he
    · cases hstep.symm.trans he
    · exact SchedStep.finish.inj (hstep.symm.trans he)
  cases pc with
  | starve t p =>
    rw [schedStep] at hstep
    split at hstep
    · split at hstep <;> cases hstep
    · cases hstep
  | levelBack t i p | lastBack i p => cases hstep
  | idle | scan i | back p | level t i | last i | wild =>
    simp only [History.sched, hstep, hk]
    exact hn

end Steps

theorem nextpid_le (hs : step b s (c, a) = some s') : s.k.nextpid ≤ s'.k.nextpid := by
  rcases step_cases hs with ⟨-, -, hsched⟩ | ⟨stray, -, hk, -⟩ | ⟨-, hcalm⟩
  · cases hsched with
    | acquire _ hk => rw [hk]
    | goto _ hstep => exact (goto_of_step hstep).globals.2.ge
    | dispatch _ hstep => exact (dispatch_of_step hstep).dispatched.nextpid.ge
    | finish _ hstep => rw [finish_of_step hstep]
  · rw [hk]
    cases hfound : (allocproc s.k stray).2 with
    | none => exact (congrArg Kernel.nextpid (allocproc_none hfound).2).ge
    | some np =>
      rw [(allocproc_some hfound).2]
      exact Int.le_add_one le_rfl
  · exact hcalm.nextpid.ge

theorem level_lt {pc : SchedPc} {p q : Slot} {t i : Nat}
    (hd : Dispatch k pc k' p (.levelBack t i q)) : t < 4 := by
  cases hd with
  | level _ _ _ ht _ _ _ => exact ht

/-- The loop of a queue after `swtch` is one of the first four. -/
def LevelOk (s : System n) : Prop := ∀ c t i p, (s.cpu c).pc = .levelBack t i p → t < 4

theorem LevelOk.step (hl : LevelOk s) (hs : step b s (c, a) = some s') : LevelOk s' := by
  intro d
  refine step_pcs (P := fun pc => ∀ t i p, pc = .levelBack t i p → t < 4) hs hl ?_ ?_ ?_ ?_ d
  · rintro t i p ⟨⟩
  · intro t i p he
    cases b <;> cases he
  · rintro - - k pc hg t i p rfl
    cases hg.target.1
  · rintro k q pc hd t i p rfl
    exact level_lt hd

/-- While pids below 64 are given out, every step keeps the counters and the history in line. -/
theorem Noted.step (hn : Noted s.k h) (hs : step b s (c, a) = some s') (hw : Wf s) (hback : Back s)
    (hf : Family.Inv 0 (family s)) (hlevel : LevelOk s) (hpid : s.k.nextpid ≤ 64) :
    Noted s'.k (record b s h (c, a)) := by
  rcases step_cases hs with ⟨rfl, hrun, hsched⟩ | ⟨stray, rfl, hk, -⟩ | ⟨ha, hcalm⟩
  · have hbound : ∀ p, returned (s.cpu c).pc = some p →
        (s.k.proc p).pid < s.k.nextpid := fun p hp =>
      (IndexBounds.pidsOk hf p (hback c p hrun ((hw.sched c hrun).trans hp)).1).2
    rw [record, if_pos hrun]
    cases hsched with
    | acquire hpc hk hcpu =>
      rw [hpc, hk]
      exact hn
    | goto hpc hstep hrun' hother => exact hn.goto hstep hbound (hlevel c)
    | dispatch hpc hstep hrun' hother => exact hn.dispatch hstep
    | finish hpc hstep hcpu => exact hn.finish hstep
  · obtain ⟨np, hfound⟩ := IndexBounds.allocproc_found hf hpid stray
    rw [hk, (allocproc_some hfound).2]
    exact hn.allocFound np
  · have hsame : record b s h (c, a) = h := by
      cases a with
      | sched => exact absurd rfl ha.1
      | _ => rfl
    rw [hsame]
    exact hn.congr hcalm.pstat hcalm.nextpid.ge

/-! ## The report -/

variable {x : System n × History}

theorem recorded_fst (x : System n × History) (a : Fin n × Action) :
    (recorded b x a).map Prod.fst = step b x.1 a := by
  simp [recorded, Function.comp_def]

theorem noted_boot : Noted boot .empty :=
  have hzero : Noted zeroed .empty :=
    ⟨fun _ => rfl, fun _ _ _ => rfl, fun _ _ _ => List.not_mem_nil⟩
  (hzero.allocFound 0).congr rfl le_rfl

theorem noted_reachable (hr : Runs.Reachable (recorded b) (bootSystem n, .empty) x)
    (hpid : x.1.k.nextpid ≤ 64) :
    Noted x.1.k x.2 := by
  have hlevel : LevelOk (bootSystem n) := fun _ _ _ _ hpc => SchedPc.noConfusion hpc
  have hinv : LevelOk x.1 ∧ (x.1.k.nextpid ≤ 64 → Noted x.1.k x.2) :=
    hr.invariant_of (P := fun x => LevelOk x.1 ∧ (x.1.k.nextpid ≤ 64 → Noted x.1.k x.2))
      (Q := fun x => Wf x.1 ∧ Back x.1 ∧ Family.Inv 0 (family x.1))
      (fun _ hy => IndexBounds.sound_reaches (hy.forget Prod.fst recorded_fst))
      ⟨hlevel, fun _ => noted_boot⟩ fun y a z hq hy _ hs => by
        obtain ⟨s', hstep, rfl⟩ := Option.map_eq_some_iff.mp hs
        refine ⟨hy.1.step hstep, fun hz => ?_⟩
        have hle := (nextpid_le hstep).trans hz
        exact (hy.2 hle).step hstep hq.1 hq.2.1 hq.2.2 hy.1 hle
  exact hinv.2 hpid

/-- Since the process last changed its queue it has been dispatched from `q` only, and the
change was into `q`. -/
def Within (q : Nat) : List QueueEvent → Prop
  | [] => True
  | .enter t :: _ => t = q
  | .dispatch t :: l => t = q ∧ Within q l
  | .back _ :: l => Within q l

/-- The process has not been dispatched from queue `q` since it last came back from there. It has
not entered `q` since either, but for a first time, and where queue 4 shares the column it has
not come back from queue 4. -/
def Settled (q : Nat) : List QueueEvent → Prop
  | [] => True
  | .enter t :: l => if t = q then .back q ∉ l ∧ (q = 3 → .back 4 ∉ l) else Settled q l
  | .dispatch t :: l => t ≠ q ∧ Settled q l
  | .back t :: l => if t = q then Within q l else (q = 3 → t ≠ 4) ∧ Settled q l

theorem runs_of_within {q : Nat} {l : List QueueEvent} (h : Within q l) :
    History.runs l = History.stay q l := by
  induction l with
  | nil => rfl
  | cons e l ih =>
    cases e with
    | enter t => exact (if_pos h).symm
    | dispatch t =>
      show History.runs l + 1 = if t = q then History.stay q l + 1 else History.stay q l
      rw [if_pos h.1, ih h.2]
    | back t => exact ih h

/-- The scheduler's count is right for a queue that is settled. -/
theorem noted_of_settled {q : Nat} {l : List QueueEvent} (h : Settled q l) (hq : q < 4) :
    noted q l = History.stay q l := by
  have hcolumn : ∀ t, column t = q → t = q ∨ q = 3 ∧ t = 4 := by
    intro t ht
    unfold column at ht
    split at ht <;> omega
  induction l with
  | nil => rfl
  | cons e l ih =>
    cases e with
    | enter t =>
      rw [Settled] at h
      rw [noted, History.stay]
      split at h
      next ht =>
        rw [if_pos ht]
        refine noted_eq_zero fun u hu => ?_
        rcases hcolumn u hu with rfl | ⟨h3, rfl⟩
        · exact h.1
        · exact h.2 h3
      next ht =>
        rw [if_neg ht]
        exact ih h
    | dispatch t =>
      rw [noted, History.stay, if_neg h.1]
      exact ih h.2
    | back t =>
      rw [Settled] at h
      rw [noted, History.stay]
      split at h
      next ht =>
        rw [ht, if_pos (show column q = q by unfold column; split <;> omega)]
        exact runs_of_within h
      next ht =>
        rw [if_neg fun hc => (hcolumn t hc).elim ht fun h34 => h.1 h34.1 h34.2]
        exact ih h.2

/-- The condition on a column: the queue is settled. The last column is never copied; there the
caller must have cleared it, and the process not have run from queue 4 in its latest stay. -/
def Accurate (h : History) (u : ProcStat) (pid : Int) (q : Nat) : Prop :=
  if q = 4 then u.ticks pid 4 = 0 ∧ .dispatch 4 ∉ (h pid).takeWhile (· ≠ .enter 4)
  else Settled q (h pid)

theorem stay_eq_zero {q : Nat} {l : List QueueEvent}
    (h : .dispatch q ∉ l.takeWhile (· ≠ .enter q)) : History.stay q l = 0 := by
  induction l with
  | nil => rfl
  | cons e l ih =>
    by_cases he : e = .enter q
    · rw [he, History.stay, if_pos rfl]
    · rw [List.takeWhile_cons_of_pos (by simpa using he), List.mem_cons, not_or] at h
      cases e with
      | enter t =>
        rw [History.stay, if_neg fun ht => he (congrArg _ ht)]
        exact ih h.2
      | dispatch t =>
        rw [History.stay, if_neg fun ht => h.1 (congrArg _ ht.symm)]
        exact ih h.2
      | back t => exact ih h.2

/-- In every run with pids below 64, the number that `getpinfo` reports for a process and a queue
is that of its latest stay there, where the condition holds. -/
theorem reported_ticks (hr : Runs.Reachable (recorded .mlfq) (bootSystem n, .empty) x)
    (hnext : x.1.k.nextpid ≤ 64) (u : ProcStat) (pid : Int) (hpid : 0 ≤ pid ∧ pid < 64) (q : Nat)
    (hq : q < 5) (hacc : Accurate x.2 u pid q) :
    (getpinfo x.1.k u).ticks pid q = History.stay q (x.2 pid) := by
  have hrow : (getpinfo x.1.k u).ticks pid q =
      if q < 4 then x.1.k.pstat.ticks pid q else u.ticks pid q := by
    simp only [getpinfo, if_pos hpid]
  rw [hrow]
  unfold Accurate at hacc
  split at hacc
  next h4 =>
    rw [if_neg (by omega), h4, hacc.1, stay_eq_zero hacc.2]
    rfl
  next h4 =>
    rw [if_pos (by omega), (noted_reachable hr hnext).ticks pid q (by omega),
      noted_of_settled hacc (by omega)]

instance decidableWithin (q : Nat) : (l : List QueueEvent) → Decidable (Within q l)
  | [] => .isTrue trivial
  | .enter t :: _ => inferInstanceAs (Decidable (t = q))
  | .dispatch t :: l =>
    have := decidableWithin q l
    inferInstanceAs (Decidable (t = q ∧ Within q l))
  | .back _ :: l => decidableWithin q l

instance decidableSettled (q : Nat) : (l : List QueueEvent) → Decidable (Settled q l)
  | [] => .isTrue trivial
  | .enter t :: l =>
    have := decidableSettled q l
    inferInstanceAs (Decidable (if t = q then .back q ∉ l ∧ (q = 3 → .back 4 ∉ l) else Settled q l))
  | .dispatch t :: l =>
    have := decidableSettled q l
    inferInstanceAs (Decidable (t ≠ q ∧ Settled q l))
  | .back t :: l =>
    have := decidableSettled q l
    inferInstanceAs (Decidable (if t = q then Within q l else (q = 3 → t ≠ 4) ∧ Settled q l))

/-- CPU 0 makes its first pass, and init is dispatched from queue 0. -/
def firstDispatch : List (Fin 1 × Action) := MlfqQueues.schedulerCall ++ [(0, .resume)]

/-- A structure in user memory, as `malloc` gives it. -/
def userStat : ProcStat where
  inuse _ := 0
  pid _ := 0
  runtime _ := 0
  numRun _ := 0
  currentQueue _ := 0
  ticks _ _ := 7

/-- Init forks a child and yields, and the child is dispatched. -/
def childRuns : List (Fin 1 × Action) :=
  firstDispatch ++ forking ++
    [(0, .forkDone), (0, .yield), (0, .sched), (0, .sched), (0, .resume)]

/-- The child is told that init has run once from queue 0, and it has. -/
theorem reported_ticks_child : ∃ x : System 1 × History, (x.1.cpu 0).run = some 1 ∧
    History.stay 0 (x.2 1) = 1 ∧ (getpinfo x.1.k userStat).ticks 1 0 = 1 := by
  obtain ⟨x, hr, hrun, hnext, hset, hstay⟩ : ∃ x : System 1 × History,
      Runs.Reachable (recorded .mlfq) (bootSystem 1, .empty) x ∧ (x.1.cpu 0).run = some 1 ∧
        x.1.k.nextpid ≤ 64 ∧ Settled 0 (x.2 1) ∧ History.stay 0 (x.2 1) = 1 :=
    Runs.exists_of_exec (l := childRuns) (by decide +kernel)
  have hticks := reported_ticks hr hnext userStat 1 (by decide) 0 (by decide) hset
  rw [hstay] at hticks
  exact ⟨x, hrun, hstay, hticks⟩

/-- In its first time slice init has been dispatched once from queue 0 and never from queue 4, and
`getpinfo` reports 0 and what was in the user's memory. -/
theorem reported_ticks_differ :
    (Runs.exec (recorded .mlfq) firstDispatch (bootSystem 1, .empty)).map (fun x =>
      ((x.1.cpu 0).run, x.1.k.nextpid,
        ((getpinfo x.1.k userStat).ticks 1 0, History.stay 0 (x.2 1)),
        ((getpinfo x.1.k userStat).ticks 1 4, History.stay 4 (x.2 1)))) =
      some (some 0, 2, (0, 1), (7, 0)) := by
  decide +kernel

end Xv6.MlfqTicks
