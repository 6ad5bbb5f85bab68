import Xv6.MlfqSteps

/-!
# The last queue of the MLFQ scheduler

The loop over queue 4 moves the process that it has run to the end of the queue and
goes on at the next index, so the process that has slipped into the freed place is
passed over. With two or more processes somebody is never run.
-/
namespace Xv6.MlfqRotation

open Function (update)
open ProcTable Scheduler ProcSystem SlotChange MlfqSteps
open MlfqPromotion (holds_lineUp)
open ShiftQueue (Holds)
open Runs (Traces)

section Rotation

variable {α : Type}

/-- The queue after `i` iterations that each find a process ready. -/
def queueAfter (l : List α) : Nat → List α
  | 0 => l
  | i + 1 => (queueAfter l i).eraseIdx i ++ ((queueAfter l i)[i]?).toList

/-- The processes that these iterations run. -/
def ranIn (l : List α) : Nat → List α
  | 0 => []
  | i + 1 => ranIn l i ++ ((queueAfter l i)[i]?).toList

theorem queueAfter_perm (l : List α) (i : Nat) : (queueAfter l i).Perm l := by
  induction i with
  | zero => exact .refl l
  | succ i ih =>
    refine List.Perm.trans ?_ ih
    rw [queueAfter]
    exact List.perm_append_comm.trans (ShiftQueue.eraseIdx_perm _ i)

theorem length_queueAfter (l : List α) (i : Nat) : (queueAfter l i).length = l.length :=
  (queueAfter_perm l i).length_eq

/-- The second process of the queue is the first from the first iteration on. -/
theorem queueAfter_head (x y : α) (l : List α) (i : Nat) :
    (queueAfter (x :: y :: l) (i + 1))[0]? = some y := by
  induction i with
  | zero => simp [queueAfter]
  | succ i ih =>
    have hlen := length_queueAfter (x :: y :: l) (i + 1)
    rw [queueAfter, List.getElem?_append_left, List.getElem?_eraseIdx_of_lt (by omega), ih]
    rw [List.length_eraseIdx]
    simp only [List.length_cons] at hlen
    split <;> omega

/-- It is not run. -/
theorem not_mem_ranIn {x y : α} {l : List α} (h : (x :: y :: l).Nodup) (i : Nat) :
    y ∉ ranIn (x :: y :: l) i := by
  induction i with
  | zero => simp [ranIn]
  | succ i ih =>
    rw [ranIn, List.mem_append, not_or]
    refine ⟨ih, fun hy => ?_⟩
    have hat : (queueAfter (x :: y :: l) i)[i]? = some y := by simpa using hy
    cases i with
    | zero =>
      have hxy : x = y := by simpa [queueAfter] using hat
      simp [hxy] at h
    | succ i =>
      obtain ⟨hlt, he⟩ := List.getElem?_eq_some_iff.mp hat
      obtain ⟨hlt', he'⟩ := List.getElem?_eq_some_iff.mp (queueAfter_head x y l i)
      have hnd := (queueAfter_perm (x :: y :: l) (i + 1)).nodup_iff.mpr h
      have := hnd.getElem_inj_iff.mp (he.trans he'.symm)
      omega

/-- Everybody is run in order exactly if there is at most one process. -/
theorem ranIn_eq_iff {l : List α} (h : l.Nodup) : ranIn l l.length = l ↔ l.length ≤ 1 := by
  match l with
  | [] => simp [ranIn]
  | [x] => simp [ranIn, queueAfter]
  | x :: y :: l =>
    refine ⟨fun he => absurd ?_ (not_mem_ranIn h (x :: y :: l).length), fun hl => ?_⟩
    · rw [he]
      simp
    · simp at hl

end Rotation

variable {n : Nat} {b : Build} {s s' : System n} {c : Fin n}

/-- CPU `c` is in the loop over the last queue. -/
def InLoop : SchedPc → Bool
  | .last _ => true
  | .lastBack _ _ => true
  | _ => false

/-- The scheduler of CPU `c` is in its loop, and at each test of the loop all processes
of the queue are RUNNABLE. -/
def Sliced (c : Fin n) (s : System n) (x : Fin n × Action) : Prop :=
  x = (c, .sched) → InLoop (s.cpu c).pc = true ∧
    (returned (s.cpu c).pc = none →
      ∀ j, j < (s.k.cxj 4 + 1).toNat → ready s.k (s.k.qxj 4 j) = true)

instance (c : Fin n) (s : System n) (x : Fin n × Action) : Decidable (Sliced c s x) :=
  inferInstanceAs (Decidable (_ → _ ∧ (_ → ∀ j, j < _ → _)))

/-- The steps of one execution of the loop. What other CPUs do leaves the queue alone. -/
def OneLoop (b : Build) (c : Fin n) (s : System n) (x : Fin n × Action) : Prop :=
  Sliced c s x ∧ (x.1 ≠ c → ∀ s', step b s x = some s' →
    s'.k.qxj 4 = s.k.qxj 4 ∧ s'.k.cxj 4 = s.k.cxj 4)

/-- Where CPU `c` is after `i` iterations, with the processes it has run. -/
inductive At (L ran : List Slot) (i : Nat) (x : Cpu) : Prop where
  | test (hrun : x.run = none) (hpc : x.pc = .last i) (h : ran = ranIn L i)
  | back {p : Slot} (hpc : x.pc = .lastBack i p) (hp : (queueAfter L i)[i]? = some p)
      (h : ran = ranIn L i ++ [p])
  | done (hrun : x.run = none) (hpc : x.pc = .idle) (hi : i = L.length) (h : ran = ranIn L i)

structure Turn (c : Fin n) (L ran : List Slot) (i : Nat) (s : System n) : Prop where
  le : i ≤ L.length
  holds : Holds (s.k.qxj 4) (s.k.cxj 4) ((queueAfter L i).map .proc)
  place : At L ran i (s.cpu c)

section Step

variable {L ran : List Slot} {i : Nat}

/-- A step that leaves the queue alone and the loop where it was. -/
theorem Turn.keep (h : Turn c L ran i s) (hqxj : s'.k.qxj 4 = s.k.qxj 4)
    (hcxj : s'.k.cxj 4 = s.k.cxj 4) (hpc : (s'.cpu c).pc = (s.cpu c).pc)
    (hsw : switched c s s' = none) : Turn c L (ran ++ (switched c s s').toList) i s' := by
  rw [hsw, Option.toList_none, List.append_nil]
  have hstay : (s.cpu c).run = none → (s'.cpu c).run = none := by
    intro hr
    simpa [switched, hr] using hsw
  refine ⟨h.le, by rw [hqxj, hcxj]; exact h.holds, ?_⟩
  cases h.place with
  | test hrun hpc' hr => exact .test (hstay hrun) (hpc.trans hpc') hr
  | back hpc' hp hr => exact .back (hpc.trans hpc') hp hr
  | done hrun hpc' hi hr => exact .done (hstay hrun) (hpc.trans hpc') hi hr

/-- At a test, the process at the index of the loop is run or, past the end, the loop
is left. -/
theorem Turn.test (h : Turn c L ran i s) (hpc : (s.cpu c).pc = .last i)
    (hready : ∀ j, j < (s.k.cxj 4 + 1).toNat → ready s.k (s.k.qxj 4 j) = true) :
    (∃ p, (queueAfter L i)[i]? = some p ∧
      schedStep b s.k (s.cpu c).pc = .dispatch (startRun s.k i p) p (.lastBack i p)) ∨
    i = L.length ∧ schedStep b s.k (s.cpu c).pc = .finish s.k := by
  have hlast := h.holds.last_eq
  rw [List.length_map, length_queueAfter] at hlast
  rw [hpc]
  by_cases hi : i < L.length
  · have hi' : i < (queueAfter L i).length := by rwa [length_queueAfter]
    refine .inl ⟨(queueAfter L i)[i], List.getElem?_eq_getElem hi', ?_⟩
    have hentry : s.k.qxj 4 i = .proc (queueAfter L i)[i] := by
      rw [h.holds.cell i (by simpa using hi'), List.getElem_map]
    have hrun : (s.k.proc (queueAfter L i)[i]).state = .runnable := by
      have := hready i (by omega)
      rw [hentry] at this
      simpa [ready] using this
    have hin : s.k.cxj 4 ≠ -1 ∧ (i : Int) ≤ s.k.cxj 4 := by omega
    rw [schedStep, if_pos hin, takeEntry_runnable hentry hrun]
  · have hle := h.le
    have hout : ¬ (s.k.cxj 4 ≠ -1 ∧ (i : Int) ≤ s.k.cxj 4) := by omega
    refine .inr ⟨by omega, ?_⟩
    rw [schedStep, if_neg hout]

/-- A step of the loop itself. -/
theorem Turn.sched (h : Turn c L ran i s) (hrun : (s.cpu c).run = none) (hs : Sched b s c s')
    (hok : Sliced c s (c, .sched)) :
    ∃ j, Turn c L (ran ++ (switched c s s').toList) j s' := by
  obtain ⟨hin, hready⟩ := hok rfl
  have hne : (s.cpu c).pc ≠ .idle := by
    intro he
    rw [he] at hin
    cases hin
  cases h.place with
  | done hrun' hpc hi hr => exact absurd hpc hne
  | back hpc hp hr =>
    rename_i p
    have hstep : schedStep b s.k (s.cpu c).pc = .goto (lastReturn s.k i p) (.last (i + 1)) := by
      rw [hpc]
      rfl
    obtain ⟨hk, hpc', hnone⟩ := hs.of_goto hne hstep
    obtain ⟨hlt, hget⟩ := List.getElem?_eq_some_iff.mp hp
    have hlen := length_queueAfter L i
    refine ⟨i + 1, by omega, ?_, .test hnone hpc' ?_⟩
    · rw [← hk]
      show Holds (update s.k.qxj 4
        (ShiftQueue.close (s.k.qxj 4) (s.k.cxj 4) i .null (.proc p)) 4) (s.k.cxj 4) _
      rw [Function.update_self]
      have := h.holds.rotate (i := i) (by simpa using hlt) .null (.proc p)
      simpa [queueAfter, hp, List.eraseIdx_map] using this
    · simp [switched, hrun, hnone, ranIn, hp, hr]
  | test hrun' hpc hr =>
    have hready' := hready (by rw [hpc]; rfl)
    rcases h.test (b := b) hpc hready' with ⟨p, hp, hstep⟩ | ⟨hi, hstep⟩
    · obtain ⟨hk, hpc', hsome⟩ := hs.of_dispatch hne hstep
      refine ⟨i, h.le, ?_, .back hpc' hp ?_⟩
      · rw [← hk]
        exact h.holds
      · simp [switched, hrun, hsome, hr]
    · cases hs with
      | acquire hpc' => exact absurd hpc' hne
      | goto _ he => rw [hstep] at he; cases he
      | dispatch _ he => rw [hstep] at he; cases he
      | finish _ he hcpu =>
        rw [hstep] at he
        have hk := SchedStep.finish.inj he
        refine ⟨i, h.le, by rw [← hk]; exact h.holds, .done ?_ ?_ hi ?_⟩
        · simp [hcpu, hrun]
        · simp [hcpu]
        · simp [switched, hrun, hcpu, hr]

/-- Every step of the execution. -/
theorem Turn.step {x : Fin n × Action} (h : Turn c L ran i s) (hok : OneLoop b c s x)
    (hs : ProcSystem.step b s x = some s') :
    ∃ j, Turn c L (ran ++ (switched c s s').toList) j s' := by
  obtain ⟨d, a⟩ := x
  rcases step_cases hs with ⟨rfl, hrun, hsched⟩ | ⟨stray, rfl, hk, hcpu⟩ | ⟨-, hcalm⟩
  · by_cases hd : d = c
    · subst hd
      exact h.sched hrun hsched hok.1
    · obtain ⟨hqxj, hcxj⟩ := hok.2 hd s' hs
      have hcpu : s'.cpu c = s.cpu c := by
        cases hsched with
        | acquire _ _ hcpu => rw [hcpu, Function.update_of_ne (Ne.symm hd)]
        | goto _ _ _ hother => exact hother c (Ne.symm hd)
        | dispatch _ _ _ hother => exact hother c (Ne.symm hd)
        | finish _ _ hcpu => rw [hcpu, Function.update_of_ne (Ne.symm hd)]
      exact ⟨i, h.keep hqxj hcxj (by rw [hcpu]) (by simp [switched, hcpu])⟩
  · obtain ⟨e, hcxj, hqxj⟩ := allocproc_queues s.k stray
    refine ⟨i, h.keep ?_ ?_ (by rw [hcpu]) (by simp [switched, hcpu])⟩
    · rw [hk, hqxj, Function.update_of_ne (by omega)]
    · rw [hk, hcxj, Function.update_of_ne (by omega)]
  · exact ⟨i,
      h.keep (by rw [hcalm.qxj]) (by rw [hcalm.cxj]) (hcalm.pc c) (switched_eq_none (hcalm.run c))⟩

end Step

/-- One execution of the last-queue loop, over a queue of different processes that are
RUNNABLE at each test of the loop, runs each of them once and in order, and leaves a
permutation of the queue, if and only if there is at most one process. -/
theorem last_queue_round_robin_iff {L ran : List Slot} (hrun : (s.cpu c).run = none)
    (hpc : (s.cpu c).pc = .last 0) (hq : Holds (s.k.qxj 4) (s.k.cxj 4) (L.map .proc))
    (hnodup : L.Nodup) (htrace : Traces (step b) (OneLoop b c) (switched c) s ran s')
    (hend : (s'.cpu c).pc = .idle) :
    (ran = L ∧ ∃ L' : List Slot, Holds (s'.k.qxj 4) (s'.k.cxj 4) (L'.map .proc) ∧ L'.Perm L) ↔
      L.length ≤ 1 := by
  have hstart : Turn c L [] 0 s := ⟨Nat.zero_le _, hq, .test hrun hpc rfl⟩
  obtain ⟨i, hturn⟩ := htrace.invariant (P := fun l t => ∃ i, Turn c L l i t) ⟨0, hstart⟩
    fun l t a u ⟨i, h⟩ hok hs => h.step hok hs
  have hran : ran = ranIn L L.length := by
    cases hturn.place with
    | test _ hpc' => rw [hend] at hpc'; cases hpc'
    | back hpc' => rw [hend] at hpc'; cases hpc'
    | done _ _ hi hr => rw [hr, hi]
  rw [← ranIn_eq_iff hnodup, hran]
  exact ⟨fun h => h.1, fun h => ⟨h, _, hturn.holds, queueAfter_perm L i⟩⟩

/-- One CPU at the loop over the last queue. -/
abbrev atLast (order : List Slot) : System 1 := atLine 4 order (fun _ => 0) (.last 0)

/-- `m` processes use their slices and yield. -/
def slices (m : Nat) : List (Fin 1 × Action) :=
  (List.replicate m [(0, .sched), (0, .resume), (0, .yield), (0, .sched)]).flatten ++ [(0, .sched)]

/-- On one CPU nobody else touches the queue. -/
theorem traces_one {s s' : System 1} {ran : List Slot}
    (h : Traces (step .mlfq) (Sliced 0) (switched 0) s ran s') :
    Traces (step .mlfq) (OneLoop .mlfq 0) (switched 0) s ran s' :=
  h.weaken fun _ x hx => ⟨hx, fun hne => absurd (Subsingleton.elim x.1 0) hne⟩

/-- A process that is alone in the queue is run once. -/
theorem last_queue_round_robin_one : ∃ s' : System 1,
    Traces (step .mlfq) (OneLoop .mlfq 0) (switched 0) (atLast [0]) [0] s' ∧
      ∃ L' : List Slot, Holds (s'.k.qxj 4) (s'.k.cxj 4) (L'.map .proc) ∧ L'.Perm [0] := by
  have hexec : (Runs.execTrace (step .mlfq) (Sliced 0) (switched 0) (slices 1) (atLast [0])).map
      (fun x => (x.1, (x.2.cpu 0).pc)) = some ([0], .idle) := by
    decide +kernel
  obtain ⟨⟨ran, s'⟩, hs, he⟩ := Option.map_eq_some_iff.mp hexec
  obtain ⟨rfl, hend⟩ := Prod.mk.inj he
  have htrace := traces_one (Runs.traces_of_exec hs)
  refine ⟨s', htrace, ?_⟩
  exact ((last_queue_round_robin_iff (L := [0]) rfl rfl (holds_lineUp 4)
    (by decide) htrace hend).mpr (by decide)).2

/-- Of two processes the first is run twice and the second not at all. -/
theorem last_queue_passes_over : ∃ (s s' : System 1) (L ran : List Slot),
    (s.cpu 0).run = none ∧ (s.cpu 0).pc = .last 0 ∧
      Holds (s.k.qxj 4) (s.k.cxj 4) (L.map .proc) ∧ L.Nodup ∧
      Traces (step .mlfq) (OneLoop .mlfq 0) (switched 0) s ran s' ∧ (s'.cpu 0).pc = .idle ∧
      L = [0, 1] ∧ ran = [0, 0] := by
  have hexec : (Runs.execTrace (step .mlfq) (Sliced 0) (switched 0) (slices 2) (atLast [0, 1])).map
      (fun x => (x.1, (x.2.cpu 0).pc)) = some ([0, 0], .idle) := by
    decide +kernel
  obtain ⟨⟨ran, s'⟩, hs, he⟩ := Option.map_eq_some_iff.mp hexec
  obtain ⟨rfl, hend⟩ := Prod.mk.inj he
  exact ⟨atLast [0, 1], s', [0, 1], _, rfl, rfl, holds_lineUp 4, by decide,
    traces_one (Runs.traces_of_exec hs), hend, rfl, rfl⟩

end Xv6.MlfqRotation
