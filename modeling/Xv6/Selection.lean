import Xv6.Fcfs
import Xv6.Runs

/-!
# What the priority and FCFS schedulers choose

A scheduler is called again and again. Each time it has given the CPU away, and each time
it has given up `ptable.lock`, it finds the process table changed in any way.
-/
namespace Xv6.Selection

open ProcTable Scheduler
open Fcfs (Runnable)
open Runs (Reaches Reachable)

/-- A step inside the loop of a scheduler, a call of `swtch`, and the end of one call of
the scheduler and the start of the next, with the table that is found afterwards. -/
inductive Event where
  | inside
  | swtch (after : Kernel)
  | again (after : Kernel)

def turn (b : Build) (x : Kernel × SchedPc) : Event → Option (Kernel × SchedPc)
  | .inside =>
    match schedStep b x.1 x.2 with
    | .goto k pc => some (k, pc)
    | _ => none
  | .swtch after =>
    match schedStep b x.1 x.2 with
    | .dispatch _ _ pc => some (after, pc)
    | _ => none
  | .again after =>
    match schedStep b x.1 x.2 with
    | .finish _ => some (after, entryPc b)
    | _ => none

/-- The process that gets the CPU next. -/
def chosen (b : Build) (x : Kernel × SchedPc) : Option Slot :=
  match schedStep b x.1 x.2 with
  | .dispatch _ p _ => some p
  | _ => none

/-- A RUNNABLE process such that no RUNNABLE process has a smaller key. -/
def Foremost {κ : Type} [LE κ] (key : Proc → κ) (k : Kernel) (p : Slot) : Prop :=
  Runnable k p ∧ ∀ q, Runnable k q → key (k.proc p) ≤ key (k.proc q)

/-- The schedulers that scan the process table stay at these places. -/
inductive Scanning : SchedPc → Prop where
  | scan (i : Nat) : Scanning (.scan i)
  | back (p : Slot) : Scanning (.back p)

variable {b : Build} {k k' : Kernel} {x y : Kernel × SchedPc} {p : Slot}
  {pc pc' : SchedPc} {e : Event}

theorem scanning_step (h : Scanning pc) : (∃ i, schedStep b k pc = .goto k (.scan i)) ∨
    (∃ k' p, schedStep b k pc = .dispatch k' p (.back p)) ∨ schedStep b k pc = .finish k := by
  rcases schedStep_cases b k pc with ⟨_, _, he, hgoto⟩ | ⟨_, _, _, he, hdispatch⟩ | he
  · cases h with
    | scan i =>
      cases hgoto
      exact .inl ⟨_, he⟩
    | back p => exact .inl ⟨_, rfl⟩
  · cases h with
    | scan i =>
      cases hdispatch
      exact .inr (.inl ⟨_, _, he⟩)
    | back p => cases he
  · exact .inr (.inr he)

theorem scanning_turn (hb : b ≠ .mlfq) (hx : Scanning x.2) (h : turn b x e = some y) :
    Scanning y.2 := by
  have hentry : Scanning (entryPc b) := by
    cases b with
    | mlfq => exact absurd rfl hb
    | dflt | pbs | fcfs => exact .scan 0
  unfold turn at h
  rcases scanning_step (b := b) (k := x.1) hx with ⟨i, hs⟩ | ⟨k', p, hs⟩ | hs <;> rw [hs] at h
  · cases e with
    | inside =>
      obtain rfl := Option.some.inj h
      exact .scan i
    | swtch after | again after => cases h
  · cases e with
    | swtch after =>
      obtain rfl := Option.some.inj h
      exact .back p
    | inside | again after => cases h
  · cases e with
    | again after =>
      obtain rfl := Option.some.inj h
      exact hentry
    | inside | swtch after => cases h

theorem scanning_reachable (hb : b ≠ .mlfq) (h : Reachable (turn b) (k, .scan 0) x) :
    Scanning x.2 :=
  h.invariant (P := fun x => Scanning x.2) (.scan 0) fun _ _ _ hx _ hs => scanning_turn hb hx hs

/-! ## The choices -/

theorem highP_foremost (hp : Runnable k p) :
    Foremost Proc.priority k (highP Proc.priority k p) := by
  obtain ⟨hrun, hleast, -⟩ := highP_spec Proc.priority (k := k) (m := fun p => (k.proc p).priority)
    (fun _ _ => Iff.rfl) p hp
  exact ⟨hrun, hleast⟩

theorem priority_step (h : Runnable k p) : schedStep .pbs k (.scan p) =
    .dispatch (k.setState (highP Proc.priority k p) .running) (highP Proc.priority k p)
      (.back (highP Proc.priority k p)) := by
  have hs : (k.proc p).state = .runnable := h
  simp [schedStep, priorityScheduler, hs]

theorem priority_skip (h : ¬ Runnable k p) :
    schedStep .pbs k (.scan p) = .goto k (.scan (p + 1)) := by
  have hs : (k.proc p).state ≠ .runnable := h
  simp [schedStep, priorityScheduler, hs]

theorem scan_end (i : Nat) (h : ¬ i < nproc) : schedStep b k (.scan i) = .finish k := by
  simp [schedStep, slotAt, h]

/-- A dispatch of `priority_scheduler` comes from a RUNNABLE slot. -/
theorem priority_dispatch (hpc : Scanning pc) (h : schedStep .pbs k pc = .dispatch k' p pc') :
    Foremost Proc.priority k p := by
  cases hpc with
  | back q => cases h
  | scan i =>
    by_cases hi : i < nproc
    · obtain ⟨q, rfl⟩ : ∃ q : Slot, q.val = i := ⟨⟨i, hi⟩, rfl⟩
      by_cases hq : Runnable k q
      · rw [priority_step hq] at h
        obtain ⟨-, rfl, -⟩ := SchedStep.dispatch.inj h
        exact highP_foremost hq
      · rw [priority_skip hq] at h
        cases h
    · rw [scan_end i hi] at h
      cases h

theorem fcfs_dispatch (hpc : Scanning pc) (h : schedStep .fcfs k pc = .dispatch k' p pc') :
    Foremost Proc.ctime k p := by
  cases hpc with
  | back q => cases h
  | scan i =>
    by_cases hi : i < nproc
    · obtain ⟨q, rfl⟩ : ∃ q : Slot, q.val = i := ⟨⟨i, hi⟩, rfl⟩
      by_cases hq : Runnable k q
      · have hs : (k.proc q).state = .runnable := hq
        cases hm : fcfsMayRun k (highP Proc.ctime k q) with
        | true =>
          simp only [schedStep, slotAt_val, fcfsScheduler, hs, hm] at h
          obtain ⟨-, rfl, -⟩ := SchedStep.dispatch.inj h
          exact (Fcfs.highP_oldest k q hq).1
        | false =>
          rw [Fcfs.step_back q hq hm] at h
          cases h
      · rw [Fcfs.step_skip q hq] at h
        cases h
    · rw [scan_end i hi] at h
      cases h

/-- The scan goes on to the first RUNNABLE slot. -/
theorem reaches_runnable (d : Nat) (i : Nat) (hp : Runnable k p) (hi : i + d = p) :
    ∃ q, Runnable k q ∧ Reaches (turn .pbs) (fun _ e => e = .inside) (k, .scan i) (k, .scan q) := by
  induction d generalizing i with
  | zero => exact ⟨p, hp, by rw [← hi]; exact .refl⟩
  | succ d ih =>
    obtain ⟨q, rfl⟩ : ∃ q : Slot, q.val = i := ⟨⟨i, by omega⟩, rfl⟩
    by_cases hq : Runnable k q
    · exact ⟨q, hq, .refl⟩
    · obtain ⟨r, hr, hreach⟩ := ih (q + 1) (by omega)
      have hstep : turn .pbs (k, .scan q) .inside = some (k, .scan (q + 1)) := by
        rw [turn, priority_skip hq]
      have hone : Reaches (turn .pbs) (fun _ e => e = .inside) (k, .scan q) (k, .scan (q + 1)) :=
        .tail .refl rfl hstep
      exact ⟨r, hr, hone.trans hreach⟩

/-- The priority scheduler always chooses a RUNNABLE process of smallest priority number
and the FCFS scheduler one of smallest `ctime`, whatever happened to the table before, and
a call of the priority scheduler that finds a RUNNABLE process dispatches one. -/
theorem schedulers_choose_foremost :
    (∀ k x p, Reachable (turn .pbs) (k, .scan 0) x → chosen .pbs x = some p →
      Foremost Proc.priority x.1 p) ∧
    (∀ k x p, Reachable (turn .fcfs) (k, .scan 0) x → chosen .fcfs x = some p →
      Foremost Proc.ctime x.1 p) ∧
    ∀ k, (∃ p, Runnable k p) → ∃ x p,
      Reaches (turn .pbs) (fun _ e => e = .inside) (k, .scan 0) x ∧ chosen .pbs x = some p := by
  have hchosen : ∀ {b x p}, chosen b x = some p →
      ∃ k' pc', schedStep b x.1 x.2 = .dispatch k' p pc' := by
    intro b x p h
    unfold chosen at h
    split at h
    next hs =>
      obtain rfl := Option.some.inj h
      exact ⟨_, _, hs⟩
    next => cases h
  refine ⟨fun k x p hr hc => ?_, fun k x p hr hc => ?_, fun k ⟨p, hp⟩ => ?_⟩
  · obtain ⟨k', pc', hs⟩ := hchosen hc
    exact priority_dispatch (scanning_reachable (by decide) hr) hs
  · obtain ⟨k', pc', hs⟩ := hchosen hc
    exact fcfs_dispatch (scanning_reachable (by decide) hr) hs
  · obtain ⟨q, hq, hreach⟩ := reaches_runnable p 0 hp (Nat.zero_add _)
    refine ⟨_, highP Proc.priority k q, hreach, ?_⟩
    rw [chosen, priority_step hq]

/-- Of two RUNNABLE slots the first was created first, and the second has the smaller number. -/
def twoRunnable : Kernel :=
  { zeroed with
    proc := fun p =>
      { zeroed.proc p with
        state := if p = 1 ∨ p = 2 then .runnable else .unused
        priority := if p = 1 then 20 else 10
        ctime := if p = 1 then 5 else 7 } }

/-- The priority scheduler dispatches slot 2 and the FCFS scheduler slot 1. -/
theorem schedulers_choose_foremost_two :
    chosen .pbs (twoRunnable, .scan 1) = some 2 ∧ Foremost Proc.priority twoRunnable 2 ∧
      chosen .fcfs (twoRunnable, .scan 1) = some 1 ∧ Foremost Proc.ctime twoRunnable 1 := by
  obtain ⟨hprio, hfcfs, -⟩ := schedulers_choose_foremost
  have hpbs : chosen .pbs (twoRunnable, .scan 1) = some 2 := by decide +kernel
  have hfirst : chosen .fcfs (twoRunnable, .scan 1) = some 1 := by decide +kernel
  have hscan : ∀ b, b = .pbs ∨ b = .fcfs →
      Reachable (turn b) (twoRunnable, .scan 0) (twoRunnable, .scan 1) := by
    rintro b (rfl | rfl) <;> exact .tail (a := .inside) .refl trivial rfl
  exact ⟨hpbs, hprio _ _ 2 (hscan .pbs (.inl rfl)) hpbs, hfirst,
    hfcfs _ _ 1 (hscan .fcfs (.inr rfl)) hfirst⟩

end Xv6.Selection
