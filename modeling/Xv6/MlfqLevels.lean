import Xv6.MlfqSteps

/-!
# The loops over the first four queues

A process that has used up its allotment is deleted from the array under the loop, and
the entry after it moves to the index that the loop has just left. Whoever is RUNNABLE
there is passed over; everybody else who is RUNNABLE when the loop starts is run.
-/
namespace Xv6.MlfqLevels

open Function (update)
open ProcTable Scheduler ProcSystem RunState StateChange SlotChange MlfqSteps MlfqPromotion
open ShiftQueue (Holds)
open Runs (Traces)

/-- Whether a scheduler is in the loop over queue `t`. -/
def InLevel (t : Nat) : SchedPc → Bool
  | .level u _ => decide (u = t)
  | .levelBack u _ _ => decide (u = t)
  | _ => false

/-- The process that is deleted from the queue, if one is, is the last of the queue or
is followed by one that is not RUNNABLE. -/
def NoneAfter (k : Kernel) : SchedPc → Prop
  | .levelBack t i p => k.pstat.numRun (k.proc p).pid = timedur t → (i : Int) + 1 ≤ k.cxj t →
    ready k (k.qxj t (i + 1)) = false
  | _ => True

instance (k : Kernel) : ∀ pc, Decidable (NoneAfter k pc)
  | .levelBack _ _ _ => inferInstanceAs (Decidable (_ → _ → _))
  | .idle | .scan _ | .back _ | .starve _ _ | .level _ _ | .last _ | .lastBack _ _ | .wild =>
    .isTrue trivial

/-- The steps of one execution of the loop over queue `t`. `allocproc` finds pids and a
place in the first queue within the arrays. -/
def Level (t : Nat) (s : System 1) : Fin 1 × Action → Prop
  | (_, .sched) => InLevel t (s.cpu 0).pc = true ∧ NoneAfter s.k (s.cpu 0).pc
  | (_, .fork _) => s.k.nextpid ≤ 63 ∧ s.k.cxj 0 < 63
  | _ => True

instance (t : Nat) (s : System 1) : ∀ x, Decidable (Level t s x)
  | (_, .sched) => inferInstanceAs (Decidable (_ ∧ _))
  | (_, .fork _) => inferInstanceAs (Decidable (_ ∧ _))
  | (_, .resume) | (_, .kalloc _) | (_, .copyuvm _) | (_, .forkDone) | (_, .stamp) | (_, .exit)
  | (_, .wait) | (_, .yield) | (_, .sleep _) | (_, .wakeup _) | (_, .kill _) | (_, .chprty _ _)
  | (_, .tick) | (_, .updateStatistics) => .isTrue trivial

/-- Process `p` stands in queue `t` where the loop has still to come. -/
inductive Ahead (t : Nat) (p : Slot) (l : List Entry) (x : Cpu) : Prop where
  | test {i j : Nat} (hrun : x.run = none) (hpc : x.pc = .level t i) (hij : i ≤ j)
      (hj : l[j]? = some (.proc p))
  | back {i j : Nat} {q : Slot} (hpc : x.pc = .levelBack t i q) (hij : i < j)
      (hj : l[j]? = some (.proc p))
  | wild (hrun : x.run = none) (hpc : x.pc = .wild)

/-- Process `p` has been run, or it will be. -/
structure Waits (t : Nat) (p : Slot) (ran : List Slot) (s : System 1) : Prop where
  wf : Wf s
  ahead : p ∈ ran ∨ (s.k.proc p).state = .runnable ∧
    ∃ l, Holds (s.k.qxj t) (s.k.cxj t) l ∧ Ahead t p l (s.cpu 0)

section Step

variable {t : Nat} {p : Slot} {ran : List Slot} {s s' : System 1} {a : Action}

/-- A RUNNABLE process stays so unless its CPU switches to it. -/
theorem runnable_keep (hw : Wf s) (hs : step .mlfq s (0, a) = some s')
    (hp : (s.k.proc p).state = .runnable)
    (hrun : (s'.cpu 0).run = (s.cpu 0).run ∨ (s'.cpu 0).run = none) :
    (s'.k.proc p).state = .runnable := by
  have hmove := step_move hs
  rcases move_follows hmove hw p with h | h
  · rw [h, hp]
  · rw [hp] at h
    have hrunning : (s'.k.proc p).state = .running := by
      generalize (s'.k.proc p).state = x at h
      cases x <;> simp_all [follows]
    obtain ⟨c, hc⟩ := (move_wf hmove hw).running p hrunning
    obtain rfl : c = 0 := Subsingleton.elim c 0
    rcases hrun with hr | hr
    · rw [hc] at hr
      rw [(hw.runs 0 p hr.symm).1] at hp
      cases hp
    · rw [hc] at hr
      cases hr

/-- A step that leaves the loop where it was, and the queue but for a new entry at its end. -/
theorem Ahead.keep {l : List Entry} (h : Ahead t p l (s.cpu 0)) (e : List Entry)
    (hpc : (s'.cpu 0).pc = (s.cpu 0).pc)
    (hrun : (s'.cpu 0).run = (s.cpu 0).run ∨ (s'.cpu 0).run = none) :
    Ahead t p (l ++ e) (s'.cpu 0) := by
  have hstay : (s.cpu 0).run = none → (s'.cpu 0).run = none := by
    intro hr
    rcases hrun with h | h
    · rw [h, hr]
    · exact h
  have happend : ∀ {j : Nat}, l[j]? = some (.proc p) → (l ++ e)[j]? = some (.proc p) := by
    intro j hj
    rw [List.getElem?_append_left (List.getElem?_eq_some_iff.mp hj).1, hj]
  cases h with
  | test hr hpc' hij hj => exact .test (hstay hr) (hpc.trans hpc') hij (happend hj)
  | back hpc' hij hj => exact .back (hpc.trans hpc') hij (happend hj)
  | wild hr hpc' => exact .wild (hstay hr) (hpc.trans hpc')

theorem Waits.calm (h : Waits t p ran s) (hs : step .mlfq s (0, a) = some s') (hc : Calm s s') :
    Waits t p (ran ++ (switched 0 s s').toList) s' := by
  refine ⟨move_wf (step_move hs) h.wf, ?_⟩
  rcases h.ahead with hr | ⟨hp, l, hl, hat⟩
  · exact .inl (List.mem_append_left _ hr)
  · refine .inr ⟨runnable_keep h.wf hs hp (hc.run 0), l ++ [], ?_, hat.keep [] (hc.pc 0) (hc.run 0)⟩
    rw [hc.qxj, hc.cxj, List.append_nil]
    exact hl

theorem Waits.fork {stray : Int} (h : Waits t p ran s)
    (hs : step .mlfq s (0, .fork stray) = some s') (hk : s'.k = (allocproc s.k stray).1)
    (hcpu : s'.cpu = s.cpu) : Waits t p (ran ++ (switched 0 s s').toList) s' := by
  refine ⟨move_wf (step_move hs) h.wf, ?_⟩
  rcases h.ahead with hr | ⟨hp, l, hl, hat⟩
  · exact .inl (List.mem_append_left _ hr)
  · have hrun : (s'.cpu 0).run = (s.cpu 0).run ∨ (s'.cpu 0).run = none := .inl (by rw [hcpu])
    obtain ⟨e, hcxj, hqxj⟩ := allocproc_queues s.k stray
    have hp' := runnable_keep h.wf hs hp hrun
    rw [← hk] at hcxj hqxj
    by_cases h₀ : t = 0
    · subst h₀
      refine .inr ⟨hp', l ++ [e], ?_, hat.keep [e] (by rw [hcpu]) hrun⟩
      rw [hcxj, hqxj, Function.update_self, Function.update_self]
      exact hl.push e
    · refine .inr ⟨hp', l ++ [], ?_, hat.keep [] (by rw [hcpu]) hrun⟩
      rw [hcxj, hqxj, Function.update_of_ne h₀, Function.update_of_ne h₀, List.append_nil]
      exact hl

/-- What the code after `swtch` does to queue `t`. -/
theorem levelReturn_holds {k : Kernel} {i j : Nat} {q : Slot} {l : List Entry}
    (hl : Holds (k.qxj t) (k.cxj t) l) (hij : i < j) (hj : l[j]? = some (.proc p))
    (hp : (k.proc p).state = .runnable) (hnone : NoneAfter k (.levelBack t i q)) :
    ∃ l' j', Holds ((levelReturn k t i q).qxj t) ((levelReturn k t i q).cxj t) l' ∧
      i + 1 ≤ j' ∧ l'[j']? = some (.proc p) := by
  have hlast := hl.last_eq
  obtain ⟨hlt, hget⟩ := List.getElem?_eq_some_iff.mp hj
  unfold levelReturn
  simp only
  split
  next hrun =>
    -- The entry after the deleted one is not `p`, which is RUNNABLE.
    have hne : j ≠ i + 1 := by
      rintro rfl
      have hcell := hl.cell (i + 1) hlt
      have hready := hnone hrun (by omega)
      push_cast at hcell
      rw [hcell, hget] at hready
      simp [ready, hp] at hready
    have hmin : (min (i : Int) (k.cxj t)).toNat = i := by omega
    have hdel := hl.delete (i := i) (by omega) .null .null
    rw [hmin] at hdel
    have hu : t ≠ t + 1 := by omega
    refine ⟨l.eraseIdx i, j - 1, ?_, by omega, ?_⟩
    · show Holds (update (update k.qxj (t + 1) _) t (ShiftQueue.close (update k.qxj (t + 1) _ t)
        (update k.cxj (t + 1) _ t) i .null .null) t)
        (update (update k.cxj (t + 1) _) t (update k.cxj (t + 1) _ t - 1) t) _
      rw [Function.update_self, Function.update_self, Function.update_of_ne hu,
        Function.update_of_ne hu]
      exact hdel
    · rw [List.getElem?_eraseIdx_of_ge (by omega), Nat.sub_add_cancel (by omega), hj]
  next => exact ⟨l, j, hl, hij, hj⟩

/-- At a test before the place of `p`, the entry is skipped, cannot be read, or is run. -/
theorem level_cases {k : Kernel} {i j : Nat} {l : List Entry} (ht : t < 4)
    (hl : Holds (k.qxj t) (k.cxj t) l) (hij : i ≤ j) (hj : l[j]? = some (.proc p))
    (hp : (k.proc p).state = .runnable) :
    i < j ∧ schedStep .mlfq k (.level t i) = .goto (k.index i) (.level t (i + 1)) ∨
    schedStep .mlfq k (.level t i) = .goto (k.index i) .wild ∨
    ∃ q, (q = p ∨ i < j) ∧
      schedStep .mlfq k (.level t i) = .dispatch (startRun k i q) q (.levelBack t i q) := by
  have hlast := hl.last_eq
  obtain ⟨hlt, hget⟩ := List.getElem?_eq_some_iff.mp hj
  have hin : k.cxj t ≠ -1 ∧ (i : Int) ≤ k.cxj t := by omega
  have hstep : schedStep .mlfq k (.level t i) =
      takeEntry k t i (.level t (i + 1)) (.levelBack t i) := by
    rw [schedStep, if_pos ht, if_pos hin]
  have hcell := hl.cell i (by omega)
  have hne : l[i] ≠ .proc p → i < j := by
    intro hne
    refine lt_of_le_of_ne hij ?_
    rintro rfl
    exact hne hget
  rw [hstep]
  cases he : l[i] with
  | null => exact .inr (.inl (by simp [takeEntry, hcell, he]))
  | past => exact .inr (.inl (by simp [takeEntry, hcell, he]))
  | proc q =>
    by_cases hq : (k.proc q).state = .runnable
    · refine .inr (.inr ⟨q, ?_, takeEntry_runnable (hcell.trans he) hq⟩)
      by_cases hqp : q = p
      · exact .inl hqp
      · exact .inr (hne (by rw [he]; simpa using hqp))
    · refine .inl ⟨hne ?_, takeEntry_skip (hcell.trans he) hq⟩
      rw [he]
      intro hc
      rw [Entry.proc.inj hc] at hq
      exact hq hp

/-- A step of the loop. -/
theorem Waits.sched (h : Waits t p ran s) (ht : t < 4) (hrun : (s.cpu 0).run = none)
    (hs : step .mlfq s (0, .sched) = some s') (hsched : Sched .mlfq s 0 s')
    (hok : Level t s (0, .sched)) : Waits t p (ran ++ (switched 0 s s').toList) s' := by
  refine ⟨move_wf (step_move hs) h.wf, ?_⟩
  rcases h.ahead with hr | ⟨hp, l, hl, hat⟩
  · exact .inl (List.mem_append_left _ hr)
  have hidle : (s.cpu 0).pc ≠ .idle := fun he => by simp [Level, InLevel, he] at hok
  have hkeep : (s'.cpu 0).run = none → (s'.k.proc p).state = .runnable :=
    fun hr => runnable_keep h.wf hs hp (.inr hr)
  cases hat with
  | wild _ hpc => simp [Level, InLevel, hpc] at hok
  | @back i j q hpc hij hj =>
    have hstep : schedStep .mlfq s.k (s.cpu 0).pc =
        .goto (levelReturn s.k t i q) (.level t (i + 1)) := by
      rw [hpc]
      rfl
    obtain ⟨hk, hpc', hnone⟩ := hsched.of_goto hidle hstep
    obtain ⟨l', j', hl', hij', hj'⟩ := levelReturn_holds hl hij hj hp (hpc ▸ hok.2)
    rw [hk] at hl'
    exact .inr ⟨hkeep hnone, l', hl', .test hnone hpc' hij' hj'⟩
  | @test i j _ hpc hij hj =>
    rcases level_cases ht hl hij hj hp with ⟨hlt, hstep⟩ | hstep | ⟨q, hq, hstep⟩
    · rw [← hpc] at hstep
      obtain ⟨hk, hpc', hnone⟩ := hsched.of_goto hidle hstep
      exact .inr ⟨hkeep hnone, l, by rw [← hk]; exact hl, .test hnone hpc' hlt hj⟩
    · rw [← hpc] at hstep
      obtain ⟨hk, hpc', hnone⟩ := hsched.of_goto hidle hstep
      exact .inr ⟨hkeep hnone, l, by rw [← hk]; exact hl, .wild hnone hpc'⟩
    · rw [← hpc] at hstep
      obtain ⟨hk, hpc', hsome⟩ := hsched.of_dispatch hidle hstep
      by_cases hqp : q = p
      · subst hqp
        exact .inl (by simp [switched, hrun, hsome])
      · have hp' : (s'.k.proc p).state = .runnable := by
          rw [← hk]
          simpa [startRun, Ne.symm hqp] using hp
        exact .inr ⟨hp', l, by rw [← hk]; exact hl, .back hpc' (hq.resolve_left hqp) hj⟩

theorem Waits.step {x : Fin 1 × Action} (h : Waits t p ran s) (ht : t < 4) (hok : Level t s x)
    (hs : ProcSystem.step .mlfq s x = some s') :
    Waits t p (ran ++ (switched 0 s s').toList) s' := by
  obtain ⟨c, a⟩ := x
  obtain rfl : c = 0 := Subsingleton.elim c 0
  rcases step_cases hs with ⟨rfl, hrun, hsched⟩ | ⟨stray, rfl, hk, hcpu⟩ | ⟨-, hcalm⟩
  · exact h.sched ht hrun hs hsched hok
  · exact h.fork hs hk hcpu
  · exact h.calm hs hcalm

end Step

/-- On one CPU and from every well-formed queue state, one execution of the loop over
queue `t` whose steps all meet the condition runs every process that is RUNNABLE in the
queue when the loop starts. -/
theorem level_loop_skips_nobody {t : Nat} {Q : Nat → List Slot} {s s' : System 1}
    {ran : List Slot} {p : Slot} (ht : t < 4) (hw : Wf s) (hq : WellFormed s.k Q)
    (hrun : (s.cpu 0).run = none) (hpc : (s.cpu 0).pc = .level t 0)
    (htrace : Traces (step .mlfq) (Level t) (switched 0) s ran s')
    (hend : (s'.cpu 0).pc = .level (t + 1) 0) (hp : p ∈ Q t)
    (hready : (s.k.proc p).state = .runnable) : p ∈ ran := by
  obtain ⟨j, hlt, hget⟩ := List.getElem_of_mem hp
  have hstart : Waits t p [] s := by
    refine ⟨hw, .inr ⟨hready, _, hq.holds t (by omega), .test hrun hpc (Nat.zero_le j) ?_⟩⟩
    rw [List.getElem?_map, List.getElem?_eq_getElem hlt, hget]
    rfl
  have hfinal := htrace.invariant (P := Waits t p) hstart fun l u x v h hok hs => h.step ht hok hs
  rcases hfinal.ahead with h | ⟨-, l, -, hat⟩
  · exact h
  · cases hat with
    | test _ hpc' =>
      rw [hend] at hpc'
      have := (SchedPc.level.inj hpc').1
      omega
    | back hpc' => rw [hend] at hpc'; cases hpc'
    | wild _ hpc' => rw [hend] at hpc'; cases hpc'

/-- One CPU at the loop over the first queue, which holds the first two slots. Each of
them has been run `m` times. -/
abbrev atFirst (m : Int) : System 1 := atLine 0 [0, 1] (fun _ => m) (.level 0 0)

/-- A process uses its slice and yields. -/
def slice : List (Fin 1 × Action) := [(0, .sched), (0, .resume), (0, .yield), (0, .sched)]

/-- Two processes with slices left are both run. -/
theorem level_loop_skips_nobody_two : ∃ (s' : System 1) (ran : List Slot),
    Traces (step .mlfq) (Level 0) (switched 0) (atFirst 0) ran s' ∧
      (s'.cpu 0).pc = .level 1 0 ∧ 1 ∈ ran := by
  have hexec : (Runs.execTrace (step .mlfq) (Level 0) (switched 0) (slice ++ slice ++ [(0, .sched)])
      (atFirst 0)).map (fun x => (x.2.cpu 0).pc) = some (.level 1 0) := by
    decide +kernel
  obtain ⟨⟨ran, s'⟩, hs, hend⟩ := Option.map_eq_some_iff.mp hexec
  have htrace := Runs.traces_of_exec hs
  exact ⟨s', ran, htrace, hend, level_loop_skips_nobody (by omega) (wf_atLine (by simp) rfl)
    (wellFormed_lineUp (by decide) (by decide) (by decide) (by decide) rfl rfl rfl rfl) rfl rfl
    htrace hend (by decide) (by decide)⟩

/-- When the first of them has one slice left, it is demoted and the second is passed over. -/
theorem level_loop_passes_over : ∃ (s s' : System 1) (Q : Nat → List Slot) (ran : List Slot),
    Wf s ∧ WellFormed s.k Q ∧ (s.cpu 0).run = none ∧ (s.cpu 0).pc = .level 0 0 ∧
      Traces (step .mlfq) (fun s x => x.2 = .sched → InLevel 0 (s.cpu 0).pc = true)
        (switched 0) s ran s' ∧
      (s'.cpu 0).pc = .level 1 0 ∧ 1 ∈ Q 0 ∧ (s.k.proc 1).state = .runnable ∧ 1 ∉ ran := by
  have hexec :
      (Runs.execTrace (step .mlfq) (fun s x => x.2 = .sched → InLevel 0 (s.cpu 0).pc = true)
      (switched 0) (slice ++ [(0, .sched)]) (atFirst 29)).map
      (fun x => (x.1, (x.2.cpu 0).pc)) = some ([0], .level 1 0) := by
    decide +kernel
  obtain ⟨⟨ran, s'⟩, hs, he⟩ := Option.map_eq_some_iff.mp hexec
  obtain ⟨rfl, hend⟩ := Prod.mk.inj he
  exact ⟨atFirst 29, s', lined 0 [0, 1], _, wf_atLine (by simp) rfl,
    wellFormed_lineUp (by decide) (by decide) (by decide) (by decide) rfl rfl rfl rfl, rfl, rfl,
    Runs.traces_of_exec hs, hend, by decide, by decide, by decide⟩

end Xv6.MlfqLevels
