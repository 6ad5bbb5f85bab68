import Xv6.SleepRule

/-!
# Knowledge under a lock

What a process has found out about the data stays true while it holds the lock that
protects them, also across a call of `wakeup`. A plan says what is known at each
label; the program has to establish it with its actions and to change the data only
under locks.
-/
namespace Xv6.SleepPlan

open ProcTable Kthread

variable {σ κ ℓ L : Type} {n : Nat} {D : Plan σ ℓ L} {P : Program σ κ ℓ L}
  {s s' : State σ ℓ L n} {c : Fin n}

/-- What is known after the instruction at a label. -/
def Plan.Learns (D : Plan σ ℓ L) (P : Program σ κ ℓ L) (x : ℓ) : Prop :=
  match P.code x with
  | .acquire _ y | .release _ y | .sleep _ _ y => ∀ d, D.Knows y d
  | .act f => ∀ p k d d' y, f p k d = some (d', y) → D.Knows x d → D.Knows y d'
  | .call _ y | .wakeup1 _ y => ∀ d, D.Knows x d → D.Knows y d

/-- What the plan says is known at the labels is, and no other process can change it
without a lock that is held there. -/
structure Plan.Informed (D : Plan σ ℓ L) (P : Program σ κ ℓ L) : Prop where
  learns : ∀ x, D.Learns P x
  stable : ∀ {x x' y : ℓ} {f : Slot → κ → σ → Option (σ × ℓ)} {p : Slot} {k : κ} {d d' : σ},
    P.code x' = .act f → f p k d = some (d', y) → (∀ l ∈ D.held x, l ∉ D.held x') →
    D.Knows x d → D.Knows x d'

/-- What a process knows at its place. -/
def Plan.KnowsAt (D : Plan σ ℓ L) (d : σ) : Pc ℓ L → Prop
  | .here x | .inside _ x | .leave x => D.Knows x d
  | .swap a | .doze a | .asleep a | .undo a | .redo a => ∀ d, D.Knows a.next d
  | .yielded q => D.KnowsAt d q

/-- An action of another process leaves what is known at a place, where the locks held
at the two places are different or the process is not running. -/
theorem Plan.KnowsAt.act (hI : D.Informed P) {x' y : ℓ} {f : Slot → κ → σ → Option (σ × ℓ)}
    {p : Slot} {k : κ} {d d' : σ} (hx : P.code x' = .act f) (hf : f p k d = some (d', y))
    {q : Pc ℓ L} (hfits : D.Fits P q) (happart : Parked q ∨ ∀ l ∈ D.heldAt P q, l ∉ D.held x')
    (h : D.KnowsAt d q) : D.KnowsAt d' q := by
  induction q with
  | here x =>
    rcases happart with hpark | hl
    · exact hpark.elim
    · exact hI.stable hx hf hl h
  | inside | leave =>
    rcases happart with hpark | hl
    · exact hpark.elim
    · exact hI.stable hx hf (fun l hmem => hl l (List.mem_cons_of_mem _ hmem)) h
  | yielded q ih =>
    refine ih hfits.1 (.inr ?_) h
    rw [hfits.2]
    exact nofun
  | swap a => exact h
  | doze a => exact h
  | asleep a => exact h
  | undo a => exact h
  | redo a => exact h

/-- Every process knows what the plan says. -/
def Known (D : Plan σ ℓ L) (s : State σ ℓ L n) : Prop := ∀ p, D.KnowsAt s.data (s.pc p)

/-- A process moves on without touching the data. -/
theorem Known.moveOn {p : Slot} {q : Pc ℓ L} (h : Known D s) (hdata : s'.data = s.data)
    (hpc : s'.pc = Function.update s.pc p q) (hq : D.KnowsAt s.data (s.pc p) → D.KnowsAt s.data q) :
    Known D s' := by
  intro r
  rw [hdata, hpc]
  by_cases hr : r = p
  · subst hr
    simpa using hq (h r)
  · simpa [hr] using h r

variable [DecidableEq L]

theorem Known.move (hI : D.Informed P) (hw : Wf D P s) (h : Known D s) (hm : Move P s c s') :
    Known D s' := by
  cases hm with
  | @acquire _ x _ _ _ _ hx | @release _ x _ _ _ _ hx =>
    have hy := hI.learns x
    simp only [Plan.Learns, hx] at hy
    exact h.moveOn rfl rfl fun _ => hy _
  | @act p x y f k d hc hp hx hf =>
    intro r
    by_cases hr : r = p
    · subst hr
      have hy := hI.learns x
      simp only [Plan.Learns, hx] at hy
      have hknow := h r
      rw [hp] at hknow
      simpa [State.goto, Plan.KnowsAt] using hy _ _ _ _ _ hf hknow
    · have happart : Parked (s.pc r) ∨ ∀ l ∈ D.heldAt P (s.pc r), l ∉ D.held x := by
        by_cases hrun : ∃ e, s.core e = .run r
        · obtain ⟨e, he⟩ := hrun
          refine .inr fun l hl hl' => hr ?_
          have hheld := (hw.run c p hc).1
          rw [hp] at hheld
          obtain rfl := hw.one l e c (by rwa [(hw.run e r he).1]) (by rwa [hheld])
          exact Core.run.inj (he.symm.trans hc)
        · exact .inl (hw.parked r fun e he => hrun ⟨e, he⟩)
      simpa [State.goto, hr] using Plan.KnowsAt.act hI hx hf (hw.fits r) happart (h r)
  | @sleepHeld _ x _ _ _ _ hx | @sleep _ x _ _ _ _ _ hx =>
    have hy := hI.learns x
    simp only [Plan.Learns, hx] at hy
    exact h.moveOn rfl rfl fun _ => hy
  | @call _ x _ _ _ hp hx | @wakeup1 _ x _ _ _ hp hx =>
    have hy := hI.learns x
    simp only [Plan.Learns, hx] at hy
    refine h.moveOn rfl rfl fun hknow => ?_
    rw [hp] at hknow
    exact hy _ hknow
  | @woken p a hc hp =>
    refine h.moveOn rfl rfl fun hknow => ?_
    rw [hp] at hknow
    split
    · exact hknow _
    · exact hknow
  | @redo p a hc hp hl =>
    refine h.moveOn rfl rfl fun hknow => ?_
    rw [hp] at hknow
    exact hknow _
  | @swap _ _ _ hp | @doze _ _ _ hp | @undo _ _ _ hp | @inside _ _ _ _ hp | @leave _ _ _ hp
  | @resume _ _ _ hp => exact h.moveOn rfl rfl fun hknow => by rwa [hp] at hknow
  | @preempt p hc hh hl => exact h.moveOn rfl rfl id
  | sched hc hl => exact h
  | dispatch hc hr => exact h
  | pause hc => exact h

/-- Along every run. -/
theorem known_reaches (hD : D.Sound P) (hI : D.Informed P)
    {ok : State σ ℓ L n → Fin n × Action κ → Prop} {x : ℓ} (hx : D.held x = [])
    (hknow : ∀ d, D.Knows x d) {k : Kernel} {d : σ} {used : Slot → Bool}
    (h : Runs.Reaches (step P) ok (start k d used x) s) : Known D s := by
  apply h.invariant_of (Q := Wf D P) fun t ht => SleepRule.wf_reaches hD hx ht
  · exact fun _ => hknow _
  · rintro t ⟨c, a⟩ u hw hk - hs
    exact hk.move hI hw (step_move hs)

end Xv6.SleepPlan
