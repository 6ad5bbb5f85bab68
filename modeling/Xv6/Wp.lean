import Mathlib.Logic.Basic

/-!
# Programs on a state that may stop with an error

`wp m Q s` says that the program `m`, started in the state `s`, ends without an error, with
a result and a state for which `Q` holds. It is computed along the program.
-/
namespace Xv6.Wp

variable {σ ε α β : Type} {m : StateT σ (Except ε) α} {f : α → StateT σ (Except ε) β}
variable {Q Q' : α → σ → Prop} {R : β → σ → Prop} {s : σ}

def wp (m : StateT σ (Except ε) α) (Q : α → σ → Prop) (s : σ) : Prop :=
  ∃ a s', m s = .ok (a, s') ∧ Q a s'

theorem wp.mono (h : wp m Q s) (hq : ∀ a s', Q a s' → Q' a s') : wp m Q' s := by
  obtain ⟨a, s', hm, ha⟩ := h
  exact ⟨a, s', hm, hq a s' ha⟩

/-- Two facts about one run hold together. -/
theorem wp.and (h : wp m Q s) (h' : wp m Q' s) : wp m (fun a s' => Q a s' ∧ Q' a s') s := by
  obtain ⟨a, s', hm, ha⟩ := h
  obtain ⟨a', s'', hm', ha'⟩ := h'
  obtain ⟨rfl, rfl⟩ := Prod.mk.inj (Except.ok.inj (hm.symm.trans hm'))
  exact ⟨a, s', hm, ha, ha'⟩

/-- What holds of a run holds of its result. -/
theorem wp.of_ok {a : α} {s' : σ} (h : wp m Q s) (hm : m s = .ok (a, s')) : Q a s' := by
  obtain ⟨b, t, hb, hq⟩ := h
  obtain ⟨rfl, rfl⟩ := Prod.mk.inj (Except.ok.inj (hm.symm.trans hb))
  exact hq

theorem bind_of_ok {a : α} {s' : σ} (h : m s = .ok (a, s')) : (m >>= f) s = f a s' := by
  change Except.bind (m s) (fun x => f x.1 x.2) = f a s'
  rw [h]
  rfl

@[simp] theorem wp_pure (a : α) : wp (pure a : StateT σ (Except ε) α) Q s ↔ Q a s := by
  constructor
  · exact fun h => h.of_ok rfl
  · exact fun h => ⟨a, s, rfl, h⟩

@[simp] theorem wp_bind : wp (m >>= f) R s ↔ wp m (fun a s' => wp (f a) R s') s := by
  have hbind : (m >>= f) s = Except.bind (m s) fun x => f x.1 x.2 := rfl
  constructor
  · rintro ⟨b, t, hrun, hR⟩
    rw [hbind] at hrun
    cases hm : m s with
    | error e =>
      rw [hm] at hrun
      cases hrun
    | ok x =>
      rw [hm] at hrun
      exact ⟨x.1, x.2, hm, b, t, hrun, hR⟩
  · rintro ⟨a, s', hm, b, t, hf, hR⟩
    refine ⟨b, t, ?_, hR⟩
    rw [hbind, hm]
    exact hf

@[simp] theorem wp_get {Q : σ → σ → Prop} : wp (get : StateT σ (Except ε) σ) Q s ↔ Q s s :=
  wp_pure s

@[simp] theorem wp_modify {Q : Unit → σ → Prop} (g : σ → σ) :
    wp (modify g : StateT σ (Except ε) Unit) Q s ↔ Q () (g s) := by
  constructor
  · exact fun h => h.of_ok rfl
  · exact fun h => ⟨(), g s, rfl, h⟩

@[simp] theorem wp_throw (e : ε) : ¬ wp (throw e : StateT σ (Except ε) α) Q s := by
  rintro ⟨a, s', hm, -⟩
  cases hm

theorem wp_ite {p : Prop} [Decidable p] {m' : StateT σ (Except ε) α} :
    wp (if p then m else m') Q s ↔ (p → wp m Q s) ∧ (¬ p → wp m' Q s) := by
  by_cases h : p <;> simp [h]

/-! ## Fuel -/

/-- What `m` returns, `m'` returns as well; `m'` may have more fuel. -/
def Extends (m m' : StateT σ (Except ε) α) : Prop := ∀ s x, m s = .ok x → m' s = .ok x

namespace Extends

variable {m' m'' : StateT σ (Except ε) α} {f' : α → StateT σ (Except ε) β}

theorem refl (m : StateT σ (Except ε) α) : Extends m m := fun _ _ h => h

theorem trans (h : Extends m m') (h' : Extends m' m'') : Extends m m'' :=
  fun s x hx => h' s x (h s x hx)

theorem of_throw (e : ε) : Extends (throw e) m := fun _ _ h => nomatch h

theorem bind (h : Extends m m') (hf : ∀ a, Extends (f a) (f' a)) :
    Extends (m >>= f) (m' >>= f') := by
  intro s x hx
  obtain ⟨a, s₁, hm, b, s₂, hrun, heq⟩ :=
    wp_bind.mp (⟨x.1, x.2, hx, rfl⟩ : wp (m >>= f) (fun b s' => (b, s') = x) s)
  rw [bind_of_ok (h _ _ hm), hf a _ _ hrun, heq]

theorem ite {p : Prop} [Decidable p] {n n' : StateT σ (Except ε) α} (h : Extends m m')
    (h' : Extends n n') :
    Extends (if p then m else n) (if p then m' else n') := by
  split
  · exact h
  · exact h'

/-- The runs of a program get longer with its fuel, and do not change otherwise. -/
theorem of_le {m : Nat → StateT σ (Except ε) α} (h : ∀ k, Extends (m k) (m (k + 1))) {k l : Nat}
    (hkl : k ≤ l) :
    Extends (m k) (m l) := by
  induction hkl with
  | refl => exact refl _
  | step _ ih => exact ih.trans (h _)

end Extends

end Xv6.Wp
