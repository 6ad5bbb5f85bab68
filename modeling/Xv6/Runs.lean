import Mathlib.Logic.Relation

/-!
# Runs of a partial step function

A step takes an action and may be refused. A run is a finite sequence of steps;
a condition on the state before a step and on its action selects the runs whose
steps all meet it.
-/
namespace Xv6.Runs

variable {σ α : Type} {step : σ → α → Option σ} {ok : σ → α → Prop}

/-- Perform the actions of a list in order. -/
def exec (step : σ → α → Option σ) : List α → σ → Option σ
  | [], s => some s
  | a :: l, s => (step s a).bind (exec step l)

/-- The states at the ends of the runs from `s` whose steps all meet `ok`. -/
inductive Reaches (step : σ → α → Option σ) (ok : σ → α → Prop) (s : σ) : σ → Prop where
  | refl : Reaches step ok s s
  | tail {t u : σ} {a : α} : Reaches step ok s t → ok t a → step t a = some u → Reaches step ok s u

/-- Every run from `s`. -/
abbrev Reachable (step : σ → α → Option σ) (s t : σ) : Prop := Reaches step (fun _ _ => True) s t

/-- What holds at the start and is kept by every step that meets the condition
holds at the end of every such run. -/
theorem Reaches.invariant {P : σ → Prop} {s t : σ} (h : Reaches step ok s t) (h₀ : P s)
    (hstep : ∀ t a u, P t → ok t a → step t a = some u → P u) : P t := by
  induction h with
  | refl => exact h₀
  | tail _ hok hs ih => exact hstep _ _ _ ih hok hs

/-- An invariant of all runs may be used to prove that another one is kept. -/
theorem Reaches.invariant_of {P Q : σ → Prop} {s t : σ} (h : Reaches step ok s t)
    (hQ : ∀ u, Reaches step ok s u → Q u) (h₀ : P s)
    (hstep : ∀ t a u, Q t → P t → ok t a → step t a = some u → P u) : P t := by
  induction h with
  | refl => exact h₀
  | tail hr hok hs ih => exact hstep _ _ _ (hQ _ hr) ih hok hs

theorem Reaches.weaken {ok' : σ → α → Prop} {s t : σ} (h : Reaches step ok s t)
    (himp : ∀ t a, ok t a → ok' t a) : Reaches step ok' s t := by
  induction h with
  | refl => exact .refl
  | tail _ hok hs ih => exact ih.tail (himp _ _ hok) hs

theorem Reaches.trans {s t u : σ} (h : Reaches step ok s t) (h' : Reaches step ok t u) :
    Reaches step ok s u := by
  induction h' with
  | refl => exact h
  | tail _ hok hs ih => exact ih.tail hok hs

/-- A run of a system that keeps a history beside the state is a run of the state. -/
theorem Reaches.forget {τ : Type} {step' : τ → α → Option τ} {ok' : τ → α → Prop} {x y : τ}
    (π : τ → σ) (hstep : ∀ x a, (step' x a).map π = step (π x) a) (h : Reaches step' ok' x y) :
    Reachable step (π x) (π y) := by
  induction h with
  | refl => exact .refl
  | tail _ _ hs ih => exact ih.tail trivial (by rw [← hstep, hs, Option.map_some])

/-- A step that is taken under a condition. -/
theorem of_guarded {p : Prop} [Decidable p] {s t : σ} (h : (if p then some s else none) = some t) :
    p ∧ s = t := by
  simpa only [Option.ite_none_right_eq_some, Option.some.injEq] using h

/-- An executed list of actions is a run. -/
theorem reachable_of_exec {l : List α} {s t : σ} (h : exec step l s = some t) :
    Reachable step s t := by
  induction l generalizing s with
  | nil =>
    obtain rfl := Option.some.inj h
    exact .refl
  | cons a l ih =>
    obtain ⟨u, hu, ht⟩ := Option.bind_eq_some_iff.mp h
    exact (Reaches.tail .refl trivial hu).trans (ih ht)

/-- Perform the actions of a list as long as each of them meets a condition. -/
def execIf (step : σ → α → Option σ) (ok : σ → α → Prop) [∀ s a, Decidable (ok s a)] :
    List α → σ → Option σ := exec fun s a => if ok s a then step s a else none

theorem reaches_of_execIf [∀ s a, Decidable (ok s a)] {l : List α} {s t : σ}
    (h : execIf step ok l s = some t) : Reaches step ok s t := by
  induction l generalizing s with
  | nil =>
    obtain rfl := Option.some.inj h
    exact .refl
  | cons a l ih =>
    obtain ⟨u, hu, ht⟩ := Option.bind_eq_some_iff.mp h
    obtain ⟨hok, hs⟩ := Option.ite_none_right_eq_some.mp hu
    exact (Reaches.tail .refl hok hs).trans (ih ht)

section Witness

variable {P : σ → Prop} [DecidablePred P] {l : List α} {s : σ}

/-- A list of actions that leads to a state with a property. -/
theorem exists_of_exec (h : (exec step l s).any (fun t => decide (P t)) = true) :
    ∃ t, Reachable step s t ∧ P t := by
  obtain ⟨t, ht, hP⟩ := (Option.any_eq_true ..).mp h
  exact ⟨t, reachable_of_exec ht, of_decide_eq_true hP⟩

theorem exists_of_execIf [∀ s a, Decidable (ok s a)]
    (h : (execIf step ok l s).any (fun t => decide (P t)) = true) :
    ∃ t, Reaches step ok s t ∧ P t := by
  obtain ⟨t, ht, hP⟩ := (Option.any_eq_true ..).mp h
  exact ⟨t, reaches_of_execIf ht, of_decide_eq_true hP⟩

end Witness

section Traces

variable {β : Type} {see : σ → σ → Option β}

/-- The runs of `Reaches`, with the list of what is seen of their steps. -/
inductive Traces (step : σ → α → Option σ) (ok : σ → α → Prop) (see : σ → σ → Option β) (s : σ) :
    List β → σ → Prop where
  | refl : Traces step ok see s [] s
  | tail {l : List β} {t u : σ} {a : α} : Traces step ok see s l t → ok t a →
      step t a = some u → Traces step ok see s (l ++ (see t u).toList) u

theorem Traces.invariant {P : List β → σ → Prop} {s t : σ} {l : List β}
    (h : Traces step ok see s l t) (h₀ : P [] s)
    (hstep : ∀ l t a u, P l t → ok t a → step t a = some u → P (l ++ (see t u).toList) u) :
    P l t := by
  induction h with
  | refl => exact h₀
  | tail _ hok hs ih => exact hstep _ _ _ _ ih hok hs

theorem Traces.weaken {ok' : σ → α → Prop} {s t : σ} {l : List β}
    (h : Traces step ok see s l t) (himp : ∀ t a, ok t a → ok' t a) :
    Traces step ok' see s l t := by
  induction h with
  | refl => exact .refl
  | tail _ hok hs ih => exact ih.tail (himp _ _ hok) hs

theorem Traces.cons {s t u : σ} {a : α} {l : List β} (hok : ok s a) (hs : step s a = some t)
    (h : Traces step ok see t l u) : Traces step ok see s ((see s t).toList ++ l) u := by
  induction h with
  | refl => simpa using Traces.tail .refl hok hs
  | tail _ hok' hs' ih =>
    rw [← List.append_assoc]
    exact ih.tail hok' hs'

/-- Perform a list of actions, each of which must meet a condition, and note what is seen. -/
def execTrace (step : σ → α → Option σ) (ok : σ → α → Prop) (see : σ → σ → Option β)
    [∀ s a, Decidable (ok s a)] : List α → σ → Option (List β × σ)
  | [], s => some ([], s)
  | a :: as, s =>
    if ok s a then
      (step s a).bind fun t =>
        (execTrace step ok see as t).map fun x => ((see s t).toList ++ x.1, x.2)
    else none

theorem traces_of_exec [∀ s a, Decidable (ok s a)] {as : List α} {s t : σ} {l : List β}
    (h : execTrace step ok see as s = some (l, t)) : Traces step ok see s l t := by
  induction as generalizing s l with
  | nil =>
    obtain ⟨rfl, rfl⟩ := Prod.mk.inj (Option.some.inj h)
    exact .refl
  | cons a as ih =>
    obtain ⟨hok, hs⟩ := Option.ite_none_right_eq_some.mp h
    obtain ⟨u, hu, hrest⟩ := Option.bind_eq_some_iff.mp hs
    obtain ⟨x, hx, he⟩ := Option.map_eq_some_iff.mp hrest
    obtain ⟨rfl, rfl⟩ := Prod.mk.inj he
    exact Traces.cons hok hu (ih hx)

end Traces

end Xv6.Runs
