import Xv6.Interleave

/-!
# Rules for programs that run alone

A program that runs alone returns, or stops because an operation is refused or panics. The
judgement `Sat` says what holds when it returns, and for which reasons it may stop; with
every reason allowed this is partial correctness, with none it is total correctness.
-/
namespace Xv6.RunRules

open Interleave

variable {Op : Type} {Resp : Op → Type} {α β σ : Type} {exec : σ → (o : Op) → Outcome σ (Resp o)}

/-- Why a run does not return. -/
inductive Stop where
  | blocked
  | panic (msg : String)

/-- The program returns so that `Q` holds, or stops for a reason that `S` allows. -/
def Sat (exec : σ → (o : Op) → Outcome σ (Resp o)) (S : Stop → Prop) (p : Prog Op Resp α)
    (Q : α → σ → Prop) (s : σ) : Prop :=
  match p.run exec s with
  | .done a s' => Q a s'
  | .blocked => S .blocked
  | .panic msg => S (.panic msg)

namespace Sat

variable {S : Stop → Prop} {p : Prog Op Resp α} {f : α → Prog Op Resp β} {Q Q' : α → σ → Prop}
  {R : β → σ → Prop} {s s' : σ} {a : α}

theorem of_run (h : p.run exec s = .done a s') (hq : Q a s') : Sat exec S p Q s := by
  rw [Sat, h]
  exact hq

theorem ret (h : Q a s) : Sat exec S (pure a) Q s := h

theorem of_panic {msg : String} (h : p.run exec s = .panic msg) (hs : S (.panic msg)) :
    Sat exec S p Q s := by
  rw [Sat, h]
  exact hs

theorem of_blocked (h : p.run exec s = .blocked) (hs : S .blocked) : Sat exec S p Q s := by
  rw [Sat, h]
  exact hs

theorem bind (h : Sat exec S p Q s) (hf : ∀ a s', Q a s' → Sat exec S (f a) R s') :
    Sat exec S (p >>= f) R s := by
  induction p generalizing s with
  | ret a => exact hf a s h
  | op o k ih =>
    change Sat exec S (Prog.op o fun r => (k r).bind f) R s
    rw [Sat, Prog.run] at h ⊢
    cases hexec : exec s o with
    | done r s₁ =>
      rw [hexec] at h
      exact ih r h
    | blocked =>
      rw [hexec] at h
      exact h
    | panic msg =>
      rw [hexec] at h
      exact h

/-- The first part is known to return. -/
theorem after (h : p.run exec s = .done a s') (hf : Sat exec S (f a) R s') :
    Sat exec S (p >>= f) R s := by
  rw [Sat, Prog.run_bind h]
  exact hf

theorem mono (h : Sat exec S p Q s) (hq : ∀ a s', Q a s' → Q' a s') : Sat exec S p Q' s := by
  rw [Sat] at h ⊢
  split at h
  next => exact hq _ _ h
  next => exact h
  next => exact h

theorem stops {S' : Stop → Prop} (h : Sat exec S p Q s) (hs : ∀ r, S r → S' r) :
    Sat exec S' p Q s := by
  rw [Sat] at h ⊢
  split at h
  next => exact h
  next => exact hs _ h
  next => exact hs _ h

theorem any (p : Prog Op Resp α) (s : σ) : Sat exec (fun _ => True) p (fun _ _ => True) s := by
  rw [Sat]
  split <;> trivial

/-- Where every reason to stop is allowed, the first part need not be known. -/
theorem skip (p : Prog Op Resp α) (hf : ∀ a s', Sat exec (fun _ => True) (f a) R s') (s : σ) :
    Sat exec (fun _ => True) (p >>= f) R s := bind (any p s) fun a s' _ => hf a s'

/-- What a run that returned has reached. -/
theorem done (h : Sat exec S p Q s) (hrun : p.run exec s = .done a s') : Q a s' := by
  rwa [Sat, hrun] at h

/-- A run that may not stop returns. -/
theorem returns (h : Sat exec (fun _ => False) p Q s) :
    ∃ a s', p.run exec s = .done a s' ∧ Q a s' := by
  rw [Sat] at h
  split at h
  next a s' hrun => exact ⟨a, s', hrun, h⟩
  next => exact h.elim
  next => exact h.elim

/-- A run that may neither return nor stop for another reason panics. -/
theorem panics {msg : String} (h : Sat exec (.panic msg = ·) p (fun _ _ => False) s) :
    p.run exec s = .panic msg := by
  rw [Sat] at h
  split at h
  next => exact h.elim
  next => cases h
  next hrun =>
    cases h
    exact hrun

end Sat

end Xv6.RunRules
