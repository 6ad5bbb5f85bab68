import Mathlib.Logic.Function.Basic
import Xv6.Runs

/-!
# Interleaved programs

A program is a tree of operations on a shared state. Each thread runs the program of the
call it is in, one operation at a time, in any interleaving with the others; an operation
may be refused for the time being, and may panic, which ends the run.
-/
namespace Xv6.Interleave

open Function (update)

inductive Prog (Op : Type) (Resp : Op → Type) (α : Type) where
  | ret (a : α)
  | op (o : Op) (k : Resp o → Prog Op Resp α)

section Prog

variable {Op : Type} {Resp : Op → Type} {α β : Type}

def Prog.bind : Prog Op Resp α → (α → Prog Op Resp β) → Prog Op Resp β
  | .ret a, f => f a
  | .op o k, f => .op o fun r => (k r).bind f

instance : Monad (Prog Op Resp) where
  pure := .ret
  bind := .bind

theorem Prog.bind_assoc {γ : Type} (p : Prog Op Resp α) (f : α → Prog Op Resp β)
    (g : β → Prog Op Resp γ) :
    (p >>= f) >>= g = p >>= fun a => f a >>= g := by
  induction p with
  | ret a => rfl
  | op o k ih => exact congrArg (Prog.op o) (funext ih)

/-- The result of a program that has ended. -/
def Prog.result : Prog Op Resp α → Option α
  | .ret a => some a
  | .op .. => none

theorem Prog.eq_pure_of_result {p : Prog Op Resp α} {a : α} (h : p.result = some a) :
    p = pure a := by
  cases p with
  | ret b =>
    cases h
    rfl
  | op o k => cases h

def perform (o : Op) : Prog Op Resp (Resp o) := .op o .ret

end Prog

/-! ## Threads -/

inductive Outcome (σ ρ : Type) where
  | done (r : ρ) (s : σ)
  | blocked
  | panic (msg : String)

/-- Whether a program ends with a result and a state that pass a test. -/
def Outcome.passes {σ ρ : Type} (test : ρ → σ → Bool) : Outcome σ ρ → Bool
  | .done r s => test r s
  | .blocked => false
  | .panic _ => false

theorem Outcome.of_passes {σ ρ : Type} {test : ρ → σ → Bool} {o : Outcome σ ρ}
    (h : o.passes test = true) :
    ∃ r s, o = .done r s ∧ test r s = true := by
  cases o with
  | done r s => exact ⟨r, s, rfl, h⟩
  | blocked => cases h
  | panic msg => cases h

section Run

variable {Op : Type} {Resp : Op → Type} {α β σ : Type}

/-- A program that runs alone. -/
def Prog.run (exec : σ → (o : Op) → Outcome σ (Resp o)) : Prog Op Resp α → σ → Outcome σ α
  | .ret a, s => .done a s
  | .op o k, s =>
    match exec s o with
    | .done r s' => (k r).run exec s'
    | .blocked => .blocked
    | .panic msg => .panic msg

variable {exec : σ → (o : Op) → Outcome σ (Resp o)} {s s' : σ}

theorem Prog.run_op {o : Op} {k : Resp o → Prog Op Resp α} {r : Resp o}
    (h : exec s o = .done r s') :
    (Prog.op o k).run exec s = (k r).run exec s' := by
  rw [Prog.run, h]

theorem Prog.run_panic {o : Op} {msg : String} (h : exec s o = .panic msg) :
    (perform o : Prog Op Resp (Resp o)).run exec s = .panic msg := by
  rw [perform, Prog.run, h]

theorem Prog.run_perform {o : Op} {r : Resp o} (h : exec s o = .done r s') :
    (perform o : Prog Op Resp (Resp o)).run exec s = .done r s' := Prog.run_op h

theorem Prog.run_bind_eq (p : Prog Op Resp α) (f : α → Prog Op Resp β) (s : σ) :
    (p >>= f).run exec s = match p.run exec s with
      | .done a s' => (f a).run exec s'
      | .blocked => .blocked
      | .panic msg => .panic msg := by
  induction p generalizing s with
  | ret a => rfl
  | op o k ih =>
    change (Prog.op o fun r => (k r).bind f).run exec s = _
    rw [Prog.run, Prog.run]
    cases exec s o with
    | done r s' => exact ih r s'
    | blocked => rfl
    | panic msg => rfl

theorem Prog.run_bind {p : Prog Op Resp α} {f : α → Prog Op Resp β} {a : α}
    (h : p.run exec s = .done a s') : (p >>= f).run exec s = (f a).run exec s' := by
  rw [Prog.run_bind_eq, h]

/-- A sequence that ends has run its first part to the end. -/
theorem Prog.run_bind_done {p : Prog Op Resp α} {f : α → Prog Op Resp β} {b : β}
    (h : (p >>= f).run exec s = .done b s') :
    ∃ a s₁, p.run exec s = .done a s₁ ∧ (f a).run exec s₁ = .done b s' := by
  rw [Prog.run_bind_eq] at h
  split at h
  next a s₁ hp => exact ⟨a, s₁, hp, h⟩
  next => cases h
  next => cases h

/-- A program that panics does not go on. -/
theorem Prog.run_bind_panic {p : Prog Op Resp α} {f : α → Prog Op Resp β} {msg : String}
    (h : p.run exec s = .panic msg) : (p >>= f).run exec s = .panic msg := by
  rw [Prog.run_bind_eq, h]

/-- A program that runs alone until an operation that `stop` names has been done, or to its
end; what remains of it is the answer. -/
def Prog.runTo (stop : Op → Bool) (exec : σ → (o : Op) → Outcome σ (Resp o)) :
    Prog Op Resp α → σ → Outcome σ (Prog Op Resp α)
  | .ret a, s => .done (.ret a) s
  | .op o k, s =>
    match exec s o with
    | .done r s' => if stop o then .done (k r) s' else (k r).runTo stop exec s'
    | .blocked => .blocked
    | .panic msg => .panic msg

/-- No operation of the program is one that `stop` names. -/
def Prog.Free (stop : Op → Bool) : Prog Op Resp α → Prop
  | .ret _ => True
  | .op o k => stop o = false ∧ ∀ r, (k r).Free stop

variable {stop : Op → Bool}

theorem Prog.free_perform {o : Op} (h : stop o = false) :
    (perform o : Prog Op Resp (Resp o)).Free stop :=
  ⟨h, fun _ => trivial⟩

theorem Prog.free_bind {p : Prog Op Resp α} {f : α → Prog Op Resp β} (h : p.Free stop)
    (hf : ∀ a, (f a).Free stop) : (p >>= f).Free stop := by
  induction p with
  | ret a => exact hf a
  | op o k ih => exact ⟨h.1, fun r => ih r (h.2 r)⟩

/-- The part before the stop runs to its end. -/
theorem Prog.runTo_bind {p : Prog Op Resp α} {f : α → Prog Op Resp β} (h : p.Free stop) (s : σ) :
    (p >>= f).runTo stop exec s = match p.run exec s with
      | .done a s' => (f a).runTo stop exec s'
      | .blocked => .blocked
      | .panic msg => .panic msg := by
  induction p generalizing s with
  | ret a => rfl
  | op o k ih =>
    change (Prog.op o fun r => (k r).bind f).runTo stop exec s = _
    rw [Prog.runTo, Prog.run]
    cases exec s o with
    | done r s' =>
      dsimp only
      rw [if_neg (by rw [h.1]; decide)]
      exact ih r (h.2 r) s'
    | blocked => rfl
    | panic msg => rfl

end Run

/-- Operations of a thread see which threads are in a call, and are told how to resolve
what is left open. -/
structure Machine (σ Tid Call Op : Type) (Resp : Op → Type) (ρ : Type) where
  exec : σ → (Tid → Bool) → Tid → (o : Op) → Nat → Outcome σ (Resp o)
  live : σ → Tid → Bool
  prog : Call → Prog Op Resp ρ

/-- The state, and for each thread the call it is in and the rest of its program. -/
structure Config (σ Tid Call Op : Type) (Resp : Op → Type) (ρ : Type) where
  state : σ
  thread : Tid → Option (Call × Prog Op Resp ρ)
  panicked : Option String

inductive Action (Tid Call : Type) where
  | start (t : Tid) (c : Call)
  | step (t : Tid) (choice : Nat)

section Threads

variable {σ Tid Call Op : Type} {Resp : Op → Type} {ρ : Type} [DecidableEq Tid]

/-- A program that is done is left. -/
def settle (c : Call) : Prog Op Resp ρ → Option (Call × Prog Op Resp ρ)
  | .ret _ => none
  | p => some (c, p)

def Config.busy (x : Config σ Tid Call Op Resp ρ) (t : Tid) : Bool := (x.thread t).isSome

def next (M : Machine σ Tid Call Op Resp ρ) (x : Config σ Tid Call Op Resp ρ) :
    Action Tid Call → Option (Config σ Tid Call Op Resp ρ)
  | .start t c =>
    if x.panicked.isNone && !x.busy t && M.live x.state t then
      some { x with thread := update x.thread t (settle c (M.prog c)) }
    else none
  | .step t n =>
    if x.panicked.isSome then none
    else match x.thread t with
      | some (c, .op o k) =>
        match M.exec x.state x.busy t o n with
        | .done r s => some { x with state := s, thread := update x.thread t (settle c (k r)) }
        | .blocked => none
        | .panic msg => some { x with panicked := some msg }
      | _ => none

end Threads

end Xv6.Interleave
