import Xv6.KernelLocks
import Xv6.SleepRule

/-!
# No wakeup is lost

The pattern in which the kernel uses `sleep` and `wakeup`: waiters loop until a
condition holds, wakers make it true and wake the channel, both with one lock
held. The lock may be `ptable.lock` itself, and then `wakeup1` is called in place
of `wakeup`. Any process may do either, any number of times, and may kill others.
-/
namespace Xv6.LostWakeup

open Function (update)
open ProcTable Kthread SleepPlan
open KernelLocks (Lock)

/-- A condition on data `δ`, the lock that protects the data, and the channel. -/
structure Pattern (δ : Type) where
  lk : Lock
  chan : Chan
  cond : δ → Bool

/-- The data, with two histories: how often the condition has been made true, and the
value of that count when each process last found the condition false. -/
structure Shared (δ : Type) where
  data : δ
  made : Nat
  tested : Slot → Nat

inductive Op where
  | wait : Op
  | wake : Op
  | kill : Int → Op

inductive Label where
  | idle
  | waitLock | test | nap | use | waitUnlock
  | wakeLock | make | wake | wakeUnlock
  | kill : Int → Label

def Op.label : Op → Label
  | .wait => .waitLock
  | .wake => .wakeLock
  | .kill pid => .kill pid

variable {δ : Type}

/-- What a process does next, and how it changes the data: a waiter that has found the
condition true in any way, a waker so that the condition holds. -/
inductive Choice (C : Pattern δ) where
  | op : Op → Choice C
  | use : (δ → δ) → Choice C
  | make : (f : δ → δ) → (∀ d, C.cond (f d) = true) → Choice C

def code (C : Pattern δ) : Label → Instr (Shared δ) (Choice C) Label Lock
  | .idle => .act fun _ k d =>
    match k with
    | .op o => some (d, o.label)
    | _ => none
  | .waitLock => .acquire C.lk .test
  | .test => .act fun p _ d =>
    if C.cond d.data then some (d, .use)
    else some ({ d with tested := update d.tested p d.made }, .nap)
  | .nap => .sleep C.chan C.lk .test
  | .use => .act fun _ k d =>
    match k with
    | .use f => some ({ d with data := f d.data }, .waitUnlock)
    | _ => none
  | .waitUnlock => .release C.lk .idle
  | .wakeLock => .acquire C.lk .make
  | .make => .act fun _ k d =>
    match k with
    | .make f _ => some ({ d with data := f d.data, made := d.made + 1 }, .wake)
    | _ => none
  | .wake =>
    if C.lk = .ptable then .wakeup1 C.chan .wakeUnlock else .call (.wakeup C.chan) .wakeUnlock
  | .wakeUnlock => .release C.lk .idle
  | .kill pid => .call (.kill pid) .idle

def program (C : Pattern δ) : Program (Shared δ) (Choice C) Label Lock where
  ptable := .ptable
  code := code C

/-- A process sleeps because it has found the condition false since it was last made
true; who makes it true owes a wakeup. -/
def plan (C : Pattern δ) : Plan (Shared δ) Label Lock where
  held
    | .idle | .waitLock | .wakeLock | .kill _ => []
    | _ => [C.lk]
  lockOf _ := C.lk
  Knows _ _ := True
  Reason chan p d := chan = C.chan → d.made ≤ d.tested p
  Owes x chan := x = .wake ∧ chan = C.chan

variable (C : Pattern δ)

@[simp] theorem program_code (x : Label) : (program C).code x = code C x := rfl

theorem awake_of_ne {x : Label} (hx : x ≠ .nap) : Awake (program C) x := by
  intro chan lk z h
  cases x <;> simp_all [code]
  split at h <;> cases h

/-- An action that changes neither history takes no reason away. -/
theorem actOk_of_same {x y : Label} {p : Slot} {d d' : Shared δ} (hy : y ≠ .nap)
    (hmade : d'.made = d.made) (htested : d'.tested = d.tested) :
    (plan C).ActOk (program C) x p d d' y where
  test chan lk z h := (awake_of_ne C hy chan lk z h).elim
  keep chan r _ h := by
    refine .inl fun hchan => ?_
    rw [hmade, htested]
    exact h hchan

/-- A test that fails gives a reason to sleep. -/
theorem test_ok : (plan C).Ok (program C) .test := by
  apply Plan.ok_act rfl
  intro p k d d' y h
  split at h
  next =>
    obtain ⟨rfl, rfl⟩ : d = d' ∧ Label.use = y := by simpa using h
    exact ⟨rfl, fun _ => actOk_of_same C (by simp) rfl rfl⟩
  next =>
    obtain ⟨rfl, rfl⟩ : { d with tested := update d.tested p d.made } = d' ∧ Label.nap = y := by
      simpa using h
    refine ⟨rfl, fun _ => ⟨?_, ?_⟩⟩
    · intro chan lk z _ _
      simp
    · intro chan r hr h
      refine .inl fun hchan => ?_
      simpa [hr] using h hchan

/-- Who makes the condition true takes the reasons away and owes the wakeup. -/
theorem make_ok : (plan C).Ok (program C) .make := by
  apply Plan.ok_act rfl
  intro p k d d' y h
  cases k with
  | make f hf =>
    obtain ⟨rfl, rfl⟩ :
        { d with data := f d.data, made := d.made + 1 } = d' ∧ Label.wake = y := by simpa using h
    refine ⟨rfl, fun _ => ⟨?_, ?_⟩⟩
    · intro chan lk z hz
      exact (awake_of_ne C (by simp) chan lk z hz).elim
    · intro chan r _ hr
      by_cases hchan : chan = C.chan
      · exact .inr ⟨by simp [plan], rfl, hchan⟩
      · exact .inl fun h => (hchan h).elim
  | op o => cases h
  | use f => cases h

theorem wake_ok : (plan C).Ok (program C) .wake := by
  have hy : Awake (program C) .wakeUnlock := awake_of_ne C (by simp)
  by_cases hlk : C.lk = .ptable
  · have hcode : code C .wake = .wakeup1 C.chan .wakeUnlock := by simp [code, hlk]
    apply Plan.ok_wakeup1 hcode
    · rfl
    · simp [plan, program, hlk]
    · exact hy
  · have hcode : code C .wake = .call (.wakeup C.chan) .wakeUnlock := by simp [code, hlk]
    apply Plan.ok_call hcode
    · rfl
    · exact hy

theorem plan_sound : (plan C).Sound (program C) where
  ok x := by
    have hawake : ∀ y : Label, y ≠ .nap → Awake (program C) y := fun y => awake_of_ne C
    cases x with
    | idle =>
      apply Plan.ok_act rfl
      intro p k d d' y h
      cases k with
      | op o =>
        obtain ⟨rfl, rfl⟩ : d = d' ∧ o.label = y := by simpa using h
        cases o <;> exact ⟨rfl, fun _ => actOk_of_same C (by simp [Op.label]) rfl rfl⟩
      | use f => cases h
      | make f hf => cases h
    | waitLock => exact Plan.ok_acquire rfl rfl (hawake _ (by simp))
    | test => exact test_ok C
    | nap => exact Plan.ok_sleep rfl rfl rfl rfl (hawake _ (by simp))
    | use =>
      apply Plan.ok_act rfl
      intro p k d d' y h
      cases k with
      | use f =>
        obtain ⟨rfl, rfl⟩ : { d with data := f d.data } = d' ∧ Label.waitUnlock = y := by
          simpa using h
        exact ⟨rfl, fun _ => actOk_of_same C (by simp) rfl rfl⟩
      | op o => cases h
      | make f hf => cases h
    | waitUnlock | wakeUnlock => exact Plan.ok_release rfl (by simp [plan]) (hawake _ (by simp))
    | wakeLock => exact Plan.ok_acquire rfl rfl (hawake _ (by simp))
    | make => exact make_ok C
    | wake => exact wake_ok C
    | kill pid => exact Plan.ok_call rfl rfl (hawake _ (by simp))
  owes x chan h := by
    obtain ⟨rfl, rfl⟩ := h
    constructor
    · simp [plan]
    · by_cases hlk : C.lk = .ptable <;> simp [Plan.Pays, code, hlk]

/-- The processes in `used`, before any of them has run. -/
def initial (k : Kernel) (d : δ) (used : Slot → Bool) (n : Nat) :
    State (Shared δ) Label Lock n :=
  start k ⟨d, 0, fun _ => 0⟩ used .idle

/-- When the lock is free, no process sleeps on the channel that found the condition
false before it was last made true, whoever holds `ptable.lock`. -/
theorem no_lost_wakeup (k : Kernel) (d : δ) (used : Slot → Bool) (n : Nat)
    (s : State (Shared δ) Label Lock n)
    (h : Runs.Reachable (step (program C)) (initial k d used n) s) (hlk : s.Free C.lk) (p : Slot)
    (hs : (s.k.proc p).state = .sleeping) (hchan : (s.k.proc p).chan = C.chan) :
    ¬ s.data.tested p < s.data.made := by
  have hreason := SleepRule.sleeper_has_reason (plan_sound C) (x := .idle) rfl
    (fun _ _ _ _ _ => trivial) h hs hlk
  exact Nat.not_lt.mpr (hreason hchan)

/-- A flag under `cons.lock`. -/
def flag : Pattern Bool := ⟨.cons, .addr 0, id⟩

/-- One process sets the flag and wakes the channel, then takes the flag down and waits
for it. -/
def setTakeWait : List (Fin 1 × Action (Choice flag)) :=
  let go : Choice flag := .op .wait
  let set : Choice flag := .make (fun _ => true) fun _ => rfl
  [.sched, .dispatch 0, .run go, .run (.op .wake), .run go, .run set, .run go, .run go, .run go,
    .run go, .run (.op .wait), .run go, .run go, .run (.use fun _ => false), .run go,
    .run (.op .wait), .run go, .run go, .run go, .run go, .run go, .pause].map fun a => (0, a)

/-- The process sleeps and has tested the flag since it was set. -/
theorem no_lost_wakeup_flag : ∃ s : State (Shared Bool) Label Lock 1,
    (s.k.proc 0).state = .sleeping ∧ (s.k.proc 0).chan = flag.chan ∧ s.data.made = 1 ∧
      ¬ s.data.tested 0 < s.data.made := by
  have h : Runs.Reachable (step (program flag)) (initial zeroed false (fun _ => true) 1) _ :=
    Runs.reachable_of_exec (l := setTakeWait) rfl
  exact ⟨_, rfl, rfl, rfl, no_lost_wakeup flag _ _ _ _ _ h (by decide) 0 rfl rfl⟩

end Xv6.LostWakeup
