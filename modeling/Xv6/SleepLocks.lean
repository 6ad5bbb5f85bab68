import Xv6.LockKnowledge

/-!
# Sleep-locks

sleeplock.c on any number of CPUs: any process may call `acquiresleep`, `releasesleep` on
a lock that it has, `holdingsleep` and `kill`, any number of times and on any locks. A
`struct sleeplock *` is an address, which is also the channel its waiters sleep on.
-/
namespace Xv6.SleepLocks

open Function (update)
open ProcTable Kthread SleepPlan

/-- The spin locks: `ptable.lock`, and `lk->lk` of each sleep-lock. -/
inductive Lock where
  | ptable : Lock
  | inner : (lk : Nat) → Lock
  deriving DecidableEq, Repr

/-- `struct sleeplock`. -/
structure Sleeplock where
  locked : Nat
  pid : Int
  deriving DecidableEq, Repr

/-- `mine` says which locks a process has taken and not given back, and `answer` what its
last `holdingsleep` has returned. -/
structure Locks where
  lk : Nat → Sleeplock
  mine : Slot → Nat → Bool
  answer : Slot → Bool

inductive Label where
  | idle
  | acquireLock (lk : Nat) | test (lk : Nat) | nap (lk : Nat) | take (lk : Nat) | sign (lk : Nat)
  | acquireUnlock (lk : Nat)
  | releaseLock (lk : Nat) | clear (lk : Nat) | unsign (lk : Nat) | wake (lk : Nat)
  | releaseUnlock (lk : Nat)
  | holdLock (lk : Nat) | hold (lk : Nat) | holdUnlock (lk : Nat)
  | kill (pid : Int)
  deriving DecidableEq, Repr

/-- The call a process makes next. -/
inductive Choice where
  | acquiresleep (lk : Nat) | releasesleep (lk : Nat) | holdingsleep (lk : Nat)
  | kill (pid : Int)
  deriving DecidableEq, Repr

def Locks.setLock (d : Locks) (lk : Nat) (f : Sleeplock → Sleeplock) : Locks :=
  { d with lk := update d.lk lk (f (d.lk lk)) }

def Locks.setMine (d : Locks) (p : Slot) (lk : Nat) (b : Bool) : Locks :=
  { d with mine := update d.mine p (update (d.mine p) lk b) }

/-- `pidOf` is `myproc()->pid`. -/
def code (pidOf : Slot → Int) : Label → Instr Locks Choice Label Lock
  | .idle => .act fun p k d =>
    match k with
    | .acquiresleep lk => some (d, .acquireLock lk)
    -- each release is by the holder
    | .releasesleep lk => if d.mine p lk then some (d, .releaseLock lk) else none
    | .holdingsleep lk => some (d, .holdLock lk)
    | .kill pid => some (d, .kill pid)
  | .acquireLock lk => .acquire (.inner lk) (.test lk)
  | .test lk => .act fun _ _ d => some (d, if (d.lk lk).locked ≠ 0 then .nap lk else .take lk)
  | .nap lk => .sleep (.addr lk) (.inner lk) (.test lk)
  | .take lk => .act fun p _ d =>
    some ((d.setLock lk fun l => { l with locked := 1 }).setMine p lk true, .sign lk)
  | .sign lk => .act fun p _ d =>
    some (d.setLock lk fun l => { l with pid := pidOf p }, .acquireUnlock lk)
  | .acquireUnlock lk => .release (.inner lk) .idle
  | .releaseLock lk => .acquire (.inner lk) (.clear lk)
  | .clear lk => .act fun p _ d =>
    some ((d.setLock lk fun l => { l with locked := 0 }).setMine p lk false, .unsign lk)
  | .unsign lk => .act fun _ _ d => some (d.setLock lk fun l => { l with pid := 0 }, .wake lk)
  | .wake lk => .call (.wakeup (.addr lk)) (.releaseUnlock lk)
  | .releaseUnlock lk => .release (.inner lk) .idle
  | .holdLock lk => .acquire (.inner lk) (.hold lk)
  | .hold lk => .act fun p _ d =>
    let r := decide ((d.lk lk).locked ≠ 0 ∧ (d.lk lk).pid = pidOf p)
    some ({ d with answer := update d.answer p r }, .holdUnlock lk)
  | .holdUnlock lk => .release (.inner lk) .idle
  | .kill pid => .call (.kill pid) .idle

def program (pidOf : Slot → Int) : Program Locks Choice Label Lock where
  ptable := .ptable
  code := code pidOf

/-- `initsleeplock` has been called for every lock. -/
def unlocked : Locks where
  lk := fun _ => ⟨0, 0⟩
  mine := fun _ _ => false
  answer := fun _ => false

/-- The processes in `used`, before any of them has run. -/
def initial (k : Kernel) (used : Slot → Bool) (n : Nat) : State Locks Label Lock n :=
  start k unlocked used .idle

/-- A process waits because the lock is taken; who clears `locked` owes a wakeup. What has
been read or written of the lock stays so until its spin lock is released. -/
def plan : Plan Locks Label Lock where
  held
    | .idle | .acquireLock _ | .releaseLock _ | .holdLock _ | .kill _ => []
    | .test lk | .nap lk | .take lk | .sign lk | .acquireUnlock lk | .clear lk | .unsign lk
    | .wake lk | .releaseUnlock lk | .hold lk | .holdUnlock lk => [.inner lk]
  lockOf
    | .addr lk => .inner lk
    | _ => .ptable
  Knows x d :=
    match x with
    | .take lk | .unsign lk => (d.lk lk).locked = 0
    | .sign lk | .acquireUnlock lk => (d.lk lk).locked = 1
    | _ => True
  Reason chan _ d := ∀ lk, chan = .addr lk → (d.lk lk).locked ≠ 0
  Owes x chan := ∃ lk, (x = .unsign lk ∨ x = .wake lk) ∧ chan = .addr lk

/-- The actions. -/
inductive LockStep (pidOf : Slot → Int) (p : Slot) (d : Locks) : Label → Locks → Label → Prop where
  | call {y : Label} (h : plan.held y = []) (hy : ∀ lk, y = .releaseLock lk → d.mine p lk = true) :
      LockStep pidOf p d .idle d y
  | taken (lk : Nat) (h : (d.lk lk).locked ≠ 0) : LockStep pidOf p d (.test lk) d (.nap lk)
  | free (lk : Nat) (h : (d.lk lk).locked = 0) : LockStep pidOf p d (.test lk) d (.take lk)
  | take (lk : Nat) : LockStep pidOf p d (.take lk)
      ((d.setLock lk fun l => { l with locked := 1 }).setMine p lk true) (.sign lk)
  | sign (lk : Nat) : LockStep pidOf p d (.sign lk)
      (d.setLock lk fun l => { l with pid := pidOf p }) (.acquireUnlock lk)
  | clear (lk : Nat) : LockStep pidOf p d (.clear lk)
      ((d.setLock lk fun l => { l with locked := 0 }).setMine p lk false) (.unsign lk)
  | unsign (lk : Nat) : LockStep pidOf p d (.unsign lk)
      (d.setLock lk fun l => { l with pid := 0 }) (.wake lk)
  | hold (lk : Nat) (r : Bool) : LockStep pidOf p d (.hold lk)
      { d with answer := update d.answer p r } (.holdUnlock lk)

variable {pidOf : Slot → Int} {p : Slot} {d d' : Locks} {x y : Label}

@[simp] theorem program_code (x : Label) : (program pidOf).code x = code pidOf x := rfl

theorem act_step {f : Slot → Choice → Locks → Option (Locks × Label)} {k : Choice}
    (hx : (program pidOf).code x = .act f) (hf : f p k d = some (d', y)) :
    LockStep pidOf p d x d' y := by
  cases x with
  | idle =>
    obtain rfl := Instr.act.inj hx
    cases k with
    | releasesleep lk =>
      obtain ⟨hm, h⟩ := Option.ite_none_right_eq_some.mp hf
      obtain ⟨rfl, rfl⟩ := Prod.mk.inj (Option.some.inj h)
      exact .call rfl (by rintro _ ⟨⟩; exact hm)
    | _ =>
      obtain ⟨rfl, rfl⟩ := Prod.mk.inj (Option.some.inj hf)
      exact .call rfl (by rintro _ ⟨⟩)
  | test lk =>
    obtain rfl := Instr.act.inj hx
    obtain ⟨rfl, rfl⟩ := Prod.mk.inj (Option.some.inj hf)
    split
    next h => exact .taken lk h
    next h => exact .free lk (not_not.mp h)
  | take | sign | clear | unsign | hold =>
    obtain rfl := Instr.act.inj hx
    obtain ⟨rfl, rfl⟩ := Prod.mk.inj (Option.some.inj hf)
    constructor
  | _ => cases hx

@[simp] theorem setLock_lk (d : Locks) (lk : Nat) (f : Sleeplock → Sleeplock) :
    (d.setLock lk f).lk = update d.lk lk (f (d.lk lk)) := rfl
@[simp] theorem setLock_mine (d : Locks) (lk : Nat) (f : Sleeplock → Sleeplock) :
    (d.setLock lk f).mine = d.mine := rfl
@[simp] theorem setMine_lk (d : Locks) (p : Slot) (lk : Nat) (b : Bool) :
    (d.setMine p lk b).lk = d.lk := rfl

theorem setMine_mine (d : Locks) (p q : Slot) (lk lk' : Nat) (b : Bool) :
    (d.setMine p lk b).mine q lk' = if q = p ∧ lk' = lk then b else d.mine q lk' := by
  unfold Locks.setMine
  by_cases hq : q = p
  · subst hq
    by_cases hl : lk' = lk
    · subst hl
      simp
    · simp [hl]
  · simp [hq]

/-- An action touches `locked` only of the lock whose spin lock it holds. -/
theorem LockStep.locked (h : LockStep pidOf p d x d' y) {lk : Nat} (hx : .inner lk ∉ plan.held x) :
    (d'.lk lk).locked = (d.lk lk).locked := by
  have hne : ∀ {lk'}, plan.held x = [.inner lk'] → lk ≠ lk' := by
    rintro lk' hheld rfl
    exact hx (by simp [hheld])
  cases h with
  | take lk' => simp [hne rfl]
  | sign lk' => simp [hne rfl]
  | clear lk' => simp [hne rfl]
  | unsign lk' => simp [hne rfl]
  | _ => rfl

theorem awake_of_ne (hx : ∀ lk, x ≠ .nap lk) : Awake (program pidOf) x := by
  intro chan l z h
  cases x with
  | nap lk => exact hx lk rfl
  | _ => cases h

/-- An action that leaves every lock taken as it was takes no reason away. -/
theorem actOk_of_same (hy : ∀ lk, y ≠ .nap lk)
    (h : ∀ lk, (d.lk lk).locked ≠ 0 → (d'.lk lk).locked ≠ 0) :
    plan.ActOk (program pidOf) x p d d' y where
  test chan l z hz := (awake_of_ne hy chan l z hz).elim
  keep _ _ _ hr := .inl fun lk hlk => h lk (hr lk hlk)

theorem lockStep_ok (h : LockStep pidOf p d x d' y) :
    plan.held y = plan.held x ∧ (plan.Knows x d → plan.ActOk (program pidOf) x p d d' y) := by
  cases h with
  | call hy hmine =>
    refine ⟨hy, fun _ => actOk_of_same ?_ fun _ => id⟩
    rintro lk rfl
    cases hy
  | taken lk h =>
    refine ⟨rfl, fun _ => ⟨fun chan l z hz lk' hlk' => ?_, fun _ _ _ hr => .inl hr⟩⟩
    obtain ⟨rfl, -, -⟩ := Instr.sleep.inj hz
    obtain rfl := Chan.addr.inj hlk'
    exact h
  | free | hold => exact ⟨rfl, fun _ => actOk_of_same (by simp) fun _ => id⟩
  | take lk =>
    refine ⟨rfl, fun _ => actOk_of_same (by simp) fun lk' h => ?_⟩
    by_cases hl : lk' = lk
    · simp [hl]
    · simpa [hl] using h
  | sign lk | unsign lk =>
    refine ⟨rfl, fun _ => actOk_of_same (by simp) fun lk' h => ?_⟩
    by_cases hl : lk' = lk
    · simpa [hl] using hl ▸ h
    · simpa [hl] using h
  | clear lk =>
    refine ⟨rfl, fun _ => ⟨fun chan l z hz => (awake_of_ne (by simp) chan l z hz).elim, ?_⟩⟩
    intro chan r _ hr
    by_cases hchan : chan = .addr lk
    · subst hchan
      exact .inr ⟨by simp [plan], lk, .inl rfl, rfl⟩
    · refine .inl fun lk' hlk' => ?_
      have hl : lk' ≠ lk := by
        rintro rfl
        exact hchan hlk'
      simpa [hl] using hr lk' hlk'

theorem plan_sound : plan.Sound (program pidOf) where
  ok x := by
    have hact : ∀ {f}, (program pidOf).code x = .act f → plan.Ok (program pidOf) x := fun hx =>
      Plan.ok_act hx fun p k d d' y hf => lockStep_ok (act_step hx hf)
    have hawake : ∀ y : Label, (∀ lk, y ≠ .nap lk) → Awake (program pidOf) y := fun y => awake_of_ne
    cases x with
    | acquireLock | releaseLock | holdLock => exact Plan.ok_acquire rfl rfl (hawake _ (by simp))
    | nap lk => exact Plan.ok_sleep rfl rfl rfl rfl (hawake _ (by simp))
    | acquireUnlock | releaseUnlock | holdUnlock =>
      exact Plan.ok_release rfl (by simp [plan]) (hawake _ (by simp))
    | wake lk => exact Plan.ok_call rfl rfl (hawake _ (by simp))
    | kill pid => exact Plan.ok_call rfl rfl (hawake _ (by simp))
    | _ => exact hact rfl
  owes x chan h := by
    obtain ⟨lk, rfl | rfl, rfl⟩ := h
    · refine ⟨by simp [plan], ?_⟩
      intro p k d d' y hf
      obtain ⟨-, rfl⟩ := Prod.mk.inj (Option.some.inj hf)
      exact ⟨lk, .inr rfl, rfl⟩
    · exact ⟨by simp [plan], .inl rfl⟩

/-- What is known of a lock, at a label that holds its spin lock. -/
theorem knows_congr {lk : Nat} (hx : plan.held x = [.inner lk])
    (h : (d'.lk lk).locked = (d.lk lk).locked) (hknow : plan.Knows x d) : plan.Knows x d' := by
  cases x <;>
    first | trivial | (obtain rfl := Lock.inner.inj (List.cons.inj hx).1; exact h.trans hknow)

theorem knows_of_unheld (hx : plan.held x = []) : plan.Knows x d := by
  cases x <;> trivial

theorem LockStep.knows (h : LockStep pidOf p d x d' y) (hknow : plan.Knows x d) :
    plan.Knows y d' := by
  cases h with
  | call hy hmine => exact knows_of_unheld hy
  | taken lk h => trivial
  | free lk h => exact h
  | take lk => simp [plan]
  | sign lk =>
    have : (d.lk lk).locked = 1 := hknow
    simpa [plan] using this
  | clear lk => simp [plan]
  | unsign lk => trivial
  | hold lk r => trivial

theorem held_cases (x : Label) : plan.held x = [] ∨ ∃ lk, plan.held x = [.inner lk] := by
  cases x with
  | idle | acquireLock | releaseLock | holdLock | kill => exact .inl rfl
  | _ lk => exact .inr ⟨lk, rfl⟩

theorem plan_informed : plan.Informed (program pidOf) where
  learns x := by
    have hact : ∀ {f}, (program pidOf).code x = .act f → plan.Learns (program pidOf) x := by
      intro f hx
      simp only [Plan.Learns, hx]
      exact fun p k d d' y hf => (act_step hx hf).knows
    cases x with
    | idle | test | take | sign | clear | unsign | hold => exact hact rfl
    | wake | kill => exact fun _ _ => trivial
    | _ => exact fun _ => trivial
  stable {x x' y f p k d d'} hx hf hl hknow := by
    rcases held_cases x with hheld | ⟨lk, hheld⟩
    · exact knows_of_unheld hheld
    · exact knows_congr hheld ((act_step hx hf).locked (hl _ (by simp [hheld]))) hknow

/-- The action a process takes next. -/
def nextAct : Label → Label
  | .acquireLock lk | .nap lk => .test lk
  | .releaseLock lk => .clear lk
  | .holdLock lk => .hold lk
  | .acquireUnlock _ | .wake _ | .releaseUnlock _ | .holdUnlock _ | .kill _ => .idle
  | x => x

theorem leads : Leads (program pidOf) nextAct := by
  intro x
  cases x <;> simp [code, nextAct]

/-- A lock is free, or one process has it. `z` is the action that each process takes next. -/
inductive Owned (pidOf : Slot → Int) (d : Locks) (z : Slot → Label) (lk : Nat) : Prop where
  | free (hlocked : (d.lk lk).locked = 0) (hmine : ∀ q, d.mine q lk = false)
      (hother : ∀ q, z q ≠ .sign lk ∧ z q ≠ .clear lk)
  | taken (p : Slot) (hlocked : (d.lk lk).locked = 1) (hmine : ∀ q, d.mine q lk = true ↔ q = p)
      (hother : ∀ q, q ≠ p → z q ≠ .sign lk ∧ z q ≠ .clear lk)
      (hpid : z p ≠ .sign lk → (d.lk lk).pid = pidOf p)

section Owned

variable {z : Slot → Label} {lk : Nat}

theorem Owned.of_mine (h : Owned pidOf d z lk) (hp : d.mine p lk = true) :
    (d.lk lk).locked = 1 ∧ (∀ q, d.mine q lk = true ↔ q = p) ∧
      (∀ q, q ≠ p → z q ≠ .sign lk ∧ z q ≠ .clear lk) ∧
      (z p ≠ .sign lk → (d.lk lk).pid = pidOf p) := by
  cases h with
  | free hlocked hmine hother =>
    rw [hmine p] at hp
    cases hp
  | taken q hlocked hmine hother hpid =>
    obtain rfl := (hmine p).mp hp
    exact ⟨hlocked, hmine, hother, hpid⟩

/-- Who signs or clears the lock has it. -/
theorem Owned.mine (h : Owned pidOf d z lk) (hp : z p = .sign lk ∨ z p = .clear lk) :
    d.mine p lk = true := by
  cases h with
  | free hlocked hmine hother => exact absurd hp (not_or.mpr (hother p))
  | taken q hlocked hmine hother hpid =>
    refine (hmine p).mpr ?_
    by_contra hne
    exact absurd hp (not_or.mpr (hother p hne))

theorem Owned.nobody (h : Owned pidOf d z lk) (hfree : (d.lk lk).locked = 0) :
    (∀ q, d.mine q lk = false) ∧ ∀ q, z q ≠ .sign lk ∧ z q ≠ .clear lk := by
  cases h with
  | free hlocked hmine hother => exact ⟨hmine, hother⟩
  | taken q hlocked hmine hother hpid => omega

/-- An action that leaves this lock alone. -/
theorem Owned.keep (h : Owned pidOf d z lk) {y' : Label} (hlk : d'.lk lk = d.lk lk)
    (hmine : ∀ q, d'.mine q lk = d.mine q lk) (hx : z p ≠ .sign lk) (hy : y' ≠ .sign lk)
    (hclear : y' = .clear lk → d.mine p lk = true) : Owned pidOf d' (update z p y') lk := by
  cases h with
  | free hlocked hm hother =>
    refine .free (by rw [hlk, hlocked]) (fun q => by rw [hmine, hm]) fun q => ?_
    by_cases hq : q = p
    · subst hq
      rw [Function.update_self]
      refine ⟨hy, fun hc => ?_⟩
      have := hclear hc
      rw [hm q] at this
      cases this
    · rw [Function.update_of_ne hq]
      exact hother q
  | taken r hlocked hm hother hpid =>
    refine .taken r (by rw [hlk, hlocked]) (fun q => by rw [hmine, hm])
      (fun q hqr => ?_) fun hr => ?_
    · by_cases hq : q = p
      · subst hq
        rw [Function.update_self]
        exact ⟨hy, fun hc => hqr ((hm q).mp (hclear hc))⟩
      · rw [Function.update_of_ne hq]
        exact hother q hqr
    · rw [hlk]
      refine hpid fun hz => ?_
      by_cases hrp : r = p
      · subst hrp
        exact hx hz
      · rw [Function.update_of_ne hrp] at hr
        exact hr hz

end Owned

theorem update_ne {z : Slot → Label} {lk : Nat} {y' : Label}
    (h : ∀ q, q ≠ p → z q ≠ .sign lk ∧ z q ≠ .clear lk) (q : Slot) (hq : q ≠ p) :
    update z p y' q ≠ .sign lk ∧ update z p y' q ≠ .clear lk := by
  rw [Function.update_of_ne hq]
  exact h q hq

/-- An action, with what is known where it is taken. -/
theorem Owned.step {z : Slot → Label} {lk : Nat} (h : Owned pidOf d z lk) (hz : z p = x)
    (hknow : plan.Knows x d) (hs : LockStep pidOf p d x d' y) :
    Owned pidOf d' (update z p (nextAct y)) lk := by
  cases hs with
  | @call y hy hmine =>
    refine h.keep rfl (fun _ => rfl) (by simp [hz]) ?_ ?_
    · cases y <;> simp_all [nextAct, plan]
    · intro hc
      cases y <;> simp_all [nextAct, plan]
  | taken | free | hold =>
    exact h.keep rfl (fun _ => rfl) (by simp [hz]) (by simp [nextAct]) (by simp [nextAct])
  | take lk' =>
    by_cases hl : lk = lk'
    · subst hl
      obtain ⟨hnone, hother⟩ := h.nobody hknow
      refine .taken p (by simp) (fun q => ?_) (update_ne fun q _ => hother q) (by simp [nextAct])
      rw [setMine_mine]
      by_cases hq : q = p
      · simp [hq]
      · simp [hq, hnone q]
    · exact h.keep (by simp [hl]) (fun q => by simp [setMine_mine, hl]) (by simp [hz])
        (by simp [nextAct, Ne.symm hl]) (by simp [nextAct])
  | sign lk' =>
    by_cases hl : lk = lk'
    · subst hl
      obtain ⟨hlocked, hmine, hother, -⟩ := h.of_mine (h.mine (.inl hz))
      exact .taken p (by simpa using hlocked) hmine (update_ne hother) (by simp)
    · exact h.keep (by simp [hl]) (fun q => rfl) (by simp [hz, Ne.symm hl]) (by simp [nextAct])
        (by simp [nextAct])
  | clear lk' =>
    by_cases hl : lk = lk'
    · subst hl
      obtain ⟨hlocked, hmine, hother, -⟩ := h.of_mine (h.mine (.inr hz))
      refine .free (by simp) (fun q => ?_) fun q => ?_
      · rw [setMine_mine]
        by_cases hq : q = p
        · simp [hq]
        · have := (hmine q).not.mpr hq
          simpa [hq] using this
      · by_cases hq : q = p
        · subst hq
          simp [nextAct]
        · exact update_ne hother q hq
    · exact h.keep (by simp [hl]) (fun q => by simp [setMine_mine, hl]) (by simp [hz])
        (by simp [nextAct]) (by simp [nextAct])
  | unsign lk' =>
    by_cases hl : lk = lk'
    · subst hl
      have hfree : (d.lk lk).locked = 0 := hknow
      obtain ⟨hnone, hother⟩ := h.nobody hfree
      refine .free (by simpa using hfree) hnone fun q => ?_
      by_cases hq : q = p
      · subst hq
        simp [nextAct]
      · exact update_ne (fun q _ => hother q) q hq
    · exact h.keep (by simp [hl]) (fun q => rfl) (by simp [hz]) (by simp [nextAct])
        (by simp [nextAct])

section Runs

variable {n : Nat} {k : Kernel} {used : Slot → Bool} {s : State Locks Label Lock n} {lk : Nat}

/-- The action that each process takes next. -/
def next (s : State Locks Label Lock n) (p : Slot) : Label := nextAct (s.pc p).label

theorem known_reachable (h : Runs.Reachable (step (program pidOf)) (initial k used n) s) :
    Known plan s :=
  known_reaches (x := .idle) plan_sound plan_informed rfl (fun _ => trivial) h

theorem owned_reachable (h : Runs.Reachable (step (program pidOf)) (initial k used n) s)
    (lk : Nat) :
    Owned pidOf s.data (next s) lk := by
  apply h.invariant_of (P := fun s => Owned pidOf s.data (next s) lk) (Q := Known plan)
    fun t ht => known_reachable ht
  case h₀ =>
    refine .free rfl (fun _ => rfl) fun _ => ?_
    simp [next, initial, start, Pc.label, nextAct]
  case hstep =>
    rintro t ⟨c, a⟩ u hknown ho - hs
    rcases (step_move hs).leads leads with
      ⟨hdata, hnext⟩ | ⟨p, x, y, f, k, -, hp, hat, hx, hf, hnext⟩
    · rw [hdata, show next u = next t from hnext]
      exact ho
    · rw [show next u = update (next t) p (nextAct y) from hnext]
      have hknow := hknown p
      rw [hp] at hknow
      exact ho.step hat hknow (act_step hx hf)

/-- A process has completed `acquiresleep`, and has not yet cleared `locked` in its
`releasesleep`. -/
def Holding (s : State Locks Label Lock n) (p : Slot) (lk : Nat) : Prop :=
  s.data.mine p lk = true ∧ (s.pc p).label ≠ .sign lk ∧ (s.pc p).label ≠ .acquireUnlock lk

/-- At a label that holds the spin lock and where something is known, a process runs. -/
theorem held_of_label {q : Pc Label Lock} (hfits : plan.Fits (program pidOf) q)
    (hknow : plan.KnowsAt d q) (hheld : plan.held q.label = [.inner lk])
    (hnot : ∃ d, ¬ plan.Knows q.label d) :
    .inner lk ∈ plan.heldAt (program pidOf) q ∧ ¬ Parked q := by
  obtain ⟨d₀, hd₀⟩ := hnot
  induction q with
  | here x =>
    refine ⟨?_, id⟩
    show _ ∈ plan.held x
    rw [show plan.held x = _ from hheld]
    exact List.mem_singleton.mpr rfl
  | inside e x | leave x =>
    refine ⟨List.mem_cons_of_mem _ ?_, id⟩
    rw [show plan.held x = _ from hheld]
    exact List.mem_singleton.mpr rfl
  | yielded q ih =>
    have := (ih hfits.1 hknow hheld hd₀).1
    rw [hfits.2] at this
    cases this
  | swap a | doze a | asleep a | undo a | redo a => exact absurd (hknow d₀) hd₀

/-- Then its CPU holds the spin lock. -/
theorem core_of_label (hw : SleepPlan.Wf plan (program pidOf) s) (hknown : Known plan s) {p : Slot}
    (hlabel : (s.pc p).label = x) (hheld : plan.held x = [.inner lk])
    (hnot : ∃ d, ¬ plan.Knows x d) : ∃ c, s.core c = .run p ∧ .inner lk ∈ s.held c := by
  subst hlabel
  obtain ⟨hin, hpark⟩ := held_of_label (hw.fits p) (hknown p) hheld hnot
  by_contra hn
  refine hpark (hw.parked p fun c hc => hn ⟨c, hc, ?_⟩)
  rwa [(hw.run c p hc).1]

theorem label_ne_of_free (hw : SleepPlan.Wf plan (program pidOf) s) (hknown : Known plan s)
    (hfree : s.Free (.inner lk)) (hheld : plan.held x = [.inner lk])
    (hnot : ∃ d, ¬ plan.Knows x d) (p : Slot) : (s.pc p).label ≠ x := by
  intro hlabel
  obtain ⟨c, -, hin⟩ := core_of_label hw hknown hlabel hheld hnot
  exact hfree c hin

theorem label_of_next {p : Slot} (h : next s p = .sign lk) : (s.pc p).label = .sign lk := by
  unfold next at h
  generalize (s.pc p).label = x at h
  cases x <;> simp_all [nextAct]

theorem pid_reachable (h : Runs.Reachable (step (program pidOf)) (initial k used n) s) (p : Slot) :
    (s.k.proc p).pid = (k.proc p).pid := by
  apply h.invariant (P := fun s => (s.k.proc p).pid = (k.proc p).pid) rfl
  rintro t ⟨c, a⟩ u ht - hs
  rw [(step_move hs).pid, ht]

/-- In every state of every run, for every lock: one process at most holds it; `locked` is
1 and `pid` is the holder's exactly while somebody does, whenever `lk->lk` is free; and
then nobody sleeps on the lock unless it is held. -/
theorem sleeplock_held (k : Kernel) (used : Slot → Bool) (n : Nat) (s : State Locks Label Lock n)
    (h : Runs.Reachable (step (program fun p => (k.proc p).pid)) (initial k used n) s) (lk : Nat) :
    (∀ p q, Holding s p lk → Holding s q lk → p = q) ∧
      (∀ p, Holding s p lk →
        (s.data.lk lk).locked = 1 ∧ (s.data.lk lk).pid = (s.k.proc p).pid) ∧
      (s.Free (.inner lk) → (s.data.lk lk).locked ≠ 0 → ∃ p, Holding s p lk) ∧
      (s.Free (.inner lk) → ∀ p, (s.k.proc p).state = .sleeping → (s.k.proc p).chan = .addr lk →
        (s.data.lk lk).locked ≠ 0) := by
  have howned := owned_reachable h lk
  have hknown := known_reachable h
  have hw := SleepRule.wf_reaches plan_sound rfl h
  refine ⟨fun p q hp hq => ?_, fun p hp => ?_, fun hfree hl => ?_, fun hfree p hs hchan => ?_⟩
  · exact (((howned.of_mine hp.1).2.1 q).mp hq.1).symm
  · obtain ⟨hlocked, -, -, hpid⟩ := howned.of_mine hp.1
    refine ⟨hlocked, ?_⟩
    rw [pid_reachable h]
    exact hpid fun hz => hp.2.1 (label_of_next hz)
  · cases howned with
    | free hlocked hmine hother => exact absurd hlocked hl
    | taken p hlocked hmine hother hpid =>
      have hnot : ∃ d : Locks, ¬ (d.lk lk).locked = 1 := ⟨unlocked, by simp [unlocked]⟩
      exact ⟨p, (hmine p).mpr rfl, label_ne_of_free (x := .sign lk) hw hknown hfree rfl hnot p,
        label_ne_of_free (x := .acquireUnlock lk) hw hknown hfree rfl hnot p⟩
  · have hreason := SleepRule.sleeper_has_reason plan_sound (x := .idle) rfl
      (fun t ht q y hy => by
        have := known_reachable ht q
        rwa [hy] at this) h hs (by rw [hchan]; exact hfree)
    exact hreason lk hchan

/-- `holdingsleep` answers for the caller, when no two processes have one pid. -/
theorem holdingsleep_right (h : Runs.Reachable (step (program pidOf)) (initial k used n) s)
    (hinj : Function.Injective pidOf) (hp : s.pc p = .here (.hold lk)) :
    (s.data.lk lk).locked ≠ 0 ∧ (s.data.lk lk).pid = pidOf p ↔ s.data.mine p lk = true := by
  have hw := SleepRule.wf_reaches plan_sound rfl h
  have hnext : next s p ≠ .sign lk := by simp [next, hp, Pc.label, nextAct]
  have howned := owned_reachable h lk
  constructor
  · rintro ⟨hlocked, hpid⟩
    cases howned with
    | free hfree hmine hother => exact absurd hfree hlocked
    | taken q hone hmine hother hsigned =>
      refine (hmine p).mpr (hinj ?_)
      rw [← hpid]
      -- who signs the lock would hold the spin lock that `p` has
      refine (hsigned fun hq => ?_)
      obtain ⟨c, hc, hin⟩ := core_of_label hw (known_reachable h) (label_of_next hq) rfl
        ⟨unlocked, by simp [plan, unlocked]⟩
      obtain ⟨e, he⟩ : ∃ d, s.core d = .run p := by
        by_contra hn
        have hpark := hw.parked p fun d hd => hn ⟨d, hd⟩
        rwa [hp] at hpark
      have hmem : .inner lk ∈ s.held e := by
        rw [(hw.run e p he).1, hp]
        simp [Plan.heldAt, plan]
      obtain rfl := hw.one _ _ _ hin hmem
      obtain rfl := Core.run.inj (hc.symm.trans he)
      exact hnext hq
  · intro hmine
    obtain ⟨hlocked, -, -, hpid⟩ := howned.of_mine hmine
    exact ⟨by omega, hpid hnext⟩

/-- The process with pid 1 has the lock and asks. -/
theorem holdingsleep_right_holder : ∃ s : State Locks Label Lock 1,
    s.pc 0 = .here (.hold 7) ∧ (s.data.lk 7).locked ≠ 0 ∧ (s.data.lk 7).pid = 1 := by
  let asks : List (Action Choice) :=
    .sched :: .dispatch 0 :: List.replicate 7 (.run (.acquiresleep 7)) ++
    List.replicate 2 (.run (.holdingsleep 7))
  have h : Runs.Reachable (step (program fun p => p.val + 1))
      (initial zeroed (fun _ => true) 1) _ :=
    Runs.reachable_of_exec (l := asks.map (0, ·)) rfl
  have hinj : Function.Injective fun p : Slot => (p.val : Int) + 1 := by
    intro p q h
    have h : (p.val : Int) + 1 = q.val + 1 := h
    exact Fin.ext (by omega)
  exact ⟨_, rfl, (holdingsleep_right (p := 0) h hinj rfl).mpr rfl⟩

end Runs

instance {n : Nat} (s : State Locks Label Lock n) (p : Slot) (lk : Nat) :
    Decidable (Holding s p lk) :=
  inferInstanceAs (Decidable (_ ∧ _ ∧ _))

/-- Process 0 takes a lock and is preempted, and process 1 waits for the lock. -/
def takeAndWait : List (Fin 1 × Action Choice) :=
  let go : Choice := .acquiresleep 7
  [.sched, .dispatch 0, .run go, .run go, .run go, .run go, .run go, .run go, .run go, .preempt,
    .dispatch 1, .run go, .run go, .run go, .run go, .run go, .run go, .run go, .pause].map
    fun a => (0, a)

/-- Then process 0 holds the lock, and process 1 sleeps with reason. -/
theorem sleeplock_held_waiter : ∃ s : State Locks Label Lock 1, Holding s 0 7 ∧
    (s.k.proc 1).state = .sleeping ∧ (s.k.proc 1).chan = .addr 7 ∧
    (s.data.lk 7).locked = 1 ∧ (s.data.lk 7).pid = (s.k.proc 0).pid := by
  obtain ⟨s, hr, hholding, hsleep, hchan⟩ : ∃ s : State Locks Label Lock 1,
      Runs.Reachable (step (program fun p => (zeroed.proc p).pid))
        (initial zeroed (fun _ => true) 1) s ∧
        Holding s 0 7 ∧ (s.k.proc 1).state = .sleeping ∧ (s.k.proc 1).chan = .addr 7 :=
    Runs.exists_of_exec (l := takeAndWait) (by decide +kernel)
  exact ⟨s, hholding, hsleep, hchan, (sleeplock_held _ _ _ _ hr 7).2.1 0 hholding⟩

end Xv6.SleepLocks
