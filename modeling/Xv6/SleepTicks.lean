import Mathlib.Data.UInt
import Xv6.Runs

/-!
# Sleeping for a number of ticks

`sys_sleep` of sysproc.c and the timer interrupt of trap.c. The loop tests its condition
with `tickslock` held, so that no tick comes between the reading of `ticks0` and the first
test. Ticks, scheduling and kill come in any order; the history has the number of ticks
since the start, which unlike `ticks` does not wrap, and what it was at each test.
-/
namespace Xv6.SleepTicks

open Runs

inductive Phase where
  | asleep
  | ready
  | returned (r : Int)
  deriving DecidableEq

structure Sleeper where
  n : Int32
  ticks : UInt32
  ticks0 : UInt32
  killed : Bool
  phase : Phase
  elapsed : Nat
  /-- The ticks elapsed at the tests made so far, the last one first. -/
  checks : List Nat
  deriving DecidableEq

/-- The condition of the loop, `ticks - ticks0 < n`: the int is converted to uint. -/
def waits (s : Sleeper) : Bool := s.ticks - s.ticks0 < s.n.toUInt32

/-- One test of the condition, and what follows it until the process sleeps or returns. -/
def check (s : Sleeper) : Sleeper :=
  { s with
    checks := s.elapsed :: s.checks
    phase := if waits s then if s.killed then .returned (-1) else .asleep else .returned 0 }

/-- `wakeup(&ticks)`, and what `kill` does to a process that sleeps. -/
def wakeup (s : Sleeper) : Sleeper :=
  { s with phase := if s.phase = .asleep then .ready else s.phase }

inductive Action where
  | timer
  | schedule
  | kill
  deriving DecidableEq

def step (s : Sleeper) : Action → Option Sleeper
  | .timer => some (wakeup { s with ticks := s.ticks + 1, elapsed := s.elapsed + 1 })
  | .schedule => if s.phase = .ready then some (check s) else none
  | .kill => some (wakeup { s with killed := true })

/-- A process that has called `sleep(n)` and made the first test. -/
def sysSleep (n : Int32) (ticks : UInt32) : Sleeper :=
  check { n, ticks, ticks0 := ticks, killed := false, phase := .ready, elapsed := 0, checks := [] }

/-- Nobody kills the process. -/
def Unkilled (_ : Sleeper) (a : Action) : Prop := a ≠ .kill

instance (s : Sleeper) (a : Action) : Decidable (Unkilled s a) :=
  inferInstanceAs (Decidable (a ≠ .kill))

/-- The process has returned 0 if it was to be let go, and has not returned otherwise. -/
def LetGo (go : Prop) (p : Phase) : Prop :=
  (go ∧ p = .returned 0) ∨ (¬ go ∧ (p = .asleep ∨ p = .ready))

theorem LetGo.returned {go : Prop} {p : Phase} (h : LetGo go p) : go ↔ p = .returned 0 := by
  obtain ⟨hg, hp⟩ | ⟨hg, hp | hp⟩ := h <;> simp [hg, hp]

theorem LetGo.of_iff {go go' : Prop} {p : Phase} (h : LetGo go p) (hiff : go ↔ go') : LetGo go' p :=
  propext hiff ▸ h

/-- The process has returned 0 if at least `n` ticks had elapsed at its last test, and has not
returned otherwise; at each earlier test fewer had elapsed. -/
def Punctual (s : Sleeper) : Prop :=
  ∃ e l, s.checks = e :: l ∧ (∀ d ∈ l, (d : Int) < s.n.toInt) ∧
    LetGo (s.n.toInt ≤ e) s.phase

/-- What the loop decides by: the ticks elapsed modulo 2^32 against the bits of `n`. -/
structure Slept (s : Sleeper) : Prop where
  ticks : s.ticks = s.ticks0 + UInt32.ofNat s.elapsed
  alive : s.killed = false
  checked : ∃ e l, s.checks = e :: l ∧ (∀ d ∈ l, d % 2 ^ 32 < s.n.toUInt32.toNat) ∧
    LetGo (s.n.toUInt32.toNat ≤ e % 2 ^ 32) s.phase

theorem waits_iff {s : Sleeper} (h : s.ticks = s.ticks0 + UInt32.ofNat s.elapsed) :
    waits s = true ↔ s.elapsed % 2 ^ 32 < s.n.toUInt32.toNat := by
  have hsub : s.ticks - s.ticks0 = UInt32.ofNat s.elapsed := by
    rw [h, add_comm, add_sub_cancel_right]
  rw [waits, hsub, decide_eq_true_iff, UInt32.lt_iff_toNat_lt, UInt32.toNat_ofNat']

theorem Slept.check {s : Sleeper} (ht : s.ticks = s.ticks0 + UInt32.ofNat s.elapsed)
    (hk : s.killed = false) (hl : ∀ d ∈ s.checks, d % 2 ^ 32 < s.n.toUInt32.toNat) :
    Slept (check s) := by
  refine ⟨ht, hk, s.elapsed, s.checks, rfl, hl, ?_⟩
  have hw := waits_iff ht
  cases h : waits s with
  | true => exact .inr ⟨Nat.not_le.mpr (hw.mp h), .inl (by simp [SleepTicks.check, h, hk])⟩
  | false =>
    have hge := Nat.not_lt.mp (mt hw.mpr (by simp [h]))
    exact .inl ⟨hge, by simp [SleepTicks.check, h]⟩

theorem Slept.wakeup {s : Sleeper} (h : Slept s) : Slept (wakeup s) := by
  obtain ⟨ht, hk, e, l, hc, hl, hp⟩ := h
  refine ⟨ht, hk, e, l, hc, hl, ?_⟩
  obtain ⟨hgo, hp⟩ | ⟨hgo, hp⟩ := hp
  · exact .inl ⟨hgo, by simp [SleepTicks.wakeup, hp]⟩
  · exact .inr ⟨hgo, .inr (by obtain hp | hp := hp <;> simp [SleepTicks.wakeup, hp])⟩

theorem Slept.step {s t : Sleeper} {a : Action} (h : Slept s) (ha : Unkilled s a)
    (hs : step s a = some t) : Slept t := by
  cases a with
  | kill => exact absurd rfl ha
  | timer =>
    obtain rfl := Option.some.inj hs
    refine Slept.wakeup ⟨?_, h.alive, h.checked⟩
    show s.ticks + 1 = s.ticks0 + UInt32.ofNat (s.elapsed + 1)
    rw [h.ticks, UInt32.ofNat_add, add_assoc]
    rfl
  | schedule =>
    obtain ⟨hp, rfl⟩ := Runs.of_guarded hs
    refine Slept.check h.ticks h.alive ?_
    -- A process that is ready has not been let out by an earlier test.
    obtain ⟨e, l, hc, hl, hlast⟩ := h.checked
    have he : e % 2 ^ 32 < s.n.toUInt32.toNat := by
      by_contra hge
      have := hlast.returned.mp (Nat.not_lt.mp hge)
      rw [hp] at this
      cases this
    rw [hc]
    exact List.forall_mem_cons.mpr ⟨he, hl⟩

theorem slept {n : Int32} {ticks : UInt32} {s : Sleeper}
    (h : Reaches step Unkilled (sysSleep n ticks) s) : Slept s :=
  h.invariant (Slept.check (by simp) rfl (by simp)) fun _ _ _ hs ha hst => hs.step ha hst

theorem step_n {s t : Sleeper} {a : Action} (hs : step s a = some t) : t.n = s.n := by
  cases a with
  | timer => obtain rfl := Option.some.inj hs; rfl
  | kill => obtain rfl := Option.some.inj hs; rfl
  | schedule =>
    obtain ⟨-, rfl⟩ := Runs.of_guarded hs
    rfl

/-- The first test is made before any tick. -/
theorem zero_mem_checks {n : Int32} {ticks : UInt32} {s : Sleeper}
    (h : Reaches step Unkilled (sysSleep n ticks) s) : 0 ∈ s.checks := by
  refine h.invariant (P := fun s => 0 ∈ s.checks)
    (by simp [sysSleep, check]) fun s a t hm _ hs => ?_
  cases a with
  | timer => obtain rfl := Option.some.inj hs; exact hm
  | kill => obtain rfl := Option.some.inj hs; exact hm
  | schedule =>
    obtain ⟨-, rfl⟩ := Runs.of_guarded hs
    exact List.mem_cons_of_mem _ hm

theorem toNat_of_nonneg {n : Int32} (h : 0 ≤ n.toInt) : (n.toUInt32.toNat : Int) = n.toInt := by
  have hlt := n.toBitVec.isLt
  have := BitVec.toInt_eq_toNat_cond n.toBitVec
  change n.toInt = _ at this
  change ((n.toBitVec.toNat : Nat) : Int) = _
  split at this <;> omega

theorem toNat_of_neg {n : Int32} (h : n.toInt < 0) : 0 < n.toUInt32.toNat := by
  have := BitVec.toInt_eq_toNat_cond n.toBitVec
  change n.toInt = _ at this
  change 0 < n.toBitVec.toNat
  split at this <;> omega

/-- A sleeping process that nobody kills returns at the first test at which `n` ticks have
elapsed exactly if `n` is not negative and, at each test after at least `n` ticks, also the
number of ticks modulo 2^32 is at least `n`. -/
theorem punctual_iff (n : Int32) (ticks : UInt32) (s : Sleeper)
    (h : Reaches step Unkilled (sysSleep n ticks) s) :
    Punctual s ↔ 0 ≤ n.toInt ∧ ∀ e ∈ s.checks, n.toInt ≤ e → n.toInt ≤ (e % 2 ^ 32 : Nat) := by
  have hn : s.n = n :=
    h.invariant (P := fun s => s.n = n) rfl fun _ _ _ hn _ hs => (step_n hs).trans hn
  have hzero := zero_mem_checks h
  obtain ⟨-, -, e, l, hc, hl, hlast⟩ := slept h
  rw [hn] at hl hlast
  constructor
  · rintro ⟨e', l', hc', hl', hlast'⟩
    obtain ⟨rfl, rfl⟩ := List.cons.inj (hc.symm.trans hc')
    rw [hn] at hl' hlast'
    -- The last test decides as it should.
    have hsame : n.toInt ≤ e ↔ n.toUInt32.toNat ≤ e % 2 ^ 32 :=
      hlast'.returned.trans hlast.returned.symm
    have hpos : 0 ≤ n.toInt := by
      by_contra hneg
      have hneg := Int.not_le.mp hneg
      have hu := toNat_of_neg hneg
      rw [hc] at hzero
      obtain rfl | hmem := List.mem_cons.mp hzero
      · have := hsame.mp (by omega)
        omega
      · have := hl' 0 hmem
        omega
    have hu := toNat_of_nonneg hpos
    refine ⟨hpos, fun d hd hnd => ?_⟩
    rw [hc] at hd
    obtain rfl | hd := List.mem_cons.mp hd
    · have := hsame.mp hnd
      omega
    · have := hl' d hd
      omega
  · rintro ⟨hpos, hwrap⟩
    have hu := toNat_of_nonneg hpos
    have hsame : ∀ d ∈ s.checks, n.toUInt32.toNat ≤ d % 2 ^ 32 ↔ n.toInt ≤ d := by
      intro d hd
      have := hwrap d hd
      have := Nat.mod_le d (2 ^ 32)
      omega
    refine ⟨e, l, hc, fun d hd => ?_, ?_⟩
    · have := hl d hd
      have := hsame d (hc ▸ List.mem_cons_of_mem _ hd)
      rw [hn]
      omega
    · rw [hn]
      exact hlast.of_iff (hsame e (hc ▸ List.mem_cons_self))

/-- `sleep(1)` returns after one tick, also when `ticks` wraps. -/
theorem punctual_iff_one_tick :
    Punctual (check (wakeup { sysSleep 1 4294967295 with ticks := 0, elapsed := 1 })) :=
  (punctual_iff 1 4294967295 _ (reaches_of_execIf (l := [.timer, .schedule]) (by decide))).mpr
    (by decide)

/-- `sleep(-1)` goes to sleep. -/
theorem negative_sleeps :
    Reaches step Unkilled (sysSleep (-1) 0) (sysSleep (-1) 0) ∧ (sysSleep (-1) 0).phase = .asleep ∧
      ¬ Punctual (sysSleep (-1) 0) := by
  refine ⟨.refl, by decide, ?_⟩
  rintro ⟨e, l, -, -, hlast⟩
  have hneg : (sysSleep (-1) 0).n.toInt = -1 := by decide
  exact absurd (hlast.returned.mp (by omega)) (by decide)

end Xv6.SleepTicks
