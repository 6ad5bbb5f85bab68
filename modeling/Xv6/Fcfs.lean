import Xv6.Scheduler

/-!
# When the FCFS scan leaves its loop

`fcfs_scheduler` overwrites its loop variable with the RUNNABLE slot of smallest
`ctime`, which may lie before it, and goes on from there when that process may
not run. The scan is followed from any position of the table, so that both the
start of a call and the code after `swtch` are covered.
-/
namespace Xv6.Fcfs

open ProcTable Scheduler

/-- At most `n` iterations of the scan of `fcfs_scheduler` from slot `p`: the
step that leaves the loop, if one of them does. -/
def fcfsScan : Nat → Kernel → Nat → Option SchedStep
  | 0, _, _ => none
  | n + 1, k, p =>
    match schedStep .fcfs k (.scan p) with
    | .goto k (.scan q) => fcfsScan n k q
    | r => some r

/-- The scan reaches a dispatch or the end of the table, where the lock is released. -/
def Settles (k : Kernel) (p : Nat) : Prop :=
  ∃ n, (∃ k' q pc, fcfsScan n k p = some (.dispatch k' q pc)) ∨
    ∃ k', fcfsScan n k p = some (.finish k')

def Runnable (k : Kernel) (p : Slot) : Prop := (k.proc p).state = .runnable

/-- A RUNNABLE slot of smallest `ctime`. -/
def Oldest (k : Kernel) (i : Slot) : Prop :=
  Runnable k i ∧ ∀ x, Runnable k x → (k.proc i).ctime ≤ (k.proc x).ctime

/-- `running_p` runs elsewhere and is at least as old as every RUNNABLE slot, an
oldest RUNNABLE slot stands before a younger one, and a younger one is at or
after the position `p` of the scan. -/
def Trapped (k : Kernel) (p : Nat) : Prop :=
  ∃ r i j q : Slot, k.runningP = some r ∧ (k.proc r).state = .running ∧
    Oldest k i ∧ (k.proc r).ctime ≤ (k.proc i).ctime ∧
    Runnable k j ∧ i < j ∧ (k.proc i).ctime < (k.proc j).ctime ∧
    Runnable k q ∧ p ≤ q.val ∧ (k.proc i).ctime < (k.proc q).ctime

/-- The candidate of the scan is an oldest slot: the present one if that is
oldest, and otherwise the first oldest one. -/
theorem highP_oldest (k : Kernel) (p : Slot) (hp : Runnable k p) :
    Oldest k (highP Proc.ctime k p) ∧
      (highP Proc.ctime k p = p ∨ (k.proc (highP Proc.ctime k p)).ctime < (k.proc p).ctime ∧
        ∀ x, Oldest k x → highP Proc.ctime k p ≤ x) := by
  obtain ⟨h₁, h₂, h₃⟩ := highP_spec Proc.ctime (k := k) (m := fun p => (k.proc p).ctime.toNat)
    (fun a b => UInt32.lt_iff_toNat_lt) p hp
  refine ⟨⟨h₁, fun x hx => UInt32.le_iff_toNat_le.mpr (h₂ x hx)⟩, h₃.imp_right ?_⟩
  rintro ⟨h₄, h₅⟩
  refine ⟨UInt32.lt_iff_toNat_lt.mpr h₄, fun x hx => h₅ x hx.1 (Nat.le_antisymm ?_ (h₂ x hx.1))⟩
  exact UInt32.le_iff_toNat_le.mp (hx.2 _ h₁)

theorem mayRun_eq_false {k : Kernel} {p : Slot} :
    fcfsMayRun k p = false ↔ ∃ r, k.runningP = some r ∧ (k.proc r).state = .running ∧
      (k.proc r).ctime ≤ (k.proc p).ctime := by
  unfold fcfsMayRun
  cases hr : k.runningP with
  | none => simp
  | some r => by_cases hs : (k.proc r).state = .running <;> simp [hs]

/-- All oldest slots have the same `ctime`. -/
theorem Oldest.le {k : Kernel} {i x : Slot} (hi : Oldest k i) (hx : Oldest k x) :
    (k.proc i).ctime ≤ (k.proc x).ctime := hi.2 x hx.1

/-- A slot that no oldest one is strictly older than is oldest itself. -/
theorem Oldest.of_not_lt {k : Kernel} {i x : Slot} (hi : Oldest k i) (hx : Runnable k x)
    (h : ¬ (k.proc i).ctime < (k.proc x).ctime) : Oldest k x :=
  ⟨hx, fun y hy => UInt32.le_trans (UInt32.not_lt.mp h) (hi.2 y hy)⟩

/-- One iteration that goes on: either past a slot, or back to the candidate. -/
theorem fcfsScan_goto {k : Kernel} {p q : Nat}
    (h : schedStep .fcfs k (.scan p) = .goto k (.scan q)) (n : Nat) :
    fcfsScan (n + 1) k p = fcfsScan n k q := by
  simp [fcfsScan, h]

theorem settles_goto {k : Kernel} {p q : Nat}
    (h : schedStep .fcfs k (.scan p) = .goto k (.scan q)) (hq : Settles k q) : Settles k p := by
  obtain ⟨n, hn⟩ := hq
  exact ⟨n + 1, by simpa only [fcfsScan_goto h] using hn⟩

theorem settles_finish {k : Kernel} {p : Nat} (h : ¬ p < nproc) : Settles k p := by
  refine ⟨1, .inr ⟨k, ?_⟩⟩
  simp [fcfsScan, schedStep, slotAt, h]

theorem settles_dispatch {k : Kernel} (p : Slot) (hp : Runnable k p)
    (hm : fcfsMayRun k (highP Proc.ctime k p) = true) : Settles k p := by
  have hs : (k.proc p).state = .runnable := hp
  refine ⟨1, .inl ?_⟩
  simp [fcfsScan, schedStep, fcfsScheduler, hs, hm]

theorem step_skip {k : Kernel} (p : Slot) (hp : ¬ Runnable k p) :
    schedStep .fcfs k (.scan p) = .goto k (.scan (p + 1)) := by
  have hs : (k.proc p).state ≠ .runnable := hp
  simp [schedStep, fcfsScheduler, hs]

theorem step_back {k : Kernel} (p : Slot) (hp : Runnable k p)
    (hm : fcfsMayRun k (highP Proc.ctime k p) = false) :
    schedStep .fcfs k (.scan p) = .goto k (.scan (highP Proc.ctime k p + 1)) := by
  have hs : (k.proc p).state = .runnable := hp
  simp [schedStep, fcfsScheduler, hs, hm]

/-- A trapped scan takes one more iteration and is trapped again. -/
theorem Trapped.step {k : Kernel} {p : Nat} (h : Trapped k p) :
    ∃ q, schedStep .fcfs k (.scan p) = .goto k (.scan q) ∧ Trapped k q := by
  obtain ⟨r, i, j, q, hr, hs, hi, hri, hj, hij, hlt, hq, hpq, hqi⟩ := h
  obtain ⟨p, rfl⟩ : ∃ p' : Slot, p'.val = p := ⟨⟨p, lt_of_le_of_lt hpq q.isLt⟩, rfl⟩
  by_cases hp : Runnable k p
  · obtain ⟨ho, hcase⟩ := highP_oldest k p hp
    have hm : fcfsMayRun k (highP Proc.ctime k p) = false :=
      mayRun_eq_false.mpr ⟨r, hr, hs, UInt32.le_trans hri (hi.le ho)⟩
    refine ⟨_, step_back p hp hm, ?_⟩
    rcases hcase with he | ⟨-, hfirst⟩
    · -- The present slot is oldest, so the younger slot ahead is another one.
      have hne : q ≠ p := by
        rintro rfl
        exact UInt32.not_lt.mpr (by simpa only [he] using ho.le hi) hqi
      have hv : q.val ≠ p.val := fun hv => hne (Fin.ext hv)
      exact ⟨r, i, j, q, hr, hs, hi, hri, hj, hij, hlt, hq, by rw [he]; omega, hqi⟩
    · -- Back to the first oldest slot: slot `j` is ahead again.
      have hle : (highP Proc.ctime k p).val < j.val := lt_of_le_of_lt (hfirst i hi) hij
      exact ⟨r, i, j, j, hr, hs, hi, hri, hj, hij, hlt, hj, hle, hlt⟩
  · have hne : q.val ≠ p.val := fun hv => hp (Fin.ext hv ▸ hq)
    exact ⟨_, step_skip p hp, r, i, j, q, hr, hs, hi, hri, hj, hij, hlt, hq, by omega, hqi⟩

theorem Trapped.never {k : Kernel} (n : Nat) {p : Nat} (h : Trapped k p) :
    fcfsScan n k p = none := by
  induction n generalizing p with
  | zero => rfl
  | succ n ih =>
    obtain ⟨q, hq, hq'⟩ := h.step
    rw [fcfsScan_goto hq]
    exact ih hq'

theorem Trapped.not_settles {k : Kernel} {p : Nat} (h : Trapped k p) : ¬ Settles k p := by
  rintro ⟨n, ⟨k', q, pc, hn⟩ | ⟨k', hn⟩⟩ <;> simp [h.never n] at hn

/-- With only oldest slots ahead the scan moves forward one slot at a time. -/
theorem settles_of_oldest {k : Kernel} (d : Nat) (p : Nat) (hd : nproc ≤ p + d)
    (h : ∀ x : Slot, p ≤ x.val → Runnable k x → Oldest k x) : Settles k p := by
  induction d generalizing p with
  | zero => exact settles_finish (by omega)
  | succ d ih =>
    by_cases hlt : p < nproc
    · obtain ⟨p, rfl⟩ : ∃ p' : Slot, p'.val = p := ⟨⟨p, hlt⟩, rfl⟩
      have hnext := ih (p + 1) (by omega) fun x hx => h x (by omega)
      by_cases hp : Runnable k p
      · obtain ⟨ho, hcase⟩ := highP_oldest k p hp
        have he : highP Proc.ctime k p = p := by
          refine hcase.resolve_right fun hc => ?_
          exact UInt32.not_lt.mpr ((h p le_rfl hp).le ho) hc.1
        cases hm : fcfsMayRun k (highP Proc.ctime k p) with
        | true => exact settles_dispatch p hp hm
        | false => exact settles_goto (step_back p hp hm) (by rwa [he])
      · exact settles_goto (step_skip p hp) hnext
    · exact settles_finish hlt

/-- A scan that is not trapped moves forward until it dispatches, ends, or goes
back once to the first oldest slot, after which only oldest slots remain. -/
theorem settles_of_not_trapped {k : Kernel} (d : Nat) (p : Nat) (hd : nproc ≤ p + d)
    (h : ¬ Trapped k p) : Settles k p := by
  induction d generalizing p with
  | zero => exact settles_finish (by omega)
  | succ d ih =>
    by_cases hlt : p < nproc
    · obtain ⟨p, rfl⟩ : ∃ p' : Slot, p'.val = p := ⟨⟨p, hlt⟩, rfl⟩
      have hnext : Settles k (p + 1) := by
        refine ih (p + 1) (by omega) fun ht => h ?_
        obtain ⟨r, i, j, q, h₁, h₂, h₃, h₄, h₅, h₆, h₇, h₈, h₉, h₁₀⟩ := ht
        exact ⟨r, i, j, q, h₁, h₂, h₃, h₄, h₅, h₆, h₇, h₈, by omega, h₁₀⟩
      by_cases hp : Runnable k p
      · obtain ⟨ho, hcase⟩ := highP_oldest k p hp
        cases hm : fcfsMayRun k (highP Proc.ctime k p) with
        | true => exact settles_dispatch p hp hm
        | false =>
          refine settles_goto (step_back p hp hm) ?_
          rcases hcase with he | ⟨hage, -⟩
          · rwa [he]
          · obtain ⟨r, hr, hs, hro⟩ := mayRun_eq_false.mp hm
            refine settles_of_oldest nproc _ (by omega) fun x hx hxr => ho.of_not_lt hxr ?_
            intro hyounger
            exact h ⟨r, _, x, p, hr, hs, ho, hro, hxr, Fin.lt_def.mpr hx, hyounger, hp,
              le_rfl, hage⟩
      · exact settles_goto (step_skip p hp) hnext
    · exact settles_finish hlt

/-- From any position, for any table and any `running_p`, the scan leaves its
loop exactly when it is not trapped. -/
theorem fcfs_scan_settles_iff (k : Kernel) (p : Nat) : Settles k p ↔ ¬ Trapped k p :=
  ⟨fun hs ht => ht.not_settles hs, settles_of_not_trapped nproc p (by omega)⟩

/-- Slot 0 RUNNING on another CPU, created before the two RUNNABLE slots 1 and 2. -/
def twoWaiting : Kernel :=
  { zeroed with
    proc := fun p =>
      { zeroed.proc p with
        state := if p = 0 then .running else if p ≤ 2 then .runnable else .unused
        pid := if p ≤ 2 then p.val + 1 else 0
        ctime := if p = 0 then 0 else if p = 1 then 5 else if p = 2 then 7 else 0 }
    nextpid := 4
    initproc := some 0
    runningP := some 0 }

/-- A call of `fcfs_scheduler` on that table never leaves its scan. -/
theorem fcfs_scan_hangs : ¬ Settles twoWaiting 0 := by
  refine Trapped.not_settles ⟨0, 1, 2, 2, rfl, rfl, ⟨rfl, ?_⟩, by decide, rfl, by decide,
    by decide, rfl, by decide, by decide⟩
  unfold Runnable
  decide

end Xv6.Fcfs
