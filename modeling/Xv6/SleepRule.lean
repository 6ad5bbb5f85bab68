import Xv6.SleepPlan

/-!
# The rule for sleeping

A channel goes with a lock. A process sleeps for a reason it has checked with the
lock held; whoever takes that reason away holds the lock and keeps it until the
channel has been woken. Programs that keep to this never lose a wakeup: a sleeper
has its reason, unless a process that holds the lock is about to wake it.
-/
namespace Xv6.SleepRule

open Function (update)
open ProcTable Kthread SleepPlan

variable {σ κ ℓ L : Type} {n : Nat} {D : Plan σ ℓ L} {P : Program σ κ ℓ L}
  {s s' : State σ ℓ L n} {c : Fin n} {p : Slot}

/-- A process that holds the lock of the channel owes a wakeup of it. -/
def Owing (D : Plan σ ℓ L) (P : Program σ κ ℓ L) (s : State σ ℓ L n) (chan : Chan) : Prop :=
  ∃ c q, s.core c = .run q ∧ D.lockOf chan ∈ D.heldAt P (s.pc q) ∧ D.OwesAt chan (s.pc q)

/-- A process has checked its reason to sleep, still with the lock held. -/
def Tested (P : Program σ κ ℓ L) (chan : Chan) : Pc ℓ L → Prop
  | .here x => ∃ lk z, P.code x = .sleep chan lk z
  | .swap a => a.chan = chan
  | _ => False

/-- A process sleeps, or is about to without the lock. -/
def Sleeper (chan : Chan) (st : ProcState) : Pc ℓ L → Prop
  | .doze a => a.chan = chan
  | .asleep a => st = .sleeping ∧ a.chan = chan
  | _ => False

instance (chan : Chan) (st : ProcState) (q : Pc ℓ L) : Decidable (Sleeper chan st q) :=
  match q with
  | .doze a => inferInstanceAs (Decidable (a.chan = chan))
  | .asleep a => inferInstanceAs (Decidable (st = .sleeping ∧ a.chan = chan))
  | .here _ | .swap _ | .undo _ | .redo _ | .inside _ _ | .leave _ | .yielded _ => .isFalse id

/-- Reasons to sleep last until a wakeup is owed. -/
structure Reasons (D : Plan σ ℓ L) (P : Program σ κ ℓ L) (s : State σ ℓ L n) : Prop where
  tested : ∀ r chan, Tested P chan (s.pc r) → D.Reason chan r s.data
  kept : ∀ r chan, Sleeper chan (s.k.proc r).state (s.pc r) →
    D.Reason chan r s.data ∨ Owing D P s chan

/-- A process that has checked its reason runs with the lock of the channel. -/
theorem tested_held [DecidableEq L] (hD : D.Sound P) (h : Wf D P s) {r : Slot} {chan : Chan}
    (ht : Tested P chan (s.pc r)) :
    ∃ d, s.core d = .run r ∧ D.lockOf chan ∈ s.held d := by
  have hrun : ∃ d, s.core d = .run r := by
    by_contra hno
    have hp := h.parked r fun d hd => hno ⟨d, hd⟩
    cases hpc : s.pc r <;> simp_all [Parked, Tested]
  obtain ⟨d, hd⟩ := hrun
  refine ⟨d, hd, ?_⟩
  rw [(h.run d r hd).1]
  have hf := h.fits r
  cases hpc : s.pc r with
  | here x =>
    rw [hpc] at ht
    obtain ⟨lk, z, hx⟩ := ht
    have ho := hD.ok x
    simp only [Plan.Ok, hx] at ho
    simp [Plan.heldAt, ho.1, ho.2.2.1]
  | swap a =>
    rw [hpc] at ht hf
    obtain rfl : a.chan = chan := ht
    simp [Plan.heldAt, hf.1.2.1]
  | _ => simp [hpc, Tested] at ht

/-- A process that is about to sleep runs with `ptable.lock`; one that sleeps does so
on the channel. -/
theorem sleeper_cases (h : Wf D P s) {r : Slot} {chan : Chan}
    (hs : Sleeper chan (s.k.proc r).state (s.pc r)) :
    (∃ d, s.core d = .run r ∧ P.ptable ∈ s.held d) ∨
      (s.k.proc r).state = .sleeping ∧ (s.k.proc r).chan = chan := by
  cases hpc : s.pc r with
  | doze a =>
    have hrun : ∃ d, s.core d = .run r := by
      by_contra hno
      have hp := h.parked r fun d hd => hno ⟨d, hd⟩
      simp [hpc, Parked] at hp
    obtain ⟨d, hd⟩ := hrun
    refine .inl ⟨d, hd, ?_⟩
    rw [(h.run d r hd).1, hpc]
    simp [Plan.heldAt]
  | asleep a =>
    rw [hpc] at hs
    obtain ⟨b, hb, hchan⟩ := h.nap r hs.1
    obtain rfl : a = b := by simpa [hpc] using hb
    exact .inr ⟨hs.1, hchan.symm.trans hs.2⟩
  | _ => simp [hpc, Sleeper] at hs

/-- A process takes a step without switching: it takes no reason away unless it owes
the wakeup afterwards, and what it owed it still owes or has paid. -/
theorem Reasons.advance [DecidableEq L] (hD : D.Sound P) (hw : Wf D P s) (hR : Reasons D P s)
    (hc : s.core c = .run p) {q : Pc ℓ L} (hcore : s'.core = s.core)
    (hpc : s'.pc = update s.pc p q) (hk : ∀ r, Woken s.k s'.k r)
    (hdata : ∀ chan r, r ≠ p → D.Reason chan r s.data → D.Reason chan r s'.data ∨
      D.lockOf chan ∈ s.held c ∧ D.lockOf chan ∈ D.heldAt P q ∧ D.OwesAt chan q)
    (hpay : ∀ chan, D.lockOf chan ∈ s.held c → D.OwesAt chan (s.pc p) →
      (D.lockOf chan ∈ D.heldAt P q ∧ D.OwesAt chan q) ∨
      P.ptable ∈ s.held c ∧
        ∀ r, (s'.k.proc r).state = .sleeping → (s.k.proc r).chan ≠ chan)
    (htest : ∀ chan, Tested P chan q → D.Reason chan p s'.data)
    (hsleep : ∀ chan st, Sleeper chan st q → D.Reason chan p s'.data) : Reasons D P s' := by
  have hpcp : s'.pc p = q := by simp [hpc]
  have hpcne : ∀ {r}, r ≠ p → s'.pc r = s.pc r := fun {r} hr => by simp [hpc, hr]
  have howe : ∀ chan, D.lockOf chan ∈ D.heldAt P q → D.OwesAt chan q → Owing D P s' chan :=
    fun chan hl ho => ⟨c, p, hcore ▸ hc, hpcp ▸ hl, hpcp ▸ ho⟩
  -- nobody else is on this CPU
  have hother : ∀ {d r}, r ≠ p → s.core d = .run r → ∀ {l}, l ∈ s.held c → l ∉ s.held d := by
    intro d r hr hd l hl hl'
    obtain rfl := hw.one l c d hl hl'
    exact hr (Core.run.inj (hd.symm.trans hc))
  constructor
  case tested =>
    intro r chan ht
    by_cases hr : r = p
    · subst hr
      exact htest chan (hpcp ▸ ht)
    · rw [hpcne hr] at ht
      obtain ⟨d, hd, hl⟩ := tested_held hD hw ht
      rcases hdata chan r hr (hR.tested r chan ht) with h | ⟨hmine, -⟩
      · exact h
      · exact (hother hr hd hmine hl).elim
  case kept =>
    intro r chan hs
    by_cases hr : r = p
    · subst hr
      exact .inl (hsleep chan _ (hpcp ▸ hs))
    · rw [hpcne hr] at hs
      have hs₀ : Sleeper chan (s.k.proc r).state (s.pc r) := by
        cases hq : s.pc r with
        | asleep a =>
          rw [hq] at hs
          rcases hk r with h | ⟨-, h⟩
          · exact ⟨h ▸ hs.1, hs.2⟩
          · simp [Sleeper, h] at hs
        | doze a =>
          rw [hq] at hs
          exact hs
        | _ => simp [hq, Sleeper] at hs
      rcases hR.kept r chan hs₀ with h | ⟨d, t, hd, hl, ho⟩
      · rcases hdata chan r hr h with h | ⟨-, hl, ho⟩
        · exact .inl h
        · exact .inr (howe chan hl ho)
      by_cases ht : t = p
      · subst ht
        have hl' : D.lockOf chan ∈ s.held c := by rwa [(hw.run c t hc).1]
        rcases hpay chan hl' ho with ⟨hl, ho⟩ | ⟨hpt, hwoke⟩
        · exact .inr (howe chan hl ho)
        -- the wakeup has just been paid, so `r` cannot be a sleeper
        exfalso
        rcases sleeper_cases hw hs₀ with ⟨e, he, hpt'⟩ | ⟨hst, hchan⟩
        · exact hother hr he hpt hpt'
        · cases hq : s.pc r with
          | asleep a =>
            rw [hq] at hs
            exact hwoke r hs.1 hchan
          | doze a =>
            obtain ⟨b, hb, -⟩ := hw.nap r hst
            simp [hq] at hb
          | _ => simp [hq, Sleeper] at hs
      · exact .inr ⟨d, t, hcore ▸ hd, hpcne ht ▸ hl, hpcne ht ▸ ho⟩

/-- A CPU switches: processes that owe a wakeup go on as they are. -/
theorem Reasons.switch (hR : Reasons D P s) (hdata : s'.data = s.data)
    (hrun : ∀ d r chan, s.core d = .run r → D.lockOf chan ∈ D.heldAt P (s.pc r) →
      D.OwesAt chan (s.pc r) → s'.core d = .run r ∧ s'.pc r = s.pc r)
    (htest : ∀ r chan, Tested P chan (s'.pc r) → Tested P chan (s.pc r))
    (hsleep : ∀ r chan, Sleeper chan (s'.k.proc r).state (s'.pc r) →
      Sleeper chan (s.k.proc r).state (s.pc r) ∨ Tested P chan (s.pc r)) : Reasons D P s' := by
  constructor
  case tested =>
    intro r chan ht
    rw [hdata]
    exact hR.tested r chan (htest r chan ht)
  case kept =>
    intro r chan hs
    rw [hdata]
    rcases hsleep r chan hs with hs | ht
    · rcases hR.kept r chan hs with h | ⟨d, t, hd, hl, ho⟩
      · exact .inl h
      · obtain ⟨hd', hpc⟩ := hrun d t chan hd hl ho
        exact .inr ⟨d, t, hd', hpc ▸ hl, hpc ▸ ho⟩
    · exact .inl (hR.tested r chan ht)

/-- A process calls `sched` from a place where it owes nothing. -/
theorem Reasons.switchOut (hR : Reasons D P s) (hc : s.core c = .run p) {f : Proc → Proc}
    {q : Pc ℓ L} (howe : ∀ chan, D.lockOf chan ∈ D.heldAt P (s.pc p) → ¬ D.OwesAt chan (s.pc p))
    (htest : ∀ chan, ¬ Tested P chan q)
    (hsleep : ∀ chan, Sleeper chan (f (s.k.proc p)).state q →
      Sleeper chan (s.k.proc p).state (s.pc p) ∨ Tested P chan (s.pc p)) :
    Reasons D P (s.switchOut c p f q) := by
  apply hR.switch
  · rfl
  · intro d r chan hd hl ho
    have hrp : r ≠ p := by
      rintro rfl
      exact howe chan hl ho
    have hdc : d ≠ c := by
      rintro rfl
      exact hrp (Core.run.inj (hd.symm.trans hc))
    simp [State.switchOut, State.goto, hrp, hdc, hd]
  · intro r chan ht
    by_cases hr : r = p
    · subst hr
      simp [State.switchOut, State.goto, htest] at ht
    · simpa [State.switchOut, State.goto, hr] using ht
  · intro r chan hs
    by_cases hr : r = p
    · subst hr
      exact hsleep chan (by simpa [State.switchOut, State.goto] using hs)
    · exact .inl (by simpa [State.switchOut, State.goto, hr] using hs)

theorem not_tested_here {y : ℓ} (h : Awake P y) (chan : Chan) : ¬ Tested P chan (.here y) := by
  rintro ⟨lk, z, hy⟩
  exact h chan lk z hy

/-- While the lock of its channel is free, a process that sleeps has its reason to. -/
theorem Reasons.of_free (hR : Reasons D P s) (hw : Wf D P s)
    (hs : (s.k.proc p).state = .sleeping) (hfree : s.Free (D.lockOf (s.k.proc p).chan)) :
    D.Reason (s.k.proc p).chan p s.data := by
  obtain ⟨a, ha, hchan⟩ := hw.nap p hs
  have hsleeper : Sleeper (s.k.proc p).chan (s.k.proc p).state (s.pc p) := by
    rw [ha]
    exact ⟨hs, hchan⟩
  rcases hR.kept p _ hsleeper with hr | ⟨c, q, hc, hl, -⟩
  · exact hr
  · rw [← (hw.run c q hc).1] at hl
    exact (hfree c hl).elim

theorem start_wf {x : ℓ} (hx : D.held x = []) (k : Kernel) (d : σ) (used : Slot → Bool) :
    Wf D P (start k d used x : State σ ℓ L n) where
  fits := fun _ => ⟨trivial, hx⟩
  idle := fun _ _ => rfl
  scan := by simp [start]
  run := by simp [start]
  one := by simp [start]
  unique := by simp [start]
  parked := fun _ _ => trivial
  nap := by
    intro p hp
    simp only [start] at hp
    split at hp <;> cases hp

theorem start_reasons {x : ℓ} (k : Kernel) (d : σ) (used : Slot → Bool) :
    Reasons D P (start k d used x : State σ ℓ L n) where
  tested := fun _ _ ht => ht.elim
  kept := fun _ _ hs => hs.elim

section Steps

variable [DecidableEq L]

theorem Tested.heldAt_ne_nil (hD : D.Sound P) {q : Pc ℓ L} {chan : Chan} (h : Tested P chan q) :
    D.heldAt P q ≠ [] := by
  cases q with
  | here x =>
    obtain ⟨lk, z, hx⟩ := h
    have ho := hD.ok x
    simp only [Plan.Ok, hx] at ho
    simp [Plan.heldAt, ho.1]
  | swap a => simp [Plan.heldAt]
  | _ => simp [Tested] at h

/-- A process moves on without touching the data. -/
theorem Reasons.moveOn (hD : D.Sound P) (hw : Wf D P s) (hR : Reasons D P s)
    (hc : s.core c = .run p) {q : Pc ℓ L} (hcore : s'.core = s.core)
    (hpc : s'.pc = update s.pc p q) (hk : ∀ r, Woken s.k s'.k r) (hdata : s'.data = s.data)
    (hpay : ∀ chan, D.lockOf chan ∈ s.held c → D.OwesAt chan (s.pc p) →
      (D.lockOf chan ∈ D.heldAt P q ∧ D.OwesAt chan q) ∨
      P.ptable ∈ s.held c ∧
        ∀ r, (s'.k.proc r).state = .sleeping → (s.k.proc r).chan ≠ chan)
    (htest : ∀ chan, Tested P chan q → Tested P chan (s.pc p))
    (hsleep : ∀ chan st, Sleeper chan st q → Tested P chan (s.pc p)) : Reasons D P s' := by
  apply hR.advance hD hw hc hcore hpc hk
  · intro chan r _ h
    exact .inl (hdata ▸ h)
  · exact hpay
  · intro chan ht
    rw [hdata]
    exact hR.tested p chan (htest chan ht)
  · intro chan st hs
    rw [hdata]
    exact hR.tested p chan (hsleep chan st hs)

theorem Reasons.move (hD : D.Sound P) (hw : Wf D P s) (hR : Reasons D P s)
    (hknows : ∀ p x, s.pc p = .here x → D.Knows x s.data) (hm : Move P s c s') :
    Reasons D P s' := by
  have hsame : ∀ r, Woken s.k s.k r := fun r => .inl rfl
  have hpays : ∀ {x chan}, D.Owes x chan → D.lockOf chan ∈ D.held x ∧ D.Pays P chan x :=
    fun ho => hD.owes _ _ ho
  cases hm with
  | @acquire _ x y _ hc hp hx | @release _ x y _ hc hp hx =>
    have ho := hD.ok x
    simp only [Plan.Ok, hx] at ho
    refine hR.moveOn hD hw hc (q := .here y) rfl rfl hsame rfl ?_ ?_ ?_
    · intro chan _ howe
      rw [hp] at howe
      have hy := (hpays howe).2
      simp only [Plan.Pays, hx] at hy
      exact .inl ⟨(hpays hy).1, hy⟩
    · exact fun chan ht => (not_tested_here ho.2 chan ht).elim
    · exact fun _ _ hs => hs.elim
  | @act p x y f k d hc hp hx hf =>
    have ho := hD.ok x
    simp only [Plan.Ok, hx] at ho
    have hact := (ho _ _ _ _ _ hf).2 (hknows p x hp)
    have hheld : s.held c = D.held x := by
      rw [(hw.run c p hc).1, hp]
      rfl
    refine hR.advance hD hw hc (q := .here y) rfl rfl hsame ?_ ?_ ?_ ?_
    · intro chan r hr h
      rcases hact.keep chan r hr h with h | ⟨hl, howe⟩
      · exact .inl h
      · exact .inr ⟨hheld ▸ hl, (hpays howe).1, howe⟩
    · intro chan _ howe
      rw [hp] at howe
      have hy := (hpays howe).2
      simp only [Plan.Pays, hx] at hy
      have hy := hy _ _ _ _ _ hf
      exact .inl ⟨(hpays hy).1, hy⟩
    · rintro chan ⟨lk, z, hy⟩
      exact hact.test chan lk z hy
    · exact fun _ _ hs => hs.elim
  | @sleepHeld p x y chan hc hp hx =>
    refine hR.switchOut hc ?_ ?_ ?_
    · intro chan' _ howe
      rw [hp] at howe
      have hy := (hpays howe).2
      simp only [Plan.Pays, hx] at hy
    · exact fun _ ht => ht
    · intro chan' hs
      rw [hp]
      exact .inr ⟨P.ptable, y, hs.2 ▸ hx⟩
  | @sleep p x y chan lk hc hp hx hlk hl =>
    refine hR.moveOn hD hw hc (q := .swap ⟨chan, lk, y⟩) rfl rfl hsame rfl ?_ ?_ ?_
    · intro chan' _ howe
      rw [hp] at howe
      have hy := (hpays howe).2
      simp only [Plan.Pays, hx] at hy
    · intro chan' ht
      rw [hp]
      exact ⟨lk, y, (show chan = chan' from ht) ▸ hx⟩
    · exact fun _ _ hs => hs.elim
  | @call p x y e hc hp hx hl =>
    have ho := hD.ok x
    simp only [Plan.Ok, hx] at ho
    refine hR.moveOn hD hw hc (q := .inside e y) rfl rfl hsame rfl ?_ ?_ ?_
    · intro chan _ howe
      rw [hp] at howe
      have hy := hpays howe
      simp only [Plan.Pays, hx] at hy
      exact .inl ⟨List.mem_cons_of_mem _ (ho.1 ▸ hy.1), hy.2⟩
    · exact fun _ ht => ht.elim
    · exact fun _ _ hs => hs.elim
  | @wakeup1 p x y chan hc hp hx =>
    have ho := hD.ok x
    simp only [Plan.Ok, hx] at ho
    have hheld : s.held c = D.held x := by
      rw [(hw.run c p hc).1, hp]
      rfl
    refine hR.moveOn hD hw hc (q := .here y) rfl rfl
      (fun r => (body_woken s.k (.wakeup chan) r).1) rfl ?_ ?_ ?_
    · intro chan' _ howe
      rw [hp] at howe
      have hy := (hpays howe).2
      simp only [Plan.Pays, hx] at hy
      rcases hy with rfl | hy
      · exact .inr ⟨hheld ▸ ho.2.1, fun r hr => wakeup_body s.k chan r hr⟩
      · exact .inl ⟨(hpays hy).1, hy⟩
    · exact fun chan' ht => (not_tested_here ho.2.2 chan' ht).elim
    · exact fun _ _ hs => hs.elim
  | @swap p a hc hp =>
    refine hR.moveOn hD hw hc (q := .doze a) rfl rfl hsame rfl ?_ ?_ ?_
    · exact fun chan _ howe => by simp [hp, Plan.OwesAt] at howe
    · exact fun _ ht => ht.elim
    · intro chan st hs
      rw [hp]
      exact hs
  | @doze p a hc hp =>
    refine hR.switchOut hc ?_ ?_ ?_
    · exact fun chan _ howe => by simp [hp, Plan.OwesAt] at howe
    · exact fun _ ht => ht
    · intro chan hs
      rw [hp]
      exact .inl hs.2
  | @woken p a hc hp =>
    have hf := hw.fits p
    rw [hp] at hf
    refine hR.moveOn hD hw hc (q := if a.lk = P.ptable then .here a.next else .undo a) rfl rfl ?_
      rfl ?_ ?_ ?_
    · intro r
      exact .inl (by simp)
    · exact fun chan _ howe => by simp [hp, Plan.OwesAt] at howe
    · intro chan ht
      split at ht
      · exact (not_tested_here hf.2.2 chan ht).elim
      · exact ht.elim
    · intro chan st hs
      split at hs
      · exact hs.elim
      · exact hs.elim
  | @undo p a hc hp =>
    refine hR.moveOn hD hw hc (q := .redo a) rfl rfl hsame rfl ?_ ?_ ?_
    · exact fun chan _ howe => by simp [hp, Plan.OwesAt] at howe
    · exact fun _ ht => ht.elim
    · exact fun _ _ hs => hs.elim
  | @redo p a hc hp hl =>
    have hf := hw.fits p
    rw [hp] at hf
    refine hR.moveOn hD hw hc (q := .here a.next) rfl rfl hsame rfl ?_ ?_ ?_
    · exact fun chan _ howe => by simp [hp, Plan.OwesAt] at howe
    · exact fun chan ht => (not_tested_here hf.1.2.2 chan ht).elim
    · exact fun _ _ hs => hs.elim
  | @inside p e y hc hp =>
    have hheld : s.held c = P.ptable :: D.held y := by
      rw [(hw.run c p hc).1, hp]
      rfl
    refine hR.moveOn hD hw hc (q := .leave y) rfl rfl
      (fun r => (body_woken s.k _ r).1) rfl ?_ ?_ ?_
    · intro chan hl howe
      rw [hp] at howe
      rcases howe with rfl | howe
      · exact .inr ⟨by simp [hheld], fun r hr => wakeup_body s.k chan r hr⟩
      · exact .inl ⟨by simpa [Plan.heldAt, hheld] using hl, howe⟩
    · exact fun _ ht => ht.elim
    · exact fun _ _ hs => hs.elim
  | @leave p y hc hp =>
    have hf := hw.fits p
    rw [hp] at hf
    refine hR.moveOn hD hw hc (q := .here y) rfl rfl hsame rfl ?_ ?_ ?_
    · intro chan _ howe
      rw [hp] at howe
      exact .inl ⟨(hpays howe).1, howe⟩
    · exact fun chan ht => (not_tested_here hf chan ht).elim
    · exact fun _ _ hs => hs.elim
  | @resume p q hc hp =>
    have hf := hw.fits p
    rw [hp] at hf
    refine hR.moveOn hD hw hc (q := q) rfl rfl hsame rfl ?_ ?_ ?_
    · exact fun chan _ howe => by simp [hp, Plan.OwesAt] at howe
    · exact fun chan ht => (ht.heldAt_ne_nil hD hf.2).elim
    · intro chan st hs
      have hnone := hf.2
      cases q <;> simp_all [Sleeper, Plan.heldAt]
  | @preempt p hc hh hl =>
    have hnone : D.heldAt P (s.pc p) = [] := (hw.run c p hc).1.symm.trans hh
    have hR' : Reasons D P (s.setHeld c [P.ptable]) := ⟨hR.tested, hR.kept⟩
    refine hR'.switchOut hc ?_ ?_ ?_
    · intro chan hl
      simp [State.setHeld, hnone] at hl
    · exact fun _ ht => ht
    · exact fun _ hs => hs.elim
  | sched hc | pause hc =>
    apply hR.switch
    · rfl
    · intro d r chan hd _ _
      have hdc : d ≠ c := by
        rintro rfl
        simp [hc] at hd
      simp [State.setHeld, hdc, hd]
    · exact fun _ _ ht => ht
    · exact fun _ _ hs => .inl hs
  | @dispatch p hc hr =>
    apply hR.switch
    · rfl
    · intro d r chan hd _ _
      have hdc : d ≠ c := by
        rintro rfl
        simp [hc] at hd
      simp [hdc, hd]
    · exact fun _ _ ht => ht
    · intro r chan hs
      by_cases hrp : r = p
      · subst hrp
        cases hq : s.pc r <;> simp_all [Sleeper]
      · exact .inl (by simpa [hrp] using hs)

/-- Along every run of a program that keeps to its plan. -/
theorem wf_reaches (hD : D.Sound P) {ok : State σ ℓ L n → Fin n × Action κ → Prop} {x : ℓ}
    (hx : D.held x = []) {k : Kernel} {d : σ} {used : Slot → Bool}
    (h : Runs.Reaches (step P) ok (start k d used x) s) : Wf D P s := by
  apply h.invariant (start_wf hx k d used)
  rintro t ⟨c, a⟩ u hw - hs
  exact hw.move hD (step_move hs)

/-- No wakeup is lost: when the lock of a channel is free, every process that sleeps on
the channel has its reason to. -/
theorem sleeper_has_reason (hD : D.Sound P) {x : ℓ} (hx : D.held x = []) {k : Kernel} {d : σ}
    {used : Slot → Bool}
    (hknows : ∀ t : State σ ℓ L n, Runs.Reachable (step P) (start k d used x) t →
      ∀ p y, t.pc p = .here y → D.Knows y t.data)
    (h : Runs.Reachable (step P) (start k d used x) s) {p : Slot}
    (hs : (s.k.proc p).state = .sleeping) (hfree : s.Free (D.lockOf (s.k.proc p).chan)) :
    D.Reason (s.k.proc p).chan p s.data := by
  have hw := wf_reaches hD hx h
  have hR : Reasons D P s := by
    apply h.invariant_of (Q := fun t => Wf D P t ∧ ∀ p y, t.pc p = .here y → D.Knows y t.data)
    · exact fun t ht => ⟨wf_reaches hD hx ht, hknows t ht⟩
    · exact start_reasons k d used
    · rintro t ⟨c, a⟩ u ⟨hw, hk⟩ hR - hs
      exact hR.move hD hw hk (step_move hs)
  exact hR.of_free hw hs hfree

end Steps

end Xv6.SleepRule
