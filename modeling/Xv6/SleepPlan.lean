import Xv6.Kthread

/-!
# Plans for sleeping

How a program uses its locks and channels, and what follows for the threads that
run it: each CPU holds the locks that the place of its process says, no lock has
two holders, and a SLEEPING process has called `sched` from `sleep`. The plan also
says why a process may sleep and who owes it a wakeup.
-/
namespace Xv6.SleepPlan

open Function (update update_of_ne)
open ProcTable Kthread

/-- How a program uses its locks and channels: what it holds at each label, the lock
of each channel, what is known of the data where an action is taken, why a process
sleeps, and where a process owes a wakeup. -/
structure Plan (σ ℓ L : Type) where
  held : ℓ → List L
  lockOf : Chan → L
  Knows : ℓ → σ → Prop
  Reason : Chan → Slot → σ → Prop
  Owes : ℓ → Chan → Prop

variable {σ κ ℓ L : Type} {n : Nat}

/-- The label is not a call of `sleep`. -/
def Awake (P : Program σ κ ℓ L) (y : ℓ) : Prop := ∀ chan lk z, P.code y ≠ .sleep chan lk z

/-- Who owes a wakeup at a label still does after it, or has paid. -/
def Plan.Pays (D : Plan σ ℓ L) (P : Program σ κ ℓ L) (chan : Chan) (x : ℓ) : Prop :=
  match P.code x with
  | .acquire _ y | .release _ y => D.Owes y chan
  | .act f => ∀ p k d d' y, f p k d = some (d', y) → D.Owes y chan
  | .sleep _ _ _ => False
  | .call e y => e = .wakeup chan ∨ D.Owes y chan
  | .wakeup1 chan' y => chan' = chan ∨ D.Owes y chan

/-- What an action may do: it comes to a call of `sleep` only with a reason, and takes
the reasons of others away only with the lock. -/
structure Plan.ActOk (D : Plan σ ℓ L) (P : Program σ κ ℓ L) (x : ℓ) (p : Slot) (d d' : σ) (y : ℓ) :
    Prop where
  test : ∀ chan lk z, P.code y = .sleep chan lk z → D.Reason chan p d'
  keep : ∀ chan r, r ≠ p → D.Reason chan r d →
    D.Reason chan r d' ∨ D.lockOf chan ∈ D.held x ∧ D.Owes y chan

/-- The program keeps to the plan at a label. -/
def Plan.Ok [DecidableEq L] (D : Plan σ ℓ L) (P : Program σ κ ℓ L) (x : ℓ) : Prop :=
  match P.code x with
  | .acquire l y => D.held y = l :: D.held x ∧ Awake P y
  | .release l y => D.held y = (D.held x).erase l ∧ Awake P y
  | .act f => ∀ p k d d' y, f p k d = some (d', y) →
    D.held y = D.held x ∧ (D.Knows x d → D.ActOk P x p d d' y)
  | .sleep chan lk y => D.held x = [lk] ∧ D.held y = [lk] ∧ lk = D.lockOf chan ∧ Awake P y
  | .call _ y => D.held y = D.held x ∧ Awake P y
  | .wakeup1 _ y => D.held y = D.held x ∧ P.ptable ∈ D.held x ∧ Awake P y

/-- The program keeps to the plan. -/
structure Plan.Sound [DecidableEq L] (D : Plan σ ℓ L) (P : Program σ κ ℓ L) : Prop where
  ok : ∀ x, D.Ok P x
  owes : ∀ x chan, D.Owes x chan → D.lockOf chan ∈ D.held x ∧ D.Pays P chan x

/-- The locks a process holds, or that its CPU will hold when it resumes. -/
def Plan.heldAt (D : Plan σ ℓ L) (P : Program σ κ ℓ L) : Pc ℓ L → List L
  | .here x => D.held x
  | .swap a => [P.ptable, a.lk]
  | .doze _ | .asleep _ | .undo _ | .yielded _ => [P.ptable]
  | .redo _ => []
  | .inside _ y | .leave y => P.ptable :: D.held y

/-- The process owes a wakeup of the channel. -/
def Plan.OwesAt (D : Plan σ ℓ L) (chan : Chan) : Pc ℓ L → Prop
  | .here x | .leave x => D.Owes x chan
  | .inside e y => e = .wakeup chan ∨ D.Owes y chan
  | _ => False

/-- The call of `sleep` is one the plan allows. -/
def Plan.NapOk (D : Plan σ ℓ L) (P : Program σ κ ℓ L) (a : Nap ℓ L) : Prop :=
  D.held a.next = [a.lk] ∧ a.lk = D.lockOf a.chan ∧ Awake P a.next

/-- Places that a process can get to. -/
def Plan.Fits (D : Plan σ ℓ L) (P : Program σ κ ℓ L) : Pc ℓ L → Prop
  | .here _ => True
  | .swap a | .doze a | .undo a | .redo a => D.NapOk P a ∧ a.lk ≠ P.ptable
  | .asleep a => D.NapOk P a
  | .inside _ y | .leave y => Awake P y
  | .yielded q => D.Fits P q ∧ D.heldAt P q = []

/-- A process that no CPU runs has called `sched`. -/
def Parked : Pc ℓ L → Prop
  | .asleep _ | .yielded _ => True
  | _ => False

structure Wf (D : Plan σ ℓ L) (P : Program σ κ ℓ L) (s : State σ ℓ L n) : Prop where
  fits : ∀ p, D.Fits P (s.pc p)
  idle : ∀ c, s.core c = .idle → s.held c = []
  scan : ∀ c, s.core c = .scan → s.held c = [P.ptable]
  run : ∀ c p, s.core c = .run p →
    s.held c = D.heldAt P (s.pc p) ∧ (s.k.proc p).state = .running
  one : ∀ l c d, l ∈ s.held c → l ∈ s.held d → c = d
  unique : ∀ p c d, s.core c = .run p → s.core d = .run p → c = d
  parked : ∀ p, (∀ c, s.core c ≠ .run p) → Parked (s.pc p)
  nap : ∀ p, (s.k.proc p).state = .sleeping →
    ∃ a, s.pc p = .asleep a ∧ a.chan = (s.k.proc p).chan

variable {D : Plan σ ℓ L} {P : Program σ κ ℓ L} {s s' : State σ ℓ L n} {c : Fin n} {p : Slot}

/-! One rule for each instruction. -/

section Rules

variable [DecidableEq L] {x y : ℓ}

theorem Plan.ok_acquire {l : L} (hx : P.code x = .acquire l y)
    (hheld : D.held y = l :: D.held x) (hy : Awake P y) : D.Ok P x := by
  simp only [Plan.Ok, hx]
  exact ⟨hheld, hy⟩

theorem Plan.ok_release {l : L} (hx : P.code x = .release l y)
    (hheld : D.held y = (D.held x).erase l) (hy : Awake P y) : D.Ok P x := by
  simp only [Plan.Ok, hx]
  exact ⟨hheld, hy⟩

theorem Plan.ok_act {f : Slot → κ → σ → Option (σ × ℓ)} (hx : P.code x = .act f)
    (h : ∀ p k d d' y, f p k d = some (d', y) →
      D.held y = D.held x ∧ (D.Knows x d → D.ActOk P x p d d' y)) : D.Ok P x := by
  simp only [Plan.Ok, hx]
  exact h

theorem Plan.ok_sleep {chan : Chan} {lk : L} (hx : P.code x = .sleep chan lk y)
    (hheld : D.held x = [lk]) (hheld' : D.held y = [lk]) (hlk : lk = D.lockOf chan)
    (hy : Awake P y) : D.Ok P x := by
  simp only [Plan.Ok, hx]
  exact ⟨hheld, hheld', hlk, hy⟩

theorem Plan.ok_call {e : Call} (hx : P.code x = .call e y) (hheld : D.held y = D.held x)
    (hy : Awake P y) : D.Ok P x := by
  simp only [Plan.Ok, hx]
  exact ⟨hheld, hy⟩

theorem Plan.ok_wakeup1 {chan : Chan} (hx : P.code x = .wakeup1 chan y)
    (hheld : D.held y = D.held x) (hp : P.ptable ∈ D.held x) (hy : Awake P y) : D.Ok P x := by
  simp only [Plan.Ok, hx]
  exact ⟨hheld, hp, hy⟩

end Rules

/-- Locks taken by one CPU stay apart from those of the others. -/
theorem one_of_held (h : ∀ l c d, l ∈ s.held c → l ∈ s.held d → c = d)
    (hother : ∀ d, d ≠ c → s'.held d = s.held d)
    (hnew : ∀ l ∈ s'.held c, l ∈ s.held c ∨ s.Free l) :
    ∀ l c d, l ∈ s'.held c → l ∈ s'.held d → c = d := by
  have hold : ∀ l d, d ≠ c → l ∈ s'.held c → l ∈ s'.held d → False := by
    intro l d hd hc hl
    rw [hother d hd] at hl
    rcases hnew l hc with hc | hfree
    · exact hd (h l d c hl hc)
    · exact hfree d hl
  intro l d e hd he
  by_cases hdc : d = c
  · subst hdc
    by_cases hed : e = d
    · exact hed.symm
    · exact (hold l e hed hd he).elim
  · by_cases hec : e = c
    · subst hec
      exact (hold l d hdc he hd).elim
    · rw [hother d hdc] at hd
      rw [hother e hec] at he
      exact h l d e hd he

/-- A process takes a step without switching. -/
theorem Wf.advance (h : Wf D P s) (hc : s.core c = .run p) {q : Pc ℓ L}
    (hcore : s'.core = s.core) (hpc : s'.pc = update s.pc p q)
    (hother : ∀ d, d ≠ c → s'.held d = s.held d) (hheld : s'.held c = D.heldAt P q)
    (hnew : ∀ l ∈ s'.held c, l ∈ s.held c ∨ s.Free l) (hq : D.Fits P q)
    (hk : ∀ r, Woken s.k s'.k r)
    (hchan : ∀ r, r ≠ p → (s'.k.proc r).chan = (s.k.proc r).chan) : Wf D P s' := by
  have hpcne : ∀ {r}, r ≠ p → s'.pc r = s.pc r := fun {r} hr => by simp [hpc, hr]
  have hrunning : (s'.k.proc p).state = .running := by
    rcases hk p with hp | ⟨hp, -⟩
    · rw [hp]
      exact (h.run c p hc).2
    · simp [(h.run c p hc).2] at hp
  constructor
  case fits =>
    intro r
    by_cases hr : r = p
    · simpa [hpc, hr] using hq
    · rw [hpcne hr]
      exact h.fits r
  case idle =>
    intro d hd
    rw [hcore] at hd
    have hdc : d ≠ c := by
      intro hdc
      simp [hdc, hc] at hd
    rw [hother d hdc]
    exact h.idle d hd
  case scan =>
    intro d hd
    rw [hcore] at hd
    have hdc : d ≠ c := by
      intro hdc
      simp [hdc, hc] at hd
    rw [hother d hdc]
    exact h.scan d hd
  case run =>
    intro d r hd
    rw [hcore] at hd
    by_cases hr : r = p
    · subst hr
      obtain rfl := h.unique _ _ _ hc hd
      exact ⟨by simpa [hpc] using hheld, hrunning⟩
    · have hdc : d ≠ c := by
        intro hdc
        simp only [hdc, hc, Core.run.injEq] at hd
        exact hr hd.symm
      obtain ⟨hh, hs⟩ := h.run d r hd
      rw [hpcne hr, hother d hdc]
      rcases hk r with hp | ⟨hp, -⟩
      · exact ⟨hh, hp.trans hs⟩
      · simp [hs] at hp
  case one => exact one_of_held h.one hother hnew
  case unique => simpa only [hcore] using h.unique
  case parked =>
    intro r hr
    rw [hcore] at hr
    have hrp : r ≠ p := by
      rintro rfl
      exact hr c hc
    rw [hpcne hrp]
    exact h.parked r hr
  case nap =>
    intro r hr
    have hrp : r ≠ p := by
      intro hrp
      simp [hrp, hrunning] at hr
    rw [hpcne hrp, hchan r hrp]
    rcases hk r with hs | ⟨-, hs⟩
    · exact h.nap r (hs ▸ hr)
    · simp [hs] at hr

/-- A process calls `sched`. -/
theorem Wf.switchOut (h : Wf D P s) (hc : s.core c = .run p) {q : Pc ℓ L}
    (hcore : s'.core = update s.core c .scan) (hpc : s'.pc = update s.pc p q)
    (hother : ∀ d, d ≠ c → s'.held d = s.held d) (hheld : s'.held c = [P.ptable])
    (hnew : ∀ l ∈ s'.held c, l ∈ s.held c ∨ s.Free l) (hq : D.Fits P q) (hpark : Parked q)
    (hk : ∀ r, r ≠ p → s'.k.proc r = s.k.proc r)
    (hnap : (s'.k.proc p).state = .sleeping → ∃ a, q = .asleep a ∧ a.chan = (s'.k.proc p).chan) :
    Wf D P s' := by
  have hcorene : ∀ {d}, d ≠ c → s'.core d = s.core d := fun {d} hd => by simp [hcore, hd]
  have hcorec : s'.core c = .scan := by simp [hcore]
  constructor
  case fits =>
    intro r
    by_cases hr : r = p
    · simpa [hpc, hr] using hq
    · simpa [hpc, hr] using h.fits r
  case idle =>
    intro d hd
    have hdc : d ≠ c := by
      rintro rfl
      simp [hcorec] at hd
    rw [hother d hdc]
    exact h.idle d (hcorene hdc ▸ hd)
  case scan =>
    intro d hd
    by_cases hdc : d = c
    · rw [hdc, hheld]
    · rw [hother d hdc]
      exact h.scan d (hcorene hdc ▸ hd)
  case run =>
    intro d r hd
    have hdc : d ≠ c := by
      rintro rfl
      simp [hcorec] at hd
    rw [hcorene hdc] at hd
    have hr : r ≠ p := by
      rintro rfl
      exact hdc (h.unique _ _ _ hd hc)
    rw [hother d hdc, hk r hr]
    simpa [hpc, hr] using h.run d r hd
  case one => exact one_of_held h.one hother hnew
  case unique =>
    intro r d e hd he
    have hdc : d ≠ c := by
      rintro rfl
      simp [hcorec] at hd
    have hec : e ≠ c := by
      rintro rfl
      simp [hcorec] at he
    exact h.unique r d e (hcorene hdc ▸ hd) (hcorene hec ▸ he)
  case parked =>
    intro r hr
    by_cases hrp : r = p
    · simpa [hpc, hrp] using hpark
    · have hnot : ∀ d, s.core d ≠ .run r := by
        intro d hd
        have hdc : d ≠ c := by
          rintro rfl
          rw [hc] at hd
          exact hrp (Core.run.inj hd).symm
        exact hr d (hcorene hdc ▸ hd)
      simpa [hpc, hrp] using h.parked r hnot
  case nap =>
    intro r hr
    by_cases hrp : r = p
    · subst hrp
      simpa [hpc] using hnap hr
    · rw [hk r hrp] at hr ⊢
      simpa [hpc, hrp] using h.nap r hr

/-- The scheduler of a CPU takes or releases `ptable.lock`. -/
theorem Wf.scheduler (h : Wf D P s) {x : Core} (hcore : s'.core = update s.core c x)
    (hrun : ∀ r, s.core c ≠ .run r) (hx : ∀ r, x ≠ .run r)
    (hother : ∀ d, d ≠ c → s'.held d = s.held d)
    (hnew : ∀ l ∈ s'.held c, l ∈ s.held c ∨ s.Free l)
    (hidle : x = .idle → s'.held c = []) (hscan : x = .scan → s'.held c = [P.ptable])
    (hpc : s'.pc = s.pc) (hk : s'.k = s.k) : Wf D P s' := by
  have hcorene : ∀ {d}, d ≠ c → s'.core d = s.core d := fun {d} hd => by simp [hcore, hd]
  have hcorec : s'.core c = x := by simp [hcore]
  have hruns : ∀ d r, s'.core d = .run r → d ≠ c ∧ s.core d = .run r := by
    intro d r hd
    have hdc : d ≠ c := by
      rintro rfl
      exact hx r (hcorec.symm.trans hd)
    exact ⟨hdc, hcorene hdc ▸ hd⟩
  constructor
  case fits => simpa only [hpc] using h.fits
  case idle =>
    intro d hd
    by_cases hdc : d = c
    · subst hdc
      exact hidle (hcorec.symm.trans hd)
    · rw [hother d hdc]
      exact h.idle d (hcorene hdc ▸ hd)
  case scan =>
    intro d hd
    by_cases hdc : d = c
    · subst hdc
      exact hscan (hcorec.symm.trans hd)
    · rw [hother d hdc]
      exact h.scan d (hcorene hdc ▸ hd)
  case run =>
    intro d r hd
    obtain ⟨hdc, hd⟩ := hruns d r hd
    rw [hother d hdc, hpc, hk]
    exact h.run d r hd
  case one => exact one_of_held h.one hother hnew
  case unique =>
    intro r d e hd he
    exact h.unique r d e (hruns d r hd).2 (hruns e r he).2
  case parked =>
    intro r hr
    rw [hpc]
    apply h.parked r
    intro d hd
    have hdc : d ≠ c := by
      rintro rfl
      exact hrun r hd
    exact hr d (hcorene hdc ▸ hd)
  case nap => simpa only [hpc, hk] using h.nap

/-- The scheduler passes `ptable.lock` on to a process. -/
theorem Wf.dispatch (h : Wf D P s) (hc : s.core c = .scan)
    (hr : (s.k.proc p).state = .runnable) :
    Wf D P { s with k := s.k.setState p .running, core := update s.core c (.run p) } := by
  have hnot : ∀ d, s.core d ≠ .run p := by
    intro d hd
    simp [(h.run d p hd).2] at hr
  have hpark := h.parked p hnot
  have hheld : D.heldAt P (s.pc p) = [P.ptable] := by
    cases hp : s.pc p <;> simp_all [Parked, Plan.heldAt]
  constructor
  case fits => exact h.fits
  case idle =>
    intro d hd
    by_cases hdc : d = c
    · simp [hdc] at hd
    · exact h.idle d (by simpa [hdc] using hd)
  case scan =>
    intro d hd
    by_cases hdc : d = c
    · simp [hdc] at hd
    · exact h.scan d (by simpa [hdc] using hd)
  case run =>
    intro d r hd
    by_cases hdc : d = c
    · subst hdc
      obtain rfl : p = r := by simpa using hd
      exact ⟨(h.scan d hc).trans hheld.symm, by simp⟩
    · have hd' : s.core d = .run r := by simpa [hdc] using hd
      have hrp : r ≠ p := by
        rintro rfl
        exact hnot d hd'
      simpa [hrp] using h.run d r hd'
  case one => exact h.one
  case unique =>
    intro r d e hd he
    by_cases hdc : d = c <;> by_cases hec : e = c
    · rw [hdc, hec]
    · simp_all
    · simp_all
    · exact h.unique r d e (by simpa [hdc] using hd) (by simpa [hec] using he)
  case parked =>
    intro r hr'
    apply h.parked r
    intro d hd
    have hdc : d ≠ c := by
      rintro rfl
      simp [hc] at hd
    exact hr' d (by simpa [hdc] using hd)
  case nap =>
    intro r hs
    have hrp : r ≠ p := by
      rintro rfl
      simp at hs
    simp only [setState_proc, update_of_ne hrp] at hs ⊢
    exact h.nap r hs

/-- Bodies of critical sections wake processes and change nothing else about sleeping. -/
theorem body_woken (k : Kernel) (e : Call) (r : Slot) :
    Woken k (e.body k) r ∧ ((e.body k).proc r).chan = (k.proc r).chan := by
  cases e with
  | wakeup chan => exact ⟨woken_wakeup k chan r, by simp [Call.body]⟩
  | kill pid =>
    refine ⟨woken_kill k pid r, ?_⟩
    rcases kill_proc k pid r with h | h <;> simp [Call.body, h]

/-- After `wakeup` nobody sleeps on the channel. -/
theorem wakeup_body (k : Kernel) (chan : Chan) (r : Slot)
    (hs : (((Call.wakeup chan).body k).proc r).state = .sleeping) : (k.proc r).chan ≠ chan := by
  intro hc
  simp only [Call.body, wakeup1_state, hc, and_true] at hs
  split at hs
  · cases hs
  · contradiction

/-- A process acquires a lock. -/
theorem Wf.take (h : Wf D P s) (hc : s.core c = .run p) {l : L} {q : Pc ℓ L} (hl : s.Free l)
    (hq : D.Fits P q) (hheld : D.heldAt P q = l :: s.held c) :
    Wf D P ((s.setHeld c (l :: s.held c)).goto p q) := by
  apply h.advance hc (q := q)
  · rfl
  · rfl
  · intro d hd
    simp [State.goto, State.setHeld, hd]
  · simp [State.goto, State.setHeld, hheld]
  · intro m hm
    have hm' : m = l ∨ m ∈ s.held c := by simpa [State.goto, State.setHeld] using hm
    rcases hm' with rfl | hm
    · exact .inr hl
    · exact .inl hm
  · exact hq
  · exact fun _ => .inl rfl
  · exact fun _ _ => rfl

/-- A process goes on with the locks it has. -/
theorem Wf.stay (h : Wf D P s) (hc : s.core c = .run p) {q : Pc ℓ L} {k : Kernel} (d : σ)
    (hq : D.Fits P q) (hheld : D.heldAt P q = s.held c) (hk : ∀ r, Woken s.k k r)
    (hchan : ∀ r, r ≠ p → (k.proc r).chan = (s.k.proc r).chan) :
    Wf D P { s.goto p q with k := k, data := d } := by
  apply h.advance hc (q := q)
  · rfl
  · rfl
  · exact fun _ _ => rfl
  · exact hheld.symm
  · exact fun l hl => .inl hl
  · exact hq
  · exact hk
  · exact hchan

/-- A process goes to sleep with only `ptable.lock` held. -/
theorem Wf.doze (h : Wf D P s) (hc : s.core c = .run p) {a : Nap ℓ L} (ha : D.NapOk P a)
    (hheld : s.held c = [P.ptable]) : Wf D P (s.doze c p a) := by
  apply h.switchOut hc (q := .asleep a)
  · rfl
  · rfl
  · exact fun _ _ => rfl
  · exact hheld
  · exact fun l hl => .inl hl
  · exact ha
  · trivial
  · intro r hr
    simp [State.doze, State.switchOut, hr]
  · intro _
    exact ⟨a, rfl, by simp [State.doze, State.switchOut]⟩

section Steps

variable [DecidableEq L]

/-- A process releases a lock. -/
theorem Wf.drop (h : Wf D P s) (hc : s.core c = .run p) {l : L} {q : Pc ℓ L}
    (hq : D.Fits P q) (hheld : D.heldAt P q = (s.held c).erase l) :
    Wf D P (s.release c p l q) := by
  apply h.advance hc (q := q)
  · rfl
  · rfl
  · intro d hd
    simp [State.release, State.goto, State.setHeld, hd]
  · simp [State.release, State.goto, State.setHeld, hheld]
  · intro m hm
    have hm' : m ∈ (s.held c).erase l := by
      simpa [State.release, State.goto, State.setHeld] using hm
    exact .inl (List.mem_of_mem_erase hm')
  · exact hq
  · exact fun _ => .inl rfl
  · exact fun _ _ => rfl

/-- Every step of a program that keeps to its plan. -/
theorem Wf.move (hD : D.Sound P) (h : Wf D P s) (hm : Move P s c s') : Wf D P s' := by
  -- what the plan says of the label or the place of the running process
  have hok : ∀ {p x}, s.core c = .run p → s.pc p = .here x →
      s.held c = D.held x ∧ D.Ok P x := by
    intro p x hc hp
    have hh := (h.run c p hc).1
    rw [hp] at hh
    exact ⟨hh, hD.ok x⟩
  have hfits : ∀ {p q}, s.core c = .run p → s.pc p = q →
      s.held c = D.heldAt P q ∧ D.Fits P q := by
    rintro p q hc rfl
    exact ⟨(h.run c p hc).1, h.fits p⟩
  cases hm with
  | acquire hc hp hx hl =>
    obtain ⟨hh, ho⟩ := hok hc hp
    simp only [Plan.Ok, hx] at ho
    exact h.take hc hl trivial (by rw [hh]; exact ho.1)
  | release hc hp hx =>
    obtain ⟨hh, ho⟩ := hok hc hp
    simp only [Plan.Ok, hx] at ho
    exact h.drop hc trivial (by rw [hh]; exact ho.1)
  | act hc hp hx hf =>
    obtain ⟨hh, ho⟩ := hok hc hp
    simp only [Plan.Ok, hx] at ho
    exact h.stay hc _ trivial ((ho _ _ _ _ _ hf).1.trans hh.symm) (fun _ => .inl rfl)
      fun _ _ => rfl
  | sleepHeld hc hp hx =>
    obtain ⟨hh, ho⟩ := hok hc hp
    simp only [Plan.Ok, hx] at ho
    exact h.doze hc ho.2 (hh.trans ho.1)
  | sleep hc hp hx hlk hl =>
    obtain ⟨hh, ho⟩ := hok hc hp
    simp only [Plan.Ok, hx] at ho
    exact h.take hc hl ⟨ho.2, hlk⟩ (by rw [hh, ho.1]; rfl)
  | call hc hp hx hl =>
    obtain ⟨hh, ho⟩ := hok hc hp
    simp only [Plan.Ok, hx] at ho
    exact h.take hc hl ho.2 (by rw [hh, ← ho.1]; rfl)
  | wakeup1 hc hp hx =>
    obtain ⟨hh, ho⟩ := hok hc hp
    simp only [Plan.Ok, hx] at ho
    exact h.stay hc _ trivial (ho.1.trans hh.symm) (fun r => (body_woken _ _ r).1)
      fun r _ => (body_woken _ _ r).2
  | swap hc hp =>
    obtain ⟨hh, ha, hlk⟩ := hfits hc hp
    refine h.drop hc (q := .doze _) ⟨ha, hlk⟩ ?_
    rw [hh]
    simp [Plan.heldAt, hlk.symm]
  | doze hc hp =>
    obtain ⟨hh, ha, -⟩ := hfits hc hp
    exact h.doze hc ha hh
  | @woken p a hc hp =>
    obtain ⟨hh, ha⟩ := hfits hc hp
    apply h.stay hc
    · split
      · trivial
      · exact ⟨ha, by assumption⟩
    · rw [hh]
      split
      next hlk => exact ha.1.trans (by rw [hlk]; rfl)
      next => rfl
    · intro r
      exact .inl (by simp)
    · intro r hr
      simp [hr]
  | undo hc hp =>
    obtain ⟨hh, ha⟩ := hfits hc hp
    exact h.drop hc ha (by simp [hh, Plan.heldAt])
  | redo hc hp hl =>
    obtain ⟨hh, ha, -⟩ := hfits hc hp
    exact h.take hc hl trivial (by rw [hh]; exact ha.1)
  | inside hc hp =>
    obtain ⟨hh, ha⟩ := hfits hc hp
    exact h.stay hc _ ha hh.symm (fun r => (body_woken _ _ r).1) fun r _ => (body_woken _ _ r).2
  | leave hc hp =>
    obtain ⟨hh, ha⟩ := hfits hc hp
    exact h.drop hc trivial (by simp [hh, Plan.heldAt])
  | resume hc hp =>
    obtain ⟨hh, hq, hnone⟩ := hfits hc hp
    exact h.drop hc hq (by rw [hnone, hh]; simp [Plan.heldAt])
  | @preempt p hc hh hl =>
    have hnone : D.heldAt P (s.pc p) = [] := (h.run c p hc).1.symm.trans hh
    apply h.switchOut hc (q := .yielded (s.pc p))
    · rfl
    · rfl
    · intro d hd
      simp [State.switchOut, State.goto, State.setHeld, hd]
    · simp [State.switchOut, State.goto, State.setHeld]
    · intro m hm
      obtain rfl : m = P.ptable := by
        simpa [State.switchOut, State.goto, State.setHeld] using hm
      exact .inr hl
    · exact ⟨h.fits p, hnone⟩
    · trivial
    · intro r hr
      simp [State.switchOut, State.setHeld, hr]
    · intro hs
      simp [State.switchOut] at hs
  | sched hc hl =>
    have hh := h.idle c hc
    apply h.scheduler (c := c) (x := .scan)
    · rfl
    · simp [hc]
    · simp
    · intro d hd
      simp [State.setHeld, hd]
    · intro m hm
      obtain rfl : m = P.ptable := by simpa [State.setHeld, hh] using hm
      exact .inr hl
    · simp
    · simp [State.setHeld, hh]
    · rfl
    · rfl
  | dispatch hc hr => exact h.dispatch hc hr
  | pause hc =>
    have hh := h.scan c hc
    apply h.scheduler (c := c) (x := .idle)
    · rfl
    · simp [hc]
    · simp
    · intro d hd
      simp [State.setHeld, hd]
    · intro m hm
      simp [State.setHeld, hh] at hm
    · simp [State.setHeld, hh]
    · simp
    · rfl
    · rfl

end Steps

end Xv6.SleepPlan
