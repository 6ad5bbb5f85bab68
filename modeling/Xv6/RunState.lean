import Xv6.ProcSystem

/-!
# Process states and the CPUs

Whenever `ptable.lock` is free, the RUNNING processes are exactly those that the
CPUs have in `c->proc`, one CPU each. The lock passes between a process and the
scheduler across `swtch`, so the invariant also describes the states in which a
CPU holds it: which thread that CPU executes, and where.
-/
namespace Xv6.RunState

open Function (update update_self update_of_ne)
open ProcTable Scheduler ProcSystem
open Family (Event)

variable {n : Nat} {b : Build} {s s' : System n} {c : Fin n} {a : Action}

/-- The slot that a call of `fork` has allocated and not yet handed over. -/
def child : Activity → Option Slot
  | .user => none
  | .allocated np => some np
  | .stacked np => some np
  | .copied np => some np
  | .exiting => none

structure Wf (s : System n) : Prop where
  /-- The process that a CPU executes is RUNNING and is its `c->proc`. -/
  runs : ∀ c p, (s.cpu c).run = some p →
    (s.k.proc p).state = .running ∧ (s.cpu c).proc = some p ∧ returned (s.cpu c).pc = some p
  running : ∀ p, (s.k.proc p).state = .running → ∃ c, (s.cpu c).run = some p
  unique : ∀ c d p, (s.cpu c).run = some p → (s.cpu d).run = some p → c = d
  /-- A scheduler has a `c->proc` only between `swtch` and clearing it. -/
  sched : ∀ c, (s.cpu c).run = none → (s.cpu c).proc = returned (s.cpu c).pc
  /-- Without the lock a CPU is at the top of its scheduler or runs its process's own code. -/
  idle : ∀ c, s.lock ≠ some c → (s.cpu c).run = none → (s.cpu c).pc = .idle
  frame : ∀ c p, s.lock ≠ some c → (s.cpu c).run = some p → (s.thread p).frame = .run
  /-- With the lock it is elsewhere. -/
  busy : ∀ c, s.lock = some c → (s.cpu c).run = none → (s.cpu c).pc ≠ .idle
  locked : ∀ c p, s.lock = some c → (s.cpu c).run = some p → (s.thread p).frame ≠ .run
  /-- A slot that `fork` is filling is an EMBRYO and belongs to one call. -/
  embryo : ∀ p np, child (s.thread p).act = some np → (s.k.proc np).state = .embryo
  parent : ∀ p q np, child (s.thread p).act = some np → child (s.thread q).act = some np → p = q
  /-- It will start at `forkret`. -/
  fresh : ∀ p np, (s.thread p).act = .stacked np ∨ (s.thread p).act = .copied np →
    (s.thread np).frame = .forked
  /-- A process that may be dispatched has switched out, or has never run. -/
  parked : ∀ p, (s.k.proc p).state = .runnable ∨ (s.k.proc p).state = .sleeping →
    (s.thread p).frame ≠ .run

theorem boot_state (p : Slot) :
    (boot.proc p).state = if p = 0 then .runnable else .unused := by
  revert p
  decide

theorem wf_boot : Wf (bootSystem n) where
  runs c p h := by cases h
  running p h := by
    have hp : (if p = 0 then ProcState.runnable else .unused) = .running := boot_state p ▸ h
    split at hp <;> cases hp
  unique c d p h := by cases h
  sched c h := rfl
  idle c h h' := rfl
  frame c p h h' := by cases h'
  busy c h := by cases h
  locked c p h := by cases h
  embryo p np h := by cases h
  parent p q np h := by cases h
  fresh p np h := rfl
  parked p h := by intro hf; cases hf

section

variable (hw : Wf s)
include hw

theorem Wf.log (l : List Event) : Wf { s with log := l } :=
  ⟨hw.runs, hw.running, hw.unique, hw.sched, hw.idle, hw.frame, hw.busy, hw.locked, hw.embryo,
    hw.parent, hw.fresh, hw.parked⟩

/-- The CPU that executes a process other than its own code holds the lock. -/
theorem Wf.lock_of_frame {p : Slot}
    (hrun : (s.cpu c).run = some p) (hf : (s.thread p).frame ≠ .run) : s.lock = some c := by
  by_contra hl
  exact hf (hw.frame c p hl hrun)

theorem Wf.lock_of_pc (hrun : (s.cpu c).run = none) (hpc : (s.cpu c).pc ≠ .idle) :
    s.lock = some c := by
  by_contra hl
  exact hpc (hw.idle c hl hrun)

/-- Steps that change neither the control state of a CPU nor who is RUNNING. -/
theorem Wf.quiet (hlock : s'.lock = s.lock) (hcpu : s'.cpu = s.cpu)
    (hframe : ∀ p, (s.k.proc p).state = .running → (s'.thread p).frame = (s.thread p).frame)
    (hrun : ∀ p, (s'.k.proc p).state = .running ↔ (s.k.proc p).state = .running)
    (hembryo : ∀ p np, child (s'.thread p).act = some np → (s'.k.proc np).state = .embryo)
    (hparent : ∀ p q np, child (s'.thread p).act = some np → child (s'.thread q).act = some np →
      p = q)
    (hfresh : ∀ p np, (s'.thread p).act = .stacked np ∨ (s'.thread p).act = .copied np →
      (s'.thread np).frame = .forked)
    (hparked : ∀ p, (s'.k.proc p).state = .runnable ∨ (s'.k.proc p).state = .sleeping →
      (s'.thread p).frame ≠ .run) : Wf s' where
  runs c p h := by
    rw [hcpu] at h ⊢
    exact ⟨(hrun p).mpr (hw.runs c p h).1, (hw.runs c p h).2⟩
  running p h := by
    rw [hcpu]
    exact hw.running p ((hrun p).mp h)
  unique c d p h h' := by
    rw [hcpu] at h h'
    exact hw.unique c d p h h'
  sched c h := by
    rw [hcpu] at h ⊢
    exact hw.sched c h
  idle c h h' := by
    rw [hlock] at h
    rw [hcpu] at h' ⊢
    exact hw.idle c h h'
  frame c p h h' := by
    rw [hlock] at h
    rw [hcpu] at h'
    rw [hframe p (hw.runs c p h').1]
    exact hw.frame c p h h'
  busy c h h' := by
    rw [hlock] at h
    rw [hcpu] at h' ⊢
    exact hw.busy c h h'
  locked c p h h' := by
    rw [hlock] at h
    rw [hcpu] at h'
    rw [hframe p (hw.runs c p h').1]
    exact hw.locked c p h h'
  embryo := hembryo
  parent := hparent
  fresh := hfresh
  parked := hparked

/-- `sched`: the process leaves its CPU with the lock in the hands of the scheduler. -/
theorem Wf.switchOut {p : Slot} {k : Kernel} {f : Frame} (hrun : (s.cpu c).run = some p)
    (hlock : s.lock = none ∨ s.lock = some c) (hf : f ≠ .run) (hp : (k.proc p).state ≠ .running)
    (hother : ∀ q, q ≠ p → (k.proc q).state = (s.k.proc q).state ∨
      (s.k.proc q).state = .sleeping ∧ (k.proc q).state = .runnable) :
    Wf (s.switchOut c p k f) := by
  have hd : ∀ d, d ≠ c → s.lock ≠ some d := by
    intro d hne hl
    rcases hlock with h | h <;> rw [h] at hl <;> cases hl
    exact hne rfl
  have hback := hw.runs c p hrun
  have hsame : ∀ q, q ≠ p → ((k.proc q).state = .running ↔ (s.k.proc q).state = .running) := by
    intro q hq
    rcases hother q hq with h | ⟨h, h'⟩
    · rw [h]
    · rw [h, h']
      simp
  have hact : ∀ q, ((s.switchOut c p k f).thread q).act = (s.thread q).act := by
    intro q
    by_cases hq : q = p
    · subst hq
      simp [System.switchOut]
    · simp [System.switchOut, hq]
  have hframe : ∀ q, q ≠ p → (s.switchOut c p k f).thread q = s.thread q := by
    intro q hq
    simp [System.switchOut, hq]
  have hcpu : ∀ d, d ≠ c → (s.switchOut c p k f).cpu d = s.cpu d := by
    intro d hne
    simp [System.switchOut, hne]
  have hcpu' : (s.switchOut c p k f).cpu c = { s.cpu c with run := none } := by
    simp [System.switchOut]
  -- A CPU that still runs a process is another one, running another process.
  have hrest : ∀ d q, ((s.switchOut c p k f).cpu d).run = some q →
      d ≠ c ∧ q ≠ p ∧ (s.cpu d).run = some q := by
    intro d q h
    by_cases hdc : d = c
    · rw [hdc, hcpu'] at h
      cases h
    · rw [hcpu d hdc] at h
      refine ⟨hdc, ?_, h⟩
      rintro rfl
      exact hdc (hw.unique d c q h hrun)
  constructor
  case runs =>
    intro d q h
    obtain ⟨hdc, hqp, h⟩ := hrest d q h
    rw [hcpu d hdc]
    exact ⟨(hsame q hqp).mpr (hw.runs d q h).1, (hw.runs d q h).2⟩
  case running =>
    intro q h
    have hqp : q ≠ p := fun he => hp (he ▸ h)
    obtain ⟨d, hd'⟩ := hw.running q ((hsame q hqp).mp h)
    have hdc : d ≠ c := by
      rintro rfl
      rw [hrun] at hd'
      exact hqp (Option.some.inj hd').symm
    exact ⟨d, by rw [hcpu d hdc]; exact hd'⟩
  case unique =>
    intro d e q h h'
    exact hw.unique d e q (hrest d q h).2.2 (hrest e q h').2.2
  case sched =>
    intro d h
    by_cases hdc : d = c
    · subst hdc
      rw [hcpu']
      exact hback.2.1.trans hback.2.2.symm
    · rw [hcpu d hdc] at h ⊢
      exact hw.sched d h
  case idle =>
    intro d h h'
    have hdc : d ≠ c := fun he => h (by rw [he]; rfl)
    rw [hcpu d hdc] at h' ⊢
    exact hw.idle d (hd d hdc) h'
  case frame =>
    intro d q h h'
    obtain ⟨hdc, hqp, h'⟩ := hrest d q h'
    rw [hframe q hqp]
    exact hw.frame d q (hd d hdc) h'
  case busy =>
    intro d h _
    obtain rfl : c = d := Option.some.inj h
    rw [hcpu']
    intro hpc
    have hr := hback.2.2
    rw [show (s.cpu c).pc = .idle from hpc] at hr
    cases hr
  case locked =>
    intro d q h h'
    exact absurd (Option.some.inj h).symm (hrest d q h').1
  case embryo =>
    intro q np h
    rw [hact] at h
    have he := hw.embryo q np h
    have hne : np ≠ p := by
      rintro rfl
      rw [hback.1] at he
      cases he
    rcases hother np hne with h' | ⟨h', -⟩
    · exact h'.trans he
    · rw [he] at h'
      cases h'
  case parent =>
    intro q r np h h'
    rw [hact] at h h'
    exact hw.parent q r np h h'
  case fresh =>
    intro q np h
    rw [hact] at h
    have hne : np ≠ p := by
      rintro rfl
      have he := hw.embryo q np (by rcases h with h | h <;> rw [h] <;> rfl)
      rw [hback.1] at he
      cases he
    rw [hframe np hne]
    exact hw.fresh q np h
  case parked =>
    intro q h
    by_cases hq : q = p
    · subst hq
      simpa [System.switchOut] using hf
    · rw [hframe q hq]
      refine hw.parked q ?_
      rcases hother q hq with h' | ⟨h', -⟩
      · rwa [← h']
      · exact .inr h'

/-- The code after `sched` ends, and with it the hold on the lock. -/
theorem Wf.release {p : Slot} {k : Kernel} (hrun : (s.cpu c).run = some p)
    (hlock : s.lock = none ∨ s.lock = some c)
    (hother : ∀ q, (k.proc q).state = (s.k.proc q).state ∨
      (s.k.proc q).state = .zombie ∧ (k.proc q).state = .unused) : Wf (s.release p k) := by
  have hd : ∀ d, d ≠ c → s.lock ≠ some d := by
    intro d hne hl
    rcases hlock with h | h <;> rw [h] at hl <;> cases hl
    exact hne rfl
  have hsame : ∀ q st, st ≠ .zombie → st ≠ .unused →
      ((k.proc q).state = st ↔ (s.k.proc q).state = st) := by
    intro q st h₁ h₂
    rcases hother q with h | ⟨h, h'⟩
    · rw [h]
    · rw [h, h']
      exact ⟨fun he => absurd he.symm h₂, fun he => absurd he.symm h₁⟩
  have hrunning := fun q => hsame q .running (by simp) (by simp)
  have hact : ∀ q, ((s.release p k).thread q).act = (s.thread q).act := by
    intro q
    by_cases hq : q = p
    · subst hq
      simp [System.release]
    · simp [System.release, hq]
  constructor
  case runs => exact fun d q h => ⟨(hrunning q).mpr (hw.runs d q h).1, (hw.runs d q h).2⟩
  case running => exact fun q h => hw.running q ((hrunning q).mp h)
  case unique => exact hw.unique
  case sched => exact hw.sched
  case idle =>
    intro d _ h'
    have hdc : d ≠ c := by
      rintro rfl
      exact absurd (hrun.symm.trans h') (by simp)
    exact hw.idle d (hd d hdc) h'
  case frame =>
    intro d q _ h'
    by_cases hq : q = p
    · subst hq
      simp [System.release]
    · have hdc : d ≠ c := by
        rintro rfl
        exact hq (Option.some.inj (hrun.symm.trans h')).symm
      have hf := hw.frame d q (hd d hdc) h'
      simpa [System.release, hq] using hf
  case busy => exact fun d h => by cases h
  case locked => exact fun d q h => by cases h
  case embryo =>
    intro q np h
    rw [hact] at h
    exact (hsame np .embryo (by simp) (by simp)).mpr (hw.embryo q np h)
  case parent =>
    intro q r np h h'
    rw [hact] at h h'
    exact hw.parent q r np h h'
  case fresh =>
    intro q np h
    rw [hact] at h
    have hne : np ≠ p := by
      rintro rfl
      have he := hw.embryo q np (by rcases h with h | h <;> rw [h] <;> rfl)
      rw [(hw.runs c np hrun).1] at he
      cases he
    simpa [System.release, hne] using hw.fresh q np h
  case parked =>
    intro q h
    have h' : (s.k.proc q).state = .runnable ∨ (s.k.proc q).state = .sleeping :=
      h.imp (hsame q .runnable (by simp) (by simp)).mp (hsame q .sleeping (by simp) (by simp)).mp
    have hne : q ≠ p := by
      rintro rfl
      rw [(hw.runs c q hrun).1] at h'
      rcases h' with h' | h' <;> cases h'
    simpa [System.release, hne] using hw.parked q h'

/-- Steps of the scheduler that neither start a process nor touch the table. -/
theorem Wf.scheduler (hrun : (s.cpu c).run = none) (hlock : s.lock = none ∨ s.lock = some c)
    {k : Kernel} (hk : k.proc = s.k.proc) {x : Cpu} (hx : x.run = none)
    (hproc : x.proc = returned x.pc) {l : Option (Fin n)}
    (hl : l = some c ∧ x.pc ≠ .idle ∨ l = none ∧ x.pc = .idle) :
    Wf { s with k := k, lock := l, cpu := update s.cpu c x } := by
  have hd : ∀ d, d ≠ c → s.lock ≠ some d ∧ l ≠ some d := by
    intro d hne
    constructor <;> intro he
    · rcases hlock with h | h <;> rw [h] at he <;> cases he
      exact hne rfl
    · rcases hl with h | h <;> rw [h.1] at he <;> cases he
      exact hne rfl
  -- The CPUs that run a process are the ones that did.
  have hrest : ∀ d q, (update s.cpu c x d).run = some q →
      d ≠ c ∧ update s.cpu c x d = s.cpu d ∧ (s.cpu d).run = some q := by
    intro d q h
    by_cases hdc : d = c
    · rw [hdc, update_self, hx] at h
      cases h
    · rw [update_of_ne hdc] at h ⊢
      exact ⟨hdc, rfl, h⟩
  constructor
  case runs =>
    intro d q h
    obtain ⟨-, he, h⟩ := hrest d q h
    simp only [hk, he]
    exact hw.runs d q h
  case running =>
    intro q h
    simp only [hk] at h
    obtain ⟨d, h'⟩ := hw.running q h
    have hdc : d ≠ c := by
      rintro rfl
      rw [hrun] at h'
      cases h'
    exact ⟨d, by simpa only [update_of_ne hdc] using h'⟩
  case unique => exact fun d e q h h' => hw.unique d e q (hrest d q h).2.2 (hrest e q h').2.2
  case sched =>
    intro d h
    by_cases hdc : d = c
    · subst hdc
      simpa using hproc
    · simp only [update_of_ne hdc] at h ⊢
      exact hw.sched d h
  case idle =>
    intro d h h'
    by_cases hdc : d = c
    · subst hdc
      simpa using (hl.resolve_left fun he => h he.1).2
    · simp only [update_of_ne hdc] at h' ⊢
      exact hw.idle d (hd d hdc).1 h'
  case frame =>
    intro d q _ h'
    obtain ⟨hdc, -, h'⟩ := hrest d q h'
    exact hw.frame d q (hd d hdc).1 h'
  case busy =>
    intro d h _
    rcases hl with ⟨he, hpc⟩ | ⟨he, -⟩
    · obtain rfl : c = d := Option.some.inj (he.symm.trans h)
      simpa using hpc
    · exact absurd (he.symm.trans h) (by simp)
  case locked =>
    intro d q h h'
    exact absurd h (hd d (hrest d q h').1).2
  case embryo => exact fun q np h => by simpa only [hk] using hw.embryo q np h
  case parent => exact hw.parent
  case fresh => exact hw.fresh
  case parked => exact fun q h => hw.parked q (by simpa only [hk] using h)

/-- `swtch` to a RUNNABLE process, which now holds the lock. -/
theorem Wf.dispatch (hrun : (s.cpu c).run = none)
    (hlock : s.lock = some c) {k : Kernel} {p : Slot} {pc : SchedPc} (hd : Dispatched s.k k p pc) :
    Wf { s with k := k, cpu := update s.cpu c { proc := some p, run := some p, pc := pc } } := by
  have hself : (k.proc p).state = .running := by simp [hd.proc]
  have hother : ∀ q, q ≠ p → k.proc q = s.k.proc q := by
    intro q hq
    simp [hd.proc, hq]
  have hnew : ∀ d, (s.cpu d).run ≠ some p := by
    intro d h
    have := (hw.runs d p h).1
    rw [hd.runnable] at this
    cases this
  -- Either the CPU is the one that dispatches, or nothing has changed for it.
  have hcases : ∀ d q, (update s.cpu c ⟨some p, some p, pc⟩ d).run = some q →
      d = c ∧ q = p ∨ d ≠ c ∧ q ≠ p ∧ (s.cpu d).run = some q := by
    intro d q h
    by_cases hdc : d = c
    · subst hdc
      rw [update_self] at h
      exact .inl ⟨rfl, (Option.some.inj h).symm⟩
    · rw [update_of_ne hdc] at h
      exact .inr ⟨hdc, fun he => hnew d (he ▸ h), h⟩
  constructor
  case runs =>
    intro d q h
    rcases hcases d q h with ⟨rfl, rfl⟩ | ⟨hdc, hq, h⟩
    · simpa using ⟨hself, hd.back⟩
    · simp only [update_of_ne hdc, hother q hq]
      exact hw.runs d q h
  case running =>
    intro q h
    by_cases hq : q = p
    · exact ⟨c, by simp [hq]⟩
    · simp only [hother q hq] at h
      obtain ⟨d, h'⟩ := hw.running q h
      have hdc : d ≠ c := by
        rintro rfl
        rw [hrun] at h'
        cases h'
      exact ⟨d, by simpa only [update_of_ne hdc] using h'⟩
  case unique =>
    intro d e q h h'
    rcases hcases d q h with ⟨rfl, rfl⟩ | ⟨hdc, hq, h⟩
    · rcases hcases e q h' with ⟨rfl, -⟩ | ⟨-, hq, -⟩
      · rfl
      · exact absurd rfl hq
    · rcases hcases e q h' with ⟨-, rfl⟩ | ⟨-, -, h'⟩
      · exact absurd rfl hq
      · exact hw.unique d e q h h'
  case sched =>
    intro d h
    have hdc : d ≠ c := by
      rintro rfl
      simp at h
    simp only [update_of_ne hdc] at h ⊢
    exact hw.sched d h
  case idle =>
    intro d h h'
    have hdc : d ≠ c := fun he => h (by rw [he]; exact hlock)
    simp only [update_of_ne hdc] at h' ⊢
    exact hw.idle d h h'
  case frame =>
    intro d q h h'
    rcases hcases d q h' with ⟨rfl, -⟩ | ⟨-, -, h'⟩
    · exact absurd hlock h
    · exact hw.frame d q h h'
  case busy =>
    intro d h h'
    obtain rfl : c = d := Option.some.inj (hlock.symm.trans h)
    simp at h'
  case locked =>
    intro d q h h'
    rcases hcases d q h' with ⟨-, rfl⟩ | ⟨hdc, -⟩
    · exact hw.parked q (.inl hd.runnable)
    · exact absurd (Option.some.inj (hlock.symm.trans h)).symm hdc
  case embryo =>
    intro q np h
    have he := hw.embryo q np h
    have hne : np ≠ p := by
      rintro rfl
      rw [hd.runnable] at he
      cases he
    rw [hother np hne, he]
  case parent => exact hw.parent
  case fresh => exact hw.fresh
  case parked =>
    intro q h
    by_cases hq : q = p
    · subst hq
      simp only [hself] at h
      rcases h with h | h <;> cases h
    · exact hw.parked q (by simpa only [hother q hq] using h)

/-- Steps under the lock, or without it, that at most wake sleepers. -/
theorem Wf.table {k : Kernel}
    (hk : ∀ q, (k.proc q).state = (s.k.proc q).state ∨
      (s.k.proc q).state = .sleeping ∧ (k.proc q).state = .runnable) (t : Bool) :
    Wf { s with k := k, tickslock := t } := by
  refine hw.quiet rfl rfl (fun _ _ => rfl) ?_ ?_
    hw.parent hw.fresh ?_
  · intro q
    rcases hk q with h | ⟨h, h'⟩
    · simp only [h]
    · simp [h, h']
  · intro q np h
    have he := hw.embryo q np h
    rcases hk np with h' | ⟨h', -⟩
    · exact h'.trans he
    · rw [he] at h'
      cases h'
  · intro q h
    rcases hk q with h' | ⟨h', -⟩
    · exact hw.parked q (by simpa only [h'] using h)
    · exact hw.parked q (.inr h')

/-- `allocproc` prepares the kernel stack of the new process. -/
theorem Wf.newThread {np : Slot} (hnp : (s.k.proc np).state = .embryo) :
    Wf (s.setThread np fun _ => ⟨.user, .forked⟩) := by
  have hother : ∀ q, q ≠ np → (s.setThread np fun _ => ⟨.user, .forked⟩).thread q = s.thread q :=
    fun q hq => by simp [System.setThread, hq]
  have hself : (s.setThread np fun _ => ⟨.user, .forked⟩).thread np = ⟨.user, .forked⟩ := by
    simp [System.setThread]
  -- The new thread has no child, so a thread with one is an old one.
  have hchild : ∀ q r, child ((s.setThread np fun _ => ⟨.user, .forked⟩).thread q).act = some r →
      child (s.thread q).act = some r := by
    intro q r h
    by_cases hq : q = np
    · rw [hq, hself] at h
      cases h
    · rwa [hother q hq] at h
  refine hw.quiet rfl rfl ?_ (fun _ => Iff.rfl) (fun q r h => hw.embryo q r (hchild q r h))
    (fun q r t h h' => hw.parent q r t (hchild q t h) (hchild r t h')) ?_ ?_
  · intro q h
    have hq : q ≠ np := by
      rintro rfl
      rw [hnp] at h
      cases h
    rw [hother q hq]
  · intro q r h
    by_cases hr : r = np
    · rw [hr, hself]
    · have hq : q ≠ np := by
        rintro rfl
        rw [hself] at h
        rcases h with h | h <;> cases h
      rw [hother q hq] at h
      rw [hother r hr]
      exact hw.fresh q r h
  · intro q h
    have hq : q ≠ np := by
      rintro rfl
      have hs : (s.k.proc q).state = .runnable ∨ (s.k.proc q).state = .sleeping := h
      rw [hnp] at hs
      rcases hs with hs | hs <;> cases hs
    rw [hother q hq]
    exact hw.parked q h

/-- A step of `fork` in process `p`, whose only slot is `np` before or after it. -/
theorem Wf.fork (p np : Slot) {a : Activity} {k : Kernel}
    (hsame : ∀ q, q ≠ np → (k.proc q).state = (s.k.proc q).state)
    (hold : child (s.thread p).act = some np ∨ (s.k.proc np).state = .unused)
    (hnew : child a = some np ∧ (k.proc np).state = .embryo ∨
      child a = none ∧ ((k.proc np).state = .unused ∨
        (k.proc np).state = .runnable ∧ (s.thread np).frame = .forked))
    (hfresh : a = .stacked np ∨ a = .copied np → (s.thread np).frame = .forked) :
    Wf { s.setAct p a with k := k } := by
  have hstate : (s.k.proc np).state = .embryo ∨ (s.k.proc np).state = .unused :=
    hold.imp_left (hw.embryo p np)
  -- Nobody else is filling slot `np`.
  have hmine : ∀ q, child (s.thread q).act = some np → q = p := by
    intro q h
    rcases hold with h' | h'
    · exact hw.parent q p np h h'
    · rw [hw.embryo q np h] at h'
      cases h'
  have hchild : ∀ q r, child ((s.setAct p a).thread q).act = some r →
      q = p ∧ r = np ∧ child a = some np ∨ q ≠ p ∧ r ≠ np ∧ child (s.thread q).act = some r := by
    intro q r h
    rw [setAct_act] at h
    by_cases hq : q = p
    · rw [if_pos hq] at h
      rcases hnew with ⟨hc, -⟩ | ⟨hc, -⟩
      · exact .inl ⟨hq, (Option.some.inj (hc.symm.trans h)).symm, hc⟩
      · rw [hc] at h
        cases h
    · rw [if_neg hq] at h
      exact .inr ⟨hq, fun hr => hq (hmine q (hr ▸ h)), h⟩
  refine hw.quiet rfl rfl (fun q _ => setAct_frame s p q a)
    ?_ ?_ ?_ ?_ ?_
  · intro q
    by_cases hq : q = np
    · subst hq
      rcases hstate with h | h <;> rcases hnew with ⟨-, h'⟩ | ⟨-, h' | ⟨h', -⟩⟩ <;> simp [h, h']
    · simp only [hsame q hq]
  · intro q r h
    rcases hchild q r h with ⟨-, rfl, hc⟩ | ⟨-, hr, h⟩
    · rcases hnew with ⟨-, h'⟩ | ⟨hc', -⟩
      · exact h'
      · rw [hc] at hc'
        cases hc'
    · exact (hsame r hr).trans (hw.embryo q r h)
  · intro q r t h h'
    rcases hchild q t h with ⟨rfl, rfl, -⟩ | ⟨-, ht, h⟩
    · rcases hchild r t h' with ⟨rfl, -⟩ | ⟨-, ht, -⟩
      · rfl
      · exact absurd rfl ht
    · rcases hchild r t h' with ⟨-, rfl, -⟩ | ⟨-, -, h'⟩
      · exact absurd rfl ht
      · exact hw.parent q r t h h'
  · intro q r h
    simp only [setAct_act, setAct_frame] at h ⊢
    by_cases hq : q = p
    · simp only [if_pos hq] at h
      have hr : child a = some r := by rcases h with h | h <;> rw [h] <;> rfl
      rcases hnew with ⟨hc, -⟩ | ⟨hc, -⟩
      · obtain rfl := Option.some.inj (hc.symm.trans hr)
        exact hfresh h
      · rw [hc] at hr
        cases hr
    · simp only [if_neg hq] at h
      exact hw.fresh q r h
  · intro q h
    rw [setAct_frame]
    by_cases hq : q = np
    · subst hq
      rcases hnew with ⟨-, h'⟩ | ⟨-, h' | ⟨-, hf⟩⟩
      · simp [h'] at h
      · simp [h'] at h
      · simp [hf]
    · exact hw.parked q (by simpa only [hsame q hq] using h)

/-- A pass of `wait` runs with the lock free or held by its CPU. -/
theorem Wf.lock_of_wait {p : Slot} {k : Kernel}
    (hrun : (s.cpu c).run = some p) (h : WaitCall s a p k) : s.lock = none ∨ s.lock = some c := by
  rcases h with ⟨-, -, -, hl, -⟩ | ⟨-, hf, -⟩
  · exact .inl hl
  · exact .inr (hw.lock_of_frame hrun (by simp [hf]))

end

/-- Every step keeps the invariant. -/
theorem move_wf (h : Move b s c a s') (hw : Wf s) : Wf s' := by
  cases h with
  | acquire hrun hpc hlock =>
    have hproc := hw.sched c hrun
    rw [hpc] at hproc
    exact hw.scheduler (x := { s.cpu c with pc := entryPc b }) hrun (.inl hlock) rfl hrun
      (by cases b <;> exact hproc)
      (.inl ⟨rfl, by cases b <;> simp [entryPc]⟩)
  | goto hrun hpc hg =>
    have hlock := hw.lock_of_pc hrun hpc
    have hs := hw.sched c hrun
    refine hw.scheduler hrun (.inr hlock) hg.proc rfl ?_ (.inl ⟨hlock, hg.target.2⟩)
    dsimp only
    rw [hg.target.1, hs]
    split
    next hr => exact hr
    next => rfl
  | dispatch hrun hpc hd => exact hw.dispatch hrun (hw.lock_of_pc hrun hpc) hd.dispatched
  | finish hrun hpc hf =>
    refine hw.scheduler (x := { s.cpu c with pc := .idle }) hrun
      (.inr (hw.lock_of_pc hrun hpc)) rfl hrun ?_ (.inr ⟨rfl, rfl⟩)
    exact (hw.sched c hrun).trans (returned_of_finish hf)
  | resume hrun hf =>
    have hl := hw.lock_of_frame hrun (by rcases hf with hf | hf <;> simp [hf])
    exact hw.release hrun (.inr hl) fun _ => .inl rfl
  | woken hrun hf =>
    exact hw.release hrun (.inr (hw.lock_of_frame hrun (by simp [hf])))
      fun q => .inl (by simp)
  | @reap _ p z k hrun hc hz =>
    obtain ⟨-, hzs⟩ := findZombie_some hz
    refine (hw.release hrun (hw.lock_of_wait hrun hc) fun q => ?_).log _
    have hstate := hc.field Proc.state (fun _ => rfl) q
    by_cases hq : q = z
    · subst hq
      exact .inr ⟨hstate.symm.trans hzs, by simp [reap]⟩
    · exact .inl (by simpa [reap, hq] using hstate)
  | waitFail hrun hc hz hk =>
    exact hw.release hrun (hw.lock_of_wait hrun hc)
      fun q => .inl (hc.field Proc.state (fun _ => rfl) q)
  | waitSleep hrun hc hz hk =>
    refine hw.switchOut hrun (hw.lock_of_wait hrun hc) (by simp) (by simp) fun q hq => .inl ?_
    simpa [hq] using hc.field Proc.state (fun _ => rfl) q
  | forkFull hr ha hlock hn =>
    exact hw.table (fun q => woken_of_proc (by simp [(allocproc_none hn).2])) _
  | @forkAlloc p np stray hr ha hlock hn =>
    obtain ⟨hfree, hnew⟩ := allocproc_some hn
    exact hw.fork p np (fun q hq => by simp [hnew, hq]) (.inr hfree)
      (.inl ⟨rfl, by simp [hnew]⟩) (by simp)
  | @kallocOk p np hr ha =>
    have he := hw.embryo p np (by rw [ha]; rfl)
    have hne : np ≠ p := by
      rintro rfl
      rw [(hw.runs c np hr.1).1] at he
      cases he
    have hwf := (hw.newThread he).fork p np (a := .stacked np) (k := allocStack s.k np true)
      (fun q hq => by simp [allocStack, hq, System.setThread])
      (.inl (by simp [System.setThread, Ne.symm hne, ha, child]))
      (.inl ⟨rfl, by simpa [allocStack] using he⟩) (fun _ => by simp [System.setThread])
    have hcomm : (s.setAct p (.stacked np)).setThread np (fun _ => ⟨.user, .forked⟩) =
        (s.setThread np fun _ => ⟨.user, .forked⟩).setAct p (.stacked np) := by
      simp [System.setAct, System.setThread, Ne.symm hne, Function.update_comm hne]
    rw [hcomm]
    exact hwf
  | @kallocFail p np hr ha =>
    exact hw.fork p np (fun q hq => by simp [allocStack, hq]) (.inl (by rw [ha]; rfl))
      (.inr ⟨rfl, .inl (by simp [allocStack])⟩) (by simp)
  | @copyOk p np hr ha =>
    have he := hw.embryo p np (by rw [ha]; rfl)
    exact hw.fork p np (fun q hq => by simp [copyProc, hq]) (.inl (by rw [ha]; rfl))
      (.inl ⟨rfl, by simpa [copyProc] using he⟩) (fun _ => hw.fresh p np (.inl ha))
  | @copyFail p np hr ha =>
    exact hw.fork p np (fun q hq => by simp [copyProc, hq]) (.inl (by rw [ha]; rfl))
      (.inr ⟨rfl, .inl (by simp [copyProc])⟩) (by simp)
  | @forkDone p np hr ha hlock =>
    exact (hw.fork p np (a := .user) (k := s.k.setState np .runnable)
      (fun q hq => by simp [hq]) (.inl (by rw [ha]; rfl))
      (.inr ⟨rfl, .inr ⟨by simp, hw.fresh p np (.inr ha)⟩⟩) (by simp)).log _
  | @stamp p hr ha hinit =>
    have hchild : ∀ q r, child ((s.setAct p .exiting).thread q).act = some r →
        child (s.thread q).act = some r := by
      intro q r h
      rw [setAct_act] at h
      split at h
      · cases h
      · exact h
    refine hw.quiet rfl rfl (fun q _ => setAct_frame s p q _)
      (fun q => by simp)
      (fun q r h => by simpa using hw.embryo q r (hchild q r h))
      (fun q r t h h' => hw.parent q r t (hchild q t h) (hchild r t h')) ?_ ?_
    · intro q r h
      simp only [setAct_act, setAct_frame] at h ⊢
      split at h
      · rcases h with h | h <;> cases h
      · exact hw.fresh q r h
    · intro q h
      rw [setAct_frame]
      exact hw.parked q (by simpa using h)
  | exit hr ha hlock =>
    exact (hw.switchOut hr.1 (.inl hlock) (by simp) (by simp [exitBody_eq])
      fun q hq => woken_exit s.k hq).log _
  | yield hr hlock | sleep _ hr _ hlock =>
    exact hw.switchOut hr.1 (.inl hlock) (by simp) (by simp) fun q hq => .inl (by simp [hq])
  | kill pid hr hlock => exact hw.table (woken_kill s.k pid) _
  | chprty pid priority hr hlock => exact hw.table (woken_chprty s.k pid priority) _
  | wakeup chan hlock => exact hw.table (woken_wakeup s.k chan) _
  | tick => exact hw.table (k := { s.k with ticks := s.k.ticks + 1 }) (fun _ => .inl rfl) _
  | updateStatistics hlock =>
    exact hw.table (fun q => .inl (by rw [updateStatistics_proc])) _

theorem wf_reachable (h : Reachable b s) : Wf s :=
  Runs.Reaches.invariant h wf_boot fun _ _ _ hw _ hs => move_wf (step_move hs) hw

end Xv6.RunState
