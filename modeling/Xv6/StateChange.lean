import Xv6.SlotChange

/-!
# State changes

What a step does to the state of a process, and what becomes of a ZOMBIE. Only
the call of `wait` or `waitx` that returns a ZOMBIE frees what it owns, and at
that moment no CPU executes it or is about to leave it.
-/
namespace Xv6.StateChange

open Function (update)
open ProcTable Scheduler ProcSystem RunState SlotChange

variable {n : Nat} {b : Build} {s s' : System n} {c : Fin n} {a : Action}

/-- The state changes that the kernel may make. -/
def follows : ProcState → ProcState → Bool
  | .unused, .embryo => true
  | .embryo, .runnable => true
  | .embryo, .unused => true
  | .runnable, .running => true
  | .running, .runnable => true
  | .running, .sleeping => true
  | .running, .zombie => true
  | .sleeping, .runnable => true
  | .zombie, .unused => true
  | _, _ => false

theorem follows_of_shifts {x y : ProcState} (h : shifts x y = true) : follows x y = true := by
  cases x <;> cases y <;> simp_all [shifts, follows]

/-- Every state change is one of the allowed ones. -/
theorem move_follows (h : Move b s c a s') (hw : Wf s) (q : Slot) :
    (s'.k.proc q).state = (s.k.proc q).state ∨
      follows (s.k.proc q).state (s'.k.proc q).state = true := by
  cases move_change h hw q with
  | keep _ _ hstate => exact hstate.imp_right follows_of_shifts
  | alloc hx _ hstate | fail _ _ _ hx hstate | start _ hx hstate | exit _ hx hstate
  | reap hx hstate =>
    exact .inr (by rw [hx, hstate]; rfl)
  | stamp _ hstate | count hstate => exact .inl hstate
  | kill _ hstate =>
    rw [hstate]
    split
    next hx => exact .inr (by rw [hx]; rfl)
    next => exact .inl rfl

/-- While a pass of `wait` runs, no CPU has a ZOMBIE in `c->proc`. -/
theorem zombie_off (hw : Wf s) {p z : Slot} {k : Kernel} (hrun : (s.cpu c).run = some p)
    (hc : WaitCall s a p k) (hz : (s.k.proc z).state = .zombie) (d : Fin n) :
    (s.cpu d).run ≠ some z ∧ (s.cpu d).proc ≠ some z := by
  have hnot : (s.cpu d).run ≠ some z := by
    intro h
    rw [(hw.runs d z h).1] at hz
    cases hz
  refine ⟨hnot, fun h => ?_⟩
  cases hr : (s.cpu d).run with
  | some q =>
    have hq := (hw.runs d q hr).2.1
    rw [h] at hq
    exact hnot (hr.trans hq.symm)
  | none =>
    -- Its scheduler would be just back from the ZOMBIE, with the lock.
    have hback := hw.sched d hr
    have hlock : s.lock = some d := by
      refine hw.lock_of_pc hr fun hpc => ?_
      rw [h, hpc] at hback
      cases hback
    rcases hw.lock_of_wait hrun hc with hl | hl <;> rw [hlock] at hl
    · cases hl
    · obtain rfl := Option.some.inj hl
      rw [hr] at hrun
      cases hrun

/-- Until the step that returns it to its parent, a ZOMBIE changes at most its
parent, its `killed` flag and its priority. -/
theorem move_zombie (h : Move b s c a s') (hw : Wf s) {z : Slot}
    (hz : (s.k.proc z).state = .zombie) :
    (∃ parent killed priority, s'.k.proc z =
      { s.k.proc z with parent := parent, killed := killed, priority := priority }) ∨
      ∃ p k, (s.cpu c).run = some p ∧ WaitCall s a p k ∧ findZombie k p = some z := by
  have hembryo : ∀ {p np : Slot}, child (s.thread p).act = some np → z ≠ np := by
    rintro p np hc rfl
    rw [hw.embryo p z hc] at hz
    cases hz
  have hrunning : ∀ {d : Fin n} {p : Slot}, (s.cpu d).run = some p → z ≠ p := by
    rintro d p hrun rfl
    rw [(hw.runs d z hrun).1] at hz
    cases hz
  have hsame : ∀ {k : Kernel}, k.proc z = s.k.proc z →
      (∃ parent killed priority, k.proc z =
        { s.k.proc z with parent := parent, killed := killed, priority := priority }) ∨
        ∃ p k, (s.cpu c).run = some p ∧ WaitCall s a p k ∧ findZombie k p = some z :=
    fun h => .inl ⟨_, _, _, h⟩
  have hwait : ∀ {p : Slot} {k : Kernel}, (s.cpu c).run = some p → WaitCall s a p k →
      k.proc z = s.k.proc z := by
    rintro p k hrun (⟨-, -, -, -, rfl⟩ | ⟨-, -, rfl⟩)
    · rfl
    · simp [hrunning hrun]
  cases h with
  | acquire hrun hpc hlock => exact hsame rfl
  | goto hrun hpc hg => exact hsame (by rw [hg.proc])
  | @dispatch k p pc hrun hpc hd =>
    have hd := hd.dispatched
    have hne : z ≠ p := by
      rintro rfl
      rw [hd.runnable] at hz
      cases hz
    exact hsame (by simp [hd.proc, hne])
  | finish hrun hpc hf => exact hsame rfl
  | resume hrun hf => exact hsame rfl
  | woken hrun hf => exact hsame (by simp [hrunning hrun])
  | @reap _ p z' k hrun hc hz' =>
    by_cases he : z = z'
    · subst he
      exact .inr ⟨p, k, hrun, hc, hz'⟩
    · exact hsame (by simpa [reap, he] using hwait hrun hc)
  | waitFail hrun hc hz' hk => exact hsame (hwait hrun hc)
  | waitSleep hrun hc hz' hk => exact hsame (by simpa [hrunning hrun] using hwait hrun hc)
  | forkFull hr ha hlock hn => exact hsame (by simp [(allocproc_none hn).2])
  | @forkAlloc p np stray hr ha hlock hn =>
    obtain ⟨hfree, hk⟩ := allocproc_some hn
    have hne : z ≠ np := by
      rintro rfl
      rw [hfree] at hz
      cases hz
    exact hsame (by simp [hk, hne])
  | @kallocOk p _ _ ha | @kallocFail p _ _ ha =>
    have hne := hembryo (p := p) (by rw [ha]; rfl)
    exact hsame (by simp [allocStack, hne])
  | @copyOk p _ _ ha | @copyFail p _ _ ha =>
    have hne := hembryo (p := p) (by rw [ha]; rfl)
    exact hsame (by simp [copyProc, hne])
  | @forkDone p np hr ha hlock =>
    have hne := hembryo (p := p) (by rw [ha]; rfl)
    exact hsame (by simp [hne])
  | stamp hr | yield hr | sleep _ hr => exact hsame (by simp [hrunning hr.1])
  | @exit p hr ha hlock =>
    refine .inl ⟨if (s.k.proc z).parent = some p then s.k.initproc else (s.k.proc z).parent,
      (s.k.proc z).killed, (s.k.proc z).priority, ?_⟩
    simp [exitBody_eq, hrunning hr.1, hz]
  | kill pid hr hlock =>
    rcases kill_proc s.k pid z with h | h
    · exact hsame h
    · exact .inl ⟨(s.k.proc z).parent, true, (s.k.proc z).priority, by simp [h, hz]⟩
  | chprty pid priority hr hlock =>
    rcases chprty_proc s.k pid priority z with h | h
    · exact hsame h
    · exact .inl ⟨_, _, _, h⟩
  | wakeup chan hlock => exact hsame (by simp [wakeup1, hz])
  | tick => exact hsame rfl
  | updateStatistics hlock => exact hsame (by simp [updateStatistics, hz])

/-- What a step does to a CPU: nothing, start a process, leave a process that is
not free, or go on in a scheduler that has none. -/
theorem move_cpu (h : Move b s c a s') (hw : Wf s) (d : Fin n) :
    s'.cpu d = s.cpu d ∨ (s'.cpu d).run ≠ none ∨ (s'.cpu d).proc = none ∨
      ∃ p, (s'.cpu d).proc = some p ∧ (s'.k.proc p).state ≠ .unused ∧
        (s'.k.proc p).state ≠ .embryo := by
  -- Only CPU `c` changes.
  have hother : ∀ {x : Cpu}, d ≠ c → update s.cpu c x d = s.cpu d :=
    fun hd => Function.update_of_ne hd _ _
  have hout : ∀ {p : Slot} {k : Kernel} {f : Frame}, (s.cpu c).run = some p →
      (k.proc p).state ≠ .unused ∧ (k.proc p).state ≠ .embryo →
      (s.switchOut c p k f).cpu d = s.cpu d ∨ ((s.switchOut c p k f).cpu d).run ≠ none ∨
        ((s.switchOut c p k f).cpu d).proc = none ∨
        ∃ q, ((s.switchOut c p k f).cpu d).proc = some q ∧ (k.proc q).state ≠ .unused ∧
          (k.proc q).state ≠ .embryo := by
    intro p k f hrun hp
    by_cases hd : d = c
    · subst hd
      refine .inr (.inr (.inr ⟨p, ?_, hp⟩))
      simpa [System.switchOut] using (hw.runs d p hrun).2.1
    · exact .inl (hother hd)
  cases h with
  | acquire hrun hpc hlock =>
    by_cases hd : d = c
    · subst hd
      have hs := hw.sched d hrun
      rw [hpc] at hs
      exact .inr (.inr (.inl (by simpa [returned] using hs)))
    · exact .inl (hother hd)
  | goto hrun hpc hg =>
    by_cases hd : d = c
    · subst hd
      have hs := hw.sched d hrun
      refine .inr (.inr (.inl ?_))
      simp only [Function.update_self]
      split
      next hr => rw [hs, hr]
      next => rfl
    · exact .inl (hother hd)
  | dispatch hrun hpc hd' =>
    by_cases hd : d = c
    · subst hd
      exact .inr (.inl (by simp))
    · exact .inl (hother hd)
  | finish hrun hpc hf =>
    by_cases hd : d = c
    · subst hd
      have hs := (hw.sched d hrun).trans (returned_of_finish hf)
      exact .inr (.inr (.inl (by simpa using hs)))
    · exact .inl (hother hd)
  | waitSleep hrun hc hz hk => exact hout hrun (by simp)
  | exit hr ha hlock => exact hout (f := .dead) hr.1 (by simp [exitBody_eq])
  | yield hr hlock => exact hout hr.1 (by simp)
  | sleep a hr ha hlock => exact hout hr.1 (by simp)
  | _ => exact .inl rfl

/-- The process that a scheduler has just come back from is in use. -/
def Back (s : System n) : Prop :=
  ∀ d p, (s.cpu d).run = none → (s.cpu d).proc = some p →
    (s.k.proc p).state ≠ .unused ∧ (s.k.proc p).state ≠ .embryo

theorem move_back (h : Move b s c a s') (hw : Wf s) (hb : Back s) : Back s' := by
  intro d p hrun hproc
  rcases move_cpu h hw d with he | he | he | ⟨q, hq, h₁⟩
  · rw [he] at hrun hproc
    obtain ⟨h₁, h₂⟩ := hb d p hrun hproc
    rcases move_follows h hw p with hs | hs
    · rw [hs]
      exact ⟨h₁, h₂⟩
    · by_cases hz : (s.k.proc p).state = .zombie
      · rcases move_zombie h hw hz with ⟨_, _, _, hk⟩ | ⟨cur, k, hr, hc, -⟩
        · rw [hk]
          exact ⟨h₁, h₂⟩
        · exact absurd hproc (zombie_off hw hr hc hz d).2
      · generalize (s.k.proc p).state = x at hs hz h₁ h₂
        generalize (s'.k.proc p).state = y at hs
        cases x <;> cases y <;> simp_all [follows]
  · exact absurd hrun he
  · rw [he] at hproc
    cases hproc
  · rw [hq] at hproc
    obtain rfl := Option.some.inj hproc
    exact h₁

theorem back_reachable (h : Reachable b s) : Back s :=
  h.invariant_of (P := Back) (fun _ => wf_reachable) (fun _ _ _ hp => by cases hp)
    fun _ _ _ hw hb _ hs => move_back (step_move hs) hw hb

/-- The RUNNING processes are those that some CPU has in `c->proc`, one CPU each. -/
def OneCpuEach (s : System n) : Prop :=
  (∀ p, (s.k.proc p).state = .running ↔ ∃! c, (s.cpu c).proc = some p) ∧
    ∀ c d p, (s.cpu c).proc = some p → (s.cpu d).proc = some p → c = d

/-- With the lock free, a CPU has a process in `c->proc` exactly while it executes it. -/
theorem proc_iff (hw : Wf s) (hlock : s.lock = none) (c : Fin n) (p : Slot) :
    (s.cpu c).proc = some p ↔ (s.cpu c).run = some p := by
  cases hr : (s.cpu c).run with
  | some q => rw [(hw.runs c q hr).2.1]
  | none =>
    have hs := hw.sched c hr
    rw [hw.idle c (by simp [hlock]) hr] at hs
    rw [hs]
    simp [returned]

theorem oneCpuEach (hw : Wf s) (hlock : s.lock = none) : OneCpuEach s := by
  have hproc := proc_iff hw hlock
  have huniq : ∀ c d p, (s.cpu c).proc = some p → (s.cpu d).proc = some p → c = d :=
    fun c d p h h' => hw.unique c d p ((hproc c p).mp h) ((hproc d p).mp h')
  refine ⟨fun p => ⟨fun h => ?_, fun ⟨c, h, _⟩ => (hw.runs c p ((hproc c p).mp h)).1⟩, huniq⟩
  obtain ⟨c, hc⟩ := hw.running p h
  exact ⟨c, (hproc c p).mpr hc, fun d hd => huniq d c p hd ((hproc c p).mpr hc)⟩

/-- In every run of every build, on any number of CPUs: with the lock free the
RUNNING processes are those of the CPUs, every step changes the state of a
process as allowed or not at all, and a step that frees the kernel stack or the
page directory of a ZOMBIE happens while no CPU executes it or still has it in
`c->proc`. -/
theorem run_states_sound (h : Reachable b s) :
    (s.lock = none → OneCpuEach s) ∧
      ∀ c a s', step b s (c, a) = some s' → ∀ p,
        ((s'.k.proc p).state = (s.k.proc p).state ∨
          follows (s.k.proc p).state (s'.k.proc p).state = true) ∧
        ((s.k.proc p).state = .zombie →
          (s'.k.proc p).kstack ≠ (s.k.proc p).kstack ∨ (s'.k.proc p).pgdir ≠ (s.k.proc p).pgdir →
          ∀ d, (s.cpu d).run ≠ some p ∧ (s.cpu d).proc ≠ some p) := by
  have hw := wf_reachable h
  refine ⟨oneCpuEach hw, fun c a s' hs p => ⟨move_follows (step_move hs) hw p, fun hz hf => ?_⟩⟩
  rcases move_zombie (step_move hs) hw hz with ⟨_, _, _, h⟩ | ⟨cur, k, hrun, hc, -⟩
  · rw [h] at hf
    exact absurd rfl (hf.resolve_left fun hne => hne rfl)
  · exact zombie_off hw hrun hc hz

/-- Init on the first of two CPUs, in the code after `forkret`. -/
theorem run_states_sound_init : ∃ s : System 2, Reachable .dflt s ∧ s.lock = none ∧
    (s.k.proc 0).state = .running ∧ OneCpuEach s := by
  obtain ⟨s, hr, hlock, hstate⟩ : ∃ s : System 2, Reachable .dflt s ∧ s.lock = none ∧
      (s.k.proc 0).state = .running :=
    Runs.exists_of_exec (l := [(0, .sched), (0, .sched), (0, .resume)]) (by decide)
  exact ⟨s, hr, hlock, hstate, (run_states_sound hr).1 hlock⟩

end Xv6.StateChange
