import Xv6.RunState

/-!
# What a step does to a slot

Besides its state, a slot of the process table has a number, a `killed` flag and
three times. Each step writes them in one of a few ways, and leaves those of all
other slots alone. Only the scheduler and `allocproc` touch the queues and the
statistics, and only the scheduler of a CPU changes where it will continue.
-/
namespace Xv6.SlotChange

open Function (update)
open ProcTable Scheduler ProcSystem RunState

variable {n : Nat} {b : Build} {s s' : System n} {c : Fin n} {a : Action}

/-- A process that has been started and has not exited. -/
def alive : ProcState → Bool
  | .runnable | .running | .sleeping => true
  | _ => false

/-- The changes between the states of such a process. -/
def shifts : ProcState → ProcState → Bool
  | .runnable, .running | .running, .runnable | .running, .sleeping | .sleeping, .runnable => true
  | _, _ => false

theorem alive_of_shifts :
    ∀ {x y : ProcState}, shifts x y = true → alive x = true ∧ alive y = true := by
  intro x y h
  cases x <;> cases y <;> simp_all [shifts, alive]

/-- The number of a process, whether it is killed, and its times. -/
def marks (x : Proc) : Int × Bool × UInt32 × UInt32 × Int :=
  (x.pid, x.killed, x.ctime, x.etime, x.rtime)

/-- Actions that write the number or a time of a slot, whatever its state. -/
def Touches (s : System n) (c : Fin n) (q : Slot) : Action → Prop
  | .fork stray => (allocproc s.k stray).2 = some q
  | .stamp => (s.cpu c).run = some q
  | .updateStatistics => True
  | _ => False

/-- Slot `q` has `x` before a step of CPU `c`, and `y` after it. -/
inductive Change (s : System n) (c : Fin n) (q : Slot) (x y : Proc) : Action → Prop where
  | keep {a : Action} (ha : ¬ Touches s c q a) (hmarks : marks y = marks x)
      (hstate : y.state = x.state ∨ shifts x.state y.state = true) : Change s c q x y a
  | alloc {stray : Int} (hx : x.state = .unused) (hq : (allocproc s.k stray).2 = some q)
      (hstate : y.state = .embryo)
      (hmarks : marks y = (s.k.nextpid, x.killed, s.k.ticks, x.etime, 0)) :
      Change s c q x y (.fork stray)
  | fail {a : Action} {p : Slot} (ha : a = .kalloc false ∨ a = .copyuvm false)
    (hrun : (s.cpu c).run = some p)
      (hchild : child (s.thread p).act = some q) (hx : x.state = .embryo)
      (hstate : y.state = .unused)
      (hmarks : marks y = marks x) : Change s c q x y a
  | start {p : Slot} (hact : (s.thread p).act = .copied q) (hx : x.state = .embryo)
      (hstate : y.state = .runnable) (hmarks : marks y = marks x) : Change s c q x y .forkDone
  | stamp (hrun : (s.cpu c).run = some q) (hstate : y.state = x.state)
      (hmarks : marks y = (x.pid, x.killed, x.ctime, s.k.ticks, x.rtime)) : Change s c q x y .stamp
  | exit (hact : (s.thread q).act = .exiting) (hx : x.state = .running) (hstate : y.state = .zombie)
      (hmarks : marks y = marks x) : Change s c q x y .exit
  | reap {a : Action} (hx : x.state = .zombie) (hstate : y.state = .unused)
      (hmarks : marks y = (0, false, 0, 0, 0)) : Change s c q x y a
  | kill {pid : Int} (hq : findPid s.k pid = some q)
    (hstate : y.state = if x.state = .sleeping then .runnable else x.state)
      (hmarks : marks y = (x.pid, true, x.ctime, x.etime, x.rtime)) : Change s c q x y (.kill pid)
  | count (hstate : y.state = x.state)
      (hmarks : marks y =
      (x.pid, x.killed, x.ctime, x.etime, if x.state = .running then x.rtime + 1 else x.rtime)) :
      Change s c q x y .updateStatistics

/-- The only slot that is written. -/
theorem Change.of_update {t : Slot → Proc} {p q : Slot} {v : Proc} (ha : q ≠ p → ¬ Touches s c q a)
    (h : Change s c p (t p) v a) : Change s c q (t q) (update t p v q) a := by
  by_cases hq : q = p
  · subst hq
    rwa [Function.update_self]
  · rw [Function.update_of_ne hq]
    exact .keep (ha hq) rfl (.inl rfl)

theorem change_wakeup (chan : Chan) (q : Slot) :
    Change s c q (s.k.proc q) (wakeup1 chan s.k.proc q) (.wakeup chan) := by
  rw [wakeup1_eq]
  refine .keep id rfl ?_
  dsimp only
  split
  next h => exact .inr (by rw [h.1]; rfl)
  next => exact .inl rfl

theorem touches_wait {p : Slot} {k : Kernel} (h : WaitCall s a p k) (q : Slot) :
    ¬ Touches s c q a := by
  rcases h with ⟨rfl, -⟩ | ⟨rfl, -⟩ <;> exact id

/-- Every step changes a slot in one of these ways, or not at all. -/
theorem move_change (h : Move b s c a s') (hw : Wf s) (q : Slot) :
    Change s c q (s.k.proc q) (s'.k.proc q) a := by
  have hkeep : ∀ {y : Proc}, ¬ Touches s c q a → y = s.k.proc q → Change s c q (s.k.proc q) y a :=
    fun ha h => .keep ha (by rw [h]) (.inl (by rw [h]))
  cases h with
  | acquire hrun hpc hlock => exact hkeep id rfl
  | goto hrun hpc hg => exact hkeep id (by rw [hg.proc])
  | @dispatch k p pc hrun hpc hd =>
    have hd := hd.dispatched
    rw [hd.proc]
    exact .of_update (fun _ => id) (.keep id rfl (.inr (by rw [hd.runnable]; rfl)))
  | finish hrun hpc hf => exact hkeep id rfl
  | resume hrun hf => exact hkeep id rfl
  | woken | kallocOk | copyOk => exact .of_update (fun _ => id) (.keep id rfl (.inl rfl))
  | @reap _ p z k hrun hc hz =>
    have hwait := touches_wait (c := c) hc q
    change Change s c q (s.k.proc q) (update k.proc z _ q) _
    by_cases hq : q = z
    · subst hq
      rw [Function.update_self]
      exact .reap ((hc.field Proc.state (fun _ => rfl) q).symm.trans (findZombie_some hz).2) rfl rfl
    · rw [Function.update_of_ne hq]
      exact .keep hwait (hc.field marks (fun _ => rfl) q)
        (.inl (hc.field Proc.state (fun _ => rfl) q))
  | waitFail hrun hc hz hk =>
    have hwait := touches_wait (c := c) hc q
    exact .keep hwait (hc.field marks (fun _ => rfl) q)
      (.inl (hc.field Proc.state (fun _ => rfl) q))
  | @waitSleep _ p k hrun hc hz hk =>
    have hwait := touches_wait (c := c) hc q
    change Change s c q (s.k.proc q) (update k.proc p _ q) _
    by_cases hq : q = p
    · subst hq
      rw [Function.update_self]
      exact .keep hwait (hc.field marks (fun _ => rfl) q) (.inr (by rw [(hw.runs c q hrun).1]; rfl))
    · rw [Function.update_of_ne hq]
      exact .keep hwait (hc.field marks (fun _ => rfl) q)
        (.inl (hc.field Proc.state (fun _ => rfl) q))
  | forkFull hr ha hlock hn =>
    exact hkeep (by rw [Touches, hn]; exact nofun) (by rw [(allocproc_none hn).2]; rfl)
  | @forkAlloc p np stray hr ha hlock hn =>
    obtain ⟨hfree, hnew⟩ := allocproc_some hn
    rw [hnew]
    exact .of_update
      (fun hq ht => hq (Option.some.inj (ht.symm.trans hn))) (.alloc hfree hn rfl rfl)
  | @kallocFail p np hr ha =>
    have hc : child (s.thread p).act = some np := by rw [ha]; rfl
    exact .of_update (fun _ => id) (.fail (.inl rfl) hr.1 hc (hw.embryo p np hc) rfl rfl)
  | @copyFail p np hr ha =>
    have hc : child (s.thread p).act = some np := by rw [ha]; rfl
    exact .of_update (fun _ => id) (.fail (.inr rfl) hr.1 hc (hw.embryo p np hc) rfl rfl)
  | @forkDone p np hr ha hlock =>
    exact .of_update (fun _ => id) (.start ha (hw.embryo p np (by rw [ha]; rfl)) rfl rfl)
  | stamp hr ha hinit =>
    exact .of_update (fun hq ht => hq (Option.some.inj (ht.symm.trans hr.1))) (.stamp hr.1 rfl rfl)
  | @exit p hr ha hlock =>
    change Change s c q (s.k.proc q) ((exitBody s.k p).proc q) _
    rw [exitBody_eq]
    by_cases hq : q = p
    · subst hq
      exact .exit ha (hw.runs c q hr.1).1 (if_pos rfl) rfl
    · refine .keep id rfl ?_
      dsimp only
      rw [if_neg hq]
      split
      next h => exact .inr (by rw [h.1]; rfl)
      next => exact .inl rfl
  | @yield p hr | @sleep p _ hr =>
    exact .of_update (fun _ => id) (.keep id rfl (.inr (by rw [(hw.runs c p hr.1).1]; rfl)))
  | kill pid hr hlock =>
    dsimp only
    unfold ProcTable.kill
    split
    next => exact hkeep id rfl
    next p hp => exact .of_update (fun _ => id) (.kill hp rfl rfl)
  | chprty pid priority hr hlock =>
    rcases chprty_proc s.k pid priority q with h | h
    · exact hkeep id h
    · dsimp only
      rw [h]
      exact .keep id rfl (.inl rfl)
  | wakeup chan hlock => exact change_wakeup chan q
  | tick => exact hkeep id rfl
  | updateStatistics hlock =>
    rw [updateStatistics_proc]
    exact .count rfl rfl

/-! ## Schedulers and queues -/

/-- A step that is neither one of a scheduler nor one of `allocproc`. -/
structure Calm (s s' : System n) : Prop where
  cxj : s'.k.cxj = s.k.cxj
  qxj : s'.k.qxj = s.k.qxj
  pstat : s'.k.pstat = s.k.pstat
  overrun : s'.k.overrun = s.k.overrun
  nextpid : s'.k.nextpid = s.k.nextpid
  pc : ∀ d, (s'.cpu d).pc = (s.cpu d).pc
  run : ∀ d, (s'.cpu d).run = (s.cpu d).run ∨ (s'.cpu d).run = none

/-- What the scheduler of CPU `c` does in a step. -/
inductive Sched (b : Build) (s : System n) (c : Fin n) (s' : System n) : Prop where
  | acquire (hpc : (s.cpu c).pc = .idle) (hk : s'.k = s.k)
      (hcpu : s'.cpu = update s.cpu c { s.cpu c with pc := entryPc b })
  | goto (hpc : (s.cpu c).pc ≠ .idle) (h : schedStep b s.k (s.cpu c).pc = .goto s'.k (s'.cpu c).pc)
      (hrun : (s'.cpu c).run = none) (hother : ∀ d, d ≠ c → s'.cpu d = s.cpu d)
  | dispatch {p : Slot} (hpc : (s.cpu c).pc ≠ .idle)
      (h : schedStep b s.k (s.cpu c).pc = .dispatch s'.k p (s'.cpu c).pc)
      (hrun : (s'.cpu c).run = some p) (hother : ∀ d, d ≠ c → s'.cpu d = s.cpu d)
  | finish (hpc : (s.cpu c).pc ≠ .idle) (h : schedStep b s.k (s.cpu c).pc = .finish s'.k)
      (hcpu : s'.cpu = update s.cpu c { s.cpu c with pc := .idle })

theorem sched_cases (h : s.sched b c = some s') : (s.cpu c).run = none ∧ Sched b s c s' := by
  unfold System.sched at h
  split at h
  next hrun =>
    refine ⟨hrun, ?_⟩
    split at h
    next hpc =>
      obtain ⟨-, rfl⟩ := Runs.of_guarded h
      exact .acquire hpc rfl rfl
    next hpc =>
      obtain rfl := Option.some.inj h
      unfold System.schedMove
      cases he : schedStep b s.k (s.cpu c).pc with
      | goto k pc => exact .goto hpc (by simpa using he) (by simp) fun d hd => by simp [hd]
      | dispatch k p pc =>
        exact .dispatch hpc (by simpa using he) (by simp) fun d hd => by simp [hd]
      | finish k => exact .finish hpc he rfl
  next => cases h

theorem Sched.of_goto {k : Kernel} {pc : SchedPc} (h : Sched b s c s') (hpc : (s.cpu c).pc ≠ .idle)
    (hstep : schedStep b s.k (s.cpu c).pc = .goto k pc) :
    k = s'.k ∧ (s'.cpu c).pc = pc ∧ (s'.cpu c).run = none := by
  cases h with
  | acquire hidle => exact absurd hidle hpc
  | goto _ he hrun =>
    obtain ⟨hk, hpc'⟩ := SchedStep.goto.inj (hstep.symm.trans he)
    exact ⟨hk, hpc'.symm, hrun⟩
  | dispatch _ he => cases hstep.symm.trans he
  | finish _ he => cases hstep.symm.trans he

theorem Sched.of_dispatch {k : Kernel} {p : Slot} {pc : SchedPc} (h : Sched b s c s')
    (hpc : (s.cpu c).pc ≠ .idle) (hstep : schedStep b s.k (s.cpu c).pc = .dispatch k p pc) :
    k = s'.k ∧ (s'.cpu c).pc = pc ∧ (s'.cpu c).run = some p := by
  cases h with
  | acquire hidle => exact absurd hidle hpc
  | goto _ he => cases hstep.symm.trans he
  | dispatch _ he hrun =>
    obtain ⟨hk, rfl, hpc'⟩ := SchedStep.dispatch.inj (hstep.symm.trans he)
    exact ⟨hk, hpc'.symm, hrun⟩
  | finish _ he => cases hstep.symm.trans he

theorem calm_of (hcpu : s'.cpu = s.cpu ∨ s'.cpu = update s.cpu c { s.cpu c with run := none })
    (hk : s'.k.cxj = s.k.cxj ∧ s'.k.qxj = s.k.qxj ∧ s'.k.pstat = s.k.pstat ∧
      s'.k.overrun = s.k.overrun) (hn : s'.k.nextpid = s.k.nextpid) : Calm s s' := by
  obtain ⟨hcxj, hqxj, hpstat, ho⟩ := hk
  rcases hcpu with h | h
  · exact ⟨hcxj, hqxj, hpstat, ho, hn, fun d => by rw [h], fun d => .inl (by rw [h])⟩
  · refine ⟨hcxj, hqxj, hpstat, ho, hn, fun d => ?_, fun d => ?_⟩
    · rw [h]
      by_cases hd : d = c
      · subst hd
        simp
      · rw [Function.update_of_ne hd]
    · rw [h]
      by_cases hd : d = c
      · subst hd
        exact .inr (by simp)
      · exact .inl (by rw [Function.update_of_ne hd])

/-- Every step is one of a scheduler, one of `allocproc`, or calm. -/
theorem step_cases (h : step b s (c, a) = some s') :
    a = .sched ∧ (s.cpu c).run = none ∧ Sched b s c s' ∨
      (∃ stray, a = .fork stray ∧ s'.k = (allocproc s.k stray).1 ∧ s'.cpu = s.cpu) ∨
      (a ≠ .sched ∧ ∀ stray, a ≠ .fork stray) ∧ Calm s s' := by
  by_cases ha : a = .sched
  · subst ha
    exact .inl ⟨rfl, sched_cases h⟩
  have hwait : ∀ {p : Slot} {k : Kernel}, WaitCall s a p k → (k.cxj = s.k.cxj ∧ k.qxj = s.k.qxj ∧
      k.pstat = s.k.pstat ∧ k.overrun = s.k.overrun) ∧ k.nextpid = s.k.nextpid := by
    intro p k hc
    rcases hc with ⟨-, -, -, -, rfl⟩ | ⟨-, -, rfl⟩ <;> exact ⟨⟨rfl, rfl, rfl, rfl⟩, rfl⟩
  have hm := step_move h
  by_cases hfork : ∃ stray, a = .fork stray
  · obtain ⟨stray, rfl⟩ := hfork
    cases hm with
    | forkFull | forkAlloc => exact .inr (.inl ⟨stray, rfl, rfl, rfl⟩)
    | reap _ hc | waitFail _ hc | waitSleep _ hc => rcases hc with ⟨h, -⟩ | ⟨h, -⟩ <;> cases h
  refine .inr (.inr ⟨⟨ha, fun stray he => hfork ⟨stray, he⟩⟩, ?_⟩)
  cases hm with
  | acquire | goto | dispatch | finish => exact absurd rfl ha
  | forkFull | forkAlloc => exact absurd ⟨_, rfl⟩ hfork
  | reap hrun hc hz => exact calm_of (c := c) (.inl rfl) (hwait hc).1 (hwait hc).2
  | waitFail hrun hc hz hk => exact calm_of (c := c) (.inl rfl) (hwait hc).1 (hwait hc).2
  | waitSleep hrun hc hz hk => exact calm_of (c := c) (.inr rfl) (hwait hc).1 (hwait hc).2
  | @exit p hr ha hlock =>
    exact calm_of (c := c) (.inr rfl) (exitBody_arrays s.k p) (exitBody_nextpid s.k p)
  | kill pid hr hlock =>
    exact calm_of (c := c) (.inl rfl) (kill_arrays s.k pid) (kill_nextpid s.k pid)
  | chprty pid priority hr hlock =>
    exact calm_of (c := c) (.inl rfl) (chprty_arrays s.k pid priority)
      (chprty_nextpid s.k pid priority)
  | yield | sleep => exact calm_of (c := c) (.inr rfl) ⟨rfl, rfl, rfl, rfl⟩ rfl
  | _ => exact calm_of (c := c) (.inl rfl) ⟨rfl, rfl, rfl, rfl⟩ rfl

theorem goto_of_step {k k' : Kernel} {pc pc' : SchedPc}
    (h : schedStep b k pc = .goto k' pc') : Goto k pc k' pc' := by
  rcases schedStep_cases b k pc with ⟨k₁, pc₁, he, hg⟩ | ⟨k₁, p, pc₁, he, -⟩ | he
  · rw [h] at he
    obtain ⟨rfl, rfl⟩ := SchedStep.goto.inj he
    exact hg
  · rw [h] at he
    cases he
  · rw [h] at he
    cases he

theorem dispatch_of_step {k k' : Kernel} {pc pc' : SchedPc} {p : Slot}
    (h : schedStep b k pc = .dispatch k' p pc') : Dispatch k pc k' p pc' := by
  rcases schedStep_cases b k pc with ⟨k₁, pc₁, he, -⟩ | ⟨k₁, q, pc₁, he, hd⟩ | he
  · rw [h] at he
    cases he
  · rw [h] at he
    obtain ⟨rfl, rfl, rfl⟩ := SchedStep.dispatch.inj he
    exact hd
  · rw [h] at he
    cases he

theorem finish_of_step {k k' : Kernel} {pc : SchedPc} (h : schedStep b k pc = .finish k') :
    k' = k := by
  rcases schedStep_cases b k pc with ⟨_, _, he, -⟩ | ⟨_, _, _, he, -⟩ | he
  · cases h.symm.trans he
  · cases h.symm.trans he
  · exact SchedStep.finish.inj (h.symm.trans he)

/-- What holds of every place that a scheduler goes on to holds of the places of all CPUs. -/
theorem step_pcs {P : SchedPc → Prop} (hs : step b s (c, a) = some s') (h : ∀ d, P (s.cpu d).pc)
    (hidle : P .idle) (hentry : P (entryPc b))
    (hgoto : a = .sched → (s.cpu c).run = none → ∀ {k pc}, Goto s.k (s.cpu c).pc k pc → P pc)
    (hdispatch : ∀ {k p pc}, Dispatch s.k (s.cpu c).pc k p pc → P pc) (d : Fin n) :
    P (s'.cpu d).pc := by
  have hother : (∀ e, e ≠ c → s'.cpu e = s.cpu e) → P (s'.cpu c).pc → P (s'.cpu d).pc := by
    intro hrest hc
    by_cases hd : d = c
    · rwa [hd]
    · rw [hrest d hd]
      exact h d
  have hupdate : ∀ {x : Cpu}, s'.cpu = update s.cpu c x → P x.pc → P (s'.cpu d).pc := fun hcpu hx =>
    hother (fun e he => by rw [hcpu, Function.update_of_ne he])
      (by rwa [hcpu, Function.update_self])
  rcases step_cases hs with ⟨ha, hrun, hsched⟩ | ⟨stray, -, -, hcpu⟩ | ⟨-, hcalm⟩
  · cases hsched with
    | acquire hpc hk hcpu => exact hupdate hcpu hentry
    | finish hpc hstep hcpu => exact hupdate hcpu hidle
    | goto hpc hstep _ hrest => exact hother hrest (hgoto ha hrun (goto_of_step hstep))
    | dispatch hpc hstep _ hrest => exact hother hrest (hdispatch (dispatch_of_step hstep))
  · rw [hcpu]
    exact h d
  · rw [hcalm.pc]
    exact h d

/-! ## Processes in exit -/

/-- A step enters `exit`, moves on in `fork`, resets the thread of a slot that is being
filled, or does not change what a process does. -/
theorem move_act (h : Move b s c a s') (q : Slot) :
    (s'.thread q).act = (s.thread q).act ∨ (s.thread q).act ≠ .exiting ∧
    (s'.thread q).act ≠ .exiting ∨
      a = .stamp ∧ (s.cpu c).run = some q ∧ (s.thread q).act = .user ∨
      ∃ p, child (s.thread p).act = some q ∧ (s'.thread q).act = .user := by
  have hframe : ∀ (p : Slot) (f : Frame),
      (update s.thread p { s.thread p with frame := f } q).act = (s.thread q).act := by
    intro p f
    by_cases hq : q = p
    · rw [hq, Function.update_self]
    · rw [Function.update_of_ne hq]
  -- `fork` moves on
  have hfork : ∀ {p : Slot} {x : Activity}, (s.thread p).act ≠ .exiting → x ≠ .exiting →
      ((s.setAct p x).thread q).act = (s.thread q).act ∨
        (s.thread q).act ≠ .exiting ∧ ((s.setAct p x).thread q).act ≠ .exiting := by
    intro p x hp hx
    rw [setAct_act]
    split
    next h => exact .inr ⟨by rwa [h], hx⟩
    next => exact .inl rfl
  have hlift : ∀ {y : Activity},
      (y = (s.thread q).act ∨ (s.thread q).act ≠ .exiting ∧ y ≠ .exiting) →
      y = (s.thread q).act ∨ (s.thread q).act ≠ .exiting ∧ y ≠ .exiting ∨
        a = .stamp ∧ (s.cpu c).run = some q ∧ (s.thread q).act = .user ∨
        ∃ p, child (s.thread p).act = some q ∧ y = .user :=
    fun h => h.elim .inl fun h => .inr (.inl h)
  cases h with
  | acquire | goto | dispatch | finish | forkFull | kill | chprty | wakeup | tick
  | updateStatistics =>
    exact .inl rfl
  | resume | woken | reap | waitFail | waitSleep | exit | yield | sleep => exact .inl (hframe _ _)
  | forkAlloc hr ha hlock hn => exact hlift (hfork (by simp [ha]) (by simp))
  | @kallocOk p np hr ha =>
    by_cases hq : q = np
    · subst hq
      exact .inr (.inr (.inr ⟨p, by rw [ha]; rfl, by simp [System.setThread]⟩))
    · have hne :
          (((s.setAct p (.stacked np)).setThread np fun _ => ⟨.user, .forked⟩).thread q).act =
          ((s.setAct p (.stacked np)).thread q).act := by simp [System.setThread, hq]
      dsimp only
      rw [hne]
      exact hlift (hfork (by simp [ha]) (by simp))
  | kallocFail hr ha | copyOk hr ha | copyFail hr ha | forkDone hr ha =>
    exact hlift (hfork (by simp [ha]) (by simp))
  | @stamp p hr ha hinit =>
    by_cases hq : q = p
    · subst hq
      exact .inr (.inr (.inl ⟨rfl, hr.1, ha⟩))
    · exact .inl (by dsimp only; rw [setAct_act, if_neg hq])

/-- A process is in `exit` from the moment it has recorded the time. -/
theorem exiting_of_move (h : Move b s c a s') {q : Slot} (hact : (s'.thread q).act = .exiting) :
    (s.thread q).act = .exiting ∨ a = .stamp ∧ (s.cpu c).run = some q := by
  rcases move_act h q with he | ⟨-, hne⟩ | ⟨ha, hrun, -⟩ | ⟨p, -, huser⟩
  · exact .inl (he.symm.trans hact)
  · exact absurd hact hne
  · exact .inr ⟨ha, hrun⟩
  · rw [hact] at huser
    cases huser

/-- It stays in `exit` until its slot is used again. -/
theorem move_exiting (h : Move b s c a s') (hw : Wf s) {q : Slot}
    (hact : (s.thread q).act = .exiting) (hq : (s.k.proc q).state ≠ .embryo) :
    (s'.thread q).act = .exiting := by
  rcases move_act h q with he | ⟨hne, -⟩ | ⟨-, -, huser⟩ | ⟨p, hc, -⟩
  · exact he.trans hact
  · exact absurd hact hne
  · rw [hact] at huser
    cases huser
  · exact absurd (hw.embryo p q hc) hq

end Xv6.SlotChange
