import Xv6.RunState

/-!
# Parents, children and `wait`

The kernel refines the family model: `fork`, `exit`, `wait` and `waitx` are its
steps, and everything else, wakeups included, at most lets somebody sleep on or
wake up. Init is the root.
-/
namespace Xv6.Parents

open Function (update)
open ProcTable Scheduler ProcSystem RunState
open Family (Event Phase Member Calm Step)

variable {n : Nat} {b : Build} {s s' : System n} {c : Fin n} {a : Action}

def phaseOf : ProcState → Phase
  | .unused => .free
  | .embryo => .forming
  | .sleeping => .alive
  | .runnable => .alive
  | .running => .alive
  | .zombie => .dead

/-- A slot as a member of the family. In `wait` a process sleeps on its own slot. -/
def memberOf (q : Slot) (x : Proc) : Member Slot where
  phase := phaseOf x.state
  pid := x.pid
  parent := x.parent
  waiting := decide (x.state = .sleeping ∧ x.chan = .proc q)

def family (s : System n) : Family.State Slot where
  member := fun q => memberOf q (s.k.proc q)
  nextpid := s.k.nextpid
  log := s.log

theorem phaseOf_dead {x : ProcState} : phaseOf x = .dead ↔ x = .zombie := by
  cases x <;> simp [phaseOf]

theorem phaseOf_free {x : ProcState} : phaseOf x = .free ↔ x = .unused := by
  cases x <;> simp [phaseOf]

/-- The members after an assignment to one slot. -/
theorem member_update (t : Slot → Proc) (p : Slot) (v : Proc) :
    (fun q => memberOf q (update t p v q)) =
      update (fun q => memberOf q (t q)) p (memberOf p v) := by
  funext q
  by_cases hq : q = p
  · subst hq
    simp
  · simp [hq]

/-- The member that an EMBRYO, a ZOMBIE or a process that is not asleep gives. -/
theorem memberOf_awake {q : Slot} {x : Proc} (h : x.state ≠ .sleeping) :
    memberOf q x = ⟨phaseOf x.state, x.pid, x.parent, false⟩ := by
  simp [memberOf, h]

/-- A slot that `fork` is filling, as a member. -/
theorem member_embryo (hw : Wf s) {p np : Slot} (hc : child (s.thread p).act = some np) :
    (family s).member np =
      ⟨.forming, (s.k.proc np).pid, (s.k.proc np).parent, false⟩ := by
  have he := hw.embryo p np hc
  simp [family, memberOf, he, phaseOf]

theorem calm_refl (m : Member Slot) : Calm m m := ⟨rfl, rfl, rfl, id⟩

/-- What a step must keep of a slot for the family not to notice. -/
theorem calm_of {q : Slot} {x y : Proc} (hphase : phaseOf y.state = phaseOf x.state)
    (hpid : y.pid = x.pid) (hparent : y.parent = x.parent)
    (hsleep : y.state = .sleeping → y.chan = .proc q → x.state = .sleeping ∧ x.chan = .proc q) :
    Calm (memberOf q x) (memberOf q y) := by
  refine ⟨hphase, hpid, hparent, fun hw => ?_⟩
  simp only [memberOf, decide_eq_true_eq] at hw ⊢
  exact hsleep hw.1 hw.2

theorem step_quiet (h : ∀ q, Calm (memberOf q (s.k.proc q)) (memberOf q (s'.k.proc q)))
    (hnext : s'.k.nextpid = s.k.nextpid) (hlog : s'.log = s.log) :
    Step 0 (family s) (family s') := by
  have he : family s' = { family s with member := fun q => memberOf q (s'.k.proc q) } := by
    simp [family, hnext, hlog]
  rw [he]
  exact .quiet h

/-- Steps that assign one slot. -/
theorem step_update {t : System n} {p : Slot} {v : Proc} {m : Member Slot}
    (hproc : t.k.proc = update s.k.proc p v) (hm : memberOf p v = m)
    (h : Step 0 (family s)
      { member := update (family s).member p m, nextpid := t.k.nextpid, log := t.log }) :
    Step 0 (family s) (family t) := by
  have he : (family t).member = update (family s).member p m := by
    simp only [family, hproc, member_update, hm]
  rw [← he] at h
  exact h

/-- The slots that `wait` finds are as the table has them. -/
theorem calm_wait {p : Slot} {k : Kernel} (hw : Wf s) (hrun : (s.cpu c).run = some p)
    (hc : WaitCall s a p k) (q : Slot) : memberOf q (k.proc q) = memberOf q (s.k.proc q) := by
  have hp := (hw.runs c p hrun).1
  rcases hc with ⟨-, -, -, -, rfl⟩ | ⟨-, -, rfl⟩
  · rfl
  · by_cases hq : q = p
    · subst hq
      simp [memberOf, hp]
    · simp [hq]

/-- What `fork` and `exit` need of the rest of the state. -/
structure Own (s : System n) : Prop where
  initproc : s.k.initproc = some 0
  root : (s.thread 0).act ≠ .exiting
  /-- The child that `fork` is about to hand over has its parent set. -/
  copied : ∀ p np, (s.thread p).act = .copied np → (s.k.proc np).parent = some p

/-- Steps that leave every activity as it is. -/
theorem Own.keep (ho : Own s) (hi : s'.k.initproc = s.k.initproc)
    (hact : ∀ p, (s'.thread p).act = (s.thread p).act)
    (hparent : ∀ p np, (s.thread p).act = .copied np →
      (s'.k.proc np).parent = (s.k.proc np).parent) : Own s' := by
  refine ⟨hi.trans ho.initproc, by rw [hact]; exact ho.root, fun p np h => ?_⟩
  rw [hact] at h
  exact (hparent p np h).trans (ho.copied p np h)

/-- Steps of one process that change its activity. -/
theorem Own.setAct (ho : Own s) {p : Slot} {a : Activity} {k : Kernel} {l : List Event}
    (hi : k.initproc = s.k.initproc) (ha : a = .exiting → p ≠ 0)
    (hparent : ∀ q np, q ≠ p → (s.thread q).act = .copied np →
      (k.proc np).parent = (s.k.proc np).parent)
    (hc : ∀ np, a = .copied np → (k.proc np).parent = some p) :
    Own { s.setAct p a with k := k, log := l } := by
  refine ⟨hi.trans ho.initproc, ?_, fun q np h => ?_⟩
  · intro h
    simp only [setAct_act] at h
    split at h
    next he => exact ha h he.symm
    next => exact ho.root h
  · simp only [setAct_act] at h
    split at h
    next he =>
      subst he
      exact hc np h
    next he => exact (hparent q np he h).trans (ho.copied q np h)

@[simp] theorem release_act (s : System n) (p q : Slot) (k : Kernel) :
    ((s.release p k).thread q).act = (s.thread q).act := by
  by_cases hq : q = p
  · subst hq
    simp [System.release]
  · simp [System.release, hq]

@[simp] theorem switchOut_act (s : System n) (c : Fin n) (p q : Slot) (k : Kernel) (f : Frame) :
    ((s.switchOut c p k f).thread q).act = (s.thread q).act := by
  by_cases hq : q = p
  · subst hq
    simp [System.switchOut]
  · simp [System.switchOut, hq]

theorem waitCall_initproc {p : Slot} {k : Kernel} (hc : WaitCall s a p k) :
    k.initproc = s.k.initproc := by
  rcases hc with ⟨-, -, -, -, rfl⟩ | ⟨-, -, rfl⟩ <;> rfl

theorem own_boot : Own (bootSystem n) :=
  ⟨show boot.initproc = some 0 by decide, by simp [bootSystem], fun p np h => by cases h⟩

theorem move_own (h : Move b s c a s') (hw : Wf s) (ho : Own s) : Own s' := by
  have hembryo : ∀ {p np : Slot}, (s.thread p).act = .copied np → (s.k.proc np).state = .embryo :=
    fun h => hw.embryo _ _ (by rw [h]; rfl)
  cases h with
  | acquire | finish | tick => exact ho.keep rfl (fun _ => rfl) fun _ _ _ => rfl
  | goto hrun hpc hg => exact ho.keep hg.globals.1 (fun _ => rfl) fun _ _ _ => by simp [hg.proc]
  | dispatch hrun hpc hd =>
    have hd := hd.dispatched
    exact ho.keep hd.initproc (fun _ => rfl) fun _ _ _ => by simp [hd.proc]
  | resume | woken | yield | sleep => exact ho.keep rfl (by simp) (by simp)
  | @reap _ p z k hrun hc hz =>
    refine ho.keep (by simpa [reap] using waitCall_initproc hc) (by simp) fun q np hq => ?_
    have hne : np ≠ z := by
      rintro rfl
      have hz := (findZombie_some hz).2
      rw [hc.field Proc.state (fun _ => rfl), hembryo hq] at hz
      cases hz
    simpa [reap, hne] using hc.field Proc.parent (fun _ => rfl) np
  | waitFail hrun hc hz hk =>
    exact ho.keep (waitCall_initproc hc) (by simp)
      fun _ np _ => hc.field Proc.parent (fun _ => rfl) np
  | waitSleep hrun hc hz hk =>
    refine ho.keep (by simpa using waitCall_initproc hc) (by simp) fun _ np _ => ?_
    simpa using hc.field Proc.parent (fun _ => rfl) np
  | forkFull hr ha hlock hn =>
    have hk := (allocproc_none hn).2
    exact ho.keep (by simp [hk]) (fun _ => rfl) fun _ _ _ => by simp [hk]
  | forkAlloc hr ha hlock hn =>
    have hk := (allocproc_some hn).2
    exact ho.setAct (by simp [hk]) (by simp) (fun _ _ _ _ => by simp [hk]) (by simp)
  | @kallocOk p np hr ha =>
    have hne : np ≠ p := by
      rintro rfl
      have he := hw.embryo np np (by rw [ha]; rfl)
      rw [(hw.runs c np hr.1).1] at he
      cases he
    have hkeep : Own { s.setAct p (.stacked np) with k := allocStack s.k np true } :=
      ho.setAct rfl (by simp) (fun _ _ _ _ => by simp [allocStack]) (by simp)
    refine ⟨hkeep.initproc, ?_, fun q r h => ?_⟩
    · by_cases he : (0 : Slot) = np
      · simp [← he, System.setThread]
      · simpa [System.setThread, he] using hkeep.root
    · by_cases he : q = np
      · simp [he, System.setThread] at h
      · exact hkeep.copied q r (by simpa [System.setThread, he] using h)
  | kallocFail hr ha =>
    exact ho.setAct rfl (by simp) (fun _ _ _ _ => by simp [allocStack]) (by simp)
  | @copyOk p np hr ha =>
    refine ho.setAct rfl (by simp) (fun q r hq h => ?_) (by simp [copyProc])
    have hne : r ≠ np := by
      rintro rfl
      exact hq (hw.parent q p r (by rw [h]; rfl) (by rw [ha]; rfl))
    simp [copyProc, hne]
  | copyFail hr ha => exact ho.setAct rfl (by simp) (fun _ _ _ _ => by simp [copyProc]) (by simp)
  | forkDone hr ha hlock => exact ho.setAct rfl (by simp) (fun _ _ _ _ => by simp) (by simp)
  | stamp hr ha hinit =>
    refine ho.setAct rfl (fun _ hp => ?_) (fun _ _ _ _ => by simp) (by simp)
    exact hinit (by rw [hp, ho.initproc])
  | @exit p hr ha hlock =>
    refine ho.keep (by simp) (by simp) fun q np h => ?_
    have hne : (s.k.proc np).parent ≠ some p := by
      rw [ho.copied q np h]
      rintro hq
      obtain rfl := Option.some.inj hq
      rw [ha] at h
      cases h
    simp [exitBody_eq, hne]
  | kill pid hr hlock =>
    refine ho.keep (by simp) (fun _ => rfl) fun _ np _ => ?_
    rcases kill_proc s.k pid np with h | h <;> simp [h]
  | chprty pid priority hr hlock =>
    refine ho.keep (by simp) (fun _ => rfl) fun _ np _ => ?_
    rcases chprty_proc s.k pid priority np with h | h <;> simp [h]
  | wakeup chan hlock => exact ho.keep rfl (fun _ => rfl) (by simp)
  | updateStatistics hlock =>
    exact ho.keep rfl (fun _ => rfl) fun _ _ _ => by simp [updateStatistics_proc]

theorem waitCall_nextpid {p : Slot} {k : Kernel} (hc : WaitCall s a p k) :
    k.nextpid = s.k.nextpid := by
  rcases hc with ⟨-, -, -, -, rfl⟩ | ⟨-, -, rfl⟩ <;> rfl

/-- `exit` is the exit step of the family. -/
theorem exit_family {p : Slot} (hinit : s.k.initproc = some 0) :
    Family.Exited 0 p (family s)
      (family { s.switchOut c p (exitBody s.k p) .dead with log := .exit (s.pid p) :: s.log }) := by
  have hproc := congrFun (congrArg Kernel.proc (exitBody_eq s.k p))
  simp only [hinit] at hproc
  -- Who is asleep afterwards was, and on a channel that has not been woken.
  have hasleep : ∀ q, (memberOf q ((exitBody s.k p).proc q)).waiting = true →
      (memberOf q (s.k.proc q)).waiting = true ∧ Chan.proc q ≠ chanOf (s.k.proc p).parent ∧
        ¬ (Chan.proc q = chanOf (some 0) ∧
          zombieChild p s.k.proc (List.finRange nproc) = true) := by
    intro q hw
    simp only [memberOf, decide_eq_true_eq, hproc q] at hw ⊢
    obtain ⟨hs, hc⟩ := hw
    rw [hc] at hs
    split at hs
    · cases hs
    · split at hs
      · cases hs
      next hn => exact ⟨⟨hs, hc⟩, fun h => hn ⟨hs, .inl h⟩, fun h => hn ⟨hs, .inr h⟩⟩
  have hawake : ∀ q, ¬ (memberOf q ((exitBody s.k p).proc q)).waiting = true →
      (memberOf q ((exitBody s.k p).proc q)).waiting = false := fun q h => by simpa using h
  constructor
  case self => simp [family, memberOf, hproc, phaseOf]
  case phase =>
    intro q hq
    simp only [family, memberOf, switchOut_k, hproc, if_neg hq]
    split
    next h => rw [h.1]; rfl
    next => rfl
  case pid => intro q; simp [family, memberOf, hproc]
  case parent => intro q; simp [family, memberOf, hproc]
  case waiting => exact fun q hw => (hasleep q hw).1
  case woken =>
    intro q hq
    refine hawake q fun hw => (hasleep q hw).2.1 ?_
    rw [show (s.k.proc p).parent = some q from hq]
    rfl
  case rootWoken =>
    intro z hz hd
    refine hawake 0 fun hw => (hasleep 0 hw).2.2 ⟨rfl, ?_⟩
    simp only [family, memberOf, phaseOf_dead] at hz hd
    simp only [zombieChild, List.any_eq_true, decide_eq_true_eq]
    exact ⟨z, List.mem_finRange z, hz, hd⟩
  case nextpid => simp [family]
  case log => rfl

/-- Every step of the kernel is a step of the family. -/
theorem move_family (h : Move b s c a s') (hw : Wf s) (ho : Own s) :
    Step 0 (family s) (family s') := by
  have halive : ∀ {d : Fin n} {p : Slot}, (s.cpu d).run = some p →
      ((family s).member p).phase = .alive := by
    intro d p hrun
    simp [family, memberOf, (hw.runs d p hrun).1, phaseOf]
  have hforming : ∀ {p np : Slot}, child (s.thread p).act = some np →
      ((family s).member np).phase = .forming := by
    intro p np hc
    simp [family, memberOf, hw.embryo p np hc, phaseOf]
  -- One slot of the table is assigned and the others are kept.
  have hone : ∀ {p q : Slot} {v : Proc}, Calm (memberOf p (s.k.proc p)) (memberOf p v) →
      Calm (memberOf q (s.k.proc q)) (memberOf q (update s.k.proc p v q)) := by
    intro p q v hv
    by_cases hq : q = p
    · subst hq
      simpa using hv
    · simpa [hq] using calm_refl _
  cases h with
  | acquire | finish | resume | tick => exact step_quiet (fun _ => calm_refl _) rfl rfl
  | goto hrun hpc hg =>
    exact step_quiet (fun q => by simpa [hg.proc] using calm_refl _) hg.globals.2 rfl
  | dispatch hrun hpc hd =>
    have hd := hd.dispatched
    refine step_quiet (fun q => ?_) hd.nextpid rfl
    simp only [hd.proc]
    exact hone (calm_of (by simp [hd.runnable, phaseOf]) rfl rfl (by simp))
  | woken hrun hf => exact step_quiet (fun q => hone (calm_of rfl rfl rfl (by simp))) rfl rfl
  | @reap _ p z k hrun hc hz =>
    obtain ⟨hparent, hzs⟩ := findZombie_some hz
    have hview := calm_wait hw hrun hc
    have hzv := hview z
    have hstep : Step 0 (family s) _ := .reap (z := z) (halive hrun)
      (by simp only [family, ← hzv]; simp [memberOf, hzs, phaseOf])
      (by simp only [family, ← hzv]; simpa [memberOf] using hparent)
    have he : family { s.release p (reap k z) with
        log := .wait (k.proc p).pid (k.proc z).pid :: s.log } =
        { family s with
          member := update (family s).member z
            { (family s).member z with phase := .free, pid := 0, parent := none }
          log := .wait ((family s).member p).pid ((family s).member z).pid :: s.log } := by
      have hpid := hc.field Proc.pid fun _ => rfl
      simp only [family, release_k, reap, setProc_proc, setProc_nextpid, member_update,
        waitCall_nextpid hc, funext hview, hpid]
      simp [memberOf, phaseOf, ← hc.field Proc.state (fun _ => rfl) z, hzs]
    rw [he]
    exact hstep
  | waitFail hrun hc hz hk =>
    refine step_quiet (fun q => ?_) (waitCall_nextpid hc) rfl
    rw [release_k, calm_wait hw hrun hc q]
    exact calm_refl _
  | @waitSleep _ p k hrun hc hz hk =>
    have hview := calm_wait hw hrun hc
    have hstep : Step 0 (family s) _ := .wait (p := p) fun z hzp hd => by
      simp only [family, memberOf, phaseOf_dead] at hzp hd
      rw [← hc.field Proc.parent (fun _ => rfl)] at hzp
      rw [← hc.field Proc.state (fun _ => rfl)] at hd
      exact findZombie_none.mp hz z hzp hd
    have he : family (s.switchOut c p
        (k.setProc p fun q => { q with chan := .proc p, state := .sleeping }) .waited) =
        { family s with
          member := update (family s).member p { (family s).member p with waiting := true } } := by
      have hp := (hw.runs c p hrun).1
      simp only [family, switchOut_k, setProc_proc, setProc_nextpid, member_update,
        waitCall_nextpid hc, funext hview]
      simp [memberOf, phaseOf, hc.field Proc.pid (fun _ => rfl) p,
        hc.field Proc.parent (fun _ => rfl) p, hp, System.switchOut]
    rw [he]
    exact hstep
  | forkFull hr ha hlock hn =>
    have hk := (allocproc_none hn).2
    exact step_quiet (fun q => by simpa [hk] using calm_refl _) (by simp [hk]) rfl
  | @forkAlloc p np stray hr ha hlock hn =>
    obtain ⟨hfree, hk⟩ := allocproc_some hn
    have hphase : ((family s).member np).phase = .free := by
      simp [family, memberOf, hfree, phaseOf]
    have hstep : Step 0 (family s) _ := .alloc hphase
    have he : family { s.setAct p (.allocated np) with k := (allocproc s.k stray).1 } =
        { family s with
          member := update (family s).member np
            { (family s).member np with phase := .forming, pid := (family s).nextpid }
          nextpid := (family s).nextpid + 1 } := by
      simp only [family, hk, allocFound_proc, allocFound_nextpid, member_update]
      simp [memberOf, phaseOf, hfree, System.setAct, System.setThread]
    rw [he]
    exact hstep
  | kallocOk | stamp =>
    exact step_quiet (fun q => hone (calm_of rfl rfl rfl fun h h' => ⟨h, h'⟩)) rfl rfl
  | @kallocFail p np _ ha | @copyFail p np _ ha =>
    have hc : child (s.thread p).act = some np := by rw [ha]; rfl
    refine step_update (p := np) rfl (memberOf_awake (by simp)) ?_
    have hstep : Step 0 (family s) _ := .drop (hforming hc)
    rwa [member_embryo hw hc] at hstep
  | @copyOk p np hr ha =>
    have hc : child (s.thread p).act = some np := by rw [ha]; rfl
    have he := hw.embryo p np hc
    refine step_update (p := np) (m := ⟨.forming, (s.k.proc np).pid, some p, false⟩) rfl
      (by simp [memberOf, he, phaseOf]) ?_
    have hstep : Step 0 (family s) _ := .adopt (p := p) (hforming hc)
    rwa [member_embryo hw hc] at hstep
  | @forkDone p np hr ha hlock =>
    have hc : child (s.thread p).act = some np := by rw [ha]; rfl
    refine step_update (p := np) rfl (memberOf_awake (by simp)) ?_
    have hstep : Step 0 (family s) _ := .birth (hforming hc) (ho.copied p np ha) (halive hr.1)
    rwa [member_embryo hw hc] at hstep
  | @exit p hr ha hlock =>
    refine .exit (halive hr.1) ?_ (exit_family ho.initproc)
    rintro rfl
    exact ho.root ha
  | @yield p hr | @sleep p _ hr =>
    have hp := (hw.runs c p hr.1).1
    exact step_quiet (fun q => hone (calm_of (by simp [hp, phaseOf]) rfl rfl (by simp))) rfl rfl
  | kill pid hr hlock =>
    refine step_quiet (fun q => ?_) (by simp) rfl
    rcases kill_proc s.k pid q with h | h
    · simpa only [h] using calm_refl _
    · simp only [h]
      by_cases hs : (s.k.proc q).state = .sleeping
      · exact calm_of (by simp [hs, phaseOf]) rfl rfl (by simp [hs])
      · exact calm_of (by simp [hs]) rfl rfl (by simp [hs])
  | chprty pid priority hr hlock =>
    refine step_quiet (fun q => ?_) (by simp) rfl
    rcases chprty_proc s.k pid priority q with h | h <;> simp only [h]
    · exact calm_refl _
    · exact calm_of rfl rfl rfl fun h h' => ⟨h, h'⟩
  | wakeup chan hlock =>
    refine step_quiet (fun q => ?_) rfl rfl
    simp only [wakeup1_eq]
    split
    next h => exact calm_of (by simp [h.1, phaseOf]) rfl rfl (by simp)
    next => exact calm_refl _
  | updateStatistics hlock =>
    refine step_quiet (fun q => ?_) rfl rfl
    simp only [updateStatistics_proc]
    exact calm_of rfl rfl rfl fun h h' => ⟨h, h'⟩

theorem boot_init : (boot.proc 0).pid = 1 ∧ (boot.proc 0).parent = none ∧ boot.nextpid = 2 := by
  decide

/-- At boot init is the whole family. -/
theorem inv_boot : Family.Inv 0 (family (bootSystem n)) := by
  obtain ⟨hpid, hparent, hnext⟩ := boot_init
  have hphase : ∀ q : Slot, ((family (bootSystem n)).member q).phase =
      if q = 0 then .alive else .free := by
    intro q
    have hs := boot_state q
    simp only [family, memberOf, bootSystem, hs]
    split <;> rfl
  have hdead : ∀ q : Slot, ((family (bootSystem n)).member q).phase ≠ .dead := by
    intro q
    rw [hphase]
    split <;> simp
  have hroot : ∀ q : Slot, ((family (bootSystem n)).member q).phase ≠ .free → q = 0 := by
    intro q hq
    by_contra hne
    exact hq (by rw [hphase, if_neg hne])
  refine ⟨⟨hpid, ?_, ?_⟩, ⟨?_, ?_, ?_⟩, ⟨?_, ?_, ?_, ?_⟩, trivial⟩
  · intro q hq
    obtain rfl := hroot q hq
    show 1 ≤ (boot.proc 0).pid ∧ (boot.proc 0).pid < boot.nextpid
    omega
  · intro q r hq hr _
    rw [hroot q hq, hroot r hr]
  · rw [hphase, if_pos rfl]
  · intro q hq hb
    rw [hphase, if_neg hq] at hb
    rcases hb with hb | hb <;> cases hb
  · exact fun p z _ hz => absurd hz (hdead z)
  · exact fun z hz => absurd hz (hdead z)
  · exact fun i _ => ⟨rfl, Nat.zero_le _⟩
  · exact fun q _ => rfl
  · exact fun i _ => rfl

theorem own_reachable (h : Reachable b s) : Own s :=
  h.invariant_of (fun _ => wf_reachable) own_boot
    fun _ _ _ hw ho _ hs => move_own (step_move hs) hw ho

/-- The family is in order in every state of every run. -/
theorem inv_reachable (h : Reachable b s) : Family.Inv 0 (family s) :=
  h.invariant_of (P := fun t => Family.Inv 0 (family t)) (Q := fun t => Wf t ∧ Own t)
    (fun _ hr => ⟨wf_reachable hr, own_reachable hr⟩) inv_boot
    fun _ _ _ hq hi _ hs => hi.step (move_family (step_move hs) hq.1 hq.2)

/-- A ZOMBIE with this pid is in the table. -/
def Kept (s : System n) (pid : Int) : Prop :=
  ∃ z, (s.k.proc z).state = .zombie ∧ (s.k.proc z).pid = pid

/-- A pass of `wait` or `waitx` is a step that the caller can take. -/
theorem step_waitCall {p : Slot} {k : Kernel} (hrun : (s.cpu c).run = some p)
    (hc : WaitCall s a p k) : step b s (c, a) = some (s.waitLoop c p k) := by
  rcases hc with ⟨rfl, hf, hact, hlock, rfl⟩ | ⟨rfl, hf, rfl⟩
  · simp only [step, hrun, hf, System.act, hact, hlock, and_self, if_true]
  · simp only [step, hrun, System.resume, hf]

/-- The pass returns a ZOMBIE child if there is one. -/
theorem waitLoop_zombie {p z : Slot} {k : Kernel} (hz : (k.proc z).state = .zombie)
    (hp : (k.proc z).parent = some p) : ∃ y, (k.proc y).state = .zombie ∧
      (k.proc y).parent = some p ∧
      (s.waitLoop c p k).log = .wait (k.proc p).pid (k.proc y).pid :: s.log ∧
      ((s.waitLoop c p k).k.proc y).state = .unused := by
  cases hf : findZombie k p with
  | none => exact absurd hz (findZombie_none.mp hf z hp)
  | some y =>
    obtain ⟨hparent, hstate⟩ := findZombie_some hf
    refine ⟨y, hstate, hparent, ?_, ?_⟩ <;> simp [System.waitLoop, hf, reap]

/-- In every state of every run: a ZOMBIE's parent is in use and not a ZOMBIE
itself; nobody sleeps in `wait` or `waitx` with a ZOMBIE child, and a pass of
either that its caller makes while it has one returns one; every pid exits
at most once, and once it has it is either a ZOMBIE in the table that no call has
returned, or has been returned by exactly one; and that call was made by the
process that forked it or, after the exit of that process, by init. -/
theorem children_collected (h : Reachable b s) :
    (∀ z, (s.k.proc z).state = .zombie → ∃ q, (s.k.proc z).parent = some q ∧
      (s.k.proc q).state ≠ .unused ∧ (s.k.proc q).state ≠ .zombie) ∧
    (∀ p z, (s.k.proc p).state = .sleeping → (s.k.proc p).chan = .proc p →
      (s.k.proc z).state = .zombie → (s.k.proc z).parent ≠ some p) ∧
    (∀ c p z a k, (s.cpu c).run = some p → WaitCall s a p k →
      (s.k.proc z).state = .zombie → (s.k.proc z).parent = some p →
      ∃ y s', (s.k.proc y).state = .zombie ∧ (s.k.proc y).parent = some p ∧
        step b s (c, a) = some s' ∧ s'.log = .wait (s.pid p) (s.pid y) :: s.log ∧
        (s'.k.proc y).state = .unused) ∧
    (∀ pid, Family.exits s.log pid ≤ 1 ∧
      (¬ Kept s pid ∧ Family.returns s.log pid = Family.exits s.log pid ∨
        Kept s pid ∧ Family.exits s.log pid = 1 ∧ Family.returns s.log pid = 0)) ∧
    Family.Justified s.log := by
  obtain ⟨-, hk, hl, hj⟩ := inv_reachable h
  refine ⟨fun z hz => ?_, fun p z hp hc hz => ?_, fun c p z a k hrun hc hz hp => ?_,
    fun pid => ?_, hj⟩
  · have hd : ((family s).member z).phase = .dead := phaseOf_dead.mpr hz
    have hne : z ≠ 0 := Family.ne_of_phase hd hk.alive (by simp)
    obtain ⟨r, pp, h₁, -, h₃, -⟩ := hk.cared z hne (.inr hd)
    have ha : phaseOf (s.k.proc r).state = .alive := h₃
    refine ⟨r, h₁, fun hs => ?_, fun hs => ?_⟩ <;> rw [hs] at ha <;> cases ha
  · exact hk.waiting p z (by simp [family, memberOf, hp, hc]) (phaseOf_dead.mpr hz)
  · have hstate := hc.field Proc.state fun _ => rfl
    have hparent := hc.field Proc.parent fun _ => rfl
    have hpid := hc.field Proc.pid fun _ => rfl
    obtain ⟨y, hy, hyp, hlog, hfree⟩ :=
      waitLoop_zombie (s := s) (c := c) ((hstate z).trans hz) ((hparent z).trans hp)
    rw [hpid, hpid] at hlog
    exact ⟨y, _, (hstate y).symm.trans hy, (hparent y).symm.trans hyp, step_waitCall hrun hc,
      hlog, hfree⟩
  · by_cases hkept : Kept s pid
    · obtain ⟨z, hz, rfl⟩ := hkept
      obtain ⟨h₁, h₂⟩ := hl.dead z (phaseOf_dead.mpr hz)
      exact ⟨le_of_eq h₁, .inr ⟨⟨z, hz, rfl⟩, h₁, h₂⟩⟩
    · obtain ⟨h₁, h₂⟩ := hl.settled pid fun z hz he => hkept ⟨z, phaseOf_dead.mp hz, he⟩
      exact ⟨h₂, .inl ⟨hkept, h₁⟩⟩

/-- Init forks a child, the child runs and exits. Before that init may wait for it. -/
def childExits (init : Action) : List (Fin 1 × Action) :=
  initRuns ++ forking ++ [(0, .forkDone), (0, init), (0, .sched), (0, .sched), (0, .resume),
    (0, .stamp), (0, .exit)]

/-- Init sleeps in `wait` when its child exits, is dispatched again, and returns it: pid 2 has
exited, has been in the table and is no more. -/
theorem children_collected_wait : ∃ s s' : System 1, Reachable .dflt s ∧ Kept s 2 ∧
    (s.thread 0).frame = .waited ∧ step .dflt s (0, .resume) = some s' ∧
    s'.log = .wait 1 2 :: s.log ∧ Family.returns s'.log 2 = 1 ∧ ¬ Kept s' 2 := by
  obtain ⟨s, hr, hrun, hframe, hstate, hparent, hinit, hchild, honly⟩ : ∃ s : System 1,
      Reachable .dflt s ∧ (s.cpu 0).run = some 0 ∧ (s.thread 0).frame = .waited ∧
        (s.k.proc 1).state = .zombie ∧ (s.k.proc 1).parent = some 0 ∧ s.pid 0 = 1 ∧ s.pid 1 = 2 ∧
        ∀ y, (s.k.proc y).state = .zombie → y = 1 :=
    Runs.exists_of_exec (l := childExits .wait ++ List.replicate 66 (0, .sched)) (by decide +kernel)
  obtain ⟨y, s', hy, -, hstep, hlog, -⟩ :=
    (children_collected hr).2.2.1 0 0 1 .resume _ hrun (.inr ⟨rfl, hframe, rfl⟩) hstate hparent
  obtain rfl := honly y hy
  rw [hinit, hchild] at hlog
  have hret : 1 ≤ Family.returns s'.log 2 := by simp [hlog]
  obtain ⟨hle, ⟨hkept, heq⟩ | ⟨-, -, hzero⟩⟩ :=
    (children_collected (hr.tail trivial hstep)).2.2.2.1 2
  · exact ⟨s, s', hr, ⟨1, hstate, hchild⟩, hframe, hstep, hlog, by omega, hkept⟩
  · omega

/-- Processes in use have different pids. -/
theorem pids_distinct (h : Reachable b s) :
    Set.InjOn (fun p => (s.k.proc p).pid) {p | (s.k.proc p).state ≠ .unused} := fun p hp q hq =>
  (inv_reachable h).numbered.inj p q (mt phaseOf_free.mp hp) (mt phaseOf_free.mp hq)

theorem pids_distinct_child : ∃ s : System 1, (s.k.proc 1).state = .zombie ∧
    (s.k.proc 0).pid ≠ (s.k.proc 1).pid := by
  have h : Runs.exec (step .dflt) (childExits .yield) (bootSystem 1) = some _ := rfl
  have hd := pids_distinct (Runs.reachable_of_exec h)
  exact ⟨_, rfl, fun he => absurd (hd (by decide +kernel) (by decide +kernel) he) (by decide)⟩

/-- Without a call of `wait` nobody gets into its loop, and nothing is returned. -/
theorem move_no_wait (h : Move b s c a s') (ha : a ≠ .wait)
    (hf : ∀ p, (s.thread p).frame ≠ .waited) :
    (∀ p, (s'.thread p).frame ≠ .waited) ∧
      ∀ pid, Family.returns s'.log pid = Family.returns s.log pid := by
  have hcall : ∀ {p k}, ¬ WaitCall s a p k := by
    rintro p k (⟨h, -⟩ | ⟨-, h, -⟩)
    · exact ha h
    · exact hf p h
  have hset : ∀ {p q : Slot} {f : Frame} {t : Thread}, f ≠ .waited → t.frame = f →
      (update s.thread p t q).frame ≠ .waited := by
    intro p q f t hne ht
    by_cases hq : q = p
    · subst hq
      simpa [ht] using hne
    · simpa [hq] using hf q
  cases h with
  | reap hrun hc hz => exact absurd hc hcall
  | waitFail hrun hc hz hk => exact absurd hc hcall
  | waitSleep hrun hc hz hk => exact absurd hc hcall
  | resume | woken => exact ⟨fun q => hset (f := .run) (by simp) rfl, fun _ => rfl⟩
  | exit hr ha hlock => exact ⟨fun q => hset (f := .dead) (by simp) rfl, by simp⟩
  | yield hr hlock => exact ⟨fun q => hset (f := .yielded) (by simp) rfl, fun _ => rfl⟩
  | sleep a hr ha hlock => exact ⟨fun q => hset (f := .slept) (by simp) rfl, fun _ => rfl⟩
  | forkAlloc | kallocFail | copyOk | copyFail | stamp =>
    exact ⟨fun q => by simpa using hf q, fun _ => rfl⟩
  | @kallocOk p np hr ha =>
    refine ⟨fun q => ?_, fun _ => rfl⟩
    by_cases hq : q = np
    · simp [hq, System.setThread]
    · simp only [System.setThread, Function.update_of_ne hq, setAct_frame]
      exact hf q
  | forkDone hr ha hlock => exact ⟨fun q => by simpa using hf q, by simp⟩
  | _ => exact ⟨hf, fun _ => rfl⟩

/-- A child has exited, and however the run goes on, as long as nobody calls `wait`
it is never returned. -/
theorem child_never_collected : ∃ s : System 1, Reachable .dflt s ∧ .exit 2 ∈ s.log ∧
    ∀ t, Runs.Reaches (step .dflt) (fun _ x => x.2 ≠ .wait) s t → Family.returns t.log 2 = 0 := by
  obtain ⟨s, hr, hexit, hret, hframe⟩ : ∃ s : System 1, Reachable .dflt s ∧ .exit 2 ∈ s.log ∧
      Family.returns s.log 2 = 0 ∧ ∀ p, (s.thread p).frame ≠ .waited :=
    Runs.exists_of_exec (l := childExits .yield) (by decide +kernel)
  refine ⟨s, hr, hexit, fun t ht => ?_⟩
  have hinv := ht.invariant
    (P := fun t => (∀ p, (t.thread p).frame ≠ .waited) ∧ Family.returns t.log 2 = 0)
    ⟨hframe, hret⟩ fun t x u hi ha hu => by
      obtain ⟨h₁, h₂⟩ := move_no_wait (step_move hu) ha hi.1
      exact ⟨h₁, (h₂ 2).trans hi.2⟩
  exact hinv.2

end Xv6.Parents
