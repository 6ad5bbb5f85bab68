import Xv6.SlotChange

/-!
# Whom `kill` hits

`kill` looks for a slot by its number alone. A slot that is not in use has number 0, or that of
a process that `fork` could not complete, and `allocproc` does not clear `killed`: a slot that
is hit then makes the next process in it a killed one. The runs here record, for each slot,
whether `kill` was called with the number of the process in it since `allocproc`.
-/
namespace Xv6.KillTarget

open Function (update)
open ProcTable Scheduler ProcSystem RunState SlotChange

variable {n : Nat} {b : Build} {k : Kernel} {pid : Int}

def Used (k : Kernel) (p : Slot) : Prop := (k.proc p).state ≠ .unused

/-- `kill` finds the process with this number, marks it and wakes it, and changes nothing else. -/
structure Hits (k : Kernel) (pid : Int) : Prop where
  found : (kill k pid).2 = 0 ↔ ∃ p, Used k p ∧ (k.proc p).pid = pid
  only : (kill k pid).2 = 0 → ∃ p, Used k p ∧ (k.proc p).pid = pid ∧
      (kill k pid).1 = k.setProc p fun q =>
    { q with killed := true, state := if q.state = .sleeping then .runnable else q.state }
  none : (kill k pid).2 ≠ 0 → (kill k pid).2 = -1 ∧ (kill k pid).1 = k

/-- No slot that is not in use has this number. -/
def NoStale (k : Kernel) (pid : Int) : Prop :=
  ∀ p, (k.proc p).state = .unused → (k.proc p).pid ≠ pid

theorem hits_of_noStale (h : NoStale k pid) : Hits k pid := by
  have hused : ∀ p, (k.proc p).pid = pid → Used k p := fun p hp hst => h p hst hp
  cases hf : findPid k pid with
  | none =>
    have hk : kill k pid = (k, -1) := by rw [kill, hf]
    have hno : ∀ p, (k.proc p).pid ≠ pid := by simpa [findPid, findSlot_eq_none] using hf
    refine ⟨⟨fun h0 => ?_, fun ⟨p, _, hp⟩ => absurd hp (hno p)⟩, fun h0 => ?_, fun _ => ?_⟩
    · rw [hk] at h0
      cases h0
    · rw [hk] at h0
      cases h0
    · rw [hk]
      exact ⟨rfl, rfl⟩
  | some p =>
    have hk : kill k pid = (k.setProc p fun q =>
        { q with
          killed := true
          state := if q.state = .sleeping then .runnable else q.state }, 0) := by
      rw [kill, hf]
    have hp : (k.proc p).pid = pid := by simpa [findPid] using findSlot_some hf
    refine ⟨⟨fun _ => ⟨p, hused p hp, hp⟩, fun _ => by rw [hk]⟩,
      fun _ => ⟨p, hused p hp, hp, by rw [hk]⟩, ?_⟩
    rw [hk]
    exact fun h0 => absurd rfl h0

/-- The system, and the slots whose process `kill` was called for. -/
structure Watched (n : Nat) where
  sys : System n
  aimed : Slot → Bool

def note (s : System n) (aimed : Slot → Bool) : Action → Slot → Bool
  | .fork stray =>
    match (allocproc s.k stray).2 with
    | some np => update aimed np false
    | none => aimed
  | .kill pid => fun q => aimed q || decide ((s.k.proc q).state ≠ .unused ∧ (s.k.proc q).pid = pid)
  | _ => aimed

def watchedStep (b : Build) (x : Watched n) (ca : Fin n × Action) : Option (Watched n) :=
  (step b x.sys ca).map fun s' => ⟨s', note x.sys x.aimed ca.2⟩

def bootWatched (n : Nat) : Watched n := ⟨bootSystem n, fun _ => false⟩

/-- `kill` is not called with the number of a slot that is not in use, and `fork` does not fail
after somebody has killed the process that it makes. -/
def Fair (x : Watched n) : Fin n × Action → Prop
  | (_, .kill pid) => NoStale x.sys.k pid
  | (c, .kalloc false) | (c, .copyuvm false) =>
    ∀ p ∈ (x.sys.cpu c).run, ∀ np ∈ child (x.sys.thread p).act,
      (x.sys.k.proc np).killed = false
  | _ => True

/-- A slot that is not in use is not killed, nor is a process that `fork` is making, unless
`kill` was called for it. -/
structure Marked (x : Watched n) : Prop where
  unused : ∀ q, (x.sys.k.proc q).state = .unused → (x.sys.k.proc q).killed = false
  embryo : ∀ q, (x.sys.k.proc q).state = .embryo → (x.sys.k.proc q).killed = true → x.aimed q = true

theorem marked_boot : Marked (bootWatched n) := by
  have h : ∀ q : Slot, (boot.proc q).killed = false := by decide
  refine ⟨fun q _ => h q, fun q _ hk => ?_⟩
  change (boot.proc q).killed = true at hk
  rw [h q] at hk
  cases hk

theorem killed_of_marks {y : Proc} {m : Int × Bool × UInt32 × UInt32 × Int} (h : marks y = m) :
    y.killed = m.2.1 :=
  congrArg (fun m => m.2.1) h

/-- Only `allocproc` forgets that `kill` was called. -/
theorem note_of_aimed {s : System n} {aimed : Slot → Bool} {q : Slot} (h : aimed q = true)
    (hq : (s.k.proc q).state ≠ .unused) (a : Action) : note s aimed a q = true := by
  cases a with
  | fork stray =>
    simp only [note]
    cases hnp : (allocproc s.k stray).2 with
    | none => exact h
    | some np =>
      have hne : q ≠ np := by
        rintro rfl
        exact hq (allocproc_some hnp).1
      change update aimed np false q = true
      rwa [Function.update_of_ne hne]
  | kill pid => simp [note, h]
  | _ => exact h

theorem pid_of_findPid {q : Slot} (h : findPid k pid = some q) : (k.proc q).pid = pid := by
  simpa [findPid] using findSlot_some h

theorem marked_step {x y : Watched n} {c : Fin n} {a : Action} (hw : Wf x.sys) (hm : Marked x)
    (hok : Fair x (c, a)) (hs : watchedStep b x (c, a) = some y) : Marked y := by
  obtain ⟨s', hstep, rfl⟩ := Option.map_eq_some_iff.mp hs
  have hchange := move_change (step_move hstep) hw
  refine ⟨fun q hq => ?_, fun q hq hk => ?_⟩
  · change (s'.k.proc q).state = .unused at hq
    change (s'.k.proc q).killed = false
    cases hchange q with
    | keep _ hmarks hstate =>
      rcases hstate.imp_right alive_of_shifts with hst | ⟨-, hst⟩
      · rw [killed_of_marks hmarks]
        exact hm.unused q (hst.symm.trans hq)
      · rw [hq] at hst
        cases hst
    | alloc _ _ hst _ | start _ _ hst _ | exit _ _ hst _ =>
      rw [hst] at hq
      cases hq
    | fail ha hrun hchild _ _ hmarks =>
      rw [killed_of_marks hmarks]
      rcases ha with rfl | rfl <;> exact hok _ hrun _ hchild
    | stamp _ hst hmarks | count hst hmarks =>
      rw [killed_of_marks hmarks]
      exact hm.unused q (hst.symm.trans hq)
    | reap _ _ hmarks => exact killed_of_marks hmarks
    | kill hf hst _ =>
      have hx : (x.sys.k.proc q).state = .unused := by
        rw [hq] at hst
        split at hst
        next => cases hst
        next => exact hst.symm
      exact absurd (pid_of_findPid hf) (hok q hx)
  · change (s'.k.proc q).state = .embryo at hq
    change (s'.k.proc q).killed = true at hk
    change note x.sys x.aimed a q = true
    -- a slot that was an EMBRYO, with the flag it had
    have hold : (x.sys.k.proc q).state = .embryo → (x.sys.k.proc q).killed = true →
        note x.sys x.aimed a q = true :=
      fun hx hk => note_of_aimed (hm.embryo q hx hk) (by rw [hx]; decide) a
    cases hchange q with
    | keep _ hmarks hstate =>
      rcases hstate.imp_right alive_of_shifts with hst | ⟨-, hst⟩
      · exact hold (hst.symm.trans hq) (by rwa [killed_of_marks hmarks] at hk)
      · rw [hq] at hst
        cases hst
    | alloc hx _ _ hmarks =>
      rw [killed_of_marks hmarks] at hk
      change (x.sys.k.proc q).killed = true at hk
      rw [hm.unused q hx] at hk
      cases hk
    | fail _ _ _ _ hst _ | start _ _ hst _ | exit _ _ hst _ | reap _ hst _ =>
      rw [hst] at hq
      cases hq
    | stamp _ hst hmarks | count hst hmarks =>
      exact hold (hst.symm.trans hq) (by rwa [killed_of_marks hmarks] at hk)
    | kill hf hst _ =>
      have hx : (x.sys.k.proc q).state = .embryo := by
        rw [hq] at hst
        split at hst
        next => cases hst
        next => exact hst.symm
      simp [note, hx, pid_of_findPid hf]

theorem watchedStep_sys (x : Watched n) (a : Fin n × Action) :
    (watchedStep b x a).map Watched.sys = step b x.sys a := by
  simp [watchedStep, Function.comp_def]

theorem marked_reaches {x : Watched n} (h : Runs.Reaches (watchedStep b) Fair (bootWatched n) x) :
    Marked x :=
  h.invariant_of (P := Marked)
    (fun _ hr => wf_reachable (hr.forget Watched.sys watchedStep_sys)) marked_boot
    fun _ _ _ hw hm hok hs => marked_step hw hm hok hs

/-- In a run in which `kill` is not called with the number of an unused slot, and `fork` does not
fail after its child was killed: `kill` hits the process that has the number, and a process that
`fork` is about to make RUNNABLE is killed only if `kill` was called for it. -/
theorem kill_hits_target {x : Watched n} (h : Runs.Reaches (watchedStep b) Fair (bootWatched n) x) :
    (∀ pid, NoStale x.sys.k pid → Hits x.sys.k pid) ∧
      ∀ p np, (x.sys.thread p).act = .copied np →
        (x.sys.k.proc np).killed = true → x.aimed np = true := by
  refine ⟨fun pid hpid => hits_of_noStale hpid, fun p np hact hk => ?_⟩
  have hw := wf_reachable (h.forget Watched.sys watchedStep_sys)
  exact (marked_reaches h).embryo np (hw.embryo p np (by rw [hact]; rfl)) hk

instance (k : Kernel) (pid : Int) : Decidable (NoStale k pid) :=
  inferInstanceAs (Decidable (∀ p, (k.proc p).state = .unused → (k.proc p).pid ≠ pid))

instance (x : Watched n) (ca : Fin n × Action) : Decidable (Fair x ca) :=
  match ca with
  | (_, .kill pid) => inferInstanceAs (Decidable (NoStale x.sys.k pid))
  | (c, .kalloc false) | (c, .copyuvm false) => inferInstanceAs (Decidable (∀ p ∈ (x.sys.cpu c).run,
      ∀ np ∈ child (x.sys.thread p).act, (x.sys.k.proc np).killed = false))
  | (_, .sched) | (_, .resume) | (_, .fork _) | (_, .kalloc true)
    | (_, .copyuvm true) | (_, .forkDone)
  | (_, .stamp) | (_, .exit) | (_, .wait) | (_, .yield) | (_, .sleep _)
    | (_, .wakeup _) | (_, .chprty _ _)
  | (_, .tick) | (_, .updateStatistics) => isTrue trivial

/-- The first child of init kills the second one before `fork` has made that RUNNABLE. -/
def killsSibling : List (Fin 1 × Action) :=
  initRuns ++ forking ++ [(0, .forkDone)] ++ forking ++
    [(0, .yield), (0, .sched), (0, .sched), (0, .resume), (0, .kill 3)]

theorem kill_hits_target_sibling : ∃ x : Watched 1,
    Runs.execIf (watchedStep .dflt) Fair killsSibling (bootWatched 1) = some x ∧
      (NoStale x.sys.k 2 ∧ Hits x.sys.k 2) ∧ (x.sys.thread 0).act = .copied 2 ∧
      (x.sys.k.proc 2).killed = true ∧ x.aimed 2 = true := by
  have hexec : (Runs.execIf (watchedStep .dflt) Fair killsSibling (bootWatched 1)).map
      (fun x => (decide (NoStale x.sys.k 2), (x.sys.thread 0).act, (x.sys.k.proc 2).killed)) =
        some (true, .copied 2, true) := by decide +kernel
  obtain ⟨x, hx, he⟩ := Option.map_eq_some_iff.mp hexec
  simp only [Prod.mk.injEq, decide_eq_true_eq] at he
  obtain ⟨hstale, hact, hk⟩ := he
  have hr := Runs.reaches_of_execIf hx
  exact ⟨x, hx, ⟨hstale, (kill_hits_target hr).1 2 hstale⟩, hact, hk,
    (kill_hits_target hr).2 0 2 hact hk⟩

/-- Init calls `kill(0)`, which finds a slot that is not in use, and then forks: the child is
killed before it has run, and nobody has called `kill` for it. -/
theorem kill_hits_unused : ∃ x y : Watched 1,
    Runs.Reachable (watchedStep .dflt) (bootWatched 1) x ∧ (kill x.sys.k 0).2 = 0 ∧
    (∀ p, Used x.sys.k p → (x.sys.k.proc p).pid ≠ 0) ∧
    Runs.exec (watchedStep .dflt) ((0, .kill 0) :: forking) x = some y ∧
    (y.sys.thread 0).act = .copied 1 ∧
    (y.sys.k.proc 1).killed = true ∧ y.aimed 1 = false := by
  have hexec : (Runs.exec (watchedStep .dflt) initRuns (bootWatched 1)).bind (fun x =>
      (Runs.exec (watchedStep .dflt) ((0, .kill 0) :: forking) x).map fun y =>
        (decide ((kill x.sys.k 0).2 = 0 ∧
            ∀ p, (x.sys.k.proc p).state ≠ .unused → (x.sys.k.proc p).pid ≠ 0),
          (y.sys.thread 0).act, (y.sys.k.proc 1).killed, y.aimed 1)) =
        some (true, .copied 1, true, false) := by decide +kernel
  obtain ⟨x, hx, hrest⟩ := Option.bind_eq_some_iff.mp hexec
  obtain ⟨y, hy, he⟩ := Option.map_eq_some_iff.mp hrest
  simp only [Prod.mk.injEq, decide_eq_true_eq] at he
  obtain ⟨⟨hzero, hno⟩, hact, hk, haim⟩ := he
  exact ⟨x, y, Runs.reachable_of_exec hx, hzero, hno, hy, hact, hk, haim⟩

end Xv6.KillTarget
