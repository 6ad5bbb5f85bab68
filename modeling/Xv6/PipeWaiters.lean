import Xv6.Pipe

/-!
# Waiters on a pipe

A reader sleeps while the pipe is empty and open for writing, a writer while it is
full and open for reading, and whoever changes that wakes the others before it
releases the lock. There is one exception: a `pipewrite` that finds the pipe full
and gives up, because it was killed or the readers are gone, returns without a
wakeup, although it may have stored bytes. Nobody is stranded if no reader is asleep
whenever that happens.
-/
namespace Xv6.PipeWaiters

open ProcTable Kthread SleepPlan SleepRule RingQueue Pipe
open KernelLocks (Lock)

/-- Why processes sleep, what a process knows of the pipe while it has the lock, and
where it owes a wakeup. -/
def plan : Plan PipeData Label Lock where
  held
    | .idle | .writeLock | .readLock | .closeLock _ | .kill _ => []
    | _ => [.pipe 0]
  lockOf _ := .pipe 0
  Knows
    | .full, d => d.Full pipesize
    | .wakeReaders, d | .again, d => d.Full pipesize ∧ d.readopen = true
    | .empty, d => d.Empty ∧ d.writeopen = true
    | _, _ => True
  Reason chan _ d :=
    (chan = nreadChan → d.Empty ∧ d.writeopen = true) ∧
      (chan = nwriteChan → d.Full pipesize ∧ d.readopen = true)
  Owes
    | .fill, chan | .full, chan | .wakeReaders, chan | .writeWake, chan
    | .closeWake true, chan => chan = nreadChan
    | .drain, chan | .readWake, chan | .closeWake false, chan => chan = nwriteChan
    | _, _ => False

/-- The program without the early return of `pipewrite`. -/
def patient : Program PipeData Choice Label Lock where
  ptable := .ptable
  code
    | .full => .act fun _ k d =>
      match k with
      | .killed killed =>
        if d.readopen = false ∨ killed then none else some (d, .wakeReaders)
      | _ => none
    | x => code x

variable {d d' : PipeData} {p : Slot} {x y : Label}

theorem patient_code (hx : x ≠ .full) : patient.code x = code x := by
  cases x <;> first | rfl | exact (hx rfl).elim

/-- The actions of the patient program. -/
theorem patient_act {f : Slot → Choice → PipeData → Option (PipeData × Label)} {k : Choice}
    (hx : patient.code x = .act f) (h : f p k d = some (d', y)) :
    PipeStep p d x d' y ∧ y ≠ .writeUnlock := by
  by_cases hfull : x = .full
  · subst hfull
    simp only [patient, Instr.act.injEq] at hx
    subst hx
    cases k <;> simp only [reduceCtorEq] at h
    case killed killed =>
      obtain ⟨hopen, h⟩ := Option.ite_none_left_eq_some.mp h
      cases h
      exact ⟨.goOn (by simpa using fun hr => hopen (.inl hr)), by simp⟩
  · rw [patient_code hfull] at hx
    have hs := act_step hx h
    refine ⟨hs, ?_⟩
    rintro rfl
    cases hs
    exact hfull rfl

theorem awake_of_ne (hr : x ≠ .readSleep) (hw : x ≠ .writeSleep) : Awake patient x := by
  intro chan lk z h
  cases x <;> first | exact hr rfl | exact hw rfl | cases h

theorem chan_ne : nreadChan ≠ nwriteChan := by decide

/-- An action that keeps the ring and both ends as they are. -/
theorem actOk_of_same (hr : y ≠ .readSleep) (hw : y ≠ .writeSleep)
    (hring : d'.toRingBuf = d.toRingBuf) (hreadopen : d'.readopen = d.readopen)
    (hwriteopen : d'.writeopen = d.writeopen) : plan.ActOk patient x p d d' y where
  test chan lk z hz := (awake_of_ne hr hw chan lk z hz).elim
  keep chan r _ h := by
    left
    simp only [plan] at h ⊢
    rw [hring, hreadopen, hwriteopen]
    exact h

/-- An action that takes away the reason to sleep on one channel, with the lock held,
and then owes a wakeup of it. -/
theorem actOk_of_owes {chan₀ : Chan} (hr : y ≠ .readSleep) (hw : y ≠ .writeSleep)
    (hheld : .pipe 0 ∈ plan.held x) (howes : plan.Owes y chan₀)
    (hkeep : ∀ chan r, chan ≠ chan₀ → plan.Reason chan r d → plan.Reason chan r d') :
    plan.ActOk patient x p d d' y where
  test chan lk z hz := (awake_of_ne hr hw chan lk z hz).elim
  keep chan r _ h := by
    by_cases hchan : chan = chan₀
    · subst hchan
      exact .inr ⟨hheld, howes⟩
    · exact .inl (hkeep chan r hchan h)

theorem pipeStep_ok (h : PipeStep p d x d' y) (hy : y ≠ .writeUnlock) :
    plan.held y = plan.held x ∧ (plan.Knows x d → plan.ActOk patient x p d d' y) := by
  cases h with
  | store hfree =>
    refine ⟨rfl,
      fun _ => actOk_of_owes (by simp) (by simp) (.head _) (rfl : nreadChan = nreadChan) ?_⟩
    intro chan r hne h
    exact ⟨fun he => (hne he).elim, fun he => (hfree (h.2 he).1).elim⟩
  | fetch hsome =>
    refine ⟨rfl,
      fun _ => actOk_of_owes (by simp) (by simp) (.head _) (rfl : nwriteChan = nwriteChan) ?_⟩
    intro chan r hne h
    exact ⟨fun he => (hsome (h.1 he).1).elim, fun he => (hne he).elim⟩
  | closeWrite =>
    refine ⟨rfl,
      fun _ => actOk_of_owes (by simp) (by simp) (.head _) (rfl : nreadChan = nreadChan) ?_⟩
    intro chan r hne h
    exact ⟨fun he => (hne he).elim, h.2⟩
  | closeRead =>
    refine ⟨rfl,
      fun _ => actOk_of_owes (by simp) (by simp) (.head _) (rfl : nwriteChan = nwriteChan) ?_⟩
    intro chan r hne h
    exact ⟨h.1, fun he => (hne he).elim⟩
  | again =>
    refine ⟨rfl, fun hfull => ⟨fun chan lk z hz => ?_, fun chan r _ h => .inl h⟩⟩
    obtain ⟨rfl, -⟩ : nwriteChan = chan ∧ _ := by simpa [patient, code] using hz
    exact ⟨fun he => (chan_ne he.symm).elim, fun _ => hfull⟩
  | wait =>
    refine ⟨rfl, fun hempty => ⟨fun chan lk z hz => ?_, fun chan r _ h => .inl h⟩⟩
    obtain ⟨rfl, -⟩ : nreadChan = chan ∧ _ := by simpa [patient, code] using hz
    exact ⟨fun _ => hempty, fun he => (chan_ne he).elim⟩
  | giveUp => exact (hy rfl).elim
  | _ => exact ⟨rfl, fun _ => actOk_of_same (by simp) (by simp) rfl rfl rfl⟩

theorem plan_sound : plan.Sound patient where
  ok x := by
    have hact : ∀ {f}, patient.code x = .act f → plan.Ok patient x := by
      intro f hx
      apply Plan.ok_act hx
      intro p k d d' y h
      obtain ⟨hs, hy⟩ := patient_act hx h
      exact pipeStep_ok hs hy
    have hawake : ∀ {y : Label}, y ≠ .readSleep → y ≠ .writeSleep → Awake patient y := awake_of_ne
    cases x with
    | writeLock | readLock | closeLock => exact Plan.ok_acquire rfl rfl (hawake nofun nofun)
    | wakeReaders | writeWake | readWake | closeWake | kill =>
      exact Plan.ok_call rfl rfl (hawake nofun nofun)
    | writeSleep => exact Plan.ok_sleep rfl rfl rfl rfl (hawake nofun nofun)
    | writeUnlock | readUnlock | closeUnlock =>
      exact Plan.ok_release rfl (by simp [plan]) (hawake nofun nofun)
    | readSleep => exact Plan.ok_sleep rfl rfl rfl rfl (hawake nofun nofun)
    | _ => exact hact rfl
  owes x chan h := by
    have hact : ∀ {f}, patient.code x = .act f →
        (∀ {p d d' y}, PipeStep p d x d' y → y ≠ .writeUnlock → plan.Owes y chan) →
        plan.Pays patient chan x := by
      intro f hx hsteps
      simp only [Plan.Pays, hx]
      intro p k d d' y hf
      obtain ⟨hs, hy⟩ := patient_act hx hf
      exact hsteps hs hy
    cases x with
    | fill | drain =>
      refine ⟨.head _, hact rfl fun hs hy => ?_⟩
      cases hs <;> exact h
    | full =>
      refine ⟨.head _, hact rfl fun hs hy => ?_⟩
      cases hs with
      | giveUp => exact (hy rfl).elim
      | goOn hopen => exact h
    | wakeReaders | writeWake => exact ⟨.head _, .inl (by rw [show chan = nreadChan from h])⟩
    | readWake => exact ⟨.head _, .inl (by rw [show chan = nwriteChan from h])⟩
    | closeWake writable =>
      cases writable
      · exact ⟨.head _, .inl (by rw [show chan = nwriteChan from h]; rfl)⟩
      · exact ⟨.head _, .inl (by rw [show chan = nreadChan from h]; rfl)⟩
    | _ => exact h.elim

/-- What an action finds out. -/
theorem knows_step (h : PipeStep p d x d' y) (hy : y ≠ .writeUnlock) (hknow : plan.Knows x d) :
    plan.Knows y d' := by
  cases h with
  | isFull hfull => exact hfull
  | goOn hopen => exact ⟨hknow, hopen⟩
  | isEmpty hempty hopen => exact ⟨hempty, hopen⟩
  | giveUp => exact (hy rfl).elim
  | _ => trivial

/-- An action without the lock keeps the pipe. -/
theorem pipe_kept {x' : Label} (h : PipeStep p d x' d' y) (hfree : .pipe 0 ∉ plan.held x') :
    d'.toRingBuf = d.toRingBuf ∧ d'.readopen = d.readopen ∧ d'.writeopen = d.writeopen := by
  cases h with
  | write | read | close | kill => exact ⟨rfl, rfl, rfl⟩
  | _ => simp [plan] at hfree

/-- What a process has found out about the pipe holds while it has the lock. -/
theorem plan_informed : plan.Informed patient where
  learns x := by
    have hact : ∀ {f}, patient.code x = .act f → plan.Learns patient x := by
      intro f hx
      simp only [Plan.Learns, hx]
      intro p k d d' y hf
      obtain ⟨hs, hy⟩ := patient_act hx hf
      exact knows_step hs hy
    cases x with
    | writeLock | writeSleep | writeUnlock | readLock | readSleep | readUnlock | closeLock
    | closeUnlock => exact fun _ => trivial
    | writeWake | readWake | closeWake | kill => exact fun _ _ => trivial
    | wakeReaders => exact fun _ h => h
    | _ => exact hact rfl
  stable := by
    intro x x' y f p k d d' hx hf hlocks hknow
    by_cases hlock : .pipe 0 ∈ plan.held x
    · obtain ⟨hring, hreadopen, hwriteopen⟩ := pipe_kept (patient_act hx hf).1 (hlocks _ hlock)
      cases x <;> simp_all [plan]
    · cases x <;> trivial

/-- A step in which `pipewrite` finds the pipe full and gives up. -/
def GivesUp {n : Nat} (s : State PipeData Label Lock n) (c : Fin n)
    (s' : State PipeData Label Lock n) :
    Prop :=
  ∃ p, s.core c = .run p ∧ s.pc p = .here .full ∧
    s' = { s.goto p (.here .writeUnlock) with data := s.data }

/-- Every other step is one of the patient program. -/
theorem move_patient {n : Nat} {s s' : State PipeData Label Lock n} {c : Fin n}
    (h : Move program s c s') : Move patient s c s' ∨ GivesUp s c s' := by
  have hcode : ∀ {x : Label} {i : Instr PipeData Choice Label Lock}, program.code x = i →
      x ≠ .full → patient.code x = i := fun hx hne => (patient_code hne).trans hx
  cases h with
  | @acquire p x y l hc hp hx hl =>
    exact .inl (.acquire hc hp (hcode hx (by rintro rfl; cases hx)) hl)
  | @release p x y l hc hp hx =>
    exact .inl (.release hc hp (hcode hx (by rintro rfl; cases hx)))
  | @act p x y f k d hc hp hx hf =>
    by_cases hfull : x = .full
    · subst hfull
      have hs := act_step (show code .full = .act f from hx) hf
      cases hs with
      | giveUp => exact .inr ⟨p, hc, hp, rfl⟩
      | goOn hopen =>
        refine .inl (.act hc hp (k := .killed false) rfl ?_)
        simp [hopen]
    · exact .inl (.act hc hp (hcode hx hfull) hf)
  | @sleepHeld p x y chan hc hp hx =>
    exact .inl (.sleepHeld hc hp (hcode hx (by rintro rfl; cases hx)))
  | @sleep p x y chan lk hc hp hx hlk hl =>
    exact .inl (.sleep hc hp (hcode hx (by rintro rfl; cases hx)) hlk hl)
  | @call p x y e hc hp hx hl =>
    exact .inl (.call hc hp (hcode hx (by rintro rfl; cases hx)) hl)
  | @wakeup1 p x y chan hc hp hx =>
    exact .inl (.wakeup1 hc hp (hcode hx (by rintro rfl; cases hx)))
  | swap hc hp => exact .inl (.swap hc hp)
  | doze hc hp => exact .inl (.doze hc hp)
  | woken hc hp => exact .inl (.woken hc hp)
  | undo hc hp => exact .inl (.undo hc hp)
  | redo hc hp hl => exact .inl (.redo hc hp hl)
  | inside hc hp => exact .inl (.inside hc hp)
  | leave hc hp => exact .inl (.leave hc hp)
  | resume hc hp => exact .inl (.resume hc hp)
  | preempt hc hh hl => exact .inl (.preempt hc hh hl)
  | sched hc hl => exact .inl (.sched hc hl)
  | dispatch hc hr => exact .inl (.dispatch hc hr)
  | pause hc => exact .inl (.pause hc)

/-- A process sleeps on `&p->nread`, or is about to in `sleep`. -/
def ReaderAsleep {n : Nat} (s : State PipeData Label Lock n) (r : Slot) : Prop :=
  Sleeper nreadChan (s.k.proc r).state (s.pc r)

/-- If the step is one in which `pipewrite` gives up, no reader is asleep. -/
def NoneMissed {n : Nat} (s : State PipeData Label Lock n) : Fin n × Action Choice → Prop
  | (c, .run (.killed killed)) => ∀ p, s.core c = .run p → s.pc p = .here .full →
    s.data.readopen = false ∨ killed = true → ∀ r, ¬ ReaderAsleep s r
  | _ => True

/-- What the processes on a pipe know and why they sleep. -/
structure Waiting {n : Nat} (s : State PipeData Label Lock n) : Prop where
  wf : Wf plan patient s
  known : Known plan s
  reasons : Reasons plan patient s

variable {n : Nat} {s s' : State PipeData Label Lock n} {c : Fin n}

/-- Giving up is a choice of the writer. -/
theorem none_asleep {a : Action Choice} (hs : step program s (c, a) = some s')
    (hg : GivesUp s c s') (hok : NoneMissed s (c, a)) (r : Slot) : ¬ ReaderAsleep s r := by
  obtain ⟨p, hc, hp, rfl⟩ := hg
  cases a with
  | run k =>
    simp only [step, hc, State.run, hp, program_code, code, Option.map_eq_some_iff] at hs
    obtain ⟨⟨d, y⟩, hf, heq⟩ := hs
    have hy : y = .writeUnlock := by
      have := congrArg (fun t => t.pc p) heq
      simpa [State.goto] using this
    subst hy
    cases k <;> simp only [reduceCtorEq] at hf
    case killed killed =>
      by_cases hcond : s.data.readopen = false ∨ killed = true
      · exact hok p hc hp hcond r
      · simp [hcond] at hf
  | preempt =>
    simp only [step, hc] at hs
    obtain ⟨-, heq⟩ := Option.ite_none_right_eq_some.mp hs
    have := congrArg (fun t => t.pc p) (Option.some.inj heq)
    simp [State.switchOut, State.goto] at this
  | sched => simp [step, hc] at hs
  | dispatch q => simp [step, hc] at hs
  | pause => simp [step, hc] at hs

/-- A writer gives up while no reader is asleep. -/
theorem Waiting.giveUp (h : Waiting s) (hg : GivesUp s c s')
    (hnone : ∀ r, ¬ ReaderAsleep s r) : Waiting s' := by
  obtain ⟨p, hc, hp, rfl⟩ := hg
  have hheld : s.held c = [.pipe 0] := by
    rw [(h.wf.run c p hc).1, hp]
    rfl
  have hpc : ∀ {r}, r ≠ p → (s.goto p (.here .writeUnlock)).pc r = s.pc r :=
    fun {r} hr => by simp [State.goto, hr]
  constructor
  case wf => exact h.wf.stay hc _ trivial hheld.symm (fun _ => .inl rfl) fun _ _ => rfl
  case known => exact h.known.moveOn rfl rfl fun _ => trivial
  case reasons =>
    constructor
    case tested =>
      intro r chan ht
      by_cases hr : r = p
      · subst hr
        simp [State.goto, Tested, patient, code] at ht
      · exact h.reasons.tested r chan (by simpa [State.goto, hr] using ht)
    case kept =>
      intro r chan hs
      by_cases hr : r = p
      · subst hr
        simp [State.goto, Sleeper] at hs
      · replace hs : Sleeper chan (s.k.proc r).state (s.pc r) := hpc hr ▸ hs
        rcases h.reasons.kept r chan hs with hreason | ⟨e, q, he, hl, howes⟩
        · exact .inl hreason
        · by_cases hq : q = p
          · subst hq
            rw [hp] at howes
            obtain rfl : chan = nreadChan := howes
            exact (hnone r hs).elim
          · exact .inr ⟨e, q, he, by simpa [State.goto, hq] using hl,
              by simpa [State.goto, hq] using howes⟩

theorem waiting_reaches {k : Kernel} {data : Nat → UInt8} {used : Slot → Bool}
    (h : Runs.Reaches (step program) NoneMissed (initial k data used n) s) : Waiting s := by
  apply h.invariant
  case h₀ =>
    exact ⟨start_wf rfl _ _ _, fun _ => trivial, start_reasons _ _ _⟩
  case hstep =>
    rintro t ⟨c, a⟩ u hw hok hs
    rcases move_patient (step_move hs) with hm | hg
    · refine ⟨hw.wf.move plan_sound hm, hw.known.move plan_informed hw.wf hm, ?_⟩
      refine hw.reasons.move plan_sound hw.wf (fun p x hp => ?_) hm
      have hknow := hw.known p
      rwa [hp] at hknow
    · exact hw.giveUp hg (none_asleep hs hg hok)

/-- Nobody is stranded: in every run in which no reader is asleep whenever `pipewrite`
gives up, while the lock of the pipe is free, a reader sleeps only if the pipe is empty
and open for writing, and a writer only if it is full and open for reading. -/
theorem pipe_waiters (k : Kernel) (data : Nat → UInt8) (used : Slot → Bool) (n : Nat)
    (s : State PipeData Label Lock n)
    (h : Runs.Reaches (step program) NoneMissed (initial k data used n) s)
    (hfree : s.Free (.pipe 0)) (p : Slot) (hs : (s.k.proc p).state = .sleeping) :
    ((s.k.proc p).chan = nreadChan → s.data.nread = s.data.nwrite ∧ s.data.writeopen = true) ∧
      ((s.k.proc p).chan = nwriteChan →
        s.data.nwrite = s.data.nread + 512 ∧ s.data.readopen = true) := by
  have hw := waiting_reaches h
  exact hw.reasons.of_free hw.wf hs hfree

instance {n : Nat} (s : State PipeData Label Lock n) (r : Slot) : Decidable (ReaderAsleep s r) :=
  inferInstanceAs (Decidable (Sleeper nreadChan (s.k.proc r).state (s.pc r)))

instance {n : Nat} (s : State PipeData Label Lock n) (a : Fin n × Action Choice) :
    Decidable (NoneMissed s a) := by
  unfold NoneMissed
  split <;> infer_instance

/-- Process 1 finds the pipe empty and sleeps. -/
def readerSleeps : List (Fin 1 × Action Choice) :=
  let go : Action Choice := .run (.killed false)
  ([.sched, .dispatch 1, go, .run (.read (fun _ => 0) 1), go, go, go, go, go, go, .pause] :
    List (Action Choice)).map fun a => (0, a)

/-- The reader sleeps, and the pipe is empty. -/
theorem pipe_waiters_reader : ∃ s : State PipeData Label Lock 1,
    (s.k.proc 1).state = .sleeping ∧ (s.k.proc 1).chan = nreadChan ∧
      s.data.nread = s.data.nwrite ∧ s.data.writeopen = true := by
  have h : Runs.Reaches (step program) NoneMissed
      (initial zeroed (fun _ => 0) (fun _ => true) 1) _ :=
    Runs.reaches_of_execIf (l := readerSleeps) rfl
  have hsleep := (pipe_waiters _ _ _ _ _ h (by decide) 1 rfl).1 rfl
  exact ⟨_, rfl, rfl, hsleep⟩

/-- The test of `myproc()->killed` reads the flag that `kill` sets. -/
def Honest {n : Nat} (s : State PipeData Label Lock n) : Fin n × Action Choice → Prop
  | (c, .run (.killed killed)) =>
    match s.core c with
    | .run p => killed = (s.k.proc p).killed
    | _ => True
  | _ => True

instance {n : Nat} (s : State PipeData Label Lock n) (a : Fin n × Action Choice) :
    Decidable (Honest s a) := by
  unfold Honest
  split
  · split <;> infer_instance
  · infer_instance

/-- The process in slot `p` has the pid `p + 1`. -/
def numbered : Kernel :=
  { zeroed with proc := fun p => { zeroed.proc p with pid := (p : Nat) + 1 } }

/-- Process 1 sleeps in `piperead`. Process 0 calls `pipewrite` with 600 bytes and is
killed by process 2 before it has the lock. -/
def killWriter : List (Fin 1 × Action Choice) :=
  let go : Action Choice := .run (.killed false)
  let on : Action Choice := .run (.killed true)
  ([.sched, .dispatch 1, go, .run (.read (fun _ => 0) 1), go, go, go, go, go, go,
    .dispatch 0, go, .run (.write (fun _ => 7) 600), .preempt,
    .dispatch 2, go, .run (.kill 1), go, go, go, .preempt, .dispatch 0] ++
    List.replicate 517 on ++ [.preempt, .pause] : List (Action Choice)).map fun a => (0, a)

/-- All locks are free and process 1 sleeps in `piperead`, although the pipe is not
empty. -/
def Stranded {n : Nat} (s : State PipeData Label Lock n) : Prop :=
  s.Free (.pipe 0) ∧ s.Free .ptable ∧ (s.k.proc 1).state = .sleeping ∧
    (s.k.proc 1).chan = nreadChan ∧ s.data.nread ≠ s.data.nwrite

instance {n : Nat} (s : State PipeData Label Lock n) : Decidable (Stranded s) := by
  unfold Stranded
  infer_instance

/-- The killed writer has filled the pipe and returns without a wakeup. -/
theorem reader_stranded : ∃ s : State PipeData Label Lock 1,
    Runs.Reaches (step program) Honest (initial numbered (fun _ => 0) (fun _ => true) 1) s ∧
      Stranded s := Runs.exists_of_execIf (l := killWriter) (by decide +kernel)

end Xv6.PipeWaiters
