import Xv6.ProcTable
import Xv6.Runs

/-!
# Kernel threads, one lock operation at a time

Processes that run a given program on several CPUs, with `sleep`, `wakeup`,
`kill`, `yield` and the scheduler of proc.c cut at every `acquire` and `release`
of a spin lock. The program is a set of labels with an instruction at each; what
it does to its own data between lock operations is an `act`. The scheduler may
pick any RUNNABLE process, as one or the other of the builds does, and a process
can be preempted wherever its CPU holds no lock.

The rule for sleeping: a channel goes with a lock, a process sleeps for a reason
that it has checked with the lock held, and whoever takes that reason away holds
the lock and keeps it until the channel has been woken. Then every sleeper still
has its reason unless a wakeup is under way.
-/
namespace Xv6.Kthread

open Function (update)
open ProcTable

/-- The functions with a critical section of their own. -/
inductive Call where
  | wakeup : Chan → Call
  | kill : Int → Call
  deriving DecidableEq, Repr

/-- The body of the critical section. -/
def Call.body (k : Kernel) : Call → Kernel
  | .wakeup chan => { k with proc := wakeup1 chan k.proc }
  | .kill pid => (ProcTable.kill k pid).1

/-- The instruction at a label, over data `σ`, choices `κ`, labels `ℓ` and locks `L`. -/
inductive Instr (σ κ ℓ L : Type) where
  | acquire : L → ℓ → Instr σ κ ℓ L
  | release : L → ℓ → Instr σ κ ℓ L
  | act : (Slot → κ → σ → Option (σ × ℓ)) → Instr σ κ ℓ L
  | sleep : Chan → L → ℓ → Instr σ κ ℓ L
  | call : Call → ℓ → Instr σ κ ℓ L
  /-- `wakeup1`, whose caller holds `ptable.lock`. -/
  | wakeup1 : Chan → ℓ → Instr σ κ ℓ L

structure Program (σ κ ℓ L : Type) where
  ptable : L
  code : ℓ → Instr σ κ ℓ L

/-- A call of `sleep`, with the label it returns to. -/
structure Nap (ℓ L : Type) where
  chan : Chan
  lk : L
  next : ℓ
  deriving DecidableEq, Repr

/-- Where a process is. -/
inductive Pc (ℓ L : Type) where
  | here : ℓ → Pc ℓ L
  /-- In `sleep`: it has `ptable.lock` and will release `lk`. -/
  | swap : Nap ℓ L → Pc ℓ L
  /-- It will set its channel and state and call `sched`. -/
  | doze : Nap ℓ L → Pc ℓ L
  /-- It has called `sched`. -/
  | asleep : Nap ℓ L → Pc ℓ L
  /-- It is back and will release `ptable.lock`. -/
  | undo : Nap ℓ L → Pc ℓ L
  /-- It will acquire `lk` again. -/
  | redo : Nap ℓ L → Pc ℓ L
  /-- In the critical section of a call. -/
  | inside : Call → ℓ → Pc ℓ L
  /-- It will leave that section. -/
  | leave : ℓ → Pc ℓ L
  /-- It has called `sched` from `yield`, or has not run yet. -/
  | yielded : Pc ℓ L → Pc ℓ L
  deriving DecidableEq, Repr

inductive Core where
  /-- At the top of the scheduler loop. -/
  | idle : Core
  /-- In the scheduler, with `ptable.lock`. -/
  | scan : Core
  | run : Slot → Core
  deriving DecidableEq, Repr

structure State (σ ℓ L : Type) (n : Nat) where
  k : Kernel
  data : σ
  held : Fin n → List L
  core : Fin n → Core
  pc : Slot → Pc ℓ L

inductive Action (κ : Type) where
  /-- A step of the process that the CPU runs. -/
  | run : κ → Action κ
  | preempt : Action κ
  /-- The scheduler takes `ptable.lock`. -/
  | sched : Action κ
  | dispatch : Slot → Action κ
  /-- The scheduler releases `ptable.lock`. -/
  | pause : Action κ

variable {σ κ ℓ L : Type} [DecidableEq L] {n : Nat}

def State.goto (s : State σ ℓ L n) (p : Slot) (q : Pc ℓ L) : State σ ℓ L n :=
  { s with pc := update s.pc p q }

def State.setHeld (s : State σ ℓ L n) (c : Fin n) (held : List L) : State σ ℓ L n :=
  { s with held := update s.held c held }

/-- No CPU holds the lock. -/
def State.Free (s : State σ ℓ L n) (l : L) : Prop := ∀ d, l ∉ s.held d

instance (s : State σ ℓ L n) (l : L) : Decidable (s.Free l) :=
  inferInstanceAs (Decidable (∀ d, l ∉ s.held d))

/-- `acquire` by a process, which spins while the lock is taken. -/
def State.acquire (s : State σ ℓ L n) (c : Fin n) (p : Slot) (l : L) (q : Pc ℓ L) :
    Option (State σ ℓ L n) :=
  if s.Free l then some ((s.setHeld c (l :: s.held c)).goto p q) else none

def State.release (s : State σ ℓ L n) (c : Fin n) (p : Slot) (l : L) (q : Pc ℓ L) :
    State σ ℓ L n :=
  (s.setHeld c ((s.held c).erase l)).goto p q

/-- `sched`: the CPU goes on in its scheduler, which finds `ptable.lock` held. -/
def State.switchOut (s : State σ ℓ L n) (c : Fin n) (p : Slot) (f : Proc → Proc) (q : Pc ℓ L) :
    State σ ℓ L n :=
  { s.goto p q with k := s.k.setProc p f, core := update s.core c .scan }

/-- `p->chan = chan; p->state = SLEEPING; sched()`. -/
def State.doze (s : State σ ℓ L n) (c : Fin n) (p : Slot) (a : Nap ℓ L) : State σ ℓ L n :=
  s.switchOut c p (fun v => { v with chan := a.chan, state := .sleeping }) (.asleep a)

/-- A step of process `p` on CPU `c`. -/
def State.run (P : Program σ κ ℓ L) (s : State σ ℓ L n) (c : Fin n) (p : Slot) (k : κ) :
    Option (State σ ℓ L n) :=
  match s.pc p with
  | .here x =>
    match P.code x with
    | .acquire l y => s.acquire c p l (.here y)
    | .release l y => some (s.release c p l (.here y))
    | .act f => (f p k s.data).map fun r => { s.goto p (.here r.2) with data := r.1 }
    | .sleep chan lk y =>
      if lk = P.ptable then some (s.doze c p ⟨chan, lk, y⟩)
      else s.acquire c p P.ptable (.swap ⟨chan, lk, y⟩)
    | .call e y => s.acquire c p P.ptable (.inside e y)
    | .wakeup1 chan y => some { s.goto p (.here y) with k := (Call.wakeup chan).body s.k }
  | .swap a => some (s.release c p a.lk (.doze a))
  | .doze a => some (s.doze c p a)
  | .asleep a =>
    let k := s.k.setProc p fun v => { v with chan := .null }
    some { s.goto p (if a.lk = P.ptable then .here a.next else .undo a) with k := k }
  | .undo a => some (s.release c p P.ptable (.redo a))
  | .redo a => s.acquire c p a.lk (.here a.next)
  | .inside e y => some { s.goto p (.leave y) with k := e.body s.k }
  | .leave y => some (s.release c p P.ptable (.here y))
  | .yielded q => some (s.release c p P.ptable q)

/-- CPU `c` performs an action. Interrupts are off while it holds a lock. -/
def step (P : Program σ κ ℓ L) (s : State σ ℓ L n) :
    Fin n × Action κ → Option (State σ ℓ L n)
  | (c, .run k) =>
    match s.core c with
    | .run p => s.run P c p k
    | _ => none
  | (c, .preempt) =>
    match s.core c with
    | .run p =>
      if s.held c = [] ∧ s.Free P.ptable then
        some ((s.setHeld c [P.ptable]).switchOut c p (fun v => { v with state := .runnable })
          (.yielded (s.pc p)))
      else none
    | _ => none
  | (c, .sched) =>
    if s.core c = .idle ∧ s.Free P.ptable then
      some { s.setHeld c (P.ptable :: s.held c) with core := update s.core c .scan }
    else none
  | (c, .dispatch p) =>
    if s.core c = .scan ∧ (s.k.proc p).state = .runnable then
      some { s with k := s.k.setState p .running, core := update s.core c (.run p) }
    else none
  | (c, .pause) =>
    if s.core c = .scan then
      some { s.setHeld c ((s.held c).erase P.ptable) with core := update s.core c .idle }
    else none

/-- The processes in `used` wait for their first turn, at the label `x`. -/
def start (k : Kernel) (data : σ) (used : Slot → Bool) (x : ℓ) : State σ ℓ L n where
  k := { k with
    proc := fun p => { k.proc p with state := if used p then .runnable else .unused } }
  data := data
  held := fun _ => []
  core := fun _ => .idle
  pc := fun _ => .yielded (.here x)

/-- Everything the steps of CPU `c` can do. -/
inductive Move (P : Program σ κ ℓ L) (s : State σ ℓ L n) (c : Fin n) : State σ ℓ L n → Prop where
  | acquire {p : Slot} {x y : ℓ} {l : L} (hc : s.core c = .run p) (hp : s.pc p = .here x)
      (hx : P.code x = .acquire l y) (hl : s.Free l) :
      Move P s c ((s.setHeld c (l :: s.held c)).goto p (.here y))
  | release {p : Slot} {x y : ℓ} {l : L} (hc : s.core c = .run p) (hp : s.pc p = .here x)
      (hx : P.code x = .release l y) : Move P s c (s.release c p l (.here y))
  | act {p : Slot} {x y : ℓ} {f : Slot → κ → σ → Option (σ × ℓ)} {k : κ} {d : σ}
      (hc : s.core c = .run p) (hp : s.pc p = .here x) (hx : P.code x = .act f)
      (hf : f p k s.data = some (d, y)) : Move P s c { s.goto p (.here y) with data := d }
  | sleepHeld {p : Slot} {x y : ℓ} {chan : Chan} (hc : s.core c = .run p) (hp : s.pc p = .here x)
      (hx : P.code x = .sleep chan P.ptable y) : Move P s c (s.doze c p ⟨chan, P.ptable, y⟩)
  | sleep {p : Slot} {x y : ℓ} {chan : Chan} {lk : L} (hc : s.core c = .run p)
      (hp : s.pc p = .here x) (hx : P.code x = .sleep chan lk y) (hlk : lk ≠ P.ptable)
      (hl : s.Free P.ptable) :
      Move P s c ((s.setHeld c (P.ptable :: s.held c)).goto p (.swap ⟨chan, lk, y⟩))
  | call {p : Slot} {x y : ℓ} {e : Call} (hc : s.core c = .run p) (hp : s.pc p = .here x)
      (hx : P.code x = .call e y) (hl : s.Free P.ptable) :
      Move P s c ((s.setHeld c (P.ptable :: s.held c)).goto p (.inside e y))
  | wakeup1 {p : Slot} {x y : ℓ} {chan : Chan} (hc : s.core c = .run p) (hp : s.pc p = .here x)
      (hx : P.code x = .wakeup1 chan y) :
      Move P s c { s.goto p (.here y) with k := (Call.wakeup chan).body s.k }
  | swap {p : Slot} {a : Nap ℓ L} (hc : s.core c = .run p) (hp : s.pc p = .swap a) :
      Move P s c (s.release c p a.lk (.doze a))
  | doze {p : Slot} {a : Nap ℓ L} (hc : s.core c = .run p) (hp : s.pc p = .doze a) :
      Move P s c (s.doze c p a)
  | woken {p : Slot} {a : Nap ℓ L} (hc : s.core c = .run p) (hp : s.pc p = .asleep a) :
      Move P s c { s.goto p (if a.lk = P.ptable then .here a.next else .undo a) with
        k := s.k.setProc p fun v => { v with chan := .null } }
  | undo {p : Slot} {a : Nap ℓ L} (hc : s.core c = .run p) (hp : s.pc p = .undo a) :
      Move P s c (s.release c p P.ptable (.redo a))
  | redo {p : Slot} {a : Nap ℓ L} (hc : s.core c = .run p) (hp : s.pc p = .redo a)
      (hl : s.Free a.lk) : Move P s c ((s.setHeld c (a.lk :: s.held c)).goto p (.here a.next))
  | inside {p : Slot} {e : Call} {y : ℓ} (hc : s.core c = .run p) (hp : s.pc p = .inside e y) :
      Move P s c { s.goto p (.leave y) with k := e.body s.k }
  | leave {p : Slot} {y : ℓ} (hc : s.core c = .run p) (hp : s.pc p = .leave y) :
      Move P s c (s.release c p P.ptable (.here y))
  | resume {p : Slot} {q : Pc ℓ L} (hc : s.core c = .run p) (hp : s.pc p = .yielded q) :
      Move P s c (s.release c p P.ptable q)
  | preempt {p : Slot} (hc : s.core c = .run p) (hh : s.held c = []) (hl : s.Free P.ptable) :
      Move P s c ((s.setHeld c [P.ptable]).switchOut c p (fun v => { v with state := .runnable })
        (.yielded (s.pc p)))
  | sched (hc : s.core c = .idle) (hl : s.Free P.ptable) :
      Move P s c { s.setHeld c (P.ptable :: s.held c) with core := update s.core c .scan }
  | dispatch {p : Slot} (hc : s.core c = .scan) (hr : (s.k.proc p).state = .runnable) :
      Move P s c { s with k := s.k.setState p .running, core := update s.core c (.run p) }
  | pause (hc : s.core c = .scan) :
      Move P s c { s.setHeld c ((s.held c).erase P.ptable) with core := update s.core c .idle }

variable {P : Program σ κ ℓ L} {s s' : State σ ℓ L n} {c : Fin n}

theorem acquire_some {p : Slot} {l : L} {q : Pc ℓ L} (h : s.acquire c p l q = some s') :
    s.Free l ∧ s' = (s.setHeld c (l :: s.held c)).goto p q := by
  unfold State.acquire at h
  split at h
  · exact ⟨by assumption, (Option.some.inj h).symm⟩
  · cases h

theorem run_move {p : Slot} {k : κ} (hc : s.core c = .run p) (h : s.run P c p k = some s') :
    Move P s c s' := by
  unfold State.run at h
  cases hp : s.pc p with
  | here x =>
    simp only [hp] at h
    cases hx : P.code x with
    | acquire l y =>
      simp only [hx] at h
      obtain ⟨hl, rfl⟩ := acquire_some h
      exact .acquire hc hp hx hl
    | release l y =>
      simp only [hx, Option.some.injEq] at h
      exact h ▸ .release hc hp hx
    | act f =>
      simp only [hx, Option.map_eq_some_iff] at h
      obtain ⟨⟨d, y⟩, hf, rfl⟩ := h
      exact .act hc hp hx hf
    | sleep chan lk y =>
      simp only [hx] at h
      split at h
      next hlk =>
        subst hlk
        exact Option.some.inj h ▸ .sleepHeld hc hp hx
      next hlk =>
        obtain ⟨hl, rfl⟩ := acquire_some h
        exact .sleep hc hp hx hlk hl
    | call e y =>
      simp only [hx] at h
      obtain ⟨hl, rfl⟩ := acquire_some h
      exact .call hc hp hx hl
    | wakeup1 chan y =>
      simp only [hx, Option.some.injEq] at h
      exact h ▸ .wakeup1 hc hp hx
  | swap a =>
    simp only [hp, Option.some.injEq] at h
    exact h ▸ .swap hc hp
  | doze a =>
    simp only [hp, Option.some.injEq] at h
    exact h ▸ .doze hc hp
  | asleep a =>
    simp only [hp, Option.some.injEq] at h
    exact h ▸ .woken hc hp
  | undo a =>
    simp only [hp, Option.some.injEq] at h
    exact h ▸ .undo hc hp
  | redo a =>
    simp only [hp] at h
    obtain ⟨hl, rfl⟩ := acquire_some h
    exact .redo hc hp hl
  | inside e y =>
    simp only [hp, Option.some.injEq] at h
    exact h ▸ .inside hc hp
  | leave y =>
    simp only [hp, Option.some.injEq] at h
    exact h ▸ .leave hc hp
  | yielded q =>
    simp only [hp, Option.some.injEq] at h
    exact h ▸ .resume hc hp

theorem step_move {a : Action κ} (h : step P s (c, a) = some s') : Move P s c s' := by
  cases a with
  | run k =>
    simp only [step] at h
    split at h
    next p hc => exact run_move hc h
    next => cases h
  | preempt =>
    simp only [step] at h
    split at h
    next p hc =>
      obtain ⟨⟨hh, hl⟩, rfl⟩ := Runs.of_guarded h
      exact .preempt hc hh hl
    next => cases h
  | sched =>
    obtain ⟨⟨hc, hl⟩, rfl⟩ := Runs.of_guarded h
    exact .sched hc hl
  | dispatch p =>
    obtain ⟨⟨hc, hr⟩, rfl⟩ := Runs.of_guarded h
    exact .dispatch hc hr
  | pause =>
    obtain ⟨hc, rfl⟩ := Runs.of_guarded h
    exact .pause hc

/-- The label a process is at, or will come to next. -/
def Pc.label : Pc ℓ L → ℓ
  | .here x | .inside _ x | .leave x => x
  | .swap a | .doze a | .asleep a | .undo a | .redo a => a.next
  | .yielded q => q.label

/-- `next x` is the action that a process at label `x` comes to. -/
def Leads (P : Program σ κ ℓ L) (next : ℓ → ℓ) : Prop :=
  ∀ x, match P.code x with
    | .acquire _ y | .release _ y | .sleep _ _ y | .call _ y | .wakeup1 _ y => next y = next x
    | .act _ => next x = x

omit [DecidableEq L] in
theorem next_update (next : ℓ → ℓ) {pc : Slot → Pc ℓ L} {p : Slot} {q q' : Pc ℓ L}
    (hp : pc p = q) (h : next q'.label = next q.label) :
    (fun r => next (update pc p q' r).label) = fun r => next (pc r).label := by
  funext r
  by_cases hr : r = p
  · subst hr
    simpa [hp] using h
  · simp [hr]

/-- A step is the next action of one process, or it changes neither the data nor the
next action of any process. -/
theorem Move.leads {next : ℓ → ℓ} (hnext : Leads P next) (hm : Move P s c s') :
    (s'.data = s.data ∧ (fun r => next (s'.pc r).label) = fun r => next (s.pc r).label) ∨
      ∃ p x y f k, s.core c = .run p ∧ s.pc p = .here x ∧ next (s.pc p).label = x ∧
        P.code x = .act f ∧ f p k s.data = some (s'.data, y) ∧
        (fun r => next (s'.pc r).label) = update (fun r => next (s.pc r).label) p (next y) := by
  cases hm with
  | @acquire _ x _ _ _ hp hx | @release _ x _ _ _ hp hx | @sleepHeld _ x _ _ _ hp hx
  | @sleep _ x _ _ _ _ hp hx | @call _ x _ _ _ hp hx | @wakeup1 _ x _ _ _ hp hx =>
    have h := hnext x
    simp only [hx] at h
    exact .inl ⟨rfl, next_update next hp h⟩
  | @act p x y f k d hc hp hx hf =>
    have h := hnext x
    simp only [hx] at h
    refine .inr ⟨p, x, y, f, k, hc, hp, by rw [hp]; exact h, hx, hf, funext fun r => ?_⟩
    by_cases hr : r = p
    · subst hr
      simp [State.goto, Pc.label]
    · simp [State.goto, hr]
  | woken hc hp =>
    refine .inl ⟨rfl, next_update next hp ?_⟩
    split <;> rfl
  | swap hc hp | doze hc hp | undo hc hp | redo hc hp hl | inside hc hp | leave hc hp
  | resume hc hp => exact .inl ⟨rfl, next_update next hp rfl⟩
  | preempt hc hh hl => exact .inl ⟨rfl, next_update next rfl rfl⟩
  | sched hc hl | dispatch hc hr | pause hc => exact .inl ⟨rfl, rfl⟩

omit [DecidableEq L] in
theorem body_pid (e : Call) (k : Kernel) (r : Slot) : ((e.body k).proc r).pid = (k.proc r).pid := by
  cases e with
  | wakeup chan => exact wakeup1_pid chan k.proc r
  | kill pid =>
    show ((kill k pid).1.proc r).pid = _
    rcases kill_proc k pid r with h | h <;> rw [h]

/-- No step changes a pid. -/
theorem Move.pid (hm : Move P s c s') (r : Slot) : (s'.k.proc r).pid = (s.k.proc r).pid := by
  cases hm with
  | wakeup1 hc hp hx => exact body_pid (.wakeup _) s.k r
  | inside hc hp => exact body_pid _ s.k r
  | sleepHeld hc hp hx => simp [State.doze, State.switchOut, State.goto]
  | doze hc hp => simp [State.doze, State.switchOut, State.goto]
  | woken hc hp => simp
  | preempt hc hh hl => simp [State.switchOut, State.goto, State.setHeld]
  | dispatch hc hr => simp
  | _ => rfl

end Xv6.Kthread
