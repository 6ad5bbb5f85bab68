import Xv6.ProcTable
import Xv6.Wp

/-!
# Spin locks and interrupts

The functions of spinlock.c and the two sides of a context switch in proc.c. A function is
given the CPU that runs it, and its errors are panics. A `sched` that has switched away has
its own `intena` on the stack, which is part of the context of its thread.
-/
namespace Xv6.Spinlock

open Function (update update_self)
open ProcTable (ProcState)
open Wp

variable {n : Nat} {T L : Type}

/-- `flag` is `FL_IF` of the CPU's eflags. -/
structure Cpu (T : Type) where
  flag : Bool
  ncli : Int
  intena : Bool
  proc : Option T

structure Lock (n : Nat) where
  locked : Bool
  cpu : Option (Fin n)

/-- Where a thread goes on: at the start, in `sched` after its `swtch`, or on a CPU now. -/
inductive Context (n : Nat) where
  | forkret
  | sched (intena : Bool)
  | on (c : Fin n)
  deriving DecidableEq

structure Hw (n : Nat) (T L : Type) where
  cpu : Fin n → Cpu T
  lock : L → Lock n
  state : T → ProcState
  context : T → Context n

abbrev M (n : Nat) (T L : Type) := StateT (Hw n T L) (Except String)

def Hw.setCpu (h : Hw n T L) (c : Fin n) (x : Cpu T) : Hw n T L :=
  { h with cpu := update h.cpu c x }
def Hw.setLock [DecidableEq L] (h : Hw n T L) (l : L) (k : Lock n) : Hw n T L :=
  { h with lock := update h.lock l k }

/-- What `holding` answers. -/
def Hw.holds (h : Hw n T L) (c : Fin n) (l : L) : Bool :=
  (h.lock l).locked && decide ((h.lock l).cpu = some c)

/-! ## The functions -/

def modifyCpu (c : Fin n) (f : Cpu T → Cpu T) : M n T L Unit :=
  modify fun h => h.setCpu c (f (h.cpu c))

def readeflags (c : Fin n) : M n T L Bool := return ((← get).cpu c).flag

def setIF (c : Fin n) (b : Bool) : M n T L Unit := modifyCpu c fun x => { x with flag := b }

def mycpu (c : Fin n) : M n T L (Fin n) := do
  if ← readeflags c then throw "mycpu called with interrupts enabled\n"
  return c

def pushcli (c : Fin n) : M n T L Unit := do
  let eflags ← readeflags c
  setIF c false
  if ((← get).cpu (← mycpu c)).ncli = 0 then
    modifyCpu (← mycpu c) fun x => { x with intena := eflags }
  modifyCpu (← mycpu c) fun x => { x with ncli := x.ncli + 1 }

def popcli (c : Fin n) : M n T L Unit := do
  if ← readeflags c then throw "popcli - interruptible"
  modifyCpu (← mycpu c) fun x => { x with ncli := x.ncli - 1 }
  if ((← get).cpu c).ncli < 0 then throw "popcli"
  let x := (← get).cpu (← mycpu c)
  if x.ncli = 0 ∧ x.intena = true then setIF c true

def holding (c : Fin n) (l : L) : M n T L Bool := do
  pushcli c
  let h ← get
  let me ← mycpu c
  let r := (h.lock l).locked && decide ((h.lock l).cpu = some me)
  popcli c
  return r

/-- `acquire`, up to its loop. -/
def acquire (c : Fin n) (l : L) : M n T L Unit := do
  pushcli c
  if ← holding c l then throw "acquire"

/-- One `xchg` of the loop of `acquire`, and the rest of it when the lock was free. -/
def spin [DecidableEq L] (c : Fin n) (l : L) : M n T L Bool := do
  let old := (← get).lock l
  modify fun h => h.setLock l { old with locked := true }
  if old.locked then return false
  let me ← mycpu c
  modify fun h => h.setLock l { h.lock l with cpu := some me }
  return true

def release [DecidableEq L] (c : Fin n) (l : L) : M n T L Unit := do
  unless ← holding c l do throw "release"
  modify fun h => h.setLock l { h.lock l with cpu := none }
  modify fun h => h.setLock l { h.lock l with locked := false }
  popcli c

def myproc (c : Fin n) : M n T L (Option T) := do
  pushcli c
  let p := ((← get).cpu (← mycpu c)).proc
  popcli c
  return p

/-- `sched`, up to its `swtch`, and then `c->proc = 0` of the scheduler. -/
def sched [DecidableEq T] (ptable : L) (c : Fin n) : M n T L Unit := do
  let some p ← myproc c | throw "null pointer"
  unless ← holding c ptable do throw "sched ptable.lock"
  let x := (← get).cpu (← mycpu c)
  if x.ncli ≠ 1 then throw "sched locks"
  if (← get).state p = .running then throw "sched running"
  if ← readeflags c then throw "sched interruptible"
  let intena := ((← get).cpu (← mycpu c)).intena
  modify fun h => { h with context := update h.context p (.sched intena) }
  modifyCpu c fun x => { x with proc := none }

/-- The scheduler's side of the switch to `p`, and then what is left of the `sched` of `p`. -/
def swtch [DecidableEq T] (c : Fin n) (p : T) : M n T L Unit := do
  modifyCpu c fun x => { x with proc := some p }
  modify fun h => { h with state := update h.state p .running }
  let old := (← get).context p
  modify fun h => { h with context := update h.context p (.on c) }
  match old with
  | .sched intena => modifyCpu (← mycpu c) fun x => { x with intena := intena }
  | _ => pure ()

/-! ## What they do to a CPU -/

def Cpu.push (x : Cpu T) : Cpu T :=
  { x with flag := false, ncli := x.ncli + 1, intena := if x.ncli = 0 then x.flag else x.intena }

def Cpu.pop (x : Cpu T) : Cpu T :=
  { x with flag := decide (x.ncli = 1) && x.intena, ncli := x.ncli - 1 }

/-- A CPU in `d` nested critical sections. -/
structure Cpu.Nested (x : Cpu T) (d : Nat) : Prop where
  ncli : x.ncli = d
  off : 0 < d → x.flag = false

/-- What a thread that has switched away puts back. -/
def Context.intena : Context n → Option Bool
  | .sched intena => some intena
  | _ => none

/-- The thread of a CPU gives way to the scheduler. -/
def Hw.leave [DecidableEq T] (h : Hw n T L) (c : Fin n) (p : T) : Hw n T L :=
  { h with
    cpu := update h.cpu c { h.cpu c with proc := none }
    context := update h.context p (.sched (h.cpu c).intena) }

def Hw.enter [DecidableEq T] (h : Hw n T L) (c : Fin n) (p : T) : Hw n T L :=
  { h with
    cpu := update h.cpu c
      { h.cpu c with proc := some p, intena := (h.context p).intena.getD (h.cpu c).intena }
    state := update h.state p .running
    context := update h.context p (.on c) }

variable {h : Hw n T L} {c : Fin n} {l : L} {d : Nat} {x : Cpu T}

namespace Cpu.Nested

theorem push (hx : x.Nested d) : x.push.Nested (d + 1) :=
  ⟨by simp [Cpu.push, hx.ncli], fun _ => rfl⟩

theorem pop (hx : x.Nested (d + 1)) : x.pop.Nested d := by
  constructor
  · simp [Cpu.pop, hx.ncli]
  · intro hd
    have hne : x.ncli ≠ 1 := by
      have := hx.ncli
      omega
    simp [Cpu.pop, hne]

theorem pop_push (hx : x.Nested (d + 1)) : x.push.pop = x := by
  have hflag := hx.off (by omega)
  have hncli := hx.ncli
  have hne : ¬ x.ncli = 0 := by omega
  have hne' : ¬ x.ncli + 1 = 1 := by omega
  cases x
  simp_all [Cpu.push, Cpu.pop]

end Cpu.Nested

@[simp] theorem Hw.setCpu_cpu (x : Cpu T) : (h.setCpu c x).cpu c = x := update_self ..

@[simp] theorem Hw.setCpu_setCpu (x y : Cpu T) : (h.setCpu c x).setCpu c y = h.setCpu c y := by
  simp [Hw.setCpu]

@[simp] theorem Hw.setCpu_lock (x : Cpu T) : (h.setCpu c x).lock = h.lock := rfl
@[simp] theorem Hw.setLock_cpu [DecidableEq L] (k : Lock n) : (h.setLock l k).cpu = h.cpu := rfl
@[simp] theorem Hw.setLock_lock [DecidableEq L] (k : Lock n) : (h.setLock l k).lock l = k :=
  update_self ..

@[simp] theorem Hw.setCpu_self (h : Hw n T L) (c : Fin n) : h.setCpu c (h.cpu c) = h :=
  by simp [Hw.setCpu]
@[simp] theorem Hw.setLock_self [DecidableEq L] (h : Hw n T L) (l : L) :
    h.setLock l (h.lock l) = h :=
  by simp [Hw.setLock]

@[simp] theorem Hw.setLock_setLock [DecidableEq L] (j k : Lock n) :
    (h.setLock l j).setLock l k = h.setLock l k := by
  simp [Hw.setLock]

theorem Cpu.Nested.pushed (hx : (h.cpu c).Nested d) :
    ((h.setCpu c (h.cpu c).push).cpu c).Nested (d + 1) := by
  rw [Hw.setCpu_cpu]
  exact hx.push

section Rules

variable {Q : Unit → Hw n T L → Prop}

theorem wp_mycpu {Q : Fin n → Hw n T L → Prop} (hf : (h.cpu c).flag = false) :
    wp (mycpu c) Q h ↔ Q c h := by
  simp [mycpu, readeflags, hf]

theorem wp_pushcli : wp (pushcli c) Q h ↔ Q () (h.setCpu c (h.cpu c).push) := by
  by_cases h0 : (h.cpu c).ncli = 0 <;>
    simp [pushcli, mycpu, readeflags, setIF, modifyCpu, Cpu.push, h0]

theorem wp_popcli (hx : (h.cpu c).Nested (d + 1)) :
    wp (popcli c) Q h ↔ Q () (h.setCpu c (h.cpu c).pop) := by
  have hflag := hx.off (by omega)
  have hncli := hx.ncli
  have hpos : ¬ (h.cpu c).ncli - 1 < 0 := by omega
  have hone : (h.cpu c).ncli - 1 = 0 ↔ (h.cpu c).ncli = 1 := by omega
  by_cases h1 : (h.cpu c).ncli = 1 <;> cases hi : (h.cpu c).intena <;>
    simp [popcli, mycpu, readeflags, setIF, modifyCpu, Cpu.pop, hflag, hpos, hone, h1, hi]

/-- Inside a critical section `holding` leaves everything as it is. -/
theorem wp_holding {Q : Bool → Hw n T L → Prop} (hx : (h.cpu c).Nested (d + 1)) :
    wp (holding c l) Q h ↔ Q (h.holds c l) h := by
  have hpush := hx.pushed
  simp only [holding, wp_bind, wp_pushcli, wp_get,
    wp_mycpu (hpush.off (by omega)), wp_popcli hpush, wp_pure]
  rw [Hw.setCpu_setCpu, Hw.setCpu_cpu, hx.pop_push, Hw.setCpu_self]
  rfl

theorem wp_acquire (hx : (h.cpu c).Nested d) (hl : h.holds c l = false) :
    wp (acquire c l) Q h ↔ Q () (h.setCpu c (h.cpu c).push) := by
  have hpush := hx.pushed
  have hl' : (h.setCpu c (h.cpu c).push).holds c l = false := hl
  simp [acquire, wp_pushcli, wp_holding hpush, hl']

/-- A CPU that holds the lock is told so. -/
theorem acquire_held (hx : (h.cpu c).Nested d) (hl : h.holds c l = true) :
    acquire c l h = .error "acquire" := by
  have hpush := hx.pushed
  obtain ⟨_, _, hrun, rfl⟩ := (wp_pushcli (Q := fun _ h' => h' = h.setCpu c (h.cpu c).push)).mpr rfl
  obtain ⟨_, _, hask, rfl⟩ := (wp_holding (Q := fun b _ => b = true) hpush).mpr hl
  rw [acquire, bind_of_ok hrun, bind_of_ok hask]
  rfl

theorem wp_spin [DecidableEq L] {Q : Bool → Hw n T L → Prop} (hf : (h.cpu c).flag = false) :
    wp (spin c l) Q h ↔
      if (h.lock l).locked then Q false h else Q true (h.setLock l ⟨true, some c⟩) := by
  cases hl : (h.lock l).locked with
  | true =>
    have hsame : h.setLock l { h.lock l with locked := true } = h := by rw [← hl, Hw.setLock_self]
    simp [spin, hl, hsame]
  | false => simp [spin, wp_mycpu, hl, hf, -bind_pure_comp]

theorem wp_release [DecidableEq L] (hx : (h.cpu c).Nested (d + 1)) (hl : h.holds c l = true) :
    wp (release c l) Q h ↔ Q () ((h.setLock l ⟨false, none⟩).setCpu c (h.cpu c).pop) := by
  have hx' : ((h.setLock l ⟨false, none⟩).cpu c).Nested (d + 1) := hx
  simp [release, wp_holding hx, hl, wp_popcli hx']

theorem wp_myproc {Q : Option T → Hw n T L → Prop} (hx : (h.cpu c).Nested (d + 1)) :
    wp (myproc c) Q h ↔ Q (h.cpu c).proc h := by
  have hpush := hx.pushed
  simp only [myproc, wp_bind, wp_pushcli, wp_get,
    wp_mycpu (hpush.off (by omega)), wp_popcli hpush, wp_pure]
  rw [Hw.setCpu_setCpu, Hw.setCpu_cpu, hx.pop_push, Hw.setCpu_self]
  rfl

theorem wp_sched [DecidableEq T] {ptable : L} {p : T} (hx : (h.cpu c).Nested 1)
    (hl : h.holds c ptable = true) (hp : (h.cpu c).proc = some p) (hs : h.state p ≠ .running) :
    wp (sched ptable c) Q h ↔ Q () (h.leave c p) := by
  have hflag := hx.off (by omega)
  have hncli := hx.ncli
  simp [sched, wp_myproc hx, wp_holding hx, wp_mycpu hflag, readeflags, modifyCpu,
    Hw.setCpu, Hw.leave, hl, hp, hs, hflag, hncli]

theorem wp_swtch [DecidableEq T] {p : T} (hf : (h.cpu c).flag = false) :
    wp (swtch c p) Q h ↔ Q () (h.enter c p) := by
  cases hp : h.context p <;>
    simp [swtch, wp_mycpu, modifyCpu, Context.intena, Hw.setCpu, Hw.enter, hf, hp]

end Rules

end Xv6.Spinlock
