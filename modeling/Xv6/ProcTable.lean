import Mathlib.Data.List.FinRange
import Xv6.Params

/-!
# The process table of proc.c

The globals of `proc.c` and the bodies of its critical sections, each as a
function on those globals. A `struct proc *` is a slot of `ptable` or null. The
statistics and queue arrays are total maps on the integers, so that a run goes
on whatever index is used; `overrun` records whether an index outside an array
has been used, and nothing else reads it. The fields of `struct proc` that only
the file system, the trap frame or the memory image use are left out.
-/
namespace Xv6.ProcTable

open Function (update)

abbrev nproc : Nat := 64
abbrev Slot := Fin nproc

inductive ProcState where
  | unused | embryo | sleeping | runnable | running | zombie
  deriving DecidableEq, Repr

/-- A sleep channel is an address. `wait` sleeps on its own slot; every other
caller uses an address outside the process table. -/
inductive Chan where
  | null : Chan
  | proc : Slot → Chan
  | addr : Nat → Chan
  deriving DecidableEq, Repr

/-- The `void *` of a `struct proc *`. -/
def chanOf : Option Slot → Chan
  | none => .null
  | some p => .proc p

/-- `kstack` and `pgdir` say whether the process owns a kernel stack and a page
directory that have not been freed. -/
structure Proc where
  state : ProcState
  pid : Int
  parent : Option Slot
  chan : Chan
  killed : Bool
  kstack : Bool
  pgdir : Bool
  priority : Int
  ctime : UInt32
  etime : UInt32
  rtime : Int
  deriving DecidableEq, Repr

/-- An entry of `qxj`. The full-table path of `allocproc` stores the address one
past the last slot. -/
inductive Entry where
  | null : Entry
  | proc : Slot → Entry
  | past : Entry
  deriving DecidableEq, Repr

/-- `struct proc_stat`, each array indexed by pid. -/
structure ProcStat where
  inuse : Int → Int
  pid : Int → Int
  runtime : Int → UInt32
  numRun : Int → Int
  currentQueue : Int → Nat
  ticks : Int → Nat → Int

/-- The globals of proc.c, with the clock `ticks` of trap.c. -/
structure Kernel where
  proc : Slot → Proc
  nextpid : Int
  initproc : Option Slot
  cxj : Nat → Int
  qxj : Nat → Int → Entry
  pstat : ProcStat
  runningP : Option Slot
  ticks : UInt32
  overrun : Bool

/-- Whether an index is outside an array of 64 entries. -/
def outside (i : Int) : Bool := decide (i < 0) || decide (64 ≤ i)

@[simp] theorem outside_eq_false (i : Int) : outside i = false ↔ 0 ≤ i ∧ i < 64 := by
  simp [outside]

/-- Use `i` as an index of one of the arrays. -/
def Kernel.index (k : Kernel) (i : Int) : Kernel := { k with overrun := k.overrun || outside i }

/-- Assign one slot of the table. -/
def Kernel.setProc (k : Kernel) (p : Slot) (f : Proc → Proc) : Kernel :=
  { k with proc := update k.proc p (f (k.proc p)) }

def Kernel.setState (k : Kernel) (p : Slot) (st : ProcState) : Kernel :=
  k.setProc p fun q => { q with state := st }

/-- `cxj[q]++; qxj[q][cxj[q]] = e`. -/
def Kernel.push (k : Kernel) (q : Nat) (e : Entry) : Kernel :=
  { k with
    cxj := update k.cxj q (k.cxj q + 1)
    qxj := update k.qxj q (update (k.qxj q) (k.cxj q + 1) e)
    overrun := k.overrun || outside (k.cxj q + 1) }

/-- The statistics writes of `allocproc`, in either of its paths. -/
def Kernel.openStat (k : Kernel) (pid : Int) : Kernel :=
  { k with
    pstat := { k.pstat with
      inuse := update k.pstat.inuse pid 1
      ticks := update k.pstat.ticks pid
        fun t => if t < 4 then 0 else k.pstat.ticks pid t
      pid := update k.pstat.pid pid pid
      currentQueue := update k.pstat.currentQueue pid 0
      runtime := update k.pstat.runtime pid k.ticks }
    overrun := k.overrun || outside pid }

section Fields

variable (k : Kernel) (i : Int) (q : Nat) (e : Entry) (p : Slot) (f : Proc → Proc) (st : ProcState)

@[simp] theorem index_proc : (k.index i).proc = k.proc := rfl
@[simp] theorem push_proc : (k.push q e).proc = k.proc := rfl
@[simp] theorem openStat_proc : (k.openStat i).proc = k.proc := rfl
@[simp] theorem setProc_proc : (k.setProc p f).proc = update k.proc p (f (k.proc p)) := rfl
@[simp] theorem setState_proc :
    (k.setState p st).proc = update k.proc p { k.proc p with state := st } := rfl
@[simp] theorem push_initproc : (k.push q e).initproc = k.initproc := rfl
@[simp] theorem openStat_initproc : (k.openStat i).initproc = k.initproc := rfl
@[simp] theorem setProc_initproc : (k.setProc p f).initproc = k.initproc := rfl
@[simp] theorem push_nextpid : (k.push q e).nextpid = k.nextpid := rfl
@[simp] theorem openStat_nextpid : (k.openStat i).nextpid = k.nextpid := rfl
@[simp] theorem setProc_nextpid : (k.setProc p f).nextpid = k.nextpid := rfl

end Fields

section Update

variable {t : Slot → Proc} {p : Slot} {v : Proc}

/-- A field that an assignment to a slot keeps is kept in the whole table. -/
theorem update_field {β : Type} (g : Proc → β) (h : g v = g (t p)) (q : Slot) :
    g (update t p v q) = g (t q) := by
  by_cases hq : q = p
  · subst hq
    simpa using h
  · simp [hq]

@[simp] theorem update_state (h : v.state = (t p).state) (q : Slot) :
    (update t p v q).state = (t q).state := update_field Proc.state h q

@[simp] theorem update_pid (h : v.pid = (t p).pid) (q : Slot) :
    (update t p v q).pid = (t q).pid := update_field Proc.pid h q

@[simp] theorem update_parent (h : v.parent = (t p).parent) (q : Slot) :
    (update t p v q).parent = (t q).parent := update_field Proc.parent h q

end Update

/-- The first slot, in table order, that satisfies a test. -/
def findSlot (test : Slot → Bool) : Option Slot := (List.finRange nproc).find? test

theorem findSlot_eq_none {test : Slot → Bool} :
    findSlot test = none ↔ ∀ p, test p = false := by
  simp [findSlot]

theorem findSlot_some {test : Slot → Bool} {p : Slot} (h : findSlot test = some p) :
    test p = true := List.find?_some h

/-- `allocproc` from the label `found` to its second `release`. -/
def allocFound (k : Kernel) (p : Slot) : Kernel :=
  let pid := k.nextpid
  let k := { k.setProc p fun q =>
    { q with state := .embryo, priority := 60, pid := pid, ctime := k.ticks, rtime := 0 } with
    nextpid := pid + 1 }
  (k.push 0 (.proc p)).openStat pid

/-- `allocproc` up to its second `release`. On a full table `p` has run past the
last slot, and `stray` is the word that `p->pid` reads there. -/
def allocproc (k : Kernel) (stray : Int) : Kernel × Option Slot :=
  match findSlot fun p => decide ((k.proc p).state = .unused) with
  | none => ((k.push 0 .past).openStat stray, none)
  | some p => (allocFound k p, some p)

@[simp] theorem allocFound_proc (k : Kernel) (p : Slot) : (allocFound k p).proc =
    update k.proc p
      { k.proc p with
        state := .embryo, priority := 60, pid := k.nextpid, ctime := k.ticks, rtime := 0 } := rfl
@[simp] theorem allocFound_initproc (k : Kernel) (p : Slot) :
    (allocFound k p).initproc = k.initproc := rfl
@[simp] theorem allocFound_nextpid (k : Kernel) (p : Slot) :
    (allocFound k p).nextpid = k.nextpid + 1 := rfl

theorem allocproc_none {k : Kernel} {stray : Int} (h : (allocproc k stray).2 = none) :
    (∀ p, (k.proc p).state ≠ .unused) ∧
      (allocproc k stray).1 = (k.push 0 .past).openStat stray := by
  unfold allocproc at h ⊢
  cases hf : findSlot fun p => decide ((k.proc p).state = .unused) with
  | none => exact ⟨by simpa [findSlot_eq_none] using hf, rfl⟩
  | some q => simp [hf] at h

theorem allocproc_some {k : Kernel} {stray : Int} {p : Slot} (h : (allocproc k stray).2 = some p) :
    (k.proc p).state = .unused ∧ (allocproc k stray).1 = allocFound k p := by
  unfold allocproc at h ⊢
  cases hf : findSlot fun p => decide ((k.proc p).state = .unused) with
  | none => simp [hf] at h
  | some q =>
    simp only [hf, Option.some.injEq] at h ⊢
    subst h
    exact ⟨by simpa using findSlot_some hf, rfl⟩

/-- `p->kstack = kalloc()` in `allocproc`, with its failure path. -/
def allocStack (k : Kernel) (p : Slot) (ok : Bool) : Kernel :=
  if ok then k.setProc p fun q => { q with kstack := true }
  else k.setProc p fun q => { q with kstack := false, state := .unused }

/-- `copyuvm` in `fork` and what follows it up to the last `acquire`. -/
def copyProc (k : Kernel) (cur np : Slot) (ok : Bool) : Kernel :=
  if ok then k.setProc np fun q => { q with pgdir := true, parent := some cur }
  else k.setProc np fun q => { q with pgdir := false, kstack := false, state := .unused }

/-- `userinit`, on the zeroed table. -/
def userinit (k : Kernel) : Kernel :=
  match allocproc k 0 with
  | (k, none) => k
  | (k, some p) =>
    let k := allocStack k p true
    let k := { k with initproc := some p }
    let k := k.setProc p fun q => { q with pgdir := true, ctime := k.ticks }
    k.setState p .runnable

/-- `wakeup1`, over any table. -/
def wakeup1 {ι : Type} (chan : Chan) (t : ι → Proc) : ι → Proc := fun p =>
  let q := t p
  if q.state = .sleeping ∧ q.chan = chan then { q with state := .runnable } else q

section Wakeup1

variable {ι : Type} (chan : Chan) (t : ι → Proc) (p : ι)

theorem wakeup1_eq : wakeup1 chan t p =
    { t p with
      state := if (t p).state = .sleeping ∧ (t p).chan = chan then .runnable
        else (t p).state } := by
  unfold wakeup1
  dsimp only
  split <;> rfl

theorem wakeup1_state : (wakeup1 chan t p).state =
    if (t p).state = .sleeping ∧ (t p).chan = chan then .runnable else (t p).state := by
  rw [wakeup1_eq]

@[simp] theorem wakeup1_pid : (wakeup1 chan t p).pid = (t p).pid := by rw [wakeup1_eq]
@[simp] theorem wakeup1_parent : (wakeup1 chan t p).parent = (t p).parent := by rw [wakeup1_eq]
@[simp] theorem wakeup1_chan : (wakeup1 chan t p).chan = (t p).chan := by rw [wakeup1_eq]

end Wakeup1

/-- One iteration of the loop of `exit` that passes abandoned children to init. -/
def passChild (cur : Slot) (k : Kernel) (p : Slot) : Kernel :=
  if (k.proc p).parent = some cur then
    let k := k.setProc p fun q => { q with parent := k.initproc }
    if (k.proc p).state = .zombie then
      { k with proc := wakeup1 (chanOf k.initproc) k.proc }
    else k
  else k

/-- The critical section of `exit`, up to the call of `sched`. -/
def exitBody (k : Kernel) (cur : Slot) : Kernel :=
  let k := { k with proc := wakeup1 (chanOf (k.proc cur).parent) k.proc }
  let k := (List.finRange nproc).foldl (passChild cur) k
  k.setState cur .zombie

/-- Whether one of the slots of a list is a ZOMBIE child of `cur`. -/
def zombieChild (cur : Slot) (t : Slot → Proc) (l : List Slot) : Bool :=
  l.any fun z => decide ((t z).parent = some cur ∧ (t z).state = .zombie)

theorem passChild_eq (cur : Slot) (k : Kernel) (z : Slot) : passChild cur k z =
    { k with
      proc := fun p =>
        { k.proc p with
          parent := if p = z ∧ (k.proc p).parent = some cur then k.initproc
            else (k.proc p).parent
          state := if (k.proc p).state = .sleeping ∧ (k.proc p).chan = chanOf k.initproc ∧
            zombieChild cur k.proc [z] = true then .runnable else (k.proc p).state } } := by
  have hproc : ∀ t, (∀ p, (passChild cur k z).proc p = t p) →
      passChild cur k z = { k with proc := t } := by
    intro t ht
    have he : passChild cur k z = { k with proc := (passChild cur k z).proc } := by
      unfold passChild
      split
      · dsimp only
        split <;> rfl
      · rfl
    rw [he, funext ht]
  refine hproc _ fun p => ?_
  unfold passChild
  by_cases hz : (k.proc z).parent = some cur
  · by_cases hs : (k.proc z).state = .zombie
    · by_cases hp : p = z
      · subst hp
        simp [hz, hs, wakeup1_eq]
      · simp [hz, hs, hp, wakeup1_eq, zombieChild]
    · by_cases hp : p = z
      · subst hp
        simp [hz, hs, zombieChild]
      · simp [hz, hs, hp, zombieChild]
  · by_cases hp : p = z
    · subst hp
      simp [hz, zombieChild]
    · simp [hz, hp, zombieChild]

/-- Passing on `z` does not change which of the other slots are ZOMBIE children. -/
theorem zombieChild_passChild (cur : Slot) (k : Kernel) (z : Slot) (l : List Slot) :
    (zombieChild cur k.proc [z] || zombieChild cur (passChild cur k z).proc l) =
      zombieChild cur k.proc (z :: l) := by
  have hstate : ∀ x, ((passChild cur k z).proc x).state = .zombie ↔
      (k.proc x).state = .zombie := by
    intro x
    rw [passChild_eq]
    by_cases hx : (k.proc x).state = .sleeping <;> simp [hx]
    split <;> simp
  rw [Bool.eq_iff_iff]
  simp only [zombieChild, List.any_cons, List.any_nil, Bool.or_false, Bool.or_eq_true,
    List.any_eq_true, decide_eq_true_eq, hstate]
  refine or_congr_right' fun hz => exists_congr fun x => and_congr_right fun _ => ?_
  refine and_congr_left fun hx => ?_
  by_cases he : x = z
  · subst he
    have hne : (k.proc x).parent ≠ some cur := fun h => hz ⟨h, hx⟩
    simp [passChild_eq, hne]
  · simp [passChild_eq, he]

/-- The whole loop: every child of `cur` met so far has been passed on, and the
sleepers on init have been woken if one of these children was a ZOMBIE. -/
theorem foldl_passChild (cur : Slot) (l : List Slot) (k : Kernel) :
    l.foldl (passChild cur) k =
      { k with
        proc := fun p =>
          { k.proc p with
            parent := if p ∈ l ∧ (k.proc p).parent = some cur then k.initproc
              else (k.proc p).parent
            state := if (k.proc p).state = .sleeping ∧ (k.proc p).chan = chanOf k.initproc ∧
              zombieChild cur k.proc l = true then .runnable else (k.proc p).state } } := by
  induction l generalizing k with
  | nil => simp [zombieChild]
  | cons z l ih =>
    rw [List.foldl_cons, ih, ← zombieChild_passChild cur]
    generalize zombieChild cur (passChild cur k z).proc l = later
    have hinit : (passChild cur k z).initproc = k.initproc := by rw [passChild_eq]
    have hproc : ∀ p, (passChild cur k z).proc p =
        { k.proc p with
          parent := if p = z ∧ (k.proc p).parent = some cur then k.initproc
            else (k.proc p).parent
          state := if (k.proc p).state = .sleeping ∧ (k.proc p).chan = chanOf k.initproc ∧
            zombieChild cur k.proc [z] = true then .runnable else (k.proc p).state } := by
      intro p
      rw [passChild_eq]
    rw [hinit]
    generalize zombieChild cur k.proc [z] = first at hproc
    have hrest : passChild cur k z = { k with proc := (passChild cur k z).proc } := by
      rw [passChild_eq]
    rw [hrest]
    dsimp only
    congr 1
    funext p
    rw [hproc]
    dsimp only
    congr 1
    · by_cases h₁ : (k.proc p).state = .sleeping
      · by_cases h₂ : (k.proc p).chan = chanOf k.initproc <;> cases first <;> cases later <;>
          simp [h₁, h₂]
      · simp [h₁]
    · simp only [List.mem_cons]
      by_cases h₁ : (k.proc p).parent = some cur
      · by_cases h₂ : p = z
        · subst h₂
          simp [h₁]
        · simp [h₂]
      · simp [h₁]

/-- The critical section of `exit`: the parent of `cur` and, if `cur` leaves a ZOMBIE
child behind, init are woken where they sleep on their own slots, the children of
`cur` get init as their parent, and `cur` is a ZOMBIE. -/
theorem exitBody_eq (k : Kernel) (cur : Slot) : exitBody k cur =
    { k with
      proc := fun p =>
        { k.proc p with
          parent := if (k.proc p).parent = some cur then k.initproc else (k.proc p).parent
          state := if p = cur then .zombie
            else if (k.proc p).state = .sleeping ∧ ((k.proc p).chan = chanOf (k.proc cur).parent ∨
              (k.proc p).chan = chanOf k.initproc ∧
                zombieChild cur k.proc (List.finRange nproc) = true) then .runnable
            else (k.proc p).state } } := by
  have hz : zombieChild cur (wakeup1 (chanOf (k.proc cur).parent) k.proc) (List.finRange nproc) =
      zombieChild cur k.proc (List.finRange nproc) := by
    refine List.any_congr rfl fun x => ?_
    rw [wakeup1_parent, wakeup1_state]
    by_cases hx : (k.proc x).state = .sleeping <;> simp [hx]
    split <;> simp
  unfold exitBody
  dsimp only
  rw [foldl_passChild]
  dsimp only
  rw [hz]
  generalize zombieChild cur k.proc (List.finRange nproc) = left
  simp only [Kernel.setState, Kernel.setProc, List.mem_finRange, true_and, wakeup1_eq]
  congr 1
  funext p
  by_cases hp : p = cur
  · subst hp
    simp
  · by_cases h₁ : (k.proc p).state = .sleeping
    · by_cases h₂ : (k.proc p).chan = chanOf (k.proc cur).parent <;> simp [hp, h₁, h₂]
    · simp [hp, h₁]

@[simp] theorem exitBody_initproc (k : Kernel) (cur : Slot) :
    (exitBody k cur).initproc = k.initproc := by rw [exitBody_eq]
@[simp] theorem exitBody_nextpid (k : Kernel) (cur : Slot) :
    (exitBody k cur).nextpid = k.nextpid := by rw [exitBody_eq]

theorem exitBody_arrays (k : Kernel) (cur : Slot) : (exitBody k cur).cxj = k.cxj ∧
    (exitBody k cur).qxj = k.qxj ∧ (exitBody k cur).pstat = k.pstat ∧
    (exitBody k cur).overrun = k.overrun := by
  rw [exitBody_eq]
  exact ⟨rfl, rfl, rfl, rfl⟩

/-- The loop of `wait` and `waitx` that looks for an exited child. -/
def findZombie (k : Kernel) (cur : Slot) : Option Slot :=
  findSlot fun p => decide ((k.proc p).parent = some cur) && decide ((k.proc p).state = .zombie)

theorem findZombie_some {k : Kernel} {cur z : Slot} (h : findZombie k cur = some z) :
    (k.proc z).parent = some cur ∧ (k.proc z).state = .zombie := by
  simpa using findSlot_some h

theorem findZombie_none {k : Kernel} {cur : Slot} :
    findZombie k cur = none ↔
      ∀ z, (k.proc z).parent = some cur → (k.proc z).state ≠ .zombie := by
  simp [findZombie, findSlot_eq_none]

/-- `havekids` after a pass that found no exited child. -/
def haveKids (k : Kernel) (cur : Slot) : Bool :=
  (List.finRange nproc).any fun p => decide ((k.proc p).parent = some cur)

/-- What `wait` and `waitx` do to the child they return. -/
def reap (k : Kernel) (p : Slot) : Kernel :=
  k.setProc p fun q =>
    { q with
      kstack := false, pgdir := false, pid := 0, parent := none, killed := false
      state := .unused, etime := 0, ctime := 0, rtime := 0 }

/-- The first slot with this pid, whatever its state. -/
def findPid (k : Kernel) (pid : Int) : Option Slot :=
  findSlot fun p => decide ((k.proc p).pid = pid)

/-- `kill` and its return value. -/
def kill (k : Kernel) (pid : Int) : Kernel × Int :=
  match findPid k pid with
  | none => (k, -1)
  | some p =>
    (k.setProc p fun q =>
      { q with killed := true, state := if q.state = .sleeping then .runnable else q.state }, 0)

@[simp] theorem kill_initproc (k : Kernel) (pid : Int) :
    (kill k pid).1.initproc = k.initproc := by
  unfold kill
  split <;> rfl

@[simp] theorem kill_nextpid (k : Kernel) (pid : Int) :
    (kill k pid).1.nextpid = k.nextpid := by
  unfold kill
  split <;> rfl

theorem kill_arrays (k : Kernel) (pid : Int) : (kill k pid).1.cxj = k.cxj ∧
    (kill k pid).1.qxj = k.qxj ∧ (kill k pid).1.pstat = k.pstat ∧
    (kill k pid).1.overrun = k.overrun := by
  unfold kill
  split <;> exact ⟨rfl, rfl, rfl, rfl⟩

/-- `kill` marks one process and wakes it wherever it sleeps. -/
theorem kill_proc (k : Kernel) (pid : Int) (p : Slot) :
    (kill k pid).1.proc p = k.proc p ∨
      (kill k pid).1.proc p =
        { k.proc p with
          killed := true
          state := if (k.proc p).state = .sleeping then .runnable else (k.proc p).state } := by
  unfold kill
  cases findPid k pid with
  | none => exact .inl rfl
  | some q =>
    by_cases hp : p = q
    · subst hp
      exact .inr (by simp)
    · exact .inl (by simp [hp])

/-- `chprty`, the system call that sets a priority. -/
def chprty (k : Kernel) (pid priority : Int) : Kernel :=
  match findPid k pid with
  | none => k
  | some p => k.setProc p fun q => { q with priority := priority }

section

variable (k : Kernel) (pid priority : Int)

@[simp] theorem chprty_initproc : (chprty k pid priority).initproc = k.initproc := by
  unfold chprty
  split <;> rfl

@[simp] theorem chprty_nextpid : (chprty k pid priority).nextpid = k.nextpid := by
  unfold chprty
  split <;> rfl

theorem chprty_arrays : (chprty k pid priority).cxj = k.cxj ∧ (chprty k pid priority).qxj = k.qxj ∧
    (chprty k pid priority).pstat = k.pstat ∧ (chprty k pid priority).overrun = k.overrun := by
  unfold chprty
  split <;> exact ⟨rfl, rfl, rfl, rfl⟩

theorem chprty_proc (p : Slot) : (chprty k pid priority).proc p = k.proc p ∨
    (chprty k pid priority).proc p = { k.proc p with priority := priority } := by
  unfold chprty
  cases findPid k pid with
  | none => exact .inl rfl
  | some q =>
    by_cases hp : p = q
    · subst hp
      exact .inr (by simp)
    · exact .inl (by simp [hp])

end

/-- At most a sleeper has been woken in a slot. -/
def Woken (k k' : Kernel) (q : Slot) : Prop :=
  (k'.proc q).state = (k.proc q).state ∨
    (k.proc q).state = .sleeping ∧ (k'.proc q).state = .runnable

theorem woken_of_proc {k k' : Kernel} {q : Slot} (h : k'.proc q = k.proc q) : Woken k k' q :=
  .inl (by rw [h])

theorem woken_wakeup (k : Kernel) (chan : Chan) (q : Slot) :
    Woken k { k with proc := wakeup1 chan k.proc } q := by
  unfold Woken
  dsimp only
  rw [wakeup1_state]
  split
  next h => exact .inr ⟨h.1, rfl⟩
  next => exact .inl rfl

theorem woken_kill (k : Kernel) (pid : Int) (q : Slot) : Woken k (kill k pid).1 q := by
  rcases kill_proc k pid q with h | h
  · exact woken_of_proc h
  · unfold Woken
    rw [h]
    by_cases hs : (k.proc q).state = .sleeping
    · exact .inr ⟨hs, by simp [hs]⟩
    · exact .inl (by simp [hs])

theorem woken_exit (k : Kernel) {p q : Slot} (hq : q ≠ p) : Woken k (exitBody k p) q := by
  unfold Woken
  rw [exitBody_eq]
  dsimp only
  rw [if_neg hq]
  split
  next h => exact .inr ⟨h.1, rfl⟩
  next => exact .inl rfl

theorem woken_chprty (k : Kernel) (pid priority : Int) (q : Slot) :
    Woken k (chprty k pid priority) q := by
  rcases chprty_proc k pid priority q with h | h <;> exact .inl (by rw [h])

/-- `updatestatistics`, run on every clock tick. -/
def updateStatistics (k : Kernel) : Kernel :=
  { k with proc := fun p =>
      let q := k.proc p
      if q.state = .running then { q with rtime := q.rtime + 1 } else q }

theorem updateStatistics_proc (k : Kernel) (p : Slot) : (updateStatistics k).proc p =
    { k.proc p with
      rtime := if (k.proc p).state = .running then (k.proc p).rtime + 1
        else (k.proc p).rtime } := by
  unfold updateStatistics
  dsimp only
  split <;> rfl

/-- The globals before `userinit`: everything zero, the five queues empty. -/
def zeroed : Kernel where
  proc := fun _ =>
    { state := .unused, pid := 0, parent := none, chan := .null, killed := false
      kstack := false, pgdir := false, priority := 0, ctime := 0, etime := 0, rtime := 0 }
  nextpid := 1
  initproc := none
  cxj := fun _ => -1
  qxj := fun _ _ => .null
  pstat :=
    { inuse := fun _ => 0, pid := fun _ => 0, runtime := fun _ => 0, numRun := fun _ => 0
      currentQueue := fun _ => 0, ticks := fun _ _ => 0 }
  runningP := none
  ticks := 0
  overrun := false

/-- The globals when the schedulers start. -/
def boot : Kernel := userinit zeroed

end Xv6.ProcTable
