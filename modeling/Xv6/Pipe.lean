import Xv6.KernelLocks
import Xv6.LockKnowledge
import Xv6.RingQueue

/-!
# Pipes

`pipewrite`, `piperead` and `pipeclose` of pipe.c, for one pipe, as a program for the
threads of `Kthread`; processes may also `kill` each other. The history has every byte
that was stored and taken, each with the number of the call that did it. The value of
`myproc()->killed` is chosen freely, and `kfree` of a pipe that both ends have left is
left out, since no call is made on it any more.
-/
namespace Xv6.Pipe

open Function (update)
open ProcTable Kthread RingQueue
open KernelLocks (Lock)

abbrev pipesize : Nat := 512

/-- A byte, with the number of the call that stored or took it. -/
structure Entry where
  call : Nat
  byte : UInt8
  deriving DecidableEq, Repr

/-- The arguments of a call of `pipewrite` or `piperead` and its counter `i`. -/
structure Locals where
  id : Nat
  addr : Nat → UInt8
  n : Int
  i : Nat

/-- The result of a call of `piperead`, with its buffer. -/
structure Return where
  id : Nat
  addr : Nat → UInt8
  ret : Int

/-- `struct pipe` without its lock, the local variables of each process, and a history:
how many calls have been made, the buffer that each was given, the bytes stored and
taken, and what the calls of `piperead` have returned. -/
structure PipeData extends RingBuf UInt8 where
  readopen : Bool
  writeopen : Bool
  loc : Slot → Locals
  calls : Nat
  given : Nat → Nat → UInt8
  stored : List Entry
  taken : List Entry
  returned : List Return

inductive Label where
  | idle
  | writeLock | fill | full | wakeReaders | again | writeSleep | writeWake | writeUnlock
  | readLock | look | empty | readSleep | drain | readWake | readUnlock
  | closeLock : (writable : Bool) → Label
  | close : (writable : Bool) → Label
  | closeWake : (writable : Bool) → Label
  | closeUnlock
  | kill : Int → Label
  deriving DecidableEq, Repr

/-- The call that a process makes next, or the value of `myproc()->killed`. -/
inductive Choice where
  | write : (addr : Nat → UInt8) → (n : Int) → Choice
  | read : (addr : Nat → UInt8) → (n : Int) → Choice
  | close : (writable : Bool) → Choice
  | kill : Int → Choice
  | killed : Bool → Choice

/-- `&p->nread` and `&p->nwrite`. -/
def nreadChan : Chan := .addr 0

def nwriteChan : Chan := .addr 4

/-- A call begins. -/
def enter (p : Slot) (addr : Nat → UInt8) (n : Int) (d : PipeData) : PipeData :=
  { d with
    loc := update d.loc p ⟨d.calls, addr, n, 0⟩
    calls := d.calls + 1
    given := update d.given d.calls addr }

/-- `p->data[p->nwrite++ % PIPESIZE] = addr[i]`, and the next `i`. -/
def store (p : Slot) (d : PipeData) : PipeData :=
  let l := d.loc p
  { d with
    toRingBuf := d.put pipesize (l.addr l.i)
    loc := update d.loc p { l with i := l.i + 1 }
    stored := d.stored ++ [⟨l.id, l.addr l.i⟩] }

/-- `addr[i] = p->data[p->nread++ % PIPESIZE]`, and the next `i`. -/
def fetch (p : Slot) (d : PipeData) : PipeData :=
  let l := d.loc p
  let b := d.front pipesize
  { d with
    toRingBuf := d.take
    loc := update d.loc p { l with addr := update l.addr l.i b, i := l.i + 1 }
    taken := d.taken ++ [⟨l.id, b⟩] }

/-- `piperead` returns. -/
def giveBack (p : Slot) (ret : Int) (d : PipeData) : PipeData :=
  { d with returned := ⟨(d.loc p).id, (d.loc p).addr, ret⟩ :: d.returned }

/-- The loops of `pipewrite`. -/
def fill (p : Slot) (d : PipeData) : PipeData × Label :=
  if ((d.loc p).i : Int) < (d.loc p).n then
    if d.Full pipesize then (d, .full) else (store p d, .fill)
  else (d, .writeWake)

/-- The second loop of `piperead`. -/
def drain (p : Slot) (d : PipeData) : PipeData × Label :=
  if ((d.loc p).i : Int) < (d.loc p).n ∧ ¬ d.Empty then (fetch p d, .drain)
  else (giveBack p (d.loc p).i d, .readWake)

def code : Label → Instr PipeData Choice Label Lock
  | .idle => .act fun p k d =>
    match k with
    | .write addr n => some (enter p addr n d, .writeLock)
    | .read addr n => some (enter p addr n d, .readLock)
    | .close writable => some (d, .closeLock writable)
    | .kill pid => some (d, .kill pid)
    | .killed _ => none
  -- `pipewrite`
  | .writeLock => .acquire (.pipe 0) .fill
  | .fill => .act fun p _ d => some (fill p d)
  | .full => .act fun _ k d =>
    match k with
    | .killed killed =>
      if d.readopen = false ∨ killed then some (d, .writeUnlock) else some (d, .wakeReaders)
    | _ => none
  | .wakeReaders => .call (.wakeup nreadChan) .again
  | .again => .act fun _ _ d => some (d, .writeSleep)
  | .writeSleep => .sleep nwriteChan (.pipe 0) .fill
  | .writeWake => .call (.wakeup nreadChan) .writeUnlock
  | .writeUnlock => .release (.pipe 0) .idle
  -- `piperead`
  | .readLock => .acquire (.pipe 0) .look
  | .look => .act fun _ _ d =>
    if d.Empty ∧ d.writeopen = true then some (d, .empty) else some (d, .drain)
  | .empty => .act fun p k d =>
    match k with
    | .killed killed =>
      if killed then some (giveBack p (-1) d, .readUnlock) else some (d, .readSleep)
    | _ => none
  | .readSleep => .sleep nreadChan (.pipe 0) .look
  | .drain => .act fun p _ d => some (drain p d)
  | .readWake => .call (.wakeup nwriteChan) .readUnlock
  | .readUnlock => .release (.pipe 0) .idle
  -- `pipeclose`
  | .closeLock writable => .acquire (.pipe 0) (.close writable)
  | .close writable => .act fun _ _ d =>
    if writable then some ({ d with writeopen := false }, .closeWake writable)
    else some ({ d with readopen := false }, .closeWake writable)
  | .closeWake writable =>
    .call (.wakeup (if writable then nreadChan else nwriteChan)) .closeUnlock
  | .closeUnlock => .release (.pipe 0) .idle
  | .kill pid => .call (.kill pid) .idle

def program : Program PipeData Choice Label Lock where
  ptable := .ptable
  code := code

@[simp] theorem program_code (x : Label) : program.code x = code x := rfl

/-- The pipe as `pipealloc` leaves it, with whatever was in its page before. -/
def newPipe (data : Nat → UInt8) : PipeData where
  data := data
  nread := 0
  nwrite := 0
  readopen := true
  writeopen := true
  loc := fun p => ⟨p, fun _ => 0, 0, 0⟩
  calls := nproc
  given := fun _ _ => 0
  stored := []
  taken := []
  returned := []

/-- The processes in `used`, none of them in a call. -/
def initial (k : Kernel) (data : Nat → UInt8) (used : Slot → Bool) (n : Nat) :
    State PipeData Label Lock n :=
  start k (newPipe data) used .idle

/-- What the actions do. -/
inductive PipeStep (p : Slot) (d : PipeData) : Label → PipeData → Label → Prop where
  | write (addr : Nat → UInt8) (n : Int) : PipeStep p d .idle (enter p addr n d) .writeLock
  | read (addr : Nat → UInt8) (n : Int) : PipeStep p d .idle (enter p addr n d) .readLock
  | close (writable : Bool) : PipeStep p d .idle d (.closeLock writable)
  | kill (pid : Int) : PipeStep p d .idle d (.kill pid)
  | isFull (h : d.Full pipesize) : PipeStep p d .fill d .full
  | store (h : ¬ d.Full pipesize) : PipeStep p d .fill (store p d) .fill
  | filled : PipeStep p d .fill d .writeWake
  | giveUp : PipeStep p d .full d .writeUnlock
  | goOn (h : d.readopen = true) : PipeStep p d .full d .wakeReaders
  | again : PipeStep p d .again d .writeSleep
  | isEmpty (h : d.Empty) (hopen : d.writeopen = true) : PipeStep p d .look d .empty
  | found : PipeStep p d .look d .drain
  | fail : PipeStep p d .empty (giveBack p (-1) d) .readUnlock
  | wait : PipeStep p d .empty d .readSleep
  | fetch (h : ¬ d.Empty) : PipeStep p d .drain (fetch p d) .drain
  | drained : PipeStep p d .drain (giveBack p (d.loc p).i d) .readWake
  | closeWrite : PipeStep p d (.close true) { d with writeopen := false } (.closeWake true)
  | closeRead : PipeStep p d (.close false) { d with readopen := false } (.closeWake false)

theorem act_step {x y : Label} {f : Slot → Choice → PipeData → Option (PipeData × Label)}
    {p : Slot} {k : Choice} {d d' : PipeData} (hx : code x = .act f)
    (h : f p k d = some (d', y)) : PipeStep p d x d' y := by
  cases x <;> simp only [code, Instr.act.injEq, reduceCtorEq] at hx <;> subst hx
  case idle =>
    cases k <;> simp only [Option.some.injEq, Prod.mk.injEq, reduceCtorEq] at h
    · obtain ⟨rfl, rfl⟩ := h
      exact .write _ _
    · obtain ⟨rfl, rfl⟩ := h
      exact .read _ _
    · obtain ⟨rfl, rfl⟩ := h
      exact .close _
    · obtain ⟨rfl, rfl⟩ := h
      exact .kill _
  case fill =>
    simp only [fill, Option.some.injEq] at h
    by_cases hi : ((d.loc p).i : Int) < (d.loc p).n
    · rw [if_pos hi] at h
      by_cases hfull : d.Full pipesize
      · rw [if_pos hfull] at h
        cases h
        exact .isFull hfull
      · rw [if_neg hfull] at h
        cases h
        exact .store hfull
    · rw [if_neg hi] at h
      cases h
      exact .filled
  case full =>
    cases k <;> dsimp only at h
    case killed killed =>
      split at h
      next =>
        cases h
        exact .giveUp
      next hopen =>
        cases h
        exact .goOn (by simpa using fun hr => hopen (.inl hr))
    all_goals cases h
  case again =>
    cases h
    exact .again
  case look =>
    dsimp only at h
    split at h
    next he =>
      cases h
      exact .isEmpty he.1 he.2
    next =>
      cases h
      exact .found
  case empty =>
    cases k <;> dsimp only at h
    case killed killed =>
      split at h
      · cases h
        exact .fail
      · cases h
        exact .wait
    all_goals cases h
  case drain =>
    simp only [drain, Option.some.injEq] at h
    split at h
    next hmore =>
      cases h
      exact .fetch hmore.2
    next =>
      cases h
      exact .drained
  case close writable =>
    cases writable
    · simp only [Bool.false_eq_true, if_false, Option.some.injEq, Prod.mk.injEq] at h
      obtain ⟨rfl, rfl⟩ := h
      exact .closeRead
    · simp only [if_true, Option.some.injEq, Prod.mk.injEq] at h
      obtain ⟨rfl, rfl⟩ := h
      exact .closeWrite

/-- The action a process takes next. -/
def nextAct : Label → Label
  | .writeLock | .writeSleep => .fill
  | .wakeReaders => .again
  | .readLock | .readSleep => .look
  | .closeLock writable => .close writable
  | .writeWake | .writeUnlock | .readWake | .readUnlock | .closeWake _ | .closeUnlock | .kill _ =>
    .idle
  | x => x

theorem leads : Leads program nextAct := by
  intro x
  cases x <;> simp [code, nextAct]

/-- In `pipewrite`. -/
def writes : Label → Bool
  | .fill | .full | .again => true
  | _ => false

/-- In `piperead`. -/
def reads : Label → Bool
  | .look | .empty | .drain => true
  | _ => false

/-- The bytes of one call. -/
def bytesOf (call : Nat) (l : List Entry) : List UInt8 :=
  (l.filter fun e => e.call = call).map Entry.byte

theorem bytesOf_append (call : Nat) (l : List Entry) (e : Entry) :
    bytesOf call (l ++ [e]) = bytesOf call l ++ if e.call = call then [e.byte] else [] := by
  by_cases h : e.call = call <;> simp [bytesOf, h]

theorem bytesOf_append_ne {call : Nat} {l : List Entry} {e : Entry} (h : e.call ≠ call) :
    bytesOf call (l ++ [e]) = bytesOf call l := by
  simp [bytesOf_append, h]

/-- One more byte of a buffer. -/
theorem map_range_succ (f : Nat → UInt8) (i : Nat) :
    (List.range (i + 1)).map f = (List.range i).map f ++ [f i] := by
  rw [List.range_succ, List.map_append, List.map_singleton]

theorem map_range_update (f : Nat → UInt8) (i : Nat) (b : UInt8) :
    (List.range (i + 1)).map (update f i b) = (List.range i).map f ++ [b] := by
  rw [map_range_succ, Function.update_self]
  congr 1
  apply List.map_congr_left
  intro j hj
  rw [Function.update_of_ne (List.mem_range.mp hj).ne]

/-- The pipe is a queue: what its ring holds, and how far each call has come. -/
structure Fifo (d : PipeData) (z : Slot → Label) : Prop where
  ring : d.Shows pipesize (d.stored.map Entry.byte) (d.taken.map Entry.byte)
  numbered : ∀ p, (d.loc p).id < d.calls
  apart : ∀ p q, (d.loc p).id = (d.loc q).id → p = q
  unused : ∀ c, d.calls ≤ c → bytesOf c d.stored = [] ∧ bytesOf c d.taken = []
  gapless : ∀ c, ∃ k, bytesOf c d.stored = (List.range k).map (d.given c)
  writing : ∀ p, writes (z p) = true →
    bytesOf (d.loc p).id d.stored = (List.range (d.loc p).i).map (d.loc p).addr ∧
      d.given (d.loc p).id = (d.loc p).addr
  reading : ∀ p, reads (z p) = true →
    bytesOf (d.loc p).id d.taken = (List.range (d.loc p).i).map (d.loc p).addr ∧
      (z p ≠ .drain → (d.loc p).i = 0)
  returned : ∀ r ∈ d.returned, r.id < d.calls ∧
    (∀ p, reads (z p) = true → (d.loc p).id ≠ r.id) ∧
    bytesOf r.id d.taken = (List.range r.ret.toNat).map r.addr

variable {d d' : PipeData} {z : Slot → Label} {p : Slot} {x y : Label}

/-- A step that neither stores nor takes a byte. -/
theorem Fifo.same (h : Fifo d z) (hring : d'.toRingBuf = d.toRingBuf) (hloc : d'.loc = d.loc)
    (hcalls : d'.calls = d.calls) (hgiven : d'.given = d.given) (hstored : d'.stored = d.stored)
    (htaken : d'.taken = d.taken) (hreturned : d'.returned = d.returned)
    (hw : writes y = true → writes (z p) = true)
    (hr : reads y = true → reads (z p) = true ∧ (z p = .drain → y = .drain)) :
    Fifo d' (update z p y) := by
  have hwrites : ∀ q, writes (update z p y q) = true → writes (z q) = true := by
    intro q hq
    by_cases hqp : q = p
    · subst hqp
      exact hw (by simpa using hq)
    · simpa [hqp] using hq
  have hreads : ∀ q, reads (update z p y q) = true →
      reads (z q) = true ∧ (update z p y q ≠ .drain → z q ≠ .drain) := by
    intro q hq
    by_cases hqp : q = p
    · subst hqp
      obtain ⟨hold, hdrain⟩ := hr (by simpa using hq)
      exact ⟨hold, fun hne heq => hne (by simpa using hdrain heq)⟩
    · rw [Function.update_of_ne hqp] at hq ⊢
      exact ⟨hq, id⟩
  constructor
  case ring =>
    rw [hring, hstored, htaken]
    exact h.ring
  case numbered => simpa only [hloc, hcalls] using h.numbered
  case apart => simpa only [hloc] using h.apart
  case unused => simpa only [hcalls, hstored, htaken] using h.unused
  case gapless => simpa only [hstored, hgiven] using h.gapless
  case writing =>
    rw [hloc, hstored, hgiven]
    exact fun q hq => h.writing q (hwrites q hq)
  case reading =>
    rw [hloc, htaken]
    intro q hq
    obtain ⟨hold, hdrain⟩ := hreads q hq
    obtain ⟨hbytes, hi⟩ := h.reading q hold
    exact ⟨hbytes, fun hne => hi (hdrain hne)⟩
  case returned =>
    rw [hloc, hcalls, htaken, hreturned]
    intro r hr
    obtain ⟨hid, hother, hbytes⟩ := h.returned r hr
    exact ⟨hid, fun q hq => hother q (hreads q hq).1, hbytes⟩

/-- A call begins, with a number that no byte has. -/
theorem Fifo.enter (h : Fifo d z) (addr : Nat → UInt8) (n : Int) :
    Fifo (enter p addr n d) (update z p y) := by
  have hself : (Pipe.enter p addr n d).loc p = ⟨d.calls, addr, n, 0⟩ := by simp [Pipe.enter]
  have hother : ∀ {q}, q ≠ p → (Pipe.enter p addr n d).loc q = d.loc q :=
    fun {q} hq => by simp [Pipe.enter, hq]
  have hgiven : ∀ {c}, c ≠ d.calls → (Pipe.enter p addr n d).given c = d.given c :=
    fun {c} hc => by simp [Pipe.enter, hc]
  obtain ⟨hnoneS, hnoneT⟩ := h.unused d.calls le_rfl
  constructor
  case ring => exact h.ring
  case numbered =>
    intro q
    by_cases hq : q = p
    · rw [hq, hself]
      exact Nat.lt_succ_self _
    · rw [hother hq]
      exact Nat.lt_succ_of_lt (h.numbered q)
  case apart =>
    intro q r heq
    by_cases hq : q = p <;> by_cases hr : r = p
    · rw [hq, hr]
    · have := h.numbered r
      rw [hq, hself, hother hr] at heq
      simp only at heq
      omega
    · have := h.numbered q
      rw [hr, hself, hother hq] at heq
      simp only at heq
      omega
    · rw [hother hq, hother hr] at heq
      exact h.apart q r heq
  case unused => exact fun c hc => h.unused c (Nat.le_of_succ_le hc)
  case gapless =>
    intro c
    by_cases hc : c = d.calls
    · subst hc
      exact ⟨0, hnoneS⟩
    · rw [hgiven hc]
      exact h.gapless c
  case writing =>
    intro q hq
    by_cases hqp : q = p
    · rw [hqp, hself]
      exact ⟨hnoneS, by simp [Pipe.enter]⟩
    · rw [Function.update_of_ne hqp] at hq
      rw [hother hqp, hgiven (h.numbered q).ne]
      exact h.writing q hq
  case reading =>
    intro q hq
    by_cases hqp : q = p
    · rw [hqp, hself]
      exact ⟨hnoneT, fun _ => rfl⟩
    · rw [Function.update_of_ne hqp] at hq ⊢
      rw [hother hqp]
      exact h.reading q hq
  case returned =>
    intro r hr
    obtain ⟨hid, hdone, hbytes⟩ := h.returned r hr
    refine ⟨Nat.lt_succ_of_lt hid, fun q hq => ?_, hbytes⟩
    by_cases hqp : q = p
    · rw [hqp, hself]
      exact hid.ne'
    · rw [Function.update_of_ne hqp] at hq
      rw [hother hqp]
      exact hdone q hq

theorem update_eq_self_of_eq (hz : z p = x) : update z p x = z := by
  rw [← hz, Function.update_eq_self]

/-- A writer stores the next byte of its buffer. -/
theorem Fifo.store (h : Fifo d z) (hz : z p = .fill) (hfree : ¬ d.Full pipesize) :
    Fifo (store p d) z := by
  have hself : (Pipe.store p d).loc p = { d.loc p with i := (d.loc p).i + 1 } := by
    simp [Pipe.store]
  have hother : ∀ {q}, q ≠ p → (Pipe.store p d).loc q = d.loc q :=
    fun {q} hq => by simp [Pipe.store, hq]
  have hid : ∀ q, ((Pipe.store p d).loc q).id = (d.loc q).id := by
    intro q
    by_cases hq : q = p
    · rw [hq, hself]
    · rw [hother hq]
  obtain ⟨hbytes, hgiven⟩ := h.writing p (by rw [hz]; rfl)
  have hnext : bytesOf (d.loc p).id (Pipe.store p d).stored =
      (List.range ((d.loc p).i + 1)).map (d.loc p).addr := by
    rw [map_range_succ, ← hbytes]
    simp [Pipe.store, bytesOf_append]
  have hrest : ∀ {c}, c ≠ (d.loc p).id → bytesOf c (Pipe.store p d).stored = bytesOf c d.stored :=
    fun hc => bytesOf_append_ne (Ne.symm hc)
  constructor
  case ring =>
    have hput := h.ring.put (by decide) hfree ((d.loc p).addr (d.loc p).i)
    simpa [Pipe.store] using hput
  case numbered =>
    intro q
    rw [hid]
    exact h.numbered q
  case apart => simpa only [hid] using h.apart
  case unused =>
    intro c hc
    have hne : c ≠ (d.loc p).id := (lt_of_lt_of_le (h.numbered p) hc).ne'
    rw [hrest hne]
    exact h.unused c hc
  case gapless =>
    intro c
    by_cases hc : c = (d.loc p).id
    · subst hc
      refine ⟨(d.loc p).i + 1, ?_⟩
      rw [hnext]
      exact congrArg (List.map · _) hgiven.symm
    · rw [hrest hc]
      exact h.gapless c
  case writing =>
    intro q hq
    by_cases hqp : q = p
    · rw [hqp, hself]
      exact ⟨hnext, hgiven⟩
    · rw [hother hqp, hrest fun he => hqp (h.apart q p he)]
      exact h.writing q hq
  case reading =>
    intro q hq
    have hqp : q ≠ p := by
      rintro rfl
      simp [hz, reads] at hq
    rw [hother hqp]
    exact h.reading q hq
  case returned =>
    simp only [hid]
    exact h.returned

/-- A reader takes the byte at the front. -/
theorem Fifo.fetch (h : Fifo d z) (hz : z p = .drain) (hsome : ¬ d.Empty) :
    Fifo (fetch p d) z := by
  have hself : (Pipe.fetch p d).loc p = { d.loc p with
      addr := update (d.loc p).addr (d.loc p).i (d.front pipesize), i := (d.loc p).i + 1 } := by
    simp [Pipe.fetch]
  have hother : ∀ {q}, q ≠ p → (Pipe.fetch p d).loc q = d.loc q :=
    fun {q} hq => by simp [Pipe.fetch, hq]
  have hid : ∀ q, ((Pipe.fetch p d).loc q).id = (d.loc q).id := by
    intro q
    by_cases hq : q = p
    · rw [hq, hself]
    · rw [hother hq]
  have hreads : reads (z p) = true := by
    rw [hz]
    rfl
  obtain ⟨hbytes, -⟩ := h.reading p hreads
  have hrest : ∀ {c}, c ≠ (d.loc p).id → bytesOf c (Pipe.fetch p d).taken = bytesOf c d.taken :=
    fun hc => bytesOf_append_ne (Ne.symm hc)
  constructor
  case ring =>
    have htake := h.ring.take (by decide) hsome
    simpa [Pipe.fetch] using htake
  case numbered =>
    intro q
    rw [hid]
    exact h.numbered q
  case apart => simpa only [hid] using h.apart
  case unused =>
    intro c hc
    have hne : c ≠ (d.loc p).id := (lt_of_lt_of_le (h.numbered p) hc).ne'
    rw [hrest hne]
    exact h.unused c hc
  case gapless => exact h.gapless
  case writing =>
    intro q hq
    have hqp : q ≠ p := by
      rintro rfl
      simp [hz, writes] at hq
    rw [hother hqp]
    exact h.writing q hq
  case reading =>
    intro q hq
    by_cases hqp : q = p
    · rw [hqp, hself]
      refine ⟨?_, fun hne => (hne hz).elim⟩
      rw [map_range_update, ← hbytes]
      simp [Pipe.fetch, bytesOf_append]
    · rw [hother hqp, hrest fun he => hqp (h.apart q p he)]
      exact h.reading q hq
  case returned =>
    intro r hr
    obtain ⟨hlt, hdone, hbytes⟩ := h.returned r hr
    rw [hrest (hdone p hreads).symm]
    exact ⟨hlt, fun q hq => by rw [hid]; exact hdone q hq, hbytes⟩

/-- A call of `piperead` returns the bytes it has taken. -/
theorem Fifo.giveBack (h : Fifo d z) (hz : reads (z p) = true) {ret : Int}
    (hret : ret.toNat = (d.loc p).i) : Fifo (giveBack p ret d) (update z p .idle) := by
  have hother : ∀ {q}, reads (update z p .idle q) = true → q ≠ p ∧ reads (z q) = true := by
    intro q hq
    by_cases hqp : q = p
    · simp [hqp, reads] at hq
    · exact ⟨hqp, by simpa [hqp] using hq⟩
  constructor
  case ring => exact h.ring
  case numbered => exact h.numbered
  case apart => exact h.apart
  case unused => exact h.unused
  case gapless => exact h.gapless
  case writing =>
    intro q hq
    by_cases hqp : q = p
    · simp [hqp, writes] at hq
    · exact h.writing q (by simpa [hqp] using hq)
  case reading =>
    intro q hq
    obtain ⟨hqp, hold⟩ := hother hq
    rw [Function.update_of_ne hqp]
    exact h.reading q hold
  case returned =>
    intro r hr
    rcases List.mem_cons.mp hr with rfl | hr
    · refine ⟨h.numbered p, fun q hq heq => (hother hq).1 (h.apart q p heq), ?_⟩
      rw [hret]
      exact (h.reading p hz).1
    · obtain ⟨hlt, hdone, hbytes⟩ := h.returned r hr
      exact ⟨hlt, fun q hq => hdone q (hother hq).2, hbytes⟩

/-- Every action keeps the queue. -/
theorem Fifo.step (h : Fifo d z) (hz : z p = x) (hs : PipeStep p d x d' y) :
    Fifo d' (update z p (nextAct y)) := by
  cases hs with
  | write addr n => exact h.enter addr n
  | read addr n => exact h.enter addr n
  | store hfree =>
    rw [show nextAct .fill = .fill from rfl, update_eq_self_of_eq hz]
    exact h.store hz hfree
  | fetch hsome =>
    rw [show nextAct .drain = .drain from rfl, update_eq_self_of_eq hz]
    exact h.fetch hz hsome
  | fail =>
    have hreads : reads (z p) = true := by
      rw [hz]
      rfl
    have hi : (d.loc p).i = 0 := (h.reading p hreads).2 (by rw [hz]; decide)
    exact h.giveBack hreads (by rw [hi]; rfl)
  | drained => exact h.giveBack (by rw [hz]; rfl) (Int.toNat_natCast _)
  | close writable => exact h.same rfl rfl rfl rfl rfl rfl rfl nofun nofun
  | kill pid => exact h.same rfl rfl rfl rfl rfl rfl rfl nofun nofun
  | _ => exact h.same rfl rfl rfl rfl rfl rfl rfl (by rw [hz]; decide) (by rw [hz]; decide)

/-- The action that each process takes next. -/
def next {n : Nat} (s : State PipeData Label Lock n) (p : Slot) : Label :=
  nextAct (s.pc p).label

theorem fifo_reaches {n : Nat} {ok : State PipeData Label Lock n → Fin n × Action Choice → Prop}
    {k : Kernel} {data : Nat → UInt8} {used : Slot → Bool} {s : State PipeData Label Lock n}
    (h : Runs.Reaches (Kthread.step program) ok (initial k data used n) s) :
    Fifo s.data (next s) := by
  apply h.invariant
  case h₀ =>
    constructor
    case ring => exact ⟨rfl, rfl, List.prefix_rfl, Nat.zero_le _, nofun⟩
    case numbered => exact fun p => p.isLt
    case apart => exact fun p q hpq => Fin.ext hpq
    case unused => exact fun _ _ => ⟨rfl, rfl⟩
    case gapless => exact fun _ => ⟨0, rfl⟩
    case writing => exact nofun
    case reading => exact nofun
    case returned => exact nofun
  case hstep =>
    rintro t ⟨c, a⟩ u hfifo - hs
    rcases (step_move hs).leads leads with
      ⟨hdata, hnext⟩ | ⟨p, x, y, f, k, -, -, hat, hx, hf, hnext⟩
    · rw [hdata, show next u = next t from hnext]
      exact hfifo
    · rw [show next u = update (next t) p (nextAct y) from hnext]
      exact hfifo.step hat (act_step hx hf)

/-- A pipe is a first-in-first-out queue of bytes: what has been taken is the beginning of
what has been stored, each `pipewrite` stores an initial part of its buffer, each
`piperead` returns what it took, and the counters differ by at most `PIPESIZE`, however
often they have wrapped. -/
theorem pipe_fifo (k : Kernel) (data : Nat → UInt8) (used : Slot → Bool) (n : Nat)
    (s : State PipeData Label Lock n)
    (h : Runs.Reachable (Kthread.step program) (initial k data used n) s) :
    s.data.taken.map Entry.byte <+: s.data.stored.map Entry.byte ∧
      (∀ c, ∃ m, bytesOf c s.data.stored = (List.range m).map (s.data.given c)) ∧
      (∀ r ∈ s.data.returned,
        bytesOf r.id s.data.taken = (List.range r.ret.toNat).map r.addr) ∧
      (s.data.nwrite - s.data.nread).toNat ≤ pipesize ∧
      s.data.nread = UInt32.ofNat s.data.taken.length ∧
      s.data.nwrite = UInt32.ofNat s.data.stored.length := by
  have hfifo := fifo_reaches h
  have hring := hfifo.ring
  refine ⟨hring.fifo, hfifo.gapless, fun r hr => (hfifo.returned r hr).2.2, ?_, ?_, ?_⟩
  · have hroom := hring.room
    rw [hring.sub_eq (by decide)]
    omega
  · simpa using hring.read
  · simpa using hring.write

/-- Process 0 stores two bytes and process 1 takes one. -/
def writeRead : List (Fin 1 × Action Choice) :=
  let go : Action Choice := .run (.killed false)
  ([.sched, .dispatch 0, go, .run (.write (fun i => if i = 0 then 7 else 9) 2), go, go, go, go, go,
    go, go, go, .preempt, .dispatch 1, go, .run (.read (fun _ => 0) 1), go, go, go, go, go, go, go,
    go] : List (Action Choice)).map fun a => (0, a)

/-- The first byte has been taken and the second is in the pipe. -/
theorem pipe_fifo_byte : ∃ s : State PipeData Label Lock 1,
    s.data.stored.map Entry.byte = [7, 9] ∧ s.data.taken.map Entry.byte = [7] ∧
      s.data.returned.map Return.ret = [1] ∧ [(7 : UInt8)] <+: [7, 9] ∧
      (s.data.nwrite - s.data.nread).toNat ≤ pipesize := by
  have h : Runs.Reachable (Kthread.step program)
      (initial zeroed (fun _ => 0) (fun _ => true) 1) _ :=
    Runs.reachable_of_exec (l := writeRead) rfl
  obtain ⟨hfifo, -, -, hroom, -⟩ := pipe_fifo _ _ _ _ _ h
  exact ⟨_, rfl, rfl, rfl, hfifo, hroom⟩

end Xv6.Pipe
