import Xv6.GroupCommit

/-!
# Room in the log

`begin_op` lets an operation in if the header in memory has room for it, but the log
on a disk made by mkfs.c has one block less for data, and `log_write` tests the room
before it has the lock. Operations that keep to MAXOPBLOCKS different blocks are safe
when what all of them may still log fits the disk with one block to spare.
-/
namespace Xv6.LogSpace

open Function (update)
open ProcTable Kthread LogOps GroupCommit
open KernelLocks (Lock)
open LogDisk (logsize InLog slotAddr writeLog)

/-- The blocks of the log on a disk made by mkfs.c, with the header. -/
abbrev nlog : Nat := logsize

def logstart : UInt32 := 2

/-- How many blocks an operation may still log. -/
def remaining (d : LogData) (z : Slot → Label) (p : Slot) : Nat :=
  if active (z p) then maxopblocks - (d.wrote p).length else 0

/-- A call of `log_write` for a block that the operation has logged before, or for the
last of MAXOPBLOCKS at most. -/
def ModestAt (d : LogData) (p : Slot) : Label → Prop
  | .check b => b ∈ d.wrote p ∨ (d.wrote p).length < maxopblocks
  | _ => True

/-- `begin_op` lets an operation in only if the disk has room for what it and all others
may log, with one block to spare. -/
def ReservedAt (d : LogData) (z : Slot → Label) : Label → Prop
  | .beginTest => d.committing = false → ¬ NoRoom d →
      d.lh.length + ∑ q, remaining d z q + maxopblocks + 2 ≤ d.size
  | _ => True

instance (d : LogData) (p : Slot) (x : Label) : Decidable (ModestAt d p x) := by
  cases x with
  | check b => exact inferInstanceAs (Decidable (_ ∨ _))
  | _ => exact .isTrue trivial

instance (d : LogData) (z : Slot → Label) (x : Label) : Decidable (ReservedAt d z x) := by
  cases x with
  | beginTest => exact inferInstanceAs (Decidable (_ → _))
  | _ => exact .isTrue trivial

section Conditions

variable {n : Nat}

/-- Every operation logs at most MAXOPBLOCKS different blocks. -/
def Modest (s : State LogData Label Lock n) (a : Fin n × Action Choice) : Prop :=
  ∀ r ∈ running s a.1, ModestAt s.data r.1 r.2

def Reserved (s : State LogData Label Lock n) (a : Fin n × Action Choice) : Prop :=
  ∀ r ∈ running s a.1, ReservedAt s.data (next s) r.2

instance (s : State LogData Label Lock n) (a : Fin n × Action Choice) : Decidable (Modest s a) :=
  inferInstanceAs (Decidable (∀ r ∈ running s a.1, ModestAt s.data r.1 r.2))

instance (s : State LogData Label Lock n) (a : Fin n × Action Choice) : Decidable (Reserved s a) :=
  inferInstanceAs (Decidable (∀ r ∈ running s a.1, ReservedAt s.data (next s) r.2))

end Conditions

/-- The room is there for all that the operations may still log. -/
structure Space (d : LogData) (z : Slot → Label) : Prop where
  size : d.size = 30
  within : ∀ p, active (z p) = true → ∀ b ∈ d.wrote p, b ∈ d.lh
  modest : ∀ p b, z p = .put b → b ∈ d.wrote p ∨ (d.wrote p).length < 10
  room : d.lh.length + ∑ p, remaining d z p ≤ 28
  calm : ∀ p, z p ≠ .tooBig

variable {d d' : LogData} {z : Slot → Label} {p : Slot} {x y : Label}

theorem remaining_change (hw : ∀ q, q ≠ p → d'.wrote q = d.wrote q) :
    ∑ q, remaining d' (update z p y) q + remaining d z p =
      ∑ q, remaining d z q + remaining d' (update z p y) p := by
  apply GroupCommit.sum_change
  intro q hq
  rw [remaining, remaining, hw q hq, Function.update_of_ne hq]

/-- A step that lets nobody in and logs nothing. -/
theorem Space.same (h : Space d z) (hsize : d'.size = d.size) (hlh : d'.lh = d.lh)
    (hwrote : d'.wrote = d.wrote) (ha : active y = true → active (z p) = true)
    (hput : ∀ b, y = .put b → b ∈ d.wrote p ∨ (d.wrote p).length < 10) (hcalm : y ≠ .tooBig) :
    Space d' (update z p y) := by
  constructor
  · rw [hsize]
    exact h.size
  · rw [hwrote, hlh]
    intro q hq
    by_cases hqp : q = p
    · subst hqp
      exact h.within q (ha (by simpa using hq))
    · exact h.within q (by simpa [hqp] using hq)
  · rw [hwrote]
    intro q b hq
    rcases update_eq_or hq with ⟨rfl, hy⟩ | ⟨-, hq⟩
    · exact hput b hy
    · exact h.modest q b hq
  · have hsum := remaining_change (y := y) (z := z) (p := p) fun q _ => congrFun hwrote q
    have hle : remaining d' (update z p y) p ≤ remaining d z p := by
      simp only [remaining, Function.update_self, hwrote]
      by_cases hy : active y = true
      · simp [hy, ha hy]
      · simp [hy]
    have := h.room
    rw [hlh]
    omega
  · intro q hq
    rcases update_eq_or hq with ⟨-, hq⟩ | ⟨-, hq⟩
    · exact hcalm hq
    · exact h.calm q hq

/-- The room that is set aside for an operation that is let in. -/
theorem Space.letIn (h : Space d z) (hc : d.committing = false) (hroom : ¬ NoRoom d)
    (hres : ReservedAt d z .beginTest) : Space (letIn p d) (update z p .inOp) := by
  constructor
  · exact h.size
  · intro q hq
    by_cases hqp : q = p
    · simp [hqp]
    · rw [Function.update_of_ne hqp] at hq
      rw [letIn_wrote_ne hqp]
      exact h.within q hq
  · intro q b hq
    rcases update_eq_or hq with ⟨-, hq⟩ | ⟨hqp, hq⟩
    · cases hq
    · rw [letIn_wrote_ne hqp]
      exact h.modest q b hq
  · have hfits : d.lh.length + ∑ q, remaining d z q + 10 + 2 ≤ d.size := hres hc hroom
    have hsize := h.size
    have hsum : ∑ q, remaining (LogOps.letIn p d) (update z p .inOp) q + remaining d z p = _ :=
      remaining_change fun q hq => letIn_wrote_ne hq d
    have hnew : remaining (LogOps.letIn p d) (update z p .inOp) p = 10 := by
      simp [remaining, active]
    have hlh : (LogOps.letIn p d).lh = d.lh := rfl
    rw [hlh]
    omega
  · intro q hq
    rcases update_eq_or hq with ⟨-, hq⟩ | ⟨-, hq⟩
    · cases hq
    · exact h.calm q hq

/-- A block that is new to the log takes room that was set aside for the operation. -/
theorem put_room (hwithin : ∀ b' ∈ d.wrote p, b' ∈ d.lh) {b : BlockNo}
    (hmodest : b ∈ d.wrote p ∨ (d.wrote p).length < 10) (hz : z p = .put b) :
    (put p b d).lh.length + remaining (put p b d) (update z p .inOp) p ≤
      d.lh.length + remaining d z p := by
  by_cases hb : b ∈ d.wrote p
  · simp [put, remaining, active, hz, hb, hwithin b hb]
  · have hlt := hmodest.resolve_left hb
    have hlen : (put p b d).lh.length ≤ d.lh.length + 1 := by
      unfold put
      dsimp only
      split <;> simp
    have hnew : remaining (put p b d) (update z p .inOp) p =
        maxopblocks - ((d.wrote p).length + 1) := by
      simp [remaining, active, hb]
    have hold : remaining d z p = maxopblocks - (d.wrote p).length := by
      simp [remaining, active, hz]
    have hmax : maxopblocks = 10 := rfl
    omega

theorem Space.put (h : Space d z) {b : BlockNo} (hz : z p = .put b) :
    Space (put p b d) (update z p .inOp) := by
  have hp : active (z p) = true := by
    rw [hz]
    rfl
  constructor
  · exact h.size
  · intro q hq b' hb'
    rw [mem_put_lh]
    by_cases hqp : q = p
    · rw [hqp, put_wrote_self] at hb'
      split at hb'
      · exact .inl (h.within p hp b' hb')
      · rcases List.mem_cons.mp hb' with rfl | hb'
        · exact .inr rfl
        · exact .inl (h.within p hp b' hb')
    · rw [Function.update_of_ne hqp] at hq
      rw [put_wrote_ne hqp] at hb'
      exact .inl (h.within q hq b' hb')
  · intro q b' hq
    rcases update_eq_or hq with ⟨-, hq⟩ | ⟨hqp, hq⟩
    · cases hq
    · rw [put_wrote_ne hqp]
      exact h.modest q b' hq
  · have hle := put_room (h.within p hp) (h.modest p b hz) hz
    have hsum : ∑ q, remaining (LogOps.put p b d) (update z p .inOp) q + remaining d z p = _ :=
      remaining_change fun q hq => put_wrote_ne hq b d
    have := h.room
    omega
  · intro q hq
    rcases update_eq_or hq with ⟨-, hq⟩ | ⟨-, hq⟩
    · cases hq
    · exact h.calm q hq

/-- The log is erased when nobody is in an operation. -/
theorem Space.clear (h : Space d z) (hR : Roles d z) (hz : z p = .clear) :
    Space { d with lh := [], group := d.group + 1 } (update z p .done) := by
  have hsame : Space d (update z p .done) :=
    h.same rfl rfl rfl (by simp [active]) nofun (by simp)
  have hroom := hsame.room
  refine { hsame with within := ?_, room := ?_ }
  · intro q hq
    exfalso
    by_cases hqp : q = p
    · simp [hqp, active] at hq
    · rw [Function.update_of_ne hqp] at hq
      exact hR.not_active (p := p) (by rw [hz]; rfl) q hq
  · simpa [remaining] using Nat.le_of_add_left_le hroom

/-- Every action keeps the room, if calls are modest and admission reserves enough. -/
theorem Space.step (h : Space d z) (hR : Roles d z) (hz : z p = x) (hs : LogStep p d x d' y)
    (hmodest : ModestAt d p x) (hres : ReservedAt d z x) : Space d' (update z p (nextAct y)) := by
  cases hs with
  | letIn hc hroom => exact h.letIn hc hroom hres
  | tooBig b hbig =>
    have hroom := h.room
    have hsize := h.size
    have hlog : logsize = 30 := rfl
    omega
  | checked b =>
    refine h.same rfl rfl rfl (fun _ => by rw [hz]; rfl) ?_ (by simp [nextAct])
    rintro b' heq
    obtain rfl : b = b' := by simpa [nextAct] using heq
    exact hmodest
  | put b => exact h.put hz
  | clear => exact h.clear hR hz
  | _ =>
    exact h.same rfl rfl rfl (by rw [hz]; simp [nextAct, active]) (by simp [nextAct])
      (by simp [nextAct])

section Runs

variable {n : Nat} {s : State LogData Label Lock n}

theorem space_reaches {k : Kernel} {used : Slot → Bool}
    (h : Runs.Reaches (Kthread.step program) (fun t a => Modest t a ∧ Reserved t a)
      (initial k nlog used n) s) : Space s.data (next s) := by
  apply h.invariant_of (P := fun s => Space s.data (next s))
    (Q := fun s => Roles s.data (next s))
  · exact fun t ht => roles_reachable (ht.weaken fun _ _ _ => trivial)
  · constructor <;>
      simp [initial, start, emptyLog, next, nextAct, Pc.label, active, remaining]
  · rintro t ⟨c, a⟩ u hR hS ⟨hmodest, hres⟩ hs
    rcases step_log hs with ⟨hd, hz⟩ | ⟨p, x, y, hrun, hp, hstep, hz⟩
    · rwa [hd, hz]
    · rw [hz]
      exact hS.step hR hp hstep (hmodest _ hrun) (hres _ hrun)

end Runs

/-- `write_log` writes to the blocks after the header, one for each entry. -/
theorem writeLog_addrs (start : UInt32) (cache : LogDisk.Disk) (i : Nat) (l : List UInt32) :
    (writeLog start cache i l).map Prod.fst = (List.range' i l.length).map (slotAddr start) := by
  induction l generalizing i with
  | nil => rfl
  | cons b l ih => simp [writeLog, ih, List.range'_succ]

/-- With enough room set aside for every operation `log_write` does not panic, the log
has a block for every entry of the header, and `write_log` stays in the log. -/
theorem log_space_suffices (k : Kernel) (used : Slot → Bool) (n : Nat)
    (s : State LogData Label Lock n)
    (h : Runs.Reaches (Kthread.step program) (fun t a => Modest t a ∧ Reserved t a)
      (initial k nlog used n) s) :
    (∀ p, (s.pc p).label ≠ .tooBig) ∧ s.data.lh.length ≤ s.data.size - 1 ∧
      ∀ cache, ∀ b ∈ (writeLog logstart cache 0 (s.data.lh.map BlockNo.val)).map Prod.fst,
        InLog logstart nlog b := by
  have hS := space_reaches h
  have hroom := hS.room
  have hsize := hS.size
  refine ⟨?_, by omega, ?_⟩
  · intro p hp
    exact hS.calm p (by rw [next, hp]; rfl)
  · intro cache b hb
    rw [writeLog_addrs, List.length_map, List.mem_map] at hb
    obtain ⟨j, hj, rfl⟩ := hb
    have hlog : nlog = 30 := rfl
    have := List.mem_range'_1.mp hj
    exact ⟨j + 1, by omega, rfl⟩

/-! Runs on one CPU, in which the choice made where there is none is `begin`. -/

def go : Action Choice := .run .begin

/-- Process `p` is dispatched for the first time and begins an operation. -/
def enter (p : Slot) : List (Action Choice) := .dispatch p :: List.replicate 5 go

def switchTo (p : Slot) : List (Action Choice) := [.preempt, .dispatch p, go]

/-- Log `m` blocks from number `b` on. -/
def logBlocks (b : UInt32) (m : Nat) : List (Action Choice) :=
  (List.range m).flatMap fun i => .run (.write ⟨b + UInt32.ofNat i⟩) :: List.replicate 4 go

/-- End an operation that is not the last. -/
def leave : List (Action Choice) := .run .finish :: List.replicate 6 go

/-- The actions of the only CPU. -/
def onOne (l : List (Action Choice)) : List (Fin 1 × Action Choice) := l.map fun a => (0, a)

/-- Two full operations at a time meet the conditions. -/
theorem log_space_suffices_two : ∃ s : State LogData Label Lock 1,
    s.data.outstanding = 2 ∧ s.data.lh.length = 20 ∧ ∀ p, (s.pc p).label ≠ .tooBig := by
  obtain ⟨s, hr, hout, hlen⟩ : ∃ s, Runs.Reaches (Kthread.step program)
      (fun t a => Modest t a ∧ Reserved t a) (initial zeroed nlog (fun _ => true) 1) s ∧
        s.data.outstanding = 2 ∧ s.data.lh.length = 20 :=
    Runs.exists_of_execIf (l := onOne ([.sched] ++ enter 0 ++ [.preempt] ++ enter 1 ++
      logBlocks 100 10 ++ switchTo 0 ++ logBlocks 110 10)) (by decide +kernel)
  exact ⟨s, hout, hlen, (log_space_suffices _ _ _ s hr).1⟩

/-- Three processes begin an operation before any of them logs a block. -/
def threeIn : List (Action Choice) :=
  [.sched] ++ enter 0 ++ [.preempt] ++ enter 1 ++ [.preempt] ++ enter 2

/-- The last of thirty blocks finds 29 in the log. -/
def threeFull : List (Action Choice) :=
  threeIn ++ logBlocks 100 10 ++ switchTo 1 ++ logBlocks 110 10 ++ switchTo 0 ++
    logBlocks 120 9 ++ [.run (.write ⟨129⟩), go]

/-- With 28 blocks in the log two processes test the room before either of them logs
its last block; then the operations end. -/
def twoPass : List (Action Choice) :=
  threeIn ++ logBlocks 100 10 ++ leave ++ switchTo 1 ++ logBlocks 110 9 ++ switchTo 0 ++
    logBlocks 120 9 ++ [.run (.write ⟨129⟩), go] ++ switchTo 1 ++ logBlocks 119 1 ++ leave ++
    switchTo 0 ++ [go, go, go] ++ .run .finish :: [go, go, go]

/-- Operations of MAXOPBLOCKS blocks that `begin_op` lets in together can make `log_write`
panic, and can leave 30 blocks for `commit`, one more than the log on the disk has. -/
theorem log_space_exceeded :
    (∃ s : State LogData Label Lock 1,
      Runs.Reaches (Kthread.step program) Modest (initial zeroed nlog (fun _ => true) 1) s ∧
        s.pc 0 = .here .tooBig) ∧
    ∃ s : State LogData Label Lock 1,
      Runs.Reaches (Kthread.step program) Modest (initial zeroed nlog (fun _ => true) 1) s ∧
        s.pc 0 = .here .writeLog ∧ s.data.lh.length = 30 ∧ s.data.size - 1 = 29 :=
  ⟨Runs.exists_of_execIf (l := onOne threeFull) (by decide +kernel),
    Runs.exists_of_execIf (l := onOne twoPass) (by decide +kernel)⟩

end Xv6.LogSpace
