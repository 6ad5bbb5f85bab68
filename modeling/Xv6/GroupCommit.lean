import Mathlib.Algebra.BigOperators.Fin
import Mathlib.Algebra.Order.BigOperators.Group.Finset
import Xv6.LogOps

/-!
# Group commit

All operations that log blocks between two commits share one header, so they form a
group. A process that runs `log.c` is known by the action it takes next; operations
are counted by those that are in one, and at most one process commits. From that
follows that nothing is admitted or logged while a commit runs, and that the blocks
of one operation are all in one group.
-/
namespace Xv6.GroupCommit

open Function (update)
open ProcTable Kthread LogOps
open KernelLocks (Lock)

/-- Two sums whose terms differ at one place. -/
theorem sum_change {ι : Type} [Fintype ι] [DecidableEq ι] {M : Type} [AddCommMonoid M] {f g : ι → M}
    {p : ι} (h : ∀ q, q ≠ p → f q = g q) :
    ∑ q, f q + g p = ∑ q, g q + f p := by
  have hrest : ∑ q ∈ Finset.univ.erase p, f q = ∑ q ∈ Finset.univ.erase p, g q :=
    Finset.sum_congr rfl fun q hq => h q (Finset.ne_of_mem_erase hq)
  rw [← Finset.add_sum_erase _ f
    (Finset.mem_univ p), ← Finset.add_sum_erase _ g (Finset.mem_univ p),
    hrest, add_right_comm, add_comm (f p), add_right_comm]

/-- The action a process takes next. -/
def nextAct : Label → Label
  | .beginLock | .beginSleep => .beginTest
  | .beginUnlock | .writeUnlock => .inOp
  | .writeLock b => .put b
  | .endLock => .endDec
  | .endWake | .endUnlock false | .doneWake | .doneUnlock => .idle
  | .endUnlock true => .writeLog
  | .doneLock => .done
  | x => x

/-- In an operation, for one that has panicked for ever. -/
def active : Label → Bool
  | .inOp | .check _ | .put _ | .endDec | .tooBig | .outsideOfTrans => true
  | _ => false

/-- In the part of `end_op` after the lock has been released for `commit`. -/
def commits : Label → Bool
  | .writeLog | .writeHead | .installTrans | .clear | .done => true
  | _ => false

/-- Between the two writes of the header. -/
def headWritten : Label → Bool
  | .installTrans | .clear => true
  | _ => false

/-- The number of processes in an operation. -/
def inOps (z : Slot → Label) : Nat := ∑ p, (active (z p)).toNat

theorem inOps_update (z : Slot → Label) (p : Slot) (y : Label) :
    inOps (update z p y) + (active (z p)).toNat = inOps z + (active y).toNat := by
  have h := sum_change (p := p) (f := fun q => (active (update z p y q)).toNat)
    (g := fun q => (active (z q)).toNat) fun q hq => by rw [Function.update_of_ne hq]
  rwa [Function.update_self] at h

theorem inOps_pos {z : Slot → Label} {p : Slot} (h : active (z p) = true) : 0 < inOps z := by
  have hle : (active (z p)).toNat ≤ inOps z :=
    Finset.single_le_sum (f := fun q => (active (z q)).toNat) (by simp) (Finset.mem_univ p)
  rw [h] at hle
  exact hle

/-- Who is in an operation and who commits. -/
structure Roles (d : LogData) (z : Slot → Label) : Prop where
  count : d.outstanding = inOps z
  one : ∀ p q, commits (z p) = true → commits (z q) = true → p = q
  flag : d.committing = true ↔ ∃ p, commits (z p) = true
  alone : d.committing = true → inOps z = 0

variable {d d' : LogData} {z : Slot → Label} {p : Slot} {x y : Label}

theorem Roles.not_committing (h : Roles d z) (hp : active (z p) = true) : d.committing = false := by
  by_contra hc
  have h0 := h.alone (by simpa using hc)
  have := inOps_pos hp
  omega

theorem commits_update (hm : commits y = commits (z p)) (q : Slot) :
    commits (update z p y q) = commits (z q) := by
  by_cases hq : q = p
  · subst hq
    simpa using hm
  · simp [hq]

/-- A step that changes neither who commits nor whether. -/
theorem Roles.counted (h : Roles d z) (ho : d'.outstanding = inOps (update z p y))
    (hc : d'.committing = d.committing) (hm : commits y = commits (z p))
    (halone : d.committing = true → inOps (update z p y) = 0) : Roles d' (update z p y) where
  count := ho
  one := by simpa only [commits_update hm] using h.one
  flag := by simpa only [commits_update hm, hc] using h.flag
  alone := by simpa only [hc] using halone

/-- A step that changes no role. -/
theorem Roles.same (h : Roles d z) (ho : d'.outstanding = d.outstanding)
    (hc : d'.committing = d.committing) (ha : active y = active (z p))
    (hm : commits y = commits (z p)) : Roles d' (update z p y) := by
  have hin : inOps (update z p y) = inOps z := by
    have hsum := inOps_update z p y
    rw [ha] at hsum
    omega
  apply h.counted _ hc hm
  · rw [hin]
    exact h.alone
  · rw [ho, hin, h.count]

/-- Every action keeps the roles; in particular `end_op` does not panic. -/
theorem Roles.step (h : Roles d z) (hz : z p = x) (hs : LogStep p d x d' y) :
    Roles d' (update z p (nextAct y)) := by
  have hsum := inOps_update z p (nextAct y)
  have hcount := h.count
  rw [hz] at hsum
  cases hs with
  | letIn hc hroom =>
    refine h.counted ?_ rfl (by rw [hz]; rfl) ?_
    · simp only [nextAct, active, letIn, Bool.toNat_false, Bool.toNat_true] at hsum ⊢
      omega
    · intro hc'
      rw [hc] at hc'
      cases hc'
  | ended hc =>
    have hno := h.not_committing (p := p) (by rw [hz]; rfl)
    rw [hno] at hc
    cases hc
  | last hc hlast =>
    simp only [nextAct, active, Bool.toNat_false, Bool.toNat_true] at hsum
    have hnone : ∀ q, ¬ commits (z q) = true := by
      intro q hq
      rw [h.flag.mpr ⟨q, hq⟩] at hc
      cases hc
    have honly : ∀ q, commits (update z p .writeLog q) = true → q = p := by
      intro q hq
      by_contra hne
      rw [Function.update_of_ne hne] at hq
      exact hnone q hq
    constructor
    · simp only [nextAct]
      omega
    · intro q r hq hr
      rw [honly q hq, honly r hr]
    · exact ⟨fun _ => ⟨p, by simp [nextAct, commits]⟩, fun _ => rfl⟩
    · intro _
      simp only [nextAct]
      omega
  | notLast hc hmore =>
    refine h.counted ?_ rfl (by rw [hz]; rfl) ?_
    · simp only [nextAct, active, Bool.toNat_false, Bool.toNat_true] at hsum ⊢
      omega
    · intro hc'
      rw [hc] at hc'
      cases hc'
  | done =>
    simp only [nextAct, active, Bool.toNat_false] at hsum
    have hnone : ∀ q, ¬ commits (update z p .idle q) = true := by
      intro q hq
      by_cases hqp : q = p
      · subst hqp
        simp [commits] at hq
      · rw [Function.update_of_ne hqp] at hq
        exact hqp (h.one q p hq (by rw [hz]; rfl))
    constructor
    · simp only [nextAct]
      omega
    · exact fun q r hq _ => (hnone q hq).elim
    · exact ⟨fun h => (by cases h), fun hq => hq.elim fun q hq => (hnone q hq).elim⟩
    · exact fun h => by cases h
  | _ => exact h.same rfl rfl (by rw [hz]; rfl) (by rw [hz]; rfl)

theorem Roles.not_active (h : Roles d z) (hp : commits (z p) = true) (q : Slot) :
    ¬ active (z q) = true := by
  intro hq
  have hc := h.flag.mpr ⟨p, hp⟩
  rw [h.not_committing hq] at hc
  cases hc

theorem commits_of_headWritten {x : Label} (h : headWritten x = true) : commits x = true := by
  cases x <;> simp_all [headWritten, commits]

/-- Block `b` was logged in group `g`. -/
def InGroup (d : LogData) (g : Nat) (b : BlockNo) : Prop :=
  ∃ e ∈ d.logged, e.group = g ∧ e.block = b

/-- How the history and the header go together. -/
structure History (d : LogData) (z : Slot → Label) : Prop where
  numbered : ∀ p, active (z p) = true → d.op p < d.ops
  apart : ∀ p q, active (z p) = true → active (z q) = true → d.op p = d.op q → p = q
  past : ∀ e ∈ d.logged, e.op < d.ops ∧ e.group ≤ d.group
  current : ∀ p, active (z p) = true → ∀ e ∈ d.logged, e.op = d.op p → e.group = d.group
  oneGroup : ∀ e ∈ d.logged, ∀ f ∈ d.logged, e.op = f.op → e.group = f.group
  header : ∀ b, b ∈ d.lh ↔ InGroup d d.group b
  copied : ∀ p, z p = .writeHead → d.copied = d.lh
  /-- Only while the committed blocks are installed is the group of the last header the
  one that is collected. -/
  erased : ∀ c ∈ d.committed, c.1 ≤ d.group ∧
    (c.1 = d.group → ∃ p, headWritten (z p) = true)
  committed : ∀ c ∈ d.committed, ∀ b, b ∈ c.2 ↔ InGroup d c.1 b
  once : (d.committed.map Prod.fst).Nodup

/-- A step that neither begins an operation nor logs, commits or erases a block. -/
theorem History.same (h : History d z) (ha : active y = true → active (z p) = true)
    (hw : headWritten (z p) = true → headWritten y = true) (hop : d'.op = d.op)
    (hops : d'.ops = d.ops) (hlogged : d'.logged = d.logged) (hgroup : d'.group = d.group)
    (hlh : d'.lh = d.lh) (hcommitted : d'.committed = d.committed)
    (hcopied : ∀ q, update z p y q = .writeHead → d'.copied = d.lh) :
    History d' (update z p y) := by
  have hact : ∀ q, active (update z p y q) = true → active (z q) = true := by
    intro q hq
    by_cases hqp : q = p
    · subst hqp
      exact ha (by simpa using hq)
    · simpa [hqp] using hq
  have hwritten : ∀ q, headWritten (z q) = true → headWritten (update z p y q) = true := by
    intro q hq
    by_cases hqp : q = p
    · subst hqp
      simpa using hw hq
    · simpa [hqp] using hq
  constructor
  · rw [hop, hops]
    exact fun q hq => h.numbered q (hact q hq)
  · rw [hop]
    exact fun q r hq hr => h.apart q r (hact q hq) (hact r hr)
  · rw [hlogged, hops, hgroup]
    exact h.past
  · rw [hlogged, hop, hgroup]
    exact fun q hq => h.current q (hact q hq)
  · rw [hlogged]
    exact h.oneGroup
  · unfold InGroup
    rw [hlogged, hlh, hgroup]
    exact h.header
  · rw [hlh]
    exact hcopied
  · rw [hcommitted, hgroup]
    intro c hc
    obtain ⟨hle, hex⟩ := h.erased c hc
    exact ⟨hle, fun heq => (hex heq).imp hwritten⟩
  · unfold InGroup
    rw [hcommitted, hlogged]
    exact h.committed
  · rw [hcommitted]
    exact h.once

theorem update_eq_or {q : Slot} (h : update z p y q = x) : q = p ∧ y = x ∨ q ≠ p ∧ z q = x := by
  by_cases hq : q = p
  · subst hq
    exact .inl ⟨rfl, by simpa using h⟩
  · exact .inr ⟨hq, by simpa [hq] using h⟩

/-- An operation begins with a number that no entry has. -/
theorem History.letIn (h : History d z) (hz : z p = .beginTest) :
    History (letIn p d) (update z p .inOp) := by
  have hact : ∀ q, q ≠ p → active (update z p .inOp q) = true → active (z q) = true := by
    intro q hq ha
    rwa [Function.update_of_ne hq] at ha
  constructor
  · intro q hq
    by_cases hqp : q = p
    · rw [hqp, letIn_op_self]
      exact Nat.lt_succ_self _
    · rw [letIn_op_ne hqp]
      exact Nat.lt_succ_of_lt (h.numbered q (hact q hqp hq))
  · intro q r hq hr heq
    by_cases hqp : q = p <;> by_cases hrp : r = p
    · rw [hqp, hrp]
    · have := h.numbered r (hact r hrp hr)
      rw [hqp, letIn_op_self, letIn_op_ne hrp] at heq
      omega
    · have := h.numbered q (hact q hqp hq)
      rw [hrp, letIn_op_self, letIn_op_ne hqp] at heq
      omega
    · rw [letIn_op_ne hqp, letIn_op_ne hrp] at heq
      exact h.apart q r (hact q hqp hq) (hact r hrp hr) heq
  · intro e he
    obtain ⟨hop, hgroup⟩ := h.past e he
    exact ⟨Nat.lt_succ_of_lt hop, hgroup⟩
  · intro q hq e he heq
    by_cases hqp : q = p
    · have := (h.past e he).1
      rw [hqp, letIn_op_self] at heq
      omega
    · rw [letIn_op_ne hqp] at heq
      exact h.current q (hact q hqp hq) e he heq
  · exact h.oneGroup
  · exact h.header
  · intro q hq
    rcases update_eq_or hq with ⟨-, hq⟩ | ⟨-, hq⟩
    · cases hq
    · exact h.copied q hq
  · intro c hc
    obtain ⟨hle, hex⟩ := h.erased c hc
    refine ⟨hle, fun heq => ?_⟩
    obtain ⟨q, hq⟩ := hex heq
    have hqp : q ≠ p := by
      rintro rfl
      rw [hz] at hq
      cases hq
    exact ⟨q, by rwa [Function.update_of_ne hqp]⟩
  · exact h.committed
  · exact h.once

/-- A block goes into the group that is collected. -/
theorem inGroup_put (b : BlockNo) (g : Nat) (b' : BlockNo) :
    InGroup (put p b d) g b' ↔ d.group = g ∧ b = b' ∨ InGroup d g b' := by
  simp [InGroup, put]

section

variable (h : History d z) (hR : Roles d z)
include h hR

/-- While an operation is in progress no header of its group has been written. -/
theorem History.put {b : BlockNo} (hz : z p = .put b) : History (put p b d) (update z p .inOp) := by
  have hp : active (z p) = true := by
    rw [hz]
    rfl
  have hact : ∀ q, active (update z p .inOp q) = true → active (z q) = true := by
    intro q hq
    by_cases hqp : q = p
    · rwa [hqp]
    · rwa [Function.update_of_ne hqp] at hq
  have hcold : ∀ c ∈ d.committed, c.1 ≠ d.group := by
    intro c hc heq
    obtain ⟨q, hq⟩ := (h.erased c hc).2 heq
    exact hR.not_active (commits_of_headWritten hq) p hp
  constructor
  · exact fun q hq => h.numbered q (hact q hq)
  · exact fun q r hq hr => h.apart q r (hact q hq) (hact r hr)
  · intro e he
    rcases List.mem_cons.mp he with rfl | he
    · exact ⟨h.numbered p hp, Nat.le_refl _⟩
    · exact h.past e he
  · intro q hq e he heq
    rcases List.mem_cons.mp he with rfl | he
    · rfl
    · exact h.current q (hact q hq) e he heq
  · intro e he f hf heq
    rcases List.mem_cons.mp he with rfl | he <;> rcases List.mem_cons.mp hf with rfl | hf
    · rfl
    · exact (h.current p hp f hf heq.symm).symm
    · exact h.current p hp e he heq
    · exact h.oneGroup e he f hf heq
  · intro b'
    rw [mem_put_lh, h.header]
    exact Iff.trans (by tauto) (inGroup_put b d.group b').symm
  · intro q hq
    rcases update_eq_or hq with ⟨-, hq⟩ | ⟨-, hq⟩
    · cases hq
    · exact (hR.not_active (p := q) (by rw [hq]; rfl) p hp).elim
  · exact fun c hc => ⟨(h.erased c hc).1, fun heq => (hcold c hc heq).elim⟩
  · intro c hc b'
    rw [inGroup_put, h.committed c hc]
    have := hcold c hc
    tauto
  · exact h.once

/-- The header names what was logged in the group, and is written once. -/
theorem History.head (hz : z p = .writeHead) :
    History { d with committed := (d.group, d.lh) :: d.committed } (update z p .installTrans) := by
  have hsame : History d (update z p .installTrans) := by
    refine h.same (by simp [active]) (fun _ => rfl) rfl rfl rfl rfl rfl rfl ?_
    intro q hq
    rcases update_eq_or hq with ⟨-, hq⟩ | ⟨-, hq⟩
    · cases hq
    · exact h.copied q hq
  have hfirst : ∀ c ∈ d.committed, c.1 ≠ d.group := by
    intro c hc heq
    obtain ⟨q, hq⟩ := (h.erased c hc).2 heq
    obtain rfl := hR.one q p (commits_of_headWritten hq) (by rw [hz]; rfl)
    rw [hz] at hq
    cases hq
  refine { hsame with erased := ?_, committed := ?_, once := ?_ }
  · intro c hc
    rcases List.mem_cons.mp hc with rfl | hc
    · exact ⟨Nat.le_refl _, fun _ => ⟨p, by simp [headWritten]⟩⟩
    · exact hsame.erased c hc
  · intro c hc
    rcases List.mem_cons.mp hc with rfl | hc
    · exact h.header
    · exact h.committed c hc
  · simpa using ⟨fun b hc => hfirst (d.group, b) hc rfl, h.once⟩

/-- The next group starts empty. -/
theorem History.clear (hz : z p = .clear) :
    History { d with lh := [], group := d.group + 1 } (update z p .done) := by
  have hcommits : commits (z p) = true := by
    rw [hz]
    rfl
  have hidle : ∀ q, ¬ active (update z p .done q) = true := by
    intro q hq
    rcases update_eq_or (x := update z p .done q) rfl with ⟨-, h'⟩ | ⟨-, h'⟩
    · rw [← h'] at hq
      cases hq
    · rw [← h'] at hq
      exact hR.not_active hcommits q hq
  constructor
  · exact fun q hq => (hidle q hq).elim
  · exact fun q r hq => (hidle q hq).elim
  · intro e he
    obtain ⟨hop, hgroup⟩ := h.past e he
    exact ⟨hop, Nat.le_succ_of_le hgroup⟩
  · exact fun q hq => (hidle q hq).elim
  · exact h.oneGroup
  · intro b
    constructor
    · exact nofun
    · rintro ⟨e, he, hgroup, -⟩
      have := (h.past e he).2
      simp only at hgroup
      omega
  · intro q hq
    rcases update_eq_or hq with ⟨-, hq⟩ | ⟨hqp, hq⟩
    · cases hq
    · exact (hqp (hR.one q p (by rw [hq]; rfl) hcommits)).elim
  · intro c hc
    have := (h.erased c hc).1
    exact ⟨by dsimp only; omega, fun heq => by dsimp only at heq; omega⟩
  · exact h.committed
  · exact h.once

theorem History.step (hz : z p = x) (hs : LogStep p d x d' y) :
    History d' (update z p (nextAct y)) := by
  have hcopied : nextAct y ≠ .writeHead → ∀ q, update z p (nextAct y) q = .writeHead →
      d.copied = d.lh := by
    intro hy q hq
    rcases update_eq_or hq with ⟨-, hq⟩ | ⟨-, hq⟩
    · exact (hy hq).elim
    · exact h.copied q hq
  cases hs with
  | letIn hc hroom => exact h.letIn hz
  | put b => exact h.put hR hz
  | head => exact h.head hR hz
  | clear => exact h.clear hR hz
  | copy hlen =>
    exact h.same (by simp [nextAct, active]) (by rw [hz]; simp [headWritten])
      rfl rfl rfl rfl rfl rfl fun _ _ => rfl
  | _ =>
    exact h.same (by rw [hz]; simp [nextAct, active]) (by rw [hz]; simp [nextAct, headWritten])
      rfl rfl rfl rfl rfl rfl (hcopied (by simp [nextAct]))

end

theorem leads : Leads program nextAct := by
  intro x
  cases x with
  | endUnlock doCommit => cases doCommit <;> rfl
  | _ => rfl

/-- The action that process `p` takes next. -/
def next {n : Nat} (s : State LogData Label Lock n) (p : Slot) : Label := nextAct (s.pc p).label

variable {n : Nat} {s s' : State LogData Label Lock n}

/-- The process that a CPU runs, at its label. -/
def running (s : State LogData Label Lock n) (c : Fin n) : Option (Slot × Label) :=
  match s.core c with
  | .run p =>
    match s.pc p with
    | .here x => some (p, x)
    | _ => none
  | _ => none

/-- A step of the system is an action of the log, or nothing to it. -/
theorem step_log {c : Fin n} {a : Action Choice} (h : Kthread.step program s (c, a) = some s') :
    (s'.data = s.data ∧ next s' = next s) ∨
      ∃ p x y, running s c = some (p, x) ∧ next s p = x ∧ LogStep p s.data x s'.data y ∧
        next s' = update (next s) p (nextAct y) := by
  rcases (step_move h).leads leads with hsame | ⟨p, x, y, f, k, hc, hp, hat, hx, hf, hnext⟩
  · exact .inl hsame
  · exact .inr ⟨p, x, y, by simp only [running, hc, hp], hat, act_step hx hf, hnext⟩

theorem roles_reachable {k : Kernel} {size : Nat} {used : Slot → Bool}
    (h : Runs.Reachable (Kthread.step program) (initial k size used n) s) :
    Roles s.data (next s) := by
  apply h.invariant (P := fun s => Roles s.data (next s))
  · constructor <;> simp [initial, start, emptyLog, next, nextAct, Pc.label, inOps, active, commits]
  · rintro t ⟨c, a⟩ u hR - hs
    rcases step_log hs with ⟨hd, hz⟩ | ⟨p, x, y, -, hp, hstep, hz⟩
    · rwa [hd, hz]
    · rw [hz]
      exact hR.step hp hstep

theorem history_reachable {k : Kernel} {size : Nat} {used : Slot → Bool}
    (h : Runs.Reachable (Kthread.step program) (initial k size used n) s) :
    History s.data (next s) := by
  apply h.invariant_of (P := fun s => History s.data (next s))
    (Q := fun s => Roles s.data (next s))
  · exact fun t ht => roles_reachable ht
  · constructor <;>
      simp [initial, start, emptyLog, next, nextAct, Pc.label, active, InGroup]
  · rintro t ⟨c, a⟩ u hR hH - hs
    rcases step_log hs with ⟨hd, hz⟩ | ⟨p, x, y, -, hp, hstep, hz⟩
    · rwa [hd, hz]
    · rw [hz]
      exact hH.step hR hp hstep

/-- What is logged and who is admitted do not change while a commit is under way. -/
theorem step_committing {c : Fin n} {a : Action Choice} (hR : Roles s.data (next s))
    (h : Kthread.step program s (c, a) = some s') (hc : s.data.committing = true) :
    s'.data.ops = s.data.ops ∧ s'.data.logged = s.data.logged := by
  rcases step_log h with ⟨hd, -⟩ | ⟨p, x, y, -, hp, hs, -⟩
  · rw [hd]
    exact ⟨rfl, rfl⟩
  · obtain ⟨q, hq⟩ := hR.flag.mp hc
    generalize hd : s.data = d at hs hc
    generalize s'.data = d' at hs ⊢
    cases hs with
    | letIn hc' =>
      rw [hc] at hc'
      cases hc'
    | put b => exact (hR.not_active hq p (by rw [hp]; rfl)).elim
    | _ => exact ⟨rfl, rfl⟩

/-- `commit` runs when no operation is outstanding, and while it does none is admitted and
no block logged, so an operation logs into one group; a header names the blocks of one
group and no group has two. When the lock is free, whoever sleeps in `begin_op` has to. -/
theorem group_commit (k : Kernel) (size : Nat) (used : Slot → Bool) (n : Nat)
    (s : State LogData Label Lock n)
    (h : Runs.Reachable (Kthread.step program) (initial k size used n) s) :
    (∀ p, next s p = .writeLog ∨ next s p = .writeHead ∨ next s p = .installTrans ∨
      next s p = .clear → s.data.outstanding = 0 ∧ s.data.committing = true) ∧
    (s.data.committing = true → ∀ a s', Kthread.step program s a = some s' →
      s'.data.ops = s.data.ops ∧ s'.data.logged = s.data.logged) ∧
    (∀ e ∈ s.data.logged, ∀ f ∈ s.data.logged, e.op = f.op → e.group = f.group) ∧
    (∀ g ∈ s.data.committed, ∀ b, b ∈ g.2 ↔ ∃ e ∈ s.data.logged, e.group = g.1 ∧ e.block = b) ∧
    (s.data.committed.map Prod.fst).Nodup ∧
    (∀ p, next s p = .writeHead → s.data.copied = s.data.lh) ∧
    (s.Free .log → ∀ p, (s.k.proc p).state = .sleeping → (s.k.proc p).chan = logChan →
      ¬ (s.data.committing = false ∧
        (s.data.lh.length : Int) + (s.data.outstanding + 1) * maxopblocks ≤ LogDisk.logsize)) := by
  have hR := roles_reachable h
  have hH := history_reachable h
  refine ⟨?_, ?_, hH.oneGroup, hH.committed, hH.once, hH.copied, ?_⟩
  · intro p hp
    have hcommits : commits (next s p) = true := by
      rcases hp with hp | hp | hp | hp <;> rw [hp] <;> rfl
    have hc := hR.flag.mpr ⟨p, hcommits⟩
    have h0 := hR.alone hc
    have hcount := hR.count
    exact ⟨by omega, hc⟩
  · rintro hc ⟨c, a⟩ s' hs
    exact step_committing hR hs hc
  · intro hfree p hsleep hchan ⟨hc, hroom⟩
    have hknows : ∀ t : State LogData Label Lock n,
        Runs.Reachable (Kthread.step program) (initial k size used n) t →
        ∀ p y, t.pc p = .here y → plan.Knows y t.data := by
      rintro t ht q y hq rfl
      exact (roles_reachable ht).flag.mpr ⟨q, by rw [next, hq]; rfl⟩
    rcases SleepRule.sleeper_has_reason plan_sound rfl hknows h hsleep hfree hchan with h' | h'
    · rw [hc] at h'
      cases h'
    · exact absurd hroom (not_le_of_gt h')

/-- Process 0 logs block 40 and is preempted in its commit, after the header has been
written; process 1 comes to `begin_op`. -/
def commitAndWait : List (Fin 1 × Action Choice) :=
  let go : Action Choice := .run .begin
  ([.sched, .dispatch 0, go, go, go, go, go, .run (.write ⟨40⟩), go, go, go, go, .run .finish,
    go, go, go, go, go, .preempt, .dispatch 1, go, go, go, go, go, go, go, .pause] :
      List (Action Choice)).map fun a => (0, a)

/-- The block of process 0 is in the committed group, and process 1 sleeps because the
commit is under way. -/
theorem group_commit_waiter : ∃ s : State LogData Label Lock 1,
    s.data.committed = [(0, [⟨40⟩])] ∧ next s 0 = .installTrans ∧
      (s.k.proc 1).state = .sleeping ∧ s.data.outstanding = 0 ∧ s.data.committing = true := by
  have h : Runs.Reachable (Kthread.step program) (initial zeroed 30 (fun _ => true) 1) _ :=
    Runs.reachable_of_exec (l := commitAndWait) rfl
  obtain ⟨hcommit, -⟩ := group_commit _ _ _ _ _ h
  exact ⟨_, rfl, rfl, rfl, hcommit 0 (.inr (.inr (.inl rfl)))⟩

end Xv6.GroupCommit
