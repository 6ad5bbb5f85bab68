import Xv6.MlfqQueues

/-!
# The starvation pass of the MLFQ scheduler

The pass goes over queues 1 to 4 and for each of them over the process table, and
moves the processes that have waited for too long up by one queue. The entry that it
deletes is the one at index `p->pid`, so the queues come out right exactly if the
entries deleted from a queue are, taken together, those of the processes that leave it.
-/
namespace Xv6.MlfqPromotion

open Function (update update_self update_of_ne)
open ProcTable Scheduler MlfqQueues
open ShiftQueue (Holds eraseEach picked place)

/-- The scan of the table for queue `t`. -/
def passTable (t : Nat) (k : Kernel) : Kernel :=
  (List.finRange nproc).foldl (fun k p => starvePass k t p) k

/-- The loops of the pass. -/
def starvation (k : Kernel) : Kernel := [1, 2, 3, 4].foldl (fun k t => passTable t k) k

/-- A step inside a scheduler, with the lock held. -/
def Inner (b : Build) (x y : Kernel × SchedPc) : Prop := schedStep b x.1 x.2 = .goto y.1 y.2

section Steps

variable {b : Build}

theorem starve_table {t : Nat} (ht : t < 5) (l : List Slot) (i : Nat) (k : Kernel)
    (hl : l = (List.finRange nproc).drop i) :
    Relation.ReflTransGen (Inner b) (k, .starve t i)
      (l.foldl (fun k p => starvePass k t p) k, .starve (t + 1) 0) := by
  have hlen : l.length = nproc - i := by rw [hl, List.length_drop, List.length_finRange]
  induction l generalizing i k with
  | nil =>
    have hi : ¬ i < nproc := by simp at hlen; omega
    exact .single (by simp [Inner, schedStep, slotAt, ht, hi])
  | cons p l ih =>
    have hi : i < nproc := by simp at hlen; omega
    rw [List.drop_eq_getElem_cons (by simpa using hi)] at hl
    obtain ⟨rfl, rfl⟩ := List.cons.inj hl
    refine .head ?_ (ih (i + 1) _ rfl (by simp))
    simp [Inner, schedStep, slotAt, ht, hi]

/-- The steps of the scheduler from the start of a call to the first queue. -/
theorem starvation_steps (k : Kernel) :
    Relation.ReflTransGen (Inner b) (k, .starve 1 0) (starvation k, .level 0 0) := by
  have hpass : ∀ t, t < 5 → ∀ k : Kernel,
      Relation.ReflTransGen (Inner b) (k, .starve t 0) (passTable t k, .starve (t + 1) 0) :=
    fun t ht k => starve_table ht _ 0 k rfl
  refine (hpass 1 (by omega) k).trans ((hpass 2 (by omega) _).trans
    ((hpass 3 (by omega) _).trans ((hpass 4 (by omega) _).trans (.single ?_))))
  simp [Inner, schedStep, starvation]

end Steps

/-- Each entry in use is a process, no process is listed twice, every process is
listed in the queue recorded for it, the pids are different and below 64, and no queue
is full. -/
structure WellFormed (k : Kernel) (Q : Nat → List Slot) : Prop extends Queued k Q where
  pids : ∀ p, (k.proc p).state ≠ .unused → 0 ≤ (k.proc p).pid ∧ (k.proc p).pid < 64
  distinct : PidsInj k
  room : ∀ q, q < 5 → k.cxj q < 63

/-- The processes that leave queue `t` upwards, in table order. -/
def promoted (k : Kernel) (t : Nat) : List Slot :=
  (List.finRange nproc).filter fun p => starving k t p

/-- The index at which the pass deletes for `p`. -/
def index (k : Kernel) (p : Slot) : Nat := (k.proc p).pid.toNat

theorem mem_promoted {k : Kernel} {t : Nat} {p : Slot} : p ∈ promoted k t ↔ starving k t p := by
  simp [promoted]

theorem nodup_promoted (k : Kernel) (t : Nat) : (promoted k t).Nodup :=
  (List.nodup_finRange nproc).filter _

theorem used_of_starving {k : Kernel} {t : Nat} {p : Slot} (h : starving k t p) :
    (k.proc p).state ≠ .unused := by
  rw [h.1]
  simp

/-- What a part of the scan for queue `t` has done: the slots of `moved` have gone
from queue `t` to the end of the queue above, as far as the arrays are concerned. -/
structure Passed (k k' : Kernel) (Q : Nat → List Slot) (t : Nat) (moved : List Slot) : Prop where
  proc : k'.proc = k.proc
  ticks : k'.ticks = k.ticks
  holds : ∀ q, q < 5 → Holds (k'.qxj q) (k'.cxj q)
    ((update (update Q (t - 1) (Q (t - 1) ++ moved)) t
      (eraseEach (Q t) (moved.map (index k))) q).map .proc)
  others : ∀ p, (k.proc p).state ≠ .unused → p ∉ moved →
    k'.pstat.currentQueue (k.proc p).pid = k.pstat.currentQueue (k.proc p).pid ∧
      k'.pstat.runtime (k.proc p).pid = k.pstat.runtime (k.proc p).pid
  moved : ∀ p ∈ moved, k'.pstat.currentQueue (k.proc p).pid = t - 1
  overrun : k'.overrun = k.overrun

/-- What the scan for queue `t` relies on. -/
structure Ready (k : Kernel) (Q : Nat → List Slot) (t : Nat) : Prop where
  holds : ∀ q, q < 5 → Holds (k.qxj q) (k.cxj q) ((Q q).map .proc)
  listed : ∀ p, starving k t p → p ∈ Q t
  nodup : (Q (t - 1) ++ Q t).Nodup
  pids : ∀ p, (k.proc p).state ≠ .unused → 0 ≤ (k.proc p).pid ∧ (k.proc p).pid < 64
  distinct : PidsInj k

section Pass

variable {k k' : Kernel} {Q : Nat → List Slot} {t : Nat} {moved : List Slot} {p : Slot}

/-- A slot that has not been met is found as it was. -/
theorem Passed.starving_iff (h : Passed k k' Q t moved) (hp : p ∉ moved) (u : Nat) :
    starving k' u p ↔ starving k u p := by
  unfold starving
  rw [h.proc, h.ticks]
  refine and_congr_right fun hr => ?_
  obtain ⟨hcq, hrt⟩ := h.others p (by simp [hr]) hp
  rw [hcq, hrt]

theorem Passed.keep (h : Passed k k' Q t moved) (hready : Ready k Q t)
    (hu : (k.proc p).state ≠ .unused) : Passed k (k'.index (k.proc p).pid) Q t moved := by
  have hpid := hready.pids p hu
  have hin : outside (k.proc p).pid = false := by simpa using hpid
  refine ⟨h.proc, h.ticks, h.holds, h.others, h.moved, ?_⟩
  show (k'.overrun || outside (k.proc p).pid) = k.overrun
  rw [hin, Bool.or_false, h.overrun]

theorem length_le_of_starving (hready : Ready k Q t) {l : List Slot} (hl : l.Nodup)
    (hs : ∀ p ∈ l, starving k t p) : l.length ≤ (Q t).length :=
  (List.subperm_of_subset hl fun p hp => hready.listed p (hs p hp)).length_le

/-- `p` moves up. -/
theorem Passed.up (h : Passed k k' Q t moved) (hready : Ready k Q t) (h₁ : 1 ≤ t)
    (ht : t < 5) (hnodup : (moved ++ [p]).Nodup) (hs : ∀ x ∈ moved ++ [p], starving k t x) :
    Passed k ((promote k' t p).index (k.proc p).pid) Q t (moved ++ [p]) := by
  have hsp := hs p (by simp)
  have hu := used_of_starving hsp
  have hpid := hready.pids p hu
  have hfit := length_le_of_starving hready hnodup hs
  rw [List.length_append, List.length_singleton] at hfit
  have hne : t ≠ t - 1 := by omega
  -- The lengths of the two queues.
  have hlen : k'.cxj t + 1 = (Q t).length - moved.length := by
    have := (h.holds t ht).last_eq
    rw [update_self, List.length_map, ShiftQueue.length_eraseEach, List.length_map] at this
    omega
  have hlen' : k'.cxj (t - 1) + 1 = (Q (t - 1)).length + moved.length := by
    have := (h.holds (t - 1) (by omega)).last_eq
    rw [update_of_ne hne.symm, update_self, List.length_map,
      List.length_append] at this
    omega
  have hall : (Q (t - 1) ++ Q t).length ≤ 64 := by
    simpa using hready.nodup.length_le_card
  rw [List.length_append] at hall
  have hmoves := holds_moveQueue (p := p) (i := (k.proc p).pid) h.holds hne (by omega)
  constructor
  case proc => exact h.proc
  case ticks => exact h.ticks
  case holds =>
    intro q hq
    have hat : (min (k.proc p).pid (k'.cxj t)).toNat =
        place (eraseEach (Q t) (moved.map (index k))) (index k p) := by
      unfold place index
      rw [ShiftQueue.length_eraseEach, List.length_map]
      omega
    have hnew := hmoves q hq
    rw [hat] at hnew
    show Holds ((moveQueue k' t (t - 1) (k'.proc p).pid p).qxj q)
      ((moveQueue k' t (t - 1) (k'.proc p).pid p).cxj q) _
    rw [h.proc]
    convert hnew using 2
    by_cases h₂ : q = t
    · subst h₂
      simp only [update_self, List.map_append, ShiftQueue.eraseEach_append]
      rfl
    · simp only [update_of_ne h₂]
      by_cases h₃ : q = t - 1
      · subst h₃
        simp only [update_self, update_of_ne h₂, List.append_assoc]
      · simp only [update_of_ne h₃, update_of_ne h₂]
  case others =>
    intro x hx hxm
    have hne : (k.proc x).pid ≠ (k.proc p).pid := by
      intro he
      exact hxm (by simp [hready.distinct x p hx hu he])
    obtain ⟨hcq, hrt⟩ := h.others x hx fun hm => hxm (List.mem_append_left _ hm)
    show update k'.pstat.currentQueue (k'.proc p).pid (t - 1) (k.proc x).pid = _ ∧
      update k'.pstat.runtime (k'.proc p).pid k'.ticks (k.proc x).pid = _
    rw [h.proc, update_of_ne hne, update_of_ne hne]
    exact ⟨hcq, hrt⟩
  case moved =>
    intro x hx
    show update k'.pstat.currentQueue (k'.proc p).pid (t - 1) (k.proc x).pid = t - 1
    rw [h.proc]
    by_cases he : (k.proc x).pid = (k.proc p).pid
    · rw [he, update_self]
    · rw [update_of_ne he]
      refine h.moved x ((List.mem_append.mp hx).resolve_right fun hx => he ?_)
      rw [List.mem_singleton.mp hx]
  case overrun =>
    have h₁ : outside (k'.cxj (t - 1) + 1) = false := by simp; omega
    have h₂ : outside (k.proc p).pid = false := by simpa using hpid
    have h₃ : outside (k'.cxj t) = false := by simp; omega
    show (k'.overrun || outside (k'.cxj (t - 1) + 1) || outside (k'.proc p).pid ||
      outside (k'.proc p).pid || outside (update k'.cxj (t - 1) (k'.cxj (t - 1) + 1) t) ||
      outside (k.proc p).pid) = k.overrun
    rw [h.proc, update_of_ne hne, h₁, h₂, h₃, h.overrun]
    simp

/-- The rest of the scan. -/
theorem Passed.scan (l : List Slot) (h : Passed k k' Q t moved) (hready : Ready k Q t)
    (h₁ : 1 ≤ t) (ht : t < 5) (hnodup : (moved ++ l).Nodup) (hs : ∀ x ∈ moved, starving k t x) :
    Passed k (l.foldl (fun k p => starvePass k t p) k') Q t
      (moved ++ l.filter fun p => starving k t p) := by
  induction l generalizing k' moved with
  | nil => simpa using h
  | cons p l ih =>
    have hp : p ∉ moved := fun hm => (List.nodup_append.mp hnodup).2.2 p hm p (by simp) rfl
    have hstarving := h.starving_iff hp t
    rw [List.foldl_cons, List.filter_cons]
    by_cases hst : starving k t p
    · have hfirst : (moved ++ [p]).Nodup :=
        hnodup.sublist (List.Sublist.append_left (by simp) _)
      have hall : ∀ x ∈ moved ++ [p], starving k t x := by
        intro x hx
        rcases List.mem_append.mp hx with hx | hx
        · exact hs x hx
        · rw [List.mem_singleton.mp hx]
          exact hst
      have hstep : starvePass k' t p = (promote k' t p).index (k.proc p).pid := by
        unfold starvePass
        rw [if_neg (by rw [h.proc, hst.1]; simp), if_pos (hstarving.mpr hst), h.proc]
      rw [if_pos (by simpa using hst), hstep, List.append_cons]
      exact ih (h.up hready h₁ ht hfirst hall) (by simpa using hnodup) hall
    · rw [if_neg (by simpa using hst)]
      have hrest : (moved ++ l).Nodup := hnodup.sublist (List.Sublist.append_left (by simp) _)
      by_cases hr : (k.proc p).state = .runnable
      · have hstep : starvePass k' t p = k'.index (k.proc p).pid := by
          unfold starvePass
          rw [if_neg (by rw [h.proc, hr]; simp), if_neg (fun hc => hst (hstarving.mp hc)), h.proc]
        rw [hstep]
        exact ih (h.keep hready (by simp [hr])) hrest hs
      · have hstep : starvePass k' t p = k' := by
          unfold starvePass
          rw [if_pos (by rw [h.proc]; exact hr)]
        rw [hstep]
        exact ih h hrest hs

/-- The whole scan for queue `t`. -/
theorem passed_table (hready : Ready k Q t) (h₁ : 1 ≤ t) (ht : t < 5) :
    Passed k (passTable t k) Q t (promoted k t) := by
  have hstart : Passed k k Q t [] := by
    refine ⟨rfl, rfl, fun q hq => ?_, fun _ _ _ => ⟨rfl, rfl⟩, by simp, rfl⟩
    have := hready.holds q hq
    simpa [eraseEach] using this
  have := hstart.scan (List.finRange nproc) hready h₁ ht (by simpa using List.nodup_finRange _)
    (by simp)
  exact this

end Pass

/-- The queues after the scans for queues `1..t`. -/
def upTo (k : Kernel) (Q : Nat → List Slot) (t q : Nat) : List Slot :=
  (if 1 ≤ q ∧ q ≤ t then eraseEach (Q q) ((promoted k q).map (index k)) else Q q) ++
    if q < t then promoted k (q + 1) else []

/-- The state between two scans. -/
structure Between (k k' : Kernel) (Q : Nat → List Slot) (t : Nat) : Prop where
  proc : k'.proc = k.proc
  holds : ∀ q, q < 5 → Holds (k'.qxj q) (k'.cxj q) ((upTo k Q t q).map .proc)
  below : ∀ p u, t < u → (starving k' u p ↔ starving k u p)
  overrun : k'.overrun = k.overrun

section Whole

variable {k k' : Kernel} {Q : Nat → List Slot} {t : Nat}

theorem Between.start (hq : Queued k Q) : Between k k Q 0 := by
  refine ⟨rfl, fun q hlt => ?_, fun _ _ _ => Iff.rfl, rfl⟩
  have hnot : ¬ (1 ≤ q ∧ q ≤ 0) := by omega
  simpa only [upTo, if_neg hnot, Nat.not_lt_zero, if_false, List.append_nil] using hq.holds q hlt

theorem upTo_above (q : Nat) (h : t < q) : upTo k Q t q = Q q := by
  have h₁ : ¬ (1 ≤ q ∧ q ≤ t) := by omega
  have h₂ : ¬ q < t := by omega
  simp only [upTo, if_neg h₁, if_neg h₂, List.append_nil]

theorem upTo_self_sublist : (upTo k Q t t).Sublist (Q t) := by
  simp only [upTo, Nat.lt_irrefl, if_false, List.append_nil]
  split
  · exact ShiftQueue.eraseEach_sublist _ _
  · exact .refl _

/-- One more scan. -/
theorem upTo_succ (q : Nat) :
    update (update (upTo k Q t) t (upTo k Q t t ++ promoted k (t + 1))) (t + 1)
      (eraseEach (upTo k Q t (t + 1)) ((promoted k (t + 1)).map (index k))) q =
        upTo k Q (t + 1) q := by
  rw [upTo_above (t + 1) (by omega)]
  by_cases h₁ : q = t + 1
  · subst h₁
    simp [upTo]
  · rw [update_of_ne h₁]
    by_cases h₂ : q = t
    · subst h₂
      rw [update_self]
      simp [upTo]
    · rw [update_of_ne h₂]
      have h₃ : q ≤ t + 1 ↔ q ≤ t := by omega
      have h₄ : q < t + 1 ↔ q < t := by omega
      simp only [upTo, h₃, h₄]

theorem Between.next (h : Between k k' Q t) (hw : WellFormed k Q) (ht : t + 1 < 5) :
    Between k (passTable (t + 1) k') Q (t + 1) := by
  have hpromoted : promoted k' (t + 1) = promoted k (t + 1) :=
    List.filter_congr fun p _ => by simp only [h.below p (t + 1) (by omega)]
  have hindex : index k' = index k := by
    funext p
    simp only [index, h.proc]
  have hready : Ready k' (upTo k Q t) (t + 1) := by
    refine ⟨h.holds, fun p hs => ?_, ?_, ?_, ?_⟩
    · have hs := (h.below p (t + 1) (by omega)).mp hs
      rw [upTo_above (t + 1) (by omega)]
      exact (hw.mem (t + 1) ht p).mpr ⟨used_of_starving hs, hs.2.1⟩
    · rw [upTo_above (t + 1) (by omega), Nat.add_sub_cancel]
      refine List.Nodup.append ((hw.nodup t (by omega)).sublist upTo_self_sublist)
        (hw.nodup (t + 1) ht) fun p hp hp' => ?_
      have h₁ := ((hw.mem t (by omega) p).mp (upTo_self_sublist.subset hp)).2
      have h₂ := ((hw.mem (t + 1) ht p).mp hp').2
      omega
    · rw [h.proc]
      exact hw.pids
    · unfold PidsInj
      rw [h.proc]
      exact hw.distinct
  have hpass := passed_table hready (by omega) ht
  rw [hpromoted] at hpass
  constructor
  case proc => exact hpass.proc.trans h.proc
  case holds =>
    intro q hq
    have hnew := hpass.holds q hq
    rwa [hindex, Nat.add_sub_cancel, upTo_succ] at hnew
  case below =>
    intro p u hu
    by_cases hp : p ∈ promoted k (t + 1)
    · -- `p` was in queue `t + 1` and is in queue `t`, and `u` is neither.
      have hold := (mem_promoted.mp hp).2.1
      have hnew := hpass.moved p hp
      rw [Nat.add_sub_cancel] at hnew
      constructor
      · rintro ⟨-, hc, -⟩
        rw [hpass.proc, hnew] at hc
        omega
      · rintro ⟨-, hc, -⟩
        rw [hold] at hc
        omega
    · exact (hpass.starving_iff hp u).trans (h.below p u (by omega))
  case overrun => exact hpass.overrun.trans h.overrun

/-- The arrays after the pass, whichever entries it has deleted. -/
theorem between_starvation (hw : WellFormed k Q) : Between k (starvation k) Q 4 := by
  have h₁ := (Between.start hw.toQueued).next hw (by omega)
  have h₂ := h₁.next hw (by omega)
  have h₃ := h₂.next hw (by omega)
  have h₄ := h₃.next hw (by omega)
  simpa only [starvation, List.foldl_cons, List.foldl_nil, Nat.zero_add, Nat.reduceAdd] using h₄

end Whole

/-- The queues as they should be after the pass: each starving process stands at the
end of the queue above, everybody else where it was. -/
def intended (k : Kernel) (Q : Nat → List Slot) (q : Nat) : List Slot :=
  (if q = 0 then Q 0 else (Q q).filter fun p => p ∉ promoted k q) ++
    if q < 4 then promoted k (q + 1) else []

/-- The arrays hold certain queues. -/
def Hold (k : Kernel) (Q : Nat → List Slot) : Prop :=
  ∀ q, q < 5 → Holds (k.qxj q) (k.cxj q) ((Q q).map .proc)

/-- The entries that the pass deletes from each queue are those of the processes that
leave it. -/
def DeletesOwn (k : Kernel) (Q : Nat → List Slot) : Prop :=
  ∀ t, 1 ≤ t → t < 5 → (picked (Q t) ((promoted k t).map (index k))).Perm (promoted k t)

/-- The scheduler's steps from the start of a call to the first queue are the starvation pass.
It uses no index out of bounds, and it promotes exactly the starving processes if and only if
the entries it deletes are theirs. -/
theorem starvation_promotes_iff {k : Kernel} {Q : Nat → List Slot} (hw : WellFormed k Q) :
    Relation.ReflTransGen (Inner .mlfq) (k, .starve 1 0) (starvation k, .level 0 0) ∧
      (starvation k).overrun = k.overrun ∧
      (Hold (starvation k) (intended k Q) ↔ DeletesOwn k Q) := by
  have hafter := between_starvation hw
  refine ⟨starvation_steps k, hafter.overrun, ?_⟩
  have hproc : Function.Injective Entry.proc := fun _ _ h => Entry.proc.inj h
  have hiff : ∀ t, 1 ≤ t → t < 5 →
      (eraseEach (Q t) ((promoted k t).map (index k)) = (Q t).filter (fun p => p ∉ promoted k t) ↔
        (picked (Q t) ((promoted k t).map (index k))).Perm (promoted k t)) := by
    intro t h₁ ht
    refine ShiftQueue.eraseEach_eq_filter_iff (hw.nodup t ht) _ (nodup_promoted k t) ?_
    intro p hp
    have hs := mem_promoted.mp hp
    exact (hw.mem t ht p).mpr ⟨used_of_starving hs, hs.2.1⟩
  have heq : Hold (starvation k) (intended k Q) ↔ ∀ q, q < 5 → upTo k Q 4 q = intended k Q q := by
    constructor
    · intro h q hq
      exact hproc.list_map ((hafter.holds q hq).unique (h q hq))
    · intro h q hq
      rw [← h q hq]
      exact hafter.holds q hq
  rw [heq]
  constructor
  · intro h t h₁ ht
    have := h t ht
    have hle : t ≤ 4 := by omega
    have hne : t ≠ 0 := by omega
    rw [upTo, intended, if_pos ⟨h₁, hle⟩, if_neg hne] at this
    exact (hiff t h₁ ht).mp (List.append_cancel_right this)
  · intro h q hq
    unfold upTo intended
    by_cases h₀ : q = 0
    · subst h₀
      simp
    · have hle : 1 ≤ q ∧ q ≤ 4 := by omega
      rw [if_pos hle, if_neg h₀, (hiff q hle.1 hq).mpr (h q hle.1 hq)]

/-- The processes of a list are RUNNABLE and stand in queue `q` in its order. -/
def lineUp (q : Nat) (order : List Slot) : Kernel :=
  { zeroed with
    proc := fun p =>
      if p ∈ order then { zeroed.proc p with state := .runnable, pid := p + 1 } else zeroed.proc p
    nextpid := order.length + 1
    cxj := fun r => if r = q then order.length - 1 else -1
    qxj := fun r i => if r = q then (order.map .proc).getD i.toNat .null else .null
    pstat := { zeroed.pstat with currentQueue := fun _ => q } }

/-- The queues of that state. -/
def lined (q : Nat) (order : List Slot) (r : Nat) : List Slot := if r = q then order else []

section LineUp

variable {q : Nat} {order : List Slot} {k : Kernel}

theorem lineUp_state (p : Slot) :
    ((lineUp q order).proc p).state = if p ∈ order then .runnable else .unused := by
  by_cases hp : p ∈ order <;> simp [lineUp, zeroed, hp]

theorem lineUp_used {p : Slot} : ((lineUp q order).proc p).state ≠ .unused ↔ p ∈ order := by
  rw [lineUp_state]
  by_cases hp : p ∈ order <;> simp [hp]

theorem holds_lineUp (r : Nat) :
    Holds ((lineUp q order).qxj r) ((lineUp q order).cxj r) ((lined q order r).map .proc) := by
  by_cases hr : r = q
  · subst hr
    refine ⟨by simp [lineUp, lined], fun i hi => ?_⟩
    rw [List.getElem_eq_getD Entry.null]
    simp [lineUp, lined]
  · simpa [lineUp, lined, hr] using Holds.empty _

/-- The other counters may have any values. -/
theorem wellFormed_lineUp (hq : q < 5) (hnodup : order.Nodup) (hlt : ∀ p ∈ order, p.val < 63)
    (hlen : order.length < 64) (hproc : k.proc = (lineUp q order).proc)
    (hqxj : k.qxj = (lineUp q order).qxj) (hcxj : k.cxj = (lineUp q order).cxj)
    (hcq : k.pstat.currentQueue = fun _ => q) : WellFormed k (lined q order) := by
  have hpid : ∀ p, (k.proc p).state ≠ .unused → p ∈ order ∧ (k.proc p).pid = p.val + 1 := by
    intro p hp
    rw [hproc] at hp ⊢
    have hin := lineUp_used.mp hp
    exact ⟨hin, by simp [lineUp, hin]⟩
  refine ⟨⟨fun r _ => ?_, fun r _ => ?_, fun r _ p => ?_, fun p _ => ?_⟩, fun p hp => ?_,
    fun p p' hp hp' he => ?_, fun r _ => ?_⟩
  · rw [hqxj, hcxj]
    exact holds_lineUp r
  · unfold lined
    split
    · exact hnodup
    · exact List.nodup_nil
  · rw [hproc, lineUp_used, hcq, lined]
    by_cases hr : r = q
    · simp [hr]
    · have hne : ¬ q = r := fun he => hr he.symm
      simp [hr, hne]
  · rwa [hcq]
  · obtain ⟨hin, he⟩ := hpid p hp
    have := hlt p hin
    omega
  · have h₁ := (hpid p hp).2
    have h₂ := (hpid p' hp').2
    exact Fin.ext (by omega)
  · rw [hcxj]
    show (if r = q then (order.length : Int) - 1 else -1) < 63
    split <;> omega

end LineUp

/-- Processes 1 and 2 are in queue 1 in some order; process 1 has waited for 750 ticks,
process 2 for 50. -/
def waiting (order : List Slot) : Kernel :=
  { lineUp 1 order with
    pstat :=
      { (lineUp 1 order).pstat with runtime := fun pid => if pid = 2 then 700 else 0 }
    ticks := 750 }

theorem wellFormed_waiting {order : List Slot} (h : order = [0, 1] ∨ order = [1, 0]) :
    WellFormed (waiting order) (lined 1 order) := by
  rcases h with rfl | rfl <;>
    exact wellFormed_lineUp (by decide) (by decide) (by decide) (by decide) rfl rfl rfl rfl

/-- When process 1 stands at index 1 it is promoted and process 2 stays. -/
theorem starvation_promotes_second : WellFormed (waiting [1, 0]) (lined 1 [1, 0]) ∧
    Hold (starvation (waiting [1, 0])) (intended (waiting [1, 0]) (lined 1 [1, 0])) := by
  have hw := wellFormed_waiting (.inr rfl)
  refine ⟨hw, (starvation_promotes_iff hw).2.2.mpr ?_⟩
  unfold DeletesOwn
  decide

/-- When it stands at index 0 the entry of process 2 is deleted instead of its own. -/
theorem starvation_drops_other : ∃ k Q, WellFormed k Q ∧ ¬ Hold (starvation k) (intended k Q) := by
  have hw := wellFormed_waiting (.inl rfl)
  refine ⟨waiting [0, 1], lined 1 [0, 1], hw, fun h => ?_⟩
  have hlists := ((between_starvation hw).holds 1 (by omega)).unique (h 1 (by omega))
  have hleft : upTo (waiting [0, 1]) (lined 1 [0, 1]) 4 1 = [0] := by decide
  have hright : intended (waiting [0, 1]) (lined 1 [0, 1]) 1 = [1] := by decide
  rw [hleft, hright] at hlists
  simp at hlists

end Xv6.MlfqPromotion
