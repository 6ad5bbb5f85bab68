import Mathlib.Data.Fintype.Card
import Mathlib.Data.List.Chain
import Xv6.Selection

/-!
# Turns of processes of equal priority

The RUNNABLE processes of smallest priority number are dispatched again and again, and
nothing changes who is RUNNABLE with which priority. After a dispatch the scan goes on
behind the process that ran. If the next RUNNABLE process is one of them, it is dispatched;
if it has a larger number, the scan goes back to the first of them.
-/
namespace Xv6.PriorityShare

open ProcTable Scheduler Selection
open Fcfs (Runnable)
open Runs (Traces)

/-- The same processes are RUNNABLE, with the same priorities. -/
def Same (k k' : Kernel) : Prop := ∀ p, (Runnable k' p ↔ Runnable k p) ∧
  (Runnable k p → (k'.proc p).priority = (k.proc p).priority)

/-- Whenever the scheduler regains control the table is the same in this respect. -/
def Steady (k : Kernel) (_ : Kernel × SchedPc) : Event → Prop
  | .inside => True
  | .swtch after => Same k after
  | .again after => Same k after

/-- A RUNNABLE process of smallest priority number. -/
abbrev Top (k : Kernel) (p : Slot) : Prop := Foremost Proc.priority k p

/-- The list of processes dispatched by `priority_scheduler`, called repeatedly. -/
abbrev Dispatches (k : Kernel) (l : List Slot) (x : Kernel × SchedPc) : Prop :=
  Traces (turn .pbs) (Steady k) (fun x _ => chosen .pbs x) (k, .scan 0) l x

/-- Between two dispatches of a top process all others are dispatched. -/
def Shares (k : Kernel) : Prop := ∀ l x, Dispatches k l x →
  ∀ before p between after, l = before ++ p :: between ++ p :: after → Top k p →
    p ∉ between → ∀ q, Top k q → q ≠ p → q ∈ between

/-- A process with a larger number lies between two top processes. -/
def Parted (k : Kernel) : Prop := ∃ p r q : Slot,
  Top k p ∧ Top k q ∧ Runnable k r ∧ ¬ Top k r ∧ p < r ∧ r < q

/-! ## The next dispatch -/

/-- `q` is the first RUNNABLE process behind `p`, if that is a top one, and otherwise the
first top process. -/
def Follows (k : Kernel) (p q : Slot) : Prop :=
  Top k q ∧ ((p < q ∧ ∀ r, Runnable k r → p < r → q ≤ r) ∨
    ((∀ r, Top k r → q ≤ r) ∧ ∀ r, Top k r → p < r → ∃ r', Runnable k r' ∧ p < r' ∧ r' < r))

variable {k k' : Kernel} {p q r : Slot} {l : List Slot} {x : Kernel × SchedPc}

theorem Same.top (h : Same k k') : Top k' p ↔ Top k p := by
  constructor
  · rintro ⟨hp, hmin⟩
    have hp' := (h p).1.mp hp
    refine ⟨hp', fun q hq => ?_⟩
    rw [← (h p).2 hp', ← (h q).2 hq]
    exact hmin q ((h q).1.mpr hq)
  · rintro ⟨hp, hmin⟩
    refine ⟨(h p).1.mpr hp, fun q hq => ?_⟩
    have hq' := (h q).1.mp hq
    rw [(h p).2 hp, (h q).2 hq']
    exact hmin q hq'

/-- The inner loop stays at a top process, and finds the first one from any other. -/
theorem highP_top (hp : Runnable k p) :
    (Top k p → highP Proc.priority k p = p) ∧
      (¬ Top k p → ∀ q, Top k q → highP Proc.priority k p ≤ q) := by
  obtain ⟨hrun, hleast, hcase⟩ :=
    highP_spec Proc.priority (k := k) (m := fun p => (k.proc p).priority) (fun _ _ => Iff.rfl) p hp
  constructor
  · intro htop
    rcases hcase with heq | ⟨hlt, -⟩
    · exact heq
    · exact absurd (htop.2 _ hrun) (not_le.mpr hlt)
  · intro hnot q hq
    rcases hcase with heq | ⟨-, hfirst⟩
    · exact absurd (heq ▸ highP_foremost hp) hnot
    · exact hfirst q hq.1 (le_antisymm (hq.2 _ hrun) (hleast q hq.1))

/-- Where the scan is, after the last dispatch: it has not passed a RUNNABLE process. -/
inductive At (k : Kernel) : Option Slot → SchedPc → Prop where
  | start (i : Nat) (h : ∀ r : Slot, Runnable k r → i ≤ r.val) : At k none (.scan i)
  | back (p : Slot) : At k (some p) (.back p)
  | behind (p : Slot) (i : Nat) (hlt : p.val < i)
    (h : ∀ r : Slot, Runnable k r → p < r → i ≤ r.val) :
      At k (some p) (.scan i)
  | around (p : Slot) (i : Nat) (hnone : ∀ r, Runnable k r → ¬ p < r)
      (h : ∀ r : Slot, Runnable k r → i ≤ r.val) : At k (some p) (.scan i)

/-- The first dispatch is of the first top process. -/
theorem first_dispatch (hq : Runnable k q) (h : ∀ r : Slot, Runnable k r → q.val ≤ r.val) :
    ∀ r, Top k r → highP Proc.priority k q ≤ r := by
  obtain ⟨hstay, hfirst⟩ := highP_top hq
  by_cases htop : Top k q
  · rw [hstay htop]
    exact fun r hr => h r hr.1
  · exact hfirst htop

theorem next_dispatch (hat : At k (some p) (.scan q)) (hq : Runnable k q) :
    Follows k p (highP Proc.priority k q) := by
  obtain ⟨hstay, hfirst⟩ := highP_top hq
  refine ⟨highP_foremost hq, ?_⟩
  cases hat with
  | behind _ _ hlt h =>
    by_cases htop : Top k q
    · rw [hstay htop]
      exact .inl ⟨hlt, h⟩
    · refine .inr ⟨hfirst htop, fun r hr hpr => ⟨q, hq, hlt, ?_⟩⟩
      have hle : q.val ≤ r.val := h r hr.1 hpr
      exact lt_of_le_of_ne hle fun heq => htop (heq ▸ hr)
  | around _ _ hnone h =>
    exact .inr ⟨first_dispatch hq h, fun r hr hlt => absurd hlt (hnone r hr.1)⟩

/-- A slot that is not RUNNABLE is passed. -/
theorem At.skip {o : Option Slot} (hat : At k o (.scan q)) (hq : ¬ Runnable k q) :
    At k o (.scan (q + 1)) := by
  have hpass : ∀ r, Runnable k r → q.val ≤ r.val → q.val + 1 ≤ r.val := by
    intro r hr hle
    refine Nat.lt_of_le_of_ne hle fun heq => hq ?_
    rwa [Fin.ext heq]
  cases hat with
  | start _ h => exact .start _ fun r hr => hpass r hr (h r hr)
  | behind p _ hlt h =>
    exact .behind p _ (Nat.lt_succ_of_lt hlt) fun r hr hpr => hpass r hr (h r hr hpr)
  | around p _ hnone h => exact .around p _ hnone fun r hr => hpass r hr (h r hr)

/-- At the end of the table the next call starts from slot 0. -/
theorem At.restart {o : Option Slot} {i : Nat} (hat : At k o (.scan i)) (hi : ¬ i < nproc) :
    At k o (.scan 0) := by
  cases hat with
  | start => exact .start 0 fun r _ => Nat.zero_le _
  | behind p _ _ h =>
    refine .around p 0 (fun r hr hpr => hi ?_) fun r _ => Nat.zero_le _
    exact lt_of_le_of_lt (h r hr hpr) r.isLt
  | around p _ hnone => exact .around p 0 hnone fun r _ => Nat.zero_le _

/-! ## The list of dispatches -/

/-- Each dispatch follows the one before it, and the first is of the first top process. -/
structure Ordered (k : Kernel) (l : List Slot) (x : Kernel × SchedPc) : Prop where
  same : Same k x.1
  place : At k l.getLast? x.2
  chain : l.IsChain (Follows k)
  top : ∀ p ∈ l, Top k p
  first : ∀ p ∈ l.head?, ∀ q, Top k q → p ≤ q

theorem Same.at {o : Option Slot} {pc : SchedPc} (h : Same k k') (hat : At k o pc) :
    At k' o pc := by
  cases hat with
  | start i hi => exact .start i fun r hr => hi r ((h r).1.mp hr)
  | back p => exact .back p
  | behind p i hlt hi => exact .behind p i hlt fun r hr => hi r ((h r).1.mp hr)
  | around p i hnone hi =>
    exact .around p i (fun r hr => hnone r ((h r).1.mp hr)) fun r hr => hi r ((h r).1.mp hr)

theorem Same.follows (h : Same k k') (hf : Follows k' p q) : Follows k p q := by
  obtain ⟨htop, ⟨hlt, hnext⟩ | ⟨hfirst, hlow⟩⟩ := hf
  · exact ⟨h.top.mp htop, .inl ⟨hlt, fun r hr => hnext r ((h r).1.mpr hr)⟩⟩
  · refine ⟨h.top.mp htop, .inr ⟨fun r hr => hfirst r (h.top.mpr hr), fun r hr hlt => ?_⟩⟩
    obtain ⟨r', hr', hbetween⟩ := hlow r (h.top.mpr hr) hlt
    exact ⟨r', (h r').1.mp hr', hbetween⟩

theorem ordered_dispatch (h : Ordered k l x) (hpc : x.2 = .scan q) (hq : Runnable x.1 q)
    (hs : Same k k') :
    Ordered k (l ++ [highP Proc.priority x.1 q]) (k', .back (highP Proc.priority x.1 q)) := by
  have hplace := h.same.at h.place
  rw [hpc] at hplace
  have htop : Top k (highP Proc.priority x.1 q) := h.same.top.mp (highP_foremost hq)
  refine ⟨hs, ?_, ?_, ?_, ?_⟩
  · rw [List.getLast?_concat]
    exact .back _
  · refine List.isChain_append.mpr ⟨h.chain, List.isChain_singleton _, fun p hp p' hp' => ?_⟩
    obtain rfl : highP Proc.priority x.1 q = p' := by simpa using hp'
    rw [Option.mem_def.mp hp] at hplace
    exact h.same.follows (next_dispatch hplace hq)
  · intro p hp
    rcases List.mem_append.mp hp with hp | hp
    · exact h.top p hp
    · obtain rfl := List.mem_singleton.mp hp
      exact htop
  · intro p hp r hr
    cases l with
    | nil =>
      obtain rfl : highP Proc.priority x.1 q = p := by simpa using hp
      cases hplace with
      | start _ hi => exact first_dispatch hq hi r (h.same.top.mpr hr)
    | cons a l => exact h.first p (by simpa using hp) r hr

theorem ordered_scan {y : Kernel × SchedPc} {e : Event} {i : Nat} (h : Ordered k l (k', .scan i))
    (hok : Steady k (k', .scan i) e) (hs : turn .pbs (k', .scan i) e = some y) :
    Ordered k (l ++ (chosen .pbs (k', .scan i)).toList) y := by
  by_cases hi : i < nproc
  · obtain ⟨q, rfl⟩ : ∃ q : Slot, q.val = i := ⟨⟨i, hi⟩, rfl⟩
    by_cases hq : Runnable k' q
    · rw [chosen, priority_step hq]
      rw [turn.eq_def, priority_step hq] at hs
      cases e with
      | swtch after =>
        obtain rfl := Option.some.inj hs
        exact ordered_dispatch h rfl hq hok
      | inside | again after => cases hs
    · rw [chosen, priority_skip hq, Option.toList_none, List.append_nil]
      rw [turn.eq_def, priority_skip hq] at hs
      cases e with
      | inside =>
        obtain rfl := Option.some.inj hs
        have hq' : ¬ Runnable k q := fun hr => hq ((h.same q).1.mpr hr)
        exact ⟨h.same, h.place.skip hq', h.chain, h.top, h.first⟩
      | swtch after | again after => cases hs
  · rw [chosen, scan_end i hi, Option.toList_none, List.append_nil]
    rw [turn.eq_def, scan_end i hi] at hs
    cases e with
    | again after =>
      obtain rfl := Option.some.inj hs
      exact ⟨hok, h.place.restart hi, h.chain, h.top, h.first⟩
    | inside | swtch after => cases hs

theorem ordered_step {y : Kernel × SchedPc} {e : Event} (h : Ordered k l x) (hok : Steady k x e)
    (hs : turn .pbs x e = some y) : Ordered k (l ++ (chosen .pbs x).toList) y := by
  obtain ⟨k', pc⟩ := x
  have hplace : At k l.getLast? pc := h.place
  generalize ho : l.getLast? = o at hplace
  cases hplace with
  | start i | behind _ i | around _ i => exact ordered_scan h hok hs
  | back p =>
    cases e with
    | inside =>
      obtain rfl := Option.some.inj hs
      refine ⟨h.same, ?_, ?_, ?_, ?_⟩ <;> rw [show chosen .pbs (k', .back p) = none from rfl,
        Option.toList_none, List.append_nil]
      · rw [ho]
        exact .behind p _ (Nat.lt_succ_self _) fun r _ hpr => hpr
      · exact h.chain
      · exact h.top
      · exact h.first
    | swtch after | again after => cases hs

theorem ordered_dispatches (h : Dispatches k l x) : Ordered k l x := by
  refine Traces.invariant (P := Ordered k) h
    ⟨fun p => ⟨Iff.rfl, fun _ => rfl⟩, ?_, ?_, nofun, nofun⟩
    fun l x e y hx hok hs => ordered_step hx hok hs
  · exact .start 0 fun r _ => Nat.zero_le _
  · exact .nil

/-! ## Turns without a process in between -/

theorem no_top_behind (hpart : ¬ Parted k) (hp : Top k p)
    (hlow : ∀ r, Top k r → p < r → ∃ r', Runnable k r' ∧ p < r' ∧ r' < r) (q : Slot)
    (hq : Top k q) :
    ¬ p < q := by
  induction q using WellFoundedLT.induction with
  | ind q ih =>
    intro hpq
    obtain ⟨r, hr, hpr, hrq⟩ := hlow q hq hpq
    by_cases htop : Top k r
    · exact ih r hrq htop hpr
    · exact hpart ⟨p, r, q, hp, hq, hr, htop, hpr, hrq⟩

/-- When no other process lies between them, the top processes follow each other in the
order of the table, and the first follows the last. -/
theorem follows_next (hpart : ¬ Parted k) (hp : Top k p) (h : Follows k p r) :
    (∀ q, Top k q → p < q → p < r ∧ r ≤ q) ∧ (r ≤ p → ∀ q, Top k q → r ≤ q) := by
  obtain ⟨hr, ⟨hlt, hnext⟩ | ⟨hfirst, hlow⟩⟩ := h
  · exact ⟨fun q hq hpq => ⟨hlt, hnext q hq.1 hpq⟩, fun hle => absurd hlt (not_lt.mpr hle)⟩
  · exact ⟨fun q hq hpq => absurd hpq (no_top_behind hpart hp hlow q hq), fun _ => hfirst⟩

/-- The dispatches from `s` on pass `q` before they come back behind it. -/
theorem passes (hpart : ¬ Parted k) (hq : Top k q) {s : Slot} (hs : Top k s)
    (h : (s :: l ++ [p]).IsChain (Follows k)) (hsq : s < q) (hp : p ≤ s ∨ q < p) : q ∈ l := by
  induction l generalizing s with
  | nil =>
    obtain ⟨hsp, hpq⟩ := (follows_next hpart hs (List.isChain_cons_cons.mp h).1).1 q hq hsq
    rcases hp with hp | hp
    · exact absurd hsp (not_lt.mpr hp)
    · exact absurd hp (not_lt.mpr hpq)
  | cons a l ih =>
    obtain ⟨hfollows, hrest⟩ := List.isChain_cons_cons.mp h
    obtain ⟨hsa, haq⟩ := (follows_next hpart hs hfollows).1 q hq hsq
    rcases haq.eq_or_lt with rfl | haq
    · exact List.mem_cons_self
    · exact List.mem_cons_of_mem a
        (ih hfollows.1 hrest haq (hp.imp_left fun hps => hps.trans hsa.le))

/-- They come to the first top process and pass `q` before they come back to `p`. -/
theorem comes_round (hpart : ¬ Parted k) (hq : Top k q) {s : Slot} (hs : Top k s)
    (h : (s :: l ++ [p]).IsChain (Follows k)) (hqp : q < p) (hps : p ≤ s) : q ∈ l := by
  induction l generalizing s with
  | nil =>
    have hfirst := (follows_next hpart hs (List.isChain_cons_cons.mp h).1).2 hps q hq
    exact absurd hqp (not_lt.mpr hfirst)
  | cons a l ih =>
    obtain ⟨hfollows, hrest⟩ := List.isChain_cons_cons.mp h
    by_cases has : a ≤ s
    · have hfirst := (follows_next hpart hs hfollows).2 has q hq
      rcases hfirst.eq_or_lt with rfl | haq
      · exact List.mem_cons_self
      · exact List.mem_cons_of_mem a (passes hpart hq hfollows.1 hrest haq (.inr hqp))
    · exact List.mem_cons_of_mem a (ih hfollows.1 hrest (hps.trans (not_le.mp has).le))

theorem shares_of_not_parted (hpart : ¬ Parted k) : Shares k := by
  rintro l x hl before p between after rfl hp - q hq hne
  have hchain := (ordered_dispatches hl).chain
  have hmid : (p :: between ++ [p]).IsChain (Follows k) := by
    have hsplit : before ++ p :: between ++ p :: after =
      before ++ ((p :: between ++ [p]) ++ after) := by simp
    rw [hsplit] at hchain
    exact (List.isChain_append.mp (List.isChain_append.mp hchain).2.1).1
  rcases lt_or_gt_of_ne hne with hlt | hgt
  · exact comes_round hpart hq hp hmid hlt le_rfl
  · exact passes hpart hq hp hmid hgt (.inl le_rfl)

/-! ## A process in between -/

theorem same_refl (k : Kernel) : Same k k := fun _ => ⟨Iff.rfl, fun _ => rfl⟩

/-- The scan comes to a RUNNABLE slot, or to the end of the table if there is none. -/
theorem scan_to {i : Nat} (d : Nat) (h : Dispatches k l (k', .scan i)) (hi : i + d = nproc) :
    (∃ q : Slot, Runnable k' q ∧ Dispatches k l (k', .scan q)) ∨
      (Dispatches k l (k', .scan nproc) ∧ ∀ r : Slot, Runnable k' r → r.val < i) := by
  induction d generalizing i with
  | zero => exact .inr ⟨hi ▸ h, fun r _ => by omega⟩
  | succ d ih =>
    obtain ⟨q, rfl⟩ : ∃ q : Slot, q.val = i := ⟨⟨i, by omega⟩, rfl⟩
    by_cases hq : Runnable k' q
    · exact .inl ⟨q, hq, h⟩
    · have hnone : chosen .pbs (k', .scan q) = none := by rw [chosen, priority_skip hq]
      have hstep : turn .pbs (k', .scan q) .inside = some (k', .scan (q + 1)) := by
        rw [turn, priority_skip hq]
      have hok : Steady k (k', .scan q) .inside := trivial
      have hnext := Traces.tail h hok hstep
      rw [hnone, Option.toList_none, List.append_nil] at hnext
      rcases ih hnext (by omega) with hfound | ⟨hend, hlow⟩
      · exact .inl hfound
      · refine .inr
          ⟨hend, fun r hr => lt_of_le_of_ne (Nat.lt_succ_iff.mp (hlow r hr)) fun heq => hq ?_⟩
        rwa [← Fin.ext heq]

theorem dispatch_at (h : Dispatches k l (k', .scan q)) (hq : Runnable k' q) :
    ∃ p y, Dispatches k (l ++ [p]) y := by
  have hstep : turn .pbs (k', .scan q) (.swtch k) = some (k, .back (highP Proc.priority k' q)) := by
    rw [turn, priority_step hq]
  have hok : Steady k (k', .scan q) (.swtch k) := same_refl k
  have hnext := Traces.tail h hok hstep
  rw [chosen, priority_step hq] at hnext
  exact ⟨_, _, hnext⟩

/-- The next call of the scheduler dispatches a process. -/
theorem dispatch_restart {i : Nat} (hk : Runnable k p) (h : Dispatches k l (k', .scan i))
    (hi : ¬ i < nproc) :
    ∃ p y, Dispatches k (l ++ [p]) y := by
  have hnone : chosen .pbs (k', .scan i) = none := by rw [chosen, scan_end i hi]
  have hstep : turn .pbs (k', .scan i) (.again k) = some (k, .scan 0) := by
    rw [turn, scan_end i hi]
    rfl
  have hok : Steady k (k', .scan i) (.again k) := same_refl k
  have hnext := Traces.tail h hok hstep
  rw [hnone, Option.toList_none, List.append_nil] at hnext
  rcases scan_to nproc hnext (Nat.zero_add _) with ⟨q, hq, hscan⟩ | ⟨-, hlow⟩
  · exact dispatch_at hscan hq
  · exact absurd (hlow p hk) (Nat.not_lt_zero _)

theorem dispatch_scan {i : Nat} (hk : Runnable k p) (h : Dispatches k l (k', .scan i)) :
    ∃ p y, Dispatches k (l ++ [p]) y := by
  by_cases hi : i < nproc
  · rcases scan_to (nproc - i) h (by omega) with ⟨q, hq, hscan⟩ | ⟨hend, -⟩
    · exact dispatch_at hscan hq
    · exact dispatch_restart hk hend (Nat.lt_irrefl _)
  · exact dispatch_restart hk h hi

theorem dispatch_more (hk : Runnable k p) (h : Dispatches k l x) :
    ∃ p y, Dispatches k (l ++ [p]) y := by
  obtain ⟨k', pc⟩ := x
  have hplace : At k l.getLast? pc := (ordered_dispatches h).place
  generalize l.getLast? = o at hplace
  cases hplace with
  | start i | behind _ i | around _ i => exact dispatch_scan hk h
  | back q =>
    have hok : Steady k (k', .back q) .inside := trivial
    have hstep : turn .pbs (k', .back q) .inside = some (k', .scan (q + 1)) := rfl
    have hnext := Traces.tail h hok hstep
    rw [show chosen .pbs (k', .back q) = none from rfl,
      Option.toList_none, List.append_nil] at hnext
    exact dispatch_scan hk hnext

theorem dispatch_many (hk : Runnable k p) (n : Nat) : ∃ l x, Dispatches k l x ∧ l.length = n := by
  induction n with
  | zero => exact ⟨[], _, .refl, rfl⟩
  | succ n ih =>
    obtain ⟨l, x, h, hl⟩ := ih
    obtain ⟨q, y, hmore⟩ := dispatch_more hk h
    exact ⟨l ++ [q], y, hmore, by simp [hl]⟩

/-- A RUNNABLE process that is not a top one keeps the dispatches before it. -/
theorem dispatches_before (hp : Top k p) (hr : Runnable k r) (hnot : ¬ Top k r) (hpr : p < r)
    (h : Ordered k l x) : ∀ q ∈ l, q < r := by
  have hfollows : ∀ s t, s < r → Follows k s t → t < r := by
    rintro s t hs ⟨ht, ⟨-, hnext⟩ | ⟨hfirst, -⟩⟩
    · exact lt_of_le_of_ne (hnext r hr hs) fun heq => hnot (heq ▸ ht)
    · exact lt_of_le_of_lt (hfirst p hp) hpr
  cases l with
  | nil => exact nofun
  | cons a l =>
    have ha : a < r := lt_of_le_of_lt (h.first a rfl p hp) hpr
    have hall :=
      List.IsChain.induction (· < r) _ h.chain (fun s t hst hs => hfollows s t hs hst) fun _ => ha
    exact hall

theorem exists_repeat {α : Type} [DecidableEq α] {l : List α} (h : ¬ l.Nodup) :
    ∃ before p between after, l = before ++ p :: between ++ p :: after ∧ p ∉ between := by
  induction l with
  | nil => exact absurd List.nodup_nil h
  | cons a l ih =>
    by_cases ha : a ∈ l
    · obtain ⟨between, after, rfl, hnot⟩ := List.eq_append_cons_of_mem ha
      exact ⟨[], a, between, after, rfl, hnot⟩
    · obtain ⟨before, p, between, after, rfl, hnot⟩ := ih fun hl => h (List.nodup_cons.mpr ⟨ha, hl⟩)
      exact ⟨a :: before, p, between, after, rfl, hnot⟩

theorem not_shares_of_parted (h : Parted k) : ¬ Shares k := by
  obtain ⟨p, r, q, hp, hq, hr, hnot, hpr, hrq⟩ := h
  intro hshares
  obtain ⟨l, x, hl, hlen⟩ := dispatch_many hp.1 (nproc + 1)
  have hord := ordered_dispatches hl
  have hbefore := dispatches_before hp hr hnot hpr hord
  have hdup : ¬ l.Nodup := by
    intro hnodup
    have hle := List.Nodup.length_le_card hnodup
    rw [hlen, Fintype.card_fin] at hle
    exact absurd hle (Nat.not_succ_le_self _)
  obtain ⟨before, s, between, after, rfl, hs⟩ := exists_repeat hdup
  have hstop : Top k s := hord.top s (by simp)
  have hsr : s < r := hbefore s (by simp)
  have hmem : q ∈ between :=
    hshares _ x hl before s between after rfl hstop hs q hq fun heq => absurd
      (hrq.trans (heq ▸ hsr)) (lt_irrefl _)
  exact absurd (hbefore q (by simp [hmem])) (not_lt.mpr hrq.le)

/-- Processes of smallest priority number take turns exactly when no RUNNABLE process of a
larger number lies between two of them in the table. -/
theorem shares_iff_not_parted (k : Kernel) : Shares k ↔ ¬ Parted k :=
  ⟨fun h hpart => not_shares_of_parted hpart h, shares_of_not_parted⟩

/-- Three RUNNABLE processes; the one in the middle has a larger priority number. -/
def middleLow : Kernel :=
  { zeroed with
    proc := fun p =>
      { zeroed.proc p with
        state := if p ≤ 2 then .runnable else .unused
        pid := if p ≤ 2 then p.val + 1 else 0
        priority := if p = 1 then 20 else 10 }
    nextpid := 4
    initproc := some 0 }

theorem middleLow_top :
    Top middleLow 0 ∧ Top middleLow 2 ∧ Runnable middleLow 1 ∧ ¬ Top middleLow 1 := by
  have hmin : ∀ q, (10 : Int) ≤ (middleLow.proc q).priority := by
    intro q
    change (10 : Int) ≤ if q = 1 then 20 else 10
    split <;> decide
  exact ⟨⟨rfl, fun q _ => hmin q⟩, ⟨rfl, fun q _ => hmin q⟩, rfl,
    fun h => absurd (h.2 0 rfl) (by decide)⟩

/-- Slot 0 runs again and again, and slot 2 never. -/
theorem middleLow_not_shares : ¬ Shares middleLow := by
  obtain ⟨h0, h2, h1, hnot⟩ := middleLow_top
  exact not_shares_of_parted ⟨0, 1, 2, h0, h2, h1, hnot, by decide, by decide⟩

end Xv6.PriorityShare
