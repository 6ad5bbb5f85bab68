import Mathlib.Order.Lattice
import Mathlib.Data.List.Pairwise
import Mathlib.Tactic.Tauto

/-!
# Lists of intervals

Half-open intervals of a linear order, in a list from left to right. `merge` puts one more
into the list and joins it with those that it touches, so that a list in which no two
intervals touch stays so.
-/
namespace Xv6.Intervals

variable {α : Type} [LinearOrder α]

@[ext] structure Extent (α : Type) where
  lo : α
  hi : α
  deriving DecidableEq

instance : Membership α (Extent α) := ⟨fun b x => b.lo ≤ x ∧ x < b.hi⟩

theorem mem_def {b : Extent α} {x : α} : x ∈ b ↔ b.lo ≤ x ∧ x < b.hi := Iff.rfl

/-- No point is in both. -/
def Apart (a b : Extent α) : Prop := a.hi ≤ b.lo ∨ b.hi ≤ a.lo

/-- A point is in one of them. -/
def Covers (l : List (Extent α)) (x : α) : Prop := ∃ b ∈ l, x ∈ b

/-- From left to right, with a gap behind each. -/
def Separated (l : List (Extent α)) : Prop := l.Pairwise fun a b => a.hi < b.lo

/-- How far an interval reaches that ends at `z` before the list, and what is behind it. -/
def absorb (z : α) : List (Extent α) → α × List (Extent α)
  | [] => (z, [])
  | c :: l => if z = c.lo then (c.hi, l) else (z, c :: l)

/-- A first interval is joined with the next if they touch. -/
def joinNext (b : Extent α) (l : List (Extent α)) : List (Extent α) :=
  ⟨b.lo, (absorb b.hi l).1⟩ :: (absorb b.hi l).2

def merge (b : Extent α) : List (Extent α) → List (Extent α)
  | [] => [b]
  | c :: l =>
    if b.lo < c.lo then joinNext b (c :: l)
    else if c.hi = b.lo then joinNext ⟨c.lo, b.hi⟩ l
    else c :: merge b l

variable {a b c : Extent α} {l l' X Y : List (Extent α)} {x : α}

theorem Apart.symm (h : Apart a b) : Apart b a := Or.symm h

theorem Apart.not_mem (h : Apart a b) (hx : x ∈ a) : x ∉ b := by
  intro hx'
  rw [mem_def] at hx hx'
  rcases h with h | h
  · exact absurd (hx.2.trans_le (h.trans hx'.1)) (lt_irrefl x)
  · exact absurd (hx'.2.trans_le (h.trans hx.1)) (lt_irrefl x)

/-- Intervals with points are apart if they have none in common. -/
theorem apart_of_disjoint (ha : a.lo < a.hi) (hb : b.lo < b.hi) (h : ∀ x, x ∈ a → x ∉ b) :
    Apart a b := by
  by_contra hnot
  rw [Apart, not_or, not_le, not_le] at hnot
  exact h (max a.lo b.lo) ⟨le_max_left .., max_lt ha hnot.1⟩ ⟨le_max_right .., max_lt hnot.2 hb⟩

instance : Std.Symm (fun a b : Extent α => Apart a b) := ⟨fun _ _ h => h.symm⟩

@[simp] theorem covers_nil : ¬ Covers ([] : List (Extent α)) x :=
  fun ⟨_, hb, _⟩ => (List.not_mem_nil hb)

@[simp] theorem covers_cons : Covers (b :: l) x ↔ x ∈ b ∨ Covers l x := by
  simp [Covers]

@[simp] theorem covers_append : Covers (l ++ l') x ↔ Covers l x ∨ Covers l' x := by
  simp only [Covers, List.mem_append]
  constructor
  · rintro ⟨b, h | h, hx⟩
    · exact .inl ⟨b, h, hx⟩
    · exact .inr ⟨b, h, hx⟩
  · rintro (⟨b, h, hx⟩ | ⟨b, h, hx⟩)
    · exact ⟨b, .inl h, hx⟩
    · exact ⟨b, .inr h, hx⟩

/-- Two intervals that touch are one. -/
theorem mem_join (h : a.hi = b.lo) (ha : a.lo ≤ a.hi) (hb : b.lo ≤ b.hi) :
    x ∈ (⟨a.lo, b.hi⟩ : Extent α) ↔ x ∈ a ∨ x ∈ b := by
  simp only [mem_def]
  constructor
  · rintro ⟨hlo, hhi⟩
    rcases lt_or_ge x a.hi with hx | hx
    · exact .inl ⟨hlo, hx⟩
    · exact .inr ⟨h ▸ hx, hhi⟩
  · rintro (⟨hlo, hhi⟩ | ⟨hlo, hhi⟩)
    · exact ⟨hlo, hhi.trans_le (h ▸ hb)⟩
    · exact ⟨(ha.trans h.le).trans hlo, hhi⟩

theorem covers_joinNext (hb : b.lo ≤ b.hi) (hl : ∀ c ∈ l, c.lo ≤ c.hi) :
    Covers (joinNext b l) x ↔ x ∈ b ∨ Covers l x := by
  cases l with
  | nil => simp [joinNext, absorb]
  | cons c l =>
    rw [joinNext, absorb]
    split
    next htouch =>
      rw [covers_cons, covers_cons, mem_join htouch hb (hl c List.mem_cons_self), or_assoc]
    next => rw [covers_cons]

theorem covers_merge (hb : b.lo ≤ b.hi) (hl : ∀ c ∈ l, c.lo ≤ c.hi) :
    Covers (merge b l) x ↔ x ∈ b ∨ Covers l x := by
  induction l with
  | nil => simp [merge]
  | cons c l ih =>
    have hc := hl c List.mem_cons_self
    have hl' : ∀ c ∈ l, c.lo ≤ c.hi := fun c hmem => hl c (List.mem_cons_of_mem _ hmem)
    rw [merge]
    split
    next => exact covers_joinNext hb hl
    next =>
      split
      next htouch =>
        have hjoin : c.lo ≤ b.hi := (hc.trans htouch.le).trans hb
        rw [covers_joinNext hjoin hl', mem_join htouch hc hb, covers_cons]
        tauto
      next =>
        rw [covers_cons, covers_cons, ih hl']
        tauto

theorem separated_joinNext (hl : Separated l) (hb : ∀ c ∈ l, b.hi ≤ c.lo)
    (hpos : ∀ c ∈ l, c.lo < c.hi) :
    Separated (joinNext b l) := by
  cases l with
  | nil => exact List.pairwise_singleton ..
  | cons c l =>
    obtain ⟨hfirst, hrest⟩ := List.pairwise_cons.mp hl
    rw [joinNext, absorb]
    split
    next => exact List.pairwise_cons.mpr ⟨hfirst, hrest⟩
    next hne =>
      have hlt : b.hi < c.lo := lt_of_le_of_ne (hb c List.mem_cons_self) hne
      refine List.pairwise_cons.mpr ⟨fun d hd => ?_, hl⟩
      rcases List.mem_cons.mp hd with rfl | hd
      · exact hlt
      · exact (hlt.trans (hpos c List.mem_cons_self)).trans (hfirst d hd)

/-- The bounds of the new list are bounds that were there. -/
theorem forall_joinNext {P Q : α → Prop} (hb : P b.lo ∧ Q b.hi) (hl : ∀ c ∈ l, P c.lo ∧ Q c.hi) :
    ∀ c ∈ joinNext b l, P c.lo ∧ Q c.hi := by
  cases l with
  | nil => simpa [joinNext, absorb] using hb
  | cons d l =>
    intro c hc
    rw [joinNext, absorb] at hc
    split at hc
    · rcases List.mem_cons.mp hc with rfl | hc
      · exact ⟨hb.1, (hl d List.mem_cons_self).2⟩
      · exact hl c (List.mem_cons_of_mem _ hc)
    · rcases List.mem_cons.mp hc with rfl | hc
      · exact hb
      · exact hl c hc

theorem forall_merge {P Q : α → Prop} (hb : P b.lo ∧ Q b.hi) (hl : ∀ c ∈ l, P c.lo ∧ Q c.hi) :
    ∀ c ∈ merge b l, P c.lo ∧ Q c.hi := by
  induction l with
  | nil => simpa [merge] using hb
  | cons d l ih =>
    have hd := hl d List.mem_cons_self
    have hl' : ∀ c ∈ l, P c.lo ∧ Q c.hi := fun c hmem => hl c (List.mem_cons_of_mem _ hmem)
    intro c hc
    rw [merge] at hc
    split at hc
    · exact forall_joinNext hb hl c hc
    · split at hc
      · exact forall_joinNext (b := ⟨d.lo, b.hi⟩) ⟨hd.1, hb.2⟩ hl' c hc
      · rcases List.mem_cons.mp hc with rfl | hc
        · exact hd
        · exact ih hl' c hc

/-- No two intervals touch after an insertion. -/
theorem separated_merge (hl : Separated l) (hb : b.lo < b.hi) (hpos : ∀ c ∈ l, c.lo < c.hi)
    (hapart : ∀ c ∈ l, Apart b c) : Separated (merge b l) := by
  induction l with
  | nil => exact List.pairwise_singleton ..
  | cons c l ih =>
    obtain ⟨hfirst, hrest⟩ := List.pairwise_cons.mp hl
    have hc := hpos c List.mem_cons_self
    have hpos' : ∀ d ∈ l, d.lo < d.hi := fun d hd => hpos d (List.mem_cons_of_mem _ hd)
    have hapart' : ∀ d ∈ l, Apart b d := fun d hd => hapart d (List.mem_cons_of_mem _ hd)
    rw [merge]
    split
    next hlt =>
      have hbc : b.hi ≤ c.lo := by
        rcases hapart c List.mem_cons_self with h | h
        · exact h
        · exact absurd (hc.trans_le h) (not_lt.mpr hlt.le)
      refine separated_joinNext hl (fun d hd => ?_) hpos
      rcases List.mem_cons.mp hd with rfl | hd
      · exact hbc
      · exact (hbc.trans hc.le).trans (hfirst d hd).le
    next hge =>
      have hcb : c.hi ≤ b.lo := by
        rcases hapart c List.mem_cons_self with h | h
        · exact absurd (hb.trans_le h) hge
        · exact h
      split
      next htouch =>
        refine separated_joinNext hrest (fun d hd => ?_) hpos'
        rcases hapart' d hd with h | h
        · exact h
        · exact absurd ((hpos' d hd).trans_le h) (not_lt.mpr (htouch ▸ hfirst d hd).le)
      next hne =>
        refine List.pairwise_cons.mpr ⟨?_, ih hrest hpos' hapart'⟩
        have hlt :=
          forall_merge (P := (c.hi < ·)) (Q := fun _ => True) ⟨lt_of_le_of_ne hcb hne, trivial⟩
          fun d hd => ⟨hfirst d hd, trivial⟩
        exact fun d hd => (hlt d hd).1

theorem absorb_subset {z : α} : (absorb z l).2 ⊆ l := by
  cases l with
  | nil => exact List.Subset.refl _
  | cons c l =>
    rw [absorb]
    split
    · exact List.subset_cons_self ..
    · exact List.Subset.refl _

theorem absorb_le {z y : α} (hz : z ≤ y) (hl : ∀ c ∈ l, c.hi ≤ y) : (absorb z l).1 ≤ y := by
  cases l with
  | nil => exact hz
  | cons c l =>
    rw [absorb]
    split
    · exact hl c List.mem_cons_self
    · exact hz

theorem mem_absorb {z : α} (hc : c ∈ l) (hne : c.lo ≠ z) : c ∈ (absorb z l).2 := by
  cases l with
  | nil => cases hc
  | cons d l =>
    rw [absorb]
    split
    next heq =>
      rcases List.mem_cons.mp hc with rfl | hc
      · exact absurd heq.symm hne
      · exact hc
    next => exact hc

/-- A point at which an earlier interval begins stays one. -/
theorem lo_mem_merge (hb : b.lo ≤ b.hi) (hc : c ∈ l) (hlt : c.lo < b.lo) :
    c.lo ∈ (merge b l).map Extent.lo := by
  induction l with
  | nil => cases hc
  | cons d l ih =>
    have hne : c.lo ≠ b.hi := (hlt.trans_le hb).ne
    rw [merge]
    split
    · exact List.mem_cons_of_mem _ (List.mem_map_of_mem (mem_absorb hc hne))
    · split
      · rcases List.mem_cons.mp hc with rfl | hc
        · exact List.mem_cons_self
        · exact List.mem_cons_of_mem _ (List.mem_map_of_mem (mem_absorb hc hne))
      · rcases List.mem_cons.mp hc with rfl | hc
        · exact List.mem_cons_self
        · exact List.mem_cons_of_mem _ (ih hc)

theorem length_joinNext_le : (joinNext b l).length ≤ l.length + 1 := by
  have hle : (absorb b.hi l).2.length ≤ l.length := by
    cases l with
    | nil => exact le_rfl
    | cons c l =>
      rw [absorb]
      split
      · exact Nat.le_succ _
      · exact le_rfl
  exact Nat.succ_le_succ hle

theorem length_merge_le : (merge b l).length ≤ l.length + 1 := by
  induction l with
  | nil => exact le_rfl
  | cons c l ih =>
    rw [merge]
    split
    · exact length_joinNext_le
    · split
      · exact length_joinNext_le.trans (Nat.le_succ _)
      · exact Nat.succ_le_succ ih

/-- What is inserted is a part of one interval of the list. -/
theorem exists_joinNext (hl : ∀ c ∈ l, c.lo ≤ c.hi) :
    ∃ c ∈ joinNext b l, c.lo = b.lo ∧ b.hi ≤ c.hi := by
  refine ⟨_, List.mem_cons_self, rfl, ?_⟩
  cases l with
  | nil => exact le_rfl
  | cons c l =>
    rw [absorb]
    split
    next heq => exact heq.le.trans (hl c List.mem_cons_self)
    next => exact le_rfl

theorem exists_merge (hl : ∀ c ∈ l, c.lo ≤ c.hi) : ∃ c ∈ merge b l, c.lo ≤ b.lo ∧ b.hi ≤ c.hi := by
  induction l with
  | nil => exact ⟨b, List.mem_singleton_self b, le_rfl, le_rfl⟩
  | cons d l ih =>
    have hl' : ∀ c ∈ l, c.lo ≤ c.hi := fun c hc => hl c (List.mem_cons_of_mem _ hc)
    rw [merge]
    split
    · obtain ⟨c, hc, hlo, hhi⟩ := exists_joinNext (b := b) hl
      exact ⟨c, hc, hlo.le, hhi⟩
    next hge =>
      split
      · obtain ⟨c, hc, hlo, hhi⟩ := exists_joinNext (b := ⟨d.lo, b.hi⟩) hl'
        exact ⟨c, hc, hlo.le.trans (not_lt.mp hge), hhi⟩
      · obtain ⟨c, hc, hlo, hhi⟩ := ih hl'
        exact ⟨c, List.mem_cons_of_mem _ hc, hlo, hhi⟩

theorem pos_joinNext (hb : b.lo < b.hi) (hl : ∀ c ∈ l, c.lo < c.hi) :
    ∀ c ∈ joinNext b l, c.lo < c.hi := by
  intro c hc
  rcases List.mem_cons.mp hc with rfl | hc
  · cases l with
    | nil => exact hb
    | cons d l =>
      rw [absorb]
      split
      next heq => exact hb.trans (heq ▸ hl d List.mem_cons_self)
      next => exact hb
  · exact hl c (absorb_subset hc)

theorem pos_merge (hb : b.lo < b.hi) (hl : ∀ c ∈ l, c.lo < c.hi) :
    ∀ c ∈ merge b l, c.lo < c.hi := by
  induction l with
  | nil => simpa [merge] using hb
  | cons d l ih =>
    have hl' : ∀ c ∈ l, c.lo < c.hi := fun c hc => hl c (List.mem_cons_of_mem _ hc)
    have hd := hl d List.mem_cons_self
    intro c hc
    rw [merge] at hc
    split at hc
    · exact pos_joinNext hb hl c hc
    · split at hc
      next htouch => exact pos_joinNext (b := ⟨d.lo, b.hi⟩) ((hd.trans_eq htouch).trans hb) hl' c hc
      next =>
        rcases List.mem_cons.mp hc with rfl | hc
        · exact hd
        · exact ih hl' c hc

/-! ## Insertion between two parts -/

theorem merge_append (h : ∀ c ∈ X, c.lo < b.lo ∧ c.hi < b.lo) :
    merge b (X ++ l) = X ++ merge b l := by
  induction X with
  | nil => rfl
  | cons c X ih =>
    obtain ⟨hlo, hhi⟩ := h c List.mem_cons_self
    rw [List.cons_append, merge, if_neg (not_lt.mpr hlo.le), if_neg hhi.ne,
      ih fun d hd => h d (List.mem_cons_of_mem _ hd), List.cons_append]

theorem merge_before (h : ∀ c ∈ Y, b.lo < c.lo) : merge b Y = joinNext b Y := by
  cases Y with
  | nil => rfl
  | cons c Y => rw [merge, if_pos (h c List.mem_cons_self)]

theorem merge_touch (hlo : c.lo < b.lo) (htouch : c.hi = b.lo) :
    merge b (c :: Y) = joinNext ⟨c.lo, b.hi⟩ Y := by
  rw [merge, if_neg (not_lt.mpr hlo.le), if_pos htouch]

/-! ## Cutting off the end -/

/-- `n` is cut off the end of an interval, which goes if nothing is left. -/
def shrink (b : Extent Nat) (n : Nat) : List (Extent Nat) :=
  if b.lo + n = b.hi then [] else [⟨b.lo, b.hi - n⟩]

theorem covers_shrink {b : Extent Nat} {n x : Nat} (h : b.lo + n ≤ b.hi) :
    Covers (shrink b n) x ∨ x ∈ (⟨b.hi - n, b.hi⟩ : Extent Nat) ↔ x ∈ b := by
  unfold shrink
  split
  · simp only [covers_nil, false_or, mem_def]
    omega
  · simp only [covers_cons, covers_nil, or_false, mem_def]
    omega

theorem mem_shrink {b c : Extent Nat} {n : Nat} (h : b.lo + n ≤ b.hi) (hc : c ∈ shrink b n) :
    c.lo = b.lo ∧ c.hi = b.hi - n ∧ c.lo < c.hi := by
  unfold shrink at hc
  split at hc
  · cases hc
  · rw [List.mem_singleton.mp hc]
    exact ⟨rfl, rfl, by dsimp only; omega⟩

end Xv6.Intervals
