import Mathlib.Data.List.Nodup
import Mathlib.Data.List.Perm.Subperm

/-!
# Queues kept in an array and shifted by hand

An array with an index of its last used cell, minus one when it is empty, holds
a list. Deleting an entry moves every later cell down by one; deleting at an
index past the end removes the last entry instead.
-/
namespace Xv6.ShiftQueue

open Function (update)

variable {α : Type}

/-- `n` iterations of `for (j = i; ...; j++) a[j] = a[j + 1]`. -/
def shift (a : Int → α) (i : Int) : Nat → Int → α
  | 0 => a
  | n + 1 => update (shift a i n) (i + n) (shift a i n (i + n + 1))

theorem shift_apply (a : Int → α) (i : Int) (n : Nat) (j : Int) :
    shift a i n j = if i ≤ j ∧ j < i + n then a (j + 1) else a j := by
  induction n generalizing j with
  | zero =>
    have h : ¬ (i ≤ j ∧ j < i + (0 : Nat)) := by omega
    rw [if_neg h]
    rfl
  | succ n ih =>
    by_cases hj : j = i + n
    · subst hj
      have h₁ : ¬ (i ≤ i + n + 1 ∧ i + n + 1 < i + (n : Int)) := by omega
      have h₂ : i ≤ i + (n : Int) ∧ i + (n : Int) < i + (n + 1 : Nat) := by omega
      simp only [shift, Function.update_self, ih, if_neg h₁, if_pos h₂]
    · have h : (i ≤ j ∧ j < i + n) ↔ (i ≤ j ∧ j < i + (n + 1 : Nat)) := by omega
      simp only [shift, Function.update_of_ne hj, ih, h]

/-- Blank cell `i`, move the cells after it down, store `x` in the last cell. -/
def close (a : Int → α) (last i : Int) (blank x : α) : Int → α :=
  update (shift (update a i blank) i (last - i).toNat) last x

@[simp] theorem close_last (a : Int → α) (last i : Int) (blank x : α) :
    close a last i blank x last = x := by simp [close]

theorem close_before (a : Int → α) {last i j : Int} (blank x : α) (hi : j < i) (hj : j < last) :
    close a last i blank x j = a j := by
  have h : ¬ (i ≤ j ∧ j < i + ((last - i).toNat : Int)) := by omega
  have hl : j ≠ last := by omega
  have hne : j ≠ i := by omega
  rw [close, Function.update_of_ne hl, shift_apply, if_neg h, Function.update_of_ne hne]

theorem close_after (a : Int → α) {last i j : Int} (blank x : α) (hi : i ≤ j) (hj : j < last) :
    close a last i blank x j = a (j + 1) := by
  have h : i ≤ j ∧ j < i + ((last - i).toNat : Int) := by omega
  have hl : j ≠ last := by omega
  have hne : j + 1 ≠ i := by omega
  rw [close, Function.update_of_ne hl, shift_apply, if_pos h, Function.update_of_ne hne]

/-- The cells `0..last` of the array are exactly the list. -/
structure Holds (a : Int → α) (last : Int) (l : List α) : Prop where
  last_eq : last + 1 = l.length
  cell : ∀ i (h : i < l.length), a i = l[i]

theorem Holds.empty (a : Int → α) : Holds a (-1) [] :=
  ⟨rfl, fun i h => absurd h (Nat.not_lt_zero i)⟩

theorem Holds.congr {a b : Int → α} {last : Int} {l : List α} (h : Holds a last l)
    (hb : ∀ j, 0 ≤ j → j ≤ last → b j = a j) : Holds b last l := by
  refine ⟨h.last_eq, fun i hi => ?_⟩
  have := h.last_eq
  rw [hb i (by omega) (by omega)]
  exact h.cell i hi

/-- An index in use designates an entry of the list. -/
theorem Holds.get {a : Int → α} {last j : Int} {l : List α} (h : Holds a last l)
    (h₀ : 0 ≤ j) (hj : j ≤ last) : ∃ hi : j.toNat < l.length, a j = l[j.toNat] := by
  have hl := h.last_eq
  have hi : j.toNat < l.length := by omega
  refine ⟨hi, ?_⟩
  have := h.cell j.toNat hi
  rwa [Int.toNat_of_nonneg h₀] at this

theorem Holds.mem_iff {a : Int → α} {last : Int} {l : List α} (h : Holds a last l) (x : α) :
    x ∈ l ↔ ∃ j, 0 ≤ j ∧ j ≤ last ∧ a j = x := by
  have hl := h.last_eq
  constructor
  · intro hx
    obtain ⟨i, hi, he⟩ := List.getElem_of_mem hx
    exact ⟨i, by omega, by omega, by rw [h.cell i hi, he]⟩
  · rintro ⟨j, h₀, hj, rfl⟩
    obtain ⟨hi, he⟩ := h.get h₀ hj
    rw [he]
    exact List.getElem_mem hi

theorem Holds.push {a : Int → α} {last : Int} {l : List α} (h : Holds a last l) (x : α) :
    Holds (update a (last + 1) x) (last + 1) (l ++ [x]) := by
  have hl := h.last_eq
  refine ⟨by simp; omega, fun i hi => ?_⟩
  rw [List.length_append, List.length_singleton] at hi
  by_cases hx : i = l.length
  · subst hx
    simp [hl]
  · have hi' : i < l.length := by omega
    have hne : (i : Int) ≠ last + 1 := by omega
    rw [Function.update_of_ne hne, List.getElem_append_left hi']
    exact h.cell i hi'

/-- Deleting at `i` erases the entry there, or the last one when `i` is past it. -/
theorem Holds.delete {a : Int → α} {last i : Int} {l : List α} (h : Holds a last l)
    (hne : 0 ≤ last) (blank x : α) :
    Holds (close a last i blank x) (last - 1) (l.eraseIdx (min i last).toNat) := by
  have hl := h.last_eq
  have hlen : (l.eraseIdx (min i last).toNat).length = l.length - 1 :=
    List.length_eraseIdx_of_lt (by omega)
  refine ⟨by omega, fun j hj => ?_⟩
  by_cases hji : (j : Int) < min i last
  · rw [close_before a blank x (by omega) (by omega), h.cell j (by omega)]
    exact (List.getElem_eraseIdx_of_lt hj (by omega)).symm
  · rw [close_after a blank x (by omega) (by omega)]
    have he := h.cell (j + 1) (by omega)
    push_cast at he
    rw [he]
    exact (List.getElem_eraseIdx_of_ge hj (by omega)).symm

/-- Storing the deleted entry in the freed last cell moves it to the end. -/
theorem Holds.rotate {a : Int → α} {last : Int} {l : List α} (h : Holds a last l)
    {i : Nat} (hi : i < l.length) (blank x : α) :
    Holds (close a last i blank x) last (l.eraseIdx i ++ [x]) := by
  have hl := h.last_eq
  have hd := h.delete (i := i) (by omega) blank x
  have hm : (min (i : Int) last).toNat = i := by omega
  rw [hm] at hd
  have hp := hd.push x
  rw [Int.sub_add_cancel] at hp
  refine hp.congr fun j _ hj => ?_
  by_cases he : j = last
  · subst he
    simp
  · rw [Function.update_of_ne he]

/-- An array holds one list. -/
theorem Holds.unique {a : Int → α} {last : Int} {l l' : List α} (h : Holds a last l)
    (h' : Holds a last l') : l = l' := by
  have hl := h.last_eq
  have hl' := h'.last_eq
  refine List.ext_getElem (by omega) fun i hi hi' => ?_
  rw [← h.cell i hi, h'.cell i hi']

/-- The place that a deletion at index `i` empties. -/
def place (l : List α) (i : Nat) : Nat := min i (l.length - 1)

/-- Delete at each index of a list of indices, one after the other. -/
def eraseEach : List α → List Nat → List α
  | l, [] => l
  | l, i :: is => eraseEach (l.eraseIdx (place l i)) is

/-- The entries that these deletions remove, in order. -/
def picked : List α → List Nat → List α
  | _, [] => []
  | l, i :: is => (l[place l i]?).toList ++ picked (l.eraseIdx (place l i)) is

theorem eraseEach_sublist (l : List α) (is : List Nat) : (eraseEach l is).Sublist l := by
  induction is generalizing l with
  | nil => exact .refl l
  | cons i is ih => exact (ih _).trans (List.eraseIdx_sublist _ _)

theorem eraseEach_append (l : List α) (is js : List Nat) :
    eraseEach l (is ++ js) = eraseEach (eraseEach l is) js := by
  induction is generalizing l with
  | nil => rfl
  | cons i is ih => exact ih _

theorem length_eraseEach (l : List α) (is : List Nat) :
    (eraseEach l is).length = l.length - is.length := by
  induction is generalizing l with
  | nil => rfl
  | cons i is ih =>
    rw [eraseEach, ih, List.length_cons]
    by_cases h : l.length = 0
    · simp [List.length_eq_zero_iff.mp h]
    · rw [List.length_eraseIdx_of_lt (by unfold place; omega)]
      omega

theorem eraseIdx_perm (l : List α) (i : Nat) : (l[i]?.toList ++ l.eraseIdx i).Perm l := by
  cases hx : l[i]? with
  | none =>
    have hle := List.getElem?_eq_none_iff.mp hx
    simp [List.eraseIdx_of_length_le hle]
  | some x =>
    obtain ⟨hlt, rfl⟩ := List.getElem?_eq_some_iff.mp hx
    exact List.getElem_cons_eraseIdx_perm hlt

/-- What is removed and what is left make up the list. -/
theorem eraseEach_perm (l : List α) (is : List Nat) : (eraseEach l is ++ picked l is).Perm l := by
  induction is generalizing l with
  | nil => simp [eraseEach, picked]
  | cons i is ih =>
    simp only [eraseEach, picked]
    rw [← List.append_assoc]
    refine (List.perm_append_comm.append_right _).trans ?_
    rw [List.append_assoc]
    exact ((ih _).append_left _).trans (eraseIdx_perm l (place l i))

/-- A sublist of a list without repetitions is found by its members. -/
theorem eq_filter_of_sublist [DecidableEq α] {s l : List α} (hs : s.Sublist l) (hl : l.Nodup) :
    s = l.filter (fun x => x ∈ s) := by
  have hsub : s.Sublist (l.filter (fun x => x ∈ s)) := by
    have := hs.filter (fun x => decide (x ∈ s))
    rwa [List.filter_eq_self.mpr (by simp)] at this
  refine hsub.eq_of_length (List.Perm.length_eq ?_)
  refine (List.perm_ext_iff_of_nodup (hl.sublist hs) (hl.filter _)).mpr fun x => ?_
  simpa using fun hx => hs.subset hx

/-- The deletions leave a list without certain entries exactly if these are the
entries that they remove. -/
theorem eraseEach_eq_filter_iff [DecidableEq α] {l : List α} (hl : l.Nodup) (is : List Nat)
    {gone : List α} (hnodup : gone.Nodup) (hsub : gone ⊆ l) :
    eraseEach l is = l.filter (fun x => x ∉ gone) ↔ (picked l is).Perm gone := by
  have hall := eraseEach_perm l is
  have hsplit : (l.filter (fun x => x ∉ gone) ++ gone).Perm l := by
    have hdisj : (l.filter (fun x => x ∉ gone)).Disjoint gone := by
      intro x hx hx'
      simp [hx'] at hx
    refine (List.perm_ext_iff_of_nodup
      (List.Nodup.append (hl.filter _) hnodup hdisj) hl).mpr fun x => ?_
    by_cases hx : x ∈ gone
    · simp [hx, hsub hx]
    · simp [hx]
  constructor
  · intro h
    rw [h] at hall
    exact (List.perm_append_left_iff _).mp (hall.trans hsplit.symm)
  · intro h
    rw [eq_filter_of_sublist (eraseEach_sublist l is) hl]
    refine List.filter_congr fun x hx => ?_
    have hnd := hall.nodup_iff.mpr hl
    have hmem : x ∈ eraseEach l is ∨ x ∈ picked l is := by
      rw [← List.mem_append, hall.mem_iff]
      exact hx
    have hdisj : x ∈ eraseEach l is → x ∉ picked l is := fun h₁ h₂ =>
      (List.nodup_append.mp hnd).2.2 x h₁ x h₂ rfl
    rw [h.mem_iff] at hmem hdisj
    rw [decide_eq_decide]
    exact ⟨hdisj, fun hg => hmem.resolve_right hg⟩

end Xv6.ShiftQueue
