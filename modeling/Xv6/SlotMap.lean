import Mathlib.Data.List.Basic

/-!
# Maps in slots

A finite map that is kept in a list of slots. A slot is empty or has a key and its value; no
key is in two slots. A binding is added in an empty slot or behind the last one, and removed
by emptying its slot.
-/
namespace Xv6.SlotMap

open Function (update update_self update_of_ne)

abbrev Slots (κ ν : Type) := List (Option (κ × ν))

variable {κ ν : Type} {l : Slots κ ν} {key key' : κ} {v w : ν} {j k : Nat} {s : Option (κ × ν)}

/-- The slot `k` binds `key` to `v`. -/
def Binds (l : Slots κ ν) (k : Nat) (key : κ) (v : ν) : Prop := l[k]? = some (some (key, v))

def Distinct (l : Slots κ ν) : Prop := ∀ j k key v w, Binds l j key v → Binds l k key w → j = k

/-- Fill or empty a slot, or add one. -/
def put (l : Slots κ ν) (k : Nat) (s : Option (κ × ν)) : Slots κ ν :=
  if k < l.length then l.set k s else l ++ [s]

/-- The value in the first slot with this key. -/
def lookup [DecidableEq κ] (l : Slots κ ν) (key : κ) : Option ν :=
  l.findSome? fun s => s.bind fun p => if p.1 = key then some p.2 else none

theorem getElem?_put (hk : k ≤ l.length) (j : Nat) :
    (put l k s)[j]? = if j = k then some s else l[j]? := by
  unfold put
  split
  case isTrue hlt =>
    rw [List.getElem?_set]
    by_cases hj : j = k
    · rw [if_pos hj.symm, if_pos hj, if_pos hlt]
    · rw [if_neg (Ne.symm hj), if_neg hj]
  case isFalse hlt =>
    obtain rfl : k = l.length := by omega
    rcases Nat.lt_trichotomy j l.length with hj | rfl | hj
    · rw [List.getElem?_append_left hj, if_neg (by omega)]
    · rw [if_pos rfl, List.getElem?_concat_length]
    · rw [if_neg (by omega), List.getElem?_eq_none (by simp; omega),
        List.getElem?_eq_none (by omega)]

section Lookup

variable [DecidableEq κ]

theorem lookup_eq_none : lookup l key = none ↔ ∀ k v, ¬ Binds l k key v := by
  rw [lookup, List.findSome?_eq_none_iff]
  constructor
  · intro h k v hk
    have := h _ (List.mem_of_getElem? hk)
    simp at this
  · intro h s hs
    obtain ⟨k, hk⟩ := List.mem_iff_getElem?.mp hs
    cases s with
    | none => rfl
    | some p =>
      rw [Option.bind_some, if_neg]
      rintro rfl
      exact h k p.2 hk

theorem binds_of_lookup (h : lookup l key = some v) : ∃ k, Binds l k key v := by
  obtain ⟨s, hs, hv⟩ := List.exists_of_findSome?_eq_some h
  obtain ⟨k, hk⟩ := List.mem_iff_getElem?.mp hs
  obtain ⟨p, rfl, hp⟩ := Option.bind_eq_some_iff.mp hv
  obtain ⟨rfl, rfl⟩ : p.1 = key ∧ p.2 = v := by
    split at hp
    case isTrue hkey => exact ⟨hkey, Option.some.inj hp⟩
    case isFalse => cases hp
  exact ⟨k, hk⟩

theorem lookup_eq_some (h : Distinct l) : lookup l key = some v ↔ ∃ k, Binds l k key v := by
  refine ⟨binds_of_lookup, fun ⟨k, hk⟩ => ?_⟩
  cases hl : lookup l key with
  | none => exact absurd hk (lookup_eq_none.mp hl k v)
  | some w =>
    obtain ⟨j, hj⟩ := binds_of_lookup hl
    obtain rfl := h j k key w v hj hk
    cases hj.symm.trans hk
    rfl

end Lookup

end Xv6.SlotMap
