import Mathlib.Logic.Function.Basic

/-!
# Exact allocation maps

Cells are handed out to pointers. A pointer holds the number of its cell, or zero. The
map of used cells is exact when every pointer has a cell of its own, outside a reserved
part, and a cell is marked exactly when it is reserved or some pointer has it.
-/
namespace Xv6.Ownership

open Function (update update_self update_of_ne)

variable {κ : Type}

structure Owns (reserved used : Nat → Prop) (P : κ → Nat) : Prop where
  free : ∀ k, P k ≠ 0 → ¬ reserved (P k)
  inj : ∀ k l, P k ≠ 0 → P k = P l → k = l
  exact : ∀ b, used b ↔ reserved b ∨ ∃ k, P k ≠ 0 ∧ P k = b

namespace Owns

variable {reserved used used' : Nat → Prop} {P P' : κ → Nat} {b : Nat} {k l : κ}

section

variable (h : Owns reserved used P)
include h

theorem used_of (hk : P k ≠ 0) : used (P k) :=
  (h.exact _).mpr (.inr ⟨k, hk, rfl⟩)

/-- Two pointers never share a cell. -/
theorem ne_of_ne (hk : P k ≠ 0) (hkl : k ≠ l) : P k ≠ P l :=
  fun heq => hkl (h.inj k l hk heq)

theorem ne_of_unused (hb : ¬ used b) (hk : P k ≠ 0) : P k ≠ b :=
  fun heq => hb (heq ▸ h.used_of hk)

theorem not_reserved (hb : ¬ used b) : ¬ reserved b :=
  fun hr => hb ((h.exact b).mpr (.inl hr))

theorem congr (hused : ∀ b, used' b ↔ used b) (hP : ∀ k, P' k = P k) : Owns reserved used' P' := by
  obtain rfl : P' = P := funext hP
  exact ⟨h.free, h.inj, fun b => (hused b).trans (h.exact b)⟩

end

variable [DecidableEq κ]

/-- A free cell goes to a pointer that had none. -/
theorem take (h : Owns reserved used P) (hk : P k = 0) (hb : ¬ used b) (hb0 : b ≠ 0)
    (hused : ∀ c, used' c ↔ used c ∨ c = b) : Owns reserved used' (update P k b) where
  free l hl := by
    rcases eq_or_ne l k with rfl | hlk
    · rw [update_self]
      exact h.not_reserved hb
    · rw [update_of_ne hlk] at hl ⊢
      exact h.free l hl
  inj l m hl hlm := by
    by_cases hlk : l = k <;> by_cases hmk : m = k
    · rw [hlk, hmk]
    · rw [hlk, update_self, update_of_ne hmk] at hlm
      exact absurd hlm.symm (h.ne_of_unused hb (hlm ▸ hb0))
    · rw [hmk, update_self, update_of_ne hlk] at hlm
      rw [update_of_ne hlk] at hl
      exact absurd hlm (h.ne_of_unused hb hl)
    · rw [update_of_ne hlk] at hl
      rw [update_of_ne hlk, update_of_ne hmk] at hlm
      exact h.inj l m hl hlm
  exact c := by
    rw [hused, h.exact, or_assoc]
    refine or_congr_right ⟨?_, ?_⟩
    · rintro (⟨l, hl, hlc⟩ | rfl)
      · have hlk : l ≠ k := fun heq => hl (heq ▸ hk)
        exact ⟨l, by rwa [update_of_ne hlk], by rwa [update_of_ne hlk]⟩
      · exact ⟨k, by rwa [update_self], update_self ..⟩
    · rintro ⟨l, hl, hlc⟩
      rcases eq_or_ne l k with rfl | hlk
      · rw [update_self] at hlc
        exact .inr hlc.symm
      · rw [update_of_ne hlk] at hl hlc
        exact .inl ⟨l, hl, hlc⟩

/-- A pointer gives its cell back. -/
theorem drop (h : Owns reserved used P) (hk : P k ≠ 0)
    (hused : ∀ c, used' c ↔ used c ∧ c ≠ P k) : Owns reserved used' (update P k 0) where
  free l hl := by
    rcases eq_or_ne l k with rfl | hlk
    · exact absurd (update_self ..) hl
    · rw [update_of_ne hlk] at hl ⊢
      exact h.free l hl
  inj l m hl hlm := by
    have hlk : l ≠ k := by
      rintro rfl
      exact hl (update_self ..)
    rw [update_of_ne hlk] at hl hlm
    rcases eq_or_ne m k with rfl | hmk
    · rw [update_self] at hlm
      exact absurd hlm hl
    · rw [update_of_ne hmk] at hlm
      exact h.inj l m hl hlm
  exact c := by
    rw [hused, h.exact]
    constructor
    · rintro ⟨hr | ⟨l, hl, hlc⟩, hne⟩
      · exact .inl hr
      · have hlk : l ≠ k := fun heq => hne (heq ▸ hlc.symm)
        exact .inr ⟨l, by rwa [update_of_ne hlk], by rwa [update_of_ne hlk]⟩
    · rintro (hr | ⟨l, hl, hlc⟩)
      · exact ⟨.inl hr, fun heq => h.free k hk (heq ▸ hr)⟩
      · have hlk : l ≠ k := by
          rintro rfl
          exact hl (update_self ..)
        rw [update_of_ne hlk] at hl hlc
        exact ⟨.inr ⟨l, hl, hlc⟩, fun heq => h.ne_of_ne hl hlk (hlc.trans heq)⟩

/-- A cell goes from one pointer to another. -/
theorem move (h : Owns reserved used P) (hk : P k ≠ 0) (hl : P l = 0) :
    Owns reserved used (update (update P k 0) l (P k)) := by
  have hlk : l ≠ k := fun heq => hk (heq ▸ hl)
  have hdrop : Owns reserved (fun c => used c ∧ c ≠ P k) (update P k 0) :=
    h.drop hk fun _ => Iff.rfl
  refine hdrop.take (by rwa [update_of_ne hlk]) (fun hu => hu.2 rfl) hk fun c => ?_
  constructor
  · intro hc
    by_cases heq : c = P k
    · exact .inr heq
    · exact .inl ⟨hc, heq⟩
  · rintro (hc | rfl)
    · exact hc.1
    · exact h.used_of hk

end Owns

end Xv6.Ownership
