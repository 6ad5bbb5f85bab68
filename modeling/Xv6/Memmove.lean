import Xv6.Bytes

/-!
# The two memmoves

`memmove` of string.c, which copies downwards when the destination begins inside the source,
and `memmove` of ulib.c, which always copies upwards. Memory is its bytes by address;
pointers are numbers below 2 ^ 32, and sums of them are taken modulo 2 ^ 32.
-/
namespace Xv6.Memmove

open Function (update update_self update_of_ne)
open Bytes (Buf)

variable {d s n k a : Nat} {m m' : Buf}

/-! ## The loops -/

/-- `while(n-- > 0) *d++ = *s++;` -/
def copyUp : Nat → Nat → Nat → Buf → Buf
  | 0, _, _, m => m
  | n + 1, d, s, m => copyUp n ((d + 1) % 2 ^ 32) ((s + 1) % 2 ^ 32) (update m d (m s))

/-- `while(n-- > 0) *--d = *--s;` -/
def copyDown : Nat → Nat → Nat → Buf → Buf
  | 0, _, _, m => m
  | n + 1, d, s, m =>
    let d := (d + (2 ^ 32 - 1)) % 2 ^ 32
    let s := (s + (2 ^ 32 - 1)) % 2 ^ 32
    copyDown n d s (update m d (m s))

/-- `memmove` of string.c, with the pointer that it returns. -/
def Kernel.memmove (dst src n : Nat) (m : Buf) : Nat × Buf :=
  if src < dst ∧ dst < (src + n) % 2 ^ 32 then
    (dst, copyDown n ((dst + n) % 2 ^ 32) ((src + n) % 2 ^ 32) m)
  else (dst, copyUp n dst src m)

/-- `memmove` of ulib.c. Its `n` is an `int`; the loop does nothing unless it is positive. -/
def Ulib.memmove (vdst vsrc : Nat) (n : Int) (m : Buf) : Nat × Buf :=
  (vdst, copyUp n.toNat vdst vsrc m)

/-- The bytes that were at `s` are at `d`, and nothing else has changed. -/
structure Moved (d s n : Nat) (m m' : Buf) : Prop where
  copied : ∀ k, k < n → m' (d + k) = m (s + k)
  kept : ∀ a, a < d ∨ d + n ≤ a → m' a = m a

/-! ## Upwards -/

theorem copyUp_succ (hd : d + n < 2 ^ 32) (hs : s + n < 2 ^ 32) :
    copyUp (n + 1) d s m = copyUp n (d + 1) (s + 1) (update m d (m s)) := by
  cases n with
  | zero => rfl
  | succ n =>
    have hd' : (d + 1) % 2 ^ 32 = d + 1 := Nat.mod_eq_of_lt (by omega)
    have hs' : (s + 1) % 2 ^ 32 = s + 1 := Nat.mod_eq_of_lt (by omega)
    rw [copyUp, hd', hs']

section

variable (hd : d + n ≤ 2 ^ 32) (hs : s + n ≤ 2 ^ 32)
include hd hs

theorem copyUp_outside (h : a < d ∨ d + n ≤ a) : copyUp n d s m a = m a := by
  induction n generalizing d s m with
  | zero => rfl
  | succ n ih =>
    rw [copyUp_succ (by omega) (by omega), ih (by omega) (by omega) (by omega)]
    exact update_of_ne (by omega) ..

/-- A byte of the destination is a copy of the source as it is in the end, if it has been
written before, and as it was at first otherwise. -/
theorem copyUp_inside (hk : k < n) :
    copyUp n d s m (d + k) = if s < d ∧ d ≤ s + k then copyUp n d s m (s + k) else m (s + k) := by
  induction n generalizing d s m k with
  | zero => omega
  | succ n ih =>
    have hfirst : copyUp n (d + 1) (s + 1) (update m d (m s)) d = m s := by
      rw [copyUp_outside (by omega) (by omega) (by omega)]
      exact update_self ..
    rw [copyUp_succ (by omega) (by omega)]
    cases k with
    | zero =>
      rw [if_neg (by omega)]
      exact hfirst
    | succ k =>
      have hrest := ih (m := update m d (m s)) (show d + 1 + n ≤ 2 ^ 32 by omega)
        (show s + 1 + n ≤ 2 ^ 32 by omega) (show k < n by omega)
      rw [show d + 1 + k = d + (k + 1) by omega, show s + 1 + k = s + (k + 1) by omega] at hrest
      rw [hrest]
      by_cases hback : s + (k + 1) = d
      · -- the byte that was written first is read
        rw [if_neg (by omega), if_pos (by omega), hback, hfirst]
        exact update_self ..
      · by_cases hin : s < d ∧ d ≤ s + (k + 1)
        · rw [if_pos (by omega), if_pos hin]
        · rw [if_neg (by omega), if_neg hin]
          exact update_of_ne hback ..

/-- Copying upwards is right exactly if it reads no byte that it has changed. -/
theorem moved_copyUp_iff :
    Moved d s n m (copyUp n d s m) ↔ (s < d → ∀ k, d + k < s + n → m (d + k) = m (s + k)) := by
  constructor
  · intro h hlt k hk
    have hread := copyUp_inside (m := m) hd hs (show d - s + k < n by omega)
    rw [if_pos (by omega), show s + (d - s + k) = d + k by omega, h.copied k (by omega)] at hread
    have hmoved := h.copied (d - s + k) (by omega)
    rw [show s + (d - s + k) = d + k by omega] at hmoved
    exact hmoved.symm.trans hread
  · intro h
    refine ⟨fun k => ?_, fun a ha => copyUp_outside hd hs ha⟩
    induction k using Nat.strong_induction_on with
    | _ k ih =>
      intro hk
      rw [copyUp_inside hd hs hk]
      by_cases hin : s < d ∧ d ≤ s + k
      · have hback := ih (s + k - d) (by omega) (by omega)
        have hsame := h hin.1 (s + k - d) (by omega)
        rw [show d + (s + k - d) = s + k by omega] at hback hsame
        rw [if_pos hin, hback, ← hsame]
      · exact if_neg hin

end

/-! ## Downwards -/

theorem copyDown_succ (hd : d + n < 2 ^ 32) (hs : s + n < 2 ^ 32) :
    copyDown (n + 1) ((d + (n + 1)) % 2 ^ 32) ((s + (n + 1)) % 2 ^ 32) m =
      copyDown n ((d + n) % 2 ^ 32) ((s + n) % 2 ^ 32) (update m (d + n) (m (s + n))) := by
  have hd' : ((d + (n + 1)) % 2 ^ 32 + (2 ^ 32 - 1)) % 2 ^ 32 = d + n := by omega
  have hs' : ((s + (n + 1)) % 2 ^ 32 + (2 ^ 32 - 1)) % 2 ^ 32 = s + n := by omega
  rw [copyDown, hd', hs', Nat.mod_eq_of_lt hd, Nat.mod_eq_of_lt hs]

theorem moved_copyDown (hle : s ≤ d) (hd : d + n ≤ 2 ^ 32) :
    Moved d s n m (copyDown n ((d + n) % 2 ^ 32) ((s + n) % 2 ^ 32) m) := by
  induction n generalizing m with
  | zero => exact ⟨nofun, fun _ _ => rfl⟩
  | succ n ih =>
    have hrest := ih (m := update m (d + n) (m (s + n))) (by omega)
    rw [copyDown_succ (by omega) (by omega)]
    constructor
    · intro k hk
      by_cases hlast : k = n
      · rw [hlast, hrest.kept _ (by omega)]
        exact update_self ..
      · rw [hrest.copied k (by omega)]
        exact update_of_ne (by omega) ..
    · intro a ha
      rw [hrest.kept a (by omega)]
      exact update_of_ne (by omega) ..

/-! ## The calls -/

/-- The kernel's `memmove` moves. -/
theorem Kernel.moved_memmove (m : Buf) (hd : d + n ≤ 2 ^ 32) (hs : s + n ≤ 2 ^ 32) :
    Moved d s n m (Kernel.memmove d s n m).2 := by
  unfold Kernel.memmove
  split
  · exact moved_copyDown (by omega) hd
  · next hnot =>
    refine (moved_copyUp_iff hd hs).mpr fun hlt k hk => ?_
    -- the end of the source is below that of the destination, so that it has not wrapped
    rw [Nat.mod_eq_of_lt (by omega)] at hnot
    omega

/-- Both leave the bytes of the source at the destination, and change nothing else, exactly
if no byte that lies in both ranges would be different afterwards. -/
theorem memmoves_agree_iff (m : Buf) (hd : d + n ≤ 2 ^ 32) (hs : s + n ≤ 2 ^ 32) :
    Moved d s n m (Kernel.memmove d s n m).2 ∧ Moved d s n m (Ulib.memmove d s n m).2 ↔
      (s < d → ∀ k, d + k < s + n → m (d + k) = m (s + k)) := by
  have hkernel := Kernel.moved_memmove m hd hs
  have hulib : Moved d s n m (Ulib.memmove d s n m).2 ↔
      (s < d → ∀ k, d + k < s + n → m (d + k) = m (s + k)) :=
    moved_copyUp_iff hd hs
  rw [← hulib]
  exact and_iff_right hkernel

theorem memmoves_agree_downwards : Moved 0 1 2 UInt8.ofNat (Kernel.memmove 0 1 2 UInt8.ofNat).2 ∧
    Moved 0 1 2 UInt8.ofNat (Ulib.memmove 0 1 2 UInt8.ofNat).2 :=
  (memmoves_agree_iff UInt8.ofNat (by decide) (by decide)).mpr nofun

/-- Two bytes are moved up by one: both become the first. -/
theorem overlap_repeats : (Ulib.memmove 1 0 2 UInt8.ofNat).2 2 = 0 ∧
    ¬ Moved 1 0 2 UInt8.ofNat (Ulib.memmove 1 0 2 UInt8.ofNat).2 := by
  refine ⟨by decide, fun h => ?_⟩
  have hsecond := h.copied 1 (by decide)
  exact absurd hsecond (by decide)

end Xv6.Memmove
