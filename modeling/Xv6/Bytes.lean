import Mathlib.Tactic.Ring

/-!
# Numbers in byte buffers

A buffer is its bytes, by offset. Numbers are stored little endian in a given number
of bytes; `getLE` reads one, and `byteOf` says what its bytes are. A field is what it
was as long as nothing is copied over it.
-/
namespace Xv6.Bytes

abbrev Buf := Nat → UInt8

/-- The number in the `w` bytes from offset `o` on. -/
def getLE (b : Buf) (o : Nat) : Nat → Nat
  | 0 => 0
  | w + 1 => (b o).toNat + 256 * getLE b (o + 1) w

/-- Byte `k` of a number. -/
def byteOf (v k : Nat) : UInt8 := UInt8.ofNat (v / 256 ^ k)

/-- `memmove(dst + o, src, m)`. -/
def memmove (dst : Buf) (o : Nat) (src : Buf) (m : Nat) : Buf := fun j =>
  if o ≤ j ∧ j < o + m then src (j - o) else dst j

def putLE (b : Buf) (o w v : Nat) : Buf := memmove b o (byteOf v) w

variable {b b' src : Buf} {o o' w w' m j v : Nat}

theorem memmove_inside (h : o ≤ j) (h' : j < o + m) : memmove b o src m j = src (j - o) := by
  rw [memmove, if_pos ⟨h, h'⟩]

theorem memmove_outside (h : j < o ∨ o + m ≤ j) : memmove b o src m j = b j := by
  rw [memmove, if_neg]
  omega

theorem getLE_congr (h : ∀ k, k < w → b (o + k) = b' (o' + k)) : getLE b o w = getLE b' o' w := by
  induction w generalizing o o' with
  | zero => rfl
  | succ w ih =>
    have hfirst := h 0 (by omega)
    have hrest : getLE b (o + 1) w = getLE b' (o' + 1) w := by
      apply ih
      intro k hk
      have := h (k + 1) (by omega)
      rwa [← Nat.add_assoc, ← Nat.add_assoc, Nat.add_right_comm o, Nat.add_right_comm o'] at this
    rw [Nat.add_zero, Nat.add_zero] at hfirst
    rw [getLE, getLE, hfirst, hrest]

theorem getLE_zero (o w : Nat) : getLE (fun _ => 0) o w = 0 := by
  induction w generalizing o with
  | zero => rfl
  | succ w ih => rw [getLE, ih, UInt8.toNat_zero]

theorem getLE_lt (b : Buf) (o w : Nat) : getLE b o w < 256 ^ w := by
  induction w generalizing o with
  | zero => simp [getLE]
  | succ w ih =>
    have hbyte := (b o).toNat_lt
    have := ih (o + 1)
    rw [getLE, pow_succ]
    omega

theorem getLE_byteOf (v w : Nat) : getLE (byteOf v) 0 w = v % 256 ^ w := by
  suffices h : ∀ o, getLE (byteOf v) o w = v / 256 ^ o % 256 ^ w by simpa using h 0
  induction w with
  | zero => simp [getLE, Nat.mod_one]
  | succ w ih =>
    intro o
    have hnext : v / 256 ^ (o + 1) = v / 256 ^ o / 256 := by
      rw [pow_succ, ← Nat.div_div_eq_div_mul]
    have hbyte : (byteOf v o).toNat = v / 256 ^ o % 256 := UInt8.toNat_ofNat'
    rw [getLE, ih, hbyte, hnext, pow_succ, Nat.mul_comm (256 ^ w), Nat.mod_mul]

/-- What a field holds is known from its bytes. -/
theorem getLE_of_bytes (h : ∀ k, k < w → b (o + k) = byteOf v k) : getLE b o w = v % 256 ^ w := by
  rw [← getLE_byteOf]
  exact getLE_congr fun k hk => by rw [h k hk, Nat.zero_add]

theorem getLE_memmove_inside (h : o ≤ o') (h' : o' + w ≤ o + m) :
    getLE (memmove b o src m) o' w = getLE src (o' - o) w := by
  apply getLE_congr
  intro k hk
  rw [memmove_inside (by omega) (by omega), Nat.sub_add_comm h]

theorem getLE_memmove_outside (h : o' + w ≤ o ∨ o + m ≤ o') :
    getLE (memmove b o src m) o' w = getLE b o' w :=
  getLE_congr fun _ hk => memmove_outside (by omega)

theorem getLE_putLE (b : Buf) (o w v : Nat) : getLE (putLE b o w v) o w = v % 256 ^ w := by
  rw [putLE, getLE_memmove_inside (Nat.le_refl o) (Nat.le_refl _), Nat.sub_self, getLE_byteOf]

theorem getLE_putLE_other (h : o' + w' ≤ o ∨ o + w ≤ o') :
    getLE (putLE b o w v) o' w' = getLE b o' w' := getLE_memmove_outside h

end Xv6.Bytes
