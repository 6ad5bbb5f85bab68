import Mathlib.Data.List.Basic
import Mathlib.Data.Nat.ModEq

/-!
# Rings with free-running counters

A ring buffer whose two counters count everything that was put in and taken out,
modulo `2 ^ 32`, and index the buffer modulo its capacity. The ring is full when
the counters differ by the capacity and empty when they agree; both tests stay
right when the counters wrap, provided the capacity divides `2 ^ 32`. The elements
between two counters are a `span`.
-/
namespace Xv6.RingQueue

open Function (update)

structure RingBuf (α : Type) where
  data : Nat → α
  nread : UInt32
  nwrite : UInt32

variable {α : Type}

def RingBuf.Empty (r : RingBuf α) : Prop := r.nread = r.nwrite

instance (r : RingBuf α) : Decidable r.Empty := inferInstanceAs (Decidable (r.nread = r.nwrite))

def RingBuf.Full (cap : Nat) (r : RingBuf α) : Prop := r.nwrite = r.nread + UInt32.ofNat cap

instance (cap : Nat) (r : RingBuf α) : Decidable (r.Full cap) :=
  inferInstanceAs (Decidable (r.nwrite = r.nread + UInt32.ofNat cap))

def RingBuf.put (cap : Nat) (r : RingBuf α) (a : α) : RingBuf α :=
  { r with data := update r.data (r.nwrite.toNat % cap) a, nwrite := r.nwrite + 1 }

def RingBuf.front (cap : Nat) (r : RingBuf α) : α := r.data (r.nread.toNat % cap)

def RingBuf.take (r : RingBuf α) : RingBuf α := { r with nread := r.nread + 1 }

/-- What a ring holds once `stored` has been put in and `taken` has been taken out. -/
structure RingBuf.Shows (cap : Nat) (r : RingBuf α) (stored taken : List α) : Prop where
  read : r.nread = UInt32.ofNat taken.length
  write : r.nwrite = UInt32.ofNat stored.length
  fifo : taken <+: stored
  room : stored.length ≤ taken.length + cap
  kept : ∀ k (hk : k < stored.length), taken.length ≤ k → r.data (k % cap) = stored[k]

variable {cap : Nat} {r : RingBuf α} {stored taken : List α}

theorem ofNat_mod (hdvd : cap ∣ 2 ^ 32) (k : Nat) : (UInt32.ofNat k).toNat % cap = k % cap := by
  rw [UInt32.toNat_ofNat']
  exact Nat.mod_mod_of_dvd k hdvd

theorem ofNat_inj_of_close {a b : Nat} (hab : a ≤ b) (hclose : b < a + 2 ^ 32)
    (h : UInt32.ofNat a = UInt32.ofNat b) : a = b := by
  have h := congrArg UInt32.toNat h
  rw [UInt32.toNat_ofNat', UInt32.toNat_ofNat'] at h
  omega

/-- Two places of the ring that are in use at once are different. -/
theorem mod_ne_of_close {k m : Nat} (hk : k < m) (hm : m < k + cap) : k % cap ≠ m % cap := by
  intro h
  have hdvd : cap ∣ m - k := (Nat.modEq_iff_dvd' hk.le).mp h
  have := Nat.le_of_dvd (by omega) hdvd
  omega

/-- The difference of the counters is the number of elements in the ring. -/
theorem RingBuf.Shows.sub_eq (h : r.Shows cap stored taken) (hcap : cap < 2 ^ 32) :
    (r.nwrite - r.nread).toNat = stored.length - taken.length := by
  have hle := h.fifo.length_le
  have hroom := h.room
  have hsplit : stored.length = (stored.length - taken.length) + taken.length := by omega
  rw [h.read, h.write]
  nth_rewrite 1 [hsplit]
  rw [UInt32.ofNat_add, UInt32.add_sub_cancel, UInt32.toNat_ofNat']
  exact Nat.mod_eq_of_lt (by omega)

theorem RingBuf.Shows.put (h : r.Shows cap stored taken) (hdvd : cap ∣ 2 ^ 32)
    (hfree : ¬ r.Full cap) (a : α) : (r.put cap a).Shows cap (stored ++ [a]) taken := by
  have hlt : stored.length < taken.length + cap := by
    refine lt_of_le_of_ne h.room fun he => hfree ?_
    rw [RingBuf.Full, h.read, h.write, ← UInt32.ofNat_add, he]
  constructor
  case read => exact h.read
  case write => simp [RingBuf.put, h.write, UInt32.ofNat_add]
  case fifo => exact h.fifo.trans (List.prefix_append _ _)
  case room =>
    rw [List.length_append, List.length_singleton]
    exact hlt
  case kept =>
    intro k hk htaken
    simp only [RingBuf.put, h.write, ofNat_mod hdvd]
    rcases Nat.lt_or_ge k stored.length with hk' | hk'
    · have hne : k % cap ≠ stored.length % cap := mod_ne_of_close hk' (by omega)
      rw [Function.update_of_ne hne, List.getElem_append_left hk']
      exact h.kept k hk' htaken
    · obtain rfl : k = stored.length := by
        have : k < stored.length + 1 := by simpa using hk
        omega
      simp

theorem RingBuf.Shows.take (h : r.Shows cap stored taken) (hdvd : cap ∣ 2 ^ 32)
    (hsome : ¬ r.Empty) : r.take.Shows cap stored (taken ++ [r.front cap]) := by
  have hlt : taken.length < stored.length := by
    refine lt_of_le_of_ne h.fifo.length_le fun he => hsome ?_
    rw [RingBuf.Empty, h.read, h.write, he]
  have hfront : r.front cap = stored[taken.length] := by
    rw [RingBuf.front, h.read, ofNat_mod hdvd]
    exact h.kept _ hlt le_rfl
  constructor
  case read => simp [RingBuf.take, h.read, UInt32.ofNat_add]
  case write => exact h.write
  case fifo =>
    have htake : taken ++ [stored[taken.length]] = stored.take (taken.length + 1) := by
      rw [List.take_succ_eq_append_getElem hlt, ← List.prefix_iff_eq_take.mp h.fifo]
    rw [hfront, htake]
    exact List.take_prefix _ _
  case room =>
    have := h.room
    simp only [List.length_append, List.length_singleton]
    omega
  case kept =>
    intro k hk htaken
    rw [List.length_append, List.length_singleton] at htaken
    exact h.kept k hk (by omega)

/-- The `n` elements of a ring from the counter value `i` on. -/
def span (cap : Nat) (data : Nat → α) : UInt32 → Nat → List α
  | _, 0 => []
  | i, n + 1 => data (i.toNat % cap) :: span cap data (i + 1) n

variable {data : Nat → α}

@[simp] theorem length_span (i : UInt32) (n : Nat) : (span cap data i n).length = n := by
  induction n generalizing i with
  | zero => rfl
  | succ n ih => simp [span, ih]

theorem add_ofNat_succ (i : UInt32) (n : Nat) :
    i + UInt32.ofNat (n + 1) = i + 1 + UInt32.ofNat n := by
  rw [UInt32.ofNat_add, UInt32.add_comm (UInt32.ofNat n), ← UInt32.add_assoc]
  rfl

theorem span_add (i : UInt32) (m n : Nat) :
    span cap data i (m + n) = span cap data i m ++ span cap data (i + UInt32.ofNat m) n := by
  induction m generalizing i with
  | zero => simp [span]
  | succ m ih => rw [Nat.succ_add, span, ih, add_ofNat_succ, span, List.cons_append]

theorem span_succ (i : UInt32) (n : Nat) :
    span cap data i (n + 1) =
      span cap data i n ++ [data ((i + UInt32.ofNat n).toNat % cap)] := by
  rw [span_add, span, span]

theorem add_ofNat_mod (hdvd : cap ∣ 2 ^ 32) (i : UInt32) (m : Nat) :
    (i + UInt32.ofNat m).toNat % cap = (i.toNat + m) % cap := by
  rw [UInt32.toNat_add, Nat.mod_mod_of_dvd _ hdvd, Nat.add_mod, ofNat_mod hdvd, ← Nat.add_mod]

/-- What is stored behind a span, less than a round from its start, is not seen in it. -/
theorem span_update (hdvd : cap ∣ 2 ^ 32) (i : UInt32) {n m : Nat} (hn : n ≤ m) (hm : m < cap)
    (a : α) :
    span cap (update data ((i + UInt32.ofNat m).toNat % cap) a) i n = span cap data i n := by
  induction n generalizing i m with
  | zero => rfl
  | succ n ih =>
    obtain ⟨m, rfl⟩ : ∃ k, m = k + 1 := ⟨m - 1, by omega⟩
    have hhead : i.toNat % cap ≠ (i + UInt32.ofNat (m + 1)).toNat % cap := by
      rw [add_ofNat_mod hdvd]
      exact mod_ne_of_close (by omega) (by omega)
    rw [span, span, Function.update_of_ne hhead, add_ofNat_succ, ih (i + 1) (by omega) (by omega)]

/-- The distance of two counters that are less than a round of the counters apart. -/
theorem sub_toNat (i : UInt32) {n : Nat} (hn : n < 2 ^ 32) :
    (i + UInt32.ofNat n - i).toNat = n := by
  rw [UInt32.add_comm, UInt32.add_sub_cancel, UInt32.toNat_ofNat', Nat.mod_eq_of_lt hn]

end Xv6.RingQueue
