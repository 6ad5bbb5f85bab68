import Mathlib.Data.List.Nodup

/-!
# A redo log

Homes for the contents of addresses, and a log: slots for contents and a head that
names the address of each slot in use. A transaction fills slots, names them in the
head, copies them home and empties the head; recovery does the last two. What a
store stands for is `logical`: the slot of an address that the head names, and its
home otherwise. Of all the writes of a transaction only the first one of the head
changes it, and no write of a recovery does.
-/
namespace Xv6.RedoLog

open Function (update)

structure Store (A B : Type) where
  home : A → B
  slot : Nat → B
  head : List A

inductive Write (A B : Type) where
  | slot : Nat → B → Write A B
  | head : List A → Write A B
  | home : A → B → Write A B

variable {A B : Type}

/-- The slots of some addresses, counted from `i`. -/
def fill (new : A → B) (i : Nat) : List A → List (Write A B)
  | [] => []
  | a :: l => .slot i (new a) :: fill new (i + 1) l

/-- Copy slots home, counted from `i`. -/
def install (slot : Nat → B) (i : Nat) : List A → List (Write A B)
  | [] => []
  | a :: l => .home a (slot i) :: install slot (i + 1) l

@[simp] theorem length_fill (new : A → B) (i : Nat) (l : List A) :
    (fill new i l).length = l.length := by
  induction l generalizing i with
  | nil => rfl
  | cons a l ih => simp [fill, ih]

@[simp] theorem length_install (slot : Nat → B) (i : Nat) (l : List A) :
    (install slot i l).length = l.length := by
  induction l generalizing i with
  | nil => rfl
  | cons a l ih => simp [install, ih]

variable [DecidableEq A]

def Store.apply (s : Store A B) : Write A B → Store A B
  | .slot i b => { s with slot := update s.slot i b }
  | .head l => { s with head := l }
  | .home a b => { s with home := update s.home a b }

def Store.applyAll (s : Store A B) (ws : List (Write A B)) : Store A B := ws.foldl Store.apply s

theorem applyAll_append (s : Store A B) (ws ws' : List (Write A B)) :
    s.applyAll (ws ++ ws') = (s.applyAll ws).applyAll ws' := List.foldl_append ..

/-- What the store stands for. -/
def Store.logical (s : Store A B) (a : A) : B :=
  match s.head.idxOf? a with
  | some i => s.slot i
  | none => s.home a

/-- The writes of a recovery. -/
def Store.recover (s : Store A B) : List (Write A B) := install s.slot 0 s.head ++ [.head []]

/-- The writes of a transaction on the addresses `l`. -/
def Store.commit (s : Store A B) (l : List A) (new : A → B) : List (Write A B) :=
  let ws := fill new 0 l ++ [.head l]
  ws ++ (s.applyAll ws).recover

/-- Recovery is begun and cut off, any number of times. -/
inductive Store.Crashes : Store A B → Store A B → Prop where
  | refl (s : Store A B) : Store.Crashes s s
  | step {s t : Store A B} (j : Nat) :
      Store.Crashes (s.applyAll (s.recover.take j)) t → Store.Crashes s t

theorem logical_of_nil {s : Store A B} (h : s.head = []) : s.logical = s.home := by
  funext a
  simp [Store.logical, h]

/-- The home of an address that the head names does not count. -/
theorem logical_home {s : Store A B} {a : A} (h : a ∈ s.head) (b : B) :
    (s.apply (.home a b)).logical = s.logical := by
  funext x
  unfold Store.logical Store.apply
  cases hx : s.head.idxOf? x with
  | some i => simp
  | none =>
    have hne : x ≠ a := by
      rintro rfl
      exact (List.idxOf?_eq_none_iff.mp hx) h
    simp [hne]

section

variable (s : Store A B) (slot : Nat → B) (i : Nat)

/-- Installing touches neither the slots nor the head. -/
theorem applyAll_install (l : List A) (j : Nat) : (s.applyAll ((install slot i l).take j)).slot =
    s.slot ∧ (s.applyAll ((install slot i l).take j)).head = s.head := by
  induction l generalizing i j s with
  | nil => simp [install, Store.applyAll]
  | cons a l ih =>
    cases j with
    | zero => simp [Store.applyAll]
    | succ j => exact ih (s.apply (.home a (slot i))) (i + 1) j

theorem logical_install {l : List A} (h : ∀ a ∈ l, a ∈ s.head) (j : Nat) :
    (s.applyAll ((install slot i l).take j)).logical = s.logical := by
  induction l generalizing i j s with
  | nil => simp [install, Store.applyAll]
  | cons a l ih =>
    cases j with
    | zero => simp [Store.applyAll]
    | succ j =>
      have ha : a ∈ s.head := h a (.head _)
      have hl : ∀ b ∈ l, b ∈ (s.apply (.home a (slot i))).head := fun b hb => h b (.tail _ hb)
      exact (ih (s.apply (.home a (slot i))) (i + 1) hl j).trans (logical_home ha _)

/-- Each installed address holds its slot. -/
theorem home_install {l : List A} (h : l.Nodup) (a : A) : (s.applyAll (install slot i l)).home a =
    match l.idxOf? a with | some j => slot (i + j) | none => s.home a := by
  induction l generalizing i s with
  | nil => simp [install, Store.applyAll]
  | cons b l ih =>
    obtain ⟨hb, hl⟩ := List.nodup_cons.mp h
    refine (ih (s.apply (.home b (slot i))) (i + 1) hl).trans ?_
    rw [List.idxOf?_cons]
    by_cases hab : b = a
    · subst hab
      simp [List.idxOf?_eq_none_iff.mpr hb, Store.apply]
    · cases hj : l.idxOf? a with
      | none => simp [hab, Store.apply, Ne.symm hab]
      | some j => simp [hab, Nat.add_assoc, Nat.add_comm 1 j]

end

/-- A recovery that is not cut off brings everything home and empties the head. -/
theorem applyAll_recover {s : Store A B} (h : s.head.Nodup) :
    (s.applyAll s.recover).head = [] ∧ (s.applyAll s.recover).home = s.logical := by
  unfold Store.recover
  rw [applyAll_append]
  constructor
  · rfl
  · funext a
    refine (home_install s s.slot 0 h a).trans ?_
    simp only [Store.logical, Nat.zero_add]

/-- A recovery that is cut off anywhere leaves the head in place or has come to its end,
and changes nothing of what the store stands for. -/
theorem take_recover {s : Store A B} (h : s.head.Nodup) (j : Nat) :
    (s.applyAll (s.recover.take j)).head.Nodup ∧
      (s.applyAll (s.recover.take j)).logical = s.logical := by
  by_cases hj : j ≤ s.head.length
  · have htake : s.recover.take j = (install s.slot 0 s.head).take j := by
      unfold Store.recover
      rw [List.take_append_of_le_length (by simpa using hj)]
    rw [htake]
    constructor
    · rw [(applyAll_install s s.slot 0 s.head j).2]
      exact h
    · exact logical_install s s.slot 0 (fun a ha => ha) j
  · have htake : s.recover.take j = s.recover := by
      apply List.take_of_length_le
      simp only [Store.recover, List.length_append, length_install, List.length_singleton]
      omega
    obtain ⟨hhead, hhome⟩ := applyAll_recover h
    rw [htake]
    constructor
    · simp [hhead]
    · rw [logical_of_nil hhead, hhome]

theorem Store.Crashes.logical {s t : Store A B} (h : s.Crashes t) (hs : s.head.Nodup) :
    t.head.Nodup ∧ t.logical = s.logical := by
  induction h with
  | refl s => exact ⟨hs, rfl⟩
  | step j _ ih =>
    obtain ⟨hnodup, hlogical⟩ := take_recover hs j
    obtain ⟨ht, heq⟩ := ih hnodup
    exact ⟨ht, heq.trans hlogical⟩

/-- Filling slots leaves homes and head alone. -/
theorem applyAll_fill (s : Store A B) (new : A → B) (i : Nat) (l : List A) (k : Nat) :
    (s.applyAll ((fill new i l).take k)).home = s.home ∧
      (s.applyAll ((fill new i l).take k)).head = s.head := by
  induction l generalizing i k s with
  | nil => simp [fill, Store.applyAll]
  | cons a l ih =>
    cases k with
    | zero => simp [Store.applyAll]
    | succ k => exact ih (s.apply (.slot i (new a))) (i + 1) k

/-- The filled slots. -/
theorem slot_fill (s : Store A B) (new : A → B) (i : Nat) (l : List A) (m : Nat) :
    (s.applyAll (fill new i l)).slot m =
      if i ≤ m then (l[m - i]?.map new).getD (s.slot m) else s.slot m := by
  induction l generalizing i s with
  | nil => simp [fill, Store.applyAll]
  | cons a l ih =>
    refine (ih (s.apply (.slot i (new a))) (i + 1)).trans ?_
    by_cases hm : m = i
    · subst hm
      have hle : ¬ m + 1 ≤ m := by omega
      simp [Store.apply, hle]
    · by_cases hle : i ≤ m
      · have hsub : m - i = (m - (i + 1)) + 1 := by omega
        have hle' : i + 1 ≤ m := by omega
        simp [Store.apply, hm, hle, hle', hsub]
      · have hle' : ¬ i + 1 ≤ m := by omega
        simp [Store.apply, hm, hle, hle']

/-- The contents after the transaction. -/
def after (old : A → B) (l : List A) (new : A → B) (a : A) : B := if a ∈ l then new a else old a

/-- Once the head names the slots, the transaction has happened. -/
theorem logical_committed (s : Store A B) (l : List A) (new : A → B) :
    (s.applyAll (fill new 0 l ++ [.head l])).logical = after s.home l new := by
  rw [applyAll_append]
  have hfill := applyAll_fill s new 0 l (fill new 0 l).length
  rw [List.take_length] at hfill
  funext a
  simp only [Store.logical, Store.applyAll, List.foldl_cons, List.foldl_nil, Store.apply, after]
  cases ha : l.idxOf? a with
  | none =>
    have hnot := List.idxOf?_eq_none_iff.mp ha
    rw [if_neg hnot]
    exact congrFun hfill.1 a
  | some i =>
    obtain ⟨hi, hget, -⟩ := List.idxOf?_eq_some_iff.mp ha
    have hmem : a ∈ l := hget ▸ List.getElem_mem hi
    rw [if_pos hmem]
    refine (slot_fill s new 0 l i).trans ?_
    simp [hi, hget]

/-- A transaction that is cut off before the head is written has not happened; after
that it has. -/
theorem take_commit {s : Store A B} (hs : s.head = []) {l : List A} (hl : l.Nodup) (new : A → B)
    (k : Nat) :
    (s.applyAll ((s.commit l new).take k)).head.Nodup ∧
      (s.applyAll ((s.commit l new).take k)).logical =
        if k ≤ l.length then s.home else after s.home l new := by
  by_cases hk : k ≤ l.length
  · have htake : (s.commit l new).take k = (fill new 0 l).take k := by
      unfold Store.commit
      rw [List.append_assoc, List.take_append_of_le_length (by simpa using hk)]
    obtain ⟨hhome, hhead⟩ := applyAll_fill s new 0 l k
    rw [htake, if_pos hk]
    constructor
    · simp [hhead, hs]
    · rw [logical_of_nil (hhead.trans hs), hhome]
  · -- past the write of the head the transaction is a recovery
    have hlen : (fill new 0 l ++ [Write.head l]).length = l.length + 1 := by simp
    obtain ⟨j, rfl⟩ : ∃ j, k = l.length + 1 + j := ⟨k - (l.length + 1), by omega⟩
    have htake : (s.commit l new).take (l.length + 1 + j) =
        (fill new 0 l ++ [.head l]) ++ (s.applyAll (fill new 0 l ++ [.head l])).recover.take j := by
      unfold Store.commit
      rw [List.take_append, List.take_of_length_le (by rw [hlen]; omega), hlen,
        Nat.add_sub_cancel_left]
    have hnodup : (s.applyAll (fill new 0 l ++ [.head l])).head.Nodup := by
      rw [applyAll_append]
      exact hl
    obtain ⟨hn, hlogical⟩ := take_recover hnodup j
    rw [htake, applyAll_append, if_neg hk]
    exact ⟨hn, hlogical.trans (logical_committed s l new)⟩

/-- However a transaction and the recoveries after it are cut off, a completed recovery
finds the contents from before or from after the transaction. -/
theorem crash_recover {s t : Store A B} (hs : s.head = []) {l : List A} (hl : l.Nodup)
    (new : A → B) (k : Nat) (ht : (s.applyAll ((s.commit l new).take k)).Crashes t) :
    (t.applyAll t.recover).head = [] ∧
      (t.applyAll t.recover).home = if k ≤ l.length then s.home else after s.home l new := by
  obtain ⟨hnodup, hlogical⟩ := take_commit hs hl new k
  obtain ⟨ht', heq⟩ := ht.logical hnodup
  obtain ⟨hhead, hhome⟩ := applyAll_recover ht'
  exact ⟨hhead, by rw [hhome, heq, hlogical]⟩

end Xv6.RedoLog
