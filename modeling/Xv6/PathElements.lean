import Mathlib.Data.List.TakeWhile
import Xv6.Directory

/-!
# The elements of a path

`skipelem` cuts a path into the runs of bytes between its slashes and leaves each in the
buffer `name`. A run of 14 bytes or more fills the buffer and is not ended by a zero, a
shorter one is, and what the buffer held before stays behind the zero. `namecmp` compares
what is in front of it.
-/
namespace Xv6.PathElements

open Function (update update_self update_of_ne)
open Bytes Directory

/-- The runs of bytes other than `/`, each cut to its first 14 bytes. -/
def components (path : Path) : List Name := ((path.splitOn slash).filter (· ≠ [])).map (·.take 14)

/-- `skipelem`, with the buffer `name`. -/
def skipelemInto (path : Path) (name : Buf) : Option (Path × Buf) :=
  let path := path.dropWhile (· = slash)
  if path = [] then none
  else
    let s := path
    let path := path.dropWhile (· ≠ slash)
    let len := s.length - path.length
    let name :=
      if len ≥ 14 then memmove name 0 (fun j => s.getD j 0) 14
      else update (memmove name 0 (fun j => s.getD j 0) len) len 0
    some (path.dropWhile (· = slash), name)

/-- What the buffer holds each time `skipelem` returns. -/
def buffersFrom : Nat → Path → Buf → List Buf
  | 0, _, _ => []
  | fuel + 1, path, name =>
    match skipelemInto path name with
    | none => []
    | some (path, name) => name :: buffersFrom fuel path name

/-- The name in a buffer of 14 bytes. -/
def nameIn (b : Buf) : Name := ((List.range 14).map b).takeWhile (· ≠ 0)

variable {path l rest : Path}

@[simp] theorem components_nil : components [] = [] := rfl

theorem components_slash (path : Path) : components (slash :: path) = components path := by
  rw [components, List.splitOn_cons_eq_if_modifyHead, if_pos (by decide)]
  rfl

theorem components_dropWhile (path : Path) :
    components (path.dropWhile (· = slash)) = components path := by
  induction path with
  | nil => rfl
  | cons a path ih =>
    by_cases ha : a = slash
    · rw [List.dropWhile_cons_of_pos (by simpa using ha), ih, ha, components_slash]
    · rw [List.dropWhile_cons_of_neg (by simpa using ha)]

/-- The first run, up to the next slash or the end. -/
theorem components_run (hl : slash ∉ l) (hne : l ≠ [])
    (hrest : rest = [] ∨ ∃ p, rest = slash :: p) :
    components (l ++ rest) = l.take 14 :: components rest := by
  rcases hrest with rfl | ⟨p, rfl⟩
  · rw [List.append_nil, components, List.splitOn_eq_singleton hl]
    simp [hne]
  · have hfree : ∀ x ∈ l, (x == slash) = false := fun x hx => beq_false_of_ne fun h => hl (h ▸ hx)
    rw [components_slash, components, List.splitOn_eq_splitOnP,
      List.splitOnP_append_cons_of_forall_mem hfree slash (by decide)]
    simp [hne, components, List.splitOn_eq_splitOnP]

theorem dropWhile_ne_slash (path : Path) :
    path.dropWhile (· ≠ slash) = [] ∨ ∃ p, path.dropWhile (· ≠ slash) = slash :: p := by
  induction path with
  | nil => exact .inl rfl
  | cons a path ih =>
    by_cases ha : a = slash
    · exact .inr ⟨path, by rw [List.dropWhile_cons_of_neg (by simpa using ha), ha]⟩
    · rwa [List.dropWhile_cons_of_pos (by simpa using ha)]

theorem dropWhile_eq_slash (path : Path) :
    path.dropWhile (· = slash) = [] ∨ ∃ a p, path.dropWhile (· = slash) = a :: p ∧ a ≠ slash := by
  induction path with
  | nil => exact .inl rfl
  | cons a path ih =>
    by_cases ha : a = slash
    · rwa [List.dropWhile_cons_of_pos (by simpa using ha)]
    · exact .inr ⟨a, path, List.dropWhile_cons_of_neg (by simpa using ha), ha⟩

/-- A path without leading slashes is its first run and the rest. -/
theorem components_first {a : UInt8} (ha : a ≠ slash) (p : Path) :
    components (a :: p) = ((a :: p).takeWhile (· ≠ slash)).take 14 ::
      components ((a :: p).dropWhile (· ≠ slash)) := by
  have hrun : slash ∉ (a :: p).takeWhile (· ≠ slash) := fun h => by
    simpa using List.mem_takeWhile_imp h
  have hne : (a :: p).takeWhile (· ≠ slash) ≠ [] := by
    rw [List.takeWhile_cons_of_pos (by simpa using ha)]
    exact List.cons_ne_nil _ _
  have h := components_run hrun hne (dropWhile_ne_slash (a :: p))
  rwa [List.takeWhile_append_dropWhile] at h

/-- One call of `skipelem` takes the first component. -/
theorem skipelem_components (path : Path) : (skipelem path = none ∧ components path = []) ∨
    ∃ name rest, skipelem path = some (name, rest) ∧ components path = name :: components rest ∧
      rest.length < path.length := by
  have hdrop := components_dropWhile path
  have hlen : (path.dropWhile (· = slash)).length ≤ path.length :=
    (List.dropWhile_sublist _).length_le
  rw [skipelem]
  rcases dropWhile_eq_slash path with hp | ⟨a, p, hp, ha⟩ <;> rw [hp] at hdrop hlen ⊢
  · exact .inl ⟨rfl, hdrop.symm⟩
  · refine .inr ⟨_, _, if_neg (List.cons_ne_nil a p), ?_, ?_⟩
    · rw [components_dropWhile, ← hdrop, components_first ha]
    · have hle : (p.dropWhile (· ≠ slash)).length ≤ p.length := (List.dropWhile_sublist _).length_le
      rw [List.dropWhile_cons_of_pos (by simpa using ha)]
      refine lt_of_le_of_lt (List.dropWhile_sublist _).length_le ?_
      exact lt_of_lt_of_le (Nat.lt_succ_of_le hle) hlen

theorem elemsFrom_eq_components {fuel : Nat} (h : path.length ≤ fuel) :
    elemsFrom fuel path = components path := by
  induction fuel generalizing path with
  | zero => rw [List.length_eq_zero_iff.mp (Nat.le_zero.mp h), elemsFrom, components_nil]
  | succ fuel ih =>
    rw [elemsFrom]
    rcases skipelem_components path with ⟨hskip, hnil⟩
      | ⟨name, rest, hskip, hcons, hlt⟩ <;> rw [hskip]
    · exact hnil.symm
    · rw [hcons]
      exact congrArg (name :: ·) (ih (by omega))

/-- The elements that repeated calls give are the components of the string. -/
theorem elems_eq_components (path : Path) : elems path = components (path.takeWhile (· ≠ 0)) :=
  elemsFrom_eq_components (List.takeWhile_sublist _).length_le

/-! ## The buffer -/

/-- A run in the buffer is cut to 14 bytes. -/
theorem nameIn_copy (s : Path) (hz : 0 ∉ s) {len : Nat} (hlen : len ≤ s.length) (name : Buf) :
    nameIn (if len ≥ 14 then memmove name 0 (fun j => s.getD j 0) 14
      else update (memmove name 0 (fun j => s.getD j 0) len) len 0) = (s.take len).take 14 := by
  have hcopy : ∀ m j, j < m →
      memmove name 0 (fun j => s.getD j 0) m j = s.getD j 0 := fun m j hj => by
    rw [memmove_inside (Nat.zero_le j) (by omega), Nat.sub_zero]
  have hzero : 0 ∉ (s.take len).take 14 := fun h =>
    hz ((List.take_sublist len s).mem ((List.take_sublist 14 _).mem h))
  have htake : ∀ j < ((s.take len).take 14).length, s.getD j 0 =
      ((s.take len).take 14).getD j 0 := by
    intro j hj
    rw [List.length_take, List.length_take] at hj
    simp [List.getD_eq_getElem?_getD, show j < 14 by omega, show j < len by omega]
  have hle : ((s.take len).take 14).length = min 14 len := by
    rw [List.length_take, List.length_take]
    omega
  refine takeWhile_string hzero (by omega) (fun j hj => ?_) fun hshort => ?_
  · rw [← htake j hj]
    split
    next => exact hcopy 14 j (by omega)
    next => rw [update_of_ne (by omega), hcopy len j (by omega)]
  · have hlt : ¬ len ≥ 14 := by omega
    have heq : ((s.take len).take 14).length = len := by omega
    rw [if_neg hlt, heq, update_self]

/-- `skipelem` returns the rest of the path, and its buffer then holds the element. -/
theorem skipelemInto_eq (hz : 0 ∉ path) (name : Buf) :
    (skipelemInto path name).map (fun r => (nameIn r.2, r.1)) = skipelem path := by
  have hz' : 0 ∉ path.dropWhile (· = slash) := fun h => hz ((List.dropWhile_sublist _).mem h)
  rw [skipelemInto, skipelem]
  generalize path.dropWhile (· = slash) = s at hz'
  by_cases hs : s = []
  · rw [if_pos hs, if_pos hs]
    rfl
  · have hsplit : (s.takeWhile (· ≠ slash)).length +
        (s.dropWhile (· ≠ slash)).length = s.length := by
      rw [← List.length_append, List.takeWhile_append_dropWhile]
    have hrun : s.take (s.length - (s.dropWhile (· ≠ slash)).length) = s.takeWhile (· ≠ slash) := by
      rw [← hsplit, Nat.add_sub_cancel]
      exact (List.prefix_iff_eq_take.mp (List.takeWhile_prefix _)).symm
    rw [if_neg hs, if_neg hs]
    simp only [Option.map_some]
    rw [nameIn_copy s hz' (Nat.sub_le _ _) name, hrun]

theorem skipelem_sublist {name : Name} (h : skipelem path = some (name, rest)) :
    rest.Sublist path := by
  simp only [skipelem] at h
  split at h
  next => cases h
  next =>
    cases h
    exact ((List.dropWhile_sublist _).trans (List.dropWhile_sublist _)).trans
      (List.dropWhile_sublist _)

theorem buffersFrom_eq {fuel : Nat} (hz : 0 ∉ path) (name : Buf) :
    (buffersFrom fuel path name).map nameIn = elemsFrom fuel path := by
  induction fuel generalizing path name with
  | zero => rfl
  | succ fuel ih =>
    have hone := skipelemInto_eq hz name
    rw [buffersFrom, elemsFrom, ← hone]
    cases hskip : skipelemInto path name with
    | none => rfl
    | some r =>
      rw [hskip] at hone
      have hrest : 0 ∉ r.1 := fun h => hz ((skipelem_sublist hone.symm).mem h)
      exact congrArg (nameIn r.2 :: ·) (ih hrest r.2)

end Xv6.PathElements
