import Mathlib.Computability.Language
import Mathlib.Data.UInt

/-!
# grep

grep.c: the matcher against the language that a pattern denotes, and the loop that reads
the input piece by piece. Strings are the bytes before their NUL.
-/
namespace Xv6.Grep

open Computability

abbrev Str := List UInt8

abbrev caret : UInt8 := 94

abbrev dollar : UInt8 := 36

abbrev asterisk : UInt8 := 42

abbrev dot : UInt8 := 46

abbrev newline : UInt8 := 10

/-- The loop of `matchstar(c, re, text)`, where `here` is `matchhere` for `re`. -/
def matchstar (here : Str → Bool) (c : UInt8) : Str → Bool
  | [] => here []
  | t :: text => here (t :: text) || ((t = c || c = dot) && matchstar here c text)

/-- Search for `re` at the beginning of the text. -/
def matchhere : Str → Str → Bool
  | [], _ => true
  | [c], text =>
    if c = dollar then text = []
    else match text with
      | [] => false
      | t :: _ => c = dot || c = t
  | c :: d :: re, text =>
    if d = asterisk then matchstar (matchhere re) c text
    else match text with
      | [] => false
      | t :: text => (c = dot || c = t) && matchhere (d :: re) text

/-- The do-while loop of `match`. -/
def matchAnywhere (re : Str) : Str → Bool
  | [] => matchhere re []
  | t :: text => matchhere re (t :: text) || matchAnywhere re text

/-- `match(re, text)`. -/
def matchText : Str → Str → Bool
  | [], text => matchAnywhere [] text
  | c :: re, text => if c = caret then matchhere re text else matchAnywhere (c :: re) text

/-! ## What a pattern denotes -/

/-- The strings of one character that `c` stands for. -/
def single (c : UInt8) : Language UInt8 := {w | ∃ x, (c = dot ∨ c = x) ∧ w = [x]}

/-- A pattern: the languages of its items from left to right, and whether it must match up
to the end of the text. -/
structure Pattern where
  items : List (Language UInt8)
  atEnd : Bool

/-- Read a pattern from left to right. -/
def read : Str → Pattern
  | [] => ⟨[], false⟩
  | [c] => if c = dollar then ⟨[], true⟩ else ⟨[single c], false⟩
  | c :: d :: re =>
    if d = asterisk then ⟨(single c)∗ :: (read re).items, (read re).atEnd⟩
    else ⟨single c :: (read (d :: re)).items, (read (d :: re)).atEnd⟩

/-- The text starts with a string of the language of the pattern. -/
def Pattern.Begins (p : Pattern) (text : Str) : Prop :=
  ∃ s rest, text = s ++ rest ∧ s ∈ p.items.prod ∧ (p.atEnd = true → rest = [])

/-- The text contains a string of the language of the pattern, for an initial `^` at its start. -/
def Denotes (re text : Str) : Prop :=
  match re with
  | [] => ∃ before rest, text = before ++ rest ∧ (read []).Begins rest
  | c :: re =>
    if c = caret then (read re).Begins text
    else ∃ before rest, text = before ++ rest ∧ (read (c :: re)).Begins rest

theorem Pattern.begins_nil {b : Bool} {text : Str} :
    Pattern.Begins ⟨[], b⟩ text ↔ (b = true → text = []) := by
  constructor
  · rintro ⟨s, rest, rfl, hs, hrest⟩ hb
    rw [hrest hb, Set.mem_singleton_iff.mp hs]
    rfl
  · exact fun h => ⟨[], text, rfl, rfl, h⟩

/-- A pattern matches if its first item does and the others match what follows. -/
theorem Pattern.begins_cons {l : Language UInt8} {p : Pattern} {text : Str} :
    Pattern.Begins ⟨l :: p.items, p.atEnd⟩ text ↔ ∃ u rest, text = u ++ rest ∧
      u ∈ l ∧ p.Begins rest := by
  constructor
  · rintro ⟨s, rest, rfl, hs, hrest⟩
    obtain ⟨u, hu, v, hv, rfl⟩ := Language.mem_mul.mp hs
    exact ⟨u, v ++ rest, List.append_assoc u v rest, hu, v, rest, rfl, hv, hrest⟩
  · rintro ⟨u, _, rfl, hu, v, rest, rfl, hv, hrest⟩
    exact ⟨u ++ v, rest, (List.append_assoc u v rest).symm, Language.append_mem_mul hu hv, hrest⟩

theorem begins_single {c : UInt8} {p : Pattern} {text : Str} :
    Pattern.Begins ⟨single c :: p.items, p.atEnd⟩ text ↔
      ∃ t rest, text = t :: rest ∧ (c = dot ∨ c = t) ∧ p.Begins rest := by
  rw [Pattern.begins_cons]
  constructor
  · rintro ⟨_, rest, rfl, ⟨t, ht, rfl⟩, hrest⟩
    exact ⟨t, rest, rfl, ht, hrest⟩
  · rintro ⟨t, rest, rfl, ht, hrest⟩
    exact ⟨[t], rest, rfl, ⟨t, ht, rfl⟩, hrest⟩

theorem mem_star_single {c : UInt8} {u : Str} : u ∈ (single c)∗ ↔ ∀ x ∈ u, c = dot ∨ c = x := by
  constructor
  · rintro ⟨L, rfl, hL⟩ x hx
    obtain ⟨w, hw, hxw⟩ := List.mem_flatten.mp hx
    obtain ⟨y, hy, rfl⟩ := hL w hw
    rwa [List.mem_singleton.mp hxw]
  · intro h
    refine ⟨u.map fun x => [x], ?_, fun w hw => ?_⟩
    · rw [← List.flatMap_def, List.flatMap_singleton']
    obtain ⟨x, hx, rfl⟩ := List.mem_map.mp hw
    exact ⟨x, h x hx, rfl⟩

theorem matchstar_iff {here : Str → Bool} {c : UInt8} {text : Str} :
    matchstar here c text = true ↔
      ∃ u rest, text = u ++ rest ∧ (∀ x ∈ u, c = dot ∨ c = x) ∧ here rest = true := by
  induction text with
  | nil =>
    refine ⟨fun h => ⟨[], [], rfl, by simp, h⟩, ?_⟩
    rintro ⟨u, rest, htext, -, h⟩
    obtain ⟨rfl, rfl⟩ := List.append_eq_nil_iff.mp htext.symm
    exact h
  | cons t text ih =>
    simp only [matchstar, Bool.or_eq_true, Bool.and_eq_true, decide_eq_true_eq, ih]
    constructor
    · rintro (h | ⟨ht, u, rest, rfl, hu, h⟩)
      · exact ⟨[], _, rfl, by simp, h⟩
      · exact ⟨t :: u, rest, rfl, List.forall_mem_cons.mpr ⟨ht.symm.imp_right Eq.symm, hu⟩, h⟩
    · rintro ⟨u, rest, htext, hu, h⟩
      cases u with
      | nil => exact .inl (by rw [htext]; exact h)
      | cons x u =>
        obtain ⟨rfl, rfl⟩ := List.cons.inj htext
        obtain ⟨ht, hu⟩ := List.forall_mem_cons.mp hu
        exact .inr ⟨ht.symm.imp_left Eq.symm, u, rest, rfl, hu, h⟩

theorem matchhere_iff : ∀ re text : Str, matchhere re text = true ↔ (read re).Begins text
  | [], text => by simp [matchhere, read, Pattern.begins_nil]
  | [c], text => by
    by_cases hc : c = dollar
    · simp [matchhere, read, hc, Pattern.begins_nil]
    · rw [read, if_neg hc, begins_single (p := ⟨[], false⟩)]
      cases text <;> simp [matchhere, hc, Pattern.begins_nil]
  | c :: d :: re, text => by
    by_cases hd : d = asterisk
    · simp only [read, matchhere, hd, if_true, Pattern.begins_cons, matchstar_iff, mem_star_single,
        matchhere_iff re]
    · rw [read, if_neg hd, begins_single]
      cases text <;> simp [matchhere, hd, matchhere_iff (d :: re)]

theorem matchAnywhere_iff (re text : Str) :
    matchAnywhere re text = true ↔ ∃ before rest, text = before ++ rest ∧
      (read re).Begins rest := by
  induction text with
  | nil =>
    rw [matchAnywhere, matchhere_iff]
    refine ⟨fun h => ⟨[], [], rfl, h⟩, ?_⟩
    rintro ⟨before, rest, htext, h⟩
    obtain ⟨rfl, rfl⟩ := List.append_eq_nil_iff.mp htext.symm
    exact h
  | cons t text ih =>
    rw [matchAnywhere, Bool.or_eq_true, matchhere_iff, ih]
    constructor
    · rintro (h | ⟨before, rest, rfl, h⟩)
      · exact ⟨[], _, rfl, h⟩
      · exact ⟨t :: before, rest, rfl, h⟩
    · rintro ⟨before, rest, htext, h⟩
      cases before with
      | nil => exact .inl (by rw [htext]; exact h)
      | cons x before =>
        obtain ⟨rfl, rfl⟩ := List.cons.inj htext
        exact .inr ⟨before, rest, rfl, h⟩

/-- The matcher finds exactly what the pattern denotes. -/
theorem matchText_iff (re text : Str) : matchText re text = true ↔ Denotes re text := by
  cases re with
  | nil => exact matchAnywhere_iff [] text
  | cons c re =>
    by_cases hc : c = caret
    · simp only [matchText, Denotes, hc, if_true, matchhere_iff]
    · simp only [matchText, Denotes, hc, if_false, matchAnywhere_iff]

/-! ## Reading the input -/

def strchr (c : UInt8) : Str → Option Nat
  | [] => none
  | x :: s => if x = 0 then none else if x = c then some 0 else (strchr c s).map (· + 1)

/-- The loop of `grep` over the lines of the buffer, for the bytes from `p` to the NUL behind
them: what is written, and the bytes left when there is no newline. Each round takes a byte. -/
def lineLoop (pattern : Str) : Nat → Str → Str × Str
  | 0, s => ([], s)
  | fuel + 1, s =>
    match strchr newline s with
    | none => ([], s)
    | some q =>
      let (out, rest) := lineLoop pattern fuel (s.drop (q + 1))
      ((if matchText pattern (s.take q) then s.take q ++ [newline] else []) ++ out, rest)

/-- The bytes that stay in the buffer; `p == buf` if there was no newline at all. -/
def carried (buf rest : Str) : Str := if rest.length = buf.length then [] else rest

/-- `grep`, with `m` bytes in the buffer, for the results of its calls of `read` up to the end
of the input. A call returns at least one byte and at most what it is asked for. -/
def grep (pattern : Str) : Str → List Str → Option Str
  | _, [] => some []
  | buf, chunk :: chunks =>
    if 0 < chunk.length ∧ chunk.length ≤ 1024 - buf.length - 1 then
      let (out, rest) := lineLoop pattern (buf ++ chunk).length (buf ++ chunk)
      (grep pattern (carried (buf ++ chunk) rest) chunks).map (out ++ ·)
    else none

/-- The input of these lines. -/
def stream (lines : List Str) : Str := lines.flatMap (· ++ [newline])

def matching (pattern : Str) (lines : List Str) : Str := stream (lines.filter (matchText pattern))

/-- The complete lines of an input, and what follows the last newline. -/
def split : Str → List Str × Str
  | [] => ([], [])
  | x :: s =>
    if x = newline then ([] :: (split s).1, (split s).2)
    else match split s with
      | ([], rest) => ([], x :: rest)
      | (l :: lines, rest) => ((x :: l) :: lines, rest)

theorem split_of_not_mem {s : Str} (h : newline ∉ s) : split s = ([], s) := by
  induction s with
  | nil => rfl
  | cons x s ih =>
    rw [List.mem_cons, not_or] at h
    rw [split, if_neg (Ne.symm h.1), ih h.2]

theorem split_line {l s : Str} (h : newline ∉ l) :
    split (l ++ newline :: s) = (l :: (split s).1, (split s).2) := by
  induction l with
  | nil => rw [List.nil_append, split, if_pos rfl]
  | cons x l ih =>
    rw [List.mem_cons, not_or] at h
    rw [List.cons_append, split, if_neg (Ne.symm h.1), ih h.2]

/-- What is left has no newline. -/
theorem split_rest (s : Str) : newline ∉ (split s).2 := by
  induction s with
  | nil => simp [split]
  | cons x s ih =>
    rw [split]
    split
    next => exact ih
    next hx =>
      split <;> rename_i h <;> rw [h] at ih
      · exact List.not_mem_cons_of_ne_of_not_mem (Ne.symm hx) ih
      · exact ih

/-- An input is its first line and the rest of it, unless it has no newline. -/
theorem line_cases (s : Str) : newline ∉ s ∨ ∃ l t, s = l ++ newline :: t ∧ newline ∉ l := by
  by_cases h : newline ∈ s
  · obtain ⟨l, t, rfl, hl⟩ := List.eq_append_cons_of_mem h
    exact .inr ⟨l, t, rfl, hl⟩
  · exact .inl h

/-- Splitting may be interrupted anywhere if what is left is put before what follows. -/
theorem split_append (s t : Str) :
    split (s ++ t) =
      ((split s).1 ++ (split ((split s).2 ++ t)).1, (split ((split s).2 ++ t)).2) := by
  induction hn : s.length using Nat.strong_induction_on generalizing s with
  | h n ih =>
    obtain h | ⟨l, u, rfl, hl⟩ := line_cases s
    · rw [split_of_not_mem h, List.nil_append]
    · have := ih u.length (by simp at hn; omega) u rfl
      rw [List.append_assoc, List.cons_append, split_line hl, split_line hl, this, List.cons_append]

theorem split_stream (lines : List Str) (h : ∀ l ∈ lines, newline ∉ l) :
    split (stream lines) = (lines, []) := by
  induction lines with
  | nil => rfl
  | cons l lines ih =>
    obtain ⟨hl, hlines⟩ := List.forall_mem_cons.mp h
    have : stream (l :: lines) = l ++ newline :: stream lines := by simp [stream]
    rw [this, split_line hl, ih hlines]

theorem strchr_line {l s : Str} (h0 : 0 ∉ l) (hl : newline ∉ l) :
    strchr newline (l ++ newline :: s) = some l.length := by
  induction l with
  | nil => rfl
  | cons x l ih =>
    rw [List.mem_cons, not_or] at h0 hl
    rw [List.cons_append, strchr, if_neg (Ne.symm h0.1), if_neg (Ne.symm hl.1), ih h0.2 hl.2]
    rfl

theorem strchr_of_not_mem {s : Str} (h : newline ∉ s) : strchr newline s = none := by
  induction s with
  | nil => rfl
  | cons x s ih =>
    rw [List.mem_cons, not_or] at h
    rw [strchr, if_neg (Ne.symm h.1), ih h.2]
    split <;> rfl

/-- The loop writes the matching ones of the complete lines. -/
theorem lineLoop_eq (pattern : Str) (fuel : Nat) (s : Str) (hfuel : s.length ≤ fuel) (h0 : 0 ∉ s) :
    lineLoop pattern fuel s = (matching pattern (split s).1, (split s).2) := by
  induction fuel generalizing s with
  | zero =>
    obtain rfl := List.length_eq_zero_iff.mp (Nat.le_zero.mp hfuel)
    rfl
  | succ fuel ih =>
    obtain h | ⟨l, t, rfl, hl⟩ := line_cases s
    · rw [lineLoop, strchr_of_not_mem h, split_of_not_mem h]
      rfl
    · rw [List.mem_append, List.mem_cons, not_or, not_or] at h0
      have hdrop : (l ++ newline :: t).drop (l.length + 1) = t := by simp
      rw [lineLoop, strchr_line h0.1 hl, split_line hl]
      simp only [hdrop, ih t (by simp at hfuel; omega) h0.2.2, List.take_left']
      by_cases hm : matchText pattern l = true <;> simp [matching, stream, hm]

theorem stream_split (s : Str) : stream (split s).1 ++ (split s).2 = s := by
  induction hn : s.length using Nat.strong_induction_on generalizing s with
  | h n ih =>
    obtain h | ⟨l, t, rfl, hl⟩ := line_cases s
    · rw [split_of_not_mem h]
      rfl
    · have := ih t.length (by simp at hn; omega) t rfl
      rw [split_line hl]
      simpa [stream] using this

theorem not_mem_rest {x : UInt8} {s t : Str} (h : x ∉ s ++ t) : x ∉ (split s).2 ++ t := by
  intro hx
  rw [← stream_split s, List.append_assoc] at h
  exact h (List.mem_append_right _ hx)

theorem length_matching_le (pattern : Str) (lines : List Str) :
    (matching pattern lines).length ≤ (stream lines).length := by
  induction lines with
  | nil => exact le_rfl
  | cons l lines ih =>
    simp only [matching, stream, List.flatMap_cons, List.length_append] at ih ⊢
    by_cases hm : matchText pattern l = true
    · rw [List.filter_cons_of_pos hm, List.flatMap_cons, List.length_append, List.length_append]
      omega
    · rw [List.filter_cons_of_neg hm]
      omega

theorem carried_of_mem {s : Str} (h : newline ∈ s) : carried s (split s).2 = (split s).2 := by
  refine if_neg fun hlen => ?_
  obtain hs | ⟨l, t, rfl, hl⟩ := line_cases s
  · exact hs h
  · have := congrArg List.length (stream_split t)
    rw [split_line hl] at hlen
    simp at hlen this
    omega

/-- If every call of `read` returns a newline, the lines are those of the whole input. -/
theorem grep_eq (pattern buf : Str) (chunks : List Str) (hbuf : newline ∉ buf)
    (h0 : 0 ∉ buf ++ chunks.flatten) (hc : ∀ c ∈ chunks, newline ∈ c)
    (hr : (grep pattern buf chunks).isSome) :
    grep pattern buf chunks = some (matching pattern (split (buf ++ chunks.flatten)).1) := by
  induction chunks generalizing buf with
  | nil => simp [grep, split_of_not_mem hbuf, matching, stream]
  | cons c chunks ih =>
    obtain ⟨hnl, hc⟩ := List.forall_mem_cons.mp hc
    rw [List.flatten_cons, ← List.append_assoc] at h0 ⊢
    have h0' : 0 ∉ buf ++ c := fun h => h0 (List.mem_append_left _ h)
    rw [grep] at hr ⊢
    split at hr
    next hlen =>
      rw [if_pos hlen]
      simp only [lineLoop_eq pattern _ (buf ++ c) le_rfl h0',
        carried_of_mem (List.mem_append_right buf hnl), Option.isSome_map] at hr ⊢
      rw [ih _ (split_rest _) (not_mem_rest h0) hc hr, split_append (buf ++ c)]
      simp [matching, stream]
    next => cases hr

/-- No more is written than has been read, and less if a call of `read` returns no newline. -/
theorem length_grep (pattern buf : Str) (chunks : List Str) (hbuf : newline ∉ buf)
    (h0 : 0 ∉ buf ++ chunks.flatten) {out : Str} (h : grep pattern buf chunks = some out) :
    out.length ≤ (buf ++ chunks.flatten).length ∧
      ((∃ c ∈ chunks, newline ∉ c) → out.length < (buf ++ chunks.flatten).length) := by
  induction chunks generalizing buf out with
  | nil =>
    obtain rfl := Option.some.inj h
    simp
  | cons c chunks ih =>
    rw [List.flatten_cons, ← List.append_assoc] at h0 ⊢
    have h0' : 0 ∉ buf ++ c := fun h => h0 (List.mem_append_left _ h)
    rw [grep] at h
    split at h
    next hlen =>
      simp only [lineLoop_eq pattern _ (buf ++ c) le_rfl h0'] at h
      obtain ⟨out', hout, rfl⟩ := Option.map_eq_some_iff.mp h
      by_cases hnl : newline ∈ c
      · rw [carried_of_mem (List.mem_append_right buf hnl)] at hout
        obtain ⟨hle, hlt⟩ := ih _ (split_rest _) (not_mem_rest h0) hout
        have hm := length_matching_le pattern (split (buf ++ c)).1
        have hs := congrArg List.length (stream_split (buf ++ c))
        simp only [List.length_append] at hle hlt hs ⊢
        refine ⟨by omega, fun ⟨d, hd, hd'⟩ => ?_⟩
        obtain rfl | hd := List.mem_cons.mp hd
        · exact absurd hnl hd'
        · have := hlt ⟨d, hd, hd'⟩
          omega
      · have hnl' : newline ∉ buf ++ c := by simp [hbuf, hnl]
        rw [split_of_not_mem hnl', carried, if_pos rfl] at hout
        have h0' : 0 ∉ [] ++ chunks.flatten :=
          fun h => h0 (List.mem_append_right _ (by simpa using h))
        obtain ⟨hle, -⟩ := ih [] (by simp) h0' hout
        rw [split_of_not_mem hnl']
        simp only [matching, stream, List.filter_nil, List.flatMap_nil, List.nil_append,
          List.length_append] at hle ⊢
        omega
    next => cases h

theorem matchText_nil (text : Str) : matchText [] text = true :=
  (matchText_iff [] text).mpr ⟨[], text, rfl, Pattern.begins_nil.mpr nofun⟩

/-- `grep` writes exactly the matching lines, for every pattern, exactly if every call of
`read` returns a newline. -/
theorem writes_matching_iff (lines : List Str) (hlines : ∀ l ∈ lines, newline ∉ l ∧ 0 ∉ l)
    (chunks : List Str) (hread : chunks.flatten = stream lines)
    (hr : ∀ pattern, (grep pattern [] chunks).isSome) :
    (∀ pattern, grep pattern [] chunks = some (matching pattern lines)) ↔
    ∀ c ∈ chunks, newline ∈ c := by
  have h0 : 0 ∉ [] ++ chunks.flatten := by
    rw [hread, List.nil_append]
    intro h
    obtain ⟨l, hl, h⟩ := List.mem_flatMap.mp h
    obtain h | h := List.mem_append.mp h
    · exact (hlines l hl).2 h
    · exact absurd (List.mem_singleton.mp h) (by decide)
  constructor
  · intro h c hc
    by_contra hnl
    have hlt := (length_grep [] [] chunks (by simp) h0 (h [])).2 ⟨c, hc, hnl⟩
    -- The empty pattern matches every line.
    have hall : matching [] lines = stream lines := by
      rw [matching, List.filter_eq_self.mpr fun l _ => matchText_nil l]
    rw [hall, hread] at hlt
    exact lt_irrefl _ hlt
  · intro hc pattern
    rw [grep_eq pattern [] chunks (by simp) h0 hc (hr pattern), List.nil_append, hread,
      split_stream lines fun l hl => (hlines l hl).1]

/-- Whatever the pattern is, `grep` writes the same for two ways of reading one input, namely
the matching lines, exactly if every call of `read` in both returns a newline. -/
theorem same_output_iff (lines : List Str) (hlines : ∀ l ∈ lines, newline ∉ l ∧ 0 ∉ l)
    (c₁ c₂ : List Str) (h₁ : c₁.flatten = stream lines) (h₂ : c₂.flatten = stream lines)
    (hr₁ : ∀ pattern, (grep pattern [] c₁).isSome) (hr₂ : ∀ pattern, (grep pattern [] c₂).isSome) :
    (∀ pattern, grep pattern [] c₁ = some (matching pattern lines) ∧
        grep pattern [] c₂ = grep pattern [] c₁) ↔
      ∀ c ∈ c₁ ++ c₂, newline ∈ c := by
  have hiff₁ := writes_matching_iff lines hlines c₁ h₁ hr₁
  have hiff₂ := writes_matching_iff lines hlines c₂ h₂ hr₂
  rw [List.forall_mem_append, ← hiff₁, ← hiff₂]
  constructor
  · exact fun h => ⟨fun pattern => (h pattern).1, fun pattern => (h pattern).2.trans (h pattern).1⟩
  · exact fun ⟨h, h'⟩ pattern => ⟨h pattern, (h' pattern).trans (h pattern).symm⟩

/-- Two lines, read one by one or together. -/
theorem same_output_iff_two_lines :
    (∀ c ∈ [[97, newline], [98, newline], [97, newline, 98, newline]], newline ∈ c) ∧
    ∀ pattern,
      grep pattern [] [[97, newline], [98, newline]] = some (matching pattern [[97], [98]]) ∧
      grep pattern [] [[97, newline, 98, newline]] =
        grep pattern [] [[97, newline], [98, newline]] :=
  ⟨by decide, (same_output_iff [[97], [98]] (by decide) _ _ (by decide) (by decide) (fun _ => rfl)
    (fun _ => rfl)).mpr (by decide)⟩

/-- A line that two calls of `read` return in two pieces loses its first part. -/
theorem divided_line_is_cut :
    [[97], [98, newline]].flatten = stream [[97, 98]] ∧
    [[97, 98, newline]].flatten = stream [[97, 98]] ∧
      grep [] [] [[97], [98, newline]] = some [98, newline] ∧
      grep [] [] [[97, 98, newline]] = some [97, 98, newline] := by decide

end Xv6.Grep
