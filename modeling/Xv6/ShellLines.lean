import Xv6.ShellGrammar

/-!
# Command lines

`parsecmd` on whole lines. The NULs that `nulterminate` writes go behind the words, where no
other word can be, so the strings of the tree are the words of the line.
-/
namespace Xv6.ShellParser

variable {line : Str} {s : Nat} {ts : List Token}

/-! ## Words -/

/-- The bytes of a word. -/
def text (line : Str) (w : Span) : Str := (line.drop w.q).take (w.eq - w.q)

/-- The C string at a position. -/
def string (buf : Str) (q : Nat) : Str := (buf.drop q).takeWhile (· ≠ 0)

/-- The words of a tree, in the order in which `nulterminate` meets them. -/
def Cmd.words : Cmd Span → List Span
  | .exec argv => argv
  | .redir cmd file _ _ => cmd.words ++ [file]
  | .pipe left right | .list left right => left.words ++ right.words
  | .back cmd => cmd.words

/-- A word of the line: word characters only, and none behind it. -/
structure IsWordAt (line : Str) (w : Span) : Prop where
  chars : ∀ i, w.q ≤ i → i < w.eq → ∃ c, (line)[i]? = some c ∧ isWord c = true
  stops : ∀ c, (line)[w.eq]? = some c → isWord c = false
  lt : w.q < w.eq
  le : w.eq ≤ line.length

theorem length_tokens (pos : Nat) (s : Str) : (tokens pos s).length ≤ s.length := by
  induction pos, s using tokens.induct with
  | case1 => simp [tokens]
  | case2 pos c s hc ih =>
    rw [tokens, if_pos hc]
    exact Nat.le_succ_of_le ih
  | case3 pos c s hc hg ih =>
    rw [tokens, if_neg hc, if_pos hg, List.length_cons, List.length_cons]
    exact Nat.succ_le_succ (ih.trans (by simp))
  | case4 pos c s hc hg hs ih =>
    rw [tokens, if_neg hc, if_neg hg, if_pos hs]
    exact Nat.succ_le_succ ih
  | case5 pos c s hc hg hs n ih =>
    rw [tokens, if_neg hc, if_neg hg, if_neg hs]
    exact Nat.succ_le_succ (ih.trans (List.dropWhile_suffix _).length_le)

theorem IsWordAt.shift {pre s : Str} {w : Span}
    (h : IsWordAt s ⟨w.q - pre.length, w.eq - pre.length⟩) (hq : pre.length ≤ w.q) :
    IsWordAt (pre ++ s) w := by
  have hlt := h.lt
  have hle := h.le
  simp only at hlt hle
  refine ⟨fun i hi hi' => ?_, fun c hc => ?_, by omega, by simp; omega⟩
  · rw [List.getElem?_append_right (by omega)]
    exact h.chars (i - pre.length) (by simp only; omega) (by simp only; omega)
  · rw [List.getElem?_append_right (by omega)] at hc
    exact h.stops c hc

/-- A word behind a piece of the text. -/
theorem IsWordAt.further {pos p : Nat} {t : Str} {w : Span} (pre : Str) (hp : pos + pre.length = p)
    (h : p ≤ w.q ∧ IsWordAt t ⟨w.q - p, w.eq - p⟩) :
    pos ≤ w.q ∧ IsWordAt (pre ++ t) ⟨w.q - pos, w.eq - pos⟩ := by
  subst hp
  obtain ⟨hq, ht⟩ := h
  refine ⟨by omega, IsWordAt.shift ?_ (by simp only; omega)⟩
  simpa only [Nat.sub_sub] using ht

theorem isWordAt_first {c : UInt8} (s : Str) (hc : isWord c = true) :
    IsWordAt (c :: s) ⟨0, (s.takeWhile isWord).length + 1⟩ := by
  have hsplit : c :: s = (c :: s.takeWhile isWord) ++ s.dropWhile isWord := by
    rw [List.cons_append, List.takeWhile_append_dropWhile]
  have hlen := (List.takeWhile_prefix (l := s) isWord).length_le
  refine ⟨fun i _ hi => ?_, fun d hd => ?_, Nat.succ_pos _, by simpa using hlen⟩
  · have hi' : i < (c :: s.takeWhile isWord).length := hi
    rw [hsplit, List.getElem?_append_left hi', List.getElem?_eq_getElem hi']
    refine ⟨_, rfl, ?_⟩
    obtain hmem | hmem := List.mem_cons.mp (List.getElem_mem hi')
    · rw [hmem, hc]
    · exact List.mem_takeWhile_imp hmem
  · rw [hsplit, List.getElem?_append_right (by simp)] at hd
    have hnot := List.head?_dropWhile_not isWord s
    simp only [List.length_cons, Nat.sub_self, ← List.head?_eq_getElem?] at hd
    rw [hd] at hnot
    simpa using hnot

theorem isWordAt_of_mem (pos : Nat) (s : Str) (w : Span) (h : .word w ∈ tokens pos s) :
    pos ≤ w.q ∧ IsWordAt s ⟨w.q - pos, w.eq - pos⟩ := by
  induction pos, s using tokens.induct with
  | case1 => simp [tokens] at h
  | case2 pos c s hc ih =>
    rw [tokens, if_pos hc] at h
    exact IsWordAt.further [c] rfl (ih h)
  | case3 pos c s hc hg ih =>
    rw [tokens, if_neg hc, if_pos hg] at h
    obtain ⟨s, rfl⟩ : ∃ t, s = greater :: t := by
      cases s with
      | nil => cases hg.2
      | cons d s => exact ⟨s, by rw [Option.some.inj hg.2]⟩
    obtain h | h := List.mem_cons.mp h
    · cases h
    · exact IsWordAt.further [c, greater] rfl (ih h)
  | case4 pos c s hc hg hs ih =>
    rw [tokens, if_neg hc, if_neg hg, if_pos hs] at h
    obtain h | h := List.mem_cons.mp h
    · cases h
    · exact IsWordAt.further [c] rfl (ih h)
  | case5 pos c s hc hg hs n ih =>
    rw [tokens, if_neg hc, if_neg hg, if_neg hs] at h
    obtain h | h := List.mem_cons.mp h
    · obtain rfl := Token.word.inj h
      refine ⟨le_rfl, ?_⟩
      simpa using isWordAt_first s (by simp [isWord, hc, hs])
    · have := IsWordAt.further (c :: s.takeWhile isWord) rfl (ih h)
      rwa [List.cons_append, List.takeWhile_append_dropWhile] at this

/-! ## The strings of the tree -/

theorem nulterminate_eq (cmd : Cmd Span) (buf : Str) :
    nulterminate cmd buf = cmd.words.foldl (fun buf w => buf.set w.eq 0) buf := by
  induction cmd generalizing buf with
  | exec argv => rfl
  | redir cmd file mode fd ih =>
    rw [nulterminate, Cmd.words, List.foldl_append, ih, List.foldl_cons, List.foldl_nil]
  | pipe left right ihl ihr => rw [nulterminate, Cmd.words, List.foldl_append, ihl, ihr]
  | list left right ihl ihr => rw [nulterminate, Cmd.words, List.foldl_append, ihl, ihr]
  | back cmd ih => rw [nulterminate, Cmd.words, ih]

theorem getElem?_nulterminate (ws : List Span) (buf : Str) (i : Nat) :
    (ws.foldl (fun buf w => buf.set w.eq 0) buf)[i]? =
      if i ∈ ws.map Span.eq then buf[i]?.map fun _ => 0 else buf[i]? := by
  induction ws generalizing buf with
  | nil => rfl
  | cons w ws ih =>
    rw [List.foldl_cons, ih, List.map_cons]
    by_cases hi : w.eq = i
    · rw [if_pos (List.mem_cons.mpr (.inl hi.symm)), List.getElem?_set, if_pos hi]
      split <;> split <;> rename_i hlt <;> simp_all
    · rw [List.getElem?_set_ne hi]
      simp [Ne.symm hi]

/-- No terminator falls into a word, so each string is the word it was made from. -/
theorem string_nulterminate {cmd : Cmd Span} (hw : ∀ w ∈ cmd.words, IsWordAt line w) (h0 : 0 ∉ line)
    {w : Span} (hmem : w ∈ cmd.words) :
    string (nulterminate cmd (line ++ [0])) w.q = text line w := by
  obtain ⟨hchars, -, hlt, hle⟩ := hw w hmem
  have hget := getElem?_nulterminate cmd.words (line ++ [0])
  rw [← nulterminate_eq] at hget
  set buf := nulterminate cmd (line ++ [0])
  have hinside : (buf.drop w.q).take (w.eq - w.q) = text line w := by
    refine List.ext_getElem? fun i => ?_
    rw [text, List.getElem?_take, List.getElem?_take]
    split
    next hi =>
      obtain ⟨c, hc, hword⟩ := hchars (w.q + i) (by omega) (by omega)
      rw [List.getElem?_drop, List.getElem?_drop, hget, if_neg,
        List.getElem?_append_left (by omega)]
      intro hstop
      obtain ⟨w', hw', heq⟩ := List.mem_map.mp hstop
      rw [← heq] at hc
      have := (hw w' hw').stops c hc
      rw [hword] at this
      cases this
    next => rfl
  have hend : ∃ r, buf.drop w.eq = 0 :: r := by
    have h : buf[w.eq]? = some 0 := by
      rw [hget, if_pos (List.mem_map_of_mem hmem), List.getElem?_eq_getElem (by simp; omega)]
      rfl
    obtain ⟨hlt', hval⟩ := List.getElem?_eq_some_iff.mp h
    exact ⟨_, by rw [List.drop_eq_getElem_cons hlt', hval]⟩
  obtain ⟨r, hr⟩ := hend
  have hsplit : buf.drop w.q = text line w ++ 0 :: r := by
    rw [← hinside, ← hr]
    conv_lhs => rw [← List.take_append_drop (w.eq - w.q) (buf.drop w.q), List.drop_drop]
    rw [Nat.add_sub_cancel' hlt.le]
  have hne : ∀ c ∈ text line w, (decide (c ≠ 0)) = true := by
    intro c hc
    refine decide_eq_true ?_
    rintro rfl
    exact h0 (List.mem_of_mem_drop (List.mem_of_mem_take hc))
  rw [string, hsplit, List.takeWhile_append_of_pos hne]
  simp

theorem words_wrapAll (rs : List Redir) (cmd : Cmd Span) :
    (wrapAll rs cmd).words = cmd.words ++ rs.map Redir.file := by
  induction rs generalizing cmd with
  | nil => simp [wrapAll]
  | cons r rs ih =>
    have hstep : (r.wrap cmd).words = cmd.words ++ [r.file] := by
      obtain ⟨d, file⟩ := r
      cases d <;> rfl
    exact (ih (r.wrap cmd)).trans (by rw [hstep]; simp)

theorem words_backs (k : Nat) (cmd : Cmd Span) : (Cmd.back^[k] cmd).words = cmd.words := by
  induction k generalizing cmd with
  | zero => rfl
  | succ k ih => exact ih (.back cmd)

theorem word_mem_redirs {rs : List Redir} {w : Span} (h : w ∈ rs.map Redir.file) :
    .word w ∈ rs.flatMap Redir.yield := by
  obtain ⟨r, hr, rfl⟩ := List.mem_map.mp h
  exact List.mem_flatMap.mpr ⟨r, hr, by simp [Redir.yield]⟩

mutual

theorem Line.word_mem (l : Line) (w : Span) (h : w ∈ l.cmd.words) : .word w ∈ l.yield := by
  match l with
  | .last p k =>
    rw [Line.cmd, words_backs] at h
    exact List.mem_append_left _ (p.word_mem w h)
  | .seq p k l =>
    rw [Line.cmd, Cmd.words, words_backs] at h
    rw [Line.yield]
    obtain h | h := List.mem_append.mp h
    · exact List.mem_append_left _ (p.word_mem w h)
    · exact List.mem_append_right _
        (List.mem_append_right _ (List.mem_cons_of_mem _ (l.word_mem w h)))

theorem Pipe.word_mem (p : Pipe) (w : Span) (h : w ∈ p.cmd.words) : .word w ∈ p.yield := by
  match p with
  | .last e => exact e.word_mem w h
  | .pipe e p =>
    rw [Pipe.yield]
    obtain h | h := List.mem_append.mp h
    · exact List.mem_append_left _ (e.word_mem w h)
    · exact List.mem_append_right _ (List.mem_cons_of_mem _ (p.word_mem w h))

theorem Exec.word_mem (e : Exec) (w : Span) (h : w ∈ e.cmd.words) : .word w ∈ e.yield := by
  match e with
  | .block l rs =>
    rw [Exec.cmd, words_wrapAll] at h
    rw [Exec.yield]
    obtain h | h := List.mem_append.mp h
    · exact List.mem_cons_of_mem _ (List.mem_append_left _ (l.word_mem w h))
    · exact List.mem_cons_of_mem _
        (List.mem_append_right _ (List.mem_cons_of_mem _ (word_mem_redirs h)))
  | .simple rs args few =>
    rw [Exec.cmd, words_wrapAll, List.map_append] at h
    rw [Exec.yield]
    obtain h | h := List.mem_append.mp h
    · obtain ⟨a, ha, rfl⟩ := List.mem_map.mp h
      exact List.mem_append_right _ (List.mem_flatMap.mpr ⟨a, ha, List.mem_cons_self⟩)
    obtain h | h := List.mem_append.mp h
    · exact List.mem_append_left _ (word_mem_redirs h)
    · obtain ⟨r, hr, rfl⟩ := List.mem_map.mp h
      obtain ⟨a, ha, hr⟩ := List.mem_flatMap.mp hr
      exact List.mem_append_right _ (List.mem_flatMap.mpr
        ⟨a, ha, List.mem_cons_of_mem _ (word_mem_redirs (List.mem_map_of_mem hr))⟩)

end

/-! ## Command lines -/

theorem rest_start (line : Str) : Rest line 0 (tokens 0 line) := ⟨rfl, Nat.zero_le _⟩

/-- Only white space is left exactly if no token is. -/
theorem Rest.skip_eq_length (h : Rest line s ts) (h0 : 0 ∉ line) :
    ShellParser.skip line s = line.length ↔ ts = [] := by
  have hq := h.skip
  constructor
  · intro hs
    rw [← hq.toks, hs, List.drop_length, tokens]
  · rintro rfl
    obtain hr | ⟨c, r, hr, hc, hsp⟩ := skip_cases h0 s
    · exact le_antisymm hq.le (List.drop_eq_nil_iff.mp hr)
    · have := hq.toks
      rw [hr, tokens, if_neg (by simp [hsp])] at this
      split_ifs at this

/-- What `parsecmd` does after `parseline`. -/
theorem parsecmd_of_parseline {cmd : Cmd Span} (h0 : 0 ∉ line)
    (hp : parseline line (4 * line.length + 4) 0 = .ok (cmd, s)) (h : Rest line s ts) :
    parsecmd line =
      if ts = [] then .ok (cmd, nulterminate cmd (line ++ [0])) else .error (.panic "syntax") := by
  have hend := h.skip_eq_length h0
  simp only [parsecmd, hp, peek, bind, Except.bind]
  by_cases hts : ts = []
  · simp only [hend.mpr hts, hts, ne_eq, not_true_eq_false, if_false, if_true]
    rfl
  · simp only [mt hend.mp hts, hts, ne_eq, not_false_eq_true, if_true, if_false]
    rfl

/-- A line of the grammar is read to its end. -/
theorem parsecmd_of_yield (h0 : 0 ∉ line) (l : Line) (hl : l.yield = tokens 0 line) :
    parsecmd line = .ok (l.cmd, nulterminate l.cmd (line ++ [0])) := by
  have hlen := length_tokens 0 line
  obtain ⟨s, hp, hrest⟩ := l.complete h0 (4 * line.length + 4) 0 []
    (by rw [List.append_nil, hl]; exact rest_start line) (.inl rfl) (by rw [hl]; omega)
  rw [parsecmd_of_parseline h0 hp hrest, if_pos rfl]

/-- The words of its tree are words of the line, and the strings of the tree. -/
theorem string_of_yield (h0 : 0 ∉ line) (l : Line) (hl : l.yield = tokens 0 line) {w : Span}
    (hw : w ∈ l.cmd.words) :
    .word w ∈ tokens 0 line ∧ string (nulterminate l.cmd (line ++ [0])) w.q = text line w := by
  have hmem : ∀ w ∈ l.cmd.words, .word w ∈ tokens 0 line := fun w hw => hl ▸ l.word_mem w hw
  exact ⟨hmem w hw,
    string_nulterminate (fun w hw => (isWordAt_of_mem 0 line w (hmem w hw)).2) h0 hw⟩

/-- `parsecmd` ends on every line. It succeeds exactly on the lines of the grammar, with the
tree of the line, and the strings of the tree are then the words of the line. -/
theorem parsecmd_correct (line : Str) (h0 : 0 ∉ line) :
    parsecmd line ≠ .error .fuel ∧
      (∀ cmd, (∃ buf, parsecmd line = .ok (cmd, buf)) ↔
      ∃ l : Line, l.yield = tokens 0 line ∧ cmd = l.cmd) ∧
      ∀ cmd buf, parsecmd line = .ok (cmd, buf) → ∀ w ∈ cmd.words,
        .word w ∈ tokens 0 line ∧ string buf w.q = text line w := by
  have hlen := length_tokens 0 line
  have hread :=
    (phrases_read h0 (4 * line.length + 4)).1 0 (tokens 0 line) (rest_start line) (by omega)
  -- What is read to the end of the line is a line of the grammar.
  have hsound : ∀ cmd buf, parsecmd line = .ok (cmd, buf) →
      ∃ l : Line, l.yield = tokens 0 line ∧ cmd = l.cmd ∧ buf = nulterminate cmd (line ++ [0]) := by
    intro cmd buf hok
    obtain ⟨l, s, us, hp, hts, hrest⟩ | ⟨m, hm⟩ := hread
    · rw [parsecmd_of_parseline h0 hp hrest] at hok
      split at hok
      next hus =>
        obtain ⟨rfl, rfl⟩ := Prod.mk.inj (Except.ok.inj hok)
        exact ⟨l, by rw [hts, hus, List.append_nil], rfl, rfl⟩
      next => cases hok
    · rw [parsecmd, hm] at hok
      cases hok
  refine ⟨?_, fun cmd => ⟨?_, ?_⟩, fun cmd buf hok w hw => ?_⟩
  · obtain ⟨l, s, us, hp, -, hrest⟩ | ⟨m, hm⟩ := hread
    · rw [parsecmd_of_parseline h0 hp hrest]
      split <;> exact nofun
    · rw [parsecmd, hm]
      exact nofun
  · rintro ⟨buf, hok⟩
    obtain ⟨l, hl, hcmd, -⟩ := hsound cmd buf hok
    exact ⟨l, hl, hcmd⟩
  · rintro ⟨l, hl, rfl⟩
    exact ⟨_, parsecmd_of_yield h0 l hl⟩
  · obtain ⟨l, hl, rfl, rfl⟩ := hsound cmd buf hok
    exact string_of_yield h0 l hl hw

/-- The line `a>b`. -/
theorem parsecmd_correct_redirected :
    parsecmd [97, greater, 98] ≠ .error .fuel ∧
      (∀ cmd, (∃ buf, parsecmd [97, greater, 98] = .ok (cmd, buf)) ↔
        ∃ l : Line, l.yield = tokens 0 [97, greater, 98] ∧ cmd = l.cmd) ∧
      ∀ cmd buf, parsecmd [97, greater, 98] = .ok (cmd, buf) → ∀ w ∈ cmd.words,
        .word w ∈ tokens 0 [97, greater, 98] ∧ string buf w.q = text [97, greater, 98] w :=
  parsecmd_correct _ (by decide)

example : parsecmd [97, greater, 98] =
    .ok (.redir (.exec [⟨0, 1⟩]) ⟨2, 3⟩ .wronlyCreate 1, [97, 0, 98, 0]) := by decide +kernel

end Xv6.ShellParser
