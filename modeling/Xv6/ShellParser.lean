import Mathlib.Data.List.TakeWhile
import Mathlib.Data.UInt

/-!
# The parser of the shell

The parser of sh.c, which works on pointers into the line, as functions of positions in it,
and the tokens that are left of the line at a position.
-/
namespace Xv6.ShellParser

abbrev Str := List UInt8

abbrev less : UInt8 := 60

abbrev greater : UInt8 := 62

abbrev bar : UInt8 := 124

abbrev ampersand : UInt8 := 38

abbrev semicolon : UInt8 := 59

abbrev lparen : UInt8 := 40

abbrev rparen : UInt8 := 41

abbrev maxArgs : Nat := 20

/-- `strchr(whitespace, c)`: blank, \t, \r, \n and \v. -/
def isSpace (c : UInt8) : Bool := c ∈ [32, 9, 13, 10, 11]

/-- `strchr(symbols, c)`. -/
def isSymbol (c : UInt8) : Bool := c ∈ [less, bar, greater, ampersand, semicolon, lparen, rparen]

def isWord (c : UInt8) : Bool := !isSpace c && !isSymbol c

/-- The word from `q` up to `eq`. -/
structure Span where
  q : Nat
  eq : Nat
  deriving DecidableEq

inductive Token where
  | symbol (c : UInt8)
  | append
  | word (w : Span)
  deriving DecidableEq

inductive Mode where
  | rdonly
  | wronlyCreate
  deriving DecidableEq

/-- `struct cmd`, with the words of type `ω`. -/
inductive Cmd (ω : Type) where
  | exec (argv : List ω)
  | redir (cmd : Cmd ω) (file : ω) (mode : Mode) (fd : Nat)
  | pipe (left right : Cmd ω)
  | list (left right : Cmd ω)
  | back (cmd : Cmd ω)
  deriving DecidableEq

/-! ## The program -/

def byte (line : Str) (s : Nat) : UInt8 := line.getD s 0

/-- `while(s < es && strchr(whitespace, *s)) s++`. -/
def skip (line : Str) (s : Nat) : Nat := s + ((line.drop s).takeWhile isSpace).length

/-- The token, if any, and the position behind it. -/
def gettoken (line : Str) (s : Nat) : Option Token × Nat :=
  let q := skip line s
  let c := byte line q
  if c = 0 then (none, skip line q)
  else if c = greater then
    if byte line (q + 1) = greater then (some .append, skip line (q + 2))
    else (some (.symbol greater), skip line (q + 1))
  else if isSymbol c then (some (.symbol c), skip line (q + 1))
  else
    let eq := q + ((line.drop q).takeWhile isWord).length
    (some (.word ⟨q, eq⟩), skip line eq)

def peek (line : Str) (s : Nat) (toks : List UInt8) : Bool × Nat :=
  (byte line (skip line s) ≠ 0 && byte line (skip line s) ∈ toks, skip line s)

inductive Stop where
  | fuel
  | panic (s : String)
  deriving DecidableEq

def redircmd (tok : Option Token) (file : Span) (cmd : Cmd Span) : Cmd Span :=
  match tok with
  | some (.symbol c) =>
    if c = less then .redir cmd file .rdonly 0 else .redir cmd file .wronlyCreate 1
  | some .append => .redir cmd file .wronlyCreate 1
  | _ => cmd

def parseredirs (line : Str) : Nat → Cmd Span → Nat → Except Stop (Cmd Span × Nat)
  | 0, _, _ => .error .fuel
  | n + 1, cmd, s =>
    let (more, s) := peek line s [less, greater]
    if more then
      let (tok, s) := gettoken line s
      match gettoken line s with
      | (some (.word file), s) => parseredirs line n (redircmd tok file cmd) s
      | _ => .error (.panic "missing file for redirection")
    else .ok (cmd, s)

/-- `cmd->argv[argc] = q`, where `cmd` is the EXEC node inside of the REDIR nodes. -/
def Cmd.addArg {ω : Type} (w : ω) : Cmd ω → Cmd ω
  | .exec argv => .exec (argv ++ [w])
  | .redir cmd file mode fd => .redir (cmd.addArg w) file mode fd
  | cmd => cmd

/-- The loop of `parseexec`. -/
def parseargs (line : Str) : Nat → Nat → Cmd Span → Nat → Except Stop (Cmd Span × Nat)
  | 0, _, _, _ => .error .fuel
  | n + 1, argc, ret, s =>
    let (stop, s) := peek line s [bar, rparen, ampersand, semicolon]
    if stop then .ok (ret, s)
    else match gettoken line s with
      | (none, s) => .ok (ret, s)
      | (some (.word w), s) =>
        if argc + 1 ≥ maxArgs then .error (.panic "too many args")
        else do
          let (ret, s) ← parseredirs line n (ret.addArg w) s
          parseargs line n (argc + 1) ret s
      | (some _, _) => .error (.panic "syntax")

/-- The loop of `parseline` over `&`. -/
def parsebacks (line : Str) : Nat → Cmd Span → Nat → Except Stop (Cmd Span × Nat)
  | 0, _, _ => .error .fuel
  | n + 1, cmd, s =>
    let (more, s) := peek line s [ampersand]
    if more then parsebacks line n (.back cmd) (gettoken line s).2 else .ok (cmd, s)

mutual

def parseline (line : Str) : Nat → Nat → Except Stop (Cmd Span × Nat)
  | 0, _ => .error .fuel
  | n + 1, s => do
    let (cmd, s) ← parsepipe line n s
    let (cmd, s) ← parsebacks line n cmd s
    let (more, s) := peek line s [semicolon]
    if more then
      let (right, s) ← parseline line n (gettoken line s).2
      return (.list cmd right, s)
    else return (cmd, s)

def parsepipe (line : Str) : Nat → Nat → Except Stop (Cmd Span × Nat)
  | 0, _ => .error .fuel
  | n + 1, s => do
    let (cmd, s) ← parseexec line n s
    let (more, s) := peek line s [bar]
    if more then
      let (right, s) ← parsepipe line n (gettoken line s).2
      return (.pipe cmd right, s)
    else return (cmd, s)

def parseexec (line : Str) : Nat → Nat → Except Stop (Cmd Span × Nat)
  | 0, _ => .error .fuel
  | n + 1, s => do
    let (block, s) := peek line s [lparen]
    if block then parseblock line n s
    else
      let (ret, s) ← parseredirs line n (.exec []) s
      parseargs line n 0 ret s

def parseblock (line : Str) : Nat → Nat → Except Stop (Cmd Span × Nat)
  | 0, _ => .error .fuel
  | n + 1, s => do
    let (block, s) := peek line s [lparen]
    if ¬ block then throw (.panic "parseblock")
    let (cmd, s) ← parseline line n (gettoken line s).2
    let (closed, s) := peek line s [rparen]
    if ¬ closed then throw (.panic "syntax - missing )")
    parseredirs line n cmd (gettoken line s).2

end

/-- Put a NUL behind every word of the tree. -/
def nulterminate : Cmd Span → Str → Str
  | .exec argv, buf => argv.foldl (fun buf w => buf.set w.eq 0) buf
  | .redir cmd file _ _, buf => (nulterminate cmd buf).set file.eq 0
  | .pipe left right, buf => nulterminate right (nulterminate left buf)
  | .list left right, buf => nulterminate right (nulterminate left buf)
  | .back cmd, buf => nulterminate cmd buf

/-- The tree for a line, and the bytes of the line and its NUL after `nulterminate`. The depth
of the calls is at most four for each byte, which bounds the fuel. -/
def parsecmd (line : Str) : Except Stop (Cmd Span × Str) := do
  let (cmd, s) ← parseline line (4 * line.length + 4) 0
  let (_, s) := peek line s []
  if s ≠ line.length then throw (.panic "syntax")
  return (cmd, nulterminate cmd (line ++ [0]))

/-! ## Tokens -/

/-- The tokens of a text that starts at position `pos`: white space is skipped, and each token
is as long as possible. -/
def tokens (pos : Nat) : Str → List Token
  | [] => []
  | c :: s =>
    if isSpace c then tokens (pos + 1) s
    else if c = greater ∧ s.head? = some greater then .append :: tokens (pos + 2) s.tail
    else if isSymbol c then .symbol c :: tokens (pos + 1) s
    else
      let n := (s.takeWhile isWord).length + 1
      .word ⟨pos, pos + n⟩ :: tokens (pos + n) (s.dropWhile isWord)
termination_by s => s.length
decreasing_by
  all_goals
    have := (List.dropWhile_suffix (l := s) isWord).length_le
    simp
    try omega

/-- The tokens that are left at position `s` of the line. -/
structure Rest (line : Str) (s : Nat) (ts : List Token) : Prop where
  toks : tokens s (line.drop s) = ts
  le : s ≤ line.length

/-- Whether the first token starts with one of these symbols. -/
def headIn (set : List UInt8) : List Token → Bool
  | .symbol c :: _ => c ∈ set
  | .append :: _ => greater ∈ set
  | _ => false

variable {line : Str} {s : Nat} {ts : List Token}

theorem tokens_skip (pos : Nat) (s : Str) :
    tokens (pos + (s.takeWhile isSpace).length) (s.dropWhile isSpace) = tokens pos s := by
  induction s generalizing pos with
  | nil => rfl
  | cons c s ih =>
    by_cases hc : isSpace c = true
    · rw [List.takeWhile_cons_of_pos hc, List.dropWhile_cons_of_pos hc, tokens,
        if_pos hc, ← ih (pos + 1), List.length_cons, Nat.add_right_comm, Nat.add_assoc]
    · rw [List.takeWhile_cons_of_neg hc, List.dropWhile_cons_of_neg hc]
      rfl

theorem drop_takeWhile (p : UInt8 → Bool) (s : Str) :
    s.drop (s.takeWhile p).length = s.dropWhile p := by
  nth_rewrite 2 [← List.takeWhile_append_dropWhile (p := p) (l := s)]
  rw [List.drop_left]

theorem drop_skip (line : Str) (s : Nat) :
    line.drop (skip line s) = (line.drop s).dropWhile isSpace := by
  rw [skip, ← List.drop_drop, drop_takeWhile]

theorem Rest.skip (h : Rest line s ts) : Rest line (skip line s) ts := by
  constructor
  · rw [drop_skip, ShellParser.skip, tokens_skip, h.toks]
  · have hle := (List.takeWhile_prefix (l := line.drop s) isSpace).length_le
    have := h.le
    rw [List.length_drop] at hle
    unfold ShellParser.skip
    omega

/-- What is left behind a piece of the text. -/
theorem Rest.behind {w r : Str} (hs : s ≤ line.length) (h : line.drop s = w ++ r) :
    Rest line (s + w.length) (tokens (s + w.length) r) := by
  have hlen := congrArg List.length h
  rw [List.length_drop, List.length_append] at hlen
  refine ⟨?_, by omega⟩
  rw [← List.drop_drop, h, List.drop_left]

theorem byte_eq (line : Str) (s : Nat) : byte line s = (line.drop s).headD 0 := by
  rw [byte, List.getD_eq_getElem?_getD, List.headD_eq_head?_getD, List.head?_drop]

/-- Behind the white space there is nothing, or a character of a token. -/
theorem skip_cases (h0 : 0 ∉ line) (s : Nat) :
    line.drop (skip line s) = [] ∨ ∃ c r, line.drop (skip line s) = c :: r ∧
      c ≠ 0 ∧ isSpace c = false := by
  cases h : line.drop (skip line s) with
  | nil => exact .inl rfl
  | cons c r =>
    refine .inr ⟨c, r, rfl, ?_, ?_⟩
    · rintro rfl
      exact h0 (List.mem_of_mem_drop (h ▸ List.mem_cons_self))
    · have hd := List.head?_dropWhile_not isSpace (line.drop s)
      rw [← drop_skip, h] at hd
      simpa using hd

/-- `gettoken` takes the first token. -/
theorem Rest.gettoken (h : Rest line s ts) (h0 : 0 ∉ line) :
    ∃ s', gettoken line s = (ts.head?, s') ∧ Rest line s' ts.tail := by
  have hq := h.skip
  obtain hr | ⟨c, r, hr, hc, hsp⟩ := skip_cases h0 s
  · have hts : ts = [] := by rw [← hq.toks, hr, tokens]
    subst hts
    exact ⟨_, by simp [ShellParser.gettoken, byte_eq, hr], hq.skip⟩
  have htok := hq.toks
  rw [hr, tokens, if_neg (by simp [hsp])] at htok
  simp only [ShellParser.gettoken, byte_eq, hr, List.headD_cons, hc, if_false]
  by_cases hg : c = greater
  · have hnext : line.drop (ShellParser.skip line s + 1) = r := by rw [← List.drop_drop, hr]; rfl
    rw [if_pos hg, hnext]
    by_cases hgg : r.head? = some greater
    · obtain ⟨r, rfl⟩ : ∃ r', r = greater :: r' := by
        cases r with
        | nil => cases hgg
        | cons d r => exact ⟨r, by rw [Option.some.inj hgg]⟩
      rw [if_pos ⟨hg, hgg⟩] at htok
      subst htok
      exact ⟨_, rfl, (Rest.behind (w := [c, greater]) hq.le hr).skip⟩
    · rw [if_neg (fun h => hgg h.2), if_pos (by rw [hg]; rfl)] at htok
      subst htok
      have hne : r.headD 0 ≠ greater := by
        cases r with
        | nil => decide
        | cons d r => exact fun h => hgg (congrArg some h)
      rw [if_neg hne, hg]
      exact ⟨_, rfl, (Rest.behind (w := [c]) hq.le hr).skip⟩
  · rw [if_neg hg]
    rw [if_neg (fun h => hg h.1)] at htok
    by_cases hsym : isSymbol c = true
    · rw [if_pos hsym] at htok ⊢
      subst htok
      exact ⟨_, rfl, (Rest.behind (w := [c]) hq.le hr).skip⟩
    · rw [if_neg hsym] at htok ⊢
      subst htok
      have hw : isWord c = true := by simp [isWord, hsp, hsym]
      rw [List.takeWhile_cons_of_pos hw]
      refine ⟨_, rfl, (Rest.behind (w := c :: r.takeWhile isWord) hq.le ?_).skip⟩
      rw [hr, List.cons_append, List.takeWhile_append_dropWhile]

/-- `peek` looks at the first token. -/
theorem Rest.peek (h : Rest line s ts) (h0 : 0 ∉ line) (set : List UInt8)
    (hset : set.all isSymbol = true) :
    ∃ s', peek line s set = (headIn set ts, s') ∧ Rest line s' ts := by
  have hq := h.skip
  refine ⟨_, Prod.ext ?_ rfl, hq⟩
  obtain hr | ⟨c, r, hr, hc, hsp⟩ := skip_cases h0 s
  · rw [← hq.toks, hr, tokens]
    simp [ShellParser.peek, byte_eq, hr, headIn]
  have hpeek : (ShellParser.peek line s set).1 = decide (c ∈ set) := by
    simp [ShellParser.peek, byte_eq, hr, hc]
  rw [hpeek, ← hq.toks, hr, tokens, if_neg (by simp [hsp])]
  split_ifs with hg hsym
  · rw [hg.1, headIn]
  · rfl
  · have : c ∉ set := fun h => hsym (List.all_eq_true.mp hset c h)
    simp [headIn, this]

end Xv6.ShellParser
