import Xv6.ShellParser

/-!
# The grammar of command lines

The syntax trees of the grammar, with the tokens and the command tree of each, and what the
parsers do on the tokens: with enough fuel they read a phrase or panic, and they read every
phrase of the grammar that is followed by what may follow it.
-/
namespace Xv6.ShellParser

variable {line : Str} {n : Nat} {ts us : List Token}

inductive Direction where
  | input
  | output
  | append

/-- `redir -> ('<' | '>' | '>>') word`. -/
structure Redir where
  direction : Direction
  file : Span

def Direction.token : Direction → Token
  | .input => .symbol less
  | .output => .symbol greater
  | .append => .append

def Redir.yield (r : Redir) : List Token := [r.direction.token, .word r.file]

/-- The node for a redirection; `>>` opens the file like `>`. -/
def Redir.wrap (r : Redir) (cmd : Cmd Span) : Cmd Span :=
  match r.direction with
  | .input => .redir cmd r.file .rdonly 0
  | .output | .append => .redir cmd r.file .wronlyCreate 1

/-- The nodes for redirections, the last one outside. -/
def wrapAll (rs : List Redir) (cmd : Cmd Span) : Cmd Span := rs.foldl (fun cmd r => r.wrap cmd) cmd

/-- A word and the redirections that follow it. -/
abbrev Arg := Span × List Redir

def argYield (a : Arg) : List Token := .word a.1 :: a.2.flatMap Redir.yield

mutual

/-- `line -> pipe '&'* [';' line]`. -/
inductive Line where
  | last (p : Pipe) (n : Nat)
  | seq (p : Pipe) (n : Nat) (l : Line)

/-- `pipe -> exec ['|' pipe]`. -/
inductive Pipe where
  | last (e : Exec)
  | pipe (e : Exec) (p : Pipe)

/-- `exec -> '(' line ')' redir* | redir* (word redir*)*`, with fewer than MAXARGS words. -/
inductive Exec where
  | block (l : Line) (rs : List Redir)
  | simple (rs : List Redir) (args : List Arg) (few : args.length < maxArgs)

end

mutual

def Line.yield : Line → List Token
  | .last p n => p.yield ++ List.replicate n (.symbol ampersand)
  | .seq p n l => p.yield ++ (List.replicate n (.symbol ampersand) ++ .symbol semicolon :: l.yield)

def Pipe.yield : Pipe → List Token
  | .last e => e.yield
  | .pipe e p => e.yield ++ .symbol bar :: p.yield

def Exec.yield : Exec → List Token
  | .block l rs => .symbol lparen :: (l.yield ++ .symbol rparen :: rs.flatMap Redir.yield)
  | .simple rs args _ => rs.flatMap Redir.yield ++ args.flatMap argYield

end

mutual

def Line.cmd : Line → Cmd Span
  | .last p n => Cmd.back^[n] p.cmd
  | .seq p n l => .list (Cmd.back^[n] p.cmd) l.cmd

def Pipe.cmd : Pipe → Cmd Span
  | .last e => e.cmd
  | .pipe e p => .pipe e.cmd p.cmd

def Exec.cmd : Exec → Cmd Span
  | .block l rs => wrapAll rs l.cmd
  | .simple rs args _ => wrapAll (rs ++ args.flatMap Prod.snd) (.exec (args.map Prod.fst))

end

/-! ## What is parsed -/

theorem redircmd_token (r : Redir) (cmd : Cmd Span) :
    redircmd (some r.direction.token) r.file cmd = r.wrap cmd := by
  obtain ⟨d, file⟩ := r
  cases d <;> rfl

theorem Redir.addArg_wrap (r : Redir) (w : Span) (cmd : Cmd Span) :
    (r.wrap cmd).addArg w = r.wrap (cmd.addArg w) := by
  obtain ⟨d, file⟩ := r
  cases d <;> rfl

theorem addArg_wrapAll (rs : List Redir) (w : Span) (cmd : Cmd Span) :
    (wrapAll rs cmd).addArg w = wrapAll rs (cmd.addArg w) := by
  induction rs generalizing cmd with
  | nil => rfl
  | cons r rs ih => exact (ih (r.wrap cmd)).trans (congrArg (wrapAll rs) (r.addArg_wrap w cmd))

theorem wrapAll_append (rs rs' : List Redir) (cmd : Cmd Span) :
    wrapAll (rs ++ rs') cmd = wrapAll rs' (wrapAll rs cmd) := List.foldl_append ..

theorem headIn_redir (r : Redir) (ts : List Token) :
    headIn [less, greater] (r.yield ++ ts) = true := by
  obtain ⟨d, file⟩ := r
  cases d <;> rfl

/-- A token that starts with `<` or `>` is one of a redirection. -/
theorem exists_direction (h : headIn [less, greater] ts = true) :
    ∃ d : Direction, ts = d.token :: ts.tail := by
  match ts, h with
  | .symbol c :: ts, h =>
    obtain h | h : c = less ∨ c = greater := by simpa [headIn] using h
    · exact ⟨.input, by rw [h]; rfl⟩
    · exact ⟨.output, by rw [h]; rfl⟩
  | .append :: ts, _ => exact ⟨.append, rfl⟩

/-- Words and redirections are added to a command in the order in which they are read. -/
def addArgs (args : List Arg) (cmd : Cmd Span) : Cmd Span :=
  args.foldl (fun cmd a => wrapAll a.2 (cmd.addArg a.1)) cmd

theorem addArgs_wrapAll (args : List Arg) (rs : List Redir) (ws : List Span) :
    addArgs args (wrapAll rs (.exec ws)) =
      wrapAll (rs ++ args.flatMap Prod.snd) (.exec (ws ++ args.map Prod.fst)) := by
  induction args generalizing rs ws with
  | nil => simp [addArgs]
  | cons a args ih =>
    have hstep : wrapAll a.2 ((wrapAll rs (.exec ws)).addArg a.1) =
        wrapAll (rs ++ a.2) (.exec (ws ++ [a.1])) := by
      rw [addArg_wrapAll, wrapAll_append]
      rfl
    rw [addArgs, List.foldl_cons, hstep]
    exact (ih _ _).trans (by simp)

/-- A command ends here: there is nothing left, or a symbol that may follow it. -/
def Ends (us : List Token) : Prop := us = [] ∨ headIn [bar, rparen, ampersand, semicolon] us = true

theorem Ends.headIn (h : Ends us) {set : List UInt8}
    (hset : [bar, rparen, ampersand, semicolon].all (· ∉ set) = true) :
    headIn set us = false := by
  obtain rfl | h := h
  · rfl
  match us, h with
  | .symbol c :: us, h =>
    exact decide_eq_false (of_decide_eq_true (List.all_eq_true.mp hset c (of_decide_eq_true h)))

theorem headIn_lparen (rs : List Redir) (args : List Arg) (h : Ends us) :
    ShellParser.headIn [lparen]
      (rs.flatMap Redir.yield ++ (args.flatMap argYield ++ us)) = false := by
  match rs, args with
  | ⟨d, _⟩ :: _, _ => cases d <;> rfl
  | [], a :: args => rfl
  | [], [] => exact h.headIn (by decide)

theorem headIn_args (args : List Arg) (h : Ends us) :
    headIn [less, greater] (args.flatMap argYield ++ us) = false := by
  cases args with
  | nil => exact h.headIn (by decide)
  | cons a args => rfl

theorem length_le_yield (rs : List Redir) : rs.length ≤ (rs.flatMap Redir.yield).length := by
  induction rs with
  | nil => exact le_rfl
  | cons r rs ih =>
    simp only [List.flatMap_cons, List.length_append, List.length_cons, Redir.yield]
    omega

section Parses

variable (line)

/-- The parser has read a phrase of a kind, or panics. -/
def Parses {α : Type} (yield : α → List Token) (cmd : α → Cmd Span) (ts : List Token)
    (p : Except Stop (Cmd Span × Nat)) : Prop :=
  (∃ x s us, p = .ok (cmd x, s) ∧ ts = yield x ++ us ∧ Rest line s us) ∨ ∃ m, p = .error (.panic m)

variable {line} (h0 : 0 ∉ line)

include h0

theorem parseredirs_parses (n : Nat) (cmd : Cmd Span) (s : Nat) (ts : List Token)
    (h : Rest line s ts) (hn : ts.length < n) :
    Parses line (·.flatMap Redir.yield) (wrapAll · cmd) ts (parseredirs line n cmd s) := by
  induction n generalizing cmd s ts with
  | zero => omega
  | succ n ih =>
    obtain ⟨s, hp, h⟩ := h.peek h0 [less, greater] (by decide)
    rw [parseredirs, hp]
    cases hh : headIn [less, greater] ts with
    | false => exact .inl ⟨[], s, ts, rfl, rfl, h⟩
    | true =>
      obtain ⟨d, hts⟩ := exists_direction hh
      rw [hts] at h hn ⊢
      obtain ⟨s, hg, h⟩ := h.gettoken h0
      obtain ⟨s, hg', h'⟩ := h.gettoken h0
      simp only [if_true, hg, hg', List.head?_cons, List.tail_cons] at h' ⊢
      match htail : ts.tail with
      | [] | .symbol _ :: _ | .append :: _ => exact .inr ⟨_, rfl⟩
      | .word file :: us =>
        rw [htail] at h' hn
        simp only [List.head?_cons, List.tail_cons, List.length_cons] at h' hn ⊢
        rw [redircmd_token ⟨d, file⟩]
        obtain ⟨rs, s, us', hr, hus, hrest⟩ | hpanic := ih _ s us h' (by omega)
        · exact .inl ⟨⟨d, file⟩ :: rs, s, us', hr, by rw [hus]; rfl, hrest⟩
        · exact .inr hpanic

theorem parseredirs_complete (rs : List Redir) (n : Nat) (cmd : Cmd Span) (s : Nat)
    (us : List Token) (h : Rest line s (rs.flatMap Redir.yield ++ us))
    (hus : headIn [less, greater] us = false) (hn : rs.length < n) :
    ∃ s', parseredirs line n cmd s = .ok (wrapAll rs cmd, s') ∧ Rest line s' us := by
  induction rs generalizing n cmd s with
  | nil =>
    obtain ⟨n, rfl⟩ := Nat.exists_eq_add_of_lt hn
    obtain ⟨s, hp, h⟩ := h.peek h0 [less, greater] (by decide)
    rw [List.flatMap_nil, List.nil_append, hus] at hp
    exact ⟨s, by rw [parseredirs, hp]; rfl, h⟩
  | cons r rs ih =>
    obtain ⟨n, rfl⟩ := Nat.exists_eq_add_of_lt hn
    rw [List.flatMap_cons, List.append_assoc] at h
    obtain ⟨s, hp, h⟩ := h.peek h0 [less, greater] (by decide)
    rw [headIn_redir] at hp
    obtain ⟨s, hg, h⟩ := h.gettoken h0
    obtain ⟨s, hg', h⟩ := h.gettoken h0
    simp only [Redir.yield, List.cons_append, List.head?_cons, List.tail_cons] at hg hg' h
    obtain ⟨s', hr, h⟩ := ih ((r :: rs).length + n) (r.wrap cmd) s h (by simp; omega)
    refine ⟨s', ?_, h⟩
    rw [parseredirs, hp]
    simp only [if_true, hg, hg', redircmd_token]
    exact hr

theorem parseargs_parses (n argc : Nat) (ret : Cmd Span) (s : Nat) (ts : List Token)
    (h : Rest line s ts) (hargc : argc < maxArgs) (hn : ts.length < n) :
    Parses line
      (fun args : {args : List Arg // argc + args.length < maxArgs} => args.1.flatMap argYield)
      (fun args => addArgs args.1 ret) ts (parseargs line n argc ret s) := by
  induction n generalizing argc ret s ts with
  | zero => omega
  | succ n ih =>
    obtain ⟨s, hp, h⟩ := h.peek h0 [bar, rparen, ampersand, semicolon] (by decide)
    rw [parseargs, hp]
    cases hh : headIn [bar, rparen, ampersand, semicolon] ts with
    | true => exact .inl ⟨⟨[], hargc⟩, s, ts, rfl, rfl, h⟩
    | false =>
      obtain ⟨s, hg, h⟩ := h.gettoken h0
      simp only [Bool.false_eq_true, if_false, hg]
      match ts with
      | [] => exact .inl ⟨⟨[], hargc⟩, s, [], rfl, rfl, h⟩
      | .symbol _ :: _ | .append :: _ => exact .inr ⟨_, rfl⟩
      | .word w :: ts =>
        simp only [List.head?_cons, List.tail_cons, List.length_cons] at h hn ⊢
        by_cases hmax : argc + 1 ≥ maxArgs
        · rw [if_pos hmax]
          exact .inr ⟨_, rfl⟩
        rw [if_neg hmax]
        obtain ⟨rs, s, us, hr, hts, h⟩
          | ⟨m, hm⟩ := parseredirs_parses h0 n (ret.addArg w) s ts h (by omega)
        · have hlen : us.length ≤ ts.length := by rw [hts]; simp
          simp only [hr, bind, Except.bind]
          obtain ⟨⟨args, hargs⟩, s, us', ha, hus, h⟩ | hpanic :=
            ih (argc + 1) (wrapAll rs (ret.addArg w)) s us h (by omega) (by omega)
          · refine .inl ⟨⟨(w, rs) :: args, by simp; omega⟩, s, us', ha, ?_, h⟩
            rw [hts, hus]
            simp [argYield]
          · exact .inr hpanic
        · exact .inr ⟨m, by rw [hm]; rfl⟩

theorem parseargs_complete (args : List Arg) (n argc : Nat) (ret : Cmd Span) (s : Nat)
    (us : List Token) (h : Rest line s (args.flatMap argYield ++ us)) (hus : Ends us)
    (hargc : argc + args.length < maxArgs) (hn : (args.flatMap argYield).length < n) :
    ∃ s', parseargs line n argc ret s = .ok (addArgs args ret, s') ∧ Rest line s' us := by
  induction args generalizing n argc ret s with
  | nil =>
    obtain ⟨n, rfl⟩ := Nat.exists_eq_add_of_lt hn
    rw [List.flatMap_nil, List.nil_append] at h
    obtain ⟨s, hp, h⟩ := h.peek h0 [bar, rparen, ampersand, semicolon] (by decide)
    rw [parseargs, hp]
    obtain rfl | hus := hus
    · obtain ⟨s, hg, h⟩ := h.gettoken h0
      exact ⟨s, by simp only [headIn, Bool.false_eq_true, if_false, hg]; rfl, h⟩
    · exact ⟨s, by rw [hus]; rfl, h⟩
  | cons a args ih =>
    obtain ⟨n, rfl⟩ := Nat.exists_eq_add_of_lt hn
    rw [List.flatMap_cons, List.append_assoc] at h
    simp only [List.flatMap_cons, List.length_append, List.length_cons] at hargc ⊢
    have hlen := length_le_yield a.2
    have hyield : (argYield a).length = (a.2.flatMap Redir.yield).length + 1 := rfl
    obtain ⟨s, hp, h⟩ := h.peek h0 [bar, rparen, ampersand, semicolon] (by decide)
    obtain ⟨s, hg, h⟩ := h.gettoken h0
    obtain ⟨s, hr, h⟩ := parseredirs_complete h0 a.2
      ((argYield a).length + (args.flatMap argYield).length + n) (ret.addArg a.1) s _ h
      (headIn_args args hus) (by omega)
    obtain ⟨s', ha, h⟩ := ih ((argYield a).length + (args.flatMap argYield).length + n) (argc + 1)
      (wrapAll a.2 (ret.addArg a.1)) s h (by omega) (by omega)
    refine ⟨s', ?_, h⟩
    have hmax : ¬ argc + 1 ≥ maxArgs := by omega
    rw [parseargs, hp]
    simp only [argYield, List.cons_append, headIn, Bool.false_eq_true, if_false,
      hg, List.head?_cons, hmax]
    simp only [argYield] at hr ha
    rw [hr]
    exact ha

theorem parsebacks_parses (n : Nat) (cmd : Cmd Span) (s : Nat) (ts : List Token)
    (h : Rest line s ts) (hn : ts.length < n) :
    Parses line (fun k => List.replicate k (.symbol ampersand)) (Cmd.back^[·] cmd) ts
      (parsebacks line n cmd s) := by
  induction n generalizing cmd s ts with
  | zero => omega
  | succ n ih =>
    obtain ⟨s, hp, h⟩ := h.peek h0 [ampersand] (by decide)
    rw [parsebacks, hp]
    cases hh : headIn [ampersand] ts with
    | false => exact .inl ⟨0, s, ts, rfl, rfl, h⟩
    | true =>
      match ts, hh with
      | .symbol c :: ts, hh =>
        obtain rfl : c = ampersand := by simpa [headIn] using hh
        obtain ⟨s, hg, h⟩ := h.gettoken h0
        simp only [if_true, hg]
        obtain ⟨k, s, us, hk, hts, h⟩ | hpanic := ih (.back cmd) s ts h (by simpa using hn)
        · exact .inl ⟨k + 1, s, us, hk, by rw [hts]; rfl, h⟩
        · exact .inr hpanic

theorem parsebacks_complete (k n : Nat) (cmd : Cmd Span) (s : Nat) (us : List Token)
    (h : Rest line s (List.replicate k (.symbol ampersand) ++ us))
    (hus : headIn [ampersand] us = false) (hn : k < n) :
    ∃ s', parsebacks line n cmd s = .ok (Cmd.back^[k] cmd, s') ∧ Rest line s' us := by
  induction k generalizing n cmd s with
  | zero =>
    obtain ⟨n, rfl⟩ := Nat.exists_eq_add_of_lt hn
    rw [List.replicate_zero, List.nil_append] at h
    obtain ⟨s, hp, h⟩ := h.peek h0 [ampersand] (by decide)
    exact ⟨s, by rw [parsebacks, hp, hus]; rfl, h⟩
  | succ k ih =>
    obtain ⟨n, rfl⟩ := Nat.exists_eq_add_of_lt hn
    rw [List.replicate_succ, List.cons_append] at h
    obtain ⟨s, hp, h⟩ := h.peek h0 [ampersand] (by decide)
    obtain ⟨s, hg, h⟩ := h.gettoken h0
    obtain ⟨s', hk, h⟩ := ih (k + 1 + n) (.back cmd) s h (by omega)
    refine ⟨s', ?_, h⟩
    rw [parsebacks, hp]
    simp only [headIn, List.mem_singleton, decide_true, if_true, hg]
    exact hk

omit h0 in
/-- A symbol that a set of one has is that one. -/
theorem headIn_singleton {c : UInt8} (hc : c ≠ greater) (h : headIn [c] ts = true) :
    ts = .symbol c :: ts.tail := by
  match ts, h with
  | .symbol d :: ts, h =>
    obtain rfl : d = c := by simpa [headIn] using h
    rfl
  | .append :: ts, h => exact absurd (List.mem_singleton.mp (of_decide_eq_true h)).symm hc

omit h0 in
variable (line) in
/-- With fuel for the tokens that are left, and a level `k`, the parser reads a phrase or panics. -/
def Reads {α : Type} (yield : α → List Token) (cmd : α → Cmd Span) (k n : Nat)
    (parser : Nat → Except Stop (Cmd Span × Nat)) : Prop :=
  ∀ s ts, Rest line s ts → 4 * ts.length + k ≤ n → Parses line yield cmd ts (parser s)

theorem parseline_reads (hpipe : Reads line Pipe.yield Pipe.cmd 3 n (parsepipe line n))
    (hline : Reads line Line.yield Line.cmd 4 n (parseline line n)) :
    Reads line Line.yield Line.cmd 4 (n + 1) (parseline line (n + 1)) := by
  intro s ts h hn
  rw [parseline]
  obtain ⟨p, s₁, us, hp, rfl, h₁⟩ | ⟨m, hm⟩ := hpipe s ts h (by omega)
  rotate_left
  · exact .inr ⟨m, by rw [hm]; rfl⟩
  rw [List.length_append] at hn
  obtain ⟨k, s₂, vs, hk, rfl, h₂⟩ | ⟨m, hm⟩ := parsebacks_parses h0 n p.cmd s₁ us h₁ (by omega)
  rotate_left
  · exact .inr ⟨m, by simp only [hp, hm, bind, Except.bind]⟩
  rw [List.length_append] at hn
  obtain ⟨s₃, hsemi, h₃⟩ := h₂.peek h0 [semicolon] (by decide)
  simp only [hp, hk, hsemi, bind, Except.bind]
  cases hh : headIn [semicolon] vs with
  | false => exact .inl ⟨.last p k, s₃, vs, rfl, by rw [Line.yield, List.append_assoc], h₃⟩
  | true =>
    obtain ⟨s₄, hg, h₄⟩ := h₃.gettoken h0
    have hvs := headIn_singleton (by decide) hh
    rw [hvs, List.length_cons] at hn
    simp only [if_true, hg]
    obtain ⟨l, s₅, ws, hl, hws, h₅⟩ | ⟨m, hm⟩ := hline s₄ vs.tail h₄ (by omega)
    · refine .inl ⟨.seq p k l, s₅, ws, by rw [hl]; rfl, ?_, h₅⟩
      rw [hvs, hws]
      simp [Line.yield]
    · exact .inr ⟨m, by rw [hm]⟩

theorem parsepipe_reads (hexec : Reads line Exec.yield Exec.cmd 2 n (parseexec line n))
    (hpipe : Reads line Pipe.yield Pipe.cmd 3 n (parsepipe line n)) :
    Reads line Pipe.yield Pipe.cmd 3 (n + 1) (parsepipe line (n + 1)) := by
  intro s ts h hn
  rw [parsepipe]
  obtain ⟨e, s₁, us, he, rfl, h₁⟩ | ⟨m, hm⟩ := hexec s ts h (by omega)
  rotate_left
  · exact .inr ⟨m, by rw [hm]; rfl⟩
  rw [List.length_append] at hn
  obtain ⟨s₂, hbar, h₂⟩ := h₁.peek h0 [bar] (by decide)
  simp only [he, hbar, bind, Except.bind]
  cases hh : headIn [bar] us with
  | false => exact .inl ⟨.last e, s₂, us, rfl, rfl, h₂⟩
  | true =>
    obtain ⟨s₃, hg, h₃⟩ := h₂.gettoken h0
    have hus := headIn_singleton (by decide) hh
    rw [hus, List.length_cons] at hn
    simp only [if_true, hg]
    obtain ⟨p, s₄, vs, hp, hvs, h₄⟩ | ⟨m, hm⟩ := hpipe s₃ us.tail h₃ (by omega)
    · refine .inl ⟨.pipe e p, s₄, vs, by rw [hp]; rfl, ?_, h₄⟩
      rw [hus, hvs]
      simp [Pipe.yield]
    · exact .inr ⟨m, by rw [hm]⟩

theorem parseblock_reads (hline : Reads line Line.yield Line.cmd 4 n (parseline line n)) (s : Nat)
    (ts : List Token) (h : Rest line s ts) (hn : 4 * ts.length + 1 ≤ n + 1)
    (hblock : headIn [lparen] ts = true) :
    Parses line Exec.yield Exec.cmd ts (parseblock line (n + 1) s) := by
  rw [parseblock]
  obtain ⟨s₁, hpar, h₁⟩ := h.peek h0 [lparen] (by decide)
  obtain ⟨s₂, hg, h₂⟩ := h₁.gettoken h0
  have hts := headIn_singleton (by decide) hblock
  rw [hts, List.length_cons] at hn
  simp only [hpar, hblock, hg, not_true_eq_false, if_false]
  obtain ⟨l, s₃, us, hl, hus, h₃⟩ | ⟨m, hm⟩ := hline s₂ ts.tail h₂ (by omega)
  rotate_left
  · exact .inr ⟨m, by rw [hm]; rfl⟩
  rw [hus, List.length_append] at hn
  obtain ⟨s₄, hclose, h₄⟩ := h₃.peek h0 [rparen] (by decide)
  simp only [hl, hclose, bind, Except.bind]
  cases hh : headIn [rparen] us with
  | false => exact .inr ⟨_, rfl⟩
  | true =>
    obtain ⟨s₅, hg', h₅⟩ := h₄.gettoken h0
    have hus' := headIn_singleton (by decide) hh
    rw [hus', List.length_cons] at hn
    simp only [hg', not_true_eq_false, if_false]
    obtain ⟨rs, s₆, vs, hr, hvs, h₆⟩
      | ⟨m, hm⟩ := parseredirs_parses h0 n l.cmd s₅ us.tail h₅ (by omega)
    · refine .inl ⟨.block l rs, s₆, vs, hr, ?_, h₆⟩
      rw [hts, hus, hus', hvs]
      simp [Exec.yield]
    · exact .inr ⟨m, hm⟩

theorem parseexec_reads
    (hblock : ∀ s ts, Rest line s ts → 4 * ts.length + 1 ≤ n → headIn [lparen] ts = true →
      Parses line Exec.yield Exec.cmd ts (parseblock line n s)) :
    Reads line Exec.yield Exec.cmd 2 (n + 1) (parseexec line (n + 1)) := by
  intro s ts h hn
  rw [parseexec]
  obtain ⟨s₁, hpar, h₁⟩ := h.peek h0 [lparen] (by decide)
  simp only [hpar]
  cases hh : headIn [lparen] ts with
  | true => exact hblock s₁ ts h₁ (by omega) hh
  | false =>
    simp only [Bool.false_eq_true, if_false]
    obtain ⟨rs, s₂, us, hr, rfl, h₂⟩
      | ⟨m, hm⟩ := parseredirs_parses h0 n (.exec []) s₁ ts h₁ (by omega)
    rotate_left
    · exact .inr ⟨m, by rw [hm]; rfl⟩
    rw [List.length_append] at hn
    simp only [hr, bind, Except.bind]
    obtain ⟨⟨args, few⟩, s₃, vs, ha, rfl, h₃⟩ | hpanic :=
      parseargs_parses h0 n 0 (wrapAll rs (.exec [])) s₂ us h₂ (by decide) (by omega)
    · simp only [addArgs_wrapAll] at ha
      exact .inl ⟨.simple rs args (by omega), s₃, vs, ha, by simp [Exec.yield], h₃⟩
    · exact .inr hpanic

/-- The parsers call one another with enough fuel. -/
theorem phrases_read (n : Nat) :
    Reads line Line.yield Line.cmd 4 n (parseline line n) ∧
      Reads line Pipe.yield Pipe.cmd 3 n (parsepipe line n) ∧
      Reads line Exec.yield Exec.cmd 2 n (parseexec line n) ∧
      ∀ s ts, Rest line s ts → 4 * ts.length + 1 ≤ n → headIn [lparen] ts = true →
        Parses line Exec.yield Exec.cmd ts (parseblock line n s) := by
  induction n with
  | zero => refine ⟨?_, ?_, ?_, ?_⟩ <;> intro _ _ _ _ <;> omega
  | succ n ih =>
    obtain ⟨hline, hpipe, hexec, hblock⟩ := ih
    exact ⟨parseline_reads h0 hpipe hline, parsepipe_reads h0 hexec hpipe,
      parseexec_reads h0 hblock, parseblock_reads h0 hline⟩

omit h0 in
/-- Nothing that would continue a line follows. -/
def LineEnds (us : List Token) : Prop := us = [] ∨ us.head? = some (.symbol rparen)

omit h0 in
theorem LineEnds.ends (h : LineEnds us) : Ends us := by
  obtain rfl | h := h
  · exact .inl rfl
  · match us, h with
    | .symbol c :: us, h =>
      obtain rfl : c = rparen := by simpa using h
      exact .inr rfl

omit h0 in
theorem LineEnds.headIn (h : LineEnds us) {set : List UInt8} (hset : rparen ∉ set) :
    headIn set us = false := by
  obtain rfl | h := h
  · rfl
  · match us, h with
    | .symbol c :: us, h =>
      obtain rfl : c = rparen := by simpa using h
      exact decide_eq_false hset

omit h0 in
/-- What may follow a pipe in a line: symbols `&`, then `us`. -/
theorem ends_backs (k : Nat) (h : Ends us) (hbar : headIn [bar] us = false) :
    Ends (List.replicate k (.symbol ampersand) ++ us) ∧
      headIn [bar] (List.replicate k (.symbol ampersand) ++ us) = false := by
  cases k with
  | zero => exact ⟨h, hbar⟩
  | succ k => exact ⟨.inr rfl, rfl⟩

mutual

theorem Line.complete (l : Line) (n s : Nat) (us : List Token) (h : Rest line s (l.yield ++ us))
    (hus : LineEnds us) (hn : 4 * l.yield.length + 4 ≤ n) :
    ∃ s', parseline line n s = .ok (l.cmd, s') ∧ Rest line s' us := by
  obtain ⟨n, rfl⟩ : ∃ m, n = m + 1 := ⟨n - 1, by omega⟩
  match l with
  | .last p k =>
    rw [Line.yield, List.append_assoc] at h
    rw [Line.yield, List.length_append, List.length_replicate] at hn
    obtain ⟨hends, hbar⟩ := ends_backs k hus.ends (hus.headIn (by decide))
    obtain ⟨s₁, hp, h₁⟩ := Pipe.complete p n s _ h hends hbar (by omega)
    obtain ⟨s₂, hk, h₂⟩ :=
      parsebacks_complete h0 k n p.cmd s₁ us h₁ (hus.headIn (by decide)) (by omega)
    obtain ⟨s₃, hsemi, h₃⟩ := h₂.peek h0 [semicolon] (by decide)
    rw [hus.headIn (by decide)] at hsemi
    exact ⟨s₃, by simp only [parseline, hp, hk, hsemi, bind, Except.bind]; rfl, h₃⟩
  | .seq p k l =>
    simp only [Line.yield, List.append_assoc, List.cons_append] at h
    simp only [Line.yield, List.length_append, List.length_replicate, List.length_cons] at hn
    have hsep : Ends (.symbol semicolon :: (l.yield ++ us)) := .inr rfl
    obtain ⟨hends, hbar⟩ := ends_backs k hsep rfl
    obtain ⟨s₁, hp, h₁⟩ := Pipe.complete p n s _ h hends hbar (by omega)
    obtain ⟨s₂, hk, h₂⟩ := parsebacks_complete h0 k n p.cmd s₁ _ h₁ rfl (by omega)
    obtain ⟨s₃, hsemi, h₃⟩ := h₂.peek h0 [semicolon] (by decide)
    obtain ⟨s₄, hg, h₄⟩ := h₃.gettoken h0
    obtain ⟨s₅, hl, h₅⟩ := Line.complete l n s₄ us h₄ hus (by omega)
    refine ⟨s₅, ?_, h₅⟩
    simp only [parseline, hp, hk, hsemi, bind, Except.bind, headIn, List.mem_singleton,
      decide_true, if_true, hg, hl]
    rfl

theorem Pipe.complete (p : Pipe) (n s : Nat) (us : List Token) (h : Rest line s (p.yield ++ us))
    (hus : Ends us) (hbar : headIn [bar] us = false) (hn : 4 * p.yield.length + 3 ≤ n) :
    ∃ s', parsepipe line n s = .ok (p.cmd, s') ∧ Rest line s' us := by
  obtain ⟨n, rfl⟩ : ∃ m, n = m + 1 := ⟨n - 1, by omega⟩
  match p with
  | .last e =>
    rw [Pipe.yield] at h hn
    obtain ⟨s₁, he, h₁⟩ := Exec.complete e n s us h hus (by omega)
    obtain ⟨s₂, hmore, h₂⟩ := h₁.peek h0 [bar] (by decide)
    rw [hbar] at hmore
    exact ⟨s₂, by simp only [parsepipe, he, hmore, bind, Except.bind]; rfl, h₂⟩
  | .pipe e p =>
    simp only [Pipe.yield, List.append_assoc, List.cons_append] at h
    simp only [Pipe.yield, List.length_append, List.length_cons] at hn
    obtain ⟨s₁, he, h₁⟩ := Exec.complete e n s _ h (.inr rfl) (by omega)
    obtain ⟨s₂, hmore, h₂⟩ := h₁.peek h0 [bar] (by decide)
    obtain ⟨s₃, hg, h₃⟩ := h₂.gettoken h0
    obtain ⟨s₄, hp, h₄⟩ := Pipe.complete p n s₃ us h₃ hus hbar (by omega)
    refine ⟨s₄, ?_, h₄⟩
    simp only [parsepipe, he, hmore, bind, Except.bind, headIn, List.mem_singleton,
      decide_true, if_true, hg, hp]
    rfl

theorem Exec.complete (e : Exec) (n s : Nat) (us : List Token) (h : Rest line s (e.yield ++ us))
    (hus : Ends us) (hn : 4 * e.yield.length + 2 ≤ n) :
    ∃ s', parseexec line n s = .ok (e.cmd, s') ∧ Rest line s' us := by
  obtain ⟨n, rfl⟩ : ∃ m, n = m + 2 := ⟨n - 2, by omega⟩
  match e with
  | .block l rs =>
    simp only [Exec.yield, List.append_assoc, List.cons_append] at h
    simp only [Exec.yield, List.length_append, List.length_cons] at hn
    have hrs := length_le_yield rs
    obtain ⟨s₁, hpar, h₁⟩ := h.peek h0 [lparen] (by decide)
    obtain ⟨s₂, hpar', h₂⟩ := h₁.peek h0 [lparen] (by decide)
    obtain ⟨s₃, hg, h₃⟩ := h₂.gettoken h0
    obtain ⟨s₄, hl, h₄⟩ := Line.complete l n s₃ _ h₃ (.inr rfl) (by omega)
    obtain ⟨s₅, hclose, h₅⟩ := h₄.peek h0 [rparen] (by decide)
    obtain ⟨s₆, hg', h₆⟩ := h₅.gettoken h0
    obtain ⟨s₇, hr, h₇⟩ :=
      parseredirs_complete h0 rs n l.cmd s₆ us h₆ (hus.headIn (by decide)) (by omega)
    refine ⟨s₇, ?_, h₇⟩
    simp only [parseexec, parseblock, hpar, hpar', hg, hl, hclose, hg', hr,
      bind, Except.bind, headIn,
      List.mem_singleton, decide_true, if_true, not_true_eq_false, if_false]
    rfl
  | .simple rs args few =>
    rw [Exec.yield, List.append_assoc] at h
    rw [Exec.yield, List.length_append] at hn
    have hrs := length_le_yield rs
    obtain ⟨s₁, hpar, h₁⟩ := h.peek h0 [lparen] (by decide)
    obtain ⟨s₂, hr, h₂⟩ :=
      parseredirs_complete h0 rs (n + 1) (.exec []) s₁ _ h₁ (headIn_args args hus) (by omega)
    obtain ⟨s₃, ha, h₃⟩ := parseargs_complete h0 args (n + 1) 0 (wrapAll rs (.exec [])) s₂ us h₂ hus
      (by omega) (by omega)
    refine ⟨s₃, ?_, h₃⟩
    rw [addArgs_wrapAll] at ha
    rw [headIn_lparen rs args hus] at hpar
    simp only [parseexec, hpar, Bool.false_eq_true, if_false, hr, bind, Except.bind, ha]
    rfl

end

end Parses

end Xv6.ShellParser
