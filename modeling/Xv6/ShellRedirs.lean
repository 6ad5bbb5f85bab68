import Xv6.ShellLines
import Xv6.ShellRun

/-!
# Redirections

The parser puts the redirections of a command around it in reading order, the last one
outside, and `runcmd` performs them from the outside in. So the leftmost one of a descriptor
is performed last.
-/
namespace Xv6.ShellRedirs

open Function (update)
open ShellParser ShellRun Runs

/-- A command with the strings of its words. -/
def strings (f : Span → Str) : Cmd Span → Cmd Str
  | .exec argv => .exec (argv.map f)
  | .redir cmd file mode fd => .redir (strings f cmd) (f file) mode fd
  | .pipe left right => .pipe (strings f left) (strings f right)
  | .list left right => .list (strings f left) (strings f right)
  | .back cmd => .back (strings f cmd)

/-- All redirections of a command, in reading order. -/
def redirsOf : Exec → List Redir
  | .block _ rs => rs
  | .simple rs args _ => rs ++ args.flatMap Prod.snd

/-- What is run with these redirections. -/
def inner : Exec → Cmd Span
  | .block l _ => l.cmd
  | .simple _ args _ => .exec (args.map Prod.fst)

/-- The descriptor that is redirected. -/
def target (r : Redir) : Nat :=
  match r.direction with
  | .input => 0
  | .output | .append => 1

def modeOf : Nat → Mode
  | 0 => .rdonly
  | _ => .wronlyCreate

/-- The table in which each descriptor is the file that the first one of these redirections
for it names. -/
def named (line : Str) (rs : List Redir) (t : Table) : Table := fun fd =>
  match rs.find? fun r => target r = fd with
  | some r => some (.opened (text line r.file) (modeOf fd))
  | none => t fd

variable {line : Str} {t : Table}

theorem strings_congr {f g : Span → Str} {cmd : Cmd Span} (h : ∀ w ∈ cmd.words, f w = g w) :
    strings f cmd = strings g cmd := by
  induction cmd with
  | exec argv => exact congrArg Cmd.exec (List.map_congr_left h)
  | redir cmd file mode fd ih =>
    rw [Cmd.words, List.forall_mem_append, List.forall_mem_singleton] at h
    rw [strings, strings, ih h.1, h.2]
  | pipe _ _ ihl ihr | list _ _ ihl ihr =>
    rw [Cmd.words, List.forall_mem_append] at h
    rw [strings, strings, ihl h.1, ihr h.2]
  | back cmd ih => rw [strings, strings, ih h]

theorem wrap_eq (r : Redir) (cmd : Cmd Span) :
    r.wrap cmd = .redir cmd r.file (modeOf (target r)) (target r) := by
  obtain ⟨d, file⟩ := r
  cases d <;> rfl

theorem target_lt (r : Redir) : target r < 2 := by
  unfold target
  split <;> decide

/-- A process performs one redirection of standard input or output in three steps. -/
theorem run_redir {cmd : Cmd Str} {name : Str} {mode : Mode} {fd : Nat} (hfd : fd < 2)
    (ht : ∀ d < 2, t d ≠ none) (l : List (Nat × Choice)) :
    exec step ((0, .exit) :: (0, .exit) :: (0, .exit) :: l) (start (.redir cmd name mode fd) t) =
      exec step l (start cmd (update t fd (some (.opened name mode)))) := by
  have hclose : ShellRun.close t fd = some (update t fd none) :=
    if_pos (Option.isSome_iff_ne_none.mpr (ht fd hfd))
  have halloc : fdalloc (update t fd none) = some fd := by
    have hlt : fd < nofile := hfd.trans (by decide)
    refine List.find?_range_eq_some.mpr ⟨by simp, List.mem_range.mpr hlt, fun j hj => ?_⟩
    rw [Function.update_of_ne hj.ne]
    simpa [Option.isSome_iff_ne_none] using ht j (by omega)
  have hopen : (allocate (update t fd none) (.opened name mode)).map Prod.snd =
      some (update t fd (some (.opened name mode))) := by
    rw [allocate, halloc, Option.map_some, Option.map_some, Function.update_idem]
  simp [exec, step, start, act, runcmd, Instr.perform, hclose, hopen]

theorem run_wrapAll (rs : List Redir) (cmd : Cmd Span) (ht : ∀ d < 2, t d ≠ none) :
    exec step (List.replicate (3 * rs.length) (0, .exit))
      (start (strings (text line) (wrapAll rs cmd)) t) =
      some (start (strings (text line) cmd) (named line rs t)) := by
  induction rs using List.reverseRecOn generalizing t with
  | nil => rfl
  | append_singleton rs r ih =>
    have hwrap : strings (text line) (wrapAll (rs ++ [r]) cmd) =
        .redir (strings (text line) (wrapAll rs cmd)) (text line r.file)
          (modeOf (target r)) (target r) := by
      rw [wrapAll_append]
      exact congrArg (strings (text line)) (wrap_eq r _)
    have hnamed : named line (rs ++ [r]) t =
        named line rs
          (update t (target r) (some (.opened (text line r.file) (modeOf (target r))))) := by
      funext fd
      simp only [named, List.find?_append]
      cases hfind : rs.find? fun r => target r = fd with
      | some r' => rfl
      | none =>
        by_cases hr : target r = fd
        · subst hr
          simp
        · simp [hr, Function.update_of_ne (Ne.symm hr)]
    rw [List.length_append, List.length_singleton, hwrap, hnamed]
    rw [show List.replicate (3 * (rs.length + 1)) ((0, Choice.exit) : Nat × Choice) =
      (0, .exit) :: (0, .exit) :: (0, .exit) :: List.replicate (3 * rs.length) (0, .exit) from rfl]
    rw [run_redir (target_lt r) ht]
    refine ih fun d hd => ?_
    by_cases hd' : d = target r
    · subst hd'
      simp
    · rw [Function.update_of_ne hd']
      exact ht d hd

/-- A command line that is one command with redirections is parsed, and the command is then run
with the files named by the rightmost redirection of each descriptor exactly if for each
descriptor the leftmost and the rightmost redirection name the same file. -/
theorem rightmost_iff (line : Str) (h0 : 0 ∉ line) (e : Exec) (he : e.yield = tokens 0 line)
    (t : Table) (ht : ∀ d < 2, t d ≠ none) :
    ∃ cmd buf t', parsecmd line = .ok (cmd, buf) ∧
      exec step (List.replicate (3 * (redirsOf e).length) (0, .exit))
        (start (strings (fun w => string buf w.q) cmd) t) =
        some (start (strings (text line) (inner e)) t') ∧
      ((∀ fd < 2, t' fd = named line (redirsOf e).reverse t fd) ↔
        ∀ fd < 2, ((redirsOf e).find? fun r => target r = fd).map (text line ·.file) =
          ((redirsOf e).reverse.find? fun r => target r = fd).map (text line ·.file)) := by
  have hl : (Line.last (.last e) 0).yield = tokens 0 line := by simp [Line.yield, Pipe.yield, he]
  have hcmd : (Line.last (.last e) 0).cmd = wrapAll (redirsOf e) (inner e) := by cases e <;> rfl
  refine ⟨_, _, named line (redirsOf e) t, parsecmd_of_yield h0 _ hl, ?_, ?_⟩
  · rw [strings_congr fun w hw => (string_of_yield h0 _ hl hw).2, hcmd]
    exact run_wrapAll (redirsOf e) (inner e) ht
  · refine forall₂_congr fun fd _ => ?_
    -- A descriptor is redirected from the left exactly if it is from the right.
    have hsome : ((redirsOf e).find? fun r => target r = fd).isSome =
        ((redirsOf e).reverse.find? fun r => target r = fd).isSome := by
      rw [Bool.eq_iff_iff, List.find?_isSome, List.find?_isSome]
      simp only [List.mem_reverse]
    unfold named
    cases hf : (redirsOf e).find? fun r => target r = fd <;>
      cases hr : (redirsOf e).reverse.find? fun r => target r = fd <;> simp_all

/-- The line `a<b>c<b`: the program reads `b` and writes `c`. -/
theorem rightmost_iff_three :
    ∃ cmd buf t', parsecmd [97, less, 98, greater, 99, less, 98] = .ok (cmd, buf) ∧
    exec step (List.replicate 9 (0, .exit))
        (start (strings (fun w => string buf w.q) cmd) fun _ => some (.other 0)) =
      some (start (.exec [[97]]) t') ∧
    t' 0 = some (.opened [98] .rdonly) ∧ t' 1 = some (.opened [99] .wronlyCreate) := by
  obtain ⟨cmd, buf, t', hparse, hrun, hiff⟩ :=
    rightmost_iff [97, less, 98, greater, 99, less, 98] (by decide)
      (.simple [] [(⟨0, 1⟩, [⟨.input, ⟨2, 3⟩⟩, ⟨.output, ⟨4, 5⟩⟩, ⟨.input, ⟨6, 7⟩⟩])] (by decide))
      (by decide +kernel) (fun _ => some (.other 0)) (by simp)
  have hnamed := hiff.mpr (by decide)
  exact ⟨cmd, buf, t', hparse, hrun, hnamed 0 (by decide), hnamed 1 (by decide)⟩

/-- The line `a<b<c`: the program gets `b` as its standard input. -/
theorem leftmost_input :
    parsecmd [97, less, 98, less, 99] =
        .ok (.redir (.redir (.exec [⟨0, 1⟩]) ⟨2, 3⟩ .rdonly 0)
          ⟨4, 5⟩ .rdonly 0, [97, 0, 98, 0, 99, 0]) ∧
      ((exec step (List.replicate 6 (0, .exit))
          (start (.redir (.redir (.exec [[97]]) [98] .rdonly 0) [99] .rdonly 0)
          fun _ => some (.other 0))).map
        fun s => s.procs.map fun p => p.fds 0) = some [some (.opened [98] .rdonly)] :=
  ⟨by decide +kernel, by decide⟩

end Xv6.ShellRedirs
