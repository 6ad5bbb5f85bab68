import Mathlib.Data.List.Induction
import Mathlib.Tactic.NormNum
import Xv6.RingQueue

/-!
# The input of the console

`consoleintr` and `consoleread` of console.c over the ring `input`. Both hold
`cons.lock` except where a reader sleeps, so one step of the console is a call of
`consoleintr` with all the characters that `getc` has, or a reader's way from where it
takes the lock to where it sleeps or returns. A sleeping reader may go on at any time.
The echo of the characters and `procdump` are left out.
-/
namespace Xv6.Console

open Function (update)
open RingQueue

abbrev inputBuf : Nat := 128

structure Input where
  buf : Nat → UInt8
  r : UInt32
  w : UInt32
  e : UInt32

/-- `C(x)`: Control-x. -/
def ctrl (x : Char) : UInt8 := x.toUInt8 - '@'.toUInt8

def newline : UInt8 := '\n'.toUInt8

def carriageReturn : UInt8 := '\r'.toUInt8

/-- The loop of `^U`; it ends at the latest when `e` has come back to `w`. -/
def killLine : Nat → Input → Input
  | 0, s => s
  | fuel + 1, s =>
    if s.e ≠ s.w ∧ s.buf ((s.e - 1).toNat % inputBuf) ≠ newline then
      killLine fuel { s with e := s.e - 1 }
    else s

/-- The character `c` is stored, and the line is committed if it ends there. -/
def Input.accept (s : Input) (c : UInt8) : Input :=
  let s := { s with buf := update s.buf (s.e.toNat % inputBuf) c, e := s.e + 1 }
  if c = newline ∨ c = ctrl 'D' ∨ s.e = s.r + UInt32.ofNat inputBuf then { s with w := s.e }
  else s

/-- One character of `consoleintr`. -/
def key (s : Input) (c : UInt8) : Input :=
  if c = ctrl 'P' then s
  else if c = ctrl 'U' then killLine (s.e - s.w).toNat s
  else if c = ctrl 'H' ∨ c = 0x7f then
    if s.e ≠ s.w then { s with e := s.e - 1 } else s
  else if c ≠ 0 ∧ s.e - s.r < UInt32.ofNat inputBuf then
    s.accept (if c = carriageReturn then newline else c)
  else s

def consoleintr (getc : List UInt8) (s : Input) : Input := getc.foldl key s

/-- Where a reader lets go of the lock. -/
inductive Stop where
  | returned : Nat → Stop
  | sleeps : (n : Nat) → Stop
  deriving DecidableEq, Repr

/-- What a reader has done while it had the lock: the bytes that it has stored at `dst`,
and whether it has used up a `^D`. -/
structure Turn (σ : Type) where
  state : σ
  dst : List UInt8
  eof : Bool
  stop : Stop

variable {σ τ : Type}

def Turn.store (t : Turn σ) (c : UInt8) : Turn σ := { t with dst := c :: t.dst }

def Turn.map (f : σ → τ) (t : Turn σ) : Turn τ := ⟨f t.state, t.dst, t.eof, t.stop⟩

/-- The characters that have left the ring. -/
def Turn.taken (t : Turn σ) : List UInt8 := t.dst ++ if t.eof then [ctrl 'D'] else []

@[simp] theorem Turn.taken_store (t : Turn σ) (c : UInt8) : (t.store c).taken = c :: t.taken := rfl

@[simp] theorem Turn.taken_map (f : σ → τ) (t : Turn σ) : (t.map f).taken = t.taken := rfl

/-- The loop of `consoleread`, with `n` bytes still to be read. -/
def readLoop (target : Nat) : Nat → Input → Turn Input
  | 0, s => ⟨s, [], false, .returned target⟩
  | n + 1, s =>
    if s.r = s.w then ⟨s, [], false, .sleeps (n + 1)⟩
    else
      let c := s.buf (s.r.toNat % inputBuf)
      let s := { s with r := s.r + 1 }
      if c = ctrl 'D' then
        if n + 1 < target then
          ⟨{ s with r := s.r - 1 }, [], false, .returned (target - (n + 1))⟩
        else ⟨s, [], true, .returned (target - (n + 1))⟩
      else if c = newline then ⟨s, [c], false, .returned (target - n)⟩
      else (readLoop target n s).store c

/-! ### The line discipline -/

/-- The committed characters that have not been read, and the line that is being edited. -/
@[ext]
structure Line where
  queue : List UInt8
  edit : List UInt8
  deriving DecidableEq, Repr

def Line.length (l : Line) : Nat := l.queue.length + l.edit.length

def Line.accept (l : Line) (c : UInt8) : Line :=
  if c = newline ∨ c = ctrl 'D' ∨ l.length + 1 = inputBuf then ⟨l.queue ++ (l.edit ++ [c]), []⟩
  else ⟨l.queue, l.edit ++ [c]⟩

def Line.key (l : Line) (c : UInt8) : Line :=
  if c = ctrl 'P' then l
  else if c = ctrl 'U' then ⟨l.queue, []⟩
  else if c = ctrl 'H' ∨ c = 0x7f then ⟨l.queue, l.edit.dropLast⟩
  else if c ≠ 0 ∧ l.length < inputBuf then
    l.accept (if c = carriageReturn then newline else c)
  else l

/-- A reader is given the committed characters up to the end of a line, or up to a `^D`,
which it uses up only if it is the first character that it meets. -/
def Line.read (target : Nat) : Nat → Line → Turn Line
  | 0, l => ⟨l, [], false, .returned target⟩
  | n + 1, ⟨[], edit⟩ => ⟨⟨[], edit⟩, [], false, .sleeps (n + 1)⟩
  | n + 1, ⟨c :: queue, edit⟩ =>
    if c = ctrl 'D' then
      if n + 1 < target then ⟨⟨c :: queue, edit⟩, [], false, .returned (target - (n + 1))⟩
      else ⟨⟨queue, edit⟩, [], true, .returned (target - (n + 1))⟩
    else if c = newline then ⟨⟨queue, edit⟩, [c], false, .returned (target - n)⟩
    else (Line.read target n ⟨queue, edit⟩).store c

/-- The characters between `r` and `w`, and those between `w` and `e`. -/
def Input.line (s : Input) : Line :=
  ⟨span inputBuf s.buf s.r (s.w - s.r).toNat, span inputBuf s.buf s.w (s.e - s.w).toNat⟩

structure Input.Shows (s : Input) (l : Line) : Prop where
  write : s.w = s.r + UInt32.ofNat l.queue.length
  last : s.e = s.w + UInt32.ofNat l.edit.length
  room : l.length ≤ inputBuf
  queue : span inputBuf s.buf s.r l.queue.length = l.queue
  edit : span inputBuf s.buf s.w l.edit.length = l.edit
  plain : newline ∉ l.edit
  full : l.length = inputBuf → l.edit = []

variable {s : Input} {l : Line}

theorem inputBuf_dvd : inputBuf ∣ 2 ^ 32 := ⟨2 ^ 25, by norm_num [inputBuf]⟩

section

variable (h : s.Shows l)
include h

theorem Input.Shows.last_eq : s.e = s.r + UInt32.ofNat l.length := by
  rw [h.last, h.write, Line.length, UInt32.ofNat_add, UInt32.add_assoc]

theorem Input.Shows.queue_length : (s.w - s.r).toNat = l.queue.length := by
  have hroom : l.queue.length + l.edit.length ≤ 128 := h.room
  rw [h.write]
  exact sub_toNat _ (by omega)

theorem Input.Shows.edit_length : (s.e - s.w).toNat = l.edit.length := by
  have hroom : l.queue.length + l.edit.length ≤ 128 := h.room
  rw [h.last]
  exact sub_toNat _ (by omega)

theorem Input.Shows.length_eq : (s.e - s.r).toNat = l.length := by
  have hroom : l.length ≤ 128 := h.room
  rw [h.last_eq]
  exact sub_toNat _ (by omega)

theorem Input.Shows.line_eq : s.line = l := by
  rw [Input.line, h.queue_length, h.edit_length, h.queue, h.edit]

theorem Input.Shows.lt_iff : s.e - s.r < UInt32.ofNat inputBuf ↔ l.length < inputBuf := by
  rw [UInt32.lt_iff_toNat_lt, h.length_eq]
  rfl

theorem Input.Shows.edited_iff : s.e ≠ s.w ↔ l.edit ≠ [] := by
  rw [not_iff_not, ← List.length_eq_zero_iff, ← h.edit_length, ← UInt32.toNat_zero,
    UInt32.toNat_inj, UInt32.sub_eq_iff_eq_add, UInt32.zero_add]

theorem Input.Shows.empty_iff : s.r = s.w ↔ l.queue = [] := by
  rw [← List.length_eq_zero_iff, ← h.queue_length, ← UInt32.toNat_zero, UInt32.toNat_inj,
    UInt32.sub_eq_iff_eq_add, UInt32.zero_add, eq_comm]

end

/-! ### Editing -/

/-- The last character of the edit line is found before `e`, and can be taken back. -/
theorem Input.Shows.erase {xs : List UInt8} {x : UInt8} (h : s.Shows ⟨l.queue, xs ++ [x]⟩) :
    s.buf ((s.e - 1).toNat % inputBuf) = x ∧ { s with e := s.e - 1 }.Shows ⟨l.queue, xs⟩ := by
  have hlen : (xs ++ [x]).length = xs.length + 1 := by simp
  have hlast : s.e - 1 = s.w + UInt32.ofNat xs.length := by
    rw [h.last, hlen, UInt32.ofNat_add, ← UInt32.add_assoc]
    exact UInt32.add_sub_cancel _ _
  have hedit := h.edit
  rw [hlen, span_succ] at hedit
  obtain ⟨hxs, hx⟩ := List.append_inj hedit (by simp)
  have hroom := h.room
  simp only [Line.length, hlen] at hroom
  refine ⟨?_, ?_⟩
  · rw [hlast]
    exact List.head_eq_of_cons_eq hx
  · constructor
    case write => exact h.write
    case last => exact hlast
    case room =>
      simp only [Line.length]
      omega
    case queue => exact h.queue
    case edit => exact hxs
    case plain => exact fun hm => h.plain (List.mem_append_left _ hm)
    case full =>
      intro hfull
      simp only [Line.length] at hfull
      omega

theorem Input.Shows.killLine (h : s.Shows l) :
    (killLine (s.e - s.w).toNat s).Shows ⟨l.queue, []⟩ := by
  rw [h.edit_length]
  generalize hedit : l.edit = edit
  have hl : s.Shows ⟨l.queue, edit⟩ := hedit ▸ h
  clear hedit h
  -- one character less in each round, since the edit line has no newline
  induction edit using List.reverseRecOn generalizing s with
  | nil => exact hl
  | append_singleton xs x ih =>
    obtain ⟨hx, herase⟩ := hl.erase
    have hgo : s.e ≠ s.w ∧ s.buf ((s.e - 1).toNat % inputBuf) ≠ newline := by
      refine ⟨hl.edited_iff.mpr (by simp), fun hnl => hl.plain ?_⟩
      simp [← hnl, hx]
    rw [List.length_append, List.length_singleton, Console.killLine, if_pos hgo]
    exact ih herase

theorem Input.Shows.backspace (h : s.Shows l) :
    (if s.e ≠ s.w then { s with e := s.e - 1 } else s).Shows ⟨l.queue, l.edit.dropLast⟩ := by
  rcases List.eq_nil_or_concat l.edit with hnil | ⟨xs, x, hx⟩
  · have hl : l = ⟨l.queue, []⟩ := Line.ext rfl hnil
    rw [if_neg (by simp [h.edited_iff, hnil]), hnil, List.dropLast_nil, ← hl]
    exact h
  · have hl : l = ⟨l.queue, xs ++ [x]⟩ := Line.ext rfl (by rw [hx, List.concat_eq_append])
    rw [if_pos (by simp [h.edited_iff, hx]), hx, List.concat_eq_append, List.dropLast_concat]
    exact (hl ▸ h).erase.2

theorem Input.Shows.accept (h : s.Shows l) (hroom : l.length < inputBuf) (c : UInt8) :
    (s.accept c).Shows (l.accept c) := by
  have hat : s.e = s.r + UInt32.ofNat l.length := h.last_eq
  have hqueue : span inputBuf (update s.buf (s.e.toNat % inputBuf) c) s.r l.queue.length =
      l.queue := by
    rw [hat, span_update inputBuf_dvd _ (by simp [Line.length]) hroom, h.queue]
  have hedit : span inputBuf (update s.buf (s.e.toNat % inputBuf) c) s.w (l.edit.length + 1) =
      l.edit ++ [c] := by
    have hlt : l.edit.length < inputBuf := by
      simp only [Line.length] at hroom
      omega
    rw [span_succ, ← h.last, Function.update_self]
    rw [h.last, span_update inputBuf_dvd _ le_rfl hlt, h.edit]
  have hlast : s.e + 1 = s.w + UInt32.ofNat (l.edit ++ [c]).length := by
    rw [List.length_append, List.length_singleton, UInt32.ofNat_add, ← UInt32.add_assoc,
      ← h.last]
    rfl
  have hfull : s.e + 1 = s.r + UInt32.ofNat inputBuf ↔ l.length + 1 = inputBuf := by
    rw [hat, UInt32.add_assoc, UInt32.add_right_inj]
    constructor
    · intro he
      have hle : l.length + 1 ≤ 128 := hroom
      exact ofNat_inj_of_close hle (show 128 < _ by omega) (by rw [UInt32.ofNat_add]; exact he)
    · intro he
      rw [← he, UInt32.ofNat_add]
      rfl
  rw [Input.accept, Line.accept]
  simp only [hfull]
  split
  case isTrue =>
    constructor
    case write =>
      rw [List.length_append, UInt32.ofNat_add, ← UInt32.add_assoc, ← h.write]
      exact hlast
    case last => simp
    case room =>
      simp only [Line.length, List.length_append, List.length_singleton, List.length_nil]
      simp only [Line.length] at hroom
      omega
    case queue =>
      simp only [List.length_append, List.length_singleton]
      rw [span_add, hqueue, ← h.write, hedit]
    case edit => rfl
    case plain => simp
    case full => exact fun _ => rfl
  case isFalse hgo =>
    simp only [not_or] at hgo
    constructor
    case write => exact h.write
    case last => exact hlast
    case room =>
      simp only [Line.length, List.length_append, List.length_singleton]
      simp only [Line.length] at hroom
      omega
    case queue => exact hqueue
    case edit =>
      simp only [List.length_append, List.length_singleton]
      exact hedit
    case plain =>
      simp only [List.mem_append, List.mem_singleton, not_or]
      exact ⟨h.plain, Ne.symm hgo.1⟩
    case full =>
      intro he
      refine absurd ?_ hgo.2.2
      rw [← he]
      simp [Line.length, Nat.add_assoc]

theorem Input.Shows.key (h : s.Shows l) (c : UInt8) : (key s c).Shows (l.key c) := by
  unfold Console.key Line.key
  simp only [h.lt_iff]
  split
  · exact h
  split
  · exact h.killLine
  split
  · exact h.backspace
  split
  case isTrue hc => exact h.accept hc.2 _
  case isFalse => exact h

theorem Input.Shows.consoleintr (h : s.Shows l) (getc : List UInt8) :
    (consoleintr getc s).Shows (getc.foldl Line.key l) := by
  induction getc generalizing s l with
  | nil => exact h
  | cons c cs ih => exact ih (h.key c)

/-! ### Reading -/

/-- The first committed character is the one at `r`, and can be taken. -/
theorem Input.Shows.take {c : UInt8} {q edit : List UInt8} (h : s.Shows ⟨c :: q, edit⟩) :
    s.buf (s.r.toNat % inputBuf) = c ∧ { s with r := s.r + 1 }.Shows ⟨q, edit⟩ := by
  have hqueue := h.queue
  rw [List.length_cons, span] at hqueue
  obtain ⟨hc, hq⟩ := List.cons.inj hqueue
  have hroom := h.room
  simp only [Line.length, List.length_cons] at hroom
  refine ⟨hc, ?_⟩
  constructor
  case write =>
    have hw := h.write
    rwa [List.length_cons, add_ofNat_succ] at hw
  case last => exact h.last
  case room =>
    simp only [Line.length]
    omega
  case queue => exact hq
  case edit => exact h.edit
  case plain => exact h.plain
  case full =>
    intro hfull
    simp only [Line.length] at hfull
    omega

theorem Input.Shows.readLoop (h : s.Shows l) (target n : Nat) :
    (readLoop target n s).state.Shows (l.read target n).state ∧
      (readLoop target n s).map Input.line = l.read target n := by
  induction n generalizing s l with
  | zero => exact ⟨h, by simp [Console.readLoop, Line.read, Turn.map, h.line_eq]⟩
  | succ n ih =>
    obtain ⟨queue, edit⟩ := l
    cases queue with
    | nil =>
      have hempty : s.r = s.w := h.empty_iff.mpr rfl
      rw [Console.readLoop, if_pos hempty, Line.read]
      exact ⟨h, by simp [Turn.map, h.line_eq]⟩
    | cons c queue =>
      obtain ⟨hc, htake⟩ := h.take
      have hsome : s.r ≠ s.w := by simp [h.empty_iff]
      have hback : { s with r := s.r + 1 - 1 } = s := by simp
      rw [Console.readLoop, if_neg hsome, Line.read]
      simp only [hc, hback]
      split
      · split
        · exact ⟨h, by simp [Turn.map, h.line_eq]⟩
        · exact ⟨htake, by simp [Turn.map, htake.line_eq]⟩
      · split
        · exact ⟨htake, by simp [Turn.map, htake.line_eq]⟩
        · obtain ⟨hshows, hturn⟩ := ih htake
          refine ⟨hshows, ?_⟩
          rw [← hturn]
          rfl

/-- What a reader takes stood at the front of the queue, and nothing else changes. -/
theorem Line.read_taken (l : Line) (target n : Nat) :
    l.queue = (l.read target n).taken ++ (l.read target n).state.queue ∧
      (l.read target n).state.edit = l.edit := by
  induction n generalizing l with
  | zero => simp [Line.read, Turn.taken]
  | succ n ih =>
    obtain ⟨queue, edit⟩ := l
    cases queue with
    | nil => simp [Line.read, Turn.taken]
    | cons c queue =>
      rw [Line.read]
      split
      case isTrue hc => split <;> simp [Turn.taken, hc]
      case isFalse =>
        split
        · simp [Turn.taken]
        · obtain ⟨hqueue, hedit⟩ := ih ⟨queue, edit⟩
          refine ⟨?_, hedit⟩
          rw [Turn.taken_store, List.cons_append]
          exact congrArg (c :: ·) hqueue

/-- A reader that has met the end of its line, a `^D` or its limit returns the number of
bytes it has stored; one that sleeps has the others still to read. -/
def Turn.Counted (target n : Nat) (t : Turn σ) : Prop :=
  match t.stop with
  | .returned v => v + n = target + t.dst.length
  | .sleeps m => m + t.dst.length = n

theorem Turn.Counted.store {target n : Nat} {t : Turn σ} (ht : t.Counted target n) (c : UInt8) :
    (t.store c).Counted target (n + 1) := by
  unfold Turn.Counted Turn.store at *
  cases hstop : t.stop <;> simp only [hstop, List.length_cons] at ht ⊢ <;> omega

theorem readLoop_counted {target n : Nat} (hn : n ≤ target) (s : Input) :
    (readLoop target n s).Counted target n := by
  induction n generalizing s with
  | zero => simp [readLoop, Turn.Counted]
  | succ n ih =>
    rw [readLoop]
    split
    · simp [Turn.Counted]
    · simp only
      split
      · split
        · simp only [Turn.Counted, List.length_nil]
          omega
        · simp only [Turn.Counted, List.length_nil]
          omega
      · split
        · simp only [Turn.Counted, List.length_singleton]
          omega
        · exact (ih (by omega) _).store _

/-! ### Whole runs -/

abbrev Pid := Nat

/-- A call of `consoleread` that sleeps, and the bytes that it has stored. -/
structure Call where
  target : Nat
  n : Nat
  dst : List UInt8

/-- The console with its sleeping readers, and a history: all characters committed so
far, those taken by readers, each with its reader, and what the calls of `consoleread`
have stored and returned. -/
structure Sys where
  input : Input
  asleep : Pid → Option Call
  committed : List UInt8
  taken : List (Pid × UInt8)
  returned : List (List UInt8 × Int)

def boot : Sys := ⟨⟨fun _ => 0, 0, 0, 0⟩, fun _ => none, [], [], []⟩

/-- The characters between the old and the new `w`. -/
def newlyCommitted (s s' : Input) : List UInt8 := span inputBuf s'.buf s.w (s'.w - s.w).toNat

def Sys.key (c : Sys) (k : UInt8) : Sys :=
  let s := Console.key c.input k
  { c with input := s, committed := c.committed ++ newlyCommitted c.input s }

/-- The reader `p` has `cons.lock` and is before its loop's test. -/
def Sys.read (c : Sys) (p : Pid) (a : Call) (killed : Bool) : Sys :=
  let t := readLoop a.target a.n c.input
  let c := { c with input := t.state, taken := c.taken ++ t.taken.map fun x => (p, x) }
  match t.stop with
  | .returned v =>
    { c with asleep := update c.asleep p none, returned :=
    (a.dst ++ t.dst, (v : Int)) :: c.returned }
  | .sleeps n =>
    if killed then
      { c with asleep := update c.asleep p none, returned := (a.dst ++ t.dst, -1) :: c.returned }
    else { c with asleep := update c.asleep p (some ⟨a.target, n, a.dst ++ t.dst⟩) }

inductive Step : Sys → Sys → Prop
  | intr (c : Sys) (getc : List UInt8) : Step c (getc.foldl Sys.key c)
  | call (c : Sys) (p : Pid) (n : Nat) (killed : Bool) :
      c.asleep p = none → Step c (c.read p ⟨n, n, []⟩ killed)
  | resume (c : Sys) (p : Pid) (a : Call) (killed : Bool) :
      c.asleep p = some a → Step c (c.read p a killed)

abbrev Reachable : Sys → Prop := Relation.ReflTransGen Step boot

theorem killLine_r (fuel : Nat) (s : Input) : (killLine fuel s).r = s.r := by
  induction fuel generalizing s with
  | zero => rfl
  | succ fuel ih =>
    rw [killLine]
    split
    · exact ih _
    · rfl

theorem key_r (s : Input) (k : UInt8) : (key s k).r = s.r := by
  unfold key Input.accept
  dsimp only
  split_ifs <;> first | rfl | exact killLine_r _ _

/-- Editing leaves the committed characters alone. -/
theorem Line.queue_prefix_key (l : Line) (k : UInt8) : l.queue <+: (l.key k).queue := by
  unfold Line.key Line.accept
  split_ifs <;> first | exact List.prefix_rfl | exact List.prefix_append _ _

theorem Input.Shows.committed (h : s.Shows l) (k : UInt8) :
    (l.key k).queue = l.queue ++ newlyCommitted s (Console.key s k) := by
  have hkey := h.key k
  obtain ⟨more, hmore⟩ := l.queue_prefix_key k
  have hspan := hkey.queue
  have hroom : (l.key k).queue.length + (l.key k).edit.length ≤ 128 := hkey.room
  have hlen : (l.key k).queue.length = l.queue.length + more.length := by
    rw [← hmore, List.length_append]
  have hw : (Console.key s k).w = s.w + UInt32.ofNat more.length := by
    rw [hkey.write, key_r, hlen, UInt32.ofNat_add, ← UInt32.add_assoc, ← h.write]
  have hnew : newlyCommitted s (Console.key s k) = more := by
    rw [newlyCommitted, hw, sub_toNat _ (by omega)]
    rw [hlen, span_add, key_r, ← h.write, ← hmore] at hspan
    exact (List.append_inj hspan (by simp)).2
  rw [hnew, hmore]

structure Sys.Inv (c : Sys) : Prop where
  shows : c.input.Shows c.input.line
  history : c.committed = c.taken.map Prod.snd ++ c.input.line.queue
  calls : ∀ p a, c.asleep p = some a → a.n + a.dst.length = a.target
  returned : ∀ x ∈ c.returned, x.2 = x.1.length ∨ x.2 = -1

theorem inv_boot : boot.Inv := by
  constructor
  case shows =>
    have hline : boot.input.line = ⟨[], []⟩ := rfl
    rw [hline]
    constructor <;> simp [boot, Line.length, span]
  case history => rfl
  case calls =>
    intro p a ha
    simp [boot] at ha
  case returned =>
    intro x hx
    simp [boot] at hx

theorem Sys.Inv.key {c : Sys} (h : c.Inv) (k : UInt8) : (c.key k).Inv := by
  have hkey := h.shows.key k
  have hline : (Console.key c.input k).line = c.input.line.key k := hkey.line_eq
  constructor
  case shows => exact hline ▸ hkey
  case history =>
    simp only [Sys.key]
    rw [hline, h.shows.committed, h.history, List.append_assoc]
  case calls => exact h.calls
  case returned => exact h.returned

theorem Sys.Inv.keys {c : Sys} (h : c.Inv) (getc : List UInt8) : (getc.foldl Sys.key c).Inv := by
  induction getc generalizing c with
  | nil => exact h
  | cons k ks ih => exact ih (h.key k)

theorem Sys.Inv.read {c : Sys} (h : c.Inv) (p : Pid) (a : Call) (killed : Bool)
    (ha : a.n + a.dst.length = a.target) : (c.read p a killed).Inv := by
  obtain ⟨hshows, hturn⟩ := h.shows.readLoop a.target a.n
  have hcount := readLoop_counted (show a.n ≤ a.target by omega) c.input
  obtain ⟨hqueue, -⟩ := c.input.line.read_taken a.target a.n
  unfold Sys.read
  generalize readLoop a.target a.n c.input = t at hshows hturn hcount
  have hline : t.state.line = (c.input.line.read a.target a.n).state := by rw [← hturn]; rfl
  have htaken : t.taken = (c.input.line.read a.target a.n).taken := by rw [← hturn, Turn.taken_map]
  have hhistory : c.committed =
      (c.taken ++ t.taken.map fun x => (p, x)).map Prod.snd ++ t.state.line.queue := by
    rw [h.history, hqueue, ← htaken, ← hline]
    simp
  have hcalls : ∀ b : Option Call, (∀ a, b = some a → a.n + a.dst.length = a.target) →
      ∀ q a, update c.asleep p b q = some a → a.n + a.dst.length = a.target := by
    intro b hb q a hq
    by_cases hqp : q = p
    · rw [hqp, Function.update_self] at hq
      exact hb a hq
    · rw [Function.update_of_ne hqp] at hq
      exact h.calls q a hq
  have hreturned : ∀ v : Int, (v = (a.dst ++ t.dst).length ∨ v = -1) →
      ∀ x ∈ (a.dst ++ t.dst, v) :: c.returned, x.2 = x.1.length ∨ x.2 = -1 := by
    intro v hv x hx
    rcases List.mem_cons.mp hx with rfl | hx
    · exact hv
    · exact h.returned x hx
  have hstate : t.state.Shows t.state.line := hline.symm ▸ hshows
  unfold Turn.Counted at hcount
  cases hstop : t.stop with
  | returned v =>
    simp only [hstop] at hcount ⊢
    refine ⟨hstate, hhistory, hcalls none (by simp), hreturned v (.inl ?_)⟩
    rw [List.length_append]
    omega
  | sleeps m =>
    simp only [hstop] at hcount ⊢
    cases killed with
    | true => exact ⟨hstate, hhistory, hcalls none (by simp), hreturned _ (.inr rfl)⟩
    | false =>
      refine ⟨hstate, hhistory, hcalls _ ?_, h.returned⟩
      rintro _ ⟨⟩
      simp only [List.length_append]
      omega

theorem Sys.Inv.step {c c' : Sys} (h : c.Inv) (hstep : Step c c') : c'.Inv := by
  cases hstep with
  | intr getc => exact h.keys getc
  | call p n killed => exact h.read p ⟨n, n, []⟩ killed rfl
  | resume p a killed ha => exact h.read p a killed (h.calls p a ha)

theorem inv_reachable {c : Sys} (h : Reachable c) : c.Inv := by
  induction h with
  | refl => exact inv_boot
  | tail _ hstep ih => exact ih.step hstep

/-- The ring is a queue of committed characters and an edit line, which the keys and the
readers change as the line discipline says; readers are given every committed character
once and in order, and a full buffer is always committed. -/
theorem line_discipline {c : Sys} (h : Reachable c) :
    let s := c.input
    ((s.w - s.r).toNat ≤ (s.e - s.r).toNat ∧ (s.e - s.r).toNat ≤ inputBuf ∧
      (s.e - s.r = UInt32.ofNat inputBuf → s.w = s.e)) ∧
    (∀ k, (key s k).line = s.line.key k ∧ s.line.queue <+: (key s k).line.queue) ∧
    (∀ target n, (readLoop target n s).map Input.line = s.line.read target n) ∧
    c.committed = c.taken.map Prod.snd ++ s.line.queue := by
  have hinv := inv_reachable h
  have hs := hinv.shows
  refine ⟨⟨?_, ?_, ?_⟩, ?_, fun target n => (hs.readLoop target n).2, hinv.history⟩
  · rw [hs.queue_length, hs.length_eq]
    exact Nat.le_add_right _ _
  · rw [hs.length_eq]
    exact hs.room
  · intro hfull
    have hlen : c.input.line.length = inputBuf := by rw [← hs.length_eq, hfull]; rfl
    by_contra hne
    exact hs.edited_iff.mp (Ne.symm hne) (hs.full hlen)
  · intro k
    rw [(hs.key k).line_eq]
    exact ⟨rfl, Line.queue_prefix_key _ k⟩

/-- The user types `ls`, a backspace and a newline, and a reader asks for ten bytes. -/
def listed : Sys :=
  (([0x6c, 0x73, 0x08, 0x0a] : List UInt8).foldl Sys.key boot).read 1 ⟨10, 10, []⟩ false

theorem listed_reachable : Reachable listed :=
  (Relation.ReflTransGen.single (Step.intr boot _)).tail (Step.call _ 1 10 false rfl)

theorem line_discipline_listed :
    listed.committed = [0x6c, 0x0a] ∧ listed.returned = [([0x6c, 0x0a], 2)] ∧
      listed.committed = listed.taken.map Prod.snd ++ listed.input.line.queue :=
  ⟨by decide +kernel, by decide +kernel, (line_discipline listed_reachable).2.2.2⟩

end Xv6.Console
