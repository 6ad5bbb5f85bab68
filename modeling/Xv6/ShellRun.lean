import Xv6.Runs
import Xv6.ShellParser

/-!
# Running commands

`runcmd` of sh.c on the descriptor tables of the processes it makes. Each system call is a
step, the processes take their steps in any order, and all calls succeed. A process that has
executed a program may close, duplicate and open descriptors, make pipes, fork and exit at
will. `wait` may return at any time, which allows more runs than there are.

The pipes that `runcmd` makes are numbered; a process carries the sides of pipes it is on,
its own and those of the processes it descends from.
-/
namespace Xv6.ShellRun

open Function (update update_self update_of_ne)
open ShellParser (Str Mode Cmd)
open Runs

abbrev nofile : Nat := 16

/-- What a descriptor refers to. -/
inductive Desc where
  | other (n : Nat)
  | opened (name : Str) (mode : Mode)
  | readEnd (k : Nat)
  | writeEnd (k : Nat)
  deriving DecidableEq

abbrev Table := Nat → Option Desc

/-- The lowest free descriptor. -/
def fdalloc (t : Table) : Option Nat := (List.range nofile).find? fun d => (t d).isNone

def close (t : Table) (fd : Nat) : Option Table :=
  if (t fd).isSome then some (update t fd none) else none

def allocate (t : Table) (x : Desc) : Option (Nat × Table) :=
  (fdalloc t).map fun d => (d, update t d (some x))

def dup (t : Table) (fd : Nat) : Option Table := do
  let x ← t fd
  let (_, t) ← allocate t x
  return t

inductive Side where
  | left
  | right
  deriving DecidableEq

/-- The system calls between a fork or a node of the command and the next `runcmd`. -/
inductive Instr where
  | close (fd : Nat)
  | dup (fd : Nat)
  | openFile (name : Str) (mode : Mode)
  deriving DecidableEq

def Instr.perform (t : Table) : Instr → Option Table
  | .close fd => ShellRun.close t fd
  | .dup fd => ShellRun.dup t fd
  | .openFile name mode => (allocate t (.opened name mode)).map Prod.snd

/-- What a child does before it calls `runcmd`, and its part in a pipe. -/
structure Child where
  code : List Instr
  side : Option (Nat × Side)
  cmd : Cmd Str

inductive Next where
  | run (cmd : Cmd Str)
  /-- Wait for children, then run a command or exit. -/
  | wait (n : Nat) (cmd : Option (Cmd Str))
  | program

structure Proc where
  fds : Table
  /-- Children still to be forked, then calls still to be made. -/
  forks : List Child
  code : List Instr
  next : Next
  sides : List (Nat × Side)
  /-- The pipe that is being set up, and the side of it that the process is going to run. -/
  role : Option (Nat × Option Side)

/-- What the program that a process executes does next. -/
inductive Choice where
  | close (fd : Nat)
  | dup (fd : Nat)
  | openFile (n : Nat)
  | pipe (m n : Nat)
  | fork
  | exit

def Child.start (c : Child) (p : Proc) : Proc where
  fds := p.fds
  forks := []
  code := c.code
  next := .run c.cmd
  sides := c.side.toList ++ p.sides
  role := c.side.map fun x => (x.1, some x.2)

/-- The child that runs one side of pipe `k`: the end of the pipe replaces descriptor `fd`. -/
def pipeSide (k : Nat) (side : Side) (fd fromFd p0 p1 : Nat) (cmd : Cmd Str) : Child :=
  ⟨[.close fd, .dup fromFd, .close p0, .close p1], some (k, side), cmd⟩

/-- `runcmd`, up to the system calls that follow; `k` is the number for a new pipe. -/
def runcmd (k : Nat) (p : Proc) : Cmd Str → Option (List Proc × Nat)
  | .exec argv => some (if argv = [] then [] else [{ p with next := .program, role := none }], k)
  | .redir cmd file mode fd =>
    some ([{ p with code := [.close fd, .openFile file mode], next := .run cmd, role := none }], k)
  | .list left right =>
    some ([{ p with forks := [⟨[], none, left⟩], next := .wait 1 (some right), role := none }], k)
  | .pipe left right => do
    let (p0, t) ← allocate p.fds (.readEnd k)
    let (p1, t) ← allocate t (.writeEnd k)
    return ([{ p with
      fds := t
      forks := [pipeSide k .left 1 p1 p0 p1 left, pipeSide k .right 0 p0 p0 p1 right]
      code := [.close p0, .close p1]
      next := .wait 2 none
      role := some (k, none) }], k + 1)
  | .back cmd =>
    some ([{ p with forks := [⟨[], none, cmd⟩], next := .wait 0 none, role := none }], k)

/-- A step of an executed program. -/
def program (p : Proc) : Choice → Option (List Proc)
  | .close fd => (close p.fds fd).map fun t => [{ p with fds := t }]
  | .dup fd => (dup p.fds fd).map fun t => [{ p with fds := t }]
  | .openFile n => (allocate p.fds (.other n)).map fun x => [{ p with fds := x.2 }]
  | .pipe m n => do
    let (_, t) ← allocate p.fds (.other m)
    let (_, t) ← allocate t (.other n)
    return [{ p with fds := t }]
  | .fork => some [p, p]
  | .exit => some []

/-- What becomes of a process in one step. -/
def act (k : Nat) (p : Proc) (choice : Choice) : Option (List Proc × Nat) :=
  match p.forks, p.code, p.next with
  | child :: forks, _, _ => some ([{ p with forks }, child.start p], k)
  | [], i :: code, _ => (i.perform p.fds).map fun t => ([{ p with fds := t, code }], k)
  | [], [], .run cmd => runcmd k p cmd
  | [], [], .wait (n + 1) cmd => some ([{ p with next := .wait n cmd }], k)
  | [], [], .wait 0 (some cmd) => some ([{ p with next := .run cmd, role := none }], k)
  | [], [], .wait 0 none => some ([], k)
  | [], [], .program => (program p choice).map fun l => (l, k)

structure State where
  procs : List Proc
  pipes : Nat

def step (s : State) (a : Nat × Choice) : Option State := do
  let p ← s.procs[a.1]?
  let (l, k) ← act s.pipes p a.2
  return ⟨s.procs.take a.1 ++ (l ++ s.procs.drop (a.1 + 1)), k⟩

/-- A process that is about to run a command, and nobody else. -/
def start (cmd : Cmd Str) (t : Table) : State :=
  ⟨[{ fds := t, forks := [], code := [], next := .run cmd, sides := [], role := none }], 0⟩

/-! ## Descriptor tables -/

variable {t t' : Table} {x : Desc} {d fd k : Nat} {p q : Proc} {sides : List (Nat × Side)}

theorem fdalloc_some (h : fdalloc t = some d) : t d = none ∧ ∀ e < d, t e ≠ none := by
  obtain ⟨hd, hlt⟩ := List.find?_range_eq_some.mp h
  refine ⟨by simpa using hd, fun e he => ?_⟩
  have := hlt.2 e he
  rw [Bool.not_eq_true', Option.isNone_eq_false_iff] at this
  exact Option.isSome_iff_ne_none.mp this

/-- Descriptor `d` is the one that is allocated if it is the first free one. -/
theorem fdalloc_eq (h : fdalloc t = some d) {e : Nat} (he : t e = none)
    (hlt : ∀ i < e, t i ≠ none) : d = e := by
  obtain ⟨hd, hbelow⟩ := fdalloc_some h
  exact le_antisymm (not_lt.mp fun h' => hbelow e h' he) (not_lt.mp fun h' => hlt d h' hd)

theorem close_some (h : close t fd = some t') : t' = update t fd none := by
  obtain ⟨-, h⟩ := Option.ite_none_right_eq_some.mp h
  exact (Option.some.inj h).symm

theorem allocate_some {y : Nat × Table} (h : allocate t x = some y) :
    fdalloc t = some y.1 ∧ y.2 = update t y.1 (some x) := by
  obtain ⟨d, hd, rfl⟩ := Option.map_eq_some_iff.mp h
  exact ⟨hd, rfl⟩

theorem dup_some (h : dup t fd = some t') :
    ∃ d x, fdalloc t = some d ∧ t fd = some x ∧ t' = update t d (some x) := by
  obtain ⟨x, hx, h⟩ := Option.bind_eq_some_iff.mp h
  obtain ⟨y, hy, h⟩ := Option.bind_eq_some_iff.mp h
  obtain ⟨hd, hy⟩ := allocate_some hy
  exact ⟨y.1, x, hd, hx, (Option.some.inj h).symm.trans hy⟩

/-! ## What holds of every process -/

/-- A process has an end of a pipe only if it is on the side that uses it; pipe `busy` apart. -/
def Legit (t : Table) (sides : List (Nat × Side)) (busy : Option Nat) : Prop :=
  ∀ d k, busy ≠ some k →
    (t d = some (.writeEnd k) → (k, Side.left) ∈ sides) ∧
    (t d = some (.readEnd k) → (k, Side.right) ∈ sides)

/-- The table with which a process calls `runcmd`. -/
structure Ready (t : Table) (sides : List (Nat × Side)) (role : Option (Nat × Option Side)) :
    Prop where
  std : ∀ d < 3, t d ≠ none
  legit : Legit t sides none
  left : ∀ k, role = some (k, some .left) → t 1 = some (.writeEnd k)
  right : ∀ k, role = some (k, some .right) → t 0 = some (.readEnd k)

/-- The table after the calls of a list. -/
def finish : List Instr → Table → Option Table
  | [], t => some t
  | i :: l, t => (i.perform t).bind (finish l)

/-- The calls a process still has to make leave a table that it can run a command with. -/
structure Fit (t : Table) (code : List Instr) (sides : List (Nat × Side))
    (role : Option (Nat × Option Side)) :
    Prop where
  legit : Legit t sides (role.map Prod.fst)
  ready : ∀ t', finish code t = some t' → Ready t' sides role

/-- A process of the shell. -/
structure Shell (p : Proc) : Prop where
  next : p.next ≠ .program
  fit : Fit p.fds p.code p.sides p.role
  forks : ∀ c ∈ p.forks, Fit p.fds c.code (c.side.toList ++ p.sides)
    (c.side.map fun x => (x.1, some x.2))

/-- A process that has executed a program. -/
structure Program (p : Proc) : Prop where
  next : p.next = .program
  forks : p.forks = []
  code : p.code = []
  role : p.role = none
  legit : Legit p.fds p.sides none

def Inv (p : Proc) : Prop := Shell p ∨ Program p

theorem Ready.fit {role : Option (Nat × Option Side)} (h : Ready t sides role) :
    Fit t [] sides role :=
  ⟨fun d k _ => h.legit d k nofun, fun _ ht => Option.some.inj ht ▸ h⟩

theorem Ready.forget {role : Option (Nat × Option Side)} (h : Ready t sides role) :
    Ready t sides none :=
  ⟨h.std, h.legit, nofun, nofun⟩

theorem Legit.closed (h : Legit t sides busy) (d : Nat) : Legit (update t d none) sides busy := by
  intro e k hk
  by_cases he : e = d
  · subst he
    simp
  · rw [update_of_ne he]
    exact h e k hk

theorem Legit.opened (h : Legit t sides busy) (d : Nat)
    (hx : ∀ k, busy ≠ some k → (x = .writeEnd k → (k, Side.left) ∈ sides) ∧
      (x = .readEnd k → (k, Side.right) ∈ sides)) : Legit (update t d (some x)) sides busy := by
  intro e k hk
  by_cases he : e = d
  · subst he
    simpa using hx k hk
  · rw [update_of_ne he]
    exact h e k hk

theorem Legit.perform (h : Legit t sides busy) {i : Instr} (hi : i.perform t = some t') :
    Legit t' sides busy := by
  cases i with
  | close fd =>
    rw [close_some hi]
    exact h.closed fd
  | dup fd =>
    obtain ⟨d, x, -, hx, rfl⟩ := dup_some hi
    refine h.opened d fun k hk => ?_
    obtain ⟨hw, hr⟩ := h fd k hk
    exact ⟨fun hxk => hw (hx.trans (congrArg _ hxk)), fun hxk => hr (hx.trans (congrArg _ hxk))⟩
  | openFile name mode =>
    obtain ⟨y, hy, rfl⟩ := Option.map_eq_some_iff.mp hi
    rw [(allocate_some hy).2]
    exact h.opened _ fun k _ => ⟨nofun, nofun⟩

theorem Fit.perform {i : Instr} {code : List Instr} {role : Option (Nat × Option Side)}
    (h : Fit t (i :: code) sides role) (hi : i.perform t = some t') : Fit t' code sides role :=
  ⟨h.legit.perform hi, fun u hu => h.ready u (by rw [finish, hi]; exact hu)⟩

theorem three_le_fdalloc (hstd : ∀ d < 3, t d ≠ none) (h : fdalloc t = some d) : 3 ≤ d :=
  not_lt.mp fun hd => hstd d hd (fdalloc_some h).1

/-- One of the first three descriptors that has been closed is the next to be allocated. -/
theorem fdalloc_closed (hstd : ∀ d < 3, t d ≠ none) (hfd : fd < 3)
    (h : fdalloc (update t fd none) = some d) :
    d = fd := by
  refine fdalloc_eq h (update_self ..) fun i hi => ?_
  rw [update_of_ne hi.ne]
  exact hstd i (hi.trans hfd)

/-- Some descriptor is closed, and the lowest free one is opened. -/
theorem std_reopened (hstd : ∀ d < 3, t d ≠ none) (h : fdalloc (update t fd none) = some d)
    (e : Nat) (he : e < 3) :
    update (update t fd none) d (some x) e ≠ none := by
  by_cases hed : e = d
  · subst hed
    simp
  · rw [update_of_ne hed]
    by_cases hef : e = fd
    · subst hef
      exact absurd (fdalloc_closed hstd he h).symm hed
    · rw [update_of_ne hef]
      exact hstd e he

theorem Ready.redir (h : Ready t sides none) {name : Str} {mode : Mode} :
    Fit t [.close fd, .openFile name mode] sides none := by
  refine ⟨h.legit, fun t' ht => ?_⟩
  obtain ⟨t₁, h₁, ht⟩ := Option.bind_eq_some_iff.mp ht
  obtain ⟨t₂, h₂, ht⟩ := Option.bind_eq_some_iff.mp ht
  obtain rfl := Option.some.inj ht
  have hlegit : Legit t₂ sides none := (h.legit.perform h₁).perform h₂
  obtain ⟨y, hy, rfl⟩ := Option.map_eq_some_iff.mp h₂
  obtain ⟨hd, hy⟩ := allocate_some hy
  obtain rfl := close_some h₁
  refine ⟨fun e he => ?_, hlegit, nofun, nofun⟩
  rw [hy]
  exact std_reopened h.std hd e he

/-- The table of a process that has made pipe `k`. -/
structure Piped (t : Table) (k p0 p1 : Nat) (t' : Table) : Prop where
  read : t' p0 = some (.readEnd k)
  write : t' p1 = some (.writeEnd k)
  high : 3 ≤ p0 ∧ 3 ≤ p1
  same : ∀ d, d ≠ p0 → d ≠ p1 → t' d = t d

theorem piped {y z : Nat × Table} (hstd : ∀ d < 3, t d ≠ none)
    (hy : allocate t (.readEnd k) = some y) (hz : allocate y.2 (.writeEnd k) = some z) :
    Piped t k y.1 z.1 z.2 := by
  obtain ⟨hp0, hy⟩ := allocate_some hy
  obtain ⟨hp1, hz⟩ := allocate_some hz
  have h0 := three_le_fdalloc hstd hp0
  have hstd' : ∀ d < 3, y.2 d ≠ none := by
    intro d hd
    rw [hy, update_of_ne (by omega)]
    exact hstd d hd
  have hne : y.1 ≠ z.1 := by
    intro he
    have := (fdalloc_some hp1).1
    rw [← he, hy, update_self] at this
    cases this
  refine ⟨?_, by rw [hz, update_self], ⟨h0, three_le_fdalloc hstd' hp1⟩, fun d hd0 hd1 => ?_⟩
  · rw [hz, update_of_ne hne, hy, update_self]
  · rw [hz, update_of_ne hd1, hy, update_of_ne hd0]

namespace Piped

variable {p0 p1 : Nat} (h : Piped t k p0 p1 t') (hr : Ready t sides none)

include h hr

theorem std : ∀ d < 3, t' d ≠ none := by
  intro d hd
  have := h.high
  rw [h.same d (by omega) (by omega)]
  exact hr.std d hd

theorem legit : Legit t' sides (some k) := by
  intro d j hj
  have hj : k ≠ j := fun h => hj (congrArg some h)
  by_cases h0 : d = p0
  · subst h0
    rw [h.read]
    exact ⟨nofun, fun hjk => absurd (Desc.readEnd.inj (Option.some.inj hjk)) hj⟩
  · by_cases h1 : d = p1
    · subst h1
      rw [h.write]
      exact ⟨fun hjk => absurd (Desc.writeEnd.inj (Option.some.inj hjk)) hj, nofun⟩
    · rw [h.same d h0 h1]
      exact hr.legit d j nofun

/-- The process that made the pipe closes both ends. -/
theorem parent : Fit t' [.close p0, .close p1] sides (some (k, none)) := by
  refine ⟨h.legit hr, fun u hu => ?_⟩
  obtain ⟨u₁, h₁, hu⟩ := Option.bind_eq_some_iff.mp hu
  obtain ⟨u₂, h₂, hu⟩ := Option.bind_eq_some_iff.mp hu
  obtain rfl := Option.some.inj hu
  obtain rfl := close_some h₂
  obtain rfl := close_some h₁
  have hval : ∀ d, update (update t' p0 none) p1 none d = if d = p0 ∨
      d = p1 then none else t d := by
    intro d
    have := h.same d
    grind [Function.update_apply]
  refine ⟨fun d hd => ?_, fun d j _ => ?_, nofun, nofun⟩
  · have := h.high
    rw [hval, if_neg (by omega)]
    exact hr.std d hd
  · rw [hval]
    split
    · exact ⟨nofun, nofun⟩
    · exact hr.legit d j nofun

/-- The table of a child behind its calls. -/
theorem child_table {fd fromFd : Nat} (hfd : fd < 3) (hx : t' fromFd = some x) (hfrom : 3 ≤ fromFd)
    {u : Table} (hu : finish [.close fd, .dup fromFd, .close p0, .close p1] t' = some u) (d : Nat) :
    u d = if d = p0 ∨ d = p1 then none else if d = fd then some x else t d := by
  obtain ⟨u₁, h₁, hu⟩ := Option.bind_eq_some_iff.mp hu
  obtain ⟨u₂, h₂, hu⟩ := Option.bind_eq_some_iff.mp hu
  obtain ⟨u₃, h₃, hu⟩ := Option.bind_eq_some_iff.mp hu
  obtain ⟨u₄, h₄, hu⟩ := Option.bind_eq_some_iff.mp hu
  obtain rfl := Option.some.inj hu
  obtain rfl := close_some h₄
  obtain rfl := close_some h₃
  obtain rfl := close_some h₁
  obtain ⟨e, y, he, hy, rfl⟩ := dup_some h₂
  obtain rfl := fdalloc_closed (h.std hr) hfd he
  rw [update_of_ne (by omega), hx] at hy
  obtain rfl := Option.some.inj hy
  have := h.same d
  grind [Function.update_apply]

/-- The end of the pipe that a side uses, and the descriptor for it. -/
theorem child {side : Side} {fd fromFd : Nat} (hx : t' fromFd = some x) (hfrom : 3 ≤ fromFd)
    (hend : side = .left ∧ fd = 1 ∧ x = .writeEnd k ∨ side = .right ∧ fd = 0 ∧ x = .readEnd k) :
    Fit t' [.close fd, .dup fromFd, .close p0, .close p1] ((k, side) :: sides)
      (some (k, some side)) := by
  have hhigh := h.high
  have hfd : fd < 3 := by omega
  refine ⟨fun d j hj => ?_, fun u hu => ?_⟩
  · obtain ⟨hw, hrd⟩ := h.legit hr d j hj
    exact ⟨fun hd => List.mem_cons_of_mem _ (hw hd), fun hd => List.mem_cons_of_mem _ (hrd hd)⟩
  have hval := h.child_table hr hfd hx hfrom hu
  have hself : u fd = some x := by rw [hval, if_neg (by omega), if_pos rfl]
  refine ⟨fun d hd => ?_, fun d j _ => ?_, fun j hj => ?_, fun j hj => ?_⟩
  · rw [hval, if_neg (by omega)]
    split
    · exact nofun
    · exact hr.std d hd
  · rw [hval]
    split_ifs
    · exact ⟨nofun, nofun⟩
    · obtain ⟨rfl, -, rfl⟩ | ⟨rfl, -, rfl⟩ := hend <;> grind
    · obtain ⟨hw, hrd⟩ := hr.legit d j nofun
      exact ⟨fun hd => List.mem_cons_of_mem _ (hw hd), fun hd => List.mem_cons_of_mem _ (hrd hd)⟩
  · obtain ⟨rfl, hside⟩ := Prod.mk.inj (Option.some.inj hj)
    obtain ⟨-, rfl, rfl⟩ | ⟨rfl, -, -⟩ := hend
    · exact hself
    · cases hside
  · obtain ⟨rfl, hside⟩ := Prod.mk.inj (Option.some.inj hj)
    obtain ⟨rfl, -, -⟩ | ⟨-, rfl, rfl⟩ := hend
    · cases hside
    · exact hself

end Piped

/-! ## Steps and runs -/

theorem Inv.runcmd {cmd : Cmd Str} {l : List Proc} {k' : Nat} (hr : Ready p.fds p.sides none)
    (hf : p.forks = []) (hc : p.code = []) (h : runcmd k p cmd = some (l, k')) :
    ∀ q ∈ l, Inv q := by
  cases cmd with
  | exec argv =>
    obtain ⟨rfl, -⟩ := Prod.mk.inj (Option.some.inj h)
    split
    · exact nofun
    · exact List.forall_mem_singleton.mpr (.inr ⟨rfl, hf, hc, rfl, hr.legit⟩)
  | redir cmd file mode fd =>
    obtain ⟨rfl, -⟩ := Prod.mk.inj (Option.some.inj h)
    exact List.forall_mem_singleton.mpr (.inl ⟨nofun, hr.redir, by simp [hf]⟩)
  | list | back =>
    obtain ⟨rfl, -⟩ := Prod.mk.inj (Option.some.inj h)
    exact List.forall_mem_singleton.mpr
      (.inl ⟨nofun, hc ▸ hr.fit, List.forall_mem_singleton.mpr hr.fit⟩)
  | pipe left right =>
    obtain ⟨y, hy, h⟩ := Option.bind_eq_some_iff.mp h
    obtain ⟨z, hz, h⟩ := Option.bind_eq_some_iff.mp h
    obtain ⟨rfl, -⟩ := Prod.mk.inj (Option.some.inj h)
    have hpiped := piped hr.std hy hz
    refine List.forall_mem_singleton.mpr (.inl ⟨nofun, hpiped.parent hr, ?_⟩)
    refine List.forall_mem_cons.mpr ⟨?_, List.forall_mem_singleton.mpr ?_⟩
    · exact hpiped.child hr hpiped.write hpiped.high.2 (.inl ⟨rfl, rfl, rfl⟩)
    · exact hpiped.child hr hpiped.read hpiped.high.1 (.inr ⟨rfl, rfl, rfl⟩)

/-- A program keeps the ends of pipes it has, and no others come to it. -/
theorem Program.step {choice : Choice} {l : List Proc} (h : Program p)
    (hp : program p choice = some l) :
    ∀ q ∈ l, Program q := by
  have hlegit := h.legit
  cases choice with
  | close fd =>
    obtain ⟨t, ht, rfl⟩ := Option.map_eq_some_iff.mp hp
    exact List.forall_mem_singleton.mpr { h with legit := hlegit.perform (i := .close fd) ht }
  | dup fd =>
    obtain ⟨t, ht, rfl⟩ := Option.map_eq_some_iff.mp hp
    exact List.forall_mem_singleton.mpr { h with legit := hlegit.perform (i := .dup fd) ht }
  | openFile n =>
    obtain ⟨y, hy, rfl⟩ := Option.map_eq_some_iff.mp hp
    refine List.forall_mem_singleton.mpr { h with legit := ?_ }
    rw [(allocate_some hy).2]
    exact hlegit.opened _ fun k _ => ⟨nofun, nofun⟩
  | pipe m n =>
    obtain ⟨y, hy, hp⟩ := Option.bind_eq_some_iff.mp hp
    obtain ⟨z, hz, hp⟩ := Option.bind_eq_some_iff.mp hp
    obtain rfl := Option.some.inj hp
    refine List.forall_mem_singleton.mpr { h with legit := ?_ }
    rw [(allocate_some hz).2, (allocate_some hy).2]
    exact (hlegit.opened (x := .other m) _ fun k _ => ⟨nofun, nofun⟩).opened _
      fun k _ => ⟨nofun, nofun⟩
  | fork =>
    obtain rfl := Option.some.inj hp
    exact List.forall_mem_cons.mpr ⟨h, List.forall_mem_singleton.mpr h⟩
  | exit =>
    obtain rfl := Option.some.inj hp
    exact nofun

/-- What a process becomes is as it should be again. -/
theorem Inv.act {choice : Choice} {l : List Proc} {k' : Nat} (h : Inv p)
    (ha : act k p choice = some (l, k')) :
    ∀ q ∈ l, Inv q := by
  obtain h | h := h
  · unfold ShellRun.act at ha
    split at ha
    next child forks hf =>
      obtain ⟨rfl, -⟩ := Prod.mk.inj (Option.some.inj ha)
      have hforks := h.forks
      rw [hf] at hforks
      obtain ⟨hchild, hforks⟩ := List.forall_mem_cons.mp hforks
      refine List.forall_mem_cons.mpr
        ⟨.inl ⟨h.next, h.fit, hforks⟩, List.forall_mem_singleton.mpr (.inl ⟨nofun, hchild, nofun⟩)⟩
    next i code hf hc =>
      obtain ⟨t, ht, hl⟩ := Option.map_eq_some_iff.mp ha
      obtain ⟨rfl, -⟩ := Prod.mk.inj hl
      have hfit := h.fit
      rw [hc] at hfit
      exact List.forall_mem_singleton.mpr (.inl ⟨h.next, hfit.perform ht, by simp [hf]⟩)
    all_goals
      rename_i hf hc hn
      have hready : Ready p.fds p.sides p.role := h.fit.ready _ (by rw [hc]; rfl)
    · exact Inv.runcmd hready.forget hf hc ha
    · obtain ⟨rfl, -⟩ := Prod.mk.inj (Option.some.inj ha)
      exact List.forall_mem_singleton.mpr (.inl ⟨nofun, h.fit, h.forks⟩)
    · obtain ⟨rfl, -⟩ := Prod.mk.inj (Option.some.inj ha)
      exact List.forall_mem_singleton.mpr
        (.inl ⟨nofun, by rw [hc]; exact hready.forget.fit, by simp [hf]⟩)
    · obtain ⟨rfl, -⟩ := Prod.mk.inj (Option.some.inj ha)
      exact nofun
    · exact absurd hn h.next
  · unfold ShellRun.act at ha
    rw [h.forks, h.code, h.next] at ha
    obtain ⟨l', hl, he⟩ := Option.map_eq_some_iff.mp ha
    obtain ⟨rfl, -⟩ := Prod.mk.inj he
    exact fun q hq => .inr (h.step hl q hq)

theorem Inv.step {s s' : State} {a : Nat × Choice} (h : ∀ p ∈ s.procs, Inv p)
    (hs : step s a = some s') :
    ∀ p ∈ s'.procs, Inv p := by
  obtain ⟨p, hp, hs⟩ := Option.bind_eq_some_iff.mp hs
  obtain ⟨⟨l, k⟩, hl, hs⟩ := Option.bind_eq_some_iff.mp hs
  obtain rfl := Option.some.inj hs
  have hnew := (h p (List.mem_of_getElem? hp)).act hl
  intro q hq
  obtain hq | hq := List.mem_append.mp hq
  · exact h q (List.mem_of_mem_take hq)
  obtain hq | hq := List.mem_append.mp hq
  · exact hnew q hq
  · exact h q (List.mem_of_mem_drop hq)

/-- The process has made its forks and calls. -/
def Settled (p : Proc) : Prop := p.forks = [] ∧ p.code = []

/-- Pipe `k` is set up: the process that made it and its two children are through with that. -/
def SetUp (s : State) (k : Nat) : Prop := ∀ p ∈ s.procs, p.role.map Prod.fst = some k → Settled p

theorem Inv.legit (h : Inv p) (hk : p.role.map Prod.fst = some k → Settled p) (d : Nat) :
    (p.fds d = some (.writeEnd k) → (k, .left) ∈ p.sides) ∧
    (p.fds d = some (.readEnd k) → (k, .right) ∈ p.sides) := by
  obtain h | h := h
  · by_cases hrole : p.role.map Prod.fst = some k
    · have hready : Ready p.fds p.sides p.role := h.fit.ready _ (by rw [(hk hrole).2]; rfl)
      exact hready.legit d k nofun
    · exact h.fit.legit d k hrole
  · exact h.legit d k nofun

/-- A process runs a command from a table whose first three descriptors are open, all of them
of files of its own. In every state that can be reached,
* a process that is about to run the left side of a pipe has its write end as descriptor 1, and
  one that is about to run the right side has its read end as descriptor 0;
* as soon as a pipe is set up, only processes on its left side have the write end, and only
  processes on its right side have the read end;
* if then the processes on its left side have exited, nobody has the write end;
* a process that is about to execute a program has the first three descriptors open. -/
theorem pipelines_wired (cmd : Cmd Str) (files : Nat → Option Nat) (hstd : ∀ d < 3, files d ≠ none)
    (s : State) (h : Reachable step (start cmd fun d => (files d).map .other) s) :
    (∀ p ∈ s.procs, Settled p → ∀ k,
      (p.role = some (k, some .left) → p.fds 1 = some (.writeEnd k)) ∧
        (p.role = some (k, some .right) → p.fds 0 = some (.readEnd k))) ∧
    (∀ k, SetUp s k → ∀ p ∈ s.procs, ∀ d,
      (p.fds d = some (.writeEnd k) → (k, .left) ∈ p.sides) ∧
        (p.fds d = some (.readEnd k) → (k, .right) ∈ p.sides)) ∧
    (∀ k, SetUp s k → (∀ p ∈ s.procs, (k, .left) ∉ p.sides) →
      ∀ p ∈ s.procs, ∀ d, p.fds d ≠ some (.writeEnd k)) ∧
    ∀ p ∈ s.procs, Settled p → ∀ argv, p.next = .run (.exec argv) → ∀ d < 3, p.fds d ≠ none := by
  have hstart : ∀ p ∈ (start cmd fun d => (files d).map .other).procs, Inv p := by
    refine List.forall_mem_singleton.mpr
      (.inl ⟨nofun, Ready.fit ⟨fun d hd => ?_, fun d k _ => ?_, nofun, nofun⟩, nofun⟩)
    · simpa using hstd d hd
    · cases files d <;> simp
  have hinv :=
    h.invariant (P := fun s => ∀ p ∈ s.procs, Inv p) hstart fun _ _ _ hp _ hs => Inv.step hp hs
  have hready : ∀ p ∈ s.procs, Shell p → Settled p → Ready p.fds p.sides p.role := by
    intro p _ hp hset
    exact hp.fit.ready _ (by rw [hset.2]; rfl)
  have hends : ∀ k, SetUp s k → ∀ p ∈ s.procs, ∀ d, _ :=
    fun k hk p hp d => (hinv p hp).legit (hk p hp) d
  refine ⟨fun p hp hset k => ?_, hends, fun k hk hgone p hp d hd => ?_,
    fun p hp hset argv hnext d hd => ?_⟩
  · obtain hsh | hpr := hinv p hp
    · exact ⟨(hready p hp hsh hset).left k, (hready p hp hsh hset).right k⟩
    · rw [hpr.role]
      exact ⟨nofun, nofun⟩
  · exact hgone p hp ((hends k hk p hp d).1 hd)
  · obtain hsh | hpr := hinv p hp
    · exact (hready p hp hsh hset).std d hd
    · rw [hpr.next] at hnext
      cases hnext

/-- The command `a | b`, from a table with three open files. -/
def twoStart : State :=
  start (.pipe (.exec [[97]]) (.exec [[98]])) fun d => (if d < 3 then some 0 else none).map .other

/-- The pipe is made, both children are forked, and the one for `a` makes its calls. -/
def twoSteps : List (Nat × Choice) :=
  [(0, .exit), (0, .exit), (0, .exit), (2, .exit), (2, .exit), (2, .exit), (2, .exit)]

theorem pipelines_wired_two :
    ∃ s p, exec step twoSteps twoStart = some s ∧ s.procs[2]? = some p ∧
      p.role = some (0, some .left) ∧
      p.fds 1 = some (.writeEnd 0) := by
  obtain ⟨s, p, hs, hp, hrole, hset⟩ : ∃ s p, exec step twoSteps twoStart =
      some s ∧ s.procs[2]? = some p ∧
      p.role = some (0, some .left) ∧ Settled p := ⟨_, _, rfl, rfl, rfl, rfl, rfl⟩
  have hstd : ∀ d < 3, (if d < 3 then some 0 else none : Option Nat) ≠ none := by decide
  have hwired := pipelines_wired _ _ hstd s (reachable_of_exec hs)
  exact ⟨s, p, hs, hp, hrole, (hwired.1 p (List.mem_of_getElem? hp) hset 0).1 hrole⟩

end Xv6.ShellRun
