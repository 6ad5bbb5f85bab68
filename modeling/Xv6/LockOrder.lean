import Mathlib.Logic.Relation
import Mathlib.Logic.Function.Basic

/-!
# Lock programs

Code seen only through the spin locks it takes: branches and loop counts are left
open, and functions call each other by name. CPUs run threads of such code. An
interrupt can come where a CPU holds no lock, and a thread that is switched out
leaves its locks to the CPU, which goes on with another thread.

`wp` is a calculus of preconditions on the list of held locks. Code that acquires
locks only in the order of a rank keeps every CPU waiting for a lock above all it
holds, so that no cycle of CPUs waiting for each other can form.
-/
namespace Xv6.LockOrder

open Function (update)

/-- Code over locks `L` and function names `F`. -/
inductive Code (L F : Type) where
  | skip : Code L F
  | acquire : L → Code L F
  | release : L → Code L F
  /-- Continue with another thread; this one waits to be resumed. -/
  | swtch : Code L F
  /-- Continue with another thread; this one is never resumed. -/
  | quit : Code L F
  /-- A new thread, which will start at a function when it is first resumed. -/
  | spawn : F → Code L F
  | call : F → Code L F
  | seq : Code L F → Code L F → Code L F
  | alt : Code L F → Code L F → Code L F
  | loop : Code L F → Code L F
  | pick : (Nat → Code L F) → Code L F

namespace Code

variable {L F : Type}

def block : List (Code L F) → Code L F
  | [] => .skip
  | a :: l => .seq a (block l)

def opt (a : Code L F) : Code L F := .alt a .skip

/-- One of several pieces of code, or none. -/
def alts : List (Code L F) → Code L F
  | [] => .skip
  | a :: l => .alt a (alts l)

/-- A critical section that makes no calls. -/
def crit (l : L) : Code L F := block [.acquire l, .release l]

end Code

/-- The functions, those a thread can enter from user code, and those an interrupt
enters. -/
structure Program (L F : Type) where
  body : F → Code L F
  entry : F → Bool
  handler : F → Bool

/-- A CPU runs the pieces of `work` in order; in user code there are none. -/
structure Cpu (L F : Type) where
  held : List L
  work : List (Code L F)

structure State (L F : Type) (n : Nat) where
  cpu : Fin n → Cpu L F
  parked : List (List (Code L F))

inductive Act (F : Type) where
  | go | left | right
  | choose : Nat → Act F
  | resume : Nat → Act F
  | enter : F → Act F
  | interrupt : F → Act F

variable {L F : Type} [DecidableEq L] {n : Nat}

def State.set (s : State L F n) (c : Fin n) (held : List L) (work : List (Code L F)) :
    State L F n :=
  { s with cpu := update s.cpu c ⟨held, work⟩ }

/-- The instructions that leave no choice. A CPU that finds a lock taken spins. -/
def State.go (P : Program L F) (s : State L F n) (c : Fin n) : Option (State L F n) :=
  let held := (s.cpu c).held
  match (s.cpu c).work with
  | .skip :: w => some (s.set c held w)
  | .acquire l :: w =>
    if ∀ d, l ∉ (s.cpu d).held then some (s.set c (l :: held) w) else none
  | .release l :: w => some (s.set c (held.erase l) w)
  | .spawn f :: w => some { s.set c held w with parked := [.call f] :: s.parked }
  | .call f :: w => some (s.set c held (P.body f :: w))
  | .seq a b :: w => some (s.set c held (a :: b :: w))
  | _ => none

/-- A branch, or one more pass of a loop or none. -/
def State.branch (s : State L F n) (c : Fin n) (first : Bool) : Option (State L F n) :=
  match (s.cpu c).work with
  | .alt a b :: w => some (s.set c (s.cpu c).held ((if first then a else b) :: w))
  | .loop a :: w => some (s.set c (s.cpu c).held (if first then a :: .loop a :: w else w))
  | _ => none

def State.choose (s : State L F n) (c : Fin n) (i : Nat) : Option (State L F n) :=
  match (s.cpu c).work with
  | .pick k :: w => some (s.set c (s.cpu c).held (k i :: w))
  | _ => none

/-- Switch to the `i`-th waiting thread. The locks stay with the CPU. -/
def State.resume (s : State L F n) (c : Fin n) (i : Nat) : Option (State L F n) :=
  match (s.cpu c).work, s.parked[i]? with
  | .swtch :: w, some t =>
    some { s.set c (s.cpu c).held t with parked := s.parked.set i w }
  | .quit :: _, some t =>
    some { s.set c (s.cpu c).held t with parked := s.parked.eraseIdx i }
  | _, _ => none

def step (P : Program L F) (s : State L F n) : Fin n × Act F → Option (State L F n)
  | (c, .go) => s.go P c
  | (c, .left) => s.branch c true
  | (c, .right) => s.branch c false
  | (c, .choose i) => s.choose c i
  | (c, .resume i) => s.resume c i
  | (c, .enter f) =>
    if (s.cpu c).work.isEmpty ∧ P.entry f then some (s.set c (s.cpu c).held [.call f]) else none
  | (c, .interrupt f) =>
    if (s.cpu c).held = [] ∧ P.handler f then
      some (s.set c (s.cpu c).held (.call f :: (s.cpu c).work))
    else none

/-- CPU `c` is at an `acquire` of `l`. -/
def Spins (s : State L F n) (c : Fin n) (l : L) : Prop :=
  ∃ w, (s.cpu c).work = .acquire l :: w

/-- CPU `c` wants a lock that CPU `d` holds. -/
def WaitsFor (s : State L F n) (c d : Fin n) : Prop :=
  ∃ l, Spins s c l ∧ l ∈ (s.cpu d).held

def CyclicWait (s : State L F n) : Prop :=
  ∃ c, Relation.TransGen (WaitsFor s) c c

/-- What the functions promise each other: a function that is called in a way that
is `allowed` finds its locks held as `pre` says and leaves them as `post` says.
`guard` is the one lock held when threads are switched. -/
structure Contract (L F : Type) where
  rank : L → Nat
  guard : L
  allowed : F → List L → Prop
  pre : F → List L → Prop
  post : F → List L → List L

/-- Every held lock is below `l`. -/
def Below (rank : L → Nat) (l : L) (held : List L) : Prop := ∀ h ∈ held, rank h < rank l

variable (K : Contract L F)

/-- The held locks from which the code takes locks in order and ends as `Q` says. -/
def wp : Code L F → (List L → Prop) → List L → Prop
  | .skip, Q, held => Q held
  | .acquire l, Q, held => Below K.rank l held ∧ Q (l :: held)
  | .release l, Q, held => l ∈ held ∧ Q (held.erase l)
  | .swtch, Q, held => held = [K.guard] ∧ Q [K.guard]
  | .quit, _, held => held = [K.guard]
  | .spawn f, Q, held => K.pre f [K.guard] ∧ K.post f [K.guard] = [] ∧ Q held
  | .call f, Q, held => K.allowed f held → K.pre f held ∧ Q (K.post f held)
  | .seq a b, Q, held => wp a (wp b Q) held
  | .alt a b, Q, held => wp a Q held ∧ wp b Q held
  | .loop a, Q, held => wp a (fun h => h = held) held ∧ Q held
  | .pick k, Q, held => ∀ i, wp (k i) Q held

section Rules

variable {K} {Q : List L → Prop} {held : List L} {l : L} {a b : Code L F}
  {p : List (Code L F)}

@[simp] theorem wp_skip : wp K .skip Q held ↔ Q held := Iff.rfl
@[simp] theorem wp_acquire :
    wp K (.acquire l) Q held ↔ Below K.rank l held ∧ Q (l :: held) := Iff.rfl
@[simp] theorem wp_release : wp K (.release l) Q held ↔ l ∈ held ∧ Q (held.erase l) := Iff.rfl
@[simp] theorem wp_swtch : wp K .swtch Q held ↔ held = [K.guard] ∧ Q [K.guard] := Iff.rfl
@[simp] theorem wp_quit : wp K .quit Q held ↔ held = [K.guard] := Iff.rfl
@[simp] theorem wp_spawn {f : F} : wp K (.spawn f) Q held ↔
    K.pre f [K.guard] ∧ K.post f [K.guard] = [] ∧ Q held := Iff.rfl
@[simp] theorem wp_call {f : F} : wp K (.call f) Q held ↔
    (K.allowed f held → K.pre f held ∧ Q (K.post f held)) := Iff.rfl
@[simp] theorem wp_alt : wp K (.alt a b) Q held ↔ wp K a Q held ∧ wp K b Q held := Iff.rfl
@[simp] theorem wp_loop : wp K (.loop a) Q held ↔
    wp K a (fun h => h = held) held ∧ Q held := Iff.rfl
@[simp] theorem wp_pick {k : Nat → Code L F} :
    wp K (.pick k) Q held ↔ ∀ i, wp K (k i) Q held := Iff.rfl
@[simp] theorem wp_block_nil : wp K (.block []) Q held ↔ Q held := Iff.rfl
@[simp] theorem wp_block_cons :
    wp K (.block (a :: p)) Q held ↔ wp K a (wp K (.block p) Q) held := Iff.rfl
@[simp] theorem wp_opt : wp K (.opt a) Q held ↔ wp K a Q held ∧ Q held := Iff.rfl
@[simp] theorem wp_alts_nil : wp K (.alts []) Q held ↔ Q held := Iff.rfl
@[simp] theorem wp_alts_cons :
    wp K (.alts (a :: p)) Q held ↔ wp K a Q held ∧ wp K (.alts p) Q held := Iff.rfl

/-- A critical section leaves the held locks as they were. -/
@[simp] theorem wp_crit : wp K (.crit l) Q held ↔ Below K.rank l held ∧ Q held := by
  simp [Code.crit]

end Rules

omit [DecidableEq L] in
@[simp] theorem below_nil (rank : L → Nat) (l : L) : Below rank l [] := by simp [Below]

omit [DecidableEq L] in
@[simp] theorem below_cons (rank : L → Nat) (l h : L) (held : List L) :
    Below rank l (h :: held) ↔ rank h < rank l ∧ Below rank l held := by
  simp [Below]

theorem wp_mono {a : Code L F} {Q R : List L → Prop} {held : List L} (h : wp K a Q held)
    (hQR : ∀ h, Q h → R h) : wp K a R held := by
  induction a generalizing Q R held with
  | skip => exact hQR _ h
  | acquire | release | swtch | loop => exact ⟨h.1, hQR _ h.2⟩
  | quit => exact h
  | spawn f => exact ⟨h.1, h.2.1, hQR _ h.2.2⟩
  | call f => exact fun hf => ⟨(h hf).1, hQR _ (h hf).2⟩
  | seq a b iha ihb => exact iha h fun _ hb => ihb hb hQR
  | alt a b iha ihb => exact ⟨iha h.1 hQR, ihb h.2 hQR⟩
  | pick k ih => exact fun i => ih i (h i) hQR

/-- The pieces of a thread run in order and end in user code, where no lock is held. -/
def Safe : List (Code L F) → List L → Prop
  | [], held => held = []
  | a :: w, held => wp K a (Safe w) held

/-- The functions keep their contracts, and those entered from outside ask for nothing. -/
structure Program.Keeps (P : Program L F) : Prop where
  body : ∀ f held, K.pre f held → wp K (P.body f) (fun h => h = K.post f held) held
  entry : ∀ f, P.entry f → K.pre f [] ∧ K.post f [] = []
  handler : ∀ f, P.handler f → K.pre f [] ∧ K.post f [] = []

/-- The calls a step makes are allowed ones. -/
def Allowed (s : State L F n) (a : Fin n × Act F) : Prop :=
  ∀ f w, (s.cpu a.1).work = .call f :: w → K.allowed f (s.cpu a.1).held

/-- Every thread, running or waiting, will take its locks in order. -/
structure Ordered (s : State L F n) : Prop where
  cpu : ∀ c, Safe K (s.cpu c).work (s.cpu c).held
  parked : ∀ w ∈ s.parked, Safe K w [K.guard]

variable {K} {P : Program L F} {s s' : State L F n}

theorem Safe.call {f : F} {w : List (Code L F)} {held : List L} (hpre : K.pre f held)
    (hw : Safe K w (K.post f held)) : Safe K (.call f :: w) held := fun _ => ⟨hpre, hw⟩

/-- A step of one CPU that leaves the waiting threads alone. -/
theorem Ordered.set (h : Ordered K s) (c : Fin n) {held : List L} {w : List (Code L F)}
    (hw : Safe K w held) : Ordered K (s.set c held w) where
  cpu := by
    intro d
    by_cases hd : d = c
    · subst hd
      simpa [State.set] using hw
    · simpa [State.set, hd] using h.cpu d
  parked := h.parked

theorem Ordered.go (hP : P.Keeps K) (h : Ordered K s) {c : Fin n} (hok : Allowed K s (c, .go))
    (hs : s.go P c = some s') : Ordered K s' := by
  have hc := h.cpu c
  unfold State.go at hs
  cases hw : (s.cpu c).work with
  | nil => simp [hw] at hs
  | cons a w =>
    rw [hw] at hc
    cases a with
    | skip | seq =>
      simp only [hw, Option.some.injEq] at hs
      exact hs ▸ h.set c hc
    | acquire l =>
      simp only [hw, Option.ite_none_right_eq_some, Option.some.injEq] at hs
      exact hs.2 ▸ h.set c hc.2
    | release l =>
      simp only [hw, Option.some.injEq] at hs
      exact hs ▸ h.set c hc.2
    | spawn f =>
      simp only [hw, Option.some.injEq] at hs
      subst hs
      have hset := h.set c hc.2.2
      constructor
      · exact hset.cpu
      · intro t ht
        cases ht with
        | head => exact Safe.call hc.1 hc.2.1
        | tail _ ht => exact h.parked t ht
    | call f =>
      simp only [hw, Option.some.injEq] at hs
      have hf := hc (hok f w hw)
      -- the caller's rest was judged after the contract's postcondition
      have hbody : Safe K (P.body f :: w) (s.cpu c).held := by
        apply wp_mono K (hP.body f _ hf.1)
        intro held' heq
        exact heq ▸ hf.2
      exact hs ▸ h.set c hbody
    | swtch | quit | alt | loop | pick => simp [hw] at hs

theorem Ordered.branch (h : Ordered K s) {c : Fin n} {first : Bool}
    (hs : s.branch c first = some s') : Ordered K s' := by
  have hc := h.cpu c
  unfold State.branch at hs
  split at hs
  case h_1 a b w hw =>
    rw [hw] at hc
    cases hs
    apply h.set
    cases first with
    | true => exact hc.1
    | false => exact hc.2
  case h_2 a w hw =>
    rw [hw] at hc
    cases hs
    apply h.set
    cases first with
    | true =>
      -- one pass ends with the locks it began with, so the loop can be judged again
      apply wp_mono K hc.1
      intro held' heq
      exact heq ▸ hc
    | false => exact hc.2
  case h_3 => cases hs

theorem Ordered.choose (h : Ordered K s) {c : Fin n} {i : Nat} (hs : s.choose c i = some s') :
    Ordered K s' := by
  have hc := h.cpu c
  unfold State.choose at hs
  split at hs
  case h_1 k w hw =>
    rw [hw] at hc
    cases hs
    exact h.set c (hc i)
  case h_2 => cases hs

theorem Ordered.resume (h : Ordered K s) {c : Fin n} {i : Nat} (hs : s.resume c i = some s') :
    Ordered K s' := by
  have hc := h.cpu c
  unfold State.resume at hs
  split at hs
  case h_1 w t hw ht =>
    rw [hw] at hc
    cases hs
    have hset := h.set c (hc.1 ▸ h.parked t (List.mem_of_getElem? ht))
    constructor
    · exact hset.cpu
    · intro u hu
      rcases List.mem_or_eq_of_mem_set hu with hu | rfl
      · exact h.parked u hu
      · exact hc.2
  case h_2 w t hw ht =>
    rw [hw] at hc
    cases hs
    have hset := h.set c ((show (s.cpu c).held = [K.guard] from hc) ▸
      h.parked t (List.mem_of_getElem? ht))
    constructor
    · exact hset.cpu
    · intro u hu
      exact h.parked u (List.mem_of_mem_eraseIdx hu)
  case h_3 => cases hs

/-- A step whose calls are allowed keeps the order. -/
theorem Ordered.step (hP : P.Keeps K) (h : Ordered K s) {a : Fin n × Act F} (hok : Allowed K s a)
    (hs : step P s a = some s') : Ordered K s' := by
  obtain ⟨c, a⟩ := a
  have hc := h.cpu c
  cases a with
  | go => exact h.go hP hok hs
  | left => exact h.branch hs
  | right => exact h.branch hs
  | choose i => exact h.choose hs
  | resume i => exact h.resume hs
  | enter f =>
    obtain ⟨⟨hw, hf⟩, hs⟩ := Option.ite_none_right_eq_some.mp hs
    rw [List.isEmpty_iff.mp hw] at hc
    cases hs
    apply h.set
    rw [show (s.cpu c).held = [] from hc]
    exact Safe.call (hP.entry f hf).1 (hP.entry f hf).2
  | interrupt f =>
    obtain ⟨⟨hheld, hf⟩, hs⟩ := Option.ite_none_right_eq_some.mp hs
    cases hs
    apply h.set
    rw [hheld] at hc ⊢
    apply Safe.call (hP.handler f hf).1
    rwa [(hP.handler f hf).2]

/-- A lock that is waited for ranks above everything its waiter holds. -/
theorem Ordered.below (h : Ordered K s) {c : Fin n} {l : L} (hl : Spins s c l) :
    Below K.rank l (s.cpu c).held := by
  obtain ⟨w, hw⟩ := hl
  have hc := h.cpu c
  rw [hw] at hc
  exact hc.1

/-- Ranks rise along every chain of CPUs waiting for each other. -/
theorem Ordered.rises (h : Ordered K s) {c d : Fin n} (hcd : Relation.TransGen (WaitsFor s) c d) :
    ∃ l l', Spins s c l ∧ l' ∈ (s.cpu d).held ∧ K.rank l ≤ K.rank l' := by
  induction hcd with
  | single hw =>
    obtain ⟨l, hl, hd⟩ := hw
    exact ⟨l, l, hl, hd, Nat.le_refl _⟩
  | tail _ hw ih =>
    obtain ⟨l, l', hl, hd, hle⟩ := ih
    obtain ⟨m, hm, he⟩ := hw
    have hlt := h.below hm l' hd
    exact ⟨l, m, hl, he, by omega⟩

theorem Ordered.not_cyclicWait (h : Ordered K s) : ¬ CyclicWait s := by
  rintro ⟨c, hc⟩
  obtain ⟨l, l', hl, hl', hle⟩ := h.rises hc
  have hlt := h.below hl l' hl'
  omega

/-- CPUs at the call of a function, with threads waiting to be resumed. -/
theorem ordered_start {f : F} {parked : List (List (Code L F))} (hpre : K.pre f [])
    (hpost : K.post f [] = []) (hparked : ∀ w ∈ parked, Safe K w [K.guard]) :
    Ordered K (n := n) ⟨fun _ => ⟨[], [.call f]⟩, parked⟩ where
  cpu := fun _ => Safe.call hpre hpost
  parked := hparked

end Xv6.LockOrder
