import Mathlib.Algebra.Order.Ring.Int
import Mathlib.Data.List.Count

/-!
# Process families

What creating and collecting processes is for, without CPUs or locks. Every
process but the root has a parent that is alive. A process that dies is handed
to exactly one caller: its parent, or the root once its parent has died too. The
log records births, deaths and hand-overs by process number, newest first.
-/
namespace Xv6.Family

open Function (update update_self update_of_ne)

inductive Phase where
  | free | forming | alive | dead
  deriving DecidableEq, Repr

/-- Who forked whom, who exited, and which child was returned to which caller. -/
inductive Event where
  | fork : (parent child : Int) → Event
  | exit : (pid : Int) → Event
  | wait : (caller child : Int) → Event
  deriving DecidableEq, Repr

/-- `waiting` members are asleep until a child dies. -/
structure Member (ι : Type) where
  phase : Phase
  pid : Int
  parent : Option ι
  waiting : Bool
  deriving DecidableEq

structure State (ι : Type) where
  member : ι → Member ι
  nextpid : Int
  log : List Event

/-- Whether an event hands over the process with this number. -/
def isReturn (pid : Int) : Event → Bool
  | .wait _ child => child == pid
  | _ => false

def exits (l : List Event) (pid : Int) : Nat := l.count (.exit pid)

def returns (l : List Event) (pid : Int) : Nat := l.countP (isReturn pid)

section Counts

variable (l : List Event) (pid a b : Int)

@[simp] theorem exits_fork : exits (.fork a b :: l) pid = exits l pid := by simp [exits]
@[simp] theorem exits_wait : exits (.wait a b :: l) pid = exits l pid := by simp [exits]
@[simp] theorem exits_exit : exits (.exit a :: l) pid = exits l pid + if a = pid then 1 else 0 := by
  simp [exits, List.count_cons]

@[simp] theorem returns_fork : returns (.fork a b :: l) pid = returns l pid := by
  simp [returns, isReturn]
@[simp] theorem returns_exit : returns (.exit a :: l) pid = returns l pid := by
  simp [returns, isReturn]
@[simp] theorem returns_wait :
    returns (.wait a b :: l) pid = returns l pid + if b = pid then 1 else 0 := by
  simp [returns, isReturn, List.countP_cons]

theorem mem_of_exits (h : exits l pid ≠ 0) : .exit pid ∈ l :=
  List.count_pos_iff.mp (Nat.pos_of_ne_zero h)

end Counts

/-- Every hand-over in the log is of a process that had exited, to the process
that forked it or, if that one had exited too, to the process numbered 1. -/
def Justified : List Event → Prop
  | [] => True
  | .wait caller child :: l =>
    .exit child ∈ l ∧
      (∃ parent, .fork parent child ∈ l ∧ (caller = parent ∨ caller = 1 ∧ .exit parent ∈ l)) ∧
      Justified l
  | .fork _ _ :: l => Justified l
  | .exit _ :: l => Justified l

variable {ι : Type} [DecidableEq ι]

/-- Nothing has changed but that the member may have woken up. -/
structure Calm (m m' : Member ι) : Prop where
  phase : m'.phase = m.phase
  pid : m'.pid = m.pid
  parent : m'.parent = m.parent
  waiting : m'.waiting = true → m.waiting = true

/-- What `exit` by `p` does to the family. -/
structure Exited (root p : ι) (f f' : State ι) : Prop where
  self : (f'.member p).phase = .dead
  phase : ∀ q, q ≠ p → (f'.member q).phase = (f.member q).phase
  pid : ∀ q, (f'.member q).pid = (f.member q).pid
  /-- The children of `p` pass to the root. -/
  parent : ∀ q, (f'.member q).parent =
    if (f.member q).parent = some p then some root else (f.member q).parent
  waiting : ∀ q, (f'.member q).waiting = true → (f.member q).waiting = true
  woken : ∀ q, (f.member p).parent = some q → (f'.member q).waiting = false
  rootWoken : ∀ z, (f.member z).parent = some p → (f.member z).phase = .dead →
    (f'.member root).waiting = false
  nextpid : f'.nextpid = f.nextpid
  log : f'.log = .exit (f.member p).pid :: f.log

/-- The steps of a family. -/
inductive Step (root : ι) (f : State ι) : State ι → Prop where
  | quiet {m : ι → Member ι} (h : ∀ q, Calm (f.member q) (m q)) :
      Step root f { f with member := m }
  | alloc {np : ι} (hfree : (f.member np).phase = .free) :
      Step root f { f with
        member := update f.member np { f.member np with phase := .forming, pid := f.nextpid }
        nextpid := f.nextpid + 1 }
  | drop {np : ι} (hnp : (f.member np).phase = .forming) :
      Step root f { f with member := update f.member np { f.member np with phase := .free } }
  | adopt {np p : ι} (hnp : (f.member np).phase = .forming) :
      Step root f { f with member := update f.member np { f.member np with parent := some p } }
  | birth {np p : ι} (hnp : (f.member np).phase = .forming)
      (hparent : (f.member np).parent = some p) (hp : (f.member p).phase = .alive) :
      Step root f { f with
        member := update f.member np { f.member np with phase := .alive }
        log := .fork (f.member p).pid (f.member np).pid :: f.log }
  | exit {p : ι} {f' : State ι} (hp : (f.member p).phase = .alive) (hroot : p ≠ root)
      (h : Exited root p f f') : Step root f f'
  | reap {p z : ι} (hp : (f.member p).phase = .alive) (hz : (f.member z).phase = .dead)
      (hparent : (f.member z).parent = some p) :
      Step root f { f with
        member := update f.member z { f.member z with phase := .free, pid := 0, parent := none }
        log := .wait (f.member p).pid (f.member z).pid :: f.log }
  | wait {p : ι} (h : ∀ z, (f.member z).parent = some p → (f.member z).phase ≠ .dead) :
      Step root f { f with member := update f.member p { f.member p with waiting := true } }

/-- The process numbers in use are distinct and below the next one. -/
structure Numbered (root : ι) (f : State ι) : Prop where
  root : (f.member root).pid = 1
  bound : ∀ q, (f.member q).phase ≠ .free → 1 ≤ (f.member q).pid ∧ (f.member q).pid < f.nextpid
  inj : ∀ q r, (f.member q).phase ≠ .free → (f.member r).phase ≠ .free →
    (f.member q).pid = (f.member r).pid → q = r

/-- The parent of `q` is alive, and is the one that forked it or, if that one has
exited, the root. -/
def Cared (root : ι) (f : State ι) (q : ι) : Prop :=
  ∃ r pp, (f.member q).parent = some r ∧ r ≠ q ∧ (f.member r).phase = .alive ∧
    .fork pp (f.member q).pid ∈ f.log ∧
    ((f.member r).pid = pp ∨ r = root ∧ .exit pp ∈ f.log)

structure Kinship (root : ι) (f : State ι) : Prop where
  alive : (f.member root).phase = .alive
  cared : ∀ q, q ≠ root → (f.member q).phase = .alive ∨ (f.member q).phase = .dead →
    Cared root f q
  waiting : ∀ p z, (f.member p).waiting = true → (f.member z).phase = .dead →
    (f.member z).parent ≠ some p

/-- Every death is recorded once and is followed by at most one hand-over. -/
structure Ledger (f : State ι) : Prop where
  dead : ∀ z, (f.member z).phase = .dead →
    exits f.log (f.member z).pid = 1 ∧ returns f.log (f.member z).pid = 0
  settled : ∀ i, (∀ z, (f.member z).phase = .dead → (f.member z).pid ≠ i) →
    returns f.log i = exits f.log i ∧ exits f.log i ≤ 1
  unexited : ∀ q, (f.member q).phase = .forming ∨ (f.member q).phase = .alive →
    exits f.log (f.member q).pid = 0
  future : ∀ i, f.nextpid ≤ i → exits f.log i = 0

structure Inv (root : ι) (f : State ι) : Prop where
  numbered : Numbered root f
  kinship : Kinship root f
  ledger : Ledger f
  justified : Justified f.log

section Steps

variable {root : ι} {f f' : State ι}

omit [DecidableEq ι] in
/-- The phase of a member tells it from every member in another phase. -/
theorem ne_of_phase {f : State ι} {q r : ι} {x y : Phase} (hq : (f.member q).phase = x)
    (hr : (f.member r).phase = y) (h : x ≠ y) : q ≠ r := by
  intro he
  apply h
  rw [← hq, ← hr, he]

omit [DecidableEq ι] in
/-- Growing the log and changing members that are neither the child nor its
parent keep a child cared for. -/
theorem Cared.keep {q : ι} (h : Cared root f q) (hlog : ∀ e ∈ f.log, e ∈ f'.log)
    (hparent : (f'.member q).parent = (f.member q).parent)
    (hpid : (f'.member q).pid = (f.member q).pid)
    (halive : ∀ r, (f.member r).phase = .alive →
      (f'.member r).phase = .alive ∧ (f'.member r).pid = (f.member r).pid) : Cared root f' q := by
  obtain ⟨r, pp, h₁, h₂, h₃, h₄, h₅⟩ := h
  refine ⟨r, pp, hparent.trans h₁, h₂, (halive r h₃).1, ?_, ?_⟩
  · rw [hpid]
    exact hlog _ h₄
  · rw [(halive r h₃).2]
    exact h₅.imp_right fun h => ⟨h.1, hlog _ h.2⟩

/-- A step that changes one member, which is not alive before it. -/
theorem Cared.update {q np : ι} {m : Member ι} {l : List Event} {i : Int}
    (h : Cared root f q) (hlog : ∀ e ∈ f.log, e ∈ l) (hq : q ≠ np)
    (hnp : (f.member np).phase ≠ .alive) :
    Cared root { member := update f.member np m, nextpid := i, log := l } q := by
  apply h.keep hlog
  · simp [hq]
  · simp [hq]
  · intro r hr
    have hne : r ≠ np := fun he => hnp (he ▸ hr)
    simp [hne, hr]

/-- Falling asleep changes nothing else. -/
theorem update_waiting {p : ι} (q : ι) :
    ∃ w, update f.member p { f.member p with waiting := true } q =
      { f.member q with waiting := w } := by
  by_cases hq : q = p
  · subst hq
    exact ⟨true, by simp⟩
  · exact ⟨(f.member q).waiting, by simp [hq]⟩

omit [DecidableEq ι] in
/-- Members that are in use after a step and were before, with the same numbers. -/
theorem Numbered.keep (hn : Numbered root f) (hroot : (f'.member root).pid = 1)
    (hpid : ∀ q, (f'.member q).phase ≠ .free →
      (f.member q).phase ≠ .free ∧ (f'.member q).pid = (f.member q).pid)
    (hnext : f'.nextpid = f.nextpid) : Numbered root f' := by
  constructor
  · exact hroot
  · intro q hq
    obtain ⟨h₁, h₂⟩ := hpid q hq
    rw [h₂, hnext]
    exact hn.bound q h₁
  · intro q r hq hr he
    obtain ⟨h₁, h₂⟩ := hpid q hq
    obtain ⟨h₃, h₄⟩ := hpid r hr
    rw [h₂, h₄] at he
    exact hn.inj q r h₁ h₃ he

theorem Numbered.step (hn : Numbered root f) (hk : Kinship root f) (h : Step root f f') :
    Numbered root f' := by
  have hupdate : ∀ {np : ι} {m : Member ι} {l : List Event}, np ≠ root →
      (f.member np).phase ≠ .free → (m.phase ≠ .free → m.pid = (f.member np).pid) →
      Numbered root { member := update f.member np m, nextpid := f.nextpid, log := l } := by
    intro np m l hroot hnp hm
    refine hn.keep ?_ ?_ rfl
    · simpa [hroot.symm] using hn.root
    · intro q hq
      by_cases he : q = np
      · subst he
        simp only [update_self] at hq ⊢
        exact ⟨hnp, hm hq⟩
      · simp only [update_of_ne he] at hq ⊢
        exact ⟨hq, trivial⟩
  have hroot : ∀ {np : ι} {x : Phase}, (f.member np).phase = x → x ≠ .alive → np ≠ root :=
    fun hnp hx => ne_of_phase hnp hk.alive hx
  cases h with
  | @quiet m h =>
    refine hn.keep ((h root).pid.trans hn.root) ?_ rfl
    intro q hq
    exact ⟨by simpa only [(h q).phase] using hq, (h q).pid⟩
  | @alloc np hfree =>
    have hne : root ≠ np := (hroot hfree (by simp)).symm
    have hb := hn.bound
    constructor
    · simpa [hne] using hn.root
    · intro q hq
      have h1 := hb root (by simp [hk.alive])
      by_cases he : q = np
      · subst he
        simp only [update_self]
        omega
      · simp only [update_of_ne he] at hq ⊢
        have := hb q hq
        omega
    · intro q r hq hr he
      by_cases h₁ : q = np <;> by_cases h₂ : r = np
      · rw [h₁, h₂]
      · subst h₁
        simp only [update_self, update_of_ne h₂] at hr he
        have := hb r hr
        omega
      · subst h₂
        simp only [update_self, update_of_ne h₁] at hq he
        have := hb q hq
        omega
      · simp only [update_of_ne h₁, update_of_ne h₂] at hq hr he
        exact hn.inj q r hq hr he
  | drop hnp => exact hupdate (hroot hnp (by simp)) (by simp [hnp]) (by simp)
  | adopt hnp | birth hnp => exact hupdate (hroot hnp (by simp)) (by simp [hnp]) fun _ => rfl
  | @exit p f' hp hne h =>
    refine hn.keep ((h.pid root).trans hn.root) ?_ h.nextpid
    intro q hq
    refine ⟨?_, h.pid q⟩
    by_cases he : q = p
    · rw [he, hp]
      simp
    · rwa [← h.phase q he]
  | reap hp hz hparent => exact hupdate (hroot hz (by simp)) (by simp [hz]) (by simp)
  | @wait p h =>
    refine hn.keep ?_ ?_ rfl
    · obtain ⟨w, he⟩ := update_waiting (f := f) (p := p) root
      simpa only [he] using hn.root
    · intro q hq
      obtain ⟨w, he⟩ := update_waiting (f := f) (p := p) q
      simp only [he] at hq ⊢
      exact ⟨hq, trivial⟩

/-- The step of `exit`: the orphans are cared for by the root. -/
theorem Kinship.exit (hk : Kinship root f) {p : ι} (hp : (f.member p).phase = .alive)
    (hroot : p ≠ root) (h : Exited root p f f') : Kinship root f' := by
  have halive : ∀ r, r ≠ p → (f.member r).phase = .alive →
      (f'.member r).phase = .alive ∧ (f'.member r).pid = (f.member r).pid :=
    fun r hr ha => ⟨(h.phase r hr).trans ha, h.pid r⟩
  have hlog : ∀ e ∈ f.log, e ∈ f'.log := by
    intro e he
    rw [h.log]
    exact List.mem_cons_of_mem _ he
  have hborn : ∀ q, (f'.member q).phase = .alive ∨ (f'.member q).phase = .dead →
      (f.member q).phase = .alive ∨ (f.member q).phase = .dead := by
    intro q hq
    by_cases he : q = p
    · exact .inl (he ▸ hp)
    · rwa [h.phase q he] at hq
  constructor
  case alive => exact (halive root hroot.symm hk.alive).1
  case cared =>
    intro q hq hb
    obtain ⟨r, pp, h₁, h₂, h₃, h₄, h₅⟩ := hk.cared q hq (hborn q hb)
    have hparent := h.parent q
    have hfork : Event.fork pp (f'.member q).pid ∈ f'.log := by
      rw [h.pid]
      exact hlog _ h₄
    by_cases hr : r = p
    · -- An orphan: its parent exits now, or was the root already.
      subst hr
      rw [if_pos h₁] at hparent
      have ⟨ha, _⟩ := halive root hroot.symm hk.alive
      refine ⟨root, pp, hparent, hq.symm, ha, hfork, .inr ⟨rfl, ?_⟩⟩
      rcases h₅ with h₅ | ⟨h₅, -⟩
      · rw [h.log, ← h₅]
        exact List.mem_cons_self
      · exact absurd h₅ hroot
    · rw [if_neg (by simpa [h₁] using hr), h₁] at hparent
      obtain ⟨ha, hpid⟩ := halive r hr h₃
      refine ⟨r, pp, hparent, h₂, ha, hfork, ?_⟩
      rw [hpid]
      exact h₅.imp_right fun h => ⟨h.1, hlog _ h.2⟩
  case waiting =>
    intro q z hw hz hc
    rw [h.parent] at hc
    by_cases hzp : z = p
    · -- The process that exits: its parent has been woken.
      subst hzp
      obtain ⟨r, pp, h₁, h₂, -⟩ := hk.cared z hroot (.inl hp)
      rw [if_neg (by simpa [h₁] using h₂), h₁] at hc
      obtain rfl := Option.some.inj hc
      rw [h.woken r h₁] at hw
      cases hw
    · rw [h.phase z hzp] at hz
      split at hc
      next hpar =>
        obtain rfl := Option.some.inj hc
        rw [h.rootWoken z hpar hz] at hw
        cases hw
      next => exact hk.waiting q z (h.waiting q hw) hz hc

theorem Kinship.step (hk : Kinship root f) (h : Step root f f') : Kinship root f' := by
  -- A step that changes one member, which is neither alive nor dead before or after it.
  have hunborn : ∀ {np : ι} {m : Member ι} {l : List Event} {i : Int},
      (f.member np).phase ≠ .alive → (m.phase ≠ .alive ∧ m.phase ≠ .dead ∨
        m.phase = .alive ∧
          Cared root { member := update f.member np m, nextpid := i, log := l } np) →
      (m.waiting = true → (f.member np).waiting = true) → (∀ e ∈ f.log, e ∈ l) →
      Kinship root { member := update f.member np m, nextpid := i, log := l } := by
    intro np m l i hnp hm hw hl
    have hroot : root ≠ np := fun he => hnp (he ▸ hk.alive)
    constructor
    case alive => simpa [hroot] using hk.alive
    case cared =>
      intro q hq hb
      by_cases he : q = np
      · subst he
        simp only [update_self] at hb
        rcases hm with hm | hm
        · exact absurd hb (by simp [hm])
        · exact hm.2
      · simp only [update_of_ne he] at hb
        exact (hk.cared q hq hb).update hl he hnp
    case waiting =>
      intro p z hp hz
      have hzn : z ≠ np := by
        intro he
        simp only [he, update_self] at hz
        rcases hm with hm | hm
        · exact hm.2 hz
        · rw [hm.1] at hz
          cases hz
      simp only [update_of_ne hzn] at hz ⊢
      refine hk.waiting p z ?_ hz
      by_cases he : p = np
      · subst he
        simp only [update_self] at hp
        exact hw hp
      · simpa only [update_of_ne he] using hp
  cases h with
  | @quiet m h =>
    constructor
    case alive => exact (h root).phase.trans hk.alive
    case cared =>
      intro q hq hb
      simp only [(h q).phase] at hb
      refine (hk.cared q hq hb).keep (fun _ he => he) (h q).parent (h q).pid fun r hr => ?_
      exact ⟨(h r).phase.trans hr, (h r).pid⟩
    case waiting =>
      intro p z hp hz
      simp only [(h z).phase] at hz
      simp only [(h z).parent]
      exact hk.waiting p z ((h p).waiting hp) hz
  | alloc hfree => exact hunborn (by simp [hfree]) (.inl (by simp)) id fun _ he => he
  | drop hnp => exact hunborn (by simp [hnp]) (.inl (by simp)) id fun _ he => he
  | adopt hnp => exact hunborn (by simp [hnp]) (.inl (by simp [hnp])) id fun _ he => he
  | @birth np p hnp hparent hp =>
    have hne : p ≠ np := ne_of_phase hp hnp (by simp)
    refine hunborn (by simp [hnp]) (.inr ⟨rfl, p, (f.member p).pid, ?_⟩) id
      fun _ he => List.mem_cons_of_mem _ he
    simp [hparent, hne, hp]
  | exit hp hroot h => exact hk.exit hp hroot h
  | reap hp hz hparent =>
    exact hunborn (by simp [hz]) (.inl (by simp)) id fun _ he => List.mem_cons_of_mem _ he
  | @wait p h =>
    have hsame := update_waiting (f := f) (p := p)
    constructor
    case alive =>
      obtain ⟨w, he⟩ := hsame root
      simpa only [he] using hk.alive
    case cared =>
      intro q hq hb
      obtain ⟨w, he⟩ := hsame q
      simp only [he] at hb
      refine (hk.cared q hq hb).keep (fun _ h => h) (by simp only [he]) (by simp only [he]) ?_
      intro r hr
      obtain ⟨w', he'⟩ := hsame r
      simpa only [he'] using ⟨hr, trivial⟩
    case waiting =>
      intro q z hw hz
      obtain ⟨w, he⟩ := hsame z
      simp only [he] at hz ⊢
      by_cases hq : q = p
      · subst hq
        intro hc
        exact h z hc hz
      · exact hk.waiting q z (by simpa only [update_of_ne hq] using hw) hz

theorem Ledger.exit (hl : Ledger f) (hn : Numbered root f) {p : ι}
    (hp : (f.member p).phase = .alive) (h : Exited root p f f') : Ledger f' := by
  have hfree : (f.member p).phase ≠ .free := by simp [hp]
  -- Nobody else in use has the number of `p`, and nobody has returned it.
  have hother : ∀ q, q ≠ p → (f.member q).phase ≠ .free → (f.member p).pid ≠ (f.member q).pid :=
    fun q hq hf he => hq (hn.inj p q hfree hf he).symm
  have hzero := hl.unexited p (.inr hp)
  have hret : returns f.log (f.member p).pid = 0 := by
    rw [← hzero]
    refine (hl.settled _ fun z hz he => ?_).1
    exact hother z (ne_of_phase hz hp (by simp)) (by simp [hz]) he.symm
  constructor
  case dead =>
    intro z hz
    rw [h.log, h.pid]
    by_cases he : z = p
    · subst he
      simp [hzero, hret]
    · rw [h.phase z he] at hz
      have hne := hother z he (by simp [hz])
      simpa [hne] using hl.dead z hz
  case settled =>
    intro i hi
    have hne : (f.member p).pid ≠ i := by
      rw [← h.pid p]
      exact hi p h.self
    have hold := hl.settled i fun z hz => by
      rw [← h.pid z]
      refine hi z ?_
      rw [h.phase z (ne_of_phase hz hp (by simp)), hz]
    rw [h.log]
    simpa [hne] using hold
  case unexited =>
    intro q hq
    have he : q ≠ p := by
      rintro rfl
      rw [h.self] at hq
      rcases hq with hq | hq <;> cases hq
    rw [h.phase q he] at hq
    have hne := hother q he (by rcases hq with hq | hq <;> simp [hq])
    rw [h.log, h.pid]
    simpa [hne] using hl.unexited q hq
  case future =>
    intro i hi
    have hlt := (hn.bound p hfree).2
    rw [h.nextpid] at hi
    have hne : (f.member p).pid ≠ i := by omega
    rw [h.log]
    simpa [hne] using hl.future i hi

theorem Ledger.reap (hl : Ledger f) (hn : Numbered root f) {z : ι} {caller : Int}
    (hz : (f.member z).phase = .dead) :
    Ledger { f with
      member := update f.member z { f.member z with phase := .free, pid := 0, parent := none }
      log := .wait caller (f.member z).pid :: f.log } := by
  have hother : ∀ q, q ≠ z → (f.member q).phase ≠ .free → (f.member z).pid ≠ (f.member q).pid :=
    fun q hq hf he => hq (hn.inj z q (by simp [hz]) hf he).symm
  obtain ⟨hone, hnone⟩ := hl.dead z hz
  constructor
  case dead =>
    intro q hq
    have he : q ≠ z := by
      rintro rfl
      simp at hq
    simp only [update_of_ne he] at hq ⊢
    have hne := hother q he (by simp [hq])
    simpa [hne] using hl.dead q hq
  case settled =>
    intro i hi
    by_cases he : (f.member z).pid = i
    · subst he
      simp [hone, hnone]
    · have hold := hl.settled i fun q hq => by
        by_cases hqz : q = z
        · rwa [hqz]
        · have := hi q
          simp only [update_of_ne hqz] at this
          exact this hq
      simpa [he] using hold
  case unexited =>
    intro q hq
    have he : q ≠ z := by
      rintro rfl
      simp at hq
    simp only [update_of_ne he] at hq ⊢
    simpa using hl.unexited q hq
  case future => exact fun i hi => by simpa using hl.future i hi

theorem Ledger.step (hl : Ledger f) (hn : Numbered root f) (h : Step root f f') : Ledger f' := by
  -- A step that changes one member, which does not become dead and was not.
  have hupdate : ∀ {np : ι} {m : Member ι} {i : Int} {l : List Event},
      (f.member np).phase ≠ .dead → m.phase ≠ .dead → f.nextpid ≤ i →
      (∀ j, exits l j = exits f.log j) → (∀ j, returns l j = returns f.log j) →
      (m.phase = .forming ∨ m.phase = .alive → exits f.log m.pid = 0) →
      Ledger { member := update f.member np m, nextpid := i, log := l } := by
    intro np m i l hnp hm hi he hr hu
    have hdead : ∀ z, (update f.member np m z).phase = .dead →
        update f.member np m z = f.member z := by
      intro z hz
      by_cases hzn : z = np
      · subst hzn
        simp only [update_self] at hz
        exact absurd hz hm
      · exact update_of_ne hzn _ _
    constructor
    case dead =>
      intro z hz
      simp only [hdead z hz] at hz ⊢
      rw [he, hr]
      exact hl.dead z hz
    case settled =>
      intro j hj
      rw [he, hr]
      refine hl.settled j fun z hz => ?_
      have hzn : z ≠ np := fun h => hnp (h ▸ hz)
      have := hj z
      simp only [update_of_ne hzn] at this
      exact this hz
    case unexited =>
      intro q hq
      rw [he]
      by_cases hqn : q = np
      · subst hqn
        simp only [update_self] at hq ⊢
        exact hu hq
      · simp only [update_of_ne hqn] at hq ⊢
        exact hl.unexited q hq
    case future =>
      intro j hj
      rw [he]
      exact hl.future j (le_trans hi hj)
  cases h with
  | @quiet m h =>
    constructor
    case dead =>
      intro z hz
      simp only [(h z).phase, (h z).pid] at hz ⊢
      exact hl.dead z hz
    case settled =>
      intro i hi
      simp only [(h _).phase, (h _).pid] at hi
      exact hl.settled i hi
    case unexited =>
      intro q hq
      simp only [(h q).phase, (h q).pid] at hq ⊢
      exact hl.unexited q hq
    case future => exact hl.future
  | alloc hfree =>
    refine hupdate (by simp [hfree]) (by simp) ?_ (fun _ => rfl) (fun _ => rfl) ?_
    · omega
    · exact fun _ => hl.future _ le_rfl
  | drop hnp =>
    exact hupdate (by simp [hnp]) (by simp) le_rfl (fun _ => rfl) (fun _ => rfl) (by simp)
  | adopt hnp =>
    refine hupdate (by simp [hnp]) (by simp [hnp]) le_rfl (fun _ => rfl) (fun _ => rfl) ?_
    exact fun _ => hl.unexited _ (.inl hnp)
  | birth hnp hparent hp =>
    refine hupdate (by simp [hnp]) (by simp) le_rfl (by simp) (by simp) ?_
    exact fun _ => hl.unexited _ (.inl hnp)
  | exit hp hroot h => exact hl.exit hn hp h
  | reap hp hz hparent => exact hl.reap hn hz
  | @wait p h =>
    have hsame := update_waiting (f := f) (p := p)
    constructor
    case dead =>
      intro z hz
      obtain ⟨w, he⟩ := hsame z
      simp only [he] at hz ⊢
      exact hl.dead z hz
    case settled =>
      intro i hi
      refine hl.settled i fun z hz => ?_
      obtain ⟨w, he⟩ := hsame z
      have := hi z
      simp only [he] at this
      exact this hz
    case unexited =>
      intro q hq
      obtain ⟨w, he⟩ := hsame q
      simp only [he] at hq ⊢
      exact hl.unexited q hq
    case future => exact hl.future

/-- Every step keeps the family in order. -/
theorem Inv.step (hi : Inv root f) (h : Step root f f') : Inv root f' := by
  obtain ⟨hn, hk, hl, hj⟩ := hi
  refine ⟨hn.step hk h, hk.step h, hl.step hn h, ?_⟩
  cases h with
  | quiet h => exact hj
  | alloc hfree => exact hj
  | drop hnp => exact hj
  | adopt hnp => exact hj
  | birth hnp hparent hp => exact hj
  | exit hp hroot h =>
    rw [h.log]
    exact hj
  | @reap p z hp hz hparent =>
    have hexit := mem_of_exits f.log (f.member z).pid (by simp [(hl.dead z hz).1])
    have hne : z ≠ root := ne_of_phase hz hk.alive (by simp)
    obtain ⟨r, pp, h₁, -, -, h₄, h₅⟩ := hk.cared z hne (.inr hz)
    obtain rfl := Option.some.inj (h₁.symm.trans hparent)
    refine ⟨hexit, ⟨pp, h₄, h₅.imp_right fun h => ⟨?_, h.2⟩⟩, hj⟩
    rw [h.1, hn.root]
  | wait h => exact hj

end Steps

end Xv6.Family
