import Mathlib.Data.Finset.Card
import Xv6.Runs
import Xv6.Spinlock

/-!
# Nested critical sections

Every CPU runs its scheduler or a thread, and each of them makes matched calls: its view says
what it has taken and not given back. An interrupt is made of calls of what it interrupts,
after its gate and before its `iret`, which set the flag.
-/
namespace Xv6.InterruptNesting

open Function (update update_of_ne)
open Runs Spinlock Wp
open ProcTable (ProcState)

variable {n : Nat} {T L : Type}

/-- The locks that are held, the calls of `pushcli` that are open, and the lock that is
waited for. -/
structure View (L : Type) where
  held : Finset L
  pushes : Nat
  waits : Option L
  deriving DecidableEq

def View.depth (v : View L) : Nat := v.held.card + v.pushes + v.waits.toList.length

/-- What is taken at every `swtch`: "Must hold only ptable.lock". -/
def critical (ptable : L) : View L := ⟨{ptable}, 0, none⟩

structure Sys (n : Nat) (T L : Type) where
  hw : Hw n T L
  view : Fin n → View L

inductive Call (T L : Type) where
  | setIF (b : Bool)
  | setState (p : T) (st : ProcState)
  | pushcli
  | popcli
  | acquire (l : L)
  | spin (l : L)
  | release (l : L)
  | sched
  | swtch (p : T)

section Steps

variable [DecidableEq T] [DecidableEq L] (ptable : L)

def perform (c : Fin n) : Call T L → M n T L Bool
  | .setIF b => do setIF c b; return false
  | .setState p st => do modify fun h => { h with state := update h.state p st }; return false
  | .pushcli => do pushcli c; return false
  | .popcli => do popcli c; return false
  | .acquire l => do acquire c l; return false
  | .spin l => spin c l
  | .release l => do release c l; return false
  | .sched => do sched ptable c; return false
  | .swtch p => do swtch c p; return false

def View.after (v : View L) : Call T L → Bool → View L
  | .pushcli, _ => { v with pushes := v.pushes + 1 }
  | .popcli, _ => { v with pushes := v.pushes - 1 }
  | .acquire l, _ => { v with waits := some l }
  | .spin l, true => ⟨insert l v.held, v.pushes, none⟩
  | .release l, _ => { v with held := v.held.erase l }
  | _, _ => v

/-- The calls are matched. Outside of critical sections the flag may be set and cleared. -/
def Allowed (s : Sys n T L) : Fin n × Call T L → Prop
  | (c, .setIF _) => (s.view c).depth = 0
  | (_, .setState _ _) => True
  | (c, .pushcli) => (s.view c).waits = none
  | (c, .popcli) => (s.view c).waits = none ∧ 0 < (s.view c).pushes
  | (c, .acquire _) => (s.view c).waits = none
  | (c, .spin l) => (s.view c).waits = some l
  | (c, .release l) => (s.view c).waits = none ∧ l ∈ (s.view c).held
  | (c, .sched) => s.view c = critical ptable ∧ ∃ p ∈ (s.hw.cpu c).proc, s.hw.state p ≠ .running
  | (c, .swtch p) =>
    s.view c = critical ptable ∧ (s.hw.cpu c).proc = none ∧ ∀ c', s.hw.context p ≠ .on c'

instance (s : Sys n T L) : (a : Fin n × Call T L) → Decidable (Allowed ptable s a)
  | (_, .setIF _) | (_, .pushcli) | (_, .acquire _) | (_, .spin _) =>
    inferInstanceAs (Decidable (_ = _))
  | (_, .setState _ _) => inferInstanceAs (Decidable True)
  | (_, .popcli) | (_, .release _) | (_, .sched) | (_, .swtch _) =>
    inferInstanceAs (Decidable (_ ∧ _))

def step (s : Sys n T L) (a : Fin n × Call T L) : Option (Sys n T L) :=
  match perform ptable a.1 a.2 s.hw with
  | .ok (r, h) => some ⟨h, update s.view a.1 ((s.view a.1).after a.2 r)⟩
  | .error _ => none

end Steps

/-- Interrupts are off, nothing is locked, and no thread has run. -/
def boot : Sys n T L where
  hw :=
    ⟨fun _ => ⟨false, 0, false, none⟩, fun _ => ⟨false, none⟩, fun _ => .unused, fun _ => .forkret⟩
  view := fun _ => ⟨∅, 0, none⟩

/-! ## The invariant -/

structure Inv (s : Sys n T L) : Prop where
  nested : ∀ c, (s.hw.cpu c).Nested (s.view c).depth
  held : ∀ c l, s.hw.holds c l = true ↔ l ∈ (s.view c).held
  place : ∀ c p, (s.hw.cpu c).proc = some p ↔ s.hw.context p = .on c

theorem Inv.boot : Inv (boot : Sys n T L) where
  nested c := ⟨rfl, by simp [InterruptNesting.boot, View.depth]⟩
  held c l := by simp [Hw.holds, InterruptNesting.boot]
  place c p := by simp [InterruptNesting.boot]

/-! ## Contexts -/

/-- The scheduler of a CPU, or a thread. -/
abbrev Ctx (n : Nat) (T : Type) := Fin n ⊕ T

/-- The CPU on which a context runs now. -/
def cpuOf (h : Hw n T L) : Ctx n T → Option (Fin n)
  | .inl c => if (h.cpu c).proc = none then some c else none
  | .inr p =>
    match h.context p with
    | .on c => some c
    | _ => none

/-- How many critical sections a context is in: one, where it has switched away. -/
def Sys.depth (s : Sys n T L) (z : Ctx n T) : Nat :=
  match cpuOf s.hw z with
  | some c => (s.view c).depth
  | none => 1

/-- What the last `popcli` of a context will make of the flag. -/
def saved (h : Hw n T L) (z : Ctx n T) : Option Bool :=
  match cpuOf h z, z with
  | some c, _ => some (h.cpu c).intena
  | none, .inr p => (h.context p).intena
  | none, .inl _ => none

variable {ptable l : L} {h h' : Hw n T L} {c c' : Fin n} {p : T} {d d' : Nat} {x y : Cpu T}
  {v v' : View L} {b : Bool}
  {s t : Sys n T L} {a : Fin n × Call T L} {k : Call T L} {z : Ctx n T}

theorem saved_on (hz : cpuOf h z = some c) : saved h z = some (h.cpu c).intena :=
  by simp [saved, hz]

theorem Sys.depth_on (hz : cpuOf s.hw z = some c) : s.depth z = (s.view c).depth :=
  by simp [Sys.depth, hz]

theorem cpuOf_inl (hz : cpuOf h (.inl c') = some c) : c' = c ∧ (h.cpu c).proc = none := by
  simp only [cpuOf, Option.ite_none_right_eq_some, Option.some.injEq] at hz
  exact ⟨hz.2, hz.2 ▸ hz.1⟩

theorem cpuOf_inr : cpuOf h (.inr p) = some c ↔ h.context p = .on c := by
  cases hp : h.context p <;> simp [cpuOf, hp]

/-- The thread of a CPU is what runs there. -/
theorem Inv.eq_thread (hi : Inv s) (hz : cpuOf s.hw z = some c) (hp : (s.hw.cpu c).proc = some p) :
    z = .inr p := by
  cases z with
  | inl c' =>
    rw [(cpuOf_inl hz).2] at hp
    cases hp
  | inr q =>
    rw [(hi.place c q).mpr (cpuOf_inr.mp hz)] at hp
    rw [Option.some.inj hp]

theorem Inv.eq_scheduler (hi : Inv s) (hz : cpuOf s.hw z = some c) (hp : (s.hw.cpu c).proc = none) :
    z = .inl c := by
  cases z with
  | inl c' => rw [(cpuOf_inl hz).1]
  | inr q =>
    rw [(hi.place c q).mpr (cpuOf_inr.mp hz)] at hp
    cases hp

/-- Where a context does not run, a step does not touch it, unless it is switched to. -/
theorem saved_other (hne : cpuOf s.hw z ≠ some c) (hb : saved s.hw z = some b)
    (hcpu : ∀ c', c' ≠ c → h.cpu c' = s.hw.cpu c')
    (hctx : ∀ p, z = .inr p → h.context p = s.hw.context p) :
    cpuOf h z = cpuOf s.hw z ∧ saved h z = some b := by
  have hplace : cpuOf h z = cpuOf s.hw z := by
    cases z with
    | inl c' =>
      have hc : c' ≠ c := by
        rintro rfl
        by_cases hp : (s.hw.cpu c').proc = none
        · exact hne (by simp [cpuOf, hp])
        · simp [saved, cpuOf, hp] at hb
      simp only [cpuOf, hcpu c' hc]
    | inr p => simp only [cpuOf, hctx p rfl]
  refine ⟨hplace, hb ▸ ?_⟩
  cases hz : cpuOf s.hw z with
  | some c' => rw [saved_on hz, saved_on (hplace.trans hz), hcpu c' fun hc => hne (hc ▸ hz)]
  | none =>
    cases z with
    | inl _ => simp [saved, hz, hplace]
    | inr p => simp [saved, hz, hplace, hctx p rfl]

/-! ## What a call does -/

/-- The flag is saved at the first `pushcli`, kept, and restored at the last `popcli`. -/
structure CpuMoves (x : Cpu T) (d : Nat) (y : Cpu T) (d' : Nat) : Prop where
  proc : y.proc = x.proc
  nested : y.Nested d'
  kept : 0 < d → y.intena = x.intena
  saved : d = 0 → 0 < d' → y.intena = x.flag
  restored : 0 < d → d' = 0 → y.flag = x.intena

namespace CpuMoves

theorem refl (hx : x.Nested d) : CpuMoves x d x d := ⟨rfl, hx, fun _ => rfl, by omega, by omega⟩

theorem push (hx : x.Nested d) : CpuMoves x d x.push (d + 1) where
  proc := rfl
  nested := hx.push
  kept hd := if_neg (by have := hx.ncli; omega)
  saved hd _ := if_pos (by have := hx.ncli; omega)
  restored := by omega

theorem pop (hx : x.Nested (d + 1)) : CpuMoves x (d + 1) x.pop d where
  proc := rfl
  nested := hx.pop
  kept _ := rfl
  saved := by omega
  restored _ hd := by simp [Cpu.pop, hx.ncli, hd]

end CpuMoves

structure Moves (h : Hw n T L) (c : Fin n) (v : View L) (h' : Hw n T L) (v' : View L) : Prop where
  others : ∀ c', c' ≠ c → h'.cpu c' = h.cpu c' ∧ ∀ l, h'.holds c' l = h.holds c' l
  context : h'.context = h.context
  held : ∀ l, h'.holds c l = true ↔ l ∈ v'.held
  cpu : CpuMoves (h.cpu c) v.depth (h'.cpu c) v'.depth

theorem Moves.setCpu (hl : ∀ l, h.holds c l = true ↔ l ∈ v.held) (hv : v'.held = v.held)
    (hx : CpuMoves (h.cpu c) v.depth x v'.depth) : Moves h c v (h.setCpu c x) v' where
  others c' hc := ⟨update_of_ne hc .., fun _ => rfl⟩
  context := rfl
  held := hv ▸ hl
  cpu := by rwa [Hw.setCpu_cpu]

theorem Moves.proc (hm : Moves h c v h' v') (c' : Fin n) : (h'.cpu c').proc = (h.cpu c').proc := by
  by_cases hc : c' = c
  · rw [hc, hm.cpu.proc]
  · rw [(hm.others c' hc).1]

theorem Moves.cpuOf_eq (hm : Moves h c v h' v') (z : Ctx n T) : cpuOf h' z = cpuOf h z := by
  cases z <;> simp only [cpuOf, hm.proc, hm.context]

section Locks

variable [DecidableEq L]

/-- A lock that is free is taken for the CPU. -/
theorem Moves.take (hl : ∀ l, h.holds c l = true ↔ l ∈ v.held) (hx : (h.cpu c).Nested v.depth)
    (hw : v.waits = some l) (hfree : (h.lock l).locked = false) :
    Moves h c v (h.setLock l ⟨true, some c⟩) ⟨insert l v.held, v.pushes, none⟩ := by
  have hnot : l ∉ v.held := by simp [← hl, Hw.holds, hfree]
  refine ⟨fun c' hc => ⟨rfl, fun k => ?_⟩, rfl, fun k => ?_, ?_⟩
  · by_cases hk : k = l
    · simp [hk, Hw.holds, Hw.setLock, hfree, hc.symm]
    · simp [hk, Hw.holds, Hw.setLock]
  · by_cases hk : k = l
    · simp [hk, Hw.holds, Hw.setLock]
    · simpa [hk, Hw.holds, Hw.setLock] using hl k
  · have hdepth : View.depth ⟨insert l v.held, v.pushes, none⟩ = v.depth := by
      simp [View.depth, hw, Finset.card_insert_of_notMem hnot]
      omega
    rw [hdepth]
    exact CpuMoves.refl hx

theorem Moves.give (hl : ∀ l, h.holds c l = true ↔ l ∈ v.held) (hmem : l ∈ v.held)
    (hx : CpuMoves (h.cpu c) v.depth x (View.depth { v with held := v.held.erase l })) :
    Moves h c v ((h.setLock l ⟨false, none⟩).setCpu c x) { v with held := v.held.erase l } := by
  have hmine := (hl l).mpr hmem
  simp only [Hw.holds, Bool.and_eq_true, decide_eq_true_eq] at hmine
  refine ⟨fun c' hc => ⟨update_of_ne hc .., fun k => ?_⟩, rfl, fun k => ?_, by rwa [Hw.setCpu_cpu]⟩
  · by_cases hk : k = l
    · simp [hk, Hw.holds, Hw.setLock, Hw.setCpu, hmine, hc.symm]
    · simp [hk, Hw.holds, Hw.setLock, Hw.setCpu]
  · by_cases hk : k = l
    · simp [hk, Hw.holds, Hw.setLock, Hw.setCpu]
    · simpa [hk, Hw.holds, Hw.setLock, Hw.setCpu] using hl k

end Locks

variable [DecidableEq T]

/-- A call either moves within its context, or switches between the scheduler and a thread. -/
inductive Effect (ptable : L) (h : Hw n T L) (c : Fin n) (v : View L) :
    Call T L → Hw n T L → View L → Prop
  | moves {k : Call T L} {h' : Hw n T L} {v' : View L} : Moves h c v h' v' →
    Effect ptable h c v k h' v'
  | leaves (p : T) : v = critical ptable → (h.cpu c).proc = some p →
    Effect ptable h c v .sched (h.leave c p) v
  | enters (p : T) : v = critical ptable → (h.cpu c).proc = none → (∀ c', h.context p ≠ .on c') →
      Effect ptable h c v (.swtch p) (h.enter c p) v

section

variable (he : Effect ptable h c v k h' v')
include he

/-- A call leaves the other CPUs alone. -/
theorem Effect.others (hc : c' ≠ c) : h'.cpu c' = h.cpu c' ∧ ∀ l, h'.holds c' l = h.holds c' l := by
  cases he with
  | moves hm => exact hm.others c' hc
  | leaves | enters => exact ⟨update_of_ne hc .., fun _ => rfl⟩

theorem Effect.nested (hx : (h.cpu c).Nested v.depth) : (h'.cpu c).Nested v'.depth := by
  cases he with
  | moves hm => exact hm.cpu.nested
  | leaves => exact ⟨by simp [Hw.leave, hx.ncli], fun hd => by simp [Hw.leave, hx.off hd]⟩
  | enters => exact ⟨by simp [Hw.enter, hx.ncli], fun hd => by simp [Hw.enter, hx.off hd]⟩

theorem Effect.held (hl : ∀ l, h.holds c l = true ↔ l ∈ v.held) (l : L) :
    h'.holds c l = true ↔ l ∈ v'.held := by
  cases he with
  | moves hm => exact hm.held l
  | leaves | enters => exact hl l

theorem Effect.place (hp : ∀ c p, (h.cpu c).proc = some p ↔ h.context p = .on c)
    (c' : Fin n) (q : T) : (h'.cpu c').proc = some q ↔ h'.context q = .on c' := by
  cases he with
  | moves hm =>
    rw [hm.proc, hm.context]
    exact hp c' q
  | leaves p hv hproc =>
    have hon := (hp c p).mp hproc
    by_cases hc : c' = c <;> by_cases hq : q = p
    · simp [Hw.leave, hc, hq]
    · simp [Hw.leave, hc, hq, ← hp, hproc, Ne.symm hq]
    · simp [Hw.leave, hc, hq, hp, hon, Ne.symm hc]
    · simpa [Hw.leave, hc, hq] using hp c' q
  | enters p hv hproc hout =>
    by_cases hc : c' = c <;> by_cases hq : q = p
    · simp [Hw.enter, hc, hq]
    · simp [Hw.enter, hc, hq, ← hp, hproc, Ne.symm hq]
    · simp [Hw.enter, hc, hq, hp, hout, Ne.symm hc]
    · simpa [Hw.enter, hc, hq] using hp c' q

end

/-- A context that does not run on the CPU of a step keeps what it has. -/
theorem Inv.elsewhere (hi : Inv s) (he : Effect ptable s.hw c (s.view c) k h v)
    (hz : cpuOf s.hw z ≠ some c) (hb : saved s.hw z = some b) :
    saved h z = some b ∧ Sys.depth ⟨h, update s.view c v⟩ z = s.depth z := by
  by_cases hto : ∃ p, z = .inr p ∧ h.context p ≠ s.hw.context p
  · -- it is the thread to which the scheduler of the CPU switches
    obtain ⟨p, rfl, hne⟩ := hto
    cases he with
    | moves hm => exact absurd (congrFun hm.context p) hne
    | leaves q hv hp =>
      obtain rfl : p = q := by_contra fun h => hne (update_of_ne h ..)
      exact absurd (cpuOf_inr.mpr ((hi.place c p).mp hp)) hz
    | enters q hv hp hout =>
      obtain rfl : p = q := by_contra fun h => hne (update_of_ne h ..)
      have hon : cpuOf (s.hw.enter c p) (.inr p) = some c := by simp [cpuOf, Hw.enter]
      rw [saved_on hon, Sys.depth_on hon]
      cases hctx : s.hw.context p with
      | on c' => exact absurd hctx (hout c')
      | _ => simp_all [saved, cpuOf, Hw.enter, Sys.depth, Context.intena, critical, View.depth]
  · push Not at hto
    obtain ⟨hsame, hkept⟩ := saved_other hz hb (fun c' hc => (he.others hc).1) hto
    refine ⟨hkept, ?_⟩
    cases hc : cpuOf s.hw z with
    | none => simp [Sys.depth, hsame, hc]
    | some c' =>
      have hne : c' ≠ c := fun h => hz (h ▸ hc)
      rw [Sys.depth_on hc, Sys.depth_on (hsame.trans hc)]
      exact congrArg View.depth (update_of_ne hne ..)

variable [DecidableEq L]

/-- Every call that is allowed returns, unless it acquires a lock that its context holds. -/
theorem Inv.performs (hi : Inv s) (ha : Allowed ptable s (c, k))
    (hnew : ∀ l, k = .acquire l → l ∉ (s.view c).held) : wp (perform ptable c k)
      (fun r h' => Effect ptable s.hw c (s.view c) k h' ((s.view c).after k r)) s.hw := by
  have hx := hi.nested c
  have hl := hi.held c
  cases k with
  | setIF b =>
    simp only [perform, setIF, modifyCpu, wp_bind, wp_modify, wp_pure]
    have hout : (s.view c).depth = 0 := ha
    have hmoves : CpuMoves (s.hw.cpu c) (s.view c).depth
        { s.hw.cpu c with flag := b } (s.view c).depth :=
      ⟨rfl, ⟨hx.ncli, by omega⟩, by omega, by omega, by omega⟩
    exact .moves (.setCpu hl rfl hmoves)
  | setState p st =>
    simp only [perform, wp_bind, wp_modify, wp_pure]
    exact .moves ⟨fun _ _ => ⟨rfl, fun _ => rfl⟩, rfl, hl, .refl hx⟩
  | pushcli =>
    simp only [perform, wp_bind, wp_pushcli, wp_pure]
    have hdepth : ((s.view c).after (.pushcli : Call T L) false).depth = (s.view c).depth + 1 := by
      simp only [View.after, View.depth]
      omega
    exact .moves (.setCpu hl rfl (hdepth ▸ .push hx))
  | popcli =>
    have hdepth : (s.view c).depth = ((s.view c).after (.popcli : Call T L) false).depth + 1 := by
      have := ha.2
      simp only [View.after, View.depth]
      omega
    rw [hdepth] at hx
    simp only [perform, wp_bind, wp_popcli hx, wp_pure]
    exact .moves (.setCpu hl rfl (hdepth ▸ .pop hx))
  | acquire l =>
    have hfree : s.hw.holds c l = false := by
      rw [← Bool.not_eq_true, hl]
      exact hnew l rfl
    have hw : (s.view c).waits = none := ha
    have hdepth : ((s.view c).after (.acquire l : Call T L) false).depth =
        (s.view c).depth + 1 := by
      simp [View.after, View.depth, hw]
    simp only [perform, wp_bind, wp_acquire hx hfree, wp_pure]
    exact .moves (.setCpu hl rfl (hdepth ▸ .push hx))
  | spin l =>
    have hw : (s.view c).waits = some l := ha
    have hf := hx.off (by simp [View.depth, hw])
    rw [perform, wp_spin hf]
    cases hfree : (s.hw.lock l).locked with
    | true => exact .moves ⟨fun _ _ => ⟨rfl, fun _ => rfl⟩, rfl, hl, .refl hx⟩
    | false => exact .moves (.take hl hx hw hfree)
  | release l =>
    have hdepth : (s.view c).depth =
        ((s.view c).after (.release l : Call T L) false).depth + 1 := by
      have := Finset.card_erase_add_one ha.2
      simp only [View.after, View.depth]
      omega
    rw [hdepth] at hx
    simp only [perform, wp_bind, wp_release hx ((hl l).mpr ha.2), wp_pure]
    exact .moves (.give hl ha.2 (hdepth ▸ .pop hx))
  | sched =>
    obtain ⟨hv, p, hp, hst⟩ := ha
    rw [hv] at hx
    have hm : s.hw.holds c ptable = true := by simp [hl, hv, critical]
    simp only [perform, wp_bind, wp_sched hx hm hp hst, wp_pure]
    exact .leaves p hv hp
  | swtch p =>
    obtain ⟨hv, hp, hout⟩ := ha
    have hf := hx.off (by simp [hv, critical, View.depth])
    simp only [perform, wp_bind, wp_swtch hf, wp_pure]
    exact .enters p hv hp hout

/-- Its context is told that it holds the lock. -/
theorem Inv.perform_held (hi : Inv s) (hl : l ∈ (s.view c).held) :
    perform ptable c (.acquire l : Call T L) s.hw = .error "acquire" := by
  have hrun := acquire_held (hi.nested c) ((hi.held c l).mpr hl)
  change Except.bind (acquire c l s.hw) _ = _
  rw [hrun]
  rfl

section

variable (hi : Inv s) (ha : Allowed ptable s a)
include hi ha

/-- What a step does. -/
theorem Inv.step_effect (hs : step ptable s a = some t) :
    ∃ h v, t = ⟨h, update s.view a.1 v⟩ ∧ Effect ptable s.hw a.1 (s.view a.1) a.2 h v := by
  obtain ⟨c, k⟩ := a
  rw [step] at hs
  split at hs
  · next r h' hrun =>
    obtain rfl := Option.some.inj hs
    refine ⟨_, _, rfl, (hi.performs ha fun l hk hl => ?_).of_ok hrun⟩
    subst hk
    rw [hi.perform_held hl] at hrun
    cases hrun
  · cases hs

/-- Every step keeps the invariant. -/
theorem Inv.step (hs : step ptable s a = some t) : Inv t := by
  obtain ⟨h', v, rfl, he⟩ := hi.step_effect ha hs
  refine ⟨fun c => ?_, fun c l => ?_, he.place hi.place⟩
  · by_cases hc : c = a.1
    · subst hc
      simpa using he.nested (hi.nested a.1)
    · simpa [hc, (he.others hc).1] using hi.nested c
  · by_cases hc : c = a.1
    · subst hc
      simpa using he.held (hi.held a.1) l
    · simpa [hc, (he.others hc).2] using hi.held c l

/-! ## The flag that will be restored -/

/-- Inside a critical section a step keeps what will be restored, and the step that ends it
restores it. -/
theorem Inv.saved_step (hs : InterruptNesting.step ptable s a = some t) (hd : 0 < s.depth z)
    (hstay : z = .inl a.1 → ¬ a.2 matches .swtch _) (hb : saved s.hw z = some b) : saved t.hw z =
    some b ∧ (t.depth z = 0 → ∃ c, cpuOf t.hw z = some c ∧ (t.hw.cpu c).flag = b) := by
  obtain ⟨c, k⟩ := a
  obtain ⟨h', v, rfl, he⟩ := hi.step_effect ha hs
  by_cases hz : cpuOf s.hw z = some c
  · obtain rfl := Option.some.inj ((saved_on hz).symm.trans hb)
    rw [Sys.depth_on hz] at hd
    cases he with
    | moves hm =>
      have hz' := (hm.cpuOf_eq z).trans hz
      have hdepth : Sys.depth ⟨h', update s.view c v⟩ z = v.depth := by simp [Sys.depth, hz']
      rw [saved_on hz', hdepth]
      exact ⟨congrArg some (hm.cpu.kept hd), fun h0 => ⟨c, hz', hm.cpu.restored hd h0⟩⟩
    | leaves p hv hp =>
      obtain rfl := hi.eq_thread hz hp
      simp [saved, Sys.depth, cpuOf, Hw.leave, Context.intena]
    | enters p hv hp hout => exact absurd rfl (hstay (hi.eq_scheduler hz hp))
  · obtain ⟨hkept, hdepth⟩ := hi.elsewhere he hz hb
    exact ⟨hkept, fun h0 => absurd (hdepth.symm.trans h0) hd.ne'⟩

/-- The first step of a critical section saves the flag. -/
theorem Inv.saved_first (hs : InterruptNesting.step ptable s a = some t)
    (hz : cpuOf s.hw z = some c) (h0 : (s.view c).depth = 0) (hd : 0 < t.depth z) :
    saved t.hw z = some (s.hw.cpu c).flag := by
  obtain ⟨c', k⟩ := a
  obtain ⟨h', v, rfl, he⟩ := hi.step_effect ha hs
  by_cases hc : c' = c
  · subst hc
    cases he with
    | moves hm =>
      have hz' := (hm.cpuOf_eq z).trans hz
      have hdepth : Sys.depth ⟨h', update s.view c' v⟩ z = v.depth := by simp [Sys.depth, hz']
      rw [saved_on hz', hm.cpu.saved h0 (hdepth ▸ hd)]
    | leaves _ hv | enters _ hv => simp [hv, critical, View.depth] at h0
  · have hne : cpuOf s.hw z ≠ some c' := by simp [hz, Ne.symm hc]
    rw [(hi.elsewhere he hne (saved_on hz)).2, Sys.depth_on hz] at hd
    exact absurd h0 hd.ne'

end

/-- The steps of a run while a context is in a critical section. The scheduler of a CPU does
not put back what `swtch` leaves it. -/
def Inside (ptable : L) (z : Ctx n T) (s : Sys n T L) (a : Fin n × Call T L) : Prop :=
  Allowed ptable s a ∧ 0 < s.depth z ∧ (z = .inl a.1 → ¬ a.2 matches .swtch _)

theorem Inv.saved_run (hi : Inv s) (hd : 0 < s.depth z) (hb : saved s.hw z = some b)
    (hrun : Reaches (InterruptNesting.step ptable) (Inside ptable z) s t) (hend : t.depth z = 0) :
    ∃ c, cpuOf t.hw z = some c ∧ (t.hw.cpu c).flag = b := by
  have hboth : Inv t ∧ saved t.hw z = some b ∧
      (t.depth z = 0 → ∃ c, cpuOf t.hw z = some c ∧ (t.hw.cpu c).flag = b) := by
    apply hrun.invariant ⟨hi, hb, fun h0 => absurd h0 hd.ne'⟩
    rintro s a t ⟨hi, hb, -⟩ ⟨ha, hd, hstay⟩ hs
    exact ⟨hi.step ha hs, hi.saved_step ha hs hd hstay hb⟩
  exact hboth.2.2 hend

/-- Interrupts are off in critical sections, matched calls do not panic, and when a context
has left its critical section the flag is as before, wherever the context then runs. -/
theorem interrupt_nesting (hs : Reaches (step ptable) (Allowed ptable) boot s) :
    (∀ c, 0 < (s.hw.cpu c).ncli → (s.hw.cpu c).flag = false) ∧
    (∀ c k, Allowed ptable s (c, k) → (∃ r, perform ptable c k s.hw = .ok r) ∨
      ∃ l, k = .acquire l ∧ l ∈ (s.view c).held ∧ perform ptable c k s.hw = .error "acquire") ∧
    ∀ c z a s₁ s₂, cpuOf s.hw z = some c → (s.hw.cpu c).ncli = 0 → Allowed ptable s a →
      step ptable s a = some s₁ →
      0 < s₁.depth z → Reaches (step ptable) (Inside ptable z) s₁ s₂ → s₂.depth z = 0 →
      ∃ c', cpuOf s₂.hw z = some c' ∧ (s₂.hw.cpu c').flag = (s.hw.cpu c).flag := by
  have hi : Inv s := hs.invariant Inv.boot fun _ _ _ h ha h' => h.step ha h'
  refine ⟨fun c hc => ?_, fun c k ha => ?_, fun c z a s₁ s₂ hz h0 ha hstep hd hrun hend => ?_⟩
  · have hx := hi.nested c
    exact hx.off (by have := hx.ncli; omega)
  · by_cases hk : ∃ l, k = .acquire l ∧ l ∈ (s.view c).held
    · obtain ⟨l, rfl, hl⟩ := hk
      exact .inr ⟨l, rfl, hl, hi.perform_held hl⟩
    · obtain ⟨r, h', hrun, -⟩ := hi.performs ha fun l hl hm => hk ⟨l, hl, hm⟩
      exact .inl ⟨(r, h'), hrun⟩
  · have hx := (hi.nested c).ncli
    have hfirst := hi.saved_first ha hstep hz (by omega) hd
    exact (hi.step ha hstep).saved_run hd hfirst hrun hend

instance (z : Ctx n T) (s : Sys n T L) (a : Fin n × Call T L) : Decidable (Inside ptable z s a) :=
  inferInstanceAs (Decidable (_ ∧ _))

/-- A thread with interrupts on gives up the first CPU and goes on on the second. -/
theorem interrupt_nesting_moved : ∃ s s₁ s₂ : Sys 2 Unit Unit,
    execIf (step ()) (Allowed ())
      [(0, .acquire ()), (0, .spin ()), (0, .swtch ()), (0, .release ()), (0, .setIF true)]
      boot = some s ∧ step () s (0, .acquire ()) = some s₁ ∧
    execIf (step ()) (Inside () (.inr ()))
      [(0, .spin ()), (0, .setState () .runnable), (0, .sched), (0, .release ()),
      (1, .acquire ()), (1, .spin ()), (1, .swtch ()), (1, .release ())] s₁ = some s₂ ∧
    (s.hw.cpu 0).flag = true ∧ ∃ c, cpuOf s₂.hw (.inr ()) = some c ∧
    (s₂.hw.cpu c).flag = (s.hw.cpu 0).flag := by
  refine ⟨Option.get _ ?thread, Option.get _ ?acquired,
    Option.get _ ?moved, (Option.some_get _).symm,
    (Option.some_get _).symm, (Option.some_get _).symm, ?on, ?flag⟩
  case thread => decide +kernel
  case acquired => decide +kernel
  case moved => decide +kernel
  case on => decide +kernel
  exact (interrupt_nesting (reaches_of_execIf (Option.some_get _).symm)).2.2 0
    (.inr ()) (0, .acquire ()) _ _
    (by decide +kernel) (by decide +kernel) (by decide +kernel)
    (Option.some_get _).symm (by decide +kernel)
    (reaches_of_execIf (Option.some_get _).symm) (by decide +kernel)

/-- No two CPUs hold one lock. -/
theorem spinlock_exclusive (hs : Reaches (step ptable) (Allowed ptable) boot s) :
    Pairwise fun c c' => Disjoint (s.view c).held (s.view c').held := by
  have hi : Inv s := hs.invariant Inv.boot fun _ _ _ h ha h' => h.step ha h'
  refine fun c c' hne => Finset.disjoint_left.mpr fun l hl hl' => hne ?_
  have h := (hi.held c l).mpr hl
  have h' := (hi.held c' l).mpr hl'
  simp only [Hw.holds, Bool.and_eq_true, decide_eq_true_eq] at h h'
  exact Option.some.inj (h.2.symm.trans h'.2)

theorem spinlock_exclusive_two : ∃ s : Sys 2 Unit Unit, (s.view 1).waits = some () ∧
    Disjoint (s.view 0).held (s.view 1).held := by
  have h : execIf (step ()) (Allowed ())
    [(0, .acquire ()), (0, .spin ()), (1, .acquire ()), (1, .spin ())]
    (boot : Sys 2 Unit Unit) = some _ := rfl
  exact ⟨_, rfl, spinlock_exclusive (reaches_of_execIf h) (by decide)⟩

end Xv6.InterruptNesting
