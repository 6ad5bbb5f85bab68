import Mathlib.Data.Int.Interval
import Xv6.Parents
import Xv6.StateChange

/-!
# Indices of the statistics and queue arrays

`pid` indexes the arrays of `pstat_var` and `cxj[q]` indexes `qxj[q]`, all of 64
entries. Every queue holds as many entries as there are pids recorded in it, as
long as a process leaves the queue that it is recorded in. The number of pids
given out then bounds every index.
-/
namespace Xv6.IndexBounds

open Function (update)
open ProcTable Scheduler ProcSystem RunState StateChange SlotChange Parents

/-- How many of the pids `1..n` are recorded in queue `q`. -/
def tally (cq : Int → Nat) (q : Nat) : Nat → Nat
  | 0 => 0
  | n + 1 => tally cq q n + if cq (n + 1) = q then 1 else 0

section Tally

variable (cq : Int → Nat) {q t u n : Nat} {i : Int}

theorem tally_le (q n : Nat) : tally cq q n ≤ n := by
  induction n with
  | zero => rfl
  | succ n ih =>
    simp only [tally]
    split <;> omega

theorem tally_pos (h₁ : 1 ≤ i) (hn : i ≤ n) (h : cq i = q) : 0 < tally cq q n := by
  induction n with
  | zero => omega
  | succ n ih =>
    simp only [tally]
    by_cases he : i = n + 1
    · subst he
      simp [h]
    · have := ih (by omega)
      omega

/-- A pid beyond those counted does not matter. -/
theorem tally_update_above (u : Nat) (h : n < i) : tally (update cq i u) q n = tally cq q n := by
  induction n with
  | zero => rfl
  | succ n ih =>
    have hne : ((n : Int) + 1) ≠ i := by omega
    simp only [tally, ih (by omega), Function.update_of_ne hne]

/-- One pid moves from queue `t` to queue `u`. -/
theorem tally_move (h₁ : 1 ≤ i) (hn : i ≤ n) (ht : cq i = t) :
    tally (update cq i u) q n + (if q = t then 1 else 0) =
      tally cq q n + if q = u then 1 else 0 := by
  induction n with
  | zero => omega
  | succ n ih =>
    simp only [tally]
    by_cases he : i = n + 1
    · subst he
      rw [tally_update_above cq u (by omega), Function.update_self, ht]
      simp only [eq_comm (a := u), eq_comm (a := t)]
      omega
    · have hne : ((n : Int) + 1) ≠ i := fun h => he h.symm
      have := ih (by omega)
      rw [Function.update_of_ne hne]
      omega

end Tally

/-- No index has been out of bounds, at most 63 pids have been given out, and the
length of a queue is the number of pids recorded in it. -/
structure Bounded (k : Kernel) : Prop where
  inside : k.overrun = false
  first : 1 ≤ k.nextpid
  nextpid : k.nextpid ≤ 64
  length : ∀ q, q < 5 → k.cxj q + 1 = tally k.pstat.currentQueue q (k.nextpid - 1).toNat

section Bounded

variable {k k' : Kernel} {p : Slot}

section

variable (hb : Bounded k)
include hb

theorem Bounded.congr (ho : k'.overrun = k.overrun) (hn : k'.nextpid = k.nextpid)
    (hc : k'.cxj = k.cxj) (hq : k'.pstat.currentQueue = k.pstat.currentQueue) : Bounded k' := by
  refine ⟨ho.trans hb.inside, by rw [hn]; exact hb.first, by rw [hn]; exact hb.nextpid, ?_⟩
  intro q hlt
  rw [hc, hq, hn]
  exact hb.length q hlt

theorem Bounded.cxj {q : Nat} (hq : q < 5) : -1 ≤ k.cxj q ∧ k.cxj q ≤ 62 := by
  have h₁ := hb.length q hq
  have h₂ := tally_le k.pstat.currentQueue q (k.nextpid - 1).toNat
  have h₃ := hb.nextpid
  omega

theorem Bounded.index {i : Int} (h₀ : 0 ≤ i) (hi : i < 64) : Bounded (k.index i) := by
  refine hb.congr ?_ rfl rfl rfl
  have hin : outside i = false := by simp [h₀, hi]
  simp [Kernel.index, hin]

/-- A queue that a pid is recorded in is not empty. -/
theorem Bounded.nonempty {i : Int} (h₁ : 1 ≤ i) (hn : i < k.nextpid)
    {q : Nat} (hq : q < 5) (hi : k.pstat.currentQueue i = q) : 0 ≤ k.cxj q := by
  have h := hb.length q hq
  have hp := tally_pos k.pstat.currentQueue (n := (k.nextpid - 1).toNat) h₁ (by omega) hi
  omega

theorem Bounded.allocFound (hn : k.nextpid ≤ 63) : Bounded (allocFound k p) := by
  have hcxj := hb.cxj (q := 0) (by omega)
  have hfirst := hb.first
  refine ⟨?_, ?_, ?_, ?_⟩
  · have h₁ : outside (k.cxj 0 + 1) = false := by simp; omega
    have h₂ : outside k.nextpid = false := by simp; omega
    show (k.overrun || outside (k.cxj 0 + 1) || outside k.nextpid) = false
    simp [hb.inside, h₁, h₂]
  · show 1 ≤ k.nextpid + 1
    omega
  · show k.nextpid + 1 ≤ 64
    omega
  · intro q hq
    have hlen := hb.length q hq
    have hnew : (k.nextpid + 1 - 1).toNat = (k.nextpid - 1).toNat + 1 := by omega
    have hpid : (((k.nextpid - 1).toNat : Nat) : Int) + 1 = k.nextpid := by omega
    show update k.cxj 0 (k.cxj 0 + 1) q + 1 =
      tally (update k.pstat.currentQueue k.nextpid 0) q (k.nextpid + 1 - 1).toNat
    rw [hnew, tally, hpid, Function.update_self, tally_update_above _ _ (by omega)]
    by_cases h₀ : q = 0
    · subst h₀
      simp only [Function.update_self, if_true]
      omega
    · rw [Function.update_of_ne h₀, if_neg fun h => h₀ h.symm]
      omega

/-- A process leaves the queue that it is recorded in. -/
theorem Bounded.moveQueue {t u : Nat} (ht : t < 5) (hu : u < 5) (htu : t ≠ u)
    (h₁ : 1 ≤ (k.proc p).pid) (hn : (k.proc p).pid < k.nextpid)
    (hq : k.pstat.currentQueue (k.proc p).pid = t) {i : Int} (h₀ : 0 ≤ i) (hi : i < 64) :
    Bounded (moveQueue k t u i p) := by
  have hct := hb.cxj ht
  have hcu := hb.cxj hu
  have hne := hb.nonempty h₁ hn ht hq
  have hnext := hb.nextpid
  refine ⟨?_, hb.first, hb.nextpid, ?_⟩
  · have h₁ : outside (k.cxj u + 1) = false := by simp; omega
    have h₂ : outside (k.proc p).pid = false := by simp; omega
    have h₃ : outside i = false := by simp; omega
    have h₄ : outside (k.cxj t) = false := by simp; omega
    show (k.overrun || outside (k.cxj u + 1) || outside (k.proc p).pid || outside i ||
      outside (update k.cxj u (k.cxj u + 1) t)) = false
    rw [Function.update_of_ne htu, hb.inside, h₁, h₂, h₃, h₄]
    rfl
  · intro q hlt
    have hlen := hb.length q hlt
    have hmove := tally_move k.pstat.currentQueue (q := q) (u := u)
      (n := (k.nextpid - 1).toNat) h₁ (by omega) hq
    show update (update k.cxj u (k.cxj u + 1)) t (update k.cxj u (k.cxj u + 1) t - 1) q + 1 =
      tally (update k.pstat.currentQueue (k.proc p).pid u) q (k.nextpid - 1).toNat
    rw [Function.update_of_ne htu]
    by_cases h₃ : q = t
    · subst h₃
      rw [if_pos rfl, if_neg htu] at hmove
      rw [Function.update_self]
      omega
    · rw [Function.update_of_ne h₃]
      rw [if_neg h₃] at hmove
      by_cases h₄ : q = u
      · subst h₄
        rw [if_pos rfl] at hmove
        rw [Function.update_self]
        omega
      · rw [if_neg h₄] at hmove
        rw [Function.update_of_ne h₄]
        omega

end

end Bounded

/-- What the counters that a scheduler keeps across `swtch` satisfy. -/
def PcOk : SchedPc → Prop
  | .starve t _ => 1 ≤ t
  | .levelBack t i _ => t < 4 ∧ i < 64
  | .lastBack i _ => i < 64
  | _ => True

/-- A process that is about to be demoted from a queue, or moved to the end of the
last one, is recorded in that queue. -/
def Leaves (k : Kernel) : SchedPc → Prop
  | .levelBack t _ p =>
    k.pstat.numRun (k.proc p).pid = timedur t → k.pstat.currentQueue (k.proc p).pid = t
  | .lastBack _ p => k.pstat.currentQueue (k.proc p).pid = 4
  | _ => True

instance (k : Kernel) : ∀ pc, Decidable (Leaves k pc)
  | .levelBack _ _ _ => inferInstanceAs (Decidable (_ → _))
  | .lastBack _ _ => inferInstanceAs (Decidable (_ = _))
  | .idle | .scan _ | .back _ | .starve _ _ | .level _ _ | .last _ | .wild => .isTrue trivial

section Sched

variable {k k' : Kernel} {pc pc' : SchedPc} {p : Slot}

/-- Every slot in use has a pid that has been given out. -/
def PidsOk (k : Kernel) : Prop :=
  ∀ p, (k.proc p).state ≠ .unused → 1 ≤ (k.proc p).pid ∧ (k.proc p).pid < k.nextpid

section

variable (hb : Bounded k) (hpid : PidsOk k)
include hb hpid

theorem Bounded.pid (hp : (k.proc p).state ≠ .unused) : Bounded (k.index (k.proc p).pid) := by
  have h := hpid p hp
  have hn := hb.nextpid
  exact hb.index (by omega) (by omega)

theorem Bounded.noteTicks (hp : (k.proc p).state ≠ .unused) (t : Nat) : Bounded (noteTicks k t p) :=
  (hb.pid hpid hp).congr rfl rfl rfl rfl

theorem Bounded.starvePass {t : Nat} (h₁ : 1 ≤ t) (ht : t < 5) : Bounded (starvePass k t p) := by
  have hn := hb.nextpid
  unfold Scheduler.starvePass
  split
  next => exact hb
  next hr =>
    have hp : (k.proc p).state ≠ .unused := by
      intro he
      exact hr (by simp [he])
    obtain ⟨h₂, h₃⟩ := hpid p hp
    split
    next hs =>
      have hm := hb.moveQueue (u := t - 1) ht (by omega) (by omega) h₂ h₃ hs.2.1
        (i := (k.proc p).pid) (by omega) (by omega)
      exact hm.index (by omega) (by omega)
    next => exact hb.pid hpid hp

theorem Bounded.levelReturn (hp : (k.proc p).state ≠ .unused) {t i : Nat} (ht : t < 4)
    (hi : i < 64) (hl : Leaves k (.levelBack t i p)) : Bounded (levelReturn k t i p) := by
  have hnote := hb.noteTicks hpid hp t
  obtain ⟨h₁, h₂⟩ := hpid p hp
  unfold Scheduler.levelReturn
  simp only
  split
  next hrun =>
    exact hnote.moveQueue (p := p) (u := t + 1) (by omega) (by omega) (by omega) h₁ h₂ (hl hrun)
      (by omega) (by omega)
  next => exact hnote

theorem Bounded.lastReturn (hp : (k.proc p).state ≠ .unused)
    {i : Nat} (hi : i < 64) (hl : Leaves k (.lastBack i p)) : Bounded (lastReturn k i p) := by
  have hnote := hb.noteTicks hpid hp 3
  obtain ⟨h₁, h₂⟩ := hpid p hp
  have hcxj := hb.cxj (q := 4) (by omega)
  have hne := hb.nonempty h₁ h₂ (by omega) hl
  refine hnote.congr ?_ rfl rfl rfl
  have h₃ : outside (i : Int) = false := by simp; omega
  have h₄ : outside (k.cxj 4) = false := by simp; omega
  show ((Scheduler.noteTicks k 3 p).overrun || outside i || outside (k.cxj 4)) =
    (Scheduler.noteTicks k 3 p).overrun
  simp [h₃, h₄]

end

theorem Bounded.goto (hb : Bounded k) (h : Goto k pc k' pc') (hpid : PidsOk k) (hpc : PcOk pc)
    (hback : ∀ p, returned pc = some p → (k.proc p).state ≠ .unused) (hl : Leaves k pc) :
    Bounded k' ∧ PcOk pc' := by
  have hindex : ∀ {t i : Nat}, t < 5 → (i : Int) ≤ k.cxj t → Bounded (k.index i) := by
    intro t i ht hi
    have := hb.cxj ht
    exact hb.index (by omega) (by omega)
  cases h with
  | scan | back | wild | starveEnd | levelNext | levelEnd => exact ⟨hb, trivial⟩
  | starve t p ht => exact ⟨hb.starvePass hpid hpc ht, hpc⟩
  | starveNext t p ht => exact ⟨hb, Nat.le_add_left 1 t⟩
  | skip _ _ _ hi | fault _ _ _ hi | lastSkip _ hi | lastFault _ hi =>
    exact ⟨hindex (by omega) hi, trivial⟩
  | levelBack t i p => exact ⟨hb.levelReturn hpid (hback p rfl) hpc.1 hpc.2 hl, trivial⟩
  | lastBack i p => exact ⟨hb.lastReturn hpid (hback p rfl) hpc hl, trivial⟩

theorem Bounded.startRun (hb : Bounded k) (hpid : PidsOk k) (hp : (k.proc p).state = .runnable)
    {t i : Nat} (ht : t < 5) (hi : (i : Int) ≤ k.cxj t) : Bounded (startRun k i p) := by
  have hcxj := hb.cxj ht
  have h := hpid p (by simp [hp])
  have hn := hb.nextpid
  have hind := (hb.index (i := i) (by omega) (by omega)).index (i := (k.proc p).pid)
    (by omega) (by omega)
  exact hind.congr rfl rfl rfl rfl

theorem Bounded.dispatch (hb : Bounded k) (h : Dispatch k pc k' p pc') (hpid : PidsOk k) :
    Bounded k' ∧ PcOk pc' := by
  cases h with
  | scan i p r hp => exact ⟨hb.congr rfl rfl rfl rfl, trivial⟩
  | level t i p ht hi hq hp =>
    have hcxj := hb.cxj (q := t) (by omega)
    exact ⟨hb.startRun hpid hp (by omega) hi, ht, by omega⟩
  | last i p hi hq hp =>
    have hcxj := hb.cxj (q := 4) (by omega)
    refine ⟨hb.startRun hpid hp (by omega) hi, ?_⟩
    show i < 64
    omega

end Sched

variable {n : Nat} {b : Build} {s s' : System n} {c : Fin n} {a : Action}

structure Inv (s : System n) : Prop where
  bounded : Bounded s.k
  pc : ∀ c, PcOk (s.cpu c).pc

/-- The condition on the steps of a run: `allocproc` is entered with at most 62
pids given out, and a process leaves only the queue that it is recorded in. -/
def Fits (s : System n) : Fin n × Action → Prop
  | (_, .fork _) => s.k.nextpid ≤ 63
  | (c, .sched) => (s.cpu c).run = none → Leaves s.k (s.cpu c).pc
  | _ => True

instance (s : System n) : ∀ x, Decidable (Fits s x)
  | (_, .fork _) => inferInstanceAs (Decidable (_ ≤ _))
  | (_, .sched) => inferInstanceAs (Decidable (_ → _))
  | (_, .resume) | (_, .kalloc _) | (_, .copyuvm _) | (_, .forkDone) | (_, .stamp) | (_, .exit)
  | (_, .wait) | (_, .yield) | (_, .sleep _) | (_, .wakeup _) | (_, .kill _) | (_, .chprty _ _)
  | (_, .tick) | (_, .updateStatistics) => .isTrue trivial

theorem pidsOk (hf : Family.Inv 0 (family s)) : PidsOk s.k := by
  intro p hp
  exact hf.numbered.bound p fun h => hp (phaseOf_free.mp h)

/-- With at most 63 pids given out one of the 64 slots is free. -/
theorem not_full (hf : Family.Inv 0 (family s)) (hn : s.k.nextpid ≤ 64) :
    ∃ p, (s.k.proc p).state = .unused := by
  by_contra hfull
  have hused : ∀ p, ((family s).member p).phase ≠ .free :=
    fun p h => hfull ⟨p, phaseOf_free.mp h⟩
  have hmaps : ∀ p ∈ (Finset.univ : Finset Slot), (s.k.proc p).pid ∈ Finset.Ico (1 : Int) 64 := by
    intro p _
    have := hf.numbered.bound p (hused p)
    simp only [Finset.mem_Ico]
    exact ⟨this.1, lt_of_lt_of_le this.2 hn⟩
  have hinj : Set.InjOn (fun p => (s.k.proc p).pid) (Finset.univ : Finset Slot) :=
    fun p _ q _ h => hf.numbered.inj p q (hused p) (hused q) h
  have hcard := Finset.card_le_card_of_injOn _ hmaps hinj
  simp only [Finset.card_univ, Fintype.card_fin, Int.card_Ico] at hcard
  exact absurd hcard (by decide)

theorem allocproc_found (hf : Family.Inv 0 (family s)) (hn : s.k.nextpid ≤ 64) (stray : Int) :
    ∃ np, (allocproc s.k stray).2 = some np := by
  obtain ⟨p, hp⟩ := not_full hf hn
  cases h : (allocproc s.k stray).2 with
  | none => exact absurd hp ((allocproc_none h).1 p)
  | some np => exact ⟨np, rfl⟩

/-- Every step that meets the condition keeps the arrays within bounds. -/
theorem step_inv (hs : step b s (c, a) = some s') (hw : Wf s) (hback : Back s)
    (hf : Family.Inv 0 (family s)) (hi : Inv s) (hfit : Fits s (c, a)) : Inv s' := by
  have hb := hi.bounded
  have hgoto : a = .sched → (s.cpu c).run = none → ∀ {k pc}, Goto s.k (s.cpu c).pc k pc →
      Bounded k ∧ PcOk pc := by
    rintro rfl hrun k pc hg
    exact hb.goto hg (pidsOk hf) (hi.pc c)
      (fun p hp => (hback c p hrun ((hw.sched c hrun).trans hp)).1) (hfit hrun)
  refine ⟨?_, step_pcs hs hi.pc trivial (by cases b <;> simp [entryPc, PcOk])
    (fun ha hrun _ _ hg => (hgoto ha hrun hg).2) fun hd => (hb.dispatch hd (pidsOk hf)).2⟩
  rcases step_cases hs with ⟨ha, hrun, hsched⟩ | ⟨stray, rfl, hk, -⟩ | ⟨-, hcalm⟩
  · cases hsched with
    | acquire _ hk => rwa [hk]
    | goto _ hstep => exact (hgoto ha hrun (goto_of_step hstep)).1
    | dispatch _ hstep => exact (hb.dispatch (dispatch_of_step hstep) (pidsOk hf)).1
    | finish _ hstep => rwa [finish_of_step hstep]
  · have hfit : s.k.nextpid ≤ 63 := hfit
    obtain ⟨np, hn⟩ := allocproc_found hf (hfit.trans (by decide)) stray
    rw [hk, (allocproc_some hn).2]
    exact hb.allocFound hfit
  · exact hb.congr hcalm.overrun hcalm.nextpid hcalm.cxj (by rw [hcalm.pstat])

theorem bounded_boot : Bounded boot := ⟨by decide, by decide, by decide, by decide⟩

theorem inv_boot : Inv (bootSystem n) := ⟨bounded_boot, fun _ => trivial⟩

theorem sound_reaches {ok : System n → Fin n × Action → Prop}
    (h : Runs.Reaches (step b) ok (bootSystem n) s) :
    Wf s ∧ Back s ∧ Family.Inv 0 (family s) :=
  have hr := h.weaken fun _ _ _ => trivial
  ⟨wf_reachable hr, back_reachable hr, inv_reachable hr⟩

/-- No index outside the arrays has been used, and the used part of each queue fits. -/
def InBounds (k : Kernel) : Prop :=
  k.overrun = false ∧ ∀ q, q < 5 → -1 ≤ k.cxj q ∧ k.cxj q ≤ 63

/-- In every run, of every build and on any number of CPUs, whose steps all meet the
condition, all indices stay in bounds. -/
theorem indices_in_bounds (h : Runs.Reaches (step b) Fits (bootSystem n) s) : InBounds s.k := by
  have hinv : Inv s := h.invariant_of (P := Inv) (fun _ hr => sound_reaches hr)
    inv_boot fun t x u hq hi hok hs => step_inv hs hq.1 hq.2.1 hq.2.2 hi hok
  refine ⟨hinv.bounded.inside, fun q hq => ?_⟩
  have := hinv.bounded.cxj hq
  omega

/-- Init forks `m` children one after the other. -/
def forkMany (m : Nat) : List (Fin 1 × Action) :=
  initRuns ++ (List.replicate m (forking ++ [(0, .forkDone)])).flatten

/-- A run with three children meets the condition. -/
theorem indices_in_bounds_three : ∃ s : System 1,
    Runs.Reaches (step .dflt) Fits (bootSystem 1) s ∧ s.k.nextpid = 5 ∧ InBounds s.k := by
  obtain ⟨s, hr, hn⟩ : ∃ s, Runs.Reaches (step .dflt) Fits (bootSystem 1) s ∧ s.k.nextpid = 5 :=
    Runs.exists_of_execIf (l := forkMany 3) (by decide +kernel)
  exact ⟨s, hr, hn, indices_in_bounds hr⟩

/-- With 63 children the table is full, and the last of them has been given pid 64. -/
theorem sixty_four_processes : ∃ s : System 1, Reachable .dflt s ∧ ¬ InBounds s.k := by
  obtain ⟨s, hr, ho⟩ : ∃ s : System 1, Reachable .dflt s ∧ s.k.overrun = true :=
    Runs.exists_of_exec (l := forkMany 63) (by decide +kernel)
  refine ⟨s, hr, fun hb => ?_⟩
  rw [hb.1] at ho
  cases ho

end Xv6.IndexBounds
