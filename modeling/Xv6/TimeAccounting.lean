import Mathlib.Order.Interval.Finset.Nat
import Xv6.SlotChange

/-!
# The times that `waitx` reports

A process gets `ctime` from `ticks` in `allocproc`, one more `rtime` from each timer interrupt
that finds it RUNNING, and `etime` from `ticks` in `exit`, before it stops being RUNNING. The
runs here record the ticks as they happened: how many there have been, when each process was
created and recorded its end, and the ticks whose interrupt found it RUNNING.
-/
namespace Xv6.TimeAccounting

open Function (update)
open ProcTable Scheduler ProcSystem RunState SlotChange

variable {n : Nat} {b : Build}

/-- `*wtime` and `*rtime` of `waitx` for a child. -/
def waitxTimes (x : Proc) : Int × Int :=
  ((x.etime - x.ctime - UInt32.ofInt x.rtime).toInt32.toInt, x.rtime)

/-- The number of ticks so far, and for each slot the tick before `allocproc` took it, the tick
before `exit` recorded its end, and the ticks that found it RUNNING, latest first. -/
structure Watch where
  now : Nat
  born : Slot → Nat
  died : Slot → Nat
  ran : Slot → List Nat

def Watch.note (w : Watch) (s : System n) : Fin n × Action → Watch
  | (_, .tick) => { w with now := w.now + 1 }
  | (_, .updateStatistics) => { w with
      ran := fun p => if (s.k.proc p).state = .running then w.now :: w.ran p else w.ran p }
  | (_, .fork stray) =>
    match (allocproc s.k stray).2 with
    | some np => { w with born := update w.born np w.now, ran := update w.ran np [] }
    | none => w
  | (c, .stamp) =>
    match (s.cpu c).run with
    | some p => { w with died := update w.died p w.now }
    | none => w
  | _ => w

structure Watched (n : Nat) where
  sys : System n
  watch : Watch

def watchedStep (b : Build) (x : Watched n) (ca : Fin n × Action) : Option (Watched n) :=
  (step b x.sys ca).map fun s' => ⟨s', x.watch.note x.sys ca⟩

def bootWatched (n : Nat) : Watched n := ⟨bootSystem n, ⟨0, fun _ => 0, fun _ => 0, fun _ => []⟩⟩

/-- A timer interrupt that counts the RUNNING processes finds none that was created after its
`ticks++`, and none that recorded its end before it; and a process ends less than 2^31 ticks
after it was created. -/
def Punctual (x : Watched n) : Fin n × Action → Prop
  | (_, .updateStatistics) =>
    ∀ p, (x.sys.k.proc p).state = .running → x.watch.born p < x.watch.now ∧
      ((x.sys.thread p).act = .exiting → x.watch.now ≤ x.watch.died p)
  | (c, .stamp) => ∀ p ∈ (x.sys.cpu c).run, x.watch.now - x.watch.born p < 2 ^ 31
  | _ => True

/-- The ticks strictly after `born` and up to `died`. -/
def Watch.lifetime (w : Watch) (p : Slot) : List Nat :=
  (w.ran p).filter fun t => decide (w.born p < t ∧ t ≤ w.died p)

/-- The times of a process are right: it was created and ended when `ctime` and `etime` say, and
`waitx` reports for how many of the ticks in between it was RUNNING and for how many it was not. -/
structure TimesRight (w : Watch) (p : Slot) (x : Proc) : Prop where
  ctime : x.ctime = UInt32.ofNat (w.born p)
  etime : x.etime = UInt32.ofNat (w.died p)
  order : w.born p ≤ w.died p
  rtime : (waitxTimes x).2 = (w.lifetime p).length
  total : (waitxTimes x).2 + (waitxTimes x).1 = w.died p - w.born p
  nonneg : 0 ≤ (waitxTimes x).1 ∧ 0 ≤ (waitxTimes x).2

/-! ## One step -/

/-- What is true of a process in use. -/
structure Timed (w : Watch) (counting : Bool) (p : Slot) (x : Proc) : Prop where
  ctime : x.ctime = UInt32.ofNat (w.born p)
  rtime : x.rtime = (w.ran p).length
  born : w.born p ≤ w.now
  sorted : (w.ran p).Pairwise (· > ·)
  ran : ∀ t ∈ w.ran p, w.born p < t ∧ t ≤ w.now ∧ (counting = true → t < w.now)

/-- What is true of one that has recorded its end. -/
structure Ended (w : Watch) (p : Slot) (x : Proc) : Prop where
  etime : x.etime = UInt32.ofNat (w.died p)
  order : w.born p ≤ w.died p
  short : w.died p - w.born p < 2 ^ 31
  past : w.died p ≤ w.now
  ran : ∀ t ∈ w.ran p, t ≤ w.died p

structure Inv (x : Watched n) : Prop where
  ticks : x.sys.k.ticks = UInt32.ofNat x.watch.now
  timed : ∀ p, (x.sys.k.proc p).state ≠ .unused → Timed x.watch x.sys.tickslock p (x.sys.k.proc p)
  ended : ∀ p, (x.sys.k.proc p).state ≠ .unused → (x.sys.k.proc p).state ≠ .embryo →
    (x.sys.thread p).act = .exiting → Ended x.watch p (x.sys.k.proc p)
  zombie : ∀ p, (x.sys.k.proc p).state = .zombie → (x.sys.thread p).act = .exiting
  fresh : ∀ p q, (x.sys.thread p).act = .stacked q ∨ (x.sys.thread p).act = .copied q →
    (x.sys.thread q).act ≠ .exiting

/-- A strictly decreasing list of numbers between two bounds is no longer than their distance. -/
theorem length_le_of_sorted {l : List Nat} {lo hi : Nat} (hs : l.Pairwise (· > ·))
    (hl : ∀ t ∈ l, lo < t ∧ t ≤ hi) :
    l.length ≤ hi - lo := by
  have hnd : l.Nodup := hs.imp fun h => Nat.ne_of_gt h
  have hsub : l.toFinset ⊆ Finset.Ioc lo hi := fun t ht => by
    rw [Finset.mem_Ioc]
    exact hl t (List.mem_toFinset.mp ht)
  have hcard := Finset.card_le_card hsub
  rwa [List.toFinset_card_of_nodup hnd, Nat.card_Ioc] at hcard

theorem Timed.right {w : Watch} {counting : Bool} {p : Slot} {x : Proc} (h : Timed w counting p x)
    (he : Ended w p x) : TimesRight w p x := by
  have hlife : w.lifetime p = w.ran p := by
    refine List.filter_eq_self.mpr fun t ht => ?_
    simp only [decide_eq_true_eq]
    exact ⟨(h.ran t ht).1, he.ran t ht⟩
  have hlen : (w.ran p).length ≤ w.died p - w.born p :=
    length_le_of_sorted h.sorted fun t ht => ⟨(h.ran t ht).1, he.ran t ht⟩
  have hw : (waitxTimes x).1 = w.died p - w.born p - (w.ran p).length := by
    have hsplit : w.died p =
        (w.died p - w.born p - (w.ran p).length) + (w.ran p).length + w.born p := by
      have := he.order
      omega
    have hrt : UInt32.ofInt x.rtime = UInt32.ofNat (w.ran p).length := by
      rw [h.rtime, UInt32.ofInt]
      congr 1
      have := he.short
      omega
    have hsub : x.etime - x.ctime - UInt32.ofInt x.rtime =
        UInt32.ofNat (w.died p - w.born p - (w.ran p).length) := by
      rw [he.etime, h.ctime, hrt, hsplit, UInt32.ofNat_add, UInt32.ofNat_add, UInt32.add_sub_cancel,
        UInt32.add_sub_cancel]
      congr 1
      omega
    have hlt : w.died p - w.born p - (w.ran p).length < 2 ^ 31 :=
      lt_of_le_of_lt (Nat.sub_le _ _) he.short
    have horder := he.order
    rw [waitxTimes, hsub, UInt32.toInt32_ofNat', Int32.toInt_ofNat_of_lt hlt]
    omega
  have hr : (waitxTimes x).2 = (w.ran p).length := h.rtime
  have horder := he.order
  refine ⟨h.ctime, he.etime, he.order, by rw [hr, hlife], by omega, by omega, by omega⟩

/-! ## The clock -/

section Clock

variable {s s' : System n} {c : Fin n} {a : Action}

theorem goto_ticks {k k' : Kernel} {pc pc' : SchedPc} (h : Goto k pc k' pc') :
    k'.ticks = k.ticks := by
  cases h with
  | starve t p ht =>
    unfold starvePass
    split
    · rfl
    · split <;> rfl
  | levelBack t i p =>
    unfold levelReturn
    simp only
    split <;> rfl
  | _ => rfl

theorem dispatch_ticks {k k' : Kernel} {pc pc' : SchedPc} {p : Slot} (h : Dispatch k pc k' p pc') :
    k'.ticks = k.ticks := by
  cases h <;> rfl

/-- Only timer interrupts advance the clock. -/
theorem move_clock (h : Move b s c a s') (ht : a ≠ .tick) (hu : a ≠ .updateStatistics) :
    s'.tickslock = s.tickslock ∧ s'.k.ticks = s.k.ticks := by
  cases h with
  | goto hrun hpc hg => exact ⟨rfl, goto_ticks hg⟩
  | dispatch hrun hpc hd => exact ⟨rfl, dispatch_ticks hd⟩
  | reap hrun hc hz | waitFail hrun hc hz hk | waitSleep hrun hc hz hk =>
    rcases hc with ⟨-, -, -, -, rfl⟩ | ⟨-, -, rfl⟩ <;> exact ⟨rfl, rfl⟩
  | forkFull hr ha hlock hn => exact ⟨rfl, by rw [(allocproc_none hn).2]; rfl⟩
  | forkAlloc hr ha hlock hn => exact ⟨rfl, by rw [(allocproc_some hn).2]; rfl⟩
  | exit hr ha hlock =>
    refine ⟨rfl, ?_⟩
    change (exitBody _ _).ticks = _
    rw [exitBody_eq]
  | kill pid hr hlock =>
    refine ⟨rfl, ?_⟩
    dsimp only
    unfold ProcTable.kill
    split <;> rfl
  | chprty pid priority hr hlock =>
    refine ⟨rfl, ?_⟩
    dsimp only
    unfold ProcTable.chprty
    split <;> rfl
  | tick => exact absurd rfl ht
  | updateStatistics hlock => exact absurd rfl hu
  | _ => exact ⟨rfl, rfl⟩

theorem tick_clock (h : step b s (c, .tick) = some s') :
    s' = { s with k := { s.k with ticks := s.k.ticks + 1 }, tickslock := true } := by
  rw [step] at h
  split at h
  next hc => exact (Option.some.inj h).symm
  next => cases h

theorem count_clock (h : step b s (c, .updateStatistics) = some s') :
    s.tickslock = true ∧ s' = { s with k := updateStatistics s.k, tickslock := false } := by
  rw [step] at h
  split at h
  next hc => exact ⟨hc.2, (Option.some.inj h).symm⟩
  next => cases h

end Clock

/-! ## Every step keeps the times -/

section Step

variable {s s' : System n} {w : Watch} {c : Fin n} {a : Action} {q : Slot}

theorem note_calm (ha : ¬ Touches s c q a) : (w.note s (c, a)).born q = w.born q ∧
    (w.note s (c, a)).died q = w.died q ∧ (w.note s (c, a)).ran q = w.ran q := by
  cases a with
  | updateStatistics => exact absurd trivial ha
  | fork stray =>
    simp only [Watch.note]
    cases hnp : (allocproc s.k stray).2 with
    | none => exact ⟨rfl, rfl, rfl⟩
    | some np =>
      have hne : q ≠ np := by
        rintro rfl
        exact ha hnp
      exact ⟨Function.update_of_ne hne .., rfl, Function.update_of_ne hne ..⟩
  | stamp =>
    simp only [Watch.note]
    cases hrun : (s.cpu c).run with
    | none => exact ⟨rfl, rfl, rfl⟩
    | some p =>
      have hne : q ≠ p := by
        rintro rfl
        exact ha hrun
      exact ⟨rfl, Function.update_of_ne hne .., rfl⟩
  | _ => exact ⟨rfl, rfl, rfl⟩

theorem note_now (ht : a ≠ .tick) : (w.note s (c, a)).now = w.now := by
  cases a with
  | tick => exact absurd rfl ht
  | fork stray =>
    simp only [Watch.note]
    split <;> rfl
  | stamp =>
    simp only [Watch.note]
    split <;> rfl
  | _ => rfl

theorem inv_tick (h : Inv ⟨s, w⟩) :
    Inv ⟨{ s with k := { s.k with ticks := s.k.ticks + 1 }, tickslock := true },
      { w with now := w.now + 1 }⟩ where
  ticks := by
    change s.k.ticks + 1 = UInt32.ofNat (w.now + 1)
    rw [h.ticks, UInt32.ofNat_add]
    rfl
  timed p hp := by
    obtain ⟨hc, hr, hb, hsort, hran⟩ := h.timed p hp
    refine ⟨hc, hr, Nat.le_succ_of_le hb, hsort, fun t ht => ?_⟩
    obtain ⟨h1, h2, -⟩ := hran t ht
    exact ⟨h1, Nat.le_succ_of_le h2, fun _ => Nat.lt_succ_of_le h2⟩
  ended p hp hp' hact := by
    obtain ⟨he, ho, hsh, hpast, hran⟩ := h.ended p hp hp' hact
    exact ⟨he, ho, hsh, Nat.le_succ_of_le hpast, hran⟩
  zombie := h.zombie
  fresh := h.fresh

theorem inv_count (h : Inv ⟨s, w⟩) (hs : s.tickslock = true)
    (hok : Punctual ⟨s, w⟩ (c, .updateStatistics)) :
    Inv ⟨{ s with k := updateStatistics s.k, tickslock := false },
      w.note s (c, .updateStatistics)⟩ := by
  have hproc := updateStatistics_proc s.k
  have hstate : ∀ p, ((updateStatistics s.k).proc p).state =
    (s.k.proc p).state := fun p => by rw [hproc]
  refine ⟨h.ticks, fun p hp => ?_, fun p hp hp' hact => ?_, fun p hp => ?_, h.fresh⟩
  · change ((updateStatistics s.k).proc p).state ≠ _ at hp
    rw [hstate] at hp
    obtain ⟨hc, hr, hb, hsort, hran⟩ := h.timed p hp
    change Timed _ false p ((updateStatistics s.k).proc p)
    rw [hproc]
    by_cases hrun : (s.k.proc p).state = .running
    · have hnew : (w.note s (c, .updateStatistics)).ran p = w.now :: w.ran p := if_pos hrun
      refine ⟨hc, ?_, hb, ?_, ?_⟩
      · dsimp only
        rw [hnew, if_pos hrun, hr, List.length_cons]
        rfl
      · rw [hnew]
        exact List.pairwise_cons.mpr ⟨fun t ht => (hran t ht).2.2 hs, hsort⟩
      · intro t ht
        rw [hnew, List.mem_cons] at ht
        rcases ht with rfl | ht
        · exact ⟨(hok p hrun).1, le_refl _, nofun⟩
        · exact ⟨(hran t ht).1, (hran t ht).2.1, nofun⟩
    · have hold : (w.note s (c, .updateStatistics)).ran p = w.ran p := if_neg hrun
      refine ⟨hc, ?_, hb, by rwa [hold], fun t ht => ?_⟩
      · dsimp only
        rw [hold, if_neg hrun, hr]
      · rw [hold] at ht
        exact ⟨(hran t ht).1, (hran t ht).2.1, nofun⟩
  · change ((updateStatistics s.k).proc p).state ≠ _ at hp hp'
    rw [hstate] at hp hp'
    obtain ⟨he, ho, hsh, hpast, hran⟩ := h.ended p hp hp' hact
    change Ended _ p ((updateStatistics s.k).proc p)
    rw [hproc]
    refine ⟨he, ho, hsh, hpast, fun t ht => ?_⟩
    by_cases hrun : (s.k.proc p).state = .running
    · rw [show (w.note s (c, .updateStatistics)).ran p =
        w.now :: w.ran p from if_pos hrun, List.mem_cons] at ht
      rcases ht with rfl | ht
      · exact (hok p hrun).2 hact
      · exact hran t ht
    · rw [show (w.note s (c, .updateStatistics)).ran p = w.ran p from if_neg hrun] at ht
      exact hran t ht
  · change ((updateStatistics s.k).proc p).state = _ at hp
    rw [hstate] at hp
    exact h.zombie p hp

/-- The child of a `fork` that has come this far had its stack before, or has a new thread. -/
theorem stacked_of_move (h : Move b s c a s') {p q : Slot}
    (hact : (s'.thread p).act = .stacked q ∨ (s'.thread p).act = .copied q) :
    ((s.thread p).act = .stacked q ∨ (s.thread p).act = .copied q) ∨ (s'.thread q).act = .user := by
  have hframe : ∀ (r : Slot) (f : Frame),
      (update s.thread r { s.thread r with frame := f } p).act = .stacked q ∨
      (update s.thread r { s.thread r with frame := f } p).act = .copied q →
      (s.thread p).act = .stacked q ∨ (s.thread p).act = .copied q := by
    intro r f h
    by_cases hp : p = r
    · rw [hp, Function.update_self] at h
      rwa [hp]
    · rwa [Function.update_of_ne hp] at h
  -- a process that goes on to an activity without a child
  have hset : ∀ {r : Slot} {x : Activity},
      ((s.setAct r x).thread p).act = .stacked q ∨ ((s.setAct r x).thread p).act = .copied q →
      x ≠ .stacked q → x ≠ .copied q → (s.thread p).act = .stacked q ∨
        (s.thread p).act = .copied q := by
    intro r x h h1 h2
    rw [setAct_act] at h
    split at h
    · exact absurd h (not_or.mpr ⟨h1, h2⟩)
    · exact h
  cases h with
  | acquire | goto | dispatch | finish | forkFull | kill | chprty | wakeup | tick
  | updateStatistics =>
    exact .inl hact
  | resume | woken | reap | waitFail | waitSleep | exit | yield | sleep =>
    exact .inl (hframe _ _ hact)
  | forkAlloc hr ha hlock hn => exact .inl (hset hact (by simp) (by simp))
  | @kallocOk r np hr ha =>
    by_cases hq : q = np
    · subst hq
      exact .inr (by simp [System.setThread])
    · by_cases hp : p = np
      · subst hp
        simp [System.setThread] at hact
      · have hne :
            (((s.setAct r (.stacked np)).setThread np fun _ => ⟨.user, .forked⟩).thread p).act =
            ((s.setAct r (.stacked np)).thread p).act := by simp [System.setThread, hp]
        dsimp only at hact
        rw [hne] at hact
        exact .inl (hset hact (fun h => hq (Activity.stacked.inj h).symm) (by simp))
  | kallocFail hr ha | forkDone hr ha | copyFail hr ha | stamp hr ha =>
    exact .inl (hset hact (by simp) (by simp))
  | @copyOk r np hr ha =>
    by_cases hq : q = np
    · subst hq
      by_cases hp : p = r
      · subst hp
        exact .inl (.inl ha)
      · dsimp only at hact
        rw [setAct_act, if_neg hp] at hact
        exact .inl hact
    · exact .inl (hset hact (by simp) (fun h => hq (Activity.copied.inj h).symm))

theorem times_of_marks {y : Proc} {m : Int × Bool × UInt32 × UInt32 × Int} (h : marks y = m) :
    y.ctime = m.2.2.1 ∧ y.etime = m.2.2.2.1 ∧ y.rtime = m.2.2.2.2 := by
  subst h
  exact ⟨rfl, rfl, rfl⟩

/-- What is true of a process stays true while its times and its history stay the same. -/
theorem Timed.keep {w' : Watch} {t : Bool} {x y : Proc} (h : Timed w t q x)
    (hm : y.ctime = x.ctime ∧ y.rtime = x.rtime) (hborn : w'.born q = w.born q)
    (hran : w'.ran q = w.ran q) (hnow : w'.now = w.now) : Timed w' t q y := by
  obtain ⟨hc, hr, hb, hs, ht⟩ := h
  refine ⟨?_, ?_, ?_, ?_, ?_⟩
  · rw [hm.1, hborn, hc]
  · rw [hm.2, hran, hr]
  · rwa [hborn, hnow]
  · rwa [hran]
  · rwa [hran, hborn, hnow]

theorem Ended.keep {w' : Watch} {x y : Proc} (h : Ended w q x) (hm : y.etime = x.etime)
    (hborn : w'.born q = w.born q) (hdied : w'.died q = w.died q) (hran : w'.ran q = w.ran q)
    (hnow : w'.now = w.now) : Ended w' q y := by
  obtain ⟨he, ho, hs, hp, ht⟩ := h
  refine ⟨?_, ?_, ?_, ?_, ?_⟩
  · rw [hm, hdied, he]
  · rwa [hborn, hdied]
  · rwa [hborn, hdied]
  · rwa [hdied, hnow]
  · rwa [hran, hdied]

theorem timed_other (h : Inv ⟨s, w⟩) {x y : Proc} (hx : s.k.proc q = x) (hc : Change s c q x y a)
    (ht : a ≠ .tick) (hu : a ≠ .updateStatistics) (hy : y.state ≠ .unused) :
    Timed (w.note s (c, a)) s.tickslock q y := by
  have hold : x.state ≠ .unused → Timed w s.tickslock q x := fun hxs => by
    subst hx
    exact h.timed q hxs
  have hnow := note_now (w := w) (s := s) (c := c) ht
  -- a slot that keeps its times, in a step that writes nothing about it
  have hkeep : ¬ Touches s c q a → y.ctime = x.ctime ∧ y.rtime = x.rtime → x.state ≠ .unused →
      Timed (w.note s (c, a)) s.tickslock q y := by
    intro ha htimes hxs
    obtain ⟨hb, -, hr⟩ := note_calm (w := w) ha
    exact (hold hxs).keep htimes hb hr hnow
  cases hc with
  | keep ha hmarks hstate =>
    obtain ⟨hct, -, hrt⟩ := times_of_marks hmarks
    refine hkeep ha ⟨hct, hrt⟩ ?_
    rcases hstate.imp_right alive_of_shifts with hst | ⟨hal, -⟩
    · rwa [← hst]
    · intro hxs
      rw [hxs] at hal
      cases hal
  | @alloc stray hxs hq hst hmarks =>
    obtain ⟨hct, -, hrt⟩ := times_of_marks hmarks
    have hnote : w.note s (c, .fork stray) =
        { w with born := update w.born q w.now, ran := update w.ran q [] } := by
      simp only [Watch.note, hq]
    have hborn : (w.note s (c, .fork stray)).born q = w.now := by
      rw [hnote]
      exact Function.update_self ..
    have hran : (w.note s (c, .fork stray)).ran q = [] := by
      rw [hnote]
      exact Function.update_self ..
    refine ⟨?_, ?_, ?_, ?_, ?_⟩
    · rw [hct, hborn]
      exact h.ticks
    · rw [hrt, hran]
      rfl
    · rw [hborn, hnow]
    · rw [hran]
      exact .nil
    · rw [hran]
      exact nofun
  | fail _ _ _ _ hst _ => exact absurd hst hy
  | start _ hxs _ hmarks | exit _ hxs _ hmarks =>
    obtain ⟨hct, -, hrt⟩ := times_of_marks hmarks
    exact hkeep id ⟨hct, hrt⟩ (by rw [hxs]; decide)
  | stamp hrun hst hmarks =>
    obtain ⟨hct, -, hrt⟩ := times_of_marks hmarks
    have hnote : w.note s (c, .stamp) = { w with died := update w.died q w.now } := by
      simp only [Watch.note, hrun]
    exact (hold (by rwa [← hst])).keep ⟨hct, hrt⟩ (by rw [hnote]) (by rw [hnote]) hnow
  | reap _ hst _ => exact absurd hst hy
  | kill hq hst hmarks =>
    obtain ⟨hct, -, hrt⟩ := times_of_marks hmarks
    refine hkeep id ⟨hct, hrt⟩ fun hxs => hy ?_
    rw [hst, hxs]
    rfl
  | count _ _ => exact absurd rfl hu

/-- A process records its end once. -/
theorem stamp_user (h : Move b s c .stamp s') (hrun : (s.cpu c).run = some q) :
    (s.thread q).act = .user := by
  cases h with
  | stamp hr ha _ =>
    obtain rfl := Option.some.inj (hr.1.symm.trans hrun)
    exact ha
  | reap _ hc _ | waitFail _ hc _ _ | waitSleep _ hc _ _ =>
    rcases hc with ⟨h, -⟩ | ⟨h, -⟩ <;> cases h

section

variable (h : Inv ⟨s, w⟩) (hmove : Move b s c a s')
  (hw : Wf s) (hok : Punctual ⟨s, w⟩ (c, a)) (ht : a ≠ .tick) (hu : a ≠ .updateStatistics)
include h hmove hw hok ht hu

/-- The end that a process records, and what it recorded before. -/
theorem ended_other (hy : (s'.k.proc q).state ≠ .unused) (hy' : (s'.k.proc q).state ≠ .embryo)
    (hact : (s'.thread q).act = .exiting) : Ended (w.note s (c, a)) q (s'.k.proc q) := by
  have hnow := note_now (w := w) (s := s) (c := c) ht
  have hchange := move_change hmove hw q
  rcases exiting_of_move hmove hact with hold | ⟨rfl, hrun⟩
  · have hkeep : ¬ Touches s c q a → (s'.k.proc q).etime = (s.k.proc q).etime →
        (s.k.proc q).state ≠ .unused →
        (s.k.proc q).state ≠ .embryo → Ended (w.note s (c, a)) q (s'.k.proc q) := by
      intro ha het h1 h2
      obtain ⟨hb, hd, hr⟩ := note_calm (w := w) ha
      exact (h.ended q h1 h2 hold).keep het hb hd hr hnow
    cases hchange with
    | keep ha hmarks hstate =>
      refine hkeep ha (times_of_marks hmarks).2.1 ?_ ?_ <;>
        rcases hstate.imp_right alive_of_shifts with hst | ⟨hal, -⟩
      · rwa [← hst]
      · intro hxs
        rw [hxs] at hal
        cases hal
      · rwa [← hst]
      · intro hxs
        rw [hxs] at hal
        cases hal
    | alloc _ _ hst _ => exact absurd hst hy'
    | fail _ _ _ _ hst _ | reap _ hst _ => exact absurd hst hy
    | start hc _ _ _ => exact absurd hold (h.fresh _ _ (.inr hc))
    | stamp hrun _ _ =>
      rw [stamp_user hmove hrun] at hold
      cases hold
    | exit _ hxs _ hmarks =>
      exact hkeep id (times_of_marks hmarks).2.1 (by rw [hxs]; decide) (by rw [hxs]; decide)
    | kill hq hst hmarks =>
      refine hkeep id (times_of_marks hmarks).2.1 (fun hxs => hy ?_)
        fun hxs => hy' ?_ <;> rw [hst, hxs] <;> rfl
    | count _ _ => exact absurd rfl hu
  · have hnote : w.note s (c, .stamp) = { w with died := update w.died q w.now } := by
      simp only [Watch.note, hrun]
    have hstate : (s.k.proc q).state = .running := (hw.runs c q hrun).1
    have hborn : (w.note s (c, .stamp)).born q = w.born q := by rw [hnote]
    have hdied : (w.note s (c, .stamp)).died q = w.now := by
      rw [hnote]
      exact Function.update_self ..
    have hran : (w.note s (c, .stamp)).ran q = w.ran q := by rw [hnote]
    have htimed := h.timed q (show (s.k.proc q).state ≠ .unused by rw [hstate]; decide)
    cases hchange with
    | keep ha _ _ => exact absurd hrun ha
    | fail ha _ _ _ _ _ => rcases ha with ha | ha <;> cases ha
    | stamp _ _ hmarks =>
      refine ⟨?_, ?_, ?_, ?_, ?_⟩
      · rw [(times_of_marks hmarks).2.1, hdied]
        exact h.ticks
      · rw [hborn, hdied]
        exact htimed.born
      · rw [hborn, hdied]
        exact hok q hrun
      · rw [hdied, hnow]
      · rw [hran, hdied]
        exact fun t ht => (htimed.ran t ht).2.1
    | reap hxs _ _ =>
      rw [hstate] at hxs
      cases hxs

theorem inv_other : Inv ⟨s', w.note s (c, a)⟩ := by
  obtain ⟨hlock, hticks⟩ := move_clock hmove ht hu
  have hchange := move_change hmove hw
  refine ⟨?_, fun q hq => ?_,
    fun q hq hq' hact => ended_other h hmove hw hok ht hu hq hq' hact, fun q hq => ?_,
    fun p q hpq hact => ?_⟩
  · change s'.k.ticks = UInt32.ofNat (w.note s (c, a)).now
    rw [hticks, note_now ht]
    exact h.ticks
  · change Timed _ s'.tickslock q _
    rw [hlock]
    exact timed_other h rfl (hchange q) ht hu hq
  · -- a ZOMBIE came from `exit`, or was one
    have hold : (s.k.proc q).state = .zombie → (s'.thread q).act = .exiting := fun hz =>
      move_exiting hmove hw (h.zombie q hz) (by rw [hz]; decide)
    change (s'.k.proc q).state = .zombie at hq
    cases hchange q with
    | keep _ _ hstate =>
      rcases hstate.imp_right alive_of_shifts with hst | ⟨-, hal⟩
      · exact hold (hst.symm.trans hq)
      · rw [hq] at hal
        cases hal
    | alloc _ _ hst _ | fail _ _ _ _ hst _ | start _ _ hst _ | reap _ hst _ =>
      rw [hst] at hq
      cases hq
    | stamp _ hst _ | count hst _ => exact hold (hst.symm.trans hq)
    | exit hact hx _ _ => exact move_exiting hmove hw hact (by rw [hx]; decide)
    | kill _ hst _ =>
      rw [hq] at hst
      split at hst
      next => cases hst
      next => exact hold hst.symm
  · rcases stacked_of_move hmove hpq with hpq | huser
    · rcases exiting_of_move hmove hact with hold | ⟨-, hrun⟩
      · exact h.fresh p q hpq hold
      · have hembryo : (s.k.proc q).state = .embryo :=
          hw.embryo p q (by rcases hpq with hp | hp <;> rw [hp] <;> rfl)
        rw [(hw.runs c q hrun).1] at hembryo
        cases hembryo
    · rw [huser] at hact
      cases hact

end

theorem inv_step {x y : Watched n} (hw : Wf x.sys) (h : Inv x) (hok : Punctual x (c, a))
    (hs : watchedStep b x (c, a) = some y) : Inv y := by
  obtain ⟨s', hstep, rfl⟩ := Option.map_eq_some_iff.mp hs
  by_cases ht : a = .tick
  · subst ht
    obtain rfl := tick_clock hstep
    exact inv_tick h
  · by_cases hu : a = .updateStatistics
    · subst hu
      obtain ⟨hlock, rfl⟩ := count_clock hstep
      exact inv_count h hlock hok
    · exact inv_other h (step_move hstep) hw hok ht hu

end Step

/-! ## Every run -/

theorem inv_boot : Inv (bootWatched n) := by
  have hproc : ∀ q : Slot, (boot.proc q).ctime = 0 ∧ (boot.proc q).rtime = 0 ∧
    (boot.proc q).state ≠ .zombie := by decide
  refine ⟨rfl,
    fun q _ => ⟨(hproc q).1, (hproc q).2.1, le_refl _, .nil, nofun⟩, fun q _ _ hact => ?_,
    fun q hq => absurd hq (hproc q).2.2, fun p q hpq => ?_⟩
  · cases hact
  · rcases hpq with h | h <;> cases h

theorem watchedStep_sys (x : Watched n) (a : Fin n × Action) :
    (watchedStep b x a).map Watched.sys = step b x.sys a := by
  simp [watchedStep, Function.comp_def]

/-- In a run in which every timer interrupt counts before a process is created or has recorded
its end, `waitx` reports the right times of every ZOMBIE. -/
theorem waitx_times_right {x : Watched n}
    (h : Runs.Reaches (watchedStep b) Punctual (bootWatched n) x) {p : Slot}
    (hp : (x.sys.k.proc p).state = .zombie) : TimesRight x.watch p (x.sys.k.proc p) := by
  have hinv : Inv x := h.invariant_of (P := Inv)
    (fun _ hr => wf_reachable (hr.forget Watched.sys watchedStep_sys)) inv_boot
    fun _ _ _ hw hi hok hs => inv_step hw hi hok hs
  have h1 : (x.sys.k.proc p).state ≠ .unused := by rw [hp]; decide
  have h2 : (x.sys.k.proc p).state ≠ .embryo := by rw [hp]; decide
  exact (hinv.timed p h1).right (hinv.ended p h1 h2 (hinv.zombie p hp))

instance (x : Watched n) (ca : Fin n × Action) : Decidable (Punctual x ca) :=
  match ca with
  | (_, .updateStatistics) => inferInstanceAs (Decidable (∀ p, (x.sys.k.proc p).state = .running →
      x.watch.born p < x.watch.now ∧
        ((x.sys.thread p).act = .exiting → x.watch.now ≤ x.watch.died p)))
  | (c, .stamp) =>
    inferInstanceAs (Decidable (∀ p ∈ (x.sys.cpu c).run, x.watch.now - x.watch.born p < 2 ^ 31))
  | (_, .sched) | (_, .resume) | (_, .fork _) | (_, .kalloc _) | (_, .copyuvm _) | (_, .forkDone)
  | (_, .exit) | (_, .wait) | (_, .yield) | (_, .sleep _) | (_, .wakeup _)
    | (_, .kill _) | (_, .chprty _ _)
  | (_, .tick) => isTrue trivial

/-- Init forks a child and waits for it, and the child runs. -/
def childRuns : List (Fin 1 × Action) :=
  initRuns ++ forking ++ [(0, .forkDone), (0, .wait), (0, .sched), (0, .sched), (0, .resume)]

/-- A timer interrupt in a process. -/
def interrupt : List (Fin 1 × Action) := [(0, .tick), (0, .updateStatistics), (0, .yield)]

/-- The scheduler goes once around the table and comes back to the only process. -/
def dispatchAgain : List (Fin 1 × Action) := List.replicate 67 (0, .sched) ++ [(0, .resume)]

/-- The child runs for a tick and exits. -/
theorem waitx_times_right_child : ∃ x : Watched 1,
    Runs.execIf (watchedStep .dflt) Punctual
      (childRuns ++ interrupt ++ dispatchAgain ++ [(0, .stamp), (0, .exit)])
      (bootWatched 1) = some x ∧ (x.sys.k.proc 1).state = .zombie ∧
      TimesRight x.watch 1 (x.sys.k.proc 1) := by
  have hexec : (Runs.execIf (watchedStep .dflt) Punctual
      (childRuns ++ interrupt ++ dispatchAgain ++ [(0, .stamp), (0, .exit)]) (bootWatched 1)).map
        (fun x => (x.sys.k.proc 1).state) = some .zombie := by decide +kernel
  obtain ⟨x, hx, hz⟩ := Option.map_eq_some_iff.mp hexec
  exact ⟨x, hx, hz, waitx_times_right (Runs.reaches_of_execIf hx) hz⟩

/-- The timer interrupts the child after it has recorded its end and before it is a ZOMBIE:
`waitx` reports a negative waiting time. -/
theorem waitx_wtime_negative :
    ∃ x : Watched 1, Runs.Reachable (watchedStep .dflt) (bootWatched 1) x ∧
    (x.sys.k.proc 1).state = .zombie ∧ waitxTimes (x.sys.k.proc 1) = (-1, 1) ∧
    x.watch.lifetime 1 = [] :=
  Runs.exists_of_exec
    (l := childRuns ++ [(0, .stamp)] ++ interrupt ++ dispatchAgain ++ [(0, .exit)])
    (by decide +kernel)

end Xv6.TimeAccounting
