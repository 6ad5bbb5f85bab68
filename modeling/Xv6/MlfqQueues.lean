import Xv6.IndexBounds

/-!
# The queues of the MLFQ scheduler

On one CPU, every process is in exactly one place of one queue, the queue that
`pstat_var.current_queue` records, as long as every slot that `allocproc` takes
comes to life, nobody is reaped, and the starvation pass deletes the entry of the
process that it moves. The queues are followed as lists of slots.
-/
namespace Xv6.MlfqQueues

open Function (update update_self update_of_ne)
open ProcTable Scheduler ProcSystem RunState StateChange SlotChange Parents
open IndexBounds (PidsOk pidsOk allocproc_found sound_reaches)
open ShiftQueue (Holds)

/-- The arrays hold the queues `Q`, and a queue consists of the slots in use that are
recorded in it. -/
structure Queued (k : Kernel) (Q : Nat → List Slot) : Prop where
  holds : ∀ q, q < 5 → Holds (k.qxj q) (k.cxj q) ((Q q).map .proc)
  nodup : ∀ q, q < 5 → (Q q).Nodup
  mem : ∀ q, q < 5 → ∀ p, p ∈ Q q ↔
    (k.proc p).state ≠ .unused ∧ k.pstat.currentQueue (k.proc p).pid = q
  range : ∀ p, (k.proc p).state ≠ .unused → k.pstat.currentQueue (k.proc p).pid < 5

/-- Slots in use have different pids. -/
def PidsInj (k : Kernel) : Prop :=
  ∀ p q, (k.proc p).state ≠ .unused → (k.proc q).state ≠ .unused →
    (k.proc p).pid = (k.proc q).pid → p = q

section Kernel

variable {k k' : Kernel} {Q : Nat → List Slot} {p : Slot}

/-- The queues do not notice changes of state that free no slot and take none. -/
theorem Queued.congr (hq : Queued k Q)
    (hproc : ∀ p, ((k'.proc p).state ≠ .unused ↔ (k.proc p).state ≠ .unused) ∧
      (k'.proc p).pid = (k.proc p).pid)
    (hc : k'.cxj = k.cxj) (hx : k'.qxj = k.qxj)
    (hs : k'.pstat.currentQueue = k.pstat.currentQueue) : Queued k' Q := by
  constructor
  · intro q hlt
    rw [hc, hx]
    exact hq.holds q hlt
  · exact hq.nodup
  · intro q hlt p
    rw [hq.mem q hlt p, (hproc p).1, (hproc p).2, hs]
  · intro p hp
    rw [(hproc p).2, hs]
    exact hq.range p ((hproc p).1.mp hp)

/-- An entry in use is the slot at that place of the list. -/
theorem Queued.entry (hq : Queued k Q) {q : Nat} (hlt : q < 5) {j : Int} (h₀ : 0 ≤ j)
    (hj : j ≤ k.cxj q) : ∃ p, (Q q)[j.toNat]? = some p ∧ k.qxj q j = .proc p := by
  obtain ⟨hi, he⟩ := (hq.holds q hlt).get h₀ hj
  rw [List.length_map] at hi
  refine ⟨(Q q)[j.toNat], List.getElem?_eq_getElem hi, ?_⟩
  rw [he, List.getElem_map]

theorem Queued.cxj (hq : Queued k Q) {q : Nat} (hlt : q < 5) : k.cxj q + 1 = (Q q).length := by
  have := (hq.holds q hlt).last_eq
  rwa [List.length_map] at this

theorem Queued.allocFound (hq : Queued k Q) (hp : (k.proc p).state = .unused)
    (hpid : PidsOk k) : Queued (allocFound k p) (update Q 0 (Q 0 ++ [p])) := by
  -- The pid that is given out is new.
  have hold : ∀ x, x ≠ p → (k.proc x).state ≠ .unused →
      update k.pstat.currentQueue k.nextpid 0 (k.proc x).pid =
        k.pstat.currentQueue (k.proc x).pid := by
    intro x _ hx
    have := (hpid x hx).2
    exact update_of_ne (by omega) _ _
  have hother : ∀ x, x ≠ p → (ProcTable.allocFound k p).proc x = k.proc x := by
    intro x hx
    simp [hx]
  have hself : ((ProcTable.allocFound k p).proc p).state = .embryo ∧
      ((ProcTable.allocFound k p).proc p).pid = k.nextpid := by
    simp
  have hrec : ∀ x, (ProcTable.allocFound k p).pstat.currentQueue x =
      update k.pstat.currentQueue k.nextpid 0 x := fun _ => rfl
  have hnot : ∀ q, q < 5 → p ∉ Q q := fun q hlt h => ((hq.mem q hlt p).mp h).1 hp
  constructor
  case holds =>
    intro q hlt
    show Holds (update k.qxj 0 (update (k.qxj 0) (k.cxj 0 + 1) (.proc p)) q)
      (update k.cxj 0 (k.cxj 0 + 1) q) _
    by_cases h₀ : q = 0
    · subst h₀
      simp only [update_self, List.map_append, List.map_cons, List.map_nil]
      exact (hq.holds 0 hlt).push _
    · simp only [update_of_ne h₀]
      exact hq.holds q hlt
  case nodup =>
    intro q hlt
    by_cases h₀ : q = 0
    · subst h₀
      rw [update_self]
      exact (hq.nodup 0 hlt).append (List.nodup_singleton p) (by simpa using hnot 0 hlt)
    · rw [update_of_ne h₀]
      exact hq.nodup q hlt
  case mem =>
    intro q hlt x
    by_cases hx : x = p
    · subst hx
      rw [hself.1, hself.2, hrec, update_self]
      by_cases h₀ : q = 0
      · subst h₀
        simp
      · rw [update_of_ne h₀]
        have hne : ¬ 0 = q := fun h => h₀ h.symm
        simp [hnot q hlt, hne]
    · have hiff : x ∈ update Q 0 (Q 0 ++ [p]) q ↔ x ∈ Q q := by
        by_cases h₀ : q = 0
        · subst h₀
          simp [hx]
        · rw [update_of_ne h₀]
      rw [hiff, hother x hx, hrec, hq.mem q hlt x]
      refine and_congr_right fun hu => ?_
      rw [hold x hx hu]
  case range =>
    intro x hx
    by_cases he : x = p
    · subst he
      rw [hself.2, hrec, update_self]
      omega
    · rw [hother x he] at hx ⊢
      rw [hrec, hold x he hx]
      exact hq.range x hx

/-- Deleting the place of `p` from a list without repetitions. -/
theorem mem_eraseIdx_of_nodup {l : List Slot} (hl : l.Nodup) {i : Nat} (hi : l[i]? = some p)
    (x : Slot) : x ∈ l.eraseIdx i ↔ x ≠ p ∧ x ∈ l := by
  obtain ⟨hlt, rfl⟩ := List.getElem?_eq_some_iff.mp hi
  rw [← hl.erase_getElem i hlt]
  exact hl.mem_erase_iff

/-- The arrays after `p` has entered queue `u` and an entry of queue `t` has been deleted. -/
theorem holds_moveQueue (hq : ∀ q, q < 5 → Holds (k.qxj q) (k.cxj q) ((Q q).map .proc))
    {t u : Nat} (htu : t ≠ u) {i : Int} (hne : 0 ≤ k.cxj t) (q : Nat) (hlt : q < 5) :
    Holds ((moveQueue k t u i p).qxj q) ((moveQueue k t u i p).cxj q)
      ((update (update Q u (Q u ++ [p])) t
        ((Q t).eraseIdx (min i (k.cxj t)).toNat) q).map .proc) := by
  show Holds
    (update (update k.qxj u (update (k.qxj u) (k.cxj u + 1) (.proc p))) t
      (ShiftQueue.close (update k.qxj u (update (k.qxj u) (k.cxj u + 1) (.proc p)) t)
        (update k.cxj u (k.cxj u + 1) t) i .null .null) q)
    (update (update k.cxj u (k.cxj u + 1)) t (update k.cxj u (k.cxj u + 1) t - 1) q) _
  rw [update_of_ne htu, update_of_ne htu]
  by_cases h₁ : q = t
  · subst h₁
    simp only [update_self]
    rw [← List.eraseIdx_map]
    exact (hq q hlt).delete hne _ _
  · simp only [update_of_ne h₁]
    by_cases h₂ : q = u
    · subst h₂
      simp only [update_self, List.map_append, List.map_cons, List.map_nil]
      exact (hq q hlt).push _
    · simp only [update_of_ne h₂]
      exact hq q hlt

/-- `p` moves from its place in queue `t` to the end of queue `u`. -/
theorem Queued.moveQueue (hq : Queued k Q) (hinj : PidsInj k) {t u : Nat} (ht : t < 5)
    (hu : u < 5) (htu : t ≠ u) (hp : (k.proc p).state ≠ .unused) {i : Int}
    (hne : 0 ≤ k.cxj t) (hi : (Q t)[(min i (k.cxj t)).toNat]? = some p) :
    Queued (moveQueue k t u i p)
      (update (update Q u (Q u ++ [p])) t ((Q t).eraseIdx (min i (k.cxj t)).toNat)) := by
  have hnt := hq.nodup t ht
  have hpt : p ∈ Q t := List.mem_of_getElem? hi
  have hrec : k.pstat.currentQueue (k.proc p).pid = t := ((hq.mem t ht p).mp hpt).2
  have hpu : p ∉ Q u := fun h => htu (hrec.symm.trans ((hq.mem u hu p).mp h).2)
  have hold : ∀ x, x ≠ p → (k.proc x).state ≠ .unused →
      update k.pstat.currentQueue (k.proc p).pid u (k.proc x).pid =
        k.pstat.currentQueue (k.proc x).pid :=
    fun x hx hs => update_of_ne (fun h => hx (hinj x p hs hp h)) _ _
  constructor
  case holds => exact holds_moveQueue hq.holds htu hne
  case nodup =>
    intro q hlt
    by_cases h₁ : q = t
    · subst h₁
      rw [update_self]
      exact hnt.sublist (List.eraseIdx_sublist _ _)
    · rw [update_of_ne h₁]
      by_cases h₂ : q = u
      · subst h₂
        rw [update_self]
        exact (hq.nodup q hlt).append (List.nodup_singleton p) (by simpa using hpu)
      · rw [update_of_ne h₂]
        exact hq.nodup q hlt
  case mem =>
    intro q hlt x
    show _ ↔ (k.proc x).state ≠ .unused ∧
      update k.pstat.currentQueue (k.proc p).pid u (k.proc x).pid = q
    by_cases hx : x = p
    · subst hx
      rw [update_self]
      by_cases h₁ : q = t
      · subst h₁
        rw [update_self, mem_eraseIdx_of_nodup hnt hi]
        simp [Ne.symm htu]
      · rw [update_of_ne h₁]
        by_cases h₂ : q = u
        · subst h₂
          simp [hp]
        · rw [update_of_ne h₂, hq.mem q hlt, hrec]
          simp [Ne.symm h₁, Ne.symm h₂]
    · have hiff : x ∈ update (update Q u (Q u ++ [p])) t
          ((Q t).eraseIdx (min i (k.cxj t)).toNat) q ↔ x ∈ Q q := by
        by_cases h₁ : q = t
        · subst h₁
          rw [update_self, mem_eraseIdx_of_nodup hnt hi]
          simp [hx]
        · rw [update_of_ne h₁]
          by_cases h₂ : q = u
          · subst h₂
            simp [hx]
          · rw [update_of_ne h₂]
      rw [hiff, hq.mem q hlt x]
      refine and_congr_right fun hs => ?_
      rw [hold x hx hs]
  case range =>
    intro x hx
    show update k.pstat.currentQueue (k.proc p).pid u (k.proc x).pid < 5
    by_cases he : x = p
    · subst he
      rw [update_self]
      exact hu
    · rw [hold x he hx]
      exact hq.range x hx

/-- `p` moves from its place in the last queue to the end of it. -/
theorem Queued.lastReturn (hq : Queued k Q) {i : Nat} (hi : (Q 4)[i]? = some p) :
    Queued (lastReturn k i p) (update Q 4 ((Q 4).eraseIdx i ++ [p])) := by
  obtain ⟨hlt, he⟩ := List.getElem?_eq_some_iff.mp hi
  have hmem : ∀ x, x ∈ (Q 4).eraseIdx i ++ [p] ↔ x ∈ Q 4 := by
    intro x
    rw [List.mem_append, mem_eraseIdx_of_nodup (hq.nodup 4 (by omega)) hi, List.mem_singleton]
    by_cases hx : x = p
    · simpa [hx] using List.mem_of_getElem? hi
    · simp [hx]
  constructor
  case holds =>
    intro q h5
    show Holds (update k.qxj 4 (ShiftQueue.close (k.qxj 4) (k.cxj 4) i .null (.proc p)) q)
      (k.cxj q) _
    by_cases h₄ : q = 4
    · subst h₄
      simp only [update_self, List.map_append, List.map_cons, List.map_nil]
      rw [← List.eraseIdx_map]
      exact (hq.holds 4 h5).rotate (by simpa using hlt) _ _
    · simp only [update_of_ne h₄]
      exact hq.holds q h5
  case nodup =>
    intro q h5
    by_cases h₄ : q = 4
    · subst h₄
      rw [update_self]
      refine ((hq.nodup 4 h5).sublist (List.eraseIdx_sublist _ _)).append
        (List.nodup_singleton p) ?_
      simp [mem_eraseIdx_of_nodup (hq.nodup 4 h5) hi]
    · rw [update_of_ne h₄]
      exact hq.nodup q h5
  case mem =>
    intro q h5 x
    show _ ↔ (k.proc x).state ≠ .unused ∧ k.pstat.currentQueue (k.proc x).pid = q
    rw [← hq.mem q h5 x]
    by_cases h₄ : q = 4
    · subst h₄
      rw [update_self]
      exact hmem x
    · rw [update_of_ne h₄]
  case range => exact hq.range

end Kernel

/-- Where a process that the scheduler runs, or has just run, stands in its queue. -/
def PcAt (Q : Nat → List Slot) : SchedPc → Prop
  | .starve t _ => 1 ≤ t
  | .levelBack t i p => t < 4 ∧ (Q t)[i]? = some p
  | .lastBack i p => (Q 4)[i]? = some p
  | _ => True

/-- The entry that the starvation pass deletes belongs to the process that it moves. -/
def OwnEntry (k : Kernel) : SchedPc → Prop
  | .starve t i => ∀ p ∈ slotAt i, starving k t p →
    k.qxj t (min (k.proc p).pid (k.cxj t)) = .proc p
  | _ => True

instance (k : Kernel) : ∀ pc, Decidable (OwnEntry k pc)
  | .starve t i => inferInstanceAs (Decidable (∀ p ∈ slotAt i, starving k t p →
    k.qxj t (min (k.proc p).pid (k.cxj t)) = .proc p))
  | .idle | .scan _ | .back _ | .level _ _ | .levelBack _ _ _ | .last _ | .lastBack _ _ | .wild =>
    .isTrue trivial

section Sched

variable {k k' : Kernel} {Q : Nat → List Slot} {pc pc' : SchedPc} {p : Slot}

theorem Queued.starvePass (hq : Queued k Q) (hinj : PidsInj k) (hpid : PidsOk k) {t : Nat}
    (h₁ : 1 ≤ t) (ht : t < 5) (hown : OwnEntry k (.starve t p)) :
    ∃ Q', Queued (starvePass k t p) Q' := by
  unfold Scheduler.starvePass
  split
  next => exact ⟨Q, hq⟩
  next hr =>
    have hp : (k.proc p).state ≠ .unused := by
      intro he
      exact hr (by simp [he])
    split
    next hs =>
      have hin : p ∈ Q t := (hq.mem t ht p).mpr ⟨hp, hs.2.1⟩
      have hlen : k.cxj t + 1 = (Q t).length := hq.cxj ht
      have hpos : 0 < (Q t).length := List.length_pos_of_mem hin
      have hpos' := (hpid p hp).1
      have h₀ : 0 ≤ min (k.proc p).pid (k.cxj t) := by omega
      obtain ⟨x, hx, he⟩ := hq.entry ht h₀ (by omega)
      obtain rfl : x = p := by
        have := (hown p (slotAt_val p) hs).symm.trans he
        exact (Entry.proc.inj this).symm
      exact ⟨_, (hq.moveQueue hinj ht (u := t - 1) (by omega) (by omega) hp (by omega)
        hx).congr (fun _ => ⟨Iff.rfl, rfl⟩) rfl rfl rfl⟩
    next => exact ⟨Q, hq.congr (fun _ => ⟨Iff.rfl, rfl⟩) rfl rfl rfl⟩

theorem Queued.levelReturn (hq : Queued k Q) (hinj : PidsInj k)
    (hp : (k.proc p).state ≠ .unused) {t i : Nat} (ht : t < 4) (hi : (Q t)[i]? = some p) :
    ∃ Q', Queued (levelReturn k t i p) Q' := by
  have hnote : Queued (noteTicks k t p) Q := hq.congr (fun _ => ⟨Iff.rfl, rfl⟩) rfl rfl rfl
  unfold Scheduler.levelReturn
  simp only
  split
  next =>
    have hlen : k.cxj t + 1 = (Q t).length := hq.cxj (by omega)
    obtain ⟨hlt, -⟩ := List.getElem?_eq_some_iff.mp hi
    have hmin : (min (i : Int) (k.cxj t)).toNat = i := by omega
    exact ⟨_, hnote.moveQueue hinj (by omega) (u := t + 1) (by omega) (by omega) hp
      (show 0 ≤ k.cxj t by omega) (show (Q t)[(min (i : Int) (k.cxj t)).toNat]? = some p by
        rw [hmin]; exact hi)⟩
  next => exact ⟨Q, hnote⟩

theorem Queued.goto (hq : Queued k Q) (h : Goto k pc k' pc') (hinj : PidsInj k)
    (hpid : PidsOk k) (hpc : PcAt Q pc)
    (hback : ∀ p, returned pc = some p → (k.proc p).state ≠ .unused) (hown : OwnEntry k pc) :
    ∃ Q', Queued k' Q' ∧ PcAt Q' pc' := by
  have hindex : ∀ i, Queued (k.index i) Q :=
    fun _ => hq.congr (fun _ => ⟨Iff.rfl, rfl⟩) rfl rfl rfl
  cases h with
  | scan | back | wild | starveEnd | levelNext | levelEnd => exact ⟨Q, hq, trivial⟩
  | starve t p ht =>
    obtain ⟨Q', hq'⟩ := hq.starvePass hinj hpid hpc ht hown
    exact ⟨Q', hq', hpc⟩
  | starveNext t p ht => exact ⟨Q, hq, Nat.le_add_left 1 t⟩
  | skip _ i | fault _ i | lastSkip i | lastFault i => exact ⟨Q, hindex i, trivial⟩
  | levelBack t i p =>
    obtain ⟨Q', hq'⟩ := hq.levelReturn hinj (hback p rfl) hpc.1 hpc.2
    exact ⟨Q', hq', trivial⟩
  | lastBack i p => exact ⟨_, hq.lastReturn hpc, trivial⟩

theorem Queued.setState (hq : Queued k Q) (p : Slot) (st : ProcState)
    (hp : (k.proc p).state ≠ .unused) (hst : st ≠ .unused) : Queued (k.setState p st) Q := by
  refine hq.congr (fun x => ?_) rfl rfl rfl
  by_cases hx : x = p
  · subst hx
    simp [hp, hst]
  · simp [hx]

theorem Queued.dispatch (hq : Queued k Q) (h : Dispatch k pc k' p pc') :
    Queued k' Q ∧ PcAt Q pc' := by
  have hstart : ∀ {i : Nat}, (k.proc p).state = .runnable → Queued (startRun k i p) Q :=
    fun hp => (hq.setState p .running (by simp [hp]) (by simp)).congr
      (fun _ => ⟨Iff.rfl, rfl⟩) rfl rfl rfl
  have hplace : ∀ {t i : Nat}, t < 5 → (i : Int) ≤ k.cxj t → k.qxj t i = .proc p →
      (Q t)[i]? = some p := by
    intro t i ht hi he
    obtain ⟨x, hx, he'⟩ := hq.entry ht (by omega : (0 : Int) ≤ i) hi
    obtain rfl := Entry.proc.inj (he.symm.trans he')
    exact hx
  cases h with
  | scan i p r hp =>
    exact ⟨(hq.setState p .running (by simp [hp]) (by simp)).congr
      (fun _ => ⟨Iff.rfl, rfl⟩) rfl rfl rfl, trivial⟩
  | level t i p ht hi he hp => exact ⟨hstart hp, ht, hplace (by omega) hi he⟩
  | last i p hi he hp => exact ⟨hstart hp, hplace (by omega) hi he⟩

end Sched

variable {b : Build} {s s' : System 1} {c : Fin 1} {a : Action}

/-- The condition on the steps of a run. `allocproc` is entered with at most 62 pids
given out, and the slot that it takes gets its stack and its memory; `wait` and
`waitx` find no ZOMBIE child; a process that the starvation pass moves stands where
the pass deletes. -/
def Orderly (s : System 1) : Fin 1 × Action → Prop
  | (_, .fork _) => s.k.nextpid ≤ 63
  | (_, .kalloc ok) => ok = true
  | (_, .copyuvm ok) => ok = true
  | (c, .wait) => ∀ p ∈ (s.cpu c).run, findZombie s.k p = none
  | (c, .resume) => ∀ p ∈ (s.cpu c).run, (s.thread p).frame = .waited → findZombie s.k p = none
  | (c, .sched) => (s.cpu c).run = none → OwnEntry s.k (s.cpu c).pc
  | _ => True

instance (s : System 1) : ∀ x, Decidable (Orderly s x)
  | (_, .fork _) => inferInstanceAs (Decidable (_ ≤ _))
  | (_, .kalloc _) | (_, .copyuvm _) => inferInstanceAs (Decidable (_ = _))
  | (c, .wait) => inferInstanceAs (Decidable (∀ p ∈ (s.cpu c).run, findZombie s.k p = none))
  | (c, .resume) => inferInstanceAs (Decidable (∀ p ∈ (s.cpu c).run,
    (s.thread p).frame = .waited → findZombie s.k p = none))
  | (_, .sched) => inferInstanceAs (Decidable (_ → _))
  | (_, .forkDone) | (_, .stamp) | (_, .exit) | (_, .yield) | (_, .sleep _) | (_, .wakeup _)
  | (_, .kill _) | (_, .chprty _ _) | (_, .tick) | (_, .updateStatistics) => .isTrue trivial

def Inv (s : System 1) : Prop := ∃ Q, Queued s.k Q ∧ PcAt Q (s.cpu 0).pc

/-- A new entry at the end of the first queue leaves every place as it is. -/
theorem pcAt_append {Q : Nat → List Slot} {pc : SchedPc} (h : PcAt Q pc) (p : Slot) :
    PcAt (update Q 0 (Q 0 ++ [p])) pc := by
  cases pc with
  | levelBack t i x =>
    refine ⟨h.1, ?_⟩
    by_cases h₀ : t = 0
    · subst h₀
      obtain ⟨hlt, -⟩ := List.getElem?_eq_some_iff.mp h.2
      rw [update_self, List.getElem?_append_left hlt]
      exact h.2
    · rw [update_of_ne h₀]
      exact h.2
  | lastBack i x => simpa [PcAt] using h
  | _ => exact h

/-- The condition on a call of `wait` says that it returns nobody. -/
theorem Orderly.no_zombie {p z : Slot} {k : Kernel} (hok : Orderly s (c, a))
    (hrun : (s.cpu c).run = some p) (hc : WaitCall s a p k) : findZombie k p ≠ some z := by
  intro hz
  obtain ⟨hparent, hstate⟩ := findZombie_some hz
  rw [hc.field Proc.parent fun _ => rfl] at hparent
  rw [hc.field Proc.state fun _ => rfl] at hstate
  have hnone : findZombie s.k p = none := by
    rcases hc with ⟨rfl, -⟩ | ⟨rfl, hf, -⟩
    · exact hok p hrun
    · exact hok p hrun hf
  exact findZombie_none.mp hnone z hparent hstate

/-- A step that meets the condition frees no slot, and takes one only in `fork`. -/
theorem Orderly.used_iff (hok : Orderly s (c, a)) (hm : Move b s c a s') (hw : Wf s)
    (ha : ∀ stray, a ≠ .fork stray) (q : Slot) :
    ((s'.k.proc q).state ≠ .unused ↔ (s.k.proc q).state ≠ .unused) ∧
    (s'.k.proc q).pid = (s.k.proc q).pid := by
  cases move_change hm hw q with
  | keep _ hmarks hstate =>
    refine ⟨?_, congrArg Prod.fst hmarks⟩
    rcases hstate with hst | hst
    · rw [hst]
    · obtain ⟨hx, hy⟩ := alive_of_shifts hst
      exact iff_of_true (fun h => by rw [h] at hy; cases hy) fun h => by rw [h] at hx; cases hx
  | alloc => exact absurd rfl (ha _)
  | fail ha => rcases ha with rfl | rfl <;> cases hok
  | start _ hx hst hmarks | exit _ hx hst hmarks =>
    exact ⟨by rw [hx, hst]; decide, congrArg Prod.fst hmarks⟩
  | stamp _ hst hmarks | count hst hmarks => exact ⟨by rw [hst], congrArg Prod.fst hmarks⟩
  | reap hx hst =>
    rcases move_zombie hm hw hx with ⟨_, _, _, he⟩ | ⟨p, k, hrun, hc, hz⟩
    · rw [he] at hst
      cases hx.symm.trans hst
    · exact absurd hz (hok.no_zombie hrun hc)
  | kill _ hst hmarks =>
    refine ⟨?_, congrArg Prod.fst hmarks⟩
    rw [hst]
    split
    next hx => rw [hx]; decide
    next => rfl

/-- Every step that meets the condition keeps the queues exact. -/
theorem step_inv (hs : step b s (c, a) = some s') (hw : Wf s) (hback : Back s)
    (hf : Family.Inv 0 (family s)) (hi : Inv s) (hok : Orderly s (c, a)) : Inv s' := by
  obtain rfl : c = 0 := Subsingleton.elim c 0
  have hpid := pidsOk hf
  have hinj : PidsInj s.k := fun p q hp hq he =>
    hf.numbered.inj p q (fun h => hp (phaseOf_free.mp h)) (fun h => hq (phaseOf_free.mp h)) he
  obtain ⟨Q, hq, hat⟩ := hi
  rcases step_cases hs with ⟨rfl, hrun, hsched⟩ | ⟨stray, rfl, hk, hcpu⟩ | ⟨ha, hcalm⟩
  · cases hsched with
    | acquire hpc hk hcpu =>
      rw [Inv, hk, hcpu, update_self]
      exact ⟨Q, hq, by cases b <;> simp [entryPc, PcAt]⟩
    | goto hpc hstep =>
      have hused : ∀ p, returned (s.cpu 0).pc = some p → (s.k.proc p).state ≠ .unused :=
        fun p hp => (hback 0 p hrun ((hw.sched 0 hrun).trans hp)).1
      exact hq.goto (goto_of_step hstep) hinj hpid hat hused (hok hrun)
    | dispatch hpc hstep => exact ⟨Q, hq.dispatch (dispatch_of_step hstep)⟩
    | finish hpc hstep hcpu =>
      rw [Inv, finish_of_step hstep, hcpu, update_self]
      exact ⟨Q, hq, trivial⟩
  · have hfit : s.k.nextpid ≤ 63 := hok
    obtain ⟨np, hn⟩ := allocproc_found hf (hfit.trans (by decide)) stray
    obtain ⟨hfree, hnew⟩ := allocproc_some hn
    rw [Inv, hk, hcpu, hnew]
    exact ⟨_, hq.allocFound hfree hpid, pcAt_append hat np⟩
  · rw [Inv, hcalm.pc]
    exact ⟨Q,
      hq.congr (hok.used_iff (step_move hs) hw ha.2) hcalm.cxj hcalm.qxj (by rw [hcalm.pstat]), hat⟩

/-- Every slot in use occurs exactly once in the used part of the queues, in the
queue recorded for it, and every used entry is a slot in use. -/
def QueuesExact (k : Kernel) : Prop :=
  (∀ p, (k.proc p).state ≠ .unused → ∃! x : Nat × Int,
    x.1 < 5 ∧ 0 ≤ x.2 ∧ x.2 ≤ k.cxj x.1 ∧ k.qxj x.1 x.2 = .proc p) ∧
  (∀ p q j, (k.proc p).state ≠ .unused → q < 5 → 0 ≤ j → j ≤ k.cxj q → k.qxj q j = .proc p →
    k.pstat.currentQueue (k.proc p).pid = q) ∧
  ∀ q j, q < 5 → 0 ≤ j → j ≤ k.cxj q → ∃ p, k.qxj q j = .proc p ∧ (k.proc p).state ≠ .unused

theorem Queued.exact {k : Kernel} {Q : Nat → List Slot} (hq : Queued k Q) : QueuesExact k := by
  -- An occurrence of `p` is a place in the list of the queue recorded for it.
  have hat : ∀ p q j, q < 5 → 0 ≤ j → j ≤ k.cxj q → k.qxj q j = .proc p →
      (Q q)[j.toNat]? = some p ∧ (k.proc p).state ≠ .unused ∧
        k.pstat.currentQueue (k.proc p).pid = q := by
    intro p q j hlt h₀ hj he
    obtain ⟨x, hx, he'⟩ := hq.entry hlt h₀ hj
    obtain rfl := Entry.proc.inj (he.symm.trans he')
    exact ⟨hx, (hq.mem q hlt p).mp (List.mem_of_getElem? hx)⟩
  refine ⟨fun p hp => ?_, fun p q j _ hlt h₀ hj he => (hat p q j hlt h₀ hj he).2.2,
    fun q j hlt h₀ hj => ?_⟩
  · have hlt := hq.range p hp
    have hin := (hq.mem _ hlt p).mpr ⟨hp, rfl⟩
    obtain ⟨j, h₀, hj, he⟩ := ((hq.holds _ hlt).mem_iff (.proc p)).mp (List.mem_map_of_mem hin)
    refine ⟨(_, j), ⟨hlt, h₀, hj, he⟩, ?_⟩
    rintro ⟨q, i⟩ ⟨hlt', h₀', hi, he'⟩
    obtain ⟨hx, -, hrec⟩ := hat p q i hlt' h₀' hi he'
    dsimp only at hrec hi h₀' hx
    subst hrec
    obtain ⟨hx', -⟩ := hat p _ j hlt h₀ hj he
    obtain ⟨hlti, hgi⟩ := List.getElem?_eq_some_iff.mp hx
    obtain ⟨hltj, hgj⟩ := List.getElem?_eq_some_iff.mp hx'
    have := (hq.nodup _ hlt).getElem_inj_iff.mp (hgi.trans hgj.symm)
    have hij : i = j := by omega
    rw [hij]
  · obtain ⟨p, hx, he⟩ := hq.entry hlt h₀ hj
    exact ⟨p, he, ((hq.mem q hlt p).mp (List.mem_of_getElem? hx)).1⟩

/-- At boot init is alone in the first queue. -/
theorem queued_boot : Queued boot (fun q => if q = 0 then [0] else []) := by
  have hcxj : ∀ q, q < 5 → boot.cxj q = if q = 0 then 0 else -1 := by decide
  have hrec : boot.pstat.currentQueue (boot.proc 0).pid = 0 := by decide
  have hentry : boot.qxj 0 0 = .proc 0 := by decide
  constructor
  case holds =>
    intro q hlt
    rw [hcxj q hlt]
    by_cases h₀ : q = 0
    · subst h₀
      refine ⟨rfl, fun i hi => ?_⟩
      obtain rfl : i = 0 := by simpa using hi
      exact hentry
    · simp only [if_neg h₀]
      exact .empty _
  case nodup =>
    intro q _
    split <;> simp
  case mem =>
    intro q hlt p
    rw [boot_state]
    by_cases hp : p = 0
    · subst hp
      rw [hrec]
      by_cases h₀ : q = 0
      · simp [h₀]
      · have hne : ¬ 0 = q := fun h => h₀ h.symm
        simp [h₀, hne]
    · by_cases h₀ : q = 0 <;> simp [h₀, hp]
  case range =>
    intro p hp
    rw [boot_state] at hp
    by_cases he : p = 0
    · rw [he, hrec]
      omega
    · simp [he] at hp

/-- In every run of the MLFQ build on one CPU whose steps all meet the condition, the
queues are exact, with `ptable.lock` free or held. -/
theorem mlfq_queues_exact (h : Runs.Reaches (step .mlfq) Orderly (bootSystem 1) s) :
    QueuesExact s.k := by
  have hinv : Inv s := h.invariant_of (P := Inv) (fun _ hr => sound_reaches hr)
    ⟨_, queued_boot, trivial⟩
    fun t x u hq hi hok hs => step_inv hs hq.1 hq.2.1 hq.2.2 hi hok
  obtain ⟨Q, hq, -⟩ := hinv
  exact hq.exact

/-- A call of `MLFQ_scheduler` up to the first `swtch`, when the first entry can run. -/
def schedulerCall : List (Fin 1 × Action) := List.replicate 263 (0, .sched)

/-- Init forks a child and waits for it; the child runs and exits. -/
def forkAndWait : List (Fin 1 × Action) :=
  schedulerCall ++ [(0, .resume)] ++ forking ++
    [(0, .forkDone), (0, .wait), (0, .sched), (0, .sched), (0, .resume), (0, .stamp), (0, .exit)]

/-- Until the child is reaped, that run meets the condition. -/
theorem mlfq_queues_exact_exited : ∃ s : System 1,
    Runs.Reaches (step .mlfq) Orderly (bootSystem 1) s ∧ (s.k.proc 1).state = .zombie ∧
      QueuesExact s.k := by
  obtain ⟨s, hr, hz⟩ : ∃ s, Runs.Reaches (step .mlfq) Orderly (bootSystem 1) s ∧
      (s.k.proc 1).state = .zombie := Runs.exists_of_execIf (l := forkAndWait) (by decide +kernel)
  exact ⟨s, hr, hz, mlfq_queues_exact hr⟩

/-- Once init has been given the child, an entry of the first queue is an UNUSED slot. -/
theorem mlfq_stale_entry : ∃ s : System 1,
    Reachable .mlfq s ∧ s.lock = none ∧ ¬ QueuesExact s.k := by
  obtain ⟨s, hr, hlock, hcxj, hentry, hfree⟩ : ∃ s : System 1, Reachable .mlfq s ∧ s.lock = none ∧
      s.k.cxj 0 = 1 ∧ s.k.qxj 0 1 = .proc 1 ∧ (s.k.proc 1).state = .unused :=
    Runs.exists_of_exec (l := forkAndWait ++ List.replicate 7 (0, .sched) ++ schedulerCall ++
      [(0, .resume)]) (by decide +kernel)
  refine ⟨s, hr, hlock, fun hexact => ?_⟩
  obtain ⟨p, hp, hused⟩ := hexact.2.2 0 1 (by omega) (by omega) (by omega)
  obtain rfl := Entry.proc.inj (hentry.symm.trans hp)
  exact hused hfree

end Xv6.MlfqQueues
