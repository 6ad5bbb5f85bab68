import Xv6.Ownership
import Xv6.Vm

/-!
# Address spaces

Who owns which frame. The frames of a page directory are its own, those of its page tables
and those of its user pages; a frame that has been taken from the free list and is not in
its place yet is in the hand. Everything else that is not free is reserved for others.
-/
namespace Xv6.Vm

open Function (update update_self update_of_ne)
open Bytes
open Ownership (Owns)

/-! ## Words of memory -/

section Words

variable {s : Phys} {f g k k' w : Nat} {b : Buf}

theorem setPage_self (s : Phys) (f : Nat) (b : Buf) : (s.setPage f b).mem f = b := update_self ..

theorem setPage_of_ne (h : g ≠ f) : (s.setPage f b).mem g = s.mem g := update_of_ne h ..

theorem word_setPage_of_ne (h : g ≠ f) : (s.setPage f b).word g k = s.word g k := by
  rw [Phys.word, setPage_of_ne h, Phys.word]

theorem setWord_of_ne (h : g ≠ f) : (s.setWord f k w).mem g = s.mem g := setPage_of_ne h

theorem word_setWord_of_ne (h : g ≠ f) : (s.setWord f k w).word g k' = s.word g k' :=
  word_setPage_of_ne h

theorem word_setWord_self (s : Phys) (f k : Nat) (hw : w < 2 ^ 32) :
    (s.setWord f k w).word f k = w := by
  rw [Phys.word, Phys.setWord, setPage_self, getLE_putLE]
  exact Nat.mod_eq_of_lt hw

theorem word_setWord_other (h : k' ≠ k) : (s.setWord f k w).word f k' = s.word f k' := by
  rw [Phys.word, Phys.setWord, setPage_self, getLE_putLE_other (by omega), Phys.word]

theorem word_zero (h : s.mem f = fun _ => 0) (k : Nat) : s.word f k = 0 := by
  rw [Phys.word, h, getLE_zero]

end Words

/-! ## The view of a page directory -/

variable (s : Phys) (pgdir : Nat)

/-- The frame of page table `i`, or 0. -/
def Phys.table (i : Nat) : Nat :=
  if i < 1024 ∧ Present (s.word pgdir i) then frameOf (s.word pgdir i) else 0

/-- The entry for page `n`, that is for the addresses from `n * 4096` on. -/
def Phys.pte (n : Nat) : Nat :=
  if n < 2 ^ 20 ∧ Present (s.word pgdir (n / 1024)) then
    s.word (frameOf (s.word pgdir (n / 1024))) (n % 1024)
  else 0

/-- The frame of user page `n`, or 0. -/
def Phys.page (n : Nat) : Nat :=
  if n < kernPage ∧ Present (s.pte pgdir n) then frameOf (s.pte pgdir n) else 0

inductive Place where
  | dir
  | table (i : Nat)
  | page (n : Nat)
  | hand
  deriving DecidableEq

def place (hand : Nat) : Place → Nat
  | .dir => pgdir
  | .table i => s.table pgdir i
  | .page n => s.page pgdir n
  | .hand => hand

/-- The frames of an address space are its own. Frames that are not reserved can be freed,
and the pages of the kernel are closed to user code. -/
structure Space (K : Layout) (R : Nat → Prop) (hand : Nat) : Prop where
  owns : Owns R (· ∉ s.free) (place s pgdir hand)
  nodup : s.free.Nodup
  range : ∀ f, ¬ R f → K.first ≤ f ∧ f < topFrame
  dir : pgdir ≠ 0
  tables : ∀ i, i < 1024 → Present (s.word pgdir i) → frameOf (s.word pgdir i) ≠ 0
  pages : ∀ n, n < kernPage → Present (s.pte pgdir n) → frameOf (s.pte pgdir n) ≠ 0
  kernel : ∀ n, kernPage ≤ n → Present (s.pte pgdir n) → ¬ User (s.pte pgdir n)

variable {s pgdir} {s₁ s' : Phys} {K : Layout} {R : Nat → Prop} {hand : Nat}
  {i m n f w : Nat} {l : List Nat}

theorem table_eq (hi : i < 1024) (hp : Present (s.word pgdir i)) :
    s.table pgdir i = frameOf (s.word pgdir i) :=
  if_pos ⟨hi, hp⟩

theorem table_eq_zero (hp : ¬ Present (s.word pgdir i)) : s.table pgdir i = 0 :=
  if_neg fun h => hp h.2

theorem page_eq (hn : n < kernPage) (hp : Present (s.pte pgdir n)) :
    s.page pgdir n = frameOf (s.pte pgdir n) :=
  if_pos ⟨hn, hp⟩

theorem page_eq_zero (hp : ¬ Present (s.pte pgdir n)) : s.page pgdir n = 0 := if_neg fun h => hp h.2

theorem pte_eq (hn : n < 2 ^ 20) (hp : Present (s.word pgdir (n / 1024))) :
    s.pte pgdir n = s.word (s.table pgdir (n / 1024)) (n % 1024) := by
  rw [Phys.pte, if_pos ⟨hn, hp⟩, table_eq (by omega) hp]

theorem pte_of_no_table (hp : ¬ Present (s.word pgdir (n / 1024))) : s.pte pgdir n = 0 :=
  if_neg fun h => hp h.2

theorem page_congr (h : s'.pte pgdir = s.pte pgdir) : s'.page pgdir = s.page pgdir := by
  funext n
  rw [Phys.page, Phys.page, h]

theorem present_of_table (ht : s.table pgdir i ≠ 0) : i < 1024 ∧ Present (s.word pgdir i) := by
  by_contra h
  exact ht (if_neg h)

theorem present_of_page (hp : s.page pgdir n ≠ 0) : n < kernPage ∧ Present (s.pte pgdir n) := by
  by_contra h
  exact hp (if_neg h)

namespace Space

variable {k j : Place}

section

variable (h : Space s pgdir K R hand)
include h

/-- Different places have different frames. -/
theorem ne (hk : place s pgdir hand k ≠ 0) (hkj : k ≠ j) :
    place s pgdir hand k ≠ place s pgdir hand j := h.owns.ne_of_ne hk hkj

theorem not_free (hk : place s pgdir hand k ≠ 0) : place s pgdir hand k ∉ s.free :=
  h.owns.used_of hk

theorem not_reserved (hk : place s pgdir hand k ≠ 0) : ¬ R (place s pgdir hand k) :=
  h.owns.free k hk

theorem reserved_not_free (hf : R f) : f ∉ s.free := (h.owns.exact f).mpr (.inl hf)

theorem page_not_reserved (hp : s.page pgdir n ≠ 0) : ¬ R (s.page pgdir n) :=
  h.not_reserved (k := .page n) hp

theorem page_not_free (hp : s.page pgdir n ≠ 0) : s.page pgdir n ∉ s.free :=
  h.not_free (k := .page n) hp

theorem page_range (hp : s.page pgdir n ≠ 0) :
    K.first ≤ s.page pgdir n ∧ s.page pgdir n < topFrame := h.range _ (h.page_not_reserved hp)

theorem table_ne_zero (hi : i < 1024) (hp : Present (s.word pgdir i)) : s.table pgdir i ≠ 0 := by
  rw [table_eq hi hp]
  exact h.tables i hi hp

theorem page_ne_zero (hn : n < kernPage) (hp : Present (s.pte pgdir n)) : s.page pgdir n ≠ 0 := by
  rw [page_eq hn hp]
  exact h.pages n hn hp

theorem table_ne_dir (ht : s.table pgdir i ≠ 0) : s.table pgdir i ≠ pgdir :=
  h.ne (k := .table i) (j := .dir) ht (by simp)

theorem table_inj (ht : s.table pgdir i ≠ 0) (him : i ≠ m) : s.table pgdir i ≠ s.table pgdir m :=
  h.ne (k := .table i) (j := .table m) ht (by simpa using him)

/-- A frame of another kind than directory and tables. -/
structure Apart (s : Phys) (pgdir f : Nat) : Prop where
  dir : f ≠ pgdir
  table : ∀ i, s.table pgdir i ≠ 0 → f ≠ s.table pgdir i

theorem apart_free (hf : f ∈ s.free) : Apart s pgdir f where
  dir heq := h.not_free (k := .dir) h.dir (heq ▸ hf)
  table i ht heq := h.not_free (k := .table i) ht (show s.table pgdir i ∈ s.free from heq ▸ hf)

theorem apart_page (hp : s.page pgdir n ≠ 0) : Apart s pgdir (s.page pgdir n) where
  dir := h.ne (k := .page n) (j := .dir) hp (by simp)
  table i _ := h.ne (k := .page n) (j := .table i) hp (by simp)

theorem apart_hand (hh : hand ≠ 0) : Apart s pgdir hand where
  dir := h.ne (k := .hand) (j := .dir) hh (by simp)
  table i _ := h.ne (k := .hand) (j := .table i) hh (by simp)

theorem apart_reserved (hf : R f) : Apart s pgdir f where
  dir heq := h.not_reserved (k := .dir) h.dir (heq ▸ hf)
  table i ht heq := h.not_reserved (k := .table i) ht (show R (s.table pgdir i) from heq ▸ hf)

end

end Space

/-! ## What writes do to the view -/

/-- The directory and the tables are what they were. -/
structure SameTables (pgdir : Nat) (s s' : Phys) : Prop where
  dir : ∀ k, s'.word pgdir k = s.word pgdir k
  table : ∀ i k, s.table pgdir i ≠ 0 → s'.word (s.table pgdir i) k = s.word (s.table pgdir i) k

theorem SameTables.table_eq (h : SameTables pgdir s s') : s'.table pgdir = s.table pgdir := by
  funext i
  rw [Phys.table, Phys.table, h.dir]

theorem SameTables.pte_eq (h : SameTables pgdir s s') (hsp : Space s pgdir K R hand) :
    s'.pte pgdir = s.pte pgdir := by
  funext n
  rw [Phys.pte, Phys.pte, h.dir]
  split
  next hc =>
    have ht := hsp.table_ne_zero (by omega) hc.2
    have hword := h.table (n / 1024) (n % 1024) ht
    rwa [Vm.table_eq (by omega) hc.2] at hword
  next => rfl

/-- A page is written that is neither the directory nor a table. -/
theorem sameTables_setPage (h : Space.Apart s pgdir f) (b : Buf) :
    SameTables pgdir s (s.setPage f b) where
  dir _ := word_setPage_of_ne h.dir.symm
  table i _ ht := word_setPage_of_ne (h.table i ht).symm

theorem SameTables.place_eq (h : SameTables pgdir s s') (hsp : Space s pgdir K R hand)
    (hand' : Nat) :
    place s' pgdir hand' = place s pgdir hand' := by
  funext k
  cases k with
  | dir | hand => rfl
  | table i => exact congrFun h.table_eq i
  | page n => exact congrFun (page_congr (h.pte_eq hsp)) n

/-- An address space with the same tables. -/
theorem Space.of_tables {R' : Nat → Prop} {hand' : Nat} (h : Space s pgdir K R hand)
    (hs : SameTables pgdir s s') (hnodup : s'.free.Nodup)
    (hrange : ∀ f, ¬ R' f → K.first ≤ f ∧ f < topFrame)
    (howns : Owns R' (· ∉ s'.free) (place s pgdir hand')) : Space s' pgdir K R' hand' := by
  have hpte := hs.pte_eq h
  refine ⟨?_, hnodup, hrange, h.dir, fun i hi hp => ?_, ?_, ?_⟩
  · rw [hs.place_eq h]
    exact howns
  · rw [hs.dir] at hp ⊢
    exact h.tables i hi hp
  · rw [hpte]
    exact h.pages
  · rw [hpte]
    exact h.kernel

/-- An address space with the same tables, and the same free list. -/
theorem Space.of_same (h : Space s pgdir K R hand) (hs : SameTables pgdir s s')
    (hfree : s'.free = s.free) :
    Space s' pgdir K R hand :=
  h.of_tables hs (hfree ▸ h.nodup) h.range (hfree ▸ h.owns)

/-- The entry for page `n` is written, and the tables are the same otherwise. -/
structure SetPte (pgdir n w : Nat) (s s' : Phys) : Prop where
  dir : ∀ k, s'.word pgdir k = s.word pgdir k
  pte : s'.pte pgdir = update (s.pte pgdir) n w

theorem SetPte.table_eq (h : SetPte pgdir n w s s') : s'.table pgdir = s.table pgdir := by
  funext i
  rw [Phys.table, Phys.table, h.dir]

theorem Space.setPte (h : Space s pgdir K R hand) (hs : SameTables pgdir s s₁)
    (ht : s.table pgdir (n / 1024) ≠ 0) (hw : w < 2 ^ 32) :
    SetPte pgdir n w s (s₁.setWord (s.table pgdir (n / 1024)) (n % 1024) w) := by
  obtain ⟨hlt, hpn⟩ := present_of_table ht
  have hn : n < 2 ^ 20 := by omega
  have hdir : ∀ k, (s₁.setWord (s.table pgdir (n / 1024)) (n % 1024) w).word
      pgdir k = s.word pgdir k := by
    intro k
    rw [word_setWord_of_ne (h.table_ne_dir ht).symm, hs.dir]
  refine ⟨hdir, funext fun m => ?_⟩
  by_cases hm : m < 2 ^ 20 ∧ Present (s.word pgdir (m / 1024))
  · have htm := h.table_ne_zero (by omega) hm.2
    rw [Phys.pte, hdir, if_pos hm, ← table_eq (by omega) hm.2]
    by_cases hmn : m = n
    · rw [hmn, update_self, word_setWord_self _ _ _ hw]
    · rw [update_of_ne hmn, pte_eq hm.1 hm.2, ← hs.table _ _ htm]
      by_cases hdiv : m / 1024 = n / 1024
      · rw [hdiv, word_setWord_other (by omega)]
      · rw [word_setWord_of_ne (h.table_inj htm hdiv)]
  · have hmn : m ≠ n := fun heq => hm (heq ▸ ⟨hn, hpn⟩)
    rw [update_of_ne hmn, Phys.pte, Phys.pte, hdir, if_neg hm, if_neg hm]

/-- What the entry `w` for page `n` gives to the places. -/
def pageIn (n w : Nat) : Nat := if n < kernPage ∧ Present w then frameOf w else 0

theorem SetPte.place_eq (h : SetPte pgdir n w s s') (hand : Nat) :
    place s' pgdir hand = update (place s pgdir hand) (.page n) (pageIn n w) := by
  funext k
  cases k with
  | dir | hand => rfl
  | table i => exact congrFun h.table_eq i
  | page m =>
    by_cases hm : m = n
    · rw [hm, update_self, place, Phys.page, h.pte, update_self, pageIn]
    · rw [update_of_ne (by simpa using hm), place, place, Phys.page,
        Phys.page, h.pte, update_of_ne hm]

/-- A free frame becomes page table `i`. -/
def Phys.addTable (s : Phys) (pgdir i f : Nat) (free : List Nat) : Phys :=
  (({ s with free } : Phys).setPage f fun _ => 0).setWord pgdir i (f * 4096 ||| 7)

theorem or_flags (f : Nat) (hw : w < 4096) : f * 4096 ||| w = f * 4096 + w := by
  rw [Nat.mul_comm, Nat.two_pow_add_eq_or_of_lt (i := 12) hw]

/-- A written entry must have a frame of its own if it is for a user page, and be closed to
user code if it is for a page of the kernel. -/
structure Fits (n w : Nat) : Prop where
  page : n < kernPage → Present w → frameOf w ≠ 0
  kernel : kernPage ≤ n → Present w → ¬ User w

theorem Space.of_setPte {hand' : Nat} (h : Space s pgdir K R hand) (hs : SetPte pgdir n w s s')
    (hw : Fits n w) (hnodup : s'.free.Nodup)
    (howns : Owns R (· ∉ s'.free) (update (place s pgdir hand') (.page n) (pageIn n w))) :
    Space s' pgdir K R hand' := by
  refine ⟨?_, hnodup, h.range, h.dir, fun i hi hp => ?_, fun m hm hp => ?_, fun m hm hp => ?_⟩
  · rw [hs.place_eq]
    exact howns
  · rw [hs.dir] at hp ⊢
    exact h.tables i hi hp
  · rw [hs.pte] at hp ⊢
    by_cases hmn : m = n
    · rw [hmn, update_self] at hp ⊢
      exact hw.page (hmn ▸ hm) hp
    · rw [update_of_ne hmn] at hp ⊢
      exact h.pages m hm hp
  · rw [hs.pte] at hp ⊢
    by_cases hmn : m = n
    · rw [hmn, update_self] at hp ⊢
      exact hw.kernel (hmn ▸ hm) hp
    · rw [update_of_ne hmn] at hp ⊢
      exact h.kernel m hm hp

/-! ## The transitions -/

namespace Space

/-- A directory that is filled with zeros. -/
theorem of_zero (hzero : s.mem pgdir = fun _ => 0) (hnodup : s.free.Nodup) (hdir : pgdir ≠ 0)
    (hrange : ∀ f, ¬ R f → K.first ≤ f ∧ f < topFrame) (hused : ∀ f, f ∉ s.free ↔ R f ∨ f = pgdir)
    (hR : ¬ R pgdir) : Space s pgdir K R 0 := by
  have hword := word_zero hzero
  have hpte : ∀ n, s.pte pgdir n = 0 := fun n => pte_of_no_table (by rw [hword]; decide)
  have hplace : ∀ k, place s pgdir 0 k ≠ 0 → k = .dir := by
    intro k hk
    cases k with
    | dir => rfl
    | table i => exact absurd (table_eq_zero (by rw [hword]; decide)) hk
    | page n => exact absurd (page_eq_zero (by rw [hpte]; decide)) hk
    | hand => exact absurd rfl hk
  refine ⟨⟨fun k hk => ?_, fun k j hk hkj => ?_, fun f => ?_⟩, hnodup,
    hrange, hdir, fun i _ hp => ?_, fun n _ hp => ?_, fun n _ hp => ?_⟩
  · rw [hplace k hk]
    exact hR
  · rw [hplace k hk, hplace j (hkj ▸ hk)]
  · rw [hused]
    refine or_congr_right ⟨fun heq => ⟨.dir, hdir, heq.symm⟩, ?_⟩
    rintro ⟨k, hk, rfl⟩
    rw [hplace k hk]
    rfl
  · rw [hword] at hp
    exact absurd hp (by decide)
  · rw [hpte] at hp
    exact absurd hp (by decide)
  · rw [hpte] at hp
    exact absurd hp (by decide)

theorem free_ne_zero (h : Space s pgdir K R hand) (hf : f ∈ s.free) : f ≠ 0 := by
  have hr := h.range f (h.owns.not_reserved (not_not_intro hf))
  have hk := K.data_before
  omega

theorem place_hand (s : Phys) (pgdir f hand : Nat) :
    place s pgdir f = update (place s pgdir hand) .hand f := by
  funext k
  cases k with
  | hand => rw [update_self, place]
  | dir | table _ | page _ => rw [update_of_ne (by simp)]; rfl

theorem not_mem_tail_iff {c : Nat} (h : (f :: l).Nodup) : c ∉ l ↔ c ∉ f :: l ∨ c = f := by
  have hf := (List.nodup_cons.mp h).1
  by_cases hc : c = f
  · simp [hc, hf]
  · simp [hc]

/-- A free page is taken into the hand. -/
theorem take (h : Space s pgdir K R 0) (hfree : s.free = f :: l) :
    Space { s with free := l } pgdir K R f := by
  have hnodup : (f :: l).Nodup := hfree ▸ h.nodup
  have hf : f ∈ s.free := by rw [hfree]; exact List.mem_cons_self
  have howns : Owns R (· ∉ l) (update (place s pgdir 0) .hand f) :=
    h.owns.take rfl (not_not_intro hf) (h.free_ne_zero hf) fun c => hfree ▸ not_mem_tail_iff hnodup
  rw [← place_hand] at howns
  exact ⟨howns, (List.nodup_cons.mp hnodup).2, h.range, h.dir, h.tables, h.pages, h.kernel⟩

theorem not_mem_cons_iff {c : Nat} : c ∉ f :: l ↔ c ∉ l ∧ c ≠ f := by
  rw [List.mem_cons, not_or, and_comm]

/-- The page in the hand is freed. -/
theorem drop (h : Space s pgdir K R f) (hf : f ≠ 0) :
    Space { s with free := f :: s.free } pgdir K R 0 := by
  have hhand : place s pgdir f .hand ≠ 0 := hf
  have howns : Owns R (· ∉ f :: s.free) (update (place s pgdir f) .hand 0) :=
    h.owns.drop hhand fun c => not_mem_cons_iff
  rw [← place_hand] at howns
  exact ⟨howns, List.nodup_cons.mpr ⟨h.not_free hhand, h.nodup⟩, h.range, h.dir,
    h.tables, h.pages, h.kernel⟩

theorem addTable_dir (hf : f < 2 ^ 20) : (s.addTable pgdir i f l).word pgdir i = f * 4096 + 7 := by
  rw [Phys.addTable, or_flags f (by omega), word_setWord_self _ _ _ (by omega)]

theorem addTable_other (hd : pgdir ≠ f) (hm : m ≠ i) :
    (s.addTable pgdir i f l).word pgdir m = s.word pgdir m := by
  rw [Phys.addTable, word_setWord_other hm, word_setPage_of_ne hd]
  rfl

theorem addTable_new (hd : pgdir ≠ f) : (s.addTable pgdir i f l).mem f = fun _ => 0 := by
  rw [Phys.addTable, setWord_of_ne hd.symm, setPage_self]

theorem addTable_mem {g : Nat} (hd : g ≠ pgdir) (hg : g ≠ f) :
    (s.addTable pgdir i f l).mem g = s.mem g := by
  rw [Phys.addTable, setWord_of_ne hd, setPage_of_ne hg]

/-- A free page becomes page table `i`; no entry for a page changes. -/
theorem grow (h : Space s pgdir K R hand) (hfree : s.free = f :: l) (hi : i < 1024)
    (hp : ¬ Present (s.word pgdir i)) :
    Space (s.addTable pgdir i f l) pgdir K R hand ∧
      (s.addTable pgdir i f l).table pgdir = update (s.table pgdir) i f ∧
      (s.addTable pgdir i f l).pte pgdir = s.pte pgdir := by
  have hf : f ∈ s.free := by rw [hfree]; exact List.mem_cons_self
  have hapart := h.apart_free hf
  have hlt : f < 0xE000 := (h.range f (h.owns.not_reserved (not_not_intro hf))).2
  have hdir : (s.addTable pgdir i f l).word pgdir i = f * 4096 + 7 := addTable_dir (by omega)
  have hother : ∀ m, m ≠ i → (s.addTable pgdir i f l).word pgdir m = s.word pgdir m :=
    fun m hm => addTable_other hapart.dir.symm hm
  have htable : (s.addTable pgdir i f l).table pgdir = update (s.table pgdir) i f := by
    funext m
    by_cases hm : m = i
    · rw [hm, update_self, Phys.table, hdir, if_pos ⟨hi, by omega⟩, frameOf]
      omega
    · rw [update_of_ne hm, Phys.table, Phys.table, hother m hm]
  have hpte : (s.addTable pgdir i f l).pte pgdir = s.pte pgdir := by
    funext n
    by_cases hn : n / 1024 = i
    · have hold : s.pte pgdir n = 0 := pte_of_no_table (by rwa [hn])
      rw [hold, Phys.pte, hn, hdir, frameOf]
      split
      · rw [show (f * 4096 + 7) / 4096 = f by omega, word_zero (addTable_new hapart.dir.symm)]
      · rfl
    · rw [Phys.pte, Phys.pte, hother _ hn]
      split
      next hc =>
        have ht := h.table_ne_zero (by omega) hc.2
        rw [← table_eq (by omega) hc.2, Phys.word, Phys.word,
          addTable_mem (h.table_ne_dir ht) (hapart.table _ ht).symm]
      next => rfl
  have hplace : place (s.addTable pgdir i f l) pgdir hand =
      update (place s pgdir hand) (.table i) f := by
    funext k
    cases k with
    | dir | hand => rfl
    | table m =>
      by_cases hm : m = i
      · rw [hm, update_self, place, htable, update_self]
      · rw [update_of_ne (by simpa using hm), place, place, htable, update_of_ne hm]
    | page n => rw [update_of_ne (by simp), place, place, page_congr hpte]
  have hnodup : (f :: l).Nodup := hfree ▸ h.nodup
  have hnone : place s pgdir hand (.table i) = 0 := table_eq_zero hp
  refine ⟨⟨?_, (List.nodup_cons.mp hnodup).2, h.range, h.dir,
    fun m hm hpm => ?_, ?_, ?_⟩, htable, hpte⟩
  · rw [hplace]
    exact h.owns.take hnone (not_not_intro hf) (h.free_ne_zero hf)
      fun c => hfree ▸ not_mem_tail_iff hnodup
  · by_cases hmi : m = i
    · have := h.free_ne_zero hf
      rw [hmi, hdir, frameOf]
      omega
    · rw [hother m hmi] at hpm ⊢
      exact h.tables m hm hpm
  · rw [hpte]
    exact h.pages
  · rw [hpte]
    exact h.kernel

/-- The page in the hand becomes user page `n`. -/
theorem mapPage (h : Space s pgdir K R f) (hf : f ≠ 0) (hn : n < kernPage)
    (hp : ¬ Present (s.pte pgdir n)) (hs : SetPte pgdir n w s s') (hfree : s'.free = s.free)
    (hw : Present w) (hwf : frameOf w = f) :
    Space s' pgdir K R 0 := by
  have hin : pageIn n w = f := by rw [pageIn, if_pos ⟨hn, hw⟩, hwf]
  refine h.of_setPte hs ⟨fun _ _ => hwf ▸ hf, fun hk => absurd hn (by omega)⟩ (hfree ▸ h.nodup) ?_
  have hhand : place s pgdir f .hand ≠ 0 := hf
  have hpage : place s pgdir f (.page n) = 0 := page_eq_zero hp
  rw [hfree, hin, place_hand s pgdir 0 f]
  exact h.owns.move hhand hpage

/-- The entry for a page of the kernel is written. -/
theorem mapKernel (h : Space s pgdir K R hand) (hn : kernPage ≤ n) (hs : SetPte pgdir n w s s')
    (hfree : s'.free = s.free) (hw : ¬ User w) : Space s' pgdir K R hand := by
  have hin : pageIn n w = place s pgdir hand (.page n) := by
    rw [pageIn, if_neg (by omega), place, Phys.page, if_neg (by omega)]
  refine h.of_setPte hs ⟨fun hk => absurd hn (by omega), fun _ _ => hw⟩ (hfree ▸ h.nodup) ?_
  rw [hfree, hin, Function.update_eq_self]
  exact h.owns

/-- User page `n` is freed. -/
theorem unmap (h : Space s pgdir K R hand) (hp : s.page pgdir n ≠ 0) (hs : SetPte pgdir n 0 s s')
    (hfree : s'.free = s.page pgdir n :: s.free) : Space s' pgdir K R hand := by
  have hin : pageIn n 0 = 0 := if_neg (by simp)
  have hpage : place s pgdir hand (.page n) ≠ 0 := hp
  refine h.of_setPte hs ⟨by simp, by simp⟩ ?_ ?_
  · rw [hfree]
    exact List.nodup_cons.mpr ⟨h.not_free hpage, h.nodup⟩
  · rw [hfree, hin]
    exact h.owns.drop hpage fun c => not_mem_cons_iff

end Space

end Xv6.Vm
