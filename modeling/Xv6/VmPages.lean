import Mathlib.Data.Finset.Card
import Xv6.VmSpace

/-!
# Mapping and freeing pages

What `walkpgdir`, one round of `mappages` and `deallocuvm` do to an address space.
-/
namespace Xv6.Vm

open Function (update update_self update_of_ne)
open Bytes Wp
open Space (Apart)

variable {s s' s₁ : Phys} {pgdir hand : Nat} {K : Layout} {R : Nat → Prop} {i m n f va w : Nat}

/-! ## Frames that are used and frames that are freed -/

/-- Free frames have become page tables and pages; the memory of all others is the same. -/
structure Grows (pgdir : Nat) (s s' : Phys) : Prop where
  free : s'.free ⊆ s.free
  table : ∀ i, s'.table pgdir i = s.table pgdir i ∨ s.table pgdir i = 0 ∧ s'.table pgdir i ∈ s.free
  mem : ∀ f, f ∉ s.free → Apart s pgdir f → s'.mem f = s.mem f

namespace Grows

theorem refl : Grows pgdir s s := ⟨fun _ h => h, fun _ => .inl rfl, fun _ _ _ => rfl⟩

theorem apart (h : Grows pgdir s s') (hf : f ∉ s.free) (ha : Apart s pgdir f) :
    Apart s' pgdir f where
  dir := ha.dir
  table i ht heq := by
    rcases h.table i with he | ⟨-, he⟩
    · rw [he] at ht heq
      exact ha.table i ht heq
    · exact hf (heq ▸ he)

theorem trans (h : Grows pgdir s s₁) (h' : Grows pgdir s₁ s') : Grows pgdir s s' where
  free := List.Subset.trans h'.free h.free
  table i := by
    rcases h.table i with he | ⟨hz, he⟩
    · rcases h'.table i with he' | ⟨hz', he'⟩
      · exact .inl (he'.trans he)
      · exact .inr ⟨he ▸ hz', h.free he'⟩
    · rcases h'.table i with he' | ⟨-, he'⟩
      · exact .inr ⟨hz, he' ▸ he⟩
      · exact .inr ⟨hz, h.free he'⟩
  mem f hf ha := by
    rw [h'.mem f (fun hf' => hf (h.free hf')) (h.apart hf ha), h.mem f hf ha]

/-- Pages are taken, and written as long as they are not in use. -/
theorem of_same (hs : SameTables pgdir s s') (hfree : s'.free ⊆ s.free)
    (hmem : ∀ f, f ∉ s.free → s'.mem f = s.mem f) : Grows pgdir s s' where
  free := hfree
  table i := .inl (congrFun hs.table_eq i)
  mem f hf _ := hmem f hf

theorem of_setPte (hs : SetPte pgdir n w s s') (hfree : s'.free = s.free)
    (hmem : ∀ f, Apart s pgdir f → s'.mem f = s.mem f) : Grows pgdir s s' where
  free := hfree ▸ fun _ h => h
  table i := .inl (congrFun hs.table_eq i)
  mem f _ ha := hmem f ha

end Grows

/-- Pages have been freed; the directory and the memory of all other frames are the same. -/
structure Shrinks (pgdir : Nat) (s s' : Phys) : Prop where
  free : s.free ⊆ s'.free
  dir : ∀ k, s'.word pgdir k = s.word pgdir k
  mem : ∀ f, f ∉ s'.free → Apart s pgdir f → s'.mem f = s.mem f

namespace Shrinks

theorem refl : Shrinks pgdir s s := ⟨fun _ h => h, fun _ => rfl, fun _ _ _ => rfl⟩

theorem table_eq (h : Shrinks pgdir s s') : s'.table pgdir = s.table pgdir := by
  funext i
  rw [Phys.table, Phys.table, h.dir]

theorem apart (h : Shrinks pgdir s s') (ha : Apart s pgdir f) : Apart s' pgdir f where
  dir := ha.dir
  table i := by
    rw [h.table_eq]
    exact ha.table i

theorem trans (h : Shrinks pgdir s s₁) (h' : Shrinks pgdir s₁ s') : Shrinks pgdir s s' where
  free := List.Subset.trans h.free h'.free
  dir k := (h'.dir k).trans (h.dir k)
  mem f hf ha := by
    rw [h'.mem f hf (h.apart ha), h.mem f (fun hf' => hf (h'.free hf')) ha]

end Shrinks

/-! ## walkpgdir -/

theorem pdx_eq (hva : va / 4096 = n) (hn : n < 2 ^ 20) : pdx va = n / 1024 := by
  unfold pdx
  omega

theorem ptx_eq (hva : va / 4096 = n) : ptx va = n % 1024 := by
  unfold ptx
  omega

theorem wp_kalloc {Q : Option Nat → Phys → Prop} :
    wp kalloc Q s ↔ match s.free with
      | [] => Q none s
      | f :: l => Q (some f) { s with free := l } := by
  simp only [kalloc, wp_bind, wp_get]
  cases s.free with
  | nil => exact wp_pure _
  | cons f l => simp only [wp_bind, wp_modify, wp_pure]

theorem wp_kfree {Q : Unit → Phys → Prop} (hf : K.first ≤ f ∧ f < topFrame) :
    wp (kfree K f) Q s ↔ Q () { s.setPage f (freePage s.free) with free := f :: s.free } := by
  rw [kfree, if_neg (by omega), wp_modify]

/-- Without `alloc` the tables are only read. -/
theorem wp_walk {Q : Option (Nat × Nat) → Phys → Prop} (hva : va / 4096 = n) (hn : n < 2 ^ 20) :
    wp (walkpgdir pgdir va false) Q s ↔
      (Present (s.word pgdir (n / 1024)) → Q (some (s.table pgdir (n / 1024), n % 1024)) s) ∧
      (¬ Present (s.word pgdir (n / 1024)) → Q none s) := by
  simp only [walkpgdir, wp_bind, wp_get, pdx_eq hva hn, ptx_eq hva]
  by_cases hp : Present (s.word pgdir (n / 1024))
  · rw [if_pos hp, wp_pure, table_eq (show n / 1024 < 1024 by omega) hp]
    exact ⟨fun hq => ⟨fun _ => hq, fun hnot => absurd hp hnot⟩, fun hq => hq.1 hp⟩
  · rw [if_neg hp, if_pos (by rfl), wp_pure]
    exact ⟨fun hq => ⟨fun hpos => absurd hpos hp, fun _ => hq⟩, fun hq => hq.2 hp⟩

/-- The page tables that a directory does not have. -/
def Phys.noTable (s : Phys) (pgdir : Nat) : Finset Nat :=
  (Finset.range 1024).filter fun i => s.table pgdir i = 0

/-- How many frames would be left if the directory had all its page tables. -/
def Phys.slack (s : Phys) (pgdir : Nat) : Int := s.free.length - (s.noTable pgdir).card

/-- Page tables have been made at some of the given indices, each on a frame of the free
list, and no frames have been used otherwise. -/
structure NewTables (pgdir : Nat) (I : Nat → Prop) (s s' : Phys) : Prop where
  other : ∀ i, ¬ I i → s'.table pgdir i = s.table pgdir i
  slack : s'.slack pgdir = s.slack pgdir

namespace NewTables

variable {I J : Nat → Prop}

theorem of_same (htable : s'.table pgdir = s.table pgdir) (hfree : s'.free = s.free) :
    NewTables pgdir I s s' where
  other i _ := congrFun htable i
  slack := by rw [Phys.slack, Phys.slack, Phys.noTable, Phys.noTable, htable, hfree]

theorem trans (h : NewTables pgdir I s s₁) (h' : NewTables pgdir I s₁ s') :
    NewTables pgdir I s s' where
  other i hi := (h'.other i hi).trans (h.other i hi)
  slack := h'.slack.trans h.slack

theorem mono (h : NewTables pgdir I s s') (hIJ : ∀ i, I i → J i) : NewTables pgdir J s s' where
  other i hi := h.other i fun hI => hi (hIJ i hI)
  slack := h.slack

end NewTables

/-- There is no frame for a page table that is missing. -/
structure Full (pgdir : Nat) (s : Phys) : Prop where
  free : s.free = []
  slack : s.slack pgdir < 0

theorem full_of_nil (hfree : s.free = []) (hi : i < 1024) (hp : ¬ Present (s.word pgdir i)) :
    Full pgdir s where
  free := hfree
  slack := by
    have hmem : i ∈ s.noTable pgdir :=
      Finset.mem_filter.mpr ⟨Finset.mem_range.mpr hi, table_eq_zero hp⟩
    have hpos := Finset.card_pos.mpr ⟨i, hmem⟩
    rw [Phys.slack, hfree, List.length_nil]
    omega

theorem newTables_addTable {l : List Nat} (hf : f ≠ 0) (hfree : s.free = f :: l) (hi : i < 1024)
    (hp : ¬ Present (s.word pgdir i)) (hs' : s'.free = l)
    (htable : s'.table pgdir = update (s.table pgdir) i f) :
    NewTables pgdir (· = i) s s' where
  other j hj := by rw [htable, update_of_ne hj]
  slack := by
    have hmem : i ∈ s.noTable pgdir :=
      Finset.mem_filter.mpr ⟨Finset.mem_range.mpr hi, table_eq_zero hp⟩
    have herase : s'.noTable pgdir = (s.noTable pgdir).erase i := by
      ext j
      rw [Phys.noTable, Phys.noTable, Finset.mem_erase, Finset.mem_filter,
        Finset.mem_filter, htable]
      by_cases hj : j = i
      · rw [hj, update_self]
        exact iff_of_false (fun hc => hf hc.2) fun hc => hc.1 rfl
      · rw [update_of_ne hj]
        exact ⟨fun hc => ⟨hj, hc⟩, fun hc => hc.2⟩
    have hcard := Finset.card_erase_add_one hmem
    rw [Phys.slack, Phys.slack, herase, hfree, hs', List.length_cons]
    omega

/-- The address space has a page table for page `n`, and no entry for a page has changed. -/
structure Walked (pgdir : Nat) (K : Layout) (R : Nat → Prop) (hand n : Nat) (s s' : Phys) :
    Prop where
  space : Space s' pgdir K R hand
  grows : Grows pgdir s s'
  table : s'.table pgdir (n / 1024) ≠ 0
  pte : s'.pte pgdir = s.pte pgdir
  tables : NewTables pgdir (· = n / 1024) s s'
  length : s.free.length ≤ s'.free.length + 1

theorem Space.grows (h : Space s pgdir K R hand) {l : List Nat} (hfree : s.free = f :: l)
    (hi : i < 1024) (hp : ¬ Present (s.word pgdir i)) : Grows pgdir s (s.addTable pgdir i f l) where
  free := hfree ▸ List.subset_cons_self f l
  table j := by
    obtain ⟨-, htable, -⟩ := h.grow hfree hi hp
    rw [htable]
    by_cases hj : j = i
    · rw [hj, update_self, hfree]
      exact .inr ⟨table_eq_zero hp, List.mem_cons_self⟩
    · exact .inl (update_of_ne hj ..)
  mem g hg ha := Space.addTable_mem ha.dir fun heq => hg (hfree ▸ heq ▸ List.mem_cons_self)

theorem walkpgdir_alloc (h : Space s pgdir K R hand) (hva : va / 4096 = n) (hn : n < 2 ^ 20) :
    wp (walkpgdir pgdir va true) (fun r s' => (r = none ∧ s' = s ∧ Full pgdir s) ∨
      (r = some (s'.table pgdir (n / 1024), n % 1024) ∧ Walked pgdir K R hand n s s')) s := by
  simp only [walkpgdir, wp_bind, wp_get, pdx_eq hva hn, ptx_eq hva]
  by_cases hp : Present (s.word pgdir (n / 1024))
  · rw [if_pos hp, wp_pure]
    have hlt : n / 1024 < 1024 := by omega
    exact .inr
      ⟨by rw [table_eq hlt hp], h, .refl, h.table_ne_zero hlt hp, rfl, .of_same rfl rfl, by omega⟩
  · rw [if_neg hp, if_neg (by simp), wp_bind, wp_kalloc]
    cases hfree : s.free with
    | nil => exact (wp_pure _).mpr (.inl ⟨rfl, rfl, full_of_nil hfree (by omega) hp⟩)
    | cons f l =>
      obtain ⟨hspace, htable, hpte⟩ := h.grow hfree (show n / 1024 < 1024 by omega) hp
      have hf : f ∈ s.free := by rw [hfree]; exact List.mem_cons_self
      have hnew : (s.addTable pgdir (n / 1024) f l).table pgdir (n / 1024) = f := by
        rw [htable, update_self]
      simp only [zeroPage, wp_bind, wp_modify, wp_pure]
      change _ ∨ some (f, n % 1024) =
        some ((s.addTable pgdir (n / 1024) f l).table pgdir (n / 1024), n % 1024) ∧
        Walked pgdir K R hand n s (s.addTable pgdir (n / 1024) f l)
      refine .inr ⟨by rw [hnew], hspace, h.grows hfree (by omega) hp, ?_, hpte,
        newTables_addTable (h.free_ne_zero hf) hfree (by omega) hp rfl htable, ?_⟩
      · rw [hnew]
        exact h.free_ne_zero hf
      · rw [hfree]
        exact Nat.le_refl _

/-! ## mappages -/

theorem or_one (p : Nat) : p ||| 1 = p / 2 * 2 + 1 := by
  have hsplit : ∀ q, q * 2 ||| 1 = q * 2 + 1 := fun q => by
    rw [Nat.mul_comm, Nat.two_pow_add_eq_or_of_lt (i := 1) (by decide)]
  rcases Nat.mod_two_eq_zero_or_one p with h | h
  · conv_lhs => rw [show p = p / 2 * 2 by omega]
    exact hsplit _
  · conv_lhs => rw [show p = p / 2 * 2 + 1 by omega, ← hsplit, Nat.or_assoc, Nat.or_self]
    exact hsplit _

/-- The entry that `mappages` makes. -/
theorem entry_eq (f : Nat) {perm : Nat} (hperm : perm < 4096) :
    f * 4096 ||| perm ||| 1 = f * 4096 + (perm / 2 * 2 + 1) := by
  rw [Nat.or_assoc, or_one, or_flags f (by omega)]

theorem SameTables.refl : SameTables pgdir s s := ⟨fun _ => rfl, fun _ _ _ => rfl⟩

/-- One entry for a page has been made, perhaps after a page table for it. -/
structure Mapped (pgdir n w : Nat) (s s' : Phys) : Prop where
  grows : Grows pgdir s s'
  pte : s'.pte pgdir = update (s.pte pgdir) n w
  tables : NewTables pgdir (· = n / 1024) s s'
  length : s.free.length ≤ s'.free.length + 1

theorem mapLoop_step {Q : Bool → Phys → Prop} {a pa perm last fuel : Nat}
    (h : Space s pgdir K R hand) (ha : a / 4096 = n) (hn : n < 2 ^ 20)
    (hp : ¬ Present (s.pte pgdir n)) (hw : pa ||| perm ||| 1 = w) (hlt : w < 2 ^ 32)
    (hnone : Full pgdir s → Q false s)
    (hnext : ∀ s₁ s', Space s₁ pgdir K R hand → s₁.pte pgdir = s.pte pgdir →
      SetPte pgdir n w s₁ s' → s'.free = s₁.free → Mapped pgdir n w s s' →
      wp (if a = last then pure true else
        mapLoop pgdir perm last fuel ((a + 4096) % 2 ^ 32) ((pa + 4096) % 2 ^ 32)) Q s') :
    wp (mapLoop pgdir perm last (fuel + 1) a pa) Q s := by
  rw [mapLoop, wp_bind]
  refine (walkpgdir_alloc h ha hn).mono fun r s₁ hr => ?_
  rcases hr with ⟨rfl, rfl, hfree⟩ | ⟨rfl, hs₁⟩
  · exact (wp_pure _).mpr (hnone hfree)
  · obtain ⟨-, hpresent⟩ := present_of_table hs₁.table
    have hword : s₁.word (s₁.table pgdir (n / 1024)) (n % 1024) = s.pte pgdir n := by
      rw [← pte_eq hn hpresent, hs₁.pte]
    have hset := hs₁.space.setPte .refl hs₁.table hlt
    simp only [wp_bind, wp_get]
    rw [hword, if_neg hp, wp_bind, wp_modify, hw]
    refine hnext s₁ _ hs₁.space hs₁.pte hset rfl
      ⟨?_, by rw [hset.pte, hs₁.pte], hs₁.tables.trans (.of_same hset.table_eq rfl), hs₁.length⟩
    exact hs₁.grows.trans (.of_setPte hset rfl fun f hf => setWord_of_ne (hf.table _ hs₁.table))

theorem pgrounddown_mul (n : Nat) : pgrounddown (n * 4096) = n * 4096 := by
  rw [pgrounddown, Nat.mul_div_cancel n (by decide)]

theorem pgrounddown_last (hn : n < 2 ^ 20) :
    pgrounddown ((n * 4096 + 4096 + (2 ^ 32 - 1)) % 2 ^ 32) = n * 4096 := by
  unfold pgrounddown
  omega

theorem fuel_eq : 2 ^ 20 = 1048575 + 1 := by decide

/-- The page in the hand becomes user page `n`. If there is no page for a page table, the
address space stays as it was. -/
theorem mappages_page {perm : Nat} (h : Space s pgdir K R f) (hf : f ≠ 0) (hn : n < kernPage)
    (hp : ¬ Present (s.pte pgdir n)) (hperm : perm < 4096)
    (hw : f * 4096 + (perm / 2 * 2 + 1) = w) :
    wp (mappages pgdir (n * 4096) 4096 (f * 4096) perm)
      (fun r s' => (r = false ∧ s' = s ∧ Full pgdir s) ∨
      (r = true ∧ Space s' pgdir K R 0 ∧ Mapped pgdir n w s s')) s := by
  have hhand : place s pgdir f .hand ≠ 0 := hf
  have hlt : f < 0xE000 := (h.range f (h.not_reserved hhand)).2
  have hn' : n < 2 ^ 20 := Nat.lt_trans hn (by decide)
  rw [mappages, pgrounddown_last hn', pgrounddown_mul, fuel_eq]
  refine mapLoop_step h (Nat.mul_div_cancel n (by decide)) hn' hp (entry_eq f hperm) (by omega)
    (fun hfree => .inl ⟨rfl, rfl, hfree⟩) fun s₁ s' h₁ hpte hset hfree hmap => ?_
  rw [if_pos rfl, wp_pure]
  refine .inr ⟨rfl, h₁.mapPage hf hn ?_ hset hfree ?_ ?_, hw ▸ hmap⟩
  · rwa [hpte]
  · show _ % 2 = 1
    omega
  · rw [frameOf]
    omega

/-- A free page is taken and filled. -/
def Phys.takePage (s : Phys) (f : Nat) (l : List Nat) (b : Buf) : Phys :=
  ({ s with free := l } : Phys).setPage f b

theorem slack_takePage {l : List Nat} {b : Buf} (hfree : s.free = f :: l)
    (htable : (s.takePage f l b).table pgdir = s.table pgdir) :
    (s.takePage f l b).slack pgdir + 1 = s.slack pgdir := by
  have hl : (s.takePage f l b).free = l := rfl
  rw [Phys.slack, Phys.slack, Phys.noTable, Phys.noTable, htable, hl, hfree, List.length_cons]
  omega

theorem Space.takePage {l : List Nat} (h : Space s pgdir K R 0) (hfree : s.free = f :: l)
    (b : Buf) :
    Space (s.takePage f l b) pgdir K R f ∧ Grows pgdir s (s.takePage f l b) ∧
      (s.takePage f l b).pte pgdir = s.pte pgdir ∧
      (s.takePage f l b).table pgdir = s.table pgdir := by
  have hf : f ∈ s.free := by rw [hfree]; exact List.mem_cons_self
  have htake := h.take hfree
  have hsame := sameTables_setPage (htake.apart_hand (h.free_ne_zero hf)) b
  refine ⟨htake.of_same hsame rfl,
    .of_same ⟨hsame.dir, hsame.table⟩ ?_ fun g hg => ?_, hsame.pte_eq htake, hsame.table_eq⟩
  · exact hfree ▸ List.subset_cons_self f l
  · exact setPage_of_ne fun heq => hg (heq ▸ hf)

/-- The page in the hand is freed. -/
theorem kfree_hand (h : Space s pgdir K R f) (hf : f ≠ 0) :
    wp (kfree K f) (fun _ s' => Space s' pgdir K R 0 ∧ SameTables pgdir s s' ∧
      ∀ g, g ∉ s'.free → g ∉ s.free ∧ s'.mem g = s.mem g) s := by
  have hhand : place s pgdir f .hand ≠ 0 := hf
  have hsame := sameTables_setPage (h.apart_hand hf) (freePage s.free)
  refine (wp_kfree (h.range f (h.not_reserved hhand))).mpr
    ⟨?_, ⟨hsame.dir, hsame.table⟩, fun g hg => ?_⟩
  · exact (h.of_same hsame rfl).drop hf
  · obtain ⟨hgfree, hgf⟩ := Space.not_mem_cons_iff.mp hg
    exact ⟨hgfree, setPage_of_ne hgf⟩

/-- A mapped frame is not free, nor is it a page table. -/
theorem Space.page_of_pte {p : Nat} (h : Space s pgdir K R hand) (hn : n < kernPage)
    (hpte : s.pte pgdir n = f * 4096 + p) (hp : p < 4096) (hodd : p % 2 = 1) :
    f ∉ s.free ∧ Apart s pgdir f := by
  have hpresent : Present (s.pte pgdir n) := by
    rw [hpte]
    omega
  have hpage : s.page pgdir n = f := by
    rw [page_eq hn hpresent, hpte, frameOf]
    omega
  have hne := h.page_ne_zero hn hpresent
  exact hpage ▸ ⟨h.not_free (k := .page n) hne, h.apart_page hne⟩

/-! ## deallocuvm -/

/-- The present pages from `m` on and below `oldsz` have been freed. -/
structure Freed (pgdir : Nat) (K : Layout) (R : Nat → Prop) (hand m oldsz : Nat) (s s' : Phys) :
    Prop where
  space : Space s' pgdir K R hand
  shrinks : Shrinks pgdir s s'
  pte : ∀ n, s'.pte pgdir n =
    if m ≤ n ∧ n * 4096 < oldsz ∧ Present (s.pte pgdir n) then 0 else s.pte pgdir n

namespace Freed

variable {oldsz : Nat}

theorem refl (h : Space s pgdir K R hand) (hm : oldsz ≤ m * 4096) :
    Freed pgdir K R hand m oldsz s s :=
  ⟨h, .refl, fun n => by rw [if_neg (by omega)]⟩

/-- No page is present from `i` to `m`. -/
theorem skip (h : Freed pgdir K R hand m oldsz s s') (him : i ≤ m)
    (hp : ∀ n, i ≤ n → n < m → ¬ Present (s.pte pgdir n)) : Freed pgdir K R hand i oldsz s s' := by
  refine ⟨h.space, h.shrinks, fun n => ?_⟩
  rw [h.pte]
  by_cases hn : i ≤ n ∧ n < m
  · rw [if_neg (by omega), if_neg fun hc => hp n hn.1 hn.2 hc.2.2]
  · congr 1
    simp only [eq_iff_iff]
    omega

theorem cons (h : Freed pgdir K R hand (m + 1) oldsz s₁ s') (hs : Shrinks pgdir s s₁)
    (hm : m * 4096 < oldsz) (hp : Present (s.pte pgdir m))
    (hpte : s₁.pte pgdir = update (s.pte pgdir) m 0) :
    Freed pgdir K R hand m oldsz s s' := by
  refine ⟨h.space, hs.trans h.shrinks, fun n => ?_⟩
  rw [h.pte, hpte]
  by_cases hn : n = m
  · rw [hn, update_self, if_neg (by omega), if_pos ⟨Nat.le_refl m, hm, hp⟩]
  · rw [update_of_ne hn]
    congr 1
    simp only [eq_iff_iff]
    omega

end Freed

/-- The state after user page `n` has been freed. -/
def Phys.dropPage (s : Phys) (pgdir n : Nat) : Phys :=
  ({ s.setPage (s.page pgdir n) (freePage s.free) with
      free := s.page pgdir n :: s.free } : Phys).setWord (s.table pgdir (n / 1024)) (n % 1024) 0

theorem Space.dropPage (h : Space s pgdir K R hand) (hp : s.page pgdir n ≠ 0) :
    Space (s.dropPage pgdir n) pgdir K R hand ∧ Shrinks pgdir s (s.dropPage pgdir n) ∧
      (s.dropPage pgdir n).pte pgdir = update (s.pte pgdir) n 0 := by
  obtain ⟨hn, hpn⟩ := present_of_page hp
  have hdirp : Present (s.word pgdir (n / 1024)) := by
    by_contra hnot
    rw [pte_of_no_table hnot] at hpn
    exact absurd hpn (by decide)
  have hlt : n < 0x80000 := hn
  have ht := h.table_ne_zero (by omega) hdirp
  have hsame := sameTables_setPage (h.apart_page hp) (freePage s.free)
  have hset : SetPte pgdir n 0 s (s.dropPage pgdir n) :=
    h.setPte ⟨hsame.dir, hsame.table⟩ ht (by decide)
  refine ⟨h.unmap hp hset rfl, ⟨List.subset_cons_self .., hset.dir, fun g hg ha => ?_⟩, hset.pte⟩
  rw [Phys.dropPage, setWord_of_ne (ha.table _ ht)]
  exact setPage_of_ne fun heq => hg (heq ▸ List.mem_cons_self)

theorem deallocLoop_spec {oldsz fuel : Nat} (hold : oldsz ≤ 2 ^ 31) (h : Space s pgdir K R hand)
    (hm : m ≤ 2 ^ 19) (hfuel : 2 ^ 19 < m + fuel) :
    wp (deallocLoop K pgdir oldsz fuel (m * 4096))
      (fun _ s' => Freed pgdir K R hand m oldsz s s') s := by
  induction fuel generalizing s m with
  | zero => omega
  | succ fuel ih =>
    rw [deallocLoop]
    by_cases hlt : m * 4096 < oldsz
    · have hn : m < 2 ^ 20 := by omega
      have hnext : (m * 4096 + 4096) % 2 ^ 32 = (m + 1) * 4096 := by omega
      rw [if_pos hlt, wp_bind, wp_walk (Nat.mul_div_cancel m (by decide)) hn]
      constructor
      · intro hp
        have hword : s.word (s.table pgdir (m / 1024)) (m % 1024) =
          s.pte pgdir m := (pte_eq hn hp).symm
        simp only [wp_bind, wp_get, hword]
        by_cases hpm : Present (s.pte pgdir m)
        · have hk : m < kernPage := show m < 0x80000 by omega
          have hpage : s.page pgdir m = frameOf (s.pte pgdir m) := page_eq hk hpm
          have hne := h.page_ne_zero hk hpm
          rw [if_pos hpm, if_neg (hpage ▸ hne), wp_bind, ← hpage, wp_kfree (h.page_range hne),
            wp_bind, wp_modify, hnext]
          obtain ⟨hspace, hshrinks, hpte⟩ := h.dropPage hne
          exact (ih hspace (by omega) (by omega)).mono
            fun _ s' hs' => hs'.cons hshrinks hlt hpm hpte
        · rw [if_neg hpm, hnext]
          refine (ih h (by omega) (by omega)).mono fun _ s' hs' => hs'.skip
            (by omega) fun n hmn hn => ?_
          rwa [show n = m by omega]
      · intro hp
        have hjump :
            (((pdx (m * 4096) + 1) * 2 ^ 22 % 2 ^ 32 + (2 ^ 32 - 4096)) % 2 ^ 32 + 4096) % 2 ^ 32 =
            (m / 1024 + 1) * 1024 * 4096 := by
          rw [pdx_eq (Nat.mul_div_cancel m (by decide)) hn]
          omega
        simp only [hjump]
        refine (ih h (by omega) (by omega)).mono fun _ s' hs' => hs'.skip
          (by omega) fun n hmn hn => ?_
        rw [pte_of_no_table (by rwa [show n / 1024 = m / 1024 by omega])]
        decide
    · rw [if_neg hlt, wp_pure]
      exact .refl h (by omega)

/-- How many pages `sz` bytes take. -/
@[irreducible] def pages (sz : Nat) : Nat := (sz + 4095) / 4096

theorem pages_zero : pages 0 = 0 := by
  unfold pages
  rfl

theorem pgroundup_eq {sz : Nat} (h : sz ≤ 2 ^ 31) : pgroundup sz = pages sz * 4096 := by
  unfold pgroundup pages
  omega

theorem deallocuvm_spec {oldsz newsz : Nat} (hold : oldsz ≤ 2 ^ 31) (hnew : newsz ≤ 2 ^ 31)
    (h : Space s pgdir K R hand) :
    wp (deallocuvm K pgdir oldsz newsz)
      (fun r s' => r = min oldsz newsz ∧ Freed pgdir K R hand (pages newsz) oldsz s s') s := by
  rw [deallocuvm]
  by_cases hle : newsz ≥ oldsz
  · rw [if_pos hle, wp_pure]
    refine ⟨(min_eq_left hle).symm, .refl h ?_⟩
    unfold pages
    omega
  · have hm : pages newsz ≤ 2 ^ 19 := by
      unfold pages
      omega
    rw [if_neg hle, wp_bind, pgroundup_eq hnew]
    refine (deallocLoop_spec hold h hm (by omega)).mono fun _ s' hs' => (wp_pure _).mpr ⟨?_, hs'⟩
    exact (min_eq_right (by omega)).symm

end Xv6.Vm
