import Xv6.VmPages

/-!
# Growing and shrinking user memory

`allocuvm` maps fresh pages or takes back all that it did, and `deallocuvm` undoes it.
-/
namespace Xv6.Vm

open Function (update_self update_of_ne)
open Wp
open Space (Apart)

variable {s s' s₁ s₂ : Phys} {pgdir hand : Nat} {K : Layout} {R : Nat → Prop}
  {i m n f w oldsz newsz : Nat}

/-- The user pages of a process of size `sz` are present, and no others. -/
def Filled (s : Phys) (pgdir sz : Nat) : Prop :=
  ∀ n, n < kernPage → (Present (s.pte pgdir n) ↔ n < pages sz)

/-- The pages from `lo` to `hi` are new: they are writable and open to user code, and each
has a frame that was free, filled with zeros. -/
structure Allocated (pgdir : Nat) (K : Layout) (R : Nat → Prop) (hand lo hi : Nat) (s s' : Phys) :
    Prop where
  space : Space s' pgdir K R hand
  grows : Grows pgdir s s'
  old : ∀ n, n < lo ∨ hi ≤ n → s'.pte pgdir n = s.pte pgdir n
  new : ∀ n, lo ≤ n → n < hi → ∃ f ∈ s.free, s'.pte pgdir n = f * 4096 + 7 ∧ s'.mem f = fun _ => 0
  tables : ∀ i, hi ≤ i * 1024 → s'.table pgdir i = s.table pgdir i

/-- The address space is as it was, but there may be more page tables. -/
structure Restored (pgdir : Nat) (K : Layout) (R : Nat → Prop) (s s' : Phys) : Prop where
  space : Space s' pgdir K R 0
  pte : ∀ n w, Present w → (s'.pte pgdir n = w ↔ s.pte pgdir n = w)
  free : ∀ f, f ∈ s.free ↔ f ∈ s'.free ∨ f ≠ 0 ∧ ∃ i, s.table pgdir i = 0 ∧ s'.table pgdir i = f
  table : ∀ i, s.table pgdir i ≠ 0 → s'.table pgdir i = s.table pgdir i
  mem : ∀ f, f ∉ s.free → Apart s pgdir f → s'.mem f = s.mem f

/-- The same entries and the same tables need the same frames. -/
theorem Space.free_iff (h : Space s pgdir K R 0) (h' : Space s' pgdir K R 0)
    (hpte : ∀ n w, Present w → (s'.pte pgdir n = w ↔ s.pte pgdir n = w))
    (htable : ∀ i, s'.table pgdir i = s.table pgdir i ∨
      s.table pgdir i = 0 ∧ s'.table pgdir i ∈ s.free) :
    f ∈ s.free ↔ f ∈ s'.free ∨ f ≠ 0 ∧ ∃ i, s.table pgdir i = 0 ∧ s'.table pgdir i = f := by
  have hpage : ∀ n, s'.page pgdir n = s.page pgdir n := by
    intro n
    by_cases hp : Present (s.pte pgdir n)
    · rw [Phys.page, Phys.page, (hpte n _ hp).mpr rfl]
    · have hp' : ¬ Present (s'.pte pgdir n) := fun hp' => hp (by rwa [(hpte n _ hp').mp rfl])
      rw [page_eq_zero hp, page_eq_zero hp']
  constructor
  · intro hf
    by_contra hnot
    rw [not_or] at hnot
    rcases (h'.owns.exact f).mp hnot.1 with hR | ⟨k, hk, rfl⟩
    · exact h.reserved_not_free hR hf
    · cases k with
      | dir => exact h.not_free (k := .dir) h.dir hf
      | table i =>
        rcases htable i with he | ⟨hz, -⟩
        · simp only [place, he] at hk hf
          exact h.not_free (k := .table i) hk hf
        · exact hnot.2 ⟨hk, i, hz, rfl⟩
      | page n =>
        simp only [place, hpage] at hk hf
        exact h.not_free (k := .page n) hk hf
      | hand => exact hk rfl
  · rintro (hf | ⟨hne, i, hz, rfl⟩)
    · by_contra hnot
      rcases (h.owns.exact f).mp hnot with hR | ⟨k, hk, rfl⟩
      · exact h'.reserved_not_free hR hf
      · cases k with
        | dir => exact h'.not_free (k := .dir) h'.dir hf
        | table i =>
          rcases htable i with he | ⟨hz, -⟩
          · simp only [place, ← he] at hk hf
            exact h'.not_free (k := .table i) hk hf
          · exact hk hz
        | page n =>
          simp only [place, ← hpage] at hk hf
          exact h'.not_free (k := .page n) hk hf
        | hand => exact hk rfl
    · rcases htable i with he | ⟨-, he⟩
      · exact absurd (he.trans hz) hne
      · exact he

namespace Allocated

variable {lo hi : Nat}

theorem refl (h : Space s pgdir K R hand) : Allocated pgdir K R hand lo lo s s :=
  ⟨h, .refl, fun _ _ => rfl, fun n hn hn' => absurd hn (by omega), fun _ _ => rfl⟩

/-- The new pages keep their contents when more frames are used. -/
theorem new_kept (h : Allocated pgdir K R hand lo hi s s₁) (hhi : hi ≤ kernPage)
    (hgrows : Grows pgdir s₁ s') (n : Nat) (hn : lo ≤ n) (hn' : n < hi) :
    ∃ f ∈ s.free, s₁.pte pgdir n = f * 4096 + 7 ∧ s'.mem f = fun _ => 0 := by
  obtain ⟨f, hf, hpte, hzero⟩ := h.new n hn hn'
  obtain ⟨hfree, hapart⟩ := h.space.page_of_pte (by omega) hpte (by decide) (by decide)
  exact ⟨f, hf, hpte, by rw [hgrows.mem f hfree hapart, hzero]⟩

/-- A page is taken into the hand. -/
theorem take {l : List Nat} (h : Allocated pgdir K R 0 lo hi s s₁) (hhi : hi ≤ kernPage)
    (hfree : s₁.free = f :: l) (b : Bytes.Buf) :
    Allocated pgdir K R f lo hi s (s₁.takePage f l b) := by
  obtain ⟨htake, hgrows, hpte, htable⟩ := h.space.takePage hfree b
  refine ⟨htake, h.grows.trans hgrows, fun n hn => by rw [hpte, h.old n hn], fun n hn hn' => ?_,
    fun i hi => by rw [htable, h.tables i hi]⟩
  rw [hpte]
  exact h.new_kept hhi hgrows n hn hn'

/-- A page is taken, filled with zeros and mapped. -/
theorem snoc {l : List Nat} (h : Allocated pgdir K R 0 lo hi s s₁) (hlo : lo ≤ hi)
    (hhi : hi < kernPage) (hfree : s₁.free = f :: l) (hs' : Space s' pgdir K R 0)
    (hmap : Mapped pgdir hi (f * 4096 + 7) (s₁.takePage f l fun _ => 0) s') :
    Allocated pgdir K R 0 lo (hi + 1) s s' := by
  obtain ⟨htake, hgrows, hpte, htable⟩ := h.space.takePage hfree fun _ => 0
  have hf : f ∈ s₁.free := by rw [hfree]; exact List.mem_cons_self
  have hf0 : f ≠ 0 := h.space.free_ne_zero hf
  have hold : ∀ n, n ≠ hi → s'.pte pgdir n = s₁.pte pgdir n := fun n hn => by
    rw [hmap.pte, update_of_ne hn, hpte]
  refine ⟨hs', h.grows.trans (hgrows.trans hmap.grows), fun n hn => ?_,
    fun n hn hn' => ?_, fun i hi => ?_⟩
  · rw [hold n (by omega), h.old n (by omega)]
  · by_cases hnm : n = hi
    · refine ⟨f, h.grows.free hf, by rw [hnm, hmap.pte, update_self], ?_⟩
      rw [hmap.grows.mem f (htake.not_free (k := .hand) hf0) (htake.apart_hand hf0)]
      exact setPage_self ..
    · rw [hold n hnm]
      exact h.new_kept hhi.le (hgrows.trans hmap.grows) n hn (by omega)
  · rw [hmap.tables.other i (by omega), htable, h.tables i (by omega)]

/-- The new pages have been freed again. -/
theorem pte_restored (h : Allocated pgdir K R hand lo hi s s₁)
    (hfreed : Freed pgdir K R hand lo newsz s₁ s') (hhi : ∀ n, n < hi → n * 4096 < newsz)
    (hnone : ∀ n, lo ≤ n → n * 4096 < newsz → ¬ Present (s.pte pgdir n)) (n w : Nat)
    (hw : Present w) : s'.pte pgdir n = w ↔ s.pte pgdir n = w := by
  rw [hfreed.pte]
  by_cases hn : lo ≤ n ∧ n * 4096 < newsz
  · have hs : s.pte pgdir n ≠ w := fun heq => hnone n hn.1 hn.2 (heq ▸ hw)
    split
    · exact iff_of_false (fun heq => absurd (heq ▸ hw : Present 0) (by decide)) hs
    next hp => exact iff_of_false (fun heq => hp ⟨hn.1, hn.2, heq ▸ hw⟩) hs
  · rw [if_neg fun hc => hn ⟨hc.1, hc.2.1⟩, h.old n]
    by_contra hc
    exact hn ⟨by omega, hhi n (by omega)⟩

/-- A page that is still in the hand may be freed as well. -/
theorem restored (h : Allocated pgdir K R hand lo hi s s₁) (hs : Space s pgdir K R 0)
    (hfreed : Freed pgdir K R hand lo newsz s₁ s₂) (hhi : ∀ n, n < hi → n * 4096 < newsz)
    (hnone : ∀ n, lo ≤ n → n * 4096 < newsz → ¬ Present (s.pte pgdir n))
    (hs' : Space s' pgdir K R 0) (hsame : SameTables pgdir s₂ s')
    (hmem : ∀ g, g ∉ s'.free → g ∉ s₂.free ∧ s'.mem g = s₂.mem g) :
    Restored pgdir K R s s' := by
  have hpte : ∀ n w, Present w → (s'.pte pgdir n = w ↔ s.pte pgdir n = w) := fun n w hw => by
    rw [hsame.pte_eq hfreed.space]
    exact h.pte_restored hfreed hhi hnone n w hw
  have htable : ∀ i, s'.table pgdir i = s₁.table pgdir i :=
    fun i => by rw [hsame.table_eq, hfreed.shrinks.table_eq]
  have hfree : ∀ f, f ∈ s.free ↔ f ∈ s'.free ∨ f ≠ 0 ∧
      ∃ i, s.table pgdir i = 0 ∧ s'.table pgdir i = f :=
    fun f => hs.free_iff hs' hpte fun i => by
      rw [htable]
      exact h.grows.table i
  refine ⟨hs', hpte, hfree, fun i hi => ?_, fun f hf ha => ?_⟩
  · rw [htable]
    exact (h.grows.table i).resolve_right fun hc => hi hc.1
  · obtain ⟨hf₂, hmem'⟩ := hmem f fun hf' => hf ((hfree f).mpr (.inl hf'))
    rw [hmem', hfreed.shrinks.mem f hf₂ (h.grows.apart hf ha), h.grows.mem f hf ha]

end Allocated

theorem allocLoop_spec {fuel : Nat} (hnew : newsz < 2 ^ 31) (hold : oldsz ≤ newsz)
    (hs : Space s pgdir K R 0)
    (hnone : ∀ n, pages oldsz ≤ n → n < kernPage → ¬ Present (s.pte pgdir n)) (hm : pages oldsz ≤ m)
    (hle : m ≤ pages newsz) (hfuel : 2 ^ 19 < m + fuel)
    (h : Allocated pgdir K R 0 (pages oldsz) m s s₁)
    (hlen : s.free.length ≤ s₁.free.length + 2 * (m - pages oldsz)) :
    wp (allocLoop K pgdir oldsz newsz fuel (m * 4096)) (fun r s' =>
      (r = newsz ∧ Allocated pgdir K R 0 (pages oldsz) (pages newsz) s s' ∧
        s.free.length ≤ s'.free.length + 2 * (pages newsz - pages oldsz)) ∨
      (r = 0 ∧ Restored pgdir K R s s' ∧ s.free.length < 2 * (pages newsz - pages oldsz))) s₁ := by
  have hpages : pages newsz ≤ 2 ^ 19 := by
    unfold pages
    omega
  have hbelow : ∀ n, n < pages newsz ↔ n * 4096 < newsz := fun n => by
    unfold pages
    omega
  have hfree : ∀ n, pages oldsz ≤ n → n * 4096 < newsz →
      ¬ Present (s.pte pgdir n) := fun n hn hlt =>
    hnone n hn (show n < 0x80000 by omega)
  induction fuel generalizing s₁ m with
  | zero => omega
  | succ fuel ih =>
    rw [allocLoop]
    by_cases hlt : m * 4096 < newsz
    · have hnext : (m * 4096 + 4096) % 2 ^ 32 = (m + 1) * 4096 := by omega
      have hk : m < kernPage := show m < 0x80000 by omega
      have hm' := (hbelow m).mpr hlt
      have hhi : ∀ n, n < m → n * 4096 < newsz := by omega
      rw [if_pos hlt, wp_bind, wp_kalloc]
      cases hlist : s₁.free with
      | nil =>
        rw [hlist, List.length_nil] at hlen
        rw [wp_bind]
        refine (deallocuvm_spec hnew.le (by omega) h.space).mono ?_
        rintro _ s' ⟨_, hfreed⟩
        rw [wp_pure]
        exact .inr
          ⟨rfl, h.restored hs hfreed hhi hfree hfreed.space .refl fun g hg => ⟨hg, rfl⟩, by omega⟩
      | cons f l =>
        have hf : f ∈ s₁.free := by rw [hlist]; exact List.mem_cons_self
        have hf0 := h.space.free_ne_zero hf
        obtain ⟨htake, -, hpte, -⟩ := h.space.takePage hlist fun _ => 0
        have hp : ¬ Present ((s₁.takePage f l fun _ => 0).pte pgdir m) := by
          rw [hpte, h.old m (.inr (Nat.le_refl m))]
          exact hnone m hm hk
        rw [hlist, List.length_cons] at hlen
        simp only [zeroPage, wp_bind, wp_modify]
        refine (mappages_page htake hf0 hk hp (by decide) rfl).mono fun r s' hr => ?_
        rcases hr with ⟨rfl, rfl, hempty⟩ | ⟨rfl, hs', hmap⟩
        · have hl : l = [] := hempty.free
          rw [hl, List.length_nil] at hlen
          simp only [Bool.false_eq_true, if_false, wp_bind]
          refine (deallocuvm_spec hnew.le (by omega) htake).mono ?_
          rintro _ s₂ ⟨_, hfreed⟩
          refine (kfree_hand hfreed.space hf0).mono ?_
          rintro _ s' ⟨hs', hsame, hmem⟩
          rw [wp_pure]
          exact .inr
            ⟨rfl, (h.take hk.le hlist _).restored hs hfreed hhi hfree hs' hsame hmem, by omega⟩
        · rw [if_pos rfl, hnext]
          refine ih (by omega) (by omega) (by omega) (h.snoc hm hk hlist hs' hmap) ?_
          have hlen' := hmap.length
          have : (s₁.takePage f l fun _ => 0).free.length = l.length := rfl
          omega
    · obtain rfl : m = pages newsz := Nat.le_antisymm hle (by
        have := hbelow m
        omega)
      rw [if_neg hlt, wp_pure]
      exact .inl ⟨rfl, h, hlen⟩

theorem allocuvm_spec (hnew : newsz < 2 ^ 31) (hold : oldsz ≤ newsz) (h : Space s pgdir K R 0)
    (hnone : ∀ n, pages oldsz ≤ n → n < kernPage → ¬ Present (s.pte pgdir n)) :
    wp (allocuvm K pgdir oldsz newsz) (fun r s' =>
      (r = newsz ∧ Allocated pgdir K R 0 (pages oldsz) (pages newsz) s s' ∧
        s.free.length ≤ s'.free.length + 2 * (pages newsz - pages oldsz)) ∨
      (r = 0 ∧ Restored pgdir K R s s' ∧ s.free.length < 2 * (pages newsz - pages oldsz))) s := by
  have hle : pages oldsz ≤ pages newsz := by
    unfold pages
    omega
  rw [allocuvm, if_neg (by omega), if_neg (by omega), pgroundup_eq (by omega)]
  exact allocLoop_spec hnew hold h hnone (Nat.le_refl _) hle (by omega) (.refl h) (by omega)

theorem Allocated.filled (h : Allocated pgdir K R 0 (pages oldsz) (pages newsz) s s')
    (hfilled : Filled s pgdir oldsz) (hle : pages oldsz ≤ pages newsz) : Filled s' pgdir newsz := by
  intro n hn
  by_cases hnew : pages oldsz ≤ n ∧ n < pages newsz
  · obtain ⟨f, -, hpte, -⟩ := h.new n hnew.1 hnew.2
    refine iff_of_true ?_ hnew.2
    rw [hpte]
    omega
  · rw [h.old n (by omega), hfilled n hn]
    omega

/-- Different pages have different frames. -/
theorem Space.frames_ne (h : Space s pgdir K R hand) (hm : m < kernPage) (hn : n < kernPage)
    (hpm : Present (s.pte pgdir m)) (hpn : Present (s.pte pgdir n)) (hmn : m ≠ n) :
    frameOf (s.pte pgdir m) ≠ frameOf (s.pte pgdir n) := by
  rw [← page_eq hm hpm, ← page_eq hn hpn]
  exact h.ne (k := .page m) (j := .page n) (h.page_ne_zero hm hpm) (by simpa using hmn)

/-- `allocuvm` either maps exactly the pages up to `newsz`, on different frames that were
free and are filled with zeros, and `deallocuvm` undoes that; or `kalloc` has failed and all
is as before, except that there may be more page tables. `deallocuvm` always returns. -/
theorem allocuvm_all_or_nothing (h : Space s pgdir K R 0) (hfilled : Filled s pgdir oldsz)
    (hold : oldsz ≤ newsz) (hnew : newsz < 2 ^ 31) :
    wp (allocuvm K pgdir oldsz newsz) (fun r s' =>
      (r = newsz ∧ Filled s' pgdir newsz ∧ Allocated pgdir K R 0 (pages oldsz) (pages newsz) s s' ∧
        (∀ m n, m < pages newsz → n < pages newsz → m ≠ n →
          frameOf (s'.pte pgdir m) ≠ frameOf (s'.pte pgdir n)) ∧
        wp (deallocuvm K pgdir newsz oldsz)
          (fun r s'' => r = oldsz ∧ Restored pgdir K R s s'') s') ∨
      (r = 0 ∧ Restored pgdir K R s s' ∧ s.free.length < 2 * (pages newsz - pages oldsz))) s ∧
    ∀ a b t, a ≤ 2 ^ 31 → b ≤ 2 ^ 31 → Space t pgdir K R 0 →
      ∃ r t', deallocuvm K pgdir a b t = .ok (r, t') := by
  have hle : pages oldsz ≤ pages newsz := by
    unfold pages
    omega
  have hlt : pages newsz ≤ 0x80000 := by
    unfold pages
    omega
  have hbelow : ∀ n, n < pages newsz → n * 4096 < newsz := fun n => by
    unfold pages
    omega
  have hnone : ∀ n, pages oldsz ≤ n → n < kernPage → ¬ Present (s.pte pgdir n) := fun n hn hk hp =>
    absurd ((hfilled n hk).mp hp) (by omega)
  constructor
  · refine (allocuvm_spec hnew hold h hnone).mono fun r s' hr => ?_
    rcases hr with ⟨hr, halloc, -⟩ | hr
    · have hfilled' := halloc.filled hfilled hle
      refine .inl ⟨hr, hfilled', halloc, fun m n hm hn hmn => ?_, ?_⟩
      · have hkm : m < kernPage := Nat.lt_of_lt_of_le hm hlt
        have hkn : n < kernPage := Nat.lt_of_lt_of_le hn hlt
        exact halloc.space.frames_ne hkm hkn ((hfilled' m hkm).mpr hm) ((hfilled' n hkn).mpr hn) hmn
      · refine (deallocuvm_spec hnew.le (by omega) halloc.space).mono fun r s'' ⟨hr, hfreed⟩ => ?_
        refine ⟨by omega, halloc.restored h hfreed hbelow (fun n hn hlt => ?_) hfreed.space .refl
          fun g hg => ⟨hg, rfl⟩⟩
        exact hnone n hn (show n < 0x80000 by omega)
    · exact .inr hr
  · intro a b t ha hb ht
    obtain ⟨r, t', hrun, -⟩ := deallocuvm_spec ha hb ht
    exact ⟨r, t', hrun⟩

/-- A small kernel, and a directory with nothing in it. -/
def smallLayout : Layout where
  data := 0x108
  first := 0x115
  text_before := by decide
  data_before := by decide
  first_before := by decide

def emptyDirectory : Phys := ⟨fun _ _ => 0, List.range' 0x201 1100, 0⟩

/-- All frames but the directory and those on the free list. -/
def smallReserved (f : Nat) : Prop := f < 0x200 ∨ 0x201 + 1100 ≤ f

theorem space_emptyDirectory : Space emptyDirectory 0x200 smallLayout smallReserved 0 := by
  refine .of_zero rfl List.nodup_range' (by decide) (fun f hf => ?_) (fun f => ?_)
    (by unfold smallReserved; decide)
  · unfold smallReserved at hf
    change 0x115 ≤ f ∧ f < 0xE000
    omega
  · rw [emptyDirectory, List.mem_range'_1, smallReserved]
    omega

theorem emptyDirectory_filled : Filled emptyDirectory 0x200 0 := by
  intro n _
  rw [pte_of_no_table (by rw [word_zero rfl]; decide)]
  exact iff_of_false (by decide) (by rw [pages]; omega)

theorem emptyDirectory_none (n : Nat) (hn : pages 0 ≤ n) (hk : n < kernPage) :
    ¬ Present (emptyDirectory.pte 0x200 n) := fun hp =>
  absurd ((emptyDirectory_filled n hk).mp hp) (Nat.not_lt.mpr hn)

theorem pages_5000 : pages 5000 = 2 := by
  unfold pages
  rfl

theorem length_emptyDirectory : emptyDirectory.free.length = 1100 := List.length_range'

/-- A process of two pages, and free frames for another one. -/
theorem twoPages : ∃ s, Allocated 0x200 smallLayout smallReserved 0 0 2 emptyDirectory s ∧
    Filled s 0x200 5000 ∧ 1096 ≤ s.free.length := by
  obtain ⟨r, s, -, ⟨-, h, hlen⟩ | ⟨-, -, hlen⟩⟩ :=
    allocuvm_spec (show 5000 < 2 ^ 31 by decide)
      (Nat.zero_le _) space_emptyDirectory emptyDirectory_none
  · have hfilled := h.filled emptyDirectory_filled (by rw [pages_zero]; exact Nat.zero_le _)
    rw [pages_zero, pages_5000] at h hlen
    rw [length_emptyDirectory] at hlen
    exact ⟨s, h, hfilled, by omega⟩
  · rw [pages_zero, pages_5000, length_emptyDirectory] at hlen
    exact absurd hlen (by decide)

/-- Two pages are made, with the page table that they need. -/
theorem allocuvm_two_pages :
    ∃ s', allocuvm smallLayout 0x200 0 5000 emptyDirectory = .ok (5000, s') ∧
    Filled s' 0x200 5000 := by
  obtain ⟨halloc, -⟩ := allocuvm_all_or_nothing space_emptyDirectory emptyDirectory_filled
    (show 0 ≤ 5000 by decide) (by decide)
  obtain ⟨r, s', hrun, ⟨rfl, hfilled, -⟩ | ⟨-, -, hlen⟩⟩ := halloc
  · exact ⟨s', hrun, hfilled⟩
  · rw [pages_zero, pages_5000, length_emptyDirectory] at hlen
    exact absurd hlen (by decide)

end Xv6.Vm
