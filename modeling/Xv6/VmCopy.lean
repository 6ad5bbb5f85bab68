import Xv6.Runs
import Xv6.VmAlloc
import Xv6.VmKernel

/-!
# Copying an address space

`copyuvm` makes a child whose pages hold the same bytes, with the same flags, on frames that
nobody else has.
-/
namespace Xv6.Vm

open Function (update update_self update_of_ne)
open Bytes Wp
open Runs (Reachable)

variable {s s' s₁ s₂ : Phys} {pgdir d hand : Nat} {K : Layout} {R : Nat → Prop} {i m n f w sz : Nat}

theorem Space.sane (h : Space s pgdir K R hand) : Sane K s where
  nodup := h.nodup
  range f hf := h.range f fun hR => h.reserved_not_free hR hf

/-- Nothing has happened to a directory if only free frames were written. -/
theorem Space.sameTables (h : Space s pgdir K R hand)
    (hmem : ∀ f, f ∉ s.free → s'.mem f = s.mem f) :
    SameTables pgdir s s' where
  dir k := by rw [Phys.word, Phys.word, hmem pgdir (h.not_free (k := .dir) h.dir)]
  table i k ht := by
    have hnot : s.table pgdir i ∉ s.free := h.not_free (k := .table i) ht
    rw [Phys.word, Phys.word, hmem _ hnot]

theorem flagsOf_lt (w : Nat) : flagsOf w < 4096 := Nat.mod_lt w (by decide)

theorem flagsOf_odd (h : Present w) : flagsOf w % 2 = 1 := by
  unfold flagsOf
  omega

/-- The pages below `m` have been copied. -/
structure Copied (K : Layout) (pgdir d m : Nat) (s s' : Phys) : Prop where
  space : Space s' d K (· ∉ s.free) 0
  mem : ∀ f, f ∉ s.free → s'.mem f = s.mem f
  copy : ∀ n, n < m → ∃ f, s'.pte d n = f * 4096 + flagsOf (s.pte pgdir n) ∧
    ∀ j, j < 4096 → s'.mem f j = s.mem (frameOf (s.pte pgdir n)) j
  rest : ∀ n, m ≤ n → n < kernPage → s'.pte d n = 0
  kmap : ∀ k ∈ kmap K, ∀ n, k.Covers n → s'.pte d n = k.entry n
  other : ∀ n, kernPage ≤ n → (∀ k ∈ Vm.kmap K, ¬ k.Covers n) → s'.pte d n = 0

theorem covers_high {k : Kmap} (hk : k ∈ kmap K) (hc : k.Covers n) : kernPage ≤ n := by
  have hhigh := (kmap_fits k hk).high
  have hcov := hc.1
  show 0x80000 ≤ n
  omega

theorem KernelSpace.copied (h : KernelSpace K d s s') (pgdir : Nat) : Copied K pgdir d 0 s s' where
  space := h.space
  mem := h.mem
  copy n hn := absurd hn (Nat.not_lt_zero n)
  rest n _ hn := h.other n fun _ hk hc => absurd hn (Nat.not_lt.mpr (covers_high hk hc))
  kmap := h.kmap
  other n _ := h.other n

/-- Page `m` is copied. -/
theorem Copied.snoc {l : List Nat} {b : Buf} (h : Copied K pgdir d m s s₁) (hm : m < kernPage)
    (hpresent : ∀ n, n ≤ m → Present (s.pte pgdir n)) (hfree : s₁.free = f :: l)
    (hb : b = memmove (s₁.mem f) 0 (s.mem (frameOf (s.pte pgdir m))) 4096)
    (hs' : Space s' d K (· ∉ s.free) 0)
    (hmap : Mapped d m (f * 4096 + flagsOf (s.pte pgdir m)) (s₁.takePage f l b) s') :
    Copied K pgdir d (m + 1) s s' := by
  obtain ⟨htake, hgrows, hpte, -⟩ := h.space.takePage hfree b
  have hf : f ∈ s₁.free := by rw [hfree]; exact List.mem_cons_self
  have hf0 : f ≠ 0 := h.space.free_ne_zero hf
  have hold : ∀ n, n ≠ m → s'.pte d n = s₁.pte d n :=
    fun n hn => by rw [hmap.pte, update_of_ne hn, hpte]
  have hgrows' := hgrows.trans hmap.grows
  refine ⟨hs', fun g hg => by rw [hgrows'.mem_old h.space hg, h.mem g hg],
    fun n hn => ?_, fun n hn hk => ?_, fun k hk n hc => ?_, fun n hn hc => ?_⟩
  · by_cases hnm : n = m
    · refine ⟨f, by rw [hnm, hmap.pte, update_self], fun j hj => ?_⟩
      rw [hmap.grows.mem f (htake.not_free (k := .hand) hf0) (htake.apart_hand hf0), hnm,
        Phys.takePage, setPage_self, hb, memmove_inside (Nat.zero_le j) (by omega), Nat.sub_zero]
    · obtain ⟨g, hg, hbytes⟩ := h.copy n (by omega)
      have hp := hpresent n (by omega)
      obtain ⟨hgfree, hapart⟩ := h.space.page_of_pte (by omega) hg (flagsOf_lt _) (flagsOf_odd hp)
      refine ⟨g, by rw [hold n hnm, hg], ?_⟩
      rw [hgrows'.mem g hgfree hapart]
      exact hbytes
  · rw [hold n (by omega), h.rest n (by omega) hk]
  · have := covers_high hk hc
    rw [hold n (by omega), h.kmap k hk n hc]
  · rw [hold n (by omega), h.other n hn hc]

section

variable (hsz : sz ≤ 2 ^ 31)
  (hs : Space s pgdir K R hand) (hpresent : ∀ n, n < pages sz → Present (s.pte pgdir n))
include hsz hs hpresent

theorem copyLoop_spec {fuel : Nat} (hm : m ≤ pages sz) (hfuel : 2 ^ 19 < m + fuel)
    (h : Copied K pgdir d m s s₁) (hslack : s.free.length ≤ s₁.slack d + m + 1025) :
    wp (copyLoop K pgdir sz d fuel (m * 4096)) (fun r s' => Space s' d K (· ∉ s.free) 0 ∧
      (∀ f, f ∉ s.free → s'.mem f = s.mem f) ∧ (r = true → Copied K pgdir d (pages sz) s s') ∧
      (r = false → s.free.length < pages sz + 1025)) s₁ := by
  have hpages : pages sz ≤ 2 ^ 19 := by
    unfold pages
    omega
  induction fuel generalizing s₁ m with
  | zero => omega
  | succ fuel ih =>
    rw [copyLoop]
    by_cases hlt : m * 4096 < sz
    · have hk : m < kernPage := show m < 0x80000 by omega
      have hmp : m < pages sz := by
        unfold pages
        omega
      have hp := hpresent m hmp
      have hsame := hs.sameTables h.mem
      have hparent := hsame.pte_eq hs
      have hdir : Present (s₁.word pgdir (m / 1024)) := by
        by_contra hnot
        rw [← hparent, pte_of_no_table hnot] at hp
        exact absurd hp (by decide)
      have hword : s₁.word (s₁.table pgdir (m / 1024)) (m % 1024) = s.pte pgdir m := by
        rw [← pte_eq (by omega) hdir, hparent]
      have hframe : s₁.mem (frameOf (s.pte pgdir m)) = s.mem (frameOf (s.pte pgdir m)) := by
        have hpage : s.page pgdir m = frameOf (s.pte pgdir m) := page_eq hk hp
        rw [← hpage]
        exact h.mem _ (hs.not_free (k := .page m) (hs.page_ne_zero hk hp))
      rw [if_pos hlt, wp_bind, wp_walk (Nat.mul_div_cancel m (by decide)) (by omega)]
      refine ⟨fun _ => ?_, fun hnot => absurd hdir hnot⟩
      simp only [wp_bind, wp_get, hword]
      rw [if_neg (not_not_intro hp), wp_bind, wp_kalloc]
      cases hfree : s₁.free with
      | nil =>
        refine (wp_pure _).mpr ⟨h.space, h.mem, by simp, fun _ => ?_⟩
        rw [Phys.slack, hfree, List.length_nil] at hslack
        omega
      | cons f l =>
        have hf : f ∈ s₁.free := by rw [hfree]; exact List.mem_cons_self
        have hf0 := h.space.free_ne_zero hf
        simp only [wp_bind, wp_modify, hframe]
        generalize hb : memmove (s₁.mem f) 0 (s.mem (frameOf (s.pte pgdir m))) 4096 = b
        obtain ⟨htake, hgrows, hpte, htable⟩ := h.space.takePage hfree b
        have hslack₁ : (s₁.takePage f l b).slack d + 1 = s₁.slack d := slack_takePage hfree htable
        have hmem : ∀ g, g ∉ s.free → (s₁.takePage f l b).mem g = s.mem g := fun g hg => by
          rw [hgrows.mem_old h.space hg, h.mem g hg]
        have hnone : ¬ Present ((s₁.takePage f l b).pte d m) := by
          rw [hpte, h.rest m (Nat.le_refl m) hk]
          decide
        have hentry : f * 4096 + (flagsOf (s.pte pgdir m) / 2 * 2 + 1) =
            f * 4096 + flagsOf (s.pte pgdir m) := by
          have := flagsOf_odd hp
          omega
        refine (mappages_page htake hf0 hk hnone (flagsOf_lt _) hentry).mono fun r s' hr => ?_
        rcases hr with ⟨rfl, rfl, hfull⟩ | ⟨rfl, hs', hmap⟩
        · have hneg := hfull.slack
          simp only [Bool.false_eq_true, if_false, wp_bind]
          refine (kfree_hand htake hf0).mono ?_
          rintro _ s' ⟨hs', _, hmem'⟩
          refine (wp_pure _).mpr ⟨hs', fun g hg => ?_, by simp, fun _ => by omega⟩
          rw [(hmem' g (hs'.reserved_not_free hg)).2, hmem g hg]
        · rw [if_pos rfl, show (m * 4096 + 4096) % 2 ^ 32 = (m + 1) * 4096 by omega]
          refine ih (by omega) (by omega)
            (h.snoc hk (fun n hn => hpresent n (by omega)) hfree hb.symm hs' hmap) ?_
          rw [hmap.tables.slack]
          omega
    · obtain rfl : m = pages sz := by
        unfold pages at hm ⊢
        omega
      rw [if_neg hlt, wp_pure]
      exact ⟨h.space, h.mem, fun _ => h, by simp⟩

theorem copyuvm_spec :
    wp (copyuvm K pgdir sz) (fun r s' =>
      (r = none ∧ Released (· ∉ s.free) s s' ∧ s.free.length < pages sz + 1025) ∨
      ∃ d, r = some d ∧ Copied K pgdir d (pages sz) s s') s := by
  rw [copyuvm, wp_bind]
  refine (setupkvm_spec hs.sane).mono fun r s₁ hr => ?_
  rcases hr with ⟨rfl, hs₁, hlen⟩ | ⟨d, rfl, hs₁⟩
  · exact (wp_pure _).mpr (.inl ⟨rfl, hs₁, by omega⟩)
  · simp only [wp_bind]
    have hloop : wp (copyLoop K pgdir sz d (2 ^ 20) (0 * 4096)) _ s₁ :=
      copyLoop_spec hsz hs hpresent (Nat.zero_le _) (by decide) (hs₁.copied pgdir)
        (by have := hs₁.slack; omega)
    rw [Nat.zero_mul] at hloop
    refine hloop.mono ?_
    rintro r s₂ ⟨hs₂, hmem, hcopied, hlen⟩
    cases r with
    | true => exact (wp_pure _).mpr (.inr ⟨d, rfl, hcopied rfl⟩)
    | false =>
      simp only [Bool.false_eq_true, if_false, wp_bind]
      refine (freevm_spec hs₂).mono fun _ s' hs' => (wp_pure _).mpr
        (.inl ⟨rfl, ⟨hs'.free, hs'.nodup, fun f hf => ?_⟩, hlen rfl⟩)
      rw [hs'.mem f hf, hmem f hf]

end

/-! ## What is seen through a directory -/

/-- The byte at a virtual address. -/
def Phys.byteAt (s : Phys) (pgdir va : Nat) : Option UInt8 :=
  if Present (s.pte pgdir (va / 4096)) then
    some (s.mem (frameOf (s.pte pgdir (va / 4096))) (va % 4096)) else none

/-- A byte is written through a directory. -/
def Phys.poke (s : Phys) (pgdir va : Nat) (b : UInt8) : Phys :=
  if Present (s.pte pgdir (va / 4096)) then
    s.setPage (frameOf (s.pte pgdir (va / 4096)))
      (update (s.mem (frameOf (s.pte pgdir (va / 4096)))) (va % 4096) b)
  else s

/-- A write to user memory. -/
structure Store where
  child : Bool
  va : Nat
  byte : UInt8
  user : va < 2 ^ 31

def store (pgdir d : Nat) (s : Phys) (x : Store) : Option Phys :=
  some (s.poke (if x.child then d else pgdir) x.va x.byte)

/-- Two address spaces, in which the pages of one are reserved from the other. -/
structure Two (K : Layout) (R R' : Nat → Prop) (pgdir d : Nat) (s : Phys) : Prop where
  space : Space s pgdir K R 0
  space' : Space s d K R' 0
  pages : ∀ n, s.page pgdir n ≠ 0 → R' (s.page pgdir n)
  pages' : ∀ n, s.page d n ≠ 0 → R (s.page d n)

namespace Two

variable {R' : Nat → Prop} {va va' : Nat} {b : UInt8}

theorem symm (h : Two K R R' pgdir d s) : Two K R' R d pgdir s :=
  ⟨h.space', h.space, h.pages', h.pages⟩

/-- A write through `d` is seen by neither the tables nor the pages of `pgdir`. -/
theorem poke (h : Two K R R' pgdir d s) (hva : va < 2 ^ 31) (b : UInt8) :
    Two K R R' pgdir d (s.poke d va b) ∧
      ∀ va', va' < 2 ^ 31 → (s.poke d va b).byteAt pgdir va' = s.byteAt pgdir va' := by
  have hn : va / 4096 < kernPage := show va / 4096 < 0x80000 by omega
  rw [Phys.poke]
  split
  next hp =>
    have hpage := page_eq hn hp
    have hne := h.space'.page_ne_zero hn hp
    rw [← hpage]
    generalize update (s.mem (s.page d (va / 4096))) (va % 4096) b = buf
    have hR := h.pages' _ hne
    have hsame := sameTables_setPage (h.space.apart_reserved hR) buf
    have hsame' := sameTables_setPage (h.space'.apart_page hne) buf
    have hpte := hsame.pte_eq h.space
    have hpte' := hsame'.pte_eq h.space'
    refine ⟨⟨h.space.of_same hsame rfl, h.space'.of_same hsame' rfl, fun n => ?_, fun n => ?_⟩,
      fun va' hva' => ?_⟩
    · rw [page_congr hpte]
      exact h.pages n
    · rw [page_congr hpte']
      exact h.pages' n
    · have hn' : va' / 4096 < kernPage := show va' / 4096 < 0x80000 by omega
      rw [Phys.byteAt, Phys.byteAt, hpte]
      split
      next hp' =>
        have hne' : frameOf (s.pte pgdir (va' / 4096)) ≠ s.page d (va / 4096) := by
          intro heq
          rw [← page_eq hn' hp'] at heq
          exact h.space.page_not_reserved (h.space.page_ne_zero hn' hp') (heq ▸ hR)
        rw [setPage_of_ne hne']
      next => rfl
  next => exact ⟨h, fun _ _ => rfl⟩

/-- This is so after any number of writes through one and the other. -/
theorem reachable (h : Two K R R' pgdir d s) (hr : Reachable (store pgdir d) s s') :
    Two K R R' pgdir d s' :=
  hr.invariant h fun t x t' ht _ hx => by
    obtain rfl := Option.some.inj hx
    cases x.child with
    | true => exact (ht.poke x.user x.byte).1
    | false => exact (ht.symm.poke x.user x.byte).1.symm

end Two

/-- Frames that were free have gone to others. -/
theorem Space.others (h : Space s pgdir K R hand) (hmem : ∀ f, f ∉ s.free → s'.mem f = s.mem f)
    (hfree : s'.free ⊆ s.free) (hnodup : s'.free.Nodup) :
    Space s' pgdir K (fun f => R f ∨ f ∈ s.free ∧ f ∉ s'.free) hand := by
  refine h.of_tables (h.sameTables hmem) hnodup (fun f hf => h.range f fun hR => hf (.inl hR))
    ⟨fun k hk hR => ?_, h.owns.inj, fun f => ?_⟩
  · rcases hR with hR | ⟨hf, -⟩
    · exact h.not_reserved hk hR
    · exact h.not_free hk hf
  · by_cases hf : f ∈ s.free
    · have hnot : ¬ (R f ∨ ∃ k, place s pgdir hand k ≠ 0 ∧ place s pgdir hand k = f) := fun hc =>
        (h.owns.exact f).mpr hc hf
      rw [not_or] at hnot
      simp only [hf, hnot.1, hnot.2, true_and, false_or, or_false]
    · have hused := (h.owns.exact f).mp hf
      simp only [hf, false_and, or_false]
      exact iff_of_true (fun hf' => hf (hfree hf')) hused

/-! ## The copy -/

namespace Copied

section

variable (h : Copied K pgdir d m s s')
include h

theorem free_sub : s'.free ⊆ s.free := fun _ hf =>
  not_not.mp fun hR => h.space.reserved_not_free hR hf

/-- The parent and the child. -/
theorem two (hs : Space s pgdir K R 0) :
    Two K (fun f => R f ∨ f ∈ s.free ∧ f ∉ s'.free) (· ∉ s.free) pgdir d s' where
  space := hs.others h.mem h.free_sub h.space.nodup
  space' := h.space
  pages n hp := by
    rw [page_congr ((hs.sameTables h.mem).pte_eq hs)] at hp ⊢
    exact hs.page_not_free hp
  pages' _ hp := .inr ⟨not_not.mp (h.space.page_not_reserved hp), h.space.page_not_free hp⟩

/-- No frame belongs to both. -/
theorem disjoint (hs : Space s pgdir K R 0) (k j : Place) (hk : place s' d 0 k ≠ 0) :
    place s' d 0 k ≠ place s' pgdir 0 j := by
  intro heq
  rw [(hs.sameTables h.mem).place_eq hs] at heq
  have hfree : place s' d 0 k ∈ s.free := not_not.mp (h.space.not_reserved hk)
  rw [heq] at hk hfree
  exact hs.not_free hk hfree

theorem byteAt_parent (hs : Space s pgdir K R 0) {va : Nat} (hva : va < 2 ^ 31) :
    s'.byteAt pgdir va = s.byteAt pgdir va := by
  have hn : va / 4096 < kernPage := show va / 4096 < 0x80000 by omega
  rw [Phys.byteAt, Phys.byteAt, (hs.sameTables h.mem).pte_eq hs]
  split
  next hp =>
    have hnot := hs.page_not_free (hs.page_ne_zero hn hp)
    rw [page_eq hn hp] at hnot
    rw [h.mem _ hnot]
  next => rfl

/-- The child sees what the parent saw. -/
theorem byteAt_child (hpresent : ∀ n, n < m → Present (s.pte pgdir n))
    {va : Nat} (hva : va / 4096 < m) : s'.byteAt d va = s.byteAt pgdir va ∧
    flagsOf (s'.pte d (va / 4096)) = flagsOf (s.pte pgdir (va / 4096)) := by
  obtain ⟨f, hpte, hbytes⟩ := h.copy _ hva
  have hp := hpresent _ hva
  have hlt := flagsOf_lt (s.pte pgdir (va / 4096))
  have hodd := flagsOf_odd hp
  have hflags : flagsOf (s'.pte d (va / 4096)) = flagsOf (s.pte pgdir (va / 4096)) := by
    rw [hpte, flagsOf]
    omega
  have hframe : frameOf (s'.pte d (va / 4096)) = f := by
    rw [hpte, frameOf]
    omega
  have hp' : Present (s'.pte d (va / 4096)) := by
    rw [hpte]
    omega
  refine ⟨?_, hflags⟩
  rw [Phys.byteAt, Phys.byteAt, if_pos hp, if_pos hp', hframe, hbytes _ (Nat.mod_lt va (by decide))]

end

end Copied

/-- `copyuvm` gives a directory through which every user address up to `sz` has the byte and
the flags it has in the parent, no other user page is present, and no frame is the parent's;
whatever is written later through one of them is not seen through the other. If it fails,
all frames it has used are free again, and there were fewer of them than a directory, its
page tables and the pages may need. -/
theorem copyuvm_private (hs : Space s pgdir K R 0) (hsz : sz ≤ 2 ^ 31)
    (hpresent : ∀ n, n * 4096 < sz → Present (s.pte pgdir n)) :
    wp (copyuvm K pgdir sz) (fun r s' =>
      (r = none ∧ (∀ f, f ∈ s'.free ↔ f ∈ s.free) ∧ (∀ f, f ∉ s.free → s'.mem f = s.mem f) ∧
        s.free.length < pages sz + 1025) ∨
      ∃ d, r = some d ∧
        (∀ va, va < pgroundup sz → s'.byteAt d va = s.byteAt pgdir va ∧
          flagsOf (s'.pte d (va / 4096)) = flagsOf (s.pte pgdir (va / 4096))) ∧
        (∀ va, pgroundup sz ≤ va → va < 2 ^ 31 → s'.byteAt d va = none) ∧
        (∀ va, va < 2 ^ 31 → s'.byteAt pgdir va = s.byteAt pgdir va) ∧
        (∀ k j, place s' d 0 k ≠ 0 → place s' d 0 k ≠ place s' pgdir 0 j) ∧
        ∀ t, Reachable (store pgdir d) s' t → ∀ va va' b, va < 2 ^ 31 → va' < 2 ^ 31 →
          (t.poke d va b).byteAt pgdir va' = t.byteAt pgdir va' ∧
          (t.poke pgdir va b).byteAt d va' = t.byteAt d va') s := by
  have hpages : ∀ n, n < pages sz → Present (s.pte pgdir n) := fun n hn => hpresent n (by
    unfold pages at hn
    omega)
  refine (copyuvm_spec hsz hs hpages).mono fun r s' hr => ?_
  rcases hr with ⟨rfl, hs', hlen⟩ | ⟨d, rfl, h⟩
  · exact .inl ⟨rfl, fun f => (hs'.free f).trans not_not, hs'.mem, hlen⟩
  · rw [pgroundup_eq hsz]
    refine .inr ⟨d, rfl, fun va hva => h.byteAt_child hpages (by omega), fun va hva hlt => ?_,
      fun va hva => h.byteAt_parent hs hva, h.disjoint hs, fun t ht va va' b hva hva' => ?_⟩
    · rw [Phys.byteAt, h.rest _ (by omega) (show va / 4096 < 0x80000 by omega)]
      rfl
    · have htwo := (h.two hs).reachable ht
      exact ⟨(htwo.poke hva b).2 va' hva', (htwo.symm.poke hva b).2 va' hva'⟩

/-- Two pages are copied. -/
theorem copyuvm_two_pages : ∃ s d s', Filled s 0x200 5000 ∧
    copyuvm smallLayout 0x200 5000 s = .ok (some d, s') ∧
    ∀ va, va < 8192 → (s'.byteAt d va).isSome ∧ s'.byteAt d va = s.byteAt 0x200 va := by
  obtain ⟨s, h, hfilled, hroom⟩ := twoPages
  have hpresent : ∀ n, n * 4096 < 5000 → Present (s.pte 0x200 n) := fun n hn =>
    (hfilled n (show n < 0x80000 by omega)).mpr (by rw [pages]; omega)
  obtain ⟨r, s', hrun, ⟨-, -, -, hlen⟩ | ⟨d, rfl, hbytes, -⟩⟩ :=
    copyuvm_private h.space (show 5000 ≤ 2 ^ 31 by decide) hpresent
  · rw [pages_5000] at hlen
    omega
  · refine ⟨s, d, s', hfilled, hrun, fun va hva => ?_⟩
    have hbyte := (hbytes va hva).1
    refine ⟨?_, hbyte⟩
    rw [hbyte, Phys.byteAt, if_pos (hpresent _ (by omega))]
    rfl

/-- When the child of a `fork` is freed, the same frames are free as before, and no other frame
has changed. -/
theorem freevm_copyuvm (hs : Space s pgdir K R hand) (hsz : sz ≤ 2 ^ 31)
    (hfilled : Filled s pgdir sz) :
    wp (do if let some d ← copyuvm K pgdir sz then freevm K d) (fun _ s' =>
      (∀ f, f ∈ s'.free ↔ f ∈ s.free) ∧ ∀ f, f ∉ s.free → s'.mem f = s.mem f) s := by
  have hpages : ∀ n, n < pages sz → Present (s.pte pgdir n) := fun n hn =>
    (hfilled n (show n < 0x80000 by unfold pages at hn; omega)).mpr hn
  rw [wp_bind]
  refine (copyuvm_spec hsz hs hpages).mono fun r s₁ hr => ?_
  rcases hr with ⟨rfl, hr, -⟩ | ⟨d, rfl, h⟩
  · exact (wp_pure _).mpr ⟨fun f => (hr.free f).trans not_not, hr.mem⟩
  · refine (freevm_spec h.space).mono
      fun _ s' hs' => ⟨fun f => (hs'.free f).trans not_not, fun f hf => ?_⟩
    rw [hs'.mem f hf, h.mem f hf]

/-- The child of a process of two pages is made and freed. -/
theorem freevm_copyuvm_two_pages : ∃ s d s₁ s₂, Filled s 0x200 5000 ∧
    copyuvm smallLayout 0x200 5000 s = .ok (some d, s₁) ∧ d ∉ s₁.free ∧
    freevm smallLayout d s₁ = .ok ((), s₂) ∧ ∀ f, f ∈ s₂.free ↔ f ∈ s.free := by
  obtain ⟨s, h, hfilled, hroom⟩ := twoPages
  have hpages : ∀ n, n < pages 5000 → Present (s.pte 0x200 n) := fun n hn =>
    (hfilled n (show n < 0x80000 by rw [pages_5000] at hn; omega)).mpr hn
  have hboth := freevm_copyuvm h.space (show 5000 ≤ 2 ^ 31 by decide) hfilled
  rw [wp_bind] at hboth
  obtain ⟨r, s₁, hrun, hfree, hr⟩ := hboth.and (copyuvm_spec (by decide) h.space hpages)
  rcases hr with ⟨-, -, hlen⟩ | ⟨d, rfl, hcopied⟩
  · rw [pages_5000] at hlen
    omega
  · obtain ⟨⟨⟩, s₂, hfreed, hsame, -⟩ := hfree
    exact ⟨s, d, s₁, s₂, hfilled, hrun,
      hcopied.space.not_free (k := .dir) hcopied.space.dir, hfreed, hsame⟩

end Xv6.Vm
