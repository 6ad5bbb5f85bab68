import Xv6.VmPages

/-!
# The kernel part of an address space

`setupkvm` makes the four ranges of `kmap`, or gives back all frames.
-/
namespace Xv6.Vm

open Function (update update_self update_of_ne)
open Wp
open Ownership (Owns)

variable {s s' s₁ : Phys} {pgdir hand : Nat} {K : Layout} {R : Nat → Prop} {i m n f : Nat}

/-! ## Ranges of pages -/

/-- Pages `n` to `n + d` have been mapped to the frames from `q` on. -/
structure MappedRange (pgdir n d q p : Nat) (s s' : Phys) : Prop where
  tables : NewTables pgdir (fun i => ∃ m, n ≤ m ∧ m ≤ n + d ∧ m / 1024 = i) s s'
  pte : ∀ m, s'.pte pgdir m = if n ≤ m ∧ m ≤ n + d then (q + (m - n)) * 4096 + p else s.pte pgdir m

theorem not_user_entry (q : Nat) {perm : Nat} (hperm : perm < 4) :
    ¬ User (q * 4096 + (perm / 2 * 2 + 1)) := by
  omega

theorem mapLoop_range {d q perm fuel last : Nat} (h : Space s pgdir K R hand) (hn : 0x80000 ≤ n)
    (hlt : n + d < 2 ^ 20) (hq : q + d < 2 ^ 20) (hfuel : d < fuel) (hperm : perm < 4)
    (hlast : last = (n + d) * 4096) (hnone : ∀ m, n ≤ m → m ≤ n + d → ¬ Present (s.pte pgdir m)) :
    wp (mapLoop pgdir perm last fuel (n * 4096) (q * 4096)) (fun r s' => Space s' pgdir K R hand ∧
      Grows pgdir s s' ∧ (r = true → MappedRange pgdir n d q (perm / 2 * 2 + 1) s s') ∧
      (r = false → s.slack pgdir < 0)) s := by
  induction d generalizing s n q fuel with
  | zero =>
    obtain ⟨fuel, rfl⟩ : ∃ k, fuel = k + 1 := ⟨fuel - 1, by omega⟩
    refine mapLoop_step h (Nat.mul_div_cancel n (by decide)) (by omega)
      (hnone n (by omega) (by omega))
      (entry_eq q (by omega)) (by omega) (fun hfull => ⟨h, .refl, by simp, fun _ => hfull.slack⟩)
      fun s₁ s' h₁ hpte hset hfree hmap => ?_
    rw [if_pos (by omega), wp_pure]
    refine ⟨h₁.mapKernel hn hset hfree (not_user_entry q hperm), hmap.grows,
      fun _ =>
        ⟨hmap.tables.mono fun i hi => ⟨n, by omega, by omega, hi.symm⟩, fun m => ?_⟩, by simp⟩
    rw [hmap.pte]
    by_cases hm : m = n
    · rw [hm, update_self, if_pos (by omega), Nat.sub_self, Nat.add_zero q]
    · rw [update_of_ne hm, if_neg (by omega)]
  | succ d ih =>
    obtain ⟨fuel, rfl⟩ : ∃ k, fuel = k + 1 := ⟨fuel - 1, by omega⟩
    refine mapLoop_step h (Nat.mul_div_cancel n (by decide)) (by omega)
      (hnone n (by omega) (by omega))
      (entry_eq q (by omega)) (by omega) (fun hfull => ⟨h, .refl, by simp, fun _ => hfull.slack⟩)
      fun s₁ s' h₁ hpte hset hfree hmap => ?_
    have hother : ∀ m, m ≠ n → s'.pte pgdir m = s.pte pgdir m := fun m hm => by
      rw [hmap.pte, update_of_ne hm]
    rw [if_neg (by omega), show (n * 4096 + 4096) % 2 ^ 32 = (n + 1) * 4096 by omega,
      show (q * 4096 + 4096) % 2 ^ 32 = (q + 1) * 4096 by omega]
    have hlast' : last = (n + 1 + d) * 4096 := by rw [hlast, Nat.add_assoc, Nat.add_comm 1 d]
    refine (ih (h₁.mapKernel hn hset hfree (not_user_entry q hperm))
      (Nat.le_succ_of_le hn) (by omega) (by omega)
      (by omega) hlast' fun m hm hm' => ?_).mono fun r s'' ⟨hs'', hgrows, hrange, hslack⟩ => ?_
    · rw [hother m (by omega)]
      exact hnone m (by omega) (by omega)
    · refine ⟨hs'', hmap.grows.trans hgrows, fun hr => ⟨?_, fun m => ?_⟩,
        fun hr => hmap.tables.slack ▸ hslack hr⟩
      · exact (hmap.tables.mono fun i hi => ⟨n, by omega, by omega, hi.symm⟩).trans
          ((hrange hr).tables.mono fun i ⟨m, hm, hm', hi⟩ => ⟨m, by omega, by omega, hi⟩)
      rw [(hrange hr).pte]
      by_cases hm : m = n
      · rw [hm, if_neg (by omega), if_pos (by omega), hmap.pte, update_self,
          Nat.sub_self, Nat.add_zero q]
      · rw [hother m hm]
        by_cases hmn : n + 1 ≤ m ∧ m ≤ n + 1 + d
        · rw [if_pos hmn, if_pos (by omega), show q + 1 + (m - (n + 1)) = q + (m - n) by omega]
        · rw [if_neg hmn, if_neg (by omega)]

/-! ## kmap -/

namespace Kmap

def size (k : Kmap) : Nat := (k.physEnd + (2 ^ 32 - k.physStart)) % 2 ^ 32

/-- Page `n` lies in the range. -/
def Covers (k : Kmap) (n : Nat) : Prop := k.virt ≤ n * 4096 ∧ n * 4096 < k.virt + k.size

instance (k : Kmap) (n : Nat) : Decidable (k.Covers n) := instDecidableAnd

/-- The entry for page `n` of the range. -/
def entry (k : Kmap) (n : Nat) : Nat := k.physStart + (n * 4096 - k.virt) + k.perm + 1

/-- The range consists of pages of the kernel and ends at 2 ^ 32 at most. -/
structure Fits (k : Kmap) : Prop where
  virt : k.virt % 4096 = 0
  start : k.physStart % 4096 = 0
  whole : k.size % 4096 = 0
  some : 0 < k.size
  high : 2 ^ 31 ≤ k.virt
  top : k.virt + k.size ≤ 2 ^ 32
  phys : k.physStart + k.size ≤ 2 ^ 32
  perm : k.perm = 0 ∨ k.perm = 2

end Kmap

theorem mappages_kmap {k : Kmap} (hk : k.Fits) (h : Space s pgdir K R hand)
    (hnone : ∀ n, k.Covers n → ¬ Present (s.pte pgdir n)) :
    wp (mappages pgdir k.virt k.size k.physStart k.perm)
      (fun r s' => Space s' pgdir K R hand ∧ Grows pgdir s s' ∧
      (r = true → NewTables pgdir (fun i => ∃ n, k.Covers n ∧ n / 1024 = i) s s' ∧
        ∀ n, s'.pte pgdir n = if k.Covers n then k.entry n else s.pte pgdir n) ∧
      (r = false → s.slack pgdir < 0)) s := by
  obtain ⟨v, hv⟩ : ∃ v, k.virt = v * 4096 := ⟨k.virt / 4096, by have := hk.virt; omega⟩
  obtain ⟨q, hq⟩ : ∃ q, k.physStart = q * 4096 := ⟨k.physStart / 4096, by have := hk.start; omega⟩
  obtain ⟨d, hd⟩ : ∃ d, k.size = (d + 1) * 4096 :=
    ⟨k.size / 4096 - 1, by have := hk.whole; have := hk.some; omega⟩
  have hhigh := hk.high
  have htop := hk.top
  have hphys := hk.phys
  have hperm : k.perm < 4 ∧ k.perm / 2 * 2 = k.perm := by
    rcases hk.perm with hp | hp <;> rw [hp] <;> decide
  have hcovers : ∀ n, k.Covers n ↔ v ≤ n ∧ n ≤ v + d := fun n => by
    unfold Kmap.Covers
    omega
  have hlast : pgrounddown ((k.virt + k.size + (2 ^ 32 - 1)) % 2 ^ 32) = (v + d) * 4096 := by
    unfold pgrounddown
    omega
  rw [mappages, hlast, hv, hq, pgrounddown_mul]
  refine (mapLoop_range h (by omega) (by omega) (by omega) (by omega) hperm.1 rfl
    fun n hn hn' => hnone n ((hcovers n).mpr ⟨hn, hn'⟩)).mono ?_
  rintro r s' ⟨hs', hgrows, hrange, hslack⟩
  refine ⟨hs', hgrows, fun hr => ⟨?_, fun n => ?_⟩, hslack⟩
  · refine (hrange hr).tables.mono ?_
    rintro i ⟨n, hn, hn', hi⟩
    exact ⟨n, (hcovers n).mpr ⟨hn, hn'⟩, hi⟩
  rw [(hrange hr).pte]
  by_cases hc : k.Covers n
  · rw [if_pos hc, if_pos ((hcovers n).mp hc), hperm.2, Kmap.entry, hv, hq]
    have := (hcovers n).mp hc
    omega
  · rw [if_neg hc, if_neg fun h => hc ((hcovers n).mpr h)]

/-- The ranges of the list are mapped, and the other entries are the same. -/
structure KernelMapped (l : List Kmap) (pgdir : Nat) (s s' : Phys) : Prop where
  tables : NewTables pgdir (fun i => ∃ k ∈ l, ∃ n, k.Covers n ∧ n / 1024 = i) s s'
  covered : ∀ k ∈ l, ∀ n, k.Covers n → s'.pte pgdir n = k.entry n
  other : ∀ n, (∀ k ∈ l, ¬ k.Covers n) → s'.pte pgdir n = s.pte pgdir n

theorem mapKernel_spec {l : List Kmap} (hfits : ∀ k ∈ l, k.Fits)
    (hdisjoint : l.Pairwise fun k k' => ∀ n, k.Covers n → ¬ k'.Covers n)
    (h : Space s pgdir K R hand) (hnone : ∀ k ∈ l, ∀ n, k.Covers n → ¬ Present (s.pte pgdir n)) :
    wp (mapKernel pgdir l) (fun r s' => Space s' pgdir K R hand ∧ Grows pgdir s s' ∧
      (r = true → KernelMapped l pgdir s s') ∧ (r = false → s.slack pgdir < 0)) s := by
  induction l generalizing s with
  | nil =>
    exact (wp_pure _).mpr ⟨h, .refl, fun _ => ⟨.of_same rfl rfl, by simp, fun _ _ => rfl⟩, by simp⟩
  | cons k l ih =>
    obtain ⟨hk, hl⟩ := List.pairwise_cons.mp hdisjoint
    rw [mapKernel, wp_bind]
    refine (mappages_kmap (hfits k List.mem_cons_self) h (hnone k List.mem_cons_self)).mono
      fun r s₁ ⟨hs₁, hgrows, hmap, hslack⟩ => ?_
    cases r with
    | false => exact (wp_pure _).mpr ⟨hs₁, hgrows, by simp, hslack⟩
    | true =>
      rw [if_pos rfl]
      obtain ⟨htables, hpte⟩ := hmap rfl
      have hother : ∀ n, ¬ k.Covers n → s₁.pte pgdir n = s.pte pgdir n := fun n hn => by
        rw [hpte, if_neg hn]
      refine (ih (fun k' hk' => hfits k' (List.mem_cons_of_mem _ hk')) hl hs₁
        fun k' hk' n hn => ?_).mono fun r s' ⟨hs', hgrows', hmapped, hslack'⟩ =>
          ⟨hs', hgrows.trans hgrows',
          fun hr => ⟨?_, fun k' hk' n hn => ?_, fun n hn => ?_⟩, fun hr => ?_⟩
      · rw [hother n fun hc => hk k' hk' n hc hn]
        exact hnone k' (List.mem_cons_of_mem _ hk') n hn
      · exact (htables.mono fun i ⟨n, hn, hi⟩ => ⟨k, List.mem_cons_self, n, hn, hi⟩).trans
          ((hmapped hr).tables.mono fun i ⟨k', hk', hi⟩ => ⟨k', List.mem_cons_of_mem _ hk', hi⟩)
      · rcases List.mem_cons.mp hk' with rfl | hmem
        · rw [(hmapped hr).other n fun k'' hk'' => hk k'' hk'' n hn, hpte, if_pos hn]
        · exact (hmapped hr).covered k' hmem n hn
      · rw [(hmapped hr).other n fun k' hk' => hn k' (List.mem_cons_of_mem _ hk'),
          hother n (hn k List.mem_cons_self)]
      · rw [← htables.slack]
        exact hslack' hr

theorem mem_kmap {k : Kmap} {P : Kmap → Prop} (h : k ∈ kmap K) (h₁ : P ⟨0x80000000, 0, 0x100000, 2⟩)
    (h₂ : P ⟨0x80100000, 0x100000, K.data * 4096, 0⟩)
    (h₃ : P ⟨0x80000000 + K.data * 4096, K.data * 4096, 0xE000000, 2⟩)
    (h₄ : P ⟨0xFE000000, 0xFE000000, 0, 2⟩) :
    P k := by
  simp only [kmap, List.mem_cons, List.not_mem_nil, or_false] at h
  rcases h with rfl | rfl | rfl | rfl <;> assumption

theorem data_bounds (K : Layout) : 0x100 < K.data ∧ K.data < 0xE000 := by
  have h₁ := K.text_before
  have h₂ := K.data_before
  have h₃ : K.first < 0xE000 := K.first_before
  omega

theorem kmap_fits (k : Kmap) (hk : k ∈ kmap K) : k.Fits := by
  have hdata := data_bounds K
  refine mem_kmap hk ?_ ?_ ?_ ?_
  all_goals
    constructor
    case perm => simp
    all_goals simp only [Kmap.size] <;> omega

theorem kmap_disjoint : (kmap K).Pairwise fun k k' => ∀ n, k.Covers n → ¬ k'.Covers n := by
  have hdata := data_bounds K
  simp only [kmap, List.pairwise_cons, List.mem_cons, List.not_mem_nil, or_false,
    forall_eq_or_imp, forall_eq, Kmap.Covers, Kmap.size]
  refine ⟨⟨?_, ?_, ?_⟩, ⟨?_, ?_⟩, ?_, by simp⟩
  all_goals
    intro n
    omega

/-! ## freevm -/

/-- The places of an address space without pages, when only the tables of a list are left. -/
def left (s : Phys) (pgdir : Nat) (l : List Nat) : Place → Nat
  | .dir => pgdir
  | .table i => if i ∈ l then s.table pgdir i else 0
  | .page _ => 0
  | .hand => 0

/-- All frames that are not reserved are free. -/
structure Released (R : Nat → Prop) (s s' : Phys) : Prop where
  free : ∀ f, f ∈ s'.free ↔ ¬ R f
  nodup : s'.free.Nodup
  mem : ∀ f, R f → s'.mem f = s.mem f

/-- A page of its own is freed. -/
theorem kfree_place {P : Place → Nat} {k : Place} (h : Owns R (· ∉ s.free) P)
    (hnodup : s.free.Nodup) (hrange : ∀ f, ¬ R f → K.first ≤ f ∧ f < topFrame) (hk : P k ≠ 0) :
    wp (kfree K (P k)) (fun _ s' => Owns R (· ∉ s'.free) (update P k 0) ∧ s'.free.Nodup ∧
      ∀ g, g ≠ P k → s'.mem g = s.mem g) s := by
  refine (wp_kfree (hrange _ (h.free k hk))).mpr ⟨?_, ?_, fun g hg => setPage_of_ne hg⟩
  · exact h.drop hk fun c => Space.not_mem_cons_iff
  · exact List.nodup_cons.mpr ⟨h.used_of hk, hnodup⟩

theorem freeTables_spec {l : List Nat} (h : Owns R (· ∉ s.free) (left s pgdir l))
    (hnodup : s.free.Nodup) (hrange : ∀ f, ¬ R f → K.first ≤ f ∧ f < topFrame) (hl : l.Nodup)
    (hlt : ∀ i ∈ l, i < 1024) (htables : ∀ i ∈ l, Present (s.word pgdir i) → s.table pgdir i ≠ 0) :
    wp (freeTables K pgdir l) (fun _ s' => Owns R (· ∉ s'.free) (left s' pgdir []) ∧ s'.free.Nodup ∧
      ∀ f, R f → s'.mem f = s.mem f) s := by
  induction l generalizing s with
  | nil => exact (wp_pure _).mpr ⟨h, hnodup, fun _ _ => rfl⟩
  | cons i l ih =>
    obtain ⟨hi, hl⟩ := List.nodup_cons.mp hl
    have hhead : left s pgdir (i :: l) (.table i) = s.table pgdir i := if_pos List.mem_cons_self
    have htail : left s pgdir l = update (left s pgdir (i :: l)) (.table i) 0 := by
      funext k
      cases k with
      | dir | page n | hand => rw [update_of_ne (by simp)]; rfl
      | table m =>
        by_cases hm : m = i
        · rw [hm, update_self, left, if_neg hi]
        · rw [update_of_ne (by simpa using hm), left, left]
          simp only [List.mem_cons, hm, false_or]
    simp only [freeTables, wp_bind, wp_get]
    by_cases hp : Present (s.word pgdir i)
    · have ht := htables i List.mem_cons_self hp
      have hplace : left s pgdir (i :: l) (.table i) ≠ 0 := by rwa [hhead]
      have hne : pgdir ≠ s.table pgdir i := by
        rw [← hhead]
        exact (h.ne_of_ne (l := .dir) hplace (by simp)).symm
      rw [if_pos hp, wp_bind, ← table_eq (hlt i List.mem_cons_self) hp, ← hhead]
      refine (kfree_place h hnodup hrange hplace).mono ?_
      rintro _ s₁ ⟨howns, hnodup₁, hmem⟩
      have hword : ∀ k, s₁.word pgdir k = s.word pgdir k := fun k => by
        rw [Phys.word, hmem pgdir (by rwa [hhead]), Phys.word]
      have htable : s₁.table pgdir = s.table pgdir := by
        funext m
        rw [Phys.table, Phys.table, hword]
      have hleft : left s₁ pgdir l = left s pgdir l := by
        funext k
        cases k <;> simp only [left, htable]
      rw [← htail, ← hleft] at howns
      refine (ih howns hnodup₁ hl (fun m hm => hlt m (List.mem_cons_of_mem _ hm))
        fun m hm hpm => ?_).mono ?_
      · rw [htable]
        exact htables m (List.mem_cons_of_mem _ hm) (hword m ▸ hpm)
      · rintro _ s' ⟨hs', hnodup', hmem'⟩
        refine ⟨hs', hnodup', fun f hf => ?_⟩
        rw [hmem' f hf, hmem f fun heq => h.free _ hplace (heq ▸ hf)]
    · have hzero : left s pgdir (i :: l) (.table i) = 0 := by rw [hhead, table_eq_zero hp]
      rw [if_neg hp]
      refine ih ?_ hnodup hl (fun m hm => hlt m (List.mem_cons_of_mem _ hm)) fun m hm => htables m
        (List.mem_cons_of_mem _ hm)
      rw [htail, ← hzero, Function.update_eq_self]
      exact h

theorem freevm_spec (h : Space s pgdir K R 0) :
    wp (freevm K pgdir) (fun _ s' => Released R s s') s := by
  rw [freevm, if_neg h.dir, wp_bind]
  refine (deallocuvm_spec (Nat.le_refl _) (Nat.zero_le _) h).mono ?_
  rintro _ s₁ ⟨_, hfreed⟩
  have hs₁ := hfreed.space
  have hnone : ∀ n, s₁.page pgdir n = 0 := by
    intro n
    by_contra hp
    obtain ⟨hn, hpn⟩ := present_of_page hp
    have hlt : n < 0x80000 := hn
    have hpte := hfreed.pte n
    by_cases hold : Present (s.pte pgdir n)
    · rw [if_pos ⟨pages_zero.le.trans (Nat.zero_le n), by omega, hold⟩] at hpte
      exact absurd (hpte ▸ hpn) (by decide)
    · rw [if_neg fun hc => hold hc.2.2] at hpte
      exact hold (hpte ▸ hpn)
  have hleft : place s₁ pgdir 0 = left s₁ pgdir (List.range 1024) := by
    funext k
    cases k with
    | dir | hand => rfl
    | table i =>
      by_cases hi : i < 1024
      · rw [left, if_pos (List.mem_range.mpr hi), place]
      · rw [left, if_neg (by simpa using hi), place, Phys.table, if_neg fun hc => hi hc.1]
    | page n => exact hnone n
  have hR : ∀ f, R f → s₁.mem f = s.mem f := fun f hf =>
    hfreed.shrinks.mem f (hs₁.reserved_not_free hf) (h.apart_reserved hf)
  rw [wp_bind]
  refine (freeTables_spec (hleft ▸ hs₁.owns) hs₁.nodup h.range List.nodup_range (by simp)
    fun i hi hp => ?_).mono ?_
  · exact hs₁.table_ne_zero (by simpa using hi) hp
  · rintro _ s₂ ⟨howns, hnodup, hmem⟩
    have hdir : left s₂ pgdir [] .dir ≠ 0 := h.dir
    refine (kfree_place howns hnodup h.range hdir).mono ?_
    rintro _ s' ⟨howns', hnodup', hmem'⟩
    refine ⟨fun f => ?_, hnodup', fun f hf => ?_⟩
    · have hzero : ∀ k, update (left s₂ pgdir []) .dir 0 k = 0 := fun k => by
        cases k with
        | dir => rfl
        | table i | page n | hand => rw [update_of_ne (by simp)]; rfl
      rw [← not_iff_not, not_not, howns'.exact f]
      exact ⟨fun hf => hf.resolve_right fun hk => hk.elim fun k hk => hk.1 (hzero k), .inl⟩
    · rw [hmem' f fun heq => howns.free _ hdir (heq ▸ hf), hmem f hf, hR f hf]

/-! ## setupkvm -/

/-- The free list is in order. -/
structure Sane (K : Layout) (s : Phys) : Prop where
  nodup : s.free.Nodup
  range : ∀ f ∈ s.free, K.first ≤ f ∧ f < topFrame

/-- The frames that were not free have not been touched. -/
theorem Grows.mem_old (h : Grows pgdir s₁ s') (hs₁ : Space s₁ pgdir K R hand) (hf : R f) :
    s'.mem f = s₁.mem f :=
  h.mem f (hs₁.reserved_not_free hf) (hs₁.apart_reserved hf)

/-- A new address space `d`, in which nothing is mapped but the kernel. -/
structure KernelSpace (K : Layout) (d : Nat) (s s' : Phys) : Prop where
  space : Space s' d K (· ∉ s.free) 0
  kmap : ∀ k ∈ kmap K, ∀ n, k.Covers n → s'.pte d n = k.entry n
  other : ∀ n, (∀ k ∈ Vm.kmap K, ¬ k.Covers n) → s'.pte d n = 0
  slack : s.free.length ≤ s'.slack d + 1025
  mem : ∀ f, f ∉ s.free → s'.mem f = s.mem f

theorem setupkvm_spec (h : Sane K s) :
    wp (setupkvm K) (fun r s' =>
      (r = none ∧ Released (· ∉ s.free) s s' ∧ s.free.length < 1025) ∨
      ∃ d, r = some d ∧ KernelSpace K d s s') s := by
  rw [setupkvm, wp_bind, wp_kalloc]
  cases hfree : s.free with
  | nil =>
    exact (wp_pure _).mpr
      (.inl ⟨rfl, ⟨fun f => by simp [hfree], hfree ▸ h.nodup, fun _ _ => rfl⟩, by decide⟩)
  | cons d l =>
    have hd : d ∈ s.free := by rw [hfree]; exact List.mem_cons_self
    have hnodup : (d :: l).Nodup := hfree ▸ h.nodup
    have hd0 : d ≠ 0 := by
      have := (h.range d hd).1
      have := K.data_before
      omega
    have hspace : Space
        (({ s with free := l } : Phys).setPage d fun _ => 0) d K (· ∉ s.free) 0 := by
      refine .of_zero (setPage_self ..) (List.nodup_cons.mp hnodup).2 hd0 (fun f hf => ?_)
        (fun f => ?_) (not_not_intro hd)
      · exact h.range f (not_not.mp hf)
      · rw [hfree]
        exact Space.not_mem_tail_iff hnodup
    have hzero : ∀ n, (({ s with free := l } : Phys).setPage d fun _ => 0).pte d n = 0 := fun n =>
      pte_of_no_table (by rw [word_zero (setPage_self ..)]; decide)
    have hnone : ((({ s with free := l } : Phys).setPage d fun _ => 0).noTable d).card ≤ 1024 := by
      refine (Finset.card_filter_le _ _).trans ?_
      rw [Finset.card_range]
    have hslack₀ : (({ s with free := l } : Phys).setPage d fun _ => 0).slack d = l.length -
        ((({ s with free := l } : Phys).setPage d fun _ => 0).noTable d).card := rfl
    have hmem : ∀ f, f ∉ s.free →
        (({ s with free := l } : Phys).setPage d fun _ => 0).mem f = s.mem f :=
      fun f hf => setPage_of_ne fun heq => hf (heq ▸ hd)
    simp only [zeroPage, wp_bind, wp_modify]
    refine (mapKernel_spec kmap_fits kmap_disjoint hspace fun k _ n _ => ?_).mono ?_
    · rw [hzero]
      decide
    · rintro r s₁ ⟨hs₁, hgrows, hmapped, hslack⟩
      have hmem₁ : ∀ f, f ∉ s.free → s₁.mem f = s.mem f := fun f hf => by
        rw [hgrows.mem_old hspace hf, hmem f hf]
      cases r with
      | false =>
        simp only [Bool.false_eq_true, if_false, wp_bind]
        refine (freevm_spec hs₁).mono fun _ s' hs' => (wp_pure _).mpr (.inl ⟨rfl, ?_, ?_⟩)
        · exact hfree ▸ ⟨hs'.free, hs'.nodup, fun f hf => by rw [hs'.mem f hf, hmem₁ f hf]⟩
        · have hneg := hslack rfl
          rw [hslack₀] at hneg
          rw [List.length_cons]
          omega
      | true =>
        rw [if_pos rfl, wp_pure]
        refine .inr ⟨d, rfl, hs₁, (hmapped rfl).covered, fun n hn => ?_, ?_, hmem₁⟩
        · rw [(hmapped rfl).other n hn, hzero]
        · rw [(hmapped rfl).tables.slack, hslack₀, hfree, List.length_cons]
          omega

end Xv6.Vm
