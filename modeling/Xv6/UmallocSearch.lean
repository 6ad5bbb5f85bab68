import Xv6.UmallocRing

/-!
# The search of malloc

`malloc` goes once around the ring. It takes the end of the first block that is large enough,
and otherwise asks for more memory when it is back where it started.
-/
namespace Xv6.Umalloc

open Bytes Wp Intervals Proc

variable {σ : Type} {O : Os σ} {base : Nat} {s s' : Proc σ} {p q n fuel : Nat} {b c d : Extent Nat}
  {l L X Y : List (Extent Nat)} {C : Except String (Nat × Proc σ) → Prop}

/-! ## Around the ring -/

/-- What the loop does when it is back where it started. -/
def growAndGoOn (O : Os σ) (n fuel : Nat) : M σ Nat := do
  let p ← morecore O fuel n
  if p = 0 then pure 0 else mallocLoop O n fuel p (← ptr O p)

theorem mallocLoop_found (hok : Ok O s p) (h : n ≤ s.size p) :
    mallocLoop O n (fuel + 1) q p s = allot O n q p s := by
  rw [mallocLoop, bind_of_ok (size_of_ok hok), if_pos h]

theorem mallocLoop_grow (hok : Ok O s p) (h : s.size p < n) (hp : p = s.freep) :
    mallocLoop O n (fuel + 1) q p s = growAndGoOn O n fuel s := by
  rw [mallocLoop, bind_of_ok (size_of_ok hok), if_neg (by omega),
    bind_of_ok (a := s) rfl, if_pos hp]
  rfl

theorem mallocLoop_next (hok : Ok O s p) (h : s.size p < n) (hp : p ≠ s.freep) :
    mallocLoop O n (fuel + 1) q p s = mallocLoop O n fuel p (s.ptr p) s := by
  rw [mallocLoop, bind_of_ok (size_of_ok hok), if_neg (by omega),
    bind_of_ok (a := s) rfl, if_neg hp, bind_of_ok (ptr_of_ok hok)]

/-- Along a path the loop finds a block or comes to the end. -/
theorem mallocLoop_walk (hl : Linked s p l) (hok : ∀ c ∈ l, Ok O s c.lo)
    (hfree : ∀ c ∈ l, c.lo ≠ s.freep)
    (hfound : ∀ l₁ c l₂, l = l₁ ++ c :: l₂ → n ≤ s.size c.lo → C (allot O n (endOf p l₁) c.lo s))
    (hend : (∀ c ∈ l, s.size c.lo < n) →
      C (mallocLoop O n fuel (endOf p l) (s.ptr (endOf p l)) s)) :
    C (mallocLoop O n (l.length + fuel) p (s.ptr p) s) := by
  induction l generalizing p with
  | nil =>
    rw [List.length_nil, Nat.zero_add]
    exact hend nofun
  | cons c l ih =>
    obtain ⟨hlink, -, hrest⟩ := hl
    rw [List.length_cons, Nat.add_right_comm, hlink]
    by_cases hbig : n ≤ s.size c.lo
    · rw [mallocLoop_found (hok c List.mem_cons_self) hbig]
      exact hfound [] c l rfl hbig
    · rw [mallocLoop_next (hok c List.mem_cons_self) (by omega) (hfree c List.mem_cons_self)]
      refine ih hrest (fun d hd => hok d (List.mem_cons_of_mem _ hd))
        (fun d hd => hfree d (List.mem_cons_of_mem _ hd)) ?_ fun hall => ?_
      · rintro l₁ d l₂ rfl hd
        exact hfound (c :: l₁) d l₂ rfl hd
      · refine hend fun d hd => ?_
        rcases List.mem_cons.mp hd with rfl | hd
        · omega
        · exact hall d hd

/-- Around the ring the loop takes a block that is large enough; if there is none it grows the
heap. -/
theorem mallocLoop_ring (h : FreeRing O base s L) (hn : 0 < n)
    (hfound : ∀ X b Y, L = X ++ b :: Y → n ≤ s.size b.lo → C (allot O n (endOf base X) b.lo s))
    (hmissing : (∀ b ∈ L, s.size b.lo < n) → C (growAndGoOn O n fuel s)) :
    C (mallocLoop O n (L.length + (fuel + 1)) s.freep (s.ptr s.freep) s) := by
  obtain ⟨Z₁, Z₂, rfl, hfree⟩ := exists_endOf h.freep
  have hokL : ∀ c ∈ Z₁ ++ Z₂, Ok O s c.lo :=
    fun c hc => h.ok _ (List.mem_cons_of_mem _ (List.mem_map_of_mem hc))
  have hok0 := h.ok base List.mem_cons_self
  have hsmall0 : s.size base < n := by
    rw [h.size_base]
    exact hn
  have hlinked := h.linked
  rw [List.append_assoc, linked_append] at hlinked
  obtain ⟨hl₁, hl₂⟩ := hlinked
  obtain ⟨hl₂, hback⟩ := linked_append.mp hl₂
  rw [← endOf_append] at hback
  have hlt : ∀ c ∈ Z₂, s.freep < c.lo := by
    intro c hc
    rw [hfree]
    exact List.rel_of_pairwise_cons (pairwise_endOf h.sorted) (List.mem_map_of_mem hc)
  -- the blocks behind the start
  have hsecond : ∀ k,
      ((∀ c ∈ Z₂, s.size c.lo < n) → C (mallocLoop O n k (endOf base (Z₁ ++ Z₂)) base s)) →
      C (mallocLoop O n (Z₂.length + k) s.freep (s.ptr s.freep) s) := by
    intro k hk
    rw [hfree]
    refine mallocLoop_walk hl₂ (fun c hc => hokL c (List.mem_append_right _ hc))
      (fun c hc => (hlt c hc).ne') (fun l₁ c l₂ hsplit hbig => ?_) fun hall => ?_
    · rw [← endOf_append]
      exact hfound (Z₁ ++ l₁) c l₂ (by rw [hsplit, List.append_assoc]) hbig
    · rw [← endOf_append, hback.1]
      exact hk hall
  rcases List.eq_nil_or_concat Z₁ with rfl | ⟨Z, d, hZ⟩
  · refine hsecond (fuel + 1) fun hall => ?_
    rw [mallocLoop_grow hok0 hsmall0 hfree.symm]
    exact hmissing hall
  · rw [List.concat_eq_append] at hZ
    subst hZ
    have hd : s.freep = d.lo := by rw [hfree, endOf_append]; rfl
    have hlen : (Z ++ [d] ++ Z₂).length + (fuel + 1) = Z₂.length + (Z.length + (fuel + 1) + 1) := by
      simp only [List.length_append, List.length_cons, List.length_nil]
      omega
    have hsorted := h.sorted
    rw [List.map_append, List.map_append, ← List.cons_append, ← List.cons_append, List.append_assoc,
      List.pairwise_append] at hsorted
    have hbefore : ∀ a ∈ base :: Z.map Extent.lo, a ≠ s.freep := by
      intro a ha
      rw [hd]
      exact (hsorted.2.2 a ha d.lo (by simp)).ne
    rw [hlen]
    refine hsecond _ fun hall => ?_
    rw [mallocLoop_next hok0 hsmall0 (hbefore base List.mem_cons_self)]
    obtain ⟨hl, hlast⟩ := linked_append.mp hl₁
    refine mallocLoop_walk hl (fun c hc => hokL c (by simp [hc]))
      (fun c hc => hbefore c.lo (List.mem_cons_of_mem _ (List.mem_map_of_mem hc)))
      (fun l₁ c l₂ hsplit hbig => ?_)
      fun hall' => ?_
    · exact hfound l₁ c (l₂ ++ [d] ++ Z₂) (by simp [hsplit]) hbig
    · rw [hlast.1]
      by_cases hbig : n ≤ s.size d.lo
      · rw [mallocLoop_found (hokL d (by simp)) hbig]
        exact hfound Z d Z₂ (by simp) hbig
      · rw [mallocLoop_grow (hokL d (by simp)) (by omega) hd.symm]
        refine hmissing fun b hb => ?_
        simp only [List.mem_append, List.mem_singleton] at hb
        rcases hb with (hb | rfl) | hb
        · exact hall' b hb
        · omega
        · exact hall b hb

theorem wp_mallocLoop {P : Nat → Proc σ → Prop} (h : FreeRing O base s L) (hn : 0 < n)
    (hfound : ∀ X b Y, L = X ++ b :: Y → n ≤ s.size b.lo → wp (allot O n (endOf base X) b.lo) P s)
    (hmissing : (∀ b ∈ L, s.size b.lo < n) → wp (growAndGoOn O n fuel) P s) :
    wp (mallocLoop O n (L.length + (fuel + 1)) s.freep (s.ptr s.freep)) P s :=
  mallocLoop_ring (C := fun e => ∃ r s', e = .ok (r, s') ∧ P r s') h hn hfound hmissing

/-! ## Taking a block -/

/-- The end of block `b`, `n` units, has been taken out of the list. -/
structure Allotted (O : Os σ) (base n : Nat) (s : Proc σ) (X : List (Extent Nat)) (b : Extent Nat)
    (Y : List (Extent Nat)) (r : Nat) (s' : Proc σ) : Prop where
  ring : FreeRing O base s' (X ++ (shrink b (8 * n) ++ Y))
  result : r = (b.hi - 8 * n + 8) % 2 ^ 32
  size : s'.size (b.hi - 8 * n) = n
  os : s'.os = s.os
  mem : ∀ x, Outside [endOf base X, b.lo, b.hi - 8 * n] x → s'.mem x = s.mem x

section Allot

variable (h : FreeRing O base s (X ++ b :: Y)) (hn : 0 < n)

include h

/-- The list without the block, or with what is left of it, is a good one. -/
theorem ring_shrink (hfits : b.lo + 8 * n ≤ b.hi)
    (hlinked : Linked s' base (X ++ (shrink b (8 * n) ++ Y) ++ [⟨base, base⟩])) (hos : s'.os = s.os)
    (hfreep : s'.freep = endOf base X) : FreeRing O base s' (X ++ (shrink b (8 * n) ++ Y)) := by
  have hmem : ∀ c ∈ X ++ (shrink b (8 * n) ++ Y), ∃ d ∈ X ++ b :: Y, c.lo = d.lo ∧
      c.hi ≤ d.hi ∧ c.lo < c.hi := by
    intro c hc
    by_cases hold : c ∈ X ++ b :: Y
    · exact ⟨c, hold, rfl, Nat.le_refl _, h.pos c hold⟩
    · simp only [List.mem_append, List.mem_cons, not_or] at hc hold
      obtain ⟨hlo, hhi, hlt⟩ := mem_shrink hfits ((hc.resolve_left hold.1).resolve_right hold.2.2)
      exact ⟨b, by simp, hlo, by omega, hlt⟩
  constructor
  case base_pos => exact h.base_pos
  case base_lt => exact h.base_lt
  case linked => exact hlinked
  case separated =>
    have hsep := h.separated
    rw [Separated, List.pairwise_append, List.pairwise_cons] at hsep
    obtain ⟨hX, ⟨hbY, hY⟩, hXb⟩ := hsep
    refine List.pairwise_append.mpr
      ⟨hX, List.pairwise_append.mpr ⟨?_, hY, fun c hc d hd => ?_⟩, fun c hc d hd => ?_⟩
    · unfold shrink
      split
      · exact List.Pairwise.nil
      · exact List.pairwise_singleton ..
    · have := (mem_shrink hfits hc).2.1
      have := hbY d hd
      omega
    · rcases List.mem_append.mp hd with hd | hd
      · have := (mem_shrink hfits hd).1
        have := hXb c hc b List.mem_cons_self
        omega
      · exact hXb c hc d (List.mem_cons_of_mem _ hd)
  case pos =>
    intro c hc
    obtain ⟨-, -, -, -, hlt⟩ := hmem c hc
    exact hlt
  case above =>
    intro c hc
    obtain ⟨d, hd, heq, -⟩ := hmem c hc
    exact heq ▸ h.above d hd
  case lo =>
    intro c hc
    obtain ⟨d, hd, heq, -⟩ := hmem c hc
    exact heq ▸ h.lo d hd
  case hi =>
    intro c hc
    obtain ⟨d, hd, -, hle, -⟩ := hmem c hc
    exact hle.trans (h.hi d hd)
  case freep =>
    rw [hfreep]
    exact endOf_mem_append ..
  case ok =>
    intro q hq k hk
    rw [hos]
    rcases List.mem_cons.mp hq with rfl | hq
    · exact h.ok q List.mem_cons_self k hk
    · obtain ⟨c, hc, rfl⟩ := List.mem_map.mp hq
      obtain ⟨d, hd, heq, -⟩ := hmem c hc
      rw [heq]
      exact h.ok _ (List.mem_cons_of_mem _ (List.mem_map_of_mem hd)) k hk

/-- The whole block is taken. -/
theorem wp_allot_all (hsize : s.size b.lo = n) :
    wp (allot O n (endOf base X) b.lo) (Allotted O base n s X b Y) s := by
  have hbL : b ∈ X ++ b :: Y := by simp
  have hpmem := endOf_mem_append base X (b :: Y)
  have hbmem : b.lo ∈ base :: (X ++ b :: Y).map Extent.lo := nodes_right List.mem_cons_self
  have hb8 := h.size hbL
  have hall : b.lo + 8 * n = b.hi := by rw [← hsize]; exact hb8
  have hlt : endOf base X < b.lo :=
    List.rel_of_pairwise_cons (pairwise_endOf h.sorted) List.mem_cons_self
  have hclear : Clear (endOf base X) b.lo := (h.clear hpmem hbmem).resolve_left hlt.ne
  have hptr : s.ptr b.lo < 2 ^ 32 := getLE_lt s.mem b.lo 4
  have hrun : wp (allot O n (endOf base X) b.lo) (fun r s' => r = (b.lo + 8) % 2 ^ 32 ∧
      s' = { s.setPtr (endOf base X) (s.ptr b.lo) with freep := endOf base X }) s := by
    simp only [allot, wp_bind, wp_size (h.ok _ hbmem), if_pos hsize,
      wp_ptr (h.ok _ hbmem), wp_setPtr (h.ok _ hpmem), wp_pure, wp_modify]
    exact ⟨trivial, trivial⟩
  refine hrun.mono ?_
  rintro r s' ⟨hr, hs'⟩
  have honly := only_setPtr s (endOf base X) (s.ptr b.lo)
  generalize hs₁ : s.setPtr (endOf base X) (s.ptr b.lo) = s₁ at *
  have hsame : ∀ q ∈ base :: (X ++ b :: Y).map Extent.lo, s₁.size q = s.size q ∧
      (q ≠ endOf base X → s₁.ptr q = s.ptr q) := by
    intro q hq
    rcases h.clear hpmem hq with heq | hc
    · rw [← heq, ← hs₁]
      exact ⟨size_setPtr_self .., fun hne => absurd rfl hne⟩
    · exact ⟨honly.size hc, fun _ => honly.ptr hc⟩
  have hfirst : b.hi - 8 * n = b.lo := by omega
  have hself : s₁.ptr (endOf base X) = s.ptr b.lo := by rw [← hs₁]; exact ptr_setPtr_self hptr
  have hlinked : Linked s' base (X ++ (shrink b (8 * n) ++ Y) ++ [⟨base, base⟩]) := by
    have hl := h.linked
    rw [List.append_assoc, linked_append] at hl
    rw [shrink, if_pos hall, List.nil_append, List.append_assoc, linked_append]
    have hsameY : ∀ c ∈ Y, s₁.size c.lo = s.size c.lo ∧
        (c.lo ≠ endOf base X → s₁.ptr c.lo = s.ptr c.lo) := fun c hc =>
      hsame c.lo (nodes_right (List.mem_cons_of_mem _ hc))
    subst hs'
    constructor
    · refine hl.1.upTo (h.spaced.sublist ?_)
        (fun a ha hne => (hsame a (nodes_left ha)).2 hne) fun c hc => ?_
      · rw [List.map_append]
        exact (List.sublist_append_left ..).cons_cons _
      · exact (hsame c.lo (nodes_left (List.mem_cons_of_mem _ (List.mem_map_of_mem hc)))).1
    · have hrest : Linked s b.lo (Y ++ [⟨base, base⟩]) := hl.2.2.2
      refine hrest.restart hself (fun c hc => ?_) fun c hc => ?_
      · rw [List.dropLast_concat] at hc
        refine (hsameY c hc).2 (Nat.ne_of_gt ?_)
        exact List.rel_of_pairwise_cons (pairwise_endOf h.sorted)
          (List.mem_cons_of_mem _ (List.mem_map_of_mem hc))
      · rcases List.mem_append.mp hc with hc | hc
        · exact (hsameY c hc).1
        · rw [List.mem_singleton.mp hc]
          exact (hsame base List.mem_cons_self).1
  subst hs'
  refine ⟨ring_shrink h hall.le hlinked honly.os rfl, ?_, ?_, honly.os, fun x hx => ?_⟩
  · rw [hr, hfirst]
  · rw [hfirst]
    exact (hsame b.lo hbmem).1.trans hsize
  · exact honly.mem x (hx _ List.mem_cons_self)

include hn in
/-- The end of a larger block is taken. -/
theorem wp_allot_end (hsize : n < s.size b.lo) (hlt : b.hi - 8 * n < 2 ^ 32)
    (hok : Ok O s (b.hi - 8 * n)) :
    wp (allot O n (endOf base X) b.lo) (Allotted O base n s X b Y) s := by
  have hbL : b ∈ X ++ b :: Y := by simp
  have hbmem : b.lo ∈ base :: (X ++ b :: Y).map Extent.lo := nodes_right List.mem_cons_self
  have hb8 := h.size hbL
  have hhi := h.hi b hbL
  have hok' := h.ok _ hbmem
  generalize hp : b.hi - 8 * n = p at *
  have hclear : Clear b.lo p := .inl (by omega)
  have honly := only_setSize s b.lo (s.size b.lo - n)
  have hself : (s.setSize b.lo (s.size b.lo - n)).size b.lo = s.size b.lo - n :=
    size_setSize_self (by omega)
  generalize hs₁ : s.setSize b.lo (s.size b.lo - n) = s₁ at *
  have hnext : (b.lo + 8 * (s.size b.lo - n)) % 2 ^ 32 = p := by
    rw [Nat.mod_eq_of_lt (by omega)]
    omega
  have hrun : wp (allot O n (endOf base X) b.lo) (fun r s' => r = (p + 8) % 2 ^ 32 ∧
      s' = { s₁.setSize p n with freep := endOf base X }) s := by
    simp only [allot, wp_bind, wp_size hok', if_neg (Nat.ne_of_gt hsize), wp_setSize hok', hs₁,
      wp_size (hok'.only honly), hself, hnext, wp_setSize (hok.only honly), wp_pure, wp_modify]
    exact ⟨trivial, trivial⟩
  refine hrun.mono ?_
  rintro r s' ⟨hr, hs'⟩
  have honly' := only_setSize s₁ p n
  have hsizep : (s₁.setSize p n).size p = n := size_setSize_self (by omega)
  generalize hs₂ : s₁.setSize p n = s₂ at *
  -- the new header is inside the block, so that the others are as they were
  have hsep : ∀ c ∈ Y, b.hi < c.lo :=
    (List.pairwise_cons.mp (List.pairwise_append.mp h.separated).2.1).1
  have hbehind : ∀ q ∈ base :: (X ++ b :: Y).map Extent.lo, b.lo < q → ∃ c ∈ Y, c.lo = q := by
    intro q hq hlt
    have hsorted := h.sorted
    rw [List.map_append, ← List.cons_append, List.mem_append] at hq
    rw [List.map_append, ← List.cons_append, List.pairwise_append] at hsorted
    rcases hq with hq | hq
    · exact absurd (hsorted.2.2 q hq b.lo (by simp)) (by omega)
    · rcases List.mem_cons.mp hq with rfl | hq
      · omega
      · exact List.mem_map.mp hq
  have hsame : ∀ q ∈ base :: (X ++ b :: Y).map Extent.lo, s₂.ptr q = s.ptr q ∧
      (q ≠ b.lo → s₂.size q = s.size q) := by
    intro q hq
    rcases h.clear hbmem hq with rfl | hc
    · rw [honly'.ptr hclear.symm, ← hs₁]
      exact ⟨ptr_setSize_self .., fun hne => absurd rfl hne⟩
    · have hc' : Clear p q := by
        rcases hc with hc | hc
        · obtain ⟨c, hcY, rfl⟩ := hbehind q hq (by omega)
          have := hsep c hcY
          exact .inl (by omega)
        · exact .inr (by omega)
      rw [honly'.ptr hc', honly'.size hc']
      exact ⟨honly.ptr hc, fun _ => honly.size hc⟩
  have hshrink : shrink b (8 * n) = [⟨b.lo, p⟩] := by rw [shrink, if_neg (by omega), hp]
  have hsizeb : s₂.size b.lo = s.size b.lo - n := (honly'.size hclear.symm).trans hself
  have hlinked : Linked s' base (X ++ (shrink b (8 * n) ++ Y) ++ [⟨base, base⟩]) := by
    have hl := h.linked
    rw [List.append_assoc, linked_append] at hl
    have hrest : Linked s b.lo (Y ++ [⟨base, base⟩]) := hl.2.2.2
    have hsameX : ∀ a ∈ base :: X.map Extent.lo, s₂.ptr a = s.ptr a ∧ s₂.size a = s.size a := by
      intro a ha
      have hsorted := h.sorted
      rw [List.map_append, ← List.cons_append] at hsorted
      obtain ⟨hptr, hsize⟩ := hsame a (nodes_left ha)
      exact ⟨hptr, hsize ((List.pairwise_append.mp hsorted).2.2 a ha b.lo (by simp)).ne⟩
    have hnodeX : ∀ c ∈ X, s₂.ptr c.lo = s.ptr c.lo ∧ s₂.size c.lo = s.size c.lo := fun c hc =>
      hsameX _ (List.mem_cons_of_mem _ (List.mem_map_of_mem hc))
    have hsameY : ∀ c ∈ Y, s₂.ptr c.lo = s.ptr c.lo ∧
        (c.lo ≠ b.lo → s₂.size c.lo = s.size c.lo) := fun c hc =>
      hsame c.lo (nodes_right (List.mem_cons_of_mem _ hc))
    rw [hshrink, List.singleton_append, List.append_assoc, linked_append]
    subst hs'
    refine ⟨hl.1.restart ?_ (fun c hc => ?_) fun c hc => ?_, ?_, ?_,
      hrest.restart ?_ (fun c hc => ?_) fun c hc => ?_⟩
    · exact (hsameX base List.mem_cons_self).1
    · exact (hnodeX c (List.dropLast_subset _ hc)).1
    · exact (hnodeX c hc).2
    · exact (hsameX _ (endOf_mem base X)).1.trans hl.2.1
    · change b.lo + 8 * s₂.size b.lo = p
      rw [hsizeb]
      omega
    · exact (hsame _ hbmem).1
    · rw [List.dropLast_concat] at hc
      exact (hsameY c hc).1
    · rcases List.mem_append.mp hc with hc | hc
      · have := hsep c hc
        exact (hsameY c hc).2 (by omega)
      · rw [List.mem_singleton.mp hc]
        exact (hsameX base List.mem_cons_self).2
  subst hs'
  refine ⟨ring_shrink h (by omega) hlinked (honly'.os.trans honly.os) rfl, ?_, ?_,
    honly'.os.trans honly.os, fun x hx => ?_⟩
  · rw [hr, hp]
  · rw [hp]
    exact hsizep
  · rw [hp] at hx
    exact (honly'.mem x (hx _ (by simp))).trans (honly.mem x (hx _ (by simp)))

theorem wp_allot (hn : 0 < n) (hsize : n ≤ s.size b.lo) (hlt : b.hi - 8 * n < 2 ^ 32)
    (hok : Ok O s (b.hi - 8 * n)) :
    wp (allot O n (endOf base X) b.lo) (Allotted O base n s X b Y) s := by
  rcases Nat.lt_or_eq_of_le hsize with hsize | hsize
  · exact wp_allot_end h hn hsize hlt hok
  · exact wp_allot_all h hsize.symm

end Allot

/-! ## More memory -/

/-- The units that `morecore` asks for. -/
def request (n : Nat) : Nat := if n < 4096 then 4096 else n

theorem le_request (n : Nat) : n ≤ request n := by
  unfold request
  split <;> omega

/-- The kernel has given memory, or says so: a header is written there and the block is freed. -/
theorem wp_morecore {a : Nat} {t : σ} (h : FreeRing O base s L)
    (hsbrk : O.sbrk (request n * 8 % 2 ^ 32) s.os = .ok (some a, t))
    (hok : ∀ p ∈ a :: base :: L.map Extent.lo, ∀ k, k < 8 → O.mapped t (p + k) = true)
    (hnu : 0 < request n) (habove : base + 8 ≤ a) (hlo : a < 2 ^ 32)
    (hhi : a + 8 * request n ≤ 2 ^ 33) (hwrap : (a + 8 * request n) % 2 ^ 32 ≠ base)
    (hlast : ∀ c ∈ L, c.hi ≤ a) (hfuel : L.length + 2 ≤ fuel) :
    wp (morecore O fuel n)
      (fun r s' => r = s'.freep ∧ FreeRing O base s' (merge ⟨a, a + 8 * request n⟩ L) ∧ s'.os = t ∧
      ∀ x, Outside (base :: a :: L.map Extent.lo) x → s'.mem x = s.mem x) s := by
  generalize hs₁ : ({ s with os := t } : Proc σ).setSize a (request n) = s₁
  have hmem : ∀ x, x < a ∨ a + 8 ≤ x → s₁.mem x = s.mem x :=
    hs₁ ▸ (only_setSize { s with os := t } a (request n)).mem
  have hos : s₁.os = t := hs₁ ▸ rfl
  have hoka : Ok O { s with os := t } a := hok a List.mem_cons_self
  have hclear : ∀ q ∈ base :: L.map Extent.lo, q + 8 ≤ a := by
    intro q hq
    rcases List.mem_cons.mp hq with rfl | hq
    · exact habove
    · obtain ⟨c, hc, rfl⟩ := List.mem_map.mp hq
      exact (h.room hc).trans (hlast c hc)
  have hptr : ∀ q ∈ base :: L.map Extent.lo, s₁.ptr q = s.ptr q ∧ s₁.size q = s.size q := by
    intro q hq
    have := hclear q hq
    exact same_header fun x _ _ => hmem x (by omega)
  have hnode : ∀ c ∈ L ++ [⟨base, base⟩], c.lo ∈ base :: L.map Extent.lo := by
    intro c hc
    rcases List.mem_append.mp hc with hc | hc
    · exact List.mem_cons_of_mem _ (List.mem_map_of_mem hc)
    · rw [List.mem_singleton.mp hc]
      exact List.mem_cons_self
  have hring : FreeRing O base s₁ L := by
    refine { h with linked := ?_, freep := ?_, ok := fun p hp k hk => ?_ }
    · exact h.linked.restart (hptr base List.mem_cons_self).1
        (fun c hc => (hptr _ (hnode c (List.dropLast_subset _ hc))).1)
        fun c hc => (hptr _ (hnode c hc)).2
    · rw [← hs₁]
      exact h.freep
    · rw [hos]
      exact hok p (List.mem_cons_of_mem _ hp) k hk
  have hfreeable : Freeable O base s₁ L ⟨a, a + 8 * request n⟩ := by
    refine ⟨?_, ?_, habove, hlo, hhi, hwrap, fun c hc => .inr (hlast c hc), fun k hk => ?_⟩
    · dsimp only
      rw [← hs₁, size_setSize_self (by omega)]
    · dsimp only
      omega
    · rw [hos]
      exact hok a List.mem_cons_self k hk
  have hfree := wp_free ((a + 8) % 2 ^ 32) hring hfreeable (by dsimp only; omega) hfuel
  have hrun : wp (morecore O fuel n)
      (fun r s' => r = s'.freep ∧ FreeRing O base s' (merge ⟨a, a + 8 * request n⟩ L) ∧
      s'.os = s₁.os ∧ ∀ x, Outside (base :: a :: L.map Extent.lo) x → s'.mem x = s₁.mem x) s := by
    have hstart : morecore O fuel n s = (do
        setSize O a (request n)
        free O fuel ((a + 8) % 2 ^ 32)
        pure (← get).freep : M σ Nat) { s with os := t } := bind_of_ok (sbrk_of_ok hsbrk)
    rw [wp, hstart]
    change wp (do
      setSize O a (request n)
      free O fuel ((a + 8) % 2 ^ 32)
      pure (← get).freep : M σ Nat) _ _
    simp only [wp_bind, wp_get, wp_pure]
    rw [wp_setSize hoka]
    rw [hs₁]
    exact hfree.mono fun _ s' h => ⟨trivial, h.1, h.2.1, h.2.2.2⟩
  refine hrun.mono ?_
  rintro r s' ⟨hr, hring', hos', hm⟩
  refine ⟨hr, hring', hos'.trans hos, fun x hx => ?_⟩
  rw [hm x hx, hmem x (hx a (by simp))]

/-- The kernel has refused. -/
theorem growAndGoOn_refused {t : σ} (hsbrk : O.sbrk (request n * 8 % 2 ^ 32) s.os = .ok (none, t)) :
    growAndGoOn O n fuel s = .ok (0, { s with os := t }) := by
  have hrun : morecore O fuel n s = .ok (0, { s with os := t }) := bind_of_ok (sbrk_of_ok hsbrk)
  rw [growAndGoOn, bind_of_ok hrun, if_pos rfl]
  rfl

/-- The list of free blocks, which is made by the first call of `malloc`. -/
def Heap (O : Os σ) (base : Nat) (s : Proc σ) (L : List (Extent Nat)) : Prop :=
  s.freep = 0 ∧ L = [] ∨ FreeRing O base s L

/-- When `malloc` starts to search there is a list. -/
theorem malloc_start (nbytes : Nat) (hbase : 0 < base) (hlt : base < 2 ^ 32) (hok : Ok O s base)
    (h : Heap O base s L) :
    ∃ s₁, FreeRing O base s₁ L ∧ s₁.os = s.os ∧ (∀ x, base + 8 ≤ x → s₁.mem x = s.mem x) ∧
      ∀ fuel P, wp (malloc O base fuel nbytes) P s ↔
        wp (mallocLoop O (unitsFor nbytes) fuel s₁.freep (s₁.ptr s₁.freep)) P s₁ := by
  rcases h with ⟨hfree, rfl⟩ | h
  · generalize hs₁ : ({ s.setPtr base base with freep := base } : Proc σ).setSize base 0 = s₁
    have hptr : s₁.ptr base = base := by
      rw [← hs₁, ptr_setSize_self]
      exact ptr_setPtr_self hlt
    have hsize : s₁.size base = 0 := by
      rw [← hs₁]
      exact size_setSize_self (by decide)
    have hos : s₁.os = s.os := by rw [← hs₁]; rfl
    have hfreep : s₁.freep = base := by rw [← hs₁]; rfl
    have hring : FreeRing O base s₁ [] := by
      refine ⟨hbase, hlt, ⟨hptr, ?_, trivial⟩, .nil, nofun, nofun, nofun,
        nofun, ?_, fun p hp k hk => ?_⟩
      · dsimp only
        rw [hsize]
        rfl
      · rw [hfreep]
        exact List.mem_cons_self
      · rw [List.mem_singleton.mp hp, hos]
        exact hok k hk
    refine ⟨s₁, hring, hos, fun x hx => ?_, fun fuel P => ?_⟩
    · rw [← hs₁]
      exact ((only_setSize _ base 0).mem x (.inr hx)).trans
        ((only_setPtr s base base).mem x (.inr hx))
    · rw [malloc]
      simp only [wp_bind, wp_get, if_pos hfree]
      rw [wp_setPtr hok]
      simp only [wp_modify]
      rw [wp_setSize (s := { s.setPtr base base with freep := base }) hok, hs₁, hfreep,
        wp_ptr (hring.ok base List.mem_cons_self)]
  · refine ⟨s, h, rfl, fun _ _ => rfl, fun fuel P => ?_⟩
    rw [malloc]
    simp only [wp_bind, wp_get, if_neg h.freep_ne_zero]
    rw [wp_ptr (h.ok _ h.freep)]

end Xv6.Umalloc
