import Xv6.Intervals
import Xv6.Umalloc

/-!
# The list of free blocks

The free blocks form a ring with the header `base`, in the order of their addresses. `free`
puts a block into the list as `Intervals.merge` does.
-/
namespace Xv6.Umalloc

open Bytes Wp Intervals Proc

variable {σ : Type} {O : Os σ} {base : Nat} {s s' : Proc σ} {p q fuel bp : Nat} {b c d : Extent Nat}
  {l l' L X Y : List (Extent Nat)}

/-! ## Paths -/

/-- The links from `p` on lead through these blocks. -/
def Linked (s : Proc σ) : Nat → List (Extent Nat) → Prop
  | _, [] => True
  | p, b :: l => s.ptr p = b.lo ∧ b.lo + 8 * s.size b.lo = b.hi ∧ Linked s b.lo l

/-- The last header of a path from `p`. -/
def endOf : Nat → List (Extent Nat) → Nat
  | p, [] => p
  | _, b :: l => endOf b.lo l

@[simp] theorem endOf_append (p : Nat) (l l' : List (Extent Nat)) :
    endOf p (l ++ l') = endOf (endOf p l) l' := by
  induction l generalizing p with
  | nil => rfl
  | cons b l ih => exact ih b.lo

theorem linked_append : Linked s p (l ++ l') ↔ Linked s p l ∧ Linked s (endOf p l) l' := by
  induction l generalizing p with
  | nil => simp [Linked, endOf]
  | cons b l ih => simp [Linked, endOf, ih, and_assoc]

/-- Every header of a path is the end of a first part of it. -/
theorem exists_endOf {a : Nat} (h : a ∈ p :: l.map Extent.lo) :
    ∃ l₁ l₂, l = l₁ ++ l₂ ∧ a = endOf p l₁ := by
  rcases List.mem_cons.mp h with rfl | h
  · exact ⟨[], l, rfl, rfl⟩
  · obtain ⟨b, hb, rfl⟩ := List.mem_map.mp h
    obtain ⟨l₁, l₂, rfl⟩ := List.append_of_mem hb
    exact ⟨l₁ ++ [b], l₂, by simp, by simp [endOf]⟩

theorem endOf_mem (p : Nat) (l : List (Extent Nat)) : endOf p l ∈ p :: l.map Extent.lo := by
  induction l generalizing p with
  | nil => exact List.mem_cons_self
  | cons b l ih => exact List.mem_cons_of_mem _ (ih b.lo)

/-- What is sorted is sorted from any of its headers on. -/
theorem pairwise_endOf (h : (p :: (l ++ l').map Extent.lo).Pairwise (· < ·)) :
    (endOf p l :: l'.map Extent.lo).Pairwise (· < ·) := by
  induction l generalizing p with
  | nil => exact h
  | cons b l ih => exact ih (List.pairwise_cons.mp h).2

/-- What holds of every header of a path holds of the last. -/
theorem endOf_of {P : Nat → Prop} (h : P p) (hl : ∀ c ∈ l, P c.lo) : P (endOf p l) :=
  List.forall_mem_cons.mpr ⟨h, List.forall_mem_map.mpr hl⟩ _ (endOf_mem p l)

theorem nodes_left {a : Nat} (h : a ∈ p :: l.map Extent.lo) : a ∈ p :: (l ++ l').map Extent.lo := by
  rw [List.map_append]
  exact List.mem_append_left _ h

theorem nodes_right (h : b ∈ l') : b.lo ∈ p :: (l ++ l').map Extent.lo :=
  List.mem_cons_of_mem _ (List.mem_map_of_mem (List.mem_append_right _ h))

theorem endOf_mem_append (p : Nat) (l l' : List (Extent Nat)) :
    endOf p l ∈ p :: (l ++ l').map Extent.lo :=
  nodes_left (endOf_mem p l)

theorem Linked.size (h : Linked s p l) (hb : b ∈ l) : b.lo + 8 * s.size b.lo = b.hi := by
  induction l generalizing p with
  | nil => cases hb
  | cons c l ih =>
    rcases List.mem_cons.mp hb with rfl | hb
    · exact h.2.1
    · exact ih h.2.2 hb

/-- The same path in another state, from a header with the same link. -/
theorem Linked.restart (h : Linked s q l) (hp : s'.ptr p = s.ptr q)
    (hptr : ∀ c ∈ l.dropLast, s'.ptr c.lo = s.ptr c.lo)
    (hsize : ∀ c ∈ l, s'.size c.lo = s.size c.lo) : Linked s' p l := by
  induction l generalizing p q with
  | nil => trivial
  | cons b l ih =>
    obtain ⟨hlink, hb, hrest⟩ := h
    refine ⟨hp.trans hlink, by rw [hsize b List.mem_cons_self, hb], ?_⟩
    cases l with
    | nil => trivial
    | cons c l =>
      refine ih hrest (hptr b List.mem_cons_self)
        (fun d hd => hptr d (List.mem_cons_of_mem _ hd)) fun d hd => ?_
      exact hsize d (List.mem_cons_of_mem _ hd)

/-- The link of the last header does not matter for the path to it. -/
theorem Linked.upTo (h : Linked s p l)
    (hspaced : (p :: l.map Extent.lo).Pairwise fun a a' => a + 8 ≤ a')
    (hptr : ∀ a ∈ p :: l.map Extent.lo, a ≠ endOf p l → s'.ptr a = s.ptr a)
    (hsize : ∀ c ∈ l, s'.size c.lo = s.size c.lo) : Linked s' p l := by
  induction l generalizing p with
  | nil => trivial
  | cons b l ih =>
    obtain ⟨hlink, hb, hrest⟩ := h
    obtain ⟨hfirst, hspaced'⟩ := List.pairwise_cons.mp hspaced
    have hne : p ≠ endOf b.lo l := by
      have := hfirst _ (endOf_mem b.lo l)
      omega
    refine ⟨(hptr p List.mem_cons_self hne).trans hlink, by rw [hsize b List.mem_cons_self, hb], ?_⟩
    exact ih hrest hspaced' (fun a ha => hptr a (List.mem_cons_of_mem _ ha)) fun c hc =>
      hsize c (List.mem_cons_of_mem _ hc)

/-! ## The ring -/

/-- The list is a ring through the header `base`, which has no block. -/
structure FreeRing (O : Os σ) (base : Nat) (s : Proc σ) (L : List (Extent Nat)) : Prop where
  base_pos : 0 < base
  base_lt : base < 2 ^ 32
  linked : Linked s base (L ++ [⟨base, base⟩])
  separated : Separated L
  pos : ∀ b ∈ L, b.lo < b.hi
  above : ∀ b ∈ L, base + 8 ≤ b.lo
  lo : ∀ b ∈ L, b.lo < 2 ^ 32
  hi : ∀ b ∈ L, b.hi ≤ 2 ^ 33
  freep : s.freep ∈ base :: L.map Extent.lo
  ok : ∀ p ∈ base :: L.map Extent.lo, Ok O s p

/-- A block that can be freed. -/
structure Freeable (O : Os σ) (base : Nat) (s : Proc σ) (L : List (Extent Nat)) (b : Extent Nat) :
    Prop where
  size : b.lo + 8 * s.size b.lo = b.hi
  pos : b.lo < b.hi
  above : base + 8 ≤ b.lo
  lo : b.lo < 2 ^ 32
  hi : b.hi ≤ 2 ^ 33
  wrap : b.hi % 2 ^ 32 ≠ base
  apart : ∀ c ∈ L, Apart b c
  ok : Ok O s b.lo

namespace FreeRing

section

variable (h : FreeRing O base s L)
include h

theorem size (hb : b ∈ L) : b.lo + 8 * s.size b.lo = b.hi :=
  h.linked.size (List.mem_append_left _ hb)

theorem size_base : s.size base = 0 := by
  have := h.linked.size (b := ⟨base, base⟩) (List.mem_append_right _ List.mem_cons_self)
  dsimp only at this
  omega

theorem room (hb : b ∈ L) : b.lo + 8 ≤ b.hi := by
  have := h.size hb
  have := h.pos b hb
  omega

theorem freep_ne_zero : s.freep ≠ 0 := by
  have := h.base_pos
  rcases List.mem_cons.mp h.freep with heq | hmem
  · omega
  · obtain ⟨c, hc, heq⟩ := List.mem_map.mp hmem
    have := h.above c hc
    omega

/-- The headers are in increasing order and do not overlap. -/
theorem spaced : (base :: L.map Extent.lo).Pairwise fun a a' => a + 8 ≤ a' := by
  refine List.pairwise_cons.mpr
    ⟨fun a ha => ?_, List.pairwise_map.mpr (h.separated.imp_of_mem fun ha _ hlt => ?_)⟩
  · obtain ⟨b, hb, rfl⟩ := List.mem_map.mp ha
    exact h.above b hb
  · have := h.room ha
    omega

theorem clear (hp : p ∈ base :: L.map Extent.lo) (hq : q ∈ base :: L.map Extent.lo) :
    p = q ∨ Clear p q := by
  have hclear : (base :: L.map Extent.lo).Pairwise Clear := h.spaced.imp .inl
  by_cases heq : p = q
  · exact .inl heq
  · exact .inr (hclear.forall hp hq heq)

theorem sorted : (base :: L.map Extent.lo).Pairwise (· < ·) :=
  h.spaced.imp fun hle => by omega

end

end FreeRing

/-- The blocks before an address and those behind it. -/
theorem Separated.split (h : Separated L) (hpos : ∀ b ∈ L, b.lo < b.hi) (hne : ∀ b ∈ L, b.lo ≠ bp) :
    ∃ X Y, L = X ++ Y ∧ (∀ c ∈ X, c.lo < bp) ∧ ∀ c ∈ Y, bp < c.lo := by
  induction L with
  | nil => exact ⟨[], [], rfl, nofun, nofun⟩
  | cons c L ih =>
    obtain ⟨hfirst, hrest⟩ := List.pairwise_cons.mp h
    by_cases hlt : c.lo < bp
    · obtain ⟨X, Y, rfl, hX, hY⟩ := ih hrest (fun b hb => hpos b (List.mem_cons_of_mem _ hb))
        fun b hb => hne b (List.mem_cons_of_mem _ hb)
      refine ⟨c :: X, Y, rfl, fun d hd => ?_, hY⟩
      rcases List.mem_cons.mp hd with rfl | hd
      · exact hlt
      · exact hX d hd
    · refine ⟨[], c :: L, rfl, nofun, fun d hd => ?_⟩
      have := hne c List.mem_cons_self
      have := hpos c List.mem_cons_self
      rcases List.mem_cons.mp hd with rfl | hd
      · omega
      · have := hfirst d hd
        omega

/-! ## The search of free -/

section Search

variable {Q : Nat → Proc σ → Prop}

theorem wp_freeLoop_stop (hok : Ok O s p) (h : Between bp p (s.ptr p)) (hQ : Q p s) :
    wp (freeLoop O bp (fuel + 1) p) Q s := by
  rw [freeLoop, wp_bind, wp_ptr hok, if_pos h, wp_pure]
  exact hQ

theorem wp_freeLoop_next (hok : Ok O s p) (h : ¬ Between bp p (s.ptr p))
    (hnext : wp (freeLoop O bp fuel (s.ptr p)) Q s) :
    wp (freeLoop O bp (fuel + 1) p) Q s := by
  rw [freeLoop, wp_bind, wp_ptr hok, if_neg h]
  exact hnext

/-- The loop goes along a path on one side of the block. -/
theorem wp_freeLoop_skip (hl : Linked s p l) (hok : ∀ a ∈ p :: l.map Extent.lo, Ok O s a)
    (hsorted : (p :: l.map Extent.lo).Pairwise (· < ·)) (hside : (∀ c ∈ l, c.lo < bp) ∨ bp < p)
    (hend : wp (freeLoop O bp fuel (endOf p l)) Q s) :
    wp (freeLoop O bp (l.length + fuel) p) Q s := by
  induction l generalizing p with
  | nil => simpa [endOf] using hend
  | cons c l ih =>
    obtain ⟨hlink, -, hrest⟩ := hl
    obtain ⟨hfirst, hsorted'⟩ := List.pairwise_cons.mp hsorted
    have hlt : p < c.lo := hfirst c.lo List.mem_cons_self
    rw [List.length_cons, Nat.add_right_comm]
    refine wp_freeLoop_next (hok p List.mem_cons_self) ?_ ?_
    · rw [hlink]
      rcases hside with hside | hside
      · have := hside c List.mem_cons_self
        omega
      · omega
    · rw [hlink]
      refine ih hrest (fun a ha => hok a (List.mem_cons_of_mem _ ha)) hsorted' ?_ hend
      rcases hside with hside | hside
      · exact .inl fun d hd => hside d (List.mem_cons_of_mem _ hd)
      · exact .inr (hside.trans hlt)

/-- The search ends at the block before the one that is freed. -/
theorem wp_freeLoop (h : FreeRing O base s (X ++ Y)) (hbase : base < bp) (hX : ∀ c ∈ X, c.lo < bp)
    (hY : ∀ c ∈ Y, bp < c.lo) (hfuel : (X ++ Y).length + 2 ≤ fuel) (hQ : Q (endOf base X) s) :
    wp (freeLoop O bp fuel s.freep) Q s := by
  have hlinked := h.linked
  rw [List.append_assoc, linked_append] at hlinked
  obtain ⟨hlX, hlY⟩ := hlinked
  rw [List.length_append] at hfuel
  have hsorted := h.sorted
  have hsX : (base :: X.map Extent.lo).Pairwise (· < ·) := by
    refine hsorted.sublist ?_
    rw [List.map_append]
    exact (List.sublist_append_left ..).cons_cons _
  have hle : endOf base X < bp := endOf_of (P := (· < bp)) hbase hX
  have hge : base ≤ endOf base X :=
    endOf_of (P := (base ≤ ·)) (Nat.le_refl _)
      fun c hc => (List.rel_of_pairwise_cons hsX (List.mem_map_of_mem hc)).le
  -- from the end of the first part the loop does not go on
  have hstop : ∀ n, wp (freeLoop O bp (n + 1) (endOf base X)) Q s := by
    intro n
    refine wp_freeLoop_stop (h.ok _ (endOf_mem_append ..)) ?_ hQ
    cases Y with
    | nil =>
      have hlink : s.ptr (endOf base X) = base := hlY.1
      omega
    | cons c Y =>
      have hlink : s.ptr (endOf base X) = c.lo := hlY.1
      have := hY c List.mem_cons_self
      omega
  -- and from `base` on it comes there
  have hwalk : ∀ n X₁ X₂, X = X₁ ++ X₂ → X₂.length < n →
      wp (freeLoop O bp n (endOf base X₁)) Q s := by
    rintro n X₁ X₂ rfl hn
    obtain ⟨k, rfl⟩ : ∃ k, n = X₂.length + (k + 1) := ⟨n - X₂.length - 1, by omega⟩
    refine wp_freeLoop_skip (linked_append.mp hlX).2
      (fun a ha => h.ok a (nodes_left ?_)) (pairwise_endOf hsX)
      (.inl fun c hc => hX c (List.mem_append_right _ hc)) ?_
    · rcases List.mem_cons.mp ha with rfl | ha
      · exact endOf_mem_append ..
      · obtain ⟨c, hc, rfl⟩ := List.mem_map.mp ha
        exact nodes_right hc
    · rw [← endOf_append]
      exact hstop k
  have hfree := h.freep
  rw [List.map_append, ← List.cons_append, List.mem_append] at hfree
  rcases hfree with hfree | hfree
  · obtain ⟨X₁, X₂, hsplit, hfree⟩ := exists_endOf hfree
    rw [hfree]
    refine hwalk fuel X₁ X₂ hsplit ?_
    rw [hsplit, List.length_append] at hfuel
    omega
  · obtain ⟨c, hc, hfree⟩ := List.mem_map.mp hfree
    rw [← hfree]
    obtain ⟨Y₁, Y₂, rfl⟩ := List.append_of_mem hc
    have hbpc := hY c hc
    rw [List.append_assoc, linked_append] at hlY
    obtain ⟨-, -, -, hl₂⟩ := hlY
    obtain ⟨hl₂, hlast⟩ := linked_append.mp hl₂
    have hs₂ : (c.lo :: Y₂.map Extent.lo).Pairwise (· < ·) := by
      have := (List.pairwise_cons.mp hsorted).2
      refine this.sublist ?_
      rw [← List.map_cons]
      exact (List.sublist_append_right ..).map _ |>.trans ((List.sublist_append_right ..).map _)
    have hok : ∀ a ∈ c.lo :: Y₂.map Extent.lo, Ok O s a := by
      rw [← List.map_cons]
      exact List.forall_mem_map.mpr fun d hd => h.ok _ (nodes_right (List.mem_append_right _ hd))
    rw [List.length_append, List.length_cons] at hfuel
    obtain ⟨k, rfl⟩ : ∃ k, fuel = Y₂.length + (k + 1) := ⟨fuel - Y₂.length - 1, by omega⟩
    have hge₂ : c.lo ≤ endOf c.lo Y₂ :=
      endOf_of (P := (c.lo ≤ ·)) (Nat.le_refl _)
        fun d hd => (List.rel_of_pairwise_cons hs₂ (List.mem_map_of_mem hd)).le
    have hlink : s.ptr (endOf c.lo Y₂) = base := hlast.1
    refine wp_freeLoop_skip hl₂ hok hs₂ (.inr hbpc) (wp_freeLoop_next (hok _ (endOf_mem ..)) ?_ ?_)
    · rw [hlink]
      omega
    · rw [hlink]
      exact hwalk k [] X rfl (by omega)

end Search

/-! ## Joining blocks -/

theorem Freeable.clear (hb : Freeable O base s L b) (h : FreeRing O base s L)
    (hq : q ∈ base :: L.map Extent.lo) :
    Clear b.lo q := by
  rcases List.mem_cons.mp hq with rfl | hq
  · exact .inr hb.above
  · obtain ⟨c, hc, rfl⟩ := List.mem_map.mp hq
    have hsize := hb.size
    have hpos := hb.pos
    have hroom := h.room hc
    rcases hb.apart c hc with hle | hle
    · exact .inl (by omega)
    · exact .inr (by omega)

theorem Ok.only (h : Ok O s q) (ho : Only p s s') : Ok O s' q := fun k hk => by
  rw [ho.os]
  exact h k hk

section Join

variable (h : FreeRing O base s (X ++ Y)) (hb : Freeable O base s (X ++ Y) b)
  (hY : ∀ c ∈ Y, b.lo < c.lo)

include h hb hY

/-- After the first step the block is in front of what follows it. -/
theorem wp_freeUp : wp (freeUp O b.lo (endOf base X)) (fun _ s' => Only b.lo s s' ∧
      b.lo + 8 * s'.size b.lo = (absorb b.hi Y).1 ∧
      Linked s' b.lo ((absorb b.hi Y).2 ++ [⟨base, base⟩])) s := by
  have hlinked := h.linked
  rw [List.append_assoc, linked_append] at hlinked
  obtain ⟨-, hlY⟩ := hlinked
  have hmem := endOf_mem_append base X Y
  have hp := h.ok _ hmem
  have hclearp := hb.clear h hmem
  have hclear0 := hb.clear h List.mem_cons_self
  have hsize0 := h.size_base
  have hbase := h.base_lt
  -- the block is not joined with what follows
  have hkeep : ∀ q, s.ptr (endOf base X) = q → b.hi % 2 ^ 32 ≠ q →
      wp (freeUp O b.lo (endOf base X)) (fun _ s' => s' = s.setPtr b.lo q) s := by
    intro q hq hne
    simp only [freeUp, wp_bind, wp_size hb.ok, wp_ptr hp, hb.size, hq, if_neg hne, wp_setPtr hb.ok]
  cases Y with
  | nil =>
    refine (hkeep base hlY.1 hb.wrap).mono fun _ s' hs' => ?_
    subst hs'
    refine ⟨only_setPtr .., by rw [size_setPtr_self]; exact hb.size,
      ptr_setPtr_self h.base_lt, ?_, trivial⟩
    rw [size_setPtr hclear0, hsize0]
    rfl
  | cons c Y =>
    obtain ⟨hlink, hsizec, hrest⟩ := hlY
    have hcmem : c.lo ∈ base :: (X ++ c :: Y).map Extent.lo := nodes_right List.mem_cons_self
    have hclearc := hb.clear h hcmem
    have hcL : c ∈ X ++ c :: Y := by simp
    have hclo := h.lo c hcL
    have hbc : b.hi ≤ c.lo := by
      have := hY c List.mem_cons_self
      have := h.pos c hcL
      rcases hb.apart c hcL with hle | hle
      · exact hle
      · omega
    have hmod : b.hi % 2 ^ 32 = b.hi := Nat.mod_eq_of_lt (by omega)
    have hclearY : ∀ d ∈ Y ++ [⟨base, base⟩], Clear b.lo d.lo := by
      intro d hd
      rcases List.mem_append.mp hd with hd | hd
      · exact hb.clear h (nodes_right (List.mem_cons_of_mem _ hd))
      · rw [List.mem_singleton.mp hd]
        exact hclear0
    by_cases htouch : b.hi = c.lo
    · have hokc := h.ok _ hcmem
      have hb8 := hb.size
      have hbhi := h.hi c hcL
      have hsum : (s.size b.lo + s.size c.lo) % 2 ^ 32 = s.size b.lo + s.size c.lo :=
        Nat.mod_eq_of_lt (by omega)
      have hptrc : s.ptr c.lo < 2 ^ 32 := getLE_lt s.mem c.lo 4
      generalize hs₁ : s.setSize b.lo (s.size b.lo + s.size c.lo) = s₁
      have honly : Only b.lo s s₁ := hs₁ ▸ only_setSize ..
      have hsize₁ : s₁.size b.lo = s.size b.lo + s.size c.lo := by
        rw [← hs₁]
        exact size_setSize_self (by omega)
      have hrun : wp (freeUp O b.lo (endOf base X))
          (fun _ s' => s' = s₁.setPtr b.lo (s.ptr c.lo)) s := by
        simp only [freeUp, wp_bind, wp_size hb.ok, wp_ptr hp, hb.size, hlink, hmod,
          if_pos htouch, wp_size hokc, hsum,
          wp_setSize hb.ok, hs₁, wp_ptr (hp.only honly), honly.ptr hclearp,
          wp_ptr (hokc.only honly), honly.ptr hclearc,
          wp_setPtr (hb.ok.only honly)]
      refine hrun.mono fun _ s' hs' => ?_
      subst hs'
      have honly' := honly.trans (only_setPtr s₁ b.lo (s.ptr c.lo))
      rw [absorb, if_pos htouch]
      refine ⟨honly', ?_, hrest.restart (ptr_setPtr_self hptrc) (fun d hd => ?_) fun d hd => ?_⟩
      · rw [size_setPtr_self, hsize₁]
        dsimp only
        omega
      · exact honly'.ptr (hclearY d (List.dropLast_subset _ hd))
      · exact honly'.size (hclearY d hd)
    · have honly := only_setPtr s b.lo c.lo
      refine (hkeep c.lo hlink (by rw [hmod]; exact htouch)).mono fun _ s' hs' => ?_
      subst hs'
      rw [absorb, if_neg htouch]
      refine ⟨honly, by rw [size_setPtr_self]; exact hb.size, ptr_setPtr_self hclo, ?_, ?_⟩
      · rw [honly.size hclearc]
        exact hsizec
      · exact hrest.restart (honly.ptr hclearc)
          (fun d hd => honly.ptr (hclearY d (List.dropLast_subset _ hd)))
          fun d hd => honly.size (hclearY d hd)

end Join

section Join

variable (h : FreeRing O base s (X ++ Y)) (hb : Freeable O base s (X ++ Y) b)
  (hY : ∀ c ∈ Y, b.lo < c.lo)
  (honly : Only b.lo s s') (hsize : b.lo + 8 * s'.size b.lo = (absorb b.hi Y).1)
  (hlinked : Linked s' b.lo ((absorb b.hi Y).2 ++ [⟨base, base⟩]))

include h hb honly

theorem same_nodes (hq : q ∈ base :: (X ++ Y).map Extent.lo) :
    Ok O s' q ∧ s'.ptr q = s.ptr q ∧ s'.size q = s.size q :=
  ⟨(h.ok q hq).only honly, honly.ptr (hb.clear h hq), honly.size (hb.clear h hq)⟩

include hY hsize hlinked

/-- After the second step the block is in the list: behind one that ends before it, -/
theorem wp_freeDown_apart (hX : ∀ c ∈ X, c.lo < b.lo ∧ c.hi < b.lo) :
    wp (freeDown O b.lo (endOf base X)) (fun _ s'' => Only (endOf base X) s' s'' ∧
      Linked s'' base (merge b (X ++ Y) ++ [⟨base, base⟩])) s' := by
  have hfar : endOf base X + 8 * s.size (endOf base X) < b.lo := by
    refine endOf_of (P := fun p => p + 8 * s.size p < b.lo) ?_ fun c hc => ?_
    · have := hb.above
      rw [h.size_base]
      omega
    · rw [h.size (List.mem_append_left _ hc)]
      exact (hX c hc).2
  have hpmem := endOf_mem_append base X Y
  generalize hp : endOf base X = p at *
  obtain ⟨hok, -, hsizep⟩ := same_nodes h hb honly hpmem
  have hclearb := (hb.clear h hpmem).symm
  have hne : (p + 8 * s'.size p) % 2 ^ 32 ≠ b.lo := by
    have := hb.lo
    rw [hsizep, Nat.mod_eq_of_lt (by omega)]
    omega
  have hrun : wp (freeDown O b.lo p) (fun _ s'' => s'' = s'.setPtr p b.lo) s' := by
    simp only [freeDown, wp_bind, wp_size hok, if_neg hne, wp_setPtr hok]
  refine hrun.mono fun _ s'' hs'' => ?_
  subst hs''
  have honly' := only_setPtr s' p b.lo
  have hsame : ∀ q ∈ base :: (X ++ Y).map Extent.lo, (s'.setPtr p b.lo).size q = s'.size q := by
    intro q hq
    rcases h.clear hpmem hq with rfl | hc
    · exact size_setPtr_self ..
    · exact honly'.size hc
  refine ⟨honly', ?_⟩
  rw [merge_append hX, merge_before hY, joinNext, List.append_assoc, linked_append, hp]
  refine ⟨?_, ptr_setPtr_self hb.lo, ?_, ?_⟩
  · have hlX := h.linked
    rw [List.append_assoc, linked_append] at hlX
    refine hlX.1.upTo (h.spaced.sublist ?_) (fun a ha hna => ?_) fun c hc => ?_
    · rw [List.map_append]
      exact (List.sublist_append_left ..).cons_cons _
    · rw [hp] at hna
      have hmem : a ∈ base :: (X ++ Y).map Extent.lo := nodes_left ha
      rw [honly'.ptr ((h.clear hpmem hmem).resolve_left hna.symm), (same_nodes h hb honly hmem).2.1]
    · have hmem : c.lo ∈ base :: (X ++ Y).map Extent.lo :=
        nodes_left (List.mem_cons_of_mem _ (List.mem_map_of_mem hc))
      rw [hsame _ hmem, (same_nodes h hb honly hmem).2.2]
  · rw [honly'.size hclearb]
    exact hsize
  · refine hlinked.restart (honly'.ptr hclearb) (fun c hc => ?_) fun c hc => ?_
    · rw [List.dropLast_concat] at hc
      have hcY := absorb_subset hc
      refine honly'.ptr ((h.clear hpmem (nodes_right hcY)).resolve_left ?_)
      have := hY c hcY
      omega
    · rcases List.mem_append.mp hc with hc | hc
      · exact hsame _ (nodes_right (absorb_subset hc))
      · rw [List.mem_singleton.mp hc]
        exact hsame _ List.mem_cons_self

/-- or as a part of one that ends where it begins. -/
theorem wp_freeDown_touch (hX : X = l ++ [d]) (hd : d.lo < b.lo) (htouch : d.hi = b.lo) :
    wp (freeDown O b.lo d.lo) (fun _ s'' => Only d.lo s' s'' ∧
      Linked s'' base (merge b (X ++ Y) ++ [⟨base, base⟩])) s' := by
  subst hX
  have hsub : ∀ a, a ∈ base :: l.map Extent.lo ∨ a = d.lo ∨ a ∈ Y.map Extent.lo →
      a ∈ base :: (l ++ [d] ++ Y).map Extent.lo := by
    simp only [List.map_append, List.map_cons, List.map_nil, List.mem_cons,
      List.mem_append, List.not_mem_nil]
    tauto
  have hdmem := hsub d.lo (.inr (.inl rfl))
  have hdL : d ∈ l ++ [d] ++ Y := by simp
  obtain ⟨hok, -, hsized⟩ := same_nodes h hb honly hdmem
  have hclearb := (hb.clear h hdmem).symm
  have hokb := hb.ok.only honly
  have hd8 := h.size hdL
  have hlo := hb.lo
  have heq : (d.lo + 8 * s'.size d.lo) % 2 ^ 32 = b.lo := by
    rw [hsized, hd8, htouch, Nat.mod_eq_of_lt hlo]
  have hhi : (absorb b.hi Y).1 ≤ 2 ^ 33 :=
    absorb_le hb.hi fun c hc => h.hi c (List.mem_append_right _ hc)
  have hsum : s'.size d.lo + s'.size b.lo < 2 ^ 32 := by
    rw [hsized]
    omega
  have hptrb : s'.ptr b.lo < 2 ^ 32 := getLE_lt s'.mem b.lo 4
  generalize hs₁ : s'.setSize d.lo (s'.size d.lo + s'.size b.lo) = s₁
  have honly₁ : Only d.lo s' s₁ := hs₁ ▸ only_setSize ..
  have hrun : wp (freeDown O b.lo d.lo) (fun _ s'' => s'' = s₁.setPtr d.lo (s'.ptr b.lo)) s' := by
    simp only [freeDown, wp_bind, wp_size hok, if_pos heq, wp_size hokb,
      Nat.mod_eq_of_lt hsum, wp_setSize hok, hs₁,
      wp_ptr (hokb.only honly₁), honly₁.ptr hclearb, wp_setPtr (hok.only honly₁)]
  refine hrun.mono fun _ s'' hs'' => ?_
  subst hs''
  have honly' := honly₁.trans (only_setPtr s₁ d.lo (s'.ptr b.lo))
  have hself : (s₁.setPtr d.lo (s'.ptr b.lo)).size d.lo = s'.size d.lo + s'.size b.lo := by
    rw [size_setPtr_self, ← hs₁]
    exact size_setSize_self hsum
  -- the headers other than `d` are as they were
  have hother : ∀ q ∈ base :: (l ++ [d] ++ Y).map Extent.lo, q ≠ d.lo →
      (s₁.setPtr d.lo (s'.ptr b.lo)).ptr q = s'.ptr q ∧
      (s₁.setPtr d.lo (s'.ptr b.lo)).size q = s'.size q := by
    intro q hq hne
    have hc := (h.clear hdmem hq).resolve_left hne.symm
    exact ⟨honly'.ptr hc, honly'.size hc⟩
  have hspaced := h.spaced
  rw [List.append_assoc, List.map_append, ← List.cons_append, List.pairwise_append] at hspaced
  have hbefore : ∀ a ∈ base :: l.map Extent.lo, a ≠ d.lo := by
    intro a ha
    have := hspaced.2.2 a ha d.lo (by simp)
    omega
  refine ⟨honly', ?_⟩
  have hlt : ∀ c ∈ l, c.lo < b.lo ∧ c.hi < b.lo := by
    intro c hc
    have := hspaced.2.2 c.lo (List.mem_cons_of_mem _ (List.mem_map_of_mem hc)) d.lo (by simp)
    have hsep := h.separated
    rw [Separated, List.append_assoc, List.pairwise_append] at hsep
    have := hsep.2.2 c hc d (by simp)
    omega
  have hlX := h.linked
  rw [List.append_assoc, List.append_assoc, linked_append] at hlX
  rw [List.append_assoc, merge_append hlt, List.singleton_append, merge_touch hd htouch,
    joinNext, List.append_assoc, linked_append]
  refine ⟨hlX.1.restart ?_ (fun c hc => ?_) fun c hc => ?_, ?_, ?_, ?_⟩
  · have hmem := hsub base (.inl List.mem_cons_self)
    rw [(hother _ hmem (hbefore _ List.mem_cons_self)).1, (same_nodes h hb honly hmem).2.1]
  · have hc' : c.lo ∈ base :: l.map Extent.lo :=
      List.mem_cons_of_mem _ (List.mem_map_of_mem (List.dropLast_subset _ hc))
    rw [(hother _ (hsub _ (.inl hc')) (hbefore _ hc')).1,
      (same_nodes h hb honly (hsub _ (.inl hc'))).2.1]
  · have hc' : c.lo ∈ base :: l.map Extent.lo := List.mem_cons_of_mem _ (List.mem_map_of_mem hc)
    rw [(hother _ (hsub _ (.inl hc')) (hbefore _ hc')).2,
      (same_nodes h hb honly (hsub _ (.inl hc'))).2.2]
  · have hend := endOf_mem base l
    rw [(hother _ (hsub _ (.inl hend)) (hbefore _ hend)).1,
      (same_nodes h hb honly (hsub _ (.inl hend))).2.1]
    exact hlX.2.1
  · dsimp only
    rw [hself, hsized]
    omega
  · have hne : ∀ c ∈ Y, c.lo ≠ d.lo := by
      intro c hc
      have := hY c hc
      omega
    refine hlinked.restart (ptr_setPtr_self hptrb) (fun c hc => ?_) fun c hc => ?_
    · rw [List.dropLast_concat] at hc
      have hcY := absorb_subset hc
      exact (hother _ (hsub _ (.inr (.inr (List.mem_map_of_mem hcY)))) (hne c hcY)).1
    · rcases List.mem_append.mp hc with hc | hc
      · have hcY := absorb_subset hc
        exact (hother _ (hsub _ (.inr (.inr (List.mem_map_of_mem hcY)))) (hne c hcY)).2
      · rw [List.mem_singleton.mp hc]
        exact (hother _ List.mem_cons_self (hbefore _ List.mem_cons_self)).2

end Join

/-! ## free -/

/-- What is outside the headers at these addresses. -/
def Outside (ps : List Nat) (x : Nat) : Prop := ∀ p ∈ ps, x < p ∨ p + 8 ≤ x

/-- `free` inserts the block. -/
theorem wp_free (ap : Nat) (h : FreeRing O base s L) (hb : Freeable O base s L b)
    (hap : (ap + (2 ^ 32 - 8)) % 2 ^ 32 = b.lo) (hfuel : L.length + 2 ≤ fuel) :
    wp (free O fuel ap) (fun _ s' => FreeRing O base s' (merge b L) ∧ s'.os = s.os ∧
      (∃ X Y, L = X ++ Y ∧ (∀ c ∈ Y, b.lo < c.lo) ∧ s'.freep = endOf base X) ∧
      ∀ x, Outside (base :: b.lo :: L.map Extent.lo) x → s'.mem x = s.mem x) s := by
  have hapart : ∀ c ∈ L, c.lo ≠ b.lo := by
    intro c hc
    have := hb.pos
    have := h.pos c hc
    rcases hb.apart c hc with hle | hle <;> omega
  obtain ⟨X, Y, rfl, hX, hY⟩ := Separated.split h.separated h.pos hapart
  have hbase : base < b.lo := by
    have := hb.above
    omega
  simp only [free, hap, wp_bind, wp_get, wp_modify]
  refine wp_freeLoop h hbase hX hY hfuel ((wp_freeUp h hb hY).mono ?_)
  rintro _ s₁ ⟨honly, hsize, hlinked⟩
  have hdown : wp (freeDown O b.lo (endOf base X)) (fun _ s₂ => Only (endOf base X) s₁ s₂ ∧
      Linked s₂ base (merge b (X ++ Y) ++ [⟨base, base⟩])) s₁ := by
    by_cases hfar : ∀ c ∈ X, c.hi < b.lo
    · exact wp_freeDown_apart h hb hY honly hsize hlinked fun c hc => ⟨hX c hc, hfar c hc⟩
    · push Not at hfar
      obtain ⟨c, hc, hle⟩ := hfar
      have hX₀ := List.ne_nil_of_mem hc
      obtain ⟨l, d, rfl⟩ : ∃ l d, X = l ++ [d] := ⟨_, _, (List.dropLast_concat_getLast hX₀).symm⟩
      have htouch : d.hi = b.lo := by
        have hpos := h.pos c (List.mem_append_left _ hc)
        have hlt := hX c hc
        have hsep := (List.pairwise_append.mp h.separated).1
        rcases List.mem_append.mp hc with hc' | hc'
        · have := (List.pairwise_append.mp hsep).2.2 c hc' d (by simp)
          have := hX d (by simp)
          omega
        · obtain rfl := List.mem_singleton.mp hc'
          rcases hb.apart c (List.mem_append_left _ hc) with hle' | hle'
          · have := hb.pos
            omega
          · omega
      rw [endOf_append]
      exact wp_freeDown_touch h hb hY honly hsize hlinked rfl (hX d (by simp)) htouch
  refine hdown.mono ?_
  rintro _ s₂ ⟨honly', hlinked'⟩
  have hos : s₂.os = s.os := honly'.os.trans honly.os
  have hbounds :=
    forall_merge (P := fun p => base + 8 ≤ p ∧ p < 2 ^ 32 ∧ Ok O s p) (Q := (· ≤ 2 ^ 33))
    ⟨⟨hb.above, hb.lo, hb.ok⟩, hb.hi⟩ fun c hc =>
      ⟨⟨h.above c hc, h.lo c hc,
      h.ok _ (List.mem_cons_of_mem _ (List.mem_map_of_mem hc))⟩, h.hi c hc⟩
  refine ⟨?_, hos, ⟨X, Y, rfl, hY, rfl⟩, fun x hx => ?_⟩
  · constructor
    case base_pos => exact h.base_pos
    case base_lt => exact h.base_lt
    case linked => exact hlinked'.restart rfl (fun _ _ => rfl) fun _ _ => rfl
    case separated => exact separated_merge h.separated hb.pos h.pos hb.apart
    case pos => exact pos_merge hb.pos h.pos
    case above => exact fun c hc => (hbounds c hc).1.1
    case lo => exact fun c hc => (hbounds c hc).1.2.1
    case hi => exact fun c hc => (hbounds c hc).2
    case freep =>
      refine endOf_of (P := (· ∈ _)) List.mem_cons_self fun c hc => List.mem_cons_of_mem _ ?_
      exact lo_mem_merge hb.pos.le (List.mem_append_left _ hc) (hX c hc)
    case ok =>
      intro q hq k hk
      dsimp only
      rw [hos]
      rcases List.mem_cons.mp hq with rfl | hq
      · exact h.ok q List.mem_cons_self k hk
      · obtain ⟨c, hc, rfl⟩ := List.mem_map.mp hq
        exact (hbounds c hc).1.2.2 k hk
  · have hend : x < endOf base X ∨ endOf base X + 8 ≤ x :=
      endOf_of (P := fun p => x < p ∨ p + 8 ≤ x) (hx base (by simp)) fun c hc =>
        hx _ (List.mem_cons_of_mem _
          (List.mem_cons_of_mem _ (List.mem_map_of_mem (List.mem_append_left _ hc))))
    rw [honly'.mem x hend, honly.mem x (hx b.lo (by simp))]

end Xv6.Umalloc
