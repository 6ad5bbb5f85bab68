import Xv6.UmallocSearch

/-!
# The heap of a process

Programs that call `malloc` and `free` and write to the blocks that they have, with a kernel
whose `sbrk` fails or gives memory above everything that it gave before. The free blocks and
those in use are then always apart and make up the memory that `sbrk` gave.
-/
namespace Xv6.Umalloc

open Bytes Wp Intervals Proc

variable {σ : Type} {O : Os σ} {base : Nat} {s s' : Proc σ}
  {p q n fuel nbytes : Nat} {b c d : Extent Nat}
  {l L X Y : List (Extent Nat)} {P : Nat → Proc σ → Prop} {V : σ → Prop}
  {G : σ → Nat → Prop}

/-! ## One call of malloc -/

/-- What `sbrk` has done for a request of `n` bytes; `G` says what it has given so far. -/
def Granted (G : σ → Nat → Prop) (n : Nat) (t : σ) : Option Nat → σ → Prop
  | none, t' => ∀ x, G t' x ↔ G t x
  | some a, t' => (∀ x, G t x → x < a) ∧ ∀ x, G t' x ↔ G t x ∨ a ≤ x ∧ x < a + n

/-- `sbrk` fails or gives fresh memory above everything given before. In a valid state of the
kernel what it has given is mapped, and so is the header `base`, which is below all of it. -/
structure Grants (O : Os σ) (base : Nat) (V : σ → Prop) (G : σ → Nat → Prop) : Prop where
  base_pos : 0 < base
  base_lt : base < 2 ^ 32
  base_mapped : ∀ t k, V t → k < 8 → O.mapped t (base + k) = true
  above : ∀ t x, V t → G t x → base + 8 ≤ x
  below : ∀ t x, V t → G t x → x + 1 < 2 ^ 32
  mapped : ∀ t x, V t → G t x → O.mapped t x = true
  sbrk : ∀ t n, V t → 0 < n → n < 2 ^ 31 → wp (O.sbrk n) (fun r t' => V t' ∧ Granted G n t r t') t

/-- No free block is large enough, and the kernel gives no more memory. -/
def Lacks (O : Os σ) (n : Nat) (t : σ) (L : List (Extent Nat)) : Prop :=
  (∀ c ∈ L, c.hi < c.lo + 8 * n) ∧ ∃ t', O.sbrk (request n * 8 % 2 ^ 32) t = .ok (none, t')

/-- `malloc` has returned 0, for want of memory, or a block out of the free memory, old or new. -/
def Gives (O : Os σ) (base : Nat) (V : σ → Prop) (G : σ → Nat → Prop) (n : Nat) (s : Proc σ)
    (L : List (Extent Nat)) (r : Nat) (s' : Proc σ) : Prop :=
  V s'.os ∧ (∀ x, G s.os x → G s'.os x) ∧ (∀ x, G s.os x → ¬ Covers L x → s'.mem x = s.mem x) ∧
  ∃ L', FreeRing O base s' L' ∧
    (r = 0 ∧ L' = L ∧ (∀ x, G s'.os x → G s.os x) ∧ Lacks O n s.os L ∨
    ∃ b : Extent Nat, r = b.lo + 8 ∧ b.lo + 8 * n = b.hi ∧
      s'.size b.lo = n ∧ (∀ c ∈ L', Apart b c) ∧
      (∀ x, Covers L' x ∨ x ∈ b ↔ Covers L x ∨ G s'.os x ∧ ¬ G s.os x) ∧ ¬ Lacks O n s.os L)

/-- After `morecore` the search finds a block. -/
theorem wp_grow {a : Nat} {t : σ} (h : FreeRing O base s L)
    (hsbrk : O.sbrk (request n * 8 % 2 ^ 32) s.os = .ok (some a, t))
    (hok : ∀ p ∈ a :: base :: L.map Extent.lo, ∀ k, k < 8 → O.mapped t (p + k) = true) (hn : 0 < n)
    (habove : base + 8 ≤ a) (hlo : a < 2 ^ 32) (hhi : a + 8 * request n ≤ 2 ^ 33)
    (hwrap : (a + 8 * request n) % 2 ^ 32 ≠ base) (hlast : ∀ c ∈ L, c.hi ≤ a)
    (hfuel : L.length + 2 ≤ fuel)
    (hfound : ∀ s' X b Y, merge ⟨a, a + 8 * request n⟩ L = X ++ b :: Y →
      FreeRing O base s' (X ++ b :: Y) → s'.os = t →
      (∀ x, Outside (base :: a :: L.map Extent.lo) x → s'.mem x = s.mem x) → n ≤ s'.size b.lo →
      wp (allot O n (endOf base X) b.lo) P s') : wp (growAndGoOn O n fuel) P s := by
  have hle := le_request n
  rw [growAndGoOn, wp_bind]
  refine (wp_morecore h hsbrk hok (by omega) habove hlo hhi hwrap hlast hfuel).mono ?_
  rintro r s' ⟨hr, hring, hos, hmem⟩
  rw [hr, if_neg hring.freep_ne_zero, wp_bind, wp_ptr (hring.ok _ hring.freep)]
  have hlen := length_merge_le (b := ⟨a, a + 8 * request n⟩) (l := L)
  obtain ⟨k, hk⟩ : ∃ k, fuel = (merge ⟨a, a + 8 * request n⟩ L).length + (k + 1) :=
    ⟨fuel - (merge ⟨a, a + 8 * request n⟩ L).length - 1, by omega⟩
  rw [hk]
  refine wp_mallocLoop hring hn (fun X b Y hsplit hbig => ?_) fun hall => ?_
  · exact hfound s' X b Y hsplit (hsplit ▸ hring) hos hmem hbig
  · -- the new memory is in one block
    obtain ⟨c, hc, hclo, hchi⟩ :=
      exists_merge (b := ⟨a, a + 8 * request n⟩) fun c hc => (h.pos c hc).le
    have := hall c hc
    have := hring.size hc
    dsimp only at hclo hchi
    omega

section Good

variable (hO : Grants O base V G) (hV : V s.os) (hL : ∀ x, Covers L x → G s.os x)

/-- A byte that is given and not free is not in a header of the list. -/
theorem FreeRing.outside {x : Nat} (h : FreeRing O base s L) (hx : base + 8 ≤ x)
    (hnot : ¬ Covers L x) :
    Outside (base :: L.map Extent.lo) x := by
  intro p hp
  rcases List.mem_cons.mp hp with rfl | hp
  · exact .inr hx
  · obtain ⟨c, hc, rfl⟩ := List.mem_map.mp hp
    have := h.room hc
    by_contra hin
    exact hnot ⟨c, hc, by omega, by omega⟩

include hO hV

theorem Grants.ring_lt (h : FreeRing O base s L) (hL : ∀ x, Covers L x → G s.os x) (hb : b ∈ L) :
    b.hi < 2 ^ 32 := by
  have hpos := h.pos b hb
  have hmem : b.hi - 1 ∈ b := ⟨by omega, by omega⟩
  have := hO.below _ _ hV (hL _ ⟨b, hb, hmem⟩)
  omega

/-- What is free is mapped. -/
theorem Grants.ok (hL : ∀ x, Covers L x → G s.os x) (hb : b ∈ L) (hlo : b.lo ≤ p)
    (hhi : p + 8 ≤ b.hi) : Ok O s p :=
  fun k hk => hO.mapped _ _ hV (hL _ ⟨b, hb, by omega, by omega⟩)

include hL

/-- A block is taken out of a list that covers given memory only. -/
theorem wp_allot_gives {s₀ : Proc σ} {L₀ : List (Extent Nat)} (h : FreeRing O base s (X ++ b :: Y))
    (heq : L = X ++ b :: Y) (hn : 0 < n) (hbig : n ≤ s.size b.lo)
    (hgrow : ∀ x, G s₀.os x → G s.os x) (hmem : ∀ x, G s₀.os x → ¬ Covers L₀ x → s.mem x = s₀.mem x)
    (hcover : ∀ x, Covers L x ↔ Covers L₀ x ∨ G s.os x ∧ ¬ G s₀.os x)
    (hlacks : ¬ Lacks O n s₀.os L₀) :
    wp (allot O n (endOf base X) b.lo) (Gives O base V G n s₀ L₀) s := by
  subst heq
  have hbL : b ∈ X ++ b :: Y := by simp
  have hb8 := h.size hbL
  have hlt := hO.ring_lt hV h hL hbL
  refine (wp_allot h hn hbig (by omega) (hO.ok hV hL hbL (by omega) (by omega))).mono
    fun r s' ha => ?_
  have hfits : b.lo + 8 * n ≤ b.hi := by omega
  refine ⟨?_, ?_, fun x hx hnot => ?_, _, ha.ring,
    .inr ⟨⟨b.hi - 8 * n, b.hi⟩, ?_, ?_, ha.size, fun c hc => ?_, fun x => ?_, hlacks⟩⟩
  · rw [ha.os]
    exact hV
  · rw [ha.os]
    exact hgrow
  · have hnot' : ¬ Covers (X ++ b :: Y) x := by
      rw [hcover x]
      rintro (hcov | ⟨-, hnew⟩)
      · exact hnot hcov
      · exact hnew hx
    have hout := h.outside (hO.above _ _ hV (hgrow x hx)) hnot'
    refine (ha.mem x fun p hp => ?_).trans (hmem x hx hnot)
    simp only [List.mem_cons, List.not_mem_nil, or_false] at hp
    rcases hp with rfl | rfl | rfl
    · exact hout _ (endOf_mem_append ..)
    · exact hout _ (List.mem_cons_of_mem _ (List.mem_map_of_mem hbL))
    · by_contra hin
      exact hnot' ⟨b, hbL, by omega, by omega⟩
  · rw [ha.result, Nat.mod_eq_of_lt (by omega)]
  · dsimp only
    omega
  · have hsep := h.separated
    rw [Separated, List.pairwise_append, List.pairwise_cons] at hsep
    simp only [List.mem_append] at hc
    rcases hc with hc | hc | hc
    · have := hsep.2.2 c hc b List.mem_cons_self
      exact .inr (by dsimp only; omega)
    · have := (mem_shrink hfits hc).2.1
      exact .inr (by dsimp only; omega)
    · have := hsep.2.1.1 c hc
      exact .inl (by dsimp only; omega)
  · rw [ha.os, ← hcover x, covers_append, covers_append, covers_append,
      covers_cons, ← covers_shrink hfits]
    simp only [or_assoc, or_comm]

omit hV in
/-- The state in which `sbrk` has failed. -/
theorem ring_refused {t : σ} (h : FreeRing O base s L) (hVt : V t) (hsame : ∀ x, G t x ↔ G s.os x) :
    FreeRing O base { s with os := t } L := by
  refine { h with linked := ?_, ok := fun p hp k hk => ?_ }
  · exact h.linked.restart rfl (fun _ _ => rfl) fun _ _ => rfl
  · rcases List.mem_cons.mp hp with rfl | hp
    · exact hO.base_mapped t k hVt hk
    · obtain ⟨c, hc, rfl⟩ := List.mem_map.mp hp
      have := h.room hc
      exact hO.mapped _ _ hVt ((hsame _).mpr (hL _ ⟨c, hc, by omega, by omega⟩))

theorem wp_growAndGoOn (h : FreeRing O base s L) (hn : 0 < n) (hsmall : 8 * n < 2 ^ 31)
    (hfuel : L.length + 2 ≤ fuel) (hall : ∀ c ∈ L, c.hi < c.lo + 8 * n) :
    wp (growAndGoOn O n fuel) (Gives O base V G n s L) s := by
  have hle := le_request n
  have hreq : request n * 8 < 2 ^ 31 := by
    unfold request
    split <;> omega
  have hmod : request n * 8 % 2 ^ 32 = request n * 8 := Nat.mod_eq_of_lt (by omega)
  obtain ⟨r, t, hsbrk, hVt, hgranted⟩ := hO.sbrk s.os (request n * 8) hV (by omega) hreq
  rw [← hmod] at hsbrk
  cases r with
  | none =>
    have hsame : ∀ x, G t x ↔ G s.os x := hgranted
    refine ⟨0, { s with os := t }, growAndGoOn_refused hsbrk, hVt,
      fun x hx => (hsame x).mpr hx, fun _ _ _ => rfl, L,
      ring_refused hO hL h hVt hsame, .inl ⟨rfl, rfl, fun x hx => (hsame x).mp hx, hall, t, hsbrk⟩⟩
  | some a =>
    obtain ⟨hfresh, hnew⟩ := hgranted
    have hfirst : G t a := (hnew a).mpr (.inr ⟨Nat.le_refl a, by omega⟩)
    have hend : G t (a + request n * 8 - 1) := (hnew _).mpr (.inr ⟨by omega, by omega⟩)
    have habove := hO.above _ _ hVt hfirst
    have hbelow := hO.below _ _ hVt hend
    have hlast : ∀ c ∈ L, c.hi ≤ a := by
      intro c hc
      have hpos := h.pos c hc
      have := hfresh _ (hL (c.hi - 1) ⟨c, hc, by omega, by omega⟩)
      omega
    refine wp_grow h hsbrk (fun p hp k hk => ?_) hn habove (by omega) (by omega) ?_ hlast hfuel
      fun s' X b Y hsplit hring hos hmem hbig => ?_
    · simp only [List.mem_cons, List.mem_map] at hp
      rcases hp with rfl | rfl | ⟨c, hc, rfl⟩
      · exact hO.mapped _ _ hVt ((hnew _).mpr (.inr ⟨by omega, by omega⟩))
      · exact hO.base_mapped t k hVt hk
      · have := h.room hc
        exact hO.mapped _ _ hVt ((hnew _).mpr (.inl (hL _ ⟨c, hc, by omega, by omega⟩)))
    · rw [Nat.mod_eq_of_lt (by omega)]
      omega
    · have hcover : ∀ x, Covers (merge ⟨a, a + 8 * request n⟩ L) x ↔ Covers L x ∨
          G s'.os x ∧ ¬ G s.os x := by
        intro x
        rw [covers_merge (by dsimp only; omega) fun c hc => (h.pos c hc).le, hos, hnew x, mem_def]
        dsimp only
        constructor
        · rintro (⟨hlo, hhi⟩ | hx)
          · exact .inr ⟨.inr ⟨hlo, by omega⟩, fun hx => by have := hfresh x hx; omega⟩
          · exact .inl hx
        · rintro (hx | ⟨hx | ⟨hlo, hhi⟩, hnot⟩)
          · exact .inr hx
          · exact absurd hx hnot
          · exact .inl ⟨hlo, by omega⟩
      have hgrow : ∀ x, G s.os x → G s'.os x := fun x hx => by
        rw [hos]
        exact (hnew x).mpr (.inl hx)
      have hlacks : ¬ Lacks O n s.os L := by
        rintro ⟨-, t', hnone⟩
        exact absurd (hsbrk.symm.trans hnone) (by simp)
      refine wp_allot_gives hO (hos ▸ hVt) (fun x hx => ?_) hring hsplit hn hbig hgrow
        (fun x hx hnot => hmem x fun p hp => ?_) hcover hlacks
      · rcases (hcover x).mp hx with hx | hx
        · exact hgrow x (hL x hx)
        · exact hx.1
      · have hout := h.outside (hO.above _ _ hV hx) hnot
        simp only [List.mem_cons] at hp
        rcases hp with rfl | rfl | hp
        · exact hout _ List.mem_cons_self
        · exact .inl (hfresh x hx)
        · exact hout _ (List.mem_cons_of_mem _ hp)

theorem wp_search (h : FreeRing O base s L) (hn : 0 < n) (hsmall : 8 * n < 2 ^ 31)
    (hfuel : 2 * L.length + 3 ≤ fuel) :
    wp (mallocLoop O n fuel s.freep (s.ptr s.freep)) (Gives O base V G n s L) s := by
  obtain ⟨k, rfl⟩ : ∃ k, fuel = L.length + (k + 1) := ⟨fuel - L.length - 1, by omega⟩
  refine wp_mallocLoop h hn (fun X b Y hsplit hbig => ?_) fun hall => ?_
  · have hbL : b ∈ L := by simp [hsplit]
    have hb8 := h.size hbL
    refine wp_allot_gives hO hV hL (hsplit ▸ h) hsplit hn hbig (fun _ hx => hx) (fun _ _ _ => rfl)
      (fun x => ⟨.inl, fun hx => hx.elim id fun hx => absurd hx.1 hx.2⟩) fun hlacks => ?_
    have := hlacks.1 b hbL
    omega
  · refine wp_growAndGoOn hO hV hL h hn hsmall (by omega) fun c hc => ?_
    have := hall c hc
    have := h.size hc
    omega

end Good

/-- `malloc`, for requests for which the arithmetic does not wrap. -/
theorem wp_malloc (hO : Grants O base V G) (hV : V s.os) (h : Heap O base s L)
    (hL : ∀ x, Covers L x → G s.os x) (hsmall : 8 * unitsFor nbytes < 2 ^ 31)
    (hfuel : 2 * L.length + 3 ≤ fuel) :
    wp (malloc O base fuel nbytes) (Gives O base V G (unitsFor nbytes) s L) s := by
  obtain ⟨s₁, hring, hos, hmem, hrun⟩ := malloc_start nbytes hO.base_pos hO.base_lt
    (fun k hk => hO.base_mapped s.os k hV hk) h
  rw [← hos] at hV
  refine (hrun fuel _).mpr
    ((wp_search hO hV (fun x hx => ?_) hring (Nat.succ_pos _) hsmall hfuel).mono
    fun r s' ⟨hV', hgrow, hkeep, hcase⟩ => ?_)
  · rw [hos]
    exact hL x hx
  · rw [hos] at hgrow hkeep hcase hV
    exact ⟨hV', hgrow,
      fun x hx hnot => (hkeep x hx hnot).trans (hmem x (hO.above _ _ hV hx)), hcase⟩

/-! ## Programs -/

/-- The memory of a process, and the blocks that it has. -/
structure World (σ : Type) where
  proc : Proc σ
  live : List (Extent Nat)

/-- The block that `malloc` has returned, as its header says. -/
def blockAt (s : Proc σ) (r : Nat) : Extent Nat := ⟨r - 8, r - 8 + 8 * s.size (r - 8)⟩

/-- A request, a block given back, or writes to blocks and to memory that is not of the heap. -/
inductive Step (O : Os σ) (base : Nat) (G : σ → Nat → Prop) : World σ → World σ → Prop
  | malloc {w : World σ} {n r : Nat} {s' : Proc σ} : n < 2 ^ 31 - 64 →
      Returns (fun fuel => malloc O base fuel n) w.proc r s' →
      Step O base G w ⟨s', if r = 0 then w.live else blockAt s' r :: w.live⟩
  | free {w : World σ} {b : Extent Nat} {s' : Proc σ} : b ∈ w.live →
      Returns (fun fuel => free O fuel (b.lo + 8)) w.proc () s' →
        Step O base G w ⟨s', w.live.erase b⟩
  | write {w : World σ} {m : Buf} : (∀ x, (base ≤ x ∧ x < base + 8) ∨ G w.proc.os x →
      (∀ b ∈ w.live, ¬ (b.lo + 8 ≤ x ∧ x < b.hi)) → m x = w.proc.mem x) →
      Step O base G w ⟨{ w.proc with mem := m }, w.live⟩

/-- The free blocks `L` are a ring from `base` on, in increasing order and with a gap behind
each; free blocks and those in use are apart and together cover the memory that was given. -/
structure Inv (O : Os σ) (base : Nat) (V : σ → Prop) (G : σ → Nat → Prop) (w : World σ)
    (L : List (Extent Nat)) :
    Prop where
  valid : V w.proc.os
  heap : Heap O base w.proc L
  fresh : w.proc.freep = 0 → w.live = []
  cover : ∀ x, G w.proc.os x ↔ Covers L x ∨ Covers w.live x
  apart : ∀ b ∈ w.live, ∀ c ∈ L, Apart b c
  pairwise : w.live.Pairwise Apart
  size : ∀ b ∈ w.live, b.lo + 8 * w.proc.size b.lo = b.hi
  pos : ∀ b ∈ w.live, b.lo < b.hi

theorem unitsFor_small (hn : n < 2 ^ 31 - 64) :
    n ≤ 8 * (unitsFor n - 1) ∧ 8 * unitsFor n < 2 ^ 31 := by
  unfold unitsFor
  omega

namespace Inv

variable {w w' : World σ}

section

variable (h : Inv O base V G w L)
include h

theorem le_hi (hb : b ∈ w.live) : b.lo + 8 ≤ b.hi := by
  have := h.size b hb
  have := h.pos b hb
  omega

theorem given (hb : b ∈ w.live) {x : Nat} (hx : x ∈ b) : G w.proc.os x ∧ ¬ Covers L x :=
  ⟨(h.cover x).mpr (.inr ⟨b, hb, hx⟩), fun ⟨c, hc, hx'⟩ => (h.apart b hb c hc).not_mem hx hx'⟩

/-- A block in use keeps its header when its bytes are kept. -/
theorem size_kept (hb : b ∈ w.live) (hmem : ∀ x, x ∈ b → s'.mem x = w.proc.mem x) :
    b.lo + 8 * s'.size b.lo = b.hi := by
  have := h.le_hi hb
  rw [(same_header fun x hlo hhi => hmem x ⟨hlo, by omega⟩).2]
  exact h.size b hb

theorem malloc {r : Nat} (hn : n < 2 ^ 31 - 64) (hr : Gives O base V G (unitsFor n) w.proc L r s') :
    (∃ L', Inv O base V G ⟨s', if r = 0 then w.live else blockAt s' r :: w.live⟩ L') ∧
    (r = 0 ∧ Lacks O (unitsFor n) w.proc.os L ∨
      r ≠ 0 ∧ (∀ b ∈ w.live, Apart (blockAt s' r) b) ∧ r + n ≤ (blockAt s' r).hi ∧
        ∀ x, x ∈ blockAt s' r → G s'.os x) := by
  obtain ⟨hV, hgrow, hkeep, L', hring, hcase⟩ := hr
  have hsize : ∀ b ∈ w.live, b.lo + 8 * s'.size b.lo = b.hi := fun b hb =>
    h.size_kept hb fun x hx => hkeep x (h.given hb hx).1 (h.given hb hx).2
  rcases hcase with ⟨rfl, rfl, hsame, hlacks⟩ | ⟨b₀, rfl, hhi, hunits, hapart, hcover, -⟩
  · refine ⟨⟨L', hV, .inr hring, fun h0 => absurd h0 hring.freep_ne_zero, fun x => ?_, h.apart,
      h.pairwise, hsize, h.pos⟩, .inl ⟨rfl, hlacks⟩⟩
    exact ⟨fun hx => (h.cover x).mp (hsame x hx), fun hx => hgrow x ((h.cover x).mpr hx)⟩
  · have hblock : blockAt s' (b₀.lo + 8) = b₀ := by
      rw [blockAt, Nat.add_sub_cancel, hunits, hhi]
    obtain ⟨hroom, -⟩ := unitsFor_small hn
    have hpos : b₀.lo < b₀.hi := by
      unfold unitsFor at hhi
      omega
    -- nothing of a block in use is in the new block or in the new list
    have hnew : ∀ b ∈ w.live, ∀ x, x ∈ b → ¬ (Covers L' x ∨ x ∈ b₀) := by
      intro b hb x hx hx'
      obtain ⟨hG, hnot⟩ := h.given hb hx
      rcases (hcover x).mp hx' with hx' | hx'
      · exact hnot hx'
      · exact hx'.2 hG
    have hlive : ∀ b ∈ w.live, Apart b₀ b := fun b hb =>
      (apart_of_disjoint (h.pos b hb) hpos fun x hx hx' => hnew b hb x hx (.inr hx')).symm
    rw [if_neg (by omega), hblock]
    refine ⟨⟨L', hV, .inr hring, fun h0 => absurd h0 hring.freep_ne_zero,
      fun x => ?_, fun b hb c hc => ?_,
      List.pairwise_cons.mpr ⟨hlive, h.pairwise⟩, fun b hb => ?_, fun b hb => ?_⟩,
      .inr ⟨by omega, hlive, by omega, fun x hx => ?_⟩⟩
    · rw [covers_cons, ← or_assoc, hcover x]
      constructor
      · intro hx
        by_cases hold : G w.proc.os x
        · exact ((h.cover x).mp hold).imp_left .inl
        · exact .inl (.inr ⟨hx, hold⟩)
      · rintro ((hx | hx) | hx)
        · exact hgrow x ((h.cover x).mpr (.inl hx))
        · exact hx.1
        · exact hgrow x ((h.cover x).mpr (.inr hx))
    · rcases List.mem_cons.mp hb with rfl | hb
      · exact hapart c hc
      · exact apart_of_disjoint (h.pos b hb) (hring.pos c hc)
          fun x hx hx' => hnew b hb x hx (.inl ⟨c, hc, hx'⟩)
    · rcases List.mem_cons.mp hb with rfl | hb
      · dsimp only
        rw [hunits, hhi]
      · exact hsize b hb
    · rcases List.mem_cons.mp hb with rfl | hb
      · exact hpos
      · exact h.pos b hb
    · rcases (hcover x).mp (.inr hx) with hx | hx
      · exact hgrow x ((h.cover x).mpr (.inl hx))
      · exact hx.1

theorem ring (hb : b ∈ w.live) : FreeRing O base w.proc L := by
  rcases h.heap with ⟨hfree, -⟩ | hring
  · rw [h.fresh hfree] at hb
    cases hb
  · exact hring

theorem freeable (hO : Grants O base V G) (hb : b ∈ w.live) : Freeable O base w.proc L b := by
  have hpos := h.pos b hb
  have hroom := h.le_hi hb
  have hgiven : ∀ x, b.lo ≤ x → x < b.hi → G w.proc.os x :=
    fun x hlo hhi => (h.given hb ⟨hlo, hhi⟩).1
  have habove := hO.above _ _ h.valid (hgiven b.lo (by omega) (by omega))
  have hbelow := hO.below _ _ h.valid (hgiven (b.hi - 1) (by omega) (by omega))
  refine ⟨h.size b hb, hpos, habove, by omega, by omega, ?_, h.apart b hb, fun k hk => ?_⟩
  · rw [Nat.mod_eq_of_lt (by omega)]
    omega
  · exact hO.mapped _ _ h.valid (hgiven _ (by omega) (by omega))

theorem free (hO : Grants O base V G) (hb : b ∈ w.live) (hfuel : L.length + 2 ≤ fuel) :
    wp (Umalloc.free O fuel (b.lo + 8))
    (fun _ s' => Inv O base V G ⟨s', w.live.erase b⟩ (merge b L)) w.proc := by
  have hring := h.ring hb
  have hfreeable := h.freeable hO hb
  have hlo := hfreeable.lo
  refine (wp_free _ hring hfreeable (by omega) hfuel).mono fun _ s' ⟨hring', hos, _, hmem⟩ => ?_
  have hperm := List.perm_cons_erase hb
  have hpairs := (hperm.pairwise_iff fun h => Apart.symm h).mp h.pairwise
  obtain ⟨hother, hrest⟩ := List.pairwise_cons.mp hpairs
  have hsub : ∀ c ∈ w.live.erase b, c ∈ w.live := fun c hc => List.mem_of_mem_erase hc
  have hcovers : ∀ x, Covers w.live x ↔ x ∈ b ∨ Covers (w.live.erase b) x := by
    intro x
    rw [← covers_cons]
    exact ⟨fun ⟨c, hc, hx⟩ => ⟨c, hperm.mem_iff.mp hc, hx⟩,
      fun ⟨c, hc, hx⟩ => ⟨c, hperm.mem_iff.mpr hc, hx⟩⟩
  have hinsert : ∀ x, Covers (merge b L) x ↔ x ∈ b ∨ Covers L x := fun x =>
    covers_merge (h.pos b hb).le fun c hc => (hring.pos c hc).le
  refine ⟨hos ▸ h.valid, .inr hring', fun h0 => absurd h0 hring'.freep_ne_zero, fun x => ?_,
    fun c hc d hd => ?_, hrest, fun c hc => ?_, fun c hc => h.pos c (hsub c hc)⟩
  · dsimp only
    rw [hos, h.cover x, hinsert x, hcovers x, or_left_comm, or_assoc]
  · refine apart_of_disjoint (h.pos c (hsub c hc)) (hring'.pos d hd) fun x hx hx' => ?_
    rcases (hinsert x).mp ⟨d, hd, hx'⟩ with hin | hin
    · exact (hother c hc).not_mem hin hx
    · exact (h.given (hsub c hc) hx).2 hin
  · refine h.size_kept (hsub c hc) fun x hx => hmem x fun p hp => ?_
    obtain ⟨hG, hnot⟩ := h.given (hsub c hc) hx
    have hout := hring.outside (hO.above _ _ h.valid hG) hnot
    simp only [List.mem_cons] at hp
    rcases hp with rfl | rfl | hp
    · exact hout _ List.mem_cons_self
    · have := h.le_hi hb
      by_contra hin
      exact (hother c hc).not_mem ⟨by omega, by omega⟩ hx
    · exact hout _ (List.mem_cons_of_mem _ hp)

theorem write {m : Buf}
    (hm : ∀ x, (base ≤ x ∧ x < base + 8) ∨ G w.proc.os x →
      (∀ b ∈ w.live, ¬ (b.lo + 8 ≤ x ∧ x < b.hi)) → m x = w.proc.mem x) (hO : Grants O base V G) :
    Inv O base V G ⟨{ w.proc with mem := m }, w.live⟩ L := by
  have hfree : ∀ x, Covers L x → m x = w.proc.mem x := fun x hx =>
    hm x (.inr ((h.cover x).mpr (.inl hx))) fun b hb hin => (h.given hb ⟨by omega, hin.2⟩).2 hx
  have hbase : ∀ x, base ≤ x → x < base + 8 → m x = w.proc.mem x := by
    refine fun x hlo hhi => hm x (.inl ⟨hlo, hhi⟩) fun b hb hin => ?_
    have := hO.above _ _ h.valid (h.given hb ⟨by omega, hin.2⟩).1
    omega
  refine ⟨h.valid, ?_, h.fresh, h.cover, h.apart, h.pairwise, fun b hb => ?_, h.pos⟩
  · rcases h.heap with hnone | hring
    · exact .inl hnone
    · have hhead : ∀ c ∈ L ++ [⟨base, base⟩],
          ({ w.proc with mem := m } : Proc σ).ptr c.lo = w.proc.ptr c.lo ∧
          ({ w.proc with mem := m } : Proc σ).size c.lo = w.proc.size c.lo := by
        intro c hc
        rcases List.mem_append.mp hc with hc | hc
        · have := hring.room hc
          exact same_header fun x hlo hhi => hfree x ⟨c, hc, hlo, by omega⟩
        · rw [List.mem_singleton.mp hc]
          exact same_header hbase
      refine .inr { hring with linked := hring.linked.restart ?_ ?_ ?_ }
      · exact (hhead ⟨base, base⟩ (by simp)).1
      · exact fun c hc => (hhead c (List.dropLast_subset _ hc)).1
      · exact fun c hc => (hhead c hc).2
  · have hroom := h.le_hi hb
    have hkept : ∀ x, b.lo ≤ x → x < b.lo + 8 → m x = w.proc.mem x := by
      intro x hlo hhi
      refine hm x (.inr (h.given hb ⟨hlo, by omega⟩).1) fun c hc hin => ?_
      by_cases hcb : c = b
      · subst hcb
        omega
      · exact (h.pairwise.forall hc hb hcb).not_mem ⟨by omega, hin.2⟩ ⟨hlo, by omega⟩
    have hsame : ({ w.proc with mem := m } : Proc σ).size b.lo =
      w.proc.size b.lo := (same_header hkept).2
    dsimp only
    rw [hsame]
    exact h.size b hb

theorem malloc_gives (hO : Grants O base V G) (hn : n < 2 ^ 31 - 64) : wp
    (Umalloc.malloc O base (2 * L.length + 3) n) (Gives O base V G (unitsFor n) w.proc L) w.proc :=
  wp_malloc hO h.valid h.heap (fun x hx => (h.cover x).mpr (.inl hx))
    (unitsFor_small hn).2 (Nat.le_refl _)

theorem step (hO : Grants O base V G) (hstep : Step O base G w w') :
    ∃ L', Inv O base V G w' L' := by
  cases hstep with
  | malloc hn hr =>
    exact (h.malloc hn (returns_of_wp (malloc_extends O base _) (h.malloc_gives hO hn) hr)).1
  | free hb hr => exact ⟨_, returns_of_wp (free_extends O _) (h.free hO hb (Nat.le_refl _)) hr⟩
  | write hm => exact ⟨L, h.write hm hO⟩

theorem run (hO : Grants O base V G) (hrun : Relation.ReflTransGen (Step O base G) w w') :
    ∃ L', Inv O base V G w' L' := by
  induction hrun with
  | refl => exact ⟨L, h⟩
  | tail _ hstep ih =>
    obtain ⟨L', h'⟩ := ih
    exact h'.step hO hstep

end

end Inv

/-- However a program uses `malloc` and `free`, the free blocks are a ring from `base` on, in
increasing order and with a gap behind each; they and the blocks in use are apart and make up
what `sbrk` gave. The next call returns. `malloc` gives a block that is apart from those in
use, inside what `sbrk` gave and large enough; it gives 0 only if no free block is large enough
and `sbrk` refuses. -/
theorem heap_correct (hO : Grants O base V G) (hfree : s.freep = 0) (hV : V s.os)
    (hnone : ∀ x, ¬ G s.os x) {w : World σ}
    (hrun : Relation.ReflTransGen (Step O base G) ⟨s, []⟩ w) :
    (∃ L, Inv O base V G w L ∧
      ∀ n, n < 2 ^ 31 - 64 → ∃ r s', Returns (fun fuel => malloc O base fuel n) w.proc r s' ∧
        (r = 0 ∧ Lacks O (unitsFor n) w.proc.os L ∨
          r ≠ 0 ∧ (∀ b ∈ w.live, Apart (blockAt s' r) b) ∧ r + n ≤ (blockAt s' r).hi ∧
            ∀ x, x ∈ blockAt s' r → G s'.os x)) ∧
    ∀ b ∈ w.live, ∃ s', Returns (fun fuel => free O fuel (b.lo + 8)) w.proc () s' := by
  have hstart : Inv O base V G ⟨s, []⟩ [] := by
    refine ⟨hV, .inl ⟨hfree, rfl⟩, fun _ => rfl, fun x => ?_, nofun, .nil, nofun, nofun⟩
    exact iff_of_false (hnone x) (by simp)
  obtain ⟨L, h⟩ := hstart.run hO hrun
  refine ⟨⟨L, h, fun n hn => ?_⟩, fun b hb => ?_⟩
  · obtain ⟨r, s', hr, hgives⟩ := h.malloc_gives hO hn
    exact ⟨r, s', ⟨_, hr⟩, (h.malloc hn hgives).2⟩
  · obtain ⟨_, s', hr, -⟩ := h.free hO hb (Nat.le_refl _)
    exact ⟨s', _, hr⟩

/-- A kernel that only counts: the memory from address 4096 to `t` has been given. -/
def counter : Os Nat where
  sbrk n t := if t + n < 2 ^ 31 then .ok (some t, t + n) else .ok (none, t)
  mapped _ _ := true

theorem counter_grants :
    Grants counter 8 (fun t => 4096 ≤ t ∧ t < 2 ^ 31) fun t x => 4096 ≤ x ∧ x < t := by
  refine ⟨by decide, by decide, fun _ _ _ _ => rfl, fun t x ht hx => by omega,
    fun t x ht hx => by omega, fun _ _ _ _ => rfl, fun t n ht hn _ => ?_⟩
  by_cases hroom : t + n < 2 ^ 31
  · refine ⟨some t, t + n, if_pos hroom, by omega, fun x hx => hx.2, fun x => ?_⟩
    omega
  · exact ⟨none, t, if_neg hroom, ht, fun _ => Iff.rfl⟩

/-- Two blocks are asked for, and the first one is given back. -/
def session : M Nat (Nat × Nat) := do
  let p ← malloc counter 8 9 100
  let q ← malloc counter 8 9 50
  free counter 9 p
  pure (p, q)

/-- The first block, which has been given back, or memory behind it serves a third request. -/
theorem heap_correct_session : ∃ (w : World Nat) (r : Nat) (s' : Proc Nat),
    Relation.ReflTransGen (Step counter 8 fun t x => 4096 ≤ x ∧ x < t)
    ⟨⟨fun _ => 0, 0, 4096⟩, []⟩ w ∧
    w.live.map Extent.lo = [36688] ∧ Returns (fun fuel => malloc counter 8 fuel 20) w.proc r s' ∧
    r ≠ 0 ∧ (∀ b ∈ w.live, Apart (blockAt s' r) b) ∧ r + 20 ≤ (blockAt s' r).hi := by
  have hrun : wp session (fun r s => r = (36760, 36696) ∧ s.os = 36864) ⟨fun _ => 0, 0, 4096⟩ := by
    have htest : (session ⟨fun _ => 0, 0, 4096⟩).toOption.any (fun x =>
        decide (x.1 = (36760, 36696) ∧ x.2.os = 36864)) = true := by decide +kernel
    cases hs : session ⟨fun _ => 0, 0, 4096⟩ with
    | error e =>
      rw [hs] at htest
      cases htest
    | ok x =>
      rw [hs] at htest
      exact ⟨x.1, x.2, hs, of_decide_eq_true htest⟩
  simp only [session, wp_bind, wp_pure] at hrun
  obtain ⟨p, s₁, hp, q, s₂, hq, ⟨⟩, s₃, hfree, hpq, hos⟩ := hrun
  obtain ⟨rfl, rfl⟩ := Prod.mk.inj hpq
  have hne : blockAt s₂ 36696 ≠ blockAt s₁ 36760 :=
    fun h => absurd (congrArg Extent.lo h) (by simp [blockAt])
  have herase : [blockAt s₂ 36696, blockAt s₁ 36760].erase
      (blockAt s₁ 36760) = [blockAt s₂ 36696] := by
    simp [hne]
  have hsteps : Relation.ReflTransGen (Step counter 8 fun t x => 4096 ≤ x ∧ x < t)
      ⟨⟨fun _ => 0, 0, 4096⟩, []⟩ ⟨s₃, [blockAt s₂ 36696]⟩ := by
    have hfirst := Step.malloc (G := fun t x => 4096 ≤ x ∧ x < t) (w := ⟨⟨fun _ => 0, 0, 4096⟩, []⟩)
      (by decide) ⟨9, hp⟩
    have hsecond := Step.malloc (G := fun t x => 4096 ≤ x ∧ x < t) (w := ⟨s₁, [blockAt s₁ 36760]⟩)
      (by decide) ⟨9, hq⟩
    have hthird : Step counter 8 (fun t x => 4096 ≤ x ∧ x < t)
        ⟨s₂, [blockAt s₂ 36696, blockAt s₁ 36760]⟩ _ :=
      .free (b := blockAt s₁ 36760) (by simp) ⟨9, hfree⟩
    rw [herase] at hthird
    exact ((Relation.ReflTransGen.single hfirst).tail hsecond).tail hthird
  obtain ⟨⟨L, -, hmalloc⟩, -⟩ :=
    heap_correct counter_grants (s := ⟨fun _ => 0, 0, 4096⟩) rfl (by decide)
    (fun x hx => by dsimp only at hx; omega) hsteps
  obtain ⟨r, s', hr, ⟨-, -, t, hrefused⟩ | ⟨hr0, hapart, hroom, -⟩⟩ := hmalloc 20 (by decide)
  · rw [hos] at hrefused
    cases hrefused
  · exact ⟨_, r, s', hsteps, rfl, hr, hr0, hapart, hroom⟩

end Xv6.Umalloc
