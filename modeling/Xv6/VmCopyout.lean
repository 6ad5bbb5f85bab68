import Xv6.VmCopy

/-!
# Copying to user addresses

`copyout` asks `uva2ka` for each page of the range, and that follows a null pointer where
the directory has no page table.
-/
namespace Xv6.Vm

open Bytes Wp

variable {s s' s₁ : Phys} {pgdir cur hand : Nat} {K : Layout} {R : Nat → Prop}
  {n f va len : Nat} {buf : Buf}

/-- The page of an address is mapped for user code. -/
def UserAt (s : Phys) (pgdir a : Nat) : Prop :=
  Present (s.pte pgdir (a % 2 ^ 32 / 4096)) ∧ User (s.pte pgdir (a % 2 ^ 32 / 4096))

/-- The directory has a page table for an address. -/
def HasTable (s : Phys) (pgdir a : Nat) : Prop := Present (s.word pgdir (a % 2 ^ 32 / 2 ^ 22))

instance (s : Phys) (pgdir a : Nat) : Decidable (UserAt s pgdir a) := instDecidableAnd
instance (s : Phys) (pgdir a : Nat) : Decidable (HasTable s pgdir a) := instDecidableEqNat _ _

/-- The first address of the range that is not mapped for user code has a page table. -/
def Guarded (s : Phys) (pgdir va len : Nat) : Prop :=
  ∀ i, i < len → (∀ j, j < i → UserAt s pgdir (va + j)) → HasTable s pgdir (va + i)

theorem UserAt.hasTable {a : Nat} (h : UserAt s pgdir a) : HasTable s pgdir a := by
  by_contra hnot
  have hdiv : a % 2 ^ 32 / 4096 / 1024 = a % 2 ^ 32 / 2 ^ 22 := by omega
  have hp := h.1
  rw [pte_of_no_table (by rwa [hdiv])] at hp
  exact absurd hp (by decide)

/-- Only pages of user code can be written, and they are the directory's own. -/
theorem Space.userAt_page {a : Nat} (h : Space s pgdir K R hand) (ha : UserAt s pgdir a) :
    s.page pgdir (a % 2 ^ 32 / 4096) = frameOf (s.pte pgdir (a % 2 ^ 32 / 4096)) ∧
      s.page pgdir (a % 2 ^ 32 / 4096) ≠ 0 := by
  have hn : a % 2 ^ 32 / 4096 < kernPage := by
    by_contra hk
    exact h.kernel _ (Nat.not_lt.mp hk) ha.1 ha.2
  exact ⟨page_eq hn ha.1, h.page_ne_zero hn ha.1⟩

theorem uva2ka_spec (hva : va < 2 ^ 32) (ht : HasTable s pgdir va) (h : Space s pgdir K R hand) :
    wp (uva2ka cur pgdir (pgrounddown va)) (fun r s' =>
      r = (if UserAt s pgdir va then some (s.page pgdir (va / 4096)) else none) ∧ s' = s) s := by
  have hmod : va % 2 ^ 32 = va := Nat.mod_eq_of_lt hva
  have hp : Present (s.word pgdir (va / 4096 / 1024)) := by
    rw [HasTable, hmod] at ht
    rwa [show va / 4096 / 1024 = va / 2 ^ 22 by omega]
  have hn : va / 4096 < 2 ^ 20 := by omega
  have hround : pgrounddown va / 4096 = va / 4096 := by
    unfold pgrounddown
    omega
  rw [uva2ka, wp_bind, wp_walk hround hn]
  refine ⟨fun _ => ?_, fun hnot => absurd hp hnot⟩
  simp only [loadPte, wp_bind, wp_get, wp_pure, ← pte_eq hn hp]
  by_cases hu : UserAt s pgdir va
  · obtain ⟨hpage, hne⟩ := h.userAt_page hu
    rw [hmod] at hpage hne
    have hrange : s.page pgdir (va / 4096) < 0xE000 := (h.page_range hne).2
    have hP := hu.1
    have hU := hu.2
    rw [hmod] at hP hU
    rw [if_neg (not_not_intro hP), if_neg (not_not_intro hU), if_neg (by omega),
      wp_pure, if_pos hu, hpage]
    exact ⟨rfl, rfl⟩
  · rw [if_neg hu]
    by_cases hP : Present (s.pte pgdir (va / 4096))
    · have hU : ¬ User (s.pte pgdir (va / 4096)) := fun hU => hu (by
        rw [UserAt, hmod]
        exact ⟨hP, hU⟩)
      rw [if_neg (not_not_intro hP), if_pos hU, wp_pure]
      exact ⟨rfl, rfl⟩
    · rw [if_pos hP, wp_pure]
      exact ⟨rfl, rfl⟩

/-! ## The loop -/

/-- The state after `n` bytes have been copied to the page of `va`. -/
def Phys.fill (s : Phys) (pgdir va : Nat) (buf : Buf) (n : Nat) : Phys :=
  s.setPage (s.page pgdir (va / 4096))
    (memmove (s.mem (s.page pgdir (va / 4096))) (va % 4096) buf n)

/-- Bytes have been written, and only to pages of user code. -/
structure Confined (pgdir : Nat) (s s' : Phys) : Prop where
  same : SameTables pgdir s s'
  free : s'.free = s.free
  nulls : s'.nulls = s.nulls
  mem : ∀ f, (∀ a, UserAt s pgdir a → s.page pgdir (a % 2 ^ 32 / 4096) ≠ f) → s'.mem f = s.mem f

/-- Exactly the bytes of the buffer have been stored in the range. -/
structure Stored (pgdir va : Nat) (buf : Buf) (len : Nat) (s s' : Phys) : Prop where
  inside : ∀ i, i < len → s'.byteAt pgdir (va + i) = some (buf i)
  outside : ∀ f j, (∀ i, i < len → s.page pgdir ((va + i) / 4096) = f → (va + i) % 4096 ≠ j) →
    s'.mem f j = s.mem f j

theorem Confined.refl : Confined pgdir s s := ⟨.refl, rfl, rfl, fun _ _ => rfl⟩

theorem SameTables.userAt {a : Nat} (h : SameTables pgdir s s') (hs : Space s pgdir K R hand) :
    UserAt s' pgdir a ↔ UserAt s pgdir a := by
  rw [UserAt, UserAt, h.pte_eq hs]

theorem SameTables.trans {s₂ : Phys} (h : SameTables pgdir s s₁) (h' : SameTables pgdir s₁ s₂) :
    SameTables pgdir s s₂ where
  dir k := (h'.dir k).trans (h.dir k)
  table i k ht := by
    have htable := congrFun h.table_eq i
    rw [← h.table i k ht, ← htable]
    exact h'.table i k (htable ▸ ht)

theorem Confined.trans {s₂ : Phys} (hs : Space s pgdir K R hand) (h : Confined pgdir s s₁)
    (h' : Confined pgdir s₁ s₂) : Confined pgdir s s₂ where
  same := h.same.trans h'.same
  free := h'.free.trans h.free
  nulls := h'.nulls.trans h.nulls
  mem f hf := by
    rw [h'.mem f fun a ha => ?_, h.mem f hf]
    rw [page_congr (h.same.pte_eq hs)]
    exact hf a ((h.same.userAt hs).mp ha)

/-- One page is written. -/
theorem Space.fill (h : Space s pgdir K R hand) (hva : va < 2 ^ 32) (hu : UserAt s pgdir va)
    (buf : Buf) (n : Nat) :
    Space (s.fill pgdir va buf n) pgdir K R hand ∧ Confined pgdir s (s.fill pgdir va buf n) := by
  obtain ⟨-, hne⟩ := h.userAt_page hu
  have hmod : va % 2 ^ 32 = va := Nat.mod_eq_of_lt hva
  rw [hmod] at hne
  have hsame := sameTables_setPage (h.apart_page hne)
    (memmove (s.mem (s.page pgdir (va / 4096))) (va % 4096) buf n)
  refine ⟨h.of_same hsame rfl, hsame, rfl, rfl, fun f hf => setPage_of_ne fun heq => ?_⟩
  have := hf va hu
  rw [hmod] at this
  exact this heq.symm

theorem Space.userAt_lt {a : Nat} (h : Space s pgdir K R hand) (ha : UserAt s pgdir a) :
    a % 2 ^ 32 < 2 ^ 31 := by
  by_contra hk
  exact h.kernel _ (show 0x80000 ≤ a % 2 ^ 32 / 4096 by omega) ha.1 ha.2

/-- The addresses of one page. -/
theorem userAt_congr {a b : Nat} (h : a % 2 ^ 32 / 4096 = b % 2 ^ 32 / 4096) :
    UserAt s pgdir a ↔ UserAt s pgdir b := by
  rw [UserAt, UserAt, h]

theorem wp_kernelWrite {Q : Unit → Phys → Prop} {o : Nat} (hf : K.first ≤ f ∧ f < topFrame) :
    wp (kernelWrite K f o buf n) Q s ↔ Q () (s.setPage f (memmove (s.mem f) o buf n)) := by
  have := K.data_before
  rw [kernelWrite, if_pos (by omega), wp_modify]

theorem sub_pgrounddown (va : Nat) : va - pgrounddown va = va % 4096 := by
  unfold pgrounddown
  omega

theorem pgrounddown_next (hva : va < 2 ^ 31) :
    (pgrounddown va + 4096) % 2 ^ 32 = va - va % 4096 + 4096 := by
  unfold pgrounddown
  omega

/-- A range that is mapped for user code ends below the kernel. -/
theorem Space.userAt_range (h : Space s pgdir K R hand) (hva : va < 2 ^ 31)
    (hall : ∀ i, i < len → UserAt s pgdir (va + i)) : va + len ≤ 2 ^ 31 := by
  by_contra hlen
  have hlt := h.userAt_lt (hall (2 ^ 31 - va) (by omega))
  rw [show va + (2 ^ 31 - va) = 2 ^ 31 by omega] at hlt
  exact absurd hlt (by decide)

/-- The part of the range on the first page has been written, and then the rest. -/
theorem Stored.step (h : Space s pgdir K R hand) (hva : va < 2 ^ 31)
    (hn : min (4096 - va % 4096) len = n) (hall : ∀ i, i < len → UserAt s pgdir (va + i))
    (hsame : SameTables pgdir s (s.fill pgdir va buf n)) (hsame' : SameTables pgdir s s')
    (hrest : Stored pgdir (va - va % 4096 + 4096) (fun j => buf (n + j)) (len - n)
      (s.fill pgdir va buf n) s') :
    Stored pgdir va buf len s s' := by
  have hrange := h.userAt_range hva hall
  have hpage := page_congr (hsame.pte_eq h)
  have huser : ∀ i, i < len →
      s.page pgdir ((va + i) / 4096) = frameOf (s.pte pgdir ((va + i) / 4096)) ∧
      s.page pgdir ((va + i) / 4096) ≠ 0 ∧ Present (s.pte pgdir ((va + i) / 4096)) := fun i hi => by
    have hu := h.userAt_page (hall i hi)
    have hp := (hall i hi).1
    rw [Nat.mod_eq_of_lt (by omega)] at hu hp
    exact ⟨hu.1, hu.2, hp⟩
  constructor
  · intro i hi
    by_cases hin : i < n
    · obtain ⟨hframe, hne, hp⟩ := huser i hi
      have hdiv : (va + i) / 4096 = va / 4096 := by omega
      rw [Phys.byteAt, hsame'.pte_eq h, if_pos hp, ← hframe, hdiv]
      rw [hdiv] at hne
      have hmem : s'.mem (s.page pgdir (va / 4096)) ((va + i) % 4096) =
          (s.fill pgdir va buf n).mem (s.page pgdir (va / 4096)) ((va + i) % 4096) := by
        refine hrest.outside _ _ fun i' hi' heq => ?_
        -- the rest of the range is on other pages
        rw [hpage] at heq
        have hother : (va - va % 4096 + 4096 + i') / 4096 ≠ va / 4096 := by omega
        exact absurd heq.symm (h.ne (k := .page _) (j := .page _) hne (by simpa using hother.symm))
      rw [hmem, Phys.fill, setPage_self, memmove_inside (by omega) (by omega)]
      exact congrArg (fun k => some (buf k)) (by omega)
    · have hbyte := hrest.inside (i - n) (by omega)
      rwa [show va - va % 4096 + 4096 + (i - n) = va + i by omega,
        show n + (i - n) = i by omega] at hbyte
  · intro f j hout
    rw [hrest.outside f j fun i hi heq => ?_, Phys.fill]
    · by_cases hf : f = s.page pgdir (va / 4096)
      · rw [hf, setPage_self]
        refine memmove_outside ?_
        by_contra hc
        have := hout (j - va % 4096) (by omega)
        rw [show (va + (j - va % 4096)) / 4096 = va / 4096 by omega] at this
        exact this hf.symm (by omega)
      · rw [setPage_of_ne hf]
    · rw [hpage, show va - va % 4096 + 4096 + i = va + (n + i) by omega] at heq
      rw [show va - va % 4096 + 4096 + i = va + (n + i) by omega]
      exact hout (n + i) (by omega) heq

theorem copyoutLoop_spec {fuel : Nat} (h : Space s pgdir K R hand) (hva : va < 2 ^ 32)
    (hlen : len ≤ fuel) (hg : Guarded s pgdir va len) :
    wp (copyoutLoop K cur pgdir fuel va buf len)
      (fun r s' => Space s' pgdir K R hand ∧ Confined pgdir s s' ∧
      (r = true ↔ ∀ i, i < len → UserAt s pgdir (va + i)) ∧
      (r = true → Stored pgdir va buf len s s')) s := by
  induction fuel generalizing s va buf len with
  | zero =>
    obtain rfl : len = 0 := by omega
    refine (wp_pure _).mpr ⟨h, .refl, by simp, fun _ => ⟨by simp, fun _ _ _ => rfl⟩⟩
  | succ fuel ih =>
    rw [copyoutLoop]
    by_cases h0 : len > 0
    · have ht : HasTable s pgdir va := hg 0 h0 (by simp)
      rw [if_pos h0, wp_bind]
      refine (uva2ka_spec hva ht h).mono fun r s₁ ⟨hr, hs₁⟩ => ?_
      rw [hr, hs₁]
      by_cases hu : UserAt s pgdir va
      · obtain ⟨-, hne⟩ := h.userAt_page hu
        rw [Nat.mod_eq_of_lt hva] at hne
        have hlt := h.userAt_lt hu
        rw [Nat.mod_eq_of_lt hva] at hlt
        rw [if_pos hu]
        simp only [sub_pgrounddown, pgrounddown_next hlt]
        generalize hn : min (4096 - va % 4096) len = n
        rw [wp_bind, wp_kernelWrite (h.page_range hne)]
        obtain ⟨hspace, hconf⟩ := h.fill hva hu buf n
        have hfirst : ∀ j, j < n → UserAt s pgdir (va + j) :=
          fun j hj => (userAt_congr (by omega)).mpr hu
        have hg' : Guarded (s.fill pgdir va buf n) pgdir (va - va % 4096 + 4096)
            (len - n) := fun i hi hj => by
          rw [HasTable, hconf.same.dir, show va - va % 4096 + 4096 + i = va + (n + i) by omega]
          refine hg (n + i) (by omega) fun j hji => ?_
          by_cases hjn : j < n
          · exact hfirst j hjn
          · have := (hconf.same.userAt h).mp (hj (j - n) (by omega))
            rwa [show va - va % 4096 + 4096 + (j - n) = va + j by omega] at this
        refine (ih hspace (by omega) (by omega) hg').mono fun r s' ⟨hs', hconf', hr, hstored⟩ => ?_
        have hall : r = true ↔ ∀ i, i < len → UserAt s pgdir (va + i) := by
          rw [hr]
          constructor
          · intro hrest i hi
            by_cases hin : i < n
            · exact hfirst i hin
            · have := (hconf.same.userAt h).mp (hrest (i - n) (by omega))
              rwa [show va - va % 4096 + 4096 + (i - n) = va + i by omega] at this
          · intro hall i hi
            rw [hconf.same.userAt h, show va - va % 4096 + 4096 + i = va + (n + i) by omega]
            exact hall (n + i) (by omega)
        exact ⟨hs', hconf.trans h hconf', hall, fun htrue =>
          .step h hlt hn (hall.mp htrue) hconf.same (hconf.same.trans hconf'.same) (hstored htrue)⟩
      · rw [if_neg hu]
        refine (wp_pure _).mpr
          ⟨h, .refl, iff_of_false (by simp) fun hall => hu (hall 0 h0), by simp⟩
    · obtain rfl : len = 0 := by omega
      rw [if_neg h0, wp_pure]
      exact ⟨h, .refl, by simp, fun _ => ⟨by simp, fun _ _ _ => rfl⟩⟩

/-! ## Null pointers -/

theorem loadNull_inv {Q : Nat → Phys → Prop} (h : wp (loadNull cur) Q s) :
    ∃ w, Q w { s with nulls := s.nulls + 1 } := by
  rw [loadNull, wp_bind, wp_walk (show 0 / 4096 = 0 from rfl) (by decide)] at h
  by_cases hp : Present (s.word cur (0 / 1024))
  · have h := h.1 hp
    simp only [wp_bind, wp_get] at h
    split at h
    · exact ⟨_, (wp_pure _).mp ((wp_modify _).mp (wp_bind.mp h))⟩
    · exact absurd h (wp_throw _)
  · exact absurd (h.2 hp) (wp_throw _)

/-- `uva2ka` follows a null pointer where there is no page table, or the kernel traps. -/
theorem uva2ka_inv {Q : Option Nat → Phys → Prop} (hva : va < 2 ^ 32)
    (h : wp (uva2ka cur pgdir va) Q s) :
    ∃ r s₁, Q r s₁ ∧ s.nulls ≤ s₁.nulls ∧ (¬ HasTable s pgdir va → s.nulls < s₁.nulls) := by
  have hcheck : ∀ {w : Nat} {t : Phys}, wp (if ¬ Present w then pure none
      else if ¬ User w then pure none else if frameOf w = 0x80000 then pure none
      else pure (some (frameOf w)) : VmM (Option Nat)) Q t → ∃ r, Q r t := by
    intro w t h
    split at h
    · exact ⟨_, (wp_pure _).mp h⟩
    · split at h
      · exact ⟨_, (wp_pure _).mp h⟩
      · split at h <;> exact ⟨_, (wp_pure _).mp h⟩
  have htable : HasTable s pgdir va ↔ Present (s.word pgdir (va / 4096 / 1024)) := by
    rw [HasTable, Nat.mod_eq_of_lt hva, show va / 4096 / 1024 = va / 2 ^ 22 by omega]
  rw [uva2ka, wp_bind, wp_walk rfl (show va / 4096 < 2 ^ 20 by omega), ← htable] at h
  by_cases hp : HasTable s pgdir va
  · have h := h.1 hp
    simp only [loadPte, wp_bind, wp_get, wp_pure] at h
    obtain ⟨r, hr⟩ := hcheck h
    exact ⟨r, s, hr, Nat.le_refl _, fun hnot => absurd hp hnot⟩
  · obtain ⟨w, hw⟩ := loadNull_inv (wp_bind.mp (h.2 hp))
    obtain ⟨r, hr⟩ := hcheck hw
    exact ⟨r, _, hr, Nat.le_succ _, fun _ => Nat.lt_succ_self _⟩

theorem kernelWrite_inv {Q : Unit → Phys → Prop} {o : Nat} (h : wp (kernelWrite K f o buf n) Q s) :
    Q () (s.setPage f (memmove (s.mem f) o buf n)) := by
  rw [kernelWrite] at h
  split at h
  · exact (wp_modify _).mp h
  · exact absurd h (wp_throw _)

/-- The count never falls. -/
theorem copyoutLoop_nulls {fuel N : Nat} (hva : va < 2 ^ 32)
    (h : wp (copyoutLoop K cur pgdir fuel va buf len) (fun _ s' => s'.nulls = N) s) :
    s.nulls ≤ N := by
  induction fuel generalizing s va buf len with
  | zero => exact ((wp_pure _).mp h).le
  | succ fuel ih =>
    rw [copyoutLoop] at h
    split at h
    · have hround : pgrounddown va < 2 ^ 32 := by
        unfold pgrounddown
        omega
      obtain ⟨r, s₁, hr, hle, -⟩ := uva2ka_inv hround (wp_bind.mp h)
      cases r with
      | none => exact hle.trans ((wp_pure _).mp hr).le
      | some f =>
        have hrest := ih (Nat.mod_lt _ (by decide)) (kernelWrite_inv (wp_bind.mp hr))
        exact hle.trans hrest
    · exact ((wp_pure _).mp h).le

/-- A run in which no null pointer was followed. -/
theorem guarded_of_run {fuel : Nat} (h : Space s pgdir K R hand) (hva : va < 2 ^ 32)
    (hlen : len ≤ fuel)
    (hrun : wp (copyoutLoop K cur pgdir fuel va buf len) (fun _ s' => s'.nulls = s.nulls) s) :
    Guarded s pgdir va len := by
  induction fuel generalizing s va buf len with
  | zero => exact fun i hi => absurd hi (by omega)
  | succ fuel ih =>
    intro i hi hall
    have h0 : len > 0 := by omega
    rw [copyoutLoop, if_pos h0, wp_bind] at hrun
    by_cases ht : HasTable s pgdir va
    · obtain ⟨r, s₁, -, ⟨hr, hs₁⟩, hrest⟩ := (uva2ka_spec hva ht h).and hrun
      by_cases hu : UserAt s pgdir va
      · have hlt := h.userAt_lt hu
        rw [Nat.mod_eq_of_lt hva] at hlt
        rw [hs₁, hr, if_pos hu] at hrest
        simp only [sub_pgrounddown, pgrounddown_next hlt] at hrest
        generalize hn : min (4096 - va % 4096) len = n at hrest
        obtain ⟨hspace, hconf⟩ := h.fill hva hu buf n
        have hg := ih hspace (by omega) (by omega) (kernelWrite_inv (wp_bind.mp hrest))
        by_cases hin : i < n
        · exact ((userAt_congr (by omega)).mpr hu).hasTable
        · have := hg (i - n) (by omega) fun j hj => ?_
          · rwa [HasTable, hconf.same.dir,
              show va - va % 4096 + 4096 + (i - n) = va + i by omega] at this
          · rw [hconf.same.userAt h, show va - va % 4096 + 4096 + j = va + (n + j) by omega]
            exact hall (n + j) (by omega)
      · obtain rfl : i = 0 := by
          by_contra hi0
          exact hu (hall 0 (by omega))
        exact ht
    · have hround : pgrounddown va < 2 ^ 32 ∧ pgrounddown va / 2 ^ 22 = va / 2 ^ 22 := by
        unfold pgrounddown
        omega
      have ht' : ¬ HasTable s pgdir (pgrounddown va) := by
        rwa [HasTable, Nat.mod_eq_of_lt hround.1, hround.2, ← Nat.mod_eq_of_lt hva]
      obtain ⟨r, s₁, hr, -, hnull⟩ := uva2ka_inv hround.1 hrun
      have hlt := hnull ht'
      cases r with
      | none => exact absurd ((wp_pure _).mp hr) (by omega)
      | some f =>
        have hle := copyoutLoop_nulls (Nat.mod_lt _ (by decide)) (kernelWrite_inv (wp_bind.mp hr))
        exact absurd hlt (Nat.not_lt.mpr hle)

/-- No null pointer is followed, only frames are written that are mapped for user code, and
the result is 0 exactly if the range is mapped, with exactly the bytes of the buffer in it. -/
def CopyoutLaw (K : Layout) (cur pgdir va : Nat) (buf : Buf) (len : Nat) (s : Phys) : Prop :=
  wp (copyout K cur pgdir va buf len) (fun r s' => s'.nulls = s.nulls ∧
    (∀ f, (∀ n, Present (s.pte pgdir n) → User (s.pte pgdir n) → frameOf (s.pte pgdir n) ≠ f) →
    s'.mem f = s.mem f) ∧
    (r = true ↔ ∀ i, i < len → UserAt s pgdir (va + i)) ∧
    (r = true → Stored pgdir va buf len s s')) s

/-- This is so exactly if the first address of the range that is not mapped for user code has a page
table. -/
theorem copyout_iff_guarded (h : Space s pgdir K R hand) (hva : va < 2 ^ 32) :
    CopyoutLaw K cur pgdir va buf len s ↔ Guarded s pgdir va len := by
  constructor
  · exact fun hlaw => guarded_of_run h hva (Nat.le_refl len) (hlaw.mono fun _ _ hr => hr.1)
  · intro hg
    refine (copyoutLoop_spec h hva (Nat.le_refl len) hg).mono fun r s' ⟨_, hconf, hr, hstored⟩ => ?_
    refine ⟨hconf.nulls, fun f hf => hconf.mem f fun a ha => ?_, hr, hstored⟩
    rw [(h.userAt_page ha).1]
    exact hf _ ha.1 ha.2

/-- With two pages of user memory, ten bytes are copied across the end of the first. -/
theorem copyout_iff_guarded_two_pages : ∃ s, Filled s 0x200 5000 ∧
    CopyoutLaw smallLayout 0x200 0x200 4090 (fun _ => 7) 10 s := by
  obtain ⟨s, h, hfilled, -⟩ := twoPages
  refine ⟨s, hfilled, (copyout_iff_guarded h.space (by decide)).mpr fun i hi _ => ?_⟩
  obtain ⟨f, -, hpte, -⟩ := h.new ((4090 + i) / 4096) (Nat.zero_le _) (show _ < 2 by omega)
  refine UserAt.hasTable ?_
  rw [UserAt, Nat.mod_eq_of_lt (by omega), hpte]
  omega

/-- The current process has mapped frame 0x212 at address 0, and begins it with the number
of frame 0x213, of which it has none. Directory 0x200 is empty. -/
def wildState : Phys where
  mem f := match f with
    | 0x210 => putLE (fun _ => 0) 0 4 (0x211 * 4096 + 7)
    | 0x211 => putLE (fun _ => 0) 0 4 (0x212 * 4096 + 7)
    | 0x212 => putLE (fun _ => 0) 0 4 (0x213 * 4096 + 7)
    | _ => fun _ => 0
  free := []
  nulls := 0

theorem space_wildState : Space wildState 0x200 smallLayout (· ≠ 0x200) 0 := by
  refine .of_zero rfl List.nodup_nil (by decide) (fun f hf => ?_) (fun f => ?_) (by decide)
  · obtain rfl := not_not.mp hf
    decide
  · exact iff_of_true List.not_mem_nil (ne_or_eq f 0x200)

/-- A byte for the page below the devices: `uva2ka` dereferences a null pointer. Where that reads
the word at address 0, the byte is written to frame 0x213, and -1 is not returned. The kernel as
built traps at the dereference (the compiler puts `ud2` there). -/
theorem copyout_null_write :
    (copyout smallLayout 0x210 0x200 0xFDFFF000 (fun _ => 42) 1 wildState).toOption.map
      (fun x => (x.1, x.2.mem 0x213 0, x.2.nulls)) = some (true, 42, 1) ∧
    ¬ CopyoutLaw smallLayout 0x210 0x200 0xFDFFF000 (fun _ => 42) 1 wildState := by
  refine ⟨by decide +kernel, fun hlaw => ?_⟩
  have hg :=
    guarded_of_run space_wildState (by decide) (Nat.le_refl 1) (hlaw.mono fun _ _ hr => hr.1)
  have ht : Present (wildState.word 0x200 _) := hg 0 (by decide) (by simp)
  rw [word_zero rfl] at ht
  exact absurd ht (by decide)

end Xv6.Vm
