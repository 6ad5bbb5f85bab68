import Xv6.BlockMap

/-!
# Truncation

`itrunc` of fs.c. It mirrors `bmap`: the direct blocks, the entries of the indirect block
and the indirect block are given back one after the other. In the second loop the entries
stay in their block, so that ownership is followed on the pointers that are left.
-/
namespace Xv6.Truncate

open Function (update update_self update_of_ne)
open Bytes FsImage Ownership BlockMap

variable (sb : Superblock)

/-- The body of the first loop of `itrunc`. -/
def truncDirect (ip : Dinode) (k : Fin 13) : FsM Dinode :=
  if ip.addrs k ≠ 0 then do
    bfree sb (ip.addrs k).toNat
    pure (setAddr ip k 0)
  else pure ip

/-- The body of the second loop of `itrunc`, for the indirect block `addr`. -/
def truncEntry (addr j : Nat) : FsM Unit := do
  let bp ← bread addr
  if getLE bp (4 * j) 4 ≠ 0 then bfree sb (getLE bp (4 * j) 4) else pure ()

/-- The indices of the direct addresses, in the order of the loop. -/
def directs : List (Fin 13) := [0, 1, 2, 3, 4, 5, 6, 7, 8, 9, 10, 11]

/-- `if(ip->addrs[NDIRECT]){ ... }` of `itrunc`. -/
def truncIndirect (ip : Dinode) : FsM Dinode :=
  if ip.addrs 12 ≠ 0 then do
    (List.range 128).forM (truncEntry sb (ip.addrs 12).toNat)
    bfree sb (ip.addrs 12).toNat
    pure (setAddr ip 12 0)
  else pure ip

/-- `itrunc`, which returns the changed in-memory inode. -/
def itrunc (i : Nat) (ip : Dinode) : FsM Dinode := do
  let ip ← directs.foldlM (truncDirect sb) ip
  let ip ← truncIndirect sb ip
  let ip := { ip with size := 0 }
  iupdate sb i ip
  pure ip

variable {sb} {d : Disk} {s s' t : Fs} {T : Table} {i j : Nat} {ip : Dinode}

/-- The inode that `itrunc` leaves. -/
def emptied (ip : Dinode) : Dinode := { withAddrs ip fun _ => 0 with size := 0 }

variable (sb) in
/-- Nothing but the bitmap differs. -/
structure Released (s s' : Fs) : Prop where
  disk : ∀ c, c < sb.bmapstart ∨ sb.nmeta ≤ c → s'.disk c = s.disk c
  allocs : s'.allocs = s.allocs

namespace Released

theorem refl (s : Fs) : Released sb s s := ⟨fun _ _ => rfl, rfl⟩

theorem trans (h : Released sb s s') (h' : Released sb s' t) : Released sb s t :=
  ⟨fun c hc => (h'.disk c hc).trans (h.disk c hc), h'.allocs.trans h.allocs⟩

theorem inodes (h : Released sb s s') (hi : i < sb.ninodes) :
    dinode sb s'.disk i = dinode sb s.disk i :=
  dinode_congr (h.disk _ (.inl (Superblock.iblock_lt hi)))

end Released

variable (sb) in
/-- The bitmap is exact for some pointers, not all of which need be in an inode. -/
def OwnedBy (d : Disk) (P : Nat × Nat → Nat) : Prop :=
  Owns (· < sb.nmeta) (fun b => b < sb.size ∧ used sb d b = true) P

theorem bfree_pointer {P : Nat × Nat → Nat} {p : Nat × Nat} (h : OwnedBy sb s.disk P)
    (hp : P p ≠ 0) : ∃ s', bfree sb (P p) s = .ok ((), s') ∧ OwnedBy sb s'.disk (update P p 0) ∧
      Released sb s s' := by
  obtain ⟨hsize, hused⟩ := h.used_of hp
  refine ⟨_, bfree_used hused, ?_, ?_, rfl⟩
  · refine Owns.drop h hp fun c => ?_
    change _ ∧ used sb (dropBlock sb s.disk (P p)) c = true ↔ _
    rw [used_dropBlock]
    simp only [Bool.and_eq_true, Bool.not_eq_true', decide_eq_false_iff_not, and_assoc,
      @eq_comm _ (P p) c, ne_eq]
  · intro c hc
    have hge := sb.bblock_ge (P p)
    have hlt := Superblock.bblock_lt hsize
    exact dropBlock_of_ne (by omega)

/-- The direct addresses in `l` cleared. -/
def clearAddrs (ip : Dinode) (l : List (Fin 13)) : Dinode :=
  withAddrs ip fun k => if k ∈ l then 0 else ip.addrs k

theorem clearAddrs_nil (ip : Dinode) : clearAddrs ip [] = ip := by
  simp [clearAddrs, withAddrs]

theorem clearAddrs_setAddr (ip : Dinode) (k : Fin 13) (l : List (Fin 13)) :
    clearAddrs (setAddr ip k 0) l = clearAddrs ip (k :: l) := by
  unfold clearAddrs setAddr withAddrs
  congr 1
  funext m
  by_cases hm : m = k
  · subst hm
    simp
  · simp [hm]

theorem clearAddrs_of_zero {k : Fin 13} (h : ip.addrs k = 0) (l : List (Fin 13)) :
    clearAddrs ip l = clearAddrs ip (k :: l) := by
  rw [← clearAddrs_setAddr]
  congr 1
  rw [setAddr, show UInt32.ofNat 0 = ip.addrs k from h.symm, Function.update_eq_self, withAddrs]

theorem truncDirect_run (l : List (Fin 13)) (hl : 12 ∉ l) (h : Owned sb s.disk T)
    (hi : i < sb.ninodes) (ht : (T i).type ≠ 0) :
    ∃ s', l.foldlM (truncDirect sb) (T i) s = .ok (clearAddrs (T i) l, s') ∧
      Owned sb s'.disk (update T i (clearAddrs (T i) l)) ∧ Released sb s s' := by
  induction l generalizing s T with
  | nil =>
    exact ⟨s, by rw [clearAddrs_nil]; rfl,
      by rwa [clearAddrs_nil, Function.update_eq_self], .refl s⟩
  | cons k l ih =>
    rw [List.mem_cons, not_or] at hl
    obtain ⟨hk, hl⟩ := hl
    rw [List.foldlM_cons, truncDirect]
    split
    next hne =>
      have hp : pointers sb s.disk T (i, k.val) = ((T i).addrs k).toNat := by
        rw [pointers_of hi ht, ptr_addr]
      obtain ⟨s₁, hrun, howned, hrel⟩ := bfree_pointer h (hp ▸ toNat_ne_zero hne)
      have hsize : 0 < sb.size := Nat.lt_of_lt_of_le sb.nmeta_pos sb.nmeta_le
      have hP : pointers sb s₁.disk (update T i (setAddr (T i) k 0)) =
          update (pointers sb s.disk T) (i, k.val) 0 :=
        pointers_setAddr hi ht k hsize (fun heq => absurd heq.symm hk)
          fun j hj => hrel.disk _ (.inr (h.range hj).1)
      have hself : update T i (setAddr (T i) k 0) i = setAddr (T i) k 0 := update_self ..
      obtain ⟨s₂, hrun', howned', hrel'⟩ := ih hl (T := update T i (setAddr (T i) k 0)) (s := s₁)
        (by rw [Owned, hP]; exact howned) (by rw [hself]; exact ht)
      rw [hself, clearAddrs_setAddr] at hrun' howned'
      rw [Function.update_idem] at howned'
      refine ⟨s₂, ?_, howned', hrel.trans hrel'⟩
      rw [bind_of_ok, hrun']
      rw [bind_of_ok (hp ▸ hrun)]
      rfl
    next hz =>
      rw [← clearAddrs_of_zero (not_not.mp hz)]
      exact ih hl h ht

/-- The entries in `l` of the indirect block of inode `i` gone. -/
def cleared (P : Nat × Nat → Nat) (i : Nat) (l : List Nat) (p : Nat × Nat) : Nat :=
  if p.1 = i ∧ 13 ≤ p.2 ∧ p.2 - 13 ∈ l then 0 else P p

theorem cleared_nil (P : Nat × Nat → Nat) (i : Nat) : cleared P i [] = P := by
  funext p
  simp [cleared]

theorem cleared_cons (P : Nat × Nat → Nat) (i j : Nat) (l : List Nat) :
    cleared (update P (i, 13 + j) 0) i l = cleared P i (j :: l) := by
  funext ⟨m, k⟩
  unfold cleared
  by_cases hk : m = i ∧ k = 13 + j
  · obtain ⟨rfl, rfl⟩ := hk
    simp
  · rw [update_of_ne (by simpa using hk)]
    have : ¬ (m = i ∧ 13 ≤ k ∧ k - 13 = j) := by omega
    simp only [List.mem_cons]
    congr 1
    exact propext (by tauto)

theorem truncEntry_run {P : Nat × Nat → Nat} {addr : Nat} (l : List Nat) (hl : l.Nodup)
    (haddr : sb.nmeta ≤ addr) (h : OwnedBy sb s.disk P)
    (hP : ∀ j ∈ l, P (i, 13 + j) = getLE (s.disk addr) (4 * j) 4) :
    ∃ s', l.forM (truncEntry sb addr) s = .ok ((), s') ∧ OwnedBy sb s'.disk (cleared P i l) ∧
      Released sb s s' := by
  induction l generalizing s P with
  | nil => exact ⟨s, rfl, by rwa [cleared_nil], .refl s⟩
  | cons j l ih =>
    obtain ⟨hjl, hl⟩ := List.nodup_cons.mp hl
    have hj := hP j List.mem_cons_self
    suffices hhead : ∃ s₁, truncEntry sb addr j s = .ok ((), s₁) ∧
        OwnedBy sb s₁.disk (update P (i, 13 + j) 0) ∧ Released sb s s₁ by
      obtain ⟨s₁, hrun, howned, hrel⟩ := hhead
      obtain ⟨s₂, hrun', howned', hrel'⟩ := ih hl howned fun m hm => by
        have hne : m ≠ j := fun heq => hjl (heq ▸ hm)
        rw [update_of_ne (by simpa using hne), hP m (List.mem_cons_of_mem _ hm),
          hrel.disk addr (.inr haddr)]
      refine ⟨s₂, ?_, by rwa [← cleared_cons], hrel.trans hrel'⟩
      exact (bind_of_ok hrun).trans hrun'
    rw [truncEntry, bread_bind, ← hj]
    split
    next hne => exact bfree_pointer h hne
    next hz =>
      refine ⟨s, rfl, ?_, .refl s⟩
      rwa [← not_not.mp hz, Function.update_eq_self]

theorem truncIndirect_run (h : Owned sb s.disk T) (hi : i < sb.ninodes) (ht : (T i).type ≠ 0) :
    ∃ s', truncIndirect sb (T i) s = .ok (setAddr (T i) 12 0, s') ∧
      Owned sb s'.disk (update T i (setAddr (T i) 12 0)) ∧ Released sb s s' := by
  rw [truncIndirect]
  by_cases ha : (T i).addrs 12 = 0
  · have hsame : setAddr (T i) 12 0 = T i := by
      rw [setAddr, show UInt32.ofNat 0 = (T i).addrs 12 from ha.symm, Function.update_eq_self,
        withAddrs]
    rw [if_neg (not_not.mpr ha), hsame, Function.update_eq_self]
    exact ⟨s, rfl, h, .refl s⟩
  rw [if_pos ha]
  obtain ⟨hind, hne⟩ := pointers_indirect (d := s.disk) hi ht ha
  have hmeta := (h.range hne).1
  obtain ⟨s₁, hrun, howned, hrel⟩ := truncEntry_run (P := pointers sb s.disk T) (i := i)
    (List.range 128) List.nodup_range (hind ▸ hmeta) h fun j hj => by
      have := List.mem_range.mp hj
      rw [pointers_of hi ht, ptr, dif_neg (by omega),
        if_pos ⟨by omega, ha⟩, Nat.add_sub_cancel_left]
  have hleft : cleared (pointers sb s.disk T) i (List.range 128) (i, 12) =
      pointers sb s.disk T (i, 12) := if_neg (by simp)
  obtain ⟨s₂, hrun', howned', hrel'⟩ := bfree_pointer howned (hleft ▸ hne)
  have hrel'' := hrel.trans hrel'
  refine ⟨s₂, ?_, ?_, hrel''⟩
  · rw [bind_of_ok hrun, bind_of_ok (by rw [← hind, ← hleft]; exact hrun')]
    rfl
  · refine Owns.congr howned' (fun _ => Iff.rfl) ?_
    rintro ⟨m, k⟩
    by_cases hm : m = i
    · subst hm
      rw [pointers_of hi (by rw [update_self]; exact ht), update_self]
      by_cases hk : k = 12
      · subst hk
        rw [update_self]
        exact (ptr_addr 12).trans (congrArg UInt32.toNat (setAddr_self ..))
      · rw [update_of_ne (by simpa using hk), cleared, pointers_of hi ht]
        unfold ptr
        by_cases hlt : k < 13
        · rw [dif_pos hlt, dif_pos hlt, if_neg (by omega),
            setAddr_of_ne (fun heq => hk (congrArg Fin.val heq))]
        · have hnone : ¬ (k < 141 ∧ (setAddr (T m) 12 0).addrs 12 ≠ 0) := by
            rw [setAddr_self]
            exact fun hand => hand.2 rfl
          rw [dif_neg hlt, if_neg hnone, dif_neg hlt]
          split
          next => rfl
          next hout =>
            have : ¬ k < 141 := fun hlt' => hout ⟨rfl, by omega, List.mem_range.mpr (by omega)⟩
            rw [if_neg fun hand => this hand.1]
    · rw [pointers_update_ne hm, update_of_ne (by simp [hm]), cleared,
        if_neg fun hand => hm hand.1]
      refine congrFun (pointers_congr fun j hj htj haj => ?_) _
      obtain ⟨hindj, hnej⟩ := pointers_indirect (d := s.disk) hj htj haj
      exact hrel''.disk _ (.inr (hindj ▸ (h.range hnej).1))

theorem itrunc_ok (h : Owned sb s.disk T) (hi : i < sb.ninodes) (ht : (T i).type ≠ 0) :
    ∃ s', itrunc sb i (T i) s = .ok (emptied (T i), s') ∧
      Owned sb s'.disk (update T i (emptied (T i))) ∧
      (∀ c, sb.nmeta ≤ c → s'.disk c = s.disk c) ∧
      (∀ j, j < sb.ninodes →
        dinode sb s'.disk j = if j = i then emptied (T i) else dinode sb s.disk j) ∧
      s'.allocs = s.allocs := by
  obtain ⟨s₁, hrun, howned, hrel⟩ := truncDirect_run directs (by decide) h hi ht
  have hself : update T i (clearAddrs (T i) directs) i = clearAddrs (T i) directs :=
    update_self ..
  obtain ⟨s₂, hrun', howned', hrel'⟩ := truncIndirect_run howned hi (by rw [hself]; exact ht)
  have hmem : ∀ k : Fin 13, k ≠ 12 → k ∈ directs := by decide
  have hdone : setAddr (clearAddrs (T i) directs) 12 0 = withAddrs (T i) fun _ => 0 := by
    refine congrArg (withAddrs (T i)) (funext fun k => ?_)
    by_cases hk : k = 12
    · rw [hk, update_self]
      rfl
    · rw [update_of_ne hk]
      exact if_pos (hmem k hk)
  rw [hself, hdone] at hrun' howned'
  rw [Function.update_idem] at howned'
  have hfree := hrel.trans hrel'
  refine ⟨{ s₂ with disk :=
    FsImage.putDinode sb s₂.disk i (emptied (T i)), writes := s₂.writes + 1 },
    ?_, ?_, ?_, ?_, hfree.allocs⟩
  · rw [itrunc, bind_of_ok hrun, bind_of_ok hrun']
    rfl
  · refine Owned.putDinode (Owned.congr_table howned' fun j _ => ?_) hi _
    by_cases hj : j = i
    · subst hj
      rw [update_self, update_self]
      exact ⟨rfl, Iff.rfl⟩
    · rw [update_of_ne hj, update_of_ne hj]
      exact ⟨rfl, Iff.rfl⟩
  · intro c hc
    have := Superblock.iblock_lt_nmeta hi
    exact (putDinode_of_ne (by omega)).trans (hfree.disk c (.inr hc))
  · intro j hj
    change dinode sb (FsImage.putDinode sb s₂.disk i (emptied (T i))) j = _
    rw [dinode_putDinode, hfree.inodes hj]

end Xv6.Truncate
