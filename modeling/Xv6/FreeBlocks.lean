import Mathlib.Order.Interval.Finset.Nat
import Xv6.FileData

/-!
# Writes and free blocks

How many blocks a write takes, and that it does not fail while there are enough. `balloc`
panics only if no block is free.
-/
namespace Xv6.FreeBlocks

open Bytes FsImage BlockMap FileData

variable (sb : Superblock)

/-- The blocks that are not marked in the bitmap. -/
def free (d : Disk) : Finset Nat := (Finset.range sb.size).filter fun b => used sb d b = false

/-- At most `k` blocks have been taken. -/
def Takes (k : Nat) (d d' : Disk) : Prop := (free sb d).card ≤ (free sb d').card + k

variable {sb} {s s' : Fs} {d d' d'' : Disk} {b bn i k l off : Nat}
  {ip ip' : Dinode} {T : Table} {src : Buf}

theorem Takes.trans (h : Takes sb k d d') (h' : Takes sb l d' d'') : Takes sb (k + l) d d'' := by
  unfold Takes at *
  omega

theorem Takes.mono (h : Takes sb k d d') (hle : k ≤ l) : Takes sb l d d' := by
  unfold Takes at *
  omega

theorem takes_of_used (h : ∀ c, c < sb.size → used sb d' c = used sb d c) : Takes sb 0 d d' := by
  have hsub : free sb d ⊆ free sb d' := by
    intro c hc
    rw [free, Finset.mem_filter, Finset.mem_range] at hc ⊢
    exact ⟨hc.1, (h c hc.1).trans hc.2⟩
  exact Finset.card_le_card hsub

theorem Takes.refl (sb : Superblock) (d : Disk) : Takes sb 0 d d := takes_of_used fun _ _ => rfl

/-! ## balloc -/

theorem balloc_of_free (h : 0 < (free sb s.disk).card) : ∃ r, balloc sb s = .ok r := by
  obtain ⟨b, -, -, hrun⟩ | ⟨-, hfull⟩ := balloc_cases sb s
  · exact ⟨_, hrun⟩
  · obtain ⟨b, hb⟩ := Finset.card_pos.mp h
    rw [free, Finset.mem_filter, Finset.mem_range] at hb
    have := hfull b hb.1
    rw [hb.2] at this
    cases this

theorem balloc_takes (h : Owned sb s.disk T) (hrun : balloc sb s = .ok (b, s')) :
    Takes sb 1 s.disk s'.disk := by
  obtain ⟨hb, hu, rfl⟩ := balloc_ok hrun
  have hmeta := h.nmeta_le hu
  have hsub : (free sb s.disk).erase b ⊆ free sb (takeBlock sb s.disk b) := by
    intro c hc
    obtain ⟨hne, hc⟩ := Finset.mem_erase.mp hc
    rw [free, Finset.mem_filter, Finset.mem_range] at hc ⊢
    refine ⟨hc.1, ?_⟩
    rw [used_takeBlock hmeta hc.1, hc.2, decide_eq_false hne.symm]
    rfl
  have hcard := Finset.card_le_card hsub
  have herase := Finset.pred_card_le_card_erase (s := free sb s.disk) (a := b)
  unfold Takes
  dsimp only
  omega

/-- A data block is written. -/
theorem takes_update (hb : sb.nmeta ≤ b) (d : Disk) (buf : Buf) :
    Takes sb 0 d (Function.update d b buf) :=
  takes_of_used fun c hc => by
    have := Superblock.bblock_lt hc
    rw [used, Function.update_of_ne (by omega), used]

theorem takes_putDinode (hi : i < sb.ninodes) (d : Disk) (ip : Dinode) :
    Takes sb 0 d (putDinode sb d i ip) :=
  takes_of_used fun _ _ => used_putDinode hi

/-! ## bmap -/

/-- How many blocks `bmap` takes at most. -/
def need (d : Disk) (ip : Dinode) (bn : Nat) : Nat :=
  if ptr d ip (slot bn) ≠ 0 then 0 else if bn < 12 then 1 else 2

theorem addrAlloc_of_free {k : Fin 13} (h : 0 < (free sb s.disk).card) :
    ∃ r, addrAlloc sb ip k s = .ok r := by
  rw [addrAlloc, Code.addrAlloc]
  split
  next =>
    obtain ⟨⟨b, s'⟩, hrun⟩ := balloc_of_free h
    rw [bind_of_ok hrun]
    exact ⟨_, rfl⟩
  next => exact ⟨_, rfl⟩

theorem addrAlloc_takes {k : Fin 13} {a : Nat} (h : Owned sb s.disk T)
    (hrun : addrAlloc sb ip k s = .ok ((ip', a), s')) : Takes sb 1 s.disk s'.disk := by
  rw [addrAlloc, Code.addrAlloc] at hrun
  split at hrun
  next =>
    obtain ⟨b, s₁, hballoc, hrun⟩ := bind_ok hrun
    cases hrun
    exact balloc_takes h hballoc
  next =>
    cases hrun
    exact (Takes.refl ..).mono (Nat.zero_le 1)

theorem entryAlloc_of_free {a j : Nat} (h : 0 < (free sb s.disk).card) :
    ∃ r, entryAlloc sb a j s = .ok r := by
  rw [entryAlloc, Code.entryAlloc, bread_bind]
  split
  next =>
    obtain ⟨⟨b, s'⟩, hrun⟩ := balloc_of_free h
    rw [bind_of_ok hrun]
    exact ⟨_, rfl⟩
  next => exact ⟨_, rfl⟩

theorem entryAlloc_takes {a c j : Nat} (h : Owned sb s.disk T) (ha : sb.nmeta ≤ a)
    (hrun : entryAlloc sb a j s = .ok (c, s')) : Takes sb 1 s.disk s'.disk := by
  rw [entryAlloc, Code.entryAlloc, bread_bind] at hrun
  split at hrun
  next =>
    obtain ⟨b, s₁, hballoc, hrun⟩ := bind_ok hrun
    cases hrun
    exact (balloc_takes h hballoc).trans (takes_update ha _ _)
  next =>
    cases hrun
    exact (Takes.refl ..).mono (Nat.zero_le 1)

/-- `bmap` of an allocated inode takes no more than it needs. -/
theorem bmap_takes {a : Nat} (h : Owned sb s.disk T) (hi : i < sb.ninodes) (ht : (T i).type ≠ 0)
    (hrun : bmap sb (T i) bn s = .ok ((ip', a), s')) :
    Takes sb (need s.disk (T i) bn) s.disk s'.disk := by
  rw [need]
  by_cases hb : ptr s.disk (T i) (slot bn) ≠ 0
  · rw [bmap_found hb] at hrun
    cases hrun
    rw [if_pos hb]
    exact .refl ..
  · rw [if_neg hb]
    rw [bmap, Code.bmap] at hrun
    split at hrun
    next hbn =>
      rw [if_pos hbn]
      exact addrAlloc_takes h hrun
    next hbn =>
      rw [if_neg hbn]
      split at hrun
      next =>
        obtain ⟨⟨ip, addr⟩, s₁, halloc, hrun⟩ := bind_ok hrun
        obtain ⟨a', s₂, hentry, hrun⟩ := bind_ok hrun
        cases hrun
        obtain ⟨howned, -, haddr, ha, hsame⟩ := addrAlloc_ok h hi ht halloc 0 (fun _ => 0)
        have ht' : (Function.update T i ip' i).type ≠ 0 := by
          rw [Function.update_self, hsame]
          exact ht
        have haddr' : pointers sb s₁.disk (Function.update T i ip') (i, 12) = addr := by
          rw [pointers_of hi ht', Function.update_self, haddr]
          exact ptr_addr 12
        have hmeta := (howned.range (p := (i, 12)) (by rwa [haddr'])).1
        rw [haddr'] at hmeta
        exact (addrAlloc_takes h halloc).trans (entryAlloc_takes howned hmeta hentry)
      next => cases hrun

/-- `bmap` finds the blocks it needs. -/
theorem bmap_of_free (h : Owned sb s.disk T) (hbn : bn < 140)
    (hfree : need s.disk ip bn ≤ (free sb s.disk).card) : ∃ r, bmap sb ip bn s = .ok r := by
  rw [need] at hfree
  by_cases hb : ptr s.disk ip (slot bn) ≠ 0
  · exact ⟨_, bmap_found hb⟩
  · rw [if_neg hb] at hfree
    rw [bmap, Code.bmap]
    split
    next hlt =>
      rw [if_pos hlt] at hfree
      exact addrAlloc_of_free hfree
    next hlt =>
      rw [if_neg hlt] at hfree
      rw [if_pos (by omega)]
      obtain ⟨⟨⟨ip₁, addr⟩, s₁⟩, halloc⟩ : ∃ r, addrAlloc sb ip 12 s = .ok r :=
        addrAlloc_of_free (by omega)
      have htakes := addrAlloc_takes h halloc
      unfold Takes at htakes
      obtain ⟨⟨a, s₂⟩, hentry⟩ : ∃ r, entryAlloc sb addr (bn - 12) s₁ = .ok r :=
        entryAlloc_of_free (by omega)
      rw [bind_of_ok halloc]
      dsimp only
      rw [bind_of_ok hentry]
      exact ⟨_, rfl⟩

/-! ## Writing one entry of a directory -/

/-- An entry is in one block. -/
theorem writeLoop_entry (ip : Dinode) (src : Buf) (hoff : off % 16 = 0) (s : Fs) :
    writeLoop sb 16 ip src off 16 s = (do
      let (ip, addr) ← bmap sb ip (off / 512)
      let bp ← bread addr
      logWrite addr (memmove bp (off % 512) src 16)
      pure ip : FsM Dinode) s := by
  rw [writeLoop, Code.writeLoop, if_neg (by decide)]
  have hmin : min 16 (512 - off % 512) = 16 := by omega
  rw [hmin]
  cases bmap sb ip (off / 512) s with
  | error msg => rfl
  | ok r => rfl

theorem writei_entry_of_free (h : Owned sb s.disk T) (hoff : off % 16 = 0)
    (hmax : off + 16 ≤ 140 * 512) (hfree : need s.disk ip (off / 512) ≤ (free sb s.disk).card)
    (i : Nat) (src : Buf) :
    ∃ r, writei sb i ip src (UInt32.ofNat off) 16 s = .ok r := by
  have hnat : (UInt32.ofNat off).toNat = off :=
    UInt32.toNat_ofNat_of_lt' (show off < 2 ^ 32 by omega)
  obtain ⟨⟨⟨ip₁, addr⟩, s₁⟩, hbmap⟩ := bmap_of_free h (by omega : off / 512 < 140) hfree
  have hloop : writeLoop sb (16 : UInt32).toNat ip src (UInt32.ofNat off).toNat
      (16 : UInt32).toNat s =
        .ok (ip₁, ⟨Function.update s₁.disk addr (memmove (s₁.disk addr) (off % 512) src 16),
          s₁.writes + 1, s₁.allocs⟩) := by
    rw [hnat, show (16 : UInt32).toNat = 16 from rfl, writeLoop_entry ip src hoff s,
      bind_of_ok hbmap]
    rfl
  rw [writei, Code.writei]
  split
  next => exact ⟨_, rfl⟩
  next =>
    split
    next => exact ⟨_, rfl⟩
    next =>
      rw [bind_of_ok hloop]
      split <;> exact ⟨_, rfl⟩

section

variable (h : Owned sb s.disk T) (hi : i < sb.ninodes) (ht : (T i).type ≠ 0)
include h hi ht

theorem writei_entry_takes {r : Option UInt32} (hoff : off % 16 = 0) (hmax : off + 16 ≤ 140 * 512)
    (hrun : writei sb i (T i) src (UInt32.ofNat off) 16 s = .ok ((ip', r), s')) :
    Takes sb (need s.disk (T i) (off / 512)) s.disk s'.disk := by
  have hnat : (UInt32.ofNat off).toNat = off :=
    UInt32.toNat_ofNat_of_lt' (show off < 2 ^ 32 by omega)
  rw [writei, Code.writei] at hrun
  split at hrun
  next =>
    cases hrun
    exact (Takes.refl ..).mono (Nat.zero_le _)
  next =>
    split at hrun
    next =>
      cases hrun
      exact (Takes.refl ..).mono (Nat.zero_le _)
    next =>
      obtain ⟨ip₂, s₂, hloop, hrun⟩ := bind_ok hrun
      rw [hnat] at hloop
      have hloop := (writeLoop_entry (T i) src hoff s).symm.trans hloop
      obtain ⟨⟨ip₁, addr⟩, s₁, hbmap, hloop⟩ := bind_ok hloop
      cases hloop
      obtain ⟨howned, -, haddr, ha, -⟩ := bmap_ok h hi ht hbmap 0 src
      have hmeta : sb.nmeta ≤ addr := by
        rw [haddr]
        exact (howned.range (by rwa [haddr] at ha)).1
      have htakes := (bmap_takes h hi ht hbmap).trans (takes_update hmeta s₁.disk
        (memmove (s₁.disk addr) (off % 512) src 16))
      split at hrun
      next =>
        cases hrun
        exact htakes.trans (takes_putDinode hi _ _)
      next =>
        cases hrun
        exact htakes

/-! ## Writing some blocks -/

/-- A write to `k` blocks of a file takes two free blocks for each of them at most. -/
theorem writeLoop_of_free {n fuel : Nat} (hmax : off + n ≤ 140 * 512)
    (hk : n = 0 ∨ off % 512 + n ≤ 512 * k) (hfree : 2 * k ≤ (free sb s.disk).card) :
    ∃ r, writeLoop sb fuel (T i) src off n s = .ok r := by
  induction fuel generalizing off n k s T src with
  | zero => exact ⟨_, rfl⟩
  | succ fuel ih =>
    rw [writeLoop, Code.writeLoop]
    split
    next => exact ⟨_, rfl⟩
    next hn =>
      obtain ⟨k, rfl⟩ : ∃ l, k = l + 1 := ⟨k - 1, by omega⟩
      have hneed : need s.disk (T i) (off / 512) ≤ 2 := by
        unfold need
        split
        · omega
        · split <;> omega
      obtain ⟨⟨⟨ip, addr⟩, s₁⟩, hbmap⟩ := bmap_of_free h (by omega : off / 512 < 140)
        (show need s.disk (T i) (off / 512) ≤ _ by omega)
      have htakes := (bmap_takes h hi ht hbmap).mono hneed
      obtain ⟨howned, -, haddr, ha0, hsame⟩ := bmap_ok h hi ht hbmap off src
      generalize hm : min n (512 - off % 512) = m
      obtain ⟨howned₂, -⟩ := chunk_filled howned haddr ha0 (show off % 512 + m ≤ 512 by omega) src 0
      have hmeta : sb.nmeta ≤ addr := by
        rw [haddr]
        exact (howned.range (by rwa [haddr] at ha0)).1
      have htakes₂ :=
        htakes.trans (takes_update hmeta s₁.disk (memmove (s₁.disk addr) (off % 512) src m))
      have hself : Function.update T i ip i = ip := Function.update_self ..
      have hleft : 2 * k ≤ (free sb (Function.update s₁.disk addr
          (memmove (s₁.disk addr) (off % 512) src m))).card := by
        unfold Takes at htakes₂
        omega
      have ht₂ : (Function.update T i ip i).type ≠ 0 := by
        rw [hself, hsame]
        exact ht
      have hrest : ∃ r, writeLoop sb fuel (Function.update T i ip i) (fun j => src (m + j))
          (off + m) (n - m) ⟨_, s₁.writes + 1, s₁.allocs⟩ = .ok r :=
        ih (s := ⟨_, s₁.writes + 1, s₁.allocs⟩) howned₂ ht₂ (by omega) (by omega) hleft
      rw [hself] at hrest
      rw [bind_of_ok hbmap]
      exact hrest

/-- A write of 1536 bytes reaches into four blocks at most. -/
theorem writei_of_free {off n : UInt32} (hn : n.toNat ≤ 1536) (hfree : 8 ≤ (free sb s.disk).card) :
    ∃ r, writei sb i (T i) src off n s = .ok r := by
  rw [writei, Code.writei]
  split
  next => exact ⟨_, rfl⟩
  next hr =>
    split
    next => exact ⟨_, rfl⟩
    next hmax =>
      rw [toNat_add_of (mt refused_iff.mpr hr)] at hmax
      obtain ⟨⟨ip', s'⟩, hloop⟩ : ∃ r, writeLoop sb n.toNat (T i) src off.toNat n.toNat s = .ok r :=
        writeLoop_of_free (k := 4) h hi ht (by omega) (by omega) hfree
      rw [bind_of_ok hloop]
      split <;> exact ⟨_, rfl⟩

end

end Xv6.FreeBlocks
