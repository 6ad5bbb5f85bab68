import Xv6.MkfsBlocks

/-!
# Appending to a file of the image

`iappend` of mkfs.c leaves the disk that `writei` of fs.c leaves when it writes the same
bytes at the end of the file, as long as there are blocks and the file is not too large.
-/
namespace Xv6.Mkfs

open Function (update_of_ne)
open Bytes FsImage BlockMap FileData

variable {s s' : Img} {din din' : Dinode} {p : Buf} {b m n off fuel w : Nat} {al : List Nat}

theorem blocksOf_mono (h : m ≤ n) : blocksOf m ≤ blocksOf n := by
  unfold blocksOf
  split <;> split <;> omega

/-- Within a block no more blocks are needed. -/
theorem blocksOf_chunk (hpos : 0 < m) (hm : m ≤ 512 - off % 512) :
    blocksOf (off + m) = blocksOf (off + 1) := by
  unfold blocksOf
  split <;> split <;> omega

/-- What the loops leave that have appended `n` bytes to a file that had `off`. -/
structure Appended (s : Img) (off n : Nat) (s' : Img) (din' : Dinode) : Prop where
  good : Good s'
  freeinode : s'.freeinode = s.freeinode
  freeblock : s'.freeblock + blocksOf off = s.freeblock + blocksOf (off + n)
  range : InRange s' din'
  tight : Tight s'.disk din' (off + n)
  inodes : ∀ c, c < nmeta → s'.disk c = s.disk c

/-- Writing a block of the file moves no pointer. -/
theorem ptr_put (h : b ≠ ptr s.disk din 12) (buf : Buf) (k : Nat) :
    ptr (s.put b buf).disk din k = ptr s.disk din k :=
  ptr_congr (.inr fun _ => update_of_ne h.symm ..)

/-- One round: the block is there, and the bytes that go to it are copied. -/
theorem Grew.chunk (h : Grew s din off s' din') (hpos : 0 < m) (hm : m ≤ 512 - off % 512)
    (buf : Buf) :
    Appended s off m (s'.put (ptr s'.disk din' (slot (off / 512))) buf) din' := by
  have hx : ptr s'.disk din' (slot (off / 512)) ≠ 0 := (h.block _).mpr (Nat.le_refl _)
  have hapart := h.apart _ hx
  obtain ⟨hlow, hlt⟩ := h.range _ hx
  have hptr := ptr_put hapart buf
  refine ⟨h.good.put hlow hlt buf, h.freeinode, ?_, ?_, ⟨?_, ?_, ?_⟩, ?_⟩
  · rw [blocksOf_chunk hpos hm]
    exact h.freeblock
  · intro k hk
    rw [hptr] at hk ⊢
    exact h.range k hk
  · intro bn
    rw [hptr]
    exact (h.block bn).trans (by omega)
  · rw [hptr]
    exact h.indirect.trans (by omega)
  · intro bn hbn
    rw [hptr] at hbn ⊢
    rw [hptr]
    exact h.apart bn hbn
  · intro c hc
    exact (update_of_ne (by omega) ..).trans (h.inodes c hc)

theorem Appended.trans {s₁ : Img} {din₁ : Dinode} (h : Appended s off m s₁ din₁)
    (h' : Appended s₁ (off + m) n s' din') : Appended s off (m + n) s' din' where
  good := h'.good
  freeinode := h'.freeinode.trans h.freeinode
  freeblock := by
    have := h.freeblock
    have := h'.freeblock
    rw [← Nat.add_assoc]
    omega
  range := h'.range
  tight := by
    rw [← Nat.add_assoc]
    exact h'.tight
  inodes c hc := (h'.inodes c hc).trans (h.inodes c hc)

/-- One turn of the loops of `iappend` and `writei`. -/
theorem appendLoop_turn (p : Buf) (h : Good s) (hrange : InRange s din)
    (htight : Tight s.disk din off) (hn : n ≠ 0) (hm : min n (512 - off % 512) = m)
    (hmax : off / 512 < 140) (hroom : s.freeblock + blocksOf (off + 1) ≤ fssize + blocksOf off) :
    ∃ s' din', Appended s off m s' din' ∧
      (∀ fuel, appendLoop (fuel + 1) din p off n s =
        appendLoop fuel din' (fun k => p (m + k)) (off + m) (n - m) s') ∧
      ∀ fuel w al, ∃ w' al', writeLoop sb (fuel + 1) din p off n (s.fs w al) =
        writeLoop sb fuel din' (fun k => p (m + k)) (off + m) (n - m) (s'.fs w' al') := by
  obtain ⟨s₁, din₁, ⟨hmkfs, hkernel⟩, hgrew⟩ := block_grows h hrange htight hmax hroom
  have hx : ptr s₁.disk din₁ (slot (off / 512)) ≠ 0 := (hgrew.block _).mpr (Nat.le_refl _)
  obtain ⟨hlow, hlt⟩ := hgrew.range _ hx
  generalize hxe : ptr s₁.disk din₁ (slot (off / 512)) = x at hmkfs hkernel hx hlow hlt
  have hchunk := hgrew.chunk (m := m) (by omega) (by omega) (memmove (s₁.disk x) (off % 512) p m)
  rw [hxe] at hchunk
  refine ⟨_, din₁, hchunk, fun fuel => ?_, fun fuel w al => ?_⟩
  · have hsize : x < fssize := hlt.trans_le hgrew.good.high
    have hmkfsMin : min n ((off / 512 + 1) * 512 - off) = m := by omega
    have hmod : off - off / 512 * 512 = off % 512 := by omega
    rw [appendLoop, if_neg hn, bind_of_ok (assert_run hmax _ s), bind_of_ok hmkfs]
    dsimp only
    rw [bind_of_ok (rsect_run hgrew.good.nsect hsize), hmkfsMin, hmod,
      bind_of_ok (wsect_run hgrew.good hsize _)]
  · obtain ⟨w₁, al₁, hbmap⟩ := hkernel w al
    have hdisk : (s₁.fs w₁ al₁).disk x = s₁.disk x := marked_of_ne (ne_bmapstart hlow)
    refine ⟨w₁ + 1, al₁, ?_⟩
    rw [writeLoop, Code.writeLoop, if_neg hn, FsImage.bind_of_ok hbmap]
    dsimp only
    rw [bread_bind, hm, hdisk, Img.fs, Img.fs, marked_put (ne_bmapstart hlow)]
    rfl

/-- The loops of `iappend` and `writei` do the same. -/
theorem appendLoop_spec (h : Good s) (hrange : InRange s din) (htight : Tight s.disk din off)
    (hfuel : n ≤ fuel) (hmax : off + n ≤ 140 * 512)
    (hroom : s.freeblock + blocksOf (off + n) ≤ fssize + blocksOf off) :
    ∃ s' din', appendLoop fuel din p off n s = .ok (din', s') ∧
      (∀ w al, ∃ w' al', writeLoop sb fuel din p off n (s.fs w al) = .ok (din', s'.fs w' al')) ∧
      Appended s off n s' din' := by
  induction fuel generalizing s din p off n with
  | zero =>
    obtain rfl : n = 0 := by omega
    exact ⟨s, din, rfl, fun w al => ⟨w, al, rfl⟩, h, rfl, rfl, hrange, htight, fun _ _ => rfl⟩
  | succ fuel ih =>
    by_cases hn : n = 0
    · subst hn
      refine ⟨s, din, ?_, fun w al => ⟨w, al, ?_⟩, h, rfl, rfl, hrange, htight, fun _ _ => rfl⟩
      · rw [appendLoop, if_pos rfl]
        rfl
      · rw [writeLoop, Code.writeLoop, if_pos rfl]
        rfl
    have hone : blocksOf (off + 1) ≤ blocksOf (off + n) := blocksOf_mono (by omega)
    generalize hm : min n (512 - off % 512) = m
    obtain ⟨s₁, din₁, hchunk, hmkfs, hkernel⟩ :=
      appendLoop_turn p h hrange htight hn hm (by omega) (by omega)
    have hblocks := hchunk.freeblock
    have hend := congrArg blocksOf (show off + m + (n - m) = off + n by omega)
    obtain ⟨s₂, din₂, hmkfs', hkernel', happ⟩ :=
      ih (p := fun k => p (m + k)) hchunk.good hchunk.range
      hchunk.tight (show n - m ≤ fuel by omega) (by omega) (by omega)
    refine ⟨s₂, din₂, (hmkfs fuel).trans hmkfs', fun w al => ?_, ?_⟩
    · obtain ⟨w₁, al₁, hturn⟩ := hkernel fuel w al
      obtain ⟨w₂, al₂, hrest⟩ := hkernel' w₁ al₁
      exact ⟨w₂, al₂, hturn.trans hrest⟩
    · have hall := hchunk.trans happ
      rwa [show m + (n - m) = n by omega] at hall

/-- A file does not get larger than MAXFILE blocks. -/
theorem appendLoop_fails (h : Good s) (hrange : InRange s din) (htight : Tight s.disk din off)
    (hfuel : n ≤ fuel) (hoff : off ≤ 140 * 512) (hmax : 140 * 512 < off + n)
    (hroom : s.freeblock + blocksOf (off + n) ≤ fssize + blocksOf off) :
    appendLoop fuel din p off n s = .error "fbn < MAXFILE" := by
  induction fuel generalizing s din p off n with
  | zero => omega
  | succ fuel ih =>
    have hn : n ≠ 0 := by omega
    by_cases hlt : off / 512 < 140
    · have hone : blocksOf (off + 1) ≤ blocksOf (off + n) := blocksOf_mono (by omega)
      generalize hm : min n (512 - off % 512) = m
      obtain ⟨s₁, din₁, hchunk, hmkfs, -⟩ := appendLoop_turn p h hrange htight hn hm hlt (by omega)
      have hblocks := hchunk.freeblock
      have hend := congrArg blocksOf (show off + m + (n - m) = off + n by omega)
      rw [hmkfs]
      exact ih hchunk.good hchunk.range hchunk.tight (by omega) (by omega) (by omega) (by omega)
    · rw [appendLoop, if_neg hn]
      exact bind_of_error (assert_fails hlt _ s)

/-! ## Inodes -/

variable {i : Nat}

theorem iblock_bounds (hi : i < ninodes) : 32 ≤ sb.iblock i ∧ sb.iblock i < sb.bmapstart :=
  ⟨Nat.le_add_left .., Superblock.iblock_lt hi⟩

theorem dinode_marked (hi : i < ninodes) : dinode sb s.marked i = dinode sb s.disk i :=
  dinode_congr (marked_of_ne (Nat.ne_of_lt (iblock_bounds hi).2))

/-- Inode `i` has been written. -/
def Img.putInode (s : Img) (i : Nat) (n : Dinode) : Img :=
  { s with disk := putDinode sb s.disk i n }

theorem Good.putInode (h : Good s) (hi : i < ninodes) (n : Dinode) : Good (s.putInode i n) := by
  obtain ⟨hge, hlt⟩ := iblock_bounds hi
  have hlow := h.low
  have := nmeta_eq
  have := bmapstart_eq
  refine ⟨h.nsect, h.low, h.high, fun b hb => ?_, ?_⟩
  · have hge' : s.freeblock ≤ b := hb
    have hne : b ≠ sb.iblock i := by omega
    exact (putDinode_of_ne hne).trans (h.fresh b hb)
  · have hne : 1 ≠ sb.iblock i := by omega
    exact (putDinode_of_ne (d := s.disk) (n := n) hne).trans h.super

theorem marked_putInode (hi : i < ninodes) (n : Dinode) :
    (s.putInode i n).marked = putDinode sb s.marked i n := by
  have hne := Nat.ne_of_lt (iblock_bounds hi).2
  unfold putDinode
  rw [marked_of_ne hne]
  exact marked_put hne _

theorem iblock_lt (hi : i < ninodes) : sb.iblock i < fssize := by
  have := (iblock_bounds hi).2
  have := bmapstart_eq
  have := fssize_eq
  omega

theorem rinode_run (h : Good s) (hi : i < ninodes) :
    rinode i s = .ok (dinode sb s.disk i, s) := by
  rw [rinode, bind_of_ok (rsect_run h.nsect (iblock_lt hi))]
  rfl

theorem winode_run (h : Good s) (hi : i < ninodes) (n : Dinode) :
    winode i n s = .ok ((), s.putInode i n) := by
  rw [winode, bind_of_ok (rsect_run h.nsect (iblock_lt hi))]
  exact wsect_run h (iblock_lt hi) _

/-- The blocks of an inode have been handed out. -/
theorem inRange_of_owned (h : Owned sb s.marked (dinode sb s.marked)) (hi : i < ninodes)
    (ht : (dinode sb s.disk i).type ≠ 0) : InRange s (dinode sb s.disk i) := by
  have hptr : ∀ k, ptr s.marked (dinode sb s.disk i) k ≠ 0 →
      nmeta ≤ ptr s.marked (dinode sb s.disk i) k ∧
        ptr s.marked (dinode sb s.disk i) k < s.freeblock := by
    intro k hk
    have hpointer : pointers sb s.marked (dinode sb s.marked) (i, k) =
        ptr s.marked (dinode sb s.disk i) k := by
      rw [pointers_of hi (by rw [dinode_marked hi]; exact ht), dinode_marked hi]
    rw [← hpointer] at hk ⊢
    obtain ⟨hlow, hsize⟩ := h.range hk
    have hused := (Ownership.Owns.used_of h hk).2
    rw [used_marked hsize, decide_eq_true_eq] at hused
    exact ⟨hlow, hused⟩
  intro k hk
  have hsame : ptr s.disk (dinode sb s.disk i) k = ptr s.marked (dinode sb s.disk i) k := by
    refine ptr_congr (.inr fun ha => (marked_of_ne (ne_bmapstart ?_)).symm)
    exact (hptr 12 (toNat_ne_zero ha)).1
  rw [hsame] at hk ⊢
  exact hptr k hk

theorem Tight.congr {d d' : Disk} (h : Tight d din off) (hptr : ∀ k, ptr d' din' k = ptr d din k) :
    Tight d' din' off := by
  refine ⟨fun bn => ?_, ?_, fun bn hbn => ?_⟩
  · rw [hptr]
    exact h.block bn
  · rw [hptr]
    exact h.indirect
  · rw [hptr] at hbn ⊢
    rw [hptr]
    exact h.apart bn hbn

/-- What `iappend` of `n` bytes to inode `i` leaves. -/
structure Extended (s : Img) (i n : Nat) (p : Buf) (s' : Img) : Prop where
  good : Good s'
  freeinode : s'.freeinode = s.freeinode
  freeblock : s'.freeblock + blocksOf (dinode sb s.disk i).size.toNat =
    s.freeblock + blocksOf ((dinode sb s.disk i).size.toNat + n)
  tight : Tight s'.disk (dinode sb s'.disk i) ((dinode sb s.disk i).size.toNat + n)
  written : ∃ w al, Written sb (s.fs 0 []) (dinode sb s.marked) (s'.fs w al) (dinode sb s'.disk i) i
    (dinode sb s.disk i).size.toNat n p

/-- `iappend` to a file that does not get too large, with blocks for it, is the kernel's
`writei` at the end of the file. -/
theorem iappend_spec (h : Good s) (howned : Owned sb s.marked (dinode sb s.marked))
    (hfree : HoleFree sb s.marked (dinode sb s.marked)) (hi : i < ninodes)
    (ht : (dinode sb s.disk i).type ≠ 0)
    (htight : Tight s.disk (dinode sb s.disk i) (dinode sb s.disk i).size.toNat) (hn : 0 < n)
    (hmax : (dinode sb s.disk i).size.toNat + n ≤ 140 * 512)
    (hroom : s.freeblock + blocksOf ((dinode sb s.disk i).size.toNat + n) ≤
      fssize + blocksOf (dinode sb s.disk i).size.toNat) :
    ∃ s', iappend i p n s = .ok ((), s') ∧ Extended s i n p s' := by
  have hrange := inRange_of_owned howned hi ht
  have hT : dinode sb s.marked i = dinode sb s.disk i := dinode_marked hi
  obtain ⟨s₁, ip₁, hmkfs, hkernel, happ⟩ :=
    appendLoop_spec (p := p) h hrange htight (Nat.le_refl n) hmax hroom
  obtain ⟨w₁, al₁, hloop⟩ := hkernel 0 []
  generalize hip : dinode sb s.disk i = ip at *
  have hnsmall : (UInt32.ofNat n).toNat = n :=
    UInt32.toNat_ofNat_of_lt' (by simp only [UInt32.size]; omega)
  have hsum : (ip.size + UInt32.ofNat n).toNat = ip.size.toNat + n := by
    rw [UInt32.toNat_add, hnsmall, Nat.mod_eq_of_lt (by omega)]
  have hofNat : UInt32.ofNat (ip.size.toNat + n) = ip.size + UInt32.ofNat n := by
    rw [UInt32.ofNat_add, UInt32.ofNat_toNat]
  have hsize : ip₁.size = ip.size := by
    have hsame := (writeLoop_ok (s := s.fs 0 []) howned hi (hT.symm ▸ ht) (Nat.le_refl n)
      (by rw [hT]; exact hloop)).2.2.1
    rw [hT] at hsame
    rw [hsame]
    rfl
  generalize hip' : { ip₁ with size := ip.size + UInt32.ofNat n } = ip'
  have hwritei : writei sb i ip p ip.size (UInt32.ofNat n) (s.fs 0 []) =
      .ok ((ip', some (UInt32.ofNat n)), (s₁.putInode i ip').fs (w₁ + 1) al₁) := by
    have hrefused : ¬ Refused ip.size ip.size (UInt32.ofNat n) := by
      unfold Refused
      omega
    have hgrow : UInt32.ofNat n > 0 ∧ ip.size + UInt32.ofNat n > ip₁.size := by
      rw [gt_iff_lt, gt_iff_lt, UInt32.lt_iff_toNat_lt,
        UInt32.lt_iff_toNat_lt, hsum, hnsmall, hsize]
      exact ⟨hn, by omega⟩
    rw [writei, Code.writei, if_neg (mt refused_iff.mp hrefused), hsum, if_neg (by omega), hnsmall,
      FsImage.bind_of_ok hloop, if_pos hgrow, hip', FsImage.bind_of_ok (iupdate_run ..),
      Img.fs, Img.fs, marked_putInode hi]
    rfl
  have hdisk : dinode sb (s₁.putInode i ip').disk i = ip' :=
    (dinode_putDinode ..).trans (if_pos rfl)
  refine ⟨s₁.putInode i ip', ?_, happ.good.putInode hi _, happ.freeinode, ?_, ?_, ?_⟩
  · rw [iappend, bind_of_ok (rinode_run h hi), hip, bind_of_ok hmkfs, hofNat, hip']
    exact winode_run happ.good hi _
  · rw [hip]
    exact happ.freeblock
  · rw [hip, hdisk]
    refine happ.tight.congr fun k => ?_
    subst hip'
    refine ptr_congr (.inr fun ha => putDinode_of_ne ?_)
    have hlow := (happ.range 12 (toNat_ne_zero ha)).1
    rw [ptr_twelve] at hlow
    have := (iblock_bounds hi).2
    have := bmapstart_eq
    have := nmeta_eq
    exact Nat.ne_of_gt (Nat.lt_of_lt_of_le (by omega) hlow)
  · rw [← hT] at hwritei
    have hwritten := writei_ok (s := s.fs 0 []) howned hfree hi (hT.symm ▸ ht) rfl hwritei
    rw [hT, hnsmall, if_neg (by unfold Refused; omega)] at hwritten
    rw [hip, hdisk]
    exact ⟨w₁ + 1, al₁, hwritten.2⟩

theorem iappend_fails (h : Good s) (howned : Owned sb s.marked (dinode sb s.marked))
    (hi : i < ninodes) (ht : (dinode sb s.disk i).type ≠ 0)
    (htight : Tight s.disk (dinode sb s.disk i) (dinode sb s.disk i).size.toNat)
    (hsize : (dinode sb s.disk i).size.toNat ≤ 140 * 512)
    (hmax : 140 * 512 < (dinode sb s.disk i).size.toNat + n)
    (hroom : s.freeblock + blocksOf ((dinode sb s.disk i).size.toNat + n) ≤
      fssize + blocksOf (dinode sb s.disk i).size.toNat) :
    iappend i p n s = .error "fbn < MAXFILE" := by
  rw [iappend, bind_of_ok (rinode_run h hi)]
  exact bind_of_error (appendLoop_fails h (inRange_of_owned howned hi ht) htight (Nat.le_refl n)
    hsize hmax hroom)

end Xv6.Mkfs
