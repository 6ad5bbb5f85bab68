import Xv6.Mkfs

/-!
# Blocks of the image

The blocks that `iappend` of mkfs.c takes, compared with `bmap` of fs.c. mkfs hands out
the blocks in order and writes the bitmap at the end; with the bitmap that it would write
now, the image is a disk on which the kernel's `balloc` finds the same block.
-/
namespace Xv6.Mkfs

open Function (update update_self update_of_ne)
open Bytes FsImage BlockMap

/-! ## Running the program -/

section Run

variable {α β : Type} {x : MkM α} {f : α → MkM β} {s s' : Img} {a : α} {msg : String}

theorem bind_of_ok (h : x s = .ok (a, s')) : (x >>= f) s = f a s' := by
  change Except.bind (x s) (fun y => f y.1 y.2) = _
  rw [h]
  rfl

theorem bind_of_error (h : x s = .error msg) : (x >>= f) s = .error msg := by
  change Except.bind (x s) (fun y => f y.1 y.2) = _
  rw [h]
  rfl

theorem forM_of_ok {γ : Type} {g : γ → MkM Unit} {c : γ} {cs : List γ} (h : g c s = .ok ((), s')) :
    (c :: cs).forM g s = cs.forM g s' := bind_of_ok h

theorem forM_of_error {γ : Type} {g : γ → MkM Unit} {c : γ} {cs : List γ} (h : g c s = .error msg) :
    (c :: cs).forM g s = .error msg := bind_of_error h

theorem seek_of_le {sec : Nat} (h : sec ≤ fssize) : seek sec = sec := by
  have hsize := fssize_eq
  unfold seek
  omega

theorem rsect_run {sec : Nat} (hn : s.nsect = fssize) (h : sec < fssize) :
    rsect sec s = .ok (s.disk sec, s) := by
  change (if seek sec < s.nsect then pure (s.disk (seek sec)) else throw "read" : MkM Buf) s = _
  rw [seek_of_le h.le, if_pos (hn ▸ h)]
  rfl

theorem assert_run {p : Prop} [Decidable p] (h : p) (text : String) (s : Img) :
    assert p text s = .ok ((), s) := by
  rw [assert, if_pos h]
  rfl

theorem assert_fails {p : Prop} [Decidable p] (h : ¬ p) (text : String) (s : Img) :
    assert p text s = .error text := by
  rw [assert, if_neg h]
  rfl

end Run

/-! ## The bitmap to come -/

variable {s s' : Img} {din : Dinode} {k : Fin 13} {b bn off w : Nat} {al : List Nat}

/-- Between the operations of mkfs: the blocks from `freeblock` on are not used yet. -/
structure Good (s : Img) : Prop where
  nsect : s.nsect = fssize
  low : nmeta ≤ s.freeblock
  high : s.freeblock ≤ fssize
  fresh : ∀ b, s.freeblock ≤ b → s.disk b = fun _ => 0
  super : s.disk 1 = superWords.bytes

/-- The disk with the bitmap that `balloc` would write now. -/
def Img.marked (s : Img) : Disk := update s.disk sb.bmapstart (bitmap s.freeblock)

/-- As the kernel sees it, with the history of the kernel's operations. -/
def Img.fs (s : Img) (w : Nat) (al : List Nat) : Fs := ⟨s.marked, w, al⟩

/-- The blocks below `freeblock` are handed out one by one. -/
def Img.took (s : Img) : Img := { s with freeblock := s.freeblock + 1 }

theorem newBlock_run (s : Img) : newBlock s = .ok (s.freeblock, s.took) := rfl

/-- A sector has been written. -/
def Img.put (s : Img) (sec : Nat) (buf : Buf) : Img := { s with disk := update s.disk sec buf }

theorem bitOf_bitmap (n bi : Nat) : bitOf (bitmap n) bi = decide (bi < n) := by
  induction n with
  | zero =>
    have hzero : bitOf (fun _ => 0) bi = false := (and_mask_eq_zero 0 bi).mp (by simp)
    simpa [bitmap] using hzero
  | succ n ih =>
    rw [bitmap, bitOf_setBit, ih, ← Bool.decide_or]
    congr 1
    exact propext (by omega)

theorem marked_of_ne (h : b ≠ sb.bmapstart) : s.marked b = s.disk b := update_of_ne h ..

theorem marked_bmap (s : Img) : s.marked sb.bmapstart = bitmap s.freeblock := update_self ..

theorem marked_put {sec : Nat} (h : sec ≠ sb.bmapstart) (buf : Buf) :
    (s.put sec buf).marked = update s.marked sec buf := by
  exact Function.update_comm h buf (bitmap s.freeblock) s.disk

/-- A block is marked if it has been handed out. -/
theorem used_marked (hb : b < fssize) : used sb s.marked b = decide (b < s.freeblock) := by
  have hsmall : b < 4096 := hb.trans (by decide)
  have hblock : sb.bblock b = sb.bmapstart := by
    rw [Superblock.bblock, Nat.div_eq_of_lt hsmall, Nat.zero_add]
  rw [used, hblock, marked_bmap, bitOf_bitmap, Nat.mod_eq_of_lt hsmall]

theorem findFree_first {bp : Buf} {fuel bi : Nat} (hb : b < 4096) (hsize : b < sb.size)
    (hbefore : ∀ j, bi ≤ j → j < b → bitOf bp j = true) (hfree : bitOf bp b = false)
    (hbi : bi ≤ b) (hfuel : b < bi + fuel) : findFree sb bp 0 fuel bi = some b := by
  induction fuel generalizing bi with
  | zero => omega
  | succ fuel ih =>
    rw [findFree, if_pos ⟨by omega, by omega⟩]
    by_cases heq : bi = b
    · subst heq
      rw [if_pos ((and_mask_eq_zero _ _).mpr hfree)]
    · have hset := hbefore bi (Nat.le_refl _) (by omega)
      rw [if_neg fun hz => Bool.noConfusion (((and_mask_eq_zero _ _).mp hz).symm.trans hset)]
      exact ih (fun j hj hjb => hbefore j (by omega) hjb) (by omega) (by omega)

theorem Good.took (h : Good s) (hroom : s.freeblock < fssize) : Good s.took :=
  ⟨h.nsect, Nat.le_succ_of_le h.low, hroom, fun b hb => h.fresh b (Nat.le_of_succ_le hb), h.super⟩

theorem Good.put (h : Good s) (hb : nmeta ≤ b) (hlt : b < s.freeblock) (buf : Buf) :
    Good (s.put b buf) where
  nsect := h.nsect
  low := h.low
  high := h.high
  fresh c hc := by
    have hne : c ≠ b := by
      have : s.freeblock ≤ c := hc
      omega
    exact (update_of_ne hne ..).trans (h.fresh c hc)
  super := by
    have hne : 1 ≠ b := by
      have := nmeta_eq
      omega
    exact (update_of_ne hne ..).trans h.super

theorem wsect_run (h : Good s) (hb : b < fssize) (buf : Buf) :
    wsect b buf s = .ok ((), s.put b buf) := by
  have hmax : max s.nsect (b + 1) = s.nsect := by
    rw [h.nsect]
    omega
  change Except.ok ((), { s with
    disk := update s.disk (seek b) buf, nsect := max s.nsect (seek b + 1) }) = _
  rw [seek_of_le hb.le, hmax]
  rfl

/-- The kernel's `balloc` finds the block that mkfs takes next; it is zero already. -/
theorem balloc_marked (h : Good s) (hroom : s.freeblock < fssize) :
    FsImage.balloc sb (s.fs w al) = .ok (s.freeblock, s.took.fs (w + 2) (s.freeblock :: al)) := by
  have hfirst : findFree sb (s.marked (sb.bblock 0)) 0 4096 0 = some s.freeblock := by
    have hblock : sb.bblock 0 = sb.bmapstart := rfl
    rw [hblock, marked_bmap]
    have hsmall : s.freeblock < 4096 := hroom.trans (by decide)
    refine findFree_first hsmall hroom ?_ ?_ (Nat.zero_le _) (by omega)
    · intro j _ hj
      rw [bitOf_bitmap, decide_eq_true hj]
    · rw [bitOf_bitmap, decide_eq_false (Nat.lt_irrefl _)]
  have hdisk : update (update s.marked sb.bmapstart (setBit (s.marked sb.bmapstart) s.freeblock))
      (0 + s.freeblock) (fun _ => 0) = s.took.marked := by
    have hne : s.freeblock ≠ sb.bmapstart := by
      have := h.low
      have := nmeta_eq
      have := bmapstart_eq
      omega
    rw [Nat.zero_add, marked_bmap, Img.marked, Function.update_idem, Function.update_comm hne.symm,
      ← h.fresh _ (Nat.le_refl _), Function.update_eq_self]
    rfl
  have hrun : FsImage.balloc sb (s.fs w al) = .ok (0 + s.freeblock,
      ⟨update (update s.marked sb.bmapstart (setBit (s.marked sb.bmapstart) s.freeblock))
        (0 + s.freeblock) (fun _ => 0), w + 2, (0 + s.freeblock) :: al⟩) := by
    change (FsImage.Code.ballocFrom sb 1 0 : FsM Nat) (s.fs w al) = _
    rw [FsImage.Code.ballocFrom, if_pos (by decide), bread_bind]
    rw [show findFree sb ((s.fs w al).disk (sb.bblock 0)) 0 4096 0 = some s.freeblock from hfirst]
    rfl
  rw [hrun, hdisk, Nat.zero_add]
  rfl

/-! ## The blocks of a file -/

/-- The number of blocks that a file of `n` bytes takes, with its indirect block. -/
def blocksOf (n : Nat) : Nat := (n + 511) / 512 + if 12 * 512 < n then 1 else 0

/-- The file has blocks exactly for its first `off` bytes, and its indirect block is not
one of them. -/
structure Tight (d : Disk) (din : Dinode) (off : Nat) : Prop where
  block : ∀ bn, ptr d din (slot bn) ≠ 0 ↔ bn * 512 < off
  indirect : ptr d din 12 ≠ 0 ↔ 12 * 512 < off
  apart : ∀ bn, ptr d din (slot bn) ≠ 0 → ptr d din (slot bn) ≠ ptr d din 12

/-- The blocks of a file have been handed out. -/
def InRange (s : Img) (din : Dinode) : Prop :=
  ∀ k, ptr s.disk din k ≠ 0 → nmeta ≤ ptr s.disk din k ∧ ptr s.disk din k < s.freeblock

/-- Pointer `k` has been set to the next free block, and nothing else has changed. -/
structure Given (s : Img) (din : Dinode) (k : Nat) (s' : Img) (din' : Dinode) : Prop where
  good : Good s'
  freeinode : s'.freeinode = s.freeinode
  freeblock : s'.freeblock = s.freeblock + 1
  ptr : ∀ l, ptr s'.disk din' l = if l = k then s.freeblock else ptr s.disk din l
  inodes : ∀ c, c < nmeta → s'.disk c = s.disk c

theorem toNat_block (h : b < fssize) : (UInt32.ofNat b).toNat = b :=
  UInt32.toNat_ofNat_of_lt' (h.trans (by decide))

theorem ptr_setAddr {d : Disk} (hb : b < fssize)
    (h12 : k = 12 → din.addrs 12 = 0 ∧ d b = fun _ => 0) (l : Nat) :
    ptr d (setAddr din k b) l = if l = k.val then b else ptr d din l := by
  have hself : ((setAddr din k b).addrs k).toNat = b := by rw [setAddr_self, toNat_block hb]
  by_cases hl : l = k.val
  · subst hl
    rw [if_pos rfl, ptr_addr, hself]
  rw [if_neg hl]
  unfold ptr
  split
  next hlt => rw [setAddr_of_ne fun he => hl (congrArg Fin.val he)]
  next hge =>
    by_cases hk : k = 12
    · subst hk
      obtain ⟨hnone, hzero⟩ := h12 rfl
      rw [hself, hzero, getLE_zero, hnone, ite_self, if_neg (by simp)]
    · rw [setAddr_of_ne (Ne.symm hk)]

theorem given_addr (h : Good s) (hroom : s.freeblock < fssize)
    (h12 : k = 12 → din.addrs 12 = 0) :
    Given s din k.val s.took (setAddr din k s.freeblock) where
  good := h.took hroom
  freeinode := rfl
  freeblock := rfl
  ptr := ptr_setAddr hroom fun hk => ⟨h12 hk, h.fresh _ (Nat.le_refl _)⟩
  inodes _ _ := rfl

theorem addrAppend_new (hk : din.addrs k = 0) :
    addrAppend din k s = .ok (setAddr din k s.freeblock, s.took) := by
  rw [addrAppend, if_pos hk]
  rfl

theorem addrAppend_old (hk : din.addrs k ≠ 0) : addrAppend din k s = .ok (din, s) := by
  rw [addrAppend, if_neg hk]
  rfl

theorem addrAlloc_new (h : Good s) (hroom : s.freeblock < fssize) (hk : din.addrs k = 0) :
    addrAlloc sb din k (s.fs w al) = .ok ((setAddr din k s.freeblock, s.freeblock),
      s.took.fs (w + 2) (s.freeblock :: al)) := by
  rw [addrAlloc, Code.addrAlloc, if_pos hk, FsImage.bind_of_ok (balloc_marked h hroom)]
  rfl

theorem addrAlloc_old (hk : din.addrs k ≠ 0) (f : Fs) :
    addrAlloc sb din k f = .ok ((din, (din.addrs k).toNat), f) := by
  rw [addrAlloc, Code.addrAlloc, if_neg hk]
  rfl

theorem Given.range {k : Nat} {din' : Dinode} (h : Given s din k s' din') (hgood : Good s)
    (hrange : InRange s din) : InRange s' din' := by
  intro l hl
  have hlow := hgood.low
  rw [h.ptr l] at hl ⊢
  rw [h.freeblock]
  split at hl
  next heq =>
    rw [if_pos heq]
    omega
  next hne =>
    rw [if_neg hne]
    have := hrange l hl
    omega

/-- The indirect block after entry `j` has been set. -/
def Img.entry (s : Img) (a j : Nat) : Img := s.took.put a (putLE (s.disk a) (4 * j) 4 s.freeblock)

theorem ptr_entry {d : Disk} {j l : Nat} (ha : din.addrs 12 ≠ 0) (hj : j < 128) (hb : b < fssize) :
    ptr (update d (din.addrs 12).toNat (putLE (d (din.addrs 12).toNat) (4 * j) 4 b)) din l =
      if l = 13 + j then b else ptr d din l := by
  unfold ptr
  split
  next hl => rw [if_neg (by omega)]
  next hl =>
    rw [update_self]
    by_cases hlj : l = 13 + j
    · subst hlj
      rw [if_pos ⟨by omega, ha⟩, if_pos rfl, Nat.add_sub_cancel_left, getLE_putLE,
        Nat.mod_eq_of_lt (hb.trans (by decide))]
    · rw [if_neg hlj, getLE_putLE_other (by omega)]

theorem ptr_twelve (d : Disk) (din : Dinode) : ptr d din 12 = (din.addrs 12).toNat := rfl

theorem given_entry {j : Nat} (h : Good s) (hroom : s.freeblock < fssize) (hrange : InRange s din)
    (ha : din.addrs 12 ≠ 0) (hj : j < 128) :
    Given s din (13 + j) (s.entry (din.addrs 12).toNat j) din := by
  obtain ⟨hlow, hlt⟩ := hrange 12 (toNat_ne_zero ha)
  rw [ptr_twelve] at hlow hlt
  exact
    { good := (h.took hroom).put hlow (Nat.lt_succ_of_lt hlt) _
      freeinode := rfl
      freeblock := rfl
      ptr := fun l => ptr_entry ha hj hroom
      inodes := fun c hc => update_of_ne (by omega) .. }

theorem ne_bmapstart (h : nmeta ≤ b) : b ≠ sb.bmapstart := by
  have := nmeta_eq
  have := bmapstart_eq
  omega

theorem entryAlloc_new {a j : Nat} (h : Good s) (hroom : s.freeblock < fssize) (ha : nmeta ≤ a)
    (hzero : getLE (s.disk a) (4 * j) 4 = 0) :
    entryAlloc sb a j (s.fs w al) =
      .ok (s.freeblock, (s.entry a j).fs (w + 3) (s.freeblock :: al)) := by
  have hne := ne_bmapstart ha
  have hread : (s.fs w al).disk a = s.disk a := marked_of_ne hne
  have hread' : s.took.marked a = s.disk a := marked_of_ne (s := s.took) hne
  rw [entryAlloc, Code.entryAlloc, bread_bind, hread, if_pos hzero,
    FsImage.bind_of_ok (balloc_marked h hroom), bread_bind]
  change Except.ok
    (s.freeblock, (⟨update s.took.marked a (putLE (s.took.marked a) (4 * j) 4 s.freeblock),
    w + 3, s.freeblock :: al⟩ : Fs)) = _
  rw [hread', ← marked_put hne]
  rfl

/-- What `iappend` and `bmap` leave when block `off / 512` of the file is needed, which has
`off` bytes so far. -/
structure Grew (s : Img) (din : Dinode) (off : Nat) (s' : Img) (din' : Dinode) : Prop where
  good : Good s'
  freeinode : s'.freeinode = s.freeinode
  freeblock : s'.freeblock + blocksOf off = s.freeblock + blocksOf (off + 1)
  range : InRange s' din'
  block : ∀ bn, ptr s'.disk din' (slot bn) ≠ 0 ↔ bn ≤ off / 512
  indirect : ptr s'.disk din' 12 ≠ 0 ↔ 12 ≤ off / 512
  apart : ∀ bn, ptr s'.disk din' (slot bn) ≠ 0 → ptr s'.disk din' (slot bn) ≠ ptr s'.disk din' 12
  inodes : ∀ c, c < nmeta → s'.disk c = s.disk c

section

variable (h : Good s) (hrange : InRange s din) (htight : Tight s.disk din off)
include h hrange htight

/-- The block is there. -/
theorem grew_none (hmod : off % 512 ≠ 0) : Grew s din off s din where
  good := h
  freeinode := rfl
  freeblock := by
    have : blocksOf (off + 1) = blocksOf off := by
      unfold blocksOf
      split <;> split <;> omega
    omega
  range := hrange
  block bn := (htight.block bn).trans (by omega)
  indirect := htight.indirect.trans (by omega)
  apart := htight.apart
  inodes _ _ := rfl

/-- The block is added. -/
theorem grew_one {din' : Dinode} (hmod : off % 512 = 0) (hoff : off ≠ 12 * 512)
    (hgiven : Given s din (slot (off / 512)) s' din') : Grew s din off s' din' where
  good := hgiven.good
  freeinode := hgiven.freeinode
  freeblock := by
    have : blocksOf (off + 1) = blocksOf off + 1 := by
      unfold blocksOf
      split <;> split <;> omega
    rw [hgiven.freeblock]
    omega
  range := hgiven.range h hrange
  block bn := by
    have hlow := h.low
    rw [hgiven.ptr]
    by_cases hbn : slot bn = slot (off / 512)
    · rw [if_pos hbn, slot_inj hbn]
      exact ⟨fun _ => Nat.le_refl _, fun _ => by have := nmeta_eq; omega⟩
    · rw [if_neg hbn]
      have hne : bn ≠ off / 512 := fun he => hbn (he ▸ rfl)
      exact (htight.block bn).trans (by omega)
  indirect := by
    rw [hgiven.ptr, if_neg (slot_ne _).symm]
    exact htight.indirect.trans (by omega)
  apart bn := by
    have hlow := h.low
    have hold := hrange 12
    have := nmeta_eq
    rw [hgiven.ptr, hgiven.ptr 12, if_neg (slot_ne _).symm]
    split
    next => omega
    next => exact htight.apart bn
  inodes := hgiven.inodes

/-- The indirect block is added, then the first block in it. -/
theorem grew_two {s₁ : Img} {din₁ din' : Dinode} (hoff : off = 12 * 512)
    (hgiven : Given s din 12 s₁ din₁) (hgiven' : Given s₁ din₁ 13 s' din') :
    Grew s din off s' din' where
  good := hgiven'.good
  freeinode := hgiven'.freeinode.trans hgiven.freeinode
  freeblock := by
    have : blocksOf (off + 1) = blocksOf off + 2 := by
      subst hoff
      decide
    rw [hgiven'.freeblock, hgiven.freeblock]
    omega
  range := hgiven'.range hgiven.good (hgiven.range h hrange)
  block bn := by
    have hlow := h.low
    have hlow' := hgiven.good.low
    have := nmeta_eq
    rw [hgiven'.ptr, hgiven.ptr, if_neg (slot_ne bn)]
    by_cases hbn : bn = 12
    · subst hbn
      rw [if_pos (by decide)]
      omega
    · have hslot : slot bn ≠ 13 := fun he => hbn (slot_inj (he.trans rfl))
      rw [if_neg hslot]
      exact (htight.block bn).trans (by omega)
  indirect := by
    have hlow := h.low
    have := nmeta_eq
    rw [hgiven'.ptr, if_neg (by decide), hgiven.ptr, if_pos rfl]
    omega
  apart bn := by
    have hold := hrange (slot bn)
    have hblock := hgiven.freeblock
    rw [hgiven'.ptr, hgiven'.ptr 12, if_neg (show 12 ≠ 13 by decide), hgiven.ptr 12, if_pos rfl,
      hgiven.ptr, if_neg (slot_ne bn)]
    split <;> omega
  inodes c hc := (hgiven'.inodes c hc).trans (hgiven.inodes c hc)

end

/-- mkfs and the kernel take the same block for the bytes at `off`. -/
def SameBlock (s : Img) (din : Dinode) (off : Nat) (s' : Img) (din' : Dinode) : Prop :=
  blockAppend din (off / 512) s = .ok ((din', ptr s'.disk din' (slot (off / 512))), s') ∧
    ∀ w al, ∃ w' al', bmap sb din (off / 512) (s.fs w al) =
      .ok ((din', ptr s'.disk din' (slot (off / 512))), s'.fs w' al')

/-- `bmap` for a block that is there, on the disk with its bitmap. -/
theorem ptr_marked (hrange : InRange s din) (k : Nat) : ptr s.marked din k = ptr s.disk din k := by
  refine ptr_congr (.inr fun ha => marked_of_ne (ne_bmapstart ?_))
  exact (hrange 12 (toNat_ne_zero ha)).1

theorem sameBlock_old (h : Good s) (hrange : InRange s din)
    (hb : ptr s.disk din (slot (off / 512)) ≠ 0) : SameBlock s din off s din := by
  refine ⟨?_, fun w al => ⟨w, al, ?_⟩⟩
  · have hslot : slot (off / 512) = if off / 512 < 12 then off / 512 else off / 512 + 1 := rfl
    rw [blockAppend]
    split
    next hlt =>
      rw [hslot, if_pos hlt, ptr_addr ⟨off / 512, by omega⟩] at hb ⊢
      have hne : din.addrs ⟨off / 512, by omega⟩ ≠ 0 := fun h0 => hb (by rw [h0, UInt32.toNat_zero])
      rw [bind_of_ok (addrAppend_old hne)]
      rfl
    next hge =>
      rw [hslot, if_neg hge] at hb ⊢
      unfold ptr at hb ⊢
      rw [dif_neg (by omega)] at hb ⊢
      split at hb
      next hin =>
        have hread : (din.addrs 12).toNat < fssize := by
          have := (hrange 12 (toNat_ne_zero hin.2)).2
          rw [ptr_twelve] at this
          exact this.trans_le h.high
        rw [show off / 512 + 1 - 13 = off / 512 - 12 by omega] at hb ⊢
        rw [if_pos hin, bind_of_ok (addrAppend_old hin.2), bind_of_ok (rsect_run h.nsect hread),
          if_neg hb]
        rfl
      next => exact absurd rfl hb
  · rw [← ptr_marked hrange] at hb ⊢
    exact bmap_found hb

theorem sameBlock_direct (h : Good s) (hlt : off / 512 < 12) (hroom : s.freeblock < fssize)
    (hk : din.addrs ⟨off / 512, by omega⟩ = 0) :
    SameBlock s din off s.took (setAddr din ⟨off / 512, by omega⟩ s.freeblock) := by
  have hptr : ptr s.took.disk (setAddr din ⟨off / 512, by omega⟩ s.freeblock) (slot (off / 512)) =
      s.freeblock := by
    have hne : (⟨off / 512, by omega⟩ : Fin 13) ≠ 12 := fun he =>
      absurd (congrArg Fin.val he) (Nat.ne_of_lt hlt)
    rw [ptr_setAddr hroom fun he => absurd he hne, slot, if_pos hlt, if_pos rfl]
  rw [SameBlock, hptr]
  refine ⟨?_, fun w al => ⟨w + 2, s.freeblock :: al, ?_⟩⟩
  · rw [blockAppend, dif_pos hlt, bind_of_ok (addrAppend_new hk)]
    change Except.ok
      ((_, ((setAddr din ⟨off / 512, by omega⟩ s.freeblock).addrs ⟨off / 512, by omega⟩).toNat),
      s.took) = _
    rw [setAddr_self, toNat_block hroom]
  · rw [bmap, Code.bmap, dif_pos hlt]
    exact addrAlloc_new h hroom hk

/-- The part of both programs after the indirect block is there. -/
theorem sameBlock_entry {j : Nat} (h : Good s) (hroom : s.freeblock < fssize)
    (hrange : InRange s din) (ha : din.addrs 12 ≠ 0)
    (hzero : getLE (s.disk (din.addrs 12).toNat) (4 * j) 4 = 0) :
    (do
      let indirect ← rsect (din.addrs 12).toNat
      if getLE indirect (4 * j) 4 = 0 then do
        let b ← newBlock
        let indirect := putLE indirect (4 * j) 4 b
        wsect (din.addrs 12).toNat indirect
        pure (din, getLE indirect (4 * j) 4)
      else pure (din, getLE indirect (4 * j) 4) : MkM (Dinode × Nat)) s =
        .ok ((din, s.freeblock), s.entry (din.addrs 12).toNat j) ∧
    ∀ w al, entryAlloc sb (din.addrs 12).toNat j (s.fs w al) =
      .ok (s.freeblock, (s.entry (din.addrs 12).toNat j).fs (w + 3) (s.freeblock :: al)) := by
  obtain ⟨hlow, hlt⟩ := hrange 12 (toNat_ne_zero ha)
  rw [ptr_twelve] at hlow hlt
  have hsize : (din.addrs 12).toNat < fssize := hlt.trans_le h.high
  refine ⟨?_, fun w al => entryAlloc_new h hroom hlow hzero⟩
  rw [bind_of_ok (rsect_run h.nsect hsize), if_pos hzero, bind_of_ok (newBlock_run s),
    bind_of_ok (wsect_run (h.took hroom) hsize _)]
  change Except.ok
    ((din, getLE (putLE (s.disk (din.addrs 12).toNat) (4 * j) 4 s.freeblock) (4 * j) 4),
    s.entry (din.addrs 12).toNat j) = _
  rw [getLE_putLE, Nat.mod_eq_of_lt (hroom.trans (by decide))]

theorem slot_indirect (h : ¬ off / 512 < 12) : slot (off / 512) = 13 + (off / 512 - 12) := by
  rw [slot, if_neg h]
  omega

theorem sameBlock_indirect (h : Good s) (hroom : s.freeblock < fssize) (hrange : InRange s din)
    (hge : ¬ off / 512 < 12) (hlt : off / 512 < 140) (ha : din.addrs 12 ≠ 0)
    (hzero : ptr s.disk din (slot (off / 512)) = 0) :
    SameBlock s din off (s.entry (din.addrs 12).toNat (off / 512 - 12)) din := by
  have hj : off / 512 - 12 < 128 := by omega
  have hentry : getLE (s.disk (din.addrs 12).toNat) (4 * (off / 512 - 12)) 4 = 0 := by
    rw [slot_indirect hge, ptr, dif_neg (by omega), if_pos ⟨by omega, ha⟩,
      Nat.add_sub_cancel_left] at hzero
    exact hzero
  obtain ⟨hmkfs, hkernel⟩ := sameBlock_entry h hroom hrange ha hentry
  have hptr := (given_entry h hroom hrange ha hj).ptr (slot (off / 512))
  rw [if_pos (slot_indirect hge)] at hptr
  rw [SameBlock, hptr]
  refine ⟨?_, fun w al => ⟨w + 3, s.freeblock :: al, ?_⟩⟩
  · rw [blockAppend, dif_neg hge, bind_of_ok (addrAppend_old ha)]
    exact hmkfs
  · rw [bmap, Code.bmap, dif_neg hge, if_pos hj, FsImage.bind_of_ok (addrAlloc_old ha _)]
    exact FsImage.bind_of_ok (hkernel w al)

/-- The new indirect block. -/
theorem addrs_took (din : Dinode) (h : Good s) (hroom : s.freeblock < fssize) :
    ((setAddr din 12 s.freeblock).addrs 12).toNat = s.freeblock ∧
      (setAddr din 12 s.freeblock).addrs 12 ≠ 0 := by
  have haddr : ((setAddr din 12 s.freeblock).addrs 12).toNat = s.freeblock := by
    rw [setAddr_self, toNat_block hroom]
  refine ⟨haddr, fun h0 => ?_⟩
  have hlow := h.low
  have hmeta := nmeta_eq
  rw [h0, UInt32.toNat_zero] at haddr
  omega

theorem sameBlock_first (h : Good s) (hroom : s.freeblock + 1 < fssize) (hrange : InRange s din)
    (hoff : off = 12 * 512) (ha : din.addrs 12 = 0) :
    SameBlock s din off (s.took.entry s.freeblock 0) (setAddr din 12 s.freeblock) := by
  subst hoff
  have hroom₁ : s.freeblock < fssize := by omega
  have hgiven := given_addr (k := 12) h hroom₁ fun _ => ha
  have hrange₁ : InRange s.took (setAddr din 12 s.freeblock) := hgiven.range h hrange
  obtain ⟨haddr, ha₁⟩ := addrs_took din h hroom₁
  have hentry : getLE
      (s.took.disk ((setAddr din 12 s.freeblock).addrs 12).toNat) (4 * 0) 4 = 0 := by
    rw [haddr]
    change getLE (s.disk s.freeblock) (4 * 0) 4 = 0
    rw [h.fresh _ (Nat.le_refl _), getLE_zero]
  obtain ⟨hmkfs, hkernel⟩ := sameBlock_entry (h.took hroom₁) hroom hrange₁ ha₁ hentry
  have hptr := (given_entry (h.took hroom₁) hroom hrange₁ ha₁ (show 0 < 128 by decide)).ptr 13
  rw [if_pos rfl, haddr] at hptr
  have hslot : slot (12 * 512 / 512) = 13 := rfl
  rw [haddr] at hmkfs
  rw [SameBlock, hslot, hptr]
  refine ⟨?_, fun w al => ⟨w + 2 + 3, s.took.freeblock :: s.freeblock :: al, ?_⟩⟩
  · rw [blockAppend, dif_neg (by decide), bind_of_ok (addrAppend_new ha), haddr]
    exact hmkfs
  · rw [bmap, Code.bmap, dif_neg (by decide), if_pos (by decide),
      FsImage.bind_of_ok (addrAlloc_new h hroom₁ ha)]
    have := hkernel (w + 2) (s.freeblock :: al)
    rw [haddr] at this
    exact FsImage.bind_of_ok this

theorem blocksOf_next (hmod : off % 512 = 0) (hne : off ≠ 12 * 512) :
    blocksOf (off + 1) = blocksOf off + 1 := by
  unfold blocksOf
  split <;> split <;> omega

theorem Tight.ptr_next {d : Disk} (h : Tight d din off) (hmod : off % 512 = 0) :
    ptr d din (slot (off / 512)) = 0 := by
  by_contra hne
  have := (h.block _).mp hne
  omega

theorem Tight.addr_next {d : Disk} (h : Tight d din off) (hmod : off % 512 = 0)
    (hlt : off / 512 < 12) :
    din.addrs ⟨off / 512, by omega⟩ = 0 := by
  have hzero := h.ptr_next hmod
  rw [slot, if_pos hlt, ptr_addr ⟨off / 512, by omega⟩] at hzero
  exact UInt32.toNat_inj.mp hzero

theorem Tight.addr_twelve {d : Disk} (h : Tight d din off) : din.addrs 12 = 0 ↔ off ≤ 12 * 512 := by
  rw [← Nat.not_lt, ← h.indirect, not_not, ptr_twelve]
  exact UInt32.toNat_inj.symm

/-- One round of the loops: the block for the bytes at `off` is the same, and is there
afterwards. -/
theorem block_grows (h : Good s) (hrange : InRange s din) (htight : Tight s.disk din off)
    (hlt : off / 512 < 140) (hroom : s.freeblock + blocksOf (off + 1) ≤ fssize + blocksOf off) :
    ∃ s' din', SameBlock s din off s' din' ∧ Grew s din off s' din' := by
  by_cases hmod : off % 512 = 0
  · by_cases hdirect : off / 512 < 12
    · have hblocks := blocksOf_next hmod (by omega)
      have hk := htight.addr_next hmod hdirect
      have hroom' : s.freeblock < fssize := by omega
      have hgiven : Given s din (slot (off / 512)) s.took
          (setAddr din ⟨off / 512, by omega⟩ s.freeblock) := by
        rw [show slot (off / 512) = off / 512 from if_pos hdirect]
        exact given_addr (k := ⟨off / 512, by omega⟩) h hroom' fun he =>
          absurd (congrArg Fin.val he) (Nat.ne_of_lt hdirect)
      exact ⟨_, _, sameBlock_direct h hdirect hroom' hk,
        grew_one h hrange htight hmod (by omega) hgiven⟩
    · by_cases hfirst : off = 12 * 512
      · have hblocks : blocksOf (off + 1) = blocksOf off + 2 := by
          subst hfirst
          decide
        have ha : din.addrs 12 = 0 := htight.addr_twelve.mpr hfirst.le
        have hroom' : s.freeblock + 1 < fssize := by omega
        have hroom₁ : s.freeblock < fssize := by omega
        have hgiven := given_addr (k := 12) h hroom₁ fun _ => ha
        obtain ⟨haddr, ha₁⟩ := addrs_took din h hroom₁
        have hgiven' := given_entry (h.took hroom₁) hroom' (hgiven.range h hrange) ha₁
          (show 0 < 128 by decide)
        rw [haddr] at hgiven'
        exact ⟨_, _, sameBlock_first h hroom' hrange hfirst ha,
          grew_two h hrange htight hfirst hgiven hgiven'⟩
      · have hblocks := blocksOf_next hmod hfirst
        have ha : din.addrs 12 ≠ 0 := htight.addr_twelve.not.mpr (by omega)
        have hroom' : s.freeblock < fssize := by omega
        have hgiven := given_entry h hroom' hrange ha (show off / 512 - 12 < 128 by omega)
        exact ⟨_, _, sameBlock_indirect h hroom' hrange hdirect hlt ha (htight.ptr_next hmod),
          grew_one h hrange htight hmod hfirst (slot_indirect hdirect ▸ hgiven)⟩
  · exact ⟨s, din, sameBlock_old h hrange ((htight.block _).mpr (by omega)),
      grew_none h hrange htight hmod⟩

end Xv6.Mkfs
