import Xv6.MkfsHoles

/-!
# The limits of the image

mkfs hands out inodes and blocks by counting, and never compares the counters with the
size of the image. A block past the end is noticed when `rsect` reads it before it is
written. An inode past the last one is not noticed as long as its sector is in the image.
-/
namespace Xv6.Mkfs

open Function (update)
open Bytes FsImage BlockMap FileData Directory
open Image (allocated)

variable {s s' : Img} {din : Dinode} {off n fuel : Nat} {p : Buf}
variable {files rest : List HostFile} {f : HostFile} {data : Nat → List UInt8} {i : Nat}

/-! ## Blocks -/

theorem rsect_fails (h : s.nsect = fssize) : rsect fssize s = .error "read" := by
  change (if fssize < s.nsect then pure (s.disk fssize) else throw "read" : MkM Buf) s = _
  rw [if_neg h.le.not_gt]
  rfl

/-- The block for the bytes at `off` is past the end of the image. -/
def PastEnd (din : Dinode) (fbn : Nat) (s : Img) : Prop :=
  (∃ msg, blockAppend din fbn s = .error msg) ∨
    ∃ din' s', blockAppend din fbn s = .ok ((din', fssize), s') ∧ s'.nsect = fssize

theorem blockAppend_direct (h : off < 12) (hk : din.addrs ⟨off, lt_ndirect h⟩ = 0) :
    blockAppend din off s = .ok ((setAddr din ⟨off, lt_ndirect h⟩ s.freeblock,
      (UInt32.ofNat s.freeblock).toNat), s.took) := by
  rw [blockAppend, dif_pos h, bind_of_ok (addrAppend_new hk)]
  change Except.ok ((_, ((setAddr din ⟨off, by omega⟩ s.freeblock).addrs ⟨off, by omega⟩).toNat),
    s.took) = _
  rw [setAddr_self]

/-- A new entry of the indirect block, when all blocks have been handed out. -/
theorem entry_pastEnd (din : Dinode) {a j : Nat} (hn : s.nsect = fssize) (ha : a < fssize)
    (hzero : getLE (s.disk a) (4 * j) 4 = 0) (hfull : s.freeblock = fssize) :
    ∃ s', (do
      let indirect ← rsect a
      if getLE indirect (4 * j) 4 = 0 then do
        let b ← newBlock
        let indirect := putLE indirect (4 * j) 4 b
        wsect a indirect
        pure (din, getLE indirect (4 * j) 4)
      else pure (din, getLE indirect (4 * j) 4) : MkM (Dinode × Nat)) s =
        .ok ((din, fssize), s') ∧ s'.nsect = fssize := by
  have hmax : max s.nsect (seek a + 1) = fssize := by
    rw [hn, seek_of_le ha.le]
    exact max_eq_left ha
  refine ⟨{ s with
    disk := update s.disk (seek a) (putLE (s.disk a) (4 * j) 4 s.freeblock)
    nsect := max s.nsect (seek a + 1)
    freeblock := s.freeblock + 1 }, ?_, hmax⟩
  have hval : getLE (putLE (s.disk a) (4 * j) 4 s.freeblock) (4 * j) 4 = fssize := by
    rw [getLE_putLE, hfull]
    rfl
  rw [bind_of_ok (rsect_run hn ha), if_pos hzero, bind_of_ok (newBlock_run s)]
  change Except.ok ((din, getLE (putLE (s.disk a) (4 * j) 4 s.freeblock) (4 * j) 4), _) = _
  rw [hval]
  rfl

theorem block_pastEnd (h : Good s) (hrange : InRange s din) (htight : Tight s.disk din off)
    (hlt : off / 512 < 140) (hroom : fssize + blocksOf off < s.freeblock + blocksOf (off + 1)) :
    PastEnd din (off / 512) s := by
  have hhigh := h.high
  have hsize := fssize_eq
  have hmod : off % 512 = 0 := by
    by_contra hmod
    have : blocksOf (off + 1) = blocksOf off := by
      unfold blocksOf
      split <;> split <;> omega
    omega
  by_cases hdirect : off / 512 < 12
  · have hblocks := blocksOf_next hmod (by omega)
    have hfull : s.freeblock = fssize := by omega
    have hk := htight.addr_next hmod hdirect
    have hrun := blockAppend_direct (s := s) hdirect hk
    rw [hfull] at hrun
    exact .inr ⟨_, _, hrun, h.nsect⟩
  by_cases hfirst : off = 12 * 512
  · have hblocks : blocksOf (off + 1) = blocksOf off + 2 := by
      subst hfirst
      decide
    have ha : din.addrs 12 = 0 := htight.addr_twelve.mpr hfirst.le
    rcases Nat.lt_or_ge s.freeblock fssize with hlast | hfull
    · -- the last block becomes the indirect block
      obtain ⟨haddr, -⟩ := addrs_took din h hlast
      have hentry : getLE (s.took.disk s.freeblock) (4 * (off / 512 - 12)) 4 = 0 := by
        change getLE (s.disk s.freeblock) _ 4 = 0
        rw [h.fresh _ (Nat.le_refl _), getLE_zero]
      obtain ⟨s', hrun, hn⟩ := entry_pastEnd (s := s.took) (setAddr din 12 s.freeblock)
        (a := s.freeblock) h.nsect hlast hentry (show s.freeblock + 1 = fssize by omega)
      refine .inr ⟨setAddr din 12 s.freeblock, s', ?_, hn⟩
      rw [blockAppend, dif_neg hdirect, bind_of_ok (addrAppend_new ha), haddr]
      exact hrun
    · have haddr : ((setAddr din 12 s.freeblock).addrs 12).toNat = fssize := by
        rw [setAddr_self, show s.freeblock = fssize by omega]
        rfl
      refine .inl ⟨"read", ?_⟩
      rw [blockAppend, dif_neg hdirect, bind_of_ok (addrAppend_new ha), haddr]
      exact bind_of_error (rsect_fails h.nsect)
  · have hblocks := blocksOf_next hmod hfirst
    have hzero := htight.ptr_next hmod
    have ha : din.addrs 12 ≠ 0 := htight.addr_twelve.not.mpr (by omega)
    have hat : (din.addrs 12).toNat < fssize := (hrange 12 (toNat_ne_zero ha)).2.trans_le hhigh
    have hentry : getLE (s.disk (din.addrs 12).toNat) (4 * (off / 512 - 12)) 4 = 0 := by
      rw [slot_indirect hdirect, ptr, dif_neg (by omega), if_pos ⟨by omega, ha⟩,
        Nat.add_sub_cancel_left] at hzero
      exact hzero
    obtain ⟨s', hrun, hn⟩ := entry_pastEnd din h.nsect hat hentry (by omega)
    refine .inr ⟨din, s', ?_, hn⟩
    rw [blockAppend, dif_neg hdirect, bind_of_ok (addrAppend_old ha)]
    exact hrun

/-- The loop of `iappend` ends in an error when the blocks do not suffice. -/
theorem appendLoop_short (h : Good s) (hrange : InRange s din) (htight : Tight s.disk din off)
    (hfuel : n ≤ fuel) (hroom : fssize + blocksOf off < s.freeblock + blocksOf (off + n)) :
    ∃ msg, appendLoop fuel din p off n s = .error msg := by
  have hhigh := h.high
  induction fuel generalizing s din p off n with
  | zero =>
    obtain rfl : n = 0 := by omega
    rw [Nat.add_zero] at hroom
    omega
  | succ fuel ih =>
    have hn : n ≠ 0 := by
      rintro rfl
      rw [Nat.add_zero] at hroom
      omega
    by_cases hlt : off / 512 < 140
    case neg =>
      rw [appendLoop, if_neg hn]
      exact ⟨_, bind_of_error (assert_fails hlt _ s)⟩
    by_cases hone : s.freeblock + blocksOf (off + 1) ≤ fssize + blocksOf off
    · generalize hm : min n (512 - off % 512) = m
      obtain ⟨s₁, din₁, hchunk, hmkfs, -⟩ := appendLoop_turn p h hrange htight hn hm hlt hone
      have hblocks := hchunk.freeblock
      have hend := congrArg blocksOf (show off + m + (n - m) = off + n by omega)
      rw [hmkfs]
      exact ih hchunk.good hchunk.range hchunk.tight (by omega) (by omega) hchunk.good.high
    · rw [appendLoop, if_neg hn, bind_of_ok (assert_run hlt _ s)]
      rcases block_pastEnd h hrange htight hlt (Nat.not_le.mp hone) with
        ⟨msg, hrun⟩ | ⟨din₁, s₁, hrun, hx⟩
      · exact ⟨msg, bind_of_error hrun⟩
      · rw [bind_of_ok hrun]
        exact ⟨_, bind_of_error (rsect_fails hx)⟩

theorem append_short (h : Image.Growing s data i)
    (hroom : fssize + blocksOf (data i).length < s.freeblock + blocksOf ((data i).length + n)) :
    ∃ msg, iappend i p n s = .error msg := by
  obtain ⟨h, hi, hlt, htight⟩ := h
  have hin : i < ninodes := hlt.trans_le h.inodes
  rw [← (h.node i hi hlt).2.2] at htight hroom
  obtain ⟨msg, hrun⟩ := appendLoop_short (p := p) h.good
    (inRange_of_owned h.owned hin (h.type_ne hi hlt)) htight (Nat.le_refl n) hroom
  refine ⟨msg, ?_⟩
  rw [iappend, bind_of_ok (rinode_run h.good hin)]
  exact bind_of_error hrun

theorem chunks_short {cs : List (List UInt8)} (h : Image.Growing s data i)
    (hreads : ∀ c ∈ cs, 0 < c.length) (hsize : (data i).length ≤ 140 * 512)
    (hroom : fssize + blocksOf (data i).length <
      s.freeblock + blocksOf ((data i).length + cs.flatten.length)) :
    ∃ msg, cs.forM (fun c => iappend i (ofList c) c.length) s = .error msg := by
  have hhigh := h.image.good.high
  induction cs generalizing s data with
  | nil =>
    rw [List.flatten_nil, List.length_nil, Nat.add_zero] at hroom
    omega
  | cons c cs ih =>
    rw [List.flatten_cons, List.length_append] at hroom
    by_cases hone : s.freeblock + blocksOf ((data i).length + c.length) ≤
      fssize + blocksOf (data i).length
    case neg =>
      obtain ⟨msg, hrun⟩ := append_short (p := ofList c) h (Nat.not_le.mp hone)
      exact ⟨msg, forM_of_error (g := fun c => iappend i (ofList c) c.length) hrun⟩
    by_cases hover : 140 * 512 < (data i).length + c.length
    · exact ⟨_, forM_of_error (g := fun c => iappend i (ofList c) c.length)
        (Image.append_fails h hsize hover hone)⟩
    · obtain ⟨s₁, hrun, hgrown, hdata, hnext⟩ :=
        Image.append_chunk cs h (hreads c List.mem_cons_self) (Nat.not_lt.mp hover) hone
      have hblocks := hgrown.freeblock
      rw [hrun]
      exact ih hnext (fun c hc => hreads c (List.mem_cons_of_mem _ hc)) (by rw [hdata]; omega)
        (by rw [hdata, Nat.add_assoc]; omega) hgrown.image.good.high

theorem addFile_short (h : Stage files s) (hinodes : files.length + 3 ≤ ninodes)
    (hblocks : fssize < total (files ++ [f])) : ∃ msg, addFile 1 f s = .error msg := by
  by_cases hslash : slash ∈ f.arg
  · exact ⟨_, bind_of_error (assert_fails (not_not.mpr hslash) _ s)⟩
  have hzero : blocksOf 0 = 0 := by decide
  by_cases hroom : total files + blocksOf (16 * (files.length + 2) + 16) ≤
      fssize + blocksOf (16 * (files.length + 2))
  · obtain ⟨s₁, hrun, himage, hfree, hsum, -, hnew⟩ := addFile_entry h hinodes hroom hslash
    have hchunks : f.chunks.flatten.length = f.data.length := rfl
    obtain ⟨msg, hloop⟩ := chunks_short (i := files.length + 2) ⟨himage, by omega, by omega,
      by rw [update_root_new]; exact hnew⟩ (fun c hc => (f.reads c hc).1)
        (by rw [update_root_new]; exact Nat.zero_le _)
      (by rw [update_root_new, List.length_nil, hchunks, hzero, Nat.zero_add]; omega)
    exact ⟨msg, hrun.trans hloop⟩
  · obtain ⟨hstart, himage, htight⟩ := addFile_ialloc h hinodes hslash
    have hfree := h.freeinode
    have hgrow : (allocated s).freeblock = total files := h.freeblock
    have hlen := length_root files
    obtain ⟨msg, hrun⟩ := append_short (n := 16)
      (p := Dirent.bytes ⟨UInt16.ofNat (files.length + 2), f.stored⟩) ⟨himage, Nat.one_pos,
      show 1 < s.freeinode + 1 by omega, htight⟩ (by rw [hlen, hgrow]; omega)
    exact ⟨msg, by rw [hstart, bind_of_error hrun]⟩

theorem addFiles_short (h : Stage files s) (hinodes : (files ++ rest).length + 2 ≤ ninodes)
    (hfit : Fits files) (hblocks : fssize < total (files ++ rest)) :
    ∃ msg, rest.forM (addFile 1) s = .error msg := by
  induction rest generalizing files s with
  | nil =>
    rw [List.append_nil] at hblocks
    exact absurd hfit.blocks (Nat.not_le.mpr hblocks)
  | cons f rest ih =>
    rw [append_singleton_append] at hinodes hblocks
    have hlen : (files ++ [f] ++ rest).length = files.length + 1 + rest.length := by
      rw [List.length_append, List.length_append, List.length_singleton]
    have hone : files.length + 3 ≤ ninodes := by omega
    by_cases hnext : total (files ++ [f]) ≤ fssize
    · have hfits : Fits (files ++ [f]) :=
        ⟨by rw [List.length_append, List.length_singleton]; omega, hnext⟩
      by_cases hf : Accepted f
      · obtain ⟨s₁, hrun, hstage⟩ := addFile_spec h hfits hf
        obtain ⟨msg, hrest⟩ := ih hstage hinodes hfits hblocks
        exact ⟨msg, (forM_of_ok hrun).trans hrest⟩
      · obtain ⟨msg, hrun⟩ := addFile_fails h hfits hf
        exact ⟨msg, forM_of_error hrun⟩
    · obtain ⟨msg, hrun⟩ := addFile_short h hone (Nat.not_le.mp hnext)
      exact ⟨msg, forM_of_error hrun⟩

/-- If there are inodes enough and mkfs returns, there were blocks enough. -/
theorem fits_of_mkfs {img : Img} (hinodes : files.length + 2 ≤ ninodes) (h : mkfs files = .ok img) :
    Fits files := by
  refine ⟨hinodes, Nat.not_lt.mp fun hblocks => ?_⟩
  obtain ⟨s₀, hstart, hmain⟩ := start_run
  obtain ⟨msg, hrun⟩ : ∃ msg, files.forM (addFile 1) s₀ = .error msg :=
    addFiles_short hstart hinodes ⟨by decide, by decide⟩ hblocks
  rw [mkfs, hmain, bind_of_error hrun] at h
  cases h

/-! ## Inodes -/

section Counting

variable {α β : Type} {x : MkM α} {g : α → MkM β}

/-- When the program returns, it has taken `k` inodes. -/
def Takes (x : MkM α) (k : Nat) : Prop :=
  ∀ s a s', x s = .ok (a, s') → s'.freeinode = s.freeinode + k

theorem takes_pure (a : α) : Takes (pure a) 0 := by
  rintro s _ _ ⟨⟩
  rfl

theorem Takes.bind {k l : Nat} (hx : Takes x k) (hg : ∀ a, Takes (g a) l) :
    Takes (x >>= g) (k + l) := by
  intro s b s' h
  change Except.bind (x s) (fun y => g y.1 y.2) = _ at h
  cases hrun : x s with
  | error msg =>
    rw [hrun] at h
    cases h
  | ok r =>
    rw [hrun] at h
    rw [hg r.1 r.2 b s' h, hx s r.1 r.2 hrun, Nat.add_assoc]

theorem Takes.ite {c : Prop} [Decidable c] {y : MkM α} {k : Nat} (hx : Takes x k) (hy : Takes y k) :
    Takes (if c then x else y) k := by
  split
  · exact hx
  · exact hy

theorem takes_forM {γ : Type} {g : γ → MkM Unit} {k : Nat} {cs : List γ}
    (hg : ∀ c ∈ cs, Takes (g c) k) :
    Takes (cs.forM g) (k * cs.length) := by
  induction cs with
  | nil => exact takes_pure ()
  | cons c cs ih =>
    have hrest := ih fun d hd => hg d (List.mem_cons_of_mem _ hd)
    rw [List.length_cons, Nat.mul_succ, Nat.add_comm]
    exact (hg c List.mem_cons_self).bind fun _ => hrest

end Counting

theorem takes_assert (q : Prop) [Decidable q] (text : String) : Takes (assert q text) 0 := by
  intro s a s' h
  unfold assert at h
  split at h
  · exact takes_pure () s a s' h
  · cases h

theorem takes_wsect (sec : Nat) (buf : Buf) : Takes (wsect sec buf) 0 := by
  rintro s _ _ ⟨⟩
  rfl

theorem takes_rsect (sec : Nat) : Takes (rsect sec) 0 := by
  intro s a s' h
  change
    (if seek sec < s.nsect then pure (s.disk (seek sec)) else throw "read" : MkM Buf) s = _ at h
  split at h
  · exact takes_pure _ s a s' h
  · cases h

theorem takes_newBlock : Takes newBlock 0 := by
  rintro s _ _ ⟨⟩
  rfl

theorem takes_newInode : Takes newInode 1 := by
  rintro s _ _ ⟨⟩
  rfl

theorem takes_winode (i : Nat) (ip : Dinode) : Takes (winode i ip) 0 :=
  (takes_rsect _).bind fun _ => takes_wsect _ _

theorem takes_rinode (i : Nat) : Takes (rinode i) 0 := (takes_rsect _).bind fun _ => takes_pure _

theorem takes_ialloc (type : Int16) : Takes (ialloc type) 1 :=
  takes_newInode.bind fun _ => (takes_winode _ _).bind fun _ => takes_pure _

theorem takes_addrAppend (din : Dinode) (k : Fin 13) : Takes (addrAppend din k) 0 :=
  Takes.ite (takes_newBlock.bind fun _ => takes_pure _) (takes_pure _)

theorem takes_blockAppend (din : Dinode) (fbn : Nat) : Takes (blockAppend din fbn) 0 := by
  unfold blockAppend
  split
  · exact (takes_addrAppend _ _).bind fun _ => takes_pure _
  · exact (takes_addrAppend _ _).bind fun _ => (takes_rsect _).bind fun _ =>
      Takes.ite
        (takes_newBlock.bind fun _ => (takes_wsect _ _).bind fun _ => takes_pure _) (takes_pure _)

theorem takes_appendLoop (fuel : Nat) (din : Dinode) (p : Buf) (off n : Nat) :
    Takes (appendLoop fuel din p off n) 0 := by
  induction fuel generalizing din p off n with
  | zero => exact takes_pure _
  | succ fuel ih =>
    exact Takes.ite (takes_pure _)
        ((takes_assert _ _).bind fun _ => (takes_blockAppend _ _).bind fun _ =>
      (takes_rsect _).bind fun _ => (takes_wsect _ _).bind fun _ => ih _ _ _ _)

theorem takes_iappend (i : Nat) (p : Buf) (n : Nat) : Takes (iappend i p n) 0 :=
  (takes_rinode _).bind fun _ => (takes_appendLoop _ _ _ _ _).bind fun _ => takes_winode _ _

/-- mkfs takes one inode for each file. -/
theorem takes_addFile (f : HostFile) : Takes (addFile 1 f) 1 := by
  refine (takes_assert _ _).bind (l := 1) fun _ => (takes_ialloc _).bind (l := 0) fun _ =>
    (takes_iappend _ _ _).bind (l := 0) fun _ => ?_
  have hloop := takes_forM fun c (_ : c ∈ f.chunks) => takes_iappend ‹_› (ofList c) c.length
  rwa [Nat.zero_mul] at hloop

theorem takes_finish : Takes (finish 1) 0 := by
  refine (takes_rinode _).bind (l := 0) fun _ => (takes_winode _ _).bind (l := 0) fun _ => ?_
  intro s a s' h
  exact ((takes_assert _ _).bind fun _ => takes_wsect _ _) s a s' h

theorem freeinode_mkfs {img : Img} (h : mkfs files = .ok img) :
    img.freeinode = files.length + 2 := by
  obtain ⟨s₀, hstart, hmain⟩ := start_run
  have hfree : s₀.freeinode = 2 := hstart.freeinode
  have htakes := (takes_forM fun f (_ : f ∈ files) => takes_addFile f).bind fun _ => takes_finish
  rw [mkfs, hmain] at h
  cases hrun : (files.forM (addFile 1) >>= fun _ => finish 1 : MkM Unit) s₀ with
  | error msg =>
    rw [hrun] at h
    cases h
  | ok r =>
    rw [hrun] at h
    obtain rfl : r.2 = img := Except.ok.inj h
    rw [htakes s₀ r.1 r.2 hrun, hfree]
    omega

/-! ## Images that are possible -/

/-- The inodes that `ialloc` has handed out exist, and so do the blocks that an inode or
an indirect block refers to, none of which is a block of the metadata, and the blocks that
the bitmap has as used. -/
structure Possible (img : Img) : Prop where
  inodes : ∀ i, 0 < i → i < img.freeinode → i < sb.ninodes
  blocks : ∀ i k, 0 < i → i < img.freeinode → ptr img.disk (dinode sb img.disk i) k ≠ 0 →
    sb.nmeta ≤ ptr img.disk (dinode sb img.disk i) k ∧
      ptr img.disk (dinode sb img.disk i) k < sb.size
  bitmap : ∀ b, bitOf (img.disk sb.bmapstart) b = true → b < sb.size

theorem possible_finished (h : Stage files s) : Possible (finished s) := by
  have hinodes := h.image.inodes
  constructor
  case inodes => exact fun i _ hi => hi.trans_le hinodes
  case blocks =>
    intro i k hpos hi hk
    have hin : i < ninodes := hi.trans_le hinodes
    have htype : (dinode sb (finished s).disk i).type ≠ 0 := by
      have hold := h.image.type_ne hpos hi
      rw [dinode_finished hin]
      split
      next heq => subst heq; exact hold
      next => exact hold
    have hpointer : pointers sb (finished s).disk (dinode sb (finished s).disk) (i, k) =
        ptr (finished s).disk (dinode sb (finished s).disk i) k := pointers_of hin htype
    rw [← hpointer] at hk ⊢
    exact (owned_finished h.image).range hk
  case bitmap =>
    intro b hb
    have hbits : (finished s).disk sb.bmapstart = Mkfs.bitmap s.freeblock := marked_bmap _
    rw [hbits, bitOf_bitmap, decide_eq_true_eq] at hb
    exact hb.trans_le h.image.good.high

/-- An image that mkfs reports as made is possible exactly if there are inodes enough for
the files; the blocks are then enough as well. -/
theorem possible_iff {img : Img} (h : mkfs files = .ok img) :
    Possible img ↔ files.length + 2 ≤ sb.ninodes := by
  constructor
  · intro himg
    have hfree := freeinode_mkfs h
    have := himg.inodes (files.length + 1) (by omega) (by omega)
    omega
  · intro hinodes
    obtain ⟨s, hstage, rfl⟩ := mkfs_inv (fits_of_mkfs hinodes h) h
    exact possible_finished hstage

theorem possible_iff_cat : ∃ img, mkfs [catFile] = .ok img ∧ Possible img := by
  obtain ⟨s, -, hrun⟩ := mkfs_spec fits_catFile accepted_catFile
  exact ⟨finished s, hrun, (possible_iff hrun).mpr (by decide)⟩

/-! ## One file too many -/

/-- A sector of the image has been written, and inode numbers do not matter. -/
theorem Good.wrote (h : Good s) {b k : Nat} (hb : 1 < b) (hlt : b < nmeta) (buf : Buf) :
    Good { s with disk := update s.disk b buf, nsect := max s.nsect (b + 1), freeinode := k } := by
  have hlow := h.low
  have hhigh := h.high
  constructor
  case nsect =>
    rw [h.nsect]
    exact max_eq_left (by omega)
  case low => exact hlow
  case high => exact hhigh
  case fresh =>
    intro c hc
    have hc : s.freeblock ≤ c := hc
    exact (Function.update_of_ne (by omega) ..).trans (h.fresh c hc)
  case super => exact (Function.update_of_ne (by omega) ..).trans h.super

/-- The last sector of the inodes has room for an inode past the last one. -/
theorem ialloc_past (h : Good s) (hfree : s.freeinode = ninodes) :
    ∃ s', ialloc tFile s = .ok (ninodes, s') ∧ Good s' ∧ s'.freeblock = s.freeblock ∧
      dinode sb s'.disk 1 = dinode sb s.disk 1 := by
  have hblock : sb.iblock ninodes = 57 := by decide
  have hnew : newInode s = .ok (ninodes, { s with freeinode := ninodes + 1 }) := by
    rw [← hfree]
    rfl
  refine ⟨_, ?_, h.wrote (b := 57) (k := ninodes + 1) (by decide) (by decide) (memmove (s.disk 57)
    (ninodes % 8 * 64) ({ Dinode.zero with type := tFile, nlink := 1 } : Dinode).bytes 64), rfl, ?_⟩
  · rw [ialloc, bind_of_ok hnew, winode, hblock]
    have hrsect : rsect 57 { s with freeinode := ninodes + 1 } =
        .ok (s.disk 57, { s with freeinode := ninodes + 1 }) := rsect_run h.nsect (by decide)
    exact bind_of_ok (bind_of_ok hrsect)
  · have hne : sb.iblock 1 ≠ 57 := by decide
    rw [dinode, dinode]
    dsimp only
    rw [Function.update_of_ne (β := fun _ => Buf) hne]

/-- A small directory grows by an entry. -/
theorem iappend_entry (h : Good s) (hrange : InRange s (dinode sb s.disk 1)) (hi : 1 < ninodes)
    (hsize : (dinode sb s.disk 1).size.toNat = off) (htight : Tight s.disk (dinode sb s.disk 1) off)
    (hoff : off + 16 ≤ 140 * 512)
    (hroom : s.freeblock + blocksOf (off + 16) ≤ fssize + blocksOf off) :
    ∃ s', iappend 1 p 16 s = .ok ((), s') ∧ Good s' := by
  obtain ⟨s₁, din₁, hrun, -, happ⟩ :=
    appendLoop_spec (p := p) h hrange htight (Nat.le_refl 16) hoff hroom
  refine ⟨_, ?_, happ.good.putInode hi { din₁ with size := UInt32.ofNat (off + 16) }⟩
  rw [iappend, bind_of_ok (rinode_run h hi), hsize, bind_of_ok hrun]
  exact winode_run happ.good hi _

/-- When all inodes have been handed out, an empty file still finds one. -/
theorem addFile_past (h : Stage files s) (hfull : files.length + 2 = ninodes)
    (hslash : slash ∉ f.arg) (hempty : f.chunks = []) (hroom : s.freeblock < fssize) :
    ∃ s', addFile 1 f s = .ok ((), s') ∧ Good s' := by
  have hninodes : ninodes = 200 := rfl
  have hfree : s.freeinode = ninodes := by rw [h.freeinode, hfull]
  have hlen := length_root files
  have hsize := (h.image.node 1 Nat.one_pos (by omega)).2.2
  obtain ⟨s₁, halloc, hgood, hblock, hroot⟩ := ialloc_past h.image.good hfree
  rw [hlen] at hsize
  rw [hfull, hninodes] at hsize
  have htight : Tight s₁.disk (dinode sb s₁.disk 1) (16 * 200) := by
    rw [hroot, ← hninodes, ← hfull]
    exact tight_root h.tight (by omega)
  have hrange : InRange s₁ (dinode sb s₁.disk 1) := by
    have hold : InRange s (dinode sb s.disk 1) :=
      inRange_of_owned h.image.owned (by decide) (h.image.type_ne Nat.one_pos (by omega))
    have hptr : ∀ k, ptr s₁.disk (dinode sb s₁.disk 1) k = ptr s.disk (dinode sb s.disk 1) k := by
      intro k
      rw [hroot]
      refine ptr_congr (.inr fun ha => ?_)
      have := h.tight.indirect.mp (toNat_ne_zero ha)
      omega
    intro k hk
    rw [hptr] at hk ⊢
    rw [hblock]
    exact hold k hk
  have hone : blocksOf (16 * 200 + 16) = blocksOf (16 * 200) := by decide
  obtain ⟨s₂, hrun, hgood₂⟩ :=
    iappend_entry (p := Dirent.bytes ⟨UInt16.ofNat ninodes, f.stored⟩) hgood
    hrange (by decide) (by rw [hroot]; exact hsize) htight (by decide)
    (by rw [hone, hblock]; omega)
  refine ⟨s₂, ?_, hgood₂⟩
  rw [addFile, bind_of_ok (assert_run hslash _ s), bind_of_ok halloc, bind_of_ok hrun, hempty]
  rfl

/-- A file with a name of two letters and nothing in it. -/
def emptyFile (k : Nat) : HostFile where
  arg := [UInt8.ofNat (65 + k / 16 % 16), UInt8.ofNat (65 + k % 16)]
  chunks := []
  string := by
    have hletter : ∀ j, j < 16 → 0 ≠ UInt8.ofNat (65 + j) := by decide
    simp only [List.mem_cons, List.not_mem_nil, or_false, not_or]
    exact ⟨hletter _ (Nat.mod_lt _ (by decide)), hletter _ (Nat.mod_lt _ (by decide))⟩
  reads := reads_nil

def emptyFiles (n : Nat) : List HostFile := (List.range n).map emptyFile

theorem emptyFile_slash (k : Nat) : slash ∉ (emptyFile k).arg := by
  have hletter : ∀ j, j < 16 → slash ≠ UInt8.ofNat (65 + j) := by decide
  simp only [emptyFile, List.mem_cons, List.not_mem_nil, or_false, not_or]
  exact ⟨hletter _ (Nat.mod_lt _ (by decide)), hletter _ (Nat.mod_lt _ (by decide))⟩

theorem emptyFiles_succ (n : Nat) : emptyFiles (n + 1) = emptyFiles n ++ [emptyFile n] := by
  rw [emptyFiles, List.range_succ, List.map_append]
  rfl

theorem total_emptyFiles (n : Nat) : total (emptyFiles n) = nmeta + blocksOf (16 * (n + 2)) := by
  have hneeded : needed (emptyFiles n) = 0 := by
    induction n with
    | zero => rfl
    | succ n ih =>
      have hone : needed [emptyFile n] = 0 := by simp [needed, emptyFile, HostFile.data, blocksOf]
      rw [emptyFiles_succ, needed_append, ih, hone]
  rw [total, hneeded, emptyFiles, List.length_map, List.length_range, Nat.add_zero]

/-- With 199 files mkfs reports success, and inode 200 is used in a file system whose
inodes are those below 200. -/
theorem too_many_files : ∃ img, mkfs (emptyFiles 199) = .ok img ∧ sb.ninodes = 200 ∧
    200 < img.freeinode ∧ ¬ Possible img := by
  have hlen : ∀ n, (emptyFiles n).length = n := fun n => by simp [emptyFiles]
  have hfits : Fits (emptyFiles 198) := by
    refine ⟨by rw [hlen], ?_⟩
    rw [total_emptyFiles]
    decide
  have hall : ∀ f ∈ emptyFiles 198, Accepted f :=
    List.forall_mem_map.mpr fun k _ => ⟨emptyFile_slash k, Nat.zero_le _⟩
  obtain ⟨s₀, hstart, hmain⟩ := start_run
  obtain ⟨s, hrun, hstage⟩ : ∃ s, (emptyFiles 198).forM (addFile 1) s₀ = .ok ((), s) ∧
      Stage ([] ++ emptyFiles 198) s := addFiles_spec hstart hfits hall
  rw [List.nil_append] at hstage
  have hroom : s.freeblock < fssize := by
    rw [hstage.freeblock, total_emptyFiles]
    decide
  obtain ⟨s₁, hrun₁, hgood⟩ := addFile_past (f := emptyFile 198) hstage
    (by rw [hlen]) (emptyFile_slash 198) rfl hroom
  have hfiles : (emptyFiles 199).forM (addFile 1) s₀ = .ok ((), s₁) := by
    rw [emptyFiles_succ, List.forM_eq_forM, List.forM_append]
    exact (bind_of_ok hrun).trans ((forM_of_ok hrun₁).trans rfl)
  have hmkfs : mkfs (emptyFiles 199) = .ok (finished s₁) := by
    rw [mkfs, hmain, bind_of_ok hfiles, finish_run hgood]
    rfl
  have hfree : (finished s₁).freeinode = 201 := by rw [freeinode_mkfs hmkfs, hlen]
  refine ⟨finished s₁, hmkfs, rfl, by rw [hfree]; decide, fun himg => ?_⟩
  have hlast := himg.inodes 200 (by decide) (by rw [hfree]; decide)
  exact absurd hlast (by decide)

end Xv6.Mkfs
