import Xv6.MkfsMain

/-!
# Holes in the image

The size of the root directory is rounded after its entries have been appended. When the
entries fill their blocks exactly, the size goes one block past them.
-/
namespace Xv6.Mkfs

open FsImage BlockMap FileData Directory

variable {s : Img} {files : List HostFile} {data : Nat → List UInt8} {i : Nat}

/-! ## The image that mkfs leaves -/

theorem dinode_finished (hi : i < ninodes) :
    dinode sb (finished s).disk i = if i = 1 then rounded s else dinode sb s.disk i := by
  rw [finished, dinode_marked hi]
  exact dinode_putDinode ..

/-- Rounding the size moves no pointer. -/
theorem pointers_finished (h : Image s data) :
    pointers sb (finished s).disk (dinode sb (finished s).disk) =
    pointers sb s.marked (dinode sb s.marked) := by
  have hdisk : (finished s).disk = putDinode sb s.marked 1 (rounded s) :=
    marked_putInode (by decide) _
  have htable : pointers sb (finished s).disk (dinode sb (finished s).disk) =
      pointers sb (finished s).disk (dinode sb s.marked) := by
    refine pointers_table fun i hi => ?_
    rw [dinode_finished hi, dinode_marked hi]
    split
    next heq =>
      subst heq
      exact ⟨rfl, Iff.rfl⟩
    next => exact ⟨rfl, Iff.rfl⟩
  rw [htable, hdisk, h.owned.pointers_putDinode (by decide)]

theorem owned_finished (h : Image s data) :
    Owned sb (finished s).disk (dinode sb (finished s).disk) := by
  refine Ownership.Owns.congr h.owned (fun b => ?_) (congrFun (pointers_finished h))
  rw [show (finished s).disk =
    putDinode sb s.marked 1 (rounded s) from marked_putInode (by decide) _,
    used_putDinode (by decide)]

/-- The root directory has blocks for its entries. -/
theorem root_block (h : Stage files s) (bn : Nat) :
    fileBlock sb (finished s).disk (dinode sb (finished s).disk) 1 bn ≠ 0 ↔
      bn * 512 < 16 * (files.length + 2) := by
  have hinodes := h.image.inodes
  have hfree := h.freeinode
  have hninodes : ninodes = 200 := rfl
  have hroot : (dinode sb s.marked 1).type ≠ 0 := by
    rw [dinode_marked (by decide)]
    exact h.image.type_ne Nat.one_pos (by omega)
  rw [fileBlock, pointers_finished h.image, pointers_of (by decide) hroot,
    dinode_marked (by decide)]
  exact (tight_root h.tight (by omega)).block bn

theorem size_rounded (h : Stage files s) :
    (rounded s).size.toNat = (16 * (files.length + 2) / 512 + 1) * 512 := by
  have hinodes := h.image.inodes
  have hfree := h.freeinode
  have hninodes : ninodes = 200 := rfl
  have hsize := (h.image.node 1 Nat.one_pos (by omega)).2.2
  rw [length_root] at hsize
  change (UInt32.ofNat (((dinode sb s.disk 1).size.toNat / 512 + 1) * 512)).toNat = _
  have hsmall : (16 * (files.length + 2) / 512 + 1) * 512 < 2 ^ 32 := by omega
  rw [hsize, UInt32.toNat_ofNat_of_lt' hsmall]

/-- The rounded size goes past the blocks if the last of them is full. -/
theorem holeFree_finished (h : Stage files s) :
    HoleFree sb (finished s).disk (dinode sb (finished s).disk) ↔ (files.length + 2) % 32 ≠ 0 := by
  have hroot : dinode sb (finished s).disk 1 = rounded s := by
    rw [dinode_finished (by decide), if_pos rfl]
  have hsize := size_rounded h
  constructor
  · intro hfull hmod
    have htype : (rounded s).type ≠ 0 :=
      h.image.type_ne Nat.one_pos (by rw [h.freeinode]; omega)
    have hlast := hfull 1 (by decide) (by rw [hroot]; exact htype) (16 * (files.length + 2) / 512)
      (by rw [hroot, hsize]; omega)
    have := (root_block h _).mp hlast
    omega
  · intro hmod i hi ht bn hbn
    by_cases hone : i = 1
    · subst hone
      rw [hroot, hsize] at hbn
      exact (root_block h bn).mpr (by omega)
    · rw [dinode_finished hi, if_neg hone, ← dinode_marked hi] at ht hbn
      rw [fileBlock, pointers_finished h.image]
      exact h.image.holeFree i hi ht bn hbn

/-! ## What the kernel finds -/

/-- No file has a hole, the bitmap is exact, and reading changes nothing. -/
structure Tidy (d : Disk) : Prop where
  holeFree : HoleFree sb d (dinode sb d)
  owned : Owned sb d (dinode sb d)
  readi : ∀ i, i < ninodes → (dinode sb d i).type ≠ 0 → ∀ off n w al,
    ∃ r, readi sb (dinode sb d i) off n ⟨d, w, al⟩ = .ok (r, ⟨d, w, al⟩)

theorem tidy_of_holeFree {d : Disk} (h : HoleFree sb d (dinode sb d))
    (ho : Owned sb d (dinode sb d)) :
    Tidy d := by
  refine ⟨h, ho, fun i hi ht off n w al => ?_⟩
  by_cases href : Refused (dinode sb d i).size off n
  · exact ⟨_, readi_refused href⟩
  · exact ⟨_, readi_run (s := ⟨d, w, al⟩) h hi ht href⟩

theorem tidy_finished (h : Stage files s) : Tidy (finished s).disk ↔ (files.length + 2) % 32 ≠ 0 :=
  ⟨fun ht => (holeFree_finished h).mp ht.holeFree,
    fun hmod => tidy_of_holeFree ((holeFree_finished h).mpr hmod) (owned_finished h.image)⟩

/-- When mkfs returns, it has accepted all files. -/
theorem mkfs_inv {img : Img} (hfit : Fits files) (h : mkfs files = .ok img) :
    ∃ s, Stage files s ∧ img = finished s := by
  by_cases hall : ∀ f ∈ files, Accepted f
  · obtain ⟨s, hstage, hrun⟩ := mkfs_spec hfit hall
    exact ⟨s, hstage, Except.ok.inj (h.symm.trans hrun)⟩
  · obtain ⟨msg, hrun⟩ := mkfs_fails hfit hall
    cases h.symm.trans hrun

/-- An image of files that fit has no hole exactly if the entries of the root directory do
not fill its last block. -/
theorem image_tidy_iff {img : Img} (hfit : Fits files) (h : mkfs files = .ok img) :
    Tidy img.disk ↔ (files.length + 2) % 32 ≠ 0 := by
  obtain ⟨s, hstage, rfl⟩ := mkfs_inv hfit h
  exact tidy_finished hstage

theorem bmap_hole (h : Stage files s) (hmod : (files.length + 2) % 32 = 0)
    (hroom : s.freeblock < fssize) :
    ∃ ip, bmap sb (rounded s) (16 * (files.length + 2) / 512) ⟨(finished s).disk, 0, []⟩ =
      .ok ((ip, s.freeblock), (s.putInode 1 (rounded s)).took.fs 2 [s.freeblock]) := by
  have hgood := h.image.good.putInode (show 1 < ninodes by decide) (rounded s)
  have hinodes := h.image.inodes
  have hfree := h.freeinode
  have hninodes : ninodes = 200 := rfl
  have hbn : 16 * (files.length + 2) / 512 < 12 := by omega
  have haddr : (rounded s).addrs ⟨16 * (files.length + 2) / 512, by omega⟩ = 0 := by
    by_contra hne
    have hptr : ptr s.disk (dinode sb s.disk 1) (slot (16 * (files.length + 2) / 512)) ≠ 0 := by
      rw [slot, if_pos hbn, ptr_addr ⟨16 * (files.length + 2) / 512, by omega⟩]
      exact toNat_ne_zero hne
    have := (h.tight.block _).mp hptr
    omega
  rw [bmap, Code.bmap, dif_pos hbn, Code.addrAlloc, if_pos haddr]
  exact ⟨_, FsImage.bind_of_ok (balloc_marked (w := 0) hgood hroom)⟩

/-- A read in the hole takes a block, with the two `log_write` calls of `balloc`. -/
theorem readi_hole (h : Stage files s) (hmod : (files.length + 2) % 32 = 0)
    (hroom : s.freeblock < fssize) :
    ∃ r, readi sb (dinode sb (finished s).disk 1) (UInt32.ofNat (16 * (files.length + 2))) 16
      ⟨(finished s).disk, 0, []⟩ = .ok (r, (s.putInode 1 (rounded s)).took.fs 2 [s.freeblock]) := by
  have hroot : dinode sb (finished s).disk 1 = rounded s := by
    rw [dinode_finished (by decide), if_pos rfl]
  have hinodes := h.image.inodes
  have hfree := h.freeinode
  have hninodes : ninodes = 200 := rfl
  have hsize := size_rounded h
  have hoff : (UInt32.ofNat (16 * (files.length + 2))).toNat = 16 * (files.length + 2) :=
    UInt32.toNat_ofNat_of_lt' (show _ < 2 ^ 32 by omega)
  obtain ⟨ip, hbmap⟩ := bmap_hole h hmod hroom
  rw [← hoff] at hbmap
  generalize UInt32.ofNat (16 * (files.length + 2)) = off at hoff hbmap ⊢
  have h16 : (16 : UInt32).toNat = 16 := rfl
  have href : ¬ Refused (rounded s).size off 16 := by
    unfold Refused
    omega
  have hshort : ¬ off + 16 > (rounded s).size := by
    rw [gt_iff_lt, UInt32.lt_iff_toNat_lt, toNat_add_of href]
    omega
  -- the loop is over after the bytes of one entry
  have hmin : min 16 (512 - off.toNat % 512) = 16 := by omega
  have hloop : ∃ r, readLoop sb 16 (rounded s) off.toNat 16 ⟨(finished s).disk, 0, []⟩ =
      .ok (r, (s.putInode 1 (rounded s)).took.fs 2 [s.freeblock]) := by
    rw [readLoop, if_neg (by decide), FsImage.bind_of_ok hbmap]
    dsimp only
    rw [bread_bind, hmin]
    exact ⟨_, rfl⟩
  obtain ⟨r, hloop⟩ := hloop
  rw [hroot, readi, if_neg (mt refused_iff.mp href)]
  simp only [if_neg hshort]
  exact ⟨_, FsImage.bind_of_ok hloop⟩

/-- Thirty files with names of one byte and nothing in them. -/
def thirtyFiles : List HostFile :=
  (List.finRange 30).map fun k => ⟨[UInt8.ofNat (65 + k.val)], [], by revert k; decide, reads_nil⟩

theorem fits_thirtyFiles : Fits thirtyFiles := ⟨by decide, by decide⟩

theorem accepted_thirtyFiles : ∀ f ∈ thirtyFiles, Accepted f := by
  refine List.forall_mem_map.mpr fun k _ => ?_
  unfold Accepted
  revert k
  decide

/-- With thirty files the root directory has a size of two blocks and only one of them, and
a read of its second block allocates. -/
theorem thirty_files_hole : ∃ img, mkfs thirtyFiles = .ok img ∧
    (dinode sb img.disk 1).size.toNat = 1024 ∧
    fileBlock sb img.disk (dinode sb img.disk) 1 1 = 0 ∧
    ∃ r s', readi sb (dinode sb img.disk 1) 512 16 ⟨img.disk, 0, []⟩ = .ok (r, s') ∧
      s'.writes = 2 ∧ s'.allocs = [60] := by
  obtain ⟨s, hstage, hrun⟩ := mkfs_spec fits_thirtyFiles accepted_thirtyFiles
  have hlen : thirtyFiles.length = 30 := rfl
  have hfree : s.freeblock = 60 := hstage.freeblock
  have hsize := size_rounded hstage
  have hblock := root_block hstage 1
  obtain ⟨r, hread⟩ := readi_hole hstage (by decide) (by rw [hfree]; decide)
  refine ⟨finished s, hrun, ?_, ?_, r, _, hread, rfl, congrArg (fun b => [b]) hfree⟩
  · rw [dinode_finished (by decide), if_pos rfl, hsize, hlen]
  · rw [hlen] at hblock
    exact not_not.mp fun hne => absurd (hblock.mp hne) (by decide)

/-- The file `_cat`, in two pieces. -/
def catFile : HostFile := ⟨[95, 99, 97, 116], [[1, 2, 3], [4]], by decide, by decide⟩

theorem fits_catFile : Fits [catFile] := ⟨by decide, by decide⟩

theorem accepted_catFile : ∀ f ∈ [catFile], Accepted f := by
  intro f hf
  obtain rfl := List.mem_singleton.mp hf
  unfold Accepted
  decide

/-- With that file the image has no hole. -/
theorem image_tidy_cat : ∃ img, mkfs [catFile] = .ok img ∧ Tidy img.disk := by
  obtain ⟨s, -, hrun⟩ := mkfs_spec fits_catFile accepted_catFile
  exact ⟨finished s, hrun, (image_tidy_iff fits_catFile hrun).mpr (by decide)⟩

end Xv6.Mkfs
