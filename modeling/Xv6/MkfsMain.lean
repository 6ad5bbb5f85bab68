import Mathlib.Algebra.BigOperators.Group.List.Basic
import Xv6.MkfsImage

/-!
# Runs of mkfs

The inodes and the blocks that `main` of mkfs.c uses for a list of files, and the image it
leaves: the root directory has an entry for each file, and the file its bytes.
-/
namespace Xv6.Mkfs

open Function (update update_self update_of_ne)
open Bytes FsImage BlockMap Directory
open Image (Grown append_one append_chunks chunks_fail allocated allocated_inode ialloc_run
  newNode tight_newNode)

variable {s s' : Img} {files rest : List HostFile} {f : HostFile}

/-- The entries of the root directory. -/
def entries (files : List HostFile) : List Dirent :=
  ⟨1, dot⟩ :: ⟨1, dotdot⟩ :: files.mapIdx fun k f => ⟨UInt16.ofNat (k + 2), f.stored⟩

/-- The bytes of an entry. -/
def direntBytes (de : Dirent) : List UInt8 := (List.range 16).map de.bytes

/-- The bytes of each inode: the root directory is inode 1, and the files follow. -/
def dataOf (files : List HostFile) : Nat → List UInt8
  | 0 => []
  | 1 => (entries files).flatMap direntBytes
  | i + 2 => (files[i]?.map HostFile.data).getD []

theorem entries_snoc (files : List HostFile) (f : HostFile) :
    entries (files ++ [f]) = entries files ++ [⟨UInt16.ofNat (files.length + 2), f.stored⟩] := by
  simp [entries, List.mapIdx_append]

theorem length_entries (files : List HostFile) : (entries files).length = files.length + 2 := by
  simp [entries]

theorem length_root (files : List HostFile) :
    (dataOf files 1).length = 16 * (files.length + 2) := by
  have hlen : ∀ de ∈ entries files, (direntBytes de).length = 16 :=
    fun de _ => by simp [direntBytes]
  rw [dataOf, List.length_flatMap, List.map_congr_left hlen]
  simp [length_entries, Nat.mul_comm]

theorem dataOf_new (files : List HostFile) : dataOf files (files.length + 2) = [] := by
  simp [dataOf]

theorem update_root_new (files : List HostFile) (root : List UInt8) :
    update (dataOf files) 1 root (files.length + 2) = [] := by
  rw [update_of_ne (by omega), dataOf_new]

theorem dataOf_snoc (files : List HostFile) (f : HostFile) :
    dataOf (files ++ [f]) = update (update (dataOf files) 1 (dataOf files 1 ++
      direntBytes ⟨UInt16.ofNat (files.length + 2), f.stored⟩)) (files.length + 2) f.data := by
  funext i
  match i with
  | 0 =>
    rw [update_of_ne (by omega), update_of_ne (by omega)]
    rfl
  | 1 =>
    rw [update_of_ne (by omega), update_self, dataOf, entries_snoc, List.flatMap_append]
    simp [dataOf]
  | i + 2 =>
    by_cases hi : i = files.length
    · subst hi
      rw [update_self, dataOf, List.getElem?_append_right (Nat.le_refl _), Nat.sub_self]
      rfl
    · rw [update_of_ne (by omega), update_of_ne (by omega), dataOf, dataOf]
      by_cases hlt : i < files.length
      · rw [List.getElem?_append_left hlt]
      · rw [List.getElem?_eq_none (by simp; omega), List.getElem?_eq_none (by omega)]

/-! ## Inodes and blocks -/

/-- The blocks of the files. -/
def needed (files : List HostFile) : Nat := (files.map fun f => blocksOf f.data.length).sum

/-- All blocks of the image: the metadata, the root directory and the files. -/
def total (files : List HostFile) : Nat := nmeta + blocksOf (16 * (files.length + 2)) + needed files

/-- The files fit in NINODES inodes and FSSIZE blocks. -/
structure Fits (files : List HostFile) : Prop where
  inodes : files.length + 2 ≤ ninodes
  blocks : total files ≤ fssize

theorem needed_append (files rest : List HostFile) :
    needed (files ++ rest) = needed files + needed rest := by
  simp [needed]

theorem total_snoc (files : List HostFile) (f : HostFile) :
    total (files ++ [f]) + blocksOf (16 * (files.length + 2)) =
      total files + blocksOf (16 * (files.length + 2) + 16) + blocksOf f.data.length := by
  have hlen : 16 * ((files ++ [f]).length + 2) = 16 * (files.length + 2) + 16 := by
    rw [List.length_append, List.length_singleton]
    omega
  have hone : needed [f] = blocksOf f.data.length := by simp [needed]
  unfold total
  rw [hlen, needed_append, hone]
  omega

theorem Fits.init (h : Fits (files ++ rest)) : Fits files := by
  have hinodes := h.inodes
  have hblocks := h.blocks
  rw [List.length_append] at hinodes
  have hmono : blocksOf (16 * (files.length + 2)) ≤ blocksOf (16 * ((files ++ rest).length + 2)) :=
    blocksOf_mono (by rw [List.length_append]; omega)
  have hneeded := needed_append files rest
  unfold total at hblocks
  exact ⟨by omega, by unfold total; omega⟩

/-! ## The loop over the files -/

/-- The image after these files. -/
structure Stage (files : List HostFile) (s : Img) : Prop where
  image : Image s (dataOf files)
  freeinode : s.freeinode = files.length + 2
  tight : Tight s.disk (dinode sb s.disk 1) (16 * (files.length + 2))
  freeblock : s.freeblock = total files

/-- The root directory has direct blocks only, so that it does not matter what else is on
the disk. -/
theorem tight_root {d d' : Disk} {din : Dinode} {off : Nat} (h : Tight d din off)
    (hoff : off ≤ 12 * 512) :
    Tight d' din off := by
  refine h.congr fun k => ptr_congr (.inr fun ha => ?_)
  have := h.indirect.mp (toNat_ne_zero ha)
  omega

/-- The inode of a new file has been allocated. -/
theorem addFile_ialloc (h : Stage files s) (hinodes : files.length + 3 ≤ ninodes)
    (hslash : slash ∉ f.arg) :
    addFile 1 f s = (do
      iappend 1 (Dirent.bytes ⟨UInt16.ofNat (files.length + 2), f.stored⟩) 16
      f.chunks.forM fun c => iappend (files.length + 2) (ofList c) c.length : MkM Unit)
        (allocated s) ∧
    Image (allocated s) (dataOf files) ∧
    Tight (allocated s).disk (dinode sb (allocated s).disk 1) (dataOf files 1).length := by
  have hlen := length_root files
  have hninodes : ninodes = 200 := rfl
  have hfree := h.freeinode
  have hlt : s.freeinode < ninodes := by omega
  have hkind : kind s.freeinode = tFile := if_neg (by omega)
  have halloc := ialloc_run h.image.good hlt
  rw [hkind] at halloc
  refine ⟨?_, ?_, ?_⟩
  · rw [addFile, bind_of_ok (assert_run hslash _ s), bind_of_ok halloc, hfree]
  · have := h.image.ialloc (by omega) hlt
    rwa [hfree, ← dataOf_new files, Function.update_eq_self] at this
  · rw [allocated_inode, if_neg (by omega), hlen]
    exact tight_root h.tight (by omega)

theorem addFile_entry (h : Stage files s) (hinodes : files.length + 3 ≤ ninodes)
    (hroom : total files + blocksOf (16 * (files.length + 2) + 16) ≤
      fssize + blocksOf (16 * (files.length + 2))) (hslash : slash ∉ f.arg) :
    ∃ s₁, addFile 1 f s =
      f.chunks.forM (fun c => iappend (files.length + 2) (ofList c) c.length) s₁ ∧
      Image s₁ (update (dataOf files) 1 (dataOf files 1 ++
        direntBytes ⟨UInt16.ofNat (files.length + 2), f.stored⟩)) ∧
      s₁.freeinode = files.length + 3 ∧
      s₁.freeblock + blocksOf f.data.length = total (files ++ [f]) ∧
      Tight s₁.disk (dinode sb s₁.disk 1) (16 * (files.length + 2) + 16) ∧
      Tight s₁.disk (dinode sb s₁.disk (files.length + 2)) 0 := by
  obtain ⟨hstart, himage, htight⟩ := addFile_ialloc h hinodes hslash
  have htotal := total_snoc files f
  have hlen := length_root files
  have hninodes : ninodes = 200 := rfl
  have hfree := h.freeinode
  have hnew : dinode sb (allocated s).disk s.freeinode = newNode s.freeinode := by
    rw [allocated_inode, if_pos rfl]
  have hgrowblocks : (allocated s).freeblock = total files := h.freeblock
  obtain ⟨s₁, hrun, hgrown⟩ := append_one (n := 16)
    (p := Dirent.bytes ⟨UInt16.ofNat (files.length + 2), f.stored⟩) ⟨himage, Nat.one_pos,
    show 1 < s.freeinode + 1 by omega, htight⟩ (by decide) (by omega)
    (by rw [hlen, hgrowblocks]; omega)
  have hsum : (List.map (Dirent.bytes ⟨UInt16.ofNat (files.length + 2), f.stored⟩)
      (List.range 16)).length = 16 := by
    simp
  have hblocks' := hgrown.freeblock
  have htight' := hgrown.tight
  have hothers := hgrown.others (files.length + 2) (by omega) (by omega)
  rw [hsum, hlen] at hblocks' htight'
  refine ⟨s₁, ?_, hgrown.image, ?_, ?_, htight', ?_⟩
  · rw [hstart, bind_of_ok hrun]
  · rw [hgrown.freeinode]
    exact congrArg (· + 1) hfree
  · omega
  · rw [hothers, ← hfree, hnew]
    exact tight_newNode ..

/-- Files that fit leave room for the entry of the next one. -/
theorem Fits.entry (hfit : Fits (files ++ [f])) : files.length + 3 ≤ ninodes ∧
    total files + blocksOf (16 * (files.length + 2) + 16) ≤
      fssize + blocksOf (16 * (files.length + 2)) := by
  have hinodes := hfit.inodes
  have hblocks := hfit.blocks
  have htotal := total_snoc files f
  rw [List.length_append, List.length_singleton] at hinodes
  exact ⟨by omega, by omega⟩

/-- The name of the file has no slash, and the file is not too large. -/
def Accepted (f : HostFile) : Prop := slash ∉ f.arg ∧ f.data.length ≤ 140 * 512

theorem addFile_spec (h : Stage files s) (hfit : Fits (files ++ [f])) (hf : Accepted f) :
    ∃ s', addFile 1 f s = .ok ((), s') ∧ Stage (files ++ [f]) s' := by
  obtain ⟨s₁, hrun, himage, hfree, hblocks, hroot, hnew⟩ :=
    addFile_entry h hfit.entry.1 hfit.entry.2 hf.1
  have hfits := hfit.blocks
  have hzero : blocksOf 0 = 0 := by decide
  have hchunks : f.chunks.flatten.length = f.data.length := rfl
  have hmax := hf.2
  obtain ⟨s', hloop, hgrown⟩ := append_chunks (i := files.length + 2) ⟨himage, by omega,
    by omega, by rw [update_root_new]; exact hnew⟩ (fun c hc => (f.reads c hc).1)
    (by rw [update_root_new, List.length_nil, hchunks]; omega)
    (by rw [update_root_new, List.length_nil, hchunks, hzero, Nat.zero_add]; omega)
  have himage' := hgrown.image
  have hblocks' := hgrown.freeblock
  have hother := hgrown.others 1 (by decide) (by omega)
  have hinodes := hfit.inodes
  have hninodes : ninodes = 200 := rfl
  rw [update_root_new, List.nil_append] at himage'
  rw [update_root_new, List.length_nil, hchunks, hzero, Nat.zero_add] at hblocks'
  rw [List.length_append, List.length_singleton] at hinodes
  refine ⟨s', hrun.trans hloop, ?_, ?_, ?_, by omega⟩
  · rw [dataOf_snoc]
    exact himage'
  · rw [hgrown.freeinode, hfree, List.length_append, List.length_singleton]
  · rw [hother, List.length_append, List.length_singleton,
      show 16 * (files.length + 1 + 2) = 16 * (files.length + 2) + 16 by omega]
    exact tight_root hroot (by omega)

theorem addFile_fails (h : Stage files s) (hfit : Fits (files ++ [f])) (hf : ¬ Accepted f) :
    ∃ msg, addFile 1 f s = .error msg := by
  by_cases hslash : slash ∈ f.arg
  · exact ⟨_, bind_of_error (assert_fails (not_not.mpr hslash) _ s)⟩
  obtain ⟨s₁, hrun, himage, hfree, hblocks, -, hnew⟩ :=
    addFile_entry h hfit.entry.1 hfit.entry.2 hslash
  have hfits := hfit.blocks
  have hzero : blocksOf 0 = 0 := by decide
  have hchunks : f.chunks.flatten.length = f.data.length := rfl
  have hlarge : 140 * 512 < f.data.length := Nat.not_le.mp fun hle => hf ⟨hslash, hle⟩
  refine ⟨_, hrun.trans (chunks_fail (i := files.length + 2) ⟨himage, by omega,
    by omega, by rw [update_root_new]; exact hnew⟩ (fun c hc => (f.reads c hc).1) ?_ ?_ ?_)⟩
  · rw [update_root_new]
    exact Nat.zero_le _
  · rw [update_root_new, List.length_nil, hchunks]
    omega
  · rw [update_root_new, List.length_nil, hchunks, hzero, Nat.zero_add]
    omega

theorem append_singleton_append (files rest : List HostFile) (f : HostFile) :
    files ++ f :: rest = files ++ [f] ++ rest := by simp

theorem addFiles_spec (h : Stage files s) (hfit : Fits (files ++ rest))
    (hf : ∀ f ∈ rest, Accepted f) :
    ∃ s', rest.forM (addFile 1) s = .ok ((), s') ∧ Stage (files ++ rest) s' := by
  induction rest generalizing files s with
  | nil => exact ⟨s, rfl, by rwa [List.append_nil]⟩
  | cons f rest ih =>
    rw [append_singleton_append] at hfit ⊢
    obtain ⟨s₁, hrun, hstage⟩ := addFile_spec h hfit.init (hf f List.mem_cons_self)
    obtain ⟨s', hrest, hstage'⟩ := ih hstage hfit fun g hg => hf g (List.mem_cons_of_mem f hg)
    exact ⟨s', (forM_of_ok hrun).trans hrest, hstage'⟩

theorem addFiles_fails (h : Stage files s) (hfit : Fits (files ++ rest))
    (hf : ¬ ∀ f ∈ rest, Accepted f) :
    ∃ msg, rest.forM (addFile 1) s = .error msg := by
  induction rest generalizing files s with
  | nil => exact absurd (fun f hf => absurd hf List.not_mem_nil) hf
  | cons f rest ih =>
    rw [append_singleton_append] at hfit
    by_cases hfirst : Accepted f
    · obtain ⟨s₁, hrun, hstage⟩ := addFile_spec h hfit.init hfirst
      obtain ⟨msg, hrest⟩ := ih hstage hfit fun hall =>
        hf (List.forall_mem_cons.mpr ⟨hfirst, hall⟩)
      exact ⟨msg, (forM_of_ok hrun).trans hrest⟩
    · obtain ⟨msg, hrun⟩ := addFile_fails h hfit.init hfirst
      exact ⟨msg, forM_of_error hrun⟩

/-! ## The start -/

/-- The loop that fills the image file with zeros. -/
theorem fill_run (m n : Nat) (hmn : m + n ≤ fssize) :
    (List.range' m n).forM (fun i => wsect i fun _ => 0)
    ⟨fun _ _ => 0, m, 1, nmeta⟩ = .ok ((), ⟨fun _ _ => 0, m + n, 1, nmeta⟩) := by
  induction n generalizing m with
  | zero => rfl
  | succ n ih =>
    have hone : wsect m (fun _ => 0) ⟨fun _ _ => 0, m, 1, nmeta⟩ =
        .ok ((), ⟨fun _ _ => 0, m + 1, 1, nmeta⟩) := by
      change Except.ok
        ((), (⟨update (fun _ _ => 0) (seek m) fun _ => 0, max m (seek m + 1), 1, nmeta⟩ : Img)) = _
      rw [seek_of_le (by omega), Function.update_eq_self_iff.mpr rfl,
        Nat.max_eq_right (Nat.le_succ m)]
    rw [List.range'_succ]
    refine (forM_of_ok (g := fun i => wsect i fun _ => 0) hone).trans ?_
    rw [ih _ (by omega), Nat.add_right_comm, Nat.add_assoc]

/-- The image with the super block only. -/
def blank : Img := ⟨update (fun _ _ => 0) 1 superWords.bytes, fssize, 1, nmeta⟩

theorem blank_of_ne {b : Nat} (h : b ≠ 1) : blank.disk b = fun _ => 0 :=
  update_of_ne (β := fun _ => Buf) h superWords.bytes fun _ _ => 0

theorem type_blank (i : Nat) : (dinode sb blank.disk i).type = 0 := by
  have hne : sb.iblock i ≠ 1 := by
    have : sb.iblock i = i / 8 + 32 := rfl
    omega
  rw [dinode, blank_of_ne hne]
  change (UInt16.ofNat (getLE (fun _ => 0) _ 2)).toInt16 = 0
  rw [getLE_zero]
  rfl

theorem image_blank : Image blank fun _ => [] := by
  have htype : ∀ i, i < ninodes → (dinode sb blank.marked i).type = 0 := fun i hi => by
    rw [dinode_marked hi, type_blank]
  have hP : ∀ p, pointers sb blank.marked (dinode sb blank.marked) p = 0 := fun p =>
    if_neg fun hand => hand.2 (htype p.1 hand.1)
  refine ⟨⟨rfl, Nat.le_refl _, by decide, fun b hb => blank_of_ne ?_, rfl⟩, ?_,
    ?_, by decide, ?_, ?_, ?_⟩
  · have hlow : nmeta ≤ b := hb
    have := nmeta_eq
    omega
  · refine ⟨fun p hp => absurd (hP p) hp, fun p q hp => absurd (hP p) hp, fun b => ?_⟩
    have hmeta : sb.nmeta = nmeta := rfl
    have hfree : blank.freeblock = nmeta := rfl
    constructor
    · rintro ⟨hb, hu⟩
      rw [used_marked hb, decide_eq_true_eq, hfree, ← hmeta] at hu
      exact .inl hu
    · rintro (hb | ⟨p, hp, -⟩)
      · have hsize : b < fssize := Nat.lt_of_lt_of_le hb sb.nmeta_le
        rw [hmeta, ← hfree] at hb
        exact ⟨hsize, by rw [used_marked hsize, decide_eq_true hb]⟩
      · exact absurd (hP p) hp
  · intro i hi ht
    exact absurd (htype i hi) ht
  · intro i hi hlt
    have : i < 1 := hlt
    omega
  · intro i _ _
    exact type_blank i
  · intro i k hi hlt
    have : i < 1 := hlt
    omega

/-- The root directory with its first two entries. -/
theorem start_run :
    ∃ s, Stage [] s ∧ ∀ files : List HostFile, main files ⟨fun _ _ => 0, 0, 1, nmeta⟩ =
    (do
      files.forM (addFile 1)
      finish 1 : MkM Unit) s := by
  have halloc := ialloc_run image_blank.good (show blank.freeinode < ninodes by decide)
  have himage := image_blank.ialloc Nat.one_pos (show blank.freeinode < ninodes by decide)
  have hdata : update (fun _ => ([] : List UInt8)) blank.freeinode [] = fun _ => [] :=
    Function.update_eq_self_iff.mpr rfl
  rw [hdata] at himage
  have hnew : dinode sb (allocated blank).disk 1 = newNode 1 := by rw [allocated_inode]; rfl
  obtain ⟨s₁, hrun₁, hgrown₁⟩ := append_one (i := 1) (n := 16) (p := Dirent.bytes ⟨1, dot⟩)
    ⟨himage, Nat.one_pos, by decide, hnew ▸ tight_newNode ..⟩ (by decide) (by decide) (by decide)
  have hlen₁ : (update (fun _ => ([] : List UInt8)) 1
      ([] ++ (List.range 16).map (Dirent.bytes ⟨1, dot⟩)) 1).length = 16 := by
    rw [update_self]
    simp
  have hfree₁ : s₁.freeinode = 2 := hgrown₁.freeinode
  have hblocks₁ : s₁.freeblock = nmeta + 1 := hgrown₁.freeblock
  obtain ⟨s₂, hrun₂, hgrown₂⟩ := append_one (i := 1) (n := 16) (p := Dirent.bytes ⟨1, dotdot⟩)
    ⟨hgrown₁.image, Nat.one_pos, by omega, hlen₁ ▸ hgrown₁.tight⟩
    (by decide) (by rw [hlen₁]; decide)
    (by rw [hlen₁, hblocks₁]; decide)
  have hblocks₂ := hgrown₂.freeblock
  have htight₂ := hgrown₂.tight
  rw [hlen₁, hblocks₁, List.length_map, List.length_range] at hblocks₂
  rw [hlen₁, List.length_map, List.length_range] at htight₂
  refine ⟨s₂, ⟨?_, hgrown₂.freeinode.trans hfree₁, htight₂, ?_⟩, fun files => ?_⟩
  · have hall : update
        (update (fun _ => ([] : List UInt8)) 1 ([] ++ (List.range 16).map (Dirent.bytes ⟨1, dot⟩)))
        1 (update (fun _ => ([] : List UInt8)) 1
          ([] ++ (List.range 16).map (Dirent.bytes ⟨1, dot⟩)) 1 ++
          (List.range 16).map (Dirent.bytes ⟨1, dotdot⟩)) = dataOf [] := by
      funext i
      match i with
      | 0 => rfl
      | 1 => rfl
      | i + 2 => rfl
    exact hall ▸ hgrown₂.image
  · have hone : blocksOf 16 = 1 := by decide
    have htwo : blocksOf (16 + 16) = 1 := by decide
    have htotal : total [] = nmeta + 1 := by decide
    omega
  · have hfill := fill_run 0 fssize (Nat.zero_add _).le
    rw [← List.range_eq_range', Nat.zero_add] at hfill
    have hsuper : wsect 1 superWords.bytes ⟨fun _ _ => 0, fssize, 1, nmeta⟩ = .ok ((), blank) := rfl
    rw [main, bind_of_ok hfill, bind_of_ok hsuper]
    refine (bind_of_ok halloc).trans ?_
    rw [bind_of_ok (assert_run (show blank.freeinode = 1 from rfl) _ _)]
    refine (bind_of_ok hrun₁).trans ?_
    exact (bind_of_ok hrun₂).trans rfl

/-! ## The end -/

/-- The root directory with its size rounded. -/
def rounded (s : Img) : Dinode :=
  let din := dinode sb s.disk 1
  { din with size := UInt32.ofNat ((din.size.toNat / 512 + 1) * 512) }

/-- The image with the bitmap. -/
def finished (s : Img) : Img := { s with disk := (s.putInode 1 (rounded s)).marked }

theorem finish_run (h : Good s) : finish 1 s = .ok ((), finished s) := by
  have hgood := h.putInode (show 1 < ninodes by decide) (rounded s)
  have hsmall : (s.putInode 1 (rounded s)).freeblock < 512 * 8 :=
    Nat.lt_of_le_of_lt h.high (by decide)
  rw [finish, bind_of_ok (rinode_run h (by decide))]
  refine (bind_of_ok (winode_run h (by decide) (rounded s))).trans ?_
  change balloc (s.putInode 1 (rounded s)).freeblock (s.putInode 1 (rounded s)) = _
  rw [balloc, bind_of_ok (assert_run hsmall _ _)]
  exact wsect_run hgood (by decide) _

/-- Files that fit and that mkfs accepts give an image. -/
theorem mkfs_spec (hfit : Fits files) (hf : ∀ f ∈ files, Accepted f) :
    ∃ s, Stage files s ∧ mkfs files = .ok (finished s) := by
  obtain ⟨s₀, hstart, hmain⟩ := start_run
  obtain ⟨s, hrun, hstage⟩ := addFiles_spec hstart hfit hf
  refine ⟨s, hstage, ?_⟩
  rw [mkfs, hmain, bind_of_ok hrun, finish_run hstage.image.good]
  rfl

/-- mkfs fails for a file that it does not accept. -/
theorem mkfs_fails (hfit : Fits files) (hf : ¬ ∀ f ∈ files, Accepted f) :
    ∃ msg, mkfs files = .error msg := by
  obtain ⟨s₀, hstart, hmain⟩ := start_run
  obtain ⟨msg, hrun⟩ := addFiles_fails hstart hfit hf
  refine ⟨msg, ?_⟩
  rw [mkfs, hmain, bind_of_error hrun]
  rfl

end Xv6.Mkfs
