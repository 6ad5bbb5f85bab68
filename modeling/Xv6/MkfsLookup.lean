import Xv6.MkfsHoles

/-!
# Files in the image

In the root directory of an image that mkfs made, `dirlookup` finds each file under its
stored name, and `readi` of the inode gives the bytes of the host's file.
-/
namespace Xv6.Mkfs

open Bytes FsImage BlockMap FileData Directory

variable {s : Img} {files : List HostFile} {f : HostFile} {data : Nat → List UInt8} {i k : Nat}

/-! ## Entries as bytes -/

/-- A name that an entry can hold. -/
structure Storable (name : Name) : Prop where
  length : name.length ≤ 14
  string : 0 ∉ name

theorem ofBytes_direntBytes (de : Dirent) (h : Storable de.name) :
    Dirent.ofBytes (direntBytes de) = de :=
  Dirent.ofBytes_bytes h.length h.string

theorem flatMap_entry (l : List Dirent) (de : Dirent) (hk : l[k]? = some de) {j : Nat}
    (hj : j < 16) :
    (l.flatMap direntBytes)[16 * k + j]? = some (de.bytes j) := by
  have hlen : ∀ de, (direntBytes de).length = 16 := fun de => by simp [direntBytes]
  induction l generalizing k with
  | nil => cases hk
  | cons a l ih =>
    rw [List.flatMap_cons]
    cases k with
    | zero =>
      obtain rfl : a = de := Option.some.inj hk
      rw [List.getElem?_append_left (by rw [hlen]; omega), direntBytes, List.getElem?_map,
        List.getElem?_range (by omega)]
      simp
    | succ k =>
      rw [List.getElem?_append_right (by rw [hlen]; omega), hlen,
        show 16 * (k + 1) + j - 16 = 16 * k + j by omega]
      exact ih hk

theorem mem_arg_of_stored {a : UInt8} (h : a ∈ f.stored) : a ∈ f.arg := by
  have h := List.mem_of_mem_take h
  split at h
  · exact List.mem_of_mem_tail h
  · exact h

theorem storable_stored (f : HostFile) : Storable f.stored :=
  ⟨List.length_take_le .., fun h => f.string (mem_arg_of_stored h)⟩

theorem storable_entries : ∀ de ∈ entries files, Storable de.name := by
  have hdots : Storable dot ∧ Storable dotdot := ⟨⟨by decide, by decide⟩, ⟨by decide, by decide⟩⟩
  refine List.forall_mem_cons.mpr ⟨hdots.1, List.forall_mem_cons.mpr ⟨hdots.2, fun de hde => ?_⟩⟩
  obtain ⟨k, hk, rfl⟩ := List.mem_mapIdx.mp hde
  exact storable_stored _

/-! ## The disk that mkfs leaves -/

theorem content_finished (h : Image s data) (hi : 0 < i) (hlt : i < s.freeinode)
    (hk : k < (data i).length) :
    (data i)[k]? = some (content (finished s).disk (dinode sb (finished s).disk i) k) := by
  have hin : i < ninodes := hlt.trans_le h.inodes
  have htype : (dinode sb (finished s).disk i).type ≠ 0 := by
    have := h.type_ne hi hlt
    rw [dinode_finished hin]
    split
    next heq =>
      subst heq
      exact this
    next => exact this
  have hmapped := h.mapped hi hlt hk
  have hrange : sb.nmeta ≤ fileBlock sb s.marked (dinode sb s.marked) i (k / 512) :=
    (h.owned.range hmapped).1
  have hblock : sb.iblock 1 < sb.nmeta := Superblock.iblock_lt_nmeta (by decide)
  have hdisk : (finished s).disk = putDinode sb s.marked 1 (rounded s) :=
    marked_putInode (by decide) _
  have hsame : fileBlock sb (finished s).disk (dinode sb (finished s).disk) i (k / 512) =
      fileBlock sb s.marked (dinode sb s.marked) i (k / 512) := congrFun (pointers_finished h) _
  rw [h.bytes i k hi hlt hk, content_of (show i < sb.ninodes from hin) htype, byte, byte,
    hsame, hdisk, putDinode_of_ne]
  exact Nat.ne_of_gt (hblock.trans_le hrange)

theorem direntAt_root (h : Stage files s) {de : Dirent} (hk : (entries files)[k]? = some de) :
    direntAt (finished s).disk (dinode sb (finished s).disk 1) (16 * k) = de := by
  have hlt : k < files.length + 2 := by
    rw [← length_entries]
    exact (List.getElem?_eq_some_iff.mp hk).1
  have hbytes :
      ((List.range 16).map fun j => content (finished s).disk (dinode sb (finished s).disk 1)
      (16 * k + j)) = direntBytes de := by
    refine List.map_congr_left fun j hj => ?_
    have hj := List.mem_range.mp hj
    have hcontent := content_finished h.image Nat.one_pos (by rw [h.freeinode]; omega)
      (k := 16 * k + j) (by rw [length_root]; omega)
    have hentry : (dataOf files 1)[16 * k + j]? = some (de.bytes j) := flatMap_entry _ _ hk hj
    exact Option.some.inj (hcontent.symm.trans hentry)
  rw [direntAt, hbytes]
  exact ofBytes_direntBytes de (storable_entries de (List.mem_of_getElem? hk))

/-! ## dirlookup in the root directory -/

/-- The names that are stored are proper and distinct. -/
structure Names (files : List HostFile) : Prop where
  nonempty : ∀ f ∈ files, f.stored ≠ []
  reserved : ∀ f ∈ files, f.stored ≠ dot ∧ f.stored ≠ dotdot
  distinct : (files.map HostFile.stored).Nodup

theorem entries_file (hk : files[k]? = some f) :
    (entries files)[k + 2]? = some ⟨UInt16.ofNat (k + 2), f.stored⟩ := by
  simp [entries, hk]

theorem name_before (hnames : Names files) (hk : files[k]? = some f) {j : Nat} (hj : j < k + 2)
    {de : Dirent} (hde : (entries files)[j]? = some de) : de.name ≠ f.stored := by
  have hmem := List.mem_of_getElem? hk
  obtain ⟨hdot, hdotdot⟩ := hnames.reserved f hmem
  match j with
  | 0 =>
    obtain rfl := Option.some.inj hde
    exact hdot.symm
  | 1 =>
    obtain rfl := Option.some.inj hde
    exact hdotdot.symm
  | j + 2 =>
    obtain ⟨hlt, rfl⟩ := List.getElem?_eq_some_iff.mp hk
    have hjlt : j < files.length := by omega
    have hentry := entries_file (List.getElem?_eq_getElem hjlt)
    obtain rfl := Option.some.inj (hde.symm.trans hentry)
    intro heq
    have hsame : (files.map HostFile.stored)[j]? = (files.map HostFile.stored)[k]? := by
      rw [List.getElem?_map, List.getElem?_map, List.getElem?_eq_getElem hjlt,
        List.getElem?_eq_getElem hlt]
      exact congrArg some heq
    have := (List.getElem?_inj (by rw [List.length_map]; exact hjlt) hnames.distinct).mp hsame
    omega

/-- The kernel finds the entry of a file, and reads only blocks that are there. -/
theorem dirlookup_file (h : Stage files s) (hnames : Names files) (hk : files[k]? = some f)
    (w : Nat) (al : List Nat) :
    dirlookup sb (dinode sb (finished s).disk 1) f.stored ⟨(finished s).disk, w, al⟩ =
      .ok ((dinode sb (finished s).disk 1, some (k + 2, 16 * (k + 2))),
        ⟨(finished s).disk, w, al⟩) := by
  have hlt : k < files.length := (List.getElem?_eq_some_iff.mp hk).1
  have hinodes := h.image.inodes
  have hfree := h.freeinode
  have hninodes : ninodes = 200 := rfl
  have hroot : dinode sb (finished s).disk 1 = rounded s := by
    rw [dinode_finished (by decide), if_pos rfl]
  have hentry := direntAt_root h (entries_file hk)
  have hinum : (UInt16.ofNat (k + 2)).toNat = k + 2 :=
    UInt16.toNat_ofNat_of_lt' (show _ < 2 ^ 16 by omega)
  have htype : (dinode sb (finished s).disk 1).type = tDir := by
    rw [hroot]
    exact (h.image.node 1 Nat.one_pos (by omega)).1
  have hne : UInt16.ofNat (k + 2) ≠ 0 := fun h0 => by
    have := congrArg UInt16.toNat h0
    rw [hinum] at this
    cases this
  refine (dirlookup_first (k := k + 2) htype ?_ ?_ ?_ ?_).trans ?_
  · intro j hj
    have := (root_block h (j / 512)).mpr (by omega)
    rwa [fileBlock, pointers_of (by decide) (by rw [htype]; decide)] at this
  · rw [hroot, size_rounded h]
    omega
  · dsimp only
    rw [hentry]
    exact (Bool.and_eq_true _ _).mpr ⟨bne_iff_ne.mpr hne, beq_self_eq_true _⟩
  · intro j hj
    have hjlt : j < (entries files).length := by
      rw [length_entries]
      omega
    dsimp only
    rw [direntAt_root h (List.getElem?_eq_getElem hjlt)]
    have := name_before hnames hk hj (List.getElem?_eq_getElem hjlt)
    simp [hasName, this]
  · dsimp only
    rw [hentry, hinum]

theorem node_file (h : Stage files s) (hk : files[k]? = some f) :
    (dinode sb (finished s).disk (k + 2)).type = tFile ∧
    (dinode sb (finished s).disk (k + 2)).size.toNat = f.data.length ∧
    Mapped (finished s).disk (dinode sb (finished s).disk (k + 2)) := by
  have hlt : k < files.length := (List.getElem?_eq_some_iff.mp hk).1
  have hfree := h.freeinode
  have hin : k + 2 < ninodes := Nat.lt_of_lt_of_le (by omega) h.image.inodes
  have hdata : dataOf files (k + 2) = f.data := by simp [dataOf, hk]
  have hnode : dinode sb (finished s).disk (k + 2) = dinode sb s.disk (k + 2) := by
    rw [dinode_finished hin, if_neg (by omega)]
  have hkind : kind (k + 2) = tFile := if_neg (by omega)
  obtain ⟨htype, -, hsize⟩ := h.image.node (k + 2) (by omega) (by omega)
  rw [← hnode, hkind] at htype
  rw [← hnode, hdata] at hsize
  refine ⟨htype, hsize, fun bn hbn => ?_⟩
  have hne : (dinode sb (finished s).disk (k + 2)).type ≠ 0 := by
    rw [htype]
    decide
  have hblock := h.image.holeFree (k + 2) hin (by rw [dinode_marked hin, ← hnode]; exact hne) bn
    (by rw [dinode_marked hin, ← hnode]; exact hbn)
  rwa [fileBlock, ← pointers_finished h.image, pointers_of hin hne] at hblock

theorem content_file (h : Stage files s) (hk : files[k]? = some f) :
    ((List.range f.data.length).map fun j =>
      content (finished s).disk (dinode sb (finished s).disk (k + 2)) (0 + j)) = f.data := by
  have hlt : k < files.length := (List.getElem?_eq_some_iff.mp hk).1
  have hfree := h.freeinode
  have hdata : dataOf files (k + 2) = f.data := by simp [dataOf, hk]
  refine List.ext_getElem? fun j => ?_
  by_cases hj : j < f.data.length
  · have hcontent := content_finished h.image (show 0 < k + 2 by omega) (by omega)
      (show j < (dataOf files (k + 2)).length by rw [hdata]; exact hj)
    rw [hdata] at hcontent
    rw [List.getElem?_map, List.getElem?_range hj, Option.map_some, Nat.zero_add, hcontent]
  · rw [List.getElem?_eq_none (by simp; omega), List.getElem?_eq_none (by omega)]

theorem readi_whole {ip : Dinode} {t : Fs} {l : List UInt8} (hsize : ip.size.toNat = l.length)
    (hmapped : Mapped t.disk ip)
    (hbytes : (List.range l.length).map (fun j => content t.disk ip (0 + j)) = l) :
    readi sb ip 0 ip.size t = .ok ((ip, some l), t) := by
  have hzero : (0 : UInt32).toNat = 0 := rfl
  have href : ¬ Refused ip.size 0 ip.size := by
    have := ip.size.toNat_lt
    unfold Refused
    omega
  rw [readi_mapped hmapped href, hsize, hzero, Nat.sub_zero, Nat.min_self, hbytes]

/-- The inode of a file has its bytes. -/
theorem readi_file (h : Stage files s) (hk : files[k]? = some f) (w : Nat) (al : List Nat) :
    readi sb (dinode sb (finished s).disk (k + 2)) 0 (dinode sb (finished s).disk (k + 2)).size
        ⟨(finished s).disk, w, al⟩ =
      .ok ((dinode sb (finished s).disk (k + 2), some f.data), ⟨(finished s).disk, w, al⟩) := by
  obtain ⟨-, hsize, hmapped⟩ := node_file h hk
  exact readi_whole hsize hmapped (content_file h hk)

end Xv6.Mkfs
