import Xv6.Directory

/-!
# Writing an entry of a directory

What a `writei` of 16 bytes at an entry of a directory, or right after its last one, leaves:
the entry has changed, and the other entries and the other files have not.
-/
namespace Xv6.DirentWrite

open Function (update update_self update_of_ne)
open Bytes FsImage BlockMap Directory FileData

/-- Entry `k` of the directory with inode `i` has become `de`. -/
structure Entered (sb : Superblock) (s s' : Fs) (i : Nat) (k : Nat) (de : Dirent) : Prop where
  owned : Owned sb s'.disk (dinode sb s'.disk)
  other : ∀ j, j < sb.ninodes → j ≠ i → dinode sb s'.disk j = dinode sb s.disk j
  nums : SameNums (dinode sb s.disk i) (dinode sb s'.disk i)
  size : (dinode sb s'.disk i).size.toNat = max (dinode sb s.disk i).size.toNat (16 * k + 16)
  mapped : Mapped s'.disk (dinode sb s'.disk i)
  entry : ∀ m, 16 * m + 16 ≤ (dinode sb s'.disk i).size.toNat →
    direntAt s'.disk (dinode sb s'.disk i) (16 * m) =
    if m = k then de else direntAt s.disk (dinode sb s.disk i) (16 * m)
  keptMapped : ∀ j, j < sb.ninodes → j ≠ i → (dinode sb s.disk j).type ≠ 0 →
    Mapped s.disk (dinode sb s.disk j) →
    Mapped s'.disk (dinode sb s.disk j)
  keptContent : ∀ j, j < sb.ninodes → j ≠ i → (dinode sb s.disk j).type ≠ 0 →
    Mapped s.disk (dinode sb s.disk j) →
    ∀ l, l < (dinode sb s.disk j).size.toNat →
      content s'.disk (dinode sb s.disk j) l = content s.disk (dinode sb s.disk j) l

variable {sb : Superblock} {s s' : Fs} {T : Table} {i k : Nat} {src : Buf}
  {ip' : Dinode} {r : Option UInt32}

/-- The pointers of another file that are there stay. -/
theorem ptr_written {n off : Nat} {j bn : Nat} (hw : WrittenFile sb s T s' ip' i off n src)
    (hj : j < sb.ninodes) (hji : j ≠ i) (ht : (T j).type ≠ 0)
    (hne : ptr s.disk (T j) (slot bn) ≠ 0) :
    ptr s'.disk (T j) (slot bn) = ptr s.disk (T j) (slot bn) := by
  have hkeep := hw.wrote.block j bn (by rwa [fileBlock, pointers_of hj ht])
  rwa [fileBlock, fileBlock, pointers_update_ne hji, pointers_of hj ht, pointers_of hj ht] at hkeep

/-- An entry is written. -/
theorem entered_writei (howned : Owned sb s.disk (dinode sb s.disk)) (hi : i < sb.ninodes)
    (htype : (dinode sb s.disk i).type ≠ 0) (hmapped : Mapped s.disk (dinode sb s.disk i))
    (haligned : (dinode sb s.disk i).size.toNat % 16 = 0)
    (hk : 16 * k ≤ (dinode sb s.disk i).size.toNat) (hmax : 16 * k + 16 ≤ 140 * 512)
    (hrun : writei sb i (dinode sb s.disk i) src (UInt32.ofNat (16 * k)) 16 s =
      .ok ((ip', r), s')) :
    r = some 16 ∧ dinode sb s'.disk i = ip' ∧
      Entered sb s s' i k (.ofBytes ((List.range 16).map src)) := by
  have hoff : (UInt32.ofNat (16 * k)).toNat = 16 * k :=
    UInt32.toNat_ofNat_of_lt' (show 16 * k < 2 ^ 32 by omega)
  have h16 : (16 : UInt32).toNat = 16 := rfl
  have hspec := writei_file howned hmapped hi htype rfl hrun
  rw [if_neg (by unfold Refused; omega), hoff, h16] at hspec
  obtain ⟨hr, hw⟩ := hspec
  have hsize := hw.size
  have hself : dinode sb s'.disk i = ip' := by rw [hw.table i hi, if_pos rfl]
  have hlive : ip'.type ≠ 0 := by rw [hw.inode]; exact htype
  -- the bytes of the directory after the write
  have hnew : ∀ j, content s'.disk ip' j =
      byte sb s'.disk (update (dinode sb s.disk) i ip') i j := by
    intro j
    have :=
      content_of (d := s'.disk) (T := update (dinode sb s.disk) i ip') hi (by rwa [update_self]) j
    rwa [update_self] at this
  have hpresent : ∀ j, j < (dinode sb s.disk i).size.toNat →
      fileBlock sb s.disk (dinode sb s.disk) i (j / 512) ≠ 0 := by
    intro j hj
    rw [fileBlock, pointers_of hi htype]
    exact hmapped _ (by omega)
  refine ⟨hr, hself, ?_, fun j hj hne => ?_, ?_, ?_, ?_, ?_, ?_, ?_⟩
  · refine hw.owned.table fun j hj => ?_
    rw [hw.table j hj]
    split
    case isTrue heq => rw [heq, update_self]
    case isFalse hne => rw [update_of_ne hne]
  · rw [hw.table j hj, if_neg hne]
  · rw [hself, hw.inode]
    exact ⟨rfl, rfl, rfl, rfl⟩
  · rw [hself, hsize]
  · rw [hself]
    intro bn hbn
    have hblock : fileBlock sb s'.disk (update (dinode sb s.disk) i ip') i bn ≠ 0 := by
      by_cases hin : bn * 512 < (dinode sb s.disk i).size.toNat
      · have hthere := hpresent (bn * 512) hin
        rw [Nat.mul_div_cancel _ (by decide)] at hthere
        rwa [hw.wrote.block _ _ hthere]
      · have hput := (hw.wrote.put (bn * 512 - 16 * k) (by omega)).1
        rwa [show (16 * k + (bn * 512 - 16 * k)) / 512 = bn by omega] at hput
    rwa [fileBlock_of hi hlive] at hblock
  · rw [hself]
    intro j hj
    split
    case isTrue heq =>
      subst heq
      refine congrArg Dirent.ofBytes (List.map_congr_left fun l hl => ?_)
      rw [hnew]
      exact (hw.wrote.put l (List.mem_range.mp hl)).2
    case isFalse hne =>
      refine congrArg Dirent.ofBytes (List.map_congr_left fun l hl => ?_)
      have hl := List.mem_range.mp hl
      rw [hnew, content_of hi htype]
      exact hw.wrote.kept i (16 * j + l) (hpresent _ (by omega)) fun hand => by omega
  · intro j hj hne ht hm bn hbn
    rw [ptr_written hw hj hne ht (hm bn hbn)]
    exact hm bn hbn
  · intro j hj hne ht hm l hl
    have hthere : ptr s.disk (dinode sb s.disk j) (slot (l / 512)) ≠ 0 := hm _ (by omega)
    have hbyte := hw.wrote.kept j l (by rwa [fileBlock, pointers_of hj ht]) fun hand => hne hand.1
    rw [byte, byte, fileBlock, fileBlock, pointers_update_ne hne, pointers_of hj ht,
      pointers_of hj ht] at hbyte
    exact hbyte

end Xv6.DirentWrite
