import Xv6.MkfsAppend

/-!
# The image that mkfs makes

What holds of the image between the operations of `main`: with the bitmap to come, the
image is a file system in which every inode owns its blocks and has the bytes that were
appended to it.
-/
namespace Xv6.Mkfs

open Function (update update_self update_of_ne)
open Bytes FsImage BlockMap FileData

variable {s s' : Img} {p : Buf} {data : Nat → List UInt8} {n : Nat} {i j : Nat}

/-- The type of inode `i`: the root directory is the first. -/
def kind (i : Nat) : Int16 := if i = 1 then tDir else tFile

theorem kind_ne_zero (i : Nat) : kind i ≠ 0 := by
  unfold kind
  split <;> decide

/-- The inodes from 1 to `freeinode` are in use, and have the bytes `data`. -/
structure Image (s : Img) (data : Nat → List UInt8) : Prop where
  good : Good s
  owned : Owned sb s.marked (dinode sb s.marked)
  holeFree : HoleFree sb s.marked (dinode sb s.marked)
  inodes : s.freeinode ≤ ninodes
  node : ∀ i, 0 < i → i < s.freeinode → (dinode sb s.disk i).type = kind i ∧
    (dinode sb s.disk i).nlink = 1 ∧ (dinode sb s.disk i).size.toNat = (data i).length
  free : ∀ i, i < ninodes → i = 0 ∨ s.freeinode ≤ i → (dinode sb s.disk i).type = 0
  bytes : ∀ i k, 0 < i → i < s.freeinode → k < (data i).length →
    (data i)[k]? = some (byte sb s.marked (dinode sb s.marked) i k)

theorem byte_table {d : Disk} {T T' : Table} (hT : ∀ i, i < ninodes → T' i = T i) (i k : Nat) :
    byte sb d T' i k = byte sb d T i k := by
  have hP : pointers sb d T' = pointers sb d T :=
    pointers_table fun i hi => by rw [hT i hi]; exact ⟨rfl, Iff.rfl⟩
  rw [byte, fileBlock, hP, byte, fileBlock]

namespace Image

section

variable (h : Image s data) (hi : 0 < i) (hlt : i < s.freeinode)
include h hi hlt

theorem type_ne : (dinode sb s.disk i).type ≠ 0 := by
  rw [(h.node i hi hlt).1]
  exact kind_ne_zero i

/-- The bytes of a file are on the disk. -/
theorem mapped {k : Nat} (hk : k < (data i).length) :
    fileBlock sb s.marked (dinode sb s.marked) i (k / 512) ≠ 0 := by
  have hin : i < ninodes := hlt.trans_le h.inodes
  refine h.holeFree.mapped hin ?_ ?_
  · rw [dinode_marked hin]
    exact h.type_ne hi hlt
  · rw [dinode_marked hin, (h.node i hi hlt).2.2]
    exact hk

/-- Bytes are appended to a file. -/
theorem extend (hext : Extended s i n p s') :
    Image s' (update data i (data i ++ (List.range n).map p)) ∧
      ∀ j, j < ninodes → j ≠ i → dinode sb s'.disk j = dinode sb s.disk j := by
  obtain ⟨w, al, hw⟩ := hext.written
  have hin : i < ninodes := hlt.trans_le h.inodes
  have hsize := (h.node i hi hlt).2.2
  rw [hsize] at hw
  have htable : ∀ j, j < ninodes →
      dinode sb s'.marked j = update (dinode sb s.marked) i (dinode sb s'.disk i) j := by
    intro j hj
    refine (hw.table j hj).trans ?_
    by_cases hji : j = i
    · rw [if_pos hji, hji, update_self]
    · rw [if_neg hji, update_of_ne hji]
      rfl
  have hother : ∀ j, j < ninodes → j ≠ i → dinode sb s'.disk j = dinode sb s.disk j := by
    intro j hj hji
    rw [← dinode_marked hj, htable j hj, update_of_ne hji, dinode_marked hj]
  refine ⟨⟨hext.good, hw.owned.table htable, hw.holeFree.table htable, ?_, ?_, ?_, ?_⟩, hother⟩
  · rw [hext.freeinode]
    exact h.inodes
  · intro j hj hjlt
    rw [hext.freeinode] at hjlt
    have hjn : j < ninodes := hjlt.trans_le h.inodes
    by_cases hji : j = i
    · subst hji
      have hinode := hw.inode
      obtain ⟨htype, hnlink, -⟩ := h.node j hi hlt
      rw [dinode_marked hin] at hinode
      have hnode : (dinode sb s'.disk j).size.toNat = (data j).length + n := by
        rw [hw.size, dinode_marked hin, hsize]
        omega
      rw [update_self, List.length_append, List.length_map, List.length_range]
      refine ⟨?_, ?_, hnode⟩
      · rw [hinode]
        exact htype
      · rw [hinode]
        exact hnlink
    · rw [hother j hjn hji, update_of_ne hji]
      exact h.node j hj hjlt
  · intro j hj hjfree
    rw [hext.freeinode] at hjfree
    have hji : j ≠ i := by omega
    rw [hother j hj hji]
    exact h.free j hj hjfree
  · intro j k hj hjlt hk
    rw [hext.freeinode] at hjlt
    rw [byte_table htable]
    by_cases hji : j = i
    · subst hji
      rw [update_self] at hk ⊢
      by_cases hkl : k < (data j).length
      · have hkept := hw.wrote.kept j k (h.mapped hj hjlt hkl) (by omega)
        rw [List.getElem?_append_left hkl, h.bytes j k hj hjlt hkl]
        exact congrArg some hkept.symm
      · rw [List.length_append, List.length_map, List.length_range] at hk
        have hput := (hw.wrote.put (k - (data j).length) (by omega)).2
        rw [show (data j).length + (k - (data j).length) = k by omega] at hput
        rw [List.getElem?_append_right (by omega), List.getElem?_map,
          List.getElem?_range (by omega), Option.map_some]
        exact congrArg some hput.symm
    · rw [update_of_ne hji] at hk ⊢
      have hkept := hw.wrote.kept j k (h.mapped hj hjlt hk) (fun hand => hji hand.1)
      rw [h.bytes j k hj hjlt hk]
      exact congrArg some hkept.symm

end

/-- The inode that `ialloc` writes. -/
def newNode (i : Nat) : Dinode := { Dinode.zero with type := kind i, nlink := 1 }

/-- The next inode is in use. -/
def allocated (s : Img) : Img :=
  { s.putInode s.freeinode (newNode s.freeinode) with freeinode := s.freeinode + 1 }

theorem ialloc_run (h : Good s) (hlt : s.freeinode < ninodes) :
    ialloc (kind s.freeinode) s = .ok (s.freeinode, allocated s) := by
  have hgood : Good { s with freeinode := s.freeinode + 1 } :=
    ⟨h.nsect, h.low, h.high, h.fresh, h.super⟩
  have hnew : newInode s = .ok (s.freeinode, { s with freeinode := s.freeinode + 1 }) := rfl
  rw [ialloc, bind_of_ok hnew]
  exact bind_of_ok (winode_run hgood hlt _)

theorem ptr_newNode (d : Disk) (i k : Nat) : ptr d (newNode i) k = 0 := by
  unfold ptr
  split
  · rfl
  · exact if_neg fun hand => hand.2 rfl

theorem tight_newNode (d : Disk) (i : Nat) : Tight d (newNode i) 0 :=
  ⟨fun bn => by rw [ptr_newNode]; omega, by rw [ptr_newNode]; omega,
    fun bn hbn => absurd (ptr_newNode ..) hbn⟩

theorem allocated_inode :
    dinode sb (allocated s).disk j = if j = s.freeinode then newNode j else dinode sb s.disk j := by
  refine (dinode_putDinode ..).trans ?_
  split
  next heq => rw [heq]
  next => rfl

/-- An inode is taken; it has no bytes yet. -/
theorem ialloc (h : Image s data) (hpos : 0 < s.freeinode) (hlt : s.freeinode < ninodes) :
    Image (allocated s) (update data s.freeinode []) := by
  have hmarked : (allocated s).marked = putDinode sb s.marked s.freeinode (newNode s.freeinode) :=
    marked_putInode hlt _
  have htable : ∀ j, j < ninodes → dinode sb (allocated s).marked j =
      update (dinode sb s.marked) s.freeinode (newNode s.freeinode) j := by
    intro j hj
    rw [hmarked, dinode_putDinode]
    by_cases hji : j = s.freeinode
    · rw [if_pos hji, hji, update_self]
    · rw [if_neg hji, update_of_ne hji]
  have hP : pointers sb (allocated s).marked (dinode sb (allocated s).marked) =
      pointers sb s.marked (dinode sb s.marked) := by
    have hblank : Blank (dinode sb s.marked s.freeinode) :=
      .inl ((dinode_marked hlt).symm ▸ h.free _ hlt (.inr (Nat.le_refl _)))
    have hnew : Blank (newNode s.freeinode) := .inr rfl
    rw [pointers_table fun i hi => by rw [htable i hi]; exact ⟨rfl, Iff.rfl⟩,
      pointers_update_blank hblank hnew, hmarked, h.owned.pointers_putDinode hlt]
  have hused : ∀ b, used sb (allocated s).marked b = used sb s.marked b := by
    intro b
    rw [hmarked, used_putDinode hlt]
  have hold : ∀ {j}, j < s.freeinode → dinode sb (allocated s).disk j = dinode sb s.disk j := by
    intro j hj
    rw [allocated_inode, if_neg (Nat.ne_of_lt hj)]
  have hsplit : ∀ {j}, j < (allocated s).freeinode → j < s.freeinode ∨ j = s.freeinode :=
    fun hj => Nat.lt_succ_iff_lt_or_eq.mp hj
  refine ⟨?_, ?_, ?_, hlt, ?_, ?_, ?_⟩
  · have := h.good.putInode hlt (newNode s.freeinode)
    exact ⟨this.nsect, this.low, this.high, this.fresh, this.super⟩
  · exact Ownership.Owns.congr h.owned (fun b => by rw [hused]) (congrFun hP)
  · intro j hj ht bn hbn
    rw [htable j hj] at ht hbn
    rw [fileBlock, hP]
    by_cases hji : j = s.freeinode
    · rw [hji, update_self] at hbn
      exact absurd hbn (Nat.not_lt_zero _)
    · rw [update_of_ne hji] at ht hbn
      exact h.holeFree j hj ht bn hbn
  · intro j hj hjlt
    rcases hsplit hjlt with hjlt | rfl
    · rw [hold hjlt, update_of_ne (Nat.ne_of_lt hjlt)]
      exact h.node j hj hjlt
    · rw [allocated_inode, if_pos rfl, update_self]
      exact ⟨rfl, rfl, rfl⟩
  · intro j hj hjfree
    have hjlt : j = 0 ∨ s.freeinode + 1 ≤ j := hjfree
    rw [allocated_inode, if_neg (by omega)]
    exact h.free j hj (by omega)
  · intro j k hj hjlt hk
    rcases hsplit hjlt with hjlt | rfl
    · rw [update_of_ne (Nat.ne_of_lt hjlt)] at hk ⊢
      have hne := h.mapped hj hjlt hk
      have hrange : sb.nmeta ≤ fileBlock sb s.marked (dinode sb s.marked) j (k / 512) :=
        (h.owned.range hne).1
      have hblock := (Superblock.iblock_lt_nmeta hlt : sb.iblock s.freeinode < sb.nmeta)
      have hsame : fileBlock sb (allocated s).marked (dinode sb (allocated s).marked) j (k / 512) =
          fileBlock sb s.marked (dinode sb s.marked) j (k / 512) := congrFun hP _
      rw [h.bytes j k hj hjlt hk, byte, byte, hsame, hmarked, putDinode_of_ne]
      exact Nat.ne_of_gt (Nat.lt_of_lt_of_le hblock hrange)
    · rw [update_self] at hk
      exact absurd hk (Nat.not_lt_zero _)

/-! ## Appending -/

/-- The bytes `l` have been appended to inode `i`. -/
structure Grown (s : Img) (data : Nat → List UInt8) (i : Nat) (l : List UInt8) (s' : Img) :
    Prop where
  image : Image s' (update data i (data i ++ l))
  freeinode : s'.freeinode = s.freeinode
  freeblock : s'.freeblock + blocksOf (data i).length =
    s.freeblock + blocksOf ((data i).length + l.length)
  tight : Tight s'.disk (dinode sb s'.disk i) ((data i).length + l.length)
  others : ∀ j, j < ninodes → j ≠ i → dinode sb s'.disk j = dinode sb s.disk j

theorem Grown.trans {s₁ : Img} {l l' : List UInt8} (h : Grown s data i l s₁)
    (h' : Grown s₁ (update data i (data i ++ l)) i l' s') : Grown s data i (l ++ l') s' := by
  have hdata : update data i (data i ++ l) i = data i ++ l := update_self ..
  have hlen : (data i ++ l).length = (data i).length + l.length := List.length_append
  have hblocks := h.freeblock
  have hblocks' := h'.freeblock
  have htight := h'.tight
  have himage := h'.image
  rw [hdata, hlen, Nat.add_assoc] at hblocks' htight
  rw [hdata, Function.update_idem, List.append_assoc] at himage
  refine ⟨himage, h'.freeinode.trans h.freeinode, ?_, ?_, ?_⟩
  · rw [List.length_append]
    omega
  · rw [List.length_append]
    exact htight
  · exact fun j hj hji => (h'.others j hj hji).trans (h.others j hj hji)

/-- Inode `i` is in use, and has blocks for its bytes only. -/
structure Growing (s : Img) (data : Nat → List UInt8) (i : Nat) : Prop where
  image : Image s data
  pos : 0 < i
  lt : i < s.freeinode
  tight : Tight s.disk (dinode sb s.disk i) (data i).length

theorem append_one (h : Growing s data i) (hn : 0 < n) (hmax : (data i).length + n ≤ 140 * 512)
    (hroom : s.freeblock + blocksOf ((data i).length + n) ≤ fssize + blocksOf (data i).length) :
    ∃ s', iappend i p n s = .ok ((), s') ∧ Grown s data i ((List.range n).map p) s' := by
  obtain ⟨h, hi, hlt, htight⟩ := h
  have hsize := (h.node i hi hlt).2.2
  rw [← hsize] at htight hmax hroom
  obtain ⟨s', hrun, hext⟩ := iappend_spec (p := p) h.good h.owned h.holeFree (hlt.trans_le h.inodes)
    (h.type_ne hi hlt) htight hn hmax hroom
  obtain ⟨himage, hothers⟩ := h.extend hi hlt hext
  have hblocks := hext.freeblock
  have htight' := hext.tight
  rw [hsize] at hblocks htight'
  refine ⟨s', hrun, himage, hext.freeinode, ?_, ?_, hothers⟩
  · rw [List.length_map, List.length_range]
    exact hblocks
  · rw [List.length_map, List.length_range]
    exact htight'

theorem append_fails (h : Growing s data i) (hsize : (data i).length ≤ 140 * 512)
    (hmax : 140 * 512 < (data i).length + n)
    (hroom : s.freeblock + blocksOf ((data i).length + n) ≤ fssize + blocksOf (data i).length) :
    iappend i p n s = .error "fbn < MAXFILE" := by
  obtain ⟨h, hi, hlt, htight⟩ := h
  rw [← (h.node i hi hlt).2.2] at htight hsize hmax hroom
  exact iappend_fails h.good h.owned (hlt.trans_le h.inodes)
    (h.type_ne hi hlt) htight hsize hmax hroom

theorem ofList_range (c : List UInt8) : (List.range c.length).map (ofList c) = c := by
  refine List.ext_getElem (by simp) fun k hk hk' => ?_
  rw [List.getElem_map, List.getElem_range, ofList, List.getD_eq_getElem?_getD,
    List.getElem?_eq_getElem hk', Option.getD_some]

/-- One turn of the loop over the pieces of a file. -/
theorem append_chunk {c : List UInt8} (cs : List (List UInt8)) (h : Growing s data i)
    (hc : 0 < c.length) (hmax : (data i).length + c.length ≤ 140 * 512)
    (hroom : s.freeblock + blocksOf ((data i).length + c.length) ≤
      fssize + blocksOf (data i).length) :
    ∃ s₁, (c :: cs).forM (fun c => iappend i (ofList c) c.length) s =
        cs.forM (fun c => iappend i (ofList c) c.length) s₁ ∧ Grown s data i c s₁ ∧
      (update data i (data i ++ c) i).length = (data i).length + c.length ∧
      Growing s₁ (update data i (data i ++ c)) i := by
  obtain ⟨s₁, hrun, hgrown⟩ := append_one (p := ofList c) h hc hmax hroom
  rw [ofList_range] at hgrown
  have hdata : (update data i (data i ++ c) i).length = (data i).length + c.length := by
    rw [update_self, List.length_append]
  exact ⟨s₁, forM_of_ok (g := fun c => iappend i (ofList c) c.length) hrun, hgrown, hdata,
    hgrown.image, h.pos, hgrown.freeinode.symm ▸ h.lt, hdata.symm ▸ hgrown.tight⟩

/-- The loop over the pieces of a file. -/
theorem append_chunks {cs : List (List UInt8)} (h : Growing s data i)
    (hreads : ∀ c ∈ cs, 0 < c.length) (hmax : (data i).length + cs.flatten.length ≤ 140 * 512)
    (hroom : s.freeblock + blocksOf ((data i).length + cs.flatten.length) ≤
      fssize + blocksOf (data i).length) :
    ∃ s', cs.forM (fun c => iappend i (ofList c) c.length) s = .ok ((), s') ∧
      Grown s data i cs.flatten s' := by
  induction cs generalizing s data with
  | nil =>
    refine ⟨s, rfl, ?_, rfl, rfl, h.tight, fun _ _ _ => rfl⟩
    rw [List.flatten_nil, List.append_nil, Function.update_eq_self]
    exact h.image
  | cons c cs ih =>
    rw [List.flatten_cons, List.length_append] at hmax hroom
    have hone : blocksOf ((data i).length + c.length) ≤
        blocksOf ((data i).length + (c.length + cs.flatten.length)) := blocksOf_mono (by omega)
    obtain ⟨s₁, hrun, hgrown, hdata, hnext⟩ :=
      append_chunk cs h (hreads c List.mem_cons_self) (by omega) (by omega)
    have hblocks := hgrown.freeblock
    obtain ⟨s', hrest, hgrown'⟩ := ih hnext (fun c hc => hreads c (List.mem_cons_of_mem _ hc))
      (by rw [hdata]; omega) (by rw [hdata, Nat.add_assoc]; omega)
    exact ⟨s', hrun.trans hrest, List.flatten_cons ▸ hgrown.trans hgrown'⟩

theorem chunks_fail {cs : List (List UInt8)} (h : Growing s data i)
    (hreads : ∀ c ∈ cs, 0 < c.length) (hsize : (data i).length ≤ 140 * 512)
    (hmax : 140 * 512 < (data i).length + cs.flatten.length)
    (hroom : s.freeblock + blocksOf ((data i).length + cs.flatten.length) ≤
      fssize + blocksOf (data i).length) :
    cs.forM (fun c => iappend i (ofList c) c.length) s = .error "fbn < MAXFILE" := by
  induction cs generalizing s data with
  | nil =>
    rw [List.flatten_nil, List.length_nil] at hmax
    omega
  | cons c cs ih =>
    rw [List.flatten_cons, List.length_append] at hmax hroom
    have hone : blocksOf ((data i).length + c.length) ≤
        blocksOf ((data i).length + (c.length + cs.flatten.length)) := blocksOf_mono (by omega)
    by_cases hover : 140 * 512 < (data i).length + c.length
    · exact forM_of_error (g := fun c => iappend i (ofList c) c.length)
        (append_fails h hsize hover (by omega))
    · obtain ⟨s₁, hrun, hgrown, hdata, hnext⟩ := append_chunk cs h (hreads c List.mem_cons_self)
        (Nat.not_lt.mp hover) (by omega)
      have hblocks := hgrown.freeblock
      rw [hrun]
      exact ih hnext (fun c hc => hreads c (List.mem_cons_of_mem _ hc))
        (by rw [hdata]; omega) (by rw [hdata]; omega) (by rw [hdata, Nat.add_assoc]; omega)

end Image

end Xv6.Mkfs
