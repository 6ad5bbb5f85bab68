import Xv6.FsImage
import Xv6.Ownership

/-!
# The block map of an inode

`bmap` of fs.c, and block ownership. An inode has 141 pointers: twelve
direct ones, the indirect block, and the entries of that. `Owned` says that the bitmap
is exact for the pointers of all allocated inodes; the inodes are given as a table, since
an inode that is being changed differs from its copy on disk.
-/
namespace Xv6.BlockMap

open Function (update update_self update_of_ne)
open Bytes FsImage Ownership

variable (sb : Superblock)

def withAddrs (ip : Dinode) (addrs : Fin 13 → UInt32) : Dinode := { ip with addrs }

def setAddr (ip : Dinode) (k : Fin 13) (b : Nat) : Dinode :=
  withAddrs ip (update ip.addrs k (UInt32.ofNat b))

namespace Code

open FsImage.Code

variable {m : Type → Type} [Machine m]

/-- `if((addr = ip->addrs[k]) == 0) ip->addrs[k] = addr = balloc(ip->dev);` -/
def addrAlloc (ip : Dinode) (k : Fin 13) : m (Dinode × Nat) :=
  if ip.addrs k = 0 then do
    let addr ← balloc sb
    pure (setAddr ip k addr, addr)
  else pure (ip, (ip.addrs k).toNat)

/-- `if((addr = a[j]) == 0){ a[j] = addr = balloc(ip->dev); log_write(bp); }` -/
def entryAlloc (addr j : Nat) : m Nat := do
  let bp ← bread addr
  if getLE bp (4 * j) 4 = 0 then do
    let a ← balloc sb
    -- the entry is put into the buffer as it is after `balloc`
    let bp ← bread addr
    logWrite addr (putLE bp (4 * j) 4 a)
    pure a
  else pure (getLE bp (4 * j) 4)

def bmap (ip : Dinode) (bn : Nat) : m (Dinode × Nat) :=
  if h : bn < 12 then addrAlloc sb ip ⟨bn, lt_ndirect h⟩
  else if bn - 12 < 128 then do
    let (ip, addr) ← addrAlloc sb ip 12
    let a ← entryAlloc sb addr (bn - 12)
    pure (ip, a)
  else kpanic "bmap: out of range"

end Code

abbrev addrAlloc (ip : Dinode) (k : Fin 13) : FsM (Dinode × Nat) := Code.addrAlloc sb ip k

abbrev entryAlloc (addr j : Nat) : FsM Nat := Code.entryAlloc sb addr j

abbrev bmap (ip : Dinode) (bn : Nat) : FsM (Dinode × Nat) := Code.bmap sb ip bn

/-- Two versions of an inode that differ in size and block addresses only. -/
structure SameNums (ip ip' : Dinode) : Prop where
  type : ip'.type = ip.type
  major : ip'.major = ip.major
  minor : ip'.minor = ip.minor
  nlink : ip'.nlink = ip.nlink

namespace SameNums

variable {ip ip' ip'' : Dinode}

theorem rfl : SameNums ip ip := ⟨.refl _, .refl _, .refl _, .refl _⟩

theorem trans (h : SameNums ip ip') (h' : SameNums ip' ip'') : SameNums ip ip'' :=
  ⟨h'.type.trans h.type, h'.major.trans h.major, h'.minor.trans h.minor, h'.nlink.trans h.nlink⟩

end SameNums

section Nums

variable {sb} {ip ip' : Dinode} {k : Fin 13} {bn a : Nat} {s s' : Fs}

theorem addrAlloc_nums (h : addrAlloc sb ip k s = .ok ((ip', a), s')) : SameNums ip ip' := by
  unfold addrAlloc Code.addrAlloc at h
  split at h
  next =>
    obtain ⟨b, s₁, -, h⟩ := bind_ok h
    cases h
    exact ⟨rfl, rfl, rfl, rfl⟩
  next =>
    cases h
    exact .rfl

theorem bmap_nums (h : bmap sb ip bn s = .ok ((ip', a), s')) : SameNums ip ip' := by
  unfold bmap Code.bmap at h
  split at h
  next => exact addrAlloc_nums h
  next =>
    split at h
    next =>
      obtain ⟨⟨ip₁, addr⟩, s₁, h₁, h⟩ := bind_ok h
      obtain ⟨b, s₂, -, h⟩ := bind_ok h
      cases h
      exact addrAlloc_nums h₁
    next => cases h

end Nums

/-! ## Ownership -/

/-- Pointer `k` of an inode. -/
def ptr (d : Disk) (n : Dinode) (k : Nat) : Nat :=
  if h : k < 13 then (n.addrs ⟨k, h⟩).toNat
  else if k < 141 ∧ n.addrs 12 ≠ 0 then getLE (d (n.addrs 12).toNat) (4 * (k - 13)) 4
  else 0

abbrev Table := Nat → Dinode

/-- The pointers of all allocated inodes. -/
def pointers (d : Disk) (T : Table) (p : Nat × Nat) : Nat :=
  if p.1 < sb.ninodes ∧ (T p.1).type ≠ 0 then ptr d (T p.1) p.2 else 0

/-- The blocks marked used in the bitmap are the metadata blocks and, each of them once,
the blocks of the allocated inodes. -/
def Owned (d : Disk) (T : Table) : Prop :=
  Owns (· < sb.nmeta) (fun b => b < sb.size ∧ used sb d b = true) (pointers sb d T)

/-- The pointer to block `bn` of a file. -/
def slot (bn : Nat) : Nat := if bn < 12 then bn else bn + 1

/-- The disk block that holds block `bn` of file `i`, or zero. -/
def fileBlock (d : Disk) (T : Table) (i bn : Nat) : Nat := pointers sb d T (i, slot bn)

/-- Byte `j` of file `i`. -/
def byte (d : Disk) (T : Table) (i j : Nat) : UInt8 := d (fileBlock sb d T i (j / 512)) (j % 512)

/-- Every block of a file is there. -/
def Mapped (d : Disk) (ip : Dinode) : Prop :=
  ∀ bn, bn * 512 < ip.size.toNat → ptr d ip (slot bn) ≠ 0

/-- Byte `j` of a file. -/
def content (d : Disk) (ip : Dinode) (j : Nat) : UInt8 := d (ptr d ip (slot (j / 512))) (j % 512)

/-- Every block of every file is there. -/
def HoleFree (d : Disk) (T : Table) : Prop :=
  ∀ i, i < sb.ninodes → (T i).type ≠ 0 →
    ∀ bn, bn * 512 < (T i).size.toNat → fileBlock sb d T i bn ≠ 0

/-- What happened between two states is that bytes `off` to `off + n` of file `i` became
`src`, and that blocks were added to files. -/
structure Wrote (s : Fs) (T : Table) (s' : Fs) (T' : Table) (i off n : Nat) (src : Buf) : Prop where
  block : ∀ j bn, fileBlock sb s.disk T j bn ≠ 0 →
    fileBlock sb s'.disk T' j bn = fileBlock sb s.disk T j bn
  kept : ∀ j k, fileBlock sb s.disk T j (k / 512) ≠ 0 → ¬ (j = i ∧ off ≤ k ∧ k < off + n) →
    byte sb s'.disk T' j k = byte sb s.disk T j k
  put : ∀ k, k < n → fileBlock sb s'.disk T' i ((off + k) / 512) ≠ 0 ∧
    byte sb s'.disk T' i (off + k) = src k
  marked : ∀ b, b < sb.size → used sb s.disk b = true → used sb s'.disk b = true
  fresh : ∃ new, s'.allocs = new ++ s.allocs ∧ new.Nodup ∧
    ∀ b ∈ new, b < sb.size ∧ used sb s.disk b = false ∧ used sb s'.disk b = true

/-- The same, and no inode has been written to the disk. -/
structure Filled (s : Fs) (T : Table) (s' : Fs) (T' : Table) (i off n : Nat) (src : Buf) : Prop
    extends Wrote sb s T s' T' i off n src where
  inodes : ∀ j, j < sb.ninodes → dinode sb s'.disk j = dinode sb s.disk j

variable {sb} {d d' : Disk} {s s' t : Fs} {T T' T'' : Table} {i j k b c bn off m n : Nat}
  {src : Buf} {ip ip' : Dinode}

theorem HoleFree.mapped (h : HoleFree sb d T) (hi : i < sb.ninodes) (ht : (T i).type ≠ 0)
    (hj : j < (T i).size.toNat) : fileBlock sb d T i (j / 512) ≠ 0 := h i hi ht _ (by omega)

namespace Wrote

/-- Two writes, one behind the other. -/
theorem trans (h : Wrote sb s T s' T' i off m src)
    (h' : Wrote sb s' T' t T'' i (off + m) n fun k => src (m + k)) :
    Wrote sb s T t T'' i off (m + n) src where
  block j bn hb := by
    rw [h'.block j bn (by rwa [h.block j bn hb]), h.block j bn hb]
  kept j k hb hk := by
    rw [h'.kept j k (by rwa [h.block _ _ hb]) (by omega), h.kept j k hb (by omega)]
  put k hk := by
    by_cases hkm : k < m
    · obtain ⟨hb, hv⟩ := h.put k hkm
      rw [h'.block _ _ hb, h'.kept _ _ hb (by omega)]
      exact ⟨hb, hv⟩
    · obtain ⟨hb, hv⟩ := h'.put (k - m) (by omega)
      rw [show off + m + (k - m) = off + k by omega] at hb hv
      rw [show m + (k - m) = k by omega] at hv
      exact ⟨hb, hv⟩
  marked b hb hu := h'.marked b hb (h.marked b hb hu)
  fresh := by
    obtain ⟨new, hnew, hnodup, hfree⟩ := h.fresh
    obtain ⟨new', hnew', hnodup', hfree'⟩ := h'.fresh
    refine ⟨new' ++ new, by rw [hnew', hnew, List.append_assoc], ?_, ?_⟩
    · refine List.nodup_append.mpr ⟨hnodup', hnodup, ?_⟩
      rintro b hb _ hb' rfl
      exact Bool.noConfusion ((hfree b hb').2.2.symm.trans (hfree' b hb).2.1)
    · intro b hb
      rcases List.mem_append.mp hb with hb | hb
      · obtain ⟨hsize, hunused, hused⟩ := hfree' b hb
        refine ⟨hsize, ?_, hused⟩
        by_contra hu
        have := h.marked b hsize (Bool.not_eq_false _ ▸ hu)
        exact Bool.noConfusion (this.symm.trans hunused)
      · obtain ⟨hsize, hunused, hused⟩ := hfree b hb
        exact ⟨hsize, hunused, h'.marked b hsize hused⟩

end Wrote

namespace Filled

theorem refl (s : Fs) (T : Table) (i off : Nat) (src : Buf) : Filled sb s T s T i off 0 src where
  block _ _ _ := rfl
  kept _ _ _ _ := rfl
  put _ hk := absurd hk (Nat.not_lt_zero _)
  marked _ _ h := h
  fresh := ⟨[], rfl, List.nodup_nil, fun _ h => absurd h List.not_mem_nil⟩
  inodes _ _ := rfl

theorem trans (h : Filled sb s T s' T' i off m src)
    (h' : Filled sb s' T' t T'' i (off + m) n fun k => src (m + k)) :
    Filled sb s T t T'' i off (m + n) src :=
  ⟨h.toWrote.trans h'.toWrote, fun j hj => (h'.inodes j hj).trans (h.inodes j hj)⟩

end Filled

theorem slot_ne (bn : Nat) : slot bn ≠ 12 := by
  unfold slot
  split <;> omega

theorem slot_inj (h : slot m = slot n) : m = n := by
  unfold slot at h
  split at h <;> split at h <;> omega

theorem ptr_congr
    (h : n < 13 ∨ (ip.addrs 12 ≠ 0 → d' (ip.addrs 12).toNat = d (ip.addrs 12).toNat)) :
    ptr d' ip n = ptr d ip n := by
  unfold ptr
  split
  next => rfl
  next hn =>
    split
    next hk => rw [h.resolve_left hn hk.2]
    next => rfl

theorem pointers_congr
    (h : ∀ i, i < sb.ninodes → (T i).type ≠ 0 → (T i).addrs 12 ≠ 0 →
      d' ((T i).addrs 12).toNat = d ((T i).addrs 12).toNat) :
    pointers sb d' T = pointers sb d T := by
  funext p
  unfold pointers
  split
  next hp => exact ptr_congr (.inr (h p.1 hp.1 hp.2))
  next => rfl

theorem pointers_of (hi : i < sb.ninodes) (ht : (T i).type ≠ 0) :
    pointers sb d T (i, k) = ptr d (T i) k := if_pos ⟨hi, ht⟩

theorem pointers_update_ne (h : j ≠ i) :
    pointers sb d (update T i ip) (j, k) = pointers sb d T (j, k) := by
  unfold pointers
  rw [update_of_ne h]

/-- The pointers depend only on which inodes are allocated, and on their addresses. -/
theorem pointers_table
    (hT : ∀ i, i < sb.ninodes → (T' i).addrs = (T i).addrs ∧ ((T' i).type = 0 ↔ (T i).type = 0)) :
    pointers sb d T' = pointers sb d T := by
  funext ⟨i, k⟩
  unfold pointers
  by_cases hi : i < sb.ninodes
  · obtain ⟨haddrs, htype⟩ := hT i hi
    simp only [hi, true_and, ne_eq, htype]
    unfold ptr
    rw [haddrs]
  · rw [if_neg fun hand => hi hand.1, if_neg fun hand => hi hand.1]

/-- The inode is free, or has no block. -/
def Blank (n : Dinode) : Prop := n.type = 0 ∨ n.addrs = fun _ => 0

theorem pointers_blank (h : Blank (T i)) : pointers sb d T (i, k) = 0 := by
  unfold pointers
  split
  next ht =>
    have haddrs := h.resolve_left ht.2
    unfold ptr
    rw [haddrs]
    split
    next => rfl
    next => rw [if_neg fun hand => hand.2 rfl]
  next => rfl

theorem pointers_update_blank (h : Blank (T i)) (hip : Blank ip) :
    pointers sb d (update T i ip) = pointers sb d T := by
  funext ⟨j, k⟩
  by_cases hj : j = i
  · subst hj
    rw [pointers_blank h, pointers_blank (by rwa [update_self])]
  · exact pointers_update_ne hj

theorem ptr_addr (k : Fin 13) : ptr d ip k = (ip.addrs k).toNat := dif_pos k.isLt

theorem toNat_ne_zero {x : UInt32} (h : x ≠ 0) : x.toNat ≠ 0 := fun h0 =>
  h (UInt32.toNat_inj.mp h0)

theorem pointers_indirect (hi : i < sb.ninodes) (ht : (T i).type ≠ 0) (ha : (T i).addrs 12 ≠ 0) :
    pointers sb d T (i, 12) = ((T i).addrs 12).toNat ∧ pointers sb d T (i, 12) ≠ 0 := by
  have heq : pointers sb d T (i, 12) = ((T i).addrs 12).toNat :=
    (pointers_of hi ht).trans (ptr_addr 12)
  exact ⟨heq, heq ▸ toNat_ne_zero ha⟩

namespace Owned

variable {p : Nat × Nat}

theorem range (h : Owned sb d T) (hp : pointers sb d T p ≠ 0) :
    sb.nmeta ≤ pointers sb d T p ∧ pointers sb d T p < sb.size :=
  ⟨Nat.le_of_not_lt (h.free p hp), (h.used_of hp).1⟩

theorem nmeta_le (h : Owned sb d T) (hu : used sb d b = false) : sb.nmeta ≤ b :=
  Nat.le_of_not_lt (h.not_reserved fun hused => Bool.noConfusion (hused.2.symm.trans hu))

/-- A block in use is not a block that `balloc` may hand out. -/
theorem ne_of_unused (h : Owned sb d T) (hu : used sb d b = false) (hp : pointers sb d T p ≠ 0) :
    pointers sb d T p ≠ b :=
  Owns.ne_of_unused h (fun hused => Bool.noConfusion (hused.2.symm.trans hu)) hp

/-- A free block goes to a pointer that had none. -/
theorem grow (h : Owned sb s.disk T) (hb : b < sb.size) (hu : used sb s.disk b = false)
    (hp : pointers sb s.disk T p = 0) (hP : pointers sb d' T' = update (pointers sb s.disk T) p b)
    (hused : ∀ c, c < sb.size → used sb d' c = (used sb s.disk c || decide (b = c)))
    (hdata : ∀ c, sb.nmeta ≤ c → c ≠ b → (∀ j, pointers sb s.disk T (j, 12) ≠ c) →
      d' c = s.disk c)
    (hinodes : ∀ j, j < sb.ninodes → dinode sb d' j = dinode sb s.disk j) (w i off : Nat)
    (src : Buf) :
    Owned sb d' T' ∧ Filled sb s T ⟨d', w, b :: s.allocs⟩ T' i off 0 src := by
  have hb0 : b ≠ 0 := by
    have := h.nmeta_le hu
    have := sb.nmeta_pos
    omega
  have hblock : ∀ j bn, fileBlock sb s.disk T j bn ≠ 0 →
      fileBlock sb d' T' j bn = fileBlock sb s.disk T j bn := by
    intro j bn hne
    rw [fileBlock, hP, update_of_ne (fun heq => hne (by rw [fileBlock, heq, hp])), fileBlock]
  refine ⟨?_, ⟨hblock, ?_, ?_, ?_, ?_⟩, hinodes⟩
  · rw [Owned, hP]
    refine Owns.take h hp (fun hused => Bool.noConfusion (hused.2.symm.trans hu)) hb0 ?_
    intro c
    by_cases hc : c < sb.size
    · simp only [hused c hc, hc, true_and, Bool.or_eq_true, decide_eq_true_eq, @eq_comm _ b c]
    · simp only [hc, false_and, false_or, false_iff]
      exact fun heq => hc (heq ▸ hb)
  · intro j k hne _
    have hkeep : d' (fileBlock sb s.disk T j (k / 512)) =
        s.disk (fileBlock sb s.disk T j (k / 512)) := by
      apply hdata _ (h.range hne).1 (h.ne_of_unused hu hne)
      intro l heq
      have hkey := h.inj _ _ hne heq.symm
      exact slot_ne (k / 512) (congrArg Prod.snd hkey)
    change byte sb d' T' j k = byte sb s.disk T j k
    rw [byte, hblock j _ hne, hkeep, byte]
  · exact fun k hk => absurd hk (Nat.not_lt_zero _)
  · intro c hc hcu
    rw [hused c hc, hcu, Bool.true_or]
  · refine ⟨[b], rfl, List.nodup_singleton b, ?_⟩
    intro c hc
    obtain rfl := List.mem_singleton.mp hc
    exact ⟨hb, hu, by rw [hused c hb, decide_eq_true rfl, Bool.or_true]⟩

/-- Writing an inode to the disk moves no pointer and no data. -/
theorem pointers_putDinode (h : Owned sb d T) (hj : j < sb.ninodes) (n : Dinode) :
    pointers sb (putDinode sb d j n) T = pointers sb d T := by
  refine pointers_congr fun i hi ht ha => putDinode_of_ne ?_
  obtain ⟨hind, hne⟩ := pointers_indirect (d := d) hi ht ha
  have hmeta := (h.range hne).1
  have := Superblock.iblock_lt_nmeta hj
  omega

theorem putDinode (h : Owned sb d T) (hj : j < sb.ninodes) (n : Dinode) :
    Owned sb (putDinode sb d j n) T :=
  Owns.congr h (fun b => by rw [used_putDinode hj]) (congrFun (h.pointers_putDinode hj n))

theorem congr_table (h : Owned sb d T)
    (hT : ∀ i, i < sb.ninodes → (T' i).addrs = (T i).addrs ∧ ((T' i).type = 0 ↔ (T i).type = 0)) :
    Owned sb d T' :=
  Owns.congr h (fun _ => Iff.rfl) (congrFun (pointers_table hT))

theorem table (h : Owned sb d T) (hT : ∀ i, i < sb.ninodes → T' i = T i) : Owned sb d T' :=
  h.congr_table fun i hi => by rw [hT i hi]; exact ⟨rfl, Iff.rfl⟩

end Owned

theorem HoleFree.table (h : HoleFree sb d T) (hT : ∀ i, i < sb.ninodes → T' i = T i) :
    HoleFree sb d T' := by
  have hP : pointers sb d T' = pointers sb d T :=
    pointers_table fun i hi => by rw [hT i hi]; exact ⟨rfl, Iff.rfl⟩
  intro i hi ht bn hbn
  rw [hT i hi] at ht hbn
  rw [fileBlock, hP]
  exact h i hi ht bn hbn

theorem HoleFree.of_blocks {d' : Disk} (h : HoleFree sb d T)
    (hb : ∀ i bn, i < sb.ninodes → (T' i).type ≠ 0 → bn * 512 < (T' i).size.toNat →
      (T i).type ≠ 0 ∧ bn * 512 < (T i).size.toNat ∧
      fileBlock sb d' T' i bn = fileBlock sb d T i bn) : HoleFree sb d' T' := by
  intro i hi ht bn hbn
  obtain ⟨ht', hbn', heq⟩ := hb i bn hi ht hbn
  rw [heq]
  exact h i hi ht' bn hbn'

/-- After a write the inode may be written to the disk, with the same addresses. -/
theorem Wrote.putDinode (h : Wrote sb s T s' T' i off n src) (howned : Owned sb s'.disk T')
    (hj : j < sb.ninodes) (ip : Dinode) (w : Nat)
    (hT : ∀ i, i < sb.ninodes →
      (T'' i).addrs = (T' i).addrs ∧ ((T'' i).type = 0 ↔ (T' i).type = 0)) :
    Wrote sb s T ⟨putDinode sb s'.disk j ip, w, s'.allocs⟩ T'' i off n src := by
  have hblock : ∀ l bn, fileBlock sb (FsImage.putDinode sb s'.disk j ip) T'' l bn =
      fileBlock sb s'.disk T' l bn := fun l bn =>
    congrFun ((pointers_table hT).trans (howned.pointers_putDinode hj ip)) _
  have hbyte : ∀ l k, fileBlock sb s'.disk T' l (k / 512) ≠ 0 →
      byte sb (FsImage.putDinode sb s'.disk j ip) T'' l k = byte sb s'.disk T' l k := by
    intro l k hne
    have hmeta : sb.nmeta ≤ fileBlock sb s'.disk T' l (k / 512) := (howned.range hne).1
    have := Superblock.iblock_lt_nmeta hj
    rw [byte, hblock, putDinode_of_ne (by omega), byte]
  refine ⟨fun l bn hne => (hblock l bn).trans (h.block l bn hne), ?_, ?_, ?_, ?_⟩
  · intro l k hne hk
    exact (hbyte l k (by rwa [h.block l _ hne])).trans (h.kept l k hne hk)
  · intro k hk
    obtain ⟨hb, hv⟩ := h.put k hk
    exact ⟨by rwa [hblock], (hbyte i _ hb).trans hv⟩
  · exact fun b hb hu => (used_putDinode hj).trans (h.marked b hb hu)
  · obtain ⟨new, hnew, hnodup, hfree⟩ := h.fresh
    refine ⟨new, hnew, hnodup, fun b hb => ?_⟩
    obtain ⟨hsize, hunused, hused⟩ := hfree b hb
    exact ⟨hsize, hunused, (used_putDinode hj).trans hused⟩

/-! ## Growing a file -/

theorem setAddr_self (ip : Dinode) (k : Fin 13) (b : Nat) :
    (setAddr ip k b).addrs k = UInt32.ofNat b := update_self ..

theorem setAddr_of_ne {k l : Fin 13} (h : l ≠ k) : (setAddr ip k b).addrs l = ip.addrs l :=
  update_of_ne h ..

theorem toNat_setAddr (hb : b < sb.size) (ip : Dinode) (k : Fin 13) :
    ((setAddr ip k b).addrs k).toNat = b := by
  have := sb.int_blocks
  rw [setAddr_self, UInt32.toNat_ofNat_of_lt' (by simp only [UInt32.size]; omega)]

/-- The pointers after `addrs[k]` has been set: an indirect block is set only where there
was none, to an empty block. -/
theorem pointers_setAddr (hi : i < sb.ninodes) (ht : (T i).type ≠ 0) (k : Fin 13) (hb : b < sb.size)
    (h12 : k = 12 → (T i).addrs 12 = 0 ∧ d' b = fun _ => 0)
    (hd : ∀ j, pointers sb d T (j, 12) ≠ 0 →
      d' (pointers sb d T (j, 12)) = d (pointers sb d T (j, 12))) :
    pointers sb d' (update T i (setAddr (T i) k b)) = update (pointers sb d T) (i, k.val) b := by
  have hd' : ∀ j, j < sb.ninodes → (T j).type ≠ 0 → (T j).addrs 12 ≠ 0 →
      d' ((T j).addrs 12).toNat = d ((T j).addrs 12).toNat := by
    intro j hj htj ha
    obtain ⟨heq, hne⟩ := pointers_indirect (d := d) hj htj ha
    exact heq ▸ hd j hne
  funext ⟨j, l⟩
  by_cases hj : j = i
  · subst hj
    have hleft : pointers sb d' (update T j (setAddr (T j) k b)) (j, l) =
        ptr d' (setAddr (T j) k b) l := by
      rw [pointers_of hi (by rw [update_self]; exact ht), update_self]
    rw [hleft]
    by_cases hl : l = k
    · subst hl
      rw [update_self, ptr_addr, toNat_setAddr hb]
    · rw [update_of_ne (by simpa using hl), pointers_of hi ht]
      unfold ptr
      split
      next hlt => rw [setAddr_of_ne (fun heq => hl (congrArg Fin.val heq))]
      next =>
        by_cases hk12 : k = 12
        · subst hk12
          obtain ⟨hnone, hzero⟩ := h12 rfl
          rw [toNat_setAddr hb, hzero, getLE_zero, hnone, ite_self, if_neg (by simp)]
        · rw [setAddr_of_ne (Ne.symm hk12)]
          split
          next ha' => rw [hd' j hi ht ha'.2]
          next => rfl
  · rw [pointers_update_ne hj, update_of_ne (fun heq => hj (congrArg Prod.fst heq)),
      pointers_congr hd']

/-- Only free blocks, and the bitmap, are changed by `balloc`. -/
theorem takeBlock_pointers (h : Owned sb d T) (hu : used sb d b = false) (hb : b < sb.size)
    {p : Nat × Nat} (hp : pointers sb d T p ≠ 0) :
    takeBlock sb d b (pointers sb d T p) = d (pointers sb d T p) := by
  have hmeta := (h.range hp).1
  have hbb := Superblock.bblock_lt hb
  exact takeBlock_of_ne (h.ne_of_unused hu hp) (by omega)

theorem takeBlock_data (hb : b < sb.size) (hc : sb.nmeta ≤ c) (hcb : c ≠ b) :
    takeBlock sb d b c = d c := by
  have hbb := Superblock.bblock_lt hb
  exact takeBlock_of_ne hcb (by omega)

theorem addrAlloc_ok {k : Fin 13} {a : Nat} (h : Owned sb s.disk T) (hi : i < sb.ninodes)
    (ht : (T i).type ≠ 0) (hrun : addrAlloc sb (T i) k s = .ok ((ip', a), s')) (off : Nat)
    (src : Buf) :
    Owned sb s'.disk (update T i ip') ∧ Filled sb s T s' (update T i ip') i off 0 src ∧
      a = (ip'.addrs k).toNat ∧ a ≠ 0 ∧ ip' = withAddrs (T i) ip'.addrs := by
  rw [addrAlloc, Code.addrAlloc] at hrun
  split at hrun
  next hk =>
    obtain ⟨b, s₁, hballoc, hrun⟩ := bind_ok hrun
    obtain ⟨hb, hu, rfl⟩ := balloc_ok hballoc
    cases hrun
    have hmeta := h.nmeta_le hu
    have hpos := sb.nmeta_pos
    have hp : pointers sb s.disk T (i, k.val) = 0 := by
      rw [pointers_of hi ht, ptr_addr, hk, UInt32.toNat_zero]
    have hP := pointers_setAddr hi ht k hb (fun heq => ⟨heq ▸ hk, takeBlock_self ..⟩)
      (fun _ => takeBlock_pointers h hu hb)
    obtain ⟨howned, hwrote⟩ := h.grow hb hu hp hP (fun c hc => used_takeBlock hmeta hc)
      (fun c hc hcb _ => takeBlock_data hb hc hcb) (fun j hj => dinode_takeBlock hmeta hj)
      (s.writes + 2) i off src
    exact ⟨howned, hwrote, (toNat_setAddr hb ..).symm, by omega, rfl⟩
  next hk =>
    cases hrun
    rw [Function.update_eq_self]
    exact ⟨h, .refl .., rfl, toNat_ne_zero hk, rfl⟩

/-- The pointers after a block has been put into entry `j` of the indirect block. -/
theorem pointers_putEntry (h : Owned sb d T) (hi : i < sb.ninodes) (ht : (T i).type ≠ 0)
    (ha : (T i).addrs 12 ≠ 0) (hj : j < 128) (hb : b < sb.size)
    (hd : ∀ l, pointers sb d T (l, 12) ≠ 0 →
      d' (pointers sb d T (l, 12)) = d (pointers sb d T (l, 12))) :
    pointers sb (update d' ((T i).addrs 12).toNat
        (putLE (d' ((T i).addrs 12).toNat) (4 * j) 4 b)) T =
      update (pointers sb d T) (i, 13 + j) b := by
  obtain ⟨hind, hne⟩ := pointers_indirect (d := d) hi ht ha
  have hown : d' ((T i).addrs 12).toNat = d ((T i).addrs 12).toNat := hind ▸ hd i hne
  funext ⟨l, k⟩
  by_cases hl : l = i
  · subst hl
    rw [pointers_of hi ht]
    unfold ptr
    split
    next hk =>
      rw [update_of_ne (by simp; omega), pointers_of hi ht, ptr, dif_pos hk]
    next hk =>
      rw [update_self]
      by_cases hkj : k = 13 + j
      · subst hkj
        have := sb.int_blocks
        rw [if_pos ⟨by omega, ha⟩, update_self, Nat.add_sub_cancel_left, getLE_putLE,
          Nat.mod_eq_of_lt (by omega)]
      · rw [getLE_putLE_other (by omega), update_of_ne (by simpa using hkj), hown,
          pointers_of hi ht, ptr, dif_neg hk]
  · rw [update_of_ne (fun heq => hl (congrArg Prod.fst heq))]
    unfold pointers
    split
    next hp =>
      apply ptr_congr
      refine .inr fun hal => ?_
      obtain ⟨hindl, hnel⟩ := pointers_indirect (d := d) hp.1 hp.2 hal
      have hdiff := h.ne_of_ne hnel (fun heq => hl (congrArg Prod.fst heq) : (l, 12) ≠ (i, 12))
      rw [hindl, hind] at hdiff
      rw [update_of_ne hdiff, ← hindl, hd l hnel]
    next => rfl

theorem entryAlloc_ok {a : Nat} (h : Owned sb s.disk T) (hi : i < sb.ninodes) (ht : (T i).type ≠ 0)
    (ha : (T i).addrs 12 ≠ 0) (hj : j < 128)
    (hrun : entryAlloc sb ((T i).addrs 12).toNat j s = .ok (a, s')) (off : Nat) (src : Buf) :
    Owned sb s'.disk T ∧ Filled sb s T s' T i off 0 src ∧
      a = ptr s'.disk (T i) (13 + j) ∧ a ≠ 0 := by
  have hptr : ∀ d, ptr d (T i) (13 + j) = getLE (d ((T i).addrs 12).toNat) (4 * j) 4 := by
    intro d
    rw [ptr, dif_neg (by omega), if_pos ⟨by omega, ha⟩, Nat.add_sub_cancel_left]
  rw [entryAlloc, Code.entryAlloc, bread_bind] at hrun
  split at hrun
  next hzero =>
    obtain ⟨a, s₁, hballoc, hrun⟩ := bind_ok hrun
    obtain ⟨hb, hu, rfl⟩ := balloc_ok hballoc
    cases hrun
    obtain ⟨hind, hne⟩ := pointers_indirect (d := s.disk) hi ht ha
    have hmeta := h.nmeta_le hu
    have hpos := sb.nmeta_pos
    have hrange := (h.range hne).1
    rw [hind] at hrange
    have hp : pointers sb s.disk T (i, 13 + j) = 0 := by rw [pointers_of hi ht, hptr, hzero]
    have hP := pointers_putEntry h hi ht ha hj hb fun _ => takeBlock_pointers h hu hb
    have hused : ∀ (buf : Buf) c, c < sb.size →
        used sb (update (takeBlock sb s.disk a) ((T i).addrs 12).toNat buf) c =
          (used sb s.disk c || decide (a = c)) := by
      intro buf c hc
      have := Superblock.bblock_lt hc
      rw [← used_takeBlock hmeta hc, used, used, update_of_ne (by omega)]
    obtain ⟨howned, hwrote⟩ := h.grow hb hu hp hP (hused _)
      (fun c hc hcb hci => by
        have hother : c ≠ ((T i).addrs 12).toNat := fun heq => hci i (hind.trans heq.symm)
        exact (update_of_ne hother ..).trans (takeBlock_data hb hc hcb))
      (fun l hl => by
        have := Superblock.iblock_lt_nmeta hl
        exact (dinode_congr (update_of_ne (by omega) ..)).trans (dinode_takeBlock hmeta hl))
      (s.writes + 3) i off src
    have hnew : ptr _ (T i) (13 + j) = _ := (pointers_of hi ht).symm.trans (congrFun hP (i, 13 + j))
    rw [update_self] at hnew
    exact ⟨howned, hwrote, hnew.symm, by omega⟩
  next hne =>
    cases hrun
    exact ⟨h, .refl .., (hptr _).symm, hne⟩

theorem fileBlock_of (hi : i < sb.ninodes) (ht : ip.type ≠ 0) :
    fileBlock sb d (update T i ip) i bn = ptr d ip (slot bn) := by
  rw [fileBlock, pointers_of hi (by rwa [update_self]), update_self]

/-- `bmap` returns the block of the file, which is there afterwards. -/
theorem bmap_ok {a : Nat} (h : Owned sb s.disk T) (hi : i < sb.ninodes) (ht : (T i).type ≠ 0)
    (hrun : bmap sb (T i) bn s = .ok ((ip', a), s')) (off : Nat) (src : Buf) :
    Owned sb s'.disk (update T i ip') ∧ Filled sb s T s' (update T i ip') i off 0 src ∧
      a = fileBlock sb s'.disk (update T i ip') i bn ∧ a ≠ 0 ∧ ip' = withAddrs (T i) ip'.addrs := by
  rw [bmap, Code.bmap] at hrun
  split at hrun
  next hbn =>
    obtain ⟨howned, hwrote, haddr, ha, hsame⟩ := addrAlloc_ok h hi ht hrun off src
    have ht' : ip'.type ≠ 0 := by rw [hsame]; exact ht
    refine ⟨howned, hwrote, ?_, ha, hsame⟩
    rw [fileBlock_of hi ht', slot, if_pos hbn, ptr_addr ⟨bn, by omega⟩, haddr]
  next hbn =>
    split at hrun
    next hbn' =>
      obtain ⟨⟨ip, addr⟩, s₁, halloc, hrun⟩ := bind_ok hrun
      obtain ⟨a', s₂, hentry, hrun⟩ := bind_ok hrun
      cases hrun
      obtain ⟨howned, hwrote, haddr, ha, hsame⟩ := addrAlloc_ok h hi ht halloc off src
      have hself : update T i ip' i = ip' := update_self ..
      have ht' : ip'.type ≠ 0 := by rw [hsame]; exact ht
      have hind : ip'.addrs 12 ≠ 0 := fun h0 => ha (by rw [haddr, h0, UInt32.toNat_zero])
      rw [haddr, ← congrArg Dinode.addrs hself] at hentry
      obtain ⟨howned', hwrote', hptr, ha'⟩ := entryAlloc_ok howned hi (hself.symm ▸ ht')
        (hself.symm ▸ hind) hbn' hentry off src
      refine ⟨howned', hwrote.trans (by simpa using hwrote'), ?_, ha', hsame⟩
      rw [fileBlock_of hi ht', slot, if_neg hbn, hptr, hself]
      congr 1
      omega
    next => cases hrun

theorem HoleFree.file (h : HoleFree sb d T) (hi : i < sb.ninodes) (ht : (T i).type ≠ 0) :
    Mapped d (T i) := by
  intro bn hbn
  have := h i hi ht bn hbn
  rwa [fileBlock, pointers_of hi ht] at this

/-- A file without holes is not larger than its pointers allow. -/
theorem Mapped.size_le (h : Mapped d ip) : ip.size.toNat ≤ 140 * 512 := by
  refine Nat.not_lt.mp fun hlt => h 140 hlt ?_
  rw [ptr, dif_neg (by decide), if_neg fun hand => absurd hand.1 (by decide)]

/-- A block that is there is found, and nothing changes. -/
theorem bmap_found (hb : ptr s.disk ip (slot bn) ≠ 0) :
    bmap sb ip bn s = .ok ((ip, ptr s.disk ip (slot bn)), s) := by
  unfold slot at hb ⊢
  rw [bmap, Code.bmap]
  split at hb
  next hbn =>
    rw [dif_pos hbn, if_pos hbn]
    rw [ptr_addr ⟨bn, by omega⟩] at hb ⊢
    rw [Code.addrAlloc, if_neg fun h0 => hb (by rw [h0, UInt32.toNat_zero])]
    rfl
  next hbn =>
    rw [dif_neg hbn, if_neg hbn]
    unfold ptr at hb ⊢
    rw [dif_neg (by omega)] at hb ⊢
    split at hb
    next hin =>
      rw [show bn + 1 - 13 = bn - 12 by omega] at hb ⊢
      rw [if_pos hin, if_pos (by omega), Code.addrAlloc, if_neg hin.2]
      change (do let a ← entryAlloc sb (ip.addrs 12).toNat (bn - 12); pure (ip, a)) s = _
      rw [bind_of_ok (a := getLE (s.disk (ip.addrs 12).toNat) (4 * (bn - 12)) 4)]
      · rfl
      · rw [entryAlloc, Code.entryAlloc, bread_bind, if_neg hb]
        rfl
    next => exact absurd rfl hb

theorem bmap_mapped (hi : i < sb.ninodes) (ht : (T i).type ≠ 0)
    (hb : fileBlock sb s.disk T i bn ≠ 0) :
    bmap sb (T i) bn s = .ok ((T i, fileBlock sb s.disk T i bn), s) := by
  have hptr : fileBlock sb s.disk T i bn = ptr s.disk (T i) (slot bn) := pointers_of hi ht
  rw [hptr] at hb ⊢
  exact bmap_found hb

theorem addrAlloc_error {k : Fin 13} {msg : String} (h : addrAlloc sb ip k s = .error msg) :
    msg = "balloc: out of blocks" := by
  rw [addrAlloc, Code.addrAlloc] at h
  split at h
  · obtain ⟨b, s₁, -, h⟩ | ⟨msg', hb, h⟩ := bind_cases h
    · cases h
    · cases h
      exact balloc_error hb
  · cases h

theorem bmap_error {msg : String} (hbn : bn < 140) (h : bmap sb ip bn s = .error msg) :
    msg = "balloc: out of blocks" := by
  rw [bmap, Code.bmap] at h
  split at h
  · exact addrAlloc_error h
  · rw [if_pos (by omega)] at h
    obtain ⟨⟨ip', addr⟩, s₁, -, h⟩ | ⟨msg', ha, h⟩ := bind_cases h
    · obtain ⟨a, s₂, -, h⟩ | ⟨msg', he, h⟩ := bind_cases h
      · cases h
      · cases h
        rw [Code.entryAlloc, bread_bind] at he
        split at he
        · obtain ⟨b, s₃, -, he⟩ | ⟨msg', hb, he⟩ := bind_cases he
          · cases he
          · cases he
            exact balloc_error hb
        · cases he
    · cases h
      exact addrAlloc_error ha

end Xv6.BlockMap
