import Xv6.DirentWrite
import Xv6.FreeBlocks
import Xv6.SoloPaths

/-!
# New names, for a process that runs alone

`ialloc`, `dirlink` and the part of `create` that makes an inode. The directory for the new
name stays as it is until its entry is written; that fails if it is full, and needs blocks
if it has to grow.
-/
namespace Xv6.SoloLinks

open FsImage BlockMap Directory DirentWrite FreeBlocks FsSystem FsCalls
  Interleave InodeRuns PathResolution
open RunRules SoloRuns SoloPaths

variable {sb : Superblock} {t : Proc} {x₀ x y : Sys} {fs fs' : Fs} {d d' d'' : Disk} {ip : Dinode}
  {held : List (Entry × Nat)} {locks : List Entry} {e : Entry} {i j k : Nat}
  {S : Stop → Prop} {name : Name}
  {type : Int16}

/-! ## Directories that stay as they are -/

/-- A directory has an empty entry, or can grow. -/
def Room (d : Disk) (ip : Dinode) : Prop :=
  (∃ de ∈ entries d ip, de.inum = 0) ∨ ip.size.toNat + 16 ≤ 140 * 512

/-- The directory with inode `j` is good, and has the entries that it had. -/
structure DirKept (sb : Superblock) (d d' : Disk) (j : Nat) : Prop where
  ok : DirOk sb d' (dinode sb d' j)
  type : (dinode sb d' j).type = (dinode sb d j).type
  size : (dinode sb d' j).size = (dinode sb d j).size
  entries : entries d' (dinode sb d' j) = entries d (dinode sb d j)

namespace DirKept

theorem trans (h : DirKept sb d d' j) (h' : DirKept sb d' d'' j) : DirKept sb d d'' j :=
  ⟨h'.ok, h'.type.trans h.type, h'.size.trans h.size, h'.entries.trans h.entries⟩

theorem lookup (h : DirKept sb d d' j) (name : Name) :
    lookup d' (dinode sb d' j) name = PathResolution.lookup d (dinode sb d j) name := by
  rw [PathResolution.lookup, h.entries, PathResolution.lookup]

theorem room (h : DirKept sb d d' j) : Room d' (dinode sb d' j) ↔ Room d (dinode sb d j) := by
  rw [Room, h.entries, h.size, Room]

/-- An inode is written that is another one, or has the type, size and addresses of this one. -/
theorem putDinode (hd : DirOk sb d (dinode sb d j)) (howned : Owned sb d (dinode sb d))
    (hi : i < sb.ninodes) (hj : j < sb.ninodes) (ht : (dinode sb d j).type ≠ 0) {n : Dinode}
    (hn : j = i → Renumbers (dinode sb d j) n) :
    DirKept sb d (putDinode sb d i n) j := by
  have hsame := sameData_putDinode hi d n
  have hnums : Renumbers (dinode sb d j) (dinode sb (FsImage.putDinode sb d i n) j) := by
    rw [dinode_putDinode]
    split
    next heq => exact hn heq
    next => exact ⟨rfl, rfl, rfl⟩
  refine ⟨hd.congr hnums.addrs hnums.size (hsame.ptr howned hj ht)
    (hsame.content howned hj ht), hnums.type, hnums.size, ?_⟩
  rw [entries_addrs hnums.addrs hnums.size, entries_congr (hsame.content howned hj ht)]

/-- An entry of another directory is written. -/
theorem entered {de : Dirent} (h : Entered sb fs fs' i k de)
    (hd : DirOk sb fs.disk (dinode sb fs.disk j)) (hj : j < sb.ninodes) (hji : j ≠ i)
    (ht : (dinode sb fs.disk j).type ≠ 0) :
    DirKept sb fs.disk fs'.disk j := by
  have hsame := h.other j hj hji
  have haligned := hd.aligned
  have hentries : PathResolution.entries fs'.disk (dinode sb fs.disk j) =
      PathResolution.entries fs.disk (dinode sb fs.disk j) := by
    refine List.map_congr_left fun m hm => ?_
    have hm := List.mem_range.mp hm
    refine congrArg Dirent.ofBytes (List.map_congr_left fun l hl => ?_)
    have hl := List.mem_range.mp hl
    exact h.keptContent j hj hji ht hd.mapped _ (by omega)
  refine ⟨⟨?_, ?_, ?_⟩, ?_, ?_, ?_⟩
  · rw [hsame]
    exact h.keptMapped j hj hji ht hd.mapped
  · rw [hsame]
    exact hd.aligned
  · rw [hsame, hentries]
    exact hd.range
  · rw [hsame]
  · rw [hsame]
  · rw [hsame, hentries]

end DirKept

/-! ## Empty entries -/

theorem mem_entries {de : Dirent} :
    de ∈ entries d ip ↔ ∃ m, m < ip.size.toNat / 16 ∧ direntAt d ip (16 * m) = de := by
  simp [entries]

/-- `dirlink` finds an entry to write, which is beyond the largest size if there is no room. -/
theorem emptySlot_room (h : DirOk sb fs.disk ip) : ∃ k,
    Directory.emptySlot sb ip fs = .ok ((ip, 16 * k), fs) ∧ 16 * k ≤ ip.size.toNat ∧
      (Room fs.disk ip ↔ 16 * k + 16 ≤ 140 * 512) := by
  have haligned := h.aligned
  have hmax := h.mapped.size_le
  rw [Directory.emptySlot]
  obtain ⟨hscan, hnone⟩ | ⟨k, hscan, hlt, hacc⟩ := scan_run h.mapped h.aligned (rfl : 0 % 16 = 0)
    (by omega : ip.size.toNat < 0 + 16 * (ip.size.toNat / 16 + 1))
  · rw [bind_of_ok hscan]
    refine ⟨ip.size.toNat / 16, ?_, by omega, ?_⟩
    · rw [show 16 * (ip.size.toNat / 16) = (ip.size.toNat + 15) / 16 * 16 by omega]
      rfl
    · constructor
      · rintro (⟨de, hde, h0⟩ | hgrow)
        · -- the loop would have found an empty entry
          obtain ⟨m, hm, rfl⟩ := mem_entries.mp hde
          have := hnone m (by omega)
          rw [Nat.zero_add, beq_eq_false_iff_ne] at this
          exact absurd h0 this
        · omega
      · exact fun hle => .inr (by omega)
  · rw [Nat.zero_add] at hscan hlt hacc
    rw [bind_of_ok hscan]
    refine ⟨k, rfl, by omega, fun _ => by omega,
      fun _ => .inl ⟨_, mem_entries.mpr ⟨k, by omega, rfl⟩, ?_⟩⟩
    exact beq_iff_eq.mp hacc

/-! ## dirlink -/

theorem need_le (d : Disk) (ip : Dinode) (bn : Nat) : need d ip bn ≤ 2 := by
  unfold need
  split
  · omega
  · split <;> omega

section

variable (h : Solo sb t x₀ fs held locks x)
  (hp : (e, i) ∈ held) (hl : e ∈ locks) (howned : Owned sb fs.disk (dinode sb fs.disk))
include h hp hl howned

/-- An entry of a locked directory is written, if there are blocks for it. -/
theorem sat_dirent (hd : DirOk sb fs.disk (dinode sb fs.disk i))
    (hk : 16 * k ≤ (dinode sb fs.disk i).size.toNat) (hmax : 16 * k + 16 ≤ 140 * 512)
    (hblocks : (free sb fs.disk).card < need fs.disk (dinode sb fs.disk i) (16 * k / 512) →
      S (.panic "balloc: out of blocks")) (de : Dirent) :
    Sat (alone sb t) S (ino (.dirent e (16 * k) de)) (fun r y => r = some 16 ∧
      ∃ fs', Entered sb fs fs' i k (.ofBytes ((List.range 16).map de.bytes)) ∧
      Takes sb (need fs.disk (dinode sb fs.disk i) (16 * k / 512)) fs.disk fs'.disk ∧
      Solo sb t x₀ fs' held locks y) x := by
  obtain ⟨hcopy, htype⟩ := h.locked hp hl
  have hi := h.range hp
  have hexec : x.inoState.exec sb t (.dirent e (16 * k) de) = x.inoState.onCopy e fun ip =>
      FileData.writei sb i ip de.bytes (UInt32.ofNat (16 * k)) 16 := by
    rw [← h.inum hp]
    rfl
  cases hrun : FileData.writei sb i (dinode sb fs.disk i) de.bytes
    (UInt32.ofNat (16 * k)) 16 fs with
  | error msg =>
    obtain rfl := FileData.writei_error hrun
    refine .of_panic (Prog.run_panic ?_) (hblocks (Nat.not_le.mp fun hle => ?_))
    · change Sys.lift x.withIno (x.inoState.exec sb t (.dirent e (16 * k) de)) = _
      rw [hexec, run_onCopy_error (by rw [hcopy, h.disk]; exact hrun)]
      rfl
    · obtain ⟨r, hok⟩ := writei_entry_of_free howned (Nat.mul_mod_right 16 k) hmax hle i de.bytes
      rw [hok] at hrun
      cases hrun
  | ok p =>
    obtain ⟨⟨ip', r⟩, fs'⟩ := p
    obtain ⟨hr, hself, hw⟩ := entered_writei howned hi htype hd.mapped hd.aligned hk hmax hrun
    have htakes := writei_entry_takes howned hi htype (Nat.mul_mod_right 16 k) hmax hrun
    refine .of_run (Prog.run_perform ?_) ⟨hr, fs', hw, htakes, h.setBoth hp hl ?_ hself hw.other⟩
    · change Sys.lift x.withIno (x.inoState.exec sb t (.dirent e (16 * k) de)) = _
      rw [hexec, run_onCopy_ok (by rw [hcopy, h.disk]; exact hrun)]
      rfl
    · rw [← hself, hw.nums.type]
      exact htype

/-- `dirlink` of a name that is not there yet. -/
theorem sat_dirlink_new (ht : (dinode sb fs.disk i).type = tDir)
    (hd : DirOk sb fs.disk (dinode sb fs.disk i))
    (hnone : lookup fs.disk (dinode sb fs.disk i) name = none)
    (hroom : ¬ Room fs.disk (dinode sb fs.disk i) → S (.panic "dirlink"))
    (hblocks : ∀ k, 16 * k ≤ (dinode sb fs.disk i).size.toNat →
      (free sb fs.disk).card < need fs.disk (dinode sb fs.disk i) (16 * k / 512) →
      S (.panic "balloc: out of blocks")) (inum : Nat) :
    Sat (alone sb t) S (dirlink e name inum) (fun r y => r = 0 ∧
      Room fs.disk (dinode sb fs.disk i) ∧ ∃ k fs', 16 * k ≤ (dinode sb fs.disk i).size.toNat ∧
      Entered sb fs fs' i k
        (.ofBytes ((List.range 16).map (Dirent.bytes ⟨UInt16.ofNat inum, name⟩))) ∧
      Takes sb (need fs.disk (dinode sb fs.disk i) (16 * k / 512)) fs.disk fs'.disk ∧
      Solo sb t x₀ fs' held locks y) x := by
  obtain ⟨r, hr, hlookup⟩ := dirlookup_eq ht hd.mapped hd.aligned name
  obtain rfl : r = none := Option.map_eq_none_iff.mp (hlookup.trans hnone)
  obtain ⟨k, hslot, hk, hiff⟩ := emptySlot_room hd
  have hsearch : (FsCalls.dirlookup .dirlink e name).run (alone sb t) x = .done none x :=
    Prog.run_bind (h.run_dirlookup hp hl hr)
  refine Sat.after hsearch (Sat.after (h.run_emptySlot hp hl hslot) ?_)
  by_cases hfits : Room fs.disk (dinode sb fs.disk i)
  · refine Sat.bind (sat_dirent h hp hl howned hd hk (hiff.mp hfits) (hblocks k hk) _)
      fun r y ⟨hr, fs', hw, htakes, hy⟩ => ?_
    rw [if_neg (not_not.mpr hr)]
    exact .ret ⟨rfl, hfits, k, fs', hk, hw, htakes, hy⟩
  · -- `writei` refuses to write beyond the largest size
    have hbeyond : FileData.writei sb i (dinode sb fs.disk i)
        (Dirent.bytes ⟨UInt16.ofNat inum, name⟩)
        (UInt32.ofNat (16 * k)) 16 fs = .ok ((dinode sb fs.disk i, none), fs) := by
      have hmax := hd.mapped.size_le
      have hlt := Nat.not_le.mp (mt hiff.mpr hfits)
      refine FileData.writei_beyond ?_
      rw [UInt32.toNat_ofNat_of_lt' (show 16 * k < 2 ^ 32 by omega)]
      exact hlt
    have hwrite : (ino (.dirent e (16 * k) ⟨UInt16.ofNat inum, name⟩)).run
        (alone sb t) x = .done none x := by
      refine run_ino_same ?_
      have := h.onCopy (fun ip => FileData.writei sb i ip (Dirent.bytes ⟨UInt16.ofNat inum, name⟩)
        (UInt32.ofNat (16 * k)) 16) hp hl hbeyond
      rw [← h.inum hp] at this
      exact this
    exact Sat.after hwrite (.of_panic rfl (hroom hfits))

end

/-! ## ialloc -/

/-- The disk after `ialloc` has taken inode `i`. -/
def allocated (sb : Superblock) (fs : Fs) (i : Nat) (type : Int16) : Fs :=
  putInode sb fs i { Dinode.zero with type := type }

theorem sat_iallocFrom (h : Solo sb t x₀ fs held locks x)
    (hlocks : ∀ e', e' ∈ locks → e' ∈ held.map Prod.fst) (type : Int16)
    (hfull : spare x₀ ≤ held.length → S (.panic "iget: no inodes")) (fuel i : Nat)
    (hi : i + fuel = max sb.ninodes 1) (hpos : 1 ≤ i)
    (hinodes : (∀ j, i ≤ j → j < sb.ninodes → (dinode sb fs.disk j).type ≠ 0) →
      S (.panic "ialloc: no inodes")) :
    Sat (alone sb t) S (FsCalls.iallocFrom type fuel i) (fun e y => ∃ j, 1 ≤ j ∧ j < sb.ninodes ∧
      (dinode sb fs.disk j).type = 0 ∧
      Solo sb t x₀ (allocated sb fs j type) ((e, j) :: held) locks y) x := by
  induction fuel generalizing i with
  | zero => exact .of_panic rfl (hinodes fun j hj hlt => by omega)
  | succ fuel ih =>
    have hlt : i < sb.ninodes := by omega
    have hexec : x.inoState.exec sb t (.iallocAt type i) = if (dinode sb fs.disk i).type = 0 then
        .done true ⟨allocated sb fs i type, x.icache⟩ else .done false x.inoState := by
      change InoState.onDisk ⟨x.fs, x.icache⟩ (iallocAt sb type i) = _
      rw [InoState.onDisk]
      dsimp only
      rw [h.disk, iallocAt_run]
      by_cases hfree : (dinode sb fs.disk i).type = 0
      · rw [if_pos hfree, if_pos hfree]
        rfl
      · rw [if_neg hfree, if_neg hfree, Sys.inoState, h.disk]
    rw [FsCalls.iallocFrom]
    by_cases hfree : (dinode sb fs.disk i).type = 0
    · rw [if_pos hfree] at hexec
      have hrun : (ino (.iallocAt type i)).run (alone sb t) x =
          .done true { x with fs := allocated sb fs i type } := by
        refine Prog.run_perform ?_
        change Sys.lift x.withIno (x.inoState.exec sb t (.iallocAt type i)) = _
        rw [hexec]
        rfl
      have hy : Solo sb t x₀ (allocated sb fs i type) held locks
          { x with fs := allocated sb fs i type } := by
        refine h.setDisk fun j _ hj => (dinode_putDinode ..).trans (if_neg ?_)
        rintro rfl
        exact hj hfree
      exact Sat.after hrun
        ((hy.iget hlocks .ialloc (fun _ => hlt) hfull).mono fun e y he => ⟨i, hpos, hlt, hfree, he⟩)
    · rw [if_neg hfree] at hexec
      refine Sat.after (run_ino_same hexec)
        (ih (i + 1) (by omega) (by omega) fun hall => hinodes fun j hj hlt => ?_)
      by_cases heq : j = i
      · rwa [heq]
      · exact hall j (by omega) hlt

theorem sat_ialloc (h : Solo sb t x₀ fs held locks x)
    (hlocks : ∀ e', e' ∈ locks → e' ∈ held.map Prod.fst) (type : Int16)
    (hfull : spare x₀ ≤ held.length → S (.panic "iget: no inodes"))
    (hinodes : (∀ j, 1 ≤ j → j < sb.ninodes → (dinode sb fs.disk j).type ≠ 0) →
      S (.panic "ialloc: no inodes")) :
    Sat (alone sb t) S (FsCalls.ialloc sb type) (fun e y => ∃ j, 1 ≤ j ∧ j < sb.ninodes ∧
      (dinode sb fs.disk j).type = 0 ∧
      Solo sb t x₀ (allocated sb fs j type) ((e, j) :: held) locks y) x :=
  sat_iallocFrom h hlocks type hfull (sb.ninodes - 1) 1 (by omega) (Nat.le_refl 1) hinodes

theorem owned_allocated (h : Owned sb fs.disk (dinode sb fs.disk)) (hi : i < sb.ninodes)
    (hfree : (dinode sb fs.disk i).type = 0) (type : Int16) :
    Owned sb (allocated sb fs i type).disk (dinode sb (allocated sb fs i type).disk) := by
  have hP : pointers sb fs.disk
      (Function.update (dinode sb fs.disk) i { Dinode.zero with type := type }) =
      pointers sb fs.disk (dinode sb fs.disk) := pointers_update_blank (.inl hfree) (.inr rfl)
  have howned : Owned sb fs.disk
      (Function.update (dinode sb fs.disk) i { Dinode.zero with type := type }) := by
    rw [Owned, hP]
    exact h
  refine (howned.putDinode hi { Dinode.zero with type := type }).table
    fun j _ => (dinode_putDinode ..).trans ?_
  split
  next heq => rw [heq, Function.update_self]
  next hne => rw [Function.update_of_ne hne]

theorem orphans_entered {de : Dirent} (h : Orphans sb x fs.disk) (hw : Entered sb fs fs' i k de) :
    Orphans sb x fs'.disk := by
  intro l hl ht hlink
  by_cases heq : l = i
  · subst heq
    rw [hw.nums.type] at ht
    rw [hw.nums.nlink] at hlink
    exact h l hl ht hlink
  · rw [hw.other l hl heq] at ht hlink
    exact h l hl ht hlink

/-! ## A new inode -/

/-- The disk while `create` makes inode `i` for a name in directory `j`, with at most `b`
blocks taken. -/
structure Making (sb : Superblock) (x₀ : Sys) (i j : Nat) (type : Int16) (b : Nat) (fs : Fs) :
    Prop where
  owned : Owned sb fs.disk (dinode sb fs.disk)
  dir : DirKept sb x₀.fs.disk fs.disk j
  dirLinks : 0 ≤ (dinode sb x₀.fs.disk j).nlink
  type : (dinode sb fs.disk i).type = type
  nlink : (dinode sb fs.disk i).nlink = 1
  orphans : Orphans sb x₀ fs.disk
  takes : Takes sb b x₀.fs.disk fs.disk

/-- The disk after the numbers of the new inode have been set. -/
def numbered (sb : Superblock) (fs : Fs) (i : Nat) (type major minor : Int16) : Fs :=
  putInode sb (allocated sb fs i type) i
    { dinode sb (allocated sb fs i type).disk i with major, minor, nlink := 1 }

theorem dinode_numbered (sb : Superblock) (fs : Fs) (i : Nat) (type major minor : Int16) (l : Nat) :
    dinode sb (numbered sb fs i type major minor).disk l =
      if l = i then ⟨type, major, minor, 1, 0, fun _ => 0⟩ else dinode sb fs.disk l := by
  have hself : dinode sb (allocated sb fs i type).disk i = { Dinode.zero with type := type } :=
    (dinode_putDinode ..).trans (if_pos rfl)
  refine (dinode_putDinode ..).trans ?_
  split
  next =>
    rw [hself]
    rfl
  next hne => exact (dinode_putDinode ..).trans (if_neg hne)

namespace Making

variable {b : Nat}

theorem numbered (h : Consistent sb t x₀) (hi : i < sb.ninodes) (hj : j < sb.ninodes)
    (hfree : (dinode sb x₀.fs.disk i).type = 0) (ht : (dinode sb x₀.fs.disk j).type = tDir)
    (type major minor : Int16) :
    Making sb x₀ i j type 0 (SoloLinks.numbered sb x₀.fs i type major minor) := by
  have hlive : (dinode sb x₀.fs.disk j).type ≠ 0 := by rw [ht]; decide
  have hne : j ≠ i := by
    rintro rfl
    exact hlive hfree
  have hself : dinode sb (allocated sb x₀.fs i type).disk i = { Dinode.zero with type := type } :=
    (dinode_putDinode ..).trans (if_pos rfl)
  have hother : dinode sb (allocated sb x₀.fs i type).disk j = dinode sb x₀.fs.disk j :=
    (dinode_putDinode ..).trans (if_neg hne)
  have howned := owned_allocated h.owned hi hfree type
  have hfirst : DirKept sb x₀.fs.disk (allocated sb x₀.fs i type).disk j :=
    .putDinode (h.dirs j hj ht) h.owned hi hj hlive fun heq => absurd heq hne
  refine ⟨owned_putDinode howned hi ⟨rfl, rfl, rfl⟩, hfirst.trans ?_, h.links j hj hlive, ?_, ?_,
    fun l hl hl0 hlink => ?_, ?_⟩
  · exact .putDinode hfirst.ok howned hi hj (by rwa [hother]) fun heq => absurd heq hne
  · rw [dinode_numbered, if_pos rfl]
  · rw [dinode_numbered, if_pos rfl]
  · rw [dinode_numbered] at hl0 hlink
    split at hlink
    next => exact absurd hlink (show ¬ (1 : Int16) = 0 by decide)
    next hl' =>
      rw [if_neg hl'] at hl0
      exact h.orphans l hl hl0 hlink
  · exact (takes_putDinode hi _ _).trans (takes_putDinode hi _ _)

section

variable (h : Making sb x₀ i j type b fs)
  (hj : j < sb.ninodes) (hne : i ≠ j) (ht : (dinode sb fs.disk j).type ≠ 0)
include h hj hne ht

/-- The directory gets a link from the new one. -/
theorem addLink (hlink : (dinode sb fs.disk j).nlink = (dinode sb x₀.fs.disk j).nlink) :
    Making sb x₀ i j type b
    (putInode sb fs j { dinode sb fs.disk j with nlink := (dinode sb fs.disk j).nlink + 1 }) := by
  have hother : dinode sb (putInode sb fs j { dinode sb fs.disk j with
      nlink := (dinode sb fs.disk j).nlink + 1 }).disk i = dinode sb fs.disk i :=
    (dinode_putDinode ..).trans (if_neg hne)
  refine ⟨owned_putDinode h.owned hj ⟨rfl, rfl, rfl⟩, h.dir.trans ?_, h.dirLinks, ?_, ?_, ?_, ?_⟩
  · exact .putDinode h.dir.ok h.owned hj hj ht fun _ => ⟨rfl, rfl, rfl⟩
  · rw [hother]
    exact h.type
  · rw [hother]
    exact h.nlink
  · refine orphans_putDinode h.orphans fun _ h0 => ?_
    have hpos := h.dirLinks
    rw [← hlink] at hpos
    dsimp only at h0
    have hneg : (dinode sb fs.disk j).nlink = -1 := by grind
    rw [hneg] at hpos
    exact absurd hpos (by decide)
  · exact (h.takes.trans (takes_putDinode hj _ _)).mono (Nat.le_refl _)

/-- The new inode gets an entry. -/
theorem entered {c : Nat} {de : Dirent} (hw : Entered sb fs fs' i k de)
    (htakes : Takes sb c fs.disk fs'.disk) : Making sb x₀ i j type (b + c) fs' where
  owned := hw.owned
  dir := h.dir.trans (.entered hw h.dir.ok hj hne.symm ht)
  dirLinks := h.dirLinks
  type := hw.nums.type.trans h.type
  nlink := hw.nums.nlink.trans h.nlink
  orphans := orphans_entered h.orphans hw
  takes := h.takes.trans htakes

end

end Making

/-- A directory without entries. -/
theorem dirOk_empty (h : ip.size = 0) : DirOk sb d ip ∧ ∀ name, lookup d ip name = none := by
  have hentries : entries d ip = [] := by
    rw [entries, h]
    rfl
  refine ⟨⟨fun bn hbn => ?_, ?_, ?_⟩, fun name => ?_⟩
  · rw [h] at hbn
    exact absurd hbn (Nat.not_lt_zero _)
  · rw [h]
    rfl
  · rw [hentries]
    exact fun de hde => absurd hde List.not_mem_nil
  · rw [lookup, hentries]
    rfl

/-- A directory that had no entry has got its first. -/
theorem dirOk_first {de : Dirent} (hsize : (dinode sb fs.disk i).size = 0)
    (hw : Entered sb fs fs' i 0 de) (hde : de.inum.toNat < sb.ninodes) :
    DirOk sb fs'.disk (dinode sb fs'.disk i) ∧
      (dinode sb fs'.disk i).size.toNat = 16 ∧
      ∀ name, name ≠ de.name → lookup fs'.disk (dinode sb fs'.disk i) name = none := by
  have hsize' : (dinode sb fs'.disk i).size.toNat = 16 := by
    rw [hw.size, hsize]
    rfl
  have hentries : entries fs'.disk (dinode sb fs'.disk i) = [de] := by
    have hfirst := hw.entry 0 (by omega)
    rw [if_pos rfl] at hfirst
    rw [entries, hsize']
    exact congrArg (fun de => [de]) hfirst
  refine ⟨⟨hw.mapped, by rw [hsize'], ?_⟩, hsize', fun name hne => ?_⟩
  · rw [hentries]
    intro de' hde' _
    rwa [List.mem_singleton.mp hde']
  · have hno : hasName name de = false := by
      rw [hasName, beq_eq_false_iff_ne.mpr hne.symm, Bool.and_false]
    rw [lookup, hentries, List.find?_singleton, hno]
    rfl

theorem need_zero (d : Disk) (ip : Dinode) : need d ip 0 ≤ 1 := by
  unfold need
  split <;> simp

theorem need_mapped {bn : Nat} (h : Mapped d ip) (hbn : bn * 512 < ip.size.toNat) :
    need d ip bn = 0 :=
  if_pos (h bn hbn)

theorem ofBytes_dot (inum : Nat) :
    Dirent.ofBytes ((List.range 16).map (Dirent.bytes ⟨UInt16.ofNat inum, dot⟩)) =
      ⟨UInt16.ofNat inum, dot⟩ :=
  Dirent.ofBytes_bytes (show dot.length ≤ 14 by decide) (show 0 ∉ dot by decide)

theorem toNat_ofNat_le (n : Nat) : (UInt16.ofNat n).toNat ≤ n := by
  rw [UInt16.toNat_ofNat']
  exact Nat.mod_le ..

section Create

variable {dp ie : Entry}
  (hblocks : (free sb x₀.fs.disk).card < 3 → S (.panic "balloc: out of blocks"))

include hblocks

/-- The entries of a new directory need one block. -/
theorem sat_createDots (hm : Making sb x₀ i j tDir 0 fs)
    (hx : Solo sb t x₀ fs [(ie, i), (dp, j)] [ie, dp] x) (hne : i ≠ j)
    (hsize : (dinode sb fs.disk i).size = 0) (ht : (dinode sb fs.disk j).type = tDir)
    (hlink : (dinode sb fs.disk j).nlink = (dinode sb x₀.fs.disk j).nlink) :
    Sat (alone sb t) S (createDots dp ie) (fun _ y => ∃ fs', Making sb x₀ i j tDir 1 fs' ∧
      Solo sb t x₀ fs' [(ie, i), (dp, j)] [ie, dp] y) x := by
  have hpi : (ie, i) ∈ [(ie, i), (dp, j)] := List.mem_cons_self
  have hpj : (dp, j) ∈ [(ie, i), (dp, j)] := List.mem_cons_of_mem _ List.mem_cons_self
  have hli : ie ∈ [ie, dp] := List.mem_cons_self
  have hlj : dp ∈ [ie, dp] := List.mem_cons_of_mem _ List.mem_cons_self
  have hj := hx.range hpj
  have hlive : (dinode sb fs.disk j).type ≠ 0 := by rw [ht]; decide
  obtain ⟨x₁, x₂, hadd, hupdate, hx₂⟩ := hx.addLink hpj hlj 1
  have hm₂ := hm.addLink hj hne hlive hlink
  generalize hfs₂ : putInode sb fs j
    { dinode sb fs.disk j with nlink := (dinode sb fs.disk j).nlink + 1 } = fs₂ at hx₂ hm₂
  have hsize₂ : (dinode sb fs₂.disk i).size = 0 := by
    rw [← hfs₂, ← hsize]
    exact congrArg Dinode.size ((dinode_putDinode ..).trans (if_neg hne))
  obtain ⟨hok₂, hnone₂⟩ : DirOk sb fs₂.disk (dinode sb fs₂.disk i) ∧ _ := dirOk_empty hsize₂
  refine Sat.after hadd (Sat.after hupdate (Sat.after (hx₂.run_inum hpi) ?_))
  -- the entry `.` takes the first block
  refine Sat.bind (sat_dirlink_new hx₂ hpi hli hm₂.owned hm₂.type hok₂ (hnone₂ dot) (fun hno => ?_)
    (fun k hk hlt => hblocks ?_) i) fun r x₃ hr => ?_
  · refine absurd (.inr ?_) hno
    rw [hsize₂]
    decide
  · have htakes := hm₂.takes
    have hneed := need_le fs₂.disk (dinode sb fs₂.disk i) (16 * k / 512)
    unfold Takes at htakes
    omega
  obtain ⟨hr, -, k, fs₃, hk, hw, htakes, hx₃⟩ := hr
  rw [ofBytes_dot] at hw
  obtain rfl : k = 0 := by
    rw [hsize₂] at hk
    have : (0 : UInt32).toNat = 0 := rfl
    omega
  have hm₃ := hm₂.entered hj hne (by rw [hm₂.dir.type, ← hm.dir.type]; exact hlive) hw
    (htakes.mono (need_zero _ _))
  obtain ⟨hok₃, hsize₃, hnone₃⟩ := dirOk_first hsize₂ hw
    (Nat.lt_of_le_of_lt (toNat_ofNat_le i) (hx.range hpi))
  rw [hr, if_neg (by decide)]
  refine Sat.after (hx₃.run_inum hpj) ?_
  -- the entry `..` is in the same block
  have hneed : ∀ k, 16 * k ≤ (dinode sb fs₃.disk i).size.toNat →
      need fs₃.disk (dinode sb fs₃.disk i) (16 * k / 512) = 0 := by
    intro k hk
    exact need_mapped hok₃.mapped (by omega)
  refine Sat.bind (sat_dirlink_new hx₃ hpi hli hm₃.owned hm₃.type hok₃
    (hnone₃ dotdot (show dotdot ≠ dot by decide))
    (fun hno => absurd (.inr (by omega)) hno) (fun k hk hlt => ?_) j) fun r x₄ hr => ?_
  · rw [hneed k hk] at hlt
    exact absurd hlt (Nat.not_lt_zero _)
  obtain ⟨hr, -, k, fs₄, hk, hw₄, htakes₄, hx₄⟩ := hr
  rw [hneed k hk] at htakes₄
  rw [hr, if_neg (by decide)]
  exact .ret
    ⟨fs₄, hm₃.entered hj hne (by rw [hm₃.dir.type, ← hm.dir.type]; exact hlive) hw₄ htakes₄, hx₄⟩

/-- What `create` leaves when it has made inode `i` for a name in directory `j`. -/
structure Created (sb : Superblock) (x₀ : Sys) (j : Nat) (type : Int16) (i : Nat) (fs : Fs) :
    Prop where
  room : Room x₀.fs.disk (dinode sb x₀.fs.disk j)
  lt : i < sb.ninodes
  free : (dinode sb x₀.fs.disk i).type = 0
  type : (dinode sb fs.disk i).type = type
  nlink : (dinode sb fs.disk i).nlink = 1
  orphans : Orphans sb x₀ fs.disk

variable (hroom : ¬ Room x₀.fs.disk (dinode sb x₀.fs.disk j) → S (.panic "dirlink"))

include hroom

/-- The end of `create`: the name is entered. -/
theorem sat_createEntry {b : Nat} (hm : Making sb x₀ i j type b fs) (hb : b ≤ 1)
    (hfree : (dinode sb x₀.fs.disk i).type = 0) (ht : (dinode sb x₀.fs.disk j).type = tDir)
    (hnone : lookup x₀.fs.disk (dinode sb x₀.fs.disk j) name = none)
    (hx : Solo sb t x₀ fs [(ie, i), (dp, j)] [ie, dp] x) (hne : ie ≠ dp) :
    Sat (alone sb t) S (do
      if (← dirlink dp name (← ino (.inum ie))) < 0 then FsCalls.kpanic "create: dirlink"
      else do
        iunlockput dp
        pure ie : P Entry) (fun r y => r = ie ∧ ∃ fs', Created sb x₀ j type i fs' ∧
          (∃ k de, Entered sb fs fs' j k de) ∧ Solo sb t x₀ fs' [(ie, i)] [ie] y) x := by
  have hpi : (ie, i) ∈ [(ie, i), (dp, j)] := List.mem_cons_self
  have hpj : (dp, j) ∈ [(ie, i), (dp, j)] := List.mem_cons_of_mem _ List.mem_cons_self
  have hi := hx.range hpi
  have hij : i ≠ j := by
    rintro rfl
    rw [hfree] at ht
    exact absurd ht (by decide)
  refine Sat.after (hx.run_inum hpi)
    (Sat.bind (sat_dirlink_new hx hpj (List.mem_cons_of_mem _ List.mem_cons_self)
    hm.owned (hm.dir.type.trans ht) hm.dir.ok ((hm.dir.lookup name).trans hnone)
    (fun hno => hroom (mt hm.dir.room.mpr hno)) (fun k _ hlt => hblocks ?_) i) fun r y hr => ?_)
  · have htakes := hm.takes
    have hneed := need_le fs.disk (dinode sb fs.disk j) (16 * k / 512)
    unfold Takes at htakes
    omega
  obtain ⟨hr, hfits, k, fs', -, hw, -, hy⟩ := hr
  rw [hr, if_neg (by decide)]
  have ho := orphans_entered hm.orphans hw
  have hsame := hw.other i hi hij
  obtain ⟨z, hput, hz⟩ :=
    ((hy.perm (List.Perm.swap _ _ _)).permLocks (List.Perm.swap _ _ _)).iunlockput
    (by simpa using hne.symm) ho
  exact Sat.after hput
    (.ret ⟨rfl, fs', ⟨hm.dir.room.mp hfits, hi, hfree, hsame ▸ hm.type, hsame ▸ hm.nlink, ho⟩,
    ⟨k, _, hw⟩, hz⟩)

theorem sat_createNew (h : Consistent sb t x₀) (hx : Solo sb t x₀ x₀.fs [(dp, j)] [dp] x)
    (ht : (dinode sb x₀.fs.disk j).type = tDir)
    (hnone : lookup x₀.fs.disk (dinode sb x₀.fs.disk j) name = none) (htype : type ≠ 0)
    (hfull : spare x₀ ≤ 1 → S (.panic "iget: no inodes"))
    (hinodes : (∀ i, 1 ≤ i → i < sb.ninodes → (dinode sb x₀.fs.disk i).type ≠ 0) →
      S (.panic "ialloc: no inodes")) (major minor : Int16) :
    Sat (alone sb t) S (createNew sb dp name type major minor) (fun ie y =>
      ∃ i fs', Created sb x₀ j type i fs' ∧
      (type ≠ tDir → ∃ k de, Entered sb (numbered sb x₀.fs i type major minor) fs' j k de) ∧
      Solo sb t x₀ fs' [(ie, i)] [ie] y) x := by
  have hj := hx.range List.mem_cons_self
  refine Sat.bind
    (sat_ialloc hx (fun _ he => by simpa using he) type hfull hinodes) fun ie y hy => ?_
  obtain ⟨i, -, hi, hfree, hy⟩ := hy
  have hpi : (ie, i) ∈ [(ie, i), (dp, j)] := List.mem_cons_self
  have hpj : (dp, j) ∈ [(ie, i), (dp, j)] := List.mem_cons_of_mem _ List.mem_cons_self
  have hij : i ≠ j := by
    rintro rfl
    rw [hfree] at ht
    exact absurd ht (by decide)
  have hne := hy.ne_of_inum hpi hpj hij
  have hself : (dinode sb (allocated sb x₀.fs i type).disk i).type = type :=
    congrArg Dinode.type ((dinode_putDinode ..).trans (if_pos rfl))
  refine hy.ilock_bind (fun hmem => absurd (List.mem_singleton.mp hmem) hne)
    (fun h0 => absurd (hself.symm.trans h0) htype) fun z _ hz => ?_
  obtain ⟨z₁, w, hset, hupdate, hw⟩ := hz.setNums hpi List.mem_cons_self major minor 1
  have hm : Making sb x₀ i j type 0 (numbered sb x₀.fs i type major minor) :=
    .numbered h hi hj hfree ht type major minor
  refine Sat.after hset (Sat.after hupdate ?_)
  dsimp only
  split
  next hdir =>
    subst hdir
    have hother := dinode_numbered sb x₀.fs i tDir major minor j
    rw [if_neg hij.symm] at hother
    refine Sat.bind (sat_createDots hblocks hm hw hij ?_ ?_ ?_) fun _ v hv => ?_
    · rw [dinode_numbered, if_pos rfl]
    · rw [hother, ht]
    · rw [hother]
    obtain ⟨fs', hm', hv⟩ := hv
    refine (sat_createEntry hblocks hroom hm' (Nat.le_refl 1) hfree ht hnone hv hne).mono
      fun r u hu => ?_
    obtain ⟨rfl, fs'', hc, -, hu⟩ := hu
    exact ⟨i, fs'', hc, fun hne => absurd rfl hne, hu⟩
  next =>
    refine (sat_createEntry hblocks hroom hm (Nat.zero_le 1) hfree ht hnone hw hne).mono
      fun r u hu => ?_
    obtain ⟨rfl, fs'', hc, hw, hu⟩ := hu
    exact ⟨i, fs'', hc, fun _ => hw, hu⟩

end Create

end Xv6.SoloLinks
