import Xv6.PathResolution
import Xv6.SoloRuns

/-!
# Paths, for a process that runs alone

What `namei` and `nameiparent` return to a process that may hold references already. The
directories need not be linked: a directory that has been removed may be the current one.
-/
namespace Xv6.SoloPaths

open FsImage BlockMap Directory FsSystem FsCalls Interleave InodeRuns
  PathResolution RunRules SoloRuns

/-- A directory without holes, of whole entries that name inodes of the file system. -/
structure DirOk (sb : Superblock) (d : Disk) (ip : Dinode) : Prop where
  mapped : Mapped d ip
  aligned : ip.size.toNat % 16 = 0
  range : ∀ de ∈ entries d ip, de.inum ≠ 0 → de.inum.toNat < sb.ninodes

def Dirs (sb : Superblock) (d : Disk) : Prop :=
  ∀ i, i < sb.ninodes → (dinode sb d i).type = tDir → DirOk sb d (dinode sb d i)

variable {sb : Superblock} {t : Proc} {x₀ x y : Sys} {fs : Fs}
  {held : List (Entry × Nat)} {locks : List Entry}
  {e : Entry} {i j : Nat} {S : Stop → Prop} {name : Name} {α : Type}

theorem DirOk.lookup_lt {d : Disk} {ip : Dinode} (h : DirOk sb d ip)
    (hl : lookup d ip name = some j) :
    j < sb.ninodes := by
  obtain ⟨de, hfind, rfl⟩ := Option.map_eq_some_iff.mp hl
  have hname := List.find?_some hfind
  rw [hasName, Bool.and_eq_true, bne_iff_ne] at hname
  exact h.range de (List.mem_of_find?_eq_some hfind) hname.1

theorem DirOk.isdirempty {ip : Dinode} (h : DirOk sb fs.disk ip) :
    ∃ b, Directory.isdirempty sb ip fs = .ok ((ip, b), fs) := by
  rw [Directory.isdirempty]
  obtain ⟨hscan, -⟩ | ⟨k, hscan, -⟩ := scan_run h.mapped h.aligned (by decide : 32 % 16 = 0)
    (by omega : ip.size.toNat < 32 + 16 * (ip.size.toNat / 16 + 1))
  · rw [bind_of_ok hscan]
    exact ⟨_, rfl⟩
  · rw [bind_of_ok hscan]
    exact ⟨_, rfl⟩

/-! ## Inodes that are written -/

/-- The boot block and the data blocks are the same. -/
def SameData (sb : Superblock) (d d' : Disk) : Prop := ∀ c, c = 0 ∨ sb.nmeta ≤ c → d' c = d c

section Disks

variable {d d' : Disk} {T : Table} {ip ip' : Dinode} {n : Dinode}

theorem SameData.trans {d'' : Disk} (h : SameData sb d d') (h' : SameData sb d' d'') :
    SameData sb d d'' :=
  fun c hc => (h' c hc).trans (h c hc)

theorem sameData_putDinode (hi : i < sb.ninodes) (d : Disk) (n : Dinode) :
    SameData sb d (putDinode sb d i n) := by
  intro c hc
  have hmeta := Superblock.iblock_lt_nmeta hi
  have hstart := sb.start
  refine putDinode_of_ne ?_
  rcases hc with rfl | hc
  · unfold Superblock.iblock
    omega
  · omega

section

variable (h : SameData sb d d')
  (howned : Owned sb d T) (hi : i < sb.ninodes) (ht : (T i).type ≠ 0) (k : Nat)
include h howned hi ht k

theorem SameData.ptr : ptr d' (T i) k = ptr d (T i) k := by
  refine ptr_congr (.inr fun ha => h _ (.inr ?_))
  obtain ⟨hind, hne⟩ := pointers_indirect (d := d) hi ht ha
  rw [← hind]
  exact (howned.range hne).1

theorem SameData.content : content d' (T i) k = content d (T i) k := by
  rw [BlockMap.content, BlockMap.content, h.ptr howned hi ht]
  refine congrFun (h _ ?_) _
  rw [← pointers_of hi ht]
  by_cases h0 : pointers sb d T (i, slot (k / 512)) = 0
  · exact .inl h0
  · exact .inr (howned.range h0).1

end

theorem entries_congr (h : ∀ k, content d' ip k = content d ip k) :
    entries d' ip = entries d ip := by
  simp only [entries, direntAt, h]

theorem ptr_addrs (h : ip'.addrs = ip.addrs) (k : Nat) : ptr d ip' k = ptr d ip k := by
  unfold BlockMap.ptr
  rw [h]

theorem entries_addrs (h : ip'.addrs = ip.addrs) (hsize : ip'.size = ip.size) :
    entries d ip' = entries d ip := by
  have hcontent : ∀ k, content d ip' k = content d ip k := fun k => by
    rw [BlockMap.content, BlockMap.content, ptr_addrs h]
  simp only [entries, direntAt, hcontent, hsize]

/-- A directory whose blocks are the same is still a good one. -/
theorem DirOk.congr (h : DirOk sb d ip) (haddrs : ip'.addrs = ip.addrs) (hsize : ip'.size = ip.size)
    (hptr : ∀ k, BlockMap.ptr d' ip k = BlockMap.ptr d ip k)
    (hcontent : ∀ k, content d' ip k = content d ip k) :
    DirOk sb d' ip' where
  mapped bn hbn := by
    rw [ptr_addrs haddrs, hptr]
    exact h.mapped bn (by rwa [← hsize])
  aligned := by
    rw [hsize]
    exact h.aligned
  range := by
    rw [entries_addrs haddrs hsize, entries_congr hcontent]
    exact h.range

/-- Numbers of an allocated inode change, but not its type, size and addresses. -/
structure Renumbers (ip n : Dinode) : Prop where
  type : n.type = ip.type
  size : n.size = ip.size
  addrs : n.addrs = ip.addrs

theorem table_putDinode (n : Dinode) (hn : Renumbers (dinode sb d i) n) (j : Nat) :
    Renumbers (dinode sb d j) (dinode sb (putDinode sb d i n) j) := by
  rw [dinode_putDinode]
  split
  next hj =>
    rw [hj]
    exact hn
  next => exact ⟨rfl, rfl, rfl⟩

theorem owned_putDinode (h : Owned sb d (dinode sb d)) (hi : i < sb.ninodes)
    (hn : Renumbers (dinode sb d i) n) :
    Owned sb (putDinode sb d i n) (dinode sb (putDinode sb d i n)) := by
  refine (h.putDinode hi n).congr_table fun j _ => ?_
  have := table_putDinode n hn j
  exact ⟨this.addrs, by rw [this.type]⟩

theorem dirs_putDinode (h : Dirs sb d) (howned : Owned sb d (dinode sb d)) (hi : i < sb.ninodes)
    (hn : Renumbers (dinode sb d i) n) : Dirs sb (putDinode sb d i n) := by
  intro j hj ht
  have hnums := table_putDinode n hn j
  have hsame := sameData_putDinode hi d n
  rw [hnums.type] at ht
  have hfree : (dinode sb d j).type ≠ 0 := by rw [ht]; decide
  exact (h j hj ht).congr hnums.addrs hnums.size (hsame.ptr howned hj hfree)
    (hsame.content howned hj hfree)

theorem orphans_putDinode {x : Sys} (h : Orphans sb x d)
    (hn : n.type ≠ 0 → n.nlink = 0 → (dinode sb d i).type ≠ 0 ∧ (dinode sb d i).nlink = 0) :
    Orphans sb x (putDinode sb d i n) := by
  intro j hj ht hlink
  rw [dinode_putDinode] at ht hlink
  split at hlink
  next heq =>
    rw [if_pos heq] at ht
    obtain ⟨ht', hlink'⟩ := hn ht hlink
    subst heq
    exact h j hj ht' hlink'
  next hne =>
    rw [if_neg hne] at ht
    exact h j hj ht hlink

end Disks

/-! ## Paths -/

/-- A locked directory is searched. -/
theorem sat_dirlookup (h : Solo sb t x₀ fs held locks x) (hp : (e, i) ∈ held) (hl : e ∈ locks)
    (hlocks : ∀ e', e' ∈ locks → e' ∈ held.map Prod.fst) (ht : (dinode sb fs.disk i).type = tDir)
    (hd : DirOk sb fs.disk (dinode sb fs.disk i))
    (hfull : spare x₀ ≤ held.length → S (.panic "iget: no inodes")) (site : Site) (name : Name) :
    Sat (alone sb t) S (FsCalls.dirlookup site e name) (fun a y =>
      match lookup fs.disk (dinode sb fs.disk i) name with
      | some j => ∃ e' off, a = some (e', off) ∧ Solo sb t x₀ fs ((e', j) :: held) locks y
      | none => a = none ∧ Solo sb t x₀ fs held locks y) x := by
  obtain ⟨r, hr, hlookup⟩ := dirlookup_eq ht hd.mapped hd.aligned name
  rw [← hlookup]
  exact h.dirlookup hp hl hlocks hr (fun _ j hj => hd.lookup_lt (hlookup.symm.trans hj)) hfull site

/-- `dirlink` fails if the name is there, and waits forever if the name is for a directory
that the process has locked. -/
theorem sat_dirlink_found (h : Solo sb t x₀ fs held locks x) (hp : (e, i) ∈ held) (hl : e ∈ locks)
    (hlocks : ∀ e', e' ∈ locks → e' ∈ held.map Prod.fst) (ho : Orphans sb x₀ fs.disk)
    (ht : (dinode sb fs.disk i).type = tDir) (hd : DirOk sb fs.disk (dinode sb fs.disk i))
    (hj : lookup fs.disk (dinode sb fs.disk i) name = some j)
    (hfull : spare x₀ ≤ held.length → S (.panic "iget: no inodes")) (hblock : S .blocked)
    (inum : Nat) :
    Sat (alone sb t) S (dirlink e name inum)
      (fun r y => r = -1 ∧ Solo sb t x₀ fs held locks y) x := by
  refine Sat.bind (sat_dirlookup h hp hl hlocks ht hd hfull .dirlink name) fun a y ha => ?_
  rw [hj] at ha
  obtain ⟨e', off, rfl, hy⟩ := ha
  by_cases hlock : e' ∈ locks
  · have hholder : (y.icache e').holder = some t := (hy.slot e').holder.trans (if_pos hlock)
    have hrun : (iput e' >>= fun _ => pure (-1 : Int) : P Int).run (alone sb t) y = .blocked :=
      run_acquire_held hholder
    exact .of_blocked hrun hblock
  · obtain ⟨z, hput, hz⟩ := hy.iput hlock ho
    exact Sat.after hput (.ret ⟨rfl, hz⟩)

section Walks

variable (ho : Orphans sb x₀ fs.disk) (hd : Dirs sb fs.disk)

include ho hd

theorem passable : Passable True sb x₀ fs.disk (· < sb.ninodes) where
  safe _ hi := ho.safe hi
  range _ _ := id
  dir i hi ht := ⟨(hd i hi ht).mapped, (hd i hi ht).aligned⟩
  entry i hi ht := (hd i hi ht).range

variable (hfull : spare x₀ ≤ held.length + 1 → S (.panic "iget: no inodes"))
  (hroot : 1 < sb.ninodes)
  (hcwd : ∃ e, (x₀.procs t).cwd = some e ∧ 0 < (x₀.icache e).ref)

include hfull hroot hcwd

omit ho hd hfull in
theorem start_lt (h : Solo sb t x₀ fs held locks x) (path : Path) :
    start x₀ t path < sb.ninodes := by
  obtain ⟨e, he, hpos⟩ := hcwd
  rw [start, he]
  split
  next => exact hroot
  next =>
    change (x₀.icache e).inum < _
    rw [← (h.slot e).kept hpos]
    refine (h.slot e).range trivial ?_
    rw [(h.slot e).ref]
    omega

section

variable (h : Solo sb t x₀ fs held [] x) (path : Path)
  (hdead : Stale sb fs.disk (start x₀ t path) (elems path) → S (.panic "ilock: no type"))
include h path hdead

theorem sat_namei : Sat (alone sb t) S (namei path)
    (Returns True sb t x₀ fs held (resolve sb fs.disk (start x₀ t path) (elems path))) x :=
  PathResolution.sat_namei (passable ho hd) hfull (fun _ => hroot) hcwd h
      (start_lt hroot hcwd h path) fun hst =>
    ⟨trivial, hdead hst⟩

theorem sat_nameiparent : Sat (alone sb t) S (nameiparent path)
    (ReturnsParent True sb t x₀ fs held
      (resolveParent sb fs.disk (start x₀ t path) (elems path))) x :=
  PathResolution.sat_nameiparent (passable ho hd) hfull (fun _ => hroot) hcwd h
    (start_lt hroot hcwd h path)
    fun hst => ⟨trivial, hdead hst⟩

end

end Walks

/-! ## Consistent states -/

/-- A state between calls of process `t`: the blocks are owned, the directories are good, an
inode without links is in use, and the cache agrees with the disk. -/
structure Consistent (sb : Superblock) (t : Proc) (x : Sys) : Prop where
  root : 1 < sb.ninodes
  owned : Owned sb x.fs.disk (dinode sb x.fs.disk)
  dirs : Dirs sb x.fs.disk
  links : ∀ i, i < sb.ninodes → (dinode sb x.fs.disk i).type ≠ 0 → 0 ≤ (dinode sb x.fs.disk i).nlink
  orphans : Orphans sb x x.fs.disk
  refs : ∀ e, 0 ≤ (x.icache e).ref
  unlocked : ∀ e, (x.icache e).holder = none
  range : ∀ e, 0 < (x.icache e).ref → (x.icache e).inum < sb.ninodes
  copies : ∀ e, 0 < (x.icache e).ref → (x.icache e).valid = true →
    (x.icache e).copy = dinode sb x.fs.disk (x.icache e).inum ∧ (x.icache e).copy.type ≠ 0
  unique : ∀ e e', 0 < (x.icache e).ref → 0 < (x.icache e').ref →
    (x.icache e).inum = (x.icache e').inum → e = e'
  cwd : ∃ e, (x.procs t).cwd = some e ∧ 0 < (x.icache e).ref

theorem Consistent.solo (h : Consistent sb t x) : Solo sb t x x.fs [] [] x where
  disk := rfl
  procs := rfl
  ftable := rfl
  base p _ := h.refs p.1
  slot e :=
    { holder := h.unlocked e
      ref := (Int.add_zero _).symm
      inum := fun _ hi => absurd hi List.not_mem_nil
      kept := fun _ => rfl
      range := fun _ => h.range e
      copy := fun hpos hv => ⟨(h.copies e hpos hv).1, fun _ => (h.copies e hpos hv).2⟩
      loaded := fun hl => absurd hl List.not_mem_nil }
  unique _ := h.unique

/-! ## States after boot -/

/-- Ownership of blocks, from a table of the owners. -/
theorem owned_of_owner {d : Disk} (owner : Nat → Nat × Nat)
    (hblock : ∀ i : Fin sb.ninodes, ∀ k : Fin 141, (dinode sb d i).type ≠ 0 →
      ptr d (dinode sb d i) k ≠ 0 →
      sb.nmeta ≤ ptr d (dinode sb d i) k ∧ ptr d (dinode sb d i) k < sb.size ∧
      used sb d (ptr d (dinode sb d i) k) = true ∧ owner (ptr d (dinode sb d i) k) = (i.val, k.val))
    (hused : ∀ b : Fin sb.size, used sb d b = true ↔
      b.val < sb.nmeta ∨ (b.val ≠ 0 ∧ pointers sb d (dinode sb d) (owner b) = b)) :
    Owned sb d (dinode sb d) := by
  have hptr : ∀ p, pointers sb d (dinode sb d) p ≠ 0 → ¬ pointers sb d (dinode sb d) p < sb.nmeta ∧
      pointers sb d (dinode sb d) p < sb.size ∧ used sb d (pointers sb d (dinode sb d) p) = true ∧
      owner (pointers sb d (dinode sb d) p) = p := by
    rintro ⟨i, k⟩ hp
    have hin : i < sb.ninodes ∧ (dinode sb d i).type ≠ 0 := by
      by_contra hout
      exact hp (if_neg hout)
    rw [pointers_of hin.1 hin.2] at hp ⊢
    have hk : k < 141 := by
      by_contra hk
      refine hp ?_
      rw [BlockMap.ptr, dif_neg (by omega), if_neg fun hand => hk hand.1]
    obtain ⟨hmeta, hsize, hmark, howner⟩ := hblock ⟨i, hin.1⟩ ⟨k, hk⟩ hin.2 hp
    exact ⟨Nat.not_lt.mpr hmeta, hsize, hmark, howner⟩
  refine ⟨fun p hp => (hptr p hp).1, fun p q hp heq => ?_, fun b => ⟨fun hb => ?_, ?_⟩⟩
  · rw [← (hptr p hp).2.2.2, heq, (hptr q (heq ▸ hp)).2.2.2]
  · rcases (hused ⟨b, hb.1⟩).mp hb.2 with hlt | ⟨hne, heq⟩
    · exact .inl hlt
    · exact .inr ⟨owner b, by rwa [heq], heq⟩
  · rintro (hlt | ⟨p, hp, rfl⟩)
    · have hsize := Nat.lt_of_lt_of_le hlt sb.nmeta_le
      exact ⟨hsize, (hused ⟨b, hsize⟩).mpr (.inl hlt)⟩
    · exact ⟨(hptr p hp).2.1, (hptr p hp).2.2.1⟩

/-- The first process starts in a consistent state, if the image is one. -/
theorem consistent_boot (hroot : 1 < sb.ninodes) (howned : Owned sb fs.disk (dinode sb fs.disk))
    (hdirs : Dirs sb fs.disk)
    (hlinks : ∀ i, i < sb.ninodes → (dinode sb fs.disk i).type ≠ 0 →
      0 < (dinode sb fs.disk i).nlink) : Consistent sb 0 (Sys.boot fs) := by
  have hidle := idle_boot sb fs
  have hother : ∀ e, e ≠ 0 → (Sys.boot fs).icache e = ⟨0, 0, false, none, .zero⟩ := fun e he => by
    simp [Sys.boot, he]
  have hzero : (Sys.boot fs).icache 0 = ⟨1, 1, false, none, .zero⟩ := by simp [Sys.boot]
  have hused : ∀ e, 0 < ((Sys.boot fs).icache e).ref → e = 0 := by
    intro e hpos
    by_contra he
    rw [hother e he] at hpos
    exact absurd hpos (Int.lt_irrefl 0)
  refine ⟨hroot, howned, hdirs, fun i hi ht => Int16.le_of_lt (hlinks i hi ht),
    fun i hi ht h0 => ?_, fun e => ?_,
    hidle.unlocked, fun e hpos => ?_, fun e hpos hv => ?_, fun e e' hpos hpos' _ => ?_, hidle.cwd⟩
  · have hlt : 0 < (dinode sb fs.disk i).nlink := hlinks i hi ht
    have h0 : (dinode sb fs.disk i).nlink = 0 := h0
    rw [h0] at hlt
    exact absurd hlt (by decide)
  · by_cases he : e = 0
    · rw [he, hzero]
      decide
    · rw [hother e he]
  · rw [hused e hpos, hzero]
    exact hroot
  · rw [hused e hpos, hzero] at hv
    cases hv
  · rw [hused e hpos, hused e' hpos']

theorem owned_treeFs : Owned treeSb treeFs.disk (dinode treeSb treeFs.disk) :=
  owned_of_owner (fun b => (b - 3, 0)) (by decide +kernel) (by decide +kernel)

theorem consistent_tree : Consistent treeSb 0 (Sys.boot treeFs) := by
  have hcheck : ∀ i : Fin 7, (dinode treeSb treeFs.disk i).type ≠ 0 →
      0 < (dinode treeSb treeFs.disk i).nlink ∧ ((dinode treeSb treeFs.disk i).type = tDir →
        (dinode treeSb treeFs.disk i).size.toNat ≤ 512 ∧
        ptr treeFs.disk (dinode treeSb treeFs.disk i) 0 ≠ 0 ∧
          (dinode treeSb treeFs.disk i).size.toNat % 16 = 0 ∧
          ∀ de ∈ entries treeFs.disk (dinode treeSb treeFs.disk i), de.inum ≠
            0 → de.inum.toNat < 7) := by
    decide +kernel
  refine consistent_boot (by decide) owned_treeFs (fun i hi ht => ?_)
    fun i hi ht => (hcheck ⟨i, hi⟩ ht).1
  obtain ⟨hle, hptr, hmod, hentries⟩ := (hcheck ⟨i, hi⟩ (by rw [ht]; decide)).2 ht
  refine ⟨fun bn hbn => ?_, hmod, hentries⟩
  dsimp only at hle hptr
  obtain rfl : bn = 0 := by omega
  exact hptr

end Xv6.SoloPaths
