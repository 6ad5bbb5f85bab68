import Mathlib.Data.List.TakeWhile
import Xv6.InodeRuns
import Xv6.MkfsLookup

/-!
# The kernel on the image

`namei` and `readi` as the kernel runs them, with its inode cache, on an image that mkfs
made. The process runs alone.
-/
namespace Xv6.Mkfs

open FsImage Directory FsSystem FsCalls Interleave
open InodeRuns RunRules

variable {x : Sys} {t : Proc} {d : Disk} {i : Nat}

/-- No process is in the file system, and the disk is as the cache says; there is room in
the cache, and the process is in the root directory. -/
structure Ready (d : Disk) (t : Proc) (x : Sys) : Prop where
  disk : x.fs.disk = d
  unlocked : ∀ e, (x.icache e).holder = none
  copies : ∀ e, 0 < (x.icache e).ref → (x.icache e).valid = true →
    (x.icache e).copy = dinode sb d (x.icache e).inum
  room : ∃ e e', e ≠ e' ∧ (x.icache e).ref = 0 ∧ (x.icache e').ref = 0
  cwd : ∃ e, (x.procs t).cwd = some e ∧ 0 < (x.icache e).ref ∧ (x.icache e).inum = 1

theorem ready_boot (d : Disk) : Ready d 0 (Sys.boot ⟨d, 0, []⟩) where
  disk := rfl
  unlocked := (InodeRuns.idle_boot sb _).unlocked
  copies := (InodeRuns.idle_boot sb _).copies
  room := ⟨1, 2, by decide, rfl, rfl⟩
  cwd := ⟨0, rfl, Int.one_pos, rfl⟩

theorem Ready.idle (h : Ready x.fs.disk t x) : Idle sb t x := by
  obtain ⟨e, hcwd, hpos, -⟩ := h.cwd
  exact ⟨h.unlocked, h.copies, e, hcwd, hpos⟩

theorem Ready.start (h : Ready d t x) (path : Path) : InodeRuns.start x t path = 1 := by
  obtain ⟨e, hcwd, -, hinum⟩ := h.cwd
  rw [InodeRuns.start, hcwd]
  split
  next => rfl
  next => exact hinum

/-- There is room in the cache. -/
theorem Ready.spare (h : Ready d t x) : ¬ spare x ≤ 1 := by
  obtain ⟨e, e', hne, he, he'⟩ := h.room
  exact fun hle => hne (crowded_of_spare hle e e' he he')

/-! ## Reading a file by name -/

/-- `namei`, and then the inode and all of its bytes. -/
def readFile (path : Path) : P (Option (Dinode × Option (List UInt8))) := do
  match ← namei path with
  | none => pure none
  | some ip => do
    ilock ip
    let node ← ino (.inode ip)
    let bytes ← ino (.readi ip 0 node.size)
    pure (some (node, bytes))

/-- `namei` of a path with one element finds the file in the root directory. -/
theorem sat_namei {path : Path} {name : Name} {off : Nat} (h : Ready x.fs.disk t x)
    (hpath : elems path = [name]) (hroot : (dinode sb x.fs.disk 1).type = tDir)
    (hlink : (dinode sb x.fs.disk 1).nlink ≠ 0)
    (hlookup : Directory.dirlookup sb (dinode sb x.fs.disk 1) name x.fs =
      .ok ((dinode sb x.fs.disk 1, some (i, off)), x.fs)) :
    Sat (alone sb t) (fun _ => False) (namei path) (fun r y => ∃ e, r = some e ∧
      Walk False sb t x x.fs [(e, i)] [] y) x := by
  refine Sat.bind
    (Q := fun r y => ∃ e, r = some (e, name) ∧ Walk False sb t x x.fs [(e, i)] [] y) ?_ ?_
  · rw [namex_eq, hpath]
    refine Sat.bind
      (h.idle.walk.start False.elim h.idle.cwd (fun hle => h.spare (by simp at hle; omega)) path)
      fun e y hy => ?_
    rw [h.start path] at hy
    refine hy.lock_bind (absurd · List.not_mem_nil) (fun h0 => ?_) fun z _ hz => ?_
    · rw [h0] at hroot
      cases hroot
    refine Sat.after (hz.run_inode List.mem_cons_self List.mem_cons_self) ?_
    rw [if_neg (not_not.mpr hroot), if_neg (by simp)]
    refine hz.component (absurd · hlink) hlookup False.elim
      (fun hle => h.spare hle) nofun fun j hj e' w hw => ?_
    obtain rfl : i = j := Option.some.inj hj
    exact .ret ⟨e', rfl, hw⟩
  · rintro r y ⟨e, rfl, hy⟩
    exact .ret ⟨e, rfl, hy⟩

theorem run_readFile {path : Path} {name : Name} {l : List UInt8} {off : Nat} (h : Ready d t x)
    (hpath : elems path = [name]) (hroot : (dinode sb d 1).type = tDir)
    (hlink : (dinode sb d 1).nlink ≠ 0)
    (hlookup : Directory.dirlookup sb (dinode sb d 1) name x.fs =
      .ok ((dinode sb d 1, some (i, off)), x.fs)) (htype : (dinode sb d i).type ≠ 0)
    (hread : FileData.readi sb (dinode sb d i) 0 (dinode sb d i).size x.fs =
      .ok ((dinode sb d i, some l), x.fs)) :
    ∃ y, (readFile path).run (alone sb t) x = .done (some (dinode sb d i, some l)) y := by
  obtain rfl := h.disk
  have hsat : Sat (alone sb t) (fun _ => False) (readFile path)
      (fun r _ => r = some (dinode sb x.fs.disk i, some l)) x := by
    refine Sat.bind (sat_namei h hpath hroot hlink hlookup) ?_
    rintro r y ⟨e, rfl, hy⟩
    refine hy.lock_bind (absurd · List.not_mem_nil) (absurd · htype) fun z _ hz => ?_
    refine Sat.after (hz.run_inode List.mem_cons_self List.mem_cons_self) ?_
    exact Sat.after (hz.run_readi List.mem_cons_self List.mem_cons_self hread) (.ret rfl)
  obtain ⟨r, y, hrun, rfl⟩ := hsat.returns
  exact ⟨y, hrun⟩

/-! ## The images of mkfs -/

/-- The numbers that the kernel takes from the super block. -/
structure Describes (w : SuperWords) (sb : Superblock) : Prop where
  size : sb.size = w.size.toNat
  ninodes : sb.ninodes = w.ninodes.toNat
  inodestart : sb.inodestart = w.inodestart.toNat
  bmapstart : sb.bmapstart = w.bmapstart.toNat

theorem describes_super {s : Img} (h : Good s) : Describes (.ofBytes ((finished s).disk 1)) sb := by
  have hsuper : (finished s).disk 1 = superWords.bytes :=
    (marked_of_ne (by decide)).trans (h.putInode (show 1 < ninodes by decide) (rounded s)).super
  rw [hsuper, superWords_ofBytes]
  exact ⟨by decide, by decide, by decide, by decide⟩

/-- A path that is a single element. -/
theorem elems_name {name : Name} (h : Storable name) (hslash : slash ∉ name) (hne : name ≠ []) :
    elems name = [name] := by
  have hstring : name.takeWhile (· ≠ 0) = name :=
    List.takeWhile_eq_self_iff.mpr fun a ha => decide_eq_true fun h0 => h.string (h0 ▸ ha)
  have htake : name.takeWhile (· ≠ slash) = name :=
    List.takeWhile_eq_self_iff.mpr fun a ha => decide_eq_true fun h0 => hslash (h0 ▸ ha)
  have hrest : name.dropWhile (· ≠ slash) = [] :=
    List.dropWhile_eq_nil_iff.mpr fun a ha => decide_eq_true fun h0 => hslash (h0 ▸ ha)
  obtain ⟨a, l, rfl⟩ := List.exists_cons_of_ne_nil hne
  have hhead : (a :: l).dropWhile (· = slash) = a :: l :=
    List.dropWhile_cons_of_neg
      (by simpa using fun h0 : a = slash => hslash (h0 ▸ List.mem_cons_self))
  have hskip : skipelem (a :: l) = some (a :: l, []) := by
    rw [skipelem, hhead, if_neg hne, htake, hrest, List.take_of_length_le h.length]
    rfl
  have hnil : ∀ fuel, elemsFrom fuel [] = [] := fun fuel => by cases fuel <;> rfl
  rw [elems, hstring, List.length_cons, elemsFrom, hskip]
  dsimp only
  rw [hnil]

/-- The kernel finds the files of an image by their stored names, and their bytes; where
mkfs makes no image, a name on its command line has a slash. -/
theorem mkfs_readable {files : List HostFile} (hnames : Names files)
    (hsize : ∀ f ∈ files, f.data.length ≤ 140 * 512) (hfit : Fits files) :
    (∃ img, mkfs files = .ok img ∧ Describes (.ofBytes (img.disk 1)) sb ∧
      Ready img.disk 0 (Sys.boot ⟨img.disk, 0, []⟩) ∧
      ∀ f ∈ files, elems f.stored = [f.stored] ∧
        ∀ path, elems path = [f.stored] → ∀ t x, Ready img.disk t x →
          ∃ node y, (readFile path).run (alone sb t) x = .done (some (node, some f.data)) y ∧
            node.type = tFile) ∨
    ((∃ f ∈ files, slash ∈ f.arg) ∧ ∃ msg, mkfs files = .error msg) := by
  by_cases hslash : ∃ f ∈ files, slash ∈ f.arg
  · obtain ⟨f, hf, hin⟩ := hslash
    exact .inr ⟨⟨f, hf, hin⟩, mkfs_fails hfit fun hall => (hall f hf).1 hin⟩
  have hplain : ∀ f ∈ files, slash ∉ f.arg := fun f hf hin => hslash ⟨f, hf, hin⟩
  obtain ⟨s, hstage, hrun⟩ := mkfs_spec hfit fun f hf => ⟨hplain f hf, hsize f hf⟩
  refine .inl
    ⟨finished s, hrun, describes_super hstage.image.good, ready_boot _, fun f hf => ⟨?_, ?_⟩⟩
  · refine elems_name (storable_stored f) (fun hin => hplain f hf ?_) (hnames.nonempty f hf)
    exact mem_arg_of_stored hin
  · intro path hpath t x hready
    obtain ⟨k, hk⟩ := List.mem_iff_getElem?.mp hf
    obtain ⟨htype, -⟩ := node_file hstage hk
    have hfree := hstage.freeinode
    obtain ⟨hroot, hlink, -⟩ := hstage.image.node 1 Nat.one_pos (by omega)
    have hdinode : dinode sb (finished s).disk 1 = rounded s := by
      rw [dinode_finished (by decide), if_pos rfl]
    obtain ⟨fs, hfs⟩ : ∃ fs, x.fs = fs := ⟨_, rfl⟩
    obtain ⟨disk, w, al⟩ := fs
    have hdisk : disk = (finished s).disk := by rw [← hready.disk, hfs]
    subst hdisk
    obtain ⟨y, hy⟩ := run_readFile hready hpath (by rw [hdinode]; exact hroot)
      (by rw [hdinode]; exact fun h0 => absurd (hlink.symm.trans h0) (by decide))
      (by rw [hfs]; exact dirlookup_file hstage hnames hk w al) (by rw [htype]; decide)
      (by rw [hfs]; exact readi_file hstage hk w al)
    exact ⟨_, y, hy, htype⟩

/-- `/cat` is the file `_cat`. -/
theorem mkfs_readable_cat : ∃ img, mkfs [catFile] = .ok img ∧
    ∃ node y, (readFile [47, 99, 97, 116]).run (alone sb 0) (Sys.boot ⟨img.disk, 0, []⟩) =
      .done (some (node, some [1, 2, 3, 4])) y ∧ node.type = tFile := by
  have hnames : Names [catFile] := ⟨by decide, by decide, by decide⟩
  rcases mkfs_readable hnames (by decide) ⟨by decide, by decide⟩ with
    ⟨img, hrun, -, hready, hfiles⟩ | ⟨⟨f, hf, hslash⟩, -⟩
  · obtain ⟨node, y, hy⟩ :=
      (hfiles catFile List.mem_cons_self).2 [47, 99, 97, 116] (by decide) 0 _ hready
    exact ⟨img, hrun, node, y, hy⟩
  · obtain rfl := List.mem_singleton.mp hf
    exact absurd hslash (by decide)

end Xv6.Mkfs
