import Xv6.FailedOpen
import Xv6.FileWrite

/-!
# cp

`copyfd` of ulib.c, on two descriptors that `cp` has just opened. The destination is opened
with `O_CREATE`, which leaves the bytes of a file that is there, so that the copy is written
over the beginning of them.
-/
namespace Xv6.CopyFile

open Function (update update_self update_of_ne)
open Bytes FsImage BlockMap Directory FsSystem FsCalls Interleave InodeRuns PathResolution
  RunRules SoloRuns SoloPaths
open FileArrays (array splice readSpec)
open FileWrite
open FileRuns (boot)
open SoloLinks (numbered dinode_numbered sat_createNew)
open DirentWrite (Entered)
open FailedCalls (sat_create)
open FailedOpen (openedAt Opened sat_openFile sat_openPath)

/-! ## The program -/

/-- `copyfd`, where `read` gives in each round at most as many bytes as the list says. It has
not returned when the list is at its end. A source that is not a file is not followed. -/
def copyfd (srcfd dstfd : Fd) : List UInt32 → P (Option Int)
  | [] => pure none
  | n :: ns => do
    match ← sysRead srcfd n with
    | none => pure (some (-1))
    | some (.count _) => pure none
    | some (.bytes l) =>
      if l.length = 0 then pure (some 0)
      else if (← sysWrite dstfd (fun k => l.getD k 0) l.length) ≠ l.length then pure (some (-1))
      else copyfd srcfd dstfd ns

variable {sb : Superblock} {t : Proc} {x y z : Sys} {f g : File}
  {e e' : Entry} {i j : Fin sb.ninodes}
  {src : Buf} {n k fuel : Nat} {s d : Fd} {r : Int}

/-! ## Other files -/

/-- At most the file `i` and the entry `f` of the file table have changed, and what is open
stays open in its mode. -/
structure Beside (sb : Superblock) (f : File) (i : Fin sb.ninodes) (x y : Sys) : Prop where
  procs : y.procs = x.procs
  files : ∀ g, g ≠ f → y.ftable g = x.ftable g
  modes : (y.ftable f).readable = (x.ftable f).readable ∧
    (y.ftable f).writable = (x.ftable f).writable
  entries : ∀ e, (y.icache e).ref = (x.icache e).ref ∧ (y.icache e).inum = (x.icache e).inum ∧
    (y.icache e).holder = (x.icache e).holder
  types : ∀ j : Fin sb.ninodes, j ≠ i → (dinode sb y.fs.disk j).type = (dinode sb x.fs.disk j).type
  bytes : ∀ j, j ≠ i → content sb y j = content sb x j

theorem Beside.refl (f : File) (i : Fin sb.ninodes) (x : Sys) : Beside sb f i x x :=
  ⟨rfl, fun _ _ => rfl, ⟨rfl, rfl⟩, fun _ => ⟨rfl, rfl, rfl⟩, fun _ _ => rfl, fun _ _ => rfl⟩

theorem Beside.trans (h : Beside sb f i x y) (h' : Beside sb f i y z) : Beside sb f i x z where
  procs := h'.procs.trans h.procs
  files g hg := (h'.files g hg).trans (h.files g hg)
  modes := ⟨h'.modes.1.trans h.modes.1, h'.modes.2.trans h.modes.2⟩
  entries e :=
    have ⟨href, hinum, hholder⟩ := h.entries e
    have ⟨href', hinum', hholder'⟩ := h'.entries e
    ⟨href'.trans href, hinum'.trans hinum, hholder'.trans hholder⟩
  types j hj := (h'.types j hj).trans (h.types j hj)
  bytes j hj := (h'.bytes j hj).trans (h.bytes j hj)

theorem Beside.opens (h : Beside sb f i x y) (ho : Opens sb x g e j) (hg : g ≠ f) (hj : j ≠ i) :
    Opens sb y g e j where
  type := by rw [h.files g hg]; exact ho.type
  ref := by rw [(h.entries e).1]; exact ho.ref
  inum := by rw [(h.entries e).2.1]; exact ho.inum
  regular := by rw [h.types j hj]; exact ho.regular

theorem beside_writeChunk {n1 : Nat} {c : Option UInt32} (hq : Quiet sb x) (ho : Opens sb x f e i)
    (hrun : (writeChunk f e src n1).run (alone sb t) x = .done c y) : Beside sb f i x y := by
  have hcontent := (chunk_spec hq ho hrun).content
  rw [run_writeChunk hq ho] at hrun
  split at hrun
  case h_2 => cases hrun
  case h_1 ip c' fs hwrite =>
  cases hrun
  have hok := FileData.writei_ok hq.owned hq.holeFree i.isLt (by rw [ho.regular]; decide) rfl hwrite
  have hfile : (chunked x f e ip fs c).ftable f =
      { x.ftable f with off := (x.ftable f).off + c.getD 0 } :=
    update_self ..
  refine ⟨rfl, fun g hg => update_of_ne hg .., ?_, entries_update rfl,
    fun j hj => ?_, fun j hj => ?_⟩
  · rw [hfile]
    exact ⟨rfl, rfl⟩
  · change (dinode sb fs.disk j).type = _
    split at hok
    next => rw [hok.2.2]
    next => rw [hok.2.table j j.isLt, if_neg (fun heq => hj (Fin.ext heq))]
  · rw [hcontent, update_of_ne hj]

theorem beside_loop (hq : Quiet sb x) (ho : Opens sb x f e i)
    (hrun : (filewriteFrom f e src n fuel k).run (alone sb t) x = .done r y) :
    Beside sb f i x y := by
  induction fuel generalizing x k with
  | zero =>
    cases hrun
    exact .refl ..
  | succ fuel ih =>
    rw [filewriteFrom_succ] at hrun
    split at hrun
    case isFalse =>
      cases hrun
      exact .refl ..
    case isTrue =>
      obtain ⟨c, x₁, hchunk, hrun⟩ := Prog.run_bind_done hrun
      have hchunked := chunk_spec hq ho hchunk
      have hfirst := beside_writeChunk hq ho hchunk
      cases c with
      | none =>
        cases hrun
        exact hfirst
      | some c =>
        dsimp only at hrun
        split at hrun
        case isTrue => cases hrun
        case isFalse => exact hfirst.trans (ih hchunked.quiet hchunked.opens hrun)

/-! ## One round -/

/-- The state after `l` has been read. -/
def readTo (x : Sys) (f : File) (e : Entry) (ip : Dinode) (l : List UInt8) : Sys :=
  { x with
    icache := update x.icache e { x.icache e with valid := true, copy := ip }
    ftable :=
      update x.ftable f { x.ftable f with off := (x.ftable f).off + UInt32.ofNat l.length } }

theorem run_fileread {m : UInt32} (hq : Quiet sb x) (ho : Opens sb x f e j)
    (hread : (x.ftable f).readable = true) {l : List UInt8}
    (hl : readSpec (content sb x j) (x.ftable f).off m = some l) :
    (fileread f m).run (alone sb t) x =
    .done (some (.bytes l)) (readTo x f e (dinode sb x.fs.disk j) l) := by
  have htype : (dinode sb x.fs.disk j).type ≠ 0 := by rw [ho.regular]; decide
  have hcopy : (FsCalls.readi e (x.ftable f).off m).run (alone sb t)
      (lockedAt x t e (dinode sb x.fs.disk j) x.fs x.depth) =
        .done (some (.bytes l)) (lockedAt x t e (dinode sb x.fs.disk j) x.fs x.depth) := by
    generalize hx : lockedAt x t e (dinode sb x.fs.disk j) x.fs x.depth = x₁
    have hentry : (x₁.icache e).copy = dinode sb x.fs.disk j := by rw [← hx, lockedAt_entry]
    have hcode : FileData.readi sb (x₁.icache e).copy (x.ftable f).off m x₁.fs =
        .ok (((x₁.icache e).copy, some l), x₁.fs) := by
      rw [hentry, ← hl, ← hx]
      exact FileArrays.readi_array hq.consistent htype _ _
    have hread : (ino (.readi e (x.ftable f).off m)).run (alone sb t) x₁ = .done (some l) x₁ :=
      run_ino_same (run_onCopy (fun ip => FileData.readi sb ip (x.ftable f).off m) hcode)
    refine (Prog.run_bind run_inode).trans ?_
    rw [hentry, if_neg (ne_of_eq_of_ne ho.regular (by decide))]
    exact Prog.run_bind hread
  have hend : ∀ F : File → FileS, (do
      iunlock e
      pure (some (.bytes l)) : P (Option Input)).run (alone sb t)
        { lockedAt x t e (dinode sb x.fs.disk j) x.fs x.depth with ftable := F } =
        .done (some (.bytes l))
        { x with
          icache :=
            update x.icache e { x.icache e with valid := true, copy := dinode sb x.fs.disk j }
          ftable := F } := fun F => Prog.run_bind (run_unlock hq ho ..)
  unfold fileread
  rw [Prog.run_bind (run_file ..), hread, ho.type]
  refine (Prog.run_bind (run_lock hq ho t x.depth)).trans ((Prog.run_bind (run_file ..)).trans
    ((Prog.run_bind hcopy).trans ?_))
  dsimp only
  split
  case isTrue => exact (Prog.run_bind (run_setOff ..)).trans (hend _)
  case isFalse h0 =>
    have hlen : l.length = 0 := Nat.eq_zero_of_not_pos h0
    unfold readTo
    rw [hlen, show UInt32.ofNat 0 = 0 from rfl, UInt32.add_zero, Function.update_eq_self]
    exact hend x.ftable

theorem quiet_readTo (hq : Quiet sb x) (ho : Opens sb x f e j) (l : List UInt8) :
    Quiet sb (readTo x f e (dinode sb x.fs.disk j) l) :=
  hq.reload ho rfl rfl hq.owned hq.holeFree fun _ _ _ => rfl

/-- The descriptors are open for two files, and `k` bytes have been copied over the beginning
of what the destination had. -/
structure Copied (t : Proc) (s d : Fd) (f g : File) (e e' : Entry) (j i : Fin sb.ninodes)
    (source old : List UInt8) (k : Nat) (x : Sys) : Prop where
  quiet : Quiet sb x
  srcFd : (x.procs t).ofile s = some f
  dstFd : (x.procs t).ofile d = some g
  src : Opens sb x f e j
  dst : Opens sb x g e' i
  readable : (x.ftable f).readable = true
  writable : (x.ftable g).writable = true
  srcOff : (x.ftable f).off.toNat = k
  dstOff : (x.ftable g).off.toNat = k
  le : k ≤ source.length
  kept : content sb x j = source
  bytes : content sb x i = source.take k ++ old.drop k

theorem ne_of_opens (ho : Opens sb x f e j) (ho' : Opens sb x g e' i) (hne : i ≠ j) : g ≠ f := by
  rintro rfl
  cases ho.type.symm.trans ho'.type
  exact hne (Fin.ext (ho'.inum.symm.trans ho.inum))

theorem map_range_getD (l : List UInt8) : (List.range l.length).map (fun k => l.getD k 0) = l := by
  apply List.ext_getElem
  · simp
  · intro m hm hm'
    simp [List.getElem?_eq_getElem hm']

theorem splice_copied {source old l : List UInt8} {m : Nat} (hk : k ≤ source.length)
    (hl : l = (source.drop k).take m) :
    splice (source.take k ++ old.drop k) (fun j => l.getD j 0) k l.length =
      source.take (k + l.length) ++ old.drop (k + l.length) := by
  have htake : (source.take k).length = k := List.length_take_of_le hk
  have hnext : source.take (k + l.length) = source.take k ++ l := by
    rw [List.take_add, hl, List.length_take, ← List.take_eq_take_min]
  have hdrop : (source.take k ++ old.drop k).drop (k + l.length) = old.drop (k + l.length) := by
    rw [List.drop_append, htake, List.drop_eq_nil_of_le (by rw [htake]; omega), List.drop_drop]
    simp
  rw [splice, hdrop, List.take_append_of_le_length (by rw [htake]),
    List.take_of_length_le (by rw [htake]), hnext, map_range_getD]

theorem Copied.read {source old : List UInt8} {m : UInt32}
    (h : Copied t s d f g e e' j i source old k x) (hm : m ≤ 512) :
    ∃ y, (sysRead s m).run (alone sb t) x =
        .done (some (.bytes ((source.drop k).take m.toNat))) y ∧
      Quiet sb y ∧ Beside sb f j x y ∧ content sb y = content sb x ∧ Opens sb y f e j ∧
      (y.ftable f).off.toNat = k + ((source.drop k).take m.toNat).length := by
  have hm' : m.toNat ≤ 512 := UInt32.le_iff_toNat_le.mp hm
  have hmax := h.src.length_le h.quiet
  have hle := h.le
  rw [h.kept] at hmax
  have hmax : source.length ≤ 71680 := hmax
  generalize hl : (source.drop k).take m.toNat = l
  have hspec : readSpec (content sb x j) (x.ftable f).off m = some l := by
    rw [readSpec, h.kept, h.srcOff, if_neg (by omega), hl]
  have hlen : l.length ≤ 512 := by
    rw [← hl, List.length_take]
    omega
  have hfile : (readTo x f e (dinode sb x.fs.disk j) l).ftable f =
      { x.ftable f with off := (x.ftable f).off + UInt32.ofNat l.length } := update_self ..
  have hrun : (proc (.ofile s)).run (alone sb t) x = .done (some f) x := by
    rw [← h.srcFd]
    rfl
  have hkeep := entries_update (x := x) (y := readTo x f e (dinode sb x.fs.disk j) l) rfl
  refine ⟨_, (Prog.run_bind hrun).trans (run_fileread h.quiet h.src h.readable hspec),
    quiet_readTo h.quiet h.src l,
    ⟨rfl, fun g hg => update_of_ne hg .., ?_, hkeep, fun _ _ => rfl, fun _ _ => rfl⟩, rfl,
    ⟨?_, ?_, ?_, h.src.regular⟩, ?_⟩
  · rw [hfile]
    exact ⟨rfl, rfl⟩
  · rw [hfile]
    exact h.src.type
  · rw [(hkeep e).1]
    exact h.src.ref
  · rw [(hkeep e).2.1]
    exact h.src.inum
  · rw [hfile]
    dsimp only
    rw [UInt32.toNat_add, UInt32.toNat_ofNat_of_lt' (show l.length < 2 ^ 32 by omega), h.srcOff,
      Nat.mod_eq_of_lt (by omega)]

/-- A round that has read something and written all of it. -/
theorem Copied.write {source old l : List UInt8} {m : Nat}
    (h : Copied t s d f g e e' j i source old k x) (hne : i ≠ j) (hq : Quiet sb y)
    (hb : Beside sb f j x y) (hsame : content sb y = content sb x) (ho : Opens sb y f e j)
    (hoff : (y.ftable f).off.toNat = k + l.length) (hl : l = (source.drop k).take m)
    (hrun : (sysWrite d (fun k => l.getD k 0) l.length).run (alone sb t) y =
      .done (l.length : Int) z) : Copied t s d f g e e' j i source old (k + l.length) z := by
  have hg := ne_of_opens h.src h.dst hne
  have hdst := hb.opens h.dst hg hne
  have hfile := hb.files g hg
  have hle : k + l.length ≤ source.length := by
    have := h.le
    rw [hl, List.length_take, List.length_drop]
    omega
  have hfd : (proc (.ofile d)).run (alone sb t) y = .done (some g) y := by
    rw [← h.dstFd, ← hb.procs]
    rfl
  have hloop : (filewriteFrom g e' (fun k => l.getD k 0) l.length (l.length / 1536 + 2) 0).run
      (alone sb t) y = .done (l.length : Int) z := by
    rw [← hrun]
    refine ((Prog.run_bind hfd).trans ((Prog.run_bind (run_file ..)).trans ?_)).symm
    rw [hfile, h.writable, h.dst.type]
    rfl
  have hbytes : content sb y i = source.take k ++ old.drop k := by rw [hsame, h.bytes]
  have hlen : (y.ftable g).off.toNat = k := by rw [hfile, h.dstOff]
  obtain ⟨hqz, hoz, hspec⟩ := loop_spec hq hdst (Nat.zero_le _)
    (show l.length + 1536 ≤ 0 + 1536 * (l.length / 1536 + 2) by omega)
    (by
      rw [hlen, hbytes, List.length_append, List.length_take]
      have := h.le
      omega) hloop
  have hbz := beside_loop hq hdst hloop
  rw [hlen, Nat.sub_zero] at hspec
  split at hspec
  case isFalse => omega
  case isTrue hfits =>
    obtain ⟨-, hcontent, hlast⟩ := hspec
    have hfits : k + l.length ≤ 71680 := hfits
    have hgf : f ≠ g := hg.symm
    constructor
    case quiet => exact hqz
    case srcFd => rw [hbz.procs, hb.procs]; exact h.srcFd
    case dstFd => rw [hbz.procs, hb.procs]; exact h.dstFd
    case src => exact hbz.opens ho hgf hne.symm
    case dst => exact hoz
    case readable => rw [hbz.files f hgf, hb.modes.1]; exact h.readable
    case writable => rw [hbz.modes.2, hfile]; exact h.writable
    case srcOff => rw [hbz.files f hgf]; exact hoff
    case dstOff =>
      rw [hlast, UInt32.toNat_add, hlen,
        UInt32.toNat_ofNat_of_lt' (show l.length < 2 ^ 32 by omega), Nat.mod_eq_of_lt (by omega)]
    case le => exact hle
    case kept => rw [hbz.bytes j hne.symm, hsame, h.kept]
    case bytes =>
      rw [hcontent, hbytes]
      simp only [Nat.zero_add]
      exact splice_copied h.le hl

/-- When `copyfd` has returned 0, all of the source has been copied. -/
theorem Copied.run {source old : List UInt8} {ns : List UInt32}
    (h : Copied t s d f g e e' j i source old k x) (hne : i ≠ j) (hns : ∀ n ∈ ns, 0 < n ∧ n ≤ 512)
    (hrun : (copyfd s d ns).run (alone sb t) x = .done (some 0) z) :
    content sb z i = source ++ old.drop source.length ∧ content sb z j = source := by
  induction ns generalizing x k with
  | nil => cases hrun
  | cons n ns ih =>
    obtain ⟨hpos, hle⟩ := hns n List.mem_cons_self
    obtain ⟨y, hread, hq, hb, hsame, ho, hoff⟩ := h.read hle
    rw [copyfd, Prog.run_bind hread] at hrun
    dsimp only at hrun
    split at hrun
    next hzero =>
      cases hrun
      have hk : k = source.length := by
        have := h.le
        have := UInt32.lt_iff_toNat_lt.mp hpos
        rw [List.length_take, List.length_drop, UInt32.toNat_zero] at *
        omega
      rw [hsame, h.bytes, h.kept, hk, List.take_length]
      exact ⟨rfl, rfl⟩
    next =>
      obtain ⟨r, w, hwrite, hrun⟩ := Prog.run_bind_done hrun
      split at hrun
      next => cases hrun
      next hr =>
        rw [not_not.mp hr] at hwrite
        exact ih (h.write hne hq hb hsame ho hoff rfl hwrite)
          (fun n hn => hns n (List.mem_cons_of_mem _ hn)) hrun

/-! ## Opening the files -/

/-- What the file of that name had before it is opened: nothing, if it was not there. -/
def previous (sb : Superblock) (t : Proc) (x : Sys) (path : Path) : List UInt8 :=
  match resolveParent sb x.fs.disk (start x t path) (elems path) with
  | none => []
  | some (j, name) =>
    match lookup x.fs.disk (dinode sb x.fs.disk j) name with
    | none => []
    | some i => if h : i < sb.ninodes then content sb x ⟨i, h⟩ else []

/-- The descriptor is open for the regular file `i`. -/
def OpenFor (sb : Superblock) (t : Proc) (x : Sys) (fd : Fd) (i : Fin sb.ninodes) : Prop :=
  ∃ f e, (x.procs t).ofile fd = some f ∧ Opens sb x f e i

/-- The disk on which `open` with `O_CREATE` has found or made the regular file `i`. -/
structure Target (sb : Superblock) (t : Proc) (x : Sys) (path : Path) (fs : Fs) (i : Nat) :
    Prop where
  owned : Owned sb fs.disk (dinode sb fs.disk)
  holeFree : HoleFree sb fs.disk (dinode sb fs.disk)
  lt : i < sb.ninodes
  regular : (dinode sb fs.disk i).type = tFile
  bytes : array (boot sb fs) ⟨i, lt⟩ = previous sb t x path
  orphans : Orphans sb x fs.disk
  other : ∀ j : Fin sb.ninodes, j.val ≠ i → (dinode sb fs.disk j).type = tFile →
    array (boot sb fs) j = content sb x j ∧ (dinode sb x.fs.disk j).type = tFile

theorem consistent_boot {fs : Fs} (howned : Owned sb fs.disk (dinode sb fs.disk))
    (hholes : HoleFree sb fs.disk (dinode sb fs.disk)) : FileRuns.Consistent sb (boot sb fs) :=
  ⟨howned, hholes, fun _ _ hip => nomatch hip⟩

theorem holeFree_of_mapped {d : Disk} {T : Table}
    (h : ∀ l, l < sb.ninodes → (T l).type ≠ 0 → Mapped d (T l)) : HoleFree sb d T := by
  intro l hl ht bn hbn
  rw [fileBlock, pointers_of hl ht]
  exact h l hl ht bn hbn

section Created

variable {fs : Fs} {a b : Nat} {de : Dirent} (h : Consistent sb t x)
  (hholes : HoleFree sb x.fs.disk (dinode sb x.fs.disk))
  (ha : a < sb.ninodes) (hfree : (dinode sb x.fs.disk a).type = 0)
  (hw : Entered sb (numbered sb x.fs a tFile 0 0) fs b k de)

include ha in
theorem sameData_numbered : SameData sb x.fs.disk (numbered sb x.fs a tFile 0 0).disk :=
  (sameData_putDinode ha _ _).trans (sameData_putDinode ha _ _)

include h hholes ha hw in
theorem mapped_created {l : Nat} (hl : l < sb.ninodes) (ht : (dinode sb fs.disk l).type ≠ 0) :
    Mapped fs.disk (dinode sb fs.disk l) := by
  by_cases hlb : l = b
  · subst hlb
    exact hw.mapped
  · have hother := hw.other l hl hlb
    rw [hother] at ht ⊢
    refine hw.keptMapped l hl hlb ht ?_
    rw [dinode_numbered] at ht ⊢
    split
    next => exact fun bn hbn => absurd hbn (Nat.not_lt_zero _)
    next hla =>
      rw [if_neg hla] at ht
      intro bn hbn
      rw [(sameData_numbered ha).ptr h.owned hl ht]
      exact hholes.file hl ht bn hbn

include h hholes ha hfree hw in
theorem target_created {path : Path} (hdir : (dinode sb x.fs.disk b).type = tDir)
    (ho : Orphans sb x fs.disk) (hprevious : previous sb t x path = []) :
    Target sb t x path fs a := by
  have hba : b ≠ a := by
    rintro rfl
    rw [hfree] at hdir
    exact absurd hdir (by decide)
  have hnew : dinode sb fs.disk a = ⟨tFile, 0, 0, 1, 0, fun _ => 0⟩ := by
    rw [hw.other a ha hba.symm, dinode_numbered, if_pos rfl]
  have hholes' : HoleFree sb fs.disk (dinode sb fs.disk) :=
    holeFree_of_mapped fun l hl ht => mapped_created h hholes ha hw hl ht
  have hcons := consistent_boot hw.owned hholes'
  refine ⟨hw.owned, hholes', ha, by rw [hnew], ?_, ho, fun j hja ht => ?_⟩
  · have hlen := FileArrays.length_array (i := ⟨a, ha⟩) hcons
      (by change (dinode sb fs.disk a).type ≠ 0; rw [hnew]; decide)
    change _ = (dinode sb fs.disk a).size.toNat at hlen
    rw [hnew] at hlen
    rw [hprevious]
    exact List.eq_nil_of_length_eq_zero hlen
  · have hjb : j.val ≠ b := by
      intro heq
      rw [heq, hw.nums.type, dinode_numbered, if_neg hba, hdir] at ht
      exact absurd ht (by decide)
    have hsame : dinode sb (numbered sb x.fs a tFile 0 0).disk j = dinode sb x.fs.disk j := by
      rw [dinode_numbered, if_neg hja]
    have hkept : dinode sb fs.disk j = dinode sb x.fs.disk j := (hw.other j j.isLt hjb).trans hsame
    rw [hkept] at ht
    have hlive : (dinode sb x.fs.disk j).type ≠ 0 := by rw [ht]; decide
    have hmapped : Mapped (numbered sb x.fs a tFile 0 0).disk (dinode sb x.fs.disk j) := by
      intro bn hbn
      rw [(sameData_numbered ha).ptr h.owned j.isLt hlive]
      exact hholes.file j.isLt hlive bn hbn
    have hbytes := hw.keptContent j j.isLt hjb
    rw [hsame] at hbytes
    refine ⟨?_, ht⟩
    have hlive' : (dinode sb fs.disk j).type ≠ 0 := by rw [hkept]; exact hlive
    rw [FileWrite.content, FileArrays.array_file hcons hlive',
      FileArrays.array_file (consistent_boot h.owned hholes) hlive]
    change (List.range (dinode sb fs.disk j).size.toNat).map
      (byte sb fs.disk (dinode sb fs.disk) j) =
      (List.range (dinode sb x.fs.disk j).size.toNat).map
      (byte sb x.fs.disk (dinode sb x.fs.disk) j)
    rw [hkept]
    refine List.map_congr_left fun l hl => ?_
    rw [← FileData.content_of j.isLt hlive', ← FileData.content_of j.isLt hlive, hkept,
      hbytes hlive hmapped l (List.mem_range.mp hl),
        (sameData_numbered ha).content h.owned j.isLt hlive]

end Created

/-- The inode that `open` with `O_CREATE` returns. -/
theorem sat_openTarget {m : OMode} {path : Path} (h : Consistent sb t x)
    (hholes : HoleFree sb x.fs.disk (dinode sb x.fs.disk)) (hy : Solo sb t x x.fs [] [] y)
    (hm : m.create = true) :
    Sat (alone sb t) (fun _ => True) (openInode sb path m) (fun r z => ∀ ip, r = some ip →
      ∃ fs i, Target sb t x path fs i ∧ Solo sb t x fs [(ip, i)] [ip] z) y := by
  rw [openInode, if_pos hm]
  refine sat_create h hy (fun _ => trivial) (fun _ => trivial) (fun _ _ _ _ h => by cases h)
    (fun j name i hp hl _ ht ip z hz => ?_) (fun _ _ _ _ _ _ _ _ _ h => by cases h)
    fun j name dp z hp hl hz => ?_
  · rintro _ ⟨⟩
    have hi := hz.range List.mem_cons_self
    refine ⟨x.fs, i, ⟨h.owned, hholes, hi, ht, ?_, h.orphans, fun j _ htype => ⟨rfl, htype⟩⟩, hz⟩
    rw [previous, hp]
    dsimp only
    rw [hl]
    dsimp only
    rw [dif_pos hi]
    rfl
  · refine (sat_createNew (fun _ => trivial) (fun _ => trivial) h hz
      (resolveParent_dir hp) hl (by decide)
      (fun _ => trivial) (fun _ => trivial) 0 0).mono fun ip w hw => ?_
    rintro _ ⟨⟩
    obtain ⟨a, fs, hc, hentered, hw⟩ := hw
    obtain ⟨k, de, hentered⟩ := hentered (by decide)
    refine ⟨fs, a,
      target_created h hholes hc.lt hc.free hentered (resolveParent_dir hp) hc.orphans ?_, hw⟩
    rw [previous, hp]
    dsimp only
    rw [hl]

section Opened

variable {m : OMode} {fd : Fd} {ip : Entry} {fs : Fs} {a : Nat} {held : List (Entry × Nat)}

/-- A process that holds no locks leaves the cache in order. -/
theorem quiet_of_solo {x₀ : Sys} (hy : Solo sb t x₀ fs held [] y)
    (howned : Owned sb fs.disk (dinode sb fs.disk))
    (hholes : HoleFree sb fs.disk (dinode sb fs.disk)) : Quiet sb y where
  owned := by rw [hy.disk]; exact howned
  holeFree := by rw [hy.disk]; exact hholes
  unlocked e := (hy.slot e).holder.trans (if_neg List.not_mem_nil)
  copies e hpos hv := by rw [hy.disk]; exact ((hy.slot e).copy hpos hv).1
  unique := hy.unique trivial
  range e := (hy.slot e).range trivial

theorem openedAt_self (x : Sys) (t : Proc) (f : File) (fd : Fd) (ip : Entry) (m : OMode) :
    (openedAt x t f fd ip m).ftable f = ⟨.inode ip, 1, !m.wronly, m.wronly || m.rdwr, 0⟩ ∧
    ((openedAt x t f fd ip m).procs t).ofile fd = some f := by
  refine ⟨update_self .., ?_⟩
  simp [openedAt, Procs.setFd]

theorem kept_opened (hy : Solo sb t (openedAt x t f fd ip m) fs held [] y)
    (he : 0 < (x.icache e).ref) :
    0 < (y.icache e).ref ∧ (y.icache e).inum = (x.icache e).inum := by
  have href := (hy.slot e).ref
  have hkept := (hy.slot e).kept he
  change (y.icache e).ref = (x.icache e).ref + _ at href
  exact ⟨by omega, hkept⟩

/-- An open file keeps the state consistent. -/
theorem consistent_opened (h : Consistent sb t x)
    (hy : Solo sb t (openedAt x t f fd ip m) x.fs [(ip, a)] [] y) :
    Consistent sb t y := by
  refine ⟨h.root, ?_, ?_, ?_, ?_, fun e => ?_,
    fun e => (hy.slot e).holder.trans (if_neg List.not_mem_nil),
    fun e => (hy.slot e).range trivial, ?_, hy.unique trivial, ?_⟩
  · rw [hy.disk]; exact h.owned
  · rw [hy.disk]; exact h.dirs
  · rw [hy.disk]; exact h.links
  · rw [hy.disk]
    intro l hl ht hlink
    obtain ⟨e, he, hinum⟩ := h.orphans l hl ht hlink
    exact ⟨e, (kept_opened hy he).1, (kept_opened hy he).2.trans hinum⟩
  · have href := (hy.slot e).ref
    have hbase := h.refs e
    change (y.icache e).ref = (x.icache e).ref + _ at href
    omega
  · rw [hy.disk]
    intro e hpos hv
    obtain ⟨hcopy, htype⟩ := (hy.slot e).copy hpos hv
    exact ⟨hcopy, htype trivial⟩
  · obtain ⟨e, hcwd, he⟩ := h.cwd
    refine ⟨e, ?_, (kept_opened hy he).1⟩
    rw [hy.procs, ← hcwd]
    simp [openedAt, Procs.setFd]

/-- An open that has succeeded, with what is known of its inode. -/
theorem opened_of_inode {path : Path} {R : Fs → Nat → Prop} (h : Consistent sb t x)
    (hfiles : ∀ f, (x.ftable f).ref = 0 → (x.ftable f).type = .none)
    (hR : ∀ fs i, R fs i → Orphans sb x fs.disk)
    (hsat : ∀ y, Solo sb t x x.fs [] [] y → Sat (alone sb t) (fun _ => True) (openInode sb path m)
      (fun r z => ∀ ip, r = some ip → ∃ fs i, R fs i ∧ Solo sb t x fs [(ip, i)] [ip] z) y)
    (hrun : (prog sb (.open_ (some path) m)).run (alone sb t) x = .done (fd.val : Int) z) :
    ∃ f ip fs i, (x.ftable f).ref = 0 ∧ R fs i ∧
      Solo sb t (openedAt x t f fd ip m) fs [(ip, i)] [] z := by
  have hopen : Sat (alone sb t) (fun _ => True) (sysOpen sb (some path) m)
      (fun r z => r = (fd.val : Int) →
      ∃ f ip fs i, (x.ftable f).ref = 0 ∧ R fs i ∧
        Solo sb t (openedAt x t f fd ip m) fs [(ip, i)] [] z) x := by
    refine Sat.after (run_beginOp sb t x) (Sat.bind (hsat _ (h.solo.withDepth _)) fun r y hy => ?_)
    cases r with
    | none =>
      refine Sat.after (run_endOp sb t y) (.ret fun hr => ?_)
      omega
    | some ip =>
      obtain ⟨fs, i, hi, hy⟩ := hy ip rfl
      refine (sat_openFile hy (hR fs i hi) hfiles m).mono fun r z hz hr => ?_
      rcases hz with ⟨-, rfl, -⟩ | ⟨f, fd', hfree, -, rfl, hz⟩
      · omega
      · obtain rfl : fd' = fd := Fin.ext (by exact_mod_cast hr)
        exact ⟨f, ip, fs, i, hfree, hi, hz⟩
  exact hopen.done hrun rfl

/-- The file of a descriptor that has just been opened. -/
theorem opens_new {i : Fin sb.ninodes} (hz : Solo sb t (openedAt x t f fd ip m) fs [(ip, a)] [] z)
    (hi : OpenFor sb t z fd i) : i.val = a ∧ (z.procs t).ofile fd = some f ∧ Opens sb z f ip i ∧
      z.ftable f = ⟨.inode ip, 1, !m.wronly, m.wronly || m.rdwr, 0⟩ := by
  obtain ⟨hfile, hofile⟩ := openedAt_self x t f fd ip m
  rw [← hz.ftable] at hfile
  rw [← hz.procs] at hofile
  obtain ⟨f', e, hf, ho⟩ := hi
  obtain rfl := Option.some.inj (hofile.symm.trans hf)
  have htype := ho.type
  rw [hfile] at htype
  cases htype
  exact ⟨ho.inum.symm.trans ((hz.slot ip).inum a List.mem_cons_self), hofile, ho, hfile⟩

end Opened

theorem previous_opened {path : Path} {m : OMode} {a : Nat} (h : Consistent sb t x)
    (hy : Solo sb t (openedAt x t f s e m) x.fs [(e, a)] [] y) :
    previous sb t y path = previous sb t x path := by
  have hstart : start y t path = start x t path := by
    obtain ⟨e', hcwd, he⟩ := h.cwd
    have hcwd' : (y.procs t).cwd = some e' := by
      rw [hy.procs, ← hcwd]
      simp [openedAt, Procs.setFd]
    simp only [start, hcwd, hcwd', (kept_opened hy he).2]
  simp only [previous, hstart, FileWrite.content, hy.disk]

section Copy

variable {w : Sys} {srcPath dstPath : Path} {ns : List UInt32} (h : Consistent sb t x)
  (hholes : HoleFree sb x.fs.disk (dinode sb x.fs.disk))
  (hfiles : ∀ f, (x.ftable f).ref = 0 → (x.ftable f).type = .none)
  (hsrc : (prog sb (.open_ (some srcPath) ⟨0⟩)).run (alone sb t) x = .done (s.val : Int) y)
  (hdst : (prog sb (.open_ (some dstPath) ⟨0x201⟩)).run (alone sb t) y = .done (d.val : Int) z)
  (hj : OpenFor sb t z s j) (hi : OpenFor sb t z d i) (hne : i ≠ j)

include h hfiles hsrc in
theorem opened_source : ∃ f e a, Solo sb t (openedAt x t f s e ⟨0⟩) x.fs [(e, a)] [] y ∧
    ∀ g, (y.ftable g).ref = 0 → (y.ftable g).type = .none := by
  obtain ⟨f, e, fs, a, hfree, rfl, hy⟩ := opened_of_inode (R := fun fs _ => fs = x.fs) h hfiles
    (fun fs _ hfs => hfs ▸ h.orphans)
    (fun u hu => (sat_openPath h hu rfl (fun _ => trivial) (fun _ => trivial)
      fun _ _ _ => trivial).mono fun r v hv ip hr => by
        rcases hv with ⟨rfl, -⟩ | ⟨ip', a, rfl, -, hv⟩
        · cases hr
        · cases hr
          exact ⟨x.fs, a, rfl, hv⟩) hsrc
  refine ⟨f, e, a, hy, fun g hg => ?_⟩
  rw [hy.ftable] at hg ⊢
  by_cases hgf : g = f
  · rw [hgf, (openedAt_self x t f s e _).1] at hg
    cases hg
  · have hsame : (openedAt x t f s e ⟨0⟩).ftable g = x.ftable g := update_of_ne hgf ..
    rw [hsame] at hg ⊢
    exact hfiles g hg

include h hholes hfiles hsrc hdst hj hi hne in
/-- Before the first round nothing is copied. -/
theorem copied_start :
    ∃ f g e e', Copied t s d f g e e' j i (content sb x j) (previous sb t x dstPath) 0 z := by
  obtain ⟨f, e, a, hy, hfiles'⟩ := opened_source h hfiles hsrc
  obtain ⟨hfile, hofile⟩ := openedAt_self x t f s e ⟨0⟩
  rw [← hy.ftable] at hfile
  rw [← hy.procs] at hofile
  have hcons := consistent_opened h hy
  have hholes' : HoleFree sb y.fs.disk (dinode sb y.fs.disk) := by rw [hy.disk]; exact hholes
  obtain ⟨g, e', fs, b, hfree', htarget, hz⟩ :=
    opened_of_inode (R := Target sb t y dstPath) hcons hfiles'
    (fun _ _ ht => ht.orphans) (fun u hu => sat_openTarget hcons hholes' hu rfl) hdst
  obtain ⟨hib, hdfd, hgopens, hgfile⟩ := opens_new hz hi
  obtain ⟨f', e₁, hsfd, hfopens⟩ := hj
  have hgf := ne_of_opens hfopens hgopens hne
  have hsd : s ≠ d := by
    rintro rfl
    exact hgf (Option.some.inj (hdfd.symm.trans hsfd))
  have hsame : (z.procs t).ofile s = (y.procs t).ofile s := by
    rw [hz.procs]
    simp [openedAt, Procs.setFd, hsd]
  obtain rfl : f' = f := Option.some.inj (hsfd.symm.trans (hsame.trans hofile))
  have hffile : z.ftable f' = ⟨.inode e, 1, true, false, 0⟩ :=
    (congrFun hz.ftable f').trans ((update_of_ne hgf.symm ..).trans hfile)
  have hsource : content sb z j = content sb x j := by
    have hji : j.val ≠ b := fun heq => hne (Fin.ext (hib.trans heq.symm))
    rw [FileWrite.content, hz.disk, (htarget.other j hji (hz.disk ▸ hfopens.regular)).1,
      FileWrite.content, hy.disk]
    rfl
  have hold : content sb z i = previous sb t x dstPath := by
    rw [FileWrite.content, hz.disk, ← previous_opened h hy, ← htarget.bytes]
    exact congrArg _ (Fin.ext hib)
  refine ⟨f', g, e₁, e', quiet_of_solo hz htarget.owned htarget.holeFree, hsfd, hdfd,
    hfopens, hgopens, ?_, ?_, ?_, ?_, Nat.zero_le _, hsource, hold⟩
  · rw [hffile]
  · rw [hgfile]
    rfl
  · rw [hffile]
    rfl
  · rw [hgfile]
    rfl

include h hholes hfiles hsrc hdst hj hi hne in
/-- A copy that succeeds is exact if and only if the destination did not have more bytes than
the source. -/
theorem copy_exact_iff (hns : ∀ n ∈ ns, 0 < n ∧ n ≤ 512)
    (hcopy : (copyfd s d ns).run (alone sb t) z = .done (some 0) w) :
    content sb w i = content sb x j ↔
      (previous sb t x dstPath).length ≤ (content sb x j).length := by
  obtain ⟨f, g, e, e', hcopied⟩ := copied_start h hholes hfiles hsrc hdst hj hi hne
  rw [(hcopied.run hne hns hcopy).1, List.append_right_eq_self, List.drop_eq_nil_iff]

end Copy

/-! ## On a small disk -/

theorem holeFree_treeFs : HoleFree treeSb treeFs.disk (dinode treeSb treeFs.disk) := by
  have hcheck : ∀ i : Fin 7, (dinode treeSb treeFs.disk i).type ≠ 0 →
      (dinode treeSb treeFs.disk i).size.toNat ≤ 512 ∧
      ((dinode treeSb treeFs.disk i).size ≠ 0 →
      ptr treeFs.disk (dinode treeSb treeFs.disk i) 0 ≠ 0) := by
    decide +kernel
  refine holeFree_of_mapped fun i hi ht bn hbn => ?_
  obtain ⟨hle, hptr⟩ := hcheck ⟨i, hi⟩ ht
  dsimp only at hle hptr
  obtain rfl : bn = 0 := by omega
  refine hptr fun h0 => ?_
  rw [h0] at hbn
  exact absurd hbn (by decide)

/-- What is left when the calls have been made one after the other. -/
def after : List Call → Sys → Option Sys
  | [], x => some x
  | c :: cs, x =>
    match (prog treeSb c).run (alone treeSb 0) x with
    | .done _ y => after cs y
    | _ => none

/-- What `cp` does up to the end of `copyfd`: the state before it and the state after it. -/
def copied (calls : List Call) (src dst : Path) (ns : List UInt32) :
    Option (Sys × Sys × Sys × Sys) := do
  let x ← after calls (Sys.boot treeFs)
  match (prog treeSb (.open_ (some src) ⟨0⟩)).run (alone treeSb 0) x with
  | .done 0 y =>
    match (prog treeSb (.open_ (some dst) ⟨0x201⟩)).run (alone treeSb 0) y with
    | .done 1 z =>
      match (copyfd 0 1 ns).run (alone treeSb 0) z with
      | .done (some 0) w => some (x, y, z, w)
      | _ => none
    | _ => none
  | _ => none

/-- Two bytes are written to a new file `g`. -/
def twoFiles : List Call :=
  [.open_ (some [103]) ⟨0x201⟩, .write 0 (fun k => UInt8.ofNat (97 + k)) 2, .close 0]

/-- The second byte of `g` is still there after `f` has been copied to it. -/
theorem longer_destination : ∃ x y z w, copied twoFiles [102] [103] [512, 512] = some (x, y, z, w) ∧
    content treeSb x ⟨4, by decide⟩ = [99] ∧ content treeSb x ⟨5, by decide⟩ = [97, 98] ∧
    content treeSb w ⟨5, by decide⟩ = [99, 98] := by
  have hrun : (copied twoFiles [102] [103] [512, 512]).any
      (fun r => decide (content treeSb r.1 ⟨4, by decide⟩ = [99] ∧
      content treeSb r.1 ⟨5, by decide⟩ = [97, 98] ∧
        content treeSb r.2.2.2 ⟨5, by decide⟩ = [99, 98])) = true := by
    decide +kernel
  obtain ⟨⟨x, y, z, w⟩, heq, htest⟩ := (Option.any_eq_true ..).mp hrun
  exact ⟨x, y, z, w, heq, of_decide_eq_true htest⟩

theorem copied_runs {calls : List Call} {src dst : Path} {ns : List UInt32} {x y z w : Sys}
    (h : copied calls src dst ns = some (x, y, z, w)) : after calls (Sys.boot treeFs) = some x ∧
      (prog treeSb (.open_ (some src) ⟨0⟩)).run (alone treeSb 0) x = .done 0 y ∧
      (prog treeSb (.open_ (some dst) ⟨0x201⟩)).run (alone treeSb 0) y = .done 1 z ∧
      (copyfd 0 1 ns).run (alone treeSb 0) z = .done (some 0) w := by
  obtain ⟨x', hx, h⟩ := Option.bind_eq_some_iff.mp h
  split at h
  next y' hy =>
    split at h
    next z' hz =>
      split at h
      next w' hw =>
        cases h
        exact ⟨hx, hy, hz, hw⟩
      next => cases h
    next => cases h
  next => cases h

/-- The byte of `f` is copied to a new name. -/
theorem copy_exact_new_name : ∃ x y z w, copied [] [102] [110] [512, 512] = some (x, y, z, w) ∧
    content treeSb x ⟨4, by decide⟩ = [99] ∧ content treeSb w ⟨5, by decide⟩ = [99] := by
  have hrun : (copied [] [102] [110] [512, 512]).any (fun r =>
      let z := r.2.2.1
      decide (((z.procs 0).ofile 0 = some 0 ∧ (z.ftable 0).type = .inode 1 ∧ 0 < (z.icache 1).ref ∧
        (z.icache 1).inum = 4 ∧ (dinode treeSb z.fs.disk 4).type = tFile) ∧
        ((z.procs 0).ofile 1 = some 1 ∧ (z.ftable 1).type = .inode 2 ∧ 0 < (z.icache 2).ref ∧
        (z.icache 2).inum = 5 ∧ (dinode treeSb z.fs.disk 5).type = tFile) ∧
        previous treeSb 0 r.1 [110] = [] ∧ content treeSb r.1 ⟨4, by decide⟩ = [99])) = true := by
    decide +kernel
  obtain ⟨⟨x, y, z, w⟩, heq, htest⟩ := (Option.any_eq_true ..).mp hrun
  obtain ⟨⟨hs, hf, he, hj, hft⟩, ⟨hd, hg, he', hi, hgt⟩, hprevious, hsource⟩ :=
    of_decide_eq_true htest
  obtain ⟨hx, hsrc, hdst, hcopy⟩ := copied_runs heq
  cases hx
  have hexact := (copy_exact_iff (s := 0) (d := 1) (i := ⟨5, by decide⟩) (j := ⟨4, by decide⟩)
    consistent_tree holeFree_treeFs (fun _ _ => rfl) hsrc hdst ⟨0, 1, hs, hf, he, hj, hft⟩
    ⟨1, 2, hd, hg, he', hi, hgt⟩ (by decide) (by simp) hcopy).mpr (by simp [hprevious])
  exact ⟨_, y, z, w, heq, hsource, hexact.trans hsource⟩

end Xv6.CopyFile
