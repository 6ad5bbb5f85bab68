import Xv6.FileArrays
import Xv6.InodeRuns
import Xv6.MkfsHoles

/-!
# Writing to an open file

`filewrite` of file.c on a regular file. The bytes are written in chunks, each in a
transaction of its own and under the lock of the inode, at the offset that the open file
has then.
-/
namespace Xv6.FileWrite

open Function (update update_self update_of_ne)
open Bytes FsImage BlockMap FsSystem FsCalls Interleave
open FileRuns (boot Consistent)
open FileArrays (array splice writeSpec)
open InodeRuns (alone withEntry withEntry_self)

/-! ## One chunk -/

/-- One round of the loop of `filewrite`. -/
def writeChunk (f : File) (ip : Entry) (src : Buf) (n1 : Nat) : P (Option UInt32) := do
  beginOp
  ilock ip
  let off := (← file (.file f)).off
  let r ← writei ip src off (UInt32.ofNat n1)
  match r with
  | some k => if 0 < k then file (.setOff f (off + k)) else pure ()
  | none => pure ()
  iunlock ip
  endOp
  pure r

theorem filewriteFrom_succ (f : File) (ip : Entry) (src : Buf) (n fuel i : Nat) :
    filewriteFrom f ip src n (fuel + 1) i =
      if i < n then (do
        match ← writeChunk f ip (fun k => src (i + k)) (min (n - i) 1536) with
        | none => pure (-1)
        | some k =>
          if k ≠ UInt32.ofNat (min (n - i) 1536) then kpanic "short filewrite"
          else filewriteFrom f ip src n fuel (i + min (n - i) 1536) : P Int)
      else pure (n : Int) := by
  rw [filewriteFrom]
  split
  case isFalse => rfl
  case isTrue =>
    unfold writeChunk
    simp only [Prog.bind_assoc]
    congr 1; funext _; congr 1; funext _; congr 1; funext ff; congr 1; funext r
    cases r with
    | none => rfl
    | some k =>
      dsimp only
      split <;> rfl

variable {sb : Superblock} {x y : Sys} {t : Proc} {f : File} {e : Entry} {i : Fin sb.ninodes}
  {src : Buf} {n n1 : Nat}

/-- No process is in the file system, and the disk and the cache are in order. -/
structure Quiet (sb : Superblock) (x : Sys) : Prop where
  owned : Owned sb x.fs.disk (dinode sb x.fs.disk)
  holeFree : HoleFree sb x.fs.disk (dinode sb x.fs.disk)
  unlocked : ∀ e, (x.icache e).holder = none
  copies : ∀ e, 0 < (x.icache e).ref → (x.icache e).valid = true →
    (x.icache e).copy = dinode sb x.fs.disk (x.icache e).inum
  unique : ∀ e e', 0 < (x.icache e).ref → 0 < (x.icache e').ref →
    (x.icache e).inum = (x.icache e').inum → e = e'
  range : ∀ e, 0 < (x.icache e).ref → (x.icache e).inum < sb.ninodes

/-- The file `f` is open for the regular file `i`, which is in the cache at `e`. -/
structure Opens (sb : Superblock) (x : Sys) (f : File) (e : Entry) (i : Fin sb.ninodes) : Prop where
  type : (x.ftable f).type = .inode e
  ref : 0 < (x.icache e).ref
  inum : (x.icache e).inum = i
  regular : (dinode sb x.fs.disk i).type = tFile

/-- The bytes of the files. -/
def content (sb : Superblock) (x : Sys) : Fin sb.ninodes → List UInt8 := array (boot sb x.fs)

theorem Quiet.consistent (h : Quiet sb x) : Consistent sb (boot sb x.fs) :=
  ⟨h.owned, h.holeFree, fun _ _ hip => nomatch hip⟩

theorem Opens.length_content (h : Opens sb x f e i) (hq : Quiet sb x) :
    (content sb x i).length = (dinode sb x.fs.disk i).size.toNat :=
  FileArrays.length_array hq.consistent (by
    change (dinode sb x.fs.disk i).type ≠ 0
    rw [h.regular]
    decide)

/-- The state after a chunk that `writei` answered with `r`. -/
def chunked (x : Sys) (f : File) (e : Entry) (ip : Dinode) (fs : Fs) (r : Option UInt32) : Sys :=
  { x with
    fs := fs
    icache := update x.icache e { x.icache e with valid := true, copy := ip }
    ftable := update x.ftable f { x.ftable f with off := (x.ftable f).off + r.getD 0 } }

/-- Process `t` has locked the inode in `e`, whose copy is `ip`. -/
def lockedAt (x : Sys) (t : Proc) (e : Entry) (ip : Dinode) (fs : Fs) (depth : Proc → Int) : Sys :=
  { x with
    fs := fs
    icache := update x.icache e { x.icache e with holder := some t, valid := true, copy := ip }
    depth := depth }

theorem lockedAt_entry (x : Sys) (t : Proc) (e : Entry) (ip : Dinode) (fs : Fs)
    (depth : Proc → Int) :
    (lockedAt x t e ip fs depth).icache e =
      { x.icache e with holder := some t, valid := true, copy := ip } := update_self ..

section Locked

variable (hq : Quiet sb x) (ho : Opens sb x f e i) (t : Proc) (depth : Proc → Int)
include ho

/-- Under the lock `writei` is the code of fs.c on the inode. -/
theorem run_writei (src : Buf) (off m : UInt32) :
    (writei e src off m).run (alone sb t) (lockedAt x t e (dinode sb x.fs.disk i) x.fs depth) =
      match FileData.writei sb i (dinode sb x.fs.disk i) src off m x.fs with
      | .ok ((ip, r), fs) => .done r (lockedAt x t e ip fs depth)
      | .error msg => .panic msg := by
  have htype : (dinode sb x.fs.disk i).type ≠ tDev := by rw [ho.regular]; decide
  generalize hx : lockedAt x t e (dinode sb x.fs.disk i) x.fs depth = x₁
  have hentry := lockedAt_entry x t e (dinode sb x.fs.disk i) x.fs depth
  rw [hx] at hentry
  have hcode : FileData.writei sb (x₁.icache e).inum (x₁.icache e).copy src off m x₁.fs =
      FileData.writei sb i (dinode sb x.fs.disk i) src off m x.fs := by
    rw [hentry, ← hx, ← ho.inum]
    rfl
  refine (Prog.run_bind InodeRuns.run_inode).trans ?_
  rw [hentry]
  dsimp only
  rw [if_neg htype]
  cases hwrite : FileData.writei sb i (dinode sb x.fs.disk i) src off m x.fs with
  | error msg =>
    refine Prog.run_panic ?_
    change Sys.lift x₁.withIno
      (x₁.inoState.onCopy e fun ip => FileData.writei sb (x₁.icache e).inum ip src off m) = _
    rw [InodeRuns.run_onCopy_error (hcode.trans hwrite)]
    rfl
  | ok p =>
    refine Prog.run_perform ?_
    change Sys.lift x₁.withIno
      (x₁.inoState.onCopy e fun ip => FileData.writei sb (x₁.icache e).inum ip src off m) = _
    rw [InodeRuns.run_onCopy_ok (hcode.trans hwrite), hentry, ← hx, lockedAt]
    dsimp only
    rw [Function.update_idem]
    rfl

include hq

/-- The inode is locked and read in. -/
theorem run_lock : (ilock e).run (alone sb t) { x with depth := depth } =
    .done () (lockedAt x t e (dinode sb x.fs.disk i) x.fs depth) := by
  have htype : (dinode sb x.fs.disk (x.icache e).inum).type ≠ 0 := by
    rw [ho.inum, ho.regular]
    decide
  rw [← ho.inum]
  exact InodeRuns.run_ilock (x := { x with depth := depth }) ho.ref
    (hq.unlocked e) htype (hq.copies e ho.ref)

/-- The lock is given up, whatever has become of the offsets. -/
theorem run_unlock (ip : Dinode) (fs : Fs) (F : File → FileS) :
    (iunlock e).run (alone sb t) { lockedAt x t e ip fs depth with ftable := F } = .done ()
      { x with
        fs := fs
        icache := update x.icache e { x.icache e with valid := true, copy := ip }
        ftable := F
        depth := depth } := by
  generalize hz : ({ lockedAt x t e ip fs depth with ftable := F } : Sys) = z
  have hentry : z.icache e = { x.icache e with holder := some t, valid := true, copy := ip } := by
    rw [← hz]
    exact lockedAt_entry x t e ip fs depth
  rw [InodeRuns.run_iunlock (by rw [hentry]) (by rw [hentry]; exact ho.ref), hentry, ← hz]
  simp only [withEntry, lockedAt, Function.update_idem]
  rw [hq.unlocked e]

theorem run_writeChunk (src : Buf) (n1 : Nat) :
    (writeChunk f e src n1).run (alone sb t) x =
      match FileData.writei sb i (dinode sb x.fs.disk i) src (x.ftable f).off
        (UInt32.ofNat n1) x.fs with
      | .ok ((ip, r), fs) => .done r (chunked x f e ip fs r)
      | .error msg => .panic msg := by
  have hwrite :=
    run_writei ho t (update x.depth t (x.depth t + 1)) src (x.ftable f).off (UInt32.ofNat n1)
  refine (Prog.run_bind (InodeRuns.run_beginOp ..)).trans
    ((Prog.run_bind (run_lock hq ho t _)).trans ((Prog.run_bind (InodeRuns.run_file ..)).trans ?_))
  cases hw : FileData.writei sb i (dinode sb x.fs.disk i) src (x.ftable f).off
    (UInt32.ofNat n1) x.fs with
  | error msg =>
    rw [hw] at hwrite
    exact Prog.run_bind_panic hwrite
  | ok p =>
    obtain ⟨⟨ip, r⟩, fs⟩ := p
    rw [hw] at hwrite
    refine (Prog.run_bind hwrite).trans ?_
    have hend : ∀ off : UInt32, (do
        iunlock e
        endOp
        pure r : P (Option UInt32)).run (alone sb t)
          { lockedAt x t e ip fs (update x.depth t (x.depth t + 1)) with
            ftable := update x.ftable f { x.ftable f with off } } = .done r
          { x with
            fs := fs
            icache := update x.icache e { x.icache e with valid := true, copy := ip }
            ftable := update x.ftable f { x.ftable f with off } } := by
      intro off
      rw [Prog.run_bind (run_unlock hq ho ..), Prog.run_bind (InodeRuns.run_endOp ..)]
      dsimp only
      rw [update_self, Function.update_idem, Int.add_sub_cancel, Function.update_eq_self]
      rfl
    -- an offset that nothing is added to is not written
    have hkeep := hend (x.ftable f).off
    rw [Function.update_eq_self] at hkeep
    change _ = Outcome.done r (chunked x f e ip fs r)
    rw [chunked]
    cases r with
    | none => rwa [Option.getD_none, UInt32.add_zero, Function.update_eq_self]
    | some k =>
      rw [Option.getD_some]
      dsimp only
      split
      case isTrue => exact (Prog.run_bind (InodeRuns.run_setOff ..)).trans (hend _)
      case isFalse hk =>
        obtain rfl : k = 0 := by
          rw [UInt32.lt_iff_toNat_lt, UInt32.toNat_zero, Nat.not_lt, Nat.le_zero] at hk
          exact UInt32.toNat_inj.mp hk
        rwa [UInt32.add_zero, Function.update_eq_self]

end Locked

theorem entries_update {ip : Dinode}
    (h : y.icache = update x.icache e { x.icache e with valid := true, copy := ip }) (e' : Entry) :
    (y.icache e').ref = (x.icache e').ref ∧ (y.icache e').inum = (x.icache e').inum ∧
      (y.icache e').holder = (x.icache e').holder := by
  rw [h]
  by_cases he : e' = e
  · rw [he, update_self]
    exact ⟨rfl, rfl, rfl⟩
  · rw [update_of_ne he]
    exact ⟨rfl, rfl, rfl⟩

/-- One inode may have been written, and its entry in the cache is what is on the disk. -/
theorem Quiet.reload {ip : Dinode} (hq : Quiet sb x) (ho : Opens sb x f e i)
    (h : y.icache = update x.icache e { x.icache e with valid := true, copy := ip })
    (hip : ip = dinode sb y.fs.disk i) (howned : Owned sb y.fs.disk (dinode sb y.fs.disk))
    (hholes : HoleFree sb y.fs.disk (dinode sb y.fs.disk))
    (htable : ∀ j, j < sb.ninodes → j ≠ i → dinode sb y.fs.disk j = dinode sb x.fs.disk j) :
    Quiet sb y := by
  have hkeep := entries_update h
  constructor
  case owned => exact howned
  case holeFree => exact hholes
  case unlocked =>
    intro e'
    rw [(hkeep e').2.2]
    exact hq.unlocked e'
  case copies =>
    intro e' hpos hv
    rw [(hkeep e').1] at hpos
    by_cases he : e' = e
    · subst he
      rw [h, update_self, ho.inum]
      exact hip
    · have hne : (x.icache e').inum ≠ i := fun heq =>
        he (hq.unique e' e hpos ho.ref (heq.trans ho.inum.symm))
      rw [h, update_of_ne he] at hv ⊢
      rw [hq.copies e' hpos hv]
      exact (htable _ (hq.range e' hpos) hne).symm
  case unique =>
    intro e' e'' hpos hpos' hinum
    rw [(hkeep e').1] at hpos
    rw [(hkeep e'').1] at hpos'
    rw [(hkeep e').2.1, (hkeep e'').2.1] at hinum
    exact hq.unique e' e'' hpos hpos' hinum
  case range =>
    intro e' hpos
    rw [(hkeep e').1] at hpos
    rw [(hkeep e').2.1]
    exact hq.range e' hpos

/-- A chunk has been written, or refused, as it should be on the array of the file. -/
structure Chunked (x : Sys) (f : File) (e : Entry) (i : Fin sb.ninodes) (src : Buf) (n1 : Nat)
    (r : Option UInt32) (y : Sys) : Prop where
  quiet : Quiet sb y
  opens : Opens sb y f e i
  reply : r = (writeSpec (content sb x i) src (x.ftable f).off (UInt32.ofNat n1)).1
  content : content sb y =
    update (content sb x) i (writeSpec (content sb x i) src (x.ftable f).off (UInt32.ofNat n1)).2
  off : (y.ftable f).off = (x.ftable f).off + r.getD 0
  writable : (y.ftable f).writable = (x.ftable f).writable

theorem chunk_spec {r : Option UInt32} (hq : Quiet sb x) (ho : Opens sb x f e i)
    (hrun : (writeChunk f e src n1).run (alone sb t) x = .done r y) :
    Chunked x f e i src n1 r y := by
  have htype : (dinode sb x.fs.disk i).type ≠ 0 := by rw [ho.regular]; decide
  have hdev : (dinode sb x.fs.disk i).type ≠ tDev := by rw [ho.regular]; decide
  rw [run_writeChunk hq ho] at hrun
  split at hrun
  case h_2 => cases hrun
  case h_1 ip r' fs hwrite =>
  cases hrun
  -- the same write as an operation on files
  have hcons := hq.consistent
  have hbody : FileRuns.dataBody sb (.writei i src (x.ftable f).off (UInt32.ofNat n1))
      (dinode sb x.fs.disk i) x.fs = .ok ((some ip, .count r), fs) := by
    rw [FileRuns.dataBody, if_neg hdev]
    exact bind_of_ok hwrite
  have hstep : FileRuns.step sb (boot sb x.fs)
      (.data (.writei i src (x.ftable f).off (UInt32.ofNat n1))) =
      .ok (.count r, ⟨fs, update (boot sb x.fs).icache i (some ip)⟩) :=
    FileArrays.withInode_of_ok hcons htype hbody
  have hcons' := (hcons.step hstep).1
  obtain ⟨hspec, -⟩ := FileArrays.writei_refines hcons htype hdev hstep
  have hboot : Consistent sb (boot sb fs) :=
    ⟨hcons'.owned, hcons'.holeFree, fun _ _ hip => by cases hip⟩
  have harray := FileArrays.array_congr hcons' hboot rfl
  obtain ⟨hip, -⟩ := hcons'.cached i ip (update_self ..)
  have htable : ∀ j, j < sb.ninodes → j ≠ i → dinode sb fs.disk j = dinode sb x.fs.disk j := by
    intro j hj hji
    have hok := FileData.writei_ok hq.owned hq.holeFree i.isLt htype rfl hwrite
    split at hok
    · rw [hok.2.2]
    · rw [hok.2.table j hj, if_neg hji]
  have hsame : ip.type = (dinode sb x.fs.disk i).type := (FileData.writei_nums hwrite).type
  have hkeep := entries_update (x := x) (y := chunked x f e ip fs r) rfl
  constructor
  case quiet => exact hq.reload ho rfl hip hcons'.owned hcons'.holeFree htable
  case opens =>
    constructor
    case type =>
      rw [chunked]
      dsimp only
      rw [update_self]
      exact ho.type
    case ref => rw [(hkeep e).1]; exact ho.ref
    case inum => rw [(hkeep e).2.1]; exact ho.inum
    case regular =>
      change (dinode sb fs.disk i).type = tFile
      rw [← hip, hsame, ho.regular]
  case reply => exact FileRuns.Reply.count.inj (congrArg Prod.fst hspec).symm
  case content => exact harray.trans (congrArg Prod.snd hspec).symm
  case off =>
    rw [chunked]
    dsimp only
    rw [update_self]
  case writable =>
    rw [chunked]
    dsimp only
    rw [update_self]

/-! ## A call alone -/

/-- The largest size of a file, MAXFILE*BSIZE. -/
abbrev maxSize : Nat := 140 * 512

/-- The most bytes that are written in one transaction. -/
abbrev maxChunk : Nat := 1536

/-- A write goes on where another one ended. -/
theorem splice_splice (src : Buf) {a : List UInt8} {off m k : Nat} (hoff : off ≤ a.length) :
    splice (splice a src off m) (fun j => src (m + j)) (off + m) k = splice a src off (m + k) := by
  have htake : (a.take off).length = off := List.length_take_of_le hoff
  have hfirst : (a.take off ++ (List.range m).map src).length = off + m := by
    rw [List.length_append, htake, List.length_map, List.length_range]
  have hrange : (List.range (m + k)).map src =
      (List.range m).map src ++ (List.range k).map fun j => src (m + j) := by
    rw [List.range_add, List.map_append, List.map_map]
    rfl
  unfold splice
  rw [List.take_append_of_le_length hfirst.ge, List.take_of_length_le hfirst.le, hrange,
    ← hfirst, List.drop_length_add_append, List.drop_drop, hfirst]
  simp [Nat.add_assoc]

theorem splice_zero (a : List UInt8) (src : Buf) (off : Nat) : splice a src off 0 = a := by
  simp [splice]

/-- What `writei` answers for a chunk: at most the largest size is reached. -/
theorem writeSpec_chunk {a : List UInt8} {off : UInt32} (hoff : off.toNat ≤ a.length)
    (hn : n1 ≤ maxChunk) :
    writeSpec a src off (UInt32.ofNat n1) =
      if off.toNat + n1 ≤
        maxSize then (some (UInt32.ofNat n1), splice a src off.toNat n1) else (none, a) := by
  have hnat : (UInt32.ofNat n1).toNat = n1 :=
    UInt32.toNat_ofNat_of_lt' (show n1 < 2 ^ 32 by have : n1 ≤ 1536 := hn; omega)
  rw [writeSpec, hnat]
  split
  case isTrue h => rw [if_neg (show ¬ off.toNat + n1 ≤ 71680 by omega)]
  case isFalse h => rw [if_pos (show off.toNat + n1 ≤ 71680 by omega)]

variable {r : Int} {fuel k : Nat}

theorem Opens.length_le (h : Opens sb x f e i) (hq : Quiet sb x) :
    (content sb x i).length ≤ maxSize := by
  rw [h.length_content hq]
  exact (hq.holeFree.file i.isLt (by rw [h.regular]; decide)).size_le

/-- The loop from an offset in the file on: all bytes are written if they fit, and otherwise
those of the chunks that do. -/
theorem loop_spec (hq : Quiet sb x) (ho : Opens sb x f e i) (hk : k ≤ n)
    (hfuel : n + maxChunk ≤ k + maxChunk * fuel)
    (hoff : (x.ftable f).off.toNat ≤ (content sb x i).length)
    (hrun : (filewriteFrom f e src n fuel k).run (alone sb t) x = .done r y) :
    Quiet sb y ∧ Opens sb y f e i ∧
    if (x.ftable f).off.toNat + (n - k) ≤ maxSize then
      r = n ∧ content sb y i =
        splice (content sb x i) (fun j => src (k + j)) (x.ftable f).off.toNat (n - k) ∧
        (y.ftable f).off = (x.ftable f).off + UInt32.ofNat (n - k)
    else r = -1 ∧
      if (x.ftable f).off.toNat + min (n - k) maxChunk ≤ maxSize then
        (x.ftable f).off.toNat < (y.ftable f).off.toNat
      else content sb y i = content sb x i ∧ (y.ftable f).off = (x.ftable f).off := by
  induction fuel generalizing x k with
  | zero => exact absurd hfuel (show ¬ n + 1536 ≤ k + 1536 * 0 by omega)
  | succ fuel ih =>
    rw [filewriteFrom_succ] at hrun
    by_cases hlt : k < n
    case neg =>
      obtain rfl : k = n := by omega
      have hmax := ho.length_le hq
      rw [if_neg hlt] at hrun
      cases hrun
      rw [if_pos (by omega), Nat.sub_self, splice_zero]
      exact ⟨hq, ho, rfl, rfl, (UInt32.add_zero _).symm⟩
    case pos =>
    rw [if_pos hlt] at hrun
    obtain ⟨c, x₁, hchunk, hrun⟩ := Prog.run_bind_done hrun
    obtain ⟨hq₁, ho₁, hreply, hcontent, hoff₁, -⟩ := chunk_spec hq ho hchunk
    generalize hm : min (n - k) maxChunk = m at *
    have hm : min (n - k) 1536 = m := hm
    have hmax : m ≤ maxChunk := show m ≤ 1536 by omega
    have hcont := congrFun hcontent i
    rw [update_self] at hcont
    rw [writeSpec_chunk hoff hmax] at hreply hcont
    by_cases hfit : (x.ftable f).off.toNat + m ≤ maxSize
    · have hfit' : (x.ftable f).off.toNat + m ≤ 71680 := hfit
      rw [if_pos hfit] at hreply hcont
      subst hreply
      have hmnat : (UInt32.ofNat m).toNat = m :=
        UInt32.toNat_ofNat_of_lt' (show m < 2 ^ 32 by omega)
      have hsum : (x₁.ftable f).off.toNat = (x.ftable f).off.toNat + m := by
        rw [hoff₁, Option.getD_some, UInt32.toNat_add, hmnat, Nat.mod_eq_of_lt (by omega)]
      dsimp only at hcont hrun
      rw [if_neg (not_not.mpr rfl)] at hrun
      have hlen : (x₁.ftable f).off.toNat ≤ (content sb x₁ i).length := by
        rw [hsum, hcont, FileArrays.length_splice hoff]
        exact Nat.le_max_right _ _
      have hfuel' : n + maxChunk ≤ k + m + maxChunk * fuel := by
        have : n + 1536 ≤ k + 1536 * (fuel + 1) := hfuel
        show n + 1536 ≤ k + m + 1536 * fuel
        omega
      obtain ⟨hquiet, hopens, hrest⟩ := ih hq₁ ho₁ (show k + m ≤ n by omega) hfuel' hlen hrun
      refine ⟨hquiet, hopens, ?_⟩
      rw [hsum, show (x.ftable f).off.toNat + m + (n - (k + m)) =
        (x.ftable f).off.toNat + (n - k) by omega] at hrest
      split at hrest
      case isTrue hall =>
        obtain ⟨hr, hbytes, hlast⟩ := hrest
        rw [if_pos hall]
        refine ⟨hr, ?_, ?_⟩
        · rw [hbytes, hcont]
          have hjoin := splice_splice (fun j => src (k + j)) (m := m) (k := n - (k + m)) hoff
          simp only [← Nat.add_assoc] at hjoin
          rw [hjoin, show m + (n - (k + m)) = n - k by omega]
        · rw [hlast, hoff₁, Option.getD_some, UInt32.add_assoc, ← UInt32.ofNat_add,
            show m + (n - (k + m)) = n - k by omega]
      case isFalse hall =>
        obtain ⟨hr, hrest⟩ := hrest
        rw [if_neg hall, if_pos hfit]
        refine ⟨hr, ?_⟩
        split at hrest
        · omega
        · rw [hrest.2, hsum]
          omega
    · rw [if_neg hfit] at hreply hcont
      subst hreply
      have hover : ¬ (x.ftable f).off.toNat + (n - k) ≤ maxSize := by omega
      rw [if_neg hover, if_neg hfit]
      cases hrun
      refine ⟨hq₁, ho₁, rfl, hcont, ?_⟩
      rw [hoff₁, Option.getD_none, UInt32.add_zero]

/-- What a call that wrote `n` bytes or failed should leave. -/
structure AllOrNothing (sb : Superblock) (x : Sys) (f : File) (i : Fin sb.ninodes) (src : Buf)
    (n : Nat) (r : Int) (y : Sys) : Prop where
  failed : r = -1 → content sb y i = content sb x i ∧
    (dinode sb y.fs.disk i).size = (dinode sb x.fs.disk i).size ∧
    (y.ftable f).off = (x.ftable f).off
  done : r = n → content sb y i = splice (content sb x i) src (x.ftable f).off.toNat n ∧
    (y.ftable f).off = (x.ftable f).off + UInt32.ofNat n

/-- The first chunk fits in the largest file and the whole does not. -/
def Cut (sb : Superblock) (x : Sys) (f : File) (i : Fin sb.ninodes) (n : Nat) : Prop :=
  (x.ftable f).writable = true ∧ (x.ftable f).off ≤ (dinode sb x.fs.disk i).size ∧
    (x.ftable f).off.toNat + maxChunk ≤ maxSize ∧ maxSize < (x.ftable f).off.toNat + n

/-- A call from beyond the end of the file writes nothing. -/
theorem loop_beyond (hq : Quiet sb x) (ho : Opens sb x f e i)
    (hoff : (content sb x i).length < (x.ftable f).off.toNat)
    (hrun : (filewriteFrom f e src n (fuel + 1) 0).run (alone sb t) x = .done r y) :
    Opens sb y f e i ∧ Quiet sb y ∧ content sb y i = content sb x i ∧
      (y.ftable f).off = (x.ftable f).off ∧
      (r = n → n = 0) := by
  rw [filewriteFrom_succ] at hrun
  by_cases hlt : 0 < n
  · rw [if_pos hlt] at hrun
    obtain ⟨c, x₁, hchunk, hrun⟩ := Prog.run_bind_done hrun
    obtain ⟨hq₁, ho₁, hreply, hcontent, hoff₁, -⟩ := chunk_spec hq ho hchunk
    have hcont := congrFun hcontent i
    rw [update_self] at hcont
    rw [writeSpec, if_pos (.inl (.inl hoff))] at hreply hcont
    subst hreply
    cases hrun
    refine ⟨ho₁, hq₁, hcont, ?_, fun hr => by omega⟩
    rw [hoff₁, Option.getD_none, UInt32.add_zero]
  · rw [if_neg hlt] at hrun
    cases hrun
    exact ⟨ho, hq, rfl, rfl, fun _ => by omega⟩

theorem run_filewrite (ho : Opens sb x f e i) (hw : (x.ftable f).writable = true) :
    (filewrite f src n).run (alone sb t) x =
    (filewriteFrom f e src n (n / 1536 + 2) 0).run (alone sb t) x := by
  unfold filewrite
  rw [Prog.run_bind (InodeRuns.run_file ..), hw, ho.type]
  rfl

/-- A call that returns has written all or nothing, exactly if the largest size does not cut
it after its first chunk. -/
theorem all_or_nothing_iff (hq : Quiet sb x) (ho : Opens sb x f e i)
    (hrun : (filewrite f src n).run (alone sb t) x = .done r y) :
    AllOrNothing sb x f i src n r y ↔ ¬ Cut sb x f i n := by
  have hsize := ho.length_content hq
  have hsame : Quiet sb y → Opens sb y f e i → content sb y i = content sb x i →
      (dinode sb y.fs.disk i).size = (dinode sb x.fs.disk i).size := by
    intro hqy hoy heq
    have hlen := hoy.length_content hqy
    rw [heq, hsize] at hlen
    exact UInt32.toNat_inj.mp hlen.symm
  by_cases hw : (x.ftable f).writable = true
  case neg =>
    unfold filewrite at hrun
    rw [Prog.run_bind (InodeRuns.run_file ..), if_pos (by simpa using hw)] at hrun
    cases hrun
    exact iff_of_true ⟨fun _ => ⟨rfl, rfl, rfl⟩, fun hr => by omega⟩ fun hcut => hw hcut.1
  rw [run_filewrite ho hw] at hrun
  by_cases hoff : (x.ftable f).off.toNat ≤ (content sb x i).length
  case neg =>
    obtain ⟨hoy, hqy, hcont, hstay, hdone⟩ := loop_beyond hq ho (Nat.not_le.mp hoff) hrun
    refine iff_of_true ⟨fun _ => ⟨hcont, hsame hqy hoy hcont, hstay⟩, fun hr => ?_⟩ fun hcut => ?_
    · obtain rfl := hdone hr
      rw [splice_zero]
      exact ⟨hcont, hstay.trans (UInt32.add_zero _).symm⟩
    · rw [hsize] at hoff
      exact hoff (UInt32.le_iff_toNat_le.mp hcut.2.1)
  have hfuel : n + maxChunk ≤ 0 + maxChunk * (n / 1536 + 2) :=
    show n + 1536 ≤ 0 + 1536 * (n / 1536 + 2) by omega
  obtain ⟨hqy, hoy, hspec⟩ := loop_spec hq ho (Nat.zero_le n) hfuel hoff hrun
  simp only [Nat.sub_zero, Nat.zero_add] at hspec
  split at hspec
  case isTrue hfit =>
    obtain ⟨hr, hcont, hnew⟩ := hspec
    exact iff_of_true ⟨fun hneg => by omega, fun _ => ⟨hcont, hnew⟩⟩ fun hcut => by
      have := hcut.2.2.2
      omega
  case isFalse hfit =>
    obtain ⟨hr, hspec⟩ := hspec
    have hneg : r ≠ n := by omega
    have hchunk : min n maxChunk ≤ maxChunk := Nat.min_le_right ..
    split at hspec
    case isTrue hfirst =>
      have hlong : min n maxChunk = maxChunk := by omega
      refine iff_of_false (fun hall => ?_) (not_not.mpr ⟨hw, ?_, by omega, by omega⟩)
      · have := (hall.failed hr).2.2
        rw [this] at hspec
        exact Nat.lt_irrefl _ hspec
      · rw [hsize] at hoff
        exact UInt32.le_iff_toNat_le.mpr hoff
    case isFalse hfirst =>
      refine iff_of_true
        ⟨fun _ => ⟨hspec.1, hsame hqy hoy hspec.1, hspec.2⟩, fun h => absurd h hneg⟩ fun hcut => ?_
      have := hcut.2.2.1
      omega

/-! ## A file that is open -/

/-- The file with inode `i` is open at this offset, and nothing else is. -/
def opened (d : Disk) (i : Nat) (off : UInt32) : Sys where
  fs := ⟨d, 0, []⟩
  icache e := if e = 0 then ⟨i, 1, false, none, .zero⟩ else ⟨0, 0, false, none, .zero⟩
  ftable f := if f = 0 then ⟨.inode 0, 1, true, true, off⟩ else ⟨.none, 0, false, false, 0⟩
  pipes _ := ⟨false, false, 0⟩
  npipe := 0
  procs _ := ⟨.unused, fun _ => none, none⟩
  depth _ := 0

theorem quiet_opened {d : Disk} (howned : Owned sb d (dinode sb d))
    (hhole : HoleFree sb d (dinode sb d)) (i : Fin sb.ninodes) (off : UInt32) :
    Quiet sb (opened d i off) := by
  have hzero : ∀ e, 0 < ((opened d i off).icache e).ref → e = 0 := by
    intro e
    unfold opened
    dsimp only
    split
    · exact fun _ => ‹_›
    · exact fun hlt => absurd hlt (by decide)
  constructor
  case owned => exact howned
  case holeFree => exact hhole
  case unlocked =>
    intro e
    unfold opened
    dsimp only
    split <;> rfl
  case copies =>
    intro e hpos hv
    rw [hzero e hpos] at hv
    cases hv
  case unique => exact fun e e' hpos hpos' _ => (hzero e hpos).trans (hzero e' hpos').symm
  case range =>
    intro e hpos
    rw [hzero e hpos]
    exact i.isLt

theorem opens_opened {d : Disk} {i : Fin sb.ninodes} (h : (dinode sb d i).type = tFile)
    (off : UInt32) :
    Opens sb (opened d i off) 0 0 i :=
  ⟨rfl, Int.one_pos, rfl, h⟩

/-! ## A file of the largest size -/

/-- A file of 140 blocks. -/
def fullFile : Mkfs.HostFile where
  arg := [102]
  chunks := List.replicate 140 (List.replicate 512 0)
  string := by decide
  reads c hc := by
    rw [List.eq_of_mem_replicate hc, List.length_replicate]
    decide

theorem length_fullFile : fullFile.data.length = maxSize := by
  rw [Mkfs.HostFile.data, List.length_flatten]
  change ((List.replicate 140 (List.replicate 512 (0 : UInt8))).map List.length).sum = _
  rw [List.map_replicate, List.length_replicate, List.sum_replicate]
  rfl

theorem fits_full : Mkfs.Fits [fullFile] := by
  have hneeded : Mkfs.needed [fullFile] = 141 := by
    simp [Mkfs.needed, length_fullFile, Mkfs.blocksOf, maxSize]
  refine ⟨by decide, ?_⟩
  rw [Mkfs.total, hneeded]
  decide

/-- mkfs gives a disk with this file. -/
theorem mkfs_full : ∃ img, Mkfs.mkfs [fullFile] = .ok img ∧
    (∀ off, Quiet Mkfs.sb (opened img.disk 2 off)) ∧
    (∀ off, Opens Mkfs.sb (opened img.disk 2 off) 0 0 ⟨2, by decide⟩) ∧
    (dinode Mkfs.sb img.disk 2).size.toNat = maxSize := by
  obtain ⟨s, hstage, hmkfs⟩ := Mkfs.mkfs_spec fits_full fun f hf => by
    rw [List.mem_singleton.mp hf]
    exact ⟨by decide, length_fullFile.le⟩
  have hnode := hstage.image.node 2 (by decide) (by rw [hstage.freeinode]; decide)
  have hsame : dinode Mkfs.sb (Mkfs.finished s).disk 2 = dinode Mkfs.sb s.disk 2 := by
    rw [Mkfs.dinode_finished (by decide), if_neg (by decide)]
  refine ⟨_, hmkfs, ?_, ?_, ?_⟩
  · exact quiet_opened (Mkfs.owned_finished hstage.image)
      ((Mkfs.holeFree_finished hstage).mpr (by decide)) ⟨2, by decide⟩
  · refine opens_opened (i := ⟨2, by decide⟩) ?_
    rw [hsame, hnode.1]
    rfl
  · rw [hsame, hnode.2.2]
    exact length_fullFile

/-- A chunk that `writei` answers ends. -/
theorem run_chunk_done {r : Option UInt32} {ip : Dinode} {fs : Fs} (hq : Quiet sb x)
    (ho : Opens sb x f e i)
    (h : FileData.writei sb i (dinode sb x.fs.disk i) src (x.ftable f).off (UInt32.ofNat n1) x.fs =
      .ok ((ip, r), fs)) :
    ∃ y, (writeChunk f e src n1).run (alone sb t) x = .done r y ∧ Chunked x f e i src n1 r y := by
  have hrun := run_writeChunk hq ho t src n1
  rw [h] at hrun
  exact ⟨_, hrun, chunk_spec hq ho hrun⟩

/-- A chunk that goes to bytes of the file is written. -/
theorem run_chunk_inside (hq : Quiet sb x) (ho : Opens sb x f e i) (hn : n1 ≤ maxChunk)
    (hin : (x.ftable f).off.toNat + n1 ≤ (content sb x i).length) :
    ∃ y, (writeChunk f e src n1).run (alone sb t) x = .done (some (UInt32.ofNat n1)) y ∧
      Chunked x f e i src n1 (some (UInt32.ofNat n1)) y := by
  have htype : (dinode sb x.fs.disk i).type ≠ 0 := by rw [ho.regular]; decide
  have hnat : (UInt32.ofNat n1).toNat = n1 :=
    UInt32.toNat_ofNat_of_lt' (show n1 < 2 ^ 32 by have : n1 ≤ 1536 := hn; omega)
  have hmax := ho.length_le hq
  rw [ho.length_content hq] at hin
  obtain ⟨⟨⟨ip, r⟩, fs⟩, hok⟩ : ∃ p, FileData.writei sb i
      (dinode sb x.fs.disk i) src (x.ftable f).off (UInt32.ofNat n1) x.fs = .ok p := by
    refine FileData.writei_present hq.owned i.isLt htype fun k hk => hq.holeFree i i.isLt htype _ ?_
    omega
  obtain ⟨y, hrun, hspec⟩ := run_chunk_done (t := t) hq ho hok
  have hreply := hspec.reply
  rw [← ho.length_content hq] at hin
  rw [writeSpec_chunk (by omega) hn, if_pos (by omega)] at hreply
  subst hreply
  exact ⟨y, hrun, hspec⟩

/-- A file of the largest size is open 1536 bytes before its end, and 1537 bytes are
written: the call fails after it has written the first 1536. -/
theorem cut_write :
    ∃ img y, Mkfs.mkfs [fullFile] = .ok img ∧ Quiet Mkfs.sb (opened img.disk 2 70144) ∧
    Opens Mkfs.sb (opened img.disk 2 70144) 0 0 ⟨2, by decide⟩ ∧
    (filewrite 0 (fun _ => 1) 1537).run (alone Mkfs.sb 0) (opened img.disk 2 70144) = .done (-1) y ∧
    (y.ftable 0).off = 71680 ∧
    ¬ AllOrNothing Mkfs.sb (opened img.disk 2 70144) 0 ⟨2, by decide⟩ (fun _ => 1) 1537 (-1) y := by
  obtain ⟨img, hmkfs, hquiet, hopens, hsize⟩ := mkfs_full
  have hq := hquiet 70144
  have ho := hopens 70144
  have hlen := (ho.length_content hq).trans hsize
  obtain ⟨x₁, hrun₁, hfirst⟩ : ∃ y, (writeChunk 0 0 (fun _ => 1) 1536).run (alone Mkfs.sb 0)
      (opened img.disk 2 70144) = .done (some 1536) y ∧ _ :=
    run_chunk_inside hq ho (show 1536 ≤ 1536 by decide) (hlen ▸ show 70144 + 1536 ≤ 71680 by decide)
  have hoff : (x₁.ftable 0).off = 71680 := hfirst.off
  obtain ⟨x₂, hrun₂, hsecond⟩ : ∃ y, (writeChunk 0 0 (fun _ => 1) 1).run
      (alone Mkfs.sb 0) x₁ = .done none y ∧ _ :=
    run_chunk_done hfirst.quiet hfirst.opens (FileData.writei_beyond (by rw [hoff]; decide))
  have hrun : (filewrite 0 (fun _ => 1) 1537).run (alone Mkfs.sb 0)
      (opened img.disk 2 70144) = .done (-1) x₂ := by
    rw [run_filewrite ho rfl, filewriteFrom_succ, if_pos (by decide)]
    refine (Prog.run_bind hrun₁).trans ?_
    change (filewriteFrom 0 0 (fun _ => 1) 1537 2 1536).run _ _ = _
    rw [filewriteFrom_succ, if_pos (by decide)]
    exact Prog.run_bind hrun₂
  have hend : (x₂.ftable 0).off = 71680 := by rw [hsecond.off, hoff]; rfl
  refine ⟨img, x₂, hmkfs, hq, ho, hrun, hend, fun hall => ?_⟩
  have hstay := (hall.failed rfl).2.2
  rw [hend] at hstay
  exact absurd hstay (show (71680 : UInt32) ≠ 70144 by decide)

/-- At the start of that file a byte is written. -/
theorem all_or_nothing_one : ∃ img y, Mkfs.mkfs [fullFile] = .ok img ∧
    (filewrite 0 (fun _ => 1) 1).run (alone Mkfs.sb 0) (opened img.disk 2 0) = .done 1 y ∧
    AllOrNothing Mkfs.sb (opened img.disk 2 0) 0 ⟨2, by decide⟩ (fun _ => 1) 1 1 y := by
  obtain ⟨img, hmkfs, hquiet, hopens, hsize⟩ := mkfs_full
  have hq := hquiet 0
  have ho := hopens 0
  have hlen := (ho.length_content hq).trans hsize
  obtain ⟨x₁, hrun₁, -⟩ : ∃ y, (writeChunk 0 0 (fun _ => 1) 1).run (alone Mkfs.sb 0)
      (opened img.disk 2 0) = .done (some 1) y ∧ _ :=
    run_chunk_inside hq ho (show 1 ≤ 1536 by decide) (hlen ▸ show 0 + 1 ≤ 71680 by decide)
  have hrun : (filewrite 0 (fun _ => 1) 1).run (alone Mkfs.sb 0)
      (opened img.disk 2 0) = .done 1 x₁ := by
    rw [run_filewrite ho rfl, filewriteFrom_succ, if_pos (by decide)]
    exact Prog.run_bind hrun₁
  refine ⟨img, x₁, hmkfs, hrun, (all_or_nothing_iff hq ho hrun).mpr fun hcut => ?_⟩
  exact absurd hcut.2.2.2 (show ¬ 71680 < 0 + 1 by decide)

end Xv6.FileWrite
