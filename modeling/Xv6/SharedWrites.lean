import Mathlib.Algebra.Order.BigOperators.Group.Finset
import Xv6.FileWrite
import Xv6.FreeBlocks

/-!
# Writers that share an open file

Calls of `filewrite` through one open file, by any processes. They are interleaved where a
call has ended a transaction: the inode is not locked then, and the next chunk of the call
goes to the offset that the open file has when its turn comes.
-/
namespace Xv6.SharedWrites

open Function (update update_self update_of_ne)
open Bytes FsImage FsSystem FsCalls Interleave FileWrite
open FileArrays (splice)
open FreeBlocks (free writei_of_free)
open InodeRuns (alone)

/-! ## Turns -/

/-- A call of `filewrite`. -/
structure Call where
  proc : Proc
  src : Buf
  n : Nat

/-- The chunk with number `k`. -/
def Call.chunk (c : Call) (k : Nat) : List UInt8 :=
  (List.range (min (c.n - maxChunk * k) maxChunk)).map fun j => c.src (maxChunk * k + j)

/-- How many chunks the call has. -/
def Call.chunks (c : Call) : Nat := (c.n + (maxChunk - 1)) / maxChunk

/-- The state, and for each call what remains of its program. -/
structure State (ι : Type) where
  sys : Sys
  prog : ι → P Int

/-- A call goes on to the end of its next transaction, or other processes change the state. -/
inductive Turn (ι : Type) where
  | call (c : ι)
  | other (x : Sys)

def isEndOp : Op → Bool
  | .endOp => true
  | _ => false

section

variable {ι : Type} [DecidableEq ι] (sb : Superblock) (calls : ι → Call)

def next (s : State ι) : Turn ι → Option (State ι)
  | .call c =>
    match (s.prog c).runTo isEndOp (alone sb (calls c).proc) s.sys with
    | .done p y => some ⟨y, update s.prog c p⟩
    | _ => none
  | .other x => some { s with sys := x }

/-- All calls are about to start. -/
def start (f : File) (x : Sys) : State ι := ⟨x, fun c => filewrite f (calls c).src (calls c).n⟩

/-- What other processes do does not touch the file `i`, which is open as `f`. -/
structure Apart (f : File) (e : Entry) (i : Fin sb.ninodes) (x y : Sys) : Prop where
  quiet : Quiet sb y
  opens : Opens sb y f e i
  content : content sb y i = content sb x i
  off : (y.ftable f).off = (x.ftable f).off
  writable : (y.ftable f).writable = (x.ftable f).writable

/-- There is no other writer. -/
def NoOtherWriter (f : File) (e : Entry) (i : Fin sb.ninodes) (s : State ι) : Turn ι → Prop
  | .call _ => True
  | .other y => Apart sb f e i s.sys y

end

/-! ## One turn of a call -/

variable {sb : Superblock} {x y : Sys} {t : Proc} {f : File} {e : Entry} {i : Fin sb.ninodes}
  {src : Buf} {n n1 k fuel : Nat}

/-- A chunk up to the end of its transaction. -/
def writeLocked (f : File) (ip : Entry) (src : Buf) (n1 : Nat) : P (Option UInt32) := do
  beginOp
  ilock ip
  let off := (← file (.file f)).off
  let r ← writei ip src off (UInt32.ofNat n1)
  match r with
  | some k => if 0 < k then file (.setOff f (off + k)) else pure ()
  | none => pure ()
  iunlock ip
  pure r

theorem writeChunk_eq (f : File) (ip : Entry) (src : Buf) (n1 : Nat) :
    writeChunk f ip src n1 = writeLocked f ip src n1 >>= fun r => endOp >>= fun _ => pure r := by
  unfold writeChunk writeLocked
  simp only [Prog.bind_assoc]
  congr 1; funext _; congr 1; funext _; congr 1; funext ff; congr 1; funext r
  cases r with
  | none => rfl
  | some k =>
    dsimp only
    split <;> rfl

theorem free_writeLocked (f : File) (ip : Entry) (src : Buf) (n1 : Nat) :
    (writeLocked f ip src n1).Free isEndOp := by
  have hilock : (ilock ip).Free isEndOp :=
    Prog.free_bind (Prog.free_perform rfl) fun _ => Prog.free_bind (Prog.free_perform rfl) fun _ =>
      Prog.free_perform rfl
  have hwritei : ∀ off n, (writei ip src off n).Free isEndOp := by
    intro off n
    refine Prog.free_bind (Prog.free_perform rfl) fun node => ?_
    split
    · split
      · refine Prog.free_bind (Prog.free_perform rfl)
          fun _ => Prog.free_bind hilock fun _ => trivial
      · trivial
    · exact Prog.free_perform rfl
  refine Prog.free_bind (Prog.free_perform rfl) fun _ => Prog.free_bind hilock fun _ =>
    Prog.free_bind (Prog.free_perform rfl) fun ff => Prog.free_bind (hwritei _ _) fun r => ?_
  have hend : (iunlock ip >>= fun _ => pure r : P (Option UInt32)).Free isEndOp :=
    Prog.free_bind (Prog.free_perform rfl) fun _ => trivial
  cases r with
  | none => exact hend
  | some k =>
    dsimp only
    split
    · exact Prog.free_bind (Prog.free_perform rfl) fun _ => hend
    · exact hend

/-- A turn that starts with a chunk ends with it. -/
theorem runTo_chunk (rest : Option UInt32 → P Int) :
    (writeChunk f e src n1 >>= rest).runTo isEndOp (alone sb t) x =
      match (writeChunk f e src n1).run (alone sb t) x with
      | .done r y => .done (rest r) y
      | .blocked => .blocked
      | .panic msg => .panic msg := by
  rw [writeChunk_eq, Prog.bind_assoc, Prog.runTo_bind (free_writeLocked ..), Prog.run_bind_eq]
  cases (writeLocked f e src n1).run (alone sb t) x with
  | blocked => rfl
  | panic msg => rfl
  | done r x₁ =>
    dsimp only
    rw [Prog.run_bind (InodeRuns.run_endOp ..)]
    rfl

/-- In the first turn the open file is looked at first. -/
theorem runTo_filewrite (ho : Opens sb x f e i) (hw : (x.ftable f).writable = true) :
    (filewrite f src n).runTo isEndOp (alone sb t) x =
      (filewriteFrom f e src n (n / 1536 + 2) 0).runTo isEndOp (alone sb t) x := by
  have hfile : (file (.file f)).Free isEndOp := Prog.free_perform rfl
  unfold filewrite
  rw [Prog.runTo_bind hfile, InodeRuns.run_file]
  dsimp only
  rw [hw, ho.type]
  rfl

theorem splice_end (a : List UInt8) (src : Buf) (n : Nat) :
    splice a src a.length n = a ++ (List.range n).map src := by
  simp [splice]

/-- The turn of a call that has written `k` bytes. -/
theorem turn_spec {p : P Int} (hq : Quiet sb x) (ho : Opens sb x f e i)
    (hend : (x.ftable f).off.toNat = (content sb x i).length) (hk : k < n)
    (hroom : (content sb x i).length + min (n - k) maxChunk ≤ maxSize)
    (hrun : (filewriteFrom f e src n (fuel + 1) k).runTo isEndOp (alone sb t) x = .done p y) :
    p = filewriteFrom f e src n fuel (k + min (n - k) maxChunk) ∧ Quiet sb y ∧ Opens sb y f e i ∧
      (y.ftable f).writable = (x.ftable f).writable ∧
      content sb y i =
      content sb x i ++ (List.range (min (n - k) maxChunk)).map (fun j => src (k + j)) ∧
      (y.ftable f).off.toNat = (content sb y i).length := by
  generalize hm : min (n - k) maxChunk = m at *
  have hm : min (n - k) 1536 = m := hm
  rw [filewriteFrom_succ, if_pos hk, hm] at hrun
  rw [runTo_chunk] at hrun
  split at hrun
  case h_2 | h_3 => cases hrun
  case h_1 r _ hchunk =>
  cases hrun
  obtain ⟨hqy, hoy, hreply, hcontent, hoff, hw⟩ := chunk_spec hq ho hchunk
  have hcont := congrFun hcontent i
  rw [update_self] at hcont
  rw [writeSpec_chunk hend.le (show m ≤ 1536 by omega), if_pos (by omega)] at hreply hcont
  dsimp only at hcont
  rw [hend, splice_end] at hcont
  subst hreply
  have hnat : (UInt32.ofNat m).toNat = m := UInt32.toNat_ofNat_of_lt' (show m < 2 ^ 32 by omega)
  have hmax : (content sb x i).length + m ≤ 71680 := hroom
  refine ⟨if_neg (not_not.mpr rfl), hqy, hoy, hw, hcont, ?_⟩
  rw [hoff, Option.getD_some, UInt32.toNat_add, hnat, hend, Nat.mod_eq_of_lt (by omega), hcont,
    List.length_append, List.length_map, List.length_range]

/-- A turn is made if there are blocks for its chunk. -/
theorem turn_of_free (hq : Quiet sb x) (ho : Opens sb x f e i) (hk : k < n)
    (hfree : 8 ≤ (free sb x.fs.disk).card) :
    ∃ p y, (filewriteFrom f e src n (fuel + 1) k).runTo isEndOp (alone sb t) x = .done p y := by
  have hlen : (UInt32.ofNat (min (n - k) 1536)).toNat ≤ 1536 := by
    rw [UInt32.toNat_ofNat_of_lt' (show min (n - k) 1536 < 2 ^ 32 by omega)]
    exact Nat.min_le_right ..
  obtain ⟨⟨⟨ip, r⟩, fs⟩, hwrite⟩ : ∃ r, FileData.writei sb i (dinode sb x.fs.disk i)
      (fun j => src (k + j)) (x.ftable f).off (UInt32.ofNat (min (n - k) 1536)) x.fs = .ok r :=
    writei_of_free hq.owned i.isLt (by rw [ho.regular]; decide) hlen hfree
  rw [filewriteFrom_succ, if_pos hk, runTo_chunk, run_writeChunk hq ho, hwrite]
  exact ⟨_, _, rfl⟩

/-! ## All turns -/

section

variable {ι : Type} [DecidableEq ι] {calls : ι → Call} {order : List (ι × Nat)} {m : ι → Nat}
  {s s' : State ι} {c : ι}

/-- The numbers of the chunks of a call in this order of chunks. -/
def numbersOf (order : List (ι × Nat)) (c : ι) : List Nat :=
  (order.filter fun q => q.1 = c).map Prod.snd

theorem numbersOf_append (order : List (ι × Nat)) (c c' : ι) (k : Nat) :
    numbersOf (order ++ [(c, k)]) c' = numbersOf order c' ++ if c = c' then [k] else [] := by
  by_cases h : c = c' <;> simp [numbersOf, List.filter_append, h]

/-- What a call that has written `m` chunks goes on with. -/
def Remaining (f : File) (e : Entry) (c : Call) (m : Nat) (p : P Int) : Prop :=
  p = filewrite f c.src c.n ∧ m = 0 ∨
    ∃ fuel, p = filewriteFrom f e c.src c.n fuel (min (maxChunk * m) c.n) ∧
    c.n + maxChunk ≤ min (maxChunk * m) c.n + maxChunk * fuel ∧ m ≤ c.chunks

/-- The first turn of a call starts the loop. -/
theorem Remaining.runTo {c : Call} {m : Nat} {p : P Int} (h : Remaining f e c m p)
    (ho : Opens sb x f e i) (hw : (x.ftable f).writable = true) :
    ∃ fuel, p.runTo isEndOp (alone sb t) x =
        (filewriteFrom f e c.src c.n (fuel + 1) (min (maxChunk * m) c.n)).runTo
        isEndOp (alone sb t) x ∧
      c.n + maxChunk ≤ min (maxChunk * m) c.n + maxChunk * (fuel + 1) ∧ m ≤ c.chunks := by
  obtain ⟨rfl, rfl⟩ | ⟨fuel, rfl, hfuel, hm⟩ := h
  · refine ⟨c.n / 1536 + 1, ?_, ?_, Nat.zero_le _⟩
    · rw [runTo_filewrite ho hw, Nat.mul_zero, Nat.zero_min]
    · rw [Nat.mul_zero, Nat.zero_min]
      exact show c.n + 1536 ≤ 0 + 1536 * (c.n / 1536 + 1 + 1) by omega
  · cases fuel with
    | zero =>
      have : c.n + 1536 ≤ min (1536 * m) c.n + 1536 * 0 := hfuel
      omega
    | succ fuel => exact ⟨fuel, rfl, hfuel, hm⟩

/-- A call that has returned has written all its chunks. -/
theorem Remaining.returned {c : Call} {m : Nat} {r : Int} (h : Remaining f e c m (pure r)) :
    r = c.n ∧ m = c.chunks := by
  obtain ⟨hp, -⟩ | ⟨fuel, hp, hfuel, hm⟩ := h
  · cases hp
  · cases fuel with
    | zero =>
      have : c.n + 1536 ≤ min (1536 * m) c.n + 1536 * 0 := hfuel
      omega
    | succ fuel =>
      rw [filewriteFrom_succ] at hp
      split at hp
      case isTrue => cases hp
      case isFalse hk =>
        cases hp
        have hk : ¬ min (1536 * m) c.n < c.n := hk
        have hm : m ≤ (c.n + 1535) / 1536 := hm
        exact ⟨rfl, show m = (c.n + 1535) / 1536 by omega⟩

variable [Fintype ι]

/-- The chunks of `order` have been appended, `m c` of each call `c`. -/
structure Appended (sb : Superblock) (calls : ι → Call) (f : File) (e : Entry) (i : Fin sb.ninodes)
    (x : Sys) (order : List (ι × Nat)) (m : ι → Nat) (s : State ι) : Prop where
  quiet : Quiet sb s.sys
  opens : Opens sb s.sys f e i
  writable : (s.sys.ftable f).writable = true
  bytes : content sb s.sys i = content sb x i ++ order.flatMap fun q => (calls q.1).chunk q.2
  off : (s.sys.ftable f).off.toNat = (content sb s.sys i).length
  numbers : ∀ c, numbersOf order c = List.range (m c)
  room : (content sb s.sys i).length + ∑ c, ((calls c).n - maxChunk * m c) ≤ maxSize
  code : ∀ c, Remaining f e (calls c) (m c) (s.prog c)

/-- One chunk less is left. -/
theorem sum_left (calls : ι → Call) (m : ι → Nat) (c : ι) :
    ∑ c', ((calls c').n - maxChunk * update m c (m c + 1) c') + min
      ((calls c).n - maxChunk * m c) maxChunk =
      ∑ c', ((calls c').n - maxChunk * m c') := by
  rw [← Finset.add_sum_erase _ _
    (Finset.mem_univ c), ← Finset.add_sum_erase _ _ (Finset.mem_univ c), update_self]
  have hrest : ∑ c' ∈ Finset.univ.erase c, ((calls c').n - maxChunk * update m c (m c + 1) c') =
      ∑ c' ∈ Finset.univ.erase c, ((calls c').n - maxChunk * m c') := by
    refine Finset.sum_congr rfl fun c' hc' => ?_
    rw [update_of_ne (Finset.ne_of_mem_erase hc')]
  rw [hrest]
  have hone : (calls c).n - 1536 * (m c + 1) + min ((calls c).n - 1536 * m c) 1536 =
      (calls c).n - 1536 * m c := by
    omega
  rw [Nat.add_right_comm]
  exact congrArg (· + _) hone

section

variable (h : Appended sb calls f e i x order m s)
include h

/-- A turn of a call appends its next chunk, if there is one. -/
theorem Appended.call (hs : next sb calls s (.call c) = some s') :
    ∃ order' m', Appended sb calls f e i x order' m' s' := by
  obtain ⟨fuel, hsame, hfuel, hm⟩ := (h.code c).runTo (t := (calls c).proc) h.opens h.writable
  rw [next, hsame] at hs
  split at hs
  case h_2 => cases hs
  case h_1 p y hrun =>
  cases hs
  by_cases hk : maxChunk * m c < (calls c).n
  · -- another chunk
    have hk' : 1536 * m c < (calls c).n := hk
    have hmin : min (maxChunk * m c) (calls c).n = maxChunk * m c := Nat.min_eq_left hk.le
    rw [hmin] at hrun hfuel
    have hsum := sum_left calls m c
    have hroom := h.room
    obtain ⟨rfl, hq, ho, hw, hbytes, hoff⟩ := turn_spec h.quiet h.opens h.off hk (by omega) hrun
    refine ⟨order ++ [(c, m c)], update m c (m c + 1), hq, ho,
      hw.trans h.writable, ?_, hoff, ?_, ?_, ?_⟩
    · rw [hbytes, h.bytes, List.flatMap_append, List.flatMap_singleton, List.append_assoc]
      rfl
    · intro c'
      rw [numbersOf_append, h.numbers c']
      by_cases hc : c = c'
      · subst hc
        rw [if_pos rfl, update_self, List.range_succ]
      · rw [if_neg hc, update_of_ne (Ne.symm hc), List.append_nil]
    · rw [hbytes, List.length_append, List.length_map, List.length_range]
      omega
    · intro c'
      by_cases hc : c' = c
      · subst hc
        dsimp only
        rw [update_self, update_self]
        refine .inr ⟨fuel, congrArg _ ?_, ?_, ?_⟩
        · exact show 1536 * m c' + min ((calls c').n - 1536 * m c') 1536 =
            min (1536 * (m c' + 1)) (calls c').n by omega
        · have : (calls c').n + 1536 ≤ 1536 * m c' + 1536 * (fuel + 1) := hfuel
          exact show (calls c').n + 1536 ≤
            min (1536 * (m c' + 1)) (calls c').n + 1536 * fuel by omega
        · exact show m c' + 1 ≤ ((calls c').n + 1535) / 1536 by omega
      · dsimp only
        rw [update_of_ne hc, update_of_ne hc]
        exact h.code c'
  · -- the call returns
    have hmin : min (maxChunk * m c) (calls c).n = (calls c).n :=
      Nat.min_eq_right (Nat.not_lt.mp hk)
    rw [hmin, filewriteFrom_succ, if_neg (Nat.lt_irrefl _)] at hrun
    cases hrun
    refine ⟨order, m, h.quiet, h.opens, h.writable, h.bytes, h.off, h.numbers, h.room, fun c' => ?_⟩
    by_cases hc : c' = c
    · subst hc
      dsimp only
      rw [update_self]
      refine .inr ⟨fuel + 1, ?_, hfuel, hm⟩
      rw [hmin, filewriteFrom_succ, if_neg (Nat.lt_irrefl _)]
      rfl
    · dsimp only
      rw [update_of_ne hc]
      exact h.code c'

theorem Appended.turn {a : Turn ι} (hok : NoOtherWriter sb f e i s a)
    (hs : next sb calls s a = some s') : ∃ order' m', Appended sb calls f e i x order' m' s' := by
  cases a with
  | call c => exact h.call hs
  | other y =>
    cases hs
    have hok : Apart sb f e i s.sys y := hok
    refine ⟨order, m, hok.quiet, hok.opens, hok.writable.trans h.writable,
      hok.content.trans h.bytes, ?_, h.numbers, ?_, h.code⟩
    · dsimp only
      rw [hok.off, hok.content, h.off]
    · dsimp only
      rw [hok.content]
      exact h.room

/-- While eight blocks are free a call can take its turn, in which it appends its next chunk
or, if there is none, returns. -/
theorem Appended.proceeds (hfree : 8 ≤ (free sb s.sys.fs.disk).card) (c : ι) :
    ∃ s', next sb calls s (.call c) = some s' ∧ if m c < (calls c).chunks then content sb s'.sys i =
    content sb s.sys i ++ (calls c).chunk (m c) else s'.prog c = pure ((calls c).n : Int) := by
  obtain ⟨fuel, hsame, hfuel, hm⟩ := (h.code c).runTo (t := (calls c).proc) h.opens h.writable
  have hchunks : m c < (calls c).chunks ↔ maxChunk * m c < (calls c).n :=
    show m c < ((calls c).n + 1535) / 1536 ↔ 1536 * m c < (calls c).n by omega
  rw [next, hsame]
  by_cases hk : maxChunk * m c < (calls c).n
  · have hsum := sum_left calls m c
    have hroom := h.room
    rw [Nat.min_eq_left hk.le]
    obtain ⟨p, y, hrun⟩ := turn_of_free h.quiet h.opens hk hfree
    rw [hrun]
    refine ⟨_, rfl, ?_⟩
    rw [if_pos (hchunks.mpr hk)]
    exact (turn_spec h.quiet h.opens h.off hk (by omega) hrun).2.2.2.2.1
  · rw [Nat.min_eq_right (Nat.not_lt.mp hk), filewriteFrom_succ, if_neg (Nat.lt_irrefl _)]
    refine ⟨_, rfl, ?_⟩
    rw [if_neg (mt hchunks.mp hk)]
    exact update_self ..

end

/-- Calls that share an open file at the end of the file append all their chunks, in an
order that keeps the order of each call. While eight blocks are free each call can go on: it
appends its next chunk, and after the last one it returns. -/
theorem shared_append (hq : Quiet sb x) (ho : Opens sb x f e i) (hw : (x.ftable f).writable = true)
    (hend : (x.ftable f).off = (dinode sb x.fs.disk i).size)
    (hmax : (dinode sb x.fs.disk i).size.toNat + ∑ c, (calls c).n ≤ maxSize)
    (hrun : Runs.Reaches (next sb calls) (NoOtherWriter sb f e i) (start calls f x) s) :
    ∃ order : List (ι × Nat),
      content sb s.sys i = content sb x i ++ order.flatMap (fun q => (calls q.1).chunk q.2) ∧
      (s.sys.ftable f).off = (dinode sb s.sys.fs.disk i).size ∧
      ∀ c, ∃ m ≤ (calls c).chunks, numbersOf order c = List.range m ∧
        (∀ r, s.prog c = pure r → r = (calls c).n ∧ m = (calls c).chunks) ∧
        (8 ≤ (free sb s.sys.fs.disk).card → ∃ s', next sb calls s (.call c) = some s' ∧
          if m < (calls c).chunks then content sb s'.sys i = content sb s.sys i ++ (calls c).chunk m
          else s'.prog c = pure ((calls c).n : Int)) := by
  have hstart : ∃ order m, Appended sb calls f e i x order m (start calls f x) := by
    have hlen := ho.length_content hq
    refine ⟨[], fun _ => 0, hq, ho, hw, (List.append_nil _).symm, ?_, fun _ => rfl,
      ?_, fun c => .inl ⟨rfl, rfl⟩⟩
    · change (x.ftable f).off.toNat = (content sb x i).length
      rw [hlen, hend]
    · change (content sb x i).length + _ ≤ _
      rw [hlen]
      exact hmax
  obtain ⟨order, m, h⟩ : ∃ order m, Appended sb calls f e i x order m s := by
    refine Runs.Reaches.invariant
      (P := fun s => ∃ order m, Appended sb calls f e i x order m s) hrun hstart ?_
    rintro _ _ _ ⟨order, m, h⟩ hok hs
    exact h.turn hok hs
  refine ⟨order, h.bytes, ?_, fun c => ⟨m c, ?_, h.numbers c, ?_, fun hfree => h.proceeds hfree c⟩⟩
  · rw [← UInt32.toNat_inj, h.off, h.opens.length_content h.quiet]
  · obtain ⟨-, -, -, hm⟩ := (h.code c).runTo (t := 0) h.opens h.writable
    exact hm
  · intro r hr
    have hcode := h.code c
    rw [hr] at hcode
    exact hcode.returned

end

/-! ## Two writers -/

open FileRuns (tinySb tinyFs)

/-- A small disk with an empty file. -/
def oneFile : Disk := putDinode tinySb tinyFs.disk 1 { Dinode.zero with type := tFile }

theorem quiet_oneFile : Quiet tinySb (opened oneFile 1 0) := by
  have hboot := FileRuns.boot_consistent FileRuns.tiny_ownership FileRuns.tiny_holeFree
  have hrun : FsImage.ialloc tinySb tFile tinyFs = .ok (1, ⟨oneFile, 1, []⟩) := rfl
  obtain ⟨hcons, -⟩ := hboot.ialloc hrun
  exact quiet_opened hcons.owned hcons.holeFree ⟨1, by decide⟩ 0

/-- Each of two processes writes a byte. -/
def twoCalls (c : Fin 2) : Call := ⟨c.castLE (by decide), fun _ => UInt8.ofNat (65 + c.val), 1⟩

/-- The second process goes first, and both return. -/
theorem shared_append_two : ∃ (s : State (Fin 2)) (order : List (Fin 2 × Nat)),
    Runs.Reaches (next tinySb twoCalls) (NoOtherWriter tinySb 0 0 ⟨1, by decide⟩)
      (start twoCalls 0 (opened oneFile 1 0)) s ∧
    (∀ c, s.prog c = pure 1 ∧ numbersOf order c = [0]) ∧
    content tinySb s.sys ⟨1, by decide⟩ = [66, 65] ∧
    order.flatMap (fun q => (twoCalls q.1).chunk q.2) = [66, 65] := by
  have hexec : (Runs.exec (next tinySb twoCalls) [.call 1, .call 0]
      (start twoCalls 0 (opened oneFile 1 0))).any
      (fun s => decide
      ((∀ c, (s.prog c).result = some 1) ∧ content tinySb s.sys ⟨1, by decide⟩ = [66, 65])) =
      true := by decide +kernel
  obtain ⟨s, hs, htest⟩ := (Option.any_eq_true ..).mp hexec
  obtain ⟨hprog, hbytes⟩ := of_decide_eq_true htest
  obtain ⟨s₁, hs₁, hs⟩ := Option.bind_eq_some_iff.mp hs
  obtain ⟨s₂, hs₂, hs⟩ := Option.bind_eq_some_iff.mp hs
  cases hs
  have hfile : (dinode tinySb oneFile 1).type = tFile := by decide +kernel
  have hempty : content tinySb (opened oneFile 1 0) ⟨1, by decide⟩ = [] := by decide +kernel
  have hrun : Runs.Reaches (next tinySb twoCalls) (NoOtherWriter tinySb 0 0 ⟨1, by decide⟩)
      (start twoCalls 0 (opened oneFile 1 0)) s := by
    refine .tail (a := .call 0) (.tail (a := .call 1) .refl ?_ hs₁) ?_ hs₂ <;> trivial
  obtain ⟨order, hcontent, -, hcalls⟩ :=
    shared_append quiet_oneFile (opens_opened (i := ⟨1, by decide⟩) hfile 0) rfl
    (by decide +kernel) (by decide +kernel) hrun
  rw [hbytes, hempty, List.nil_append] at hcontent
  refine ⟨s, order, hrun, fun c => ?_, hbytes, hcontent.symm⟩
  obtain ⟨m, -, hnumbers, hreturned, -⟩ := hcalls c
  have hpure := Prog.eq_pure_of_result (hprog c)
  rw [(hreturned 1 hpure).2,
    show (twoCalls c).chunks = 1 by simp [twoCalls, Call.chunks]] at hnumbers
  exact ⟨hpure, hnumbers⟩

end Xv6.SharedWrites
