import Xv6.FileRuns

/-!
# Files are arrays of bytes

What `readi` and `writei` are for: each file is an array of bytes, of which a part is read
or replaced. The operations on inodes refine this.
-/
namespace Xv6.FileArrays

open Function (update)
open Bytes FsImage BlockMap FileRuns FileData

/-- Bytes `off` to `off + n` replaced, at the end of the array also added. -/
def splice (a : List UInt8) (src : Buf) (off n : Nat) : List UInt8 :=
  a.take off ++ (List.range n).map src ++ a.drop (off + n)

def readSpec (a : List UInt8) (off n : UInt32) : Option (List UInt8) :=
  if off.toNat > a.length ∨ off.toNat + n.toNat ≥ 2 ^ 32 then none
  else some ((a.drop off.toNat).take n.toNat)

/-- A write is also refused beyond the largest size of a file. -/
def writeSpec (a : List UInt8) (src : Buf) (off n : UInt32) : Option UInt32 × List UInt8 :=
  if (off.toNat > a.length ∨ off.toNat + n.toNat ≥ 2 ^ 32) ∨ off.toNat + n.toNat > 140 * 512 then
    (none, a)
  else (some n, splice a src off.toNat n.toNat)

variable {sb : Superblock}

abbrev Arrays (sb : Superblock) := Fin sb.ninodes → List UInt8

def specStep (A : Arrays sb) : DataOp sb → Reply × Arrays sb
  | .readi i off n => (.bytes (readSpec (A i) off n), A)
  | .writei i src off n =>
    (.count (writeSpec (A i) src off n).1, update A i (writeSpec (A i) src off n).2)

def specRun : List (DataOp sb) → Arrays sb → List Reply × Arrays sb
  | [], A => ([], A)
  | op :: ops, A =>
    let (r, A) := specStep A op
    let (rs, A) := specRun ops A
    (r :: rs, A)

/-- The replies and the last state of a sequence of reads and writes. -/
def dataRun : List (DataOp sb) → FileSys sb → Except String (List Reply × FileSys sb)
  | [], st => .ok ([], st)
  | op :: ops, st => do
    let (r, st) ← step sb st (.data op)
    let (rs, st) ← dataRun ops st
    pure (r :: rs, st)

/-- The inode as the code sees it: in memory, or else on the disk. -/
def inode (st : FileSys sb) (i : Fin sb.ninodes) : Dinode :=
  (st.icache i).getD (dinode sb st.fs.disk i)

/-- The array that file `i` stands for; a free inode has none. -/
def array (st : FileSys sb) (i : Fin sb.ninodes) : List UInt8 :=
  if (inode st i).type = 0 then []
  else (List.range (inode st i).size.toNat).map
    (byte sb st.fs.disk (update (dinode sb st.fs.disk) i (inode st i)) i)

variable {st st' : FileSys sb} {i : Fin sb.ninodes}

theorem length_splice {a : List UInt8} {src : Buf} {off n : Nat} (h : off ≤ a.length) :
    (splice a src off n).length = max a.length (off + n) := by
  simp only [splice, List.length_append, List.length_take, List.length_map, List.length_range,
    List.length_drop]
  omega

/-- Bytes at the places of a write, and bytes kept, make the spliced array. -/
theorem splice_range {f g : Nat → UInt8} {src : Buf} {size off n : Nat} (hoff : off ≤ size)
    (hkept : ∀ k, k < size → ¬ (off ≤ k ∧ k < off + n) → g k = f k)
    (hput : ∀ k, k < n → g (off + k) = src k) :
    (List.range (max size (off + n))).map g = splice ((List.range size).map f) src off n := by
  apply List.ext_getElem
  · rw [length_splice (by simpa using hoff)]
    simp
  · intro k hk hk'
    simp only [List.length_map, List.length_range] at hk
    simp only [splice, List.getElem_map, List.getElem_range, List.getElem_append, List.getElem_take,
      List.getElem_drop, List.length_append, List.length_take, List.length_map, List.length_range]
    split
    next h1 =>
      split
      next h2 => exact hkept k (by omega) (by omega)
      next h2 =>
        have := hput (k - off) (by omega)
        rw [show off + (k - off) = k by omega] at this
        rw [this, show min off size = off by omega]
    next h1 =>
      rw [hkept k (by omega) (by omega)]
      congr 1
      omega

section

variable (h : Consistent sb st)
include h

theorem inode_of (i : Fin sb.ninodes) : inode st i = dinode sb st.fs.disk i := by
  unfold inode
  cases hc : st.icache i with
  | none => rfl
  | some ip => exact (h.cached i ip hc).1

theorem array_of (i : Fin sb.ninodes) :
    array st i = if (dinode sb st.fs.disk i).type = 0 then [] else
      (List.range (dinode sb st.fs.disk i).size.toNat).map
        (byte sb st.fs.disk (dinode sb st.fs.disk) i) := by
  rw [array, inode_of h, Function.update_eq_self]

theorem array_file (ht : (dinode sb st.fs.disk i).type ≠ 0) :
    array st i = (List.range (dinode sb st.fs.disk i).size.toNat).map
      (byte sb st.fs.disk (dinode sb st.fs.disk) i) := by
  rw [array_of h, if_neg ht]

theorem ilock_of (ht : (inode st i).type ≠ 0) : ilock sb st i = .ok (dinode sb st.fs.disk i) := by
  rw [← inode_of h]
  unfold ilock inode at *
  cases hc : st.icache i with
  | none =>
    rw [hc] at ht
    exact if_neg ht
  | some ip => rfl

theorem withInode_of_ok {body : Dinode → FsM (Option Dinode × Reply)} {r : Option Dinode}
    {reply : Reply} {fs : Fs} (ht : (inode st i).type ≠ 0)
    (hbody : body (dinode sb st.fs.disk i) st.fs = .ok ((r, reply), fs)) :
    withInode sb st i body = .ok (reply, ⟨fs, update st.icache i r⟩) := by
  rw [withInode, ilock_of h ht]
  simp only [hbody]

theorem withInode_inv {body : Dinode → FsM (Option Dinode × Reply)}
    {reply : Reply} (hrun : withInode sb st i body = .ok (reply, st')) :
    ∃ r fs, body (dinode sb st.fs.disk i) st.fs = .ok ((r, reply), fs) ∧ st'.fs = fs := by
  rw [withInode] at hrun
  split at hrun
  next => cases hrun
  next ip hip =>
    obtain ⟨rfl, -⟩ := ilock_ok h hip
    split at hrun
    next => cases hrun
    next r reply' fs hok =>
      cases hrun
      exact ⟨r, fs, hok, rfl⟩

theorem length_array (ht : (dinode sb st.fs.disk i).type ≠ 0) :
    (array st i).length = (dinode sb st.fs.disk i).size.toNat := by
  rw [array_file h ht, List.length_map, List.length_range]

theorem array_congr (h' : Consistent sb st') (hfs : st'.fs = st.fs) : array st' = array st := by
  funext i
  rw [array_of h, array_of h', hfs]

theorem readi_array (ht : (dinode sb st.fs.disk i).type ≠ 0) (off n : UInt32) :
    readi sb (dinode sb st.fs.disk i) off n st.fs =
    .ok ((dinode sb st.fs.disk i, readSpec (array st i) off n), st.fs) := by
  have hlen := length_array h ht
  by_cases href : Refused (dinode sb st.fs.disk i).size off n
  · rw [readi_refused href, readSpec, if_pos (by rw [hlen]; exact href)]
  · rw [readi_run h.holeFree i.isLt ht href, readSpec, if_neg (by rw [hlen]; exact href)]
    have hread : (List.range (min n.toNat ((dinode sb st.fs.disk i).size.toNat - off.toNat))).map
        (fun k => byte sb st.fs.disk (dinode sb st.fs.disk) i (off.toNat + k)) =
        ((array st i).drop off.toNat).take n.toNat := by
      rw [array_file h ht]
      apply List.ext_getElem
      · simp
      · intro k hk hk'
        simp
    rw [hread]

/-- A read of a file that is not a device returns what the array has, and changes no array. -/
theorem readi_refines (ht : (inode st i).type ≠ 0)
    (hd : (inode st i).type ≠ tDev) (off n : UInt32) : ∃ st', step sb st (.data (.readi i off n)) =
    .ok (.bytes (readSpec (array st i) off n), st') ∧ st'.fs = st.fs ∧ array st' = array st := by
  have hi := inode_of h i
  rw [hi] at hd
  have hbody : dataBody sb (.readi i off n) (dinode sb st.fs.disk i) st.fs =
      .ok ((some (dinode sb st.fs.disk i), .bytes (readSpec (array st i) off n)), st.fs) := by
    rw [dataBody, if_neg hd, bind_of_ok (readi_array h (hi ▸ ht) off n)]
    rfl
  have hstep := withInode_of_ok h ht hbody
  exact ⟨_, hstep, rfl, array_congr h (h.step (o := .data (.readi i off n)) hstep).1 rfl⟩

theorem writei_refines {src : Buf}
    {off n : UInt32} {reply : Reply} (ht : (inode st i).type ≠ 0) (hd : (inode st i).type ≠ tDev)
    (hrun : step sb st (.data (.writei i src off n)) = .ok (reply, st')) : specStep (array st)
    (.writei i src off n) = (reply, array st') ∧ ∀ j, (inode st' j).type = (inode st j).type := by
  have hi := inode_of h i
  rw [hi] at ht hd
  have hlen := length_array h ht
  have h' := (h.step hrun).1
  obtain ⟨r, fs, hbody, hfs⟩ := withInode_inv (i := i) h hrun
  rw [dataBody, if_neg hd] at hbody
  obtain ⟨⟨ip, c⟩, fs', hwrite, hbody⟩ := bind_ok hbody
  cases hbody
  have hok := writei_ok h.owned h.holeFree i.isLt ht rfl hwrite
  split at hok
  next href =>
    obtain ⟨rfl, -, hsame⟩ := hok
    have hspec : writeSpec (array st i) src off n = (none, array st i) :=
      if_pos (by rw [hlen]; exact href)
    rw [specStep, hspec]
    have hst := array_congr h h' (hfs.trans hsame)
    refine ⟨Prod.ext rfl (by rw [hst, Function.update_eq_self]), fun j => ?_⟩
    rw [inode_of h, inode_of h', hfs, hsame]
  next href =>
    obtain ⟨rfl, hw⟩ := hok
    have hspec : writeSpec (array st i) src off n =
        (some n, splice (array st i) src off.toNat n.toNat) := if_neg (by rw [hlen]; exact href)
    rw [specStep, hspec]
    have hoff : off.toNat ≤ (dinode sb st.fs.disk i).size.toNat := by
      unfold Refused at href
      omega
    have htable : ∀ j, j < sb.ninodes →
        dinode sb fs.disk j = update (dinode sb st.fs.disk) i ip j := by
      intro j hj
      rw [hw.table j hj, Function.update_apply]
    have hP : pointers sb fs.disk (dinode sb fs.disk) =
        pointers sb fs.disk (update (dinode sb st.fs.disk) i ip) :=
      pointers_table fun l hl => by rw [htable l hl]; exact ⟨rfl, Iff.rfl⟩
    have hbyte : ∀ j k, byte sb fs.disk (dinode sb fs.disk) j k =
        byte sb fs.disk (update (dinode sb st.fs.disk) i ip) j k := by
      intro j k
      rw [byte, byte, fileBlock, hP, fileBlock]
    have htype : ∀ j : Fin sb.ninodes, (dinode sb fs.disk j).type =
        (dinode sb st.fs.disk j).type := by
      intro j
      rw [hw.table j j.isLt]
      split
      next hj => rw [hw.inode, hj]; rfl
      next => rfl
    have harray : array st' = update (array st) i (splice (array st i) src off.toNat n.toNat) := by
      funext j
      rw [array_of h', hfs, htype]
      by_cases hj : j = i
      · subst hj
        rw [if_neg ht, Function.update_self, array_file h ht,
          hw.table j j.isLt, if_pos rfl, hw.size]
        refine splice_range hoff (fun k hk hnot => ?_) fun k hk => ?_
        · rw [hbyte]
          exact hw.wrote.kept j k (h.holeFree.mapped j.isLt ht hk) fun hin => hnot hin.2
        · rw [hbyte]
          exact (hw.wrote.put k hk).2
      · have hji : j.val ≠ i := fun heq => hj (Fin.ext heq)
        rw [Function.update_of_ne hj, array_of h, hw.table j j.isLt, if_neg hji]
        split
        next => rfl
        next htj =>
          refine List.map_congr_left fun k hk => ?_
          rw [hbyte]
          exact hw.wrote.kept j k (h.holeFree.mapped j.isLt htj (List.mem_range.mp hk))
            fun hin => hji hin.1
    refine ⟨Prod.ext rfl harray.symm, fun j => ?_⟩
    rw [inode_of h, inode_of h', hfs, htype]

/-- One read or write keeps a state in order, and does to the arrays what it should. -/
theorem data_refines {op : DataOp sb} {reply : Reply} (ht : (inode st op.inode).type ≠ 0)
    (hd : (inode st op.inode).type ≠ tDev) (hrun : step sb st (.data op) = .ok (reply, st')) :
    specStep (array st) op = (reply, array st') ∧ ∀ j, (inode st' j).type = (inode st j).type := by
  cases op with
  | readi i off n =>
    have h' := (h.step hrun).1
    obtain ⟨st₁, hread, hfs, harray⟩ := readi_refines (i := i) h ht hd off n
    cases hread.symm.trans hrun
    refine ⟨Prod.ext rfl harray.symm, fun j => ?_⟩
    rw [inode_of h, inode_of h', hfs]
  | writei i src off n => exact writei_refines h ht hd hrun

theorem dataRun_refines {ops : List (DataOp sb)} {rs : List Reply}
    (hfile : ∀ op ∈ ops, (inode st op.inode).type ≠ 0 ∧ (inode st op.inode).type ≠ tDev)
    (hrun : dataRun ops st = .ok (rs, st')) : specRun ops (array st) = (rs, array st') ∧
    Consistent sb st' ∧ ∀ j, (inode st' j).type = (inode st j).type := by
  induction ops generalizing st rs with
  | nil =>
    cases hrun
    exact ⟨rfl, h, fun _ => rfl⟩
  | cons op ops ih =>
    rw [dataRun] at hrun
    cases hstep : step sb st (.data op) with
    | error msg =>
      rw [hstep] at hrun
      cases hrun
    | ok p =>
      rw [hstep] at hrun
      cases hrest : dataRun ops p.2 with
      | error msg =>
        simp only [bind, Except.bind, hrest] at hrun
        cases hrun
      | ok q =>
        simp only [bind, Except.bind, hrest] at hrun
        cases hrun
        obtain ⟨ht, hd⟩ := hfile op List.mem_cons_self
        obtain ⟨hspec, htype⟩ := data_refines h ht hd hstep
        obtain ⟨hspec', hcons', htype'⟩ := ih (h.step hstep).1
          (fun op' hop' => by rw [htype]; exact hfile op' (List.mem_cons_of_mem _ hop')) hrest
        refine ⟨?_, hcons', fun j => (htype' j).trans (htype j)⟩
        rw [specRun, hspec]
        simp only [hspec']

end

/-- From every state that file operations reach, reads and writes of files that are not
devices do to the files what they should do to arrays, and give the same replies; and at
each point a read is answered. -/
theorem files_are_arrays {fs : Fs} (h : BlockOwnership sb fs.disk)
    (hhole : HoleFree sb fs.disk (dinode sb fs.disk))
    (hr : Runs.Reachable (next sb) (boot sb fs) st) {ops : List (DataOp sb)} {rs : List Reply}
    (hfile : ∀ op ∈ ops, (inode st op.inode).type ≠ 0 ∧ (inode st op.inode).type ≠ tDev)
    (hrun : dataRun ops st = .ok (rs, st')) :
    specRun ops (array st) = (rs, array st') ∧
      ∀ i, (inode st i).type ≠ 0 → (inode st i).type ≠ tDev → ∀ off n, ∃ st'',
        step sb st' (.data (.readi i off n)) = .ok (.bytes (readSpec (array st' i) off n), st'') ∧
          array st'' = array st' := by
  obtain ⟨hspec, hcons, htype⟩ :=
    dataRun_refines ((boot_consistent h hhole).reachable hr) hfile hrun
  refine ⟨hspec, fun i ht hd off n => ?_⟩
  obtain ⟨st'', hread, -, harray⟩ :=
    readi_refines hcons (by rwa [htype]) (by rwa [htype]) off n
  exact ⟨st'', hread, harray⟩

/-- Two bytes in the middle of the file that `tinyOps` wrote, and the whole of it. -/
def tinyData : List (DataOp tinySb) :=
  [.writei ⟨1, tiny_file⟩ (fun k => UInt8.ofNat (k + 7)) 1 2, .readi ⟨1, tiny_file⟩ 0 10]

theorem files_are_arrays_tiny : ∃ st st',
    Runs.exec (next tinySb) tinyOps (boot tinySb tinyFs) = some st ∧
    dataRun tinyData st = .ok ([.count (some 2), .bytes (some [0, 7, 8])], st') ∧
    specRun tinyData (array st) = ([.count (some 2), .bytes (some [0, 7, 8])], array st') := by
  have htype : ((Runs.exec (next tinySb) tinyOps (boot tinySb tinyFs)).map fun st =>
      (inode st ⟨1, tiny_file⟩).type) = some tFile := by decide +kernel
  have hdata : ((Runs.exec (next tinySb) tinyOps (boot tinySb tinyFs)).bind fun st =>
      (dataRun tinyData st).toOption.map Prod.fst) =
      some [.count (some 2), .bytes (some [0, 7, 8])] := by decide +kernel
  obtain ⟨st, hst, hfile⟩ := Option.map_eq_some_iff.mp htype
  obtain ⟨⟨rs, st'⟩, hrun, hrs⟩ : ∃ p, dataRun tinyData st = .ok p ∧
      p.1 = [.count (some 2), .bytes (some [0, 7, 8])] := by
    rw [hst, Option.bind_some] at hdata
    cases hd : dataRun tinyData st with
    | error msg =>
      rw [hd] at hdata
      cases hdata
    | ok p =>
      rw [hd] at hdata
      exact ⟨p, rfl, Option.some.inj hdata⟩
  subst hrs
  refine ⟨st, st', hst, hrun, (files_are_arrays tiny_ownership tiny_holeFree
    (Runs.reachable_of_exec hst) (fun op hop => ?_) hrun).1⟩
  have hone : op.inode = ⟨1, tiny_file⟩ := by
    rcases List.mem_cons.mp hop with rfl | hop
    · rfl
    · rcases List.mem_singleton.mp hop with rfl
      rfl
  rw [hone, hfile]
  exact ⟨by decide, by decide⟩

end Xv6.FileArrays
