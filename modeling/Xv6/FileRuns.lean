import Xv6.FileData
import Xv6.Runs
import Xv6.Truncate

/-!
# Runs of file operations

The operations on inodes of which the file system's calls are made: to create a file is
`ialloc`, setting its numbers, and a write to the directory; to unlink one is a write to
the directory and setting the link count, and in the end the inode is freed by the last
`iput`. An inode stays in memory until its cache entry is recycled, so that operations
work on the copy there.
-/
namespace Xv6.FileRuns

open Function (update update_self update_of_ne)
open Bytes FsImage BlockMap

variable (sb : Superblock)

/-- The disk and the valid inodes in memory. -/
structure FileSys where
  fs : Fs
  icache : Fin sb.ninodes → Option Dinode

inductive DataOp where
  | readi (i : Fin sb.ninodes) (off n : UInt32)
  | writei (i : Fin sb.ninodes) (src : Buf) (off n : UInt32)

inductive FileOp where
  | ialloc (type : Int16)
  | iupdate (i : Fin sb.ninodes) (major minor nlink : Int16)
  | data (op : DataOp sb)
  | ifree (i : Fin sb.ninodes)
  | recycle (i : Fin sb.ninodes)

inductive Reply where
  | done
  | inum (i : Nat)
  | bytes (dst : Option (List UInt8))
  | count (n : Option UInt32)
  | device
  deriving DecidableEq

/-- The part of `ilock` after `acquiresleep`. -/
def ilock (st : FileSys sb) (i : Fin sb.ninodes) : Except String Dinode :=
  match st.icache i with
  | some ip => .ok ip
  | none =>
    if (dinode sb st.fs.disk i).type = 0 then .error "ilock: no type"
    else .ok (dinode sb st.fs.disk i)

/-- Lock an inode and run code on it; the code leaves the inode in memory, or nothing where
it clears `valid`. -/
def withInode (st : FileSys sb) (i : Fin sb.ninodes) (body : Dinode → FsM (Option Dinode × Reply)) :
    Except String (Reply × FileSys sb) :=
  match ilock sb st i with
  | .error msg => .error msg
  | .ok ip =>
    match body ip st.fs with
    | .error msg => .error msg
    | .ok ((ip', r), fs) => .ok (r, ⟨fs, update st.icache i ip'⟩)

def dataBody : DataOp sb → Dinode → FsM (Option Dinode × Reply)
  | .readi _ off n, ip =>
    if ip.type = tDev then pure (some ip, .device) else do
      let (ip, r) ← FileData.readi sb ip off n
      pure (some ip, .bytes r)
  | .writei i src off n, ip =>
    if ip.type = tDev then pure (some ip, .device) else do
      let (ip, r) ← FileData.writei sb i ip src off n
      pure (some ip, .count r)

variable {sb} in
def DataOp.inode : DataOp sb → Fin sb.ninodes
  | .readi i _ _ => i
  | .writei i _ _ _ => i

/-- `iupdate` after `major`, `minor` and `nlink` have been set. -/
def linksBody (i : Fin sb.ninodes) (major minor nlink : Int16) (ip : Dinode) :
    FsM (Option Dinode × Reply) := do
  let ip := { ip with major, minor, nlink }
  FsImage.iupdate sb i ip
  pure (some ip, .done)

/-- What `iput` does to an inode without links and other references. -/
def freeBody (i : Fin sb.ninodes) (ip : Dinode) : FsM (Option Dinode × Reply) := do
  let ip ← Truncate.itrunc sb i ip
  FsImage.iupdate sb i { ip with type := 0 }
  pure (none, .done)

def step (st : FileSys sb) : FileOp sb → Except String (Reply × FileSys sb)
  | .ialloc type =>
    match FsImage.ialloc sb type st.fs with
    | .error msg => .error msg
    | .ok (i, fs) => .ok (.inum i, ⟨fs, st.icache⟩)
  | .iupdate i major minor nlink => withInode sb st i (linksBody sb i major minor nlink)
  | .data op => withInode sb st op.inode (dataBody sb op)
  | .ifree i => withInode sb st i (freeBody sb i)
  | .recycle i => .ok (.done, ⟨st.fs, update st.icache i none⟩)

def next (st : FileSys sb) (op : FileOp sb) : Option (FileSys sb) :=
  (step sb st op).toOption.map Prod.snd

/-- Nothing is in memory yet. -/
def boot (fs : Fs) : FileSys sb := ⟨fs, fun _ => none⟩

/-- The disk is in order, and the inodes in memory are those on the disk. -/
structure Consistent (st : FileSys sb) : Prop where
  owned : Owned sb st.fs.disk (dinode sb st.fs.disk)
  holeFree : HoleFree sb st.fs.disk (dinode sb st.fs.disk)
  cached : ∀ i ip, st.icache i = some ip → ip = dinode sb st.fs.disk i ∧ ip.type ≠ 0

/-- What an operation on inode `i` does to a disk in order, where `ip` is then in memory. -/
structure Kept (s : Fs) (i : Nat) (s' : Fs) (ip : Option Dinode) : Prop where
  owned : Owned sb s'.disk (dinode sb s'.disk)
  holeFree : HoleFree sb s'.disk (dinode sb s'.disk)
  others : ∀ j, j < sb.ninodes → j ≠ i → dinode sb s'.disk j = dinode sb s.disk j
  valid : ∀ n, ip = some n → n = dinode sb s'.disk i ∧ n.type ≠ 0
  fresh : ∃ new, s'.allocs = new ++ s.allocs ∧ new.Nodup ∧
    ∀ b ∈ new, b < sb.size ∧ used sb s.disk b = false

variable {sb} {st st' : FileSys sb} {s s' : Fs} {i : Fin sb.ninodes} {ip : Dinode}
  {d : Disk}

/-- One inode of the table has changed, in the same way in the files' pointers and on the disk. -/
theorem Kept.of_table {n : Dinode} {r : Option Dinode}
    (howned : Owned sb s'.disk (update (dinode sb s.disk) i n))
    (hhole : HoleFree sb s'.disk (update (dinode sb s.disk) i n))
    (htable : ∀ j, j < sb.ninodes → dinode sb s'.disk j = if j = i then n else dinode sb s.disk j)
    (hvalid : ∀ m, r = some m → m = n ∧ n.type ≠ 0)
    (hfresh : ∃ new, s'.allocs = new ++ s.allocs ∧ new.Nodup ∧ ∀ b ∈ new, b < sb.size ∧
      used sb s.disk b = false) : Kept sb s i s' r := by
  have heq : ∀ j, j < sb.ninodes → dinode sb s'.disk j = update (dinode sb s.disk) i n j := by
    intro j hj
    rw [htable j hj, Function.update_apply]
  refine ⟨howned.table heq, hhole.table heq, ?_, ?_, hfresh⟩
  · intro j hj hji
    rw [htable j hj, if_neg hji]
  · intro m hm
    obtain ⟨rfl, ht⟩ := hvalid m hm
    exact ⟨by rw [htable i i.isLt, if_pos rfl], ht⟩

section Bodies

variable (howned : Owned sb s.disk (dinode sb s.disk))
  (hhole : HoleFree sb s.disk (dinode sb s.disk))
  (ht : (dinode sb s.disk i).type ≠ 0) {r : Option Dinode} {reply : Reply}
include howned hhole ht

theorem linksBody_kept {major minor nlink : Int16}
    (hrun : linksBody sb i major minor nlink (dinode sb s.disk i) s = .ok ((r, reply), s')) :
    Kept sb s i s' r := by
  cases hrun
  set n : Dinode := { dinode sb s.disk i with major, minor, nlink }
  have htable : ∀ j, j < sb.ninodes →
      (update (dinode sb s.disk) i n j).addrs = (dinode sb s.disk j).addrs ∧
      ((update (dinode sb s.disk) i n j).type = 0 ↔ (dinode sb s.disk j).type = 0) := by
    intro j _
    by_cases hj : j = i
    · subst hj
      rw [update_self]
      exact ⟨rfl, Iff.rfl⟩
    · rw [update_of_ne hj]
      exact ⟨rfl, Iff.rfl⟩
  refine Kept.of_table ((howned.congr_table htable).putDinode i.isLt _) ?_
    (fun j _ => dinode_putDinode ..) ?_
    ⟨[], rfl, List.nodup_nil, fun _ h => absurd h List.not_mem_nil⟩
  · refine hhole.of_blocks fun j bn _ htj hbn => ?_
    have hP := (pointers_table htable).trans (howned.pointers_putDinode i.isLt n)
    by_cases hj : j = i
    · subst hj
      rw [update_self] at hbn
      exact ⟨ht, hbn, congrFun hP _⟩
    · rw [update_of_ne hj] at htj hbn
      exact ⟨htj, hbn, congrFun hP _⟩
  · intro m hm
    exact ⟨(Option.some.inj hm).symm, ht⟩

theorem dataBody_kept {op : DataOp sb} (hop : op.inode = i)
    (hrun : dataBody sb op (dinode sb s.disk i) s = .ok ((r, reply), s')) : Kept sb s i s' r := by
  have hstay : Kept sb s i s (some (dinode sb s.disk i)) :=
    ⟨howned, hhole, fun _ _ _ => rfl, fun n hn => by cases hn; exact ⟨rfl, ht⟩,
      [], rfl, List.nodup_nil, fun _ h => absurd h List.not_mem_nil⟩
  cases op with
  | readi k off n =>
    obtain rfl : k = i := hop
    rw [dataBody] at hrun
    split at hrun
    next =>
      cases hrun
      exact hstay
    next =>
      obtain ⟨⟨ip, dst⟩, s₁, hread, hrun⟩ := bind_ok hrun
      cases hrun
      by_cases href : FileData.Refused (dinode sb s.disk k).size off n
      · rw [FileData.readi_refused href] at hread
        cases hread
        exact hstay
      · rw [FileData.readi_run hhole k.isLt ht href] at hread
        cases hread
        exact hstay
  | writei k src off n =>
    obtain rfl : k = i := hop
    rw [dataBody] at hrun
    split at hrun
    next =>
      cases hrun
      exact hstay
    next =>
      obtain ⟨⟨ip, c⟩, s₁, hwrite, hrun⟩ := bind_ok hrun
      cases hrun
      have h := FileData.writei_ok howned hhole k.isLt ht rfl hwrite
      split at h
      next =>
        obtain ⟨-, rfl, rfl⟩ := h
        exact hstay
      next =>
        obtain ⟨-, h⟩ := h
        refine Kept.of_table h.owned h.holeFree h.table ?_ ?_
        · intro m hm
          obtain rfl := Option.some.inj hm
          exact ⟨rfl, by rw [h.inode]; exact ht⟩
        · obtain ⟨new, hnew, hnodup, hfree⟩ := h.wrote.fresh
          exact ⟨new, hnew, hnodup, fun b hb => ⟨(hfree b hb).1, (hfree b hb).2.1⟩⟩

theorem freeBody_kept (hrun : freeBody sb i (dinode sb s.disk i) s = .ok ((r, reply), s')) :
    Kept sb s i s' r := by
  obtain ⟨s₁, htrunc, howned₁, hdata, htable, hallocs⟩ := Truncate.itrunc_ok howned i.isLt ht
  rw [freeBody, bind_of_ok htrunc] at hrun
  cases hrun
  generalize hn : Truncate.emptied (dinode sb s.disk i) = n at howned₁ htable
  have hblank : Blank n := .inr (by rw [← hn]; rfl)
  have hfree : Blank { n with type := 0 } := .inl rfl
  have howned₂ : Owned sb s₁.disk (update (dinode sb s.disk) i { n with type := 0 }) := by
    have hP : pointers sb s₁.disk (update (update (dinode sb s.disk) i n) i { n with type := 0 }) =
        pointers sb s₁.disk (update (dinode sb s.disk) i n) :=
      pointers_update_blank (by rwa [update_self]) hfree
    rw [Function.update_idem] at hP
    rw [Owned, hP]
    exact howned₁
  refine Kept.of_table (howned₂.putDinode i.isLt _) ?_ ?_ (fun m hm => by cases hm)
    ⟨[], hallocs, List.nodup_nil, fun _ h => absurd h List.not_mem_nil⟩
  · refine hhole.of_blocks fun j bn _ htj hbn => ?_
    have hj : j ≠ i := by
      rintro rfl
      rw [update_self] at htj
      exact htj rfl
    rw [update_of_ne hj] at htj hbn
    refine ⟨htj, hbn, ?_⟩
    change pointers sb (putDinode sb s₁.disk i _) _ _ = _
    rw [howned₂.pointers_putDinode i.isLt, pointers_update_ne hj, fileBlock]
    refine congrFun (pointers_congr fun l hl htl hal => ?_) _
    obtain ⟨hind, hne⟩ := pointers_indirect (d := s.disk) hl htl hal
    exact hdata _ (hind ▸ (howned.range hne).1)
  · intro j hj
    change dinode sb (putDinode sb s₁.disk i _) j = _
    rw [dinode_putDinode, htable j hj]
    split <;> rfl

end Bodies

theorem dataBody_error {op : DataOp sb} {msg : String}
    (hhole : HoleFree sb s.disk (dinode sb s.disk)) (ht : (dinode sb s.disk i).type ≠ 0)
    (hop : op.inode = i) (hrun : dataBody sb op (dinode sb s.disk i) s = .error msg) :
    msg = "balloc: out of blocks" := by
  cases op with
  | readi k off n =>
    obtain rfl : k = i := hop
    rw [dataBody] at hrun
    split at hrun
    next => cases hrun
    next =>
      obtain ⟨⟨ip, dst⟩, s₁, -, hrun⟩ | ⟨msg', hread, -⟩ := bind_cases hrun
      · cases hrun
      · by_cases href : FileData.Refused (dinode sb s.disk k).size off n
        · rw [FileData.readi_refused href] at hread
          cases hread
        · rw [FileData.readi_run hhole k.isLt ht href] at hread
          cases hread
  | writei k src off n =>
    obtain rfl : k = i := hop
    rw [dataBody] at hrun
    split at hrun
    next => cases hrun
    next =>
      obtain ⟨⟨ip, c⟩, s₁, -, hrun⟩ | ⟨msg', hwrite, hrun⟩ := bind_cases hrun
      · cases hrun
      · cases hrun
        exact FileData.writei_error hwrite

theorem freeBody_error {msg : String} (howned : Owned sb s.disk (dinode sb s.disk))
    (ht : (dinode sb s.disk i).type ≠ 0)
    (hrun : freeBody sb i (dinode sb s.disk i) s = .error msg) :
    False := by
  obtain ⟨s₁, htrunc, -⟩ := Truncate.itrunc_ok howned i.isLt ht
  rw [freeBody, bind_of_ok htrunc] at hrun
  cases hrun

/-! ## Steps and runs -/

theorem ilock_ok (h : Consistent sb st) (hrun : ilock sb st i = .ok ip) :
    ip = dinode sb st.fs.disk i ∧ ip.type ≠ 0 := by
  rw [ilock] at hrun
  split at hrun
  next ip' hip =>
    cases hrun
    exact h.cached i ip hip
  next =>
    split at hrun
    next => cases hrun
    next ht =>
      cases hrun
      exact ⟨rfl, ht⟩

variable (sb) in
/-- The blocks handed out between two states were free, and are all different. -/
def FreshFrom (s s' : Fs) : Prop := ∃ new, s'.allocs = new ++ s.allocs ∧ new.Nodup ∧
  ∀ b ∈ new, b < sb.size ∧ used sb s.disk b = false

theorem freshFrom_of_eq (h : s'.allocs = s.allocs) : FreshFrom sb s s' :=
  ⟨[], h, List.nodup_nil, fun _ hb => absurd hb List.not_mem_nil⟩

section

variable (h : Consistent sb st)
include h

theorem withInode_ok {body : Dinode → FsM (Option Dinode × Reply)} {reply : Reply}
    (hbody : ∀ r s', (dinode sb st.fs.disk i).type ≠ 0 →
      body (dinode sb st.fs.disk i) st.fs = .ok ((r, reply), s') → Kept sb st.fs i s' r)
    (hrun : withInode sb st i body = .ok (reply, st')) :
    Consistent sb st' ∧ FreshFrom sb st.fs st'.fs := by
  rw [withInode] at hrun
  split at hrun
  next => cases hrun
  next ip hip =>
    obtain ⟨rfl, ht⟩ := ilock_ok h hip
    split at hrun
    next => cases hrun
    next r reply' s' hok =>
      cases hrun
      have hk := hbody r s' ht hok
      refine ⟨⟨hk.owned, hk.holeFree, ?_⟩, hk.fresh⟩
      intro j n hj
      change update st.icache i r j = some n at hj
      by_cases hji : j = i
      · subst hji
        rw [update_self] at hj
        exact hk.valid n hj
      · rw [update_of_ne hji] at hj
        obtain ⟨rfl, hn⟩ := h.cached j n hj
        have := hk.others j j.isLt fun heq => hji (Fin.ext heq)
        exact ⟨this.symm, hn⟩

theorem withInode_error {body : Dinode → FsM (Option Dinode × Reply)}
    {msg : String} (hrun : withInode sb st i body = .error msg) : msg = "ilock: no type" ∨
    ((dinode sb st.fs.disk i).type ≠ 0 ∧ body (dinode sb st.fs.disk i) st.fs = .error msg) := by
  rw [withInode] at hrun
  split at hrun
  next hlock =>
    cases hrun
    rw [ilock] at hlock
    split at hlock
    next => cases hlock
    next =>
      split at hlock
      next =>
        cases hlock
        exact .inl rfl
      next => cases hlock
  next ip hip =>
    obtain ⟨rfl, ht⟩ := ilock_ok h hip
    split at hrun
    next hbody =>
      cases hrun
      exact .inr ⟨ht, hbody⟩
    next => cases hrun

theorem Consistent.ialloc {type : Int16} {k : Nat}
    (hrun : FsImage.ialloc sb type st.fs = .ok (k, s')) :
    Consistent sb ⟨s', st.icache⟩ ∧ FreshFrom sb st.fs s' := by
  obtain ⟨-, hk, hfree, hs'⟩ := ialloc_ok hrun
  generalize hn : ({ Dinode.zero with type := type } : Dinode) = n at hs'
  have hn0 : n.addrs = fun _ => 0 := by rw [← hn]; rfl
  have hsize : n.size.toNat = 0 := by rw [← hn]; rfl
  subst hs'
  have hblank : Blank (dinode sb st.fs.disk k) := .inl hfree
  have hP : pointers sb st.fs.disk (update (dinode sb st.fs.disk) k n) =
      pointers sb st.fs.disk (dinode sb st.fs.disk) := pointers_update_blank hblank (.inr hn0)
  have howned : Owned sb st.fs.disk (update (dinode sb st.fs.disk) k n) := by
    rw [Owned, hP]
    exact h.owned
  have hhole : HoleFree sb (putDinode sb st.fs.disk k n) (update (dinode sb st.fs.disk) k n) := by
    refine h.holeFree.of_blocks fun j bn _ htj hbn => ?_
    have hj : j ≠ k := by
      rintro rfl
      rw [update_self, hsize] at hbn
      exact absurd hbn (Nat.not_lt_zero _)
    rw [update_of_ne hj] at htj hbn
    exact ⟨htj, hbn, congrFun ((howned.pointers_putDinode hk n).trans hP) _⟩
  have hkept : Kept sb st.fs k ⟨putDinode sb st.fs.disk k n, st.fs.writes + 1, st.fs.allocs⟩ none :=
    Kept.of_table (i := ⟨k, hk⟩) (howned.putDinode hk n) hhole
      (fun j _ => dinode_putDinode ..) (fun m hm => by cases hm) (freshFrom_of_eq rfl)
  refine ⟨⟨hkept.owned, hkept.holeFree, ?_⟩, freshFrom_of_eq rfl⟩
  intro j m hj
  obtain ⟨rfl, hm⟩ := h.cached j m hj
  have hjk : j.val ≠ k := fun heq => hm (heq ▸ hfree)
  exact ⟨(hkept.others j j.isLt hjk).symm, hm⟩

theorem Consistent.step {o : FileOp sb} {reply : Reply} (hrun : step sb st o = .ok (reply, st')) :
    Consistent sb st' ∧ FreshFrom sb st.fs st'.fs := by
  cases o with
  | ialloc type =>
    rw [FileRuns.step] at hrun
    split at hrun
    next => cases hrun
    next hok =>
      cases hrun
      exact h.ialloc hok
  | iupdate i major minor nlink =>
    exact withInode_ok h (fun r s' ht hok => linksBody_kept h.owned h.holeFree ht hok) hrun
  | data op =>
    exact withInode_ok h (fun r s' ht hok => dataBody_kept h.owned h.holeFree ht rfl hok) hrun
  | ifree i =>
    exact withInode_ok h (fun r s' ht hok => freeBody_kept h.owned h.holeFree ht hok) hrun
  | recycle i =>
    cases hrun
    refine ⟨⟨h.owned, h.holeFree, ?_⟩, freshFrom_of_eq rfl⟩
    intro j n hj
    change update st.icache i none j = some n at hj
    by_cases hji : j = i
    · subst hji
      rw [update_self] at hj
      cases hj
    · rw [update_of_ne hji] at hj
      exact h.cached j n hj

/-- The panics that can be reached. -/
theorem step_error {op : FileOp sb} {msg : String} (hrun : FileRuns.step sb st op = .error msg) :
    msg = "ilock: no type" ∨ msg = "balloc: out of blocks" ∨ msg = "ialloc: no inodes" := by
  cases op with
  | ialloc type =>
    rw [FileRuns.step] at hrun
    split at hrun
    next hbad =>
      cases hrun
      exact .inr (.inr (ialloc_error hbad))
    next => cases hrun
  | iupdate i major minor nlink =>
    rw [FileRuns.step] at hrun
    obtain hlock | ⟨-, hbody⟩ := withInode_error h hrun
    · exact .inl hlock
    · cases hbody
  | data op =>
    rw [FileRuns.step] at hrun
    obtain hlock | ⟨ht, hbody⟩ := withInode_error h hrun
    · exact .inl hlock
    · exact .inr (.inl (dataBody_error h.holeFree ht rfl hbody))
  | ifree i =>
    rw [FileRuns.step] at hrun
    obtain hlock | ⟨ht, hbody⟩ := withInode_error h hrun
    · exact .inl hlock
    · exact (freeBody_error h.owned ht hbody).elim
  | recycle i => cases hrun

end

theorem Consistent.reachable {st₀ : FileSys sb} (h : Consistent sb st₀)
    (hr : Runs.Reachable (next sb) st₀ st) : Consistent sb st := by
  refine hr.invariant h fun t op u ht _ hstep => ?_
  obtain ⟨⟨reply, u'⟩, hok, rfl⟩ := Option.map_eq_some_iff.mp hstep
  have hrun : FileRuns.step sb t op = .ok (reply, u') := by
    cases hs : FileRuns.step sb t op with
    | ok p =>
      rw [hs] at hok
      exact congrArg _ (Option.some.inj hok)
    | error msg =>
      rw [hs] at hok
      cases hok
  exact (ht.step hrun).1

/-! ## Block ownership -/

variable (sb) in
/-- Allocated inode `i` has block `b` at pointer `k`: a direct address, the indirect block,
or an entry of that. -/
def HasBlock (d : Disk) (i k b : Nat) : Prop :=
  i < sb.ninodes ∧ (dinode sb d i).type ≠ 0 ∧ b ≠ 0 ∧ ptr d (dinode sb d i) k = b

variable (sb) in
/-- The blocks marked in the bitmap are the metadata blocks and the disjoint union of the
blocks of the allocated inodes. -/
structure BlockOwnership (d : Disk) : Prop where
  marked : ∀ b, b < sb.size → (used sb d b = true ↔ b < sb.nmeta ∨ ∃ i k, HasBlock sb d i k b)
  disjoint : ∀ i k j l b, HasBlock sb d i k b → HasBlock sb d j l b → i = j ∧ k = l
  data : ∀ i k b, HasBlock sb d i k b → sb.nmeta ≤ b ∧ b < sb.size

theorem hasBlock_iff {i k b : Nat} :
    HasBlock sb d i k b ↔ pointers sb d (dinode sb d) (i, k) ≠ 0 ∧
      pointers sb d (dinode sb d) (i, k) = b := by
  unfold HasBlock pointers
  by_cases hin : i < sb.ninodes ∧ (dinode sb d i).type ≠ 0
  · rw [if_pos hin]
    constructor
    · rintro ⟨-, -, hb, rfl⟩
      exact ⟨hb, rfl⟩
    · rintro ⟨hb, rfl⟩
      exact ⟨hin.1, hin.2, hb, rfl⟩
  · rw [if_neg hin]
    constructor
    · exact fun h => absurd ⟨h.1, h.2.1⟩ hin
    · exact fun h => absurd rfl h.1

theorem blockOwnership_iff : BlockOwnership sb d ↔ Owned sb d (dinode sb d) := by
  constructor
  · intro h
    have hdata : ∀ p, pointers sb d (dinode sb d) p ≠ 0 →
        sb.nmeta ≤ pointers sb d (dinode sb d) p ∧ pointers sb d (dinode sb d) p < sb.size :=
      fun p hp => h.data p.1 p.2 _ (hasBlock_iff.mpr ⟨hp, rfl⟩)
    refine ⟨fun p hp => Nat.not_lt.mpr (hdata p hp).1, ?_, ?_⟩
    · intro p q hp heq
      obtain ⟨h1, h2⟩ := h.disjoint p.1 p.2 q.1 q.2 _ (hasBlock_iff.mpr ⟨hp, rfl⟩)
        (hasBlock_iff.mpr ⟨heq ▸ hp, heq.symm⟩)
      exact Prod.ext h1 h2
    · intro b
      have hlt : (b < sb.nmeta ∨ ∃ p, pointers sb d (dinode sb d) p ≠ 0 ∧
          pointers sb d (dinode sb d) p = b) → b < sb.size := by
        rintro (hb | ⟨p, hp, rfl⟩)
        · exact Nat.lt_of_lt_of_le hb sb.nmeta_le
        · exact (hdata p hp).2
      rw [Prod.exists] at hlt ⊢
      simp only [← hasBlock_iff] at hlt ⊢
      exact ⟨fun hb => (h.marked b hb.1).mp hb.2, fun hb => ⟨hlt hb, (h.marked b (hlt hb)).mpr hb⟩⟩
  · intro h
    refine ⟨?_, ?_, ?_⟩
    · intro b hb
      have := h.exact b
      rw [Prod.exists] at this
      simp only [← hasBlock_iff, hb, true_and] at this
      exact this
    · intro i k j l b hik hjl
      rw [hasBlock_iff] at hik hjl
      have := h.inj _ _ hik.1 (hik.2.trans hjl.2.symm)
      exact Prod.mk.inj this
    · intro i k b hik
      rw [hasBlock_iff] at hik
      exact hik.2 ▸ h.range hik.1

theorem boot_consistent (h : BlockOwnership sb s.disk)
    (hhole : HoleFree sb s.disk (dinode sb s.disk)) : Consistent sb (boot sb s) :=
  ⟨blockOwnership_iff.mp h, hhole, fun _ _ hip => nomatch hip⟩

/-- From an image without holes whose blocks are owned, every run of file operations keeps
ownership; what `balloc` hands out is in nobody's use, and no free block is freed. -/
theorem block_ownership {fs : Fs} (h : BlockOwnership sb fs.disk)
    (hhole : HoleFree sb fs.disk (dinode sb fs.disk))
    (hr : Runs.Reachable (next sb) (boot sb fs) st) :
    BlockOwnership sb st.fs.disk ∧ ∀ op,
      (∀ reply st', FileRuns.step sb st op = .ok (reply, st') →
        ∃ new, st'.fs.allocs = new ++ st.fs.allocs ∧ new.Nodup ∧ ∀ b ∈ new,
          sb.nmeta ≤ b ∧ b < sb.size ∧ used sb st.fs.disk b = false ∧
            ∀ i k, ¬ HasBlock sb st.fs.disk i k b) ∧
      FileRuns.step sb st op ≠ .error "freeing free block" := by
  have hcons := (boot_consistent h hhole).reachable hr
  have hown := blockOwnership_iff.mpr hcons.owned
  refine ⟨hown, fun op => ⟨fun reply st' hrun => ?_, fun hbad => ?_⟩⟩
  · obtain ⟨new, hnew, hnodup, hfree⟩ := (hcons.step hrun).2
    refine ⟨new, hnew, hnodup, fun b hb => ?_⟩
    obtain ⟨hsize, hunused⟩ := hfree b hb
    have hnot := mt (hown.marked b hsize).mpr (by rw [hunused]; exact Bool.false_ne_true)
    rw [not_or, not_exists] at hnot
    exact ⟨Nat.not_lt.mp hnot.1, hsize, hunused, fun i k hik => hnot.2 i ⟨k, hik⟩⟩
  · rcases step_error hcons hbad with h | h | h <;> exact absurd h (by decide)

/-- An image of two data blocks and seven inodes, all free. -/
def tinySb : Superblock := default

def tinyFs : Fs := ⟨update (fun _ _ => 0) 3 (update (fun _ => 0) 0 15), 0, []⟩

theorem tiny_free : ∀ i : Fin 7, (dinode tinySb tinyFs.disk i).type = 0 := by decide +kernel

theorem tiny_ownership : BlockOwnership tinySb tinyFs.disk := by
  have hnone : ∀ i k b, ¬ HasBlock tinySb tinyFs.disk i k b := fun i k b h =>
    h.2.1 (tiny_free ⟨i, h.1⟩)
  have hbits : ∀ b : Fin 6, used tinySb tinyFs.disk b = true ↔ b.val < 4 := by decide +kernel
  refine ⟨fun b hb => ?_, fun i k j l b h => absurd h (hnone i k b),
    fun i k b h => absurd h (hnone i k b)⟩
  rw [hbits ⟨b, hb⟩]
  exact ⟨.inl, fun h => h.resolve_right fun ⟨i, k, hik⟩ => hnone i k b hik⟩

theorem tiny_holeFree : HoleFree tinySb tinyFs.disk (dinode tinySb tinyFs.disk) := fun i hi ht =>
  absurd (tiny_free ⟨i, hi⟩) ht

theorem tiny_file : 1 < tinySb.ninodes := by decide

/-- A file of two blocks is written and freed, and another one written. -/
def tinyOps : List (FileOp tinySb) :=
  [.ialloc tFile,
  .data (.writei ⟨1, tiny_file⟩ (fun k => UInt8.ofNat k) 0 700), .ifree ⟨1, tiny_file⟩,
    .ialloc tFile, .data (.writei ⟨1, tiny_file⟩ (fun k => UInt8.ofNat k) 0 3)]

theorem block_ownership_tiny :
    ∃ st, Runs.exec (next tinySb) tinyOps (boot tinySb tinyFs) = some st ∧
    st.fs.allocs = [4, 5, 4] ∧ BlockOwnership tinySb st.fs.disk := by
  have hrun : ((Runs.exec (next tinySb) tinyOps (boot tinySb tinyFs)).map fun st => st.fs.allocs) =
      some [4, 5, 4] := by decide +kernel
  obtain ⟨st, hst, hallocs⟩ := Option.map_eq_some_iff.mp hrun
  exact ⟨st, hst, hallocs,
    (block_ownership tiny_ownership tiny_holeFree (Runs.reachable_of_exec hst)).1⟩

end Xv6.FileRuns
