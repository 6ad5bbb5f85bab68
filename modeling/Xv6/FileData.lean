import Xv6.BlockMap

/-!
# Reading and writing files

`readi` and `writei` of fs.c on inodes that are not devices. Both go through the file in
chunks that do not cross a block, and find or allocate the block of each with `bmap`.
-/
namespace Xv6.FileData

open Function (update)
open Bytes FsImage BlockMap

variable (sb : Superblock)

/-- The loop of `readi`, for `n` more bytes from `off` on, which returns the bytes copied. -/
def readLoop : Nat → Dinode → Nat → Nat → FsM (Dinode × List UInt8)
  | 0, ip, _, _ => pure (ip, [])
  | fuel + 1, ip, off, n =>
    if n = 0 then pure (ip, []) else do
      let (ip, addr) ← bmap sb ip (off / 512)
      let bp ← bread addr
      let m := min n (512 - off % 512)
      let (ip, rest) ← readLoop fuel ip (off + m) (n - m)
      pure (ip, (List.range m).map (fun k => bp (off % 512 + k)) ++ rest)

/-- `readi`, where no bytes stands for -1. -/
def readi (ip : Dinode) (off n : UInt32) : FsM (Dinode × Option (List UInt8)) :=
  if off > ip.size ∨ off + n < off then pure (ip, none)
  else do
    let n := if off + n > ip.size then ip.size - off else n
    let (ip, dst) ← readLoop sb n.toNat ip off.toNat n.toNat
    pure (ip, some dst)

namespace Code

open FsImage.Code BlockMap.Code

variable {m : Type → Type} [Machine m]

/-- The loop of `writei`, for `n` more bytes at `off`. -/
def writeLoop : Nat → Dinode → Buf → Nat → Nat → m Dinode
  | 0, ip, _, _, _ => pure ip
  | fuel + 1, ip, src, off, n =>
    if n = 0 then pure ip else do
      let (ip, addr) ← bmap sb ip (off / 512)
      let bp ← bread addr
      let len := min n (512 - off % 512)
      logWrite addr (memmove bp (off % 512) src len)
      writeLoop fuel ip (fun k => src (len + k)) (off + len) (n - len)

/-- `writei` to inode `i`; `none` stands for -1. -/
def writei (i : Nat) (ip : Dinode) (src : Buf) (off n : UInt32) : m (Dinode × Option UInt32) :=
  if off > ip.size ∨ off + n < off then pure (ip, none)
  else if (off + n).toNat > 140 * 512 then pure (ip, none)
  else do
    let ip ← writeLoop sb n.toNat ip src off.toNat n.toNat
    if n > 0 ∧ off + n > ip.size then do
      let ip := { ip with size := off + n }
      iupdate sb i ip
      pure (ip, some n)
    else pure (ip, some n)

end Code

abbrev writeLoop (fuel : Nat) (ip : Dinode) (src : Buf) (off n : Nat) : FsM Dinode :=
  Code.writeLoop sb fuel ip src off n

abbrev writei (i : Nat) (ip : Dinode) (src : Buf) (off n : UInt32) : FsM (Dinode × Option UInt32) :=
  Code.writei sb i ip src off n

variable {sb} {d : Disk} {s s' : Fs} {T : Table} {i j k bn off n m fuel : Nat} {src : Buf}
  {ip ip' : Dinode}

/-! ## Fields that stay -/

theorem writeLoop_nums (h : writeLoop sb fuel ip src off n s = .ok (ip', s')) :
    SameNums ip ip' := by
  induction fuel generalizing ip src off n s with
  | zero =>
    cases h
    exact .rfl
  | succ fuel ih =>
    unfold writeLoop Code.writeLoop at h
    split at h
    next =>
      cases h
      exact .rfl
    next =>
      obtain ⟨⟨ip₁, addr⟩, s₁, h₁, h⟩ := bind_ok h
      obtain ⟨bp, s₂, -, h⟩ := bind_ok h
      obtain ⟨-, s₃, -, h⟩ := bind_ok h
      exact (bmap_nums h₁).trans (ih h)

theorem writei_nums {off n : UInt32} {r : Option UInt32}
    (h : writei sb i ip src off n s = .ok ((ip', r), s')) : SameNums ip ip' := by
  unfold writei Code.writei at h
  split at h
  next =>
    cases h
    exact .rfl
  next =>
    split at h
    next =>
      cases h
      exact .rfl
    next =>
      obtain ⟨ip₁, s₁, h₁, h⟩ := bind_ok h
      have hnums := writeLoop_nums h₁
      split at h
      next =>
        obtain ⟨-, s₂, -, h⟩ := bind_ok h
        cases h
        exact ⟨hnums.type, hnums.major, hnums.minor, hnums.nlink⟩
      next =>
        cases h
        exact hnums

/-! ## Reading -/

theorem range_map_split {α : Type} (f : Nat → α) (h : m ≤ n) : (List.range m).map f ++
    (List.range (n - m)).map (fun k => f (m + k)) = (List.range n).map f := by
  conv_rhs => rw [show n = m + (n - m) by omega, List.range_add, List.map_append, List.map_map]
  rfl

theorem readLoop_run (hfuel : n ≤ fuel)
    (hb : ∀ k, k < n → ptr s.disk ip (slot ((off + k) / 512)) ≠ 0) :
    readLoop sb fuel ip off n s =
      .ok ((ip, (List.range n).map fun k => content s.disk ip (off + k)), s) := by
  induction fuel generalizing off n with
  | zero =>
    obtain rfl : n = 0 := by omega
    rfl
  | succ fuel ih =>
    rw [readLoop]
    split
    next hn =>
      subst hn
      rfl
    next hn =>
      generalize hm : min n (512 - off % 512) = m
      have hrest : readLoop sb fuel ip (off + m) (n - m) s =
          .ok ((ip, (List.range (n - m)).map fun k => content s.disk ip (off + m + k)), s) := by
        refine ih (by omega) fun k hk => ?_
        rw [Nat.add_assoc]
        exact hb (m + k) (by omega)
      have hfirst : ptr s.disk ip (slot (off / 512)) ≠ 0 := hb 0 (by omega)
      rw [bind_of_ok (bmap_found hfirst)]
      change (do
        let (ip', rest) ← readLoop sb fuel ip (off + m) (n - m)
        pure (ip', (List.range m).map
          (fun k => s.disk (ptr s.disk ip (slot (off / 512))) (off % 512 + k)) ++ rest)) s = _
      rw [bind_of_ok hrest, ← range_map_split _ (show m ≤ n by omega)]
      simp only [Nat.add_assoc]
      refine congrArg (fun l => Except.ok ((ip, l ++ _), s)) (List.map_congr_left fun k hk => ?_)
      have := List.mem_range.mp hk
      rw [content, show (off + k) / 512 = off / 512 by omega,
        show (off + k) % 512 = off % 512 + k by omega]

/-- A call with these offset and length is refused. -/
def Refused (size off n : UInt32) : Prop := off.toNat > size.toNat ∨ off.toNat + n.toNat ≥ 2 ^ 32

instance (size off n : UInt32) : Decidable (Refused size off n) :=
  inferInstanceAs (Decidable (_ ∨ _))

theorem refused_iff {size off n : UInt32} : off > size ∨ off + n < off ↔ Refused size off n := by
  have hoff := off.toNat_lt
  have hn := n.toNat_lt
  rw [Refused, gt_iff_lt, UInt32.lt_iff_toNat_lt, UInt32.lt_iff_toNat_lt, UInt32.toNat_add]
  omega

theorem toNat_add_of {size off n : UInt32} (h : ¬ Refused size off n) :
    (off + n).toNat = off.toNat + n.toNat := by
  rw [UInt32.toNat_add, Nat.mod_eq_of_lt]
  unfold Refused at h
  omega

theorem readi_refused {off n : UInt32} (h : Refused ip.size off n) :
    readi sb ip off n s = .ok ((ip, none), s) := by
  rw [readi, if_pos (refused_iff.mpr h)]
  rfl

/-- Where the blocks are there, `readi` returns the bytes in them and changes nothing. -/
theorem readi_present {off n : UInt32} (h : ¬ Refused ip.size off n)
    (hb : ∀ k, k < min n.toNat (ip.size.toNat - off.toNat) →
      ptr s.disk ip (slot ((off.toNat + k) / 512)) ≠ 0) :
    readi sb ip off n s = .ok ((ip, some ((List.range (min n.toNat (ip.size.toNat - off.toNat))).map
      fun k => content s.disk ip (off.toNat + k))), s) := by
  have hsum := toNat_add_of h
  have hlen : (if off + n > ip.size then ip.size - off else n).toNat =
      min n.toNat (ip.size.toNat - off.toNat) := by
    unfold Refused at h
    split
    next hgt =>
      rw [gt_iff_lt, UInt32.lt_iff_toNat_lt, hsum] at hgt
      rw [UInt32.toNat_sub_of_le _ _ (by rw [UInt32.le_iff_toNat_le]; omega)]
      omega
    next hle =>
      rw [gt_iff_lt, UInt32.lt_iff_toNat_lt, hsum] at hle
      omega
  rw [readi, if_neg (mt refused_iff.mp h)]
  simp only [hlen]
  rw [bind_of_ok (readLoop_run (Nat.le_refl _) hb)]
  rfl

/-- In a file without holes `readi` returns the bytes that are there, and changes nothing. -/
theorem readi_mapped {off n : UInt32} (hm : Mapped s.disk ip) (h : ¬ Refused ip.size off n) :
    readi sb ip off n s = .ok ((ip, some ((List.range (min n.toNat (ip.size.toNat - off.toNat))).map
      fun k => content s.disk ip (off.toNat + k))), s) :=
  readi_present h fun k hk => hm _ (by omega)

theorem content_of (hi : i < sb.ninodes) (ht : (T i).type ≠ 0) (j : Nat) :
    content d (T i) j = byte sb d T i j := by
  rw [byte, fileBlock, pointers_of hi ht, content]

theorem readi_run {off n : UInt32} (hf : HoleFree sb s.disk T) (hi : i < sb.ninodes)
    (ht : (T i).type ≠ 0) (h : ¬ Refused (T i).size off n) :
    readi sb (T i) off n s = .ok ((T i, some
      ((List.range (min n.toNat ((T i).size.toNat - off.toNat))).map fun k =>
        byte sb s.disk T i (off.toNat + k))), s) := by
  rw [readi_mapped (hf.file hi ht) h]
  simp only [content_of hi ht]

/-! ## Writing -/

/-- One chunk of a write: the bytes change where it goes, and nothing else does. -/
theorem chunk_filled {a o : Nat} (h : Owned sb s.disk T) (ha : a = fileBlock sb s.disk T i bn)
    (ha0 : a ≠ 0) (hom : o + m ≤ 512) (src : Buf) (w : Nat) :
    Owned sb (update s.disk a (memmove (s.disk a) o src m)) T ∧
    Filled sb s T ⟨update s.disk a (memmove (s.disk a) o src m), w, s.allocs⟩ T i
      (bn * 512 + o) m src := by
  subst ha
  have hmeta := (h.range ha0).1
  have hP : ∀ buf, pointers sb (update s.disk (fileBlock sb s.disk T i bn) buf) T =
      pointers sb s.disk T := by
    intro buf
    refine pointers_congr fun l hl htl hal => ?_
    obtain ⟨hind, hne⟩ := pointers_indirect (d := s.disk) hl htl hal
    rw [← hind, Function.update_of_ne]
    exact h.ne_of_ne hne fun heq => slot_ne bn (congrArg Prod.snd heq).symm
  have hblock : ∀ buf l bl, fileBlock sb (update s.disk (fileBlock sb s.disk T i bn) buf) T l bl =
      fileBlock sb s.disk T l bl := fun buf l bl => congrFun (hP buf) _
  have hused : ∀ buf c, c < sb.size →
      used sb (update s.disk (fileBlock sb s.disk T i bn) buf) c = used sb s.disk c := by
    intro buf c hc
    have := Superblock.bblock_lt hc
    rw [used, Function.update_of_ne (by rw [fileBlock]; omega), used]
  refine ⟨?_, ⟨fun l bl _ => hblock _ l bl, ?_, ?_, ?_, ?_⟩, ?_⟩
  · refine Ownership.Owns.congr h (fun c => ?_) (congrFun (hP _))
    exact and_congr_right fun hc => by rw [hused _ c hc]
  · intro l k hl hk
    simp only [byte, hblock]
    by_cases hsame : fileBlock sb s.disk T l (k / 512) = fileBlock sb s.disk T i bn
    · have hkey := h.inj _ _ hl hsame
      obtain rfl : l = i := congrArg Prod.fst hkey
      have hbn : k / 512 = bn := slot_inj (congrArg Prod.snd hkey)
      rw [hsame, Function.update_self, memmove_outside (by omega)]
    · rw [Function.update_of_ne hsame]
  · intro k hk
    simp only [byte, hblock, show (bn * 512 + o + k) / 512 = bn by omega,
      show (bn * 512 + o + k) % 512 = o + k by omega, Function.update_self]
    exact ⟨ha0, by rw [memmove_inside (by omega) (by omega), Nat.add_sub_cancel_left]⟩
  · exact fun c hc hu => (hused _ c hc).trans hu
  · exact ⟨[], rfl, List.nodup_nil, fun _ h => absurd h List.not_mem_nil⟩
  · intro l hl
    have := Superblock.iblock_lt_nmeta hl
    exact dinode_congr (Function.update_of_ne (by rw [fileBlock]; omega) ..)

theorem writeLoop_ok (h : Owned sb s.disk T) (hi : i < sb.ninodes) (ht : (T i).type ≠ 0)
    (hfuel : n ≤ fuel) (hrun : writeLoop sb fuel (T i) src off n s = .ok (ip', s')) :
    Owned sb s'.disk (update T i ip') ∧ Filled sb s T s' (update T i ip') i off n src ∧
      ip' = withAddrs (T i) ip'.addrs ∧
      ((∀ k, k < n → fileBlock sb s.disk T i ((off + k) / 512) ≠ 0) → ip' = T i) := by
  induction fuel generalizing off n s T src with
  | zero =>
    obtain rfl : n = 0 := by omega
    cases hrun
    rw [Function.update_eq_self]
    exact ⟨h, .refl .., rfl, fun _ => rfl⟩
  | succ fuel ih =>
    rw [writeLoop, Code.writeLoop] at hrun
    split at hrun
    next hn =>
      subst hn
      cases hrun
      rw [Function.update_eq_self]
      exact ⟨h, .refl .., rfl, fun _ => rfl⟩
    next hn =>
      obtain ⟨⟨ip, addr⟩, s₁, hbmap, hrun⟩ := bind_ok hrun
      obtain ⟨howned, hfilled, haddr, ha0, hsame⟩ := bmap_ok h hi ht hbmap off src
      generalize hm : min n (512 - off % 512) = m at hrun
      obtain ⟨howned₂, hchunk⟩ := chunk_filled howned haddr ha0
        (show off % 512 + m ≤ 512 by omega) src (s₁.writes + 1)
      rw [show off / 512 * 512 + off % 512 = off by omega] at hchunk
      have hself : update T i ip i = ip := Function.update_self ..
      have ht' : ip.type ≠ 0 := by rw [hsame]; exact ht
      obtain ⟨howned', hrest, hsame', hstay⟩ := ih (s := ⟨update s₁.disk addr
          (memmove (s₁.disk addr) (off % 512) src m), s₁.writes + 1, s₁.allocs⟩)
          (T := update T i ip)
        howned₂ (hself.symm ▸ ht') (show n - m ≤ fuel by omega) (by rw [hself]; exact hrun)
      rw [Function.update_idem] at howned' hrest
      rw [hself] at hsame' hstay
      refine ⟨howned', ?_, ?_, ?_⟩
      · have hall :=
          (hfilled.trans (m := 0) (by simpa using hchunk)).trans (m := 0 + m) (by simpa using hrest)
        rwa [show 0 + m + (n - m) = n by omega] at hall
      · calc ip' = withAddrs ip ip'.addrs := hsame'
          _ = withAddrs (withAddrs (T i) ip.addrs) ip'.addrs := by rw [← hsame]
      · intro hb
        have hfirst : fileBlock sb s.disk T i (off / 512) ≠ 0 := hb 0 (by omega)
        cases (bmap_mapped hi ht hfirst).symm.trans hbmap
        refine hstay fun k hk => ?_
        rw [Function.update_eq_self] at hchunk ⊢
        rw [Nat.add_assoc, hchunk.block _ _ (hb (m + k) (by omega))]
        exact hb (m + k) (by omega)

theorem writeLoop_error {msg : String} (hmax : off + n ≤ 140 * 512)
    (hrun : writeLoop sb fuel ip src off n s = .error msg) : msg = "balloc: out of blocks" := by
  induction fuel generalizing off n s ip src with
  | zero => cases hrun
  | succ fuel ih =>
    rw [writeLoop, Code.writeLoop] at hrun
    split at hrun
    next => cases hrun
    next hn =>
      obtain ⟨⟨ip₁, addr⟩, s₁, -, hrun⟩ | ⟨msg', hbmap, hrun⟩ := bind_cases hrun
      · exact ih (by omega) hrun
      · cases hrun
        exact bmap_error (by omega) hbmap

/-- Where the blocks are there, none is allocated. -/
theorem writeLoop_present (h : Owned sb s.disk T) (hi : i < sb.ninodes) (ht : (T i).type ≠ 0)
    (hb : ∀ k, k < n → fileBlock sb s.disk T i ((off + k) / 512) ≠ 0) :
    ∃ s', writeLoop sb fuel (T i) src off n s = .ok (T i, s') := by
  induction fuel generalizing off n s src with
  | zero => exact ⟨s, rfl⟩
  | succ fuel ih =>
    rw [writeLoop, Code.writeLoop]
    split
    next => exact ⟨s, rfl⟩
    next hn =>
      have hfirst : fileBlock sb s.disk T i (off / 512) ≠ 0 := hb 0 (by omega)
      rw [bind_of_ok (bmap_mapped hi ht hfirst)]
      generalize hm : min n (512 - off % 512) = m
      obtain ⟨howned, hchunk⟩ :=
        chunk_filled h rfl hfirst (show off % 512 + m ≤ 512 by omega) src (s.writes + 1)
      refine ih howned fun k hk => ?_
      have hnext := hb (m + k) (by omega)
      rw [Nat.add_assoc, hchunk.block _ _ hnext]
      exact hnext

variable (sb) in
/-- What a `writei` to inode `i` that was not refused leaves. -/
structure Written (s : Fs) (T : Table) (s' : Fs) (ip' : Dinode) (i off n : Nat) (src : Buf) :
    Prop where
  owned : Owned sb s'.disk (update T i ip')
  holeFree : HoleFree sb s'.disk (update T i ip')
  wrote : Wrote sb s T s' (update T i ip') i off n src
  inode : ip' = { withAddrs (T i) ip'.addrs with size := ip'.size }
  size : ip'.size.toNat = max (T i).size.toNat (off + n)
  table : ∀ j, j < sb.ninodes → dinode sb s'.disk j = if j = i then ip' else dinode sb s.disk j

/-- A file that has been written has no holes: the write started where the file ended or
before. -/
theorem holeFree_wrote (hf : HoleFree sb s.disk T)
    (h : Wrote sb s T s' (update T i ip') i off n src) (hi : i < sb.ninodes) (ht : (T i).type ≠ 0)
    (hoff : off ≤ (T i).size.toNat) (hsize : ip'.size.toNat = max (T i).size.toNat (off + n)) :
    HoleFree sb s'.disk (update T i ip') := by
  have hkeep : ∀ j bn, fileBlock sb s.disk T j bn ≠ 0 →
      fileBlock sb s'.disk (update T i ip') j bn ≠ 0 := by
    intro j bn hne
    rwa [h.block j bn hne]
  intro j hj htj bn hbn
  by_cases hji : j = i
  · subst hji
    rw [Function.update_self, hsize] at hbn
    by_cases hold : bn * 512 < (T j).size.toNat
    · exact hkeep j bn (hf j hj ht bn hold)
    · have hput := (h.put (bn * 512 - off) (by omega)).1
      rwa [show (off + (bn * 512 - off)) / 512 = bn by omega] at hput
  · rw [Function.update_of_ne hji] at hbn htj
    exact hkeep j bn (hf j hj htj bn hbn)

variable (sb) in
/-- What such a `writei` leaves if nothing is known of holes in the other files. -/
structure WrittenFile (s : Fs) (T : Table) (s' : Fs) (ip' : Dinode) (i off n : Nat) (src : Buf) :
    Prop where
  owned : Owned sb s'.disk (update T i ip')
  wrote : Wrote sb s T s' (update T i ip') i off n src
  inode : ip' = { withAddrs (T i) ip'.addrs with size := ip'.size }
  size : ip'.size.toNat = max (T i).size.toNat (off + n)
  table : ∀ j, j < sb.ninodes → dinode sb s'.disk j = if j = i then ip' else dinode sb s.disk j

theorem writei_file {off n : UInt32} {r : Option UInt32} (h : Owned sb s.disk T)
    (hm : Mapped s.disk (T i)) (hi : i < sb.ninodes) (ht : (T i).type ≠ 0)
    (hdisk : dinode sb s.disk i = T i)
    (hrun : writei sb i (T i) src off n s = .ok ((ip', r), s')) :
    if Refused (T i).size off n ∨ off.toNat + n.toNat > 140 * 512 then
      r = none ∧ ip' = T i ∧ s' = s
    else r = some n ∧ WrittenFile sb s T s' ip' i off.toNat n.toNat src := by
  rw [writei, Code.writei] at hrun
  split at hrun
  next href =>
    cases hrun
    rw [if_pos (.inl (refused_iff.mp href))]
    exact ⟨rfl, rfl, rfl⟩
  next href =>
    have href := mt refused_iff.mpr href
    have hsum := toNat_add_of href
    rw [hsum] at hrun
    split at hrun
    next hmax =>
      cases hrun
      rw [if_pos (.inr hmax)]
      exact ⟨rfl, rfl, rfl⟩
    next hmax =>
      rw [if_neg (not_or.mpr ⟨href, hmax⟩)]
      have hoff : off.toNat ≤ (T i).size.toNat := by
        unfold Refused at href
        omega
      obtain ⟨ip, s₁, hloop, hrun⟩ := bind_ok hrun
      obtain ⟨howned, hfilled, hsame, hstay⟩ := writeLoop_ok h hi ht (Nat.le_refl _) hloop
      have hsize : ip.size = (T i).size := by rw [hsame]; rfl
      split at hrun
      next hgrow =>
        rw [hsize, gt_iff_lt, gt_iff_lt, UInt32.lt_iff_toNat_lt,
          UInt32.lt_iff_toNat_lt, hsum] at hgrow
        cases hrun
        have htable : ∀ j, j < sb.ninodes →
            (update T i { ip with size := off + n } j).addrs = (update T i ip j).addrs ∧
            ((update T i { ip with size := off + n } j).type = 0 ↔ (update T i ip j).type = 0) := by
          intro j _
          by_cases hj : j = i
          · subst hj
            rw [Function.update_self, Function.update_self]
            exact ⟨rfl, Iff.rfl⟩
          · rw [Function.update_of_ne hj, Function.update_of_ne hj]
            exact ⟨rfl, Iff.rfl⟩
        have hwrote := hfilled.toWrote.putDinode howned hi { ip with size := off + n }
          (s₁.writes + 1) htable
        have hmaxsize : (off + n).toNat = max (T i).size.toNat (off.toNat + n.toNat) := by omega
        refine ⟨rfl, ?_, hwrote, ?_, hmaxsize, ?_⟩
        · exact (howned.congr_table htable).putDinode hi _
        · rw [hsame]
          rfl
        · intro j hj
          change dinode sb (putDinode sb s₁.disk i _) j = _
          rw [dinode_putDinode, hfilled.inodes j hj]
      next hstays =>
        cases hrun
        rw [hsize, gt_iff_lt, gt_iff_lt, UInt32.lt_iff_toNat_lt,
          UInt32.lt_iff_toNat_lt, hsum] at hstays
        rw [UInt32.toNat_zero] at hstays
        -- the bytes written were there before, so that no block was added
        obtain rfl : ip' = T i := hstay fun k hk => by
          rw [fileBlock, pointers_of hi ht]
          exact hm _ (by omega)
        have hmaxsize : (T i).size.toNat = max (T i).size.toNat (off.toNat + n.toNat) := by omega
        refine ⟨rfl, howned, hfilled.toWrote, rfl, hmaxsize, ?_⟩
        intro j hj
        rw [hfilled.inodes j hj]
        split
        next hji => rw [hji, hdisk]
        next => rfl

theorem writei_ok {off n : UInt32} {r : Option UInt32} (h : Owned sb s.disk T)
    (hf : HoleFree sb s.disk T) (hi : i < sb.ninodes) (ht : (T i).type ≠ 0)
    (hdisk : dinode sb s.disk i = T i)
    (hrun : writei sb i (T i) src off n s = .ok ((ip', r), s')) :
    if Refused (T i).size off n ∨ off.toNat + n.toNat > 140 * 512 then
      r = none ∧ ip' = T i ∧ s' = s
    else r = some n ∧ Written sb s T s' ip' i off.toNat n.toNat src := by
  have hspec := writei_file h (hf.file hi ht) hi ht hdisk hrun
  split at hspec
  next hno => rwa [if_pos hno]
  next hyes =>
    obtain ⟨hr, hw⟩ := hspec
    have hoff : off.toNat ≤ (T i).size.toNat := by
      unfold Refused at hyes
      omega
    rw [if_neg hyes]
    exact ⟨hr, hw.owned, holeFree_wrote hf hw.wrote hi ht hoff hw.size, hw.wrote,
      hw.inode, hw.size, hw.table⟩

theorem writei_error {off n : UInt32} {msg : String}
    (hrun : writei sb i ip src off n s = .error msg) : msg = "balloc: out of blocks" := by
  rw [writei, Code.writei] at hrun
  split at hrun
  next => cases hrun
  next href =>
    have hsum := toNat_add_of (mt refused_iff.mpr href)
    split at hrun
    next => cases hrun
    next hmax =>
      obtain ⟨ip₁, s₁, -, hrun⟩ | ⟨msg', hloop, hrun⟩ := bind_cases hrun
      · split at hrun <;> cases hrun
      · cases hrun
        exact writeLoop_error (by omega) hloop

/-- A write beyond the largest size is refused. -/
theorem writei_beyond {off n : UInt32} (h : 140 * 512 < off.toNat + n.toNat) :
    writei sb i ip src off n s = .ok ((ip, none), s) := by
  rw [writei, Code.writei]
  split
  next => rfl
  next href =>
    rw [if_pos (by rw [toNat_add_of (mt refused_iff.mpr href)]; exact h)]
    rfl

/-- A write to blocks that are there returns. -/
theorem writei_present {off n : UInt32} (h : Owned sb s.disk T) (hi : i < sb.ninodes)
    (ht : (T i).type ≠ 0)
    (hb : ∀ k, k < n.toNat → fileBlock sb s.disk T i ((off.toNat + k) / 512) ≠ 0) :
    ∃ p, writei sb i (T i) src off n s = .ok p := by
  obtain ⟨s', hloop⟩ : ∃ s', writeLoop sb n.toNat (T i) src off.toNat n.toNat s = .ok (T i, s') :=
    writeLoop_present h hi ht hb
  rw [writei, Code.writei]
  split
  next => exact ⟨_, rfl⟩
  next =>
    split
    next => exact ⟨_, rfl⟩
    next =>
      rw [bind_of_ok hloop]
      split <;> exact ⟨_, rfl⟩

end Xv6.FileData
