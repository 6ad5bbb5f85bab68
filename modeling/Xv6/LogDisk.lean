import Mathlib.Data.UInt
import Xv6.RedoLog

/-!
# The log on disk

`commit` and `recover_from_log` of log.c as the single-block writes they issue, in
order, on a disk of any contents. A block is its words; the header block holds the
count and the block numbers of the log, and its other words stay as they are. Each
write is a step of the redo log of `RedoLog`, whose homes are the blocks outside the
log area.
-/
namespace Xv6.LogDisk

open Function (update)
open RedoLog (Store Write fill install)

abbrev logsize : Nat := 30

/-- A block of BSIZE bytes, in words. -/
abbrev Block := Fin 128 → UInt32

abbrev Disk := UInt32 → Block

/-- `struct logheader` in memory; `n` is the length. -/
structure LogHeader where
  block : List UInt32
  fits : block.length ≤ logsize

@[ext] theorem LogHeader.ext {lh lh' : LogHeader} (h : lh.block = lh'.block) : lh = lh' := by
  cases lh
  cases lh'
  simp_all

def LogHeader.empty : LogHeader := ⟨[], by simp⟩

/-- A word read as an `int`. -/
def asInt (w : UInt32) : Int := if w.toNat < 2 ^ 31 then w.toNat else w.toNat - 2 ^ 32

/-- `read_head`. A count above LOGSIZE would be copied past the end of the header in
memory; the result is then none. -/
def readHead (buf : Block) : Option LogHeader :=
  let n := (asInt (buf 0)).toNat
  if h : n ≤ logsize then
    some ⟨(List.range n).map fun i => buf (Fin.ofNat 128 (i + 1)), by simpa using h⟩
  else none

/-- The header block that `write_head` writes, from the one it has read. -/
def writeHead (buf : Block) (lh : LogHeader) : Block := fun i =>
  if i = 0 then UInt32.ofNat lh.block.length else lh.block[i.val - 1]?.getD (buf i)

def write (d : Disk) (w : UInt32 × Block) : Disk := update d w.1 w.2

def writeAll (d : Disk) (ws : List (UInt32 × Block)) : Disk := ws.foldl write d

/-- The block of the log for index `i`. -/
def slotAddr (start : UInt32) (i : Nat) : UInt32 := start + UInt32.ofNat (i + 1)

/-- `write_log` from index `i` on; `cache` has the modified blocks. Where `bget` finds all
NBUF buffers dirty it panics, which cuts the list short. -/
def writeLog (start : UInt32) (cache : Disk) (i : Nat) : List UInt32 → List (UInt32 × Block)
  | [] => []
  | b :: l => (slotAddr start i, cache b) :: writeLog start cache (i + 1) l

/-- `install_trans` from index `i` on. -/
def installTrans (start : UInt32) (i : Nat) : List UInt32 → Disk → List (UInt32 × Block)
  | [], _ => []
  | b :: l, d =>
    let w := (b, d (slotAddr start i))
    w :: installTrans start (i + 1) l (write d w)

/-- `install_trans`, then `write_head` with the count zero. -/
def installAndClear (start : UInt32) (lh : LogHeader) (d : Disk) : List (UInt32 × Block) :=
  let ws := installTrans start 0 lh.block d
  ws ++ [(start, writeHead (writeAll d ws start) .empty)]

def commit (start : UInt32) (lh : LogHeader) (cache d : Disk) : List (UInt32 × Block) :=
  if lh.block.length > 0 then
    let ws := writeLog start cache 0 lh.block
    let ws := ws ++ [(start, writeHead (writeAll d ws start) lh)]
    ws ++ installAndClear start lh (writeAll d ws)
  else []

def recoverFromLog (start : UInt32) (d : Disk) : Option (List (UInt32 × Block)) :=
  (readHead (d start)).map fun lh => installAndClear start lh d

/-- The log area: `size` blocks from `start`. -/
def InLog (start : UInt32) (size : Nat) (b : UInt32) : Prop :=
  ∃ i, i < size ∧ b = start + UInt32.ofNat i

/-- A transaction: block numbers that fit the log, none twice and none in the log area,
and the contents that the buffer cache has for them. -/
structure Txn (start : UInt32) (size : Nat) where
  lh : LogHeader
  cache : Disk
  pos : 1 ≤ lh.block.length
  room : lh.block.length < size
  nodup : lh.block.Nodup
  home : ∀ b ∈ lh.block, ¬ InLog start size b

/-- The disks of a running system: `initlog` has recovered from a disk of any contents,
and transactions have been committed. -/
inductive Booted (start : UInt32) (size : Nat) : Disk → Prop where
  | recovered {d : Disk} {ws : List (UInt32 × Block)} (h : recoverFromLog start d = some ws) :
      Booted start size (writeAll d ws)
  | committed {d : Disk} (t : Txn start size) (h : Booted start size d) :
      Booted start size (writeAll d (commit start t.lh t.cache d))

/-- Recovery is begun and cut off by a crash, any number of times. -/
inductive Crashes (start : UInt32) : Disk → Disk → Prop where
  | refl (d : Disk) : Crashes start d d
  | step {d d' : Disk} {ws : List (UInt32 × Block)} (h : recoverFromLog start d = some ws)
      (j : Nat) : Crashes start (writeAll d (ws.take j)) d' → Crashes start d d'

theorem writeAll_append (d : Disk) (ws ws' : List (UInt32 × Block)) :
    writeAll d (ws ++ ws') = writeAll (writeAll d ws) ws' := List.foldl_append ..

@[simp] theorem write_same (d : Disk) (b : UInt32) (v : Block) : write d (b, v) b = v := by
  simp [write]

theorem write_other (d : Disk) {b x : UInt32} (v : Block) (h : x ≠ b) :
    write d (b, v) x = d x := by
  simp [write, h]

theorem count_writeHead (buf : Block) (lh : LogHeader) :
    (asInt (writeHead buf lh 0)).toNat = lh.block.length := by
  have hfits : lh.block.length ≤ 30 := lh.fits
  have hword : (writeHead buf lh 0).toNat = lh.block.length := by
    simp only [writeHead, if_true, UInt32.toNat_ofNat']
    omega
  unfold asInt
  rw [hword, if_pos (by omega), Int.toNat_natCast]

/-- What `write_head` has written `read_head` reads. -/
theorem readHead_writeHead (buf : Block) (lh : LogHeader) :
    readHead (writeHead buf lh) = some lh := by
  have hfits : lh.block.length ≤ 30 := lh.fits
  unfold readHead
  simp only [count_writeHead, lh.fits, dite_true, Option.some.injEq]
  ext1
  apply List.ext_getElem
  · simp
  · intro i hi hi'
    have hmod : (i + 1) % 128 = i + 1 := by omega
    have hne : ¬ 128 ∣ i + 1 := by omega
    simp [writeHead, hne, hmod, hi']

section Refinement

variable {start : UInt32} {size : Nat}

/-- A block outside the log area. -/
abbrev Home (start : UInt32) (size : Nat) := { b : UInt32 // ¬ InLog start size b }

/-- The redo log that a disk holds. -/
structure Shows (start : UInt32) (size : Nat) (d : Disk) (s : Store (Home start size) Block) :
    Prop where
  home : ∀ b, d b.val = s.home b
  slot : ∀ i, i < logsize → i + 1 < size → d (slotAddr start i) = s.slot i
  head : (readHead (d start)).map LogHeader.block = some (s.head.map Subtype.val)
  room : s.head.length < size

variable {d : Disk} {s : Store (Home start size) Block}

theorem slotAddr_inj {i j : Nat} (hi : i < logsize) (hj : j < logsize)
    (h : slotAddr start i = slotAddr start j) : i = j := by
  have h' := congrArg UInt32.toNat (add_left_cancel h)
  simp only [UInt32.toNat_ofNat'] at h'
  have hlog : logsize = 30 := rfl
  omega

theorem slotAddr_ne_start {i : Nat} (hi : i < logsize) : slotAddr start i ≠ start := by
  intro h
  have h' := congrArg UInt32.toNat (left_eq_add.mp h.symm)
  simp only [UInt32.toNat_ofNat', UInt32.toNat_zero] at h'
  have hlog : logsize = 30 := rfl
  omega

theorem slotAddr_inLog {i : Nat} (hi : i + 1 < size) : InLog start size (slotAddr start i) :=
  ⟨i + 1, hi, rfl⟩

theorem start_inLog (h : 0 < size) : InLog start size start := ⟨0, h, by simp⟩

/-- A write of a log block. -/
theorem Shows.writeSlot (h : Shows start size d s) {i : Nat} (hi : i < logsize)
    (hsize : i + 1 < size) (v : Block) :
    Shows start size (write d (slotAddr start i, v)) (s.apply (.slot i v)) where
  home b := by
    have hne : b.val ≠ slotAddr start i := by
      intro hb
      exact b.property (hb ▸ slotAddr_inLog hsize)
    rw [write_other d v hne]
    exact h.home b
  slot j hj hjs := by
    by_cases hji : j = i
    · subst hji
      simp [Store.apply]
    · have hne : slotAddr start j ≠ slotAddr start i := fun heq => hji (slotAddr_inj hj hi heq)
      rw [write_other d v hne, h.slot j hj hjs]
      simp [Store.apply, hji]
  head := by
    rw [write_other d v (slotAddr_ne_start hi).symm]
    exact h.head
  room := h.room

/-- A write of the header block. -/
theorem Shows.writeHead (h : Shows start size d s) {lh : LogHeader} {l : List (Home start size)}
    (hl : lh.block = l.map Subtype.val) (hroom : l.length < size) :
    Shows start size (write d (start, LogDisk.writeHead (d start) lh)) (s.apply (.head l)) where
  home b := by
    have hne : b.val ≠ start := by
      intro hb
      apply b.property
      rw [hb]
      exact start_inLog (by omega)
    rw [write_other d _ hne]
    exact h.home b
  slot j hj hjs := by
    rw [write_other d _ (slotAddr_ne_start hj)]
    exact h.slot j hj hjs
  head := by
    rw [write_same, readHead_writeHead]
    simp [hl, Store.apply]
  room := hroom

/-- A write of a home block. -/
theorem Shows.writeHome (h : Shows start size d s) (a : Home start size) (v : Block) :
    Shows start size (write d (a.val, v)) (s.apply (.home a v)) where
  home b := by
    by_cases hba : b = a
    · subst hba
      simp [Store.apply]
    · have hne : b.val ≠ a.val := fun heq => hba (Subtype.ext heq)
      rw [write_other d v hne, h.home b]
      simp [Store.apply, hba]
  slot j hj hjs := by
    have hne : slotAddr start j ≠ a.val := by
      intro ha
      exact a.property (ha ▸ slotAddr_inLog hjs)
    rw [write_other d v hne]
    exact h.slot j hj hjs
  head := by
    have hne : start ≠ a.val := by
      intro ha
      have hsize := h.room
      exact a.property (ha ▸ start_inLog (by omega))
    rw [write_other d v hne]
    exact h.head
  room := h.room

/-- Writes to the disk that are writes to its redo log, one for one. -/
inductive Refines (start : UInt32) (size : Nat) : Disk → List (UInt32 × Block) →
    Store (Home start size) Block → List (Write (Home start size) Block) → Prop where
  | nil {d : Disk} {s : Store (Home start size) Block} (h : Shows start size d s) :
      Refines start size d [] s []
  | cons {d : Disk} {s : Store (Home start size) Block} {w : UInt32 × Block}
      {ws : List (UInt32 × Block)} {a : Write (Home start size) Block}
      {as : List (Write (Home start size) Block)} (h : Shows start size d s)
      (hrest : Refines start size (write d w) ws (s.apply a) as) :
      Refines start size d (w :: ws) s (a :: as)

variable {ws ws' : List (UInt32 × Block)} {as as' : List (Write (Home start size) Block)}

theorem Refines.take (h : Refines start size d ws s as) (k : Nat) :
    Shows start size (writeAll d (ws.take k)) (s.applyAll (as.take k)) := by
  induction h generalizing k with
  | nil h => simpa [writeAll, Store.applyAll] using h
  | cons h _ ih =>
    cases k with
    | zero => exact h
    | succ k => exact ih k

theorem Refines.all (h : Refines start size d ws s as) :
    Shows start size (writeAll d ws) (s.applyAll as) := by
  induction h with
  | nil h => exact h
  | cons _ _ ih => exact ih

theorem Refines.append (h : Refines start size d ws s as)
    (h' : Refines start size (writeAll d ws) ws' (s.applyAll as) as') :
    Refines start size d (ws ++ ws') s (as ++ as') := by
  induction h with
  | nil _ => exact h'
  | cons h _ ih => exact .cons h (ih h')

theorem writeLog_refines (cache : Disk) (h : Shows start size d s) {i : Nat}
    {l : List (Home start size)} (hlog : i + l.length ≤ logsize) (hroom : i + l.length < size) :
    Refines start size d (writeLog start cache i (l.map Subtype.val)) s
      (fill (fun a => cache a.val) i l) := by
  induction l generalizing i d s with
  | nil => exact .nil h
  | cons a l ih =>
    simp only [List.length_cons] at hlog hroom
    apply Refines.cons h
    exact ih (h.writeSlot (by omega) (by omega) _) (by omega) (by omega)

theorem installTrans_refines (h : Shows start size d s) {i : Nat}
    {l : List (Home start size)} (hlog : i + l.length ≤ logsize) (hroom : i + l.length < size) :
    Refines start size d (installTrans start i (l.map Subtype.val) d) s (install s.slot i l) := by
  induction l generalizing i d s with
  | nil => exact .nil h
  | cons a l ih =>
    simp only [List.length_cons] at hlog hroom
    apply Refines.cons h
    rw [h.slot i (by omega) (by omega)]
    exact ih (h.writeHome a _) (by omega) (by omega)

/-- `install_trans` and the clearing of the header are the recovery of the redo log. -/
theorem installAndClear_refines (h : Shows start size d s) {lh : LogHeader}
    (hlh : lh.block = s.head.map Subtype.val) :
    Refines start size d (installAndClear start lh d) s s.recover := by
  have hfits : s.head.length ≤ logsize := by simpa [hlh] using lh.fits
  have hroom := h.room
  have hinstall := installTrans_refines h (i := 0) (l := s.head) (by omega) (by omega)
  rw [← hlh] at hinstall
  apply hinstall.append
  apply Refines.cons hinstall.all
  exact .nil (hinstall.all.writeHead rfl (by simp; omega))

theorem recoverFromLog_refines (h : Shows start size d s) :
    ∃ ws, recoverFromLog start d = some ws ∧ Refines start size d ws s s.recover := by
  obtain ⟨lh, hread, hblock⟩ := Option.map_eq_some_iff.mp h.head
  exact ⟨installAndClear start lh d, by simp [recoverFromLog, hread],
    installAndClear_refines h hblock⟩

/-- `commit` is the transaction of the redo log. -/
theorem commit_refines (h : Shows start size d s) (t : Txn start size)
    {l : List (Home start size)} (hl : t.lh.block = l.map Subtype.val) :
    Refines start size d (commit start t.lh t.cache d) s
      (s.commit l fun a => t.cache a.val) := by
  have hlen : l.length = t.lh.block.length := by simp [hl]
  have hfits := t.lh.fits
  have hroom := t.room
  have hlog := writeLog_refines t.cache h (i := 0) (l := l) (by omega) (by omega)
  rw [← hl] at hlog
  have hhead := hlog.append (.cons hlog.all (.nil (hlog.all.writeHead hl (by omega))))
  unfold commit
  rw [if_pos (show t.lh.block.length > 0 from t.pos)]
  apply hhead.append
  apply installAndClear_refines hhead.all
  rw [RedoLog.applyAll_append]
  exact hl

/-- The last write of a commit or a recovery leaves the count zero. -/
theorem installAndClear_head (lh : LogHeader) (d : Disk) :
    readHead (writeAll d (installAndClear start lh d) start) = some .empty ∧
      writeAll d (installAndClear start lh d) start 0 = 0 := by
  have hlast : writeAll d (installAndClear start lh d) start =
      LogDisk.writeHead (writeAll d (installTrans start 0 lh.block d) start) .empty := by
    unfold installAndClear
    rw [writeAll_append]
    exact write_same _ _ _
  rw [hlast]
  exact ⟨readHead_writeHead _ _, rfl⟩

/-- The log of a running system is empty between transactions. -/
theorem Booted.head (h : Booted start size d) : readHead (d start) = some .empty := by
  cases h with
  | recovered h =>
    obtain ⟨lh, -, rfl⟩ := Option.map_eq_some_iff.mp h
    exact (installAndClear_head lh _).1
  | committed t _ =>
    unfold commit
    rw [if_pos (show t.lh.block.length > 0 from t.pos), writeAll_append]
    exact (installAndClear_head t.lh _).1

theorem Booted.shows (h : Booted start size d) (hsize : 0 < size) :
    Shows start size d ⟨fun b => d b.val, fun i => d (slotAddr start i), []⟩ where
  home _ := rfl
  slot _ _ _ := rfl
  head := by
    rw [h.head]
    rfl
  room := hsize

/-- Recoveries of the disk that are cut off are such recoveries of its redo log. -/
theorem Crashes.shows {d' : Disk} (h : Crashes start d d') (hs : Shows start size d s) :
    ∃ t, Shows start size d' t ∧ s.Crashes t := by
  induction h generalizing s with
  | refl d => exact ⟨s, hs, .refl s⟩
  | step hws j _ ih =>
    obtain ⟨ws, hws', hrefines⟩ := recoverFromLog_refines hs
    obtain rfl := Option.some.inj (hws.symm.trans hws')
    obtain ⟨t, ht, hcrashes⟩ := ih (hrefines.take j)
    exact ⟨t, ht, .step j hcrashes⟩

/-- A commit is cut off after `k` of its writes and recoveries after it anywhere: the
next recovery completes, empties the log, and leaves outside the log area the contents
from before the transaction if the header had not been written, and else those after it. -/
theorem commit_crash_atomic (hd : Booted start size d) (t : Txn start size) (k : Nat) (d' : Disk)
    (hcrash : Crashes start (writeAll d ((commit start t.lh t.cache d).take k)) d') :
    ∃ ws, recoverFromLog start d' = some ws ∧ writeAll d' ws start 0 = 0 ∧
      ∀ b, ¬ InLog start size b → writeAll d' ws b =
        if k ≤ t.lh.block.length then d b else if b ∈ t.lh.block then t.cache b else d b := by
  have hroom := t.room
  have hshows := hd.shows (by omega)
  have hl : t.lh.block = (t.lh.block.attachWith _ t.home).map Subtype.val := by simp
  have hnodup : (t.lh.block.attachWith _ t.home).Nodup := by
    apply List.Nodup.of_map Subtype.val
    rw [← hl]
    exact t.nodup
  have hcommit := commit_refines hshows t hl
  obtain ⟨u, hu, hcrashes⟩ := hcrash.shows (hcommit.take k)
  obtain ⟨ws, hws, hrefines⟩ := recoverFromLog_refines hu
  obtain ⟨-, hhome⟩ := RedoLog.crash_recover rfl hnodup _ k hcrashes
  refine ⟨ws, hws, ?_, ?_⟩
  · obtain ⟨lh, -, rfl⟩ := Option.map_eq_some_iff.mp hws
    exact (installAndClear_head lh d').2
  · intro b hb
    rw [hrefines.all.home ⟨b, hb⟩, hhome]
    by_cases hk : k ≤ t.lh.block.length
    · simp [hk]
    · simp [hk, RedoLog.after]

end Refinement

/-- One block of sevens for block 60, with the log of a new file system. -/
def oneBlock : Txn 2 30 where
  lh := ⟨[60], by decide⟩
  cache := fun _ _ => 7
  pos := by decide
  room := by decide
  nodup := by decide
  home := by
    rintro b hb ⟨i, hi, h⟩
    obtain rfl : b = 60 := by simpa using hb
    have h' := congrArg UInt32.toNat h
    simp only [UInt32.toNat_add, UInt32.toNat_ofNat', UInt32.toNat_ofNat] at h'
    omega

/-- The disk of zeros, recovered. -/
def zeros : Disk := writeAll (fun _ _ => 0) [(2, writeHead (fun _ => 0) .empty)]

theorem booted_zeros : Booted 2 30 zeros := .recovered rfl

/-- A crash right after the header is written, and one in the recovery after that: block
60 has its new contents. -/
theorem commit_crash_atomic_oneBlock : ∃ d' ws, recoverFromLog 2 d' = some ws ∧
    writeAll d' ws 2 0 = 0 ∧ writeAll d' ws 60 = fun _ => 7 := by
  have hcrash : Crashes 2 (writeAll zeros ((commit 2 oneBlock.lh oneBlock.cache zeros).take 2)) _ :=
    .step rfl 1 (.refl _)
  obtain ⟨ws, hws, hzero, hhome⟩ := commit_crash_atomic booted_zeros oneBlock 2 _ hcrash
  refine ⟨_, ws, hws, hzero, ?_⟩
  rw [hhome 60 (oneBlock.home 60 (by decide))]
  rfl

end Xv6.LogDisk
