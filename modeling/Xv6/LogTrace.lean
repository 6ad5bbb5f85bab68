import Xv6.FileRuns

/-!
# The blocks that a write logs

`writei` and the functions below it on a machine that keeps a list of the blocks passed to
`log_write`; without the list they run as on the image. A chunk
of `filewrite` is at most three blocks long and so touches four blocks of the file. The
first of four has been there before, which leaves three bitmap blocks for the others, and
one for an indirect block.
-/
namespace Xv6.LogTrace

open Function (update)
open Bytes FsImage BlockMap FileData

/-- Code that runs on the image, with the blocks it has logged when it returns or panics. -/
def LogM (α : Type) : Type := Fs → Except String (α × Fs) × List Nat

instance : Monad LogM where
  pure a s := (.ok (a, s), [])
  bind x f s := match x s with
    | (.ok (a, s'), l) => ((f a s').1, l ++ (f a s').2)
    | (.error msg, l) => (.error msg, l)

namespace LogM

variable {α β : Type} {x : LogM α} {f : α → LogM β} {s s' : Fs} {a : α} {msg : String}

def result (x : LogM α) : FsM α := fun s => (x s).1

def logged (x : LogM α) (s : Fs) : List Nat := (x s).2

/-- Code that logs nothing. -/
def quiet (x : FsM α) : LogM α := fun s => (x s, [])

@[simp] theorem result_quiet (x : FsM α) : (quiet x).result = x := rfl

@[simp] theorem logged_quiet (x : FsM α) (s : Fs) : (quiet x).logged s = [] := rfl

@[simp] theorem result_pure (a : α) : (pure a : LogM α).result = pure a := rfl

@[simp] theorem logged_pure (a : α) (s : Fs) : (pure a : LogM α).logged s = [] := rfl

@[simp] theorem result_bind (x : LogM α) (f : α → LogM β) :
    (x >>= f).result = x.result >>= fun a => (f a).result := by
  funext s
  rcases hx : x s with ⟨r | r, l⟩ <;> simp [result, bind, hx]

theorem logged_of_ok (h : x.result s = .ok (a, s')) :
    (x >>= f).logged s = x.logged s ++ (f a).logged s' := by
  unfold result at h
  change (match x s with
    | (.ok (a, s'), l) => ((f a s').1, l ++ (f a s').2)
    | (.error msg, l) => (.error msg, l)).2 = (x s).2 ++ (f a s').2
  generalize x s = y at h ⊢
  obtain ⟨r, l⟩ := y
  obtain rfl : r = .ok (a, s') := h
  rfl

theorem logged_of_error (h : x.result s = .error msg) : (x >>= f).logged s = x.logged s := by
  unfold result at h
  change (match x s with
    | (.ok (a, s'), l) => ((f a s').1, l ++ (f a s').2)
    | (.error msg, l) => (.error msg, l)).2 = (x s).2
  generalize x s = y at h ⊢
  obtain ⟨r, l⟩ := y
  obtain rfl : r = .error msg := h
  rfl

@[simp] theorem logged_bind_pure (x : LogM α) (g : α → β) (s : Fs) :
    (x >>= fun a => pure (g a)).logged s = x.logged s := by
  cases hx : x.result s with
  | ok r => rw [logged_of_ok hx, logged_pure, List.append_nil]
  | error msg => exact logged_of_error hx

theorem result_ite {c : Prop} [Decidable c] (x y : LogM α) :
    (if c then x else y).result = if c then x.result else y.result := by
  split <;> rfl

instance : Machine LogM where
  kpanic msg := quiet (kpanic msg)
  bread b := quiet (bread b)
  logWrite b buf s := (logWrite (m := FsM) b buf s, [b])
  handOut b := quiet (handOut b)

end LogM

open LogM (quiet)

/-- `writei` with its list. -/
abbrev writei (sb : Superblock) (i : Nat) (ip : Dinode) (src : Buf) (off n : UInt32) :
    LogM (Dinode × Option UInt32) := Code.writei sb i ip src off n

variable {sb : Superblock} {s s' : Fs} {T : Table} {ip ip' : Dinode} {src : Buf}
  {i j k a b bn off n fuel x : Nat} {msg : String}

@[simp] theorem result_bread (b : Nat) : (bread b : LogM Buf).result = bread b := rfl

@[simp] theorem result_logWrite (b : Nat) (buf : Buf) :
    (logWrite b buf : LogM Unit).result = logWrite b buf := rfl

@[simp] theorem result_kpanic {α : Type} (msg : String) :
    (kpanic msg : LogM α).result = kpanic msg := rfl

theorem logged_bread_bind {α : Type} (b : Nat) (f : Buf → LogM α) (s : Fs) :
    LogM.logged (bread b >>= f) s = (f (s.disk b)).logged s := rfl

theorem logged_logWrite_bind {α : Type} (b : Nat) (buf : Buf) (f : Unit → LogM α) (s : Fs) :
    LogM.logged (logWrite b buf >>= f) s =
      b :: (f ()).logged ⟨update s.disk b buf, s.writes + 1, s.allocs⟩ := rfl

theorem result_ballocFrom (fuel b : Nat) : (Code.ballocFrom sb fuel b : LogM Nat).result =
    Code.ballocFrom sb fuel b := by
  induction fuel generalizing b with
  | zero => rfl
  | succ fuel ih =>
    rw [Code.ballocFrom, Code.ballocFrom]
    split
    · rw [LogM.result_bind]
      congr 1
      funext bp
      cases findFree sb bp b 4096 0 with
      | none => exact ih _
      | some bi => rfl
    · rfl

@[simp] theorem result_balloc : (Code.balloc sb : LogM Nat).result = balloc sb :=
  result_ballocFrom ..

@[simp] theorem result_addrAlloc (ip : Dinode) (k : Fin 13) :
    (Code.addrAlloc sb ip k : LogM _).result = addrAlloc sb ip k := by
  simp [Code.addrAlloc, addrAlloc, LogM.result_ite]

@[simp] theorem result_entryAlloc (addr j : Nat) :
    (Code.entryAlloc sb addr j : LogM _).result = entryAlloc sb addr j := by
  simp [Code.entryAlloc, entryAlloc, LogM.result_ite]

@[simp] theorem result_bmap (ip : Dinode) (bn : Nat) :
    (Code.bmap sb ip bn : LogM _).result = bmap sb ip bn := by
  unfold bmap Code.bmap
  split
  · simp
  · simp [LogM.result_ite]

theorem result_writeLoop (fuel : Nat) (ip : Dinode) (src : Buf) (off n : Nat) :
    (Code.writeLoop sb fuel ip src off n : LogM _).result = writeLoop sb fuel ip src off n := by
  induction fuel generalizing ip src off n with
  | zero => rfl
  | succ fuel ih => simp [Code.writeLoop, writeLoop, LogM.result_ite, ih]

/-- The list is only added to the code. -/
theorem result_writei (i : Nat) (ip : Dinode) (src : Buf) (off n : UInt32) :
    (writei sb i ip src off n).result = FileData.writei sb i ip src off n := by
  simp [writei, FileData.writei, Code.writei, LogM.result_ite, result_writeLoop,
    Code.iupdate]

/-! ## Counting -/

/-- How many different blocks there are in a list besides `x`. -/
def others (x : Nat) (l : List Nat) : Nat := (l.toFinset.erase x).card

@[simp] theorem others_nil (x : Nat) : others x [] = 0 := rfl

theorem others_cons_self (x : Nat) (l : List Nat) : others x (x :: l) = others x l := by
  unfold others
  rw [List.toFinset_cons, Finset.erase_insert_eq_erase]

theorem others_cons_mem {x b : Nat} {l : List Nat} (h : b ∈ l) :
    others x (b :: l) = others x l := by
  unfold others
  rw [List.toFinset_cons, Finset.insert_eq_of_mem (List.mem_toFinset.mpr h)]

theorem others_append_le (x : Nat) (l m : List Nat) :
    others x (l ++ m) ≤ others x l + others x m := by
  unfold others
  rw [List.toFinset_append, Finset.erase_union_distrib]
  exact Finset.card_union_le ..

theorem others_singleton_le (x b : Nat) : others x [b] ≤ 1 := Finset.card_erase_le.trans (by simp)

theorem others_cons_le (x b : Nat) (l : List Nat) : others x (b :: l) ≤ 1 + others x l :=
  (others_append_le x [b] l).trans (Nat.add_le_add_right (others_singleton_le x b) _)

theorem card_le_others (x : Nat) (l : List Nat) : l.toFinset.card ≤ others x l + 1 :=
  Nat.sub_le_iff_le_add.mp Finset.pred_card_le_card_erase

/-- `balloc` logs the bitmap block and the block that it returns, or nothing when it fails. -/
theorem logged_balloc (sb : Superblock) (s : Fs) : LogM.logged (Code.balloc sb) s =
    match balloc sb s with
    | .ok (b, _) => [sb.bblock b, b]
    | .error _ => [] := by
  suffices hloop : ∀ fuel k, k % 4096 = 0 → LogM.logged (Code.ballocFrom sb fuel k) s =
      match (Code.ballocFrom sb fuel k : FsM Nat) s with
      | .ok (b, _) => [sb.bblock b, b]
      | .error _ => [] from hloop _ 0 rfl
  intro fuel
  induction fuel with
  | zero => exact fun _ _ => rfl
  | succ fuel ih =>
    intro k hk
    rw [Code.ballocFrom, Code.ballocFrom]
    by_cases hlt : k < sb.size
    · rw [if_pos hlt, if_pos hlt, bread_bind, logged_bread_bind]
      cases hfind : findFree sb (s.disk (sb.bblock k)) k 4096 0 with
      | none => exact ih (k + 4096) (by omega)
      | some bi =>
        obtain ⟨hbi, -, -⟩ := findFree_some hfind
        have hblock : sb.bblock (k + bi) = sb.bblock k := by
          unfold Superblock.bblock
          omega
        change _ = [sb.bblock (k + bi), k + bi]
        rw [hblock]
        rfl
    · rw [if_neg hlt, if_neg hlt]
      rfl

theorem logged_balloc_bind {α : Type} (sb : Superblock) (f : Nat → LogM α) (s : Fs) :
    LogM.logged (Code.balloc sb >>= f) s =
      match balloc sb s with
      | .ok (b, s') => [sb.bblock b, b] ++ (f b).logged s'
      | .error _ => [] := by
  have hlogged := logged_balloc sb s
  cases hballoc : balloc sb s with
  | ok r =>
    rw [hballoc] at hlogged
    rw [LogM.logged_of_ok (by rw [result_balloc]; exact hballoc), hlogged]
  | error msg =>
    rw [hballoc] at hlogged
    rw [LogM.logged_of_error (by rw [result_balloc]; exact hballoc), hlogged]

/-- What `addrAlloc` logs: nothing, or a bitmap block and the block it has found. -/
theorem logged_addrAlloc (sb : Superblock) (ip : Dinode) (k : Fin 13) (s : Fs) :
    LogM.logged (Code.addrAlloc sb ip k) s = [] ∨
    ∃ b s', addrAlloc sb ip k s = .ok ((setAddr ip k b, b), s') ∧ ip.addrs k = 0 ∧
      LogM.logged (Code.addrAlloc sb ip k) s = [sb.bblock b, b] := by
  unfold addrAlloc Code.addrAlloc
  split
  next hk =>
    rw [logged_balloc_bind]
    cases hballoc : balloc sb s with
    | ok r => exact .inr ⟨r.1, r.2, bind_of_ok hballoc, hk, rfl⟩
    | error msg => exact .inl rfl
  next => exact .inl rfl

theorem logged_entryAlloc (sb : Superblock) (addr j : Nat) (s : Fs) :
    LogM.logged (Code.entryAlloc sb addr j) s = [] ∨
    ∃ b s', entryAlloc sb addr j s = .ok (b, s') ∧ getLE (s.disk addr) (4 * j) 4 = 0 ∧
      LogM.logged (Code.entryAlloc sb addr j) s = [sb.bblock b, b, addr] := by
  unfold entryAlloc Code.entryAlloc
  rw [bread_bind, logged_bread_bind]
  split
  next hzero =>
    rw [logged_balloc_bind]
    cases hballoc : balloc sb s with
    | ok r => exact .inr ⟨r.1, _, bind_of_ok hballoc, hzero, rfl⟩
    | error msg => exact .inl rfl
  next => exact .inl rfl

/-- What `bmap` logs for a block behind the direct ones. -/
theorem logged_bmap_indirect {ip₁ : Dinode} {addr : Nat} {s₁ : Fs} (hbn : ¬ bn < 12)
    (hlt : bn - 12 < 128) (haddr : addrAlloc sb ip 12 s = .ok ((ip₁, addr), s₁)) :
    LogM.logged (Code.bmap sb ip bn) s = LogM.logged (Code.addrAlloc sb ip 12) s ++ LogM.logged
      (Code.entryAlloc sb addr (bn - 12)) s₁ := by
  rw [Code.bmap, dif_neg hbn, if_pos hlt, LogM.logged_of_ok (by rw [result_addrAlloc]; exact haddr)]
  dsimp only
  rw [LogM.logged_bind_pure]

theorem logged_bmap_found (hb : ptr s.disk ip (slot bn) ≠ 0) :
    LogM.logged (Code.bmap sb ip bn) s = [] := by
  unfold slot at hb
  split at hb
  next hbn =>
    rw [ptr_addr ⟨bn, by omega⟩] at hb
    rw [Code.bmap, dif_pos hbn, Code.addrAlloc, if_neg fun h0 => hb (by rw [h0, UInt32.toNat_zero])]
    rfl
  next hbn =>
    unfold ptr at hb
    rw [dif_neg (by omega)] at hb
    split at hb
    next hin =>
      have haddr : addrAlloc sb ip 12 s = .ok ((ip, (ip.addrs 12).toNat), s) := by
        rw [addrAlloc, Code.addrAlloc, if_neg hin.2]
        rfl
      have hnone : LogM.logged (Code.addrAlloc sb ip 12) s = [] := by
        rw [Code.addrAlloc, if_neg hin.2]
        rfl
      rw [show bn + 1 - 13 = bn - 12 by omega] at hb
      rw [logged_bmap_indirect hbn (by omega) haddr, hnone, List.nil_append]
      rcases logged_entryAlloc sb (ip.addrs 12).toNat (bn - 12) s with hlog | ⟨-, -, -, hzero, -⟩
      · exact hlog
      · exact absurd hzero hb
    next => exact absurd rfl hb

/-- What one round of `writei` logs, besides the indirect block: the block of the file and,
if it is new, a bitmap block; and a bitmap block for a new indirect block. -/
theorem bmap_others (h : Owned sb s.disk T) (hi : i < sb.ninodes) (ht : (T i).type ≠ 0)
    (hrun : bmap sb (T i) bn s = .ok ((ip', a), s'))
    (hx : ip'.addrs 12 ≠ 0 → x = (ip'.addrs 12).toNat) :
    others x (LogM.logged (Code.bmap sb (T i) bn) s ++ [a]) +
      (if fileBlock sb s.disk T i bn = 0 then 0 else 1) ≤
      2 + if (T i).addrs 12 = 0 ∧ ip'.addrs 12 ≠ 0 then 1 else 0 := by
  have hone := others_singleton_le x a
  by_cases hb : fileBlock sb s.disk T i bn = 0
  case neg =>
    rw [if_neg hb]
    rw [fileBlock, pointers_of hi ht] at hb
    rw [logged_bmap_found hb, List.nil_append]
    omega
  rw [if_pos hb, Nat.add_zero]
  by_cases hbn : bn < 12
  · rw [bmap, Code.bmap, dif_pos hbn] at hrun
    rw [Code.bmap, dif_pos hbn]
    rcases logged_addrAlloc sb (T i) ⟨bn, by omega⟩ s with hnone | ⟨b, s₁, hok, -, hlog⟩
    · rw [hnone, List.nil_append]
      omega
    · cases hok.symm.trans hrun
      have hcons := others_cons_le x (sb.bblock a) [a, a]
      rw [others_cons_mem List.mem_cons_self] at hcons
      rw [hlog]
      exact (hcons.trans (by omega)).trans (Nat.le_add_right _ _)
  · rw [bmap, Code.bmap, dif_neg hbn] at hrun
    split at hrun
    case isFalse => cases hrun
    case isTrue hlt =>
    obtain ⟨⟨ip₁, addr⟩, s₁, haddr, hrun⟩ := bind_ok hrun
    obtain ⟨b, s₂, hentry, hrun⟩ := bind_ok hrun
    cases hrun
    obtain ⟨-, -, hax, ha0, -⟩ := addrAlloc_ok h hi ht haddr 0 fun _ => 0
    have hne : ip'.addrs 12 ≠ 0 := fun h0 => ha0 (by rw [hax, h0, UInt32.toNat_zero])
    obtain rfl : x = addr := (hx hne).trans hax.symm
    rw [logged_bmap_indirect hbn hlt haddr, List.append_assoc]
    -- the entry: its block, and a bitmap block
    have hdata : others x (LogM.logged (Code.entryAlloc sb x (bn - 12)) s₁ ++ [a]) ≤ 2 := by
      rcases logged_entryAlloc sb x (bn - 12) s₁ with hnone | ⟨b, s₃, hok, -, hlog⟩
      · rw [hnone, List.nil_append]
        omega
      · cases hok.symm.trans hentry
        have hrest : others x [a, x, a] ≤ 1 := by
          rw [others_cons_mem (by simp), others_cons_self]
          exact hone
        rw [hlog]
        exact (others_cons_le x (sb.bblock a) [a, x, a]).trans (by omega)
    rcases logged_addrAlloc sb (T i) 12 s with hnone | ⟨b, s₃, hok, hzero, hlog⟩
    · rw [hnone, List.nil_append]
      omega
    · cases hok.symm.trans haddr
      have hcons := others_cons_le x (sb.bblock x)
        (x :: (LogM.logged (Code.entryAlloc sb x (bn - 12)) s₁ ++ [a]))
      rw [others_cons_self] at hcons
      rw [hlog, if_pos ⟨hzero, hne⟩]
      exact hcons.trans (by omega)

/-- The same, when `balloc` finds no block. -/
theorem bmap_others_error (hi : i < sb.ninodes) (ht : (T i).type ≠ 0)
    (hrun : bmap sb (T i) bn s = .error msg) (x : Nat) :
    others x (LogM.logged (Code.bmap sb (T i) bn) s) ≤ 2 ∧ fileBlock sb s.disk T i bn = 0 := by
  have hb : fileBlock sb s.disk T i bn = 0 := by
    by_contra hne
    rw [bmap_mapped hi ht hne] at hrun
    cases hrun
  refine ⟨?_, hb⟩
  have htwo : ∀ b c, others x [b, c] ≤ 2 := fun b c =>
    (others_cons_le x b [c]).trans (Nat.add_le_add_left (others_singleton_le x c) 1)
  by_cases hbn : bn < 12
  · rw [Code.bmap, dif_pos hbn]
    rcases logged_addrAlloc sb (T i) ⟨bn, by omega⟩ s with hnone | ⟨b, s₁, -, -, hlog⟩
    · rw [hnone]
      exact Nat.zero_le _
    · rw [hlog]
      exact htwo _ _
  by_cases hlt : bn - 12 < 128
  case neg =>
    rw [Code.bmap, dif_neg hbn, if_neg hlt]
    exact Nat.zero_le _
  rw [bmap, Code.bmap, dif_neg hbn, if_pos hlt] at hrun
  obtain ⟨⟨ip₁, addr⟩, s₁, haddr, hrun⟩ | ⟨msg', haddr, hrun⟩ := bind_cases hrun
  · rw [logged_bmap_indirect hbn hlt haddr]
    obtain ⟨b, s₂, -, hrun⟩ | ⟨msg', hentry, -⟩ := bind_cases hrun
    · cases hrun
    · rcases logged_entryAlloc sb addr (bn - 12) s₁ with hnone | ⟨b, s₂, hok, -, -⟩
      · rw [hnone, List.append_nil]
        rcases logged_addrAlloc sb (T i) 12 s with hnone | ⟨b, s₁, -, -, hlog⟩
        · rw [hnone]
          exact Nat.zero_le _
        · rw [hlog]
          exact htwo _ _
      · cases hok.symm.trans hentry
  · rcases logged_addrAlloc sb (T i) 12 s with hnone | ⟨b, s₁, hok, -, -⟩
    · rw [Code.bmap, dif_neg hbn, if_pos hlt,
        LogM.logged_of_error (by rw [result_addrAlloc]; exact haddr), hnone]
      exact Nat.zero_le _
    · cases hok.symm.trans haddr

theorem bmap_indirect (hrun : bmap sb ip bn s = .ok ((ip', a), s')) (ha : ip.addrs 12 ≠ 0) :
    ip'.addrs 12 = ip.addrs 12 := by
  have haddr : ∀ {k : Fin 13} {ip' : Dinode} {a : Nat} {s' : Fs},
      addrAlloc sb ip k s = .ok ((ip', a), s') → (k = 12 → ip.addrs 12 ≠ 0) →
      ip'.addrs 12 = ip.addrs 12 := by
    intro k ip' a s' h hk
    unfold addrAlloc Code.addrAlloc at h
    split at h
    next hzero =>
      obtain ⟨b, s₁, -, h⟩ := bind_ok h
      cases h
      refine setAddr_of_ne fun heq => ?_
      subst heq
      exact ha hzero
    next =>
      cases h
      rfl
  unfold bmap Code.bmap at hrun
  split at hrun
  next => exact haddr hrun fun _ => ha
  next =>
    split at hrun
    next =>
      obtain ⟨⟨ip₁, addr⟩, s₁, h₁, hrun⟩ := bind_ok hrun
      obtain ⟨b, s₂, -, hrun⟩ := bind_ok hrun
      cases hrun
      exact haddr h₁ fun _ => ha
    next => cases hrun

/-- The number of blocks of a file that hold the `n` bytes at `off`. -/
def touched (off n : Nat) : Nat := if n = 0 then 0 else (off % 512 + n + 511) / 512

/-- What the loop of `writei` logs, besides the indirect block `x`: two blocks for each
block of the file, one less if the first is there already, and one for a new indirect
block. -/
theorem writeLoop_others (src : Buf) (off : Nat) (h : Owned sb s.disk T) (hi : i < sb.ninodes)
    (ht : (T i).type ≠ 0) (hfuel : n ≤ fuel) :
    ∃ x, ((T i).addrs 12 ≠ 0 → x = ((T i).addrs 12).toNat) ∧
      others x (LogM.logged (Code.writeLoop sb fuel (T i) src off n) s) +
        (if n = 0 ∨ fileBlock sb s.disk T i (off / 512) = 0 then 0 else 1) ≤
      2 * touched off n + if (T i).addrs 12 = 0 then 1 else 0 := by
  induction fuel generalizing off n s T src with
  | zero =>
    obtain rfl : n = 0 := by omega
    exact ⟨_, fun _ => rfl, by simp [Code.writeLoop, touched]⟩
  | succ fuel ih =>
    by_cases hn : n = 0
    · subst hn
      exact ⟨_, fun _ => rfl, by simp [Code.writeLoop, touched]⟩
    have hpos : touched off n = (off % 512 + n + 511) / 512 := if_neg hn
    rw [Code.writeLoop, if_neg hn]
    cases hbmap : bmap sb (T i) (off / 512) s with
    | error msg =>
      obtain ⟨hle, hb⟩ := bmap_others_error hi ht hbmap ((T i).addrs 12).toNat
      refine ⟨_, fun _ => rfl, ?_⟩
      rw [LogM.logged_of_error (by rw [result_bmap]; exact hbmap), if_pos (.inr hb)]
      omega
    | ok r =>
      obtain ⟨⟨ip, addr⟩, s₁⟩ := r
      obtain ⟨howned, -, haddr, ha0, hsame⟩ := bmap_ok h hi ht hbmap off src
      generalize hm : min n (512 - off % 512) = m
      obtain ⟨howned₂, -⟩ := chunk_filled howned haddr ha0
        (show off % 512 + m ≤ 512 by omega) src (s₁.writes + 1)
      have hself : update T i ip i = ip := Function.update_self ..
      have ht' : ip.type ≠ 0 := by rw [hsame]; exact ht
      obtain ⟨x, hx, hrest⟩ := ih (s := ⟨update s₁.disk addr
          (memmove (s₁.disk addr) (off % 512) src m), s₁.writes + 1, s₁.allocs⟩)
          (T := update T i ip)
        (fun k => src (m + k)) (off + m) howned₂ (hself.symm ▸ ht') (show n - m ≤ fuel by omega)
      rw [hself] at hx hrest
      have hchunk := bmap_others h hi ht hbmap hx
      have hkeep := bmap_indirect hbmap
      refine ⟨x, fun ha => (hx (hkeep ha ▸ ha)).trans (by rw [hkeep ha]), ?_⟩
      rw [LogM.logged_of_ok (by rw [result_bmap]; exact hbmap)]
      dsimp only
      rw [logged_bread_bind, logged_logWrite_bind, List.append_cons]
      have happend := others_append_le x (LogM.logged (Code.bmap sb (T i) (off / 512)) s ++ [addr])
        (LogM.logged (Code.writeLoop sb fuel ip (fun k => src (m + k)) (off + m) (n - m))
          ⟨update s₁.disk addr (memmove (s₁.disk addr) (off % 512) src m),
          s₁.writes + 1, s₁.allocs⟩)
      have htouched : touched off n = touched (off + m) (n - m) + 1 := by
        unfold touched
        split_ifs <;> omega
      have hnew : (if (T i).addrs 12 = 0 ∧ ip.addrs 12 ≠ 0 then 1 else 0) +
          (if ip.addrs 12 = 0 then 1 else 0) ≤ (if (T i).addrs 12 = 0 then 1 else 0 : Nat) := by
        by_cases ha : (T i).addrs 12 = 0
        · simp only [ha, true_and, ne_eq, if_true]
          split_ifs <;> decide
        · simp [ha, hkeep ha]
      have hfirst : (if n = 0 ∨ fileBlock sb s.disk T i (off / 512) = 0 then 0 else 1 : Nat) =
          if fileBlock sb s.disk T i (off / 512) = 0 then 0 else 1 := by
        simp only [hn, false_or]
      have hdrop := (Nat.le_add_right _ _).trans hrest
      rw [hfirst, htouched]
      refine (Nat.add_le_add_right happend _).trans ?_
      omega

/-- MAXOPBLOCKS. -/
abbrev maxopblocks : Nat := 10

/-- A chunk of `filewrite` in a file without holes logs at most MAXOPBLOCKS different
blocks. -/
theorem write_fits {off n : UInt32} (src : Buf) (h : Owned sb s.disk T) (hi : i < sb.ninodes)
    (ht : (T i).type ≠ 0) (hmapped : Mapped s.disk (T i)) (hoff : off.toNat ≤ (T i).size.toNat)
    (hn : n.toNat ≤ (maxopblocks - 1 - 1 - 2) / 2 * 512) (hmax : off.toNat + n.toNat ≤ 140 * 512) :
    (writei sb i (T i) src off n).result = FileData.writei sb i (T i) src off n ∧
      ((writei sb i (T i) src off n).logged s).toFinset.card ≤ maxopblocks := by
  refine ⟨result_writei .., ?_⟩
  have hn : n.toNat ≤ 1536 := hn
  have href : ¬ Refused (T i).size off n := by
    unfold Refused
    omega
  obtain ⟨x, -, hloop⟩ := writeLoop_others (s := s) src off.toNat h hi ht (Nat.le_refl n.toNat)
  -- a chunk that does not start at a block boundary starts in a block of the file
  have hcount : others x
      (LogM.logged (Code.writeLoop sb n.toNat (T i) src off.toNat n.toNat) s) ≤ 8 := by
    have hind : (if (T i).addrs 12 = 0 then 1 else 0 : Nat) ≤ 1 := by split <;> decide
    have htouched : touched off.toNat n.toNat ≤ if off.toNat % 512 = 0 then 3 else 4 := by
      unfold touched
      split_ifs <;> omega
    by_cases hzero : n.toNat = 0
    · rw [hzero, touched, if_pos rfl] at hloop
      rw [hzero]
      omega
    by_cases halign : off.toNat % 512 = 0
    · rw [if_pos halign] at htouched
      omega
    · rw [if_neg halign] at htouched
      have hfirst : fileBlock sb s.disk T i (off.toNat / 512) ≠ 0 := by
        rw [fileBlock, pointers_of hi ht]
        exact hmapped _ (by omega)
      rw [if_neg (by simp [hzero, hfirst])] at hloop
      omega
  have hwrite : ∀ l, ((writei sb i (T i) src off n).logged s) =
      LogM.logged (Code.writeLoop sb n.toNat (T i) src off.toNat n.toNat) s ++ l → others x l ≤ 1 →
      ((writei sb i (T i) src off n).logged s).toFinset.card ≤ maxopblocks := by
    intro l hlog hl
    have happend :=
      others_append_le x (LogM.logged (Code.writeLoop sb n.toNat (T i) src off.toNat n.toNat) s) l
    have hcard := card_le_others x ((writei sb i (T i) src off n).logged s)
    rw [hlog] at hcard ⊢
    change _ ≤ 10
    omega
  have hopen : writei sb i (T i) src off n = (do
      let ip ← Code.writeLoop sb n.toNat (T i) src off.toNat n.toNat
      if n > 0 ∧ off + n > ip.size then do
        let ip := { ip with size := off + n }
        Code.iupdate sb i ip
        pure (ip, some n)
      else pure (ip, some n)) := by
    rw [writei, Code.writei, if_neg (mt refused_iff.mp href),
      if_neg (by rw [toNat_add_of href]; omega)]
  cases hrun : writeLoop sb n.toNat (T i) src off.toNat n.toNat s with
  | error msg =>
    refine hwrite [] ?_ (Nat.zero_le _)
    rw [hopen, LogM.logged_of_error (by rw [result_writeLoop]; exact hrun), List.append_nil]
  | ok r =>
    refine hwrite _ (by rw [hopen, LogM.logged_of_ok (by rw [result_writeLoop]; exact hrun)]) ?_
    split
    · exact others_singleton_le x (sb.iblock i)
    · exact Nat.zero_le _

/-- An empty file in the image of two data blocks. -/
def newFile : Dinode := { Dinode.zero with type := tFile }

/-- Three bytes of an empty file: the bitmap, the block and the inode are logged. -/
theorem write_fits_three :
    (writei FileRuns.tinySb 1 newFile (fun _ => 7) 0 3).logged FileRuns.tinyFs = [3, 4, 4, 2] ∧
      ((writei FileRuns.tinySb 1 newFile (fun _ => 7) 0 3).logged FileRuns.tinyFs).toFinset.card ≤
        maxopblocks := by
  have hptr : ∀ d k, ptr d newFile k = 0 := by
    intro d k
    unfold ptr
    split
    · rfl
    · exact if_neg fun hand => hand.2 rfl
  have hnone : ∀ p, pointers FileRuns.tinySb FileRuns.tinyFs.disk (fun _ => newFile) p = 0 := by
    intro p
    unfold pointers
    split
    · exact hptr _ _
    · rfl
  have hbits : ∀ b : Fin 6, used FileRuns.tinySb FileRuns.tinyFs.disk b = true ↔ b.val < 4 := by
    decide +kernel
  have howned : Owned FileRuns.tinySb FileRuns.tinyFs.disk fun _ => newFile := by
    refine ⟨fun p hp => absurd (hnone p) hp, fun p q hp => absurd (hnone p) hp, fun b => ?_⟩
    constructor
    · rintro ⟨hb, hu⟩
      exact .inl ((hbits ⟨b, hb⟩).mp hu)
    · rintro (hb | ⟨p, hp, -⟩)
      · have hb : b < 4 := hb
        have hsize : b < 6 := by omega
        exact ⟨hsize, (hbits ⟨b, hsize⟩).mpr hb⟩
      · exact absurd (hnone p) hp
  refine ⟨by decide +kernel, (write_fits (T := fun _ => newFile) (s := FileRuns.tinyFs) (i := 1)
    (n := 3) (fun _ => 7) howned (by decide) (by decide) (fun bn hbn => ?_) (by decide)
    (by decide) (by decide)).2⟩
  exact absurd hbn (Nat.not_lt_zero _)

end Xv6.LogTrace
