import Xv6.InodeRuns

/-!
# Calls of a process that runs alone

What the parts of the file system calls do while no other process moves and the cache is in
order. The process may have changed the disk; the references that others hold are those of
the state it started in.
-/
namespace Xv6.SoloRuns

open FsImage Directory FsSystem FsCalls Interleave InodeRuns RunRules

/-- A walk with a cache that is in order. -/
abbrev Solo := Walk True

/-- An inode that is allocated and has no links is in use. -/
def Orphans (sb : Superblock) (x : Sys) (d : Disk) : Prop :=
  ∀ i, i < sb.ninodes → (dinode sb d i).type ≠ 0 → (dinode sb d i).nlink = 0 →
    ∃ e, 0 < (x.icache e).ref ∧ (x.icache e).inum = i

/-- The disk after `iupdate` of inode `i`. -/
def putInode (sb : Superblock) (fs : Fs) (i : Nat) (ip : Dinode) : Fs :=
  { fs with disk := putDinode sb fs.disk i ip, writes := fs.writes + 1 }

theorem Orphans.safe {sb : Superblock} {x₀ : Sys} {d : Disk} {i : Nat} (ho : Orphans sb x₀ d)
    (hi : i < sb.ninodes) :
    Safe True sb x₀ d i :=
  fun hlink => ⟨trivial, fun htype => ho i hi htype hlink⟩

end Xv6.SoloRuns

namespace Xv6.InodeRuns.Walk

open FsImage Directory FsSystem FsCalls Interleave RunRules SoloRuns

variable {sb : Superblock} {t : Proc} {x₀ x y : Sys} {fs fs' : Fs} {held : List (Entry × Nat)}
  {locks : List Entry} {e : Entry} {i j : Nat} {S : Stop → Prop}

section

variable (h : Solo sb t x₀ fs held locks x)
include h

theorem range (hp : (e, i) ∈ held) : i < sb.ninodes := by
  have hpos := h.pos hp
  have := (h.slot e).range trivial (by omega)
  rwa [h.inum hp] at this

/-! ## Changes of the disk -/

/-- Inodes change on disk that are not in the cache. -/
theorem setDisk
    (hd : ∀ j, j < sb.ninodes → (dinode sb fs.disk j).type ≠ 0 →
      dinode sb fs'.disk j = dinode sb fs.disk j) :
    Solo sb t x₀ fs' held locks { x with fs := fs' } where
  disk := rfl
  procs := h.procs
  ftable := h.ftable
  base := h.base
  slot e := { h.slot e with
    copy := fun hpos hv => by
      obtain ⟨hcopy, htype⟩ := (h.slot e).copy hpos hv
      refine ⟨?_, htype⟩
      change _ = dinode sb fs'.disk (x.icache e).inum
      rw [hd _ ((h.slot e).range trivial hpos) (hcopy ▸ htype trivial), hcopy] }
  unique := h.unique

/-- An inode changes on disk and in the cache. -/
theorem setBoth (hp : (e, i) ∈ held)
    (hl : e ∈ locks) {ip : Dinode} (htype : ip.type ≠ 0) (hi : dinode sb fs'.disk i = ip)
    (hd : ∀ j, j < sb.ninodes → j ≠ i → dinode sb fs'.disk j = dinode sb fs.disk j) : Solo
    sb t x₀ fs' held locks { withEntry x e { x.icache e with copy := ip } with fs := fs' } where
  disk := rfl
  procs := h.procs
  ftable := h.ftable
  base := h.base
  slot e' := by
    change Slot True sb t x₀ fs'.disk held locks e'
      ((withEntry x e { x.icache e with copy := ip }).icache e')
    by_cases he : e' = e
    · subst he
      rw [withEntry_self]
      exact { h.slot e' with
        copy := fun _ _ => ⟨hi.symm.trans (by rw [← h.inum hp]), fun _ => htype⟩ }
    · rw [withEntry_of_ne he]
      refine { h.slot e' with copy := fun hpos hv => ?_ }
      obtain ⟨hcopy, htype⟩ := (h.slot e').copy hpos hv
      have hpos' := h.pos hp
      have hne : (x.icache e').inum ≠ i := fun heq =>
        he (h.unique trivial e' e hpos (by omega) (heq.trans (h.inum hp).symm))
      rw [hd _ ((h.slot e').range trivial hpos) hne]
      exact ⟨hcopy, htype⟩
  unique _ e₁ e₂ := by
    have hsame : ∀ e',
        ((withEntry x e { x.icache e with copy := ip }).icache e').ref = (x.icache e').ref ∧
        ((withEntry x e { x.icache e with copy := ip }).icache e').inum = (x.icache e').inum := by
      intro e'
      by_cases he : e' = e
      · subst he
        rw [withEntry_self]
        exact ⟨rfl, rfl⟩
      · rw [withEntry_of_ne he]
        exact ⟨rfl, rfl⟩
    change 0 < ((withEntry x e _).icache e₁).ref → 0 < ((withEntry x e _).icache e₂).ref →
      ((withEntry x e _).icache e₁).inum = ((withEntry x e _).icache e₂).inum → _
    rw [(hsame e₁).1, (hsame e₁).2, (hsame e₂).1, (hsame e₂).2]
    exact h.unique trivial e₁ e₂

/-! ## Locks and references -/

/-- The copy of a locked inode is the inode on disk. -/
theorem locked (hp : (e, i) ∈ held) (hl : e ∈ locks) :
    (x.icache e).copy = dinode sb fs.disk i ∧ (dinode sb fs.disk i).type ≠ 0 :=
  ⟨(h.copied hp hl).1, (h.copied hp hl).2 trivial⟩

end

/-- The rest of a program that locks the inode it has found last. -/
theorem ilock_bind {α : Type} {f : Unit → P α} {Q : α → Sys → Prop}
    (h : Solo sb t x₀ fs ((e, i) :: held) locks x) (hblock : e ∈ locks → S .blocked)
    (hdead : (dinode sb fs.disk i).type = 0 → S (.panic "ilock: no type"))
    (hrest : ∀ y, e ∉ locks → Solo sb t x₀ fs ((e, i) :: held) (e :: locks) y →
      Sat (alone sb t) S (f ()) Q y) : Sat (alone sb t) S (FsCalls.ilock e >>= f) Q x :=
  h.lock_bind hblock (fun h0 => ⟨trivial, hdead h0⟩) hrest

theorem iput (h : Solo sb t x₀ fs ((e, i) :: held) locks x) (hl : e ∉ locks)
    (ho : Orphans sb x₀ fs.disk) :
    ∃ y, (FsCalls.iput e).run (alone sb t) x = .done () y ∧ Solo sb t x₀ fs held locks y :=
  h.put hl (ho.safe (h.range List.mem_cons_self))

theorem iunlockput (h : Solo sb t x₀ fs ((e, i) :: held) (e :: locks) x) (hl : e ∉ locks)
    (ho : Orphans sb x₀ fs.disk) :
    ∃ y, (FsCalls.iunlockput e).run (alone sb t) x = .done () y ∧ Solo sb t x₀ fs held locks y :=
  h.unlockput hl (ho.safe (h.range List.mem_cons_self))

/-! ## Reading a locked inode -/

section

variable (h : Solo sb t x₀ fs held locks x) (hp : (e, i) ∈ held) (hl : e ∈ locks)
include h hp hl

theorem run_emptySlot {off : Nat}
    (hr : Directory.emptySlot sb (dinode sb fs.disk i) fs = .ok ((dinode sb fs.disk i, off), fs)) :
    (ino (.emptySlot e)).run (alone sb t) x = .done off x :=
  run_ino_same (h.onCopy (Directory.emptySlot sb) hp hl hr)

theorem run_isdirempty {b : Bool}
    (hr : Directory.isdirempty sb (dinode sb fs.disk i) fs = .ok ((dinode sb fs.disk i, b), fs)) :
    (ino (.isdirempty e)).run (alone sb t) x = .done b x :=
  run_ino_same (h.onCopy (Directory.isdirempty sb) hp hl hr)

/-! ## Writing a locked inode to the disk -/

/-- An operation on the copy of a locked inode, and `iupdate`. -/
theorem iupdate {o : InoOp} {r : InoResp o} {ip : Dinode} (htype : ip.type ≠ 0)
    (ho : x.inoState.exec sb t o = .done r (x.inoState.set e { x.icache e with copy := ip })) :
    ∃ x₁ y, (ino o).run (alone sb t) x = .done r x₁ ∧ (ino (.iupdate e)).run (alone sb t) x₁ =
    .done () y ∧ Solo sb t x₀ (putInode sb fs i ip) held locks y := by
  have hself := withEntry_self x e { x.icache e with copy := ip }
  refine ⟨_, { withEntry x e { x.icache e with copy := ip } with fs := putInode sb fs i ip },
    run_ino ho, ?_, ?_⟩
  · refine Prog.run_perform ?_
    have hexec : (withEntry x e { x.icache e with copy := ip }).inoState.exec sb t (.iupdate e) =
        .done () ⟨putInode sb x.fs (x.icache e).inum ip,
          (withEntry x e { x.icache e with copy := ip }).icache⟩ := by
      change InoState.onDisk _
        (FsImage.iupdate sb ((withEntry x e _).icache e).inum ((withEntry x e _).icache e).copy) = _
      rw [hself]
      rfl
    change Sys.lift _
      ((withEntry x e { x.icache e with copy := ip }).inoState.exec sb t (.iupdate e)) = _
    rw [hexec, h.inum hp, h.disk]
    rfl
  · refine h.setBoth hp hl htype ?_ fun j _ hj => ?_
    · exact (dinode_putDinode ..).trans (if_pos rfl)
    · exact (dinode_putDinode ..).trans (if_neg hj)

theorem addLink (d : Int16) :
    ∃ x₁ y, (ino (.addLink e d)).run (alone sb t) x = .done () x₁ ∧
      (ino (.iupdate e)).run (alone sb t) x₁ = .done () y ∧
      Solo sb t x₀ (putInode sb fs i { dinode sb fs.disk i with
        nlink := (dinode sb fs.disk i).nlink + d }) held locks y := by
  obtain ⟨hcopy, htype⟩ := h.locked hp hl
  refine h.iupdate hp hl htype ?_
  rw [← hcopy]
  rfl

theorem setNums (major minor nlink : Int16) : ∃ x₁ y, (ino (.setNums e major minor nlink)).run
    (alone sb t) x = .done () x₁ ∧ (ino (.iupdate e)).run (alone sb t) x₁ = .done () y ∧ Solo
    sb t x₀ (putInode sb fs i { dinode sb fs.disk i with major, minor, nlink }) held locks y := by
  obtain ⟨hcopy, htype⟩ := h.locked hp hl
  refine h.iupdate hp hl htype ?_
  rw [← hcopy]
  rfl

end

end Xv6.InodeRuns.Walk
