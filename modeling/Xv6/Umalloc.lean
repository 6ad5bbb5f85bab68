import Xv6.Bytes
import Xv6.Wp

/-!
# malloc and free

umalloc.c. A header is the word `ptr` and the word `size`, which counts units of 8 bytes; it
stands in front of the block that it is for. Addresses are numbers below 2 ^ 32, and sums of
them are taken modulo 2 ^ 32. The kernel gives memory with `sbrk`, and the access to a byte
that is not mapped ends the process.
-/
namespace Xv6.Umalloc

open Bytes Wp

/-- What the kernel does for a process; `sbrk` returns no address for -1. -/
structure Os (σ : Type) where
  sbrk : Nat → StateT σ (Except String) (Option Nat)
  mapped : σ → Nat → Bool

structure Proc (σ : Type) where
  mem : Buf
  freep : Nat
  os : σ

abbrev M (σ : Type) := StateT (Proc σ) (Except String)

section Program

variable {σ : Type} (O : Os σ) (base : Nat)

/-- The word at `a` is mapped. -/
abbrev Accessible (s : Proc σ) (a : Nat) : Prop := ∀ k, k < 4 → O.mapped s.os (a + k) = true

def load (a : Nat) : M σ Nat := do
  let s ← get
  if Accessible O s a then pure (getLE s.mem a 4) else throw "page fault"

def store (a v : Nat) : M σ Unit := do
  let s ← get
  if Accessible O s a then modify fun s => { s with mem := putLE s.mem a 4 v }
  else throw "page fault"

/-- `p->s.ptr` and `p->s.size`. -/
def ptr (p : Nat) : M σ Nat := load O p
def size (p : Nat) : M σ Nat := load O (p + 4)
def setPtr (p v : Nat) : M σ Unit := store O p v
def setSize (p v : Nat) : M σ Unit := store O (p + 4) v

/-- `bp` belongs behind `p`, which `q` follows: between them, or at the end of the list. -/
abbrev Between (bp p q : Nat) : Prop := p < bp ∧ bp < q ∨ q ≤ p ∧ (p < bp ∨ bp < q)

/-- The loop of `free`. -/
def freeLoop (bp : Nat) : Nat → Nat → M σ Nat
  | 0, _ => throw "free does not return"
  | fuel + 1, p => do
    let q ← ptr O p
    if Between bp p q then pure p else freeLoop bp fuel q

/-- `free` joins the block with the one behind it. -/
def freeUp (bp p : Nat) : M σ Unit := do
  if (bp + 8 * (← size O bp)) % 2 ^ 32 = (← ptr O p) then do
    setSize O bp (((← size O bp) + (← size O (← ptr O p))) % 2 ^ 32)
    setPtr O bp (← ptr O (← ptr O p))
  else setPtr O bp (← ptr O p)

/-- `free` joins the block with the one in front of it. -/
def freeDown (bp p : Nat) : M σ Unit := do
  if (p + 8 * (← size O p)) % 2 ^ 32 = bp then do
    setSize O p (((← size O p) + (← size O bp)) % 2 ^ 32)
    setPtr O p (← ptr O bp)
  else setPtr O p bp

def free (fuel ap : Nat) : M σ Unit := do
  let bp := (ap + (2 ^ 32 - 8)) % 2 ^ 32
  let p ← freeLoop O bp fuel (← get).freep
  freeUp O bp p
  freeDown O bp p
  modify fun s => { s with freep := p }

def sbrk (n : Nat) : M σ (Option Nat) := fun s =>
  (O.sbrk n s.os).map fun (r, os) => (r, { s with os })

def morecore (fuel nu : Nat) : M σ Nat := do
  let nu := if nu < 4096 then 4096 else nu
  match ← sbrk O (nu * 8 % 2 ^ 32) with
  | none => pure 0
  | some hp => do
    setSize O hp nu
    free O fuel ((hp + 8) % 2 ^ 32)
    pure (← get).freep

/-- `malloc` has found a block that is large enough. -/
def allot (nunits prevp p : Nat) : M σ Nat := do
  let r ← if (← size O p) = nunits then do
      setPtr O prevp (← ptr O p)
      pure p
    else do
      setSize O p ((← size O p) - nunits)
      let p := (p + 8 * (← size O p)) % 2 ^ 32
      setSize O p nunits
      pure p
  modify fun s => { s with freep := prevp }
  pure ((r + 8) % 2 ^ 32)

/-- The loop of `malloc`. -/
def mallocLoop (nunits : Nat) : Nat → Nat → Nat → M σ Nat
  | 0, _, _ => throw "malloc does not return"
  | fuel + 1, prevp, p => do
    if nunits ≤ (← size O p) then allot O nunits prevp p
    else if p = (← get).freep then do
      let p ← morecore O fuel nunits
      if p = 0 then pure 0 else mallocLoop nunits fuel p (← ptr O p)
    else mallocLoop nunits fuel p (← ptr O p)

/-- The units for a request, with one for the header. -/
def unitsFor (nbytes : Nat) : Nat := (nbytes + 7) % 2 ^ 32 / 8 + 1

def malloc (fuel nbytes : Nat) : M σ Nat := do
  if (← get).freep = 0 then do
    setPtr O base base
    modify fun s => { s with freep := base }
    setSize O base 0
  let prevp := (← get).freep
  mallocLoop O (unitsFor nbytes) fuel prevp (← ptr O prevp)

end Program

/-! ## Headers -/

variable {σ : Type} {O : Os σ} {s : Proc σ} {p q v : Nat}

namespace Proc

def ptr (s : Proc σ) (p : Nat) : Nat := getLE s.mem p 4
def size (s : Proc σ) (p : Nat) : Nat := getLE s.mem (p + 4) 4
def setPtr (s : Proc σ) (p v : Nat) : Proc σ := { s with mem := putLE s.mem p 4 v }
def setSize (s : Proc σ) (p v : Nat) : Proc σ := { s with mem := putLE s.mem (p + 4) 4 v }

/-- Two headers do not overlap. -/
def Clear (p q : Nat) : Prop := p + 8 ≤ q ∨ q + 8 ≤ p

theorem Clear.symm (h : Clear p q) : Clear q p := Or.symm h

instance : Std.Symm Clear := ⟨fun _ _ h => h.symm⟩

theorem ptr_setPtr_self (hv : v < 2 ^ 32) : (s.setPtr p v).ptr p = v :=
  (getLE_putLE ..).trans (Nat.mod_eq_of_lt (show v < 256 ^ 4 by omega))

theorem size_setSize_self (hv : v < 2 ^ 32) : (s.setSize p v).size p = v :=
  (getLE_putLE ..).trans (Nat.mod_eq_of_lt (show v < 256 ^ 4 by omega))

@[simp] theorem size_setPtr_self (s : Proc σ) (p v : Nat) : (s.setPtr p v).size p = s.size p :=
  getLE_putLE_other (.inr (Nat.le_refl _))

@[simp] theorem ptr_setSize_self (s : Proc σ) (p v : Nat) : (s.setSize p v).ptr p = s.ptr p :=
  getLE_putLE_other (.inl (Nat.le_refl _))

theorem size_setPtr (h : Clear p q) : (s.setPtr p v).size q = s.size q := by
  refine getLE_putLE_other ?_
  unfold Clear at h
  omega

/-- A header is its bytes. -/
theorem same_header {s' : Proc σ} (h : ∀ x, p ≤ x → x < p + 8 → s'.mem x = s.mem x) :
    s'.ptr p = s.ptr p ∧ s'.size p = s.size p :=
  ⟨getLE_congr fun _ _ => h _ (by omega) (by omega),
  getLE_congr fun _ _ => h _ (by omega) (by omega)⟩

/-- At most the header at `p` has changed. -/
structure Only (p : Nat) (s s' : Proc σ) : Prop where
  os : s'.os = s.os
  freep : s'.freep = s.freep
  mem : ∀ x, x < p ∨ p + 8 ≤ x → s'.mem x = s.mem x

theorem only_setPtr (s : Proc σ) (p v : Nat) : Only p s (s.setPtr p v) :=
  ⟨rfl, rfl, fun _ hx => memmove_outside (by omega)⟩

theorem only_setSize (s : Proc σ) (p v : Nat) : Only p s (s.setSize p v) :=
  ⟨rfl, rfl, fun _ hx => memmove_outside (by omega)⟩

theorem Only.trans {s' s'' : Proc σ} (h : Only p s s') (h' : Only p s' s'') : Only p s s'' :=
  ⟨h'.os.trans h.os, h'.freep.trans h.freep, fun x hx => (h'.mem x hx).trans (h.mem x hx)⟩

theorem Only.header {s' : Proc σ} (h : Only p s s') (hc : Clear p q) :
    s'.ptr q = s.ptr q ∧ s'.size q = s.size q := by
  unfold Clear at hc
  exact same_header fun x _ _ => h.mem x (by omega)

theorem Only.ptr {s' : Proc σ} (h : Only p s s') (hc : Clear p q) : s'.ptr q = s.ptr q :=
  (h.header hc).1

theorem Only.size {s' : Proc σ} (h : Only p s s') (hc : Clear p q) : s'.size q = s.size q :=
  (h.header hc).2

end Proc

/-- The header at `p` can be accessed. -/
def Ok (O : Os σ) (s : Proc σ) (p : Nat) : Prop := ∀ k, k < 8 → O.mapped s.os (p + k) = true

theorem Ok.ptr (h : Ok O s p) : Accessible O s p := fun k hk => h k (by omega)

theorem Ok.size (h : Ok O s p) : Accessible O s (p + 4) := fun k hk => by
  rw [Nat.add_assoc]
  exact h (4 + k) (by omega)

theorem ptr_of_ok (h : Ok O s p) : Umalloc.ptr O p s = .ok (s.ptr p, s) := by
  rw [Umalloc.ptr, load, bind_of_ok (a := s) rfl, if_pos h.ptr]
  rfl

theorem size_of_ok (h : Ok O s p) : Umalloc.size O p s = .ok (s.size p, s) := by
  rw [Umalloc.size, load, bind_of_ok (a := s) rfl, if_pos h.size]
  rfl

section Rules

variable {Q : Nat → Proc σ → Prop} {R : Unit → Proc σ → Prop}

theorem wp_ptr (h : Ok O s p) : wp (ptr O p) Q s ↔ Q (s.ptr p) s := by
  simp only [ptr, load, wp_bind, wp_get, if_pos h.ptr, wp_pure]
  rfl

theorem wp_size (h : Ok O s p) : wp (size O p) Q s ↔ Q (s.size p) s := by
  simp only [size, load, wp_bind, wp_get, if_pos h.size, wp_pure]
  rfl

theorem wp_setPtr (h : Ok O s p) : wp (setPtr O p v) R s ↔ R () (s.setPtr p v) := by
  simp only [setPtr, store, wp_bind, wp_get, if_pos h.ptr, wp_modify]
  rfl

theorem wp_setSize (h : Ok O s p) : wp (setSize O p v) R s ↔ R () (s.setSize p v) := by
  simp only [setSize, store, wp_bind, wp_get, if_pos h.size, wp_modify]
  rfl

theorem sbrk_of_ok {n : Nat} {r : Option Nat} {t : σ} (h : O.sbrk n s.os = .ok (r, t)) :
    sbrk O n s = .ok (r, { s with os := t }) := by
  rw [sbrk, h]
  rfl

end Rules

/-! ## Fuel -/

theorem freeLoop_extends (O : Os σ) (bp : Nat) (k : Nat) (p : Nat) :
    Extends (freeLoop O bp k p) (freeLoop O bp (k + 1) p) := by
  induction k generalizing p with
  | zero => exact .of_throw _
  | succ k ih =>
    rw [freeLoop, freeLoop.eq_2 O bp p (k + 1)]
    exact .bind (.refl _) fun q => .ite (.refl _) (ih q)

theorem free_extends (O : Os σ) (ap k : Nat) : Extends (free O k ap) (free O (k + 1) ap) :=
  .bind (.refl _) fun _ => .bind (freeLoop_extends O _ k _) fun _ => .refl _

theorem morecore_extends (O : Os σ) (nu k : Nat) :
    Extends (morecore O k nu) (morecore O (k + 1) nu) := by
  refine .bind (.refl _) fun r => ?_
  cases r with
  | none => exact .refl _
  | some hp => exact .bind (.refl _) fun _ => .bind (free_extends O _ k) fun _ => .refl _

theorem mallocLoop_extends (O : Os σ) (n k prevp p : Nat) :
    Extends (mallocLoop O n k prevp p) (mallocLoop O n (k + 1) prevp p) := by
  induction k generalizing prevp p with
  | zero => exact .of_throw _
  | succ k ih =>
    rw [mallocLoop, mallocLoop.eq_2 O n prevp p (k + 1)]
    refine .bind (.refl _) fun _ => .ite (.refl _)
      (.bind (.refl _) fun _ => .ite ?_ (.bind (.refl _) fun q => ih p q))
    exact .bind (morecore_extends O n k) fun p => .ite (.refl _) (.bind (.refl _) fun q => ih p q)

theorem malloc_extends (O : Os σ) (base nbytes k : Nat) :
    Extends (malloc O base k nbytes) (malloc O base (k + 1) nbytes) := by
  refine .bind (.refl _) fun s => ?_
  have hrest : Extends (do
      let prevp := (← get).freep
      mallocLoop O (unitsFor nbytes) k prevp (← ptr O prevp) : M σ Nat) (do
      let prevp := (← get).freep
      mallocLoop O (unitsFor nbytes) (k + 1) prevp (← ptr O prevp)) :=
    .bind (.refl _) fun _ => .bind (.refl _) fun _ => mallocLoop_extends O _ k _ _
  exact .ite
    (.bind (.refl _) fun _ => .bind (.refl _) fun _ => .bind (.refl _) fun _ => hrest) hrest

/-- A call returns: it does so with enough fuel. -/
def Returns {α : Type} (m : Nat → M σ α) (s : Proc σ) (r : α) (s' : Proc σ) : Prop :=
  ∃ fuel, m fuel s = .ok (r, s')

theorem returns_of_wp {α : Type} {m : Nat → M σ α} {Q : α → Proc σ → Prop} {N : Nat} {r : α}
    {s' : Proc σ} (hm : ∀ k, Extends (m k) (m (k + 1))) (h : wp (m N) Q s) (hr : Returns m s r s') :
    Q r s' := by
  obtain ⟨fuel, hrun⟩ := hr
  obtain ⟨a, t, hN, hq⟩ := h
  have hboth := (Extends.of_le hm (Nat.le_max_left fuel N) _ _ hrun).symm.trans
    (Extends.of_le hm (Nat.le_max_right fuel N) _ _ hN)
  obtain ⟨rfl, rfl⟩ := Prod.mk.inj (Except.ok.inj hboth)
  exact hq

end Xv6.Umalloc
