import Mathlib.Logic.Function.Basic
import Xv6.Wp

/-!
# Arguments of system calls

`fetchint`, `fetchstr`, `argint`, `argptr` and `argstr` of syscall.c, and the part of
`sys_exec` that collects `argv`. User memory is read through its addresses. The frame of
`sys_exec` has its local variables and notes which addresses have been read and which
entries of `argv` have been stored to, so that a store beyond the array would be seen.
-/
namespace Xv6.SyscallArgs

open Wp

/-- `MAXARG`. -/
abbrev maxarg : Nat := 32

/-- The size, the saved stack pointer and the memory of the calling process. -/
structure User where
  sz : UInt32
  esp : UInt32
  mem : UInt32 → UInt8

/-- The little endian word at `addr`. -/
def User.word (u : User) (addr : UInt32) : UInt32 :=
  (u.mem addr).toUInt32 + ((u.mem (addr + 1)).toUInt32 <<< 8) +
    ((u.mem (addr + 2)).toUInt32 <<< 16) + ((u.mem (addr + 3)).toUInt32 <<< 24)

structure Frame where
  path : UInt32
  argv : Nat → UInt32
  reads : List UInt32
  stores : List Nat

abbrev CallM := StateT Frame (Except String)

/-- Read one byte of user memory. -/
def load (u : User) (addr : UInt32) : CallM UInt8 := do
  modify fun t => { t with reads := addr :: t.reads }
  pure (u.mem addr)

/-- `*(int*)(addr)`. -/
def loadInt (u : User) (addr : UInt32) : CallM UInt32 := do
  let b₀ ← load u addr
  let b₁ ← load u (addr + 1)
  let b₂ ← load u (addr + 2)
  let b₃ ← load u (addr + 3)
  pure (b₀.toUInt32 + (b₁.toUInt32 <<< 8) + (b₂.toUInt32 <<< 16) + (b₃.toUInt32 <<< 24))

/-- A result `none` is the return value -1, after which `*ip` is not used. -/
def fetchint (u : User) (addr : UInt32) : CallM (Option UInt32) :=
  if addr ≥ u.sz ∨ addr + 4 > u.sz then pure none
  else do pure (some (← loadInt u addr))

/-- The loop of `fetchstr`. -/
def fetchstrLoop (u : User) (pp s : UInt32) : CallM (Option UInt32) :=
  if h : s < u.sz then do
    if (← load u s) = 0 then pure (some (s - pp)) else fetchstrLoop u pp (s + 1)
  else pure none
termination_by u.sz.toNat - s.toNat
decreasing_by
  have hs : s.toNat < u.sz.toNat := UInt32.lt_iff_toNat_lt.mp h
  have := u.sz.toNat_lt
  rw [UInt32.toNat_add, UInt32.toNat_one]
  omega

/-- `*pp` is stored by `store`, before the string is read. -/
def fetchstr (u : User) (addr : UInt32) (store : UInt32 → Frame → Frame) : CallM (Option UInt32) :=
  if addr ≥ u.sz then pure none
  else do
    modify (store addr)
    fetchstrLoop u addr addr

/-- Where the argument with the given number lies on the user stack. -/
def User.argAddr (u : User) (n : Int32) : UInt32 := u.esp + 4 + (4 * n).toUInt32

def argint (u : User) (n : Int32) : CallM (Option UInt32) := fetchint u (u.argAddr n)

def argptr (u : User) (n : Int32) (size : Int32) : CallM (Option UInt32) := do
  match ← argint u n with
  | none => pure none
  | some i =>
    if size < 0 ∨ i ≥ u.sz ∨ i + size.toUInt32 > u.sz then pure none else pure (some i)

def argstr (u : User) (n : Int32) (store : UInt32 → Frame → Frame) : CallM (Option UInt32) := do
  match ← argint u n with
  | none => pure none
  | some addr => fetchstr u addr store

/-- `path = p`. -/
def setPath (p : UInt32) (t : Frame) : Frame := { t with path := p }

/-- `argv[i] = p`. -/
def setArgv (i : Nat) (p : UInt32) (t : Frame) : Frame :=
  { t with argv := Function.update t.argv i p, stores := i :: t.stores }

/-- The loop of `sys_exec`; it ends with `true` at the 0 that ends the user's array. -/
def collect (u : User) (uargv : UInt32) (i : Nat) : CallM Bool :=
  if i ≥ maxarg then pure false
  else do
    match ← fetchint u (uargv + 4 * UInt32.ofNat i) with
    | none => pure false
    | some uarg =>
      if uarg = 0 then do
        modify (setArgv i 0)
        pure true
      else do
        match ← fetchstr u uarg (setArgv i) with
        | none => pure false
        | some _ => collect u uargv (i + 1)
termination_by maxarg - i

/-- `sys_exec` up to the call of `exec`, which is made when the result is `true`. -/
def sysExec (u : User) : CallM Bool := do
  match ← argstr u 0 setPath with
  | none => pure false
  | some _ =>
    match ← argint u 1 with
    | none => pure false
    | some uargv =>
      (List.range maxarg).forM fun i => modify (setArgv i 0)
      collect u uargv 0

/-! ## What is read -/

/-- Addresses of the process have been read, and nothing else has changed. -/
def Reads (u : User) (t t' : Frame) : Prop :=
  ∃ l, (∀ a ∈ l, a < u.sz) ∧ t' = { t with reads := l ++ t.reads }

/-- The string at `p` has the length `n`, and its NUL lies inside the process. -/
def StringAt (u : User) (p n : UInt32) : Prop :=
  p.toNat + n.toNat < u.sz.toNat ∧ u.mem (p + n) = 0 ∧ ∀ j, j < n → u.mem (p + j) ≠ 0

variable {u : User} {t t' t'' : Frame}

theorem Reads.refl (u : User) (t : Frame) : Reads u t t := ⟨[], nofun, rfl⟩

theorem Reads.trans (h : Reads u t t') (h' : Reads u t' t'') : Reads u t t'' := by
  obtain ⟨l, hl, rfl⟩ := h
  obtain ⟨l', hl', rfl⟩ := h'
  refine ⟨l' ++ l, fun a ha => ?_, by simp⟩
  rcases List.mem_append.mp ha with ha | ha
  · exact hl' a ha
  · exact hl a ha

@[simp] theorem wp_load {addr : UInt32} {Q : UInt8 → Frame → Prop} :
    wp (load u addr) Q t ↔ Q (u.mem addr) { t with reads := addr :: t.reads } := by
  simp only [load, wp_bind, wp_modify, wp_pure]

theorem loadInt_spec {addr : UInt32} (h : addr.toNat + 4 ≤ u.sz.toNat) :
    wp (loadInt u addr) (fun v t' => Reads u t t' ∧ v = u.word addr) t := by
  have hsz := u.sz.toNat_lt
  have hinside : ∀ k : UInt32, k.toNat < 4 → addr + k < u.sz := by
    intro k hk
    rw [UInt32.lt_iff_toNat_lt, UInt32.toNat_add]
    omega
  simp only [loadInt, wp_bind, wp_load, wp_pure]
  refine ⟨⟨[addr + 3, addr + 2, addr + 1, addr], ?_, rfl⟩, rfl⟩
  have h0 := hinside 0 (by decide)
  rw [UInt32.add_zero] at h0
  simp only [List.mem_cons, List.not_mem_nil, or_false]
  rintro a (rfl | rfl | rfl | rfl)
  · exact hinside 3 (by decide)
  · exact hinside 2 (by decide)
  · exact hinside 1 (by decide)
  · exact h0

theorem fetchint_spec (hsz : u.sz < 0x80000000) (addr : UInt32) (t : Frame) :
    wp (fetchint u addr) (fun r t' => Reads u t t' ∧
      ∀ v, r = some v → v = u.word addr ∧ addr.toNat + 4 ≤ u.sz.toNat) t := by
  rw [fetchint, wp_ite]
  constructor
  · intro _
    rw [wp_pure]
    exact ⟨.refl u t, nofun⟩
  · intro h
    obtain ⟨hlt, hend⟩ := not_or.mp h
    have hle : addr.toNat + 4 ≤ u.sz.toNat := by
      rw [UInt32.lt_iff_toNat_lt] at hsz
      rw [ge_iff_le, UInt32.le_iff_toNat_le] at hlt
      rw [gt_iff_lt, UInt32.lt_iff_toNat_lt, UInt32.toNat_add] at hend
      have : (0x80000000 : UInt32).toNat = 2 ^ 31 := rfl
      have : (4 : UInt32).toNat = 4 := rfl
      omega
    rw [wp_bind]
    refine (loadInt_spec hle).mono fun v t' ⟨hreads, hv⟩ => ?_
    rw [wp_pure]
    refine ⟨hreads, fun w hw => ?_⟩
    obtain rfl := Option.some.inj hw
    exact ⟨hv, hle⟩

/-- From `s` on the loop finds the end of the string, or the end of the process. -/
theorem fetchstrLoop_spec (pp s : UInt32) (t : Frame) :
    wp (fetchstrLoop u pp s) (fun r t' => Reads u t t' ∧ ∀ n, r = some n →
      ∃ e, s ≤ e ∧ e < u.sz ∧ u.mem e = 0 ∧ (∀ a, s ≤ a → a < e → u.mem a ≠ 0) ∧ n = e - pp) t := by
  induction hd : u.sz.toNat - s.toNat generalizing s t with
  | zero =>
    have hs : ¬ s < u.sz := by
      rw [UInt32.lt_iff_toNat_lt]
      omega
    rw [fetchstrLoop, dif_neg hs, wp_pure]
    exact ⟨.refl u t, nofun⟩
  | succ d ih =>
    have hs : s < u.sz := by
      rw [UInt32.lt_iff_toNat_lt]
      omega
    have hnext : (s + 1).toNat = s.toNat + 1 := by
      have := u.sz.toNat_lt
      rw [UInt32.toNat_add, UInt32.toNat_one]
      omega
    have hone : Reads u t { t with reads := s :: t.reads } :=
      ⟨[s], fun a ha => List.mem_singleton.mp ha ▸ hs, rfl⟩
    rw [fetchstrLoop, dif_pos hs, wp_bind, wp_load, wp_ite]
    constructor
    · intro hzero
      rw [wp_pure]
      refine ⟨hone,
        fun n hn => ⟨s, UInt32.le_refl s, hs, hzero, fun a ha ha' => ?_, (Option.some.inj hn).symm⟩⟩
      exact absurd ha (UInt32.not_le.mpr ha')
    · intro hmem
      refine (ih (s + 1) _ (by omega)).mono
        fun r t' ⟨hreads, hr⟩ => ⟨hone.trans hreads, fun n hn => ?_⟩
      obtain ⟨e, hse, he, hzero, hbefore, hdiff⟩ := hr n hn
      rw [UInt32.le_iff_toNat_le, hnext] at hse
      refine ⟨e, UInt32.le_iff_toNat_le.mpr (by omega), he, hzero, fun a ha ha' => ?_, hdiff⟩
      by_cases has : a = s
      · rwa [has]
      · refine hbefore a ?_ ha'
        have hne : a.toNat ≠ s.toNat := fun h => has (UInt32.toNat_inj.mp h)
        rw [UInt32.le_iff_toNat_le] at ha ⊢
        omega

theorem fetchstr_spec (addr : UInt32) (store : UInt32 → Frame → Frame) (t : Frame) :
    wp (fetchstr u addr store) (fun r t' =>
      (r = none ∧ t' = t) ∨
      (Reads u (store addr t) t' ∧ ∀ n, r = some n → StringAt u addr n)) t := by
  rw [fetchstr, wp_ite]
  constructor
  · intro _
    rw [wp_pure]
    exact .inl ⟨rfl, rfl⟩
  · intro _
    rw [wp_bind, wp_modify]
    refine (fetchstrLoop_spec addr addr _).mono
      fun r t' ⟨hreads, hr⟩ => .inr ⟨hreads, fun n hn => ?_⟩
    obtain ⟨e, hle, he, hzero, hbefore, rfl⟩ := hr n hn
    rw [UInt32.le_iff_toNat_le] at hle
    rw [UInt32.lt_iff_toNat_lt] at he
    have hlen : (e - addr).toNat = e.toNat - addr.toNat :=
      UInt32.toNat_sub_of_le e addr (UInt32.le_iff_toNat_le.mpr hle)
    have hend : addr + (e - addr) = e := by
      rw [UInt32.add_comm, UInt32.sub_add_cancel]
    refine ⟨by omega, by rwa [hend], fun j hj => ?_⟩
    rw [UInt32.lt_iff_toNat_lt, hlen] at hj
    have hsum : (addr + j).toNat = addr.toNat + j.toNat := by
      have := e.toNat_lt
      rw [UInt32.toNat_add]
      omega
    apply hbefore
    · rw [UInt32.le_iff_toNat_le]
      omega
    · rw [UInt32.lt_iff_toNat_lt]
      omega

theorem argptr_spec (hsz : u.sz < 0x80000000) (n size : Int32) (t : Frame) :
    wp (argptr u n size) (fun r t' => Reads u t t' ∧ ∀ p, r = some p →
      p = u.word (u.argAddr n) ∧ (u.argAddr n).toNat + 4 ≤ u.sz.toNat ∧
        0 ≤ size ∧ p < u.sz ∧ p.toNat + size.toNatClampNeg ≤ u.sz.toNat) t := by
  rw [argptr, wp_bind, argint]
  refine (fetchint_spec hsz _ t).mono fun r t' ⟨hreads, hr⟩ => ?_
  cases r with
  | none =>
    rw [wp_pure]
    exact ⟨hreads, nofun⟩
  | some i =>
    obtain ⟨hword, hin⟩ := hr i rfl
    rw [wp_ite]
    constructor
    · intro _
      rw [wp_pure]
      exact ⟨hreads, nofun⟩
    · intro h
      rw [wp_pure]
      refine ⟨hreads, fun p hp => ?_⟩
      obtain rfl := Option.some.inj hp
      obtain ⟨hneg, hrest⟩ := not_or.mp h
      obtain ⟨hlt, hend⟩ := not_or.mp hrest
      have hpos : 0 ≤ size := Int32.not_lt.mp hneg
      have hsize : size.toUInt32.toNat = size.toNatClampNeg := Int32.toNat_toUInt32_of_le hpos
      have hbound : size.toNatClampNeg < 2 ^ 31 := Int32.toNatClampNeg_lt size
      rw [ge_iff_le, UInt32.not_le] at hlt
      refine ⟨hword, hin, hpos, hlt, ?_⟩
      rw [UInt32.lt_iff_toNat_lt] at hlt hsz
      rw [gt_iff_lt, UInt32.lt_iff_toNat_lt, UInt32.toNat_add, hsize] at hend
      have : (0x80000000 : UInt32).toNat = 2 ^ 31 := rfl
      omega

/-! ## The collection of `argv` -/

/-- Addresses of the process have been read, and entries of the array stored to. -/
def Within (u : User) (t t' : Frame) : Prop :=
  (∃ l, (∀ a ∈ l, a < u.sz) ∧ t'.reads = l ++ t.reads) ∧
    ∃ l, (∀ i ∈ l, i < maxarg) ∧ t'.stores = l ++ t.stores

theorem Within.trans (h : Within u t t') (h' : Within u t' t'') : Within u t t'' := by
  obtain ⟨⟨l, hl, hreads⟩, m, hm, hstores⟩ := h
  obtain ⟨⟨l', hl', hreads'⟩, m', hm', hstores'⟩ := h'
  refine ⟨⟨l' ++ l, fun a ha => ?_, by rw [hreads', hreads, List.append_assoc]⟩,
    m' ++ m, fun i hi => ?_, by rw [hstores', hstores, List.append_assoc]⟩
  · rcases List.mem_append.mp ha with ha | ha
    · exact hl' a ha
    · exact hl a ha
  · rcases List.mem_append.mp hi with hi | hi
    · exact hm' i hi
    · exact hm i hi

theorem Reads.within (h : Reads u t t') : Within u t t' := by
  obtain ⟨l, hl, rfl⟩ := h
  exact ⟨⟨l, hl, rfl⟩, [], nofun, rfl⟩

theorem Reads.argv (h : Reads u t t') : t'.argv = t.argv := by
  obtain ⟨l, hl, rfl⟩ := h
  rfl

theorem Reads.path (h : Reads u t t') : t'.path = t.path := by
  obtain ⟨l, hl, rfl⟩ := h
  rfl

theorem within_setArgv (u : User) {i : Nat} (hi : i < maxarg) (p : UInt32) (t : Frame) :
    Within u t (setArgv i p t) :=
  ⟨⟨[], nofun, rfl⟩, [i], fun _ hj => List.mem_singleton.mp hj ▸ hi, rfl⟩

theorem setArgv_self (i : Nat) (p : UInt32) (t : Frame) : (setArgv i p t).argv i = p :=
  Function.update_self ..

theorem setArgv_of_ne {i j : Nat} (h : j ≠ i) (p : UInt32) (t : Frame) :
    (setArgv i p t).argv j = t.argv j :=
  Function.update_of_ne h ..

/-- `argv` has the strings of the user's array at `uargv`, from entry `i` on, and a 0 after
the last. -/
def Collected (u : User) (uargv : UInt32) (i : Nat) (argv : Nat → UInt32) : Prop :=
  ∃ argc, i ≤ argc ∧ argc < maxarg ∧ argv argc = 0 ∧
    ∀ j, i ≤ j → j < argc → argv j = u.word (uargv + 4 * UInt32.ofNat j) ∧ argv j ≠ 0 ∧
      ∃ n, StringAt u (argv j) n

theorem collect_spec (hsz : u.sz < 0x80000000) (uargv : UInt32) (i : Nat) (t : Frame) :
    wp (collect u uargv i)
      (fun r t' => Within u t t' ∧ t'.path = t.path ∧ (∀ j < i, t'.argv j = t.argv j) ∧
      (r = true → Collected u uargv i t'.argv)) t := by
  induction hd : maxarg - i generalizing i t with
  | zero =>
    rw [collect, if_pos (by omega), wp_pure]
    exact ⟨(Reads.refl u t).within, rfl, fun _ _ => rfl, nofun⟩
  | succ d ih =>
    have hi : i < maxarg := by omega
    rw [collect, if_neg (by omega), wp_bind]
    refine (fetchint_spec hsz _ t).mono fun r t₁ ⟨hreads, hr⟩ => ?_
    cases r with
    | none =>
      rw [wp_pure]
      exact ⟨hreads.within, hreads.path, fun _ _ => by rw [hreads.argv], nofun⟩
    | some uarg =>
      obtain ⟨hword, -⟩ := hr uarg rfl
      rw [wp_ite]
      constructor
      · intro _
        rw [wp_bind, wp_modify, wp_pure]
        refine ⟨hreads.within.trans (within_setArgv u hi 0 t₁), hreads.path,
          fun j hj => ?_, fun _ => ?_⟩
        · rw [setArgv_of_ne (by omega), hreads.argv]
        · exact ⟨i, Nat.le_refl i, hi, setArgv_self .., fun j hj hj' => absurd hj (by omega)⟩
      · intro hne
        rw [wp_bind]
        refine (fetchstr_spec uarg (setArgv i) t₁).mono fun r t₂ h₂ => ?_
        have hkeep : Within u t t₂ ∧ t₂.path = t.path ∧ ∀ j < i, t₂.argv j = t.argv j := by
          rcases h₂ with ⟨-, rfl⟩ | ⟨hreads₂, -⟩
          · exact ⟨hreads.within, hreads.path, fun _ _ => by rw [hreads.argv]⟩
          · refine ⟨(hreads.within.trans (within_setArgv u hi uarg t₁)).trans hreads₂.within,
              hreads₂.path.trans hreads.path, fun j hj => ?_⟩
            rw [hreads₂.argv, setArgv_of_ne (by omega), hreads.argv]
        obtain ⟨hwithin, hpath, hargv⟩ := hkeep
        cases r with
        | none =>
          rw [wp_pure]
          exact ⟨hwithin, hpath, hargv, nofun⟩
        | some n =>
          obtain ⟨hreads₂, hstring⟩ : Reads u (setArgv i uarg t₁) t₂ ∧ StringAt u uarg n := by
            rcases h₂ with ⟨h, -⟩ | ⟨h, hs⟩
            · cases h
            · exact ⟨h, hs n rfl⟩
          refine (ih (i + 1) t₂ (by omega)).mono fun r t₃ ⟨hrest, hpath₃, hkept, hcoll⟩ => ?_
          refine ⟨hwithin.trans hrest, hpath₃.trans hpath,
            fun j hj => by rw [hkept j (by omega), hargv j hj], fun hr => ?_⟩
          obtain ⟨argc, hle, hlt, hzero, hstrings⟩ := hcoll hr
          have hentry : t₃.argv i = uarg := by
            rw [hkept i (by omega), hreads₂.argv, setArgv_self]
          refine ⟨argc, by omega, hlt, hzero, fun j hj hj' => ?_⟩
          by_cases hji : j = i
          · rw [hji, hentry]
            exact ⟨hword, hne, n, hstring⟩
          · exact hstrings j (by omega) hj'

/-- `memset(argv, 0, sizeof(argv))`. -/
theorem clear_spec (u : User) (l : List Nat) (hl : ∀ i ∈ l, i < maxarg) (t : Frame) :
    wp (l.forM fun i => (modify (setArgv i 0) : CallM Unit))
      (fun _ t' => Within u t t' ∧ t'.path = t.path) t := by
  induction l generalizing t with
  | nil => exact (wp_pure ()).mpr ⟨(Reads.refl u t).within, rfl⟩
  | cons i l ih =>
    refine wp_bind.mpr ?_
    rw [wp_modify]
    exact (ih (fun j hj => hl j (List.mem_cons_of_mem i hj)) _).mono fun _ t' ⟨h, hpath⟩ =>
      ⟨(within_setArgv u (hl i List.mem_cons_self) 0 t).trans h, hpath⟩

theorem argstr_spec (hsz : u.sz < 0x80000000) (n : Int32) (t : Frame) :
    wp (argstr u n setPath) (fun r t' => Within u t t' ∧ ∀ len, r = some len →
      t'.path = u.word (u.argAddr n) ∧ StringAt u t'.path len) t := by
  rw [argstr, wp_bind, argint]
  refine (fetchint_spec hsz _ t).mono fun r t₁ ⟨hreads, hr⟩ => ?_
  cases r with
  | none =>
    rw [wp_pure]
    exact ⟨hreads.within, nofun⟩
  | some addr =>
    obtain ⟨rfl, -⟩ := hr addr rfl
    refine (fetchstr_spec _ setPath t₁).mono fun r t₂ h₂ => ?_
    rcases h₂ with ⟨rfl, rfl⟩ | ⟨hreads₂, hstring⟩
    · exact ⟨hreads.within, nofun⟩
    · have hpath : t₂.path = u.word (u.argAddr n) := hreads₂.path
      have hset : Within u t₁ (setPath (u.word (u.argAddr n)) t₁) :=
        ⟨⟨[], nofun, rfl⟩, [], nofun, rfl⟩
      exact ⟨(hreads.within.trans hset).trans hreads₂.within,
        fun len hlen => ⟨hpath, by rw [hpath]; exact hstring len hlen⟩⟩

/-- The pointers handed to `exec` are those of the user, to strings of the process. -/
def Handed (u : User) (t : Frame) : Prop :=
  t.path = u.word (u.argAddr 0) ∧ (∃ n, StringAt u t.path n) ∧
    Collected u (u.word (u.argAddr 1)) 0 t.argv

theorem sysExec_spec (hsz : u.sz < 0x80000000) (t : Frame) :
    wp (sysExec u) (fun r t' => Within u t t' ∧ (r = true → Handed u t')) t := by
  rw [sysExec, wp_bind]
  refine (argstr_spec hsz 0 t).mono fun r t₁ ⟨hwithin, hstr⟩ => ?_
  cases r with
  | none =>
    rw [wp_pure]
    exact ⟨hwithin, nofun⟩
  | some len =>
    obtain ⟨hpath, hstring⟩ := hstr len rfl
    rw [wp_bind, argint]
    refine (fetchint_spec hsz _ t₁).mono fun r t₂ ⟨hreads₂, hr⟩ => ?_
    cases r with
    | none =>
      rw [wp_pure]
      exact ⟨hwithin.trans hreads₂.within, nofun⟩
    | some uargv =>
      obtain ⟨rfl, -⟩ := hr uargv rfl
      rw [wp_bind]
      refine (clear_spec u _ (fun i => List.mem_range.mp) t₂).mono fun _ t₃ ⟨hclear, hpath₃⟩ => ?_
      refine (collect_spec hsz _ 0 t₃).mono fun r t₄ ⟨hcollect, hpath₄, _, hcoll⟩ => ?_
      refine ⟨((hwithin.trans hreads₂.within).trans hclear).trans hcollect, fun hr => ?_⟩
      have hsame : t₄.path = t₁.path := by rw [hpath₄, hpath₃, hreads₂.path]
      exact ⟨hsame.trans hpath, ⟨len, hsame ▸ hstring⟩, hcoll hr⟩

/-- Whatever the memory and the stack pointer of a process are, the argument functions end,
read only addresses below its size, and hand out only pointers whose bytes lie there;
`sys_exec` stores only to entries of its array. -/
theorem syscall_args_inside (u : User) (hsz : u.sz < 0x80000000) (t : Frame) :
    (∀ n, wp (argint u n) (fun r t' => Reads u t t' ∧ ∀ v, r = some v →
      v = u.word (u.argAddr n) ∧ (u.argAddr n).toNat + 4 ≤ u.sz.toNat) t) ∧
    (∀ n size, wp (argptr u n size) (fun r t' => Reads u t t' ∧ ∀ p, r = some p →
      p = u.word (u.argAddr n) ∧ (u.argAddr n).toNat + 4 ≤ u.sz.toNat ∧
        0 ≤ size ∧ p < u.sz ∧ p.toNat + size.toNatClampNeg ≤ u.sz.toNat) t) ∧
    (∀ n, wp (argstr u n setPath) (fun r t' => Within u t t' ∧ ∀ len, r = some len →
      t'.path = u.word (u.argAddr n) ∧ StringAt u t'.path len) t) ∧
    wp (sysExec u) (fun r t' => Within u t t' ∧ (r = true → Handed u t')) t :=
  ⟨fun _ => fetchint_spec hsz _ t, fun n size => argptr_spec hsz n size t,
  fun n => argstr_spec hsz n t,
    sysExec_spec hsz t⟩

/-- A process of 64 bytes that calls `exec("a", {"b", 0})`. -/
def execCaller : User where
  sz := 64
  esp := 0
  mem a := if a = 4 then 32 else if a = 8 then 16 else if a = 16 then 40 else if a = 32 then 97
    else if a = 40 then 98 else 0

theorem execCaller_handed : ∃ t, sysExec execCaller ⟨0, fun _ => 0, [], []⟩ = .ok (true, t) ∧
    Handed execCaller t := by
  obtain ⟨-, -, -, r, t, hrun, -, hhanded⟩ :=
    syscall_args_inside execCaller (by decide) ⟨0, fun _ => 0, [], []⟩
  have hr : r = true := by
    have htrue : (sysExec execCaller ⟨0, fun _ => 0, [], []⟩).toOption.map
        Prod.fst = some true := by
      decide +kernel
    rw [hrun] at htrue
    exact Option.some.inj htrue
  subst hr
  exact ⟨t, hrun, hhanded rfl⟩

end Xv6.SyscallArgs
