import Mathlib.Data.UInt

/-!
# The table of processors

mp.c: the search for the configuration table in the memory of the firmware, and the loop of
`mpinit` over its entries. Addresses are physical; the kernel maps the memory below PHYSTOP,
and an access beyond it faults.
-/
namespace Xv6.MpTable

abbrev physTop : Nat := 0xE000000

abbrev ncpuMax : Nat := 8

abbrev Ram := Nat → UInt8

def load (ram : Ram) (a : Nat) : Option UInt8 := if a < physTop then some (ram a) else none

def load16 (ram : Ram) (a : Nat) : Option Nat := do
  return (← load ram a).toNat + (← load ram (a + 1)).toNat * 2 ^ 8

def load32 (ram : Ram) (a : Nat) : Option Nat := do
  return (← load16 ram a) + (← load16 ram (a + 2)) * 2 ^ 16

/-- `memcmp(p, s, n) == 0`; it reads up to the first difference. -/
def sameBytes (ram : Ram) : Nat → List UInt8 → Option Bool
  | _, [] => some true
  | p, c :: l => do if (← load ram p) = c then sameBytes ram (p + 1) l else return false

def sum (ram : Ram) (addr : Nat) : Nat → Option UInt8
  | 0 => some 0
  | n + 1 => do return (← sum ram addr n) + (← load ram (addr + n))

/-- Look for an MP structure in the `n` places of 16 bytes at `p`. -/
def mpsearch1 (ram : Ram) : Nat → Nat → Option (Option Nat)
  | _, 0 => some none
  | p, n + 1 => do
    if (← sameBytes ram p [95, 77, 80, 95]) ∧ (← sum ram p 16) = 0 then return some p
    else mpsearch1 ram (p + 16) n

def mpsearch (ram : Ram) : Option (Option Nat) := do
  let p := (← load16 ram 0x40E) * 16
  let found ←
    if p ≠ 0 then mpsearch1 ram p 64
    else mpsearch1 ram (UInt32.ofNat ((← load16 ram 0x413) * 1024) - 1024).toNat 64
  match found with
  | some mp => return some mp
  | none => mpsearch1 ram 0xF0000 4096

/-- The MP structure and the table it points to, or what is printed. -/
def mpconfig (ram : Ram) : Option (Except String (Nat × Nat)) := do
  let some mp ← mpsearch ram | return .error "Error: mpsearch failed\n"
  let conf ← load32 ram (mp + 4)
  if conf = 0 then return .error "Error: Invalid physaddr in MP structure\n"
  if ¬ (← sameBytes ram conf [80, 67, 77, 80]) then
    return .error "Error: Invalid MP configuration signature\n"
  let version ← load ram (conf + 6)
  if version ≠ 1 ∧ version ≠ 4 then return .error "Error: Unsupported MP version\n"
  if (← sum ram conf (← load16 ram (conf + 4))) ≠ 0 then
    return .error "Error: MP configuration checksum failed\n"
  return .ok (mp, conf)

/-- The variables of the loop of `mpinit`, with the processors found so far. -/
structure Scan where
  p : Nat
  ismp : Bool
  apicids : List UInt8
  ioapicid : UInt8
  deriving DecidableEq

/-- The body of the loop. The `break` of an unknown type leaves the switch only. -/
def body (ram : Ram) (s : Scan) : Option Scan := do
  let type ← load ram s.p
  if type = 0 then
    if s.apicids.length < ncpuMax then
      let id ← load ram (s.p + 1)
      return { s with p := s.p + 20, apicids := s.apicids ++ [id] }
    else return { s with p := s.p + 20 }
  else if type = 2 then return { s with p := s.p + 8, ioapicid := ← load ram (s.p + 1) }
  else if type ≤ 4 then return { s with p := s.p + 8 }
  else return { s with ismp := false }

inductive Outcome where
  | fault
  | panic (s : String)
  | ready (apicids : List UInt8) (ioapicid : UInt8)
  deriving DecidableEq

/-- The loop, for at most `fuel` tests of its condition. -/
def scan (ram : Ram) (e : Nat) : Nat → Scan → Option Outcome
  | 0, _ => none
  | fuel + 1, s =>
    if s.p < e then
      match body ram s with
      | none => some .fault
      | some s' => scan ram e fuel s'
    else if s.ismp then some (.ready s.apicids s.ioapicid)
    else some (.panic "Didn't find a suitable machine")

/-- The end of the table at `conf`. -/
def tableEnd (ram : Ram) (conf : Nat) : Nat :=
  conf + (ram (conf + 4)).toNat + (ram (conf + 5)).toNat * 2 ^ 8

/-- `mpinit` up to the end of its loop; no result means that the loop needs more steps. -/
def mpinit (ram : Ram) (fuel : Nat) : Option Outcome :=
  match mpconfig ram with
  | none => some .fault
  | some (.error _) => some (.panic "Expect to run on an SMP")
  | some (.ok (_, conf)) => scan ram (tableEnd ram conf) fuel ⟨conf + 44, true, [], 0⟩

/-! ## Entries -/

/-- The length of an entry of a known type. -/
def entryLength (type : UInt8) : Nat := if type = 0 then 20 else 8

/-- An entry of the table starts at `p`: the entries follow the header one after the other. -/
inductive Entry (ram : Ram) (conf : Nat) : Nat → Prop where
  | first : conf + 44 < tableEnd ram conf → Entry ram conf (conf + 44)
  | next {p : Nat} : Entry ram conf p → ram p ≤ 4 → p + entryLength (ram p) < tableEnd ram conf →
      Entry ram conf (p + entryLength (ram p))

/-- The loop ends, and ends in the panic if the table has an entry of an unknown type. -/
def Terminates (ram : Ram) (conf : Nat) : Prop :=
  ∃ fuel o, mpinit ram fuel = some o ∧
    ((∃ p, Entry ram conf p ∧ 4 < ram p) → o = .panic "Didn't find a suitable machine")

variable {ram : Ram} {conf mp p e : Nat}

theorem load_of_lt (h : p < physTop) : load ram p = some (ram p) := if_pos h

theorem lt_of_load {v : UInt8} (h : load ram p = some v) : p < physTop :=
  (Option.ite_none_right_eq_some.mp h).1

theorem sum_mapped {n : Nat} {v : UInt8} (h : sum ram p n = some v) : ∀ i < n, p + i < physTop := by
  induction n generalizing v with
  | zero => exact fun i hi => absurd hi (Nat.not_lt_zero i)
  | succ n ih =>
    obtain ⟨a, ha, h⟩ := Option.bind_eq_some_iff.mp h
    obtain ⟨b, hb, -⟩ := Option.bind_eq_some_iff.mp h
    intro i hi
    obtain hi | rfl := Nat.lt_succ_iff_lt_or_eq.mp hi
    · exact ih ha i hi
    · exact lt_of_load hb

theorem load16_eq {v : Nat} (h : load16 ram p = some v) :
    v = (ram p).toNat + (ram (p + 1)).toNat * 2 ^ 8 := by
  obtain ⟨a, ha, h⟩ := Option.bind_eq_some_iff.mp h
  obtain ⟨b, hb, h⟩ := Option.bind_eq_some_iff.mp h
  rw [load_of_lt (lt_of_load ha)] at ha
  rw [load_of_lt (lt_of_load hb)] at hb
  obtain rfl := Option.some.inj ha
  obtain rfl := Option.some.inj hb
  exact (Option.some.inj h).symm

/-- The checksum has read every byte of a table that `mpconfig` accepts. -/
theorem table_mapped (h : mpconfig ram = some (.ok (mp, conf))) (hp : conf ≤ p)
    (he : p < tableEnd ram conf) : p < physTop := by
  obtain ⟨m, -, h⟩ := Option.bind_eq_some_iff.mp h
  cases m with
  | none => exact absurd (Option.some.inj h) nofun
  | some m =>
    obtain ⟨c, -, h⟩ := Option.bind_eq_some_iff.mp h
    split_ifs at h
    · exact absurd (Option.some.inj h) nofun
    obtain ⟨sig, -, h⟩ := Option.bind_eq_some_iff.mp h
    split_ifs at h with hsig
    rotate_left
    · exact absurd (Option.some.inj h) nofun
    obtain ⟨version, -, h⟩ := Option.bind_eq_some_iff.mp h
    split_ifs at h
    · exact absurd (Option.some.inj h) nofun
    obtain ⟨len, hlen, h⟩ := Option.bind_eq_some_iff.mp h
    obtain ⟨v, hv, h⟩ := Option.bind_eq_some_iff.mp h
    split_ifs at h
    · exact absurd (Option.some.inj h) nofun
    obtain ⟨-, rfl⟩ := Prod.mk.inj (Except.ok.inj (Option.some.inj h))
    have hlt : p - c < len := by
      rw [load16_eq hlen]
      change p < c + (ram (c + 4)).toNat + (ram (c + 4 + 1)).toNat * 2 ^ 8 at he
      omega
    have := sum_mapped hv (p - c) hlt
    omega

theorem Entry.bounds (h : Entry ram conf p) : conf ≤ p ∧ p < tableEnd ram conf := by
  induction h with
  | first h => exact ⟨by omega, h⟩
  | next _ _ h ih => exact ⟨by omega, h⟩

/-! ## The loop -/

/-- An entry of an unknown type leaves the pointer where it is. -/
theorem body_unknown {s : Scan} (hm : s.p < physTop) (h : 4 < ram s.p) :
    body ram s = some { s with ismp := false } := by
  have h0 : ram s.p ≠ 0 := by rintro h'; rw [h'] at h; exact absurd h (by decide)
  have h2 : ram s.p ≠ 2 := by rintro h'; rw [h'] at h; exact absurd h (by decide)
  simp [body, load_of_lt hm, h0, h2, UInt8.not_le.mpr h]

/-- An entry of a known type is passed, or the access to its second byte faults. -/
theorem body_known {s : Scan} (hm : s.p < physTop) (h : ram s.p ≤ 4) :
    (body ram s = none ∧ physTop ≤ s.p + 1) ∨
      ∃ s', body ram s = some s' ∧ s'.p = s.p + entryLength (ram s.p) := by
  by_cases hnext : s.p + 1 < physTop
  · right
    by_cases h0 : ram s.p = 0
    · by_cases hn : s.apicids.length < ncpuMax
      · exact ⟨_, by simp only [body, load_of_lt hm, load_of_lt hnext, h0, hn]; rfl,
          by simp [entryLength, h0]⟩
      · exact ⟨_, by simp only [body, load_of_lt hm, h0, hn]; rfl, by simp [entryLength, h0]⟩
    · by_cases h2 : ram s.p = 2
      · exact ⟨_, by simp only [body, load_of_lt hm, load_of_lt hnext, h2]; rfl,
          by simp [entryLength, h2]⟩
      · exact ⟨_,
          by simp only [body, load_of_lt hm, Option.bind_eq_bind, Option.bind_some, h0, h2, h]; rfl,
          by simp [entryLength, h0]⟩
  · by_cases hb : body ram s = none
    · exact .inl ⟨hb, Nat.not_lt.mp hnext⟩
    · obtain ⟨s', hs'⟩ := Option.ne_none_iff_exists'.mp hb
      refine .inr ⟨s', hs', ?_⟩
      have hfault : load ram (s.p + 1) = none := if_neg hnext
      simp only [body, load_of_lt hm, hfault, Option.bind_eq_bind,
        Option.bind_some, Option.bind_none] at hs'
      split_ifs at hs' with h0 _ h2
      · obtain rfl := Option.some.inj hs'
        simp [entryLength, h0]
      · obtain rfl := Option.some.inj hs'
        simp [entryLength, h0]

/-- Where the loop does not end from. -/
def Stuck (ram : Ram) (e p : Nat) : Prop := ∀ fuel s, s.p = p → scan ram e fuel s = none

theorem stuck_unknown (hm : p < physTop) (he : p < e) (h : 4 < ram p) : Stuck ram e p := by
  intro fuel
  induction fuel with
  | zero => exact fun _ _ => rfl
  | succ fuel ih =>
    rintro s rfl
    rw [scan, if_pos he, body_unknown hm h]
    exact ih _ rfl

theorem Entry.stuck (hmap : ∀ q, conf ≤ q → q < tableEnd ram conf → q < physTop)
    (h : Entry ram conf p) (hp : Stuck ram (tableEnd ram conf) p) :
    Stuck ram (tableEnd ram conf) (conf + 44) := by
  induction h with
  | first => exact hp
  | @next q hq htype hend ih =>
    obtain ⟨hge, hlt⟩ := hq.bounds
    apply ih
    rintro (_ | fuel) s rfl
    · rfl
    rw [scan, if_pos hlt]
    have hlen : 1 < entryLength (ram s.p) := by unfold entryLength; split <;> decide
    obtain ⟨-, hfault⟩ | ⟨s', hs', hp'⟩ := body_known (hmap _ hge hlt) htype
    · have := hmap _ (by omega) hend
      omega
    · rw [hs']
      exact hp fuel s' hp'

/-- From a table without unknown entries the loop ends, after at most one step per byte. -/
theorem scan_ends (hmap : ∀ q, conf ≤ q → q < tableEnd ram conf → q < physTop)
    (hknown : ∀ q, Entry ram conf q → ram q ≤ 4) (n : Nat) (s : Scan)
    (hn : tableEnd ram conf - s.p ≤ n) (hs : s.p < tableEnd ram conf → Entry ram conf s.p) :
    ∃ o, scan ram (tableEnd ram conf) (n + 1) s = some o := by
  induction n generalizing s with
  | zero =>
    rw [scan, if_neg (by omega)]
    split <;> exact ⟨_, rfl⟩
  | succ n ih =>
    rw [scan]
    split
    next hlt =>
      have hentry := hs hlt
      obtain ⟨hb, -⟩ | ⟨s', hb, hp⟩ := body_known (hmap _ hentry.bounds.1 hlt) (hknown _ hentry)
      · rw [hb]
        exact ⟨_, rfl⟩
      · have hlen : 0 < entryLength (ram s.p) := by unfold entryLength; split <;> decide
        rw [hb]
        exact ih s' (by omega) fun hlt' => hp ▸ hentry.next (hknown _ hentry) (hp ▸ hlt')
    next => split <;> exact ⟨_, rfl⟩

/-- For every table that `mpconfig` accepts, the loop of `mpinit` ends as it should exactly if
no entry of the table has an unknown type. -/
theorem terminates_iff (ram : Ram) (mp conf : Nat) (h : mpconfig ram = some (.ok (mp, conf))) :
    Terminates ram conf ↔ ∀ p, Entry ram conf p → ram p ≤ 4 := by
  have hmap : ∀ q, conf ≤ q → q < tableEnd ram conf → q < physTop := fun q => table_mapped h
  constructor
  · rintro ⟨fuel, o, hend, -⟩ p hp
    by_contra hbad
    have hbad := UInt8.not_le.mp hbad
    obtain ⟨hge, hlt⟩ := hp.bounds
    have hstuck := hp.stuck hmap (stuck_unknown (hmap p hge hlt) hlt hbad)
    rw [mpinit, h] at hend
    exact absurd ((hstuck fuel ⟨conf + 44, true, [], 0⟩ rfl).symm.trans hend) nofun
  · intro hknown
    obtain ⟨o, ho⟩ := scan_ends hmap hknown _ ⟨conf + 44, true, [], 0⟩ le_rfl .first
    refine ⟨tableEnd ram conf - (conf + 44) + 1, o, ?_,
      fun ⟨p, hp, hbad⟩ => absurd (hknown p hp) (UInt8.not_le.mpr hbad)⟩
    rw [mpinit, h]
    exact ho

/-- A memory with an MP structure in the EBDA, and at 0x900 a table of one entry of 8 bytes. -/
def firmware (checksum type : UInt8) : Ram := fun a =>
  if a = 0x40E then 0x80
  else if 0x900 ≤ a then
    ([80, 67, 77, 80, 52, 0, 4, checksum] ++ List.replicate 36 0 ++ [type]).getD (a - 0x900) 0
  else if 0x800 ≤ a then [95, 77, 80, 95, 0, 9, 0, 0, 1, 4, 151, 0].getD (a - 0x800) 0
  else 0

/-- An entry of type 1 is skipped. -/
theorem terminates_iff_bus : Terminates (firmware 151 1) 0x900 := by
  have hend : tableEnd (firmware 151 1) 0x900 = 0x934 := by decide +kernel
  refine (terminates_iff (firmware 151 1) 0x800 0x900 (by decide +kernel)).mpr fun p hp => ?_
  have honly : p = 0x92C := by
    induction hp with
    | first => rfl
    | next _ _ hlt ih =>
      rw [ih, hend] at hlt
      exact absurd hlt (by decide +kernel)
  rw [honly]
  decide +kernel

theorem unknown_entry_hangs :
    mpconfig (firmware 147 5) = some (.ok (0x800, 0x900)) ∧
      ¬ Terminates (firmware 147 5) 0x900 := by
  have hconf : mpconfig (firmware 147 5) = some (.ok (0x800, 0x900)) := by decide +kernel
  have hend : tableEnd (firmware 147 5) 0x900 = 0x934 := by decide +kernel
  refine ⟨hconf, ?_⟩
  rintro ⟨fuel, o, h, -⟩
  have hstuck : Stuck (firmware 147 5) 0x934 0x92C :=
    stuck_unknown (by decide) (by decide) (by decide +kernel)
  rw [mpinit, hconf] at h
  simp only [hend] at h
  exact absurd ((hstuck fuel _ rfl).symm.trans h) nofun

end Xv6.MpTable
