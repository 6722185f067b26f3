import Laboratorio.Lib.Memory

/-!
# The configuration table of a multiprocessor (`xv6/mp.c`)

`mpconfig` looks for the table that describes the processors, and `mpinit` goes through its entries.
Each entry says by its first byte how long it is. For a byte that it does not know `mpinit` only
notes that the machine is not suitable, and stays where it is: `break` leaves the `switch`, not the
loop. So `mpinit` ends if and only if every entry is of a kind that it knows (`mpinit_ends_iff`).

The table does not wrap around the end of the memory, so that its addresses are natural numbers. The
loop has fuel; `none` is a loop that is still going.
-/

namespace Laboratorio.Xv6.Mp

open Laboratorio.Bytes Laboratorio.Memory

def ncpuMax : Nat := 8

/-- `P2V` -/
def p2v (a : UInt32) : Nat := (a + 0x80000000).toNat

/-- `sum` -/
def sum (m : Mem) (addr len : Nat) : UInt8 :=
  UInt8.ofNat ((List.range len).map fun i => (m (addr + i)).toNat).sum

/-- Whether `memcmp` finds the bytes `sig` at an address. -/
def tagged (m : Mem) (p : Nat) (sig : List UInt8) : Bool :=
  (List.range sig.length).map (fun i => m (p + i)) = sig

/-- `"_MP_"` -/
def mpSig : List UInt8 := [0x5F, 0x4D, 0x50, 0x5F]

/-- `"PCMP"` -/
def confSig : List UInt8 := [0x50, 0x43, 0x4D, 0x50]

/-- The loop of `mpsearch1` for `n` places from `p` on. -/
def searchLoop (m : Mem) : (n p : Nat) → Option Nat
  | 0, _ => none
  | n + 1, p =>
    if tagged m p mpSig ∧ sum m p 16 = 0 then some p else searchLoop m n (p + 16)

/-- `mpsearch1`, for a length that is a multiple of `sizeof(struct mp)` -/
def mpsearch1 (m : Mem) (a : UInt32) (len : Nat) : Option Nat := searchLoop m (len / 16) (p2v a)

/-- `mpsearch` -/
def mpsearch (m : Mem) : Option Nat :=
  let bda := p2v 0x400
  let p := ((m (bda + 0x0F)).toUInt32 <<< 8 ||| (m (bda + 0x0E)).toUInt32) <<< 4
  let near :=
    if p ≠ 0 then mpsearch1 m p 1024
    else
      let p := ((m (bda + 0x14)).toUInt32 <<< 8 ||| (m (bda + 0x13)).toUInt32) * 1024
      mpsearch1 m (p - 1024) 1024
  match near with
  | some mp => some mp
  | none => mpsearch1 m 0xF0000 0x10000

/-- The field `length` of a table -/
def length (m : Mem) (conf : Nat) : Nat := (load u16 (conf + 4) m).toNat

/-- `mpconfig`: the addresses of the floating pointer and of the table -/
def mpconfig (m : Mem) : Option (Nat × Nat) := do
  let mp ← mpsearch m
  let physaddr := load u32 (mp + 4) m
  if physaddr = 0 then
    none
  let conf := p2v physaddr
  if tagged m conf confSig = false then
    none
  let version := m (conf + 6)
  if version ≠ 1 ∧ version ≠ 4 then
    none
  if sum m conf (length m conf) ≠ 0 then
    none
  return (mp, conf)

/-- The variables of `mpinit`, and what it sets. -/
structure Scan where
  p : Nat
  ismp : Bool
  lapic : UInt32
  ncpu : Nat
  /-- The fields `apicid` of `cpus` -/
  apicid : Nat → UInt8
  ioapicid : UInt8

/-- The body of the loop of `mpinit` -/
def entry (m : Mem) (x : Scan) : Scan :=
  match (m x.p).toNat with
  | 0 => -- `MPPROC`
    if x.ncpu < ncpuMax then
      { x with
        p := x.p + 20
        ncpu := x.ncpu + 1
        apicid := Function.update x.apicid x.ncpu (m (x.p + 1)) }
    else { x with p := x.p + 20 }
  | 2 => { x with p := x.p + 8, ioapicid := m (x.p + 1) } -- `MPIOAPIC`
  | 1 | 3 | 4 => { x with p := x.p + 8 } -- `MPBUS`, `MPIOINTR`, `MPLINTR`
  | _ => { x with ismp := false }

/-- The loop of `mpinit` -/
def entries (m : Mem) (e : Nat) : (fuel : Nat) → Scan → Option Scan
  | 0, _ => none
  | fuel + 1, x => if x.p < e then entries m e fuel (entry m x) else some x

/-- How `mpinit` ends. -/
inductive Outcome where
  /-- `panic("Expect to run on an SMP")` -/
  | notSmp
  /-- `panic("Didn't find a suitable machine")` -/
  | unsuitable (x : Scan)
  /-- It returns, having masked external interrupts or not. -/
  | ready (x : Scan) (imcr : Bool)

/-- The end of a table -/
def tableEnd (m : Mem) (conf : Nat) : Nat := conf + length m conf

/-- The variables before the loop -/
def start (m : Mem) (conf : Nat) : Scan where
  p := conf + 44
  ismp := true
  lapic := load u32 (conf + 36) m
  ncpu := 0
  apicid _ := 0
  ioapicid := 0

/-- `mpinit` -/
def mpinit (fuel : Nat) (m : Mem) : Option Outcome :=
  match mpconfig m with
  | none => some .notSmp
  | some (mp, conf) => (entries m (tableEnd m conf) fuel (start m conf)).map fun x =>
    if x.ismp then .ready x (m (mp + 12) ≠ 0) else .unsuitable x

/-! ## What the loop does -/

/-- All entries have been processed, or the machine is reported as not suitable; and there are not
too many processors. -/
def Outcome.Finished (e : Nat) : Outcome → Prop
  | .notSmp => False
  | .unsuitable x => x.ncpu ≤ ncpuMax
  | .ready x _ => x.ncpu ≤ ncpuMax ∧ e ≤ x.p

/-- The length of an entry, by its kind. -/
def size (kind : UInt8) : Nat := if kind = 0 then 20 else 8

/-- An entry of the table begins at this address: the entries before it are of known kinds. -/
inductive Entry (m : Mem) (conf : Nat) : Nat → Prop
  | first (h : conf + 44 < tableEnd m conf) : Entry m conf (conf + 44)
  | next {p : Nat} (h : Entry m conf p) (hkind : m p ≤ 4) (hlt : p + size (m p) < tableEnd m conf) :
    Entry m conf (p + size (m p))

variable {m : Mem} {conf e p fuel : Nat} {x y : Scan}

theorem Entry.lt (h : Entry m conf p) : p < tableEnd m conf := by
  cases h with
  | first h => exact h
  | next _ _ h => exact h

/-- An entry of a known kind is passed. -/
theorem entry_known (h : m x.p ≤ 4) :
    (entry m x).p = x.p + size (m x.p) ∧ (entry m x).ismp = x.ismp := by
  have hkind : (m x.p).toNat ≤ 4 := h
  have hzero : m x.p = 0 ↔ (m x.p).toNat = 0 := UInt8.toNat_inj.symm
  unfold entry size
  simp only [hzero]
  split
  · next h0 =>
    rw [if_pos h0]
    split <;> exact ⟨rfl, rfl⟩
  · next h2 => exact ⟨by rw [if_neg (by omega)], rfl⟩
  · next h1 => exact ⟨by rw [if_neg (by omega)], rfl⟩
  · next h3 => exact ⟨by rw [if_neg (by omega)], rfl⟩
  · next h4 => exact ⟨by rw [if_neg (by omega)], rfl⟩
  · grind

/-- At an entry of another kind the loop stays. -/
theorem entry_unknown (h : ¬ m x.p ≤ 4) : entry m x = { x with ismp := false } := by
  have hkind : ¬ (m x.p).toNat ≤ 4 := h
  unfold entry
  split
  · omega
  · omega
  · omega
  · omega
  · omega
  · rfl

theorem ncpu_entry (h : x.ncpu ≤ ncpuMax) : (entry m x).ncpu ≤ ncpuMax := by
  unfold entry
  split
  · split
    · next hlt => exact hlt
    · exact h
  all_goals exact h

theorem entries_mono (h : entries m e fuel x = some y) (k : Nat) :
    entries m e (fuel + k) x = some y := by
  induction fuel generalizing x with
  | zero => cases h
  | succ fuel ih =>
    rw [Nat.add_right_comm]
    rw [entries] at h ⊢
    split at h
    · next hlt =>
      rw [if_pos hlt]
      exact ih h
    · next hge => rw [if_neg hge, h]

theorem entries_unknown (hlt : x.p < e) (h : ¬ m x.p ≤ 4) : entries m e fuel x = none := by
  induction fuel generalizing x with
  | zero => rfl
  | succ fuel ih =>
    rw [entries, if_pos hlt, entry_unknown h]
    exact ih hlt h

/-- The loop comes to every entry. -/
theorem Entry.reached (h : Entry m conf p) : ∃ k x, x.p = p ∧ ∀ fuel,
    entries m (tableEnd m conf) (fuel + k) (start m conf) =
      entries m (tableEnd m conf) fuel x := by
  induction h with
  | first h => exact ⟨0, start m conf, rfl, fun _ => rfl⟩
  | next h hkind hlt ih =>
    obtain ⟨k, x, rfl, hk⟩ := ih
    refine ⟨k + 1, entry m x, (entry_known hkind).1, fun fuel => ?_⟩
    rw [← Nat.add_assoc, Nat.add_right_comm, hk, entries, if_pos h.lt]

/-- When all entries are of known kinds, the loop comes to the end: each one is passed. -/
theorem entries_end (hknown : ∀ p, Entry m conf p → m p ≤ 4)
    (hp : x.p < tableEnd m conf → Entry m conf x.p) (hn : x.ncpu ≤ ncpuMax) (hs : x.ismp = true) :
    ∃ fuel y, entries m (tableEnd m conf) fuel x = some y ∧ y.ncpu ≤ ncpuMax ∧
      tableEnd m conf ≤ y.p ∧ y.ismp = true := by
  -- the rest of the table gets shorter
  induction hd : tableEnd m conf - x.p using Nat.strong_induction_on generalizing x with
  | _ d ih =>
    by_cases hlt : x.p < tableEnd m conf
    · have hentry := hp hlt
      obtain ⟨hnext, hismp⟩ := entry_known (hknown _ hentry)
      have hpos : 0 < size (m x.p) := by
        unfold size
        split <;> decide
      obtain ⟨fuel, y, hy, hrest⟩ := ih (tableEnd m conf - (entry m x).p) (by omega) (x := entry m x)
        (fun h => hnext ▸ .next hentry (hknown _ hentry) (hnext ▸ h)) (ncpu_entry hn)
        (hismp.trans hs) rfl
      exact ⟨fuel + 1, y, by rw [entries, if_pos hlt, hy], hrest⟩
    · exact ⟨1, x, by rw [entries, if_neg hlt], hn, Nat.le_of_not_lt hlt, hs⟩

/-- **`mpinit` ends** on a table that `mpconfig` accepts if and only if every entry is of a kind that
it knows. -/
theorem mpinit_ends_iff {mp : Nat} (h : mpconfig m = some (mp, conf)) :
    (∃ fuel r, mpinit fuel m = some r ∧ r.Finished (tableEnd m conf)) ↔
      ∀ p, Entry m conf p → m p ≤ 4 := by
  unfold mpinit
  rw [h]
  constructor
  · rintro ⟨fuel, r, hr, -⟩ p hp
    by_contra hkind
    obtain ⟨y, hy, -⟩ := Option.map_eq_some_iff.mp hr
    obtain ⟨k, x, rfl, hk⟩ := hp.reached
    have hloop := entries_mono hy k
    rw [hk, entries_unknown hp.lt hkind] at hloop
    cases hloop
  · intro hknown
    obtain ⟨fuel, y, hy, hn, hend, hs⟩ :=
      entries_end (x := start m conf) hknown .first (Nat.zero_le _) rfl
    refine ⟨fuel, .ready y (m (mp + 12) ≠ 0), ?_, hn, hend⟩
    dsimp only
    rw [hy, Option.map_some, if_pos hs]

/-! ## Tables with one entry -/

/-- A floating pointer, and a table with one entry of 8 bytes of the given kind. -/
def image (kind checksum : UInt8) : List UInt8 :=
  mpSig ++ [0x10, 0, 0x0F, 0, 1, 4, 0x81, 0, 0, 0, 0, 0] ++
    confSig ++ [52, 0, 1, checksum] ++ List.replicate 36 0 ++ [kind, 0, 0, 0, 0, 0, 0, 0]

/-- The image in the memory of the BIOS, with 639 KB of base memory. -/
def bios (kind checksum : UInt8) : Mem := fun a =>
  if p2v 0xF0000 ≤ a then (image kind checksum).getD (a - p2v 0xF0000) 0
  else if a = p2v 0x413 then 0x7F
  else if a = p2v 0x414 then 0x02
  else 0

/-- A table with an entry for a bus is passed. -/
theorem mpinit_ends_bus : mpconfig (bios 1 154) = some (0x800F0000, 0x800F0010) ∧
    ∃ fuel r, mpinit fuel (bios 1 154) = some r ∧
      r.Finished (tableEnd (bios 1 154) 0x800F0010) := by
  have hconf : mpconfig (bios 1 154) = some (0x800F0000, 0x800F0010) := by decide +kernel
  refine ⟨hconf, (mpinit_ends_iff hconf).mpr fun p hp => ?_⟩
  have hend : tableEnd (bios 1 154) 0x800F0010 = 0x800F0044 := by decide +kernel
  cases hp with
  | first => decide +kernel
  | @next p hp hkind hlt =>
    -- there is no room for a second entry
    exfalso
    have hge : 0x800F0010 + 44 ≤ p := by
      clear hlt hkind
      induction hp with
      | first => exact le_rfl
      | next _ _ _ ih => exact ih.trans (Nat.le_add_right ..)
    have hsize : 8 ≤ size (bios 1 154 p) := by
      unfold size
      split <;> decide
    omega

/-- A table with an entry of an unknown kind keeps `mpinit` going. -/
theorem mpinit_loops : mpconfig (bios 5 150) = some (0x800F0000, 0x800F0010) ∧
    ∀ fuel, mpinit fuel (bios 5 150) = none := by
  have hconf : mpconfig (bios 5 150) = some (0x800F0000, 0x800F0010) := by decide +kernel
  refine ⟨hconf, fun fuel => ?_⟩
  unfold mpinit
  rw [hconf]
  have hloop : entries (bios 5 150) (tableEnd (bios 5 150) 0x800F0010) fuel
      (start (bios 5 150) 0x800F0010) = none :=
    entries_unknown (by decide +kernel) (by decide +kernel)
  dsimp only
  rw [hloop, Option.map_none]

end Laboratorio.Xv6.Mp
