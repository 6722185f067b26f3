import Laboratorio.Lib.Memory
import Laboratorio.Xv6.Vm

/-!
# The arguments of a system call (`xv6/syscall.c`)

The kernel fetches the arguments of a call from the memory of the process, at addresses that the
process has chosen: its saved `esp`, and the pointers on its stack. Each function below returns,
besides its result, the addresses that it has read.

The checks are made in 32-bit arithmetic, which wraps around. Since the size of a process is at most
`KERNBASE`, which is half of the address space, no sum that passes a check has wrapped, and all
addresses are below the size of the process (`arguments_inside`).
-/

namespace Laboratorio.Xv6.Args

open Laboratorio.Bytes Laboratorio.Memory Laboratorio.Xv6.Vm

/-- What the kernel knows of a process that makes a call: its memory, its size, and the saved
`esp`. -/
structure User where
  mem : Mem
  sz : UInt32
  esp : UInt32

/-- A result, or `none` for -1, and the addresses that were read. -/
structure Fetched (α : Type) where
  result : Option α
  reads : List Nat

variable (u : User)

/-- `fetchint` -/
def fetchint (addr : UInt32) : Fetched UInt32 :=
  if addr ≥ u.sz ∨ addr + 4 > u.sz then ⟨none, []⟩
  else ⟨some (load u32 addr.toNat u.mem), (List.range 4).map (addr.toNat + ·)⟩

/-- The loop of `fetchstr` from `s` on, with `n` bytes before the end of the process: where the NUL
is. -/
def fetchstrFrom : (s n : Nat) → Fetched Nat
  | _, 0 => ⟨none, []⟩
  | s, n + 1 =>
    if u.mem s = 0 then ⟨some s, [s]⟩
    else
      let r := fetchstrFrom (s + 1) n
      ⟨r.result, s :: r.reads⟩

/-- `fetchstr`: the pointer and the length -/
def fetchstr (addr : UInt32) : Fetched (UInt32 × Nat) :=
  if addr ≥ u.sz then ⟨none, []⟩
  else
    let r := fetchstrFrom u addr.toNat (u.sz.toNat - addr.toNat)
    ⟨r.result.map fun s => (addr, s - addr.toNat), r.reads⟩

/-- `argint` -/
def argint (n : Int32) : Fetched UInt32 := fetchint u (u.esp + 4 + (4 * n).toUInt32)

/-- `argptr` -/
def argptr (n size : Int32) : Fetched UInt32 :=
  let r := argint u n
  match r.result with
  | none => ⟨none, r.reads⟩
  | some i =>
    if size < 0 ∨ i ≥ u.sz ∨ i + size.toUInt32 > u.sz then ⟨none, r.reads⟩
    else ⟨some i, r.reads⟩

/-- `argstr` -/
def argstr (n : Int32) : Fetched (UInt32 × Nat) :=
  let r := argint u n
  match r.result with
  | none => ⟨none, r.reads⟩
  | some addr =>
    let t := fetchstr u addr
    ⟨t.result, r.reads ++ t.reads⟩

/-! ## Addresses -/

variable {u}

/-- All addresses that were read are addresses of the process. -/
def User.Inside (u : User) (reads : List Nat) : Prop := ∀ a ∈ reads, a < u.sz.toNat

/-- A sum of two numbers below `KERNBASE` does not wrap around. -/
theorem toNat_add_of_lt {a b : UInt32} (ha : a.toNat < kernbase) (hb : b.toNat < kernbase) :
    (a + b).toNat = a.toNat + b.toNat := by
  rw [UInt32.toNat_add, Nat.mod_eq_of_lt]
  simp only [kernbase] at ha hb
  omega

theorem fetchint_inside (hsz : u.sz.toNat ≤ kernbase) (addr : UInt32) :
    u.Inside (fetchint u addr).reads := by
  unfold fetchint
  split
  · nofun
  · next hcheck =>
    rw [not_or, ge_iff_le, gt_iff_lt, UInt32.not_le, UInt32.not_lt, UInt32.lt_iff_toNat_lt,
      UInt32.le_iff_toNat_le] at hcheck
    obtain ⟨hlt, hle⟩ := hcheck
    rw [toNat_add_of_lt (hlt.trans_le hsz) (by decide)] at hle
    intro a ha
    obtain ⟨i, hi, rfl⟩ := List.mem_map.mp ha
    have hi : i < 4 := List.mem_range.mp hi
    have : (4 : UInt32).toNat = 4 := rfl
    omega

/-- What the loop of `fetchstr` reads, and where it stops. -/
theorem fetchstrFrom_spec (s n : Nat) :
    (∀ a ∈ (fetchstrFrom u s n).reads, s ≤ a ∧ a < s + n) ∧
      ∀ e, (fetchstrFrom u s n).result = some e →
        s ≤ e ∧ e < s + n ∧ u.mem e = 0 ∧ ∀ a, s ≤ a → a < e → u.mem a ≠ 0 := by
  induction n generalizing s with
  | zero => exact ⟨nofun, nofun⟩
  | succ n ih =>
    obtain ⟨hreads, hresult⟩ := ih (s + 1)
    unfold fetchstrFrom
    split
    · next hnul =>
      refine ⟨fun a ha => ?_, fun e he => ?_⟩
      · rw [List.mem_singleton.mp ha]
        omega
      · cases he
        exact ⟨le_rfl, by omega, hnul, fun a ha ha' => by omega⟩
    · next hnul =>
      refine ⟨fun a ha => ?_, fun e he => ?_⟩
      · rcases List.mem_cons.mp ha with rfl | ha
        · omega
        · have := hreads a ha
          omega
      · obtain ⟨hlo, hhi, hend, hbefore⟩ := hresult e he
        refine ⟨by omega, by omega, hend, fun a ha ha' => ?_⟩
        by_cases has : a = s
        · rw [has]
          exact hnul
        · exact hbefore a (by omega) ha'

/-- A string that was fetched ends before the end of the process. -/
theorem fetchstr_inside (addr : UInt32) : u.Inside (fetchstr u addr).reads ∧
    ∀ p len, (fetchstr u addr).result = some (p, len) →
      p.toNat + len < u.sz.toNat ∧ u.mem (p.toNat + len) = 0 ∧
      ∀ i < len, u.mem (p.toNat + i) ≠ 0 := by
  unfold fetchstr
  split
  · exact ⟨nofun, nofun⟩
  · next hcheck =>
    rw [ge_iff_le, UInt32.not_le, UInt32.lt_iff_toNat_lt] at hcheck
    obtain ⟨hreads, hresult⟩ := fetchstrFrom_spec (u := u) addr.toNat (u.sz.toNat - addr.toNat)
    refine ⟨fun a ha => ?_, fun p len hp => ?_⟩
    · have := hreads a ha
      omega
    · obtain ⟨e, he, heq⟩ := Option.map_eq_some_iff.mp hp
      cases heq
      obtain ⟨hlo, hhi, hend, hbefore⟩ := hresult e he
      rw [Nat.add_sub_cancel' hlo]
      exact ⟨by omega, hend, fun i hi => hbefore _ (by omega) (by omega)⟩

theorem argptr_inside (hsz : u.sz.toNat ≤ kernbase) (n size : Int32) :
    u.Inside (argptr u n size).reads ∧ (size < 0 → (argptr u n size).result = none) ∧
      ∀ p, (argptr u n size).result = some p →
        0 ≤ size.toInt ∧ p.toNat + size.toInt ≤ u.sz.toNat := by
  have hreads := fetchint_inside hsz (u.esp + 4 + (4 * n).toUInt32)
  unfold argptr
  simp only [argint]
  split
  · exact ⟨hreads, fun _ => rfl, nofun⟩
  · next i hi =>
    split
    · exact ⟨hreads, fun _ => rfl, nofun⟩
    · next hcheck =>
      rw [not_or, not_or] at hcheck
      obtain ⟨hsize, hlt, hle⟩ := hcheck
      refine ⟨hreads, fun hneg => absurd hneg hsize, fun p hp => ?_⟩
      cases hp
      rw [ge_iff_le, UInt32.not_le, UInt32.lt_iff_toNat_lt] at hlt
      rw [gt_iff_lt, UInt32.not_lt, UInt32.le_iff_toNat_le] at hle
      have hpos : 0 ≤ size.toInt := Int32.le_iff_toInt_le.mp (Int32.not_lt.mp hsize)
      have hnat : (size.toUInt32.toNat : Int) = size.toInt := by
        rw [Int32.toNat_toUInt32_of_le (Int32.not_lt.mp hsize), Int32.toNatClampNeg,
          Int.toNat_of_nonneg hpos]
      have hbound : size.toInt < kernbase := size.toInt_lt
      rw [toNat_add_of_lt (hlt.trans_le hsz) (by omega)] at hle
      exact ⟨hpos, by omega⟩

/-- **Arguments stay inside the process.** Whatever the saved `esp` and the memory of a process are,
the functions that fetch arguments read only the memory of the process; a block that `argptr`
accepts and a string that `argstr` accepts, with its NUL, are inside of it; and `argptr` accepts no
negative size. -/
theorem arguments_inside (u : User) (hsz : u.sz.toNat ≤ kernbase) :
    (∀ addr, u.Inside (fetchint u addr).reads) ∧ (∀ n, u.Inside (argint u n).reads) ∧
    (∀ n size, u.Inside (argptr u n size).reads ∧ (size < 0 → (argptr u n size).result = none) ∧
      ∀ p, (argptr u n size).result = some p →
        0 ≤ size.toInt ∧ p.toNat + size.toInt ≤ u.sz.toNat) ∧
    ∀ n, u.Inside (argstr u n).reads ∧ ∀ p len, (argstr u n).result = some (p, len) →
      p.toNat + len < u.sz.toNat ∧ u.mem (p.toNat + len) = 0 ∧
      ∀ i < len, u.mem (p.toNat + i) ≠ 0 := by
  have hint : ∀ n, u.Inside (argint u n).reads := fun n => fetchint_inside hsz _
  refine ⟨fetchint_inside hsz, hint, argptr_inside hsz, fun n => ?_⟩
  simp only [argstr]
  split
  · exact ⟨hint n, nofun⟩
  · next addr _ =>
    obtain ⟨hreads, hresult⟩ := fetchstr_inside (u := u) addr
    refine ⟨fun a ha => ?_, hresult⟩
    rcases List.mem_append.mp ha with ha | ha
    · exact hint n a ha
    · exact hreads a ha

/-- A process whose stack is at the end of its only page, with the arguments `0xffc` and `0`. -/
def onePage : User :=
  ⟨store u32 0xff4 0xffc fun _ => 0, 0x1000, 0xff0⟩

theorem arguments_inside_onePage :
    (argptr onePage 0 4).result = some 0xffc ∧ onePage.Inside (argptr onePage 0 4).reads ∧
      (argptr onePage 0 (-1)).result = none :=
  ⟨by decide +kernel, ((arguments_inside onePage (by decide)).2.2.1 0 4).1,
    ((arguments_inside onePage (by decide)).2.2.1 0 (-1)).2.1 (by decide)⟩

end Laboratorio.Xv6.Args
