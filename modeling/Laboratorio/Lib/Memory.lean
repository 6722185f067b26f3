import Laboratorio.Lib.Bytes

/-!
# Byte-addressed memory

A memory gives a byte for every address. `load` and `store` read and write a value in the layout of
a `Codec`, with the laws of `fetch` and `store` on blocks, except that a memory has no end.

A stack grows downwards: `pushAll ws sp m` is the memory after the words `ws` have been pushed, one
after the other, from the stack pointer `sp` on.

Bytes are copied one after the other, upwards or downwards. `Moved` is what a copy is for. Downwards
it is reached when the source begins below the destination; upwards, if and only if the bytes that
are overwritten before they are read were what overwrites them (`copyUp_moved_iff`).
-/

namespace Laboratorio.Memory

open Function Laboratorio.Bytes

variable {α β : Type}

/-- The bytes at all addresses. -/
abbrev Mem := Nat → UInt8

/-- The value at an address. -/
def load (c : Codec α) (a : Nat) (m : Mem) : α := c.dec fun i => m (a + i)

/-- Store a value at an address. -/
def store (c : Codec α) (a : Nat) (v : α) (m : Mem) : Mem :=
  fun i => if a ≤ i ∧ i < a + c.size then c.enc v (i - a) else m i

variable {c : Codec α} {m m' : Mem} {a b : Nat} {v : α}

theorem store_of_notMem {i : Nat} (h : i < a ∨ a + c.size ≤ i) : store c a v m i = m i :=
  if_neg (by omega)

/-- A value depends on its own bytes only. -/
theorem load_congr (h : ∀ i, a ≤ i → i < a + c.size → m i = m' i) : load c a m = load c a m' :=
  c.dec_congr _ _ fun i hi => h (a + i) (by omega) (by omega)

@[simp]
theorem load_store : load c a (store c a v m) = v := by
  apply c.dec_enc
  intro i hi
  rw [store, if_pos (by omega), Nat.add_sub_cancel_left]

theorem load_store_of_disjoint {c' : Codec β} (h : a + c.size ≤ b ∨ b + c'.size ≤ a) :
    load c' b (store c a v m) = load c' b m :=
  load_congr fun _ _ _ => store_of_notMem (by omega)

/-! ## Stacks of words -/

/-- Push words, one after the other. -/
def pushAll : List UInt32 → UInt32 → Mem → Mem
  | [], _, m => m
  | w :: ws, sp, m => pushAll ws (sp - 4) (store u32 (sp - 4).toNat w m)

variable {ws : List UInt32} {sp : UInt32}

theorem toNat_sub_ofNat {n : Nat} (hn : n < 2 ^ 32) (h : n ≤ sp.toNat) :
    (sp - UInt32.ofNat n).toNat = sp.toNat - n := by
  have hofNat : (UInt32.ofNat n).toNat = n := UInt32.toNat_ofNat_of_lt' hn
  rw [UInt32.toNat_sub_of_le _ _ (UInt32.le_iff_toNat_le.mpr (by rw [hofNat]; exact h)), hofNat]

/-- Pushing changes the bytes below the stack pointer only. -/
theorem pushAll_of_notMem (hsp : 4 * ws.length ≤ sp.toNat)
    (h : a < sp.toNat - 4 * ws.length ∨ sp.toNat ≤ a) : pushAll ws sp m a = m a := by
  induction ws generalizing sp m with
  | nil => rfl
  | cons w ws ih =>
    rw [List.length_cons] at hsp h
    have hsub : (sp - 4).toNat = sp.toNat - 4 := toNat_sub_ofNat (n := 4) (by decide) (by omega)
    have hsize : u32.size = 4 := rfl
    rw [pushAll, ih (by omega) (by omega), store_of_notMem (by omega)]

/-- The words that were pushed are found at their places. -/
theorem load_pushAll (hsp : 4 * ws.length ≤ sp.toNat) {i : Nat} (hi : i < ws.length) :
    load u32 (sp.toNat - 4 * (i + 1)) (pushAll ws sp m) = ws[i] := by
  induction ws generalizing sp m i with
  | nil => cases hi
  | cons w ws ih =>
    rw [List.length_cons] at hsp hi
    have hsub : (sp - 4).toNat = sp.toNat - 4 := toNat_sub_ofNat (n := 4) (by decide) (by omega)
    have hsize : u32.size = 4 := rfl
    rw [pushAll]
    cases i with
    | zero =>
      -- the words pushed later are below
      have hlater : ∀ j, sp.toNat - 4 ≤ j → j < sp.toNat - 4 + 4 →
          pushAll ws (sp - 4) (store u32 (sp - 4).toNat w m) j =
            store u32 (sp - 4).toNat w m j := fun j hj _ =>
        pushAll_of_notMem (by omega) (by omega)
      rw [Nat.zero_add, Nat.mul_one, load_congr hlater, ← hsub, load_store, List.getElem_cons_zero]
    | succ i =>
      have hplace : sp.toNat - 4 * (i + 1 + 1) = (sp - 4).toNat - 4 * (i + 1) := by omega
      rw [List.getElem_cons_succ, hplace]
      exact ih (by omega) (by omega)

/-! ## Copying -/

/-- Copy `n` bytes from `s` to `d`, the first one first. -/
def copyUp : (n d s : Nat) → Mem → Mem
  | 0, _, _, m => m
  | n + 1, d, s, m => copyUp n (d + 1) (s + 1) (update m d (m s))

/-- Copy `n` bytes from `s` to `d`, the last one first. -/
def copyDown : (n d s : Nat) → Mem → Mem
  | 0, _, _, m => m
  | n + 1, d, s, m => copyDown n d s (update m (d + n) (m (s + n)))

/-- The memory `m'` is `m`, with the `n` bytes at `s` also at `d`. -/
structure Moved (m m' : Mem) (d s n : Nat) : Prop where
  inside : ∀ i, i < n → m' (d + i) = m (s + i)
  outside : ∀ a, a < d ∨ d + n ≤ a → m' a = m a

variable {n d s : Nat}

theorem copyUp_of_notMem (h : a < d ∨ d + n ≤ a) : copyUp n d s m a = m a := by
  induction n generalizing d s m with
  | zero => rfl
  | succ n ih => rw [copyUp, ih (by omega), update_of_ne (by omega)]

/-- When the source begins below the destination, every byte is copied from what is there in the
end. -/
theorem copyUp_eq_copyUp (h : s < d) {i : Nat} (hi : i < n) :
    copyUp n d s m (d + i) = copyUp n d s m (s + i) := by
  induction n generalizing d s m i with
  | zero => cases hi
  | succ n ih =>
    rw [copyUp]
    cases i with
    | zero =>
      rw [copyUp_of_notMem (by omega), copyUp_of_notMem (by omega), Nat.add_zero, Nat.add_zero,
        update_self, update_of_ne (by omega)]
    | succ i =>
      rw [← Nat.add_assoc, ← Nat.add_assoc, Nat.add_right_comm d, Nat.add_right_comm s]
      exact ih (by omega) (by omega)

/-- Upwards, when the source does not begin below the destination. -/
theorem copyUp_of_le (h : d ≤ s) {i : Nat} (hi : i < n) :
    copyUp n d s m (d + i) = m (s + i) := by
  induction n generalizing d s m i with
  | zero => cases hi
  | succ n ih =>
    rw [copyUp]
    cases i with
    | zero => rw [copyUp_of_notMem (by omega), Nat.add_zero, Nat.add_zero, update_self]
    | succ i =>
      have hnext := ih (m := update m d (m s)) (Nat.succ_le_succ h) (Nat.lt_of_succ_lt_succ hi)
      rw [update_of_ne (by omega)] at hnext
      rw [← Nat.add_assoc, ← Nat.add_assoc, Nat.add_right_comm d, Nat.add_right_comm s]
      exact hnext

/-- **Copying upwards** moves the bytes if and only if those that are overwritten before they are
read are what overwrites them. -/
theorem copyUp_moved_iff : Moved m (copyUp n d s m) d s n ↔
    (s < d → ∀ i, d + i < s + n → m (d + i) = m (s + i)) := by
  constructor
  · intro hm h i hi
    obtain ⟨j, hj, hjn⟩ : ∃ j, d + i = s + j ∧ j < n := ⟨d - s + i, by omega, by omega⟩
    calc m (d + i) = copyUp n d s m (d + j) := by rw [hj, hm.inside j hjn]
      _ = copyUp n d s m (d + i) := by rw [copyUp_eq_copyUp h hjn, ← hj]
      _ = m (s + i) := hm.inside i (by omega)
  · intro h
    refine ⟨fun i hi => ?_, fun a => copyUp_of_notMem⟩
    by_cases hsd : s < d
    · -- by strong induction: what is copied has been copied itself, or is not overwritten
      induction i using Nat.strong_induction_on with
      | _ i ih =>
        rw [copyUp_eq_copyUp hsd hi]
        by_cases hlt : s + i < d
        · exact copyUp_of_notMem (.inl hlt)
        · obtain ⟨k, hk⟩ := Nat.exists_eq_add_of_le (Nat.le_of_not_lt hlt)
          rw [hk, ih k (by omega) (by omega)]
          exact (h hsd k (by omega)).symm
    · exact copyUp_of_le (Nat.le_of_not_lt hsd) hi

/-- **Copying downwards** moves the bytes when the source begins below the destination. -/
theorem copyDown_moved (h : s < d) : Moved m (copyDown n d s m) d s n := by
  induction n generalizing m with
  | zero => exact ⟨nofun, fun _ _ => rfl⟩
  | succ n ih =>
    rw [copyDown]
    obtain ⟨hin, hout⟩ := ih (m := update m (d + n) (m (s + n)))
    refine ⟨fun i hi => ?_, fun a ha => ?_⟩
    · by_cases hn : i = n
      · rw [hn, hout _ (.inr le_rfl), update_self]
      · rw [hin i (by omega), update_of_ne (by omega)]
    · rw [hout a (by omega), update_of_ne (by omega)]

end Laboratorio.Memory
