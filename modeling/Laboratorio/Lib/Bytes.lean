import Mathlib

/-!
# Byte blocks and the values stored in them

A `Block n` is a block of `n` bytes. A `Codec α` lays out a value of type `α` in a fixed number of
bytes; `fetch` and `store` read and write such a value at an offset of a block. Two laws are all that
programs need: what is stored is what is fetched (`fetch_store`), and a store leaves alone every
value whose bytes
it does not touch (`fetch_store_of_disjoint`).

Layouts of structures are built from those of their fields: `Codec.pair`, `Codec.vec` and
`Codec.map`. The integers are little-endian.
-/

namespace Laboratorio.Bytes

variable {n : Nat} {α β : Type}

/-- A block of `n` bytes. -/
def Block (n : Nat) := Fin n → UInt8

namespace Block

/-- The byte at offset `i`, `0` past the end. -/
def byte (b : Block n) (i : Nat) : UInt8 := if h : i < n then b ⟨i, h⟩ else 0

/-- The block of zeros. -/
def zero : Block n := fun _ => 0

/-- Overwrite the `len` bytes at offset `off` by those of `f`. -/
def splice (b : Block n) (off len : Nat) (f : Nat → UInt8) : Block n :=
  fun i => if off ≤ (i : Nat) ∧ (i : Nat) < off + len then f (i - off) else b i

@[simp] theorem byte_zero (i : Nat) : (zero : Block n).byte i = 0 := by
  simp only [byte, zero]; split <;> rfl

theorem byte_splice_of_mem (b : Block n) {off len i : Nat} (f : Nat → UInt8) (h1 : off ≤ i)
    (h2 : i < off + len) (h3 : i < n) : (b.splice off len f).byte i = f (i - off) := by
  simp [byte, splice, h1, h2, h3]

theorem byte_splice_of_notMem (b : Block n) {off len i : Nat} (f : Nat → UInt8)
    (h : i < off ∨ off + len ≤ i) : (b.splice off len f).byte i = b.byte i := by
  simp only [byte, splice]
  split
  · rw [if_neg (by omega)]
  · rfl

end Block

/-- A layout of the values of `α` in `size` bytes. -/
structure Codec (α : Type) where
  size : Nat
  enc : α → Nat → UInt8
  dec : (Nat → UInt8) → α
  dec_enc : ∀ a f, (∀ i < size, f i = enc a i) → dec f = a
  dec_congr : ∀ f g, (∀ i < size, f i = g i) → dec f = dec g

/-! ## Reading and writing a value -/

/-- The value at offset `off`. -/
def fetch (c : Codec α) (off : Nat) (b : Block n) : α := c.dec (fun i => b.byte (off + i))

/-- Store a value at offset `off`. -/
def store (c : Codec α) (off : Nat) (a : α) (b : Block n) : Block n := b.splice off c.size (c.enc a)

theorem fetch_store (c : Codec α) (off : Nat) (a : α) (b : Block n) (h : off + c.size ≤ n) :
    fetch c off (store c off a b) = a := by
  apply c.dec_enc
  intro i hi
  rw [store, Block.byte_splice_of_mem b (c.enc a) (by omega) (by omega) (by omega)]
  congr 1; omega

theorem fetch_store_of_disjoint (c : Codec α) (c' : Codec β) (off off' : Nat) (a : α) (b : Block n)
    (h : off + c.size ≤ off' ∨ off' + c'.size ≤ off) :
    fetch c' off' (store c off a b) = fetch c' off' b := by
  apply c'.dec_congr
  intro i hi
  exact Block.byte_splice_of_notMem b (c.enc a) (by omega)

/-- An array of values: storing one leaves the others. -/
theorem fetch_store_index (c : Codec α) (base i j : Nat) (a : α) (b : Block n)
    (h : base + c.size * i + c.size ≤ n) :
    fetch c (base + c.size * j) (store c (base + c.size * i) a b) =
      if j = i then a else fetch c (base + c.size * j) b := by
  split
  · next hji => subst hji; exact fetch_store c _ a b h
  · next hji =>
    apply fetch_store_of_disjoint
    rcases Nat.lt_or_gt_of_ne hji with hlt | hgt
    · have := Nat.mul_le_mul_left c.size hlt
      rw [Nat.mul_succ] at this
      omega
    · have := Nat.mul_le_mul_left c.size hgt
      rw [Nat.mul_succ] at this
      omega

/-! ## Layouts of integers -/

/-- A 32-bit word. -/
def u32 : Codec UInt32 where
  size := 4
  enc w i := UInt8.ofNat (w.toNat / 256 ^ i)
  dec f := UInt32.ofNat
    ((f 0).toNat + 256 * (f 1).toNat + 65536 * (f 2).toNat + 16777216 * (f 3).toNat)
  dec_enc w f h := by
    have h0 := h 0 (by omega)
    have h1 := h 1 (by omega)
    have h2 := h 2 (by omega)
    have h3 := h 3 (by omega)
    have hw : w.toNat < 2 ^ 32 := w.toNat_lt
    apply UInt32.toNat_inj.mp
    simp only [h0, h1, h2, h3, UInt8.toNat_ofNat', UInt32.toNat_ofNat']
    omega
  dec_congr f g h := by
    simp only [h 0 (by omega), h 1 (by omega), h 2 (by omega), h 3 (by omega)]

/-- A 16-bit word. -/
def u16 : Codec UInt16 where
  size := 2
  enc w i := UInt8.ofNat (w.toNat / 256 ^ i)
  dec f := UInt16.ofNat ((f 0).toNat + 256 * (f 1).toNat)
  dec_enc w f h := by
    have h0 := h 0 (by omega)
    have h1 := h 1 (by omega)
    have hw : w.toNat < 2 ^ 16 := w.toNat_lt
    apply UInt16.toNat_inj.mp
    simp only [h0, h1, UInt8.toNat_ofNat', UInt16.toNat_ofNat']
    omega
  dec_congr f g h := by
    simp only [h 0 (by omega), h 1 (by omega)]

/-! ## Layouts of structures -/

/-- The same bytes read as another type. -/
def Codec.map (c : Codec α) (e : α ≃ β) : Codec β where
  size := c.size
  enc b := c.enc (e.symm b)
  dec f := e (c.dec f)
  dec_enc b f h := by rw [c.dec_enc (e.symm b) f h, e.apply_symm_apply]
  dec_congr f g h := by rw [c.dec_congr f g h]

/-- One value after another. -/
def Codec.pair (c : Codec α) (c' : Codec β) : Codec (α × β) where
  size := c.size + c'.size
  enc p i := if i < c.size then c.enc p.1 i else c'.enc p.2 (i - c.size)
  dec f := (c.dec f, c'.dec (fun i => f (c.size + i)))
  dec_enc p f h := by
    refine Prod.ext (c.dec_enc p.1 f fun i hi => ?_) (c'.dec_enc p.2 _ fun i hi => ?_)
    · rw [h i (by omega), if_pos hi]
    · rw [h (c.size + i) (by omega), if_neg (by omega)]
      congr 1; omega
  dec_congr f g h := by
    rw [c.dec_congr f g (fun i hi => h i (by omega)),
      c'.dec_congr _ (fun i => g (c.size + i)) (fun i hi => h (c.size + i) (by omega))]

/-- An array of `k` values. -/
def Codec.vec (c : Codec α) (k : Nat) : Codec (Fin k → α) where
  size := c.size * k
  enc v i := if h : i / c.size < k then c.enc (v ⟨i / c.size, h⟩) (i % c.size) else 0
  dec f := fun j => c.dec (fun i => f (c.size * j + i))
  dec_enc v f h := by
    funext j
    apply c.dec_enc
    intro i hi
    have hj := j.isLt
    have hle : c.size * j + c.size ≤ c.size * k := by
      have := Nat.mul_le_mul_left c.size hj
      rwa [Nat.mul_succ] at this
    have hdiv : (c.size * j + i) / c.size = j := by
      rw [Nat.mul_add_div (by omega), Nat.div_eq_of_lt hi, Nat.add_zero]
    rw [h (c.size * j + i) (by omega)]
    simp only [hdiv, hj, ↓reduceDIte, Nat.mul_add_mod_self_left, Nat.mod_eq_of_lt hi]
  dec_congr f g h := by
    funext j
    apply c.dec_congr
    intro i hi
    apply h
    have := Nat.mul_le_mul_left c.size j.isLt
    rw [Nat.mul_succ] at this
    omega

/-! ## Arrays in a list of bytes -/

/-- The data of a file after `bytes` have been written at `off`. -/
def writeData (data : List UInt8) (off : Nat) (bytes : List UInt8) : List UInt8 :=
  data.take off ++ bytes ++ data.drop (off + bytes.length)

theorem length_writeData {data : List UInt8} {off : Nat} (bytes : List UInt8)
    (h : off ≤ data.length) :
    (writeData data off bytes).length = max data.length (off + bytes.length) := by
  simp only [writeData, List.length_append, List.length_take, List.length_drop]
  omega

theorem getD_writeData {data : List UInt8} {off : Nat} (bytes : List UInt8)
    (h : off ≤ data.length) (j : Nat) :
    (writeData data off bytes).getD j 0 =
      if off ≤ j ∧ j < off + bytes.length then bytes.getD (j - off) 0 else data.getD j 0 := by
  have htake : (data.take off).length = off := by rw [List.length_take, Nat.min_eq_left h]
  simp only [List.getD_eq_getElem?_getD, writeData]
  by_cases h1 : j < off
  · rw [if_neg (by omega), List.append_assoc, List.getElem?_append_left (by omega),
      List.getElem?_take_of_lt h1]
  · by_cases h2 : j < off + bytes.length
    · rw [if_pos ⟨by omega, h2⟩,
        List.getElem?_append_left (by rw [List.length_append]; omega),
        List.getElem?_append_right (by omega), htake]
    · rw [if_neg (by omega), List.getElem?_append_right (by rw [List.length_append]; omega),
        List.length_append, htake, List.getElem?_drop]
      congr 2
      omega

theorem writeData_nil (data : List UInt8) (off : Nat) : writeData data off [] = data := by
  simp [writeData]

/-- A write behind the bytes of another one makes one write with it. -/
theorem writeData_writeData {data : List UInt8} {off : Nat} (bs cs : List UInt8)
    (h : off ≤ data.length) :
    writeData (writeData data off bs) (off + bs.length) cs = writeData data off (bs ++ cs) := by
  have hlen : (data.take off ++ bs).length = off + bs.length := by
    rw [List.length_append, List.length_take, Nat.min_eq_left h]
  have hdrop : ((data.take off ++ bs) ++ data.drop (off + bs.length)).drop
      (off + bs.length + cs.length) = (data.drop (off + bs.length)).drop cs.length := by
    rw [← hlen]
    exact List.drop_length_add_append _
  unfold writeData
  rw [List.take_left' hlen, hdrop, List.drop_drop, List.length_append, Nat.add_assoc,
    List.append_assoc (data.take off)]

/-- The values of an array that fills `data`. -/
def Codec.items (c : Codec α) (data : List UInt8) : List α :=
  (List.range (data.length / c.size)).map fun k => c.dec fun i => data.getD (c.size * k + i) 0

theorem Codec.length_items (c : Codec α) (data : List UInt8) :
    (c.items data).length = data.length / c.size := by
  rw [Codec.items, List.length_map, List.length_range]

theorem Codec.getElem?_items (c : Codec α) (data : List UInt8) (j : Nat) :
    (c.items data)[j]? = if j < data.length / c.size then
      some (c.dec fun i => data.getD (c.size * j + i) 0) else none := by
  rw [Codec.items, List.getElem?_map]
  split
  · next h => rw [List.getElem?_range h, Option.map_some]
  · next h => rw [List.getElem?_eq_none (by simpa using h), Option.map_none]

/-- Writing a value over another one, or at the end. -/
theorem Codec.getElem?_items_writeData (c : Codec α) {data : List UInt8} {k : Nat}
    (bytes : List UInt8) (h0 : 0 < c.size) (hmod : data.length % c.size = 0)
    (hk : k ≤ (c.items data).length) (hlen : bytes.length = c.size) (j : Nat) :
    (c.items (writeData data (c.size * k) bytes))[j]? =
      if j = k then some (c.dec fun i => bytes.getD i 0) else (c.items data)[j]? := by
  obtain ⟨m, hm⟩ : ∃ m, data.length = c.size * m := Nat.dvd_of_mod_eq_zero hmod
  rw [c.length_items, hm, Nat.mul_div_cancel_left _ h0] at hk
  have hoff : c.size * k ≤ data.length := hm ▸ Nat.mul_le_mul_left _ hk
  have hnew : (writeData data (c.size * k) bytes).length = c.size * max m (k + 1) := by
    rw [length_writeData _ hoff, hlen, hm, ← Nat.mul_succ, Nat.mul_max_mul_left]
  rw [getElem?_items, getElem?_items, hnew, hm, Nat.mul_div_cancel_left _ h0,
    Nat.mul_div_cancel_left _ h0]
  by_cases hj : j = k
  · subst hj
    rw [if_pos rfl, if_pos (by omega)]
    congr 1
    apply c.dec_congr
    intro i hi
    rw [getD_writeData _ hoff, if_pos ⟨by omega, by omega⟩, Nat.add_sub_cancel_left]
  · have hsame : ∀ i < c.size,
        (writeData data (c.size * k) bytes).getD (c.size * j + i) 0 =
          data.getD (c.size * j + i) 0 := by
      intro i hi
      rw [getD_writeData _ hoff, if_neg]
      rintro ⟨h1, h2⟩
      rw [hlen] at h2
      have hlt : ∀ {x y}, x < y → c.size * x + c.size ≤ c.size * y := fun h => by
        rw [← Nat.mul_succ]
        exact Nat.mul_le_mul_left _ h
      rcases Nat.lt_or_gt_of_ne hj with h | h
      · have := hlt h
        omega
      · have := hlt h
        omega
    rw [if_neg hj, c.dec_congr _ _ hsame]
    split
    · rw [if_pos (by omega)]
    · rw [if_neg (by omega)]

end Laboratorio.Bytes
