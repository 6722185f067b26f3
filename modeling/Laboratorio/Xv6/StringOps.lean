import Laboratorio.Lib.Memory

/-!
# Moving and filling memory (`xv6/string.c`, `xv6/ulib.c`)

There are two functions `memmove`. The one of the kernel copies downwards when the destination begins
inside the source; the one of user programs always copies upwards. `memmove_moved` says that the
first one always moves the bytes, and when the second one does.

Pointers are 32-bit words, and a loop `while(n-- > 0)` makes as many rounds as `n` says.
-/

namespace Laboratorio.Xv6.StringOps

open Function Laboratorio.Bytes Laboratorio.Memory

/-- `while(n-- > 0) *d++ = *s++;` -/
def forward : Nat → (d s : UInt32) → Mem → Mem
  | 0, _, _, m => m
  | n + 1, d, s, m => forward n (d + 1) (s + 1) (update m d.toNat (m s.toNat))

/-- `while(n-- > 0) *--d = *--s;` -/
def backward : Nat → (d s : UInt32) → Mem → Mem
  | 0, _, _, m => m
  | n + 1, d, s, m =>
    backward n (d - 1) (s - 1) (update m (d - 1).toNat (m (s - 1).toNat))

/-- `memmove` of `string.c` -/
def Kernel.memmove (dst src n : UInt32) (m : Mem) : Mem :=
  if src < dst ∧ src + n > dst then backward n.toNat (dst + n) (src + n) m
  else forward n.toNat dst src m

/-- `memmove` of `ulib.c` -/
def Ulib.memmove (vdst vsrc : UInt32) (n : Int32) (m : Mem) : Mem :=
  forward n.toInt.toNat vdst vsrc m

/-- `rep stosb` -/
def stosb : (cnt : Nat) → (addr data : UInt32) → Mem → Mem
  | 0, _, _, m => m
  | cnt + 1, addr, data, m => stosb cnt (addr + 1) data (update m addr.toNat data.toUInt8)

/-- `rep stosl` -/
def stosl : (cnt : Nat) → (addr data : UInt32) → Mem → Mem
  | 0, _, _, m => m
  | cnt + 1, addr, data, m => stosl cnt (addr + 4) data (Memory.store u32 addr.toNat data m)

/-- `memset` -/
def memset (dst c n : UInt32) (m : Mem) : Mem :=
  if dst % 4 = 0 ∧ n % 4 = 0 then
    let c := c &&& 0xFF
    stosl (n / 4).toNat dst (c <<< 24 ||| c <<< 16 ||| c <<< 8 ||| c) m
  else stosb n.toNat dst c m

variable {m : Mem} {d s : UInt32} {n : Nat}

/-! ## `memmove` -/

/-- Without wrap-around, pointers count like numbers. -/
theorem forward_eq (hd : d.toNat + n ≤ 2 ^ 32) (hs : s.toNat + n ≤ 2 ^ 32) :
    forward n d s m = copyUp n d.toNat s.toNat m := by
  induction n generalizing d s m with
  | zero => rfl
  | succ n ih =>
    rw [forward, copyUp]
    cases n with
    | zero => rfl
    | succ n =>
      have hd' : (d + 1).toNat = d.toNat + 1 := by
        rw [UInt32.toNat_add, UInt32.toNat_one]
        omega
      have hs' : (s + 1).toNat = s.toNat + 1 := by
        rw [UInt32.toNat_add, UInt32.toNat_one]
        omega
      rw [ih (by omega) (by omega), hd', hs']

/-- The last byte of a range, also when that is the last one of the memory. -/
theorem ofNat_succ_sub_one (h : n < 2 ^ 32) :
    UInt32.ofNat (n + 1) - 1 = UInt32.ofNat n ∧ (UInt32.ofNat n).toNat = n := by
  have hn : (UInt32.ofNat n).toNat = n := UInt32.toNat_ofNat_of_lt' h
  refine ⟨UInt32.toNat_inj.mp ?_, hn⟩
  rw [hn, UInt32.toNat_sub, UInt32.toNat_ofNat', UInt32.toNat_one]
  omega

theorem backward_eq {d s : Nat} (hd : d + n ≤ 2 ^ 32) (hs : s + n ≤ 2 ^ 32) :
    backward n (UInt32.ofNat (d + n)) (UInt32.ofNat (s + n)) m = copyDown n d s m := by
  induction n generalizing m with
  | zero => rfl
  | succ n ih =>
    obtain ⟨hdlast, hdnat⟩ := ofNat_succ_sub_one (n := d + n) (by omega)
    obtain ⟨hslast, hsnat⟩ := ofNat_succ_sub_one (n := s + n) (by omega)
    rw [backward, copyDown, ← Nat.add_assoc, ← Nat.add_assoc, hdlast, hslast, hdnat, hsnat]
    exact ih (by omega) (by omega)

/-- `memmove` of the kernel moves the bytes. -/
theorem Kernel.moved {n : UInt32} (hd : d.toNat + n.toNat ≤ 2 ^ 32)
    (hs : s.toNat + n.toNat ≤ 2 ^ 32) :
    Moved m (Kernel.memmove d s n m) d.toNat s.toNat n.toNat := by
  unfold Kernel.memmove
  split
  · next h =>
    have hend : ∀ p : UInt32, p + n = UInt32.ofNat (p.toNat + n.toNat) := fun p => by
      rw [UInt32.ofNat_add, UInt32.ofNat_toNat, UInt32.ofNat_toNat]
    rw [hend, hend, backward_eq hd hs]
    exact copyDown_moved h.1
  · next h =>
    rw [forward_eq hd hs, copyUp_moved_iff]
    intro hlt i hi
    -- the source ends below the destination
    refine absurd ⟨hlt, ?_⟩ h
    show d.toNat < (s + n).toNat
    rw [UInt32.toNat_add]
    omega

/-- **`memmove`** of the kernel moves the bytes, for all ranges that do not wrap around. That of user
programs does so if and only if the destination does not begin inside the source, or the bytes in
both ranges repeat. -/
theorem memmove_moved (m : Mem) (dst src : UInt32) :
    (∀ n : UInt32, dst.toNat + n.toNat ≤ 2 ^ 32 → src.toNat + n.toNat ≤ 2 ^ 32 →
      Moved m (Kernel.memmove dst src n m) dst.toNat src.toNat n.toNat) ∧
    ∀ n : Int32, dst.toNat + n.toInt.toNat ≤ 2 ^ 32 → src.toNat + n.toInt.toNat ≤ 2 ^ 32 →
      (Moved m (Ulib.memmove dst src n m) dst.toNat src.toNat n.toInt.toNat ↔
        (src < dst → ∀ i, dst.toNat + i < src.toNat + n.toInt.toNat →
          m (dst.toNat + i) = m (src.toNat + i))) := by
  refine ⟨fun n hd hs => Kernel.moved hd hs, fun n hd hs => ?_⟩
  unfold Ulib.memmove
  rw [forward_eq hd hs, copyUp_moved_iff]
  rfl

/-- Both functions move two bytes to the address before. -/
theorem memmove_moved_below :
    Moved UInt8.ofNat (Kernel.memmove 4095 4096 2 UInt8.ofNat) 4095 4096 2 ∧
      Moved UInt8.ofNat (Ulib.memmove 4095 4096 2 UInt8.ofNat) 4095 4096 2 :=
  ⟨(memmove_moved UInt8.ofNat 4095 4096).1 2 (by decide) (by decide),
    ((memmove_moved UInt8.ofNat 4095 4096).2 2 (by decide) (by decide)).mpr
      fun h => absurd h (by decide)⟩

/-- Two bytes are moved to the next address: user programs get the first one twice. -/
theorem ulib_memmove_repeats :
    Moved UInt8.ofNat (Kernel.memmove 4097 4096 2 UInt8.ofNat) 4097 4096 2 ∧
      ¬ Moved UInt8.ofNat (Ulib.memmove 4097 4096 2 UInt8.ofNat) 4097 4096 2 := by
  refine ⟨Kernel.moved (by decide) (by decide), fun h => ?_⟩
  have hlast : Ulib.memmove 4097 4096 2 UInt8.ofNat 4098 = UInt8.ofNat 4097 := h.inside 1 (by decide)
  exact absurd hlast (by decide)

/-! ## `memset` -/

theorem stosb_zero (hd : d.toNat + n ≤ 2 ^ 32) (a : Nat) :
    stosb n d 0 m a = if d.toNat ≤ a ∧ a < d.toNat + n then 0 else m a := by
  induction n generalizing d m with
  | zero => rw [stosb, if_neg (by omega)]
  | succ n ih =>
    rw [stosb]
    cases n with
    | zero =>
      rw [stosb, update_apply]
      exact if_congr (by omega) rfl rfl
    | succ n =>
      have hd' : (d + 1).toNat = d.toNat + 1 := by
        rw [UInt32.toNat_add, UInt32.toNat_one]
        omega
      rw [ih (by omega), hd', update_apply, show UInt32.toUInt8 0 = 0 from rfl]
      grind

theorem stosl_zero (hd : d.toNat + 4 * n ≤ 2 ^ 32) (a : Nat) :
    stosl n d 0 m a = if d.toNat ≤ a ∧ a < d.toNat + 4 * n then 0 else m a := by
  have hstore : ∀ (d : Nat) (m : Mem), Memory.store u32 d 0 m a =
      if d ≤ a ∧ a < d + 4 then 0 else m a := fun d m => by
    simp [Memory.store, u32]
  induction n generalizing d m with
  | zero => rw [stosl, if_neg (by omega)]
  | succ n ih =>
    rw [stosl]
    cases n with
    | zero => rw [stosl, hstore]
    | succ n =>
      have hd' : (d + 4).toNat = d.toNat + 4 := by
        rw [UInt32.toNat_add, show (4 : UInt32).toNat = 4 from rfl]
        omega
      rw [ih (by omega), hd', hstore]
      grind

/-- `memset` with zeros clears the bytes, word by word or byte by byte. -/
theorem memset_zero {n : UInt32} (hd : d.toNat + n.toNat ≤ 2 ^ 32) (a : Nat) :
    memset d 0 n m a = if d.toNat ≤ a ∧ a < d.toNat + n.toNat then 0 else m a := by
  unfold memset
  split
  · next h =>
    have hn : 4 * (n / 4).toNat = n.toNat := by
      have hmod : n.toNat % 4 = 0 := by
        rw [show 4 = (4 : UInt32).toNat from rfl, ← UInt32.toNat_mod, h.2]
        rfl
      rw [UInt32.toNat_div, show (4 : UInt32).toNat = 4 from rfl]
      omega
    rw [← hn] at hd ⊢
    exact stosl_zero hd a
  · exact stosb_zero hd a

end Laboratorio.Xv6.StringOps
