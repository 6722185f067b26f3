import Mathlib

/-!
# Printing a number (`xv6/printf.c`, `xv6/console.c`)

Both functions `printint` write the digits of a number into a buffer of 16 bytes, the last one first,
and then print the buffer backwards. A write past the buffer makes the result `none`.

`Numeral` says what a numeral of an integer is, and `printint_exact` that both functions print it.
-/

namespace Laboratorio.Xv6.Printint

/-! ## The functions -/

/-- The size of `buf` -/
def bufSize : Nat := 16

/-- `buf[i++] = c` -/
def put (buf : List Char) (c : Char) : Option (List Char) :=
  if buf.length < bufSize then some (buf ++ [c]) else none

/-- `do buf[i++] = digits[x % base]; while((x /= base) != 0);`, with room for so many digits -/
def digitLoop (digits : List Char) (base : UInt32) : (room : Nat) → UInt32 → List Char →
    Option (List Char)
  | 0, _, _ => none
  | room + 1, x, buf =>
    let buf := buf ++ [digits.getD (x % base).toNat '\x00']
    if x / base ≠ 0 then digitLoop digits base room (x / base) buf else some buf

/-- What both functions do once they know `x` and whether there is a sign. -/
def printDigits (digits : List Char) (base x : UInt32) (neg : Bool) : Option (List Char) := do
  let buf ← digitLoop digits base bufSize x []
  let buf ← if neg then put buf '-' else some buf
  return buf.reverse

/-- `digits` of `printf.c` -/
def upper : List Char := "0123456789ABCDEF".toList

/-- `digits` of `console.c` -/
def lower : List Char := "0123456789abcdef".toList

/-- `printint` of `printf.c`: the characters that it gives to `putc` -/
def Printf.printint (xx : Int32) (base : UInt32) (sgn : Bool) : Option (List Char) :=
  if sgn = true ∧ xx < 0 then printDigits upper base (-xx).toUInt32 true
  else printDigits upper base xx.toUInt32 false

/-- `printint` of `console.c`: the characters that it gives to `consputc` -/
def Console.printint (xx : Int32) (base : UInt32) (sign : Bool) : Option (List Char) :=
  -- `sign` is assigned only when it is not 0
  let sign := if sign then decide (xx < 0) else sign
  let x := if sign then (-xx).toUInt32 else xx.toUInt32
  printDigits lower base x sign

/-! ## Numerals -/

/-- The value of a digit. -/
def digitVal (c : Char) : Nat :=
  if c ≤ '9' then c.toNat - '0'.toNat
  else if c ≤ 'F' then c.toNat - 'A'.toNat + 10
  else c.toNat - 'a'.toNat + 10

/-- The number that some digits denote. -/
def readNat (base : Nat) (ds : List Char) : Nat := ds.foldl (fun n c => n * base + digitVal c) 0

/-- The number that is read from digits that may have a sign. -/
def read (base : Nat) : List Char → Int
  | '-' :: ds => -readNat base ds
  | ds => readNat base ds

/-- The text `out` is the numeral of `v`: a sign if `v` is negative, digits, and no leading zeros. -/
structure Numeral (base : Nat) (v : Int) (out : List Char) : Prop where
  shape : ∃ ds, out = (if v < 0 then '-' :: ds else ds) ∧ ds ≠ [] ∧
    (∀ c ∈ ds, c ∈ (lower ++ upper) ∧ digitVal c < base) ∧ (ds.head? = some '0' → ds = ['0'])
  value : read base out = v

/-- The ways in which `printint` is called. -/
inductive Format where
  /-- `%d` -/
  | dec
  /-- `%x` and `%p` -/
  | hex

def Format.base : Format → UInt32
  | .dec => 10
  | .hex => 16

def Format.signed : Format → Bool
  | .dec => true
  | .hex => false

/-- The number that is meant. -/
def Format.value : Format → Int32 → Int
  | .dec, xx => xx.toInt
  | .hex, xx => xx.toUInt32.toNat

/-! ## The digits -/

/-- The digits of a number, the last one first; 0 has one digit. -/
def digitsOf (base x : Nat) : List Nat := if x = 0 then [0] else base.digits x

theorem digitsOf_of_div_ne_zero {b x : Nat} (hb : 1 < b) (h : x / b ≠ 0) :
    digitsOf b x = x % b :: digitsOf b (x / b) := by
  have hx : x ≠ 0 := by
    rintro rfl
    exact h (Nat.zero_div b)
  rw [digitsOf, if_neg hx, digitsOf, if_neg h, Nat.digits_def' hb (Nat.pos_of_ne_zero hx)]

theorem digitsOf_of_lt {b x : Nat} (h : x < b) : digitsOf b x = [x] := by
  unfold digitsOf
  split
  · next hx => rw [hx]
  · next hx => exact Nat.digits_of_lt b x hx h

/-- The loop writes the digits, if there is room for them. -/
theorem digitLoop_eq (digits : List Char) {base : UInt32} (hb : 1 < base.toNat) {room : Nat}
    {x : UInt32} (hx : x.toNat < base.toNat ^ room) (buf : List Char) :
    digitLoop digits base (room + 1) x buf =
      some (buf ++ (digitsOf base.toNat x.toNat).map fun d => digits.getD d '\x00') := by
  induction room generalizing x buf with
  | zero =>
    have hzero : x = 0 := UInt32.toNat_inj.mp (Nat.lt_one_iff.mp hx)
    subst hzero
    rw [digitLoop, UInt32.zero_div, UInt32.zero_mod]
    rfl
  | succ room ih =>
    have hne : x / base ≠ 0 ↔ x.toNat / base.toNat ≠ 0 := by
      rw [← UInt32.toNat_div, ne_eq, ne_eq, ← UInt32.toNat_inj]
      rfl
    rw [digitLoop]
    split
    · next h =>
      have hdiv : (x / base).toNat < base.toNat ^ room := by
        rw [UInt32.toNat_div]
        exact Nat.div_lt_of_lt_mul (by rw [← Nat.pow_succ']; exact hx)
      rw [ih hdiv, digitsOf_of_div_ne_zero hb (hne.mp h), List.map_cons, UInt32.toNat_div,
        UInt32.toNat_mod, List.append_assoc, List.singleton_append]
    · next h =>
      have hlt : x.toNat < base.toNat :=
        (Nat.div_eq_zero_iff_lt (by omega)).mp (not_not.mp (h ∘ hne.mpr))
      rw [digitsOf_of_lt hlt, UInt32.toNat_mod, Nat.mod_eq_of_lt hlt, List.map_singleton]

variable {b x : Nat}

theorem digitsOf_lt (hb : 1 < b) {d : Nat} (hd : d ∈ digitsOf b x) : d < b := by
  unfold digitsOf at hd
  split at hd
  · rw [List.mem_singleton.mp hd]
    omega
  · exact Nat.digits_lt_base hb hd

theorem length_digitsOf_le (hb : 1 < b) {k : Nat} (hx : x < b ^ (k + 1)) :
    (digitsOf b x).length ≤ k + 1 := by
  unfold digitsOf
  split
  · exact Nat.succ_le_succ (Nat.zero_le k)
  · exact (Nat.digits_length_le_iff hb x).mpr hx

theorem ofDigits_digitsOf : Nat.ofDigits b (digitsOf b x) = x := by
  unfold digitsOf
  split
  · next hx => rw [Nat.ofDigits_singleton, hx]
  · exact Nat.ofDigits_digits b x

/-- Only the number 0 begins with the digit 0. -/
theorem digitsOf_of_getLast? (h : (digitsOf b x).getLast? = some 0) : digitsOf b x = [0] := by
  unfold digitsOf at h ⊢
  split at h
  · next hx => rw [if_pos hx]
  · next hx =>
    rw [List.getLast?_eq_some_getLast (Nat.digits_ne_nil_iff_ne_zero.mpr hx)] at h
    exact absurd (Option.some.inj h) (Nat.getLast_digit_ne_zero b hx)

/-! ## The texts -/

/-- What is used of the two tables of digits. -/
structure Table (digits : List Char) : Prop where
  mem : ∀ d < 16, digits.getD d '\x00' ∈ lower ++ upper
  val : ∀ d < 16, digitVal (digits.getD d '\x00') = d
  ne : ∀ d < 16, digits.getD d '\x00' ≠ '-'

theorem table_lower : Table lower := ⟨by decide, by decide, by decide⟩

theorem table_upper : Table upper := ⟨by decide, by decide, by decide⟩

theorem toUpper_lower : ∀ d < 16, (lower.getD d '\x00').toUpper = upper.getD d '\x00' := by decide

/-- The digits as they are printed. -/
def text (digits : List Char) (b x : Nat) : List Char :=
  ((digitsOf b x).map fun d => digits.getD d '\x00').reverse

variable {digits : List Char}

theorem readNat_eq (ds : List Char) :
    readNat b ds = Nat.ofDigits b (ds.reverse.map digitVal) := by
  rw [readNat, Nat.ofDigits_eq_foldr, List.foldr_map, List.foldr_reverse]
  congr 1
  funext n c
  rw [Nat.cast_id, Nat.mul_comm, Nat.add_comm]

theorem readNat_text (ht : Table digits) (hb : 1 < b) (h16 : b ≤ 16) :
    readNat b (text digits b x) = x := by
  have hval : (digitsOf b x).map (digitVal ∘ fun d => digits.getD d '\x00') = digitsOf b x := by
    refine (List.map_congr_left fun d hd => ?_).trans (List.map_id _)
    exact ht.val d ((digitsOf_lt hb hd).trans_le h16)
  rw [readNat_eq, text, List.reverse_reverse, List.map_map, hval, ofDigits_digitsOf]

theorem text_ne_nil : text digits b x ≠ [] := by
  unfold text digitsOf
  split
  · exact List.cons_ne_nil _ _
  · next hx => simpa using Nat.digits_ne_nil_iff_ne_zero.mpr hx

/-- The text of a number is its numeral, with a sign before it or without. -/
theorem numeral_text (ht : Table digits) (hb : 1 < b) (h16 : b ≤ 16) {v : Int}
    (hv : v.natAbs = x) : Numeral b v (if v < 0 then '-' :: text digits b x else text digits b x) := by
  have hlt : ∀ d ∈ digitsOf b x, d < b := fun d => digitsOf_lt hb
  refine ⟨⟨_, rfl, text_ne_nil, fun c hc => ?_, fun h => ?_⟩, ?_⟩
  · obtain ⟨d, hd, rfl⟩ := List.mem_map.mp (List.mem_reverse.mp hc)
    have h := hlt d hd
    exact ⟨ht.mem d (by omega), by rw [ht.val d (by omega)]; exact h⟩
  · rw [text, List.head?_reverse, List.getLast?_map, Option.map_eq_some_iff] at h
    obtain ⟨d, hd, hzero⟩ := h
    have hd0 : d = 0 := by
      have := hlt d (List.mem_of_getLast? hd)
      rw [← ht.val d (by omega), hzero]
      rfl
    rw [hd0] at hd hzero
    rw [text, digitsOf_of_getLast? hd, List.map_singleton, hzero]
    rfl
  · split
    · next hneg =>
      rw [read, readNat_text ht hb h16]
      omega
    · next hpos =>
      have hread : read b (text digits b x) = readNat b (text digits b x) := by
        unfold read
        split
        · next ds he =>
          -- no digit is a sign
          have hmem : '-' ∈ text digits b x := by
            rw [he]
            exact List.mem_cons_self
          obtain ⟨d, hd, hsign⟩ := List.mem_map.mp (List.mem_reverse.mp hmem)
          exact absurd hsign (ht.ne d ((hlt d hd).trans_le h16))
        · rfl
      rw [hread, readNat_text ht hb h16]
      omega

/-- What is printed after `x` has been computed. -/
theorem printDigits_eq {base : UInt32} (hb : 9 < base.toNat) {x : UInt32} {neg : Bool} :
    printDigits digits base x neg =
      some (if neg then '-' :: text digits base.toNat x.toNat else text digits base.toNat x.toNat) := by
  have hx : x.toNat < base.toNat ^ 10 :=
    x.toNat_lt.trans (lt_of_lt_of_le (by decide) (Nat.pow_le_pow_left (by omega : 10 ≤ base.toNat) 10))
  have hlen := length_digitsOf_le (by omega) hx
  have hloop := digitLoop_eq digits (by omega)
    (hx.trans_le (Nat.pow_le_pow_right (by omega) (by decide : 10 ≤ 15))) []
  rw [printDigits, show bufSize = 15 + 1 from rfl, hloop, List.nil_append]
  cases neg with
  | false => rfl
  | true =>
    have hput : ∀ buf : List Char, buf.length ≤ 10 → put buf '-' = some (buf ++ ['-']) :=
      fun buf h => if_pos (h.trans_lt (by decide))
    simp [hput, hlen, text]

/-! ## Both functions -/

/-- The bits of a number, read without the sign. -/
theorem toInt_eq (xx : Int32) : xx.toInt =
    if xx.toUInt32.toNat < 2 ^ 31 then (xx.toUInt32.toNat : Int) else xx.toUInt32.toNat - 2 ^ 32 := by
  have hcond := BitVec.toInt_eq_toNat_cond xx.toBitVec
  rw [show xx.toBitVec.toNat = xx.toUInt32.toNat from rfl, Int32.toInt_toBitVec] at hcond
  rw [hcond]
  exact if_congr (by omega) rfl rfl

/-- What is computed before the digits: whether there is a sign, and the absolute value, which is
right for the most negative number too. -/
theorem Format.split (f : Format) (xx : Int32) :
    ((f.signed = true ∧ xx < 0) ∧ f.value xx < 0 ∧
      (-xx).toUInt32.toNat = (f.value xx).natAbs) ∨
    (¬ (f.signed = true ∧ xx < 0) ∧ ¬ f.value xx < 0 ∧
      xx.toUInt32.toNat = (f.value xx).natAbs) := by
  cases f with
  | hex => exact .inr ⟨nofun, not_lt.mpr (Int.natCast_nonneg _), rfl⟩
  | dec =>
    have hint := toInt_eq xx
    have hbits := xx.toUInt32.toNat_lt
    have hlt : xx < 0 ↔ xx.toInt < 0 := Int32.lt_iff_toInt_lt
    rw [Format.signed, Format.value, hlt]
    by_cases hneg : xx.toInt < 0
    · refine .inl ⟨⟨rfl, hneg⟩, hneg, ?_⟩
      rw [Int32.toUInt32_neg, UInt32.toNat_neg, show UInt32.size = 2 ^ 32 from rfl]
      split at hint <;> omega
    · refine .inr ⟨fun h => hneg h.2, hneg, ?_⟩
      split at hint <;> omega

theorem Format.base_bounds (f : Format) : 9 < f.base.toNat ∧ f.base.toNat ≤ 16 := by
  cases f <;> decide

/-- The numeral of a number. -/
def numeral (digits : List Char) (f : Format) (v : Int) : List Char :=
  if v < 0 then '-' :: text digits f.base.toNat v.natAbs else text digits f.base.toNat v.natAbs

variable (f : Format) (xx : Int32)

theorem printDigits_numeral :
    (if f.signed = true ∧ xx < 0 then printDigits digits f.base (-xx).toUInt32 true
      else printDigits digits f.base xx.toUInt32 false) = some (numeral digits f (f.value xx)) := by
  unfold numeral
  rcases f.split xx with ⟨hneg, hv, habs⟩ | ⟨hpos, hv, habs⟩
  · rw [if_pos hneg, if_pos hv, printDigits_eq f.base_bounds.1, habs, if_pos rfl]
  · rw [if_neg hpos, if_neg hv, printDigits_eq f.base_bounds.1, habs, if_neg Bool.false_ne_true]

theorem Console.printint_eq (base : UInt32) (sign : Bool) : Console.printint xx base sign =
    if sign = true ∧ xx < 0 then printDigits lower base (-xx).toUInt32 true
    else printDigits lower base xx.toUInt32 false := by
  unfold Console.printint
  cases sign <;> by_cases h : xx < 0 <;> simp [h]

theorem map_toUpper_numeral (v : Int) : (numeral lower f v).map Char.toUpper = numeral upper f v := by
  have htext : (text lower f.base.toNat v.natAbs).map Char.toUpper =
      text upper f.base.toNat v.natAbs := by
    obtain ⟨h9, h16⟩ := f.base_bounds
    rw [text, text, List.map_reverse, List.map_map]
    refine congrArg List.reverse (List.map_congr_left fun d hd => ?_)
    exact toUpper_lower d ((digitsOf_lt (by omega) hd).trans_le h16)
  unfold numeral
  split
  · rw [List.map_cons, htext]
    rfl
  · exact htext

theorem numeral_numeral (ht : Table digits) (v : Int) :
    Numeral f.base.toNat v (numeral digits f v) :=
  numeral_text ht (by have := f.base_bounds; omega) f.base_bounds.2 rfl

/-- **Both functions print the numeral** of every number, in both formats, and stay inside their
buffers; the numerals differ in the case of letters only. -/
theorem printint_exact : ∃ out out',
    Console.printint xx f.base f.signed = some out ∧
      Printf.printint xx f.base f.signed = some out' ∧
      Numeral f.base.toNat (f.value xx) out ∧ Numeral f.base.toNat (f.value xx) out' ∧
      out.map Char.toUpper = out' :=
  ⟨_, _, (Console.printint_eq xx f.base f.signed).trans (printDigits_numeral f xx),
    printDigits_numeral f xx, numeral_numeral f table_lower _, numeral_numeral f table_upper _,
    map_toUpper_numeral f _⟩

example : Printf.printint Int32.minValue 10 true = some "-2147483648".toList := by decide

/-! ## Reading it back (`xv6/ulib.c`) -/

/-- The loop of `atoi` -/
def atoiFrom (n : Int32) : List Char → Int32
  | [] => n
  | c :: s =>
    if '0' ≤ c ∧ c ≤ '9' then atoiFrom (n * 10 + .ofNat c.toNat - .ofNat '0'.toNat) s else n

def atoi (s : List Char) : Int32 := atoiFrom 0 s

theorem atoiFrom_append {ds : List Char} (hds : ∀ c ∈ ds, '0' ≤ c ∧ c ≤ '9') (n : Nat)
    (s : List Char) : atoiFrom (.ofNat n) (ds ++ s) =
      atoiFrom (.ofNat (ds.foldl (fun n c => n * 10 + digitVal c) n)) s := by
  induction ds generalizing n with
  | nil => rfl
  | cons c ds ih =>
    obtain ⟨hc, hds⟩ := List.forall_mem_cons.mp hds
    have hn : Int32.ofNat n * 10 + .ofNat c.toNat - .ofNat '0'.toNat =
        .ofNat (n * 10 + digitVal c) := by
      obtain ⟨d, hd⟩ := Nat.exists_eq_add_of_le (show '0'.toNat ≤ c.toNat from hc.1)
      rw [digitVal, if_pos hc.2, hd, Nat.add_sub_cancel_left]
      simp only [Int32.ofNat_add, Int32.ofNat_mul]
      grind
    rw [List.cons_append, atoiFrom, if_pos hc, hn, ih hds, List.foldl_cons]

/-- **What `%d` prints, `atoi` reads** up to the NUL, unless it is negative. -/
theorem atoi_printint (xx : Int32) (s : List Char) : ∃ out, Printf.printint xx 10 true = some out ∧
    atoi (out ++ '\x00' :: s) = if xx < 0 then 0 else xx := by
  refine ⟨_, printDigits_numeral .dec xx, ?_⟩
  have hlt : xx < 0 ↔ Format.dec.value xx < 0 := Int32.lt_iff_toInt_lt
  unfold numeral
  split
  · next hneg =>
    rw [if_pos (hlt.mpr hneg)]
    rfl
  · next hpos =>
    have hdigits : ∀ c ∈ text upper 10 xx.toInt.natAbs, '0' ≤ c ∧ c ≤ '9' := by
      intro c hc
      obtain ⟨d, hd, rfl⟩ := List.mem_map.mp (List.mem_reverse.mp hc)
      have hd : d < 10 := digitsOf_lt (by decide) hd
      interval_cases d <;> decide
    have hread : readNat 10 (text upper 10 xx.toInt.natAbs) = xx.toInt.natAbs :=
      readNat_text table_upper (by decide) (by decide)
    rw [if_neg (hpos ∘ hlt.mp)]
    refine (atoiFrom_append hdigits 0 _).trans ?_
    show Int32.ofNat (readNat 10 _) = xx
    rw [hread, ← Int32.ofInt_eq_ofNat, Int.natAbs_of_nonneg (Int.not_lt.mp hpos : 0 ≤ xx.toInt),
      Int32.ofInt_toInt]

end Laboratorio.Xv6.Printint
