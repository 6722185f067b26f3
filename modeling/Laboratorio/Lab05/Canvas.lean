import Mathlib

/-!
# The canvas (`lab-05/canvas.c`)

A canvas of `HEIGHT` rows and `WIDTH` columns is an array of characters in shared memory, row by row.
`modify_canvas` writes a message into it, from a position on, to the right or downwards.

Downwards it makes one call of `strncpy` for each character, and each of them copies as many bytes as
the message is long, from the address of a local variable that holds one character. Besides the cell
of the character this overwrites the cells to the right of it, with whatever follows the variable in
memory up to the first 0, and with 0 from there on.

`modifyCanvas_touchesOnly_iff` says for which messages and positions only the cells of the message
change, on every canvas.
-/

namespace Laboratorio.Lab05.Canvas

open Function

/-! ## The program -/

/-- `HEIGHT` -/
def height : Int := 25

/-- `WIDTH` -/
def width : Int := 25

/-- The number of bytes of a canvas. -/
def size : Int := height * width

/-- The characters of a string, before its terminating 0. -/
structure CString where
  chars : List UInt8
  nonzero : 0 ∉ chars

/-- `strlen` -/
def CString.strlen (value : CString) : Nat := value.chars.length

/-- The bytes from the start of a string on. -/
def CString.bytes (value : CString) (i : Nat) : UInt8 := value.chars.getD i 0

/-- The shared memory, by the offset from the start of the canvas, and the offsets that have been
written. -/
structure Shm where
  byte : Int → UInt8
  written : List Int

/-- A canvas before a call. -/
def Shm.start (canvas : Int → UInt8) : Shm := ⟨canvas, []⟩

/-- Store bytes from the offset `dst` on. -/
def Shm.write (s : Shm) (dst : Int) : List UInt8 → Shm
  | [] => s
  | b :: bs => Shm.write ⟨update s.byte dst b, dst :: s.written⟩ (dst + 1) bs

/-- The `n` bytes that `strncpy(dst, src, n)` stores. -/
def strncpy : Nat → (Nat → UInt8) → List UInt8
  | 0, _ => []
  | n + 1, src => if src 0 = 0 then List.replicate (n + 1) 0 else src 0 :: strncpy n fun j => src (j + 1)

/-- The bytes from the address of `character` on. -/
def frame (character : UInt8) (after : Nat → UInt8) : Nat → UInt8
  | 0 => character
  | j + 1 => after j

/-- The loop of `modify_canvas` over the characters from the `i`-th on, for a message of `length`
characters. `after i` are the bytes that follow `character` in memory. -/
def writeColumn (length : Nat) (x y : Int) (after : Nat → Nat → UInt8) : Nat → List UInt8 → Shm → Shm
  | _, [], s => s
  | i, c :: cs, s =>
    writeColumn length x y after (i + 1) cs
      (s.write ((x + i) * height + y) (strncpy length (frame c (after i))))

/-- `modify_canvas` on a canvas that is mapped. `int` expressions that overflow have no value in C; here
they have the value that is far outside of the canvas. -/
def modifyCanvas (value : CString) (x y : Int) (mode : Char) (after : Nat → Nat → UInt8) (s : Shm) :
    Shm :=
  if mode = 'h' then s.write (height * x + y) (strncpy value.strlen value.bytes)
  else writeColumn value.strlen x y after 0 value.chars s

/-! ## What a call should do -/

/-- A message of `length` characters fits in the grid. -/
def Fits (length : Nat) (x y : Int) (mode : Char) : Prop :=
  0 ≤ x ∧ 0 ≤ y ∧
    if mode = 'h' then x < height ∧ y + length ≤ width else x + length ≤ height ∧ y < width

/-- The offset of the cell of the `i`-th character. -/
def cell (x y : Int) (mode : Char) (i : Nat) : Int :=
  if mode = 'h' then height * x + (y + i) else height * (x + i) + y

/-- The call writes the message into its cells and changes no other cell if the message fits, and it
writes into the canvas only if it does not. -/
def TouchesOnly (value : CString) (x y : Int) (mode : Char) (after : Nat → Nat → UInt8)
    (canvas : Int → UInt8) : Prop :=
  let s := modifyCanvas value x y mode after (.start canvas)
  (Fits value.strlen x y mode →
    (∀ i, i < value.strlen → s.byte (cell x y mode i) = value.bytes i) ∧
    ∀ o, 0 ≤ o → o < size → (∀ i, i < value.strlen → o ≠ cell x y mode i) → s.byte o = canvas o) ∧
  (¬Fits value.strlen x y mode → ∀ o ∈ s.written, 0 ≤ o ∧ o < size)

/-- The offset after the last byte that a call writes. -/
def limit (length : Nat) (x y : Int) (mode : Char) : Int :=
  (if mode = 'h' then height * x else height * (x + length - 1)) + y + length

/-- When only the cells of the message change: all bytes that are written are in the canvas, and a
message that fits downwards has no more than one character. -/
def Safe (length : Nat) (x y : Int) (mode : Char) : Prop :=
  length = 0 ∨ 0 ≤ height * x + y ∧ limit length x y mode ≤ size ∧
    (mode ≠ 'h' → Fits length x y mode → length ≤ 1)

/-! ## Writing bytes -/

section Write

variable {s : Shm} {dst o : Int} {l : List UInt8}

theorem byte_write_of_notMem (h : o < dst ∨ dst + l.length ≤ o) : (s.write dst l).byte o = s.byte o := by
  induction l generalizing s dst with
  | nil => rfl
  | cons b l ih =>
    rw [List.length_cons] at h
    rw [Shm.write, ih (by omega)]
    exact update_of_ne (by omega) ..

theorem byte_write (s : Shm) (dst : Int) {i : Nat} (hi : i < l.length) : (s.write dst l).byte (dst + i) = l[i] := by
  induction l generalizing s dst i with
  | nil => cases hi
  | cons b l ih =>
    rw [Shm.write]
    cases i with
    | zero =>
      rw [byte_write_of_notMem (by omega)]
      simp
    | succ i =>
      have hplace : dst + ((i + 1 : Nat) : Int) = dst + 1 + i := by omega
      rw [hplace, ih _ _ (Nat.lt_of_succ_lt_succ hi), List.getElem_cons_succ]

theorem mem_written_write :
    o ∈ (s.write dst l).written ↔ o ∈ s.written ∨ dst ≤ o ∧ o < dst + l.length := by
  induction l generalizing s dst with
  | nil => grind [Shm.write]
  | cons b l ih => grind [Shm.write]

end Write

/-! ## `strncpy` -/

theorem length_strncpy (n : Nat) (src : Nat → UInt8) : (strncpy n src).length = n := by
  induction n generalizing src with
  | zero => rfl
  | succ n ih =>
    rw [strncpy]
    split
    · exact List.length_replicate
    · rw [List.length_cons, ih]

theorem strncpy_zero {n : Nat} {src : Nat → UInt8} (h : 0 < (strncpy n src).length) :
    (strncpy n src)[0] = src 0 := by
  cases n with
  | zero => cases h
  | succ n =>
    unfold strncpy
    split
    · next hzero => simp [hzero]
    · rfl

/-- A string is copied as it is. -/
theorem strncpy_chars {l : List UInt8} (h : 0 ∉ l) : strncpy l.length (fun i => l.getD i 0) = l := by
  induction l with
  | nil => rfl
  | cons c l ih =>
    rw [List.mem_cons, not_or] at h
    rw [List.length_cons, strncpy]
    simp only [List.getD_cons_zero, List.getD_cons_succ, Ne.symm h.1, if_false, ih h.2]

/-! ## The loop -/

section Column

variable {length : Nat} {x y o : Int} {after : Nat → Nat → UInt8} {i : Nat} {cs : List UInt8} {s : Shm}

theorem mem_written_writeColumn :
    o ∈ (writeColumn length x y after i cs s).written ↔ o ∈ s.written ∨
      ∃ k < cs.length, (x + (i + k : Nat)) * height + y ≤ o ∧
        o < (x + (i + k : Nat)) * height + y + length := by
  induction cs generalizing i s with
  | nil => simp [writeColumn]
  | cons c cs ih =>
    rw [writeColumn, ih, mem_written_write, length_strncpy, or_assoc]
    refine or_congr_right ⟨?_, ?_⟩
    · rintro (hrow | ⟨k, hk, hrow⟩)
      · exact ⟨0, Nat.succ_pos _, by simpa using hrow⟩
      · refine ⟨k + 1, Nat.succ_lt_succ hk, ?_⟩
        rwa [show i + (k + 1) = i + 1 + k by omega]
    · rintro ⟨k, hk, hrow⟩
      cases k with
      | zero => exact .inl (by simpa using hrow)
      | succ k =>
        refine .inr ⟨k, Nat.lt_of_succ_lt_succ hk, ?_⟩
        rwa [show i + 1 + k = i + (k + 1) by omega]

/-- A byte outside of all rows that are written stays. -/
theorem byte_writeColumn_of_notMem (h : ∀ k < cs.length, o < (x + (i + k : Nat)) * height + y ∨
      (x + (i + k : Nat)) * height + y + length ≤ o) :
    (writeColumn length x y after i cs s).byte o = s.byte o := by
  induction cs generalizing i s with
  | nil => rfl
  | cons c cs ih =>
    rw [writeColumn, ih fun k hk => ?_]
    · have hrow := h 0 (Nat.succ_pos _)
      exact byte_write_of_notMem (by simpa [length_strncpy] using hrow)
    · rw [show i + 1 + k = i + (k + 1) by omega]
      exact h (k + 1) (Nat.succ_lt_succ hk)

/-- The rows do not overlap, so the first bytes of all of them are the characters. -/
theorem byte_writeColumn (hlen : (length : Int) ≤ height) (hpos : 0 < length) {k : Nat}
    (hk : k < cs.length) :
    (writeColumn length x y after i cs s).byte ((x + (i + k : Nat)) * height + y) = cs[k] := by
  induction cs generalizing i s k with
  | nil => cases hk
  | cons c cs ih =>
    rw [writeColumn]
    cases k with
    | zero =>
      rw [byte_writeColumn_of_notMem fun k _ => ?_]
      · have hrow : 0 < (strncpy length (frame c (after i))).length := by rwa [length_strncpy]
        have hfirst := byte_write s ((x + i) * height + y) hrow
        rw [strncpy_zero] at hfirst
        simpa [frame] using hfirst
      · simp only [height] at hlen ⊢
        omega
    | succ k =>
      rw [show i + (k + 1) = i + 1 + k by omega, ih (Nat.lt_of_succ_lt_succ hk),
        List.getElem_cons_succ]

end Column

/-! ## The two modes -/

section Modes

variable {value : CString} {x y : Int} {mode : Char} {after : Nat → Nat → UInt8}
  {canvas : Int → UInt8}

theorem bytes_eq {i : Nat} (hi : i < value.chars.length) : value.bytes i = value.chars[i] :=
  List.getD_eq_getElem _ _ hi

/-- A row takes the message as it is. -/
theorem modifyCanvas_row (hmode : mode = 'h') (s : Shm) :
    modifyCanvas value x y mode after s = s.write (height * x + y) value.chars := by
  have hcopy : strncpy value.strlen value.bytes = value.chars := strncpy_chars value.nonzero
  rw [modifyCanvas, if_pos hmode, hcopy]

/-- Along a row the cells of the message are all that is written. -/
theorem touchesOnly_row (hmode : mode = 'h') :
    TouchesOnly value x y mode after canvas ↔ Safe value.strlen x y mode := by
  have hcell : ∀ i, cell x y mode i = height * x + y + i := fun i => by
    rw [cell, if_pos hmode, add_assoc]
  have hlimit : limit value.strlen x y mode = height * x + y + value.strlen := by
    rw [limit, if_pos hmode]
  have hwritten : ∀ o, o ∈ (modifyCanvas value x y mode after (.start canvas)).written ↔
      height * x + y ≤ o ∧ o < height * x + y + value.strlen := fun o => by
    rw [modifyCanvas_row hmode, mem_written_write]
    exact or_iff_right List.not_mem_nil
  constructor
  · rintro ⟨-, hinside⟩
    by_cases hfits : Fits value.strlen x y mode
    · obtain ⟨hx, hy, hin⟩ := hfits
      rw [if_pos hmode] at hin
      refine .inr ⟨?_, ?_, fun h => absurd hmode h⟩
      · simp only [height]
        omega
      · simp only [hlimit, height, width, size] at hin ⊢
        omega
    · by_cases hlen : value.strlen = 0
      · exact .inl hlen
      · have hfirst := hinside hfits _ ((hwritten (height * x + y)).mpr (by omega))
        have hlast := hinside hfits _ ((hwritten (height * x + y + value.strlen - 1)).mpr (by omega))
        exact .inr ⟨hfirst.1, by omega, fun h => absurd hmode h⟩
  · intro hsafe
    refine ⟨fun _ => ⟨fun i hi => ?_, fun o _ _ ho => ?_⟩, fun _ o ho => ?_⟩
    · rw [modifyCanvas_row hmode, hcell, byte_write _ _ hi, bytes_eq hi]
    · rw [modifyCanvas_row hmode]
      refine byte_write_of_notMem (by_contra fun hin => ?_)
      refine ho (o - (height * x + y)).toNat ?_ ?_
      · rw [CString.strlen]
        omega
      · rw [hcell]
        omega
    · rw [hwritten] at ho
      rcases hsafe with hlen | ⟨hlo, hhi, -⟩
      · omega
      · omega

/-- What the loop writes. -/
theorem mem_written_column (hmode : mode ≠ 'h') (o : Int) :
    o ∈ (modifyCanvas value x y mode after (.start canvas)).written ↔
      ∃ k < value.strlen, height * (x + k) + y ≤ o ∧ o < height * (x + k) + y + value.strlen := by
  rw [modifyCanvas, if_neg hmode, mem_written_writeColumn]
  simp only [zero_add, mul_comm height]
  exact or_iff_right List.not_mem_nil

/-- With two characters or more the cell to the right of the first one is overwritten. -/
theorem not_touchesOnly_column (hmode : mode ≠ 'h') (hfits : Fits value.strlen x y mode)
    (hlen : 1 < value.strlen) : ∃ canvas, ¬TouchesOnly value x y mode after canvas := by
  obtain ⟨c, cs, hchars⟩ : ∃ c cs, value.chars = c :: cs :=
    List.exists_cons_of_ne_nil (List.ne_nil_of_length_pos (lt_trans Nat.zero_lt_one hlen))
  have hrow : 1 < (strncpy value.strlen (frame c (after 0))).length := by rwa [length_strncpy]
  -- the byte that is put there does not depend on the canvas
  have hbyte : ∀ canvas, (modifyCanvas value x y mode after (.start canvas)).byte
      (height * x + y + 1) = (strncpy value.strlen (frame c (after 0)))[1] := by
    intro canvas
    rw [modifyCanvas, if_neg hmode, hchars, writeColumn, byte_writeColumn_of_notMem fun k _ => ?_]
    · have hone := byte_write (.start canvas) (height * x + y) hrow
      simpa [mul_comm height] using hone
    · simp only [height]
      omega
  refine ⟨fun _ => (strncpy value.strlen (frame c (after 0)))[1] + 1, fun htouches => ?_⟩
  obtain ⟨hx, hy, hin⟩ := hfits
  rw [if_neg hmode] at hin
  obtain ⟨-, hother⟩ := htouches.1 ⟨hx, hy, by rw [if_neg hmode]; exact hin⟩
  have hsame := hother (height * x + y + 1) (by simp only [height]; omega)
    (by simp only [height, width, size] at hin ⊢; omega) fun i _ heq => ?_
  · rw [hbyte] at hsame
    exact absurd hsame (by simp)
  · rw [cell, if_neg hmode] at heq
    simp only [height] at heq
    omega

theorem touchesOnly_column (hmode : mode ≠ 'h') :
    (∀ canvas, TouchesOnly value x y mode after canvas) ↔ Safe value.strlen x y mode := by
  have hlimit : limit value.strlen x y mode =
      height * (x + value.strlen - 1) + y + value.strlen := by
    rw [limit, if_neg hmode]
  constructor
  · intro htouches
    by_cases hlen : value.strlen = 0
    · exact .inl hlen
    by_cases hfits : Fits value.strlen x y mode
    · have hone : value.strlen ≤ 1 := by
        by_contra hmore
        obtain ⟨canvas, hcanvas⟩ := not_touchesOnly_column hmode hfits (not_le.mp hmore)
        exact hcanvas (htouches canvas)
      refine .inr ⟨?_, ?_, fun _ _ => hone⟩
      all_goals
        obtain ⟨hx, hy, hin⟩ := hfits
        rw [if_neg hmode] at hin
        simp only [hlimit, height, width, size] at hin ⊢
        omega
    · have hinside := (htouches fun _ => 0).2 hfits
      have hfirst := hinside _ ((mem_written_column hmode (height * x + y)).mpr
        ⟨0, by omega, by simp; omega⟩)
      have hlast := hinside _ ((mem_written_column hmode (limit value.strlen x y mode - 1)).mpr
        ⟨value.strlen - 1, by omega, by rw [hlimit]; simp only [height]; omega⟩)
      exact .inr ⟨hfirst.1, by omega, fun _ h => absurd h hfits⟩
  · intro hsafe canvas
    refine ⟨fun hfits => ?_, fun _ o ho => ?_⟩
    · have hone : value.strlen ≤ 1 := by
        rcases hsafe with hlen | ⟨-, -, hone⟩
        · omega
        · exact hone hmode hfits
      refine ⟨fun i hi => ?_, fun o _ _ ho => ?_⟩
      · have hsmall : (value.strlen : Int) ≤ height := by
          simp only [height]
          omega
        have hplace : height * (x + i) + y = (x + (0 + i : Nat)) * height + y := by
          rw [zero_add, mul_comm]
        rw [modifyCanvas, if_neg hmode, cell, if_neg hmode, bytes_eq hi, hplace]
        exact byte_writeColumn hsmall (by omega) hi
      · rw [modifyCanvas, if_neg hmode]
        refine byte_writeColumn_of_notMem fun k hk => by_contra fun hin => ho k hk ?_
        rw [cell, if_neg hmode]
        simp only [height] at hin ⊢
        omega
    · obtain ⟨k, hk, hlo, hhi⟩ := (mem_written_column hmode o).mp ho
      rcases hsafe with hlen | ⟨hfirst, hlast, -⟩
      · omega
      · simp only [hlimit, height] at *
        omega

end Modes

/-- **Only the cells of a message change**, on every canvas, just when all that is written is in the
canvas and a message that fits downwards has no more than one character. -/
theorem modifyCanvas_touchesOnly_iff (value : CString) (x y : Int) (mode : Char)
    (after : Nat → Nat → UInt8) :
    (∀ canvas, TouchesOnly value x y mode after canvas) ↔ Safe value.strlen x y mode := by
  by_cases hmode : mode = 'h'
  · exact ⟨fun h => (touchesOnly_row hmode).mp (h fun _ => 0), fun h _ => (touchesOnly_row hmode).mpr h⟩
  · exact touchesOnly_column hmode

/-- The message `ab`. -/
def ab : CString := ⟨[97, 98], by decide⟩

/-- On a canvas full of `x`, a message that fits downwards erases the cell to the right of its first
character; and one that does not fit is written over the end of the canvas. -/
theorem modifyCanvas_touches_others :
    (Fits ab.strlen 0 0 'v' ∧ ¬TouchesOnly ab 0 0 'v' (fun _ _ => 0) fun _ => 120) ∧
    (¬Fits ab.strlen 24 24 'h' ∧
      size ∈ (modifyCanvas ab 24 24 'h' (fun _ _ => 0) (.start fun _ => 120)).written ∧
      ¬TouchesOnly ab 24 24 'h' (fun _ _ => 0) fun _ => 120) := by
  have hfits : Fits ab.strlen 0 0 'v' := by
    unfold Fits
    decide
  have hnot : ¬Fits ab.strlen 24 24 'h' := by
    unfold Fits
    decide
  have hwritten :
      size ∈ (modifyCanvas ab 24 24 'h' (fun _ _ => 0) (.start fun _ => 120)).written := by decide
  refine ⟨⟨hfits, fun h => ?_⟩, hnot, hwritten, fun h => ?_⟩
  · have hsame := (h.1 hfits).2 1 (by decide) (by decide) (by decide)
    exact absurd hsame (by decide)
  · exact absurd (h.2 hnot size hwritten).2 (lt_irrefl _)

end Laboratorio.Lab05.Canvas
