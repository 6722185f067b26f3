import Laboratorio.Lib.Wp
import Laboratorio.Xv6.StringOps

/-!
# The screen (`cgaputc` of `xv6/console.c`)

The screen is an array of 25 rows of 80 cells in memory, `crt`, and the cursor is in two registers of
the video controller. `cgaputc` puts a character at the cursor; it never uses the last row.

`Term` is a terminal that prints on a roll of paper, which only moves up: `top` is the first of the
24 rows that can be seen. `cgaputc_refines` says that the first 24 rows of the screen show them, after
any characters. A cell of the screen that is cleared by `memset` is not the same as a blank one, but
looks like it.
-/

namespace Laboratorio.Xv6.Cga

open Function Laboratorio.Bytes Laboratorio.Memory Laboratorio.Wp Laboratorio.Xv6.StringOps

/-! ## The driver -/

def newline : UInt32 := 10
def backspace : UInt32 := 0x100

/-- `P2V(0xb8000)`. It is irreducible because the unifier would count down from it otherwise. -/
@[irreducible] def crtBase : Nat := 0x800b8000

theorem crtBase_eq : crtBase = 0x800b8000 := by
  unfold crtBase
  rfl

/-- The address of `crt[pos]` -/
def crt (pos : Int) : UInt32 := UInt32.ofInt (crtBase + 2 * pos)

/-- The cell of a character: light grey on black, whatever the comment in the source says -/
def glyph (c : UInt32) : UInt16 := (c &&& 0xff).toUInt16 ||| 0x0700

/-- `' ' | 0x0700` -/
def blank : UInt16 := 0x0720

/-- `panic("pos under/overflow")` -/
inductive Panic where
  | pos

/-- The memory, and the registers of the video controller with the index of the chosen one. -/
structure Vga where
  mem : Mem
  index : UInt8
  reg : UInt8 → UInt8

abbrev M := StateT Vga (Except Panic)

/-- `outb(CRTPORT, v)` -/
def outIndex (v : UInt8) : M Unit := modify fun x => { x with index := v }

/-- `outb(CRTPORT+1, v)` -/
def outData (v : UInt8) : M Unit :=
  modify fun x => { x with reg := update x.reg x.index v }

/-- `inb(CRTPORT+1)` -/
def inData : M UInt8 := do
  let x ← get
  return x.reg x.index

/-- `crt[pos] = w` -/
def setCell (pos : Int) (w : UInt16) : M Unit :=
  modify fun x => { x with mem := Memory.store u16 (crt pos).toNat w x.mem }

/-- The first part of `cgaputc`: the position of the cursor -/
def readPos : M Int := do
  outIndex 14
  let hi ← inData
  outIndex 15
  let lo ← inData
  return (hi.toNat <<< 8 ||| lo.toNat : Nat)

/-- The second part: the character, and the position after it -/
def putChar (c : UInt32) (pos : Int) : M Int :=
  if c = newline then return pos + (80 - pos % 80)
  else if c = backspace then return if pos > 0 then pos - 1 else pos
  else do
    setCell pos (glyph c)
    return pos + 1

/-- The third part: the rows move up -/
def scroll (pos : Int) : M Int := do
  if pos / 80 ≥ 24 then
    modify fun x => { x with mem := Kernel.memmove (crt 0) (crt 80) (2 * 23 * 80) x.mem }
    let pos := pos - 80
    modify fun x => { x with mem := memset (crt pos) 0 (UInt32.ofInt (2 * (24 * 80 - pos))) x.mem }
    return pos
  else return pos

/-- The last part: the cursor -/
def writePos (pos : Int) : M Unit := do
  outIndex 14
  outData (UInt8.ofInt (pos >>> 8))
  outIndex 15
  outData (UInt8.ofInt pos)
  setCell pos blank

/-- What `cgaputc` does once it has a new position -/
def finish (pos : Int) : M Unit := do
  if pos < 0 ∨ pos > 25 * 80 then
    throw .pos
  let pos ← scroll pos
  writePos pos

/-- `cgaputc` -/
def cgaputc (c : UInt32) : M Unit := do
  let pos ← readPos
  let pos ← putChar c pos
  finish pos

/-! ## The terminal -/

/-- A terminal: a roll of paper with rows of 80 cells, the first row that can be seen, and the
cursor. -/
structure Term where
  paper : Nat → Nat → UInt16
  top : Nat
  row : Nat
  col : Nat

namespace Term

/-- The cursor goes to a new row, for which the paper may have to move. -/
def newRow (t : Term) : Term where
  paper := t.paper
  top := if t.row + 1 = t.top + 24 then t.top + 1 else t.top
  row := t.row + 1
  col := 0

/-- Print a cell at the cursor. -/
def print (t : Term) (w : UInt16) : Term :=
  { t with
    paper := fun r k => if r = t.row ∧ k = t.col then w else t.paper r k }

/-- A step back, if that can be seen. -/
def back (t : Term) : Term :=
  if 0 < t.col then { t with col := t.col - 1 }
  else if t.top < t.row then { t with row := t.row - 1, col := 79 }
  else t

/-- The terminal gets a character. -/
def put (t : Term) (c : UInt32) : Term :=
  if c = newline then t.newRow
  else if c = backspace then t.back.print blank
  else
    let t := t.print (glyph c)
    if t.col = 79 then t.newRow else { t with col := t.col + 1 }

/-- What is seen in row `r` and column `k`. -/
def seen (t : Term) (r k : Nat) : UInt16 := t.paper (t.top + r) k

/-- The place of the cursor, when the cells are numbered row by row. -/
def cursor (t : Term) : Nat := 80 * t.row + t.col

/-- The cell with a number. -/
def cell (t : Term) (j : Nat) : UInt16 := t.paper (j / 80) (j % 80)

end Term

/-! ## Cells of the screen -/

/-- What a cell looks like: blank and zero cells are the same. -/
def looks (w : UInt16) : UInt16 := if w = 0 then blank else w

/-- The cells of the screen. -/
def cell (m : Mem) (i : Nat) : UInt16 := load u16 (crtBase + 2 * i) m

/-- The memory outside of the screen, which has `25 * 80` cells of 2 bytes, is as before. -/
def Outside (m m' : Mem) : Prop := ∀ a, a < crtBase ∨ crtBase + 4000 ≤ a → m' a = m a

variable {m : Mem} {i p : Nat} {w : UInt16}

theorem toNat_crt (h : p ≤ 2000) : (crt p).toNat = crtBase + 2 * p := by
  have hmod : ((crtBase : Int) + 2 * p) % 2 ^ 32 = (crtBase + 2 * p : Nat) := by
    rw [crtBase_eq]
    omega
  rw [crt, UInt32.ofInt, hmod, Int.toNat_natCast, UInt32.toNat_ofNat', crtBase_eq]
  omega

theorem cell_store (i p : Nat) (w : UInt16) : cell (Memory.store u16 (crtBase + 2 * p) w m) i =
    if i = p then w else cell m i := by
  unfold cell
  split
  · next h => rw [h, load_store]
  · exact load_store_of_disjoint (by simp only [u16]; omega)

theorem outside_store (h : p < 2000) : Outside m (Memory.store u16 (crtBase + 2 * p) w m) :=
  fun a ha => store_of_notMem (by simp only [u16]; omega)

/-- The rows below the first one are moved up. -/
theorem moved_up (m : Mem) :
    Moved m (Kernel.memmove (crt 0) (crt 80) (2 * 23 * 80) m) crtBase (crtBase + 160) 3680 := by
  have hd : (crt 0).toNat = crtBase := toNat_crt (p := 0) (by decide)
  have hs : (crt 80).toNat = crtBase + 160 := toNat_crt (p := 80) (by decide)
  have hmoved := Kernel.moved (m := m) (d := crt 0) (s := crt 80) (n := 2 * 23 * 80)
    (by rw [hd, crtBase_eq]; decide) (by rw [hs, crtBase_eq]; decide)
  rw [hd, hs] at hmoved
  exact hmoved

/-- The last row is cleared. -/
theorem cleared (m : Mem) (a : Nat) :
    memset (crt 1840) 0 (UInt32.ofInt (2 * (24 * 80 - 1840))) m a =
      if crtBase + 3680 ≤ a ∧ a < crtBase + 3840 then 0 else m a := by
  have hd : (crt 1840).toNat = crtBase + 3680 := toNat_crt (p := 1840) (by decide)
  have hn : (UInt32.ofInt (2 * (24 * 80 - 1840))).toNat = 160 := by decide
  rw [memset_zero (by rw [hd, hn, crtBase_eq]; decide), hd, hn, Nat.add_assoc]

/-- What the screen is after scrolling. -/
theorem scrolled (m : Mem) :
    ∃ m', m' = memset (crt 1840) 0 (UInt32.ofInt (2 * (24 * 80 - 1840)))
      (Kernel.memmove (crt 0) (crt 80) (2 * 23 * 80) m) ∧ Outside m m' ∧
      ∀ i, i < 1920 → cell m' i = if i < 1840 then cell m (i + 80) else 0 := by
  obtain ⟨hin, hout⟩ := moved_up m
  refine ⟨_, rfl, fun a ha => ?_, fun i hi => ?_⟩
  · rw [cleared, if_neg (by omega), hout a (ha.imp_right (Nat.add_le_add_left (by decide) _).trans)]
  · split
    · refine u16.dec_congr _ _ fun j hj => ?_
      have hj' : j < 2 := hj
      rw [cleared, if_neg (by omega), Nat.add_assoc crtBase, hin _ (by omega)]
      congr 1
      omega
    · refine u16.dec_enc 0 _ fun j hj => ?_
      have hj' : j < 2 := hj
      rw [cleared, if_pos (by omega)]
      simp [u16]

/-! ## The driver in terms of cells -/

/-- The position of the cursor. -/
def Vga.pos (v : Vga) : Nat := (v.reg 14).toNat * 256 + (v.reg 15).toNat

variable {v : Vga} {E : Panic → Prop}

theorem wp_readPos : wp readPos (fun pos v' => pos = v.pos ∧ v' = { v with index := 15 }) E v := by
  refine ⟨?_, rfl⟩
  show (((v.reg 14).toNat <<< 8 ||| (v.reg 15).toNat : Nat) : Int) = v.pos
  rw [← Nat.shiftLeft_add_eq_or_of_lt (v.reg 15).toNat_lt, Nat.shiftLeft_eq]
  rfl

theorem wp_writePos (hp : p < 1920) : wp (writePos p) (fun _ v' => v'.pos = p ∧
    v'.mem = Memory.store u16 (crtBase + 2 * p) blank v.mem) E v := by
  have hhi : (UInt8.ofInt ((p : Int) >>> 8)).toNat = p / 256 := by
    rw [show (p : Int) >>> 8 = p / 2 ^ 8 from Int.shiftRight_eq_div_pow p 8, UInt8.ofInt,
      UInt8.toNat_ofNat']
    omega
  have hlo : (UInt8.ofInt (p : Int)).toNat = p % 256 := by
    rw [UInt8.ofInt, UInt8.toNat_ofNat']
    omega
  refine ⟨?_, ?_⟩
  · show (update (update v.reg 14 (UInt8.ofInt ((p : Int) >>> 8))) 15
      (UInt8.ofInt p) 14).toNat * 256 + (update (update v.reg 14
        (UInt8.ofInt ((p : Int) >>> 8))) 15 (UInt8.ofInt p) 15).toNat = p
    rw [update_self, update_of_ne (by decide), update_self, hhi, hlo]
    omega
  · show Memory.store u16 (crt p).toNat blank v.mem = _
    rw [toNat_crt (by omega)]

/-- The screen shows the cells of `f` from row `top` on, except for the one at the cursor `n`; from
there on they are blank. -/
structure Shows (m : Mem) (top n : Nat) (f : Nat → UInt16) : Prop where
  cells : ∀ i, i < 1920 → 80 * top + i ≠ n → looks (cell m i) = looks (f (80 * top + i))
  ahead : ∀ j, n ≤ j → looks (f j) = blank

variable {top n : Nat} {f : Nat → UInt16}

/-- The screen with the cursor: that cell is blank. -/
structure Ready (v : Vga) (top n : Nat) (f : Nat → UInt16) : Prop extends Shows v.mem top n f where
  pos : v.pos + 80 * top = n
  lt : v.pos < 1920
  cursor : looks (cell v.mem v.pos) = blank

/-- All cells are shown. -/
theorem Ready.looks_cell (h : Ready v top n f) (hi : i < 1920) :
    looks (cell v.mem i) = looks (f (80 * top + i)) := by
  have hpos := h.pos
  by_cases hn : 80 * top + i = n
  · rw [hn, h.ahead n le_rfl, show i = v.pos by omega, h.cursor]
  · exact h.cells i hi hn

theorem wp_writePos_ready (hs : Shows v.mem top n f) (hp : p + 80 * top = n) (hlt : p < 1920) :
    wp (writePos p) (fun _ v' => Ready v' top n f ∧ Outside v.mem v'.mem) E v := by
  refine wp_post (wp_writePos hlt) (fun _ v' hv' => ?_)
  have hcell := fun i => cell_store (m := v.mem) i p blank
  obtain ⟨hpos, hmem⟩ := hv'
  rw [← hmem] at hcell
  refine ⟨⟨⟨fun i hi hn => ?_, hs.ahead⟩, by omega, by omega, ?_⟩, ?_⟩
  · rw [hcell, if_neg (by omega)]
    exact hs.cells i hi hn
  · rw [hpos, hcell, if_pos rfl]
    rfl
  · rw [hmem]
    exact outside_store (by omega)

/-- **The end of `cgaputc`**: the paper moves when the new position is below the rows shown. -/
theorem wp_finish (hs : Shows v.mem top n f) (hp : p + 80 * top = n) (hle : p ≤ 1920) :
    wp (finish p) (fun _ v' => Ready v' (if p = 1920 then top + 1 else top) n f ∧
      Outside v.mem v'.mem) E v := by
  unfold finish
  rw [if_neg (by omega)]
  by_cases hlast : p = 1920
  · subst hlast
    obtain ⟨m', hm', hout, hcell⟩ := scrolled v.mem
    have hscroll : scroll (1920 : Nat) v = .ok (((1840 : Nat) : Int), { v with mem := m' }) := by
      rw [hm']
      rfl
    -- the first row goes, and a row that is blank comes
    have hs' : Shows m' (top + 1) n f := by
      refine ⟨fun i hi _ => ?_, hs.ahead⟩
      rw [hcell i hi]
      split
      · next h =>
        rw [hs.cells (i + 80) (by omega) (by omega)]
        congr 2
        omega
      · exact (hs.ahead _ (by omega)).symm
    refine wp_seq (wp_of_ok hscroll (wp_post (wp_writePos_ready (n := n) hs' (by omega) (by decide)) (fun _ v' hv' => ?_)))
    rw [if_pos rfl]
    exact ⟨hv'.1, fun a ha => (hv'.2 a ha).trans (hout a ha)⟩
  · have hscroll : scroll p v = .ok ((p : Int), v) := by
      unfold scroll
      rw [if_neg (by omega)]
      rfl
    rw [if_neg hlast]
    exact wp_seq (wp_of_ok hscroll (wp_writePos_ready hs hp (by omega)))

/-! ## The terminal, cell by cell -/

variable {t : Term}

theorem Term.cell_print (hcol : t.col < 80) (w : UInt16) (j : Nat) :
    (t.print w).cell j = if j = t.cursor then w else t.cell j := by
  unfold Term.cell Term.print Term.cursor
  exact if_congr (by omega) rfl rfl

/-- A step back, in numbers. -/
theorem Term.back_eq (hcol : t.col < 80) (htop : 80 * t.top ≤ t.cursor) :
    t.back.top = t.top ∧ t.back.paper = t.paper ∧ t.back.col < 80 ∧
      t.back.cursor = if 80 * t.top < t.cursor then t.cursor - 1 else t.cursor := by
  unfold Term.back Term.cursor at *
  split
  · refine ⟨rfl, rfl, ?_, ?_⟩
    · show t.col - 1 < 80
      omega
    · rw [if_pos (by omega)]
      show 80 * t.row + (t.col - 1) = _
      omega
  · split
    · refine ⟨rfl, rfl, (by decide : 79 < 80), ?_⟩
      rw [if_pos (by omega)]
      show 80 * (t.row - 1) + 79 = _
      omega
    · exact ⟨rfl, rfl, hcol, by rw [if_neg (by omega)]⟩

/-- The screen shows what is seen of the terminal, and the cursor. -/
structure Refines (v : Vga) (t : Term) : Prop extends Ready v t.top t.cursor t.cell where
  col : t.col < 80

variable (h : Refines v t)

include h

theorem Refines.newRow : wp (finish (v.pos + (80 - v.pos % 80)))
    (fun _ v' => Refines v' t.newRow ∧ Outside v.mem v'.mem) E v := by
  have hpos := h.pos
  have hlt := h.lt
  have hcol := h.col
  have hcursor : t.cursor = 80 * t.row + t.col := rfl
  have hcursor' : t.newRow.cursor = 80 * (t.row + 1) := rfl
  have hs : Shows v.mem t.top t.newRow.cursor t.cell :=
    ⟨fun i hi _ => h.looks_cell hi, fun j hj => h.ahead j (by omega)⟩
  have hnext : (v.pos : Int) + (80 - v.pos % 80) = (80 * (v.pos / 80 + 1) : Nat) := by omega
  rw [hnext]
  refine wp_post (wp_finish hs (by omega) (by omega)) (fun _ v' hv' => ?_)
  have htop : t.newRow.top = if 80 * (v.pos / 80 + 1) = 1920 then t.top + 1 else t.top :=
    if_congr (by omega) rfl rfl
  rw [← htop] at hv'
  exact ⟨⟨hv'.1, (by decide : 0 < 80)⟩, hv'.2⟩

theorem Refines.back : wp (finish (if (v.pos : Int) > 0 then (v.pos : Int) - 1 else v.pos))
    (fun _ v' => Refines v' (t.back.print blank) ∧ Outside v.mem v'.mem) E v := by
  have hpos := h.pos
  have hlt := h.lt
  obtain ⟨htop, hpaper, hcol, hcursor⟩ := Term.back_eq h.col (by omega)
  have hcell : ∀ j, (t.back.print blank).cell j = if j = t.back.cursor then blank else t.cell j := by
    intro j
    rw [Term.cell_print hcol]
    unfold Term.cell
    rw [hpaper]
  have hprev : t.cursor ≤ t.back.cursor + 1 := by
    rw [hcursor]
    split <;> omega
  have hs : Shows v.mem t.top t.back.cursor (t.back.print blank).cell := by
    refine ⟨fun i hi hne => ?_, fun j hj => ?_⟩
    · rw [hcell, if_neg hne]
      exact h.looks_cell hi
    · rw [hcell]
      split
      · rfl
      · exact h.ahead j (by omega)
  have hnext : (if (v.pos : Int) > 0 then (v.pos : Int) - 1 else v.pos) = (v.pos - 1 : Nat) := by
    split <;> omega
  have hback : v.pos - 1 + 80 * t.top = t.back.cursor := by
    rw [hcursor]
    split <;> omega
  rw [hnext]
  refine wp_post (wp_finish hs hback (by omega)) (fun _ v' hv' => ?_)
  rw [if_neg (by omega), ← htop] at hv'
  exact ⟨⟨hv'.1, hcol⟩, hv'.2⟩

theorem Refines.print (w : UInt16) : wp (do
      setCell v.pos w
      finish (v.pos + 1))
    (fun _ v' => Refines v' (if t.col = 79 then (t.print w).newRow
      else { t.print w with col := t.col + 1 }) ∧ Outside v.mem v'.mem) E v := by
  have hpos := h.pos
  have hlt := h.lt
  have hcol := h.col
  have hcursor : t.cursor = 80 * t.row + t.col := rfl
  refine wp_seq ((wp_modify _).mpr ?_)
  rw [toNat_crt (by omega)]
  have hs : Shows (Memory.store u16 (crtBase + 2 * v.pos) w v.mem) t.top (t.cursor + 1)
      (t.print w).cell := by
    refine ⟨fun i hi _ => ?_, fun j hj => ?_⟩
    · rw [cell_store, Term.cell_print hcol]
      split
      · rw [if_pos (by omega)]
      · rw [if_neg (by omega)]
        exact h.looks_cell hi
    · rw [Term.cell_print hcol, if_neg (by omega)]
      exact h.ahead j (by omega)
  refine wp_post (wp_finish (p := v.pos + 1) (v := { v with mem := _ }) hs (by omega) (by omega)) (fun _ v' hv' => ?_)
  have hout : Outside v.mem v'.mem := fun a ha =>
    (hv'.2 a ha).trans (outside_store (by omega) a ha)
  split
  · next hend =>
    have htop : (t.print w).newRow.top = if v.pos + 1 = 1920 then t.top + 1 else t.top :=
      if_congr (by show t.row + 1 = t.top + 24 ↔ _; omega) rfl rfl
    have hnew : (t.print w).newRow.cursor = t.cursor + 1 := by
      show 80 * (t.row + 1) = _
      omega
    rw [← htop, ← hnew] at hv'
    exact ⟨⟨hv'.1, (by decide : 0 < 80)⟩, hout⟩
  · next hend =>
    rw [if_neg (by omega)] at hv'
    exact ⟨⟨hv'.1, (by omega : t.col + 1 < 80)⟩, hout⟩

/-- **One character.** -/
theorem Refines.put (c : UInt32) :
    wp (cgaputc c) (fun _ v' => Refines v' (t.put c) ∧ Outside v.mem v'.mem) E v := by
  unfold cgaputc
  refine wp_then wp_readPos (fun pos v₁ hv₁ => ?_)
  obtain ⟨rfl, rfl⟩ := hv₁
  have h₁ : Refines { v with index := 15 } t := ⟨⟨h.toShows, h.pos, h.lt, h.cursor⟩, h.col⟩
  unfold putChar Term.put
  by_cases hc : c = newline
  · rw [if_pos hc, if_pos hc]
    exact h₁.newRow
  · rw [if_neg hc, if_neg hc]
    by_cases hb : c = backspace
    · rw [if_pos hb, if_pos hb]
      exact h₁.back
    · rw [if_neg hb, if_neg hb]
      exact h₁.print (glyph c)

omit h

/-! ## Any characters -/

/-- The terminal as the screen shows it: the paper below is blank. -/
def Term.start (v : Vga) : Term where
  paper r k := if 80 * r + k < 1920 then Cga.cell v.mem (80 * r + k) else blank
  top := 0
  row := v.pos / 80
  col := v.pos % 80

theorem Refines.start (hpos : v.pos < 24 * 80)
    (hblank : ∀ i, v.pos ≤ i → i < 24 * 80 → looks (cell v.mem i) = blank) :
    Refines v (.start v) := by
  have hcursor : (Term.start v).cursor = v.pos := Nat.div_add_mod v.pos 80
  have hcell : ∀ j, (Term.start v).cell j = if j < 1920 then cell v.mem j else blank := by
    intro j
    unfold Term.cell Term.start
    simp only [Nat.div_add_mod]
  have htop : (Term.start v).top = 0 := rfl
  refine ⟨⟨⟨fun i hi _ => ?_, fun j hj => ?_⟩, by omega, hpos, hblank _ le_rfl hpos⟩,
    Nat.mod_lt _ (by decide)⟩
  · rw [htop, Nat.mul_zero, Nat.zero_add, hcell, if_pos hi]
  · rw [hcell]
    split
    · next hj' => exact hblank j (by omega) (by omega)
    · rfl

/-- **The screen shows the tail of the output.** From a cursor in the first 24 rows with blank cells
from there on, `cgaputc` takes any characters without a panic. The cursor stays in these rows, nothing
is written outside of the screen, and the rows show what is seen of a terminal that has got the
same characters. -/
theorem cgaputc_refines (v : Vga) (hpos : v.pos < 24 * 80)
    (hblank : ∀ i, v.pos ≤ i → i < 24 * 80 → looks (cell v.mem i) = blank) (cs : List UInt32) :
    ∃ v', cs.forM cgaputc v = .ok ((), v') ∧ v'.pos < 24 * 80 ∧ Outside v.mem v'.mem ∧
      ∀ r k, r < 24 → k < 80 →
        looks (cell v'.mem (80 * r + k)) = looks ((cs.foldl Term.put (.start v)).seen r k) := by
  have hrun : wp (cs.forM cgaputc) (fun _ v' => Refines v' (cs.foldl Term.put (.start v)) ∧
      Outside v.mem v'.mem) (fun _ => False) v := by
    refine wp_forM (fun pre v' => Refines v' (pre.foldl Term.put (.start v)) ∧ Outside v.mem v'.mem)
      cs (fun pre c post _ v₁ h₁ => ?_) ⟨.start hpos hblank, fun _ _ => rfl⟩
    refine wp_post (h₁.1.put c) (fun _ v₂ h₂ => ?_)
    rw [List.foldl_append]
    exact ⟨h₂.1, fun a ha => (h₂.2 a ha).trans (h₁.2 a ha)⟩
  obtain ⟨_, v', hv', href, hout⟩ := hrun.exists_ok
  refine ⟨v', hv', href.lt, hout, fun r k hr hk => ?_⟩
  have hrow : ∀ top, (80 * top + (80 * r + k)) / 80 = top + r ∧
      (80 * top + (80 * r + k)) % 80 = k := fun top => by omega
  rw [href.looks_cell (by omega), Term.cell, (hrow _).1, (hrow _).2]
  rfl

/-- A letter at the end of the last row scrolls an empty screen: it is seen one row higher. -/
theorem cgaputc_refines_letter : ∃ v', cgaputc 65 ⟨fun _ => 0, 0, fun i => if i = 14 then 7 else 127⟩ =
      .ok ((), v') ∧ v'.pos < 24 * 80 ∧ looks (cell v'.mem (80 * 22 + 79)) = glyph 65 ∧
      looks (cell v'.mem (80 * 23 + 79)) = blank := by
  obtain ⟨v', hv', hpos, -, hseen⟩ := cgaputc_refines
    ⟨fun _ => 0, 0, fun i => if i = 14 then 7 else 127⟩ (by decide) (fun _ _ _ => rfl) [65]
  exact ⟨v', hv', hpos, (hseen 22 79 (by decide) (by decide)).trans (by decide +kernel),
    (hseen 23 79 (by decide) (by decide)).trans (by decide +kernel)⟩

end Laboratorio.Xv6.Cga
