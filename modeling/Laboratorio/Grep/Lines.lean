import Laboratorio.Grep.Match

/-!
# The lines that `grep` prints (`xv6/grep.c`)

`grep` reads its input in pieces. In front of each piece it keeps, in `buf`, the unfinished line of the
piece before, unless the buffer holds no newline at all: then it sets `m` to 0 and forgets what it has
read of the line. So the output depends on how `read` splits the input, and `grep` prints the matching
lines just when every piece has a newline (`grep_prints_iff`).
-/

namespace Laboratorio.Grep

/-- `'\n'` -/
abbrev newline : UInt8 := 10

/-- `sizeof(buf)` -/
abbrev bufSize : Nat := 1024

/-! ## The source -/

/-- `strchr(p, '\n') - p`; the string `p` ends at a NUL. -/
def strchr : List UInt8 → Option Nat
  | [] => none
  | c :: s => if c = 0 then none else if c = newline then some 0 else (strchr s).map (· + 1)

theorem lt_of_strchr {s : List UInt8} {i : Nat} (h : strchr s = some i) : i < s.length := by
  induction s generalizing i with
  | nil => cases h
  | cons c s ih =>
    rw [strchr] at h
    split at h
    · cases h
    · split at h
      · cases h
        exact Nat.succ_pos _
      · obtain ⟨j, hj, rfl⟩ := Option.map_eq_some_iff.mp h
        exact Nat.succ_lt_succ (ih hj)

/-- The inner loop, for the string at `p`: what it writes, and the string at `p` in the end. -/
def printLines (re s : List UInt8) : List UInt8 × List UInt8 :=
  match h : strchr s with
  | none => ([], s)
  | some i =>
    have := lt_of_strchr h
    let r := printLines re (s.drop (i + 1))
    ((if matchRe re (s.take i) then s.take (i + 1) else []) ++ r.1, r.2)
termination_by s.length
decreasing_by
  rw [List.length_drop]
  omega

/-- A round of the outer loop: `buf` are the `m` characters that have been kept, and `piece` is what
`read` puts behind them. The result is what is written, and what is kept. -/
def round (re buf piece : List UInt8) : List UInt8 × List UInt8 :=
  let r := printLines re (buf ++ piece)
  -- `if(p == buf) m = 0;`
  (r.1, if r.2.length = (buf ++ piece).length then [] else r.2)

/-- `grep`, when `read` returns these pieces and then 0. -/
def grep (re : List UInt8) : List UInt8 → List (List UInt8) → List UInt8
  | _, [] => []
  | buf, piece :: pieces => (round re buf piece).1 ++ grep re (round re buf piece).2 pieces

/-- No piece is larger than requested. -/
def Fits (re : List UInt8) : List UInt8 → List (List UInt8) → Prop
  | _, [] => True
  | buf, piece :: pieces =>
    piece.length ≤ bufSize - buf.length - 1 ∧ Fits re (round re buf piece).2 pieces

/-! ## The input -/

/-- A line of the input, without its newline. -/
structure Line where
  text : List UInt8
  noNul : 0 ∉ text
  noNewline : newline ∉ text
  short : text.length < bufSize - 1

/-- The input that is made of lines. -/
def text (lines : List Line) : List UInt8 := lines.flatMap fun l => l.text ++ [newline]

/-- A way in which `read` returns the input. -/
structure Reads (lines : List Line) where
  pieces : List (List UInt8)
  nonempty : ∀ piece ∈ pieces, piece ≠ []
  fits : ∀ re, Fits re [] pieces
  all : pieces.flatten = text lines

variable {re s buf rest : List UInt8} {l : Line} {lines : List Line} {pieces : List (List UInt8)}

theorem text_cons : text (l :: lines) = l.text ++ newline :: text lines := by
  simp [text]

theorem noNul_text (lines : List Line) : 0 ∉ text lines := by
  intro h
  obtain ⟨l, -, hl⟩ := List.mem_flatMap.mp h
  rcases List.mem_append.mp hl with htext | hend
  · exact l.noNul htext
  · exact absurd (List.mem_singleton.mp hend) (by decide)

/-! ## The inner loop -/

theorem strchr_line {t : List UInt8} (h0 : 0 ∉ t) (hn : newline ∉ t) :
    strchr (t ++ newline :: s) = some t.length := by
  induction t with
  | nil => rfl
  | cons c t ih =>
    rw [List.mem_cons, not_or] at h0 hn
    rw [List.cons_append, strchr, if_neg (Ne.symm h0.1), if_neg (Ne.symm hn.1), ih h0.2 hn.2]
    rfl

theorem strchr_eq_none (h0 : 0 ∉ s) : strchr s = none ↔ newline ∉ s := by
  constructor
  · intro h hn
    obtain ⟨t, u, rfl, ht⟩ := List.eq_append_cons_of_mem hn
    rw [strchr_line (fun ht0 => h0 (List.mem_append_left _ ht0)) ht] at h
    cases h
  · intro hn
    induction s with
    | nil => rfl
    | cons c s ih =>
      rw [List.mem_cons, not_or] at h0 hn
      rw [strchr, if_neg (Ne.symm h0.1), if_neg (Ne.symm hn.1), ih h0.2 hn.2]
      rfl

/-- A whole line. -/
theorem printLines_line {t : List UInt8} (h0 : 0 ∉ t) (hn : newline ∉ t) :
    printLines re (t ++ newline :: s) =
      ((if matchRe re t then t ++ [newline] else []) ++ (printLines re s).1, (printLines re s).2) := by
  have hline := strchr_line (s := s) h0 hn
  have htake : (t ++ newline :: s).take (t.length + 1) = t ++ [newline] :=
    List.take_length_add_append 1
  have hdrop : (t ++ newline :: s).drop (t.length + 1) = s := by simp
  rw [printLines]
  split
  · next h => rw [hline] at h; cases h
  · next i h =>
    rw [hline] at h
    cases h
    rw [htake, hdrop, List.take_left]

/-- An unfinished line. -/
theorem printLines_rest (re : List UInt8) (h : strchr s = none) : printLines re s = ([], s) := by
  rw [printLines]
  split
  · rfl
  · next i hi => rw [h] at hi; cases hi

/-- Lines, and an unfinished one behind them. -/
theorem printLines_text {tail : List UInt8} (h0 : 0 ∉ tail) (hn : newline ∉ tail) :
    printLines re (text lines ++ tail) =
      (text (lines.filter fun l => matchRe re l.text), tail) := by
  induction lines with
  | nil => exact printLines_rest re ((strchr_eq_none h0).mpr hn)
  | cons l lines ih =>
    rw [text_cons, List.append_assoc, List.cons_append, printLines_line l.noNul l.noNewline, ih,
      List.filter_cons]
    split
    · rw [text_cons]
      simp
    · rfl

/-- What is written and what is left is not more than there was, and what is left is one unfinished
line. -/
theorem printLines_le (re : List UInt8) (h0 : 0 ∉ s) :
    (printLines re s).1.length + (printLines re s).2.length ≤ s.length ∧
      newline ∉ (printLines re s).2 ∧ 0 ∉ (printLines re s).2 := by
  induction hlen : s.length using Nat.strong_induction_on generalizing s with
  | _ n ih =>
    by_cases hn : newline ∈ s
    · obtain ⟨t, u, rfl, ht⟩ := List.eq_append_cons_of_mem hn
      rw [List.mem_append, List.mem_cons, not_or, not_or] at h0
      rw [List.length_append, List.length_cons] at hlen
      obtain ⟨hle, hrest⟩ := ih u.length (by omega) h0.2.2 rfl
      rw [printLines_line h0.1 ht]
      refine ⟨?_, hrest⟩
      simp only [List.length_append]
      split
      · rw [List.length_append, List.length_singleton]
        omega
      · rw [List.length_nil]
        omega
    · rw [printLines_rest re ((strchr_eq_none h0).mpr hn)]
      exact ⟨by simp [hlen], hn, h0⟩

/-! ## The outer loop -/

/-- Input up to some place: whole lines, and the beginning of the next one. -/
theorem exists_lines (h : s ++ rest = text lines) : ∃ pre post tail, lines = pre ++ post ∧
    s = text pre ++ tail ∧ newline ∉ tail ∧ tail ++ rest = text post := by
  induction lines generalizing s with
  | nil =>
    obtain ⟨rfl, rfl⟩ := List.append_eq_nil_iff.mp h
    exact ⟨[], [], [], rfl, rfl, List.not_mem_nil, rfl⟩
  | cons l lines ih =>
    rw [text_cons] at h
    rcases List.append_eq_append_iff.mp h with ⟨t, hs, ht⟩ | ⟨t, hs, ht⟩
    · -- the line ends behind this place
      refine ⟨[], l :: lines, s, rfl, rfl, fun hn => l.noNewline ?_, ?_⟩
      · rw [hs]
        exact List.mem_append_left _ hn
      · rw [text_cons, h]
    · cases t with
      | nil =>
        rw [List.append_nil] at hs
        refine ⟨[], l :: lines, s, rfl, rfl, hs ▸ l.noNewline, ?_⟩
        rw [text_cons, h]
      | cons c t =>
        obtain ⟨rfl, ht'⟩ := List.cons.inj ht
        obtain ⟨pre, post, tail, rfl, rfl, htail, hrest⟩ := ih ht'.symm
        refine ⟨l :: pre, post, tail, rfl, ?_, htail, hrest⟩
        rw [hs, text_cons]
        simp

theorem lines_eq_nil (h : newline ∉ text lines) : lines = [] := by
  cases lines with
  | nil => rfl
  | cons l lines =>
    rw [text_cons] at h
    exact absurd (List.mem_append_right _ List.mem_cons_self) h

/-- **When every piece has a newline**, the matching lines are printed. -/
theorem grep_of_newlines (hbuf : newline ∉ buf) (hn : ∀ piece ∈ pieces, newline ∈ piece)
    (h : buf ++ pieces.flatten = text lines) :
    grep re buf pieces = text (lines.filter fun l => matchRe re l.text) := by
  induction pieces generalizing buf lines with
  | nil =>
    rw [List.flatten_nil, List.append_nil] at h
    obtain rfl : lines = [] := lines_eq_nil (h ▸ hbuf)
    rfl
  | cons piece pieces ih =>
    rw [List.flatten_cons, ← List.append_assoc] at h
    obtain ⟨pre, post, tail, rfl, hs, htail, hrest⟩ := exists_lines h
    have h0 : 0 ∉ tail := fun ht => noNul_text post (hrest ▸ List.mem_append_left _ ht)
    have hpre : text pre ≠ [] := by
      intro hnil
      rw [hnil, List.nil_append] at hs
      exact htail (hs ▸ List.mem_append_right _ (hn piece List.mem_cons_self))
    have hround : round re buf piece = (text (pre.filter fun l => matchRe re l.text), tail) := by
      have hlen : tail.length ≠ (text pre ++ tail).length := by
        rw [List.length_append]
        have := List.length_pos_of_ne_nil hpre
        omega
      rw [round, hs, printLines_text h0 htail, if_neg hlen]
    rw [grep, hround, ih htail (fun p hp => hn p (List.mem_cons_of_mem _ hp)) hrest,
      List.filter_append]
    exact (List.flatMap_append ..).symm

/-- Nothing is printed twice: what `grep` has kept and has still to read bounds what it prints. -/
theorem round_le (re : List UInt8) {piece : List UInt8} (h0 : 0 ∉ buf ++ piece) :
    (round re buf piece).1.length + (round re buf piece).2.length ≤ (buf ++ piece).length ∧
      newline ∉ (round re buf piece).2 ∧ 0 ∉ (round re buf piece).2 := by
  obtain ⟨hle, hn, h0⟩ := printLines_le re h0
  simp only [round]
  split
  · exact ⟨by simp only [List.length_nil]; omega, List.not_mem_nil, List.not_mem_nil⟩
  · exact ⟨hle, hn, h0⟩

theorem length_grep_le (re buf : List UInt8) (h0 : 0 ∉ buf ++ pieces.flatten) :
    (grep re buf pieces).length ≤ (buf ++ pieces.flatten).length := by
  induction pieces generalizing buf with
  | nil => exact Nat.zero_le _
  | cons piece pieces ih =>
    rw [List.flatten_cons, ← List.append_assoc, List.mem_append, not_or] at h0
    obtain ⟨hle, -, h0'⟩ := round_le re h0.1
    have hrest := ih (round re buf piece).2 fun h => (List.mem_append.mp h).elim h0' h0.2
    simp only [grep, List.flatten_cons, List.length_append] at hle hrest ⊢
    omega

/-- **A piece without a newline is lost.** -/
theorem length_grep_lt (re : List UInt8) (h0 : 0 ∉ buf ++ pieces.flatten) (hbuf : newline ∉ buf)
    (hne : ∀ piece ∈ pieces, piece ≠ []) (hlost : ∃ piece ∈ pieces, newline ∉ piece) :
    (grep re buf pieces).length < (buf ++ pieces.flatten).length := by
  induction pieces generalizing buf with
  | nil =>
    obtain ⟨piece, hin, -⟩ := hlost
    cases hin
  | cons piece pieces ih =>
    rw [List.flatten_cons, ← List.append_assoc, List.mem_append, not_or] at h0
    obtain ⟨hle, hkept, h0'⟩ := round_le re h0.1
    have hrest : 0 ∉ (round re buf piece).2 ++ pieces.flatten := fun h =>
      (List.mem_append.mp h).elim h0' h0.2
    by_cases hpiece : newline ∈ piece
    · obtain ⟨lost, hin, hnone⟩ := hlost
      have hlater : lost ∈ pieces := (List.mem_cons.mp hin).resolve_left fun heq =>
        hnone (heq ▸ hpiece)
      have hlt := ih hrest hkept (fun p hp => hne p (List.mem_cons_of_mem _ hp))
        ⟨lost, hlater, hnone⟩
      simp only [grep, List.flatten_cons, List.length_append] at hle hlt ⊢
      omega
    · -- the buffer has no newline, and all of it is forgotten
      have hnone : newline ∉ buf ++ piece := fun h => (List.mem_append.mp h).elim hbuf hpiece
      have hround : round re buf piece = ([], []) := by
        rw [round, printLines_rest re ((strchr_eq_none h0.1).mpr hnone), if_pos rfl]
      have hle := length_grep_le re [] h0.2
      have hpos := List.length_pos_of_ne_nil (hne piece List.mem_cons_self)
      simp only [grep, hround, List.nil_append, List.flatten_cons, List.length_append] at hle ⊢
      omega

/-- The empty pattern matches every line. -/
theorem matchRe_nil (t : List UInt8) : matchRe [] t = true := by
  cases t with
  | nil => rfl
  | cons c t => rfl

/-- **`grep` prints the matching lines, whatever the pattern, just when every piece that `read`
returns has a newline.** -/
theorem grep_prints_iff (lines : List Line) (r : Reads lines) :
    (∀ re, grep re [] r.pieces = text (lines.filter fun l => matchRe re l.text)) ↔
      ∀ piece ∈ r.pieces, newline ∈ piece := by
  constructor
  · intro h
    by_contra hlost
    push Not at hlost
    have h0 : 0 ∉ [] ++ r.pieces.flatten := r.all ▸ noNul_text lines
    have hlt := length_grep_lt [] h0 List.not_mem_nil r.nonempty hlost
    have hall : (lines.filter fun l => matchRe [] l.text) = lines :=
      List.filter_eq_self.mpr fun l _ => matchRe_nil l.text
    rw [h [], hall, List.nil_append, r.all] at hlt
    exact lt_irrefl _ hlt
  · intro hn re
    exact grep_of_newlines List.not_mem_nil hn r.all

/-- The line `ax`, in two pieces. -/
def twoPieces : Reads [⟨[97, 120], by decide, by decide, by decide⟩] where
  pieces := [[97], [120, newline]]
  nonempty := by decide
  fits re := by
    have h₁ := printLines_rest (s := [97]) re rfl
    have hround : round re [] [97] = ([], []) := by
      rw [round, List.nil_append, h₁, if_pos rfl]
    exact ⟨by decide, by rw [hround]; decide, trivial⟩
  all := rfl

/-- **The line `ax` matches `a`**, but it is not printed when `read` returns the `a` first. -/
theorem grep_loses_line : grep [97] [] twoPieces.pieces ≠
    text ([⟨[97, 120], by decide, by decide, by decide⟩].filter fun l => matchRe [97] l.text) := by
  have h0 : 0 ∉ [] ++ twoPieces.pieces.flatten := by decide
  have hlen := length_grep_lt [97] h0 List.not_mem_nil twoPieces.nonempty
    ⟨[97], by decide, by decide⟩
  intro h
  rw [h] at hlen
  exact absurd hlen (by decide)

end Laboratorio.Grep
