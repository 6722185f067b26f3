import Mathlib

/-!
# The matcher of `grep` (`xv6/grep.c`)

`matchRe`, `matchhere` and `matchstar` are `match` and its two helpers of the source. A string is the
list of its characters before the NUL that ends it, so that the end of the list is where the source
reads the NUL.

What a pattern means is said with languages: `readPattern` reads the pattern from left to right as a
sequence of items, each item has a language, and the languages of a sequence are multiplied. The set
of the texts that a function accepts is a language as well (`Accepted`), and each function of the
source gives an equation of languages; the loops are solved with Arden's rule.
-/

namespace Laboratorio.Grep

open Computability

/-! ## The source -/

/-- `'^'` -/
abbrev caret : UInt8 := 94

/-- `'.'` -/
abbrev dot : UInt8 := 46

/-- `'*'` -/
abbrev star : UInt8 := 42

/-- `'$'` -/
abbrev dollar : UInt8 := 36

/-- `c=='.' || c==*text` -/
def hits (c t : UInt8) : Bool := c == dot || c == t

/-- `matchstar(c, re, text)`; `here` is `matchhere` with the pattern `re`. -/
def matchstar (here : List UInt8 → Bool) (c : UInt8) : List UInt8 → Bool
  | [] => here []
  | t :: text => here (t :: text) || hits c t && matchstar here c text

/-- The last two lines of `matchhere`; `here` is the call with `re+1`. -/
def advance (here : List UInt8 → Bool) (c : UInt8) : List UInt8 → Bool
  | [] => false
  | t :: text => hits c t && here text

/-- `matchhere(re, text)` -/
def matchhere : List UInt8 → List UInt8 → Bool
  | [], _ => true
  -- `re[1]` is the NUL
  | [c], text => if c = dollar then text.isEmpty else advance (matchhere []) c text
  | c :: c' :: re, text =>
    if c' = star then matchstar (matchhere re) c text else advance (matchhere (c' :: re)) c text

/-- The loop of `match`. -/
def search (re : List UInt8) : List UInt8 → Bool
  | [] => matchhere re []
  | t :: text => matchhere re (t :: text) || search re text

/-- `match(re, text)` -/
def matchRe (re text : List UInt8) : Bool :=
  if re.head? = some caret then matchhere re.tail text else search re text

/-! ## What a pattern means -/

/-- An item: a character, where `.` stands for any, or such a character with a star. -/
inductive Item where
  | char (c : UInt8)
  | star (c : UInt8)
deriving DecidableEq, Repr

/-- Read items from left to right. A final `$` is not an item: the second component says that there
is one. -/
def readItems : List UInt8 → List Item × Bool
  | [] => ([], false)
  | [c] => if c = dollar then ([], true) else ([.char c], false)
  | c :: c' :: re =>
    if c' = Grep.star then ((readItems re).map (.star c :: ·) id)
    else (readItems (c' :: re)).map (.char c :: ·) id

/-- A pattern: whether it is tied to the beginning of the text and to its end, and the items. -/
structure Pattern where
  atStart : Bool
  items : List Item
  atEnd : Bool

def readPattern (re : List UInt8) : Pattern :=
  if re.head? = some caret then ⟨true, (readItems re.tail).1, (readItems re.tail).2⟩
  else ⟨false, (readItems re).1, (readItems re).2⟩

/-- The texts of one character that `c` stands for. -/
def single (c : UInt8) : Language UInt8 := {w | ∃ t, w = [t] ∧ hits c t = true}

/-- The language of an item. -/
def Item.language : Item → Language UInt8
  | .char c => single c
  | .star c => (single c)∗

/-- The language of a sequence of items. -/
def language (items : List Item) : Language UInt8 := (items.map Item.language).prod

/-! ## The functions as languages -/

/-- The texts that a function accepts. -/
def Accepted (f : List UInt8 → Bool) : Language UInt8 := {text | f text = true}

variable {here : List UInt8 → Bool} {c : UInt8} {text : List UInt8}

theorem nil_notMem_single (c : UInt8) : [] ∉ single c := by
  rintro ⟨t, ht, -⟩
  cases ht

theorem cons_mem_single_mul {t : UInt8} {l : Language UInt8} :
    t :: text ∈ single c * l ↔ hits c t = true ∧ text ∈ l := by
  rw [Language.mem_mul]
  constructor
  · rintro ⟨-, ⟨t', rfl, ht⟩, b, hb, heq⟩
    cases heq
    exact ⟨ht, hb⟩
  · rintro ⟨ht, htext⟩
    exact ⟨[t], ⟨t, rfl, ht⟩, text, htext, rfl⟩

theorem nil_notMem_single_mul {l : Language UInt8} : [] ∉ single c * l := by
  intro h
  obtain ⟨a, ⟨t, rfl, -⟩, b, -, heq⟩ := Language.mem_mul.mp h
  cases heq

theorem accepted_advance : Accepted (advance here c) = single c * Accepted here := by
  ext text
  cases text with
  | nil => exact iff_of_false Bool.false_ne_true nil_notMem_single_mul
  | cons t text =>
    rw [cons_mem_single_mul]
    exact Bool.and_eq_true_iff

/-- The loop tries the rest of the pattern here, or else takes one more character. -/
theorem accepted_matchstar : Accepted (matchstar here c) = (single c)∗ * Accepted here := by
  apply (Language.self_eq_mul_add_iff (nil_notMem_single c)).mp
  ext text
  rw [Language.mem_add, or_comm]
  cases text with
  | nil => exact (or_iff_left nil_notMem_single_mul).symm
  | cons t text =>
    rw [cons_mem_single_mul]
    exact (Bool.or_eq_true_iff ..).trans (or_congr_right (Bool.and_eq_true_iff ..))

/-- What may follow the text of the items. -/
def ending (atEnd : Bool) : Language UInt8 := if atEnd then 1 else ⊤

/-- The texts that begin with a text of the items of `re`, or are one if `re` ends with `$`. -/
def Meaning (re : List UInt8) : Language UInt8 := language (readItems re).1 * ending (readItems re).2

theorem meaning_nil : Meaning [] = ⊤ := one_mul (⊤ : Language UInt8)

theorem meaning_dollar : Meaning [dollar] = 1 := one_mul (1 : Language UInt8)

theorem meaning_char (hc : c ≠ dollar) : Meaning [c] = single c * Meaning [] := by
  rw [Meaning, readItems, if_neg hc, meaning_nil]
  exact congrArg (· * _) (mul_one (single c))

theorem meaning_star {re : List UInt8} : Meaning (c :: star :: re) = (single c)∗ * Meaning re := by
  rw [Meaning, readItems, if_pos rfl]
  exact mul_assoc ..

theorem meaning_cons {c' : UInt8} {re : List UInt8} (hc : c' ≠ star) :
    Meaning (c :: c' :: re) = single c * Meaning (c' :: re) := by
  rw [Meaning, readItems, if_neg hc]
  exact mul_assoc ..

/-- **`matchhere`** accepts the texts that begin with a text of the items. -/
theorem accepted_matchhere (re : List UInt8) : Accepted (matchhere re) = Meaning re := by
  have hnil : Accepted (matchhere []) = ⊤ := by
    ext text
    exact iff_of_true rfl trivial
  induction re using readItems.induct with
  | case1 => rw [hnil, meaning_nil]
  | case2 =>
    rw [meaning_dollar]
    ext text
    exact List.isEmpty_iff
  | case3 c hc =>
    have heq : matchhere [c] = advance (matchhere []) c := by
      funext text
      rw [matchhere, if_neg hc]
    rw [heq, accepted_advance, hnil, meaning_char hc, meaning_nil]
  | case4 c re ih =>
    have heq : matchhere (c :: star :: re) = matchstar (matchhere re) c := by
      funext text
      rw [matchhere, if_pos rfl]
    rw [heq, accepted_matchstar, ih, meaning_star]
  | case5 c c' re hc ih =>
    have heq : matchhere (c :: c' :: re) = advance (matchhere (c' :: re)) c := by
      funext text
      rw [matchhere, if_neg hc]
    rw [heq, accepted_advance, ih, meaning_cons hc]

/-- The loop of `match` looks at every place of the text. -/
theorem accepted_search (re : List UInt8) : Accepted (search re) = ⊤ * Accepted (matchhere re) := by
  ext text
  rw [Language.mem_mul]
  induction text with
  | nil =>
    constructor
    · exact fun h => ⟨[], trivial, [], h, rfl⟩
    · rintro ⟨a, -, b, hb, heq⟩
      obtain ⟨rfl, rfl⟩ := List.append_eq_nil_iff.mp heq
      exact hb
  | cons t text ih =>
    constructor
    · intro h
      rcases Bool.or_eq_true_iff.mp h with hhere | hlater
      · exact ⟨[], trivial, t :: text, hhere, rfl⟩
      · obtain ⟨a, -, b, hb, rfl⟩ := ih.mp hlater
        exact ⟨t :: a, trivial, b, hb, rfl⟩
    · rintro ⟨a, -, b, hb, heq⟩
      apply Bool.or_eq_true_iff.mpr
      cases a with
      | nil => exact .inl (heq ▸ hb)
      | cons t' a =>
        cases heq
        exact .inr (ih.mpr ⟨a, trivial, b, hb, rfl⟩)

theorem mem_ending {atEnd : Bool} : text ∈ ending atEnd ↔ (atEnd = true → text = []) := by
  cases atEnd with
  | false => exact iff_of_true trivial fun h => by cases h
  | true => exact ⟨fun h _ => h, fun h => h rfl⟩

/-- **`match` implements the patterns of `grep`**: it finds whether some part of the text, which is
its beginning if the pattern is tied to it, and its end if the pattern is tied to that, is in the
language of the items. -/
theorem matchRe_iff (re text : List UInt8) : matchRe re text = true ↔
    ∃ pre w post, text = pre ++ (w ++ post) ∧ w ∈ language (readPattern re).items ∧
      ((readPattern re).atStart = true → pre = []) ∧ ((readPattern re).atEnd = true → post = []) := by
  have hmeaning : ∀ re t, matchhere re t = true ↔ ∃ w post, t = w ++ post ∧
      w ∈ language (readItems re).1 ∧ ((readItems re).2 = true → post = []) := by
    intro re t
    rw [show matchhere re t = true ↔ t ∈ Accepted (matchhere re) from Iff.rfl, accepted_matchhere,
      Meaning, Language.mem_mul]
    constructor
    · rintro ⟨w, hw, post, hpost, rfl⟩
      exact ⟨w, post, rfl, hw, mem_ending.mp hpost⟩
    · rintro ⟨w, post, rfl, hw, hpost⟩
      exact ⟨w, hw, post, mem_ending.mpr hpost, rfl⟩
  unfold matchRe readPattern
  split
  · rw [hmeaning]
    constructor
    · rintro ⟨w, post, rfl, hw, hpost⟩
      exact ⟨[], w, post, rfl, hw, fun _ => rfl, hpost⟩
    · rintro ⟨pre, w, post, rfl, hw, hpre, hpost⟩
      obtain rfl := hpre rfl
      exact ⟨w, post, rfl, hw, hpost⟩
  · rw [show search re text = true ↔ text ∈ Accepted (search re) from Iff.rfl, accepted_search,
      Language.mem_mul]
    constructor
    · rintro ⟨pre, -, t, ht, rfl⟩
      obtain ⟨w, post, rfl, hw, hpost⟩ := (hmeaning re t).mp ht
      exact ⟨pre, w, post, rfl, hw, fun h => (by cases h), hpost⟩
    · rintro ⟨pre, w, post, rfl, hw, -, hpost⟩
      exact ⟨pre, trivial, w ++ post, (hmeaning re _).mpr ⟨w, post, rfl, hw, hpost⟩, rfl⟩

/-- `^a*.$` matches `aab`. -/
example : matchRe [caret, 97, star, dot, dollar] [97, 97, 98] = true := by decide

end Laboratorio.Grep
