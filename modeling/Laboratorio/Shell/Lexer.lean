import Laboratorio.Lib.Wp

/-!
# The lexers of the shells (`xv6/sh.c`, `lab-02/sh.c`)

Both shells read a line with `gettoken` and `peek`, which move a pointer into the buffer of the line.
The two differ in the characters that are symbols, and in whether `>>` is one token: a `Lexicon` holds
what differs. A parser is a program whose state is the pointer `*ps`; to read behind the NUL that ends
the line is an error of its own.

`tokens` says what the tokens of a line are. `At l s ts` says that the pointer `s` is in the line and
`ts` are the tokens from there on, and the rules of `peek` and `gettoken` are stated with it.
-/

namespace Laboratorio.Shell

open Laboratorio.Wp

/-! ## Lines -/

/-- The code of a character. -/
def ch (c : Char) : UInt8 := c.toNat.toUInt8

/-- `char whitespace[]` -/
def whitespace : List UInt8 := [' ', '\t', '\r', '\n', '\x0b'].map ch

/-- A line: its characters, before the NUL that ends it. -/
structure Line where
  text : List UInt8
  noNul : 0 ∉ text

/-- Why a parser stops: an error of the shell with its text, a read behind the NUL, or a loop that
was given too few rounds. -/
inductive Stop where
  | panic (msg : String)
  | bounds
  | fuel
deriving DecidableEq, Repr

/-- A parser; its state is the pointer `*ps`, as an index of the buffer. -/
abbrev Parse := StateT Nat (Except Stop)

/-- `es` -/
def Line.es (l : Line) : Nat := l.text.length

/-- The characters between two pointers. -/
def Line.slice (l : Line) (q eq : Nat) : List UInt8 := (l.text.drop q).take (eq - q)

/-- The character at an index of the buffer. -/
def Line.read (l : Line) (s : Nat) : Parse UInt8 :=
  match (l.text ++ [0])[s]? with
  | some c => pure c
  | none => throw .bounds

/-- `while(s < es && p(*s)) s++`, with the number of characters before `es`. -/
def Line.skip (l : Line) (p : UInt8 → Bool) : Nat → Nat → Parse Nat
  | 0, s => pure s
  | n + 1, s => do
    let c ← l.read s
    if p c then l.skip p n (s + 1) else pure s

/-- `while(s < es && strchr(whitespace, *s)) s++` -/
def Line.spaces (l : Line) (s : Nat) : Parse Nat := l.skip whitespace.contains (l.es - s) s

/-! ## The lexers -/

/-- A token. A word is given by the index of its first character and the one behind its last. -/
inductive Tok where
  | bar
  | lpar
  | rpar
  | semi
  | amp
  | lt
  | gt
  | append
  | word (q eq : Nat)
deriving DecidableEq, Repr

/-- The character of a token that is one symbol, and of `>>` the first one. -/
def Tok.first : Tok → Option UInt8
  | .bar => some (ch '|')
  | .lpar => some (ch '(')
  | .rpar => some (ch ')')
  | .semi => some (ch ';')
  | .amp => some (ch '&')
  | .lt => some (ch '<')
  | .gt | .append => some (ch '>')
  | .word _ _ => none

/-- What `gettoken` returns for a token. -/
def Tok.ret : Tok → UInt8
  | .append => ch '+'
  | .word _ _ => ch 'a'
  | t => t.first.getD 0

/-- The token of a symbol other than `>`. -/
def Tok.ofChar (c : UInt8) : Option Tok :=
  [Tok.bar, .lpar, .rpar, .semi, .amp, .lt].find? fun t => t.first = some c

/-- What the lexers of the shells differ in: the symbols that are a token on their own, the array
`symbols`, and whether `>>` is a token. -/
structure Lexicon where
  single : List UInt8
  symbols : List UInt8
  append : Bool
  perm : symbols.Perm (ch '>' :: single)
  known : ∀ c ∈ single, (Tok.ofChar c).isSome

/-- A character of a word. -/
def Lexicon.letter (x : Lexicon) (c : UInt8) : Bool :=
  !whitespace.contains c && !x.symbols.contains c

/-- What `gettoken` returns, with `*q` and `*eq`. -/
structure Got where
  ret : UInt8
  q : Nat
  eq : Nat

/-- The `switch` of `gettoken` on the character `c` at `s`: what it returns, and the pointer behind
the token. -/
def scan (x : Lexicon) (l : Line) (c : UInt8) (s : Nat) : Parse (UInt8 × Nat) :=
  if c = 0 then pure (c, s)
  else if x.single.contains c then pure (c, s + 1)
  else if c = ch '>' then
    if x.append then do
      let d ← l.read (s + 1)
      if d = ch '>' then pure (ch '+', s + 2) else pure (c, s + 1)
    else pure (c, s + 1)
  else do
    let e ← l.skip x.letter (l.es - s) s
    pure (ch 'a', e)

/-- `gettoken` -/
def gettoken (x : Lexicon) (l : Line) : Parse Got := do
  let q ← l.spaces (← get)
  let c ← l.read q
  let r ← scan x l c q
  set (← l.spaces r.2)
  pure ⟨r.1, q, r.2⟩

/-- `peek` -/
def peek (l : Line) (toks : List UInt8) : Parse Bool := do
  let s ← l.spaces (← get)
  set s
  let c ← l.read s
  pure (c ≠ 0 && toks.contains c)

/-! ## The tokens of a line -/

/-- The token that a character other than `>` is on its own. -/
def Lexicon.token (x : Lexicon) (c : UInt8) : Option Tok :=
  if x.single.contains c then Tok.ofChar c else none

/-- The tokens of a text, whose first character has the index `i`. -/
def tokens (x : Lexicon) : List UInt8 → Nat → List Tok
  | [], _ => []
  | c :: cs, i =>
    if whitespace.contains c then tokens x cs (i + 1)
    else if c = ch '>' then
      if x.append ∧ cs.head? = some (ch '>') then .append :: tokens x cs.tail (i + 2)
      else .gt :: tokens x cs (i + 1)
    else match x.token c with
      | some t => t :: tokens x cs (i + 1)
      | none =>
        .word i (i + 1 + (cs.takeWhile x.letter).length) ::
          tokens x (cs.dropWhile x.letter) (i + 1 + (cs.takeWhile x.letter).length)
termination_by cs => cs.length
decreasing_by
  all_goals simp only [List.length_cons, List.length_tail]
  · omega
  · omega
  · omega
  · omega
  · have := List.length_dropWhile_le x.letter cs
    omega

/-- The tokens of the line. -/
def Line.tokens (x : Lexicon) (l : Line) : List Tok := Shell.tokens x l.text 0

section Tokens

variable {x : Lexicon} {l : Line} {c : UInt8} {cs : List UInt8} {i s : Nat}

@[simp] theorem tokens_nil : tokens x [] i = [] := by rw [tokens]

theorem tokens_space (hc : whitespace.contains c = true) :
    tokens x (c :: cs) i = tokens x cs (i + 1) := by
  rw [tokens, if_pos hc]

/-- White space before a token does not matter. -/
theorem tokens_dropWhile (x : Lexicon) (cs : List UInt8) (i : Nat) :
    tokens x (cs.dropWhile whitespace.contains) (i + (cs.takeWhile whitespace.contains).length) =
      tokens x cs i := by
  induction cs generalizing i with
  | nil => rfl
  | cons c cs ih =>
    rw [List.dropWhile_cons, List.takeWhile_cons]
    split
    · next hc =>
      rw [tokens_space hc, List.length_cons, ← ih (i + 1)]
      congr 1
      omega
    · rfl

theorem length_tokens_le (x : Lexicon) (cs : List UInt8) (i : Nat) :
    (tokens x cs i).length ≤ cs.length := by
  fun_induction tokens x cs i with
  | case1 => rfl
  | case2 c cs i _ ih => exact ih.trans (Nat.le_succ _)
  | case3 cs i _ _ ih =>
    rw [List.length_cons, List.length_cons]
    rw [List.length_tail] at ih
    omega
  | case4 cs i _ _ ih => exact Nat.succ_le_succ ih
  | case5 c cs i _ _ t _ ih => exact Nat.succ_le_succ ih
  | case6 c cs i _ _ _ ih =>
    have := List.length_dropWhile_le x.letter cs
    rw [List.length_cons, List.length_cons]
    omega

end Tokens

/-! ## Reading -/

section Reading

variable {x : Lexicon} {l : Line} {c : UInt8} {cs : List UInt8} {s : Nat}

theorem Line.read_eq (h : s ≤ l.es) : l.read s = pure ((l.text.drop s).headD 0) := by
  unfold Line.read
  rcases Nat.lt_or_ge s l.text.length with hlt | hge
  · rw [List.getElem?_append_left hlt, List.getElem?_eq_getElem hlt, List.drop_eq_getElem_cons hlt]
    rfl
  · have hs : s = l.text.length := Nat.le_antisymm h hge
    rw [List.drop_eq_nil_of_le hge, List.getElem?_append_right hge, hs, Nat.sub_self]
    rfl

theorem Line.skip_eq (p : UInt8 → Bool) (h : s ≤ l.es) :
    l.skip p (l.es - s) s = pure (s + ((l.text.drop s).takeWhile p).length) := by
  generalize hn : l.es - s = n
  induction n generalizing s with
  | zero =>
    have hs : l.text.length ≤ s := by
      unfold Line.es at hn h
      omega
    rw [List.drop_eq_nil_of_le hs]
    rfl
  | succ n ih =>
    have hlt : s < l.text.length := by
      unfold Line.es at hn
      omega
    unfold Line.skip
    rw [Line.read_eq h, List.drop_eq_getElem_cons hlt, pure_bind, List.headD_cons,
      List.takeWhile_cons]
    split
    · rw [ih (s := s + 1) hlt (by omega)]
      congr 1
      rw [List.length_cons]
      omega
    · rfl

/-- What is left of the text behind the characters that were skipped. -/
theorem Line.drop_skip (l : Line) (p : UInt8 → Bool) (s : Nat) :
    l.text.drop (s + ((l.text.drop s).takeWhile p).length) = (l.text.drop s).dropWhile p := by
  rw [← List.drop_drop]
  calc (l.text.drop s).drop ((l.text.drop s).takeWhile p).length
      = ((l.text.drop s).takeWhile p ++ (l.text.drop s).dropWhile p).drop
          ((l.text.drop s).takeWhile p).length := by rw [List.takeWhile_append_dropWhile]
    _ = (l.text.drop s).dropWhile p := List.drop_left' rfl

end Reading

/-! ## The rules of the lexer -/

/-- The pointer `s` is in the line, and `ts` are the tokens from there on. -/
structure At (x : Lexicon) (l : Line) (s : Nat) (ts : List Tok) : Prop where
  le : s ≤ l.es
  tokens : tokens x (l.text.drop s) s = ts

/-- The indices `q` and `eq` are those of a word of the line: it cannot be longer. -/
structure IsWord (x : Lexicon) (l : Line) (q eq : Nat) : Prop where
  lt : q < eq
  le : eq ≤ l.es
  letters : ∀ {i c}, q ≤ i → i < eq → l.text[i]? = some c → x.letter c = true
  stop : ∀ {c}, l.text[eq]? = some c → x.letter c = false

/-- The next token is a symbol, and `toks` has its character. -/
def startsWith (toks : List UInt8) (ts : List Tok) : Bool :=
  (ts.head?.bind Tok.first).any toks.contains

theorem startsWith_cons (toks : List UInt8) (t : Tok) (ts : List Tok) :
    startsWith toks (t :: ts) = t.first.any toks.contains := rfl

section Rules

variable {x : Lexicon} {l : Line} {s : Nat} {ts : List Tok}

theorem At.length_le (h : At x l s ts) : ts.length ≤ l.es := by
  rw [← h.tokens]
  refine (length_tokens_le ..).trans ?_
  rw [List.length_drop]
  exact Nat.sub_le ..

theorem At.start (x : Lexicon) (l : Line) : At x l 0 (l.tokens x) := ⟨Nat.zero_le _, rfl⟩

/-- Behind the white space. -/
theorem At.spaces (h : At x l s ts) : ∃ s', l.spaces s = pure s' ∧ At x l s' ts ∧
    ∀ c cs, l.text.drop s' = c :: cs → whitespace.contains c = false := by
  have hdrop := l.drop_skip whitespace.contains s
  refine ⟨_, Line.skip_eq _ h.le, ⟨?_, ?_⟩, fun c cs hcs => ?_⟩
  · have := (List.takeWhile_sublist whitespace.contains (l := l.text.drop s)).length_le
    have hle := h.le
    rw [List.length_drop] at this
    unfold Line.es at hle ⊢
    omega
  · rw [hdrop, tokens_dropWhile]
    exact h.tokens
  · rw [hdrop] at hcs
    have := List.head?_dropWhile_not whitespace.contains (l.text.drop s)
    rw [hcs] at this
    simpa using this

theorem Lexicon.not_single_gt (x : Lexicon) : x.single.contains (ch '>') = false := by
  rw [← Bool.not_eq_true, List.contains_iff_mem]
  intro hmem
  have := x.known _ hmem
  revert this
  decide

theorem letter_of_not {c : UInt8} (hspace : whitespace.contains c = false)
    (hgt : c ≠ ch '>') (hsingle : x.single.contains c = false) : x.letter c = true := by
  have hsym : c ∉ x.symbols := by
    rw [x.perm.mem_iff, List.mem_cons]
    rintro (rfl | hc)
    · exact hgt rfl
    · simp [hc] at hsingle
  simp [Lexicon.letter, hsym] at hspace ⊢
  exact hspace

/-- A token of one character. -/
theorem Tok.ofChar_eq_some {c : UInt8} {t : Tok} (h : Tok.ofChar c = some t) :
    t.first = some c ∧ t.ret = c ∧ ∀ q eq, t ≠ .word q eq := by
  have hfirst : t.first = some c := by simpa using List.find?_some h
  refine ⟨hfirst, ?_⟩
  rcases (by simpa using List.mem_of_find?_eq_some h :
    t = .bar ∨ t = .lpar ∨ t = .rpar ∨ t = .semi ∨ t = .amp ∨ t = .lt) with
    rfl | rfl | rfl | rfl | rfl | rfl <;> cases hfirst <;> exact ⟨rfl, nofun⟩

/-- How the tokens begin, by the first character behind the white space. -/
inductive Begins (x : Lexicon) (c : UInt8) (cs : List UInt8) (i : Nat) : List Tok → Prop
  | append (hc : c = ch '>') (hx : x.append = true) (hcs : cs.head? = some (ch '>')) :
      Begins x c cs i (.append :: tokens x cs.tail (i + 2))
  | gt (hc : c = ch '>') (hx : x.append = true → cs.head? ≠ some (ch '>')) :
      Begins x c cs i (.gt :: tokens x cs (i + 1))
  | single {t : Tok} (hc : x.single.contains c = true) (hfirst : t.first = some c)
      (hret : t.ret = c) (hword : ∀ q eq, t ≠ .word q eq) :
      Begins x c cs i (t :: tokens x cs (i + 1))
  | word (hgt : c ≠ ch '>') (hsingle : x.single.contains c = false) (hc : x.letter c = true) :
      Begins x c cs i (.word i (i + 1 + (cs.takeWhile x.letter).length) ::
        tokens x (cs.dropWhile x.letter) (i + 1 + (cs.takeWhile x.letter).length))

theorem begins_tokens (x : Lexicon) {c : UInt8} (hc : whitespace.contains c = false)
    (cs : List UInt8) (i : Nat) : Begins x c cs i (tokens x (c :: cs) i) := by
  rw [tokens, if_neg (by rw [hc]; nofun)]
  split
  · next hgt =>
    split
    · next happ => exact .append hgt happ.1 happ.2
    · next happ => exact .gt hgt fun hx hcs => happ ⟨hx, hcs⟩
  · next hgt =>
    unfold Lexicon.token
    cases hs : x.single.contains c with
    | true =>
      obtain ⟨t, ht⟩ := Option.isSome_iff_exists.mp (x.known c (by simpa using hs))
      obtain ⟨hfirst, hret, hword⟩ := Tok.ofChar_eq_some ht
      rw [if_pos rfl, ht]
      exact .single hs hfirst hret hword
    | false =>
      rw [if_neg nofun]
      exact .word hgt hs (letter_of_not hc hgt hs)

/-- A token is a word, or a symbol that stands in the text. -/
theorem mem_tokens {cs : List UInt8} {i : Nat} {t : Tok} (h : t ∈ tokens x cs i) :
    (∃ q eq, t = .word q eq) ∨ ∃ c ∈ cs, t.first = some c ∧ c ∈ x.symbols := by
  have hgt : ch '>' ∈ x.symbols := x.perm.mem_iff.mpr List.mem_cons_self
  have htail : ∀ {c : UInt8} {ds es : List UInt8}, (∀ d ∈ ds, d ∈ es) →
      ((∃ q eq, t = .word q eq) ∨ ∃ c ∈ ds, t.first = some c ∧ c ∈ x.symbols) →
      (∃ q eq, t = .word q eq) ∨ ∃ d ∈ c :: es, t.first = some d ∧ d ∈ x.symbols := by
    rintro c ds es hds (hword | ⟨d, hd, hfirst⟩)
    · exact .inl hword
    · exact .inr ⟨d, List.mem_cons_of_mem _ (hds d hd), hfirst⟩
  fun_induction tokens x cs i with
  | case1 => cases h
  | case2 c cs i _ ih => exact htail (fun d hd => hd) (ih h)
  | case3 cs i _ _ ih =>
    rcases List.mem_cons.mp h with rfl | h
    · exact .inr ⟨_, List.mem_cons_self, rfl, hgt⟩
    · exact htail (fun d hd => List.mem_of_mem_tail hd) (ih h)
  | case4 cs i _ _ ih =>
    rcases List.mem_cons.mp h with rfl | h
    · exact .inr ⟨_, List.mem_cons_self, rfl, hgt⟩
    · exact htail (fun d hd => hd) (ih h)
  | case5 c cs i _ _ t' ht ih =>
    rcases List.mem_cons.mp h with rfl | h
    · unfold Lexicon.token at ht
      split at ht
      · next hs =>
        refine .inr ⟨c, List.mem_cons_self, (Tok.ofChar_eq_some ht).1, ?_⟩
        exact x.perm.mem_iff.mpr (List.mem_cons_of_mem _ (by simpa using hs))
      · cases ht
    · exact htail (fun d hd => hd) (ih h)
  | case6 c cs i _ _ _ ih =>
    rcases List.mem_cons.mp h with rfl | h
    · exact .inl ⟨_, _, rfl⟩
    · exact htail (fun d hd => (List.dropWhile_sublist _).subset hd) (ih h)

theorem append_of_mem {cs : List UInt8} {i : Nat} (h : .append ∈ tokens x cs i) :
    x.append = true := by
  fun_induction tokens x cs i with
  | case1 => cases h
  | case2 c cs i _ ih => exact ih h
  | case3 cs i happ _ ih => exact happ.1
  | case4 cs i _ _ ih => exact ih ((List.mem_cons.mp h).resolve_left nofun)
  | case5 c cs i _ _ t' ht ih =>
    refine ih ((List.mem_cons.mp h).resolve_left ?_)
    rintro rfl
    unfold Lexicon.token at ht
    split at ht
    · have hmem := List.mem_of_find?_eq_some ht
      simp at hmem
    · cases ht
  | case6 c cs i _ _ _ ih => exact ih ((List.mem_cons.mp h).resolve_left nofun)

theorem takeWhile_congr {p p' : UInt8 → Bool} {cs : List UInt8} (h : ∀ c ∈ cs, p c = p' c) :
    cs.takeWhile p = cs.takeWhile p' ∧ cs.dropWhile p = cs.dropWhile p' := by
  induction cs with
  | nil => exact ⟨rfl, rfl⟩
  | cons c cs ih =>
    obtain ⟨hc, hcs⟩ := List.forall_mem_cons.mp h
    obtain ⟨htake, hdrop⟩ := ih hcs
    rw [List.takeWhile_cons, List.takeWhile_cons, List.dropWhile_cons, List.dropWhile_cons, hc,
      htake, hdrop]
    exact ⟨rfl, rfl⟩

/-- Two lexicons that tell the characters of a text apart in the same way. -/
theorem tokens_congr {x y : Lexicon} {cs : List UInt8} {i : Nat}
    (hsingle : ∀ c ∈ cs, x.single.contains c = y.single.contains c)
    (hgt : ¬[ch '>', ch '>'] <:+: cs) : tokens x cs i = tokens y cs i := by
  have hhead : ∀ {ds : List UInt8}, ¬[ch '>', ch '>'] <:+: ch '>' :: ds →
      ds.head? ≠ some (ch '>') := by
    intro ds hds he
    cases ds with
    | nil => cases he
    | cons d ds =>
      cases he
      exact hds (List.IsPrefix.isInfix ⟨ds, rfl⟩)
  have hletter : ∀ {c}, x.single.contains c = y.single.contains c → x.letter c = y.letter c := by
    intro c hc
    have hsym : x.symbols.contains c = y.symbols.contains c := by
      rw [x.perm.contains_eq, y.perm.contains_eq, List.contains_cons, List.contains_cons, hc]
    rw [Lexicon.letter, Lexicon.letter, hsym]
  have htoken : ∀ {c}, x.single.contains c = y.single.contains c → x.token c = y.token c := by
    intro c hc
    rw [Lexicon.token, Lexicon.token, hc]
  fun_induction tokens x cs i with
  | case1 => rw [tokens_nil]
  | case2 c cs i hspace ih =>
    rw [List.forall_mem_cons] at hsingle
    rw [tokens_space hspace]
    exact ih hsingle.2 fun h => hgt (h.trans (List.suffix_cons c cs).isInfix)
  | case3 cs i happ _ ih => exact absurd happ.2 (hhead hgt)
  | case4 cs i _ hspace ih =>
    rw [List.forall_mem_cons] at hsingle
    rw [tokens, if_neg hspace, if_pos rfl, if_neg (fun h => hhead hgt h.2)]
    rw [ih hsingle.2 fun h => hgt (h.trans (List.suffix_cons _ cs).isInfix)]
  | case5 c cs i hspace hne t' ht ih =>
    rw [List.forall_mem_cons] at hsingle
    rw [tokens, if_neg hspace, if_neg hne, ← htoken hsingle.1, ht]
    rw [ih hsingle.2 fun h => hgt (h.trans (List.suffix_cons _ cs).isInfix)]
  | case6 c cs i hspace hne ht ih =>
    rw [List.forall_mem_cons] at hsingle
    obtain ⟨htake, hdrop⟩ := takeWhile_congr fun d hd => hletter (hsingle.2 d hd)
    rw [tokens, if_neg hspace, if_neg hne, ← htoken hsingle.1, ht, ← htake, ← hdrop]
    dsimp only
    rw [ih]
    · exact fun d hd => hsingle.2 d ((List.dropWhile_sublist _).subset hd)
    · exact fun h => hgt ((h.trans (List.dropWhile_suffix _).isInfix).trans
        (List.suffix_cons _ cs).isInfix)

theorem Line.ne_zero {c : UInt8} {cs : List UInt8} (h : l.text.drop s = c :: cs) : c ≠ 0 := by
  rintro rfl
  exact l.noNul (List.mem_of_mem_drop (h ▸ List.mem_cons_self))

theorem Line.lt_es {c : UInt8} {cs : List UInt8} (h : l.text.drop s = c :: cs) : s < l.es := by
  by_contra hge
  rw [List.drop_eq_nil_of_le (Nat.le_of_not_lt hge)] at h
  cases h

theorem Line.drop_succ {c : UInt8} {cs : List UInt8} (h : l.text.drop s = c :: cs) :
    l.text.drop (s + 1) = cs := by
  rw [← List.drop_drop, h]
  rfl

/-- **The rule of `peek`.** -/
theorem wp_peek {toks : List UInt8} {Q : Bool → Nat → Prop} {E : Stop → Prop} (h : At x l s ts)
    (htoks : ∀ c ∈ toks, c ∈ x.symbols)
    (hQ : ∀ s', At x l s' ts → (s' = l.es ↔ ts = []) → Q (startsWith toks ts) s') :
    wp (peek l toks) Q E s := by
  obtain ⟨s', hs, h', hspace⟩ := h.spaces
  unfold peek
  simp only [wp_bind, wp_get, hs, wp_pure, wp_set, Line.read_eq h'.le]
  cases hcs : l.text.drop s' with
  | nil =>
    have hts : ts = [] := by
      rw [← h'.tokens, hcs, tokens_nil]
    have hes : s' = l.es := Nat.le_antisymm h'.le (List.drop_eq_nil_iff.mp hcs)
    subst hts
    exact hQ s' h' ⟨fun _ => rfl, fun _ => hes⟩
  | cons c cs =>
    have hc := hspace c cs hcs
    have hbegins := begins_tokens x hc cs s'
    rw [← hcs, h'.tokens] at hbegins
    have hvalue : startsWith toks ts = toks.contains c := by
      cases hbegins with
      | append hc' | gt hc' =>
        subst hc'
        rfl
      | single _ hfirst =>
        show (Option.any _ (Tok.first _)) = _
        rw [hfirst]
        rfl
      | word hgt hsingle =>
        symm
        show toks.contains c = false
        rw [← Bool.not_eq_true, List.contains_iff_mem]
        intro hmem
        have := x.perm.mem_iff.mp (htoks c hmem)
        rcases List.mem_cons.mp this with hc' | hc'
        · exact hgt hc'
        · simp [hc'] at hsingle
    have hne : ts ≠ [] := by
      rintro rfl
      cases hbegins
    have hres := hQ s' h' ⟨fun he => absurd (Line.lt_es hcs) (by omega), fun he => absurd he hne⟩
    rw [hvalue] at hres
    simpa [Line.ne_zero hcs] using hres

/-- A word, from its first character on. -/
theorem isWord_of_drop {c : UInt8} {cs : List UInt8} (hcs : l.text.drop s = c :: cs)
    (hc : x.letter c = true) : IsWord x l s (s + 1 + (cs.takeWhile x.letter).length) := by
  have hget : ∀ i, l.text[s + i]? = (c :: cs)[i]? := fun i => by rw [← hcs, List.getElem?_drop]
  have hlen : cs.length + 1 + s = l.es := by
    have := congrArg List.length hcs
    have hlt := Line.lt_es hcs
    rw [List.length_drop, List.length_cons] at this
    unfold Line.es at hlt ⊢
    omega
  have hsplit : ∀ k : Nat, cs[k]? = (cs.takeWhile x.letter ++ cs.dropWhile x.letter)[k]? := fun (k : Nat) => by
    rw [List.takeWhile_append_dropWhile]
  have htake := (List.takeWhile_sublist x.letter (l := cs)).length_le
  refine ⟨by omega, by omega, fun {i d} hi hlt hd => ?_, fun {d} hd => ?_⟩
  · obtain ⟨k, rfl⟩ := Nat.exists_eq_add_of_le hi
    rw [hget] at hd
    cases k with
    | zero =>
      cases hd
      exact hc
    | succ k =>
      rw [List.getElem?_cons_succ] at hd
      have hk : k < (cs.takeWhile x.letter).length := by omega
      rw [hsplit, List.getElem?_append_left hk] at hd
      exact List.mem_takeWhile_imp (List.mem_of_getElem? hd)
  · rw [show s + 1 + (cs.takeWhile x.letter).length =
      s + ((cs.takeWhile x.letter).length + 1) by omega, hget, List.getElem?_cons_succ, hsplit,
      List.getElem?_append_right (Nat.le_refl _), Nat.sub_self, ← List.head?_eq_getElem?] at hd
    have hnot := List.head?_dropWhile_not x.letter cs
    rw [hd] at hnot
    simpa using hnot

/-- **The rule of `gettoken`** at the end of the line. -/
theorem wp_gettoken_nil {Q : Got → Nat → Prop} {E : Stop → Prop} (h : At x l s [])
    (hQ : ∀ s' g, At x l s' [] → g.ret = 0 → Q g s') : wp (gettoken x l) Q E s := by
  obtain ⟨s', hs, h', hspace⟩ := h.spaces
  obtain ⟨s'', hs', h'', -⟩ := h'.spaces
  have hcs : l.text.drop s' = [] := by
    cases hcs : l.text.drop s' with
    | nil => rfl
    | cons c cs =>
      have hbegins := begins_tokens x (hspace c cs hcs) cs s'
      rw [← hcs, h'.tokens] at hbegins
      cases hbegins
  unfold gettoken
  simp only [wp_bind, wp_get, hs, wp_pure, Line.read_eq h'.le, hcs, List.headD_nil, scan, if_true,
    hs', wp_set]
  exact hQ s'' _ h'' rfl

theorem At.drop {cs : List UInt8} {e : Nat} (he : e ≤ l.es) (hcs : l.text.drop e = cs) :
    At x l e (Shell.tokens x cs e) :=
  ⟨he, by rw [hcs]⟩

/-- The `switch` goes behind the token. -/
theorem scan_eq {c : UInt8} {cs : List UInt8} {t : Tok} (hcs : l.text.drop s = c :: cs)
    (h : Begins x c cs s (t :: ts)) :
    ∃ e, scan x l c s = pure (t.ret, e) ∧ s < e ∧ At x l e ts ∧
      ∀ q eq, t = .word q eq → s = q ∧ e = eq ∧ IsWord x l q eq := by
  have hne := Line.ne_zero hcs
  have hlt := Line.lt_es hcs
  have hnext := Line.drop_succ hcs
  unfold scan
  rw [if_neg hne]
  cases h with
  | append hc hx hcs' =>
    subst hc
    obtain ⟨d, ds, rfl⟩ : ∃ d ds, cs = d :: ds := by
      cases cs with
      | nil => cases hcs'
      | cons d ds => exact ⟨d, ds, rfl⟩
    cases hcs'
    have hlt' := Line.lt_es hnext
    rw [if_neg (by rw [x.not_single_gt]; nofun), if_pos rfl, if_pos hx, Line.read_eq hlt, hnext]
    exact ⟨s + 2, rfl, by omega, .drop hlt' (Line.drop_succ hnext), nofun⟩
  | gt hc hx =>
    subst hc
    refine ⟨s + 1, ?_, by omega, .drop hlt hnext, nofun⟩
    rw [if_neg (by rw [x.not_single_gt]; nofun), if_pos rfl]
    split
    · next happ =>
      have hd : cs.headD 0 ≠ ch '>' := by
        cases cs with
        | nil => decide
        | cons d ds => exact fun e => hx happ (congrArg some e)
      rw [Line.read_eq hlt, hnext, pure_bind, if_neg hd]
      rfl
    · rfl
  | single hc hfirst hret hword =>
    rw [if_pos hc, hret]
    exact ⟨s + 1, rfl, by omega, .drop hlt hnext, fun q eq he => absurd he (hword q eq)⟩
  | word hgt hsingle hc =>
    have hword := isWord_of_drop hcs hc
    have hskip : s + ((l.text.drop s).takeWhile x.letter).length =
        s + 1 + (cs.takeWhile x.letter).length := by
      rw [hcs, List.takeWhile_cons, if_pos hc, List.length_cons]
      omega
    rw [if_neg (by rw [hsingle]; nofun), if_neg hgt, Line.skip_eq _ hlt.le, hskip]
    refine ⟨_, rfl, hword.lt, .drop hword.le ?_, fun q eq he => ?_⟩
    · rw [← hskip, Line.drop_skip, hcs, List.dropWhile_cons, if_pos hc]
    · cases he
      exact ⟨rfl, rfl, hword⟩

/-- The words among the tokens are words of the line. -/
theorem isWord_of_mem {q eq : Nat} (hs : s ≤ l.es)
    (hmem : .word q eq ∈ tokens x (l.text.drop s) s) : IsWord x l q eq := by
  -- on what is left of the line; each token is followed by less
  induction hn : l.es - s using Nat.strong_induction_on generalizing s with
  | _ n ih =>
    subst hn
    cases hcs : l.text.drop s with
    | nil =>
      rw [hcs, tokens_nil] at hmem
      cases hmem
    | cons c cs =>
      have hlt := Line.lt_es hcs
      have hnext := Line.drop_succ hcs
      rw [hcs] at hmem
      have htail : ∀ e, s < e → e ≤ l.es → .word q eq ∈ tokens x (l.text.drop e) e →
          IsWord x l q eq := fun e hse he hmem => ih (l.es - e) (by omega) he hmem rfl
      cases hspace : whitespace.contains c with
      | true =>
        rw [tokens_space hspace, ← hnext] at hmem
        exact htail (s + 1) (by omega) hlt hmem
      | false =>
        generalize hts : tokens x (c :: cs) s = ts at hmem
        have hbegins := begins_tokens x hspace cs s
        rw [hts] at hbegins
        cases ts with
        | nil => cases hbegins
        | cons t ts =>
          obtain ⟨e, -, hse, he, hword⟩ := scan_eq hcs hbegins
          rcases List.mem_cons.mp hmem with ht | hmem
          · exact (hword q eq ht.symm).2.2
          · rw [← he.tokens] at hmem
            exact htail e hse he.le hmem

theorem At.isWord {q eq : Nat} (h : At x l s ts) (hmem : .word q eq ∈ ts) : IsWord x l q eq := by
  rw [← h.tokens] at hmem
  exact isWord_of_mem h.le hmem

/-- **The rule of `gettoken`** at a token. -/
theorem wp_gettoken {t : Tok} {Q : Got → Nat → Prop} {E : Stop → Prop} (h : At x l s (t :: ts))
    (hQ : ∀ s' g, At x l s' ts → g.ret = t.ret →
      (∀ q eq, t = .word q eq → g.q = q ∧ g.eq = eq) → Q g s') :
    wp (gettoken x l) Q E s := by
  obtain ⟨s', hs, h', hspace⟩ := h.spaces
  cases hcs : l.text.drop s' with
  | nil =>
    have := h'.tokens
    rw [hcs, tokens_nil] at this
    cases this
  | cons c cs =>
    have hbegins := begins_tokens x (hspace c cs hcs) cs s'
    rw [← hcs, h'.tokens] at hbegins
    obtain ⟨e, hscan, -, he, hword⟩ := scan_eq hcs hbegins
    obtain ⟨s'', hs', h'', -⟩ := he.spaces
    unfold gettoken
    simp only [wp_bind, wp_get, hs, wp_pure, Line.read_eq h'.le, hcs, List.headD_cons, hscan, hs',
      wp_set]
    exact hQ s'' _ h'' rfl fun q eq ht => ⟨(hword q eq ht).1, (hword q eq ht).2.1⟩

end Rules

end Laboratorio.Shell
