import Laboratorio.Shell.Parser

/-!
# The parser of the xv6 shell (`xv6/sh.c`)

The recursive descent over lines, pipes and blocks, and `nulterminate`, which ends the words in the
buffer of the line itself. The functions call one another with a bound on the depth; a line never
needs more than four calls for each of its tokens.

The parser returns exactly the trees that the grammar derives (`parsecmd_spec`), and no NUL that is
written damages a word.
-/

namespace Laboratorio.Shell.Xv6

open Laboratorio.Wp

/-- `q` and `eq` of a word. -/
structure Place where
  q : Nat
  eq : Nat
deriving DecidableEq, Repr

/-- What is special about the xv6 shell. -/
def dialect : Dialect Place where
  single := ['|', '(', ')', ';', '&', '<'].map ch
  symbols := ['<', '|', '>', '&', ';', '(', ')'].map ch
  append := true
  perm := by decide +kernel
  known := by decide +kernel
  word _ q eq := pure ⟨q, eq⟩
  value _ q eq := ⟨q, eq⟩
  word_eq _ _ := rfl
  opens tok :=
    if tok = ch '<' then some ([], 0)
    else if tok = ch '>' then some ([.wronly, .create], 1)
    else if tok = ch '+' then some ([.wronly, .create], 1)
    else none
  stops := ['|', ')', '&', ';'].map ch
  missing := "missing file for redirection"
  syntaxError := "syntax"
  lt_mem := by decide +kernel
  stops_mem := by decide +kernel

/-! ## The parser -/

/-- The loop of `parseline` over `&`. -/
def parseback (l : Line) : Nat → Cmd Place → Parse (Cmd Place)
  | 0, _ => throw .fuel
  | fuel + 1, cmd => do
    if ← peek l [ch '&'] then
      let _ ← gettoken dialect.toLexicon l
      parseback l fuel (.back cmd)
    else pure cmd

mutual

def parseline (l : Line) : Nat → Parse (Cmd Place)
  | 0 => throw .fuel
  | fuel + 1 => do
    let cmd ← parsepipe l fuel
    let cmd ← parseback l (l.es + 1) cmd
    if ← peek l [ch ';'] then
      let _ ← gettoken dialect.toLexicon l
      let right ← parseline l fuel
      pure (.list cmd right)
    else pure cmd

def parsepipe (l : Line) : Nat → Parse (Cmd Place)
  | 0 => throw .fuel
  | fuel + 1 => do
    let cmd ← parseexec l fuel
    if ← peek l [ch '|'] then
      let _ ← gettoken dialect.toLexicon l
      let right ← parsepipe l fuel
      pure (.pipe cmd right)
    else pure cmd

def parseexec (l : Line) : Nat → Parse (Cmd Place)
  | 0 => throw .fuel
  | fuel + 1 => do
    if ← peek l [ch '('] then parseblock l fuel
    else parsesimple dialect l

def parseblock (l : Line) : Nat → Parse (Cmd Place)
  | 0 => throw .fuel
  | fuel + 1 => do
    if !(← peek l [ch '(']) then throw (.panic "parseblock")
    let _ ← gettoken dialect.toLexicon l
    let cmd ← parseline l fuel
    if !(← peek l [ch ')']) then throw (.panic "syntax - missing )")
    let _ ← gettoken dialect.toLexicon l
    parseredirs dialect l (l.es + 1) cmd

end

/-- `nulterminate`: the buffer after the terminators are written. -/
def nulterminate : Cmd Place → List UInt8 → List UInt8
  | .exec argv, buf => argv.foldl (fun buf w => buf.set w.eq 0) buf
  | .redir c file _ _, buf => (nulterminate c buf).set file.eq 0
  | .pipe left right, buf => nulterminate right (nulterminate left buf)
  | .list left right, buf => nulterminate right (nulterminate left buf)
  | .back c, buf => nulterminate c buf

/-- `parsecmd`, up to `nulterminate`. -/
def parsetree (l : Line) : Parse (Cmd Place) := do
  let cmd ← parseline l (4 * l.es + 4)
  let _ ← peek l []
  if (← get) ≠ l.es then throw (.panic "syntax")
  pure cmd

/-- `parsecmd`: the tree, and the buffer it points into. -/
def parsecmd (l : Line) : Except Stop (Cmd Place × List UInt8) :=
  match parsetree l 0 with
  | .ok (cmd, _) => .ok (cmd, nulterminate cmd (l.text ++ [0]))
  | .error e => .error e

/-- The string at a pointer. -/
def cstring (buf : List UInt8) (q : Nat) : List UInt8 := (buf.drop q).takeWhile (· ≠ 0)

/-! ## What is returned is derived -/

variable {l : Line} {s fuel : Nat} {ts us : List Tok} {c : Cmd Place}

/-- The pointer, in the lexicon of this shell. -/
abbrev At (l : Line) (s : Nat) (ts : List Tok) : Prop := Shell.At dialect.toLexicon l s ts

/-- The token of a symbol can be told from its character. -/
theorem eq_of_first {t t' : Tok} (h : t.first = t'.first) (hgt : t'.first ≠ some (ch '>'))
    (hword : t'.first ≠ none) : t = t' := by
  cases t' with
  | gt | append => exact absurd rfl hgt
  | word => exact absurd rfl hword
  | _ =>
    cases t with
    | word => cases h
    | _ => first | rfl | exact absurd h (by decide)

theorem startsWith_symbol {t : Tok} {c : UInt8} (ht : t.first = some c) (hc : c ≠ ch '>')
    (h : startsWith [c] ts = true) : ∃ us, ts = t :: us := by
  cases ts with
  | nil => cases h
  | cons t' us =>
    rw [startsWith_cons] at h
    cases hf : t'.first with
    | none =>
      rw [hf] at h
      cases h
    | some c' =>
      rw [hf] at h
      have hcc : c' = c := by simpa using h
      have htt : t' = t := by
        refine eq_of_first (by rw [hf, ht, hcc]) ?_ ?_
        · rw [ht]
          exact fun e => hc (Option.some.inj e)
        · rw [ht]
          nofun
      exact ⟨us, by rw [htt]⟩

/-- A run from `s` returns a tree that the grammar derives from tokens that it has consumed, or it
ends with an error of the shell. -/
def Sound (l : Line) (nt : Nt) (m : Parse (Cmd Place)) (s : Nat) (ts : List Tok) : Prop :=
  ∀ {Q : Cmd Place → Nat → Prop} {E : Stop → Prop}, (∀ m, E (.panic m)) →
    (∀ c pre us s', Derives dialect l nt pre c → ts = pre ++ us → At l s' us → Q c s') →
    wp m Q E s

theorem symbol_mem {c : UInt8} (h : c ∈ dialect.symbols) : ∀ d ∈ [c], d ∈ dialect.symbols := by
  intro d hd
  rw [List.mem_singleton.mp hd]
  exact h

theorem wp_parseback_sound {Q : Cmd Place → Nat → Prop}
    {E : Stop → Prop} (h : At l s ts) (hfuel : ts.length < fuel)
    (hQ : ∀ k us s', ts = List.replicate k .amp ++ us → At l s' us → Q (Cmd.back^[k] c) s') :
    wp (parseback l fuel c) Q E s := by
  induction fuel generalizing s ts c with
  | zero => exact absurd hfuel (Nat.not_lt_zero _)
  | succ fuel ih =>
    unfold parseback
    rw [wp_bind]
    refine wp_peek h (symbol_mem (by decide +kernel)) fun s₁ h₁ _ => ?_
    cases hst : startsWith [ch '&'] ts with
    | false => exact hQ 0 ts s₁ rfl h₁
    | true =>
      obtain ⟨us, rfl⟩ := startsWith_symbol (t := .amp) rfl (by decide) hst
      simp only [if_true, wp_bind]
      refine wp_gettoken h₁ fun s₂ _ h₂ _ _ => ?_
      refine ih h₂ (Nat.lt_of_succ_lt_succ hfuel) fun k vs s' hvs h' => ?_
      refine hQ (k + 1) vs s' ?_ h'
      rw [hvs, List.replicate_succ, List.cons_append]

theorem sound_parseline (hfuel : 4 * ts.length + 4 ≤ fuel + 1)
    (hpipe : Sound l .pipe (parsepipe l fuel) s ts)
    (hline : ∀ {s ts}, At l s ts → 4 * ts.length + 4 ≤ fuel → Sound l .line (parseline l fuel) s ts) :
    Sound l .line (parseline l (fuel + 1)) s ts := by
  intro Q E hE hQ
  unfold parseline
  rw [wp_bind]
  refine hpipe hE fun c pre us s₁ hd hus h₁ => ?_
  rw [wp_bind]
  refine wp_parseback_sound h₁ (Nat.lt_succ_of_le h₁.length_le) fun k vs s₂ hvs h₂ => ?_
  rw [wp_bind]
  refine wp_peek h₂ (symbol_mem (by decide +kernel)) fun s₃ h₃ _ => ?_
  cases hst : startsWith [ch ';'] vs with
  | false =>
    refine hQ _ _ vs s₃ (.line k hd) ?_ h₃
    rw [hus, hvs, List.append_assoc]
  | true =>
    obtain ⟨ws, rfl⟩ := startsWith_symbol (t := .semi) rfl (by decide) hst
    simp only [if_true, wp_bind]
    refine wp_gettoken h₃ fun s₄ _ h₄ _ _ => ?_
    refine hline h₄ ?_ hE fun e pre' xs s₅ hd' hxs h₅ => ?_
    · have := congrArg List.length hus
      rw [hvs] at this
      simp only [List.length_append, List.length_cons] at this
      omega
    · refine hQ _ _ xs s₅ (.seq k hd hd') ?_ h₅
      rw [hus, hvs, hxs]
      simp only [List.append_assoc, List.cons_append]

theorem sound_parsepipe (hfuel : 4 * ts.length + 3 ≤ fuel + 1)
    (hexec : Sound l .exec (parseexec l fuel) s ts)
    (hpipe : ∀ {s ts}, At l s ts → 4 * ts.length + 3 ≤ fuel → Sound l .pipe (parsepipe l fuel) s ts) :
    Sound l .pipe (parsepipe l (fuel + 1)) s ts := by
  intro Q E hE hQ
  unfold parsepipe
  rw [wp_bind]
  refine hexec hE fun c pre us s₁ hd hus h₁ => ?_
  rw [wp_bind]
  refine wp_peek h₁ (symbol_mem (by decide +kernel)) fun s₂ h₂ _ => ?_
  cases hst : startsWith [ch '|'] us with
  | false => exact hQ _ _ us s₂ (.exec hd) hus h₂
  | true =>
    obtain ⟨vs, rfl⟩ := startsWith_symbol (t := .bar) rfl (by decide) hst
    simp only [if_true, wp_bind]
    refine wp_gettoken h₂ fun s₃ _ h₃ _ _ => ?_
    refine hpipe h₃ ?_ hE fun e pre' xs s₄ hd' hxs h₄ => ?_
    · have := congrArg List.length hus
      simp only [List.length_append, List.length_cons] at this
      omega
    · refine hQ _ _ xs s₄ (.pipe hd hd') ?_ h₄
      rw [hus, hxs]
      simp only [List.append_assoc, List.cons_append]

theorem sound_parseblock (h : At l s ts) (hfuel : 4 * ts.length + 1 ≤ fuel + 1)
    (hline : ∀ {s ts}, At l s ts → 4 * ts.length + 4 ≤ fuel → Sound l .line (parseline l fuel) s ts) :
    Sound l .exec (parseblock l (fuel + 1)) s ts := by
  intro Q E hE hQ
  unfold parseblock
  rw [wp_bind]
  refine wp_peek h (symbol_mem (by decide +kernel)) fun s₁ h₁ _ => ?_
  cases hst : startsWith [ch '('] ts with
  | false => exact hE _
  | true =>
    obtain ⟨us, rfl⟩ := startsWith_symbol (t := .lpar) rfl (by decide) hst
    simp only [Bool.not_true, Bool.false_eq_true, if_false, wp_bind]
    refine wp_gettoken h₁ fun s₂ _ h₂ _ _ => ?_
    refine hline h₂ (by rw [List.length_cons] at hfuel; omega) hE
      fun c pre vs s₃ hd hvs h₃ => ?_
    refine wp_peek h₃ (symbol_mem (by decide +kernel)) fun s₄ h₄ _ => ?_
    cases hst' : startsWith [ch ')'] vs with
    | false => exact hE _
    | true =>
      obtain ⟨ws, rfl⟩ := startsWith_symbol (t := .rpar) rfl (by decide) hst'
      simp only [Bool.not_true, Bool.false_eq_true, if_false, wp_bind]
      refine wp_gettoken h₄ fun s₅ _ h₅ _ _ => ?_
      refine wp_parseredirs_sound h₅ (Nat.lt_succ_of_le h₅.length_le) hE
        fun rs xs s₆ hxs _ h₆ => ?_
      refine hQ _ _ xs s₆ (.block rs hd) ?_ h₆
      rw [hvs, hxs]
      simp only [List.append_assoc, List.cons_append]

theorem sound_parseexec (h : At l s ts)
    (hblock : ∀ {s}, At l s ts → Sound l .exec (parseblock l fuel) s ts) :
    Sound l .exec (parseexec l (fuel + 1)) s ts := by
  intro Q E hE hQ
  unfold parseexec
  rw [wp_bind]
  refine wp_peek h (symbol_mem (by decide +kernel)) fun s₁ h₁ _ => ?_
  cases startsWith [ch '('] ts with
  | true => exact hblock h₁ hE hQ
  | false =>
    exact wp_parsesimple_sound h₁ hE fun c pre us s' hd hus _ h' => hQ c pre us s' hd hus h'

/-- **Soundness.** With enough fuel, each function returns what the grammar derives. -/
theorem sound (l : Line) (fuel : Nat) :
    (∀ {s ts}, At l s ts → 4 * ts.length + 4 ≤ fuel → Sound l .line (parseline l fuel) s ts) ∧
    (∀ {s ts}, At l s ts → 4 * ts.length + 3 ≤ fuel → Sound l .pipe (parsepipe l fuel) s ts) ∧
    (∀ {s ts}, At l s ts → 4 * ts.length + 2 ≤ fuel → Sound l .exec (parseexec l fuel) s ts) ∧
    (∀ {s ts}, At l s ts → 4 * ts.length + 1 ≤ fuel → Sound l .exec (parseblock l fuel) s ts) := by
  induction fuel with
  | zero => exact ⟨by omega, by omega, by omega, by omega⟩
  | succ fuel ih =>
    obtain ⟨hline, hpipe, hexec, hblock⟩ := ih
    refine ⟨fun h hf => ?_, fun h hf => ?_, fun h hf => ?_, fun h hf => ?_⟩
    · exact sound_parseline hf (hpipe h (by omega)) hline
    · exact sound_parsepipe hf (hexec h (by omega)) hpipe
    · exact sound_parseexec h fun h => hblock h (by omega)
    · exact sound_parseblock h hf hline

/-! ## What is derived is returned -/

/-- What may follow a phrase. -/
def Follow : Nt → List Tok → Prop
  | _, [] => True
  | .line, t :: _ => t = .rpar
  | .pipe, t :: _ => t = .rpar ∨ t = .amp ∨ t = .semi
  | .exec, t :: _ => t = .rpar ∨ t = .amp ∨ t = .semi ∨ t = .bar

theorem Follow.pipe (h : Follow .line us) (k : Nat) :
    Follow .pipe (List.replicate k .amp ++ us) := by
  cases k with
  | zero =>
    cases us with
    | nil => trivial
    | cons t us => exact .inl h
  | succ k => exact .inr (.inl rfl)

theorem Follow.exec (h : Follow .pipe us) : Follow .exec us := by
  cases us with
  | nil => trivial
  | cons t us =>
    rcases h with h | h | h
    · exact .inl h
    · exact .inr (.inl h)
    · exact .inr (.inr (.inl h))

theorem Follow.ends (h : Follow .exec us) : dialect.Ends us := by
  cases us with
  | nil => exact .inl rfl
  | cons t us =>
    refine .inr ?_
    rw [startsWith_cons]
    rcases h with rfl | rfl | rfl | rfl <;> decide +kernel

/-- A symbol that does not follow a phrase. -/
theorem Follow.not_startsWith {c : UInt8} {nt : Nt} (h : Follow nt us)
    (hc : ∀ t vs, Follow nt (t :: vs) → t.first ≠ some c) : startsWith [c] us = false := by
  cases us with
  | nil => rfl
  | cons t us =>
    have hne := hc t us h
    rw [startsWith_cons]
    cases hf : t.first with
    | none => rfl
    | some c' =>
      rw [hf] at hne
      simpa using fun e => hne (congrArg some e)

theorem Follow.not_semi (h : Follow .line us) : startsWith [ch ';'] us = false :=
  h.not_startsWith fun t vs ht => by
    cases (ht : t = .rpar)
    decide

theorem Follow.not_amp (h : Follow .line us) : startsWith [ch '&'] us = false :=
  h.not_startsWith fun t vs ht => by
    cases (ht : t = .rpar)
    decide

theorem Follow.not_bar (h : Follow .pipe us) : startsWith [ch '|'] us = false :=
  h.not_startsWith fun t vs ht => by
    rcases (ht : t = .rpar ∨ t = .amp ∨ t = .semi) with rfl | rfl | rfl <;> decide

theorem wp_parseback_complete {k : Nat}
    {Q : Cmd Place → Nat → Prop} {E : Stop → Prop} (h : At l s (List.replicate k .amp ++ us))
    (hfuel : k < fuel) (hst : startsWith [ch '&'] us = false)
    (hQ : ∀ s', At l s' us → Q (Cmd.back^[k] c) s') : wp (parseback l fuel c) Q E s := by
  induction k generalizing s c fuel with
  | zero =>
    obtain ⟨fuel, rfl⟩ := Nat.exists_eq_succ_of_ne_zero (Nat.ne_of_gt hfuel)
    unfold parseback
    rw [wp_bind]
    refine wp_peek h (symbol_mem (by decide +kernel)) fun s₁ h₁ _ => ?_
    rw [List.replicate_zero, List.nil_append, hst]
    exact hQ s₁ h₁
  | succ k ih =>
    obtain ⟨fuel, rfl⟩ := Nat.exists_eq_succ_of_ne_zero (Nat.ne_of_gt (Nat.zero_lt_of_lt hfuel))
    unfold parseback
    rw [wp_bind]
    refine wp_peek h (symbol_mem (by decide +kernel)) fun s₁ h₁ _ => ?_
    rw [List.replicate_succ, List.cons_append] at h₁ ⊢
    rw [startsWith_cons, show Tok.amp.first.any [ch '&'].contains = true by decide]
    simp only [if_true, wp_bind]
    refine wp_gettoken h₁ fun s₂ _ h₂ _ _ => ?_
    exact ih h₂ (Nat.lt_of_succ_lt_succ hfuel) hQ

/-- The function of each nonterminal. -/
def parse (l : Line) : Nt → Nat → Parse (Cmd Place)
  | .line => parseline l
  | .pipe => parsepipe l
  | .exec => parseexec l

/-- The fuel that a nonterminal needs besides four for each token. -/
def rank : Nt → Nat
  | .line => 4
  | .pipe => 3
  | .exec => 2

/-- A run from `s` returns the tree, and stops in front of the tokens `us`. -/
def Complete (m : Parse (Cmd Place)) (c : Cmd Place) (l : Line) (s : Nat) (us : List Tok) : Prop :=
  ∀ {Q : Cmd Place → Nat → Prop} {E : Stop → Prop}, (∀ s', At l s' us → Q c s') → wp m Q E s

theorem At.replicate_lt {k : Nat} (h : At l s (List.replicate k .amp ++ us)) :
    k < l.es + 1 := by
  have := h.length_le
  rw [List.length_append, List.length_replicate] at this
  omega

theorem complete_line {k : Nat}
    (hpipe : Complete (parsepipe l fuel) c l s (List.replicate k .amp ++ us))
    (hus : Follow .line us) : Complete (parseline l (fuel + 1)) (Cmd.back^[k] c) l s us := by
  intro Q E hQ
  unfold parseline
  rw [wp_bind]
  refine hpipe fun s₁ h₁ => ?_
  rw [wp_bind]
  refine wp_parseback_complete h₁ (At.replicate_lt h₁) hus.not_amp fun s₂ h₂ => ?_
  rw [wp_bind]
  refine wp_peek h₂ (symbol_mem (by decide +kernel)) fun s₃ h₃ _ => ?_
  rw [hus.not_semi]
  exact hQ s₃ h₃

theorem complete_seq {k : Nat} {e : Cmd Place} {pre : List Tok}
    (hpipe : Complete (parsepipe l fuel) c l s (List.replicate k .amp ++ .semi :: (pre ++ us)))
    (hline : ∀ {s}, At l s (pre ++ us) → Complete (parseline l fuel) e l s us) :
    Complete (parseline l (fuel + 1)) (.list (Cmd.back^[k] c) e) l s us := by
  intro Q E hQ
  unfold parseline
  rw [wp_bind]
  refine hpipe fun s₁ h₁ => ?_
  rw [wp_bind]
  refine wp_parseback_complete h₁ (At.replicate_lt h₁) (by rw [startsWith_cons]; decide)
    fun s₂ h₂ => ?_
  rw [wp_bind]
  refine wp_peek h₂ (symbol_mem (by decide +kernel)) fun s₃ h₃ _ => ?_
  rw [startsWith_cons, show Tok.semi.first.any [ch ';'].contains = true by decide]
  simp only [if_true, wp_bind]
  refine wp_gettoken h₃ fun s₄ _ h₄ _ _ => ?_
  exact hline h₄ hQ

theorem complete_exec (hexec : Complete (parseexec l fuel) c l s us) (hus : Follow .pipe us) :
    Complete (parsepipe l (fuel + 1)) c l s us := by
  intro Q E hQ
  unfold parsepipe
  rw [wp_bind]
  refine hexec fun s₁ h₁ => ?_
  rw [wp_bind]
  refine wp_peek h₁ (symbol_mem (by decide +kernel)) fun s₂ h₂ _ => ?_
  rw [hus.not_bar]
  exact hQ s₂ h₂

theorem complete_pipe {e : Cmd Place} {pre : List Tok}
    (hexec : Complete (parseexec l fuel) c l s (.bar :: (pre ++ us)))
    (hpipe : ∀ {s}, At l s (pre ++ us) → Complete (parsepipe l fuel) e l s us) :
    Complete (parsepipe l (fuel + 1)) (.pipe c e) l s us := by
  intro Q E hQ
  unfold parsepipe
  rw [wp_bind]
  refine hexec fun s₁ h₁ => ?_
  rw [wp_bind]
  refine wp_peek h₁ (symbol_mem (by decide +kernel)) fun s₂ h₂ _ => ?_
  rw [startsWith_cons, show Tok.bar.first.any [ch '|'].contains = true by decide]
  simp only [if_true, wp_bind]
  refine wp_gettoken h₂ fun s₃ _ h₃ _ _ => ?_
  exact hpipe h₃ hQ

theorem complete_block {pre : List Tok} {rs : List Redir}
    (h : At l s (.lpar :: (pre ++ .rpar :: (rs.flatMap Redir.toks ++ us))))
    (hline : ∀ {s}, At l s (pre ++ .rpar :: (rs.flatMap Redir.toks ++ us)) →
      Complete (parseline l fuel) c l s (.rpar :: (rs.flatMap Redir.toks ++ us)))
    (hus : Follow .exec us) : Complete (parseexec l (fuel + 2)) (dialect.wraps l rs c) l s us := by
  intro Q E hQ
  unfold parseexec
  rw [wp_bind]
  refine wp_peek h (symbol_mem (by decide +kernel)) fun s₁ h₁ _ => ?_
  rw [startsWith_cons, show Tok.lpar.first.any [ch '('].contains = true by decide, if_pos rfl]
  unfold parseblock
  rw [wp_bind]
  refine wp_peek h₁ (symbol_mem (by decide +kernel)) fun s₂ h₂ _ => ?_
  rw [startsWith_cons, show Tok.lpar.first.any [ch '('].contains = true by decide]
  simp only [Bool.not_true, Bool.false_eq_true, if_false, wp_bind]
  refine wp_gettoken h₂ fun s₃ _ h₃ _ _ => ?_
  refine hline h₃ fun s₄ h₄ => ?_
  refine wp_peek h₄ (symbol_mem (by decide +kernel)) fun s₅ h₅ _ => ?_
  rw [startsWith_cons, show Tok.rpar.first.any [ch ')'].contains = true by decide]
  simp only [Bool.not_true, Bool.false_eq_true, if_false, wp_bind]
  refine wp_gettoken h₅ fun s₆ _ h₆ _ _ => ?_
  refine wp_parseredirs_complete h₆ ?_ hus.ends.not_redir hQ
  have hlen := h₆.length_le
  have := length_le_toks rs
  rw [List.length_append] at hlen
  omega

theorem complete_simple {rs : List Redir} {as : List Arg}
    (h : At l s (rs.flatMap Redir.toks ++ as.flatMap Arg.toks ++ us)) (hmax : as.length < maxargs)
    (hus : Follow .exec us) :
    Complete (parseexec l (fuel + 1)) (dialect.simple l rs as) l s us := by
  intro Q E hQ
  unfold parseexec
  rw [wp_bind]
  refine wp_peek h (symbol_mem (by decide +kernel)) fun s₁ h₁ _ => ?_
  have hst : startsWith [ch '('] (rs.flatMap Redir.toks ++ as.flatMap Arg.toks ++ us) = false := by
    cases rs with
    | cons r rs =>
      show startsWith [ch '('] (r.op.tok :: _) = false
      rw [startsWith_cons]
      cases r.op <;> decide
    | nil =>
      cases as with
      | cons a as => rfl
      | nil =>
        refine hus.not_startsWith fun t vs ht => ?_
        rcases (ht : t = .rpar ∨ t = .amp ∨ t = .semi ∨ t = .bar) with
          rfl | rfl | rfl | rfl <;> decide
  rw [hst]
  exact wp_parsesimple_complete h₁ hmax hus.ends hQ

/-- **Completeness.** With enough fuel, what the grammar derives is returned. -/
theorem complete {nt : Nt} {pre : List Tok} (hd : Derives dialect l nt pre c) :
    ∀ {us : List Tok} {s fuel : Nat}, At l s (pre ++ us) → Follow nt us →
      4 * (pre ++ us).length + rank nt ≤ fuel → Complete (parse l nt fuel) c l s us := by
  induction hd with
  | line k hp ih =>
    intro us s fuel h hus hfuel
    obtain ⟨fuel, rfl⟩ : ∃ f, fuel = f + 1 := ⟨fuel - 1, by simp only [rank] at hfuel; omega⟩
    rw [List.append_assoc] at h hfuel
    exact complete_line (ih h (hus.pipe k) (by simp only [rank] at hfuel ⊢; omega)) hus
  | seq k hp hl ihp ihl =>
    intro us s fuel h hus hfuel
    obtain ⟨fuel, rfl⟩ : ∃ f, fuel = f + 1 := ⟨fuel - 1, by simp only [rank] at hfuel; omega⟩
    simp only [List.append_assoc, List.cons_append] at h hfuel
    refine complete_seq (ihp h ?_ (by simp only [rank] at hfuel ⊢; omega)) fun h' =>
      ihl h' hus ?_
    · cases k with
      | zero => exact .inr (.inr rfl)
      | succ k => exact .inr (.inl rfl)
    · simp only [rank, List.length_append, List.length_cons] at hfuel ⊢
      omega
  | exec he ih =>
    intro us s fuel h hus hfuel
    obtain ⟨fuel, rfl⟩ : ∃ f, fuel = f + 1 := ⟨fuel - 1, by simp only [rank] at hfuel; omega⟩
    exact complete_exec (ih h hus.exec (by simp only [rank] at hfuel ⊢; omega)) hus
  | pipe he hp ihe ihp =>
    intro us s fuel h hus hfuel
    obtain ⟨fuel, rfl⟩ : ∃ f, fuel = f + 1 := ⟨fuel - 1, by simp only [rank] at hfuel; omega⟩
    simp only [List.append_assoc, List.cons_append] at h hfuel
    refine complete_pipe (ihe h (.inr (.inr (.inr rfl))) (by simp only [rank] at hfuel ⊢; omega))
      fun h' => ihp h' hus ?_
    simp only [rank, List.length_append, List.length_cons] at hfuel ⊢
    omega
  | block rs hl ih =>
    intro us s fuel h hus hfuel
    obtain ⟨fuel, rfl⟩ : ∃ f, fuel = f + 2 := ⟨fuel - 2, by simp only [rank] at hfuel; omega⟩
    simp only [List.append_assoc, List.cons_append] at h hfuel
    refine complete_block h (fun h' => ih h' rfl ?_) hus
    simp only [rank, List.length_append, List.length_cons] at hfuel ⊢
    omega
  | simple rs as hmax =>
    intro us s fuel h hus hfuel
    obtain ⟨fuel, rfl⟩ : ∃ f, fuel = f + 1 := ⟨fuel - 1, by simp only [rank] at hfuel; omega⟩
    exact complete_simple h hmax hus

/-! ## The terminators -/

theorem words_wraps {w : Place} (rs : List Redir) (c : Cmd Place)
    (hw : w ∈ (dialect.wraps l rs c).words) :
    w ∈ c.words ∨ .word w.q w.eq ∈ rs.flatMap Redir.toks := by
  induction rs generalizing c with
  | nil => exact .inl hw
  | cons r rs ih =>
    rcases ih _ hw with hw | hw
    · unfold Dialect.wrap Dialect.redircmd at hw
      split at hw
      · rcases List.mem_append.mp hw with hw | hw
        · exact .inl hw
        · rw [List.mem_singleton.mp hw]
          exact .inr (List.mem_append_left _ (List.mem_cons_of_mem _ List.mem_cons_self))
      · exact .inl hw
    · exact .inr (List.mem_append_right _ hw)

/-- The words of a tree stand in the tokens that it is derived from. -/
theorem mem_of_derives {nt : Nt} (hd : Derives dialect l nt ts c) {w : Place}
    (hw : w ∈ c.words) : .word w.q w.eq ∈ ts := by
  have hback : ∀ (k : Nat) (c : Cmd Place), (Cmd.back^[k] c).words = c.words := by
    intro k
    induction k with
    | zero => exact fun c => rfl
    | succ k ih => exact fun c => ih (.back c)
  induction hd with
  | line k _ ih =>
    rw [hback] at hw
    exact List.mem_append_left _ (ih hw)
  | seq k _ _ ih ih' =>
    rcases List.mem_append.mp hw with hw | hw
    · rw [hback] at hw
      exact List.mem_append_left _ (ih hw)
    · exact List.mem_append_right _ (List.mem_append_right _ (List.mem_cons_of_mem _ (ih' hw)))
  | exec _ ih => exact ih hw
  | pipe _ _ ih ih' =>
    rcases List.mem_append.mp hw with hw | hw
    · exact List.mem_append_left _ (ih hw)
    · exact List.mem_append_right _ (List.mem_cons_of_mem _ (ih' hw))
  | block rs _ ih =>
    rcases words_wraps rs _ hw with hw | hw
    · exact List.mem_cons_of_mem _ (List.mem_append_left _ (ih hw))
    · exact List.mem_cons_of_mem _ (List.mem_append_right _ (List.mem_cons_of_mem _ hw))
  | simple rs as _ =>
    rcases words_wraps _ _ hw with hw | hw
    · obtain ⟨a, ha, rfl⟩ := List.mem_map.mp hw
      exact List.mem_append_right _ (List.mem_flatMap.mpr ⟨a, ha, List.mem_cons_self⟩)
    · obtain ⟨r, hr, hw⟩ := List.mem_flatMap.mp hw
      rcases List.mem_append.mp hr with hr | hr
      · exact List.mem_append_left _ (List.mem_flatMap.mpr ⟨r, hr, hw⟩)
      · obtain ⟨a, ha, hr⟩ := List.mem_flatMap.mp hr
        refine List.mem_append_right _ (List.mem_flatMap.mpr ⟨a, ha, ?_⟩)
        exact List.mem_cons_of_mem _ (List.mem_flatMap.mpr ⟨r, hr, hw⟩)

theorem getElem?_set_zero (buf : List UInt8) (e i : Nat) :
    (buf.set e 0)[i]? = if i = e then buf[i]?.map fun _ => 0 else buf[i]? := by
  rw [List.getElem?_set]
  by_cases he : e = i
  · subst he
    rw [if_pos rfl, if_pos rfl]
    split
    · next hlt => rw [List.getElem?_eq_getElem hlt]; rfl
    · next hge => rw [List.getElem?_eq_none (Nat.le_of_not_lt hge)]; rfl
  · rw [if_neg he, if_neg (Ne.symm he)]

/-- Terminators written one after the other. -/
theorem ended_ended (A B : Prop) [Decidable A] [Decidable B] (o : Option UInt8) :
    (if A then (if B then o.map fun _ => 0 else o).map fun _ => 0
      else if B then o.map fun _ => 0 else o) = if B ∨ A then o.map fun _ => 0 else o := by
  by_cases hA : A <;> by_cases hB : B <;> simp [hA, hB, Function.comp_def]

/-- What the buffer holds after `nulterminate`. -/
theorem getElem?_nulterminate (c : Cmd Place) (buf : List UInt8) (i : Nat) :
    (nulterminate c buf)[i]? =
      if i ∈ c.words.map Place.eq then buf[i]?.map fun _ => 0 else buf[i]? := by
  induction c generalizing buf with
  | exec argv =>
    show (argv.foldl (fun buf w => buf.set w.eq 0) buf)[i]? =
      if i ∈ argv.map Place.eq then buf[i]?.map fun _ => 0 else buf[i]?
    induction argv generalizing buf with
    | nil => rfl
    | cons w argv ih =>
      simp only [List.foldl_cons, ih, getElem?_set_zero, List.map_cons, List.mem_cons,
        ended_ended]
  | redir c file mode fd ih =>
    show ((nulterminate c buf).set file.eq 0)[i]? = _
    simp only [getElem?_set_zero, ih, Cmd.words, List.map_append, List.mem_append, ended_ended,
      List.map_cons, List.map_nil, List.mem_singleton]
  | pipe left right ihl ihr | list left right ihl ihr =>
    show (nulterminate right (nulterminate left buf))[i]? = _
    simp only [ihr, ihl, Cmd.words, List.map_append, List.mem_append, ended_ended]
  | back c ih => exact ih buf

theorem cstring_eq {buf w : List UInt8} {q : Nat}
    (hw : ∀ i : Nat, i < w.length → buf[q + i]? = w[i]?) (hne : 0 ∉ w)
    (hend : buf[q + w.length]? = some 0) : cstring buf q = w := by
  have htake : (buf.drop q).take w.length = w := by
    refine List.ext_getElem? fun i => ?_
    rw [List.getElem?_take]
    split
    · next hi => rw [List.getElem?_drop, hw i hi]
    · next hi => rw [List.getElem?_eq_none (Nat.le_of_not_lt hi)]
  have hdrop : ((buf.drop q).drop w.length).head? = some 0 := by
    rw [List.head?_drop, List.getElem?_drop]
    exact hend
  unfold cstring
  rw [← List.take_append_drop w.length (buf.drop q), htake, List.takeWhile_append_of_pos]
  · cases hd : (buf.drop q).drop w.length with
    | nil =>
      rw [hd] at hdrop
      cases hdrop
    | cons c cs =>
      rw [hd] at hdrop
      cases hdrop
      rw [List.takeWhile_cons]
      simp
  · intro c hc
    have : c ≠ 0 := fun e => hne (e ▸ hc)
    simpa using this

/-- No word has a terminator inside, and each has one at its end. -/
theorem cstring_word (hwords : ∀ w ∈ c.words, IsWord dialect.toLexicon l w.q w.eq)
    {w : Place} (hw : w ∈ c.words) :
    cstring (nulterminate c (l.text ++ [0])) w.q = l.slice w.q w.eq := by
  obtain ⟨hlt, hle, hletters, -⟩ := hwords w hw
  have hes : w.eq ≤ l.text.length := hle
  have hlen : (l.slice w.q w.eq).length = w.eq - w.q := by
    rw [Line.slice, List.length_take, List.length_drop]
    omega
  refine cstring_eq (fun i hi => ?_) (fun hzero => ?_) ?_
  · rw [hlen] at hi
    have hin : w.q + i < l.text.length := by omega
    rw [getElem?_nulterminate, if_neg, List.getElem?_append_left hin, Line.slice,
      List.getElem?_take_of_lt hi, List.getElem?_drop]
    -- the end of another word is no letter
    intro hmem
    obtain ⟨v, hv, he⟩ := List.mem_map.mp hmem
    have hc := List.getElem?_eq_getElem hin
    have hletter := hletters (i := w.q + i) (Nat.le_add_right ..) (by omega) hc
    have hstop := (hwords v hv).stop (c := l.text[w.q + i]) (by rw [he]; exact hc)
    rw [hletter] at hstop
    cases hstop
  · exact l.noNul (List.mem_of_mem_drop (List.mem_of_mem_take hzero))
  · rw [hlen, show w.q + (w.eq - w.q) = w.eq by omega, getElem?_nulterminate,
      if_pos (List.mem_map_of_mem hw)]
    have hin : w.eq < (l.text ++ [0]).length := by
      rw [List.length_append, List.length_singleton]
      omega
    rw [List.getElem?_eq_getElem hin]
    rfl

/-! ## The main result -/

theorem wp_parsetree_sound (l : Line) : wp (parsetree l)
    (fun c _ => Derives dialect l .line (l.tokens dialect.toLexicon) c) (fun e => ∃ m, e = .panic m)
    0 := by
  have h := Shell.At.start dialect.toLexicon l
  have hlen := h.length_le
  unfold parsetree
  rw [wp_bind]
  refine (sound l _).1 h (by omega) (fun m => ⟨m, rfl⟩) fun c pre us s₁ hd hus h₁ => ?_
  rw [wp_bind]
  refine wp_peek h₁ (fun _ => nofun) fun s₂ h₂ hes => ?_
  simp only [wp_bind, wp_get]
  by_cases he : s₂ = l.es
  · rw [if_neg (not_not.mpr he)]
    rw [hes.mp he, List.append_nil] at hus
    rw [hus]
    exact hd
  · rw [if_pos he]
    exact ⟨_, rfl⟩

theorem wp_parsetree_complete {E : Stop → Prop}
    (hd : Derives dialect l .line (l.tokens dialect.toLexicon) c) :
    wp (parsetree l) (fun c' _ => c' = c) E 0 := by
  have h := Shell.At.start dialect.toLexicon l
  have hlen := h.length_le
  unfold parsetree
  rw [wp_bind]
  have h' : At l 0 (l.tokens dialect.toLexicon ++ []) := by rwa [List.append_nil]
  have hfuel : 4 * (l.tokens dialect.toLexicon ++ []).length + rank .line ≤ 4 * l.es + 4 := by
    rw [List.append_nil]
    exact Nat.add_le_add_right (Nat.mul_le_mul_left 4 hlen) 4
  refine complete hd h' trivial hfuel fun s₁ h₁ => ?_
  rw [wp_bind]
  refine wp_peek h₁ (fun _ => nofun) fun s₂ h₂ hes => ?_
  simp only [wp_bind, wp_get]
  rw [if_neg (not_not.mpr (hes.mpr rfl))]
  exact rfl

theorem parsecmd_error {e : Stop} (h : parsecmd l = .error e) : ∃ m, e = .panic m := by
  unfold parsecmd at h
  split at h
  · cases h
  · next he =>
    cases h
    exact (wp_parsetree_sound l).error he

theorem parsecmd_sound {buf : List UInt8} (h : parsecmd l = .ok (c, buf)) :
    Derives dialect l .line (l.tokens dialect.toLexicon) c ∧
      buf = nulterminate c (l.text ++ [0]) := by
  unfold parsecmd at h
  split at h
  · next he =>
    cases h
    exact ⟨(wp_parsetree_sound l).ok he, rfl⟩
  · cases h

theorem parsecmd_complete (hd : Derives dialect l .line (l.tokens dialect.toLexicon) c) :
    ∃ buf, parsecmd l = .ok (c, buf) := by
  have hcomplete := wp_parsetree_complete (E := fun _ => False) hd
  unfold parsecmd
  split
  · next he => exact ⟨_, by rw [hcomplete.ok he]⟩
  · next he => exact (hcomplete.error he).elim

theorem parsecmd_strings {buf : List UInt8} (h : parsecmd l = .ok (c, buf))
    {w : Place} (hw : w ∈ c.words) : cstring buf w.q = l.slice w.q w.eq := by
  obtain ⟨hd, rfl⟩ := parsecmd_sound h
  refine cstring_word (fun v hv => ?_) hw
  exact (Shell.At.start dialect.toLexicon l).isWord (mem_of_derives hd hv)

/-- **The parser accepts exactly its grammar.** It ends with a tree or with an error of the shell, so
it reads nothing behind the NUL and does not run on. It returns a tree exactly if the grammar derives
the tokens of the line with that tree. And then every argument and every file is, as a string in the
buffer, its word. -/
theorem parsecmd_spec (l : Line) :
    (∀ e, parsecmd l = .error e → ∃ m, e = .panic m) ∧
    (∀ c, (∃ buf, parsecmd l = .ok (c, buf)) ↔
      Derives dialect l .line (l.tokens dialect.toLexicon) c) ∧
    ∀ c buf, parsecmd l = .ok (c, buf) → ∀ w ∈ c.words, cstring buf w.q = l.slice w.q w.eq :=
  ⟨fun _ => parsecmd_error, fun _ => ⟨fun ⟨_, hc⟩ => (parsecmd_sound hc).1, parsecmd_complete⟩,
    fun _ _ hc _ => parsecmd_strings hc⟩

end Laboratorio.Shell.Xv6
