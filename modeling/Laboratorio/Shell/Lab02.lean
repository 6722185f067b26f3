import Laboratorio.Shell.Xv6

/-!
# The parser of the second lab's shell (`lab-02/sh.c`), and the two shells

The smaller shell knows pipes and redirections only. It copies each word when it is read (`mkcopy`),
where the xv6 shell keeps pointers into the buffer and ends the words there later.

On a line that has only what both shells know, the two return the same tree (`shells_agree`).
-/

namespace Laboratorio.Shell.Lab02

open Laboratorio.Wp

/-- `mkcopy`, with the number of characters: `strncpy` ends at a NUL. -/
def mkcopy (l : Line) : Nat → Nat → Parse (List UInt8)
  | 0, _ => pure []
  | n + 1, s => do
    let c ← l.read s
    if c = 0 then pure []
    else
      let cs ← mkcopy l n (s + 1)
      pure (c :: cs)

theorem mkcopy_eq {l : Line} {n s : Nat} (h : s + n ≤ l.es) :
    mkcopy l n s = pure ((l.text.drop s).take n) := by
  induction n generalizing s with
  | zero => rfl
  | succ n ih =>
    have hlt : s < l.text.length := by
      unfold Line.es at h
      omega
    have hdrop := List.drop_eq_getElem_cons hlt
    unfold mkcopy
    rw [Line.read_eq (by unfold Line.es; omega), pure_bind, hdrop, List.headD_cons,
      if_neg (Line.ne_zero hdrop), ih (by omega)]
    rfl

/-- What is special about the shell of the second lab. -/
def dialect : Dialect (List UInt8) where
  single := ['|', '<'].map ch
  symbols := ['<', '|', '>'].map ch
  append := false
  perm := by decide +kernel
  known := by decide +kernel
  word l q eq := mkcopy l (eq - q) q
  value l q eq := l.slice q eq
  word_eq hq heq := mkcopy_eq (by omega)
  opens tok :=
    if tok = ch '<' then some ([], 0)
    else if tok = ch '>' then some ([.wronly, .create, .trunc], 1)
    else none
  stops := ['|'].map ch
  missing := "missing file for redirection"
  syntaxError := "syntax error"
  lt_mem := by decide +kernel
  stops_mem := by decide +kernel

/-! ## The parser -/

def parseexec (l : Line) : Parse (Cmd (List UInt8)) := parsesimple dialect l

def parsepipe (l : Line) : Nat → Parse (Cmd (List UInt8))
  | 0 => throw .fuel
  | fuel + 1 => do
    let cmd ← parseexec l
    if ← peek l [ch '|'] then
      let _ ← gettoken dialect.toLexicon l
      let right ← parsepipe l fuel
      pure (.pipe cmd right)
    else pure cmd

def parseline (l : Line) : Nat → Parse (Cmd (List UInt8)) := parsepipe l

def parsetree (l : Line) : Parse (Cmd (List UInt8)) := do
  let cmd ← parseline l (l.es + 1)
  let _ ← peek l []
  if (← get) ≠ l.es then throw (.panic "leftovers")
  pure cmd

/-- `parsecmd` -/
def parsecmd (l : Line) : Except Stop (Cmd (List UInt8)) :=
  match parsetree l 0 with
  | .ok (cmd, _) => .ok cmd
  | .error e => .error e

/-! ## It accepts its grammar -/

variable {l : Line} {s : Nat} {ts : List Tok}

/-- The pointer, in the lexicon of this shell. -/
abbrev At (l : Line) (s : Nat) (ts : List Tok) : Prop := Shell.At dialect.toLexicon l s ts

theorem bar_mem : ∀ c ∈ [ch '|'], c ∈ dialect.symbols := by decide +kernel

theorem wp_parsepipe_sound {fuel : Nat} {Q : Cmd (List UInt8) → Nat → Prop} {E : Stop → Prop}
    (h : At l s ts) (hfuel : ts.length < fuel) (hE : ∀ m, E (.panic m))
    (hQ : ∀ c pre us s', Derives dialect l .pipe pre c → ts = pre ++ us → At l s' us → Q c s') :
    wp (parsepipe l fuel) Q E s := by
  induction fuel generalizing s ts Q with
  | zero => exact absurd hfuel (Nat.not_lt_zero _)
  | succ fuel ih =>
    unfold parsepipe parseexec
    rw [wp_bind]
    refine wp_parsesimple_sound h hE fun c pre us s₁ hd hus _ h₁ => ?_
    rw [wp_bind]
    refine wp_peek h₁ bar_mem fun s₂ h₂ _ => ?_
    cases hst : startsWith [ch '|'] us with
    | false => exact hQ _ _ us s₂ (.exec hd) hus h₂
    | true =>
      obtain ⟨vs, rfl⟩ := Xv6.startsWith_symbol (t := .bar) rfl (by decide) hst
      simp only [if_true, wp_bind]
      refine wp_gettoken h₂ fun s₃ _ h₃ _ _ => ?_
      refine ih h₃ ?_ fun e pre' xs s₄ hd' hxs h₄ => ?_
      · have := congrArg List.length hus
        simp only [List.length_append, List.length_cons] at this
        omega
      · refine hQ _ _ xs s₄ (.pipe hd hd') ?_ h₄
        rw [hus, hxs]
        simp only [List.append_assoc, List.cons_append]

/-- The function of each nonterminal but the lines. -/
def parse (l : Line) (fuel : Nat) : Nt → Parse (Cmd (List UInt8))
  | .exec => parseexec l
  | _ => parsepipe l fuel

/-- What may follow a phrase. -/
def Follow : Nt → List Tok → Prop
  | .exec, us => dialect.Ends us
  | _, us => us = []

theorem complete {nt : Nt} {pre : List Tok} {c : Cmd (List UInt8)}
    (hd : Derives dialect l nt pre c) : ∀ {us : List Tok} {s : Nat} (fuel : Nat)
      {Q : Cmd (List UInt8) → Nat → Prop} {E : Stop → Prop}, nt ≠ .line → .lpar ∉ pre →
      At l s (pre ++ us) → Follow nt us → (pre ++ us).length < fuel → (∀ s', At l s' us → Q c s') →
      wp (parse l fuel nt) Q E s := by
  induction hd with
  | line | seq =>
    intro us s fuel Q E hnt
    exact absurd rfl hnt
  | exec he ih =>
    intro us s fuel Q E _ hpar h hus hfuel hQ
    obtain ⟨fuel, rfl⟩ := Nat.exists_eq_succ_of_ne_zero (Nat.ne_of_gt (Nat.zero_lt_of_lt hfuel))
    subst hus
    show wp (parsepipe l (fuel + 1)) Q E s
    unfold parsepipe
    rw [wp_bind]
    refine ih (fuel + 1) (fun h => by cases h) hpar h (.inl rfl) hfuel fun s₁ h₁ => ?_
    rw [wp_bind]
    exact wp_peek h₁ bar_mem fun s₂ h₂ _ => hQ s₂ h₂
  | pipe he hp ihe ihp =>
    intro us s fuel Q E _ hpar h hus hfuel hQ
    obtain ⟨fuel, rfl⟩ := Nat.exists_eq_succ_of_ne_zero (Nat.ne_of_gt (Nat.zero_lt_of_lt hfuel))
    simp only [List.mem_append, List.mem_cons, not_or] at hpar
    simp only [List.append_assoc, List.cons_append] at h
    show wp (parsepipe l (fuel + 1)) Q E s
    unfold parsepipe
    rw [wp_bind]
    refine ihe (fuel + 1) (fun h => by cases h) hpar.1 h (.inr ?_) ?_ fun s₁ h₁ => ?_
    · rw [startsWith_cons]
      decide +kernel
    · simpa using hfuel
    · rw [wp_bind]
      refine wp_peek h₁ bar_mem fun s₂ h₂ _ => ?_
      rw [startsWith_cons, show Tok.bar.first.any [ch '|'].contains = true by decide]
      simp only [if_true, wp_bind]
      refine wp_gettoken h₂ fun s₃ _ h₃ _ _ => ?_
      refine ihp fuel (fun h => by cases h) hpar.2.2 h₃ hus ?_ hQ
      simp only [List.length_append, List.length_cons] at hfuel ⊢
      omega
  | block =>
    intro us s fuel Q E _ hpar
    exact absurd List.mem_cons_self hpar
  | simple rs as hmax =>
    intro us s fuel Q E _ _ h hus _ hQ
    exact wp_parsesimple_complete h hmax hus hQ

theorem wp_parsetree_sound (l : Line) : wp (parsetree l)
    (fun c _ => Derives dialect l .pipe (l.tokens dialect.toLexicon) c) (fun e => ∃ m, e = .panic m)
    0 := by
  have h := Shell.At.start dialect.toLexicon l
  unfold parsetree parseline
  rw [wp_bind]
  refine wp_parsepipe_sound h (Nat.lt_succ_of_le h.length_le) (fun m => ⟨m, rfl⟩)
    fun c pre us s₁ hd hus h₁ => ?_
  rw [wp_bind]
  refine wp_peek h₁ (fun _ => nofun) fun s₂ h₂ hes => ?_
  simp only [wp_bind, wp_get]
  by_cases he : s₂ = l.es
  · rw [if_neg (not_not.mpr he)]
    rw [hes.mp he, List.append_nil] at hus
    rw [hus]
    exact hd
  · rw [if_pos he]
    exact ⟨_, rfl⟩

theorem wp_parsetree_complete {c : Cmd (List UInt8)} {E : Stop → Prop}
    (hd : Derives dialect l .pipe (l.tokens dialect.toLexicon) c) :
    wp (parsetree l) (fun c' _ => c' = c) E 0 := by
  have h := Shell.At.start dialect.toLexicon l
  have h' : At l 0 (l.tokens dialect.toLexicon ++ []) := by rwa [List.append_nil]
  have hpar : .lpar ∉ l.tokens dialect.toLexicon := by
    intro hmem
    rcases mem_tokens hmem with ⟨_, _, he⟩ | ⟨c, -, hfirst, hc⟩
    · cases he
    · cases hfirst
      exact absurd hc (by decide +kernel)
  unfold parsetree parseline
  rw [wp_bind]
  refine complete hd (l.es + 1) nofun hpar h' rfl (Nat.lt_succ_of_le h'.length_le) fun s₁ h₁ => ?_
  rw [wp_bind]
  refine wp_peek h₁ (fun _ => nofun) fun s₂ h₂ hes => ?_
  simp only [wp_bind, wp_get]
  rw [if_neg (not_not.mpr (hes.mpr rfl))]
  exact rfl

/-- **The parser of the second lab accepts exactly its grammar.** -/
theorem parsecmd_iff (l : Line) : (∀ e, parsecmd l = .error e → ∃ m, e = .panic m) ∧
    ∀ c, parsecmd l = .ok c ↔ Derives dialect l .pipe (l.tokens dialect.toLexicon) c := by
  have hsound := wp_parsetree_sound l
  refine ⟨fun e he => ?_, fun c => ⟨fun hc => ?_, fun hd => ?_⟩⟩
  · unfold parsecmd at he
    split at he
    · cases he
    · next he' =>
      cases he
      exact hsound.error he'
  · unfold parsecmd at hc
    split at hc
    · next he =>
      cases hc
      exact hsound.ok he
    · cases hc
  · have hcomplete := wp_parsetree_complete (E := fun _ => False) hd
    unfold parsecmd
    split
    · next he => rw [hcomplete.ok he]
    · next he => exact (hcomplete.error he).elim

/-! ## The two shells -/

/-- The line has nothing that the smaller shell does not know. -/
structure Common (l : Line) : Prop where
  chars : ∀ c ∈ ['&', ';', '(', ')'].map ch, c ∉ l.text
  append : ¬[ch '>', ch '>'] <:+: l.text

theorem Common.tokens (h : Common l) :
    l.tokens Xv6.dialect.toLexicon = l.tokens dialect.toLexicon := by
  refine tokens_congr (fun c hc => ?_) h.append
  have hne : ∀ d ∈ ['&', ';', '(', ')'].map ch, c ≠ d := fun d hd e => h.chars d hd (e ▸ hc)
  show (['|', '(', ')', ';', '&', '<'].map ch).contains c = (['|', '<'].map ch).contains c
  simp only [List.map_cons, List.map_nil, List.forall_mem_cons] at hne
  simp [hne]

/-- A line without `&` and `;` is a pipe. -/
theorem pipe_of_line {W : Type} {d : Dialect W} {c : Cmd W} (hd : Derives d l .line ts c)
    (hamp : .amp ∉ ts) (hsemi : .semi ∉ ts) : Derives d l .pipe ts c := by
  cases hd with
  | line k h =>
    cases k with
    | zero =>
      rw [List.replicate_zero, List.append_nil]
      exact h
    | succ k => exact absurd (List.mem_append_right _ List.mem_cons_self) hamp
  | seq k h h' =>
    exact absurd (List.mem_append_right _ (List.mem_append_right _ List.mem_cons_self)) hsemi

theorem Common.not_mem (h : Common l) {t : Tok} {c : UInt8} (ht : t.first = some c)
    (hc : c ∈ ['&', ';', '(', ')'].map ch) (x : Lexicon) : t ∉ l.tokens x := by
  intro hmem
  rcases mem_tokens hmem with ⟨_, _, rfl⟩ | ⟨d, hd, hfirst, -⟩
  · cases ht
  · rw [ht] at hfirst
    cases hfirst
    exact h.chars c hc hd

/-- The redirections that both shells know open the same descriptors. -/
theorem opens_common (op : Op) (hop : op.tok ∈ l.tokens dialect.toLexicon) :
    (Xv6.dialect.opens op.tok.ret).map Prod.snd = (dialect.opens op.tok.ret).map Prod.snd := by
  cases op with
  | input => rfl
  | output => rfl
  | append => cases append_of_mem hop

/-- **The two shells agree** on a line that has only what both know: both report an error, or they
return trees of the same shape, with the same words and the same descriptors. -/
theorem shells_agree (l : Line) (h : Common l) :
    (∃ m m', Xv6.parsecmd l = .error (.panic m) ∧ parsecmd l = .error (.panic m')) ∨
    ∃ c buf c', Xv6.parsecmd l = .ok (c, buf) ∧ parsecmd l = .ok c' ∧
      c.view (fun w => Xv6.cstring buf w.q) = c'.view id := by
  have hamp := h.not_mem (t := .amp) rfl (by decide) dialect.toLexicon
  have hsemi := h.not_mem (t := .semi) rfl (by decide) dialect.toLexicon
  cases hx : Xv6.parsecmd l with
  | ok r =>
    obtain ⟨c, buf⟩ := r
    have hd := (Xv6.parsecmd_sound hx).1
    rw [h.tokens] at hd
    obtain ⟨c', hd', hc⟩ := (pipe_of_line hd hamp hsemi).map_words
      (fun w => l.slice w.q w.eq) id (fun _ _ => rfl) opens_common
    refine .inr ⟨c, buf, c', rfl, ((parsecmd_iff l).2 c').mpr hd', ?_⟩
    rw [← hc]
    exact Cmd.view_congr fun w hw => Xv6.parsecmd_strings hx hw
  | error e =>
    obtain ⟨m, rfl⟩ := Xv6.parsecmd_error hx
    cases hl : parsecmd l with
    | error e' =>
      obtain ⟨m', rfl⟩ := (parsecmd_iff l).1 e' hl
      exact .inl ⟨m, m', rfl, rfl⟩
    | ok c' =>
      have hd' := ((parsecmd_iff l).2 c').mp hl
      obtain ⟨c, hd, -⟩ := hd'.map_words id (fun w : Xv6.Place => l.slice w.q w.eq)
        (fun _ _ => rfl) fun op hop => (opens_common op hop).symm
      have hline := Derives.line 0 hd
      rw [List.replicate_zero, List.append_nil, ← h.tokens] at hline
      obtain ⟨buf, hok⟩ := Xv6.parsecmd_complete hline
      rw [hx] at hok
      cases hok

/-- A line that both shells know: `cat<f|wc>g`. -/
def catLine : Line :=
  ⟨['c', 'a', 't', '<', 'f', '|', 'w', 'c', '>', 'g'].map ch, by decide +kernel⟩

theorem shells_agree_catLine : Common catLine ∧ ∃ c buf c',
    Xv6.parsecmd catLine = .ok (c, buf) ∧ parsecmd catLine = .ok c' ∧
      c.view (fun w => Xv6.cstring buf w.q) = c'.view id := by
  have h : Common catLine := ⟨by decide +kernel, by decide +kernel⟩
  refine ⟨h, (shells_agree catLine h).resolve_left ?_⟩
  rintro ⟨m, m', hx, -⟩
  have hok : (Xv6.parsecmd catLine).isOk = true := by decide +kernel
  rw [hx] at hok
  cases hok

end Laboratorio.Shell.Lab02
