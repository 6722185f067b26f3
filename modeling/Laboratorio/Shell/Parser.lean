import Laboratorio.Shell.Lexer

/-!
# Commands and their grammar

The tree of a command, the loops that both shells have in common (`parseredirs`, and the loop of
`parseexec` over the words), and the grammar

    line ::= pipe '&'* [';' line]
    pipe ::= exec ['|' pipe]
    exec ::= '(' line ')' redir* | redir* (word redir*)*
    redir ::= ('<' | '>' | '>>') word

as a relation between tokens and trees (`Derives`). A `Dialect` holds what differs: the lexicon, what
the parser keeps of a word, what a redirection opens, and the texts of the errors.

Each loop has two rules: what it returns is derived by the grammar, and what the grammar derives is
returned.
-/

namespace Laboratorio.Shell

open Laboratorio.Wp

/-! ## Commands -/

/-- The flags of `open` besides `O_RDONLY`, which is no flag. -/
inductive Flag where
  | wronly
  | create
  | trunc
deriving DecidableEq, Repr

/-- `struct cmd` and the structures that it stands for; `W` is what the parser keeps of a word. -/
inductive Cmd (W : Type) where
  | exec (argv : List W)
  | redir (cmd : Cmd W) (file : W) (mode : List Flag) (fd : Nat)
  | pipe (left right : Cmd W)
  | list (left right : Cmd W)
  | back (cmd : Cmd W)
deriving DecidableEq, Repr

variable {W : Type}

/-- `cmd->argv[argc] = q`, where `cmd` is the `execcmd` below the redirections made so far. -/
def Cmd.pushArg (w : W) : Cmd W → Cmd W
  | .exec argv => .exec (argv ++ [w])
  | .redir c file mode fd => .redir (c.pushArg w) file mode fd
  | c => c

/-- The arguments and the files of a command. -/
def Cmd.words : Cmd W → List W
  | .exec argv => argv
  | .redir c file _ _ => c.words ++ [file]
  | .pipe left right | .list left right => left.words ++ right.words
  | .back c => c.words

/-- The command with its words as strings, without the flags of the files. -/
def Cmd.view {V : Type} (f : W → V) : Cmd W → Cmd V
  | .exec argv => .exec (argv.map f)
  | .redir c file _ fd => .redir (c.view f) (f file) [] fd
  | .pipe left right => .pipe (left.view f) (right.view f)
  | .list left right => .list (left.view f) (right.view f)
  | .back c => .back (c.view f)

theorem Cmd.view_congr {V : Type} {f g : W → V} {c : Cmd W} (h : ∀ w ∈ c.words, f w = g w) :
    c.view f = c.view g := by
  induction c with
  | exec argv => exact congrArg Cmd.exec (List.map_congr_left h)
  | redir c file mode fd ih =>
    have hc := ih fun w hw => h w (List.mem_append_left _ hw)
    have hfile := h file (List.mem_append_right _ List.mem_cons_self)
    rw [Cmd.view, Cmd.view, hc, hfile]
  | pipe left right ihl ihr | list left right ihl ihr =>
    have hl := ihl fun w hw => h w (List.mem_append_left _ hw)
    have hr := ihr fun w hw => h w (List.mem_append_right _ hw)
    rw [Cmd.view, Cmd.view, hl, hr]
  | back c ih => rw [Cmd.view, Cmd.view, ih h]

/-- `MAXARGS` -/
def maxargs : Nat := 10

/-- What the parsers of the shells differ in. -/
structure Dialect (W : Type) extends Lexicon where
  /-- what is kept of the word between two pointers -/
  word : Line → Nat → Nat → Parse W
  value : Line → Nat → Nat → W
  word_eq : ∀ {l q eq}, q ≤ eq → eq ≤ l.es → word l q eq = pure (value l q eq)
  /-- the `switch` of `parseredirs`: the flags and the descriptor -/
  opens : UInt8 → Option (List Flag × Nat)
  /-- where the loop of `parseexec` ends -/
  stops : List UInt8
  missing : String
  syntaxError : String
  lt_mem : ch '<' ∈ single
  stops_mem : ∀ c ∈ stops, c ∈ symbols ∧ c ≠ ch '<' ∧ c ≠ ch '>'

/-- `redircmd`, as the `switch` of `parseredirs` calls it. -/
def Dialect.redircmd (d : Dialect W) (tok : UInt8) (file : W) (c : Cmd W) : Cmd W :=
  match d.opens tok with
  | some (mode, fd) => .redir c file mode fd
  | none => c

/-- The characters of redirections. -/
def redirChars : List UInt8 := ['<', '>'].map ch

/-- `parseredirs` -/
def parseredirs (d : Dialect W) (l : Line) : Nat → Cmd W → Parse (Cmd W)
  | 0, _ => throw .fuel
  | fuel + 1, cmd => do
    if ← peek l redirChars then
      let tok ← gettoken d.toLexicon l
      let g ← gettoken d.toLexicon l
      if g.ret ≠ ch 'a' then throw (.panic d.missing)
      let file ← d.word l g.q g.eq
      parseredirs d l fuel (d.redircmd tok.ret file cmd)
    else pure cmd

/-- The loop of `parseexec` over the words. -/
def parseargs (d : Dialect W) (l : Line) : Nat → Nat → Cmd W → Parse (Cmd W)
  | 0, _, _ => throw .fuel
  | fuel + 1, argc, ret => do
    if ← peek l d.stops then pure ret
    else
      let g ← gettoken d.toLexicon l
      if g.ret = 0 then pure ret
      else if g.ret ≠ ch 'a' then throw (.panic d.syntaxError)
      else
        let w ← d.word l g.q g.eq
        let ret := ret.pushArg w
        let argc := argc + 1
        if argc ≥ maxargs then throw (.panic "too many args")
        let ret ← parseredirs d l (l.es + 1) ret
        parseargs d l fuel argc ret

/-- A simple command: `parseexec` without blocks. -/
def parsesimple (d : Dialect W) (l : Line) : Parse (Cmd W) := do
  let ret ← parseredirs d l (l.es + 1) (.exec [])
  parseargs d l (l.es + 1) 0 ret

/-! ## The grammar -/

/-- The symbol of a redirection. -/
inductive Op where
  | input
  | output
  | append
deriving DecidableEq, Repr

def Op.tok : Op → Tok
  | .input => .lt
  | .output => .gt
  | .append => .append

/-- A redirection of a line, with the place of its file. -/
structure Redir where
  op : Op
  q : Nat
  eq : Nat
deriving DecidableEq, Repr

def Redir.toks (r : Redir) : List Tok := [r.op.tok, .word r.q r.eq]

/-- A word of a simple command with the redirections behind it. -/
structure Arg where
  q : Nat
  eq : Nat
  redirs : List Redir

def Arg.toks (a : Arg) : List Tok := .word a.q a.eq :: a.redirs.flatMap Redir.toks

variable (d : Dialect W) (l : Line)

/-- A redirection around a command. -/
def Dialect.wrap (c : Cmd W) (r : Redir) : Cmd W :=
  d.redircmd r.op.tok.ret (d.value l r.q r.eq) c

/-- The redirections around a command; the first one of the line is the innermost. -/
def Dialect.wraps (rs : List Redir) (c : Cmd W) : Cmd W := rs.foldl (d.wrap l) c

/-- The tree of a simple command. -/
def Dialect.simple (rs : List Redir) (as : List Arg) : Cmd W :=
  d.wraps l (rs ++ as.flatMap Arg.redirs) (.exec (as.map fun a => d.value l a.q a.eq))

/-- The nonterminals. -/
inductive Nt where
  | line
  | pipe
  | exec
deriving DecidableEq, Repr

/-- **The grammar**, with the tree of each derivation. -/
inductive Derives : Nt → List Tok → Cmd W → Prop
  | line {ts : List Tok} {c : Cmd W} (k : Nat) (h : Derives .pipe ts c) :
      Derives .line (ts ++ List.replicate k .amp) (Cmd.back^[k] c)
  | seq {ts us : List Tok} {c e : Cmd W} (k : Nat) (h : Derives .pipe ts c)
      (h' : Derives .line us e) :
      Derives .line (ts ++ (List.replicate k .amp ++ .semi :: us)) (.list (Cmd.back^[k] c) e)
  | exec {ts : List Tok} {c : Cmd W} (h : Derives .exec ts c) : Derives .pipe ts c
  | pipe {ts us : List Tok} {c e : Cmd W} (h : Derives .exec ts c) (h' : Derives .pipe us e) :
      Derives .pipe (ts ++ .bar :: us) (.pipe c e)
  | block {ts : List Tok} {c : Cmd W} (rs : List Redir) (h : Derives .line ts c) :
      Derives .exec (.lpar :: (ts ++ .rpar :: rs.flatMap Redir.toks)) (d.wraps l rs c)
  | simple (rs : List Redir) (as : List Arg) (h : as.length < maxargs) :
      Derives .exec (rs.flatMap Redir.toks ++ as.flatMap Arg.toks) (d.simple l rs as)

/-! ## The same line in two dialects -/

section Transfer

variable {d : Dialect W} {l : Line} {V W' : Type} {d' : Dialect W'} (f : W → V) (f' : W' → V)

/-- The redirections of a line open the same descriptors. -/
theorem view_wraps {rs : List Redir} {c : Cmd W} {c' : Cmd W'}
    (hval : ∀ q eq, f (d.value l q eq) = f' (d'.value l q eq))
    (hopens : ∀ r ∈ rs, (d.opens r.op.tok.ret).map Prod.snd = (d'.opens r.op.tok.ret).map Prod.snd)
    (hc : c.view f = c'.view f') : (d.wraps l rs c).view f = (d'.wraps l rs c').view f' := by
  induction rs generalizing c c' with
  | nil => exact hc
  | cons r rs ih =>
    obtain ⟨hr, hrs⟩ := List.forall_mem_cons.mp hopens
    refine ih hrs ?_
    unfold Dialect.wrap Dialect.redircmd
    cases ho : d.opens r.op.tok.ret with
    | none =>
      rw [ho] at hr
      cases ho' : d'.opens r.op.tok.ret with
      | none => exact hc
      | some m =>
        rw [ho'] at hr
        cases hr
    | some m =>
      rw [ho] at hr
      cases ho' : d'.opens r.op.tok.ret with
      | none =>
        rw [ho'] at hr
        cases hr
      | some m' =>
        rw [ho'] at hr
        have hfd : m.2 = m'.2 := Option.some.inj hr
        show Cmd.redir (c.view f) (f _) [] m.2 = Cmd.redir (c'.view f') (f' _) [] m'.2
        rw [hc, hval, hfd]

theorem view_back {c : Cmd W} {c' : Cmd W'} (hc : c.view f = c'.view f') (k : Nat) :
    (Cmd.back^[k] c).view f = (Cmd.back^[k] c').view f' := by
  induction k generalizing c c' with
  | zero => exact hc
  | succ k ih => exact ih (congrArg Cmd.back hc)

/-- **What one dialect derives, the other derives**, with the same words and descriptors. -/
theorem Derives.map_words {nt : Nt} {ts : List Tok} {c : Cmd W} (hd : Derives d l nt ts c)
    (hval : ∀ q eq, f (d.value l q eq) = f' (d'.value l q eq))
    (hopens : ∀ op : Op, op.tok ∈ ts →
      (d.opens op.tok.ret).map Prod.snd = (d'.opens op.tok.ret).map Prod.snd) :
    ∃ c', Derives d' l nt ts c' ∧ c.view f = c'.view f' := by
  induction hd with
  | line k _ ih =>
    obtain ⟨c', hd', hc⟩ := ih fun op hop => hopens op (List.mem_append_left _ hop)
    exact ⟨_, .line k hd', view_back f f' hc k⟩
  | seq k _ _ ih ih' =>
    obtain ⟨c', hd', hc⟩ := ih fun op hop => hopens op (List.mem_append_left _ hop)
    obtain ⟨e', he', he⟩ := ih' fun op hop => hopens op
      (List.mem_append_right _ (List.mem_append_right _ (List.mem_cons_of_mem _ hop)))
    refine ⟨_, .seq k hd' he', ?_⟩
    rw [Cmd.view, Cmd.view, view_back f f' hc k, he]
  | exec _ ih =>
    obtain ⟨c', hd', hc⟩ := ih hopens
    exact ⟨c', .exec hd', hc⟩
  | pipe _ _ ih ih' =>
    obtain ⟨c', hd', hc⟩ := ih fun op hop => hopens op (List.mem_append_left _ hop)
    obtain ⟨e', he', he⟩ := ih' fun op hop => hopens op
      (List.mem_append_right _ (List.mem_cons_of_mem _ hop))
    refine ⟨_, .pipe hd' he', ?_⟩
    rw [Cmd.view, Cmd.view, hc, he]
  | block rs _ ih =>
    obtain ⟨c', hd', hc⟩ := ih fun op hop => hopens op
      (List.mem_cons_of_mem _ (List.mem_append_left _ hop))
    refine ⟨_, .block rs hd', view_wraps f f' hval (fun r hr => hopens r.op ?_) hc⟩
    refine List.mem_cons_of_mem _ (List.mem_append_right _ (List.mem_cons_of_mem _ ?_))
    exact List.mem_flatMap.mpr ⟨r, hr, List.mem_cons_self⟩
  | simple rs as hmax =>
    refine ⟨_, .simple rs as hmax, view_wraps f f' hval (fun r hr => hopens r.op ?_) ?_⟩
    · rcases List.mem_append.mp hr with hr | hr
      · exact List.mem_append_left _ (List.mem_flatMap.mpr ⟨r, hr, List.mem_cons_self⟩)
      · obtain ⟨a, ha, hr⟩ := List.mem_flatMap.mp hr
        refine List.mem_append_right _ (List.mem_flatMap.mpr ⟨a, ha, ?_⟩)
        exact List.mem_cons_of_mem _ (List.mem_flatMap.mpr ⟨r, hr, List.mem_cons_self⟩)
    · rw [Cmd.view, Cmd.view, List.map_map, List.map_map]
      exact congrArg Cmd.exec (List.map_congr_left fun a _ => hval a.q a.eq)

end Transfer

/-! ## The loops -/

section Loops

variable {d : Dialect W} {l : Line} {s fuel : Nat} {ts us : List Tok} {rs : List Redir} {c : Cmd W}
  {Q : Cmd W → Nat → Prop} {E : Stop → Prop}

theorem wraps_cons (r : Redir) (rs : List Redir) (c : Cmd W) :
    d.wraps l (r :: rs) c = d.wraps l rs (d.wrap l c r) := rfl

theorem wraps_append (rs rs' : List Redir) (c : Cmd W) :
    d.wraps l (rs ++ rs') c = d.wraps l rs' (d.wraps l rs c) := List.foldl_append

/-- A word stored in a node that is wrapped already. -/
theorem pushArg_wraps (rs : List Redir) (argv : List W) (w : W) :
    (d.wraps l rs (.exec argv)).pushArg w = d.wraps l rs (.exec (argv ++ [w])) := by
  have hwrap : ∀ (c : Cmd W) (r : Redir), (d.wrap l c r).pushArg w = d.wrap l (c.pushArg w) r := by
    intro c r
    unfold Dialect.wrap Dialect.redircmd
    split <;> rfl
  have hwraps : ∀ c : Cmd W, (d.wraps l rs c).pushArg w = d.wraps l rs (c.pushArg w) := by
    induction rs with
    | nil => exact fun c => rfl
    | cons r rs ih =>
      intro c
      rw [wraps_cons, wraps_cons, ih, hwrap]
  exact hwraps _

theorem redirChars_mem : ∀ c ∈ redirChars, c ∈ d.symbols := by
  intro c hc
  rw [d.perm.mem_iff, List.mem_cons]
  rcases (by simpa [redirChars] using hc : c = ch '<' ∨ c = ch '>') with rfl | rfl
  · exact .inr d.lt_mem
  · exact .inl rfl

/-- The next token is the symbol of a redirection. -/
theorem startsWith_redirChars {ts : List Tok} (h : startsWith redirChars ts = true) :
    ∃ (op : Op) (us : List Tok), ts = op.tok :: us := by
  cases ts with
  | nil => cases h
  | cons t us =>
    rw [startsWith_cons] at h
    cases t with
    | lt => exact ⟨.input, us, rfl⟩
    | gt => exact ⟨.output, us, rfl⟩
    | append => exact ⟨.append, us, rfl⟩
    | word => cases h
    | _ => exact absurd h (by decide)

theorem startsWith_op (op : Op) (us : List Tok) : startsWith redirChars (op.tok :: us) = true := by
  rw [startsWith_cons]
  cases op <;> decide

theorem Tok.ret_eq_a {t : Tok} (h : t.ret = ch 'a') : ∃ q eq, t = .word q eq := by
  cases t with
  | word q eq => exact ⟨q, eq, rfl⟩
  | _ => exact absurd h (by decide)

theorem Tok.ret_ne_zero (t : Tok) : t.ret ≠ 0 := by
  cases t with
  | word q eq =>
    show ch 'a' ≠ 0
    decide
  | _ => decide

/-- A word is kept. -/
theorem At.wp_word {q eq : Nat} {Q : W → Nat → Prop}
    (h : At d.toLexicon l s us) (hmem : .word q eq ∈ us) {s' : Nat} (hQ : Q (d.value l q eq) s') :
    wp (d.word l q eq) Q E s' := by
  have hword := h.isWord hmem
  rw [d.word_eq hword.lt.le hword.le]
  exact hQ

/-- What `parseredirs` returns is the command with redirections around it. -/
theorem wp_parseredirs_sound (h : At d.toLexicon l s ts) (hfuel : ts.length < fuel)
    (hE : ∀ m, E (.panic m))
    (hQ : ∀ rs us s', ts = rs.flatMap Redir.toks ++ us → startsWith redirChars us = false →
      At d.toLexicon l s' us → Q (d.wraps l rs c) s') :
    wp (parseredirs d l fuel c) Q E s := by
  induction fuel generalizing s ts c with
  | zero => exact absurd hfuel (Nat.not_lt_zero _)
  | succ fuel ih =>
    unfold parseredirs
    rw [wp_bind]
    refine wp_peek h redirChars_mem fun s₁ h₁ _ => ?_
    cases hst : startsWith redirChars ts with
    | false => exact hQ [] ts s₁ rfl hst h₁
    | true =>
      obtain ⟨op, us, rfl⟩ := startsWith_redirChars hst
      simp only [if_true, wp_bind]
      refine wp_gettoken h₁ fun s₂ tok h₂ htok _ => ?_
      cases us with
      | nil =>
        refine wp_gettoken_nil h₂ fun s₃ g _ hg => ?_
        rw [hg]
        exact hE _
      | cons t us =>
        refine wp_gettoken h₂ fun s₃ g h₃ hg hword => ?_
        by_cases ha : t.ret = ch 'a'
        · obtain ⟨q, eq, rfl⟩ := Tok.ret_eq_a ha
          obtain ⟨hq, heq⟩ := hword q eq rfl
          rw [hg, hq, heq, htok]
          simp only [ha, ne_eq, not_true_eq_false, if_false, wp_bind]
          refine h₂.wp_word List.mem_cons_self ?_
          refine ih h₃ (by simp only [List.length_cons] at hfuel; omega)
            fun rs vs s' hvs hst' h' => ?_
          refine hQ (⟨op, q, eq⟩ :: rs) vs s' ?_ hst' h'
          rw [hvs]
          rfl
        · rw [hg]
          simp only [ne_eq, ha, not_false_eq_true, if_true]
          exact hE _

/-- Redirections around a command are returned. -/
theorem wp_parseredirs_complete
    (h : At d.toLexicon l s (rs.flatMap Redir.toks ++ us)) (hfuel : rs.length < fuel)
    (hst : startsWith redirChars us = false)
    (hQ : ∀ s', At d.toLexicon l s' us → Q (d.wraps l rs c) s') :
    wp (parseredirs d l fuel c) Q E s := by
  induction rs generalizing s c fuel with
  | nil =>
    obtain ⟨fuel, rfl⟩ := Nat.exists_eq_succ_of_ne_zero (Nat.ne_of_gt hfuel)
    unfold parseredirs
    rw [wp_bind]
    refine wp_peek h redirChars_mem fun s₁ h₁ _ => ?_
    rw [List.flatMap_nil, List.nil_append, hst]
    exact hQ s₁ h₁
  | cons r rs ih =>
    obtain ⟨fuel, rfl⟩ := Nat.exists_eq_succ_of_ne_zero (Nat.ne_of_gt (Nat.zero_lt_of_lt hfuel))
    have h' : At d.toLexicon l s (r.op.tok :: .word r.q r.eq :: (rs.flatMap Redir.toks ++ us)) := h
    unfold parseredirs
    rw [wp_bind]
    refine wp_peek h' redirChars_mem fun s₁ h₁ _ => ?_
    simp only [startsWith_op, if_true, wp_bind]
    refine wp_gettoken h₁ fun s₂ tok h₂ htok _ => ?_
    refine wp_gettoken h₂ fun s₃ g h₃ hg hword => ?_
    obtain ⟨hq, heq⟩ := hword _ _ rfl
    rw [hg, hq, heq, htok]
    simp only [Tok.ret, ne_eq, not_true_eq_false, if_false, wp_bind]
    refine h₂.wp_word List.mem_cons_self ?_
    exact ih h₃ (Nat.lt_of_succ_lt_succ hfuel) hQ

/-- What may follow a simple command. -/
def Dialect.Ends (d : Dialect W) (us : List Tok) : Prop := us = [] ∨ startsWith d.stops us = true

theorem Dialect.Ends.not_redir (h : d.Ends us) :
    startsWith redirChars us = false := by
  rcases h with rfl | h
  · rfl
  · cases us with
    | nil => rfl
    | cons t us =>
      rw [startsWith_cons] at h ⊢
      cases hf : t.first with
      | none => rfl
      | some c =>
        rw [hf] at h
        obtain ⟨-, hlt, hgt⟩ := d.stops_mem c (by simpa using h)
        simp [redirChars, hlt, hgt]

/-- Words, and what follows a simple command, are no redirections. -/
theorem Dialect.Ends.args_not_redir (h : d.Ends us) (as : List Arg) :
    startsWith redirChars (as.flatMap Arg.toks ++ us) = false := by
  cases as with
  | nil => exact h.not_redir
  | cons b bs => exact (congrArg (startsWith redirChars) (List.append_assoc ..)).trans rfl

theorem length_le_toks (rs : List Redir) : rs.length ≤ (rs.flatMap Redir.toks).length := by
  induction rs with
  | nil => rfl
  | cons r rs ih =>
    simp only [List.flatMap_cons, List.length_append, List.length_cons, Redir.toks]
    omega

theorem length_le_argToks (as : List Arg) : as.length ≤ (as.flatMap Arg.toks).length := by
  induction as with
  | nil => rfl
  | cons a as ih =>
    simp only [List.flatMap_cons, List.length_append, List.length_cons, Arg.toks]
    omega

/-- What the loop over the words returns is a simple command. -/
theorem wp_parseargs_sound {argc : Nat} (ws : List W)
    (h : At d.toLexicon l s ts) (hfuel : ts.length < fuel) (hargc : ws.length = argc)
    (hmax : argc < maxargs) (hE : ∀ m, E (.panic m))
    (hQ : ∀ (as : List Arg) us s', ts = as.flatMap Arg.toks ++ us → d.Ends us → At d.toLexicon l s' us →
      ws.length + as.length < maxargs →
      Q (d.wraps l (rs ++ as.flatMap Arg.redirs)
        (.exec (ws ++ as.map fun a => d.value l a.q a.eq))) s') :
    wp (parseargs d l fuel argc (d.wraps l rs (.exec ws))) Q E s := by
  induction fuel generalizing s ts argc rs ws with
  | zero => exact absurd hfuel (Nat.not_lt_zero _)
  | succ fuel ih =>
    have hnil : ∀ s', At d.toLexicon l s' ts → d.Ends ts → Q (d.wraps l rs (.exec ws)) s' := by
      intro s' h' hends
      simpa using hQ [] ts s' rfl hends h' (by simpa [hargc] using hmax)
    unfold parseargs
    rw [wp_bind]
    refine wp_peek h (fun c hc => (d.stops_mem c hc).1) fun s₁ h₁ _ => ?_
    cases hst : startsWith d.stops ts with
    | true => exact hnil s₁ h₁ (.inr hst)
    | false =>
      simp only [Bool.false_eq_true, if_false, wp_bind]
      cases ts with
      | nil =>
        refine wp_gettoken_nil h₁ fun s₂ g h₂ hg => ?_
        rw [if_pos hg]
        exact hnil s₂ h₂ (.inl rfl)
      | cons t ts =>
        refine wp_gettoken h₁ fun s₂ g h₂ hg hword => ?_
        rw [if_neg (hg ▸ t.ret_ne_zero)]
        by_cases ha : t.ret = ch 'a'
        · obtain ⟨q, eq, rfl⟩ := Tok.ret_eq_a ha
          obtain ⟨hq, heq⟩ := hword q eq rfl
          rw [if_neg (by rw [hg, ha]; exact fun hne => hne rfl), hq, heq]
          simp only [wp_bind]
          refine h₁.wp_word List.mem_cons_self ?_
          rw [pushArg_wraps]
          by_cases hfull : argc + 1 ≥ maxargs
          · rw [if_pos hfull]
            exact hE _
          · rw [if_neg hfull]
            simp only [wp_bind]
            refine wp_parseredirs_sound h₂ (Nat.lt_succ_of_le h₂.length_le) hE
              fun rs' us s₃ hus _ h₃ => ?_
            rw [← wraps_append]
            refine ih _ h₃ ?_ (by rw [List.length_append, hargc]; rfl) (Nat.lt_of_not_le hfull)
              fun as vs s' hvs hends h' hlen => ?_
            · have := congrArg List.length hus
              simp only [List.length_append, List.length_cons] at this hfuel
              omega
            · have hres := hQ (⟨q, eq, rs'⟩ :: as) vs s' ?_ hends h' ?_
              · simpa using hres
              · rw [hus, hvs]
                simp [Arg.toks]
              · simp only [List.length_append, List.length_cons, List.length_nil] at hlen ⊢
                omega
        · rw [if_pos (by rw [hg]; exact ha)]
          exact hE _

/-- A simple command is returned. -/
theorem wp_parseargs_complete {argc : Nat} (ws : List W) {as : List Arg}
    (h : At d.toLexicon l s (as.flatMap Arg.toks ++ us)) (hfuel : as.length < fuel)
    (hargc : ws.length = argc) (hmax : argc + as.length < maxargs) (hends : d.Ends us)
    (hQ : ∀ s', At d.toLexicon l s' us → Q (d.wraps l (rs ++ as.flatMap Arg.redirs)
      (.exec (ws ++ as.map fun a => d.value l a.q a.eq))) s') :
    wp (parseargs d l fuel argc (d.wraps l rs (.exec ws))) Q E s := by
  induction as generalizing s rs ws argc fuel with
  | nil =>
    obtain ⟨fuel, rfl⟩ := Nat.exists_eq_succ_of_ne_zero (Nat.ne_of_gt hfuel)
    have hQ' : ∀ s', At d.toLexicon l s' us → Q (d.wraps l rs (.exec ws)) s' := by simpa using hQ
    unfold parseargs
    rw [wp_bind]
    refine wp_peek h (fun c hc => (d.stops_mem c hc).1) fun s₁ h₁ _ => ?_
    rw [List.flatMap_nil, List.nil_append] at h₁ ⊢
    rcases hends with rfl | hst
    · rw [show startsWith d.stops [] = false from rfl]
      simp only [Bool.false_eq_true, if_false, wp_bind]
      refine wp_gettoken_nil h₁ fun s₂ g h₂ hg => ?_
      rw [if_pos hg]
      exact hQ' s₂ h₂
    · rw [hst]
      exact hQ' s₁ h₁
  | cons a as ih =>
    obtain ⟨fuel, rfl⟩ := Nat.exists_eq_succ_of_ne_zero (Nat.ne_of_gt (Nat.zero_lt_of_lt hfuel))
    have h' : At d.toLexicon l s (.word a.q a.eq ::
        (a.redirs.flatMap Redir.toks ++ (as.flatMap Arg.toks ++ us))) := by
      simpa [Arg.toks] using h
    have hlen := h'.length_le
    simp only [List.length_cons, List.length_append] at hmax hlen
    unfold parseargs
    rw [wp_bind]
    refine wp_peek h' (fun c hc => (d.stops_mem c hc).1) fun s₁ h₁ _ => ?_
    rw [startsWith_cons]
    simp only [Tok.first, Option.any_none, Bool.false_eq_true, if_false, wp_bind]
    refine wp_gettoken h₁ fun s₂ g h₂ hg hword => ?_
    obtain ⟨hq, heq⟩ := hword _ _ rfl
    rw [hg, if_neg (Tok.ret_ne_zero _), if_neg (fun hne => hne rfl), hq, heq]
    simp only [wp_bind]
    refine h₁.wp_word List.mem_cons_self ?_
    rw [pushArg_wraps, if_neg (by omega)]
    simp only [wp_bind]
    refine wp_parseredirs_complete h₂ ?_ (hends.args_not_redir as) fun s₃ h₃ => ?_
    · have := length_le_toks a.redirs
      omega
    · rw [← wraps_append]
      refine ih _ h₃ (Nat.lt_of_succ_lt_succ hfuel) (by rw [List.length_append, hargc]; rfl)
        (by omega) fun s' h₄ => ?_
      simpa using hQ s' h₄

/-- **What `parsesimple` returns is derived.** -/
theorem wp_parsesimple_sound (h : At d.toLexicon l s ts) (hE : ∀ m, E (.panic m))
    (hQ : ∀ c pre us s', Derives d l .exec pre c → ts = pre ++ us → d.Ends us →
      At d.toLexicon l s' us → Q c s') : wp (parsesimple d l) Q E s := by
  unfold parsesimple
  rw [wp_bind]
  refine wp_parseredirs_sound h (Nat.lt_succ_of_le h.length_le) hE fun rs us s₁ hus _ h₁ => ?_
  refine wp_parseargs_sound [] h₁ (Nat.lt_succ_of_le h₁.length_le) rfl (by decide) hE
    fun as vs s' hvs hends h' hlen => ?_
  refine hQ _ _ vs s' (.simple rs as (by simpa using hlen)) ?_ hends h'
  rw [hus, hvs, List.append_assoc]

/-- **A simple command that is derived is returned.** -/
theorem wp_parsesimple_complete {as : List Arg}
    (h : At d.toLexicon l s (rs.flatMap Redir.toks ++ as.flatMap Arg.toks ++ us))
    (hmax : as.length < maxargs) (hends : d.Ends us)
    (hQ : ∀ s', At d.toLexicon l s' us → Q (d.simple l rs as) s') :
    wp (parsesimple d l) Q E s := by
  have hlen := h.length_le
  have hrs := length_le_toks rs
  have has := length_le_argToks as
  rw [List.append_assoc] at h
  simp only [List.length_append] at hlen
  unfold parsesimple
  rw [wp_bind]
  refine wp_parseredirs_complete h (by omega) (hends.args_not_redir as) fun s₁ h₁ => ?_
  exact wp_parseargs_complete [] h₁ (by omega) rfl (by omega) hends hQ

end Loops

end Laboratorio.Shell
