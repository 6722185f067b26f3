import Laboratorio.Shell.Lab02

/-!
# Running a command (`runcmd` of both shells)

`runcmd` goes down the tree of a command. At a redirection it closes the descriptor and opens the
file, and it does not look at the result; `open` takes the lowest free descriptor. Whether a call of
`open` succeeds is given from outside.

The tree has the first redirection of the line innermost, so the redirections are done from the last
one to the first. `meaning_iff` says what follows: the descriptors are the right ones exactly if
every `open` succeeds and, of the redirections of one kind, the first and the last have the same
file.
-/

namespace Laboratorio.Shell

/-! ## Descriptors -/

/-- What a descriptor refers to: something open from the start, or a file opened by name. -/
inductive Desc (D : Type) where
  | old (d : D)
  | file (name : List UInt8) (mode : List Flag)
deriving DecidableEq, Repr

/-- The descriptors of the process, and the number of calls of `open` so far. -/
structure Fds (D : Type) where
  table : List (Option (Desc D))
  calls : Nat
deriving DecidableEq, Repr

variable {D : Type}

/-- What descriptor `i` refers to. -/
def Fds.get (s : Fds D) (i : Nat) : Option (Desc D) := s.table[i]?.join

/-- `close` -/
def Fds.close (s : Fds D) (fd : Nat) : Fds D := { s with table := s.table.set fd none }

/-- The lowest free descriptor. -/
def Fds.lowest (s : Fds D) : Nat := s.table.findIdx Option.isNone

/-- `open`; `ok` says which calls succeed. -/
def Fds.openFile (ok : Nat → Bool) (s : Fds D) (name : List UInt8) (mode : List Flag) : Fds D where
  table :=
    if ok s.calls then
      if s.lowest < s.table.length then s.table.set s.lowest (some (.file name mode))
      else s.table ++ [some (.file name mode)]
    else s.table
  calls := s.calls + 1

/-! ## `runcmd` -/

variable {W : Type}

/-- How `runcmd` ends: with `exit`, or at the `exec` of a command. -/
inductive Outcome (W D : Type) where
  | exit
  | exec (argv : List W) (fds : Fds D)
deriving DecidableEq, Repr

/-- `runcmd`; `name` is the string of a word. Pipes, lists and background commands are not
implemented: a message is printed and the left or only command is run. -/
def runcmd (name : W → List UInt8) (ok : Nat → Bool) : Cmd W → Fds D → Outcome W D
  | .exec [], _ => .exit
  | .exec (w :: ws), s => .exec (w :: ws) s
  | .redir c file mode fd, s => runcmd name ok c ((s.close fd).openFile ok (name file) mode)
  | .list left _, s => runcmd name ok left s
  | .pipe left _, s => runcmd name ok left s
  | .back c, s => runcmd name ok c s

/-! ## One redirection -/

section Step

variable {ok : Nat → Bool} {s : Fds D} {name : List UInt8} {mode : List Flag}

theorem Fds.get_close (s : Fds D) (fd i : Nat) :
    (s.close fd).get i = if i = fd then none else s.get i := by
  unfold Fds.get Fds.close
  dsimp only
  rw [List.getElem?_set]
  by_cases h : fd = i
  · rw [if_pos h, if_pos h.symm]
    split <;> rfl
  · rw [if_neg h, if_neg (Ne.symm h)]

theorem Fds.lt_length {i : Nat} (h : s.get i ≠ none) : i < s.table.length := by
  by_contra hge
  refine h ?_
  unfold Fds.get
  rw [List.getElem?_eq_none (Nat.le_of_not_lt hge)]
  rfl

/-- A descriptor that was open is the lowest free one after it is closed, if those below are open. -/
theorem Fds.lowest_close {fd : Nat} (h : ∀ i ≤ fd, s.get i ≠ none) : (s.close fd).lowest = fd := by
  have hlt : fd < (s.close fd).table.length := by
    unfold Fds.close
    rw [List.length_set]
    exact Fds.lt_length (h fd (Nat.le_refl _))
  have hget : ∀ i (hi : i < (s.close fd).table.length),
      (s.close fd).table[i] = (s.close fd).get i := by
    intro i hi
    unfold Fds.get
    rw [List.getElem?_eq_getElem hi]
    rfl
  unfold Fds.lowest
  rw [List.findIdx_eq hlt]
  refine ⟨?_, fun j hj => ?_⟩
  · rw [hget, Fds.get_close, if_pos rfl]
    rfl
  · rw [hget, Fds.get_close, if_neg (Nat.ne_of_lt hj)]
    exact Option.isNone_eq_false_iff.mpr (Option.isSome_iff_ne_none.mpr (h j hj.le))

theorem Fds.get_openFile (hok : ok s.calls = true) (hlt : s.lowest < s.table.length) (i : Nat) :
    (s.openFile ok name mode).get i = if i = s.lowest then some (.file name mode) else s.get i := by
  unfold Fds.get Fds.openFile
  dsimp only
  rw [if_pos hok, if_pos hlt, List.getElem?_set]
  by_cases h : s.lowest = i
  · rw [if_pos h, if_pos h.symm, if_pos hlt]
    rfl
  · rw [if_neg h, if_neg (Ne.symm h)]

/-- **One redirection**: the file is opened at the descriptor that was closed. -/
theorem Fds.get_redirect {fd : Nat} (hok : ok s.calls = true) (h : ∀ i ≤ fd, s.get i ≠ none)
    (i : Nat) : ((s.close fd).openFile ok name mode).get i =
      if i = fd then some (.file name mode) else s.get i := by
  have hlowest := Fds.lowest_close h
  have hlt : (s.close fd).lowest < (s.close fd).table.length := by
    rw [hlowest]
    unfold Fds.close
    rw [List.length_set]
    exact Fds.lt_length (h fd (Nat.le_refl _))
  rw [Fds.get_openFile (s := s.close fd) hok hlt, hlowest, Fds.get_close]
  by_cases hi : i = fd
  · rw [if_pos hi, if_pos hi]
  · rw [if_neg hi, if_neg hi, if_neg hi]

end Step

/-! ## The redirections of a simple command -/

/-- A dialect that opens descriptor 0 for `<` and 1 for `>`. -/
structure Dialect.Opens (d : Dialect W) (input output : List Flag) : Prop where
  input : d.opens (ch '<') = some (input, 0)
  output : d.opens (ch '>') = some (output, 1)

/-- The files of the redirections of one kind, in the order of the line. -/
def files (l : Line) (op : Op) (rs : List Redir) : List (List UInt8) :=
  (rs.filter (·.op = op)).map fun r => l.slice r.q r.eq

/-- What descriptor `i` is after redirections to the files `fs`. -/
def redirected (s : Fds D) (mode : List Flag) (i : Nat) (file : Option (List UInt8)) :
    Option (Desc D) :=
  match file with
  | some name => some (.file name mode)
  | none => s.get i

theorem redirected_ne_none {s : Fds D} {mode : List Flag} {i : Nat} {file : Option (List UInt8)}
    (h : s.get i ≠ none) : redirected s mode i file ≠ none := by
  cases file with
  | none => exact h
  | some name => nofun

section Run

variable {d : Dialect W} {l : Line} {input output : List Flag} {name : W → List UInt8}
  {ok : Nat → Bool} {s : Fds D}

/-- What `runcmd` does at the redirections: the last one first. -/
def redirect (d : Dialect W) (l : Line) (name : W → List UInt8) (ok : Nat → Bool) (r : Redir)
    (s : Fds D) : Fds D :=
  match d.opens r.op.tok.ret with
  | some (mode, fd) => (s.close fd).openFile ok (name (d.value l r.q r.eq)) mode
  | none => s

theorem runcmd_wraps (rs : List Redir) (c : Cmd W) (s : Fds D) :
    runcmd name ok (d.wraps l rs c) s =
      runcmd name ok c (rs.foldr (redirect d l name ok) s) := by
  induction rs generalizing c with
  | nil => rfl
  | cons r rs ih =>
    have hwrap : ∀ t : Fds D, runcmd name ok (d.wrap l c r) t =
        runcmd name ok c (redirect d l name ok r t) := by
      intro t
      unfold Dialect.wrap Dialect.redircmd redirect
      cases d.opens r.op.tok.ret <;> rfl
    rw [wraps_cons, ih, List.foldr_cons, hwrap]

/-- Every redirection calls `open` once. -/
theorem calls_foldr (hd : d.Opens input output) {rs : List Redir}
    (hrs : ∀ r ∈ rs, r.op ≠ .append) :
    (rs.foldr (redirect d l name ok) s).calls = s.calls + rs.length := by
  induction rs with
  | nil => rfl
  | cons r rs ih =>
    obtain ⟨hr, hrs⟩ := List.forall_mem_cons.mp hrs
    have hcalls : ∀ t : Fds D, (redirect d l name ok r t).calls = t.calls + 1 := by
      intro t
      unfold redirect
      cases ho : r.op with
      | input => rw [show Op.input.tok.ret = ch '<' from rfl, hd.input]; rfl
      | output => rw [show Op.output.tok.ret = ch '>' from rfl, hd.output]; rfl
      | append => exact absurd ho hr
    rw [List.foldr_cons, hcalls, ih hrs, List.length_cons]
    omega

/-- **The redirections together**, when every `open` succeeds: of each kind the first one of the line
is done last. -/
theorem get_foldr (hd : d.Opens input output) {rs : List Redir}
    (hname : ∀ r ∈ rs, name (d.value l r.q r.eq) = l.slice r.q r.eq) (hrs : ∀ r ∈ rs, r.op ≠ .append)
    (hok : ∀ i < rs.length, ok (s.calls + i) = true) (h0 : s.get 0 ≠ none) (h1 : s.get 1 ≠ none)
    (i : Nat) : (rs.foldr (redirect d l name ok) s).get i =
      if i = 0 then redirected s input 0 (files l .input rs).head?
      else if i = 1 then redirected s output 1 (files l .output rs).head?
      else s.get i := by
  induction rs generalizing i with
  | nil =>
    show s.get i = if i = 0 then s.get 0 else if i = 1 then s.get 1 else s.get i
    split
    · next hi => rw [hi]
    · split
      · next hi => rw [hi]
      · rfl
  | cons r rs ih =>
    obtain ⟨hr, hrs'⟩ := List.forall_mem_cons.mp hrs
    obtain ⟨hnamer, hname'⟩ := List.forall_mem_cons.mp hname
    have hget := ih hname' hrs' fun i hi => hok i (Nat.lt_succ_of_lt hi)
    have hcalls : (rs.foldr (redirect d l name ok) s).calls = s.calls + rs.length :=
      calls_foldr hd hrs'
    have hokr : ok (rs.foldr (redirect d l name ok) s).calls = true := by
      rw [hcalls]
      exact hok rs.length (Nat.lt_succ_self _)
    rw [List.foldr_cons]
    generalize rs.foldr (redirect d l name ok) s = t at hget hokr
    have ht0 : t.get 0 ≠ none := by
      rw [hget, if_pos rfl]
      exact redirected_ne_none h0
    have ht1 : t.get 1 ≠ none := by
      rw [hget, if_neg one_ne_zero, if_pos rfl]
      exact redirected_ne_none h1
    obtain ⟨op, q, eq⟩ := r
    cases op with
    | append => exact absurd rfl hr
    | input =>
      have hstep : redirect d l name ok ⟨.input, q, eq⟩ t =
          (t.close 0).openFile ok (l.slice q eq) input := by
        unfold redirect
        rw [show Op.input.tok.ret = ch '<' from rfl, hd.input]
        dsimp only
        rw [hnamer]
      rw [hstep, Fds.get_redirect hokr (fun i hi => by rw [Nat.le_zero.mp hi]; exact ht0), hget]
      by_cases hi : i = 0
      · rw [if_pos hi, if_pos hi]
        rfl
      · rw [if_neg hi, if_neg hi, if_neg hi]
        rfl
    | output =>
      have hstep : redirect d l name ok ⟨.output, q, eq⟩ t =
          (t.close 1).openFile ok (l.slice q eq) output := by
        unfold redirect
        rw [show Op.output.tok.ret = ch '>' from rfl, hd.output]
        dsimp only
        rw [hnamer]
      have hle : ∀ i ≤ 1, t.get i ≠ none := by
        intro i hi
        rcases Nat.le_one_iff_eq_zero_or_eq_one.mp hi with rfl | rfl
        · exact ht0
        · exact ht1
      rw [hstep, Fds.get_redirect hokr hle, hget]
      by_cases hi : i = 1
      · rw [if_pos hi, if_neg (by omega), if_pos hi]
        rfl
      · rw [if_neg hi, if_neg hi, if_neg hi]
        rfl

end Run

/-! ## The main result -/

/-- **What the redirections say**, for a run that reaches `exec` with the descriptors `t`: every
`open` has succeeded, 0 is the file of the last `<` and 1 that of the last `>`, if there are any, and
the other descriptors are as they were. -/
structure Meaning (l : Line) (rs : List Redir) (ok : Nat → Bool) (s t : Fds D) : Prop where
  succeeded : ∀ i, s.calls ≤ i → i < t.calls → ok i = true
  input : match (files l .input rs).getLast? with
    | some name => ∃ mode, t.get 0 = some (.file name mode)
    | none => t.get 0 = s.get 0
  output : match (files l .output rs).getLast? with
    | some name => ∃ mode, t.get 1 = some (.file name mode)
    | none => t.get 1 = s.get 1
  others : ∀ i, i ≠ 0 → i ≠ 1 → t.get i = s.get i

/-- Every `open` succeeds, and of each kind of redirection the first and the last have one file. -/
def Harmless (l : Line) (rs : List Redir) (ok : Nat → Bool) (s : Fds D) : Prop :=
  (∀ i < rs.length, ok (s.calls + i) = true) ∧
  (files l .input rs).head? = (files l .input rs).getLast? ∧
  (files l .output rs).head? = (files l .output rs).getLast?

section Main

variable {d : Dialect W} {l : Line} {input output : List Flag} {name : W → List UInt8}
  {ok : Nat → Bool} {s : Fds D} {rs : List Redir}

theorem redirected_iff {mode : List Flag} {i : Nat} (fs : List (List UInt8)) {x : Option (Desc D)}
    (hx : x = redirected s mode i fs.head?) :
    (match fs.getLast? with
      | some name => ∃ mode, x = some (.file name mode)
      | none => x = s.get i) ↔ fs.head? = fs.getLast? := by
  cases fs with
  | nil =>
    subst hx
    exact ⟨fun _ => rfl, fun _ => rfl⟩
  | cons f fs =>
    obtain ⟨g, hg⟩ : ∃ g, (f :: fs).getLast? = some g := ⟨_, List.getLast?_cons ..⟩
    subst hx
    rw [hg]
    constructor
    · rintro ⟨mode', he⟩
      cases he
      rfl
    · intro he
      cases he
      exact ⟨mode, rfl⟩

/-- The descriptors are the right ones exactly if the redirections are harmless. -/
theorem meaning_foldr (hd : d.Opens input output)
    (hname : ∀ r ∈ rs, name (d.value l r.q r.eq) = l.slice r.q r.eq)
    (hrs : ∀ r ∈ rs, r.op ≠ .append) (h0 : s.get 0 ≠ none) (h1 : s.get 1 ≠ none) :
    Meaning l rs ok s (rs.foldr (redirect d l name ok) s) ↔ Harmless l rs ok s := by
  have hcalls : (rs.foldr (redirect d l name ok) s).calls = s.calls + rs.length :=
    calls_foldr hd hrs
  constructor
  · intro h
    have hok : ∀ i < rs.length, ok (s.calls + i) = true := fun i hi =>
      h.succeeded _ (Nat.le_add_right ..) (by omega)
    have hget := get_foldr hd hname hrs hok h0 h1
    exact ⟨hok, (redirected_iff _ (hget 0)).mp h.input, (redirected_iff _ (hget 1)).mp h.output⟩
  · rintro ⟨hok, hin, hout⟩
    have hget := get_foldr hd hname hrs hok h0 h1
    refine ⟨fun i hi hlt => ?_, (redirected_iff _ (hget 0)).mpr hin,
      (redirected_iff _ (hget 1)).mpr hout, fun i hi0 hi1 => ?_⟩
    · obtain ⟨k, rfl⟩ := Nat.exists_eq_add_of_le hi
      exact hok k (by omega)
    · rw [hget, if_neg hi0, if_neg hi1]

/-- The tree of a simple command reaches `exec` if it has a word. -/
theorem meaning_simple (hd : d.Opens input output) (rs : List Redir) (as : List Arg)
    (hname : ∀ r ∈ rs ++ as.flatMap Arg.redirs, name (d.value l r.q r.eq) = l.slice r.q r.eq)
    (hrs : ∀ r ∈ rs ++ as.flatMap Arg.redirs, r.op ≠ .append) (h0 : s.get 0 ≠ none)
    (h1 : s.get 1 ≠ none) :
    (∀ argv t, runcmd name ok (d.simple l rs as) s = .exec argv t →
      Meaning l (rs ++ as.flatMap Arg.redirs) ok s t) ↔
    as = [] ∨ Harmless l (rs ++ as.flatMap Arg.redirs) ok s := by
  unfold Dialect.simple
  rw [runcmd_wraps]
  cases as with
  | nil => exact ⟨fun _ => .inl rfl, fun _ argv t h => nomatch h⟩
  | cons a as =>
    rw [← meaning_foldr hd hname hrs h0 h1]
    constructor
    · exact fun h => .inr (h _ _ rfl)
    · rintro (h | h) argv t ht
      · cases h
      · cases ht
        exact h

end Main

/-! ## The two shells -/

theorem Lab02.opens : Lab02.dialect.Opens [] [.wronly, .create, .trunc] := ⟨rfl, rfl⟩

theorem Xv6.opens : Xv6.dialect.Opens [] [.wronly, .create] := ⟨rfl, rfl⟩

/-- The files of the redirections are words of the tree. -/
theorem mem_words_wraps {l : Line} {rs : List Redir} {r : Redir} (hr : r ∈ rs)
    (c : Cmd Xv6.Place) : ⟨r.q, r.eq⟩ ∈ (Xv6.dialect.wraps l rs c).words := by
  have hmono : ∀ (rs : List Redir) {w : Xv6.Place} {c : Cmd Xv6.Place}, w ∈ c.words →
      w ∈ (Xv6.dialect.wraps l rs c).words := by
    intro rs
    induction rs with
    | nil => exact fun hw => hw
    | cons r rs ih =>
      intro w c hw
      refine ih ?_
      unfold Dialect.wrap Dialect.redircmd
      split
      · exact List.mem_append_left _ hw
      · exact hw
  induction rs generalizing c with
  | nil => cases hr
  | cons r' rs ih =>
    rcases List.mem_cons.mp hr with rfl | hr
    · refine hmono rs ?_
      unfold Dialect.wrap Dialect.redircmd
      cases r.op <;> exact List.mem_append_right _ List.mem_cons_self
    · exact ih hr _

/-- **When redirections mean what they say.** A line is a simple command with redirections by `<` and
`>`, and the shell is started with the descriptors 0, 1 and 2 open. Both shells parse it, and when
`runcmd` reaches `exec` its descriptors are the right ones exactly if the redirections are harmless
(or there is nothing to execute). -/
theorem meaning_iff (l : Line) (rs : List Redir) (as : List Arg) (hmax : as.length < maxargs)
    (hops : ∀ r ∈ rs ++ as.flatMap Arg.redirs, r.op ≠ .append) (ok : Nat → Bool) (s : Fds D)
    (hs : ∀ i < 3, s.get i ≠ none) :
    (l.tokens Lab02.dialect.toLexicon = rs.flatMap Redir.toks ++ as.flatMap Arg.toks →
      ∃ c, Lab02.parsecmd l = .ok c ∧
        ((∀ argv t, runcmd id ok c s = .exec argv t →
          Meaning l (rs ++ as.flatMap Arg.redirs) ok s t) ↔
        as = [] ∨ Harmless l (rs ++ as.flatMap Arg.redirs) ok s)) ∧
    (l.tokens Xv6.dialect.toLexicon = rs.flatMap Redir.toks ++ as.flatMap Arg.toks →
      ∃ c buf, Xv6.parsecmd l = .ok (c, buf) ∧
        ((∀ argv t, runcmd (fun w => Xv6.cstring buf w.q) ok c s = .exec argv t →
          Meaning l (rs ++ as.flatMap Arg.redirs) ok s t) ↔
        as = [] ∨ Harmless l (rs ++ as.flatMap Arg.redirs) ok s)) := by
  have h0 := hs 0 (by omega)
  have h1 := hs 1 (by omega)
  refine ⟨fun ht => ?_, fun ht => ?_⟩
  · have hd := Derives.exec (Derives.simple (d := Lab02.dialect) (l := l) rs as hmax)
    rw [← ht] at hd
    exact ⟨_, ((Lab02.parsecmd_iff l).2 _).mpr hd,
      meaning_simple Lab02.opens rs as (fun _ _ => rfl) hops h0 h1⟩
  · have hd := Derives.line 0 (Derives.exec (Derives.simple (d := Xv6.dialect) (l := l) rs as hmax))
    rw [List.replicate_zero, List.append_nil, ← ht] at hd
    obtain ⟨buf, hc⟩ := Xv6.parsecmd_complete hd
    refine ⟨_, buf, hc, meaning_simple Xv6.opens rs as (fun r hr => ?_) hops h0 h1⟩
    exact Xv6.parsecmd_strings hc (mem_words_wraps hr _)

/-- `a<f` -/
def oneInput : Line := ⟨['a', '<', 'f'].map ch, by decide +kernel⟩

/-- `a<f<g` -/
def twoInputs : Line := ⟨['a', '<', 'f', '<', 'g'].map ch, by decide +kernel⟩

/-- The descriptors 0, 1 and 2 are open. -/
def started : Fds Nat := ⟨[some (.old 0), some (.old 1), some (.old 2)], 0⟩

/-- One redirection whose `open` succeeds is harmless. -/
theorem meaning_iff_oneInput : (∀ i < 3, started.get i ≠ none) ∧
    ∃ c, Lab02.parsecmd oneInput = .ok c ∧ ∀ argv t,
      runcmd id (fun _ => true) c started = .exec argv t →
        Meaning oneInput [⟨.input, 2, 3⟩] (fun _ => true) started t := by
  have hs : ∀ i < 3, started.get i ≠ none := by decide
  refine ⟨hs, ?_⟩
  obtain ⟨c, hc, hiff⟩ := (meaning_iff oneInput [] [⟨0, 1, [⟨.input, 2, 3⟩]⟩] (by decide) (by decide)
    (fun _ => true) started hs).1 (by decide +kernel)
  exact ⟨c, hc, hiff.mpr (.inr ⟨fun _ _ => rfl, rfl, rfl⟩)⟩

/-- With an `open` that fails, `exec` is reached with descriptor 0 closed. And with `<f<g`,
descriptor 0 is `f`. -/
theorem meaning_fails :
    (∃ c t, Lab02.parsecmd oneInput = .ok c ∧
      runcmd id (fun _ => false) c started = .exec [[ch 'a']] t ∧ t.get 0 = none ∧
      ¬Meaning oneInput [⟨.input, 2, 3⟩] (fun _ => false) started t) ∧
    ∃ c t, Lab02.parsecmd twoInputs = .ok c ∧
      runcmd id (fun _ => true) c started = .exec [[ch 'a']] t ∧
      t.get 0 = some (.file [ch 'f'] []) ∧
      ¬Meaning twoInputs [⟨.input, 2, 3⟩, ⟨.input, 4, 5⟩] (fun _ => true) started t := by
  refine ⟨⟨.redir (.exec [[ch 'a']]) [ch 'f'] [] 0, ⟨[none, some (.old 1), some (.old 2)], 1⟩,
      by decide +kernel, by decide +kernel, rfl, fun h => ?_⟩,
    ⟨.redir (.redir (.exec [[ch 'a']]) [ch 'f'] [] 0) [ch 'g'] [] 0,
      ⟨[some (.file [ch 'f'] []), some (.old 1), some (.old 2)], 2⟩, by decide +kernel,
      by decide +kernel, rfl, fun h => ?_⟩⟩
  · cases h.succeeded 0 (Nat.le_refl _) Nat.zero_lt_one
  · obtain ⟨mode, hmode⟩ := h.input
    have hfile : (Desc.file [ch 'f'] [] : Desc Nat) = .file [ch 'g'] mode := Option.some.inj hmode
    injection hfile with hname
    exact absurd hname (by decide)

end Laboratorio.Shell
