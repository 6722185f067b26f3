import Laboratorio.Lab05.Wordstack

/-!
# What is in the word stack (`lab-05/wordstack.c`)

`modify_canvas` copies a word into a row without looking at its length, so a word that is longer than
a row goes on in the next one (`longWord`). With words of at most `MAX_WORD` characters the rows are
the words that have been pushed and not popped, whatever the processes do (`stack_contents`).

The operations are ordered by their changes of `items`, which they make while they hold the mutex;
`History` has them in this order. In between, a process that holds the mutex has done a part of its
operation, and `shown` says what the rows are then.
-/

namespace Laboratorio.Lab05.Wordstack

open Function Laboratorio.Reach

variable {P : Type} [DecidableEq P]

/-! ## Histories -/

/-- The shared memory, and the operations that have changed `items`. -/
structure History (P : Type) where
  state : State P
  done : List Op

/-- A step is the change of `items` by an operation. -/
def State.counts (s : State P) (p : P) : Act → Option Op
  | .call _ => none
  | .next =>
    match s.pc p with
    | .items op => some op
    | _ => none

def History.step (h : History P) (p : P) (a : Act) : Option (History P) :=
  (h.state.step p a).map fun s => ⟨s, h.done ++ (h.state.counts p a).toList⟩

/-- A stack of words. -/
def Op.apply (words : List (List UInt8)) : Op → List (List UInt8)
  | .push value => words ++ [value]
  | .pop => words.dropLast

/-- The words that have been pushed and not popped, in the order of the pushes. -/
def contents (done : List Op) : List (List UInt8) := done.foldl Op.apply []

theorem contents_concat (done : List Op) (op : Op) :
    contents (done ++ [op]) = op.apply (contents done) := by
  rw [contents, List.foldl_append]
  rfl

/-- The word of a push fits in a row. -/
def Op.Short : Op → Prop
  | .push value => value.length ≤ maxWord
  | .pop => True

def Act.Short : Act → Prop
  | .call op => op.Short
  | .next => True

/-- A fresh shared object is filled with zeros. -/
def History.create (P : Type) : History P := ⟨Wordstack.create P fun _ => 0, []⟩

def HistoryReachable : History P → Prop :=
  Reach.Reachable (· = History.create P) fun h h' => ∃ p a, a.Short ∧ h.step p a = some h'

/-! ## The rows -/

/-- Byte `j` of row `r` when the rows are `words`. -/
def rowByte (words : List (List UInt8)) (r j : Nat) : UInt8 := (words.getD r []).getD j 0

/-- Byte `j` of row `r` while a process that holds the mutex is at `c`. -/
def shown (words : List (List UInt8)) (c : Pc) (r j : Nat) : UInt8 :=
  match c with
  | .row (.push value) i =>
    if r = words.length then if j < i then value.getD j 0 else 0 else rowByte words r j
  | .free (.push value) | .items (.push value) =>
    if r = words.length then value.getD j 0 else rowByte words r j
  | .row .pop i => if r + 1 = words.length ∧ j < i then 0 else rowByte words r j
  | .free .pop | .items .pop => if r + 1 = words.length then 0 else rowByte words r j
  | _ => rowByte words r j

/-- The rows of the stack are the bytes `f`. -/
def Rows (heap : Int → UInt8) (f : Nat → Nat → UInt8) : Prop :=
  ∀ r j, r < maxItems → j < maxWord → heap (r * maxWord + j) = f r j

/-- The word that an operation in progress pushes. -/
def Pc.op : Pc → Option Op
  | .idle => none
  | .wait op | .lock op | .row op _ | .free op | .items op | .unlock op | .post op => some op

/-- **What holds in every state**, besides `Inv`. -/
structure Contents (h : History P) : Prop where
  items : h.state.items = (contents h.done).length
  short : ∀ p op, (h.state.pc p).op = some op → op.Short
  held : ∀ p, (h.state.pc p).locks = true → Rows h.state.heap (shown (contents h.done) (h.state.pc p))
  free : h.state.mutex = none → Rows h.state.heap (rowByte (contents h.done))

section Rows

variable {words : List (List UInt8)} {value : List UInt8} {r j i : Nat}

theorem rowByte_length : rowByte words words.length j = 0 := by
  simp [rowByte]

theorem rowByte_concat : rowByte (words ++ [value]) r j =
    if r = words.length then value.getD j 0 else rowByte words r j := by
  simp only [rowByte, List.getD_eq_getElem?_getD]
  grind

theorem rowByte_dropLast : rowByte words.dropLast r j =
    if r + 1 = words.length then 0 else rowByte words r j := by
  simp only [rowByte, List.getD_eq_getElem?_getD]
  grind

/-- The change of `items`. -/
theorem shown_items (op : Op) : shown words (.items op) r j = rowByte (op.apply words) r j := by
  cases op with
  | push value => exact rowByte_concat.symm
  | pop => exact rowByte_dropLast.symm

theorem shown_start (op : Op) : shown words (.row op 0) r j = rowByte words r j := by
  cases op with
  | push value =>
    simp only [shown, Nat.not_lt_zero, if_false]
    split
    · next hr => rw [hr, rowByte_length]
    · rfl
  | pop => simp [shown]

/-- The end of the loop. -/
theorem shown_end {op : Op} (h : op.byte i = none) (hj : j < maxWord) :
    shown words (.row op i) r j = shown words (.free op) r j := by
  cases op with
  | push value =>
    have hlen : value.length ≤ i := List.getElem?_eq_none_iff.mp h
    simp only [shown]
    split
    · split
      · rfl
      · exact (List.getD_eq_default _ _ (by omega)).symm
    · rfl
  | pop =>
    have hi : maxWord ≤ i := by
      by_contra hlt
      rw [Op.byte, if_pos (not_le.mp hlt)] at h
      cases h
    simp only [shown]
    split
    · next hr => rw [if_pos hr.1]
    · next hr => rw [if_neg fun hr' => hr ⟨hr', by omega⟩]

/-- A round of the loop writes one byte. -/
theorem shown_round {op : Op} {b : UInt8} (h : op.byte i = some b) {row : Nat}
    (hrow : (row : Int) = words.length + (op.change - 1) / 2) :
    shown words (.row op (i + 1)) r j = if r = row ∧ j = i then b else shown words (.row op i) r j := by
  cases op with
  | push value =>
    have hb : value.getD i 0 = b := by
      rw [List.getD_eq_getElem?_getD, show value[i]? = some b from h]
      rfl
    have hrow' : row = words.length := by simpa [Op.change] using hrow
    subst hrow'
    grind [shown]
  | pop =>
    have hb : b = 0 := by
      by_cases hi : i < maxWord
      · rw [Op.byte, if_pos hi] at h
        exact (Option.some.inj h).symm
      · rw [Op.byte, if_neg hi] at h
        cases h
    have hrow' : row + 1 = words.length := by
      simp only [Op.change] at hrow
      omega
    grind [shown]

end Rows

/-! ## Steps -/

section Steps

variable {h h' : History P} {p : P} {s' : State P}

omit [DecidableEq P] in
/-- A process that holds the mutex is the only one to know about the rows. -/
theorem Contents.of_held [Fintype P] (inv : Inv h.state) (hp : (h.state.pc p).locks = true)
    (hitems : h.state.items = (contents h.done).length)
    (hshort : ∀ p op, (h.state.pc p).op = some op → op.Short)
    (hrows : Rows h.state.heap (shown (contents h.done) (h.state.pc p))) : Contents h := by
  refine ⟨hitems, hshort, fun q hq => ?_, fun hm => ?_⟩
  · obtain rfl := inv.mutex.unique hq hp
    exact hrows
  · rw [(inv.mutex p).mp hp] at hm
    cases hm

theorem Contents.short_update (hc : Contents h) {c : Pc} (hpc : s'.pc = update h.state.pc p c)
    (hop : ∀ op, c.op = some op → op.Short) : ∀ q op, (s'.pc q).op = some op → op.Short := by
  intro q op hq
  rw [hpc] at hq
  by_cases hqp : q = p
  · subst hqp
    rw [update_self] at hq
    exact hop op hq
  · rw [update_of_ne hqp] at hq
    exact hc.short q op hq

/-- A step outside of the critical section. -/
theorem Contents.outside (hc : Contents h) {c : Pc} (hpc : s'.pc = update h.state.pc p c)
    (hop : ∀ op, c.op = some op → op.Short) (hold : c.locks = false)
    (hitems : s'.items = h.state.items) (hheap : s'.heap = h.state.heap)
    (hmutex : s'.mutex = h.state.mutex) : Contents ⟨s', h.done⟩ := by
  refine ⟨hitems.trans hc.items, hc.short_update hpc hop, fun q hq => ?_, fun hm => ?_⟩
  · by_cases hqp : q = p
    · subst hqp
      replace hq : (s'.pc q).locks = true := hq
      rw [hpc, update_self, hold] at hq
      cases hq
    · show Rows s'.heap (shown (contents h.done) (s'.pc q))
      replace hq : (s'.pc q).locks = true := hq
      rw [hpc, update_of_ne hqp] at hq ⊢
      rw [hheap]
      exact hc.held q hq
  · show Rows s'.heap (rowByte (contents h.done))
    rw [hheap]
    exact hc.free (hmutex ▸ hm)

/-- A step in the critical section, after which process `p` is at `c`. -/
theorem Contents.inside [Fintype P] (hc : Contents h) (inv : Inv s') {c : Pc}
    (hpc : s'.pc = update h.state.pc p c) (hop : c.op = (h.state.pc p).op)
    (hold : c.locks = true) {done : List Op} (hitems : s'.items = (contents done).length)
    (hrows : Rows s'.heap (shown (contents done) c)) : Contents ⟨s', done⟩ := by
  have hp : s'.pc p = c := by rw [hpc, update_self]
  refine .of_held inv (p := p) (by rw [hp]; exact hold) hitems ?_ (by rw [hp]; exact hrows)
  exact hc.short_update hpc fun op h => hc.short p op (hop ▸ h)

variable [Fintype P]

omit [DecidableEq P] in
/-- The row that a process in the loop writes. -/
theorem Contents.row_eq (hc : Contents h) (inv : Inv h.state) {op : Op} {i : Nat}
    (hp : h.state.pc p = .row op i) : ∃ row : Nat, row < maxItems ∧ h.state.row op = row ∧
      (row : Int) = (contents h.done).length + (op.change - 1) / 2 := by
  have hitems := hc.items
  have hbounds := inv.bounds
  cases op with
  | push value =>
    have hlt := inv.vacant_pos (p := p) (by rw [hp]; rfl)
    refine ⟨(contents h.done).length, by omega, hitems, ?_⟩
    simp [Op.change]
  | pop =>
    have hpos := inv.filled_pos (p := p) (by rw [hp]; rfl)
    refine ⟨(contents h.done).length - 1, by omega, ?_, ?_⟩
    · show h.state.items - 1 = _
      omega
    · simp only [Op.change]
      omega

theorem Op.byte_lt {op : Op} {i : Nat} {b : UInt8} (hop : op.Short) (hb : op.byte i = some b) :
    i < maxWord := by
  cases op with
  | push value =>
    obtain ⟨hi, -⟩ := List.getElem?_eq_some_iff.mp hb
    exact hi.trans_le hop
  | pop =>
    by_contra hi
    rw [Op.byte, if_neg hi] at hb
    cases hb

theorem Contents.next (hc : Contents h) (inv : Inv h.state) (hs : h.state.next p = some s') :
    Contents ⟨s', h.done ++ (h.state.counts p .next).toList⟩ := by
  have inv' := inv.next hs
  have hsame : ∀ {c : Pc}, h.state.pc p = c → (∀ op, c ≠ .items op) →
      h.done ++ (h.state.counts p .next).toList = h.done := by
    intro c hpc hne
    rw [State.counts, hpc]
    cases c with
    | items op => exact absurd rfl (hne op)
    | _ => exact List.append_nil _
  unfold State.next at hs
  split at hs
  · cases hs
  · next op hpc =>
    rw [hsame hpc (by simp)]
    split at hs
    · cases hs
      exact hc.outside rfl (fun op h => hc.short p op (by rw [hpc]; exact h)) rfl rfl rfl rfl
    · cases hs
  · next op hpc =>
    rw [hsame hpc (by simp)]
    split at hs
    · next hm =>
      cases hs
      refine hc.inside inv' rfl (by rw [hpc]; rfl) rfl hc.items fun r j hr hj => ?_
      rw [shown_start]
      exact hc.free hm r j hr hj
    · cases hs
  · next op i hpc =>
    rw [hsame hpc (by simp)]
    have hrows := hc.held p (by rw [hpc]; rfl)
    rw [hpc] at hrows
    split at hs
    · next b hb =>
      cases hs
      refine hc.inside inv' rfl (by rw [hpc]; rfl) rfl hc.items fun r j hr hj => ?_
      obtain ⟨row, -, hrow, hplace⟩ := hc.row_eq inv hpc
      have hi := Op.byte_lt (hc.short p op (by rw [hpc]; rfl)) hb
      rw [shown_round hb hplace, ← hrows r j hr hj]
      show update h.state.heap (h.state.row op * maxWord + i) b _ = _
      rw [hrow, update_apply]
      simp only [maxWord] at hi hj ⊢
      refine if_congr ?_ rfl rfl
      omega
    · next hb =>
      cases hs
      refine hc.inside inv' rfl (by rw [hpc]; rfl) rfl hc.items fun r j hr hj => ?_
      rw [← shown_end hb hj]
      exact hrows r j hr hj
  · next op hpc =>
    rw [hsame hpc (by simp)]
    cases hs
    have hrows := hc.held p (by rw [hpc]; rfl)
    rw [hpc] at hrows
    refine hc.inside inv' rfl (by rw [hpc]; rfl) rfl hc.items fun r j hr hj => ?_
    refine (hrows r j hr hj).trans ?_
    cases op <;> rfl
  · next op hpc =>
    cases hs
    have hrows := hc.held p (by rw [hpc]; rfl)
    rw [hpc] at hrows
    have hdone : h.done ++ (h.state.counts p .next).toList = h.done ++ [op] := by
      rw [State.counts, hpc]
      rfl
    rw [hdone]
    refine hc.inside inv' rfl (by rw [hpc]; rfl) rfl ?_ fun r j hr hj => ?_
    · show h.state.items + op.change = _
      rw [hc.items, contents_concat]
      cases op with
      | push value => simp [Op.apply, Op.change]
      | pop =>
        have hpos := inv.filled_pos (p := p) (by rw [hpc]; rfl)
        have := hc.items
        simp only [Op.apply, Op.change, List.length_dropLast]
        omega
    · rw [contents_concat]
      exact (hrows r j hr hj).trans (shown_items op)
  · next op hpc =>
    rw [hsame hpc (by simp)]
    cases hs
    have hrows := hc.held p (by rw [hpc]; rfl)
    rw [hpc] at hrows
    refine ⟨hc.items, hc.short_update rfl fun op h => hc.short p op (by rw [hpc]; exact h),
      fun q hq => ?_, fun _ => hrows⟩
    cases (inv'.mutex q).mp hq
  · next op hpc =>
    rw [hsame hpc (by simp)]
    cases hs
    exact hc.outside rfl (fun _ h => by cases h) rfl rfl rfl rfl

/-- **A step keeps the rows.** -/
theorem Contents.step (hc : Contents h) (inv : Inv h.state) {a : Act} (ha : a.Short)
    (hs : h.step p a = some h') : Contents h' := by
  obtain ⟨s', hs', rfl⟩ := Option.map_eq_some_iff.mp hs
  cases a with
  | call op =>
    simp only [State.step] at hs'
    split at hs'
    · cases hs'
      rw [show h.done ++ (h.state.counts p (.call op)).toList = h.done from List.append_nil _]
      refine hc.outside rfl (fun op' h => ?_) rfl rfl rfl rfl
      cases h
      exact ha
    · cases hs'
  | next => exact hc.next inv hs'

end Steps

/-! ## All runs -/

section Runs

variable [Fintype P] {h : History P}

omit [Fintype P] in
theorem HistoryReachable.state (hh : HistoryReachable h) : Reachable h.state := by
  induction hh with
  | init h0 =>
    subst h0
    exact .init ⟨_, rfl⟩
  | step _ hs ih =>
    obtain ⟨p, a, -, hs⟩ := hs
    obtain ⟨s', hs', rfl⟩ := Option.map_eq_some_iff.mp hs
    exact ih.step ⟨p, a, hs'⟩

theorem HistoryReachable.contents (hh : HistoryReachable h) : Contents h := by
  induction hh with
  | init h0 =>
    subst h0
    refine ⟨rfl, fun p op hop => ?_, fun p hp => ?_, fun _ r j _ _ => ?_⟩
    · cases hop
    · cases hp
    · simp [History.create, Wordstack.create, Wordstack.contents, rowByte]
  | step hreach hs ih =>
    obtain ⟨p, a, ha, hs⟩ := hs
    exact ih.step (Inv.reachable (HistoryReachable.state hreach)) ha hs

/-- **The rows are the words that have been pushed and not popped**, as long as no word is longer than
a row: whenever the mutex is free, the rows below `items` are these words in the order in which they
were pushed, filled up with zeros, and the other rows are zeros. No byte outside of the rows is
written. -/
theorem stack_contents (hh : HistoryReachable h) :
    (h.state.mutex = none → h.state.items = (Wordstack.contents h.done).length ∧
      (∀ (r : Nat) (hr : r < (Wordstack.contents h.done).length), ∀ j < maxWord,
        h.state.heap (r * maxWord + j) = (((Wordstack.contents h.done)[r]).take maxWord).getD j 0) ∧
      ∀ r j : Nat, (Wordstack.contents h.done).length ≤ r → r < maxItems → j < maxWord →
        h.state.heap (r * maxWord + j) = 0) ∧
    ∀ p op i b, h.state.pc p = .row op i → op.byte i = some b →
      0 ≤ h.state.row op * maxWord + i ∧ h.state.row op * maxWord + i < maxItems * maxWord := by
  have hc := hh.contents
  have inv := Inv.reachable hh.state
  refine ⟨fun hm => ⟨hc.items, fun r hr j hj => ?_, fun r j hr hlt hj => ?_⟩, fun p op i b hp hb => ?_⟩
  · have hbounds := inv.bounds
    have hitems := hc.items
    rw [hc.free hm r j (by omega) hj]
    simp only [rowByte, List.getD_eq_getElem?_getD]
    grind
  · rw [hc.free hm r j hlt hj, rowByte, List.getD_eq_default _ _ hr]
    rfl
  · obtain ⟨row, hlt, hrow, -⟩ := hc.row_eq inv hp
    have hi := Op.byte_lt (hc.short p op (by rw [hp]; rfl)) hb
    rw [hrow]
    simp only [maxWord, maxItems] at hi hlt ⊢
    omega

/-- One process pushes a word of two characters and pops it, and another one pushes a word of one. -/
def pushPopPush : List (Bool × Act) :=
  (true, .call (.push [97, 98])) :: List.replicate 9 (true, .next) ++
    ((true, .call .pop) :: List.replicate 57 (true, .next)) ++
    ((false, .call (.push [99])) :: List.replicate 8 (false, .next))

instance : DecidablePred Op.Short
  | .push _ => inferInstanceAs (Decidable (_ ≤ _))
  | .pop => inferInstanceAs (Decidable True)

instance : DecidablePred Act.Short
  | .call op => inferInstanceAs (Decidable op.Short)
  | .next => inferInstanceAs (Decidable True)

/-- A step with a word that fits. -/
def History.shortStep (h : History Bool) (a : Bool × Act) : Option (History Bool) :=
  if a.2.Short then h.step a.1 a.2 else none

theorem shortStep_step (h : History Bool) (a : Bool × Act) (h' : History Bool)
    (hs : h.shortStep a = some h') : ∃ p a, a.Short ∧ h.step p a = some h' := by
  unfold History.shortStep at hs
  split at hs
  · next ha => exact ⟨a.1, a.2, ha, hs⟩
  · cases hs

/-- The row at the bottom holds the second word, and nothing is left of the first one. -/
theorem stack_contents_pushPopPush : ∃ h : History Bool, HistoryReachable h ∧
    Wordstack.contents h.done = [[99]] ∧ h.state.items = 1 ∧ h.state.heap 0 = 99 ∧
    h.state.heap 1 = 0 := by
  have hrun : ((run History.shortStep (History.create Bool) pushPopPush).map fun h =>
      (decide (h.state.mutex = none), Wordstack.contents h.done)) = some (true, [[99]]) := by
    decide +kernel
  obtain ⟨h, hh, hend⟩ := Option.map_eq_some_iff.mp hrun
  obtain ⟨hm, hcontents⟩ := Prod.mk.inj hend
  have h0 : HistoryReachable (History.create Bool) := .init rfl
  have hreach : HistoryReachable h := reachable_of_run shortStep_step h0 hh
  obtain ⟨hitems, hrows, -⟩ := (stack_contents hreach).1 (of_decide_eq_true hm)
  rw [hcontents] at hitems
  simp only [hcontents] at hrows
  exact ⟨h, hreach, hcontents, hitems, hrows 0 (by decide) 0 (by decide),
    hrows 0 (by decide) 1 (by decide)⟩

/-- A word of 51 characters. -/
def longWord : List UInt8 := List.replicate 51 97

/-- A push of a long word writes into the row above it. -/
theorem stack_contents_longWord : ∃ h : History Bool,
    Reach.Reachable (· = History.create Bool) (fun h h' => ∃ p a, h.step p a = some h') h ∧
    h.done = [.push longWord] ∧ h.state.mutex = none ∧ h.state.items = 1 ∧
    h.state.heap (1 * maxWord + 0) = 97 := by
  have hrun : ((run (fun h a => History.step h true a) (History.create Bool)
      (.call (.push longWord) :: List.replicate 58 .next)).map fun h =>
      (h.done, decide (h.state.mutex = none), h.state.items, h.state.heap (1 * maxWord + 0))) =
      some ([.push longWord], true, 1, 97) := by decide +kernel
  obtain ⟨h, hh, hend⟩ := Option.map_eq_some_iff.mp hrun
  simp only [Prod.mk.injEq, decide_eq_true_eq] at hend
  have h0 : Reach.Reachable (· = History.create Bool) (fun h h' => ∃ p a, h.step p a = some h')
      (History.create Bool) := .init rfl
  exact ⟨h, reachable_of_run (fun _ a _ ha => ⟨true, a, ha⟩) h0 hh, hend⟩

end Runs

end Laboratorio.Lab05.Wordstack
