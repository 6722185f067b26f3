import Laboratorio.Sim.Tables

/-!
# What the simulator does with its input (`main` in `lab-07/sim.c`)

`main` reads numbers, and takes each two of them for a `pid` and a page. Its only check is that the
page is not above `TAM_PROCESS`. `Protected` says what this check is there for: a pair that passes it
leads to no access outside of the page tables, and its process has been created; a pair that does not
changes nothing. `input_protected_iff` says which pairs are protected, in a run in which all pairs so
far were.

Pages below 1 and processes out of range are not. Neither is process 0: the tables are zero at the
start, so `main` finds a process with this `pid` that was never created. And when all counters of the
frames have reached `NUM_MAX`, the uninitialised `rem_memory` is used as an index.
-/

namespace Laboratorio.Sim

open Laboratorio.Scan Laboratorio.Slots

/-! ## The loop of `main` -/

/-- The variables of `main` and the global ones. -/
structure Main where
  count : Nat
  number1 : Int
  globals : State

/-- How a round of the loop ends. -/
inductive Round where
  | running (m : Main)
  | exited (s : State)

/-- The round in which `num` is read. -/
def readNumber (rem : Memory) (option : Policy) (num : Int) (m : Main) : Except Fault Round :=
  if m.count = 0 then .ok (.running { m with number1 := num, count := m.count + 1 })
  else if m.count = 1 then do
    match ← access rem option m.number1 num m.globals with
    | .running s => return .running { m with count := 0, globals := s }
    | .exited s => return .exited s
  else .ok (.running m)

/-- The pair that is passed on when `num` is read. -/
def Main.passes (m : Main) (num : Int) : List Page :=
  if m.count = 1 ∧ num ≤ tamProcess then [(m.number1, num)] else []

/-- `Reads option cond acc m`: `main` has read numbers such that every pair met `cond`, has passed on
the pairs `acc`, and is still running. The variable `number1` is not initialised. -/
inductive Reads (option : Policy) (cond : Page → State → Prop) : List Page → Main → Prop where
  | start (number1 : Int) : Reads option cond [] ⟨0, number1, initial⟩
  | step {acc : List Page} {m m' : Main} (rem : Memory) (num : Int) (reads : Reads option cond acc m)
      (met : m.count = 1 → cond (m.number1, num) m.globals)
      (next : readNumber rem option num m = .ok (.running m')) :
      Reads option cond (acc ++ m.passes num) m'

/-- When `modify_process` is called for `pid`, the process has been created, and it has an empty page
table if this is the first time. -/
def CreatedFirst (acc : List Page) (pid : Int) (s : State) : Prop :=
  ∃ s₁ k, prepare pid s = .ok s₁ ∧ ((k : Fin maxProcess) : Int) = pid ∧
    (s₁.processes k).created = true ∧
    ((∀ page, (pid, page) ∉ acc) → ∀ j, (s₁.processes k).page j = -1)

/-- **What the check of `main` is there for**, whatever the uninitialised `rem_memory` holds: a pair
that is passed on stays in the arrays, and its process has been created; any other pair changes
nothing. -/
def Protected (option : Policy) (acc : List Page) (num : Int) (m : Main) : Prop :=
  ∀ rem, if num ≤ tamProcess then
      (∃ r, readNumber rem option num m = .ok r) ∧ CreatedFirst acc m.number1 m.globals
    else readNumber rem option num m = .ok (.running { m with count := 0 })

/-- The pairs that are protected: those that are rejected, and the valid ones for which there is a
counter below `NUM_MAX` if they need a frame. -/
def Checked (option : Policy) (q : Page) (s : State) : Prop :=
  q.2 > tamProcess ∨ Valid q ∧ Evictable option q s

/-! ## Runs -/

section Runs

variable {option : Policy} {acc : List Page} {m : Main} {s : State}

theorem readNumber_second {rem : Memory} {num : Int} (hm : m.count = 1) :
    readNumber rem option num m = (access rem option m.number1 num m.globals).map fun
      | .running s => .running { m with count := 0, globals := s }
      | .exited s => .exited s := by
  rw [readNumber, if_neg (by omega), if_pos hm]
  cases access rem option m.number1 num m.globals with
  | error e => rfl
  | ok o => cases o <;> rfl

/-- As long as all pairs are checked the runs of `main` are those of the accesses. -/
theorem Reads.run (h : Reads option (Checked option) acc m) :
    Run option (Evictable option) acc m.globals := by
  induction h with
  | start => exact .start
  | @step acc m m' rem num _ met next ih =>
    by_cases hm : m.count = 1
    · rw [readNumber_second hm] at next
      by_cases hpage : num ≤ tamProcess
      · obtain ⟨hvalid, hev⟩ := (met hm).resolve_left (not_lt.mpr hpage)
        rw [Main.passes, if_pos ⟨hm, hpage⟩]
        cases hacc : access rem option m.number1 num m.globals with
        | error e =>
          rw [hacc] at next
          cases next
        | ok o =>
          rw [hacc] at next
          cases o with
          | exited s => cases next
          | running s =>
            cases next
            exact .step rem ih hvalid hev hacc
      · rw [Main.passes, if_neg fun h => hpage h.2, List.append_nil]
        rw [access, if_pos (not_le.mp hpage)] at next
        cases next
        exact ih
    · rw [Main.passes, if_neg fun h => hm h.1, List.append_nil]
      rw [readNumber] at next
      split at next
      · cases next
        exact ih
      · cases next
        exact ih

/-- A pair that is checked is protected. -/
theorem Checked.protected {num : Int} (run : Run option (Evictable option) acc m.globals)
    (hm : m.count = 1) (h : Checked option (m.number1, num) m.globals) :
    Protected option acc num m := by
  intro rem
  split
  · next hpage =>
    obtain ⟨hvalid, hev⟩ := h.resolve_left (not_lt.mpr hpage)
    obtain ⟨inv, hlast⟩ := run.inv fun _ _ h => h
    have htables := run.tables
    obtain ⟨s', hs', -⟩ := access_tables inv htables hlast hvalid rem hev
    refine ⟨?_, ?_⟩
    · rw [readNumber_second hm, hs']
      exact ⟨_, rfl⟩
    · obtain ⟨s₁, hs₁, -, htables₁⟩ := htables.prepare inv hvalid
      obtain ⟨k, hk, hindex⟩ := hvalid.index
      have hin : m.number1 ∈ (acc ++ [(m.number1, num)]).map Prod.fst := by simp
      refine ⟨s₁, k, hs₁, hk, (htables₁.named k (hk ▸ hin)).2, fun hnew j => ?_⟩
      have hvalid' : Valid (m.number1, (j : Int) + 1) := by
        refine ⟨hvalid.1, ?_⟩
        have := j.isLt
        simp only [tamProcess] at this ⊢
        omega
      have hentry := htables₁.absent _ hvalid' hin (hnew _)
      rw [State.entry, State.process, ← hindex] at hentry
      rw [← hentry]
      congr 1
      exact Fin.ext (by simp [Fin.ofNat, Nat.mod_eq_of_lt j.isLt])
  · next hpage =>
    rw [readNumber_second hm, access, if_pos (not_le.mp hpage)]
    rfl

end Runs

/-! ## Pairs that are not checked -/

section Unchecked

variable {rem : Memory} {option : Policy} {acc : List Page} {m : Main} {s s' : State}
  {pid page : Int} {i : Nat}

theorem setPage_error (h : ¬((0 ≤ pid ∧ pid < maxProcess) ∧ (0 ≤ page - 1 ∧ page - 1 < tamProcess))) :
    s.setPage pid page i = .error .outOfBounds := by
  rw [State.setPage, dif_neg h]

/-- Where `rem_memory` is used it is an index out of range. -/
def badRem : Memory := ⟨-1, 0, 0, 0⟩

theorem setPage_badRem : s.setPage badRem.process badRem.page i = .error .outOfBounds :=
  setPage_error (by decide)

theorem replaceFrame_secondary {cont : Int} (h : replaceFrame option cont pid page s = .ok s') :
    s'.secondary = s.secondary := by
  unfold replaceFrame at h
  split at h
  · unfold State.setPage at h
    split at h
    · cases h
      cases option <;> rfl
    · cases h
  · cases h
    rfl

/-- Without a counter below `NUM_MAX` the uninitialised `rem_memory` is evicted. -/
theorem evict_badRem (hstarved : ∀ i, numMax ≤ (s.primary i).stamp option)
    (hlast : (s.secondary (Fin.last 15)).content = none) :
    ∃ e, evict badRem pid page option s = .error e := by
  have hscan : scanLess (·.stamp option) numMax badRem s.primary = (numMax, badRem) :=
    scanLess_none _ _ _ _ hstarved
  simp only [evict, hscan]
  cases hr : replaceFrame option numMax pid page s with
  | error e => exact ⟨e, rfl⟩
  | ok s₁ =>
    obtain ⟨j, hj⟩ := exists_first (p := fun k => (s.secondary k).process == -1)
      (Memory.content_eq_none.mp hlast)
    simp only [bind, Except.bind, replaceFrame_secondary hr, hj]
    exact ⟨_, setPage_badRem⟩

theorem swap_badRem (hstarved : ∀ i, numMax ≤ (s.primary i).stamp option) {j : Fin tamSecondary}
    (hj : first (fun k => (s.secondary k).holds pid page) = some j) :
    ∃ e, swap badRem pid page option s = .error e := by
  have hscan : scanLess (·.stamp option) numMax badRem s.primary = (numMax, badRem) :=
    scanLess_none _ _ _ _ hstarved
  simp only [swap, hscan, hj, setPage_badRem]
  exact ⟨_, rfl⟩

/-- A page out of range is written where it does not exist. -/
theorem evict_outOfRange (hpage : ¬(0 ≤ page - 1 ∧ page - 1 < tamProcess))
    (hlast : (s.secondary (Fin.last 15)).content = none) :
    ∃ e, evict badRem pid page option s = .error e := by
  by_cases hev : ∃ i, (s.primary i).stamp option < numMax
  · obtain ⟨i, -, hscan, hfind⟩ := scan_oldest option badRem s hev
    simp only [evict, hscan, replaceFrame, hfind, setPage_error fun h => hpage h.2]
    exact ⟨_, rfl⟩
  · exact evict_badRem (fun i => not_lt.mp fun h => hev ⟨i, h⟩) hlast

theorem prepare_memory (h : prepare pid s = .ok s') : s' = { s with processes := s'.processes } := by
  unfold prepare at h
  split at h
  · unfold createProcess at h
    split at h
    · cases h
      rfl
    · cases h
  · cases h
    rfl

/-- Process 0 is found without having been created. -/
theorem TablesOk.prepare_zero {pids : List Int} (h : TablesOk pids acc s) (hzero : 0 ∉ pids) :
    Sim.prepare 0 s = .ok s ∧ (s.processes 0).created = false := by
  have hfresh := h.fresh 0 hzero
  have hfound : (first fun k => (s.processes k).pid == 0).isNone = false := by
    rw [Bool.eq_false_iff, Ne, Option.isNone_iff_eq_none, first_eq_none]
    intro hnone
    have := hnone 0
    rw [hfresh] at this
    cases this
  refine ⟨?_, by rw [hfresh]⟩
  rw [Sim.prepare, if_neg (by rw [hfound]; exact Bool.false_ne_true)]
  rfl

/-- A page that does not exist is in no slot. -/
theorem first_holds_invalid (hpid : pid ≠ -1) {n : Nat} {tbl : Fin n → Memory}
    (hvalid : ∀ k q, (tbl k).content = some q → Valid q) (hpage : ¬Valid (pid, page)) :
    first (fun k => (tbl k).holds pid page) = none := by
  rw [first_eq_none]
  intro k
  by_contra hholds
  rw [Bool.not_eq_false] at hholds
  obtain ⟨hp, hg⟩ : (tbl k).process = pid ∧ (tbl k).page = page := by
    simpa [Memory.holds] using hholds
  refine hpage (hvalid k _ ?_)
  rw [Memory.content_of_process (hp ▸ hpid), hp, hg]

/-- A page below 1 is written before the start of a page table. -/
theorem modifyProcess_outOfRange (inv : Inv acc s) (hlast : (s.secondary (Fin.last 15)).content = none)
    (hpid : 1 ≤ pid) (hpage : page < 1) : ∃ e, modifyProcess badRem pid page option s = .error e := by
  have hinvalid : ¬Valid (pid, page) := fun h => absurd h.2.1 (by simp only; omega)
  have hin : ∀ x q, slot s x = some q → Valid q := fun x q hx => inv.valid q (inv.holds.sound x q hx)
  have hframes : first (fun i => (s.primary i).holds pid page) = none :=
    first_holds_invalid (by omega) (fun k => hin (.inl k)) hinvalid
  have hstore : first (fun j => (s.secondary j).holds pid page) = none :=
    first_holds_invalid (by omega) (fun k => hin (.inr k)) hinvalid
  have hbad : ¬(0 ≤ page - 1 ∧ page - 1 < tamProcess) := by omega
  rw [modifyProcess_unheld badRem option hframes]
  simp only [hstore]
  cases first (fun i => (s.primary i).process == -1) with
  | some i =>
    simp only [placeInFrame, setPage_error fun h => hbad h.2]
    exact ⟨_, rfl⟩
  | none =>
    obtain ⟨e, he⟩ : ∃ e, evict badRem pid page option s = .error e := evict_outOfRange hbad hlast
    simp only [he]
    exact ⟨_, rfl⟩

/-- A page that needs a frame when there is no counter below `NUM_MAX`. -/
theorem modifyProcess_starved {q : Page} (hq : Valid q)
    (hlast : (s.secondary (Fin.last 15)).content = none) (hev : ¬Evictable option q s) :
    ∃ e, modifyProcess badRem q.1 q.2 option s = .error e := by
  obtain ⟨⟨habs, hfull⟩, hnone⟩ := Classical.not_imp.mp hev
  have hstarved : ∀ i, numMax ≤ (s.primary i).stamp option := fun i => not_lt.mp fun h => hnone ⟨i, h⟩
  rw [modifyProcess_miss hq badRem option habs]
  cases hsec : first (fun j => (s.secondary j).holds q.1 q.2) with
  | some j =>
    obtain ⟨e, he⟩ := swap_badRem hstarved hsec
    simp only [he]
    exact ⟨_, rfl⟩
  | none =>
    obtain ⟨e, he⟩ : ∃ e, evict badRem q.1 q.2 option s = .error e := evict_badRem hstarved hlast
    simp only [first_full hfull, he]
    exact ⟨_, rfl⟩

/-- A pair that is protected is checked. -/
theorem Protected.checked {num : Int} (run : Run option (Evictable option) acc m.globals)
    (hm : m.count = 1) (h : Protected option acc num m) :
    Checked option (m.number1, num) m.globals := by
  by_contra hnot
  obtain ⟨hpage, hpair⟩ := not_or.mp hnot
  rw [gt_iff_lt, not_lt] at hpage
  obtain ⟨inv, hlast⟩ := run.inv fun _ _ h => h
  have hp := h badRem
  rw [if_pos hpage] at hp
  obtain ⟨⟨r, hr⟩, s₁, k, hs₁, hk, hcreated, -⟩ := hp
  have hmem := prepare_memory hs₁
  have hok : ¬∃ e, modifyProcess badRem m.number1 num option s₁ = .error e := by
    rintro ⟨e, he⟩
    rw [readNumber_second hm, access_eq_prepare (q := (m.number1, num)) hpage] at hr
    simp only [hs₁, bind, Except.bind, he] at hr
    cases hr
  have hinv₁ : Inv acc s₁ := by
    rw [hmem]
    exact ⟨inv.valid, inv.holds, inv.full⟩
  have hlast₁ : (s₁.secondary (Fin.last 15)).content = none := by
    rw [hmem]
    exact hlast
  by_cases hzero : m.number1 = 0
  · -- process 0 counts as found
    have hpids : (0 : Int) ∉ acc.map Prod.fst := by
      intro hin
      obtain ⟨q, hq, hq0⟩ := List.mem_map.mp hin
      have := (inv.valid q hq).1.1
      omega
    obtain ⟨hself, hfalse⟩ := run.tables.prepare_zero hpids
    rw [hzero, hself] at hs₁
    cases hs₁
    rw [show k = 0 from Fin.ext (by have := hk.trans hzero; simpa using this), hfalse] at hcreated
    cases hcreated
  · have hpid : 1 ≤ m.number1 := by
      have := Int.natCast_nonneg k.val
      omega
    by_cases hlow : num < 1
    · exact hok (modifyProcess_outOfRange hinv₁ hlast₁ hpid hlow)
    · have hvalid : Valid (m.number1, num) := by
        refine ⟨⟨hpid, ?_⟩, not_lt.mp hlow, hpage⟩
        have := k.isLt
        simp only [maxProcess] at this ⊢
        omega
      refine hok (modifyProcess_starved hvalid hlast₁ fun hev => hpair ⟨hvalid, ?_⟩)
      rw [hmem] at hev
      exact hev

end Unchecked

/-- **The check of `main` protects the arrays just for the pairs that are checked**: for those above
`TAM_PROCESS`, which it rejects, and for those of a process from 1 to `MAX_PROCESS - 1` and a page from
1 on for which a victim is found. -/
theorem input_protected_iff {option : Policy} {acc : List Page} {m : Main}
    (reads : Reads option (Checked option) acc m) (hm : m.count = 1) (num : Int) :
    Protected option acc num m ↔ Checked option (m.number1, num) m.globals :=
  ⟨fun h => h.checked reads.run hm, fun h => h.protected reads.run hm⟩

/-- When the first number is 2, page 3 is protected, and page 0 is not. -/
theorem input_protected_iff_first :
    Protected .fifo [] 3 ⟨1, 2, initial⟩ ∧ ¬Protected .fifo [] 0 ⟨1, 2, initial⟩ := by
  have hreads : Reads .fifo (Checked .fifo) [] ⟨1, 2, initial⟩ :=
    .step ⟨0, 0, 0, 0⟩ 2 (.start 0) (fun h => absurd h (by decide)) rfl
  have hiff := input_protected_iff hreads rfl
  refine ⟨(hiff 3).mpr (.inr ⟨by decide, fun hev => absurd rfl (hev.2 0)⟩), fun h => ?_⟩
  rcases (hiff 0).mp h with hlarge | ⟨hvalid, -⟩
  · exact absurd hlarge (by decide)
  · exact absurd hvalid (by decide)

/-- The first pair of the input can be one that is not protected: page 0 of process 1 is stored
before the start of its page table, process 100 is created after the last one, and process 0 gets a
frame although it was never created. -/
theorem input_unprotected :
    (readNumber ⟨0, 0, 0, 0⟩ .fifo 0 ⟨1, 1, initial⟩).map (fun _ => ()) = .error .outOfBounds ∧
      (readNumber ⟨0, 0, 0, 0⟩ .fifo 1 ⟨1, 100, initial⟩).map (fun _ => ()) = .error .outOfBounds ∧
      (access ⟨0, 0, 0, 0⟩ .fifo 0 1 initial).map (fun o =>
        ((o.state.primary 0).content, (o.state.processes 0).created)) = .ok (some (0, 1), false) ∧
      ∀ p ∈ [((1 : Int), (0 : Int)), (100, 1), (0, 1)],
        Reads .fifo (fun _ _ => True) [] ⟨1, p.1, initial⟩ ∧
          ¬Protected .fifo [] p.2 ⟨1, p.1, initial⟩ := by
  refine ⟨by decide +kernel, by decide +kernel, by decide +kernel, fun p hp => ⟨?_, fun h => ?_⟩⟩
  · exact .step (m := ⟨0, 0, initial⟩) ⟨0, 0, 0, 0⟩ p.1 (.start 0) (fun _ => trivial) rfl
  · have hbad : ∀ p ∈ [((1 : Int), (0 : Int)), (100, 1), (0, 1)], p.2 ≤ tamProcess ∧ ¬Valid p := by
      decide
    rcases h.checked .start rfl with hlarge | ⟨hvalid, -⟩
    · exact absurd (hbad p hp).1 (not_le.mpr hlarge)
    · exact (hbad p hp).2 hvalid

end Laboratorio.Sim
