import Laboratorio.Sim.Basic

/-!
# What one access does

`access` runs through five update paths, each of them a scan followed by a second scan that has to
stop at the same entry. Here they are worked out once: `Effect option q s s'` lists what an access
of the page `q` can do to the two memories and the counters, and `access_effect` shows that an
access of a valid page does one of these things, under the invariant `Inv` of the memories and one
condition on the counters, `Evictable`. The properties of whole runs are read off `Effect`.
-/

namespace Laboratorio.Sim

open Function Laboratorio.Scan Laboratorio.Slots

/-- The page an entry holds, if it is taken. -/
def Memory.content (m : Memory) : Option Page :=
  if m.process = -1 then none else some (m.process, m.page)

/-- The slots of both memories in one table. -/
def slot (s : State) : Fin tamPrimary ⊕ Fin tamSecondary → Option Page
  | .inl i => (s.primary i).content
  | .inr j => (s.secondary j).content

@[simp] theorem slot_inl (s : State) (i : Fin tamPrimary) :
    slot s (.inl i) = (s.primary i).content := rfl

@[simp] theorem slot_inr (s : State) (j : Fin tamSecondary) :
    slot s (.inr j) = (s.secondary j).content := rfl

/-- Every page of `acc` is in exactly one slot and nothing else is in any; and pages are only in
secondary memory when the frames are all taken. -/
structure Inv (acc : List Page) (s : State) : Prop where
  valid : ∀ q ∈ acc, Valid q
  holds : Holds (slot s) {q | q ∈ acc}
  full : ∀ j, (s.secondary j).content ≠ none → ∀ i, (s.primary i).content ≠ none

/-- The page has to take somebody's frame. -/
def Evicts (q : Page) (s : State) : Prop :=
  (∀ i, (s.primary i).content ≠ some q) ∧ ∀ i, (s.primary i).content ≠ none

/-- When the page has to take somebody's frame, the scan for the smallest counter, which starts at
`NUM_MAX`, finds one. -/
def Evictable (option : Policy) (q : Page) (s : State) : Prop :=
  Evicts q s → ∃ i, (s.primary i).stamp option < numMax

/-- The frame `i` is the first one with the smallest counter. -/
def IsOldest (option : Policy) (s : State) (i : Fin tamPrimary) : Prop :=
  (∀ k, (s.primary i).stamp option ≤ (s.primary k).stamp option) ∧
    ∀ k < i, (s.primary i).stamp option < (s.primary k).stamp option

/-- The page of a frame. -/
def State.victim (s : State) (i : Fin tamPrimary) : Page :=
  ((s.primary i).process, (s.primary i).page)

/-- The page `q` takes the frame `i`, and what that held goes to the secondary slot `j`. -/
structure Exchange (option : Policy) (q : Page) (i : Fin tamPrimary) (j : Fin tamSecondary)
    (s s' : State) : Prop where
  primary : s'.primary = update s.primary i ((s.primary i).assign option q.1 q.2 (s.counter option))
  secondary : s'.secondary = update s.secondary j ((s.secondary j).assign option
    (s.primary i).process (s.primary i).page ((s.primary i).stamp option))
  counters : (s'.contFIFO, s'.contLRU) = ((s.bump option).contFIFO, (s.bump option).contLRU)

/-- What an access of the page `q` can do to the memories and the counters, and the entries that it
writes in the page tables, the last one first. -/
inductive Effect (option : Policy) (q : Page) (s s' : State) : List (Page × Int) → Prop where
  /-- the page is in a frame -/
  | hit (i : Fin tamPrimary)
      (here : (s.primary i).content = some q)
      (primary : s'.primary = update s.primary i { s.primary i with lru := s.contLRU })
      (secondary : s'.secondary = s.secondary)
      (contFIFO : s'.contFIFO = s.contFIFO)
      (contLRU : s'.contLRU = toInt32 (s.contLRU + 1)) : Effect option q s s' []
  /-- the page is nowhere, and the frame `i` is the first free one -/
  | place (i : Fin tamPrimary)
      (absent : ∀ x, slot s x ≠ some q)
      (free : (s.primary i).content = none)
      (first : ∀ k < i, (s.primary k).content ≠ none)
      (primary : s'.primary = update s.primary i
        { process := q.1, page := q.2, fifo := s.contFIFO, lru := s.contLRU })
      (secondary : s'.secondary = s.secondary)
      (contFIFO : s'.contFIFO = toInt32 (s.contFIFO + 1))
      (contLRU : s'.contLRU = toInt32 (s.contLRU + 1)) : Effect option q s s' [(q, i)]
  /-- the page is nowhere and the frames are taken: the oldest frame is emptied into the first free
  secondary slot -/
  | evict (i : Fin tamPrimary) (j : Fin tamSecondary)
      (absent : ∀ x, slot s x ≠ some q)
      (full : ∀ k, (s.primary k).content ≠ none)
      (oldest : IsOldest option s i)
      (free : (s.secondary j).content = none)
      (first : ∀ k < j, (s.secondary k).content ≠ none)
      (exchange : Exchange option q i j s s') : Effect option q s s' [(s.victim i, j), (q, i)]
  /-- the page is in the secondary slot `j`: it changes places with the oldest frame -/
  | swap (i : Fin tamPrimary) (j : Fin tamSecondary)
      (absent : ∀ k, (s.primary k).content ≠ some q)
      (full : ∀ k, (s.primary k).content ≠ none)
      (oldest : IsOldest option s i)
      (there : (s.secondary j).content = some q)
      (exchange : Exchange option q i j s s') : Effect option q s s' [(q, i), (s.victim i, j)]

variable {option : Policy} {acc : List Page} {q : Page} {s s' : State} {m : Memory}
  {i : Fin tamPrimary} {j : Fin tamSecondary}

/-! ## Entries -/

theorem Memory.content_eq_none : m.content = none ↔ (m.process == -1) = true := by
  simp [Memory.content]

theorem Memory.content_eq_some :
    m.content = some q ↔ m.process ≠ -1 ∧ (m.process, m.page) = q := by
  simp only [Memory.content]
  split <;> simp_all

theorem Memory.content_of_process (h : m.process ≠ -1) :
    m.content = some (m.process, m.page) := by
  simp [Memory.content, h]

/-- The comparison the loops make is the one with the page the entry holds: no valid `pid` is the
`-1` of a free entry. -/
theorem Memory.holds_iff (hq : Valid q) :
    m.holds q.1 q.2 = true ↔ m.content = some q := by
  obtain ⟨pid, page⟩ := q
  have hpid : pid ≠ -1 := by have := hq.1.1; simp only at this; omega
  simp only [Memory.holds, Bool.and_eq_true, beq_iff_eq, Memory.content_eq_some, Prod.mk.injEq]
  constructor
  · rintro ⟨rfl, rfl⟩; exact ⟨hpid, rfl, rfl⟩
  · rintro ⟨-, h⟩; exact h

@[simp] theorem Memory.process_assign (m : Memory) (o : Policy) (p g t : Int) :
    (m.assign o p g t).process = p := by cases o <;> rfl

@[simp] theorem Memory.page_assign (m : Memory) (o : Policy) (p g t : Int) :
    (m.assign o p g t).page = g := by cases o <;> rfl

@[simp] theorem Memory.stamp_assign (m : Memory) (o : Policy) (p g t : Int) :
    (m.assign o p g t).stamp o = t := by cases o <;> rfl

theorem Memory.content_assign (m : Memory) (o : Policy) (hq : Valid q) (t : Int) :
    (m.assign o q.1 q.2 t).content = some q := by
  rw [Memory.content_of_process] <;> simp
  have := hq.1.1; omega

/-! ## The page tables -/

/-- `processes[pid].page[page - 1]`, for a page that exists. -/
def entry (pr : Fin maxProcess → Process) (q : Page) : Int :=
  (pr (Fin.ofNat maxProcess q.1.toNat)).page (Fin.ofNat tamProcess (q.2 - 1).toNat)

/-- The pages that are written in the page tables, the last one first, with what is written. -/
structure Writes (pr pr' : Fin maxProcess → Process) (l : List (Page × Int)) : Prop where
  entry : ∀ q, Valid q → entry pr' q = (l.lookup q).getD (entry pr q)
  pid : ∀ k, (pr' k).pid = (pr k).pid
  created : ∀ k, (pr' k).created = (pr k).created
  other : ∀ k, (∀ p n, (p, n) ∈ l → Fin.ofNat maxProcess p.1.toNat ≠ k) → pr' k = pr k

theorem Writes.trans {pr pr₁ pr' : Fin maxProcess → Process} {l l₁ : List (Page × Int)}
    (h₁ : Writes pr pr₁ l₁) (h : Writes pr₁ pr' l) : Writes pr pr' (l ++ l₁) where
  entry q hq := by
    rw [h.entry q hq, h₁.entry q hq, List.lookup_append]
    cases l.lookup q <;> rfl
  pid k := (h.pid k).trans (h₁.pid k)
  created k := (h.created k).trans (h₁.created k)
  other k hk := (h.other k fun p n hp => hk p n (List.mem_append_left _ hp)).trans
    (h₁.other k fun p n hp => hk p n (List.mem_append_right _ hp))

/-- Two valid pages with the same place in the page tables are the same. -/
theorem place_inj {p : Page} (hq : Valid q) (hp : Valid p)
    (hpid : Fin.ofNat maxProcess q.1.toNat = Fin.ofNat maxProcess p.1.toNat)
    (hpage : Fin.ofNat tamProcess (q.2 - 1).toNat = Fin.ofNat tamProcess (p.2 - 1).toNat) :
    q = p := by
  obtain ⟨⟨hq1, hq2⟩, hq3, hq4⟩ := hq
  obtain ⟨⟨hp1, hp2⟩, hp3, hp4⟩ := hp
  have h1 := congrArg Fin.val hpid
  have h2 := congrArg Fin.val hpage
  simp only [Fin.ofNat, maxProcess, tamProcess] at *
  refine Prod.ext ?_ ?_
  · omega
  · omega

/-- **`processes[pid].page[page - 1] = n`** does not stop an access of a valid page. -/
theorem setPage_ok (hq : Valid q) (n : Nat) (s : State) :
    ∃ pr, s.setPage q.1 q.2 n = .ok { s with processes := pr } ∧
      Writes s.processes pr [(q, (n : Int))] := by
  have hin : (0 ≤ q.1 ∧ q.1 < maxProcess) ∧ (0 ≤ q.2 - 1 ∧ q.2 - 1 < tamProcess) := by
    obtain ⟨⟨h1, h2⟩, h3, h4⟩ := hq
    refine ⟨⟨by omega, h2⟩, by omega, by omega⟩
  have hpid : (⟨q.1.toNat, by omega⟩ : Fin maxProcess) = Fin.ofNat maxProcess q.1.toNat :=
    Fin.ext (Nat.mod_eq_of_lt (by omega)).symm
  have hpage : (⟨(q.2 - 1).toNat, by omega⟩ : Fin tamProcess) =
      Fin.ofNat tamProcess (q.2 - 1).toNat := Fin.ext (Nat.mod_eq_of_lt (by omega)).symm
  rw [State.setPage, dif_pos hin]
  refine ⟨_, rfl, fun p hp => ?_, fun k => ?_, fun k => ?_, fun k hk => ?_⟩
  · simp only [Sim.entry, hpid, hpage, List.lookup_cons, List.lookup_nil]
    by_cases hk : Fin.ofNat maxProcess p.1.toNat = Fin.ofNat maxProcess q.1.toNat
    · rw [hk, update_self]
      by_cases hj : Fin.ofNat tamProcess (p.2 - 1).toNat = Fin.ofNat tamProcess (q.2 - 1).toNat
      · obtain rfl := place_inj hp hq hk hj
        simp
      · have hne : (p == q) = false := by
          rw [beq_eq_false_iff_ne]
          rintro rfl
          exact hj rfl
        simp only [update_of_ne hj, hne]
        rfl
    · have hne : (p == q) = false := by
        rw [beq_eq_false_iff_ne]
        rintro rfl
        exact hk rfl
      simp only [update_of_ne hk, hne]
      rfl
  · simp only [update_apply]
    split
    · next hk => rw [hk]
    · rfl
  · simp only [update_apply]
    split
    · next hk => rw [hk]
    · rfl
  · have hne := hk q n List.mem_cons_self
    simp only [hpid, update_of_ne hne.symm]

theorem createProcess_ok (hq : Valid q) (s : State) :
    ∃ pr, createProcess q.1 s = .ok { s with processes := pr } := by
  have h : 0 ≤ q.1 ∧ q.1 < maxProcess := ⟨by have := hq.1.1; omega, hq.1.2⟩
  simp only [createProcess, h, and_self, ↓reduceDIte]
  exact ⟨_, rfl⟩

theorem access_eq (hq : Valid q) (rem : Memory) (option : Policy) (s : State) :
    ∃ pr, access rem option q.1 q.2 s =
      modifyProcess rem q.1 q.2 option { s with processes := pr } := by
  have hpage : ¬ q.2 > tamProcess := by have := hq.2.2; omega
  simp only [access, hpage, ↓reduceIte]
  split
  · obtain ⟨pr, hpr⟩ := createProcess_ok hq s
    exact ⟨pr, by rw [hpr]; rfl⟩
  · exact ⟨s.processes, rfl⟩

/-! ## The paths -/

theorem placeInFrame_ok (hq : Valid q) (i : Fin tamPrimary) (s : State) :
    ∃ pr, placeInFrame q.1 q.2 i s = .ok
      { processes := pr
        primary := update s.primary i
          { process := q.1, page := q.2, fifo := s.contFIFO, lru := s.contLRU }
        secondary := s.secondary
        contFIFO := toInt32 (s.contFIFO + 1)
        contLRU := toInt32 (s.contLRU + 1) } ∧ Writes s.processes pr [(q, (i : Int))] := by
  obtain ⟨pr, hpr, hw⟩ := setPage_ok hq i (s.setPrimary i
    { process := q.1, page := q.2, fifo := s.contFIFO, lru := s.contLRU })
  exact ⟨pr, by simp only [placeInFrame, hpr]; rfl, hw⟩

theorem replaceFrame_ok (hq : Valid q) (option : Policy) {cont : Int} (s : State)
    (hi : first (fun k => (s.primary k).stamp option == cont) = some i) :
    ∃ pr, replaceFrame option cont q.1 q.2 s = .ok
      { processes := pr
        primary := update s.primary i ((s.primary i).assign option q.1 q.2 (s.counter option))
        secondary := s.secondary
        contFIFO := (s.bump option).contFIFO
        contLRU := (s.bump option).contLRU } ∧ Writes s.processes pr [(q, (i : Int))] := by
  obtain ⟨pr, hpr, hw⟩ := setPage_ok hq i ((s.setPrimary i
    ((s.primary i).assign option q.1 q.2 (s.counter option))).bump option)
  refine ⟨pr, ?_, by cases option <;> exact hw⟩
  simp only [replaceFrame, hi, hpr]
  cases option <;> rfl

/-- The scan for the smallest counter finds the oldest frame, and the second scan stops there. -/
theorem scan_oldest (option : Policy) (rem : Memory) (s : State)
    (h : ∃ i, (s.primary i).stamp option < numMax) :
    ∃ i, IsOldest option s i ∧
      scanLess (·.stamp option) numMax rem s.primary = ((s.primary i).stamp option, s.primary i) ∧
      first (fun k => (s.primary k).stamp option == (s.primary i).stamp option) = some i := by
  obtain ⟨i₀, hi₀⟩ := h
  obtain ⟨i, hleast, hfirst, hscan, hfind⟩ :=
    scanLess_some (fun m : Memory => m.stamp option) numMax rem s.primary i₀ hi₀
  exact ⟨i, ⟨hleast, hfirst⟩, hscan, hfind⟩

section Victim

variable {rem : Memory} (hq : Valid q)
  (hscan : scanLess (·.stamp option) numMax rem s.primary = ((s.primary i).stamp option, s.primary i))
  (hfind : first (fun k => (s.primary k).stamp option == (s.primary i).stamp option) = some i)
  (hvictim : Valid (s.victim i))

include hq hscan hfind hvictim

theorem evict_ok (hj : first (fun k => (s.secondary k).process == -1) = some j) :
    ∃ s', evict rem q.1 q.2 option s = .ok s' ∧ Exchange option q i j s s' ∧
      Writes s.processes s'.processes [(s.victim i, (j : Int)), (q, (i : Int))] := by
  obtain ⟨pr, hpr, hw⟩ := replaceFrame_ok hq option s hfind
  simp only [evict, hscan, hpr, bind, Except.bind, hj]
  obtain ⟨pr', hpr', hw'⟩ := setPage_ok hvictim j _
  exact ⟨_, hpr', ⟨rfl, rfl, rfl⟩, hw.trans hw'⟩

theorem swap_ok (hj : first (fun k => (s.secondary k).holds q.1 q.2) = some j)
    (hjq : (s.secondary j).content = some q) :
    ∃ s', swap rem q.1 q.2 option s = .ok s' ∧ Exchange option q i j s s' ∧
      Writes s.processes s'.processes [(q, (i : Int)), (s.victim i, (j : Int))] := by
  -- what the slot `j` held is the page itself
  have hpage : ((s.secondary j).process, (s.secondary j).page) = q :=
    (Memory.content_eq_some.mp hjq).2
  have hp1 : (s.secondary j).process = q.1 := by rw [← hpage]
  have hp2 : (s.secondary j).page = q.2 := by rw [← hpage]
  obtain ⟨pr, hpr, hw⟩ := setPage_ok hvictim j (s.setSecondary j ((s.secondary j).assign option
    (s.primary i).process (s.primary i).page ((s.primary i).stamp option)))
  obtain ⟨pr', hpr', hw'⟩ :=
    replaceFrame_ok hq option { s.setSecondary j _ with processes := pr } hfind
  simp only [State.victim] at hpr
  unfold swap
  simp only [hscan, hj, hpr, bind, Except.bind, pure, Except.pure, hp1, hp2]
  exact ⟨_, hpr', by cases option <;> exact ⟨rfl, rfl, rfl⟩, hw.trans hw'⟩

end Victim

/-! ## One access -/

theorem first_full {n : Nat} {tbl : Fin n → Memory} (h : ∀ k, (tbl k).content ≠ none) :
    first (fun k => (tbl k).process == -1) = none := by
  refine first_eq_none.mpr fun k => ?_
  rw [Bool.eq_false_iff, Ne, ← Memory.content_eq_none]
  exact h k

theorem Memory.content_ne_none (h : (m.process == -1) = false) : m.content ≠ none := by
  rw [Ne, Memory.content_eq_none, h]
  exact Bool.false_ne_true

theorem first_holds_none (hq : Valid q) {n : Nat} {tbl : Fin n → Memory}
    (h : ∀ i, (tbl i).content ≠ some q) : first (fun i => (tbl i).holds q.1 q.2) = none := by
  rw [first_eq_none]
  intro i
  rw [Bool.eq_false_iff, Ne, Memory.holds_iff hq]
  exact h i

theorem first_holds_some (hq : Valid q) {n : Nat} {tbl : Fin n → Memory} {i : Fin n}
    (h : (tbl i).content = some q) (huniq : ∀ k, (tbl k).content = some q → k = i) :
    first (fun i => (tbl i).holds q.1 q.2) = some i := by
  rw [first_eq_some]
  refine ⟨(Memory.holds_iff hq).mpr h, fun k hk => ?_⟩
  rw [Bool.eq_false_iff, Ne, Memory.holds_iff hq]
  intro hkq
  exact absurd (huniq k hkq) (ne_of_lt hk)

/-- A page in a frame is in no other slot, so the hit path changes nothing but its counter. -/
theorem modifyProcess_hit (inv : Inv acc s) (hq : Valid q) (rem : Memory) (option : Policy)
    (hi : (s.primary i).content = some q) :
    modifyProcess rem q.1 q.2 option s =
      .ok (finish ((s.setPrimary i { s.primary i with lru := s.contLRU }).bump .lru)) := by
  have huniq : ∀ k, (s.primary k).content = some q → k = i := fun k hk => by
    simpa using inv.holds.inj (x := .inl k) (y := .inl i) hk hi
  have hsec : ∀ j, (s.secondary j).content ≠ some q := fun j hj => by
    simpa using inv.holds.inj (x := .inl i) (y := .inr j) hi hj
  have htouch : touch q.1 q.2 s =
      (s.setPrimary i { s.primary i with lru := s.contLRU }).bump .lru := by
    simp only [touch, first_holds_some hq hi huniq]
  have hbetween : first (fun j => ((touch q.1 q.2 s).secondary j).holds q.1 q.2) = none := by
    rw [htouch]; exact first_holds_none hq hsec
  unfold modifyProcess
  simp only [first_holds_some hq hi huniq, hbetween]
  rw [htouch]
  rfl

/-- A page that no frame holds: it is swapped in, placed, or given somebody's frame. -/
theorem modifyProcess_unheld {pid page : Int} (rem : Memory) (option : Policy)
    (habs : first (fun i => (s.primary i).holds pid page) = none) :
    modifyProcess rem pid page option s = Except.map finish
      (match first (fun j => (s.secondary j).holds pid page) with
      | some _ => swap rem pid page option s
      | none =>
        match first (fun i => (s.primary i).process == -1) with
        | some i => placeInFrame pid page i s
        | none => evict rem pid page option s) := by
  have htouch : touch pid page s = s := by simp only [touch, habs]
  unfold modifyProcess
  simp only [htouch, habs]
  cases first (fun j => (s.secondary j).holds pid page) with
  | some j =>
    simp only [Option.isSome_none, Option.isSome_some, Bool.true_eq_false, and_false, ↓reduceIte,
      pure_bind]
    cases swap rem pid page option s <;> rfl
  | none =>
    simp only [Option.isSome_none, Bool.false_eq_true, and_self, ↓reduceIte]
    cases first (fun i => (s.primary i).process == -1) with
    | some i => simp only; cases placeInFrame pid page i s <;> rfl
    | none => simp only; cases evict rem pid page option s <;> rfl

/-- A valid page that is in no frame. -/
theorem modifyProcess_miss (hq : Valid q) (rem : Memory) (option : Policy)
    (habs : ∀ i, (s.primary i).content ≠ some q) :
    modifyProcess rem q.1 q.2 option s = Except.map finish
      (match first (fun j => (s.secondary j).holds q.1 q.2) with
      | some _ => swap rem q.1 q.2 option s
      | none =>
        match first (fun i => (s.primary i).process == -1) with
        | some i => placeInFrame q.1 q.2 i s
        | none => evict rem q.1 q.2 option s) :=
  modifyProcess_unheld rem option (first_holds_none hq habs)

/-- The victim's page is one that was accessed before, hence its page table entry exists. -/
theorem victim_valid (inv : Inv acc s) (h : (s.primary i).content ≠ none) : Valid (s.victim i) := by
  cases hc : (s.primary i).content with
  | none => exact absurd hc h
  | some v =>
    have hv : v ∈ acc := inv.holds.sound (.inl i) v hc
    rw [State.victim, (Memory.content_eq_some.mp hc).2]
    exact inv.valid v hv

/-- **What an access does.** From memories that satisfy the invariant, with the last secondary slot
free, an access of a valid page runs through without a fault and has one of the effects listed in
`Effect`, for every value of the uninitialised local, provided the scan for a victim finds one. -/
theorem modifyProcess_effect (inv : Inv acc s) (hlast : (s.secondary (Fin.last 15)).content = none)
    (hq : Valid q) (rem : Memory) (option : Policy) (hev : Evictable option q s) :
    ∃ s' l, modifyProcess rem q.1 q.2 option s = .ok (finish s') ∧ Effect option q s s' l ∧
      Writes s.processes s'.processes l := by
  by_cases hhit : ∃ i, (s.primary i).content = some q
  · obtain ⟨i, hi⟩ := hhit
    exact ⟨_, _, modifyProcess_hit inv hq rem option hi, .hit i hi rfl rfl rfl rfl,
      ⟨fun _ _ => rfl, fun _ => rfl, fun _ => rfl, fun _ _ => rfl⟩⟩
  have habs : ∀ i, (s.primary i).content ≠ some q := fun i hi => hhit ⟨i, hi⟩
  by_cases hbetween : ∃ j, (s.secondary j).content = some q
  · -- the page is in secondary memory
    obtain ⟨j, hj⟩ := hbetween
    have huniq : ∀ k, (s.secondary k).content = some q → k = j := fun k hk => by
      simpa using inv.holds.inj (x := .inr k) (y := .inr j) hk hj
    have hfull := inv.full j (by simp [hj])
    obtain ⟨i, hold, hscan, hfind⟩ := scan_oldest option rem s (hev ⟨habs, hfull⟩)
    have hsec := first_holds_some hq hj huniq
    obtain ⟨s', hs', hexchange, hw⟩ := swap_ok hq hscan hfind (victim_valid inv (hfull i)) hsec hj
    have hrun := modifyProcess_miss hq rem option habs
    simp only [hsec, hs'] at hrun
    exact ⟨s', _, hrun, .swap i j habs hfull hold hj hexchange, hw⟩
  have habs' : ∀ j, (s.secondary j).content ≠ some q := fun j hj => hbetween ⟨j, hj⟩
  have hnowhere : ∀ x, slot s x ≠ some q := by
    rintro (i | j)
    · exact habs i
    · exact habs' j
  have hsec := first_holds_none hq habs'
  cases hfree : first (fun i => (s.primary i).process == -1) with
  | some i =>
    obtain ⟨hi, hfirst⟩ := first_eq_some.mp hfree
    obtain ⟨pr, hpr, hw⟩ := placeInFrame_ok hq i s
    have hrun := modifyProcess_miss hq rem option habs
    simp only [hsec, hfree, hpr] at hrun
    exact ⟨_, _, hrun, .place i hnowhere (Memory.content_eq_none.mpr hi)
      (fun k hk => Memory.content_ne_none (hfirst k hk)) rfl rfl rfl rfl, hw⟩
  | none =>
    have hfull : ∀ k, (s.primary k).content ≠ none := fun k =>
      Memory.content_ne_none (first_eq_none.mp hfree k)
    obtain ⟨i, hold, hscan, hfind⟩ := scan_oldest option rem s (hev ⟨habs, hfull⟩)
    obtain ⟨j, hj⟩ := exists_first (p := fun k => (s.secondary k).process == -1)
      (Memory.content_eq_none.mp hlast)
    obtain ⟨hj0, hfirst⟩ := first_eq_some.mp hj
    obtain ⟨s', hs', hexchange, hw⟩ := evict_ok hq hscan hfind (victim_valid inv (hfull i)) hj
    have hrun := modifyProcess_miss hq rem option habs
    simp only [hsec, hfree, hs'] at hrun
    exact ⟨s', _, hrun, .evict i j hnowhere hfull hold (Memory.content_eq_none.mpr hj0)
      (fun k hk => Memory.content_ne_none (hfirst k hk)) hexchange, hw⟩

/-- The same for `access`: creating the process touches the page tables only. -/
theorem access_effect (inv : Inv acc s) (hlast : (s.secondary (Fin.last 15)).content = none)
    (hq : Valid q) (rem : Memory) (option : Policy) (hev : Evictable option q s) :
    ∃ s', access rem option q.1 q.2 s = .ok (finish s') ∧ ∃ l, Effect option q s s' l := by
  obtain ⟨pr, hpr⟩ := access_eq hq rem option s
  rw [hpr]
  have inv' : Inv acc { s with processes := pr } := ⟨inv.valid, inv.holds, inv.full⟩
  obtain ⟨s', l, hs', heff, -⟩ := modifyProcess_effect inv' hlast hq rem option hev
  have hexchange : ∀ {i j}, Exchange option q i j { s with processes := pr } s' →
      Exchange option q i j s s' := by
    rintro i j ⟨h1, h2, h3⟩
    cases option <;> exact ⟨h1, h2, h3⟩
  refine ⟨s', hs', l, ?_⟩
  cases heff with
  | hit i h1 h2 h3 h4 h5 => exact .hit i h1 h2 h3 h4 h5
  | place i h1 h2 h3 h4 h5 h6 h7 => exact .place i h1 h2 h3 h4 h5 h6 h7
  | evict i j h1 h2 h3 h4 h5 h6 => exact .evict i j h1 h2 h3 h4 h5 (hexchange h6)
  | swap i j h1 h2 h3 h4 h5 => exact .swap i j h1 h2 h3 h4 (hexchange h5)

end Laboratorio.Sim
