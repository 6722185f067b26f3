import Laboratorio.Sim.Policy

/-!
# The page tables

An access writes the page tables once for each page that it moves: for the page that comes into a
frame, and for the one that goes to secondary memory. `Effect` lists these writes, and
`TablesOk.effect` goes through them for each of the effects of an access. Since each page is
in one slot, every entry that is written is the slot of its page, and the entries of pages that do
not move stay right.
-/

namespace Laboratorio.Sim

open Function Laboratorio.Scan Laboratorio.Slots

/-! ## Entries -/

/-- `processes[pid]`, for a `pid` in range. -/
def State.process (s : State) (pid : Int) : Process := s.processes (Fin.ofNat maxProcess pid.toNat)

/-- `processes[pid].page[page - 1]`, for a page that exists. -/
def State.entry (s : State) (q : Page) : Int :=
  (s.process q.1).page (Fin.ofNat tamProcess (q.2 - 1).toNat)

/-- The index of a slot in its memory. -/
def slotIndex : Fin tamPrimary ⊕ Fin tamSecondary → Int
  | .inl i => i
  | .inr j => j

theorem content_victim {s : State} {i : Fin tamPrimary} (h : (s.primary i).content ≠ none) :
    (s.primary i).content = some (s.victim i) := by
  obtain ⟨v, hv⟩ := Option.ne_none_iff_exists'.mp h
  rw [hv, ← (Memory.content_eq_some.mp hv).2, State.victim]

/-! ## One access -/

/-- The page tables of the processes `pids` are those for the pages `acc`, and no other process has
been created. -/
structure TablesOk (pids : List Int) (acc : List Page) (s : State) : Prop where
  known : ∀ q ∈ acc, q.1 ∈ pids
  fresh : ∀ k : Fin maxProcess, (k : Int) ∉ pids → s.processes k = ⟨0, fun _ => 0, false⟩
  named : ∀ k : Fin maxProcess, (k : Int) ∈ pids →
    (s.processes k).pid = k ∧ (s.processes k).created = true
  absent : ∀ q, Valid q → q.1 ∈ pids → q ∉ acc → s.entry q = -1
  present : ∀ q ∈ acc, ∃ x, slot s x = some q ∧ s.entry q = slotIndex x

variable {pids : List Int} {acc : List Page} {q : Page} {s s' : State} {option : Policy}

theorem tablesOk_initial : TablesOk [] [] initial where
  known _ hq := absurd hq List.not_mem_nil
  fresh _ _ := rfl
  named _ hk := absurd hk List.not_mem_nil
  absent _ _ hq := absurd hq List.not_mem_nil
  present _ hq := absurd hq List.not_mem_nil

theorem TablesOk.congr (h : TablesOk pids acc s) {pids' : List Int} (hmem : ∀ k, k ∈ pids' ↔ k ∈ pids) :
    TablesOk pids' acc s where
  known q hq := (hmem _).mpr (h.known q hq)
  fresh k hk := h.fresh k ((hmem _).not.mp hk)
  named k hk := h.named k ((hmem _).mp hk)
  absent q hq hk := h.absent q hq ((hmem _).mp hk)
  present := h.present

theorem mem_of_lookup {l : List (Page × Int)} {n : Int} (h : l.lookup q = some n) : (q, n) ∈ l := by
  obtain ⟨l₁, l₂, rfl, -⟩ := List.lookup_eq_some_iff.mp h
  simp

/-- The pages that are written are in the slots that are written, and the others stay in theirs. -/
theorem TablesOk.writes (h : TablesOk pids acc s) (inv : Inv acc s) (hq : Valid q)
    (hpid : q.1 ∈ pids) {l : List (Page × Int)} (hw : Writes s.processes s'.processes l)
    (hmoved : ∀ p n, (p, n) ∈ l → p ∈ acc ++ [q] ∧ ∃ x, slot s' x = some p ∧ n = slotIndex x)
    (hstay : ∀ p ∈ acc ++ [q], l.lookup p = none →
      p ∈ acc ∧ ∀ x, slot s x = some p → slot s' x = some p) :
    TablesOk pids (acc ++ [q]) s' := by
  have hpages : ∀ p ∈ acc ++ [q], Valid p ∧ p.1 ∈ pids := by
    intro p hp
    rcases List.mem_append.mp hp with hp | hp
    · exact ⟨inv.valid p hp, h.known p hp⟩
    · rw [List.mem_singleton.mp hp]
      exact ⟨hq, hpid⟩
  refine ⟨fun p hp => (hpages p hp).2, fun k hk => ?_, fun k hk => ?_,
    fun p hp hpid hnot => ?_, fun p hp => ?_⟩
  · rw [hw.other k fun p n hp hpk => ?_]
    · exact h.fresh k hk
    · obtain ⟨⟨⟨h1, h2⟩, -⟩, hpid⟩ := hpages p (hmoved p n hp).1
      have hval := congrArg Fin.val hpk
      simp only [Fin.ofNat, maxProcess] at hval h2
      exact hk (by rwa [show (k : Int) = p.1 by omega])
  · rw [hw.pid, hw.created]
    exact h.named k hk
  · have hnone : l.lookup p = none := by
      by_contra hsome
      obtain ⟨n, hn⟩ := Option.ne_none_iff_exists'.mp hsome
      exact hnot (hmoved p n (mem_of_lookup hn)).1
    refine (hw.entry p hp).trans ?_
    rw [hnone]
    exact h.absent p hp hpid fun hin => hnot (List.mem_append_left _ hin)
  · have hentry := hw.entry p (hpages p hp).1
    cases hl : l.lookup p with
    | some n =>
      obtain ⟨-, x, hx, hn⟩ := hmoved p n (mem_of_lookup hl)
      rw [hl] at hentry
      exact ⟨x, hx, hentry.trans hn⟩
    | none =>
      obtain ⟨hin, hslot⟩ := hstay p hp hl
      obtain ⟨x, hx, hold⟩ := h.present p hin
      rw [hl] at hentry
      exact ⟨x, hslot x hx, hentry.trans hold⟩

/-- A page that moves into a frame, and one that moves from there to secondary memory. -/
theorem TablesOk.exchange (h : TablesOk pids acc s) (inv : Inv acc s) (hq : Valid q)
    (hpid : q.1 ∈ pids) {i : Fin tamPrimary} {j : Fin tamSecondary}
    (habs : (s.primary i).content ≠ some q) (hfull : (s.primary i).content ≠ none)
    (hj : ∀ p ∈ acc, p ≠ q → (s.secondary j).content ≠ some p)
    (hslot : slot s' = update (slot s ∘ Equiv.swap (.inl i) (.inr j)) (.inl i) (some q))
    {l : List (Page × Int)}
    (hl : l = [(s.victim i, (j : Int)), (q, (i : Int))] ∨
      l = [(q, (i : Int)), (s.victim i, (j : Int))])
    (hw : Writes s.processes s'.processes l) : TablesOk pids (acc ++ [q]) s' := by
  have hi := content_victim hfull
  rw [hi] at habs
  generalize s.victim i = v at hi habs hl
  have hvacc : v ∈ acc := inv.holds.sound (.inl i) v hi
  have hframe : slot s' (.inl i) = some q := by rw [hslot, update_self]
  have hsecond : slot s' (.inr j) = some v := by
    rw [hslot, update_of_ne (by simp), Function.comp_apply, Equiv.swap_apply_right]
    exact hi
  have hmem : ∀ p n, (p, n) ∈ l → p = v ∧ n = j ∨ p = q ∧ n = i := by
    intro p n hp
    rcases hl with rfl | rfl
    all_goals simpa [or_comm] using hp
  refine h.writes inv hq hpid hw (fun p n hp => ?_) fun p hp hnone => ?_
  · rcases hmem p n hp with ⟨rfl, rfl⟩ | ⟨rfl, rfl⟩
    · exact ⟨List.mem_append_left _ hvacc, .inr j, hsecond, rfl⟩
    · exact ⟨by simp, .inl i, hframe, rfl⟩
  · have hpv : p ≠ v ∧ p ≠ q := by
      rcases hl with rfl | rfl
      all_goals
        simp only [List.lookup_cons, List.lookup_nil] at hnone
        grind
    have hin : p ∈ acc := by
      rcases List.mem_append.mp hp with hp | hp
      · exact hp
      · exact absurd (List.mem_singleton.mp hp) hpv.2
    refine ⟨hin, fun x hx => ?_⟩
    have hxi : x ≠ .inl i := by
      rintro rfl
      rw [slot_inl, hi] at hx
      exact hpv.1 (Option.some.inj hx).symm
    have hxj : x ≠ .inr j := by
      rintro rfl
      exact hj p hin hpv.2 hx
    rw [hslot, update_of_ne hxi, Function.comp_apply, Equiv.swap_apply_of_ne_of_ne hxi hxj]
    exact hx

/-- **An access keeps the page tables right.** -/
theorem TablesOk.effect (h : TablesOk pids acc s) (inv : Inv acc s) (hq : Valid q)
    (hpid : q.1 ∈ pids) {l : List (Page × Int)} (eff : Effect option q s s' l)
    (hw : Writes s.processes s'.processes l) : TablesOk pids (acc ++ [q]) s' := by
  cases eff with
  | hit i here primary secondary _ _ =>
    have hslot := slot_hit primary secondary
    have hin : q ∈ acc := inv.holds.sound (.inl i) q here
    refine h.writes inv hq hpid hw (fun p n hp => absurd hp List.not_mem_nil)
      fun p hp _ => ⟨?_, fun x hx => by rw [hslot]; exact hx⟩
    rcases List.mem_append.mp hp with hp | hp
    · exact hp
    · rw [List.mem_singleton.mp hp]
      exact hin
  | place i absent free hfirst primary secondary _ _ =>
    have hslot := slot_place hq primary secondary
    refine h.writes inv hq hpid hw (fun p n hp => ?_) fun p hp hnone => ?_
    · obtain ⟨rfl, rfl⟩ : p = q ∧ n = i := by simpa using hp
      exact ⟨by simp, .inl i, by rw [hslot, update_self], rfl⟩
    · have hpq : p ≠ q := by
        rintro rfl
        simp at hnone
      refine ⟨(List.mem_append.mp hp).resolve_right (by simpa using hpq), fun x hx => ?_⟩
      have hxi : x ≠ .inl i := by
        rintro rfl
        rw [slot_inl, free] at hx
        cases hx
      rw [hslot, update_of_ne hxi]
      exact hx
  | evict i j absent full oldest free hfirst exchange =>
    refine h.exchange inv hq hpid (absent (.inl i)) (full i) (fun p _ _ hp => ?_)
      (exchange.slot hq (full i)) (.inl rfl) hw
    rw [free] at hp
    cases hp
  | swap i j absent full oldest there exchange =>
    refine h.exchange inv hq hpid (absent i) (full i) (fun p _ hpq hp => ?_)
      (exchange.slot hq (full i)) (.inr rfl) hw
    rw [there] at hp
    exact hpq (Option.some.inj hp).symm

/-- The index of a process. -/
theorem Valid.index (hq : Valid q) : ∃ k : Fin maxProcess, (k : Int) = q.1 ∧
    k = Fin.ofNat maxProcess q.1.toNat := by
  obtain ⟨⟨h1, h2⟩, -⟩ := hq
  simp only [maxProcess] at h2
  refine ⟨⟨q.1.toNat, by simp only [maxProcess]; omega⟩, by simp only; omega, Fin.ext ?_⟩
  exact (Nat.mod_eq_of_lt (by omega)).symm

/-- `main` finds a process by its `pid` just when it has been created. -/
theorem TablesOk.find (h : TablesOk pids acc s) (hq : Valid q) :
    (first fun k => (s.processes k).pid == q.1).isNone = true ↔ q.1 ∉ pids := by
  obtain ⟨k₀, hk₀, -⟩ := hq.index
  rw [Option.isNone_iff_eq_none, first_eq_none]
  constructor
  · intro hnone hin
    have hne := hnone k₀
    rw [(h.named k₀ (hk₀ ▸ hin)).1, hk₀] at hne
    simp at hne
  · intro hnot k
    rw [beq_eq_false_iff_ne]
    intro hpid
    by_cases hkin : (k : Int) ∈ pids
    · rw [(h.named k hkin).1] at hpid
      exact hnot (hpid ▸ hkin)
    · rw [h.fresh k hkin] at hpid
      have := hq.1.1
      simp only at hpid
      omega

/-- `create_process` -/
theorem TablesOk.createProcess (h : TablesOk pids acc s) (hvalid : ∀ p ∈ acc, Valid p) (hq : Valid q)
    (hnew : q.1 ∉ pids) (hs : Sim.createProcess q.1 s = .ok s') :
    TablesOk (pids ++ [q.1]) acc s' := by
  obtain ⟨k₀, hk₀, hindex⟩ := hq.index
  have hin : 0 ≤ q.1 ∧ q.1 < maxProcess := ⟨by have := hq.1.1; omega, hq.1.2⟩
  rw [Sim.createProcess, dif_pos hin,
    show (⟨q.1.toNat, by omega⟩ : Fin maxProcess) = k₀ from Fin.ext (by simp only; omega)] at hs
  cases hs
  have hother : ∀ p, Valid p → p.1 ≠ q.1 → Fin.ofNat maxProcess p.1.toNat ≠ k₀ := by
    intro p hp hne heq
    obtain ⟨k, hk, hpindex⟩ := hp.index
    rw [← hpindex] at heq
    exact hne (by rw [← hk, ← hk₀, heq])
  refine ⟨fun p hp => List.mem_append_left _ (h.known p hp), fun k hk => ?_, fun k hk => ?_,
    fun p hp hpid hnot => ?_, fun p hp => ?_⟩
  · have hne : k ≠ k₀ := by
      rintro rfl
      exact hk (by simp [hk₀])
    simp only [update_of_ne hne]
    exact h.fresh k fun hin => hk (List.mem_append_left _ hin)
  · by_cases hne : k = k₀
    · subst hne
      simp [hk₀]
    · simp only [update_of_ne hne]
      refine h.named k ((List.mem_append.mp hk).resolve_right fun hk => hne (Fin.ext ?_))
      have := List.mem_singleton.mp hk
      omega
  · by_cases hne : p.1 = q.1
    · simp only [State.entry, State.process, hne, ← hindex, update_self]
    · simp only [State.entry, State.process, update_of_ne (hother p hp hne)]
      exact h.absent p hp ((List.mem_append.mp hpid).resolve_right (by simpa using hne)) hnot
  · have hne : p.1 ≠ q.1 := fun heq => hnew (heq ▸ h.known p hp)
    obtain ⟨x, hx, hentry⟩ := h.present p hp
    refine ⟨x, hx, ?_⟩
    simp only [State.entry, State.process, update_of_ne (hother p (hvalid p hp) hne)]
    exact hentry

/-- What `main` does before it calls `modify_process`. -/
def prepare (pid : Int) (s : State) : Except Fault State :=
  if (first fun i => (s.processes i).pid == pid).isNone then createProcess pid s else pure s

theorem access_eq_prepare {rem : Memory} (hpage : q.2 ≤ tamProcess) :
    access rem option q.1 q.2 s = (prepare q.1 s >>= modifyProcess rem q.1 q.2 option) := by
  rw [access, if_neg (not_lt.mpr hpage), prepare]
  dsimp only
  split
  · rfl
  · rfl

/-- The process of an access has been created. -/
theorem TablesOk.prepare (h : TablesOk (acc.map Prod.fst) acc s) (inv : Inv acc s) (hq : Valid q) :
    ∃ s₁, Sim.prepare q.1 s = .ok s₁ ∧ s₁ = { s with processes := s₁.processes } ∧
      TablesOk ((acc ++ [q]).map Prod.fst) acc s₁ := by
  have hfind := h.find hq
  rw [List.map_append, List.map_singleton, Sim.prepare]
  by_cases hnew : q.1 ∈ acc.map Prod.fst
  · rw [if_neg (hfind.not.mpr (not_not.mpr hnew))]
    refine ⟨s, rfl, rfl, h.congr fun k => ?_⟩
    rw [List.mem_append, List.mem_singleton, or_iff_left_iff_imp]
    rintro rfl
    exact hnew
  · obtain ⟨pr, hpr⟩ := createProcess_ok hq s
    rw [if_pos (hfind.mpr hnew)]
    exact ⟨{ s with processes := pr }, hpr, rfl, h.createProcess inv.valid hq hnew hpr⟩

/-! ## Whole runs -/

/-- Within the first `NUM_MAX` accesses every access finds a victim when it needs one. -/
theorem Run.evictable
    (run : Run option (fun _ _ => True) acc s) (hlen : (acc.length : Int) ≤ numMax) :
    Run option (Evictable option) acc s := by
  induction run with
  | start => exact .start
  | @step acc s s' q rem run valid _ next ih =>
    rw [List.length_append, List.length_singleton] at hlen
    push_cast at hlen
    obtain ⟨-, -, ref⟩ := run.refines (by omega)
    have hnow := Ref.now_run option acc
    exact .step rem (ih (by omega)) valid (ref.evictable (by omega) q) next

/-- After an access the memories and the page tables are right. -/
theorem access_tables (inv : Inv acc s)
    (tables : TablesOk (acc.map Prod.fst) acc s) (hlast : (s.secondary (Fin.last 15)).content = none)
    (hq : Valid q) (rem : Memory) (hev : Evictable option q s) :
    ∃ s', access rem option q.1 q.2 s = .ok (finish s') ∧ Inv (acc ++ [q]) s' ∧
      TablesOk ((acc ++ [q]).map Prod.fst) (acc ++ [q]) s' := by
  obtain ⟨s₁, hprepare, hs₁, htables⟩ := tables.prepare inv hq
  have inv₁ : Inv acc s₁ := by
    rw [hs₁]
    exact ⟨inv.valid, inv.holds, inv.full⟩
  have hlast₁ : (s₁.secondary (Fin.last 15)).content = none := by
    rw [hs₁]
    exact hlast
  have hev₁ : Evictable option q s₁ := by
    rw [hs₁]
    exact hev
  obtain ⟨s', l, hrun, eff, hw⟩ := modifyProcess_effect inv₁ hlast₁ hq rem option hev₁
  refine ⟨s', ?_, (inv₁.effect hq eff).1, ?_⟩
  · rw [access_eq_prepare hq.2.2, hprepare]
    exact hrun
  · exact htables.effect inv₁ hq (by simp) eff hw

theorem Run.tables
    (run : Run option (Evictable option) acc s) : TablesOk (acc.map Prod.fst) acc s := by
  induction run with
  | start => exact tablesOk_initial
  | step rem run valid met next ih =>
    obtain ⟨inv, hlast⟩ := run.inv fun _ _ h => h
    obtain ⟨s', hs', -, htables⟩ := access_tables inv ih hlast valid rem met
    rw [hs'] at next
    obtain ⟨rfl, -⟩ := finish_running (Except.ok.inj next)
    exact htables

/-- The page table of process `pid` is right: the entry of a page is -1 if it was never accessed, and
otherwise the index of the one slot that holds it. -/
def TableRight (acc : List Page) (s : State) (pid : Int) : Prop :=
  (s.process pid).created = true ∧ ∀ page : Int, 1 ≤ page → page ≤ tamProcess →
    (s.entry (pid, page) = -1 ↔ (pid, page) ∉ acc) ∧
    ((pid, page) ∈ acc → ∃! x, slot s x = some (pid, page) ∧ s.entry (pid, page) = slotIndex x)

theorem slotIndex_nonneg (x : Fin tamPrimary ⊕ Fin tamSecondary) : 0 ≤ slotIndex x := by
  cases x with
  | inl i => exact Int.natCast_nonneg _
  | inr j => exact Int.natCast_nonneg _

theorem TablesOk.right (h : TablesOk (acc.map Prod.fst) acc s)
    (inv : Inv acc s) {p : Page} (hp : p ∈ acc) : TableRight acc s p.1 := by
  obtain ⟨k, hk, hindex⟩ := (inv.valid p hp).index
  have hpid := h.known p hp
  refine ⟨?_, fun page hlo hhi => ?_⟩
  · rw [State.process, ← hindex]
    exact (h.named k (hk ▸ hpid)).2
  · have hvalid : Valid (p.1, page) := ⟨(inv.valid p hp).1, hlo, hhi⟩
    by_cases hin : (p.1, page) ∈ acc
    · obtain ⟨x, hx, hentry⟩ := h.present _ hin
      have hpos := slotIndex_nonneg x
      refine ⟨iff_of_false (by omega) (not_not.mpr hin), fun _ => ⟨x, ⟨hx, hentry⟩, ?_⟩⟩
      exact fun y hy => inv.holds.inj hy.1 hx
    · exact ⟨iff_of_true (h.absent _ hvalid hpid hin) hin, fun h => absurd h hin⟩

/-- **The page tables are right** after each of the first `NUM_MAX` accesses, also after the one with
which the program exits. -/
theorem run_tables (option : Policy) {acc : List Page} {s : State}
    (run : Run option (fun _ _ => True) acc s) {q : Page} (hq : Valid q)
    (hlen : (acc.length : Int) + 1 ≤ numMax) (rem : Memory) :
    ∃ o, access rem option q.1 q.2 s = .ok o ∧
      ∀ p ∈ acc ++ [q], TableRight (acc ++ [q]) o.state p.1 := by
  have hrun := run.evictable (by omega)
  obtain ⟨inv, hlast⟩ := hrun.inv fun _ _ h => h
  obtain ⟨-, -, ref⟩ := run.refines (by omega)
  have hnow := Ref.now_run option acc
  obtain ⟨s', hs', inv', htables⟩ := access_tables inv hrun.tables hlast hq rem
    (ref.evictable (by omega) q)
  refine ⟨finish s', hs', fun p hp => ?_⟩
  rw [state_finish]
  exact htables.right inv' hp

/-- Page 9 takes the frame of one of the first eight pages, which gets a new entry. -/
theorem run_tables_ninth_access : ∃ s o, Run .lru (fun _ _ => True) ((List.range 8).map page) s ∧
    Evicts (page 8) s ∧ access ⟨0, 0, 0, 0⟩ .lru (page 8).1 (page 8).2 s = .ok o ∧
    TableRight ((List.range 8).map page ++ [page 8]) o.state 1 := by
  obtain ⟨s, hrun, -, h8, -⟩ := exists_eight (fun _ _ => True) fun _ _ _ _ => trivial
  obtain ⟨o, ho, hright⟩ := run_tables .lru hrun (page_valid (k := 8) (by decide)) (by decide)
    ⟨0, 0, 0, 0⟩
  exact ⟨s, o, hrun, h8.evicts, ho, hright (page 8) (by simp)⟩

end Laboratorio.Sim
