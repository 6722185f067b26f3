import Laboratorio.Sim.Access

/-!
# No page is lost or duplicated

Over a whole run, every page accessed so far is in exactly one slot of the two memories together.
Each access either fills an empty slot or exchanges two slots, possibly both (`Inv.effect`), so the
property is kept by any number of accesses (`run_pages`), as long as the scan for a victim finds
one. That condition is needed: the scan starts at `NUM_MAX`, the counters only grow, and once all of
them have reached `NUM_MAX` a page that needs a frame does not get one (`run_pages_fails`).
-/

namespace Laboratorio.Sim

open Function Laboratorio.Scan Laboratorio.Slots

/-- `Run option cond acc s`: the program has read the accesses `acc`, every one of them met `cond`,
and it is still running, in the state `s`. -/
inductive Run (option : Policy) (cond : Page → State → Prop) : List Page → State → Prop where
  | start : Run option cond [] initial
  | step {acc : List Page} {s s' : State} {q : Page} (rem : Memory) (run : Run option cond acc s)
      (valid : Valid q) (met : cond q s)
      (next : access rem option q.1 q.2 s = .ok (.running s')) : Run option cond (acc ++ [q]) s'

/-- The pages `acc` are each in exactly one slot of the two memories, no other page is in any, and
`q` is in a frame. -/
def PagesKept (acc : List Page) (q : Page) (s : State) : Prop :=
  Holds (slot s) {p | p ∈ acc} ∧ ∃ i, (s.primary i).content = some q

/-! ## The invariant -/

variable {option : Policy} {acc : List Page} {q : Page} {s s' : State} {i : Fin tamPrimary}
  {j : Fin tamSecondary}

theorem inv_initial : Inv [] initial where
  valid := by simp
  holds := by
    have hempty : slot initial = fun _ => none := by
      funext x; rcases x with i | j <;> rfl
    rw [hempty]
    simpa using Holds.empty
  full j hj := absurd rfl hj

theorem mem_append_singleton (acc : List Page) (q : Page) :
    {p | p ∈ acc ++ [q]} = insert q {p | p ∈ acc} := by
  ext p; simp [or_comm]

/-- Swapping a frame with a secondary slot, seen in the table of all slots. -/
theorem Exchange.slot (h : Exchange option q i j s s') (hq : Valid q)
    (hi : (s.primary i).content ≠ none) :
    slot s' = update (slot s ∘ Equiv.swap (.inl i) (.inr j)) (.inl i) (some q) := by
  have hvictim : (s.primary i).process ≠ -1 := by
    intro h; exact hi (Memory.content_eq_none.mpr (by simp [h]))
  funext x
  rcases x with k | k
  · by_cases hk : k = i
    · subst hk
      simp [h.primary, Memory.content_assign _ _ hq]
    · have h1 : (Sum.inl k : Fin tamPrimary ⊕ Fin tamSecondary) ≠ .inl i := by simpa using hk
      have h2 : (Sum.inl k : Fin tamPrimary ⊕ Fin tamSecondary) ≠ .inr j := by simp
      simp [h.primary, update_of_ne hk, update_of_ne h1, Equiv.swap_apply_of_ne_of_ne h1 h2]
  · have h1 : (Sum.inr k : Fin tamPrimary ⊕ Fin tamSecondary) ≠ .inl i := by simp
    by_cases hk : k = j
    · subst hk
      rw [update_of_ne h1]
      simp [h.secondary, Memory.content, hvictim]
    · have h2 : (Sum.inr k : Fin tamPrimary ⊕ Fin tamSecondary) ≠ .inr j := by simpa using hk
      simp [h.secondary, update_of_ne hk, Equiv.swap_apply_of_ne_of_ne h1 h2]

/-- A hit moves no page. -/
theorem slot_hit {n : Int} (primary : s'.primary = update s.primary i { s.primary i with lru := n })
    (secondary : s'.secondary = s.secondary) : slot s' = slot s := by
  funext x
  rcases x with k | k
  · by_cases hk : k = i
    · subst hk; simp [primary, Memory.content]
    · simp [primary, update_of_ne hk]
  · simp [secondary]

/-- A page is put into a frame. -/
theorem slot_place (hq : Valid q) {fifo lru : Int}
    (primary : s'.primary = update s.primary i
      { process := q.1, page := q.2, fifo := fifo, lru := lru })
    (secondary : s'.secondary = s.secondary) :
    slot s' = update (slot s) (.inl i) (some q) := by
  have hcontent : Memory.content { process := q.1, page := q.2, fifo := fifo, lru := lru } = some q :=
    Memory.content_of_process (by have := hq.1.1; simp only; omega)
  funext x
  rcases x with k | k
  · by_cases hk : k = i
    · subst hk; simp [primary, hcontent]
    · have h1 : (Sum.inl k : Fin tamPrimary ⊕ Fin tamSecondary) ≠ .inl i := by simpa using hk
      simp [primary, update_of_ne hk, update_of_ne h1]
  · simp [secondary]

/-- After an exchange the page is in the frame, and every frame is taken. -/
theorem Exchange.frames (h : Exchange option q i j s s') (hq : Valid q)
    (hfull : ∀ k, (s.primary k).content ≠ none) :
    (s'.primary i).content = some q ∧ ∀ k, (s'.primary k).content ≠ none := by
  have hin : (s'.primary i).content = some q := by
    rw [h.primary, update_self, Memory.content_assign _ _ hq]
  refine ⟨hin, fun k => ?_⟩
  by_cases hk : k = i
  · rw [hk, hin]
    exact Option.some_ne_none q
  · rw [h.primary, update_of_ne hk]
    exact hfull k

/-- **An access keeps the invariant** and leaves its page in a frame. -/
theorem Inv.effect (inv : Inv acc s) (hq : Valid q) {l : List (Page × Int)}
    (eff : Effect option q s s' l) : Inv (acc ++ [q]) s' ∧ ∃ i, (s'.primary i).content = some q := by
  have hvalid : ∀ p ∈ acc ++ [q], Valid p := by
    intro p hp
    rcases List.mem_append.mp hp with hp | hp
    · exact inv.valid p hp
    · rw [List.mem_singleton.mp hp]; exact hq
  have habs : (∀ x, slot s x ≠ some q) → q ∉ {p | p ∈ acc} := fun absent hmem => by
    obtain ⟨x, hx, -⟩ := inv.holds.once q hmem
    exact absent x hx
  cases eff with
  | hit i here primary secondary _ _ =>
    have hslot : slot s' = slot s := slot_hit primary secondary
    have hmem : q ∈ {p | p ∈ acc} := inv.holds.sound (.inl i) q here
    have hprim : ∀ k, (s'.primary k).content = (s.primary k).content := fun k =>
      congrFun hslot (.inl k)
    refine ⟨⟨hvalid, ?_, ?_⟩, i, by rw [hprim]; exact here⟩
    · rw [mem_append_singleton, Set.insert_eq_of_mem hmem, hslot]
      exact inv.holds
    · intro j hj k
      rw [hprim]
      rw [secondary] at hj
      exact inv.full j hj k
  | place i absent free first primary secondary _ _ =>
    have hslot : slot s' = update (slot s) (.inl i) (some q) :=
      slot_place hq primary secondary
    have hin : (s'.primary i).content = some q := by
      rw [← slot_inl, hslot, update_self]
    refine ⟨⟨hvalid, ?_, ?_⟩, i, hin⟩
    · rw [mem_append_singleton, hslot]
      exact inv.holds.fill free (habs absent)
    · -- a free frame means that nothing was in secondary memory
      intro j hj
      rw [secondary] at hj
      exact absurd free (inv.full j hj i)
  | evict i j absent full _ free _ exchange =>
    obtain ⟨hin, hfull⟩ := exchange.frames hq full
    refine ⟨⟨hvalid, ?_, fun _ _ => hfull⟩, i, hin⟩
    rw [mem_append_singleton, exchange.slot hq (full i)]
    exact (inv.holds.comp_equiv _).fill (by simpa using free) (habs absent)
  | swap i j absent full _ there exchange =>
    obtain ⟨hin, hfull⟩ := exchange.frames hq full
    have hmem : q ∈ {p | p ∈ acc} := inv.holds.sound (.inr j) q there
    -- the frame gets what the slot `j` held, which is `q`
    have hself : update (slot s ∘ Equiv.swap (.inl i) (.inr j)) (.inl i) (some q) =
        slot s ∘ Equiv.swap (.inl i) (.inr j) := by
      rw [update_eq_self_iff]; simpa using there.symm
    refine ⟨⟨hvalid, ?_, fun _ _ => hfull⟩, i, hin⟩
    rw [mem_append_singleton, Set.insert_eq_of_mem hmem, exchange.slot hq (full i), hself]
    exact inv.holds.comp_equiv _

theorem finish_running (h : finish s = .running s') :
    s = s' ∧ (s'.secondary (Fin.last 15)).content = none := by
  simp only [finish] at h
  split at h
  · cases h
  · next hfree =>
    cases h
    exact ⟨rfl, Memory.content_eq_none.mpr (by simpa using hfree)⟩

theorem finish_of_free (h : (s.secondary (Fin.last 15)).content = none) :
    finish s = .running s := by
  have hfree : (s.secondary (Fin.last 15)).process = -1 := by
    simpa only [beq_iff_eq] using Memory.content_eq_none.mp h
  rw [finish, if_neg (by rw [hfree]; decide)]

@[simp] theorem state_finish (s : State) : (finish s).state = s := by
  simp only [finish]
  split <;> rfl

/-- The invariant holds all along a run, and the last secondary slot is free while it lasts. -/
theorem Run.inv {cond : Page → State → Prop} (hcond : ∀ q s, cond q s → Evictable option q s)
    (run : Run option cond acc s) : Inv acc s ∧ (s.secondary (Fin.last 15)).content = none := by
  induction run with
  | start => exact ⟨inv_initial, rfl⟩
  | step rem _ valid met next ih =>
    obtain ⟨t, ht, l, eff⟩ := access_effect ih.1 ih.2 valid rem option (hcond _ _ met)
    rw [ht] at next
    obtain ⟨rfl, hlast⟩ := finish_running (Except.ok.inj next)
    exact ⟨(ih.1.effect valid eff).1, hlast⟩

/-! ## Eight pages -/

/-- Page `k + 1` of process 1. -/
def page (k : Nat) : Page := (1, k + 1)

theorem page_valid {k : Nat} (h : k < 16) : Valid (page k) := by
  simp only [Valid, page, maxProcess, tamProcess]
  omega

/-- The first eight pages of process 1 are in the frames in order, the secondary memory is empty,
and `cont_LRU` is `c`. -/
structure Eight (c : Nat) (s : State) : Prop where
  frames : ∀ i : Fin tamPrimary, (s.primary i).content = some (page i)
  secondary : ∀ j, (s.secondary j).content = none
  counter : s.contLRU = c

theorem toInt32_of_small {x : Nat} (h : x < 2 ^ 31) : toInt32 (x : Int) = x := by
  simp only [toInt32]
  apply Int.bmod_eq_of_le <;> omega

/-- Page 9 has to take somebody's frame. -/
theorem Eight.evicts {c : Nat} (h : Eight c s) : Evicts (page 8) s := by
  refine ⟨fun i hi => ?_, fun i hi => ?_⟩
  · rw [h.frames i] at hi
    have hlt : (i : Nat) < 8 := i.isLt
    simp [page] at hi
    omega
  · rw [h.frames i] at hi
    cases hi

/-- The pages `page 0`, `page 1`, … are in the first `k` frames, and no other page is in memory. -/
structure Filled (k : Nat) (s : State) : Prop where
  below : ∀ i : Fin tamPrimary, (i : Nat) < k → (s.primary i).content = some (page i)
  above : ∀ i : Fin tamPrimary, k ≤ (i : Nat) → (s.primary i).content = none
  secondary : ∀ j, (s.secondary j).content = none
  counter : s.contLRU = (k : Nat)
  lru : ∀ i, (s.primary i).lru ≤ (k : Nat)

/-- The next page goes to the next frame. -/
theorem Filled.effect {k : Nat} {l : List (Page × Int)} (h : Filled k s) (hk : k < tamPrimary)
    (eff : Effect .lru (page k) s s' l) : Filled (k + 1) s' := by
  have hfree : (s.primary ⟨k, hk⟩).content = none := h.above _ le_rfl
  -- the only effect possible is `place`, in the frame `k`
  cases eff with
  | hit i here =>
    exfalso
    by_cases hi : (i : Nat) < k
    · rw [h.below i hi] at here; simp [page] at here; omega
    · rw [h.above i (by omega)] at here; cases here
  | evict i j _ full => exact absurd hfree (full _)
  | swap i j _ full => exact absurd hfree (full _)
  | place i absent free first primary secondary _ contLRU =>
    have hi : (i : Nat) = k := by
      rcases lt_trichotomy (i : Nat) k with hlt | heq | hgt
      · rw [h.below i hlt] at free; cases free
      · exact heq
      · exact absurd hfree (first ⟨k, hk⟩ hgt)
    refine ⟨fun i' hi' => ?_, fun i' hi' => ?_, secondary ▸ h.secondary, ?_, fun i' => ?_⟩
    · by_cases hik : i' = i
      · subst hik; simp [primary, page, Memory.content, hi]
      · have : (i' : Nat) ≠ k := fun h => hik (Fin.ext (h.trans hi.symm))
        rw [primary, update_of_ne hik]
        exact h.below i' (by omega)
    · have hik : i' ≠ i := by rintro rfl; omega
      rw [primary, update_of_ne hik]
      exact h.above i' (by omega)
    · rw [contLRU, h.counter]
      exact_mod_cast toInt32_of_small (x := k + 1) (by simp only [tamPrimary] at hk; omega)
    · rw [primary, update_apply]
      have := h.lru i'
      split
      · simp only [h.counter]
        omega
      · omega

/-- The first `k` accesses of `page 0`, `page 1`, … fill the first `k` frames. -/
theorem fill_frames {cond : Page → State → Prop}
    (hcond : ∀ q s i, (s.primary i).content = none → cond q s) (k : Nat) (hk : k ≤ tamPrimary) :
    ∃ s, Run .lru cond ((List.range k).map page) s ∧ Inv ((List.range k).map page) s ∧
      Filled k s := by
  induction k with
  | zero =>
    exact ⟨initial, .start, inv_initial, fun i hi => absurd hi (by omega), fun i _ => rfl,
      fun j => rfl, rfl, fun i => le_rfl⟩
  | succ k ih =>
    obtain ⟨s, hrun, inv, h⟩ := ih (by omega)
    have hq := page_valid (k := k) (by simp only [tamPrimary] at hk; omega)
    have hfree := h.above ⟨k, hk⟩ le_rfl
    obtain ⟨s', hs', l, eff⟩ := access_effect inv (h.secondary _) hq ⟨0, 0, 0, 0⟩ .lru
      fun hev => absurd hfree (hev.2 _)
    have h' := h.effect hk eff
    rw [finish_of_free (h'.secondary _)] at hs'
    rw [List.range_succ, List.map_append]
    exact ⟨s', hrun.step _ hq (hcond _ _ _ hfree) hs', (inv.effect hq eff).1, h'⟩

/-- The memory after the first eight accesses. -/
theorem exists_eight (cond : Page → State → Prop)
    (hcond : ∀ q s i, (s.primary i).content = none → cond q s) :
    ∃ s, Run .lru cond ((List.range 8).map page) s ∧ Inv ((List.range 8).map page) s ∧ Eight 8 s ∧
      ∀ i, (s.primary i).lru ≤ 8 := by
  obtain ⟨s, hrun, inv, h⟩ := fill_frames hcond 8 le_rfl
  exact ⟨s, hrun, inv, ⟨fun i => h.below i i.isLt, h.secondary, h.counter⟩, h.lru⟩

/-! ## Whole runs -/

/-- **No page is lost or duplicated.** In a run in which every access that has to take somebody's
frame finds a counter below `NUM_MAX`, each further such access runs through, the pages accessed so
far are each in exactly one slot of the two memories, no other page is in any, and the page just
accessed is in a frame; also when the program exits after it. -/
theorem run_pages (option : Policy) {acc : List Page} {s : State}
    (run : Run option (Evictable option) acc s) {q : Page} (hq : Valid q)
    (hev : Evictable option q s) (rem : Memory) :
    ∃ o, access rem option q.1 q.2 s = .ok o ∧ PagesKept (acc ++ [q]) q o.state := by
  obtain ⟨inv, hlast⟩ := run.inv (fun _ _ h => h)
  obtain ⟨s', hs', l, eff⟩ := access_effect inv hlast hq rem option hev
  obtain ⟨inv', hin⟩ := inv.effect hq eff
  exact ⟨finish s', hs', by rw [state_finish]; exact ⟨inv'.holds, hin⟩⟩

/-- Page 9 takes the frame of one of the first eight pages. -/
theorem run_pages_ninth_access : ∃ s o, Run .lru (Evictable .lru) ((List.range 8).map page) s ∧
    Evicts (page 8) s ∧ access ⟨0, 0, 0, 0⟩ .lru (page 8).1 (page 8).2 s = .ok o ∧
    PagesKept ((List.range 8).map page ++ [page 8]) (page 8) o.state := by
  obtain ⟨s, hrun, -, h8, hlru⟩ := exists_eight (Evictable .lru)
    fun q s i hfree hev => absurd hfree (hev.2 i)
  obtain ⟨o, ho, hkept⟩ := run_pages .lru hrun (page_valid (k := 8) (by decide))
    (fun _ => ⟨0, lt_of_le_of_lt (hlru 0) (by decide)⟩) ⟨0, 0, 0, 0⟩
  exact ⟨s, o, hrun, h8.evicts, ho, hkept⟩

/-! ## When the counters have reached `NUM_MAX`

Eight pages fill the frames, and a page that is accessed over and over drives the `LRU` counter past
`NUM_MAX`. Once every frame has been touched after that, the scan finds no victim. -/

/-- With every counter above `NUM_MAX`, an access that needs a frame leaves the frames as they are:
it stores the uninitialised `rem_memory` in the first free secondary slot. -/
theorem evict_starved (option : Policy) (rem : Memory) (s : State)
    (hstarved : ∀ i, numMax < (s.primary i).stamp option)
    (h : evict rem q.1 q.2 option s = .ok s') : s'.primary = s.primary := by
  have hscan : scanLess (·.stamp option) numMax rem s.primary = (numMax, rem) :=
    scanLess_none _ _ _ _ (fun i => le_of_lt (hstarved i))
  have hnone : first (fun i => (s.primary i).stamp option == numMax) = none := by
    rw [first_eq_none]
    intro i
    have := hstarved i
    simp only [beq_eq_false_iff_ne]
    omega
  unfold evict at h
  simp only [hscan, replaceFrame, hnone, bind, Except.bind] at h
  split at h
  · next j _ =>
    simp only [State.setPage] at h
    split at h
    · cases h; rfl
    · cases h
  · cases h; rfl

theorem access_starved (hq : Valid q) (option : Policy) (rem : Memory)
    (hev : Evicts q s) (hsec : ∀ j, (s.secondary j).content ≠ some q)
    (hstarved : ∀ i, numMax < (s.primary i).stamp option) {o : Outcome}
    (h : access rem option q.1 q.2 s = .ok o) : o.state.primary = s.primary := by
  obtain ⟨pr, hpr⟩ := access_eq hq rem option s
  rw [hpr, modifyProcess_miss hq rem option (s := { s with processes := pr }) hev.1] at h
  simp only [first_holds_none hq hsec, first_full hev.2] at h
  cases hrun : evict rem q.1 q.2 option { s with processes := pr } with
  | error e => rw [hrun] at h; cases h
  | ok t =>
    rw [hrun] at h
    cases h
    rw [state_finish]
    exact evict_starved option rem { s with processes := pr } hstarved hrun

/-- Accessing a page that is in a frame sets its counter and moves `cont_LRU` on. -/
theorem touch_frame {c : Nat}
    (hrun : Run .lru (fun _ _ => True) acc s) (inv : Inv acc s) (h8 : Eight c s)
    (hc : c + 1 < 2 ^ 31) (i : Fin tamPrimary) :
    ∃ s', Run .lru (fun _ _ => True) (acc ++ [page i]) s' ∧ Inv (acc ++ [page i]) s' ∧
      Eight (c + 1) s' ∧ (s'.primary i).lru = c ∧
      ∀ k, k ≠ i → (s'.primary k).lru = (s.primary k).lru := by
  have hvalid : Valid (page i) := page_valid (Nat.lt_of_lt_of_le i.isLt (by decide))
  have hlast := h8.secondary (Fin.last 15)
  obtain ⟨s', hs', l, eff⟩ := access_effect inv hlast hvalid ⟨0, 0, 0, 0⟩ .lru
    (fun hev => absurd (h8.frames i) (hev.1 i))
  have inv' := (inv.effect hvalid eff).1
  cases eff with
  | place _ absent => exact absurd (h8.frames i) (absent (.inl i))
  | evict _ _ absent => exact absurd (h8.frames i) (absent (.inl i))
  | swap _ _ absent => exact absurd (h8.frames i) (absent i)
  | hit k here primary secondary _ contLRU =>
    have hk : k = i := by
      simpa using inv.holds.inj (x := .inl k) (y := .inl i) here (h8.frames i)
    subst hk
    rw [finish_of_free (by rw [secondary]; exact hlast)] at hs'
    refine ⟨s', hrun.step ⟨0, 0, 0, 0⟩ hvalid trivial hs', inv', ⟨fun m => ?_, fun j => ?_, ?_⟩,
      by simp [primary, h8.counter], fun m hm => by simp [primary, update_of_ne hm]⟩
    · rw [← h8.frames m, primary]
      by_cases hm : m = k
      · subst hm; simp [Memory.content]
      · rw [update_of_ne hm]
    · rw [secondary]; exact h8.secondary j
    · rw [contLRU, h8.counter]
      exact_mod_cast toInt32_of_small (x := c + 1) hc

/-- Accessing the frames of `l` one after the other: every frame of `l` ends with a counter of at
least `c`. -/
theorem touch_frames (l : List (Fin tamPrimary)) {c : Nat}
    (hrun : Run .lru (fun _ _ => True) acc s) (inv : Inv acc s) (h8 : Eight c s)
    (hc : c + l.length < 2 ^ 31) :
    ∃ s', Run .lru (fun _ _ => True) (acc ++ l.map fun i => page i) s' ∧
      Inv (acc ++ l.map fun i => page i) s' ∧ Eight (c + l.length) s' ∧
      (∀ i ∈ l, (c : Int) ≤ (s'.primary i).lru) ∧
      ∀ i ∉ l, (s'.primary i).lru = (s.primary i).lru := by
  induction l generalizing acc s c with
  | nil => exact ⟨s, by simpa using hrun, by simpa using inv, h8, by simp, fun _ _ => rfl⟩
  | cons i l ih =>
    simp only [List.length_cons] at hc
    obtain ⟨s₁, hrun₁, inv₁, h8₁, hi₁, hother₁⟩ := touch_frame hrun inv h8 (by omega) i
    obtain ⟨s', hrun', inv', h8', hin, hout⟩ := ih hrun₁ inv₁ h8₁ (by omega)
    refine ⟨s', by simpa using hrun', by simpa using inv', ?_, ?_, ?_⟩
    · have : c + (i :: l).length = c + 1 + l.length := by simp only [List.length_cons]; omega
      rw [this]; exact h8'
    · intro k hk
      by_cases hkl : k ∈ l
      · have := hin k hkl; push_cast at this; omega
      · rcases List.mem_cons.mp hk with rfl | hk
        · rw [hout k hkl, hi₁]
        · exact absurd hk hkl
    · intro k hk
      simp only [List.mem_cons, not_or] at hk
      rw [hout k hk.2, hother₁ k hk.1]

/-- Eight pages, then 1001 more accesses of the first, then all eight once more. -/
def starvingInput : List Page :=
  (List.range 8).map page ++ (List.replicate 1001 (0 : Fin tamPrimary)).map (fun i => page i) ++
    (List.finRange tamPrimary).map fun i => page i

/-- **The condition of `run_pages` is needed.** After `starvingInput`, the access of page 9 of
process 1 under `-l` does not bring that page into a frame, whatever the uninitialised local holds:
all counters have passed `NUM_MAX`. -/
theorem run_pages_fails :
    ∃ s, Run .lru (fun _ _ => True) starvingInput s ∧ Valid (page 8) ∧
      ¬ ∃ rem o, access rem .lru (page 8).1 (page 8).2 s = .ok o ∧
        PagesKept (starvingInput ++ [page 8]) (page 8) o.state := by
  obtain ⟨s₀, hrun₀, inv₀, h8₀, -⟩ := exists_eight (fun _ _ => True) fun _ _ _ _ => trivial
  obtain ⟨s₁, hrun₁, inv₁, h8₁, -, -⟩ :=
    touch_frames (List.replicate 1001 0) hrun₀ inv₀ h8₀
      (by rw [List.length_replicate]; decide)
  obtain ⟨s, hrun, inv, h8, hall, -⟩ :=
    touch_frames (List.finRange tamPrimary) hrun₁ inv₁ h8₁
      (by rw [List.length_replicate, List.length_finRange]; decide)
  refine ⟨s, hrun, page_valid (by decide), ?_⟩
  rintro ⟨rem, o, ho, -, i, hi⟩
  have hstarved : ∀ k, numMax < (s.primary k).stamp .lru := by
    intro k
    have := hall k (List.mem_finRange k)
    simp only [Memory.stamp, List.length_replicate, numMax] at this ⊢
    omega
  have hprim : o.state.primary = s.primary :=
    access_starved (page_valid (by decide)) .lru rem h8.evicts
      (fun j hj => by rw [h8.secondary j] at hj; cases hj) hstarved ho
  rw [hprim] at hi
  exact h8.evicts.1 i hi

end Laboratorio.Sim
