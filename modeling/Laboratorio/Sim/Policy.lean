import Laboratorio.Sim.Pages

/-!
# The simulator implements FIFO and LRU

`Ref` is what the simulator is for: a memory of `TAM_PRIMARY` frames and a store, with the time of
the last event the algorithm counts for each page (its latest load under FIFO, its latest access
under LRU). On a miss with all frames taken, the page whose time is oldest loses its frame.

The C code keeps two counters that move at different rates and leaves stale ones behind in entries
it overwrites. The refinement relation `Refines` only asks that the counters of the frames are in
the same *order* as the times of their pages. Every access keeps that, because the frame it writes
gets a counter and a time above all others (`Refines.newest`), and the first `NUM_MAX` accesses keep
all counters below `NUM_MAX`, so that a victim is always found.
-/

namespace Laboratorio.Sim

open Function Laboratorio.Scan Laboratorio.Slots

/-! ## The reference memory -/

/-- A memory of frames with a store behind it. -/
structure Ref where
  frames : Fin tamPrimary → Option Page
  store : Fin tamSecondary → Option Page
  /-- when the page was last loaded (FIFO), or last accessed (LRU) -/
  last : Page → Nat
  /-- the number of accesses so far -/
  now : Nat

namespace Ref

def empty : Ref where
  frames := fun _ => none
  store := fun _ => none
  last := fun _ => 0
  now := 0

/-- The time of the page in a frame. -/
def age (m : Ref) (i : Fin tamPrimary) : Nat :=
  match m.frames i with
  | some p => m.last p
  | none => 0

/-- The frame whose page has the oldest time. -/
def victim (m : Ref) : Option (Fin tamPrimary) :=
  first (fun i => decide (∀ k, m.age i ≤ m.age k))

/-- The slot of the store for a page that makes room for `q`: the one `q` leaves, or else the first
free one. -/
def room (m : Ref) (q : Page) : Option (Fin tamSecondary) :=
  match first (fun j => m.store j == some q) with
  | some j => some j
  | none => first (fun j => m.store j == none)

/-- The page `q` takes the frame `i`. -/
def load (m : Ref) (q : Page) (i : Fin tamPrimary) : Ref :=
  { m with
    frames := update m.frames i (some q)
    last := update m.last q m.now
    now := m.now + 1 }

/-- Put away what the frame `i` holds. -/
def putAway (m : Ref) (q : Page) (i : Fin tamPrimary) : Ref :=
  match m.room q with
  | some j => { m with store := update m.store j (m.frames i) }
  | none => m

/-- One access. -/
def access (option : Policy) (m : Ref) (q : Page) : Ref :=
  match first (fun i => m.frames i == some q) with
  | some _ =>
    match option with
    | .fifo => { m with now := m.now + 1 }
    | .lru => { m with last := update m.last q m.now, now := m.now + 1 }
  | none =>
    match first (fun i => m.frames i == none) with
    | some i => m.load q i
    | none =>
      match m.victim with
      | some i => (m.putAway q i).load q i
      | none => m

/-- The memory after a sequence of accesses. -/
def run (option : Policy) (acc : List Page) : Ref := acc.foldl (access option) empty

theorem run_append_singleton (option : Policy) (acc : List Page) (q : Page) :
    run option (acc ++ [q]) = access option (run option acc) q := by
  simp [run, List.foldl_append]

end Ref

/-! ## The refinement relation -/

/-- The simulator's memories are those of `m`, and the counters of its frames are in the order of
the times of their pages. -/
structure Refines (option : Policy) (s : State) (m : Ref) : Prop where
  frames : ∀ i, (s.primary i).content = m.frames i
  store : ∀ j, (s.secondary j).content = m.store j
  order : ∀ i k, m.frames i ≠ none → m.frames k ≠ none →
    ((s.primary i).stamp option ≤ (s.primary k).stamp option ↔ m.age i ≤ m.age k)
  stamp_lt : ∀ i, m.frames i ≠ none → (s.primary i).stamp option < s.counter option
  age_lt : ∀ i, m.frames i ≠ none → m.age i < m.now
  counter_fifo : 0 ≤ s.contFIFO ∧ s.contFIFO ≤ m.now
  counter_lru : 0 ≤ s.contLRU ∧ s.contLRU ≤ m.now

theorem refines_empty (option : Policy) : Refines option initial Ref.empty where
  frames i := rfl
  store j := rfl
  order i k hi := absurd rfl hi
  stamp_lt i hi := absurd rfl hi
  age_lt i hi := absurd rfl hi
  counter_fifo := by simp [initial, Ref.empty]
  counter_lru := by simp [initial, Ref.empty]

variable {option : Policy} {acc : List Page} {q : Page} {s s' : State} {m m' : Ref}
  {i : Fin tamPrimary} {j : Fin tamSecondary}

theorem Refines.counter_le (ref : Refines option s m) : s.counter option ≤ m.now := by
  cases option with
  | fifo => exact ref.counter_fifo.2
  | lru => exact ref.counter_lru.2

/-- Within the first `NUM_MAX` accesses the scan for a victim finds one. -/
theorem Refines.evictable (ref : Refines option s m) (hnow : (m.now : Int) ≤ numMax) (q : Page) :
    Evictable option q s := by
  intro hev
  have h0 : m.frames 0 ≠ none := by rw [← ref.frames]; exact hev.2 0
  have h1 := ref.stamp_lt 0 h0
  have h2 := ref.counter_le
  exact ⟨0, by omega⟩

theorem toInt32_succ {x : Int} {n : Nat} (h0 : 0 ≤ x) (hn : x ≤ n) (hmax : (n : Int) ≤ numMax) :
    toInt32 (x + 1) = x + 1 := by
  simp only [toInt32, numMax] at *
  apply Int.bmod_eq_of_le <;> omega

/-! ## The scans of the reference memory -/

/-- The frame the simulator empties is the reference's victim. -/
theorem Refines.victim_eq (ref : Refines option s m) (hfull : ∀ k, (s.primary k).content ≠ none)
    (hold : IsOldest option s i) : m.victim = some i := by
  have hfull' : ∀ k, m.frames k ≠ none := fun k => by rw [← ref.frames]; exact hfull k
  simp only [Ref.victim, first_eq_some, decide_eq_true_eq, decide_eq_false_iff_not]
  refine ⟨fun k => (ref.order i k (hfull' i) (hfull' k)).mp (hold.1 k), fun k hk hle => ?_⟩
  have h1 := hold.2 k hk
  have h2 := (ref.order k i (hfull' k) (hfull' i)).mpr (hle i)
  omega

theorem first_beq_none {n : Nat} {f : Fin n → Option Page} {x : Option Page}
    (h : ∀ i, f i ≠ x) : first (fun i => f i == x) = none := by
  rw [first_eq_none]
  intro i
  simpa using h i

theorem first_beq_some {n : Nat} {f : Fin n → Option Page} {x : Option Page} {i : Fin n}
    (hi : f i = x) (hfirst : ∀ k < i, f k ≠ x) : first (fun i => f i == x) = some i := by
  rw [first_eq_some]
  exact ⟨by simpa using hi, fun k hk => by simpa using hfirst k hk⟩

/-! ## Every access keeps the relation -/

/-- The page `q` in the frame `i` gets a counter and a time above all others: the order is kept. -/
theorem Refines.newest (ref : Refines option s m)
    (hi : (s'.primary i).content = some q) (hstamp : (s'.primary i).stamp option = s.counter option)
    (hother : ∀ k, k ≠ i → s'.primary k = s.primary k)
    (habs : ∀ k, k ≠ i → (s.primary k).content ≠ some q)
    (hframe : m'.frames i = some q) (hframes : ∀ k, k ≠ i → m'.frames k = m.frames k)
    (hlast : m'.last = update m.last q m.now) (hnow : m'.now = m.now + 1)
    (hstore : ∀ j, (s'.secondary j).content = m'.store j)
    (hcount : s'.counter option = s.counter option + 1)
    (hf : 0 ≤ s'.contFIFO ∧ s'.contFIFO ≤ m.now + 1) (hl : 0 ≤ s'.contLRU ∧ s'.contLRU ≤ m.now + 1) :
    Refines option s' m' := by
  have hage : m'.age i = m.now := by simp [Ref.age, hframe, hlast]
  have hages : ∀ k, k ≠ i → m'.age k = m.age k := fun k hk => by
    simp only [Ref.age, hframes k hk, hlast]
    cases hp : m.frames k with
    | none => rfl
    | some p =>
      have hpq : p ≠ q := by
        rintro rfl; exact habs k hk (by rw [ref.frames, hp])
      simp [update_of_ne hpq]
  -- what is known of the other frames
  have hrest : ∀ k, k ≠ i → m'.frames k ≠ none →
      (s.primary k).stamp option < s.counter option ∧ m.age k < m.now := fun k hk hk' => by
    rw [hframes k hk] at hk'
    exact ⟨ref.stamp_lt k hk', ref.age_lt k hk'⟩
  refine ⟨fun k => ?_, hstore, fun k l hk hl => ?_, fun k hk => ?_, fun k hk => ?_, ?_, ?_⟩
  · by_cases hk : k = i
    · rw [hk, hi, hframe]
    · rw [hother k hk, hframes k hk, ref.frames]
  · by_cases hki : k = i
    · by_cases hli : l = i
      · simp [hki, hli]
      · have := hrest l hli hl
        rw [hki, hstamp, hage, hother l hli, hages l hli]
        omega
    · have := hrest k hki hk
      by_cases hli : l = i
      · rw [hli, hstamp, hage, hother k hki, hages k hki]
        omega
      · rw [hframes k hki] at hk
        rw [hframes l hli] at hl
        rw [hother k hki, hother l hli, hages k hki, hages l hli]
        exact ref.order k l hk hl
  · by_cases hki : k = i
    · rw [hki, hstamp, hcount]; omega
    · have := hrest k hki hk
      rw [hother k hki, hcount]; omega
  · by_cases hki : k = i
    · rw [hki, hage, hnow]; omega
    · have := hrest k hki hk
      rw [hages k hki, hnow]; omega
  · rw [hnow]; exact_mod_cast hf
  · rw [hnow]; exact_mod_cast hl

/-- The counters after `cont++` of the algorithm. -/
theorem bump_counters {n : Nat}
    (hf : 0 ≤ s.contFIFO ∧ s.contFIFO ≤ n) (hl : 0 ≤ s.contLRU ∧ s.contLRU ≤ n)
    (hmax : (n : Int) ≤ numMax)
    (h : (s'.contFIFO, s'.contLRU) = ((s.bump option).contFIFO, (s.bump option).contLRU)) :
    s'.counter option = s.counter option + 1 ∧ (0 ≤ s'.contFIFO ∧ s'.contFIFO ≤ n + 1) ∧
      (0 ≤ s'.contLRU ∧ s'.contLRU ≤ n + 1) := by
  simp only [Prod.mk.injEq] at h
  cases option with
  | fifo =>
    simp only [State.bump, toInt32_succ hf.1 hf.2 hmax] at h
    simp only [State.counter]
    omega
  | lru =>
    simp only [State.bump, toInt32_succ hl.1 hl.2 hmax] at h
    simp only [State.counter]
    omega

/-- The page `q` takes the oldest frame `i`, and what it held goes to the slot `j`. -/
theorem Refines.exchange (ref : Refines option s m) (hq : Valid q) (hnow : (m.now : Int) ≤ numMax)
    (habs : ∀ k, (s.primary k).content ≠ some q) (hfull : ∀ k, (s.primary k).content ≠ none)
    (hroom : m.room q = some j) (h : Exchange option q i j s s') :
    Refines option s' ((m.putAway q i).load q i) := by
  have hput : m.putAway q i = { m with store := update m.store j (m.frames i) } := by
    simp only [Ref.putAway, hroom]
  rw [hput]
  obtain ⟨hcount, hf, hl⟩ := bump_counters ref.counter_fifo ref.counter_lru hnow h.counters
  refine ref.newest (h.frames hq hfull).1 (by simp [h.primary])
    (fun k hk => by rw [h.primary, update_of_ne hk]) (fun k _ => habs k)
    (by simp [Ref.load]) (fun k hk => by simp [Ref.load, update_of_ne hk]) rfl rfl
    (fun k => ?_) hcount hf hl
  by_cases hk : k = j
  · subst hk
    have hv : (s.primary i).process ≠ -1 := fun h =>
      hfull i (Memory.content_eq_none.mpr (by simp [h]))
    simp [h.secondary, Ref.load, ← ref.frames, Memory.content, hv]
  · simp [h.secondary, Ref.load, update_of_ne hk, ref.store]

/-- A page that is in neither memory takes the first free frame. -/
theorem Refines.place (ref : Refines option s m) (hq : Valid q) (hnow : (m.now : Int) ≤ numMax)
    (habs : ∀ k, (s.primary k).content ≠ some q)
    (primary : s'.primary = update s.primary i
      { process := q.1, page := q.2, fifo := s.contFIFO, lru := s.contLRU })
    (secondary : s'.secondary = s.secondary)
    (contFIFO : s'.contFIFO = toInt32 (s.contFIFO + 1))
    (contLRU : s'.contLRU = toInt32 (s.contLRU + 1)) : Refines option s' (m.load q i) := by
  rw [toInt32_succ ref.counter_fifo.1 ref.counter_fifo.2 hnow] at contFIFO
  rw [toInt32_succ ref.counter_lru.1 ref.counter_lru.2 hnow] at contLRU
  obtain ⟨⟨hf0, hf1⟩, hl0, hl1⟩ := And.intro ref.counter_fifo ref.counter_lru
  have hpid : q.1 ≠ -1 := by have := hq.1.1; omega
  have hin : (s'.primary i).content = some q := by simp [primary, Memory.content, hpid]
  refine ref.newest hin ?_ (fun k hk => by rw [primary, update_of_ne hk]) (fun k _ => habs k)
    (by simp [Ref.load]) (fun k hk => by simp [Ref.load, update_of_ne hk]) rfl rfl
    (fun k => by rw [secondary]; exact ref.store k) ?_ (by omega) (by omega)
  · rw [primary, update_self]
    cases option <;> rfl
  · cases option with
    | fifo => exact contFIFO
    | lru => exact contLRU

/-- A page that is in the frame `i` gets a new `LRU` counter. Under FIFO nothing that counts is
changed; under LRU the page is now the youngest. -/
theorem Refines.hit (inv : Inv acc s) (ref : Refines option s m) (hnow : (m.now : Int) ≤ numMax)
    (here : (s.primary i).content = some q)
    (primary : s'.primary = update s.primary i { s.primary i with lru := s.contLRU })
    (secondary : s'.secondary = s.secondary) (contFIFO : s'.contFIFO = s.contFIFO)
    (contLRU : s'.contLRU = toInt32 (s.contLRU + 1)) :
    Refines option s' (m.access option q) := by
  rw [toInt32_succ ref.counter_lru.1 ref.counter_lru.2 hnow] at contLRU
  obtain ⟨⟨hf0, hf1⟩, hl0, hl1⟩ := And.intro ref.counter_fifo ref.counter_lru
  have huniq : ∀ k, k ≠ i → (s.primary k).content ≠ some q := fun k hk hkq => by
    have := inv.holds.inj (x := .inl k) (y := .inl i) hkq here
    exact hk (by simpa using this)
  have hi : m.frames i = some q := by rw [← ref.frames]; exact here
  have hfirst : first (fun k => m.frames k == some q) = some i :=
    first_beq_some hi (fun k hk => by rw [← ref.frames]; exact huniq k (ne_of_lt hk))
  have hother : ∀ k, k ≠ i → s'.primary k = s.primary k := fun k hk => by
    rw [primary, update_of_ne hk]
  have hself : s'.primary i = { s.primary i with lru := s.contLRU } := by
    rw [primary, update_self]
  have hcontent : (s'.primary i).content = some q := by rw [hself]; exact here
  have hstore : ∀ j, (s'.secondary j).content = m.store j := fun j => by
    rw [secondary]; exact ref.store j
  cases option with
  | fifo =>
    have hstamp : ∀ k, (s'.primary k).stamp .fifo = (s.primary k).stamp .fifo := fun k => by
      by_cases hk : k = i
      · rw [hk, hself]; rfl
      · rw [hother k hk]
    have hacc : m.access .fifo q = { m with now := m.now + 1 } := by
      simp only [Ref.access, hfirst]
    rw [hacc]
    refine ⟨fun k => ?_, hstore, fun k l hk hl => ?_, fun k hk => ?_,
      fun k hk => Nat.lt_succ_of_lt (ref.age_lt k hk), ?_, ?_⟩
    · by_cases hk : k = i
      · rw [hk, hcontent, hi]
      · rw [hother k hk, ref.frames]
    · rw [hstamp, hstamp]; exact ref.order k l hk hl
    · rw [hstamp]; simpa [State.counter, contFIFO] using ref.stamp_lt k hk
    · rw [contFIFO]; push_cast; omega
    · rw [contLRU]; push_cast; omega
  | lru =>
    have hacc : m.access .lru q = { m with last := update m.last q m.now, now := m.now + 1 } := by
      simp only [Ref.access, hfirst]
    rw [hacc]
    exact ref.newest hcontent (by rw [hself]; rfl) hother huniq hi (fun _ _ => rfl) rfl rfl hstore
      contLRU (by omega) (by omega)

/-- **Every access of the simulator is one of the reference memory.** -/
theorem Refines.effect (inv : Inv acc s) (ref : Refines option s m) (hq : Valid q)
    (hnow : (m.now : Int) ≤ numMax) {l : List (Page × Int)} (eff : Effect option q s s' l) :
    Refines option s' (m.access option q) := by
  have hmiss : (∀ k, (s.primary k).content ≠ some q) →
      first (fun k => m.frames k == some q) = none := fun habs =>
    first_beq_none (fun k => by rw [← ref.frames]; exact habs k)
  have htaken : (∀ k, (s.primary k).content ≠ none) →
      first (fun k => m.frames k == none) = none := fun hfull =>
    first_beq_none (fun k => by rw [← ref.frames]; exact hfull k)
  cases eff with
  | hit i here primary secondary contFIFO contLRU =>
    exact ref.hit inv hnow here primary secondary contFIFO contLRU
  | place i absent free hfirst primary secondary contFIFO contLRU =>
    have habs : ∀ k, (s.primary k).content ≠ some q := fun k => absent (.inl k)
    have hfree : first (fun k => m.frames k == none) = some i :=
      first_beq_some (by rw [← ref.frames]; exact free)
        (fun k hk => by rw [← ref.frames]; exact hfirst k hk)
    simp only [Ref.access, hmiss habs, hfree]
    exact ref.place hq hnow habs primary secondary contFIFO contLRU
  | evict i j absent full oldest free hfirst exchange =>
    have habs : ∀ k, (s.primary k).content ≠ some q := fun k => absent (.inl k)
    have hroom : m.room q = some j := by
      have h1 : first (fun k => m.store k == some q) = none :=
        first_beq_none (fun k => by rw [← ref.store]; exact absent (.inr k))
      have h2 : first (fun k => m.store k == none) = some j :=
        first_beq_some (by rw [← ref.store]; exact free)
          (fun k hk => by rw [← ref.store]; exact hfirst k hk)
      simp only [Ref.room, h1, h2]
    simp only [Ref.access, hmiss habs, htaken full, ref.victim_eq full oldest]
    exact ref.exchange hq hnow habs full hroom exchange
  | swap i j absent full oldest there exchange =>
    have hroom : m.room q = some j := by
      have h1 : first (fun k => m.store k == some q) = some j := by
        refine first_beq_some (by rw [← ref.store]; exact there) (fun k hk hkq => ?_)
        rw [← ref.store] at hkq
        have := inv.holds.inj (x := .inr k) (y := .inr j) hkq there
        exact absurd (by simpa using this) (ne_of_lt hk)
      simp only [Ref.room, h1]
    simp only [Ref.access, hmiss absent, htaken full, ref.victim_eq full oldest]
    exact ref.exchange hq hnow absent full hroom exchange

/-! ## Whole runs -/

@[simp] theorem Ref.now_putAway (m : Ref) (q : Page) (i : Fin tamPrimary) :
    (m.putAway q i).now = m.now := by
  simp only [Ref.putAway]
  split <;> rfl

theorem Ref.now_access (option : Policy) (m : Ref) (q : Page) :
    (m.access option q).now ≤ m.now + 1 := by
  unfold Ref.access
  split
  · cases option <;> exact le_refl _
  · split
    · exact le_refl _
    · split
      · simp [Ref.load]
      · exact Nat.le_succ _

theorem Ref.now_run (option : Policy) (acc : List Page) : (Ref.run option acc).now ≤ acc.length := by
  induction acc using List.reverseRecOn with
  | nil => exact le_refl _
  | append_singleton acc q ih =>
    rw [Ref.run_append_singleton, List.length_append, List.length_singleton]
    have := Ref.now_access option (Ref.run option acc) q
    omega

/-- All along a run of at most `NUM_MAX` accesses the simulator refines the reference memory. -/
theorem Run.refines (run : Run option (fun _ _ => True) acc s) (hlen : (acc.length : Int) ≤ numMax) :
    Inv acc s ∧ (s.secondary (Fin.last 15)).content = none ∧
      Refines option s (Ref.run option acc) := by
  induction run with
  | start => exact ⟨inv_initial, rfl, refines_empty option⟩
  | @step acc s s' q rem _ valid _ next ih =>
    rw [List.length_append, List.length_singleton] at hlen
    obtain ⟨inv, hlast, ref⟩ := ih (by push_cast at hlen; omega)
    have hnow : ((Ref.run option acc).now : Int) ≤ numMax := by
      have := Ref.now_run option acc
      push_cast at hlen
      omega
    obtain ⟨t, ht, l, eff⟩ := access_effect inv hlast valid rem option (ref.evictable hnow q)
    rw [ht] at next
    obtain ⟨rfl, hlast'⟩ := finish_running (Except.ok.inj next)
    refine ⟨(inv.effect valid eff).1, hlast', ?_⟩
    rw [Ref.run_append_singleton]
    exact ref.effect inv valid hnow eff

/-- **The simulator implements the algorithm it is asked for.** In every run of at most `NUM_MAX`
accesses, each access leaves the frames and the secondary slots exactly as the reference memory has
them, up to and including the access after which the program exits. -/
theorem run_policy (option : Policy) {acc : List Page} {s : State}
    (run : Run option (fun _ _ => True) acc s) {q : Page} (hq : Valid q)
    (hlen : (acc.length : Int) + 1 ≤ numMax) (rem : Memory) :
    ∃ o, access rem option q.1 q.2 s = .ok o ∧
      (∀ i, (o.state.primary i).content = (Ref.run option (acc ++ [q])).frames i) ∧
      ∀ j, (o.state.secondary j).content = (Ref.run option (acc ++ [q])).store j := by
  obtain ⟨inv, hlast, ref⟩ := run.refines (by omega)
  have hnow : ((Ref.run option acc).now : Int) ≤ numMax := by
    have := Ref.now_run option acc
    omega
  obtain ⟨s', hs', l, eff⟩ := access_effect inv hlast hq rem option (ref.evictable hnow q)
  have ref' := ref.effect inv hq hnow eff
  rw [← Ref.run_append_singleton] at ref'
  refine ⟨finish s', hs', ?_, ?_⟩
  · rw [state_finish]; exact ref'.frames
  · rw [state_finish]; exact ref'.store

/-- Page 9 takes the frame of page 1, which goes to the first secondary slot. -/
theorem run_policy_ninth_access : ∃ s o, Run .lru (fun _ _ => True) ((List.range 8).map page) s ∧
    access ⟨0, 0, 0, 0⟩ .lru (page 8).1 (page 8).2 s = .ok o ∧
    (o.state.primary 0).content = some (page 8) ∧
    (o.state.secondary 0).content = some (page 0) := by
  obtain ⟨s, hrun, -⟩ := exists_eight (fun _ _ => True) fun _ _ _ _ => trivial
  obtain ⟨o, ho, hframes, hstore⟩ := run_policy .lru hrun (page_valid (k := 8) (by decide))
    (by decide) ⟨0, 0, 0, 0⟩
  refine ⟨s, o, hrun, ho, ?_, ?_⟩
  · rw [hframes]
    decide +kernel
  · rw [hstore]
    decide +kernel

end Laboratorio.Sim
