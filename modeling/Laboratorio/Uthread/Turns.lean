import Laboratorio.Uthread.Table

/-!
# Whose turn it is

When the threads do nothing but yield, a run is a sequence of turns, and each turn either switches to
another thread or, when there is no other, goes on with the same one. `thread_schedule` always takes
the first runnable thread of the table that is not the current one. With two threads they therefore
alternate; with more, the two that come first in the table alternate and no other one gets a turn
(`takesTurns_iff`).
-/

namespace Laboratorio.Uthread

open Laboratorio.Reach Laboratorio.Scan

/-- The current thread yields, or `main` calls `thread_schedule`. -/
def Table.turn (T : Table) : Except Stop Table :=
  if T.current = 0 then T.threadSchedule else T.threadYield

/-- The threads that are switched to in the next `n` turns. -/
def Table.switches : Nat → Table → List (Fin maxThread)
  | 0, _ => []
  | n + 1, T =>
    match T.turn with
    | .error _ => []
    | .ok T' => if T'.current = T.current then switches n T' else T'.current :: switches n T'

/-- From `T` on, among any `k` consecutive switches every runnable thread is switched to. -/
def TakesTurns (k : Nat) (T : Table) : Prop :=
  ∀ T', Reachable (· = T) (fun U U' => U.turn = .ok U') T' → ∀ n, (T'.switches n).length = k →
    ∀ t, T'.state t = .runnable → t ∈ T'.switches n

variable {T T' : Table} {live : Finset (Fin maxThread)}

/-! ## One turn -/

/-- The table at the call of `thread_schedule` in a turn. -/
theorem Ok.ready_turn (h : Ok T live) :
    ∃ U, T.turn = U.threadSchedule ∧ U.current = T.current ∧ Ready U live := by
  unfold Table.turn
  split
  · next h0 => exact ⟨T, rfl, rfl, h.ready_main h0⟩
  · next h0 => exact ⟨_, rfl, rfl, h.ready_yield (h.current.resolve_left h0)⟩

/-- The next turn goes to the first of the other threads. -/
theorem Ok.turn (h : Ok T live) (hT' : T.turn = .ok T') : Ok T' live ∧ T'.current ∈ live ∧
    (T'.current ≠ T.current → ∀ k ∈ live, k ≠ T.current → T'.current ≤ k) ∧
    (T'.current = T.current → live = {T.current}) := by
  obtain ⟨U, hU, hc, hready⟩ := h.ready_turn
  rw [hU] at hT'
  obtain ⟨hok, hlive⟩ := hready.schedule_ok hT'
  obtain ⟨t, ht, hT'⟩ := threadSchedule_ok hT'
  obtain ⟨-, hleast, hsole⟩ := hready.choose_eq_some ht
  have hcurrent : T'.current = t := by
    rw [hT']
    split
    · next e => exact e.symm
    · rfl
  rw [hcurrent, ← hc]
  exact ⟨hok, hcurrent ▸ hlive, hleast, fun e => e ▸ hsole e⟩

theorem Ok.exists_turn (h : Ok T live) (hne : live.Nonempty) : ∃ T', T.turn = .ok T' := by
  obtain ⟨U, hU, -, hready⟩ := h.ready_turn
  cases hs : U.threadSchedule with
  | ok T' => exact ⟨T', hU.trans hs⟩
  | error e => exact absurd (hready.schedule_error.mp hs).2 hne.ne_empty

/-- The table in every moment of a run of turns. -/
theorem Ok.turns (h : Ok T live)
    (hT' : Reachable (· = T) (fun U U' => U.turn = .ok U') T') : Ok T' live :=
  hT'.invariant (I := fun U => Ok U live) (fun _ hU => hU ▸ h) fun _ _ hI hturn => (hI.turn hturn).1

/-! ## Switches -/

/-- Switches go to threads that have not exited, and never twice in a row to the same one. -/
theorem Ok.switches (h : Ok T live) (n : Nat) : (∀ t ∈ T.switches n, t ∈ live) ∧
    (T.current :: T.switches n).IsChain (· ≠ ·) := by
  induction n generalizing T with
  | zero => exact ⟨nofun, .singleton _⟩
  | succ n ih =>
    unfold Table.switches
    split
    · exact ⟨nofun, .singleton _⟩
    · next T' hT' =>
      obtain ⟨hok, hlive, -, -⟩ := h.turn hT'
      obtain ⟨hmem, hchain⟩ := ih hok
      split
      · next e =>
        rw [e] at hchain
        exact ⟨hmem, hchain⟩
      · next hne =>
        exact ⟨List.forall_mem_cons.mpr ⟨hlive, hmem⟩, .cons_cons (Ne.symm hne) hchain⟩

/-- **With at most two threads** they take turns. -/
theorem Ok.takesTurns (h : Ok T live) (hcard : live.card ≤ 2) : TakesTurns live.card T := by
  intro T' hT' n hn t ht
  have hok := h.turns hT'
  obtain ⟨hmem, hchain⟩ := hok.switches n
  have hnodup : (T'.switches n).Nodup := by
    match T'.switches n, hn.trans_le hcard, hchain with
    | [], _, _ => exact .nil
    | [x], _, _ => exact List.nodup_singleton x
    | [x, y], _, hchain => simpa using hchain.tail
  have hall : (T'.switches n).toFinset = live := by
    refine Finset.eq_of_subset_of_card_le (fun u hu => hmem u (List.mem_toFinset.mp hu)) ?_
    rw [List.toFinset_card_of_nodup hnodup, hn]
  rw [← List.mem_toFinset, hall]
  exact hok.live_of_runnable ht

/-! ## More than two threads -/

variable {a b : Fin maxThread}

/-- From one of the first two threads, the turn goes to the other. -/
theorem Ok.turn_first (h : Ok T live) (hb : b ∈ live) (hab : a ≠ b)
    (hfirst : ∀ k ∈ live, k ≠ a → k ≠ b → b < k) (hc : T.current = a) (hT' : T.turn = .ok T') :
    T'.current = b := by
  obtain ⟨-, hlive, hleast, hsole⟩ := h.turn hT'
  have hne : T'.current ≠ a := fun e => by
    rw [hsole (e.trans hc.symm), Finset.mem_singleton, hc] at hb
    exact hab hb.symm
  by_contra hnb
  have hle : T'.current ≤ b := hleast (hc ▸ hne) b hb (hc ▸ hab.symm)
  exact absurd (hfirst _ hlive hne hnb) (not_lt.mpr hle)

/-- The first two threads alternate. -/
theorem Ok.switches_first (h : Ok T live) (ha : a ∈ live) (hb : b ∈ live) (hab : a ≠ b)
    (hfirst : ∀ k ∈ live, k ≠ a → k ≠ b → a < k ∧ b < k) (hc : T.current = a) (n : Nat) :
    (T.switches n).length = n ∧ ∀ t ∈ T.switches n, t = a ∨ t = b := by
  induction n generalizing T a b with
  | zero => exact ⟨rfl, nofun⟩
  | succ n ih =>
    obtain ⟨T', hT'⟩ := h.exists_turn ⟨a, ha⟩
    have hb' := h.turn_first hb hab (fun k hk hka hkb => (hfirst k hk hka hkb).2) hc hT'
    -- the same with the two threads exchanged
    obtain ⟨hlen, hmem⟩ := ih (h.turn hT').1 hb ha hab.symm
      (fun k hk hkb hka => (hfirst k hk hka hkb).symm) hb'
    simp only [Table.switches, hT', hb', hc, if_neg hab.symm]
    refine ⟨congrArg (· + 1) hlen, fun t ht => ?_⟩
    rcases List.mem_cons.mp ht with rfl | ht
    · exact .inr rfl
    · exact (hmem t ht).symm

/-- **With more than two threads** some thread is passed over. -/
theorem Ok.not_takesTurns (h : Ok T live) (hcard : 2 < live.card) : ¬TakesTurns live.card T := by
  -- the first thread `a`, the second `b`, and another one
  obtain ⟨a, ha, hamin⟩ := live.exists_min_image id (Finset.card_pos.mp (by omega))
  have hcard' := Finset.card_erase_of_mem ha
  obtain ⟨b, hb, hbmin⟩ := (live.erase a).exists_min_image id (Finset.card_pos.mp (by omega))
  have hcard'' := Finset.card_erase_of_mem hb
  obtain ⟨t, ht⟩ := Finset.card_pos.mp (show 0 < ((live.erase a).erase b).card by omega)
  obtain ⟨htb, ht⟩ := Finset.mem_erase.mp ht
  obtain ⟨hta, ht⟩ := Finset.mem_erase.mp ht
  obtain ⟨hba, hb⟩ := Finset.mem_erase.mp hb
  have hfirst : ∀ k ∈ live, k ≠ a → k ≠ b → a < k ∧ b < k := fun k hk hka hkb =>
    ⟨lt_of_le_of_ne (hamin k hk) hka.symm,
      lt_of_le_of_ne (hbmin k (Finset.mem_erase.mpr ⟨hka, hk⟩)) hkb.symm⟩
  -- after at most one turn `a` runs
  obtain ⟨T', hT', hc⟩ : ∃ T', Reachable (· = T) (fun U U' => U.turn = .ok U') T' ∧
      T'.current = a := by
    by_cases hc : T.current = a
    · exact ⟨T, .init rfl, hc⟩
    · obtain ⟨T', hT'⟩ := h.exists_turn ⟨a, ha⟩
      obtain ⟨-, hlive, hleast, hsole⟩ := h.turn hT'
      have hne : T'.current ≠ T.current := fun e => by
        rw [hsole e, Finset.card_singleton] at hcard
        omega
      exact ⟨T', .step (.init rfl) hT', le_antisymm (hleast hne a ha (Ne.symm hc)) (hamin _ hlive)⟩
  have hok := h.turns hT'
  obtain ⟨hlen, hmem⟩ := hok.switches_first ha hb hba.symm hfirst hc live.card
  intro hturns
  have hrunnable := (hok.waiting t ht).resolve_left (hc ▸ hta)
  rcases hmem t (hturns T' hT' _ hlen t hrunnable) with e | e
  · exact hta e
  · exact htb e

/-! ## All runs -/

/-- **User threads take turns** just when there are at most two of them. -/
theorem takesTurns_iff {L : Log} (h : Reachable (· = Log.init) Step L) :
    TakesTurns L.unexited.length L.table ↔ L.unexited.length ≤ 2 := by
  have hI := inv_of_reachable h
  rw [← hI.card_slots]
  constructor
  · intro hturns
    by_contra hcard
    exact hI.ok.not_takesTurns (not_le.mp hcard) hturns
  · exact hI.ok.takesTurns

/-- Two threads take turns. -/
theorem takesTurns_two : twoThreads.unexited.length = 2 ∧
    TakesTurns twoThreads.unexited.length twoThreads.table :=
  ⟨by decide +kernel, (takesTurns_iff reachable_twoThreads).mpr (by decide +kernel)⟩

/-- `main` has created three threads and called `thread_schedule`. -/
def threeThreads : Log :=
  (run Log.next .init [.create, .create, .create, .schedule]).get (by decide +kernel)

/-- Of three threads, the third does not get a turn in three switches. -/
theorem third_thread_passed_over :
    Reachable (· = Log.init) Step threeThreads ∧ threeThreads.unexited.length = 3 ∧
      threeThreads.table.state 3 = .runnable ∧ threeThreads.table.switches 3 = [2, 1, 2] ∧
      ¬TakesTurns threeThreads.unexited.length threeThreads.table := by
  have hlen : threeThreads.unexited.length = 3 := by decide +kernel
  have hstate : threeThreads.table.state 3 = .runnable := by decide +kernel
  have hswitches : threeThreads.table.switches 3 = [2, 1, 2] := by decide +kernel
  refine ⟨reachable_of_run (fun _ c _ hc => ⟨c, hc⟩) (.init rfl) (Option.some_get _).symm, hlen,
    hstate, hswitches, fun hturns => ?_⟩
  have := hturns _ (.init rfl) 3 (by rw [hswitches, hlen]; rfl) 3 hstate
  rw [hswitches] at this
  exact absurd this (by decide)

end Laboratorio.Uthread
