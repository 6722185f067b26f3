import Laboratorio.Lib.Reach
import Laboratorio.Lib.Scan

/-!
# User threads (`xv6/uthreadlib.c`)

The table of threads and the two pointers of the library, and its functions as they change them.
Threads run until they call `thread_yield` or `thread_exit`, so a run is a sequence of calls, each by
the thread that runs: first `main`, which creates threads and calls `thread_schedule` once, then the
threads.

`Ok T live` describes the table between calls, when `live` is the set of slots of the threads that
were created and have not exited, and `Ready T live` what `thread_schedule` expects: all of them are
`RUNNABLE`. A `Log` adds to the table which threads were created and which have exited.
-/

namespace Laboratorio.Uthread

open Function Laboratorio.Reach Laboratorio.Scan

/-! ## The library -/

/-- `FREE`, `RUNNING` and `RUNNABLE`. -/
inductive ThreadState where
  | free
  | running
  | runnable
deriving DecidableEq, Repr

/-- `MAX_THREAD` -/
abbrev maxThread : Nat := 8

/-- `all_thread[..].state`, `current_thread` and `next_thread`. -/
structure Table where
  state : Fin maxThread → ThreadState
  current : Fin maxThread
  next : Option (Fin maxThread)

/-- Why a call does not return. -/
inductive Stop where
  | exit
  | nullPointer
deriving DecidableEq, Repr

namespace Table

/-- Assign to the `state` of a thread. -/
def setState (T : Table) (t : Fin maxThread) (x : ThreadState) : Table :=
  { T with state := update T.state t x }

/-- `thread_init` -/
def threadInit : Table := ⟨update (fun _ => .free) 0 .running, 0, none⟩

/-- The two assignments of `thread_switch`. -/
def threadSwitch (T : Table) : Except Stop Table :=
  match T.next with
  | none => .error .nullPointer
  | some t => .ok { T with current := t, next := none }

/-- The thread that `thread_schedule` runs next: another runnable one, or else the current one. -/
def choose (T : Table) : Option (Fin maxThread) :=
  match first fun t => decide (T.state t = .runnable ∧ t ≠ T.current) with
  | some t => some t
  | none => if T.state T.current = .runnable then some T.current else none

/-- `thread_schedule` -/
def threadSchedule (T : Table) : Except Stop Table :=
  match T.choose with
  | none => .error .exit
  | some t =>
    if T.current ≠ t then { T with next := some t }.setState t .running |>.threadSwitch
    else .ok { T with next := none }

/-- The slot that `thread_create` uses; without a free slot the loop ends behind the table. -/
def freeSlot (T : Table) : Option (Fin maxThread) := first fun t => decide (T.state t = .free)

/-- `thread_create`; behind the table, nothing of the table is written. -/
def threadCreate (T : Table) : Table :=
  match T.freeSlot with
  | some t => T.setState t .runnable
  | none => T

/-- `thread_yield` -/
def threadYield (T : Table) : Except Stop Table := (T.setState T.current .runnable).threadSchedule

/-- `thread_exit` -/
def threadExit (T : Table) : Except Stop Table := (T.setState T.current .free).threadSchedule

end Table

/-! ## Between calls -/

variable {T T' : Table} {live : Finset (Fin maxThread)}

/-- The table between calls, with `live` the slots of the threads that have not exited. -/
structure Ok (T : Table) (live : Finset (Fin maxThread)) : Prop where
  next : T.next = none
  main : T.state 0 = .running
  zero : 0 ∉ live
  free : ∀ k, k ≠ 0 → (T.state k = .free ↔ k ∉ live)
  waiting : ∀ k ∈ live, k = T.current ∨ T.state k = .runnable
  current : T.current = 0 ∨ T.current ∈ live

/-- The table when `thread_schedule` is called. -/
structure Ready (T : Table) (live : Finset (Fin maxThread)) : Prop where
  main : T.state 0 = .running
  zero : 0 ∉ live
  free : ∀ k, k ≠ 0 → (T.state k = .free ↔ k ∉ live)
  runnable : ∀ k ∈ live, T.state k = .runnable

theorem Table.setState_state (T : Table) (t k : Fin maxThread) (x : ThreadState) :
    (T.setState t x).state k = if k = t then x else T.state k :=
  update_apply ..

theorem ok_threadInit : Ok .threadInit ∅ where
  next := rfl
  main := rfl
  zero := by simp
  free k hk := by simp [Table.threadInit, update_of_ne hk]
  waiting k hk := by simp at hk
  current := .inl rfl

/-- A runnable thread is one that has not exited. -/
theorem Ok.live_of_runnable (h : Ok T live) {k : Fin maxThread} (hk : T.state k = .runnable) :
    k ∈ live := by
  by_contra hlive
  by_cases h0 : k = 0
  · rw [h0, h.main] at hk
    cases hk
  · rw [(h.free k h0).mpr hlive] at hk
    cases hk

/-- `main` calls `thread_schedule`. -/
theorem Ok.ready_main (h : Ok T live) (hc : T.current = 0) : Ready T live := by
  refine ⟨h.main, h.zero, h.free, fun k hk => (h.waiting k hk).resolve_left fun e => ?_⟩
  exact h.zero (hc ▸ e ▸ hk)

/-- A thread has yielded. -/
theorem Ok.ready_yield (h : Ok T live) (hc : T.current ∈ live) :
    Ready (T.setState T.current .runnable) live := by
  have h0 : T.current ≠ 0 := fun e => h.zero (e ▸ hc)
  refine ⟨?_, h.zero, fun k hk => ?_, fun k hk => ?_⟩
  · rw [Table.setState_state, if_neg h0.symm, h.main]
  · rw [Table.setState_state]
    split
    · next e => simpa [e] using hc
    · exact h.free k hk
  · rw [Table.setState_state]
    split
    · rfl
    · next e => exact (h.waiting k hk).resolve_left e

/-- A thread has exited. -/
theorem Ok.ready_exit (h : Ok T live) (hc : T.current ∈ live) :
    Ready (T.setState T.current .free) (live.erase T.current) := by
  have h0 : T.current ≠ 0 := fun e => h.zero (e ▸ hc)
  refine ⟨?_, fun hz => h.zero (Finset.mem_of_mem_erase hz), fun k hk => ?_, fun k hk => ?_⟩
  · rw [Table.setState_state, if_neg h0.symm, h.main]
  · rw [Table.setState_state, Finset.mem_erase]
    split
    · next e => simp [e]
    · next e => simp [e, h.free k hk]
  · obtain ⟨hne, hk⟩ := Finset.mem_erase.mp hk
    rw [Table.setState_state, if_neg hne]
    exact (h.waiting k hk).resolve_left hne

/-- `thread_create` finds a free slot when fewer than `MAX_THREAD - 1` threads have not exited. -/
theorem Ok.exists_freeSlot (h : Ok T live) (hcard : live.card < maxThread - 1) :
    ∃ t, T.freeSlot = some t := by
  have hlt : (insert 0 live).card < (Finset.univ : Finset (Fin maxThread)).card := by
    have := Finset.card_insert_le 0 live
    rw [Finset.card_fin]
    omega
  obtain ⟨t, -, ht⟩ := Finset.exists_mem_notMem_of_card_lt_card hlt
  rw [Finset.mem_insert, not_or] at ht
  exact exists_first (i := t) (decide_eq_true ((h.free t ht.1).mpr ht.2))

theorem Ok.create (h : Ok T live) {t : Fin maxThread} (ht : T.freeSlot = some t) :
    t ∉ live ∧ Ok T.threadCreate (insert t live) := by
  have hfree : T.state t = .free := of_decide_eq_true (first_eq_some.mp ht).1
  have h0 : t ≠ 0 := fun e => by rw [e, h.main] at hfree; cases hfree
  have hcreate : T.threadCreate = T.setState t .runnable := by rw [Table.threadCreate, ht]
  refine ⟨(h.free t h0).mp hfree, ?_⟩
  rw [hcreate]
  refine ⟨h.next, ?_, ?_, fun k hk => ?_, fun k hk => ?_, ?_⟩
  · rw [Table.setState_state, if_neg h0.symm, h.main]
  · simp [h0.symm, h.zero]
  · rw [Table.setState_state, Finset.mem_insert]
    split
    · next e => simp [e]
    · next e => simp [e, h.free k hk]
  · rw [Table.setState_state]
    split
    · exact .inr rfl
    · next e => exact h.waiting k ((Finset.mem_insert.mp hk).resolve_left e)
  · exact h.current.imp_right (Finset.mem_insert_of_mem ·)

/-! ## `thread_schedule` -/

/-- The thread chosen is the first of the others that have not exited, or the current one if there
are no others. -/
theorem Ready.choose_eq_some (h : Ready T live) {t : Fin maxThread} (ht : T.choose = some t) :
    t ∈ live ∧ (t ≠ T.current → ∀ k ∈ live, k ≠ T.current → t ≤ k) ∧
      (t = T.current → live = {t}) := by
  have hlive : ∀ {k}, T.state k = .runnable → k ∈ live := fun {k} hk => by
    by_contra hn
    by_cases h0 : k = 0
    · rw [h0, h.main] at hk
      cases hk
    · rw [(h.free k h0).mpr hn] at hk
      cases hk
  unfold Table.choose at ht
  split at ht
  · next u hu =>
    obtain ⟨hrun, hfirst⟩ := first_eq_some.mp hu
    obtain ⟨hrun, hne⟩ := of_decide_eq_true hrun
    cases ht
    refine ⟨hlive hrun, fun _ k hk hkc => ?_, fun e => absurd e hne⟩
    by_contra hlt
    have := of_decide_eq_false (hfirst k (not_le.mp hlt))
    exact this ⟨h.runnable k hk, hkc⟩
  · next hnone =>
    split at ht
    · next hrun =>
      cases ht
      refine ⟨hlive hrun, fun e => absurd rfl e, fun _ => ?_⟩
      refine Finset.eq_singleton_iff_unique_mem.mpr ⟨hlive hrun, fun k hk => ?_⟩
      by_contra hkc
      exact of_decide_eq_false (first_eq_none.mp hnone k) ⟨h.runnable k hk, hkc⟩
    · cases ht

/-- No thread is chosen when all have exited. -/
theorem Ready.choose_eq_none (h : Ready T live) : T.choose = none ↔ live = ∅ := by
  constructor
  · intro hnone
    refine Finset.eq_empty_of_forall_notMem fun k hk => ?_
    unfold Table.choose at hnone
    split at hnone
    · cases hnone
    · next hfirst =>
      split at hnone
      · cases hnone
      · next hcur =>
        have hkc : k ≠ T.current := fun e => hcur (e ▸ h.runnable k hk)
        exact of_decide_eq_false (first_eq_none.mp hfirst k) ⟨h.runnable k hk, hkc⟩
  · intro hlive
    cases hc : T.choose with
    | none => rfl
    | some t => simpa [hlive] using (h.choose_eq_some hc).1

/-- What `thread_schedule` does: it switches to the thread chosen, unless that one runs already. -/
theorem threadSchedule_ok (h : T.threadSchedule = .ok T') : ∃ t, T.choose = some t ∧
    T' = if t = T.current then { T with next := none }
      else { T.setState t .running with current := t, next := none } := by
  unfold Table.threadSchedule at h
  split at h
  · cases h
  · next t ht =>
    refine ⟨t, ht, ?_⟩
    split at h
    · next hne =>
      rw [if_neg (Ne.symm hne)]
      exact (Except.ok.inj h).symm
    · next he =>
      rw [if_pos (not_not.mp he).symm]
      exact (Except.ok.inj h).symm

/-- **`thread_schedule` exits** when there is no thread left, and never follows a null pointer. -/
theorem Ready.schedule_error (h : Ready T live) {e : Stop} :
    T.threadSchedule = .error e ↔ e = .exit ∧ live = ∅ := by
  rw [← h.choose_eq_none]
  unfold Table.threadSchedule
  cases hc : T.choose with
  | none => simp [eq_comm]
  | some t =>
    simp only [reduceCtorEq, and_false, iff_false]
    split
    · nofun
    · nofun

/-- After `thread_schedule` a thread runs that has not exited. -/
theorem Ready.schedule_ok (h : Ready T live) (hT' : T.threadSchedule = .ok T') :
    Ok T' live ∧ T'.current ∈ live := by
  obtain ⟨t, ht, rfl⟩ := threadSchedule_ok hT'
  obtain ⟨hlive, -, -⟩ := h.choose_eq_some ht
  have h0 : t ≠ 0 := fun e => h.zero (e ▸ hlive)
  split
  · next e =>
    refine ⟨⟨rfl, h.main, h.zero, h.free, fun k hk => .inr (h.runnable k hk), ?_⟩, ?_⟩
    · exact .inr (e ▸ hlive)
    · exact e ▸ hlive
  · refine ⟨⟨rfl, ?_, h.zero, fun k hk => ?_, fun k hk => ?_, .inr hlive⟩, hlive⟩
    · show (T.setState t .running).state 0 = .running
      rw [Table.setState_state, if_neg h0.symm, h.main]
    · show (T.setState t .running).state k = .free ↔ _
      rw [Table.setState_state]
      split
      · next e => simpa [e] using hlive
      · exact h.free k hk
    · show k = t ∨ (T.setState t .running).state k = .runnable
      rw [Table.setState_state]
      split
      · next e => exact .inl e
      · exact .inr (h.runnable k hk)

/-! ## Runs -/

/-- A thread that was created, the slot that it was given, and whether it has exited. -/
structure Thread where
  slot : Option (Fin maxThread)
  exited : Bool
deriving DecidableEq, Repr

/-- The table with the threads created so far, and whether `main` has called `thread_schedule`. -/
structure Log where
  table : Table
  threads : List Thread
  started : Bool

/-- The calls of the library. -/
inductive Call where
  | create
  | schedule
  | yield
  | exit
deriving DecidableEq, Repr

/-- What a call makes of the table. -/
def Table.call (T : Table) : Call → Except Stop Table
  | .create => .ok T.threadCreate
  | .schedule => T.threadSchedule
  | .yield => T.threadYield
  | .exit => T.threadExit

namespace Log

/-- After `thread_init`. -/
def init : Log := ⟨.threadInit, [], false⟩

/-- The threads that have not exited. -/
def unexited (L : Log) : List Thread := L.threads.filter fun t => !t.exited

/-- The calls that may be made: `main` calls `thread_schedule` once, after that the threads yield and
exit, and at any time at most `MAX_THREAD - 1` threads have not exited. -/
def Allowed (L : Log) : Call → Prop
  | .create => L.unexited.length < maxThread - 1
  | .schedule => L.started = false
  | .yield => L.started = true
  | .exit => L.started = true

instance (L : Log) (c : Call) : Decidable (L.Allowed c) := by
  cases c <;> unfold Allowed <;> infer_instance

/-- The threads after a call. -/
def threadsAfter (L : Log) : Call → List Thread
  | .create => L.threads ++ [⟨L.table.freeSlot, false⟩]
  | .exit => L.threads.map fun t =>
    if t.slot = some L.table.current then { t with exited := true } else t
  | _ => L.threads

/-- A call, if it is allowed and returns. -/
def next (L : Log) (c : Call) : Option Log :=
  if L.Allowed c then
    match L.table.call c with
    | .ok T => some ⟨T, L.threadsAfter c, L.started || c == .schedule⟩
    | .error _ => none
  else none

/-- The slots of the threads that have not exited. -/
def slots (L : Log) : Finset (Fin maxThread) := (L.unexited.filterMap Thread.slot).toFinset

end Log

/-- One call. -/
def Step (L L' : Log) : Prop := ∃ c, L.next c = some L'

variable {L L' : Log} {c : Call}

theorem Log.next_ok (h : L.next c = some L') : L.Allowed c ∧ L.table.call c = .ok L'.table ∧
    L'.threads = L.threadsAfter c ∧ L'.started = (L.started || c == .schedule) := by
  unfold Log.next at h
  split at h
  · next hc =>
    split at h
    · next T hT =>
      cases h
      exact ⟨hc, hT, rfl, rfl⟩
    · cases h
  · cases h

theorem Log.mem_slots {k : Fin maxThread} :
    k ∈ L.slots ↔ ∃ t ∈ L.threads, t.exited = false ∧ t.slot = some k := by
  simp [Log.slots, Log.unexited, and_assoc]

/-- What holds of a log between calls. -/
structure Log.Inv (L : Log) : Prop where
  ok : Ok L.table L.slots
  slot : ∀ t ∈ L.threads, ∃ k, k ≠ 0 ∧ t.slot = some k
  distinct : L.unexited.Pairwise fun t u => t.slot ≠ u.slot
  main : L.started = false → L.table.current = 0
  running : L.started = true → L.table.current ∈ L.slots

theorem Log.card_slots_le (L : Log) : L.slots.card ≤ L.unexited.length :=
  (List.toFinset_card_le _).trans (List.length_filterMap_le _ _)

/-- Threads that have not exited have slots of their own. -/
theorem Log.Inv.card_slots (h : L.Inv) : L.slots.card = L.unexited.length := by
  have hslot : ∀ t ∈ L.unexited, t.slot.isSome = true := fun t ht => by
    obtain ⟨k, -, hk⟩ := h.slot t (List.mem_of_mem_filter ht)
    rw [hk, Option.isSome_some]
  have hnodup : (L.unexited.filterMap Thread.slot).Nodup := by
    refine h.distinct.filterMap _ fun t u hne k hk k' hk' e => hne ?_
    rw [hk, hk', e]
  rw [Log.slots, List.toFinset_card_of_nodup hnodup, List.length_filterMap_eq_countP,
    List.countP_eq_length.mpr hslot]

theorem Log.inv_init : Log.init.Inv where
  ok := ok_threadInit
  slot t ht := by cases ht
  distinct := .nil
  main _ := rfl
  running h := by cases h

/-! ### One call -/

theorem Log.Inv.create (h : L.Inv) (hc : L.Allowed .create) :
    Log.Inv ⟨L.table.threadCreate, L.threadsAfter .create, L.started⟩ := by
  obtain ⟨t, ht⟩ := h.ok.exists_freeSlot (L.card_slots_le.trans_lt hc)
  obtain ⟨hfresh, hok⟩ := h.ok.create ht
  have hunexited : Log.unexited ⟨L.table.threadCreate, L.threadsAfter .create, L.started⟩ =
      L.unexited ++ [⟨some t, false⟩] := by
    simp [Log.unexited, Log.threadsAfter, ht]
  have hslots : Log.slots ⟨L.table.threadCreate, L.threadsAfter .create, L.started⟩ =
      insert t L.slots := by
    rw [Log.slots, hunexited]
    ext k
    simp [Log.slots]
  have hcurrent : L.table.threadCreate.current = L.table.current := by
    rw [Table.threadCreate, ht]
    rfl
  refine ⟨hslots ▸ hok, fun u hu => ?_, ?_, fun hs => hcurrent.trans (h.main hs), fun hs => ?_⟩
  · rw [Log.threadsAfter, ht] at hu
    rcases List.mem_append.mp hu with hu | hu
    · exact h.slot u hu
    · rw [List.mem_singleton.mp hu]
      have h0 : t ≠ 0 := fun e => hok.zero (e ▸ Finset.mem_insert_self ..)
      exact ⟨t, h0, rfl⟩
  · rw [hunexited, List.pairwise_append]
    refine ⟨h.distinct, List.pairwise_singleton .., fun u hu v hv e => hfresh ?_⟩
    rw [List.mem_singleton.mp hv] at e
    exact List.mem_toFinset.mpr (List.mem_filterMap.mpr ⟨u, hu, e⟩)
  · rw [hslots, hcurrent]
    exact Finset.mem_insert_of_mem (h.running hs)

/-- The threads that have not exited, after the current one has. -/
theorem Log.unexited_exit (L : Log) (T : Table) (b : Bool) :
    Log.unexited ⟨T, L.threadsAfter .exit, b⟩ =
      L.unexited.filter fun t => t.slot ≠ some L.table.current := by
  simp only [Log.unexited, Log.threadsAfter]
  induction L.threads with
  | nil => rfl
  | cons t ts ih =>
    rw [List.map_cons]
    by_cases ht : t.slot = some L.table.current
    · simp only [ht, if_true, List.filter_cons, Bool.not_true, Bool.false_eq_true, if_false, ih]
      split
      · simp [ht]
      · rfl
    · simp only [ht, if_false, List.filter_cons, ih]
      split
      · simp [ht]
      · rfl

theorem Log.slots_exit (L : Log) (T : Table) (b : Bool) :
    Log.slots ⟨T, L.threadsAfter .exit, b⟩ = L.slots.erase L.table.current := by
  rw [Log.slots, Log.unexited_exit]
  ext k
  simp only [Log.slots, List.mem_toFinset, List.mem_filterMap, List.mem_filter, Finset.mem_erase]
  constructor
  · rintro ⟨t, ⟨ht, hne⟩, hk⟩
    exact ⟨fun e => of_decide_eq_true hne (e ▸ hk), t, ht, hk⟩
  · rintro ⟨hne, t, ht, hk⟩
    refine ⟨t, ⟨ht, decide_eq_true fun e => hne ?_⟩, hk⟩
    exact Option.some.inj (hk.symm.trans e)

/-- The table is ready when a call gets to `thread_schedule`. -/
theorem Log.Inv.ready (h : L.Inv) (hc : L.Allowed c) (hcreate : c ≠ .create) : ∃ T,
    L.table.call c = T.threadSchedule ∧ Ready T (Log.slots ⟨T, L.threadsAfter c, L.started⟩) := by
  cases c with
  | create => exact absurd rfl hcreate
  | schedule => exact ⟨_, rfl, h.ok.ready_main (h.main hc)⟩
  | yield => exact ⟨_, rfl, h.ok.ready_yield (h.running hc)⟩
  | exit =>
    refine ⟨_, rfl, ?_⟩
    rw [Log.slots_exit]
    exact h.ok.ready_exit (h.running hc)

/-- The threads after a call that is not `thread_create` are those from before, of which the current
one may have exited. -/
theorem Log.Inv.threadsAfter (h : L.Inv) (hcreate : c ≠ .create) (T : Table) (b : Bool) :
    (∀ t ∈ L.threadsAfter c, ∃ k, k ≠ 0 ∧ t.slot = some k) ∧
      (Log.unexited ⟨T, L.threadsAfter c, b⟩).Pairwise fun t u => t.slot ≠ u.slot := by
  cases c with
  | create => exact absurd rfl hcreate
  | schedule => exact ⟨h.slot, h.distinct⟩
  | yield => exact ⟨h.slot, h.distinct⟩
  | exit =>
    refine ⟨fun t ht => ?_, ?_⟩
    · obtain ⟨u, hu, rfl⟩ := List.mem_map.mp ht
      obtain ⟨k, h0, hk⟩ := h.slot u hu
      refine ⟨k, h0, ?_⟩
      split
      · exact hk
      · exact hk
    · rw [Log.unexited_exit]
      exact h.distinct.filter _

theorem Log.Inv.step (h : L.Inv) (hs : L.next c = some L') : L'.Inv := by
  obtain ⟨hc, hcall, hthreads, hstarted⟩ := Log.next_ok hs
  obtain ⟨T', threads', started'⟩ := L'
  simp only at hcall hthreads hstarted
  subst hthreads
  by_cases hcreate : c = .create
  · subst hcreate
    cases hcall
    rw [hstarted, show (Call.create == Call.schedule) = false from rfl, Bool.or_false]
    exact h.create hc
  · obtain ⟨T, hT, hready⟩ := h.ready hc hcreate
    obtain ⟨hok, hcurrent⟩ := hready.schedule_ok (hT ▸ hcall)
    obtain ⟨hslot, hdistinct⟩ := h.threadsAfter hcreate T' started'
    refine ⟨hok, hslot, hdistinct, fun hs => ?_, fun _ => hcurrent⟩
    -- `main` does not run after its call of `thread_schedule`
    have : (L.started || c == .schedule) = true := by
      cases c with
      | create => exact absurd rfl hcreate
      | schedule => simp
      | yield => simp [show L.started = true from hc]
      | exit => simp [show L.started = true from hc]
    simp only at hs
    rw [hstarted, this] at hs
    cases hs

/-! ### Whole runs -/

theorem inv_of_reachable (h : Reachable (· = Log.init) Step L) : L.Inv := by
  refine h.invariant (I := Log.Inv) (fun L hL => ?_) fun L L' hI hstep => ?_
  · rw [hL]
    exact Log.inv_init
  · obtain ⟨c, hc⟩ := hstep
    exact hI.step hc

/-- **User threads are never lost.** After `main` has called `thread_schedule`, every thread that
was created and has not exited runs or is `RUNNABLE`, in a slot of its own; one that has exited is
`FREE`, until its slot is given to another; `main` is never run again; and a call of
`thread_schedule` exits the process just when no thread is left. -/
theorem threads_never_lost (h : Reachable (· = Log.init) Step L) :
    (L.started = true →
      L.table.next = none ∧ L.table.state L.table.current ≠ .free ∧
      (∀ t ∈ L.threads, t.exited = false →
        ∃ k, t.slot = some k ∧ (k = L.table.current ∨ L.table.state k = .runnable)) ∧
      L.unexited.Pairwise (fun t u => t.slot ≠ u.slot) ∧
      (∀ t ∈ L.threads, t.exited = true → ∃ k, t.slot = some k ∧ (L.table.state k = .free ∨
        ∃ u ∈ L.threads, u.exited = false ∧ u.slot = some k)) ∧
      L.table.state 0 = .running ∧ L.table.current ≠ 0) ∧
    ∀ c, L.Allowed c → c ≠ .create →
      (L.table.call c = .error .exit ↔ ∀ t ∈ L.threadsAfter c, t.exited = true) ∧
      L.table.call c ≠ .error .nullPointer := by
  have hI := inv_of_reachable h
  refine ⟨fun hs => ⟨hI.ok.next, ?_, fun t ht hlive => ?_, hI.distinct, fun t ht _ => ?_, hI.ok.main,
    ?_⟩, fun c hc hcreate => ?_⟩
  · have hcurrent := hI.running hs
    have h0 : L.table.current ≠ 0 := fun e => hI.ok.zero (e ▸ hcurrent)
    exact fun e => (hI.ok.free _ h0).mp e hcurrent
  · obtain ⟨k, -, hk⟩ := hI.slot t ht
    exact ⟨k, hk, hI.ok.waiting k (Log.mem_slots.mpr ⟨t, ht, hlive, hk⟩)⟩
  · obtain ⟨k, h0, hk⟩ := hI.slot t ht
    refine ⟨k, hk, ?_⟩
    by_cases hlive : k ∈ L.slots
    · exact .inr (Log.mem_slots.mp hlive)
    · exact .inl ((hI.ok.free k h0).mpr hlive)
  · exact fun e => hI.ok.zero (e ▸ hI.running hs)
  · obtain ⟨T, hT, hready⟩ := hI.ready hc hcreate
    obtain ⟨hslot, -⟩ := hI.threadsAfter hcreate T L.started
    rw [hT, ne_eq, hready.schedule_error, hready.schedule_error]
    refine ⟨?_, fun e => nomatch e.1⟩
    rw [eq_self, true_and, Finset.eq_empty_iff_forall_notMem]
    constructor
    · intro hempty t ht
      obtain ⟨k, -, hk⟩ := hslot t ht
      by_contra hlive
      exact hempty k (Log.mem_slots.mpr ⟨t, ht, by simpa using hlive, hk⟩)
    · intro hall k hk
      obtain ⟨t, ht, hlive, -⟩ := Log.mem_slots.mp hk
      rw [hall t ht] at hlive
      cases hlive

/-- Two threads, of which the first has yielded. -/
def twoThreads : Log :=
  (run Log.next .init [.create, .create, .schedule, .yield]).get (by decide +kernel)

theorem reachable_twoThreads : Reachable (· = Log.init) Step twoThreads :=
  reachable_of_run (fun _ c _ hc => ⟨c, hc⟩) (.init rfl) (Option.some_get _).symm

theorem threads_never_lost_two : twoThreads.started = true ∧ twoThreads.table.current = 2 ∧
    twoThreads.table.next = none ∧ twoThreads.table.call .exit ≠ .error .nullPointer :=
  ⟨by decide +kernel, by decide +kernel,
    ((threads_never_lost reachable_twoThreads).1 (by decide +kernel)).1,
    ((threads_never_lost reachable_twoThreads).2 .exit (by decide +kernel) nofun).2⟩

end Laboratorio.Uthread
