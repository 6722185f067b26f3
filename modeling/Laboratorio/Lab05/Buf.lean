import Laboratorio.Lib.Fifo
import Laboratorio.Lib.Reach

/-!
# The bounded buffer (`lab-05/buf.c`)

`main` initialises a mutex and two semaphores, creates the producer and the consumer, and then
destroys the mutex and the semaphores without waiting for the threads.

* `transfer` is about the two threads: whatever their interleaving, the consumer reads item `i` after
  it is written and before it is overwritten, and they never block each other. Destroying an object
  has no effect on its value here, so this is about objects that stay usable.
* `objects_outlive_users` is about `main`: no object is used after it is destroyed, provided that
  `main` only destroys objects when both threads have ended. `buf.c` does not see to that
  (`use_after_destroy`).
-/

namespace Laboratorio.Lab05.Buf

open Function Laboratorio.Fifo Laboratorio.Reach

/-! ## The program -/

/-- The threads that `main` creates. -/
inductive Thread where
  | producer
  | consumer
deriving DecidableEq, Repr

def Thread.other : Thread → Thread
  | .producer => .consumer
  | .consumer => .producer

inductive Sem where
  | lleno
  | vacio
deriving DecidableEq, Repr

/-- The objects that `main` initialises and destroys. -/
inductive Obj where
  | mutex
  | sem (x : Sem)
deriving DecidableEq, Repr

/-- The semaphore of the `sem_wait` of a thread. -/
def Thread.waits : Thread → Sem
  | .producer => .vacio
  | .consumer => .lleno

/-- The semaphore of the `sem_post` of a thread. -/
def Thread.posts : Thread → Sem
  | .producer => .lleno
  | .consumer => .vacio

/-- Where a thread is: before it is created, in the round of its loop, or at its end. -/
inductive Pc where
  | unborn
  | wait
  | lock
  | access
  | unlock
  | post
  | done
deriving DecidableEq, Repr

/-- Where `main` is. -/
inductive Main where
  | create (t : Thread)
  | destroy (o : Obj)
  | exit
deriving DecidableEq, Repr

/-- The statements of `main` after the initialisation, in their order. -/
def Main.next : Main → Main
  | .create .producer => .create .consumer
  | .create .consumer => .destroy .mutex
  | .destroy .mutex => .destroy (.sem .lleno)
  | .destroy (.sem .lleno) => .destroy (.sem .vacio)
  | .destroy (.sem .vacio) => .exit
  | .exit => .exit

/-- The parameters that `main` accepts. -/
structure Params where
  size : Nat
  items : Nat
  size_pos : 0 < size
  items_pos : 0 < items

/-- The memory that the threads share, and where they are. `i` are their loop counters, `results` is
`reader_results`. -/
structure State where
  mutex : Option Thread
  sem : Sem → Nat
  buf : Nat → Int
  results : Nat → Int
  i : Thread → Nat
  pc : Thread → Pc
  main : Main
  destroyed : Obj → Bool

/-- The values that `sem_init` gives the semaphores. -/
def Params.init (c : Params) : Sem → Nat
  | .lleno => 0
  | .vacio => c.size

/-- The state before `main` creates the threads, with arbitrary contents of the buffers. -/
def Params.start (c : Params) (buf results : Nat → Int) : State where
  mutex := none
  sem := c.init
  buf := buf
  results := results
  i _ := 0
  pc _ := .unborn
  main := .create .producer
  destroyed _ := false

/-- Thread `t` goes on at `pc`. -/
@[simps] def State.goto (s : State) (t : Thread) (pc : Pc) : State :=
  { s with pc := update s.pc t pc }

/-- The test of the loop of a thread. -/
def Params.loop (c : Params) (i : Nat) : Pc := if i < c.items then .wait else .done

/-- What a thread does with the buffer. -/
def State.access (c : Params) (s : State) : Thread → State
  | .producer =>
    { s with buf := update s.buf (s.i .producer % c.size) (s.i .producer) }
  | .consumer =>
    { s with
      results := update s.results (s.i .consumer) (s.buf (s.i .consumer % c.size)) }

/-- The next step of `producer` or `consumer`, unless it blocks. -/
def State.next (c : Params) (s : State) (t : Thread) : Option State :=
  match s.pc t with
  | .unborn => none
  | .wait =>
    if 0 < s.sem t.waits then
      some ({ s with sem := update s.sem t.waits (s.sem t.waits - 1) }.goto t .lock)
    else none
  | .lock => if s.mutex = none then some ({ s with mutex := some t }.goto t .access) else none
  | .access => some ((s.access c t).goto t .unlock)
  | .unlock => some ({ s with mutex := none }.goto t .post)
  | .post =>
    some ({ s with
      sem := update s.sem t.posts (s.sem t.posts + 1)
      i := update s.i t (s.i t + 1) }.goto t (c.loop (s.i t + 1)))
  | .done => none

/-- The next step of `main`. -/
def State.mainNext (c : Params) (s : State) : Option State :=
  match s.main with
  | .create t => some ({ s with main := s.main.next }.goto t (c.loop 0))
  | .destroy o =>
    some { s with main := s.main.next, destroyed := update s.destroyed o true }
  | .exit => none

/-- Who makes a step. -/
inductive Act where
  | main
  | thread (t : Thread)
deriving DecidableEq, Repr

def State.step (c : Params) (s : State) : Act → Option State
  | .main => s.mainNext c
  | .thread t => s.next c t

/-- The states that are reached by steps that are all `ok`. -/
def Reachable (c : Params) (ok : State → Act → Prop) : State → Prop :=
  Reach.Reachable (fun s => ∃ buf results, s = c.start buf results)
    (fun s s' => ∃ a, ok s a ∧ s.step c a = some s')

/-! ## The invariant -/

/-- The thread holds the mutex. -/
def Pc.locks : Pc → Bool
  | .access | .unlock => true
  | _ => false

/-- The tokens that a thread has taken from one semaphore and not yet given to the other. -/
def Pc.taken : Pc → Nat
  | .lock | .access | .unlock | .post => 1
  | _ => 0

/-- Whether the thread has made its access in this round. -/
def Pc.accessed : Pc → Nat
  | .unlock | .post => 1
  | _ => 0

/-- The counter of a thread at a place of its program. -/
def Pc.Counts (c : Params) (i : Nat) : Pc → Prop
  | .unborn => i = 0
  | .done => i = c.items
  | _ => i < c.items

/-- The number of accesses of a thread to the buffer. -/
def State.accesses (s : State) (t : Thread) : Nat := s.i t + (s.pc t).accessed

/-- **What holds in every state.** The tokens of a thread come from the rounds of the other one; the
items between the counters of the consumer and the producer are in the buffer. -/
structure Inv (c : Params) (s : State) : Prop where
  mutex : Owns Pc.locks s.pc s.mutex
  tokens : ∀ t, s.sem t.waits + s.i t + (s.pc t).taken = c.init t.waits + s.i t.other
  unborn : ∀ t, s.main = .create t → s.pc t = .unborn ∧ s.pc .consumer = .unborn
  counts : ∀ t, (s.pc t).Counts c (s.i t)
  buf : ∀ k, s.i .consumer ≤ k → k < s.accesses .producer → s.buf (k % c.size) = k
  results : ∀ k, k < s.accesses .consumer → s.results k = k

variable {c : Params} {s s' : State} {t : Thread}

theorem Inv.start (buf results : Nat → Int) : Inv c (c.start buf results) where
  mutex _ := iff_of_false nofun nofun
  tokens _ := rfl
  unborn _ _ := ⟨rfl, rfl⟩
  counts _ := rfl
  buf _ _ h := absurd h (Nat.not_lt_zero _)
  results _ h := absurd h (Nat.not_lt_zero _)

theorem counts_loop {i : Nat} (h : i ≤ c.items) : (c.loop i).Counts c i := by
  unfold Params.loop
  split
  · assumption
  · show i = c.items
    omega

@[simp] theorem taken_loop (c : Params) (i : Nat) : (c.loop i).taken = 0 := by
  unfold Params.loop
  split <;> rfl

@[simp] theorem accessed_loop (c : Params) (i : Nat) : (c.loop i).accessed = 0 := by
  unfold Params.loop
  split <;> rfl

/-- A thread that has been created is not created again. -/
theorem Inv.unborn_goto (h : Inv c s) (hpc : s.pc t ≠ .unborn) (pc : Pc) {t' : Thread}
    (ht' : s.main = .create t') : update s.pc t pc t' = .unborn ∧
      update s.pc t pc .consumer = .unborn := by
  obtain ⟨hself, hcons⟩ := h.unborn t' ht'
  rw [update_of_ne, update_of_ne]
  · exact ⟨hself, hcons⟩
  · rintro rfl
    exact hpc hcons
  · rintro rfl
    exact hpc hself

/-- A thread goes on in its round, without an access to the buffer. -/
theorem Inv.move (h : Inv c s) {mutex : Option Thread} {sem : Sem → Nat} {pc : Pc}
    (hpc : s.pc t ≠ .unborn) (hmutex : Passes Pc.locks t (s.pc t) pc s.mutex mutex)
    (hcounts : pc.Counts c (s.i t)) (hacc : pc.accessed = (s.pc t).accessed)
    (hown : sem t.waits + pc.taken = s.sem t.waits + (s.pc t).taken)
    (hother : sem t.posts = s.sem t.posts) :
    Inv c ({ s with mutex := mutex, sem := sem }.goto t pc) := by
  have haccesses : ∀ t', State.accesses ({ s with mutex := mutex, sem := sem }.goto t pc) t' =
      s.accesses t' := fun t' => by
    by_cases ht : t' = t
    · subst ht
      simp [State.accesses, hacc]
    · simp [State.accesses, update_of_ne ht]
  refine ⟨h.mutex.passes hmutex, fun t' => ?_, fun t' => h.unborn_goto hpc pc, fun t' => ?_,
    fun k hlo hhi => h.buf k hlo (haccesses _ ▸ hhi), fun k hk => h.results k (haccesses _ ▸ hk)⟩
  · have htok := h.tokens t'
    cases t <;> cases t' <;> simp_all [Thread.waits, Thread.posts] <;> omega
  · by_cases ht : t' = t
    · subst ht
      simpa using hcounts
    · simpa [update_of_ne ht] using h.counts t'

/-- The producer writes an item. -/
theorem Inv.write (h : Inv c s) (hpc : s.pc .producer = .access) :
    Inv c ((s.access c .producer).goto .producer .unlock) := by
  have htok := h.tokens .producer
  have hcounts := h.counts .producer
  rw [hpc] at htok hcounts
  refine ⟨h.mutex.passes (.keep (by rw [hpc]; rfl)), fun t => ?_,
    fun t => h.unborn_goto (by simp [hpc]) _, fun t => ?_, fun k hlo hhi => ?_, h.results⟩
  · cases t with
    | producer => exact htok
    | consumer => exact h.tokens .consumer
  · cases t with
    | producer => exact hcounts
    | consumer => exact h.counts .consumer
  · -- the item that is in the slot was read, since the producer has a token
    have hroom : s.i .producer + 1 ≤ c.size + s.i .consumer := by
      simp only [Pc.taken, Thread.waits, Params.init, Thread.other] at htok
      omega
    have hlo : s.i .consumer ≤ k := hlo
    have hhi : k < s.i .producer + 1 := hhi
    show update s.buf (s.i .producer % c.size) (s.i .producer : Int) (k % c.size) = k
    by_cases hk : k = s.i .producer
    · rw [hk, update_self]
    · rw [update_of_ne (slot_ne (by omega) (by omega))]
      refine h.buf k hlo ?_
      rw [State.accesses, hpc]
      show k < s.i .producer
      omega

/-- The item that the consumer is about to read is written. -/
theorem Inv.written (h : Inv c s) (hpc : s.pc .consumer = .access) :
    s.i .consumer < s.accesses .producer := by
  have htok := h.tokens .consumer
  rw [hpc] at htok
  simp only [Pc.taken, Thread.waits, Params.init, Thread.other] at htok
  unfold State.accesses
  omega

/-- The consumer reads an item. -/
theorem Inv.read (h : Inv c s) (hpc : s.pc .consumer = .access) :
    Inv c ((s.access c .consumer).goto .consumer .unlock) := by
  have htok := h.tokens .consumer
  have hcounts := h.counts .consumer
  rw [hpc] at htok hcounts
  refine ⟨h.mutex.passes (.keep (by rw [hpc]; rfl)), fun t => ?_,
    fun t => h.unborn_goto (by simp [hpc]) _, fun t => ?_, h.buf, fun k hk => ?_⟩
  · cases t with
    | producer => exact h.tokens .producer
    | consumer => exact htok
  · cases t with
    | producer => exact h.counts .producer
    | consumer => exact hcounts
  · have hk : k < s.i .consumer + 1 := hk
    show update s.results (s.i .consumer) (s.buf (s.i .consumer % c.size)) k = k
    by_cases hki : k = s.i .consumer
    · rw [hki, update_self]
      exact h.buf _ le_rfl (h.written hpc)
    · rw [update_of_ne hki]
      refine h.results k ?_
      rw [State.accesses, hpc]
      show k < s.i .consumer
      omega

/-- A thread ends its round. -/
theorem Inv.post (h : Inv c s) (hpc : s.pc t = .post) :
    Inv c ({ s with
      sem := update s.sem t.posts (s.sem t.posts + 1)
      i := update s.i t (s.i t + 1) }.goto t (c.loop (s.i t + 1))) := by
  have hcounts := h.counts t
  rw [hpc] at hcounts
  have hlocks : (c.loop (s.i t + 1)).locks = Pc.post.locks := by
    unfold Params.loop
    split <;> rfl
  have haccesses : ∀ t', State.accesses ({ s with
      sem := update s.sem t.posts (s.sem t.posts + 1)
      i := update s.i t (s.i t + 1) }.goto t (c.loop (s.i t + 1))) t' = s.accesses t' :=
    fun t' => by
      by_cases ht : t' = t
      · subst ht
        have hpost : Pc.post.accessed = 1 := rfl
        simp [State.accesses, hpc, hpost]
      · simp [State.accesses, update_of_ne ht]
  have htaken : Pc.post.taken = 1 := rfl
  refine ⟨h.mutex.passes (.keep (by rw [hpc, hlocks])), fun t' => ?_,
    fun t' => h.unborn_goto (by simp [hpc]) _, fun t' => ?_,
    fun k hlo hhi => h.buf k (le_trans ?_ hlo) (haccesses _ ▸ hhi),
    fun k hk => h.results k (haccesses _ ▸ hk)⟩
  · have htok := h.tokens t'
    cases t <;> cases t' <;>
      simp_all [Thread.waits, Thread.posts, Thread.other] <;> omega
  · by_cases ht : t' = t
    · subst ht
      simpa using counts_loop (Nat.succ_le_of_lt hcounts)
    · simpa [update_of_ne ht] using h.counts t'
  · cases t <;> simp

theorem Inv.next (h : Inv c s) (hs : s.next c t = some s') : Inv c s' := by
  have hcounts := h.counts t
  unfold State.next at hs
  split at hs
  · cases hs
  · next hpc =>
    rw [hpc] at hcounts
    split at hs
    · next hpos =>
      cases hs
      refine h.move (by simp [hpc]) (.keep (by simp [hpc, Pc.locks])) hcounts ?_ ?_ ?_
      · simp [hpc, Pc.accessed]
      · simp only [hpc, Pc.taken, update_self]
        omega
      · cases t <;> simp [Thread.posts, Thread.waits]
    · cases hs
  · next hpc =>
    rw [hpc] at hcounts
    split at hs
    · next hfree =>
      cases hs
      refine h.move (by simp [hpc]) ?_ hcounts (by simp [hpc, Pc.accessed])
        (by simp [hpc, Pc.taken]) rfl
      rw [hfree]
      exact .acquire rfl
    · cases hs
  · next hpc =>
    cases hs
    cases t with
    | producer => exact h.write hpc
    | consumer => exact h.read hpc
  · next hpc =>
    rw [hpc] at hcounts
    cases hs
    exact h.move (by simp [hpc]) (.release (by simp [hpc, Pc.locks]) rfl) hcounts
      (by simp [hpc, Pc.accessed]) (by simp [hpc, Pc.taken]) rfl
  · next hpc =>
    cases hs
    exact h.post hpc
  · cases hs

theorem Inv.mainNext (h : Inv c s) (hs : s.mainNext c = some s') : Inv c s' := by
  unfold State.mainNext at hs
  split at hs
  · next t hmain =>
    cases hs
    obtain ⟨hborn, hcons⟩ := h.unborn t hmain
    have hzero := h.counts t
    rw [hborn] at hzero
    have hzero : s.i t = 0 := hzero
    have hlocks : (c.loop 0).locks = Pc.unborn.locks := by
      unfold Params.loop
      split <;> rfl
    have haccesses : ∀ t', State.accesses ({ s with main := s.main.next }.goto t (c.loop 0)) t' =
        s.accesses t' := fun t' => by
      by_cases ht : t' = t
      · subst ht
        have hunborn : Pc.unborn.accessed = 0 := rfl
        simp [State.accesses, hborn, hunborn]
      · simp [State.accesses, update_of_ne ht]
    have htaken : Pc.unborn.taken = 0 := rfl
    refine ⟨h.mutex.passes (.keep (by rw [hborn, hlocks])), fun t' => ?_, fun t' ht' => ?_,
      fun t' => ?_, fun k hlo hhi => h.buf k hlo (haccesses _ ▸ hhi),
      fun k hk => h.results k (haccesses _ ▸ hk)⟩
    · have htok := h.tokens t'
      cases t <;> cases t' <;> simp_all
    · -- the producer is created first
      cases t with
      | producer =>
        simp only [State.goto_main, hmain, Main.next] at ht'
        cases ht'
        exact ⟨hcons, hcons⟩
      | consumer =>
        simp only [State.goto_main, hmain, Main.next] at ht'
        cases ht'
    · by_cases ht : t' = t
      · subst ht
        simpa [hzero] using counts_loop (Nat.zero_le c.items)
      · simpa [update_of_ne ht] using h.counts t'
  · next o hmain =>
    cases hs
    refine ⟨h.mutex, h.tokens, fun t ht => ?_, h.counts, h.buf, h.results⟩
    simp only [hmain] at ht
    rcases o with _ | _ | _ <;> cases ht
  · cases hs

theorem Inv.reachable {ok : State → Act → Prop} (h : Reachable c ok s) : Inv c s := by
  refine Reach.Reachable.invariant h ?_ ?_
  · rintro _ ⟨buf, results, rfl⟩
    exact Inv.start buf results
  · rintro s s' hs ⟨a, -, ha⟩
    cases a with
    | main => exact hs.mainNext ha
    | thread t => exact hs.next ha

/-! ## The two threads -/

/-- The thread is blocked in `sem_wait` or `pthread_mutex_lock`. -/
def State.Blocked (c : Params) (s : State) (t : Thread) : Prop :=
  s.pc t ≠ .unborn ∧ s.pc t ≠ .done ∧ s.next c t = none

/-- A thread blocks when there is no token for it, or when the other thread has the mutex. -/
theorem State.Blocked.cases (h : s.Blocked c t) :
    s.pc t = .wait ∧ s.sem t.waits = 0 ∨ s.pc t = .lock ∧ s.mutex ≠ none := by
  obtain ⟨hunborn, hdone, hnext⟩ := h
  unfold State.next at hnext
  split at hnext
  · next hpc => exact absurd hpc hunborn
  · next hpc =>
    refine .inl ⟨hpc, ?_⟩
    split at hnext
    · cases hnext
    · omega
  · next hpc =>
    refine .inr ⟨hpc, fun hfree => ?_⟩
    rw [if_pos hfree] at hnext
    cases hnext
  · cases hnext
  · cases hnext
  · cases hnext
  · next hpc => exact absurd hpc hdone

/-- The mutex is free when no thread can go on. -/
theorem Inv.wait_of_blocked (h : Inv c s) (hall : ∀ t, s.pc t = .done ∨ s.Blocked c t)
    (hb : s.Blocked c t) : s.pc t = .wait ∧ s.sem t.waits = 0 := by
  rcases hb.cases with hwait | ⟨-, hmutex⟩
  · exact hwait
  · obtain ⟨t', ht'⟩ := Option.ne_none_iff_exists'.mp hmutex
    have hlocks := (h.mutex t').mpr ht'
    rcases hall t' with hpc | hb'
    · rw [hpc] at hlocks
      cases hlocks
    · rcases hb'.cases with ⟨hpc, -⟩ | ⟨hpc, -⟩
      · rw [hpc] at hlocks
        cases hlocks
      · rw [hpc] at hlocks
        cases hlocks

/-- The threads do not block each other. -/
theorem Inv.not_stuck (h : Inv c s) (hall : ∀ t, s.pc t = .done ∨ s.Blocked c t) :
    s.pc t = .done := by
  refine (hall t).resolve_right fun hb => ?_
  obtain ⟨hpc, hsem⟩ := h.wait_of_blocked hall hb
  have htok := h.tokens t
  have hcounts := h.counts t
  rw [hpc, hsem] at htok
  rw [hpc] at hcounts
  have htok : 0 + s.i t + 0 = c.init t.waits + s.i t.other := htok
  have hcounts : s.i t < c.items := hcounts
  rcases hall t.other with hdone | hb'
  · -- the other thread has made all its rounds
    have hother := h.counts t.other
    rw [hdone] at hother
    have hother : s.i t.other = c.items := hother
    omega
  · obtain ⟨hpc', hsem'⟩ := h.wait_of_blocked hall hb'
    have htok' := h.tokens t.other
    rw [hpc', hsem'] at htok'
    have hsize := c.size_pos
    cases t <;> simp_all [Thread.other, Thread.waits, Params.init, Pc.taken]

/-- **The bounded buffer.** The consumer reads an item when it is written and not yet overwritten, so
that it has read all items in the end; the threads are never both blocked. -/
theorem transfer (h : Reachable c (fun _ _ => True) s) :
    (s.pc .consumer = .access → s.i .consumer < s.accesses .producer ∧
      s.accesses .producer ≤ s.i .consumer + c.size ∧
      s.buf (s.i .consumer % c.size) = s.i .consumer) ∧
    ((∀ t, s.pc t = .done) → ∀ i < c.items, s.results i = i) ∧
    ((∀ t, s.pc t = .done ∨ s.Blocked c t) → ∀ t, s.pc t = .done) := by
  have hi := Inv.reachable h
  refine ⟨fun hpc => ⟨hi.written hpc, ?_, hi.buf _ le_rfl (hi.written hpc)⟩, fun hdone i hlt => ?_,
    fun hall t => hi.not_stuck hall⟩
  · have htok := hi.tokens .producer
    have hle : (s.pc .producer).accessed ≤ (s.pc .producer).taken := by
      cases s.pc .producer <;> decide
    simp only [Thread.waits, Params.init, Thread.other] at htok
    unfold State.accesses
    omega
  · refine hi.results i ?_
    have hcounts := hi.counts .consumer
    rw [hdone] at hcounts
    have hcounts : s.i .consumer = c.items := hcounts
    unfold State.accesses
    omega

/-- Some of the states are the ends of runs. -/
theorem reachable_run {ok : State → Act → Prop} {as : List Act} (hs : Reachable c ok s)
    (hok : ∀ s a, ok s a) (h : run (State.step c) s as = some s') : Reachable c ok s' :=
  reachable_of_run (fun s a _ ha => ⟨a, hok s a, ha⟩) hs h

theorem reachable_start {ok : State → Act → Prop} (buf results : Nat → Int) :
    Reachable c ok (c.start buf results) :=
  .init ⟨buf, results, rfl⟩

/-- Two items by way of a buffer of one. -/
def twoItems : Params := ⟨1, 2, by decide, by decide⟩

/-- The threads take turns. -/
def turns : List Act :=
  [.main, .main] ++ List.replicate 5 (.thread .producer) ++ List.replicate 5 (.thread .consumer) ++
    List.replicate 5 (.thread .producer) ++ List.replicate 5 (.thread .consumer)

/-- The end of `turns`. -/
def turnsEnd : State :=
  (run (State.step twoItems) (twoItems.start 0 0) turns).get (by decide +kernel)

theorem transfer_twoItems : Reachable twoItems (fun _ _ => True) turnsEnd ∧
    (∀ t, turnsEnd.pc t = .done) ∧ ∀ i < 2, turnsEnd.results i = i := by
  have hreach : Reachable twoItems (fun _ _ => True) turnsEnd :=
    reachable_run (reachable_start 0 0) (fun _ _ => trivial) (Option.some_get _).symm
  have hdone : ∀ t, turnsEnd.pc t = .done := by
    intro t
    cases t <;> decide +kernel
  exact ⟨hreach, hdone, (transfer hreach).2.1 hdone⟩

/-! ## `main` and the threads -/

/-- The object that the call a thread is at uses. -/
def State.uses (s : State) (t : Thread) : Option Obj :=
  match s.pc t with
  | .wait => some (.sem t.waits)
  | .lock | .unlock => some .mutex
  | .post => some (.sem t.posts)
  | .unborn | .access | .done => none

/-- No thread is at a call that uses a destroyed object, whether it returns or blocks. -/
def State.Safe (s : State) : Prop := ∀ t o, s.uses t = some o → s.destroyed o = false

/-- `main` only destroys an object when both threads have ended. -/
def State.Joined (s : State) : Act → Prop
  | .main => (∃ o, s.main = .destroy o) → ∀ t, s.pc t = .done
  | .thread _ => True

/-- A step of the program in which `main` waits for the threads before it destroys an object. -/
def State.stepJoined (c : Params) (s : State) : Act → Option State
  | .main =>
    match s.main with
    | .destroy _ => if s.pc .producer = .done ∧ s.pc .consumer = .done then s.mainNext c else none
    | _ => s.mainNext c
  | .thread t => s.next c t

theorem stepJoined_eq_some {a : Act} (h : s.stepJoined c a = some s') :
    s.Joined a ∧ s.step c a = some s' := by
  cases a with
  | main =>
    simp only [State.stepJoined] at h
    split at h
    · split at h
      · next hdone =>
        refine ⟨fun _ t => ?_, h⟩
        cases t with
        | producer => exact hdone.1
        | consumer => exact hdone.2
      · cases h
    · next hne =>
      refine ⟨?_, h⟩
      rintro ⟨o, ho⟩
      exact (hne o ho).elim
  | thread t => exact ⟨trivial, h⟩

/-- When an object is destroyed, the threads have ended. -/
def Ended (s : State) : Prop :=
  (∃ o, s.destroyed o = true) → (∀ t, s.pc t = .done) ∧ ∀ t, s.main ≠ .create t

theorem next_destroyed (hs : s.next c t = some s') : s'.destroyed = s.destroyed := by
  unfold State.next at hs
  split at hs
  · cases hs
  · split at hs
    · cases hs
      rfl
    · cases hs
  · split at hs
    · cases hs
      rfl
    · cases hs
  · cases hs
    cases t <;> rfl
  · cases hs
    rfl
  · cases hs
    rfl
  · cases hs

theorem Ended.step {a : Act} (h : Ended s) (hj : s.Joined a) (hs : s.step c a = some s') :
    Ended s' := by
  cases a with
  | main =>
    simp only [State.step, State.mainNext] at hs
    split at hs
    · next t hmain =>
      cases hs
      rintro ⟨o, ho⟩
      exact absurd hmain ((h ⟨o, ho⟩).2 t)
    · next o hmain =>
      cases hs
      refine fun _ => ⟨hj ⟨o, hmain⟩, fun t => ?_⟩
      rw [hmain]
      rcases o with _ | _ | _ <;> nofun
    · cases hs
  | thread t =>
    -- a thread that makes a step has not ended
    rintro ⟨o, ho⟩
    rw [next_destroyed hs] at ho
    have hdone := (h ⟨o, ho⟩).1 t
    simp [State.step, State.next, hdone] at hs

/-- **The objects outlive their users** in every run in which `main` waits for the threads before it
destroys an object. -/
theorem objects_outlive_users (h : Reachable c State.Joined s) : s.Safe := by
  have hended : Ended s := by
    refine Reach.Reachable.invariant h ?_ ?_
    · rintro _ ⟨buf, results, rfl⟩ ⟨o, hd⟩
      cases hd
    · rintro s s' hs ⟨a, hj, ha⟩
      exact hs.step hj ha
  intro t o ho
  by_contra hd
  have hdone := (hended ⟨o, by simpa using hd⟩).1 t
  rw [State.uses, hdone] at ho
  cases ho

/-- One item by way of a buffer of one. -/
def oneItem : Params := ⟨1, 1, by decide, by decide⟩

/-- Both threads run to their ends, and then `main` destroys all three objects. -/
theorem objects_outlive_users_joined : ∃ s, Reachable oneItem State.Joined s ∧
    (∀ t, s.pc t = .done) ∧ (∀ o, s.destroyed o = true) ∧ s.Safe := by
  have hrun : (run (State.stepJoined oneItem) (oneItem.start 0 0) ([.main, .main] ++
      List.replicate 5 (.thread .producer) ++ List.replicate 5 (.thread .consumer) ++
      List.replicate 3 .main)).isSome := by
    decide +kernel
  have hreach : Reachable oneItem State.Joined (Option.get _ hrun) :=
    reachable_of_run (fun _ a _ h => ⟨a, stepJoined_eq_some h⟩) (reachable_start 0 0)
      (Option.some_get hrun).symm
  refine ⟨_, hreach, fun t => ?_, fun o => ?_, objects_outlive_users hreach⟩
  · cases t <;> rfl
  · rcases o with _ | _ | _ <;> rfl

/-- **The objects of `buf.c` do not**: `main` creates the threads and destroys the objects, and only
then the producer waits for `vacio`. -/
theorem use_after_destroy : ∃ s, Reachable oneItem (fun _ _ => True) s ∧
    s.uses .producer = some (.sem .vacio) ∧ ¬ s.Safe := by
  have hrun : (run (State.step oneItem) (oneItem.start 0 0) (List.replicate 5 .main)).isSome := by
    decide +kernel
  have hreach := reachable_run (reachable_start 0 0) (fun _ _ => trivial) (Option.some_get hrun).symm
  refine ⟨_, hreach, rfl, fun hsafe => ?_⟩
  cases hsafe .producer _ rfl

end Laboratorio.Lab05.Buf
