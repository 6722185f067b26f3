import Laboratorio.Lib.Count
import Laboratorio.Lib.Reach

/-!
# The word stack (`lab-05/wordstack.c`)

Processes push and pop words of a stack in shared memory. `modify_canvas` (push) and `remove_queue`
(pop) have the same shape: wait for one semaphore, change the stack under the mutex, post the other
semaphore. The processes interleave at every access to the shared memory.

The rows of the stack are counted by tokens. A row that is filled is a token of `full`, or of a
process that has pushed and not yet posted, or of one that has waited and not yet popped; and
likewise for the rows that are not filled. `Inv` says this, and `stack_synchronised` follows.
-/

namespace Laboratorio.Lab05.Wordstack

open Finset Function Laboratorio.Count Laboratorio.Reach

/-! ## The program -/

/-- `ITEMS` -/
def maxItems : Nat := 15

/-- `MAX_WORD` -/
def maxWord : Nat := 50

inductive Sem where
  | full
  | empty
deriving DecidableEq, Repr

/-- `modify_canvas` with a word, or `remove_queue`. -/
inductive Op where
  | push (value : List UInt8)
  | pop
deriving DecidableEq, Repr

/-- The semaphore of the `sem_wait`. -/
def Op.waits : Op → Sem
  | .push _ => .empty
  | .pop => .full

/-- The semaphore of the `sem_post`. -/
def Op.posts : Op → Sem
  | .push _ => .full
  | .pop => .empty

/-- Where a process is: outside of an operation, or in one. -/
inductive Pc where
  | idle
  | wait (op : Op)
  | lock (op : Op)
  /-- in the loop, with its counter -/
  | row (op : Op) (i : Nat)
  /-- before the change of `free` -/
  | free (op : Op)
  /-- before the change of `items` -/
  | items (op : Op)
  | unlock (op : Op)
  | post (op : Op)
deriving DecidableEq, Repr

/-- The shared memory and the processes. `heap` is given by the offset of a byte from the start of
the rows. -/
structure State (P : Type) where
  free : Int
  items : Int
  mutex : Option P
  sem : Sem → Nat
  heap : Int → UInt8
  pc : P → Pc

/-- The shared memory after `create_queue`. -/
def create (P : Type) (heap : Int → UInt8) : State P where
  free := maxItems
  items := 0
  mutex := none
  sem
    | .full => 0
    | .empty => maxItems
  heap := heap
  pc _ := .idle

variable {P : Type} [DecidableEq P]

/-- Process `p` goes on at `pc`. -/
@[simps] def State.goto (s : State P) (p : P) (pc : Pc) : State P :=
  { s with pc := update s.pc p pc }

/-- The row that an operation writes. -/
def State.row (s : State P) : Op → Int
  | .push _ => s.items
  | .pop => s.items - 1

/-- The byte that the loop of an operation writes in its `i`-th round, if it is not over. `putchar`
returns the character that it prints. -/
def Op.byte : Op → Nat → Option UInt8
  | .push value, i => value[i]?
  | .pop, i => if i < maxWord then some 0 else none

/-- What an operation adds to `items`, and subtracts from `free`. -/
def Op.change : Op → Int
  | .push _ => 1
  | .pop => -1

/-- The next step of a process in an operation, unless it blocks. -/
def State.next (s : State P) (p : P) : Option (State P) :=
  match s.pc p with
  | .idle => none
  | .wait op =>
    if 0 < s.sem op.waits then
      some ({ s with sem := update s.sem op.waits (s.sem op.waits - 1) }.goto p (.lock op))
    else none
  | .lock op => if s.mutex = none then some ({ s with mutex := some p }.goto p (.row op 0)) else none
  | .row op i =>
    match op.byte i with
    | some b =>
      some ({ s with heap := update s.heap (s.row op * maxWord + i) b }.goto p (.row op (i + 1)))
    | none => some (s.goto p (.free op))
  | .free op => some ({ s with free := s.free - op.change }.goto p (.items op))
  | .items op => some ({ s with items := s.items + op.change }.goto p (.unlock op))
  | .unlock op => some ({ s with mutex := none }.goto p (.post op))
  | .post op =>
    some ({ s with sem := update s.sem op.posts (s.sem op.posts + 1) }.goto p .idle)

/-- A process starts an operation, or makes its next step. -/
inductive Act where
  | call (op : Op)
  | next
deriving DecidableEq, Repr

def State.step (s : State P) (p : P) : Act → Option (State P)
  | .call op => if s.pc p = .idle then some (s.goto p (.wait op)) else none
  | .next => s.next p

def Reachable : State P → Prop :=
  Reach.Reachable (fun s => ∃ heap, s = create P heap) (fun s s' => ∃ p a, s.step p a = some s')

/-! ## The invariant -/

/-- The process holds the mutex. -/
def Pc.locks : Pc → Bool
  | .row _ _ | .free _ | .items _ | .unlock _ => true
  | _ => false

/-- The rows counted in `items` that a process accounts for: those of a push that is not yet posted,
or of a pop that has waited. -/
def Pc.filled : Pc → Nat
  | .lock .pop | .row .pop _ | .free .pop | .items .pop => 1
  | .unlock (.push _) | .post (.push _) => 1
  | _ => 0

/-- The rows not counted in `items` that a process accounts for. -/
def Pc.vacant : Pc → Nat
  | .lock (.push _) | .row (.push _) _ | .free (.push _) | .items (.push _) => 1
  | .unlock .pop | .post .pop => 1
  | _ => 0

/-- How far `free` is ahead of `items`. -/
def Pc.ahead : Pc → Int
  | .items op => op.change
  | _ => 0

/-- **What holds in every state**: every row is accounted for. -/
structure Inv [Fintype P] (s : State P) : Prop where
  mutex : Owns Pc.locks s.pc s.mutex
  filled : s.items = s.sem .full + ∑ p, ((s.pc p).filled : Int)
  vacant : maxItems = s.items + s.sem .empty + ∑ p, ((s.pc p).vacant : Int)
  free : s.items + s.free + ∑ p, (s.pc p).ahead = maxItems

variable [Fintype P] {s s' : State P} {p : P} {c : Pc}

omit [DecidableEq P] in
theorem Inv.create (heap : Int → UInt8) : Inv (create P heap) where
  mutex _ := iff_of_false nofun nofun
  filled := by simp [Wordstack.create, Pc.filled]
  vacant := by simp [Wordstack.create, Pc.vacant]
  free := by simp [Wordstack.create, Pc.ahead]

/-- A process goes on at `c`, and the rows stay accounted for. -/
theorem Inv.move (h : Inv s) (hpc : s'.pc = update s.pc p c)
    (hmutex : Passes Pc.locks p (s.pc p) c s.mutex s'.mutex)
    (hfilled : s'.items + (s.pc p).filled + s.sem .full = s.items + c.filled + s'.sem .full)
    (hvacant : s'.items + c.vacant + s'.sem .empty = s.items + (s.pc p).vacant + s.sem .empty)
    (hfree : s'.items + s'.free + c.ahead = s.items + s.free + (s.pc p).ahead) : Inv s' := by
  refine ⟨hpc ▸ h.mutex.passes hmutex, ?_, ?_, ?_⟩
  · have hsum := sum_update (mem_univ p) (fun _ c => (Pc.filled c : Int)) s.pc c
    have := h.filled
    rw [hpc]
    omega
  · have hsum := sum_update (mem_univ p) (fun _ c => (Pc.vacant c : Int)) s.pc c
    have := h.vacant
    rw [hpc]
    omega
  · have hsum := sum_update (mem_univ p) (fun _ c => Pc.ahead c) s.pc c
    have := h.free
    rw [hpc]
    omega

theorem Inv.next (h : Inv s) (hs : s.next p = some s') : Inv s' := by
  unfold State.next at hs
  split at hs
  · cases hs
  · next op hpc =>
    split at hs
    · next hpos =>
      cases hs
      refine h.move rfl (.keep (by rw [hpc]; rfl)) ?_ ?_ ?_ <;> cases op <;>
        simp_all [Pc.filled, Pc.vacant, Pc.ahead, Op.waits]
    · cases hs
  · next op hpc =>
    split at hs
    · next hfree =>
      cases hs
      refine h.move rfl (hfree ▸ .acquire rfl) ?_ ?_ ?_ <;> cases op <;>
        simp [hpc, Pc.filled, Pc.vacant, Pc.ahead]
    · cases hs
  · next op i hpc =>
    split at hs
    all_goals
      cases hs
      refine h.move rfl (.keep (by rw [hpc]; rfl)) ?_ ?_ ?_ <;> cases op <;>
        simp [hpc, Pc.filled, Pc.vacant, Pc.ahead]
  · next op hpc =>
    cases hs
    refine h.move rfl (.keep (by rw [hpc]; rfl)) ?_ ?_ ?_ <;> cases op <;>
      simp [hpc, Pc.filled, Pc.vacant, Pc.ahead, Op.change] <;> omega
  · next op hpc =>
    cases hs
    refine h.move rfl (.keep (by rw [hpc]; rfl)) ?_ ?_ ?_ <;> cases op <;>
      simp [hpc, Pc.filled, Pc.vacant, Pc.ahead, Op.change] <;> omega
  · next op hpc =>
    cases hs
    refine h.move rfl (.release (by rw [hpc]; rfl) rfl) ?_ ?_ ?_ <;> cases op <;>
      simp [hpc, Pc.filled, Pc.vacant, Pc.ahead]
  · next op hpc =>
    cases hs
    refine h.move rfl (.keep (by rw [hpc]; rfl)) ?_ ?_ ?_ <;> cases op <;>
      simp [hpc, Pc.filled, Pc.vacant, Pc.ahead, Op.posts] <;> omega

theorem Inv.reachable (h : Reachable s) : Inv s := by
  refine Reach.Reachable.invariant h ?_ ?_
  · rintro _ ⟨heap, rfl⟩
    exact Inv.create heap
  · rintro s s' hs ⟨p, a, ha⟩
    cases a with
    | call op =>
      simp only [State.step] at ha
      split at ha
      · next hpc =>
        cases ha
        refine hs.move rfl (.keep (by rw [hpc]; rfl)) ?_ ?_ ?_ <;>
          simp [hpc, Pc.filled, Pc.vacant, Pc.ahead]
      · cases ha
    | next => exact hs.next ha

omit [DecidableEq P] in
/-- The number of filled rows is never out of range. -/
theorem Inv.bounds (h : Inv s) : 0 ≤ s.items ∧ s.items ≤ maxItems := by
  have hfilled := h.filled
  have hvacant := h.vacant
  have hpos : 0 ≤ ∑ p, ((s.pc p).filled : Int) := sum_nonneg fun _ _ => Int.natCast_nonneg _
  have hpos' : 0 ≤ ∑ p, ((s.pc p).vacant : Int) := sum_nonneg fun _ _ => Int.natCast_nonneg _
  omega

omit [DecidableEq P] in
/-- A pop that has waited has a filled row. -/
theorem Inv.filled_pos (h : Inv s) (hp : (s.pc p).filled = 1) : 0 < s.items := by
  have hfilled := h.filled
  have hle : ((s.pc p).filled : Int) ≤ ∑ q, ((s.pc q).filled : Int) :=
    single_le_sum (fun _ _ => Int.natCast_nonneg _) (mem_univ p)
  omega

omit [DecidableEq P] in
/-- A push that has waited has a row that is not filled. -/
theorem Inv.vacant_pos (h : Inv s) (hp : (s.pc p).vacant = 1) : s.items < maxItems := by
  have hvacant := h.vacant
  have hle : ((s.pc p).vacant : Int) ≤ ∑ q, ((s.pc q).vacant : Int) :=
    single_le_sum (fun _ _ => Int.natCast_nonneg _) (mem_univ p)
  omega

omit [DecidableEq P] in
/-- While nobody holds the mutex, `free` and `items` agree. -/
theorem Inv.free_eq (h : Inv s) (hm : s.mutex = none) : s.items + s.free = maxItems := by
  have hzero : ∑ p, (s.pc p).ahead = 0 := sum_eq_zero fun p _ => by
    have hlock := h.mutex p
    rw [hm] at hlock
    cases hpc : s.pc p with
    | items op =>
      rw [hpc] at hlock
      cases hlock.mp rfl
    | _ => rfl
  have := h.free
  omega

/-- **The stack is synchronised**, for any number of processes: the counters agree whenever the mutex
is free, a push writes a row of a stack that is not full, and a pop one of a stack that is not
empty. -/
theorem stack_synchronised (h : Reachable s) :
    (s.mutex = none → s.items + s.free = maxItems ∧ 0 ≤ s.items ∧ s.items ≤ maxItems) ∧
    (∀ p op i, s.pc p = .row op i → 0 ≤ s.row op ∧ s.row op < maxItems) ∧
    (∀ p value i, s.pc p = .row (.push value) i → s.items < maxItems) ∧
    ∀ p i, s.pc p = .row .pop i → 0 < s.items := by
  have hi := Inv.reachable h
  have hb := hi.bounds
  have hpush : ∀ p value i, s.pc p = .row (.push value) i → s.items < maxItems :=
    fun p value i hp => hi.vacant_pos (by rw [hp]; rfl)
  have hpop : ∀ p i, s.pc p = .row .pop i → 0 < s.items :=
    fun p i hp => hi.filled_pos (by rw [hp]; rfl)
  refine ⟨fun hm => ⟨hi.free_eq hm, hb⟩, fun p op i hp => ?_, hpush, hpop⟩
  cases op with
  | push value =>
    have := hpush p value i hp
    exact ⟨hb.1, this⟩
  | pop =>
    have := hpop p i hp
    show 0 ≤ s.items - 1 ∧ s.items - 1 < maxItems
    omega

/-- One process pushes a word of one byte, and another one pops it. -/
def pushPop : List (Bool × Act) :=
  (true, .call (.push [97])) :: (false, .call .pop) :: List.replicate 8 (true, .next) ++
    List.replicate 2 (false, .next)

/-- The other process is about to clear the row. -/
def pushPopEnd : State Bool :=
  (run (fun s a => s.step a.1 a.2) (create Bool 0) pushPop).get (by decide +kernel)

theorem stack_synchronised_pushPop : Reachable pushPopEnd ∧ pushPopEnd.pc false = .row .pop 0 ∧
    0 ≤ pushPopEnd.row .pop ∧ pushPopEnd.row .pop < 15 := by
  have hreach : Reachable pushPopEnd :=
    reachable_of_run (fun _ a _ ha => ⟨a.1, a.2, ha⟩) (.init ⟨0, rfl⟩) (Option.some_get _).symm
  have hpc : pushPopEnd.pc false = .row .pop 0 := by decide +kernel
  exact ⟨hreach, hpc, (stack_synchronised hreach).2.1 false .pop 0 hpc⟩

end Laboratorio.Lab05.Wordstack
