import Laboratorio.Lib.Fifo
import Laboratorio.Lib.Reach

/-!
# Pipes (`xv6/pipe.c`, with `sleep`, `wakeup` and `kill` of `xv6/proc.c`)

Any number of processes read, write and close one pipe. The steps of a process lie between the points
where it acquires or releases `p->lock` and `ptable.lock`, and each byte is a step of its own, so that
the processes interleave wherever they can. `Job` is where a process is in `piperead`, `pipewrite` or
`pipeclose` while it has `p->lock`; `sleep` and `wakeup` are called with the job that follows.

A process that reads or writes has a descriptor of its end of the pipe, which it cannot close at the
same time. The `close` of the last descriptor of an end calls `pipeclose` (`fileclose` in
`xv6/file.c`).

`stored` and `removed` are the bytes that `pipewrite` has put into the pipe and that `piperead` has
taken out of it. `bytes_in_order` says that the pipe is a queue of bounded length, however often the
counters `nread` and `nwrite` wrap around, and that what is taken out is what the readers get.
-/

namespace Laboratorio.Xv6.Pipes

open Function Laboratorio.Fifo Laboratorio.Reach

/-! ## The data structure -/

def pipesize : Nat := 512

/-- The ends of a pipe. Readers sleep on `&p->nread`, the channel of their end, and writers on
`&p->nwrite`. -/
inductive End where
  | read
  | write
deriving DecidableEq, Repr

def End.other : End → End
  | .read => .write
  | .write => .read

/-- `struct pipe` without its lock. `isOpen` are `readopen` and `writeopen`. -/
structure Pipe where
  data : Nat → UInt8
  nread : UInt32
  nwrite : UInt32
  isOpen : End → Bool

/-- `p->nread == p->nwrite` -/
def Pipe.empty (p : Pipe) : Bool := p.nread == p.nwrite

/-- `p->nwrite == p->nread + PIPESIZE` -/
def Pipe.full (p : Pipe) : Bool := p.nwrite == p.nread + UInt32.ofNat pipesize

/-- `p->data[p->nwrite++ % PIPESIZE] = b` -/
def Pipe.put (p : Pipe) (b : UInt8) : Pipe :=
  { p with
    data := update p.data (p.nwrite.toNat % pipesize) b
    nwrite := p.nwrite + 1 }

/-- `p->data[p->nread % PIPESIZE]` -/
def Pipe.front (p : Pipe) : UInt8 := p.data (p.nread.toNat % pipesize)

/-- `p->nread++` -/
def Pipe.drop (p : Pipe) : Pipe := { p with nread := p.nread + 1 }

def Pipe.close (p : Pipe) (e : End) : Pipe := { p with isOpen := update p.isOpen e false }

/-! ## A queue -/

/-- The bytes that are in the pipe. -/
structure Pipe.Queue (p : Pipe) (q : List UInt8) : Prop where
  length : q.length ≤ pipesize
  counters : p.nwrite.toNat = (p.nread.toNat + q.length) % 2 ^ 32
  slots : Holds pipesize p.data p.nread.toNat q

section Queue

variable {p : Pipe} {q : List UInt8}

theorem Pipe.Queue.empty_iff (h : p.Queue q) : p.empty = true ↔ q = [] := by
  have hlen := h.length
  have hcount := h.counters
  have hlt := p.nread.toNat_lt
  rw [Pipe.empty, beq_iff_eq, ← UInt32.toNat_inj, ← List.length_eq_zero_iff]
  simp only [pipesize] at hlen
  omega

theorem Pipe.Queue.full_iff (h : p.Queue q) : p.full = true ↔ q.length = pipesize := by
  have hlen := h.length
  have hcount := h.counters
  have hlt := p.nread.toNat_lt
  have hsize : (UInt32.ofNat pipesize).toNat = 512 := rfl
  rw [Pipe.full, beq_iff_eq, ← UInt32.toNat_inj, UInt32.toNat_add, hsize]
  simp only [pipesize] at hlen ⊢
  omega

/-- A byte that is stored is the last one in the queue. -/
theorem Pipe.Queue.put (h : p.Queue q) (hf : p.full = false) (b : UInt8) :
    (p.put b).Queue (q ++ [b]) := by
  have hlt : q.length < pipesize :=
    lt_of_le_of_ne h.length fun heq => by simp [h.full_iff.mpr heq] at hf
  have hdvd : pipesize ∣ 2 ^ 32 := by decide
  refine ⟨by simpa using hlt, ?_, ?_⟩
  · have hcount := h.counters
    show (p.nwrite + 1).toNat = (p.nread.toNat + (q ++ [b]).length) % 2 ^ 32
    have hone : (1 : UInt32).toNat = 1 := rfl
    rw [UInt32.toNat_add, hone, List.length_append, List.length_singleton]
    omega
  · have hslot : p.nwrite.toNat % pipesize = (p.nread.toNat + q.length) % pipesize := by
      rw [h.counters, Nat.mod_mod_of_dvd _ hdvd]
    have hpush := h.slots.push hlt b
    rw [← hslot] at hpush
    exact hpush

/-- A byte that is removed is the first one in the queue. -/
theorem Pipe.Queue.drop (h : p.Queue q) (he : p.empty = false) :
    ∃ q', q = p.front :: q' ∧ p.drop.Queue q' := by
  cases q with
  | nil => simp [h.empty_iff.mpr rfl] at he
  | cons a q =>
    have hlen := h.length
    have hcount := h.counters
    have hone : (1 : UInt32).toNat = 1 := rfl
    refine ⟨q, congrArg (· :: q) h.slots.head.symm, ?_, ?_, ?_⟩
    · rw [List.length_cons] at hlen
      omega
    · show p.nwrite.toNat = ((p.nread + 1).toNat + q.length) % 2 ^ 32
      rw [List.length_cons] at hcount
      rw [UInt32.toNat_add, hone]
      omega
    · show Holds pipesize p.data (p.nread + 1).toNat q
      rw [UInt32.toNat_add, hone, holds_mod (by decide)]
      exact h.slots.pop

theorem Pipe.Queue.close (h : p.Queue q) (e : End) : (p.close e).Queue q :=
  ⟨h.length, h.counters, h.slots⟩

end Queue

/-! ## The processes -/

/-- What `piperead` with `n` bytes asked for and `pipewrite` of `n` bytes return. -/
inductive Result where
  | read (n : Nat) (got : List UInt8)
  | wrote (n : Nat)
  | failed (e : End)
deriving DecidableEq, Repr

/-- Where a process that has `p->lock` is. -/
inductive Job where
  /-- `piperead` of `n` bytes, at the `while` -/
  | read (n : Nat)
  /-- `piperead`, in the loop that copies -/
  | copy (n : Nat) (got : List UInt8)
  /-- `pipewrite`, at the start of a round with the bytes that are left -/
  | write (n : Nat) (left : List UInt8)
  /-- `pipewrite`, after the `wakeup` in the `while` -/
  | wait (n : Nat) (left : List UInt8)
  /-- `pipeclose` of an end -/
  | close (e : End)
  /-- `pipeclose`, after the `wakeup` -/
  | closed
  /-- before `release` and `return` -/
  | leave (r : Result)
deriving DecidableEq, Repr

/-- Where a process is in `sleep`. -/
inductive Stage where
  /-- before `acquire(&ptable.lock)`, with `p->lock` -/
  | calling
  /-- with both locks -/
  | locked
  /-- with `ptable.lock` -/
  | falling
  /-- `SLEEPING` -/
  | asleep
  /-- `RUNNABLE` -/
  | awake
  /-- after `sched`, with `ptable.lock` -/
  | resumed
  /-- before `acquire(lk)` -/
  | relock
deriving DecidableEq, Repr

/-- Where a process is. -/
inductive Pc where
  /-- outside of the pipe -/
  | idle
  /-- before `acquire(&p->lock)` -/
  | start (j : Job)
  /-- with `p->lock` -/
  | run (j : Job)
  /-- in `sleep` on the channel of an end -/
  | sleep (e : End) (stage : Stage) (j : Job)
  /-- in `wakeup` of the channel of an end, with or without `ptable.lock` -/
  | wakeup (e : End) (locked : Bool) (j : Job)
  /-- before `kfree` -/
  | free
deriving DecidableEq, Repr

/-- The pipe and the processes. `ref` are the references to the two files, `fds` the descriptors of
each process, and `freed` is how often the page was freed. -/
structure State (P : Type) where
  pipe : Pipe
  lock : Option P
  ptable : Option P
  killed : P → Bool
  pc : P → Pc
  ref : End → Nat
  fds : P → End → Nat
  freed : Nat
  stored : List UInt8
  removed : List UInt8

variable {P : Type} [DecidableEq P]

/-- After `sys_pipe` by process `p`. -/
def State.create (p : P) (data : Nat → UInt8) (killed : P → Bool) : State P where
  pipe := ⟨data, 0, 0, fun _ => true⟩
  lock := none
  ptable := none
  killed := killed
  pc _ := .idle
  ref _ := 1
  fds q _ := if q = p then 1 else 0
  freed := 0
  stored := []
  removed := []

/-- Process `p` goes on at `pc`. -/
@[simps] def State.goto (s : State P) (p : P) (pc : Pc) : State P :=
  { s with pc := update s.pc p pc }

/-- A process of `wakeup1`. -/
def Pc.wake (e : End) : Pc → Pc
  | .sleep e' .asleep j => if e' = e then .sleep e' .awake j else .sleep e' .asleep j
  | pc => pc

/-- `wakeup1` of the channel of an end -/
def State.wakeup1 (s : State P) (e : End) : State P := { s with pc := fun q => (s.pc q).wake e }

/-- The step of a process that has `p->lock`. -/
def State.run (s : State P) (p : P) : Job → State P
  | .read n =>
    if s.pipe.empty ∧ s.pipe.isOpen .write then
      if s.killed p then s.goto p (.run (.leave (.failed .read)))
      else s.goto p (.sleep .read .calling (.read n))
    else s.goto p (.run (.copy n []))
  | .copy n got =>
    if got.length < n ∧ s.pipe.empty = false then
      { s with pipe := s.pipe.drop, removed := s.removed ++ [s.pipe.front] }.goto p
        (.run (.copy n (got ++ [s.pipe.front])))
    else s.goto p (.wakeup .write false (.leave (.read n got)))
  | .write n [] => s.goto p (.wakeup .read false (.leave (.wrote n)))
  | .write n (b :: left) =>
    if s.pipe.full then
      if s.pipe.isOpen .read = false ∨ s.killed p then s.goto p (.run (.leave (.failed .write)))
      else s.goto p (.wakeup .read false (.wait n (b :: left)))
    else { s with pipe := s.pipe.put b, stored := s.stored ++ [b] }.goto p (.run (.write n left))
  | .wait n left => s.goto p (.sleep .write .calling (.write n left))
  | .close e => { s with pipe := s.pipe.close e }.goto p (.wakeup e.other false .closed)
  | .closed =>
    if s.pipe.isOpen .read = false ∧ s.pipe.isOpen .write = false then
      { s with lock := none }.goto p .free
    else { s with lock := none }.goto p .idle
  | .leave _ => { s with lock := none }.goto p .idle

/-- A step that needs a lock. -/
def whenFree (lock : Option P) (s : State P) : Option (State P) :=
  if lock = none then some s else none

/-- The next step of process `p`, if it can make one. -/
def State.next (s : State P) (p : P) : Option (State P) :=
  match s.pc p with
  | .idle => none
  | .start j => whenFree s.lock ({ s with lock := some p }.goto p (.run j))
  | .run j => some (s.run p j)
  | .sleep e .calling j => whenFree s.ptable ({ s with ptable := some p }.goto p (.sleep e .locked j))
  | .sleep e .locked j => some ({ s with lock := none }.goto p (.sleep e .falling j))
  | .sleep e .falling j => some ({ s with ptable := none }.goto p (.sleep e .asleep j))
  | .sleep _ .asleep _ => none
  | .sleep e .awake j => whenFree s.ptable ({ s with ptable := some p }.goto p (.sleep e .resumed j))
  | .sleep e .resumed j => some ({ s with ptable := none }.goto p (.sleep e .relock j))
  | .sleep _ .relock j => whenFree s.lock ({ s with lock := some p }.goto p (.run j))
  | .wakeup e false j => whenFree s.ptable ({ s with ptable := some p }.goto p (.wakeup e true j))
  | .wakeup e true j => some ({ s.wakeup1 e with ptable := none }.goto p (.run j))
  | .free => some ({ s with freed := s.freed + 1 }.goto p .idle)

/-- What a process does: its next step, a call, or it is killed. `share` gives process `q` another
descriptor of an end, by `dup` or `fork`. -/
inductive Act (P : Type) where
  | next
  | read (n : Nat)
  | write (bytes : List UInt8)
  | share (q : P) (e : End)
  | close (e : End)
  | kill

/-- Process `p` calls a function on a descriptor of its own. -/
def State.call (s : State P) (p : P) (e : End) (s' : State P) : Option (State P) :=
  if s.pc p = .idle ∧ 0 < s.fds p e then some s' else none

/-- Process `p` has `n` descriptors of an end. -/
def State.setFds (s : State P) (p : P) (e : End) (n : Nat) : State P :=
  { s with fds := update s.fds p (update (s.fds p) e n) }

/-- `fileclose` of a descriptor -/
def State.close (s : State P) (p : P) (e : End) : State P :=
  let s' := { s with ref := update s.ref e (s.ref e - 1) }.setFds p e (s.fds p e - 1)
  if 0 < s.ref e - 1 then s' else s'.goto p (.start (.close e))

/-- A step of process `p`, if it is possible. -/
def State.step (s : State P) (p : P) : Act P → Option (State P)
  | .next => s.next p
  | .read n => s.call p .read (s.goto p (.start (.read n)))
  | .write bytes => s.call p .write (s.goto p (.start (.write bytes.length bytes)))
  | .share q e =>
    if s.pc q = .idle then
      s.call p e ({ s with ref := update s.ref e (s.ref e + 1) }.setFds q e (s.fds q e + 1))
    else none
  | .close e => s.call p e (s.close p e)
  | .kill =>
    whenFree s.ptable { s with
      killed := update s.killed p true
      pc := update s.pc p ((s.pc p).wake .read |>.wake .write) }

/-- The states that are reached by steps that are all `ok`. -/
def Reachable (ok : State P → P → Act P → Prop) : State P → Prop :=
  Reach.Reachable (fun s => ∃ p data killed, s = State.create p data killed)
    (fun s s' => ∃ p a, ok s p a ∧ s.step p a = some s')

/-! ## What a step can do -/

/-- The process holds `p->lock`. -/
def Pc.locks : Pc → Bool
  | .run _ | .sleep _ .calling _ | .sleep _ .locked _ | .wakeup _ _ _ => true
  | _ => false

/-- The process holds `ptable.lock`. -/
def Pc.locksPtable : Pc → Bool
  | .sleep _ .locked _ | .sleep _ .falling _ | .sleep _ .resumed _ | .wakeup _ true _ => true
  | _ => false

/-- The tests of `piperead` and `pipewrite` that send a process to sleep. -/
def Pipe.blocks (p : Pipe) : End → Bool
  | .read => p.empty && p.isOpen .write
  | .write => p.full && p.isOpen .read

/-- The places where process `p` can go on when it changes nothing but locks. -/
inductive Follows (s : State P) (p : P) (a : Act P) : Pc → Pc → Prop
  | read {n : Nat} : 0 < s.fds p .read → Follows s p a .idle (.start (.read n))
  | write {bytes : List UInt8} : 0 < s.fds p .write →
      Follows s p a .idle (.start (.write bytes.length bytes))
  | start {j : Job} : Follows s p a (.start j) (.run j)
  | readKilled {n : Nat} : Follows s p a (.run (.read n)) (.run (.leave (.failed .read)))
  | readSleep {n : Nat} : s.pipe.blocks .read = true →
      Follows s p a (.run (.read n)) (.sleep .read .calling (.read n))
  | readCopy {n : Nat} : s.pipe.blocks .read = false →
      Follows s p a (.run (.read n)) (.run (.copy n []))
  | copied {n : Nat} {got : List UInt8} : ¬ (got.length < n ∧ s.pipe.empty = false) →
      Follows s p a (.run (.copy n got)) (.wakeup .write false (.leave (.read n got)))
  | wrote {n : Nat} : Follows s p a (.run (.write n [])) (.wakeup .read false (.leave (.wrote n)))
  | writeFails {n : Nat} {b : UInt8} {left : List UInt8} : a = .next → s.pipe.full = true →
      s.pipe.isOpen .read = false ∨ s.killed p = true →
      Follows s p a (.run (.write n (b :: left))) (.run (.leave (.failed .write)))
  | writeFull {n : Nat} {left : List UInt8} : s.pipe.blocks .write = true →
      Follows s p a (.run (.write n left)) (.wakeup .read false (.wait n left))
  | wait {n : Nat} {left : List UInt8} :
      Follows s p a (.run (.wait n left)) (.sleep .write .calling (.write n left))
  | closedLast : (∀ e, s.pipe.isOpen e = false) → Follows s p a (.run .closed) .free
  | closedFirst {e : End} : s.pipe.isOpen e = true → Follows s p a (.run .closed) .idle
  | leave {r : Result} : Follows s p a (.run (.leave r)) .idle
  | locked {e : End} {j : Job} : Follows s p a (.sleep e .calling j) (.sleep e .locked j)
  | falling {e : End} {j : Job} : Follows s p a (.sleep e .locked j) (.sleep e .falling j)
  | asleep {e : End} {j : Job} : Follows s p a (.sleep e .falling j) (.sleep e .asleep j)
  | resumed {e : End} {j : Job} : Follows s p a (.sleep e .awake j) (.sleep e .resumed j)
  | relock {e : End} {j : Job} : Follows s p a (.sleep e .resumed j) (.sleep e .relock j)
  | back {e : End} {j : Job} : Follows s p a (.sleep e .relock j) (.run j)
  | waking {e : End} {j : Job} : Follows s p a (.wakeup e false j) (.wakeup e true j)

/-- **What a step can do.** -/
inductive Effect (s : State P) (p : P) (a : Act P) : State P → Prop
  | move {c c' : Pc} {lock ptable : Option P} : s.pc p = c → Follows s p a c c' →
      Passes Pc.locks p c c' s.lock lock → Passes Pc.locksPtable p c c' s.ptable ptable →
      Effect s p a ({ s with lock := lock, ptable := ptable }.goto p c')
  | get {n : Nat} {got : List UInt8} : s.pc p = .run (.copy n got) → s.pipe.empty = false →
      Effect s p a
        ({ s with pipe := s.pipe.drop, removed := s.removed ++ [s.pipe.front] }.goto p
          (.run (.copy n (got ++ [s.pipe.front]))))
  | put {n : Nat} {b : UInt8} {left : List UInt8} : s.pc p = .run (.write n (b :: left)) →
      s.pipe.full = false → Effect s p a
        ({ s with pipe := s.pipe.put b, stored := s.stored ++ [b] }.goto p (.run (.write n left)))
  | closeEnd {e : End} : s.pc p = .run (.close e) →
      Effect s p a ({ s with pipe := s.pipe.close e }.goto p (.wakeup e.other false .closed))
  | wake {e : End} {j : Job} : s.pc p = .wakeup e true j →
      Effect s p a ({ s.wakeup1 e with ptable := none }.goto p (.run j))
  | kfree : s.pc p = .free → Effect s p a ({ s with freed := s.freed + 1 }.goto p .idle)
  | share {q : P} {e : End} : 0 < s.fds p e → Effect s p a
      ({ s with ref := update s.ref e (s.ref e + 1) }.setFds q e (s.fds q e + 1))
  | close {e : End} : s.pc p = .idle → 0 < s.fds p e → Effect s p a (s.close p e)
  | kill : s.ptable = none → Effect s p a { s with
      killed := update s.killed p true
      pc := update s.pc p ((s.pc p).wake .read |>.wake .write) }

variable {s s' : State P} {p : P} {a : Act P} {c c' : Pc}

omit [DecidableEq P] in
theorem whenFree_eq_some {lock : Option P} (h : whenFree lock s = some s') :
    lock = none ∧ s' = s := by
  unfold whenFree at h
  split at h
  · next hl => exact ⟨hl, (Option.some.inj h).symm⟩
  · cases h

/-- A step that only changes the place of a process. -/
theorem Effect.stay (hp : s.pc p = c) (hf : Follows s p a c c') (hl : c'.locks = c.locks)
    (ht : c'.locksPtable = c.locksPtable) : Effect s p a (s.goto p c') :=
  .move hp hf (.keep hl) (.keep ht)

theorem Effect.acquire (hp : s.pc p = c) (hf : Follows s p a c c') (hl : c'.locks = true)
    (ht : c'.locksPtable = c.locksPtable)
    (hs : whenFree s.lock ({ s with lock := some p }.goto p c') = some s') : Effect s p a s' := by
  obtain ⟨hfree, rfl⟩ := whenFree_eq_some hs
  exact .move hp hf (hfree ▸ .acquire hl) (.keep ht)

theorem Effect.acquirePtable (hp : s.pc p = c) (hf : Follows s p a c c') (hl : c'.locks = c.locks)
    (ht : c'.locksPtable = true)
    (hs : whenFree s.ptable ({ s with ptable := some p }.goto p c') = some s') : Effect s p a s' := by
  obtain ⟨hfree, rfl⟩ := whenFree_eq_some hs
  exact .move hp hf (.keep hl) (hfree ▸ .acquire ht)

theorem effect_run {j : Job} (hp : s.pc p = .run j) (ha : a = .next) : Effect s p a (s.run p j) := by
  cases j with
  | read n =>
    simp only [State.run]
    split
    · next hb =>
      split
      · exact .stay hp .readKilled rfl rfl
      · exact .stay hp (.readSleep (by simp [Pipe.blocks, hb])) rfl rfl
    · next hb => exact .stay hp (.readCopy (by simpa [Pipe.blocks] using hb)) rfl rfl
  | copy n got =>
    simp only [State.run]
    split
    · next hb => exact .get hp hb.2
    · next hb => exact .stay hp (.copied hb) rfl rfl
  | write n left =>
    cases left with
    | nil => exact .stay hp .wrote rfl rfl
    | cons b left =>
      simp only [State.run]
      split
      · next hfull =>
        split
        · next hb => exact .stay hp (.writeFails ha hfull hb) rfl rfl
        · next hb =>
          refine .stay hp (.writeFull ?_) rfl rfl
          simp only [not_or, Bool.not_eq_false] at hb
          simp [Pipe.blocks, hfull, hb.1]
      · next hfull => exact .put hp (by simpa using hfull)
  | wait n left => exact .stay hp .wait rfl rfl
  | close e => exact .closeEnd hp
  | closed =>
    simp only [State.run]
    split
    · next hb =>
      refine .move hp (.closedLast fun e => ?_) (.release rfl rfl) (.keep rfl)
      cases e with
      | read => exact hb.1
      | write => exact hb.2
    · next hb =>
      obtain ⟨e, he⟩ : ∃ e, s.pipe.isOpen e = true := by
        by_contra hno
        simp only [not_exists, Bool.not_eq_true] at hno
        exact hb ⟨hno .read, hno .write⟩
      exact .move hp (.closedFirst he) (.release rfl rfl) (.keep rfl)
  | leave r => exact .move hp .leave (.release rfl rfl) (.keep rfl)

theorem effect_next (h : s.next p = some s') (ha : a = .next) : Effect s p a s' := by
  unfold State.next at h
  split at h
  · cases h
  · next hp => exact .acquire hp .start rfl rfl h
  · next hp =>
    cases h
    exact effect_run hp ha
  · next hp => exact .acquirePtable hp .locked rfl rfl h
  · next hp =>
    cases h
    exact .move hp .falling (.release rfl rfl) (.keep rfl)
  · next hp =>
    cases h
    exact .move hp .asleep (.keep rfl) (.release rfl rfl)
  · cases h
  · next hp => exact .acquirePtable hp .resumed rfl rfl h
  · next hp =>
    cases h
    exact .move hp .relock (.keep rfl) (.release rfl rfl)
  · next hp => exact .acquire hp .back rfl rfl h
  · next hp => exact .acquirePtable hp .waking rfl rfl h
  · next hp =>
    cases h
    exact .wake hp
  · next hp =>
    cases h
    exact .kfree hp

theorem effect_step (h : s.step p a = some s') : Effect s p a s' := by
  have hcall : ∀ {e s₁}, s.call p e s₁ = some s' → s.pc p = .idle ∧ 0 < s.fds p e ∧ s₁ = s' := by
    intro e s₁ h
    unfold State.call at h
    split at h
    · next hc => exact ⟨hc.1, hc.2, Option.some.inj h⟩
    · cases h
  cases a with
  | next => exact effect_next h rfl
  | read n =>
    obtain ⟨hp, hfd, rfl⟩ := hcall h
    exact .stay hp (.read hfd) rfl rfl
  | write bytes =>
    obtain ⟨hp, hfd, rfl⟩ := hcall h
    exact .stay hp (.write hfd) rfl rfl
  | share q e =>
    simp only [State.step] at h
    split at h
    · obtain ⟨-, hfd, rfl⟩ := hcall h
      exact .share hfd
    · cases h
  | close e =>
    obtain ⟨hp, hfd, rfl⟩ := hcall h
    exact .close hp hfd
  | kill =>
    obtain ⟨hfree, rfl⟩ := whenFree_eq_some h
    exact .kill hfree

/-! ## Every byte once and in order -/

/-- What a process that has `p->lock` has seen of the pipe. -/
def Job.Ok (p : Pipe) : Job → Prop
  | .copy _ [] => p.blocks .read = false
  | .wait _ _ => p.blocks .write = true
  | .leave (.read n []) => 0 < n → p.empty = true ∧ p.isOpen .write = false
  | _ => True

/-- The job starts without a look at the pipe. -/
def Job.fresh : Job → Bool
  | .read _ | .write _ _ | .close _ => true
  | _ => false

def Result.uses : Result → End
  | .read _ _ => .read
  | .wrote _ => .write
  | .failed e => e

/-- The end of the pipe that a process reads or writes. -/
def Job.uses : Job → Option End
  | .read _ | .copy _ _ => some .read
  | .write _ _ | .wait _ _ => some .write
  | .leave r => some r.uses
  | .close _ | .closed => none

/-- What a process knows. -/
def Pc.Ok (p : Pipe) : Pc → Prop
  | .run j | .wakeup _ _ j => j.Ok p
  | .start j => j.fresh = true
  | .sleep e _ j => j.fresh = true ∧ j.uses = some e
  | .idle | .free => True

/-- **What holds in every state.** -/
structure Protocol (s : State P) : Prop where
  lock : Reach.Owns Pc.locks s.pc s.lock
  ptable : Reach.Owns Pc.locksPtable s.pc s.ptable
  jobs : ∀ p, (s.pc p).Ok s.pipe
  queue : ∃ unread, s.stored = s.removed ++ unread ∧ s.pipe.Queue unread

theorem Protocol.create (p : P) (data : Nat → UInt8) (killed : P → Bool) :
    Protocol (State.create p data killed) where
  lock _ := iff_of_false nofun nofun
  ptable _ := iff_of_false nofun nofun
  jobs _ := trivial
  queue := ⟨[], rfl, by decide, rfl, Holds.nil⟩

theorem Job.ok_of_fresh {j : Job} (h : j.fresh = true) (p : Pipe) : j.Ok p := by
  cases j with
  | read | write | close => trivial
  | _ => cases h

/-- What a process without `p->lock` knows does not depend on the pipe. -/
theorem Pc.Ok.unlocked {pipe pipe' : Pipe} (h : c.Ok pipe) (hc : c.locks = false) : c.Ok pipe' := by
  cases c with
  | run | wakeup => cases hc
  | _ => exact h

/-- Only a process that sleeps is woken. -/
theorem Pc.wake_cases (c : Pc) (e : End) :
    c.wake e = c ∨ ∃ j, c = .sleep e .asleep j ∧ c.wake e = .sleep e .awake j := by
  rcases c with _ | _ | _ | ⟨e', stage, j⟩ | _ | _
  case sleep =>
    cases stage with
    | asleep =>
      by_cases he : e' = e
      · subst he
        exact .inr ⟨j, rfl, if_pos rfl⟩
      · exact .inl (if_neg he)
    | _ => exact .inl rfl
  all_goals exact .inl rfl

theorem Pc.locks_wake (c : Pc) (e : End) : (c.wake e).locks = c.locks := by
  rcases c.wake_cases e with h | ⟨j, rfl, h⟩ <;> rw [h]
  rfl

theorem Pc.locksPtable_wake (c : Pc) (e : End) : (c.wake e).locksPtable = c.locksPtable := by
  rcases c.wake_cases e with h | ⟨j, rfl, h⟩ <;> rw [h]
  rfl

theorem Pc.Ok.wake {pipe : Pipe} (h : c.Ok pipe) (e : End) : (c.wake e).Ok pipe := by
  rcases c.wake_cases e with hw | ⟨j, rfl, hw⟩ <;> rw [hw] <;> exact h

omit [DecidableEq P] in
/-- A process goes on with what it knows. -/
theorem Follows.ok (h : Follows s p a c c') (hc : c.Ok s.pipe) : c'.Ok s.pipe := by
  cases h with
  | read | write => rfl
  | readSleep | wait => exact ⟨rfl, rfl⟩
  | locked | falling | asleep | resumed | relock | waking => exact hc
  | start => exact Job.ok_of_fresh hc _
  | back => exact Job.ok_of_fresh hc.1 _
  | readCopy hb | writeFull hb => exact hb
  | @copied n got hb =>
    cases got with
    | nil =>
      -- nothing was copied although there is room: the pipe is empty, and it is not waited for
      intro hn
      have hempty : s.pipe.empty = true := by
        by_contra hne
        exact hb ⟨hn, by simpa using hne⟩
      have hc : s.pipe.blocks .read = false := hc
      exact ⟨hempty, by simpa [Pipe.blocks, hempty] using hc⟩
    | cons => trivial
  | _ => trivial

/-- The process that has `p->lock` may change the pipe. -/
theorem Protocol.jobs_update (h : Protocol s) (hl : (s.pc p).locks = true) {pipe : Pipe}
    (hc : c.Ok pipe) (q : P) : (update s.pc p c q).Ok pipe := by
  rw [update_apply]
  split
  · exact hc
  · next hq =>
    refine (h.jobs q).unlocked ?_
    by_contra hlq
    exact hq (h.lock.unique (by simpa using hlq) hl)

/-- A process goes on without a change of the pipe. -/
theorem Protocol.goto (h : Protocol s) {lock ptable : Option P}
    (hl : Passes Pc.locks p (s.pc p) c s.lock lock)
    (ht : Passes Pc.locksPtable p (s.pc p) c s.ptable ptable) (hc : c.Ok s.pipe) :
    Protocol ({ s with lock := lock, ptable := ptable }.goto p c) := by
  refine ⟨h.lock.passes hl, h.ptable.passes ht, fun q => ?_, h.queue⟩
  rw [State.goto_pc, update_apply]
  split
  · exact hc
  · exact h.jobs q

theorem Protocol.effect (h : Protocol s) (he : Effect s p a s') : Protocol s' := by
  cases he with
  | move hp hf hl ht =>
    subst hp
    exact h.goto hl ht (hf.ok (h.jobs p))
  | @get n got hp hempty =>
    have hl : (s.pc p).locks = true := by rw [hp]; rfl
    obtain ⟨unread, hstored, hq⟩ := h.queue
    obtain ⟨rest, rfl, hrest⟩ := hq.drop hempty
    refine ⟨h.lock.passes (.keep hl.symm), h.ptable.passes (.keep (by rw [hp]; rfl)),
      h.jobs_update hl ?_, rest, ?_, hrest⟩
    · cases got <;> trivial
    · show s.stored = s.removed ++ [s.pipe.front] ++ rest
      rw [hstored, List.append_assoc]
      rfl
  | @put n b left hp hfull =>
    have hl : (s.pc p).locks = true := by rw [hp]; rfl
    obtain ⟨unread, hstored, hq⟩ := h.queue
    refine ⟨h.lock.passes (.keep hl.symm), h.ptable.passes (.keep (by rw [hp]; rfl)),
      h.jobs_update hl trivial, unread ++ [b], ?_, hq.put hfull b⟩
    show s.stored ++ [b] = s.removed ++ (unread ++ [b])
    rw [hstored, List.append_assoc]
  | @closeEnd e hp =>
    have hl : (s.pc p).locks = true := by rw [hp]; rfl
    obtain ⟨unread, hstored, hq⟩ := h.queue
    exact ⟨h.lock.passes (.keep hl.symm), h.ptable.passes (.keep (by rw [hp]; rfl)),
      h.jobs_update hl trivial, unread, hstored, hq.close e⟩
  | @wake e j hp =>
    have hwoken : Protocol { s.wakeup1 e with ptable := s.ptable } :=
      ⟨h.lock.congr fun q => (s.pc q).locks_wake e,
        h.ptable.congr fun q => (s.pc q).locksPtable_wake e, fun q => (h.jobs q).wake e, h.queue⟩
    have hself : (s.pc p).wake e = .wakeup e true j := by rw [hp]; rfl
    refine hwoken.goto (.keep ?_) (.release ?_ rfl) ?_
    · show Pc.locks (.run j) = ((s.pc p).wake e).locks
      rw [hself]
      rfl
    · show ((s.pc p).wake e).locksPtable = true
      rw [hself]
      rfl
    · have := h.jobs p
      rwa [hp] at this
  | kfree hp =>
    have hidle := h.goto (p := p) (c := .idle) (.keep (by rw [hp]; rfl)) (.keep (by rw [hp]; rfl))
      trivial
    exact ⟨hidle.lock, hidle.ptable, hidle.jobs, hidle.queue⟩
  | share => exact ⟨h.lock, h.ptable, h.jobs, h.queue⟩
  | @close e hp hfd =>
    unfold State.close
    split
    · exact ⟨h.lock, h.ptable, h.jobs, h.queue⟩
    · have hstart := h.goto (p := p) (c := .start (.close e)) (.keep (by rw [hp]; rfl))
        (.keep (by rw [hp]; rfl)) rfl
      exact ⟨hstart.lock, hstart.ptable, hstart.jobs, hstart.queue⟩
  | kill =>
    have hwoken := h.goto (p := p) (.keep (by rw [Pc.locks_wake, Pc.locks_wake]))
      (.keep (by rw [Pc.locksPtable_wake, Pc.locksPtable_wake]))
      (((h.jobs p).wake .read).wake .write)
    exact ⟨hwoken.lock, hwoken.ptable, hwoken.jobs, hwoken.queue⟩

theorem Protocol.reachable {ok : State P → P → Act P → Prop} (h : Reachable ok s) : Protocol s := by
  refine Reach.Reachable.invariant h ?_ ?_
  · rintro _ ⟨p, data, killed, rfl⟩
    exact Protocol.create p data killed
  · rintro s s' hs ⟨p, a, -, ha⟩
    exact hs.effect (effect_step ha)

/-! ## What the readers get -/

/-- The bytes that a `piperead` has copied. -/
def Job.got : Job → List UInt8
  | .copy _ got | .leave (.read _ got) => got
  | _ => []

def Pc.got : Pc → List UInt8
  | .start j | .run j | .sleep _ _ j | .wakeup _ _ j => j.got
  | .idle | .free => []

theorem Pc.got_wake (c : Pc) (e : End) : (c.wake e).got = c.got := by
  rcases c.wake_cases e with h | ⟨j, rfl, h⟩ <;> rw [h]
  rfl

/-- A process without `p->lock` has copied nothing. -/
theorem Pc.Ok.got {pipe : Pipe} (h : c.Ok pipe) (hc : c.locks = false) : c.got = [] := by
  have hfresh : ∀ {j : Job}, j.fresh = true → j.got = [] := by
    rintro (_ | _ | _ | _ | _ | _ | _) hj <;> first | rfl | cases hj
  cases c with
  | run | wakeup => cases hc
  | start => exact hfresh h
  | sleep => exact hfresh h.1
  | idle | free => rfl

omit [DecidableEq P] in
theorem Follows.got (h : Follows s p a c c') : c'.got = c.got ∨ c'.got = [] := by
  cases h <;> first | exact .inl rfl | exact .inr rfl

/-- Every process that has copied bytes has the latest ones that were removed. -/
def State.Latest (s : State P) : Prop := ∀ p, (s.pc p).got <:+ s.removed

theorem State.Latest.goto (h : s.Latest) (hc : c.got <:+ s.removed) : (s.goto p c).Latest := by
  intro q
  rw [State.goto_pc, update_apply]
  split
  · exact hc
  · exact h q

theorem State.Latest.effect (h : s.Latest) (hpr : Protocol s) (he : Effect s p a s') :
    s'.Latest := by
  cases he with
  | move hp hf =>
    refine State.Latest.goto h ?_
    rcases hf.got with hgot | hgot <;> rw [hgot]
    · exact hp ▸ h p
    · exact List.nil_suffix
  | @get n got hp hempty =>
    have hl : (s.pc p).locks = true := by rw [hp]; rfl
    intro q
    rw [State.goto_pc, update_apply]
    split
    · have hgot : got <:+ s.removed := by
        have := h p
        rwa [hp] at this
      obtain ⟨before, hbefore⟩ := hgot
      exact ⟨before, by rw [← hbefore, List.append_assoc]; rfl⟩
    · next hq =>
      have hun : (s.pc q).locks = false := by
        by_contra hlq
        exact hq (hpr.lock.unique (by simpa using hlq) hl)
      rw [(hpr.jobs q).got hun]
      exact List.nil_suffix
  | @wake e j hp =>
    have hwoken : ({ s.wakeup1 e with ptable := none } : State P).Latest := fun q => by
      rw [show ({ s.wakeup1 e with ptable := none } : State P).pc q = (s.pc q).wake e from rfl,
        Pc.got_wake]
      exact h q
    refine hwoken.goto ?_
    have := h p
    rwa [hp] at this
  | share => exact h
  | close =>
    unfold State.close
    split
    · exact h
    · exact State.Latest.goto h List.nil_suffix
  | kill =>
    refine State.Latest.goto h ?_
    rw [Pc.got_wake, Pc.got_wake]
    exact h p
  | put | closeEnd | kfree => exact State.Latest.goto h List.nil_suffix

theorem State.Latest.reachable {ok : State P → P → Act P → Prop} (h : Reachable ok s) :
    s.Latest := by
  refine (Reach.Reachable.invariant (I := fun s => Protocol s ∧ s.Latest) h ?_ ?_).2
  · rintro _ ⟨p, data, killed, rfl⟩
    exact ⟨Protocol.create p data killed, fun _ => List.nil_suffix⟩
  · rintro s s' ⟨hpr, hs⟩ ⟨p, a, -, ha⟩
    exact ⟨hpr.effect (effect_step ha), hs.effect hpr (effect_step ha)⟩

/-- A byte that is removed is one that the process gets. -/
theorem Effect.removed (h : Effect s p a s') : s'.removed = s.removed ∨
    ∃ n got b, s.pc p = .run (.copy n got) ∧ s'.pc p = .run (.copy n (got ++ [b])) ∧
      s'.removed = s.removed ++ [b] := by
  cases h with
  | @get n got hp => exact .inr ⟨n, got, _, hp, by rw [State.goto_pc, update_self], rfl⟩
  | @close e =>
    unfold State.close
    split <;> exact .inl rfl
  | _ => exact .inl rfl

/-- **Pipes deliver every byte once and in order**: what is read is an initial part of what is
written, at most `PIPESIZE` bytes are unread, and a read returns nothing only at the end of what is
written. A byte is taken out by the reader that gets it, and a read returns the latest ones. -/
theorem bytes_in_order (h : Reachable (fun _ _ _ => True) s) :
    (∃ unread, s.stored = s.removed ++ unread ∧ unread.length ≤ pipesize) ∧
    (∀ p n, 0 < n → s.pc p = .run (.leave (.read n [])) →
      s.removed = s.stored ∧ s.pipe.isOpen .write = false) ∧
    (∀ p n got, s.pc p = .run (.leave (.read n got)) → got <:+ s.removed) ∧
    ∀ p a s', s.step p a = some s' → s'.removed = s.removed ∨
      ∃ n got b, s.pc p = .run (.copy n got) ∧ s'.pc p = .run (.copy n (got ++ [b])) ∧
        s'.removed = s.removed ++ [b] := by
  have hp := Protocol.reachable h
  obtain ⟨unread, hstored, hq⟩ := hp.queue
  refine ⟨⟨unread, hstored, hq.length⟩, fun p n hn hpc => ?_, fun p n got hpc => ?_,
    fun p a s' hs => (effect_step hs).removed⟩
  · have hok := hp.jobs p
    rw [hpc] at hok
    obtain ⟨hempty, hclosed⟩ := hok hn
    have hnil := hq.empty_iff.mp hempty
    exact ⟨by rw [hstored, hnil, List.append_nil], hclosed⟩
  · have := State.Latest.reachable h p
    rwa [hpc] at this

/-- One process writes three bytes, and another one reads two of them. -/
def threeBytes : List (Bool × Act Bool) :=
  [(true, .share false .read), (true, .write [1, 2, 3])] ++ List.replicate 8 (true, .next) ++
    (false, .read 2) :: List.replicate 7 (false, .next)

/-- The end of `threeBytes`. -/
def threeBytesEnd : State Bool :=
  (run (fun s a => s.step a.1 a.2) (State.create true 0 fun _ => false) threeBytes).get
    (by decide +kernel)

theorem bytes_in_order_threeBytes : Reachable (fun _ _ _ => True) threeBytesEnd ∧
    threeBytesEnd.pc false = .run (.leave (.read 2 [1, 2])) ∧ [1, 2] <:+ threeBytesEnd.removed ∧
    threeBytesEnd.removed = [1, 2] ∧
    ∃ unread, threeBytesEnd.stored = [1, 2] ++ unread ∧ unread.length ≤ 512 := by
  have hreach : Reachable (fun _ _ _ => True) threeBytesEnd :=
    reachable_of_run (fun _ a _ ha => ⟨a.1, a.2, trivial, ha⟩) (.init ⟨true, _, _, rfl⟩)
      (Option.some_get _).symm
  have hpc : threeBytesEnd.pc false = .run (.leave (.read 2 [1, 2])) := by decide +kernel
  have hremoved : threeBytesEnd.removed = [1, 2] := by decide +kernel
  obtain ⟨hqueue, -, hgot, -⟩ := bytes_in_order hreach
  exact ⟨hreach, hpc, hgot false 2 [1, 2] hpc, hremoved, hremoved ▸ hqueue⟩

end Laboratorio.Xv6.Pipes
