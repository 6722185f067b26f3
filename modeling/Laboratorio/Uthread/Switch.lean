import Laboratorio.Lib.Memory
import Laboratorio.Uthread.Table

/-!
# The context switch (`xv6/uthread_switch.S`)

The library together with the processor and the memory: `thread_create` builds the first frame of a
thread, and `thread_switch` is executed instruction by instruction. A thread is a `struct thread` in
the array `all_thread`: the saved stack pointer at offset 0, the stack at offset 4, and behind it the
state. The states and the two pointers are those of the table of threads, and `Machine.table_op`
says that the machine changes them as the table's functions do.

Between calls a thread computes: it changes registers and memory as it likes, but of `all_thread` it
writes only its own stack, and at its calls of `thread_switch` the stack pointer is inside that stack,
with room for the registers. `main` has its stack elsewhere. A `Trace` records with which registers
and memory each thread called `thread_switch` last, or with which function it was created.
-/

namespace Laboratorio.Uthread

open Function Laboratorio.Bytes Laboratorio.Memory Laboratorio.Reach Laboratorio.Scan

/-! ## The machine -/

/-- `STACK_SIZE` -/
abbrev stackSize : Nat := 8192

/-- `sizeof (struct thread)` -/
abbrev sizeofThread : Nat := 4 + stackSize + 4

/-- Where `all_thread` is in memory. A `struct thread` right behind it would still fit. -/
structure Layout where
  base : Nat
  fits : base + sizeofThread * (maxThread + 1) ≤ 2 ^ 32

namespace Layout

variable (l : Layout)

/-- `&all_thread[i]`, which is also the address of its `sp`. -/
def thread (i : Nat) : Nat := l.base + sizeofThread * i

/-- `all_thread[i].stack` -/
def stack (i : Nat) : Nat := l.thread i + 4

/-- `all_thread[i].stack + STACK_SIZE` -/
def top (i : Nat) : Nat := l.stack i + stackSize

theorem thread_eq (i : Nat) : l.thread i = l.base + 8200 * i := by
  rw [thread, show sizeofThread = 8200 from rfl]

theorem stack_eq (i : Nat) : l.stack i = l.thread i + 4 := rfl

theorem top_eq (i : Nat) : l.top i = l.thread i + 8196 := by
  have hsize : stackSize = 8192 := rfl
  simp only [top, stack_eq]
  omega

end Layout

/-- The registers. -/
structure Regs where
  eax : UInt32
  ebx : UInt32
  ecx : UInt32
  edx : UInt32
  esp : UInt32
  ebp : UInt32
  esi : UInt32
  edi : UInt32
  eip : UInt32

structure Machine where
  table : Table
  cpu : Regs
  mem : Mem

/-- What `pusha` pushes. -/
def Regs.frame (r : Regs) : List UInt32 :=
  [r.eax, r.ecx, r.edx, r.ebx, r.esp, r.ebp, r.esi, r.edi]

namespace Machine

def pusha (m : Machine) : Machine :=
  { m with
    mem := pushAll m.cpu.frame m.cpu.esp m.mem
    cpu := { m.cpu with esp := m.cpu.esp - 32 } }

/-- The word at an offset from the stack pointer. -/
def word (m : Machine) (off : UInt32) : UInt32 := load u32 (m.cpu.esp + off).toNat m.mem

/-- The word for `esp` is skipped. -/
def popa (m : Machine) : Machine :=
  { m with
    cpu := {
      edi := m.word 0
      esi := m.word 4
      ebp := m.word 8
      ebx := m.word 16
      edx := m.word 20
      ecx := m.word 24
      eax := m.word 28
      esp := m.cpu.esp + 32
      eip := m.cpu.eip } }

def ret (m : Machine) : Machine :=
  { m with cpu := { m.cpu with eip := m.word 0, esp := m.cpu.esp + 4 } }

variable (l : Layout)

/-- `thread_switch` -/
def threadSwitch (m : Machine) : Except Stop Machine :=
  match m.table.next with
  | none => .error .nullPointer
  | some t =>
    let m := m.pusha
    -- movl current_thread, %eax; movl %esp, (%eax)
    let m := { m with
      cpu := { m.cpu with eax := .ofNat (l.thread m.table.current) }
      mem := store u32 (l.thread m.table.current) m.cpu.esp m.mem }
    -- movl next_thread, %eax; movl (%eax), %esp
    let m := { m with
      cpu := { m.cpu with eax := .ofNat (l.thread t), esp := load u32 (l.thread t) m.mem } }
    -- movl %eax, current_thread; movl $0x0, next_thread
    let m := { m with table := { m.table with current := t, next := none } }
    .ok m.popa.ret

/-- `thread_schedule` -/
def threadSchedule (m : Machine) : Except Stop Machine :=
  match m.table.choose with
  | none => .error .exit
  | some t =>
    if m.table.current ≠ t then
      { m with table := { m.table with next := some t }.setState t .running }.threadSwitch l
    else .ok { m with table := { m.table with next := none } }

/-- The memory after `thread_create` has prepared the `i`-th thread. -/
def firstFrame (m : Mem) (i : Nat) (func : UInt32) : Mem :=
  let m := store u32 (l.thread i) (.ofNat (l.top i)) m
  let m := store u32 (l.thread i) (load u32 (l.thread i) m - 4) m
  let m := store u32 (load u32 (l.thread i) m).toNat func m
  store u32 (l.thread i) (load u32 (l.thread i) m - 32) m

/-- `thread_create` -/
def threadCreate (m : Machine) (func : UInt32) : Machine :=
  { m with
    table := m.table.threadCreate
    mem := match m.table.freeSlot with
      | some t => firstFrame l m.mem t func
      -- behind the table the `state` that becomes `RUNNABLE` is a word of memory, too
      | none => store u32 (l.top maxThread) 2 (firstFrame l m.mem maxThread func) }

/-- `thread_yield` -/
def threadYield (m : Machine) : Except Stop Machine :=
  { m with table := m.table.setState m.table.current .runnable }.threadSchedule l

/-- `thread_exit` -/
def threadExit (m : Machine) : Except Stop Machine :=
  { m with table := m.table.setState m.table.current .free }.threadSchedule l

end Machine

/-- The calls of the library, with their arguments. -/
inductive Op where
  | create (func : UInt32)
  | schedule
  | yield
  | exit

def Op.call : Op → Call
  | .create _ => .create
  | .schedule => .schedule
  | .yield => .yield
  | .exit => .exit

variable {l : Layout} {t : Fin maxThread} {m : Machine}

/-- What a call makes of the machine. -/
def Machine.op (l : Layout) (m : Machine) : Op → Except Stop Machine
  | .create func => .ok (m.threadCreate l func)
  | .schedule => m.threadSchedule l
  | .yield => m.threadYield l
  | .exit => m.threadExit l

theorem Machine.table_threadSwitch (m : Machine) :
    (m.threadSwitch l).map Machine.table = m.table.threadSwitch := by
  unfold Machine.threadSwitch Table.threadSwitch
  cases m.table.next with
  | none => rfl
  | some t => rfl

theorem Machine.table_threadSchedule (m : Machine) :
    (m.threadSchedule l).map Machine.table = m.table.threadSchedule := by
  unfold Machine.threadSchedule Table.threadSchedule
  cases m.table.choose with
  | none => rfl
  | some t =>
    simp only
    split
    · exact Machine.table_threadSwitch _
    · rfl

/-- **The machine runs the table of threads.** -/
theorem Machine.table_op (m : Machine) (op : Op) :
    (m.op l op).map Machine.table = m.table.call op.call := by
  cases op with
  | create func => rfl
  | schedule => exact m.table_threadSchedule
  | yield => exact Machine.table_threadSchedule _
  | exit => exact Machine.table_threadSchedule _

/-! ## Runs -/

/-- How a thread that does not run came to be so: it was created and has not run yet, or it has
called `thread_switch`. -/
inductive Origin where
  | created (func : UInt32)
  | switched (cpu : Regs) (mem : Mem)

/-- A machine with the origin of the threads that do not run. -/
structure Trace where
  machine : Machine
  origin : Fin maxThread → Option Origin

/-- The part of `all_thread` that a thread may write itself: its stack. `main` has none there. -/
def Layout.Own (l : Layout) (t : Fin maxThread) (a : Nat) : Prop :=
  t ≠ 0 ∧ l.stack t ≤ a ∧ a < l.top t

/-- The stack pointer of a thread at a call of `thread_switch`: the return address and the registers
that will be pushed are in its stack. -/
def Layout.Room (l : Layout) (t : Fin maxThread) (esp : UInt32) : Prop :=
  l.stack t + 32 ≤ esp.toNat ∧ esp.toNat + 4 ≤ l.top t

/-- The same for `main`, whose stack is not part of `all_thread`. -/
def Layout.RoomMain (l : Layout) (esp : UInt32) : Prop :=
  32 ≤ esp.toNat ∧ (esp.toNat + 4 ≤ l.base ∨ l.thread maxThread + 32 ≤ esp.toNat)

/-- `main` creates threads and calls `thread_schedule`; the threads create threads, yield and
exit. -/
def Machine.Calls (l : Layout) (m : Machine) : Op → Prop
  | .create _ => True
  | .schedule => m.table.current = 0 ∧ l.RoomMain m.cpu.esp
  | .yield => m.table.current ≠ 0 ∧ l.Room m.table.current m.cpu.esp
  | .exit => m.table.current ≠ 0 ∧ l.Room m.table.current m.cpu.esp

/-- The origins after `thread_schedule` has led from `m` to `m'`. -/
def Machine.originAfter (m m' : Machine) (o : Fin maxThread → Option Origin) :
    Fin maxThread → Option Origin :=
  if m'.table.current = m.table.current then o
  else update o m.table.current (some (.switched m.cpu m.mem))

/-- The origins after a call. -/
def Trace.originAfter (s : Trace) (m' : Machine) : Op → Fin maxThread → Option Origin
  | .create func =>
    match s.machine.table.freeSlot with
    | some t => update s.origin t (some (.created func))
    | none => s.origin
  | _ => s.machine.originAfter m' s.origin

/-- The thread that runs computes, or makes a call. -/
inductive Trace.Step (l : Layout) : Trace → Trace → Prop
  | compute {s : Trace} (cpu : Regs) (mem : Mem) :
      (∀ a, l.base ≤ a → a < l.thread maxThread → ¬l.Own s.machine.table.current a →
        mem a = s.machine.mem a) →
      Step l s { s with machine := { s.machine with cpu := cpu, mem := mem } }
  | op {s : Trace} {m' : Machine} (op : Op) : s.machine.Calls l op → s.machine.op l op = .ok m' →
      Step l s ⟨m', s.originAfter m' op⟩

/-- After `thread_init`, with any registers and memory. -/
def Trace.Init (s : Trace) : Prop := s.machine.table = .threadInit ∧ s.origin = fun _ => none

/-! ## What is saved -/

/-- What the memory holds of a thread that does not run. -/
def Saved (l : Layout) (mem : Mem) (t : Fin maxThread) : Option Origin → Prop
  | none => False
  | some (.created func) =>
    load u32 (l.thread t) mem = .ofNat (l.top t - 36) ∧ load u32 (l.top t - 4) mem = func
  | some (.switched cpu mem₀) =>
    l.Room t cpu.esp ∧ load u32 (l.thread t) mem = cpu.esp - 32 ∧
    (∀ i (hi : i < cpu.frame.length),
      load u32 (cpu.esp.toNat - 4 * (i + 1)) mem = cpu.frame.get ⟨i, hi⟩) ∧
    ∀ a, l.Own t a → a + 32 < cpu.esp.toNat ∨ cpu.esp.toNat ≤ a → mem a = mem₀ a

/-- What is saved is in the `struct thread`. -/
theorem Saved.congr {mem mem' : Mem} {o : Option Origin} (h : Saved l mem t o)
    (hmem : ∀ a, l.thread t ≤ a → a < l.top t → mem' a = mem a) : Saved l mem' t o := by
  have hsize : u32.size = 4 := rfl
  have hload : ∀ a, l.thread t ≤ a → a + 4 ≤ l.top t → load u32 a mem' = load u32 a mem :=
    fun a ha ha' => load_congr fun i hi hi' => hmem i (by omega) (by omega)
  have htop := l.top_eq t
  match o, h with
  | some (.created func), ⟨hsp, hfunc⟩ =>
    exact ⟨(hload _ le_rfl (by omega)).trans hsp, (hload _ (by omega) (by omega)).trans hfunc⟩
  | some (.switched cpu mem₀), ⟨hroom, hsp, hframe, hrest⟩ =>
    obtain ⟨hlo, hhi⟩ := hroom
    have hstack := l.stack_eq t
    refine ⟨⟨hlo, hhi⟩, (hload _ le_rfl (by omega)).trans hsp, fun i hi => ?_, fun a ha hout => ?_⟩
    · have : cpu.frame.length = 8 := rfl
      rw [← hframe i hi]
      exact hload _ (by omega) (by omega)
    · rw [← hrest a ha hout]
      exact hmem a (by have := ha.2.1; omega) ha.2.2

/-- Two threads have no address in common. -/
theorem Layout.thread_disjoint {i j a : Nat} (hij : i ≠ j) (hi : l.thread i ≤ a ∧ a < l.top i) :
    a < l.thread j ∨ l.top j ≤ a := by
  simp only [Layout.top_eq, Layout.thread_eq] at hi ⊢
  omega

theorem Layout.top_lt {i : Nat} (hi : i ≤ maxThread) : l.top i < 2 ^ 32 := by
  have hfits : l.base + 8200 * 9 ≤ 2 ^ 32 := l.fits
  have hi : i ≤ 8 := hi
  simp only [Layout.top_eq, Layout.thread_eq]
  omega

/-- A thread of `all_thread` is inside of it. -/
theorem Layout.mem_table {a : Nat} (ha : l.thread t ≤ a ∧ a < l.top t) :
    l.base ≤ a ∧ a < l.thread maxThread := by
  have ht : (t : Nat) < 8 := t.isLt
  simp only [Layout.top_eq, Layout.thread_eq] at ha ⊢
  omega

/-! ## `thread_create` -/

/-- The first frame of a thread. -/
theorem firstFrame_saved (mem : Mem) (t : Fin maxThread) (func : UInt32) :
    Saved l (Machine.firstFrame l mem t func) t (some (.created func)) := by
  have hlt : l.top t < 2 ^ 32 := Layout.top_lt t.isLt.le
  have htop := l.top_eq t
  have hsize : u32.size = 4 := rfl
  have htop' : (UInt32.ofNat (l.top t)).toNat = l.top t := UInt32.toNat_ofNat_of_lt' hlt
  have hret : (UInt32.ofNat (l.top t) - 4).toNat = l.top t - 4 :=
    (toNat_sub_ofNat (n := 4) (by decide) (by omega)).trans (by rw [htop'])
  have hsp : UInt32.ofNat (l.top t) - 4 - 32 = .ofNat (l.top t - 36) := by
    apply UInt32.toNat_inj.mp
    rw [UInt32.toNat_ofNat_of_lt' (show l.top t - 36 < 2 ^ 32 by omega)]
    exact (toNat_sub_ofNat (n := 32) (by decide) (by omega)).trans (by omega)
  unfold Machine.firstFrame
  simp only [load_store, hret]
  rw [load_store_of_disjoint (by omega), load_store, hsp]
  exact ⟨load_store, by rw [load_store_of_disjoint (by omega), load_store]⟩

/-- `thread_create` writes to one `struct thread` only. -/
theorem firstFrame_of_notMem {mem : Mem} {i a : Nat} {func : UInt32} (hi : i ≤ maxThread)
    (ha : a < l.thread i ∨ l.top i ≤ a) : Machine.firstFrame l mem i func a = mem a := by
  have hlt : l.top i < 2 ^ 32 := Layout.top_lt hi
  have htop := l.top_eq i
  have hsize : u32.size = 4 := rfl
  have htop' : (UInt32.ofNat (l.top i)).toNat = l.top i := UInt32.toNat_ofNat_of_lt' hlt
  have hret : (UInt32.ofNat (l.top i) - 4).toNat = l.top i - 4 :=
    (toNat_sub_ofNat (n := 4) (by decide) (by omega)).trans (by rw [htop'])
  unfold Machine.firstFrame
  simp only [load_store, hret]
  rw [store_of_notMem (by omega), store_of_notMem (by omega), store_of_notMem (by omega),
    store_of_notMem (by omega)]

/-! ## `thread_switch` -/

/-- The memory after `thread_switch` has saved the registers and the stack pointer. -/
def Machine.savedMem (l : Layout) (m : Machine) : Mem :=
  store u32 (l.thread m.table.current) (m.cpu.esp - 32) (pushAll m.cpu.frame m.cpu.esp m.mem)

/-- The registers at the end of `thread_switch`, before `popa`. -/
def Machine.nextRegs (l : Layout) (m : Machine) (t : Fin maxThread) : Regs :=
  { m.cpu with eax := .ofNat (l.thread t), esp := load u32 (l.thread t) (m.savedMem l) }

theorem Machine.threadSwitch_eq (ht : m.table.next = some t) :
    m.threadSwitch l = .ok (Machine.mk { m.table with current := t, next := none } (m.nextRegs l t)
      (m.savedMem l)).popa.ret := by
  simp only [Machine.threadSwitch, ht, Machine.savedMem, Machine.nextRegs, Machine.pusha]

/-- Either `thread_schedule` goes on with the current thread, or it switches to another. -/
theorem Machine.threadSchedule_ok {m' : Machine} (h : m.threadSchedule l = .ok m') :
    ∃ t, m.table.choose = some t ∧
      (t = m.table.current ∧ m' = { m with table := { m.table with next := none } } ∨
        t ≠ m.table.current ∧ m' = (Machine.mk
          { m.table.setState t .running with current := t, next := none } (m.nextRegs l t)
          (m.savedMem l)).popa.ret) := by
  unfold Machine.threadSchedule at h
  split at h
  · cases h
  · next t ht =>
    refine ⟨t, ht, ?_⟩
    split at h
    · next hne =>
      rw [Machine.threadSwitch_eq (t := t) rfl] at h
      exact .inr ⟨Ne.symm hne, (Except.ok.inj h).symm⟩
    · next he => exact .inl ⟨(not_not.mp he).symm, (Except.ok.inj h).symm⟩

/-- The threads that do not run stay as they are. -/
theorem Machine.savedMem_of_ne (ht : t ≠ m.table.current)
    (hroom : l.Room m.table.current m.cpu.esp ∨ l.RoomMain m.cpu.esp) {a : Nat}
    (ha : l.thread t ≤ a ∧ a < l.top t) : m.savedMem l a = m.mem a := by
  have hne : (t : Nat) ≠ m.table.current := fun e => ht (Fin.ext e)
  have hdisjoint := Layout.thread_disjoint hne ha
  have htop := l.top_eq m.table.current
  have hstack := l.stack_eq m.table.current
  have hsize : u32.size = 4 := rfl
  have hlen : m.cpu.frame.length = 8 := rfl
  have htable := Layout.mem_table ha
  unfold Machine.savedMem
  rw [store_of_notMem (by omega)]
  rcases hroom with ⟨hlo, hhi⟩ | ⟨hlo, hout⟩
  · exact pushAll_of_notMem (by omega) (by omega)
  · exact pushAll_of_notMem (by omega) (by omega)

/-- `thread_switch` saves the current thread. -/
theorem Machine.savedMem_saved (hroom : l.Room m.table.current m.cpu.esp) :
    Saved l (m.savedMem l) m.table.current (some (.switched m.cpu m.mem)) := by
  obtain ⟨hlo, hhi⟩ := hroom
  have htop := l.top_eq m.table.current
  have hstack := l.stack_eq m.table.current
  have hsize : u32.size = 4 := rfl
  have hlen : m.cpu.frame.length = 8 := rfl
  refine ⟨⟨hlo, hhi⟩, load_store, fun i hi => ?_, fun a ha hout => ?_⟩
  · rw [Machine.savedMem, load_store_of_disjoint (by omega), load_pushAll (by omega) hi]
    rfl
  · have := ha.2.1
    rw [Machine.savedMem, store_of_notMem (by omega)]
    exact pushAll_of_notMem (by omega) (by omega)

/-! ### Back in a thread -/

/-- **The context of a thread** after `thread_switch` has switched to it. -/
def Restored (l : Layout) (t : Fin maxThread) (m : Machine) : Option Origin → Prop
  | none => False
  | some (.created func) => m.cpu.eip = func ∧ m.cpu.esp = .ofNat (l.top t)
  | some (.switched cpu mem) =>
    m.cpu.esp = cpu.esp + 4 ∧ m.cpu.eip = load u32 cpu.esp.toNat mem ∧
    m.cpu.ebx = cpu.ebx ∧ m.cpu.ebp = cpu.ebp ∧ m.cpu.esi = cpu.esi ∧ m.cpu.edi = cpu.edi ∧
    ∀ a, l.Own t a → a + 32 < cpu.esp.toNat ∨ cpu.esp.toNat ≤ a → m.mem a = mem a

/-- `popa` and `ret` restore what is saved. -/
theorem Saved.restored {o : Option Origin}
    (h : Saved l m.mem t o) (h0 : t ≠ 0) (hesp : m.cpu.esp = load u32 (l.thread t) m.mem) :
    Restored l t m.popa.ret o := by
  have htop := l.top_eq t
  have hstack := l.stack_eq t
  match o, h with
  | some (.created func), ⟨hsp, hfunc⟩ =>
    rw [hsp] at hesp
    have hlt : l.top t < 2 ^ 32 := Layout.top_lt t.isLt.le
    have hret : m.cpu.esp + 32 = .ofNat (l.top t - 4) := by
      rw [hesp, show (32 : UInt32) = .ofNat 32 from rfl, ← UInt32.ofNat_add]
      congr 1
    have hend : m.cpu.esp + 32 + 4 = .ofNat (l.top t) := by
      rw [hret, show (4 : UInt32) = .ofNat 4 from rfl, ← UInt32.ofNat_add]
      congr 1
    refine ⟨?_, hend⟩
    show load u32 (m.cpu.esp + 32 + 0).toNat m.mem = func
    rw [UInt32.add_zero, hret, UInt32.toNat_ofNat_of_lt' (show l.top t - 4 < 2 ^ 32 by omega), hfunc]
  | some (.switched cpu mem₀), ⟨⟨hlo, hhi⟩, hsp, hframe, hrest⟩ =>
    rw [hsp] at hesp
    have hsub : (cpu.esp - 32).toNat = cpu.esp.toNat - 32 :=
      toNat_sub_ofNat (n := 32) (by decide) (by omega)
    -- the words on the stack, in the order in which they were pushed
    have hword : ∀ i (hi : i < cpu.frame.length) (off : UInt32), off.toNat + 4 * (i + 1) = 32 →
        m.word off = cpu.frame.get ⟨i, hi⟩ := by
      intro i hi off hoff
      rw [← hframe i hi, Machine.word, hesp]
      have := cpu.esp.toNat_lt
      rw [UInt32.toNat_add, hsub, Nat.mod_eq_of_lt (by omega)]
      congr 1
      omega
    refine ⟨?_, ?_, ?_, ?_, ?_, ?_, hrest⟩
    · show m.cpu.esp + 32 + 4 = cpu.esp + 4
      rw [hesp, UInt32.sub_add_cancel]
    · show load u32 (m.cpu.esp + 32 + 0).toNat m.mem = _
      rw [hesp, UInt32.sub_add_cancel, UInt32.add_zero]
      refine load_congr fun a ha ha' => hrest a ⟨h0, ?_, ?_⟩ (.inr ha)
      · omega
      · have : u32.size = 4 := rfl
        omega
    · exact hword 3 (show 3 < 8 by decide) 16 rfl
    · exact hword 5 (show 5 < 8 by decide) 8 rfl
    · exact hword 6 (show 6 < 8 by decide) 4 rfl
    · exact hword 7 (show 7 < 8 by decide) 0 rfl

/-! ## All runs -/

/-- What holds in every state of a run. -/
structure Trace.Inv (l : Layout) (s : Trace) : Prop where
  main : s.machine.table.state 0 = .running
  saved : ∀ t, s.machine.table.state t = .runnable → t ≠ s.machine.table.current →
    Saved l s.machine.mem t (s.origin t)

variable {s s' : Trace} {m' : Machine}

theorem Trace.inv_init (h : s.Init) : s.Inv l := by
  refine ⟨by rw [h.1]; rfl, fun t ht _ => ?_⟩
  have hstate : s.machine.table.state t = if t = 0 then .running else .free := by
    simp [h.1, Table.threadInit, update_apply]
  rw [hstate] at ht
  split at ht
  · cases ht
  · cases ht

/-- A thread computes on its own stack. -/
theorem Trace.Inv.compute (h : s.Inv l) (cpu : Regs) {mem : Mem}
    (hmem : ∀ a, l.base ≤ a → a < l.thread maxThread → ¬l.Own s.machine.table.current a →
      mem a = s.machine.mem a) :
    Trace.Inv l { s with machine := { s.machine with cpu := cpu, mem := mem } } := by
  refine ⟨h.main, fun t ht hne => (h.saved t ht hne).congr fun a ha ha' => ?_⟩
  obtain ⟨hlo, hhi⟩ := Layout.mem_table ⟨ha, ha'⟩
  refine hmem a hlo hhi fun hown => ?_
  have hdisjoint := Layout.thread_disjoint (j := s.machine.table.current)
    (fun e => hne (Fin.ext e)) ⟨ha, ha'⟩
  have := hown.2
  have := l.stack_eq s.machine.table.current
  omega

/-- `thread_create` prepares a thread and leaves the others alone. -/
theorem Trace.Inv.create (h : s.Inv l) (func : UInt32) :
    Trace.Inv l ⟨s.machine.threadCreate l func,
      s.originAfter (s.machine.threadCreate l func) (.create func)⟩ := by
  unfold Machine.threadCreate Trace.originAfter Table.threadCreate
  cases hu : s.machine.table.freeSlot with
  | none =>
    -- nothing of `all_thread` is written
    refine ⟨h.main, fun t ht hne => (h.saved t ht hne).congr fun a ha ha' => ?_⟩
    have hbelow : a < l.top maxThread :=
      lt_of_lt_of_le (Layout.mem_table ⟨ha, ha'⟩).2 (by rw [Layout.top_eq]; omega)
    exact (store_of_notMem (.inl hbelow)).trans
      (firstFrame_of_notMem le_rfl (Layout.thread_disjoint t.isLt.ne ⟨ha, ha'⟩))
  | some u =>
    have hfree : s.machine.table.state u = .free := of_decide_eq_true (first_eq_some.mp hu).1
    refine ⟨?_, fun t ht hne => ?_⟩
    · have h0 : (0 : Fin maxThread) ≠ u := fun e => by
        rw [← e, h.main] at hfree
        cases hfree
      rw [Table.setState_state, if_neg h0, h.main]
    · rw [Table.setState_state] at ht
      show Saved l _ t (update s.origin u (some (.created func)) t)
      by_cases htu : t = u
      · rw [htu, update_self]
        exact firstFrame_saved _ u func
      · rw [update_of_ne htu]
        rw [if_neg htu] at ht
        refine (h.saved t ht hne).congr fun a ha ha' => ?_
        exact firstFrame_of_notMem u.isLt.le
          (Layout.thread_disjoint (fun e => htu (Fin.ext e)) ⟨ha, ha'⟩)

theorem Table.choose_runnable {T : Table} (h : T.choose = some t) :
    T.state t = .runnable := by
  unfold Table.choose at h
  split at h
  · next hu =>
    cases h
    exact (of_decide_eq_true (first_eq_some.mp hu).1).1
  · split at h
    · next hrun =>
      cases h
      exact hrun
    · cases h

/-- `thread_schedule` saves the current thread and restores the one it switches to. -/
theorem Trace.Inv.schedule {o : Fin maxThread → Option Origin} (h : Trace.Inv l ⟨m, o⟩)
    (hroom : m.table.current ≠ 0 ∧ l.Room m.table.current m.cpu.esp ∨
      m.table.current = 0 ∧ l.RoomMain m.cpu.esp) (hm' : m.threadSchedule l = .ok m') :
    Trace.Inv l ⟨m', m.originAfter m' o⟩ ∧
      (m'.table.current ≠ m.table.current → Restored l m'.table.current m' (o m'.table.current)) := by
  obtain ⟨t, ht, ⟨e, rfl⟩ | ⟨hne, rfl⟩⟩ := Machine.threadSchedule_ok hm'
  · rw [Machine.originAfter, if_pos rfl]
    exact ⟨⟨h.main, h.saved⟩, fun hne => absurd rfl hne⟩
  · have hrun := Table.choose_runnable ht
    have hstate : ∀ u, m.table.state u = .runnable → u ≠ 0 := fun u hu e => by
      rw [e, h.main] at hu
      cases hu
    -- the threads that do not run before and after the switch
    have hothers : ∀ u, m.table.state u = .runnable → u ≠ m.table.current →
        Saved l (m.savedMem l) u (o u) := fun u hu huc =>
      (h.saved u hu huc).congr fun a ha ha' =>
        Machine.savedMem_of_ne huc (hroom.imp And.right And.right) ⟨ha, ha'⟩
    refine ⟨⟨?_, fun u hu hut => ?_⟩, fun _ => ?_⟩
    · show (m.table.setState t .running).state 0 = .running
      rw [Table.setState_state, h.main, ite_self]
    · replace hut : u ≠ t := hut
      replace hu : m.table.state u = .runnable := by
        have hu : (m.table.setState t .running).state u = .runnable := hu
        rwa [Table.setState_state, if_neg hut] at hu
      have horigin : ∀ m' : Machine, m'.table.current = t → m.originAfter m' o =
          update o m.table.current (some (.switched m.cpu m.mem)) := fun m' e =>
        if_neg (e ▸ hne)
      rw [horigin _ rfl]
      show Saved l (m.savedMem l) u (update o m.table.current (some (.switched m.cpu m.mem)) u)
      by_cases huc : u = m.table.current
      · have hroom := hroom.resolve_right fun hz => hstate u hu (huc.trans hz.1)
        rw [huc, update_self]
        exact Machine.savedMem_saved hroom.2
      · rw [update_of_ne huc]
        exact hothers u hu huc
    · exact Saved.restored (hothers t hrun hne) (hstate t hrun) rfl

/-- What a call does that gets to `thread_schedule`. -/
theorem Trace.Inv.call (h : s.Inv l) {op : Op} (hop : s.machine.Calls l op)
    (hcreate : op.call ≠ .create) (hm' : s.machine.op l op = .ok m') :
    Trace.Inv l ⟨m', s.originAfter m' op⟩ ∧ (m'.table.current ≠ s.machine.table.current →
      Restored l m'.table.current m' (s.origin m'.table.current)) := by
  -- the current thread does not become one of those that do not run
  have hset : ∀ x, s.machine.table.current ≠ 0 → Trace.Inv l
      ⟨{ s.machine with table := s.machine.table.setState s.machine.table.current x }, s.origin⟩ := by
    intro x hc
    refine ⟨?_, fun t ht hne => ?_⟩
    · show (s.machine.table.setState s.machine.table.current x).state 0 = .running
      rw [Table.setState_state, if_neg (Ne.symm hc), h.main]
    · replace hne : t ≠ s.machine.table.current := hne
      replace ht : (s.machine.table.setState s.machine.table.current x).state t = .runnable := ht
      rw [Table.setState_state, if_neg hne] at ht
      exact h.saved t ht hne
  cases op with
  | create func => exact absurd rfl hcreate
  | schedule => exact h.schedule (.inr hop) hm'
  | yield => exact (hset .runnable hop.1).schedule (.inl hop) hm'
  | exit => exact (hset .free hop.1).schedule (.inl hop) hm'

theorem Trace.Inv.step (h : s.Inv l) (hs : Trace.Step l s s') : s'.Inv l := by
  cases hs with
  | compute cpu mem hmem => exact h.compute cpu hmem
  | op op hop hm' =>
    by_cases hcreate : op.call = .create
    · cases op with
      | create func =>
        cases hm'
        exact h.create func
      | schedule => cases hcreate
      | yield => cases hcreate
      | exit => cases hcreate
    · exact (h.call hop hcreate hm').1

/-- **The context switch restores the context.** When a call returns in another thread, that thread
has the stack pointer, the return address, the registers and the stack with which it called
`thread_switch`; if it has not run before, it starts at its function with an empty stack. -/
theorem threadSwitch_restores (h : Reachable Trace.Init (Trace.Step l) s) (op : Op)
    (hop : s.machine.Calls l op) (hm' : s.machine.op l op = .ok m')
    (hne : m'.table.current ≠ s.machine.table.current) :
    Restored l m'.table.current m' (s.origin m'.table.current) := by
  have hI : s.Inv l := h.invariant (I := Trace.Inv l) (fun _ => Trace.inv_init) fun _ _ => Trace.Inv.step
  refine (hI.call hop (fun hcreate => hne ?_) hm').2 hne
  cases op with
  | create func =>
    cases hm'
    show s.machine.table.threadCreate.current = _
    unfold Table.threadCreate
    split
    · rfl
    · rfl
  | schedule => cases hcreate
  | yield => cases hcreate
  | exit => cases hcreate

/-- The thread that runs sets its registers and makes a call, which changes the table as it does. -/
theorem Trace.reachable_op (h : Reachable Trace.Init (Trace.Step l) s) (cpu : Regs) (op : Op)
    (hop : Machine.Calls l { s.machine with cpu := cpu } op) {T : Table} (hT : s.machine.table = T)
    (hcall : (T.call op.call).toOption.isSome) :
    ∃ s', Reachable Trace.Init (Trace.Step l) s' ∧ s'.machine.table = Option.get _ hcall ∧
      Machine.op l { s.machine with cpu := cpu } op = .ok s'.machine ∧
      s'.origin = Trace.originAfter ⟨{ s.machine with cpu := cpu }, s.origin⟩ s'.machine op := by
  subst hT
  have htable := Machine.table_op (l := l) { s.machine with cpu := cpu } op
  have hreach := h.step (.compute cpu s.machine.mem fun _ _ _ _ => rfl)
  cases hm' : Machine.op l { s.machine with cpu := cpu } op with
  | error e =>
    rw [hm'] at htable
    simp [← htable, Except.toOption, Except.map] at hcall
  | ok m' =>
    rw [hm'] at htable
    exact ⟨_, hreach.step (.op op hop hm'), by simp [← htable, Except.toOption, Except.map], rfl, rfl⟩

/-- `main`, with its stack behind `all_thread`, creates two threads and calls `thread_schedule`; the
first one starts and yields, and so does the second one. -/
theorem threadSwitch_restores_back : ∃ (s : Trace) (mem : Mem) (m' : Machine),
    Reachable Trace.Init (Trace.Step ⟨0x1000, by decide⟩) s ∧ s.machine.table.current = 2 ∧
    s.origin 1 = some (.switched ⟨0, 5, 0, 0, 0x4000, 8, 6, 7, 0⟩ mem) ∧
    s.machine.op ⟨0x1000, by decide⟩ .yield = .ok m' ∧ m'.table.current = 1 ∧
    m'.cpu.ebx = 5 ∧ m'.cpu.esp = 0x4004 := by
  have hroom₁ : Layout.Room ⟨0x1000, by decide⟩ 1 0x4000 := ⟨by decide +kernel, by decide +kernel⟩
  have hroom₂ : Layout.Room ⟨0x1000, by decide⟩ 2 0x6000 := ⟨by decide +kernel, by decide +kernel⟩
  obtain ⟨s₁, h₁, ht₁, -⟩ := Trace.reachable_op (l := ⟨0x1000, by decide⟩) (s := ⟨⟨.threadInit,
    ⟨0, 0, 0, 0, 0x20000, 0, 0, 0, 0⟩, fun _ => 0⟩, fun _ => none⟩) (.init ⟨rfl, rfl⟩)
    ⟨0, 0, 0, 0, 0x20000, 0, 0, 0, 0⟩ (.create 0x100) trivial (T := .threadInit) rfl rfl
  obtain ⟨s₂, h₂, ht₂, -⟩ := Trace.reachable_op h₁ ⟨0, 0, 0, 0, 0x20000, 0, 0, 0, 0⟩ (.create 0x200)
    trivial ht₁ rfl
  have hc₂ : s₂.machine.table.current = 0 := by rw [ht₂]; decide +kernel
  obtain ⟨s₃, h₃, ht₃, -⟩ := Trace.reachable_op h₂ ⟨0, 0, 0, 0, 0x20000, 0, 0, 0, 0⟩ .schedule
    ⟨hc₂, by dsimp only; decide +kernel, .inr (by dsimp only; decide +kernel)⟩ ht₂ (by decide +kernel)
  have hc₃ : s₃.machine.table.current = 1 := by rw [ht₃]; decide +kernel
  obtain ⟨s₄, h₄, ht₄, -, ho₄⟩ := Trace.reachable_op h₃ ⟨0, 5, 0, 0, 0x4000, 8, 6, 7, 0⟩ .yield
    ⟨by rw [hc₃]; decide, by rw [hc₃]; exact hroom₁⟩ ht₃ (by decide +kernel)
  have hc₄ : s₄.machine.table.current = 2 := by rw [ht₄]; decide +kernel
  have horigin : s₄.origin 1 = some (.switched ⟨0, 5, 0, 0, 0x4000, 8, 6, 7, 0⟩ s₃.machine.mem) := by
    rw [ho₄]
    simp [Trace.originAfter, Machine.originAfter, hc₃, hc₄]
  have hcalls : Machine.Calls ⟨0x1000, by decide⟩
      { s₄.machine with cpu := ⟨0, 0, 0, 0, 0x6000, 0, 0, 0, 0⟩ } .yield :=
    ⟨by rw [hc₄]; decide, by rw [hc₄]; exact hroom₂⟩
  obtain ⟨s₅, -, ht₅, hop₅, -⟩ := Trace.reachable_op h₄ _ .yield hcalls ht₄ (by decide +kernel)
  have hc₅ : s₅.machine.table.current = 1 := by rw [ht₅]; decide +kernel
  have hreach := h₄.step (.compute ⟨0, 0, 0, 0, 0x6000, 0, 0, 0, 0⟩ s₄.machine.mem fun _ _ _ _ => rfl)
  have hback := threadSwitch_restores hreach .yield hcalls hop₅ (by rw [hc₅, hc₄]; decide)
  rw [hc₅, horigin] at hback
  obtain ⟨hesp, -, hebx, -⟩ := hback
  exact ⟨_, _, s₅.machine, hreach, hc₄, horigin, hop₅, hc₅, hebx, hesp⟩

/-! ## Too many threads -/

/-- **A call of `thread_create` does no harm**: it writes only inside the slot that it found `FREE`,
and it changes the state of no other thread and neither of the two pointers. -/
structure Harmless (l : Layout) (m m' : Machine) : Prop where
  memory : ∀ a, m'.mem a ≠ m.mem a → ∃ t : Fin maxThread, m.table.freeSlot = some t ∧
    l.thread t ≤ a ∧ a < l.thread (t + 1)
  states : ∀ k, m.table.freeSlot ≠ some k → m'.table.state k = m.table.state k
  pointers : m'.table.current = m.table.current ∧ m'.table.next = m.table.next

/-- A free slot is found, and only that slot is written. -/
theorem harmless_of_freeSlot (ht : m.table.freeSlot = some t)
    (func : UInt32) : Harmless l m (m.threadCreate l func) := by
  unfold Machine.threadCreate Table.threadCreate
  refine ⟨fun a ha => ⟨t, ht, ?_⟩, fun k hk => ?_, ?_⟩
  · rw [ht] at ha
    by_contra hout
    refine ha (firstFrame_of_notMem t.isLt.le ?_)
    simp only [Layout.top_eq, Layout.thread_eq] at hout ⊢
    omega
  · rw [ht]
    exact update_of_ne (fun heq : k = t => hk (heq ▸ ht)) ..
  · rw [ht]
    exact ⟨rfl, rfl⟩

/-- Without a free slot a word behind `all_thread` becomes `RUNNABLE`. -/
theorem not_harmless_of_full (hm : m.table.freeSlot = none)
    (hmem : m.mem (l.top maxThread) ≠ 2) (func : UInt32) :
    ¬Harmless l m (m.threadCreate l func) := by
  intro h
  have hbyte : (m.threadCreate l func).mem (l.top maxThread) = 2 := by
    simp only [Machine.threadCreate, hm]
    rw [Memory.store, if_pos ⟨le_rfl, Nat.lt_add_of_pos_right (by decide)⟩, Nat.sub_self]
    rfl
  obtain ⟨t, ht, -⟩ := h.memory (l.top maxThread) (by rw [hbyte]; exact hmem.symm)
  rw [hm] at ht
  cases ht

/-- **`thread_create` does no harm just when a slot is `FREE`.** -/
theorem threadCreate_harmless_iff (l : Layout) (T : Table) (func : UInt32) :
    (∀ cpu mem, Harmless l ⟨T, cpu, mem⟩ (Machine.threadCreate l ⟨T, cpu, mem⟩ func)) ↔
      ∃ t, T.state t = .free := by
  constructor
  · intro h
    by_contra hfull
    push Not at hfull
    have hslot : T.freeSlot = none := first_eq_none.mpr fun t => decide_eq_false (hfull t)
    exact not_harmless_of_full hslot (by simp) func (h ⟨0, 0, 0, 0, 0, 0, 0, 0, 0⟩ fun _ => 0)
  · rintro ⟨t, ht⟩ cpu mem
    obtain ⟨u, hu⟩ := exists_first (p := fun t => decide (T.state t = .free)) (decide_eq_true ht)
    exact harmless_of_freeSlot (m := ⟨T, cpu, mem⟩) hu func

/-- `main` has created seven threads, which fill the table. -/
def sevenThreads : Machine :=
  Nat.iterate (fun m => m.threadCreate ⟨0x1000, by decide⟩ 0x100) 7
    ⟨.threadInit, ⟨0, 0, 0, 0, 0x20000, 0, 0, 0, 0⟩, fun _ => 0⟩

/-- **The eighth call** of `main` in `uthread 8 1` writes behind `all_thread`. -/
theorem eighth_thread_harmful : ¬Harmless ⟨0x1000, by decide⟩ sevenThreads
    (sevenThreads.threadCreate ⟨0x1000, by decide⟩ 0x100) :=
  not_harmless_of_full (by decide +kernel) (by decide +kernel) _

end Laboratorio.Uthread
