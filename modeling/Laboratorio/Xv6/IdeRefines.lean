import Laboratorio.Lib.Reach
import Laboratorio.Xv6.Ide

/-!
# The disk driver refines the one in memory

`Inv` is the invariant of the driver, with the buffers `q` of the queue: the requests are those that
have been completed and then the queue, the first of the queue has been started, and the buffers are
those that `memide.c` has after the requests that have been completed. The disk is ahead by the write
that has been started (`ahead`).
-/

namespace Laboratorio.Xv6.Ide

open Function Laboratorio.DiskProg Laboratorio.Linked Laboratorio.Reach
open Laboratorio.Xv6.Bio (Buf Machine)

variable {P : Type} {n : Nat}

/-! ## Commands -/

/-- **The controller finds the block** in its registers. -/
theorem command_sector {b : Buf} (hdev : b.dev = 1) (hb : b.blockno < fssize) :
    (command b).regs.sector = b.blockno ∧ (command b).regs.disk1 = true := by
  have hall : ∀ k < 1000, ((command ⟨false, false, 1, k, false, 0, Bytes.Block.zero⟩).regs.sector = k ∧
      (command ⟨false, false, 1, k, false, 0, Bytes.Block.zero⟩).regs.disk1 = true) := by
    decide +kernel
  have hk := hall b.blockno hb
  simp only [command] at hk ⊢
  rw [hdev]
  exact hk

/-! ## Replaying -/

section Replay

variable {x : Machine} {m₀ m m' : Bio.State n} {es : List (Event n)} {i : Fin n} {b : Buf}

theorem replay_concat {e : Event n} (h : replay x es m₀ = .ok ((), m))
    (he : replay x [e] m = .ok ((), m')) : replay x (es ++ [e]) m₀ = .ok ((), m') := by
  induction es generalizing m₀ with
  | nil =>
    cases h
    exact he
  | cons e' es ih =>
    cases e' with
    | set i b => exact ih h
    | rw i =>
      replace h : (Bio.iderw x i m₀ >>= fun r => replay x es r.2) = .ok ((), m) := h
      show (Bio.iderw x i m₀ >>= fun r => replay x (es ++ [e]) r.2) = .ok ((), m')
      cases hr : Bio.iderw x i m₀ with
      | error f =>
        rw [hr] at h
        cases h
      | ok r =>
        rw [hr] at h
        exact ih h

/-- What `iderw` of `memide.c` does with a request. -/
def served (m : Bio.State n) (i : Fin n) : Bio.State n :=
  if (m.buf i).dirty then
    { m.setBuf i fun b => { b with dirty := false, valid := true } with
      disk := update m.disk (m.buf i).blockno (m.buf i).data }
  else m.setBuf i fun b => { b with data := m.disk b.blockno, valid := true }

theorem replay_rw (hlocked : (m.buf i).locked = true)
    (hwork : ¬((m.buf i).valid = true ∧ (m.buf i).dirty = false)) (hdev : (m.buf i).dev = 1)
    (hblock : (m.buf i).blockno < x.disksize) :
    replay x [.rw i] m = .ok ((), served m i) := by
  have hrw : Bio.iderw x i m = .ok ((), served m i) := by
    unfold Bio.iderw served
    simp only [bind, StateT.bind, get, getThe, MonadStateOf.get, StateT.get, Except.bind, pure,
      Except.pure, hlocked, Bool.true_eq_false, if_false, if_neg hwork, hdev,
      ne_eq, not_true_eq_false, if_neg (not_le.mpr hblock)]
    split
    · rfl
    · rfl
  show (Bio.iderw x i m >>= fun r => .ok ((), r.2)) = _
  rw [hrw]
  rfl

end Replay

/-! ## The invariant -/

/-- The disk, when the first request of the queue has been started. -/
def ahead (buf : Fin n → Buf) : List (Fin n) → Disk Blk → Disk Blk
  | [], d => d
  | i :: _, d => if (buf i).dirty then update d (buf i).blockno (buf i).data else d

/-- A request that the driver has accepted. -/
structure Request (b : Buf) : Prop where
  work : ¬(b.valid = true ∧ b.dirty = false)
  dev : b.dev = 1
  block : b.blockno < fssize

structure Inv (x : Machine) (m₀ : Bio.State n) (s : State P n) (q : List (Fin n)) : Prop where
  leads : Leads s.qnext s.idequeue q
  nodup : q.Nodup
  appended : s.appended = s.completed ++ q
  started : s.started = s.completed ++ q.take 1
  cmd : s.cmd = q.head?.map fun i => command (s.buf i)
  locked : ∀ i, (s.buf i).locked = (s.holder i).isSome
  request : ∀ i ∈ q, Request (s.buf i)
  queued : ∀ i ∈ q, ∃ p k, s.holder i = some p ∧ (s.pc p).request = some (i, k)
  proc : ∀ p i k, (s.pc p).request = some (i, k) → s.holder i = some p ∧
    s.appended[k]? = some i ∧ (s.completed.length ≤ k ∧ i ∈ q ∨
      k < s.completed.length ∧ i ∉ q ∧ (s.buf i).valid = true ∧ (s.buf i).dirty = false)
  asleep : ∀ p i k, s.pc p = .asleep i k → s.completed.length ≤ k
  requests : s.history.filterMap Event.request = s.completed
  replayed : ∃ m, replay x s.history m₀ = .ok ((), m) ∧ m.buf = s.buf ∧
    s.disk true = ahead s.buf q m.disk

section Inv

variable {x : Machine} {m₀ : Bio.State n} {s s' : State P n} {q : List (Fin n)} {i : Fin n} {p : P}

/-- Nobody is in `iderw` with a buffer that is not busy. -/
theorem Inv.not_busy (h : Inv x m₀ s q) (hi : s.busy i = false) :
    i ∉ q ∧ ∀ p k, (s.pc p).request ≠ some (i, k) := by
  have hproc : ∀ p k, (s.pc p).request ≠ some (i, k) := by
    intro p k hp
    rw [State.busy, (h.proc p i k hp).1] at hi
    simp [hp] at hi
  refine ⟨fun hq => ?_, hproc⟩
  obtain ⟨p, k, -, hp⟩ := h.queued i hq
  exact hproc p k hp

theorem ahead_congr {buf buf' : Fin n → Buf} (hq : ∀ i ∈ q, buf' i = buf i) (d : Disk Blk) :
    ahead buf' q d = ahead buf q d := by
  cases q with
  | nil => rfl
  | cons i q => simp only [ahead, hq i List.mem_cons_self]

/-- **A buffer is changed** from outside of the driver. -/
theorem Inv.change (h : Inv x m₀ s q) (hi : s.busy i = false) {o : Option P} {b : Buf}
    (hb : b.locked = o.isSome) :
    Inv x m₀ (State.change { s with holder := update s.holder i o } i b) q := by
  obtain ⟨hiq, hproc⟩ := h.not_busy hi
  have hbuf : ∀ j, j ≠ i → update s.buf i b j = s.buf j := fun j hj =>
    update_of_ne hj ..
  have hholder : ∀ j, j ≠ i → update s.holder i o j = s.holder j := fun j hj =>
    update_of_ne hj ..
  have hne : ∀ j ∈ q, j ≠ i := fun j hj heq => hiq (heq ▸ hj)
  obtain ⟨m, hm, hmbuf, hdisk⟩ := h.replayed
  refine ⟨h.leads, h.nodup, h.appended, h.started, ?_, fun j => ?_, fun j hj => ?_, fun j hj => ?_,
    fun p j k hp => ?_, h.asleep, ?_, m.setBuf i fun _ => b, ?_, ?_, ?_⟩
  · show s.cmd = q.head?.map fun j => command (update s.buf i b j)
    rw [h.cmd]
    cases q with
    | nil => rfl
    | cons j t => rw [List.head?_cons, Option.map_some, Option.map_some, hbuf j (hne j (by simp))]
  · show (update s.buf i b j).locked = (update s.holder i o j).isSome
    by_cases hj : j = i
    · rw [hj, update_self, update_self, hb]
    · rw [hbuf j hj, hholder j hj, h.locked]
  · show Request (update s.buf i b j)
    rw [hbuf j (hne j hj)]
    exact h.request j hj
  · obtain ⟨p, k, hp, hk⟩ := h.queued j hj
    exact ⟨p, k, (hholder j (hne j hj)).trans hp, hk⟩
  · have hj : j ≠ i := fun heq => hproc p k (heq ▸ hp)
    obtain ⟨hh, hk, hstate⟩ := h.proc p j k hp
    refine ⟨(hholder j hj).trans hh, hk, ?_⟩
    show _ ∨ _ ∧ _ ∧ (update s.buf i b j).valid = true ∧ (update s.buf i b j).dirty = false
    rw [hbuf j hj]
    exact hstate
  · show (s.history ++ [Event.set i b]).filterMap Event.request = s.completed
    rw [List.filterMap_append, h.requests]
    exact List.append_nil _
  · exact replay_concat hm rfl
  · show update m.buf i b = update s.buf i b
    rw [hmbuf]
  · show s.disk true = ahead (update s.buf i b) q m.disk
    rw [hdisk, ahead_congr fun j hj => hbuf j (hne j hj)]

/-! ## `iderw` -/

variable [DecidableEq P]

omit [DecidableEq P] in
/-- The loop finds the end of the queue, and the buffer is appended. -/
theorem append_eq (hl : Leads s.qnext s.idequeue q) (hn : q.Nodup) (hi : i ∉ q) :
    ∃ qn iq, s.append i =
      some { s with qnext := qn, idequeue := iq, appended := s.appended ++ [i] } ∧
      Leads qn iq (q ++ [i]) := by
  have hlen : q.length < n + 1 := by
    have := hn.length_le_card
    rw [Fintype.card_fin] at this
    omega
  have hl' : Leads (update s.qnext i none) s.idequeue q := hl.congr fun j hj =>
    update_of_ne (fun heq : j = i => hi (heq ▸ hj)) ..
  have hlast := hl'.lastLink none hlen
  unfold State.append
  simp only [hlast, Option.or_none]
  cases q using List.reverseRecOn with
  | nil =>
    refine ⟨_, _, rfl, rfl, ?_⟩
    exact update_self ..
  | append_singleton q a =>
    rw [List.getLast?_concat]
    exact ⟨_, _, rfl, hl'.append hn hi (update_self ..)⟩

/-- A request at the end of the queue, by a process that sleeps then. -/
theorem Inv.push (h : Inv x m₀ s q) (hi : i ∉ q) (hp : s.holder i = some p)
    (hidle : s.pc p = .idle) (hreq : Request (s.buf i)) {qn : Fin n → Option (Fin n)}
    {iq : Option (Fin n)} {st : List (Fin n)} {c : Option Cmd} {d : Bool → Disk Blk}
    (hleads : Leads qn iq (q ++ [i])) (hst : st = s.completed ++ (q ++ [i]).take 1)
    (hc : c = (q ++ [i]).head?.map fun j => command (s.buf j))
    (hd : ∀ e, s.disk true = ahead s.buf q e → d true = ahead s.buf (q ++ [i]) e) :
    Inv x m₀ { s with
      qnext := qn, idequeue := iq, appended := s.appended ++ [i], started := st, cmd := c, disk := d,
      pc := update s.pc p (.asleep i s.appended.length) } (q ++ [i]) := by
  have hlen : s.completed.length ≤ s.appended.length := by simp [h.appended]
  have hother : ∀ p' j k, (s.pc p').request = some (j, k) → p' ≠ p ∧ j ≠ i := by
    intro p' j k hreq'
    have hne : p' ≠ p := by
      rintro rfl
      rw [hidle] at hreq'
      cases hreq'
    refine ⟨hne, ?_⟩
    rintro rfl
    exact hne (Option.some.inj ((h.proc p' j k hreq').1.symm.trans hp))
  obtain ⟨m, hm, hmbuf, hdisk⟩ := h.replayed
  refine ⟨hleads, ?_, ?_, hst, hc, h.locked, ?_, ?_, ?_, ?_, h.requests, m, hm, hmbuf, hd _ hdisk⟩
  · exact List.nodup_append.mpr ⟨h.nodup, List.nodup_singleton i, by grind⟩
  · show s.appended ++ [i] = s.completed ++ (q ++ [i])
    rw [h.appended, List.append_assoc]
  · intro j hj
    rcases List.mem_append.mp hj with hj | hj
    · exact h.request j hj
    · rw [List.mem_singleton.mp hj]
      exact hreq
  · intro j hj
    rcases List.mem_append.mp hj with hj | hj
    · obtain ⟨p', k, hp', hk⟩ := h.queued j hj
      refine ⟨p', k, hp', ?_⟩
      show (update s.pc p _ p').request = some (j, k)
      rw [update_of_ne (hother p' j k hk).1]
      exact hk
    · rw [List.mem_singleton.mp hj]
      refine ⟨p, s.appended.length, hp, ?_⟩
      show (update s.pc p _ p).request = _
      rw [update_self]
      rfl
  · intro p' j k hk
    replace hk : (update s.pc p (.asleep i s.appended.length) p').request = some (j, k) := hk
    by_cases hpp : p' = p
    · rw [hpp, update_self] at hk
      cases hk
      refine ⟨hpp ▸ hp, ?_, .inl ⟨hlen, by simp⟩⟩
      exact List.getElem?_concat_length
    · rw [update_of_ne hpp] at hk
      obtain ⟨hh, hget, hstate⟩ := h.proc p' j k hk
      have hji := (hother p' j k hk).2
      refine ⟨hh, ?_, ?_⟩
      · obtain ⟨hlt, -⟩ := List.getElem?_eq_some_iff.mp hget
        show (s.appended ++ [i])[k]? = some j
        rw [List.getElem?_append_left hlt, hget]
      · refine hstate.imp (fun ⟨hle, hq⟩ => ⟨hle, by simp [hq]⟩)
          fun ⟨hlt, hq, hdone⟩ => ⟨hlt, by simp [hq, hji], hdone⟩
  · intro p' j k hk
    replace hk : update s.pc p (.asleep i s.appended.length) p' = .asleep j k := hk
    by_cases hpp : p' = p
    · rw [hpp, update_self] at hk
      cases hk
      exact hlen
    · rw [update_of_ne hpp] at hk
      exact h.asleep p' j k hk

omit [DecidableEq P] in
/-- The first request of the queue is given to the disk. -/
theorem idestart_eq (hreq : Request (s.buf i)) :
    ∃ d, idestart s i = some { s with
        cmd := some (command (s.buf i)), disk := d, started := s.started ++ [i] } ∧
      ∀ e q, s.disk true = e → d true = ahead s.buf (i :: q) e := by
  obtain ⟨hsector, hdisk1⟩ := command_sector hreq.dev hreq.block
  refine ⟨_, by rw [idestart, if_neg (not_le.mpr hreq.block)]; rfl, fun e q he => ?_⟩
  show (if (s.buf i).dirty then _ else s.disk) true = ahead s.buf (i :: q) e
  rw [ahead, hsector, hdisk1]
  split
  · rw [update_self, he]
  · exact he

/-- **`iderw`** up to `sleep`: the request is the last one, and it is not done yet. -/
theorem Inv.iderw {havedisk1 : Bool} (h : Inv x m₀ s q) (hidle : s.pc p = .idle)
    (hdev : (s.buf i).dev = 1) (hblock : (s.buf i).blockno < fssize)
    (hs : iderw havedisk1 s p i = some s') :
    (∃ q', Inv x m₀ s' q') ∧ s'.pc = update s.pc p (.asleep i s.appended.length) ∧
      s'.appended = s.appended ++ [i] := by
  unfold Ide.iderw at hs
  split at hs
  · cases hs
  next hp =>
  rw [not_not] at hp
  split at hs
  · cases hs
  next hwork =>
  split at hs
  · cases hs
  have hreq : Request (s.buf i) := ⟨hwork, hdev, hblock⟩
  have hi : i ∉ q := by
    refine (h.not_busy ?_).1
    rw [State.busy, hp]
    simp [hidle, Pc.request]
  obtain ⟨qn, iq, happend, hleads⟩ := append_eq h.leads h.nodup hi
  have hhead := hleads.head
  have hwait : ∀ s₁ : State P n, s₁.buf = s.buf → s₁.wait p i s.appended.length =
      { s₁ with pc := update s₁.pc p (.asleep i s.appended.length) } := by
    intro s₁ hbuf
    rw [State.wait, hbuf, if_neg hwork]
  rw [happend] at hs
  cases q with
  | nil =>
    obtain ⟨d, hstart, hd⟩ := idestart_eq (s := { s with
      qnext := qn, idequeue := iq, appended := s.appended ++ [i] }) hreq
    simp only [hhead, List.nil_append, List.head?_cons, if_true] at hs hstart
    rw [hstart] at hs
    cases hs
    rw [hwait]
    · have hstarted := h.started
      rw [hhead] at hleads
      refine ⟨⟨_, h.push hi hp hidle hreq hleads ?_ rfl fun e he => hd e [] he⟩,
        rfl, rfl⟩
      simp [hstarted]
    · rfl
  | cons j t =>
    have hji : j ≠ i := fun heq => hi (by simp [heq])
    rw [List.cons_append, List.head?_cons] at hhead
    simp only [hhead, Option.some.injEq, hji, if_false] at hs
    cases hs
    rw [hwait]
    · rw [hhead] at hleads
      exact ⟨⟨_, h.push hi hp hidle hreq hleads h.started h.cmd fun e he => he⟩,
        rfl, rfl⟩
    · rfl

/-! ## `ideintr` -/

omit [DecidableEq P] in
theorem request_wakeup (p : P) : ((s.wakeup i).pc p).request = (s.pc p).request := by
  simp only [State.wakeup]
  split
  · split
    · next hk _ => rw [hk]; rfl
    · next hk _ => rw [hk]
  · rfl

omit [DecidableEq P] in
theorem asleep_wakeup {p : P} {j : Fin n} {k : Nat} (h : (s.wakeup i).pc p = .asleep j k) :
    s.pc p = .asleep j k ∧ j ≠ i := by
  simp only [State.wakeup] at h
  split at h
  · next hk =>
    split at h
    · cases h
    · next hne =>
      cases h
      exact ⟨hk, hne⟩
  · next hk => exact absurd h (hk j k)

section Served

variable {m : Bio.State n} {t : List (Fin n)} {buf : Fin n → Buf} {d : Disk Blk}

theorem buf_served (hm : m.buf = buf) (hd : d = ahead buf (i :: t) m.disk) :
    (served m i).buf = update buf i { buf i with
      data := if (buf i).dirty then (buf i).data else d (buf i).blockno
      valid := true, dirty := false } := by
  subst hm hd
  cases hdirty : (m.buf i).dirty with
  | true => simp [served, hdirty, Bio.State.setBuf]
  | false => simp [served, hdirty, Bio.State.setBuf, ahead]

theorem disk_served (hm : m.buf = buf) (hd : d = ahead buf (i :: t) m.disk) :
    (served m i).disk = d := by
  subst hm hd
  cases hdirty : (m.buf i).dirty with
  | true => simp [served, hdirty, ahead]
  | false => simp [served, hdirty, Bio.State.setBuf, ahead]

end Served

omit [DecidableEq P] in
/-- The first request of the queue is done. -/
theorem Inv.done {t : List (Fin n)} (hx : x.disksize = fssize) (h : Inv x m₀ s (i :: t))
    {st : List (Fin n)} {c : Option Cmd} {d : Bool → Disk Blk}
    (hst : st = s.completed ++ [i] ++ t.take 1)
    (hc : c = t.head?.map fun j => command (s.buf j))
    (hd : d true = ahead s.buf t (s.disk true)) :
    Inv x m₀ { s.complete (command (s.buf i)) i with started := st, cmd := c, disk := d } t := by
  have hreq := h.request i List.mem_cons_self
  obtain ⟨hsector, hdisk1⟩ := command_sector hreq.dev hreq.block
  let b : Buf := { s.buf i with
    data := if (s.buf i).dirty then (s.buf i).data else s.disk true (s.buf i).blockno
    valid := true, dirty := false }
  have hcomplete : (s.complete (command (s.buf i)) i).buf = update s.buf i b := by
    simp only [State.complete, State.wakeup, hsector, hdisk1, b]
  have hit : i ∉ t := (List.nodup_cons.mp h.nodup).1
  have hbuf : ∀ j, j ≠ i → update s.buf i b j = s.buf j := fun j hj =>
    update_of_ne hj ..
  have hne : ∀ j ∈ t, j ≠ i := fun j hj heq => hit (heq ▸ hj)
  have hlen : (s.completed ++ [i]).length = s.completed.length + 1 := by simp
  have hfirst : s.appended[s.completed.length]? = some i := by
    rw [h.appended, List.getElem?_append_right le_rfl, Nat.sub_self]
    rfl
  -- the request of `i` is the next one to be completed
  have hnext : ∀ p k, (s.pc p).request = some (i, k) → s.completed.length ≤ k →
      k = s.completed.length := by
    intro p k hp hle
    obtain ⟨-, hk, -⟩ := h.proc p i k hp
    rw [h.appended, List.getElem?_append_right hle] at hk
    by_contra hne
    obtain ⟨r, hr⟩ := Nat.exists_eq_succ_of_ne_zero (show k - s.completed.length ≠ 0 by omega)
    rw [hr, List.getElem?_cons_succ] at hk
    exact hit (List.mem_of_getElem? hk)
  obtain ⟨m, hm, hmbuf, hdisk⟩ := h.replayed
  refine ⟨h.leads.2, (List.nodup_cons.mp h.nodup).2, ?_, hst, ?_, fun j => ?_, fun j hj => ?_,
    fun j hj => ?_, fun p j k hp => ?_, fun p j k hp => ?_, ?_, served m i, ?_, ?_, ?_⟩
  · show s.appended = s.completed ++ [i] ++ t
    rw [h.appended, List.append_assoc, List.singleton_append]
  · show c = t.head?.map fun j => command ((s.complete (command (s.buf i)) i).buf j)
    rw [hc, hcomplete]
    cases t with
    | nil => rfl
    | cons j t => rw [List.head?_cons, Option.map_some, Option.map_some, hbuf j (hne j (by simp))]
  · show ((s.complete (command (s.buf i)) i).buf j).locked = (s.holder j).isSome
    rw [hcomplete]
    by_cases hj : j = i
    · rw [hj, update_self]
      exact h.locked i
    · rw [hbuf j hj, h.locked]
  · show Request ((s.complete (command (s.buf i)) i).buf j)
    rw [hcomplete, hbuf j (hne j hj)]
    exact h.request j (List.mem_cons_of_mem _ hj)
  · obtain ⟨p, k, hp, hk⟩ := h.queued j (List.mem_cons_of_mem _ hj)
    exact ⟨p, k, hp, (request_wakeup p).trans hk⟩
  · replace hp : (s.pc p).request = some (j, k) := (request_wakeup p).symm.trans hp
    obtain ⟨hh, hk, hstate⟩ := h.proc p j k hp
    refine ⟨hh, hk, ?_⟩
    show (s.completed ++ [i]).length ≤ k ∧ j ∈ t ∨ k < (s.completed ++ [i]).length ∧ j ∉ t ∧
      ((s.complete (command (s.buf i)) i).buf j).valid = true ∧
        ((s.complete (command (s.buf i)) i).buf j).dirty = false
    rw [hlen, hcomplete]
    by_cases hj : j = i
    · subst hj
      refine .inr ⟨?_, hit, ?_⟩
      · rcases hstate with ⟨hle, -⟩ | ⟨hlt, -⟩
        · have := hnext p k hp hle
          omega
        · omega
      · rw [update_self]
        exact ⟨rfl, rfl⟩
    · rw [hbuf j hj]
      rcases hstate with ⟨hle, hq⟩ | ⟨hlt, hq, hflags⟩
      · refine .inl ⟨?_, (List.mem_cons.mp hq).resolve_left hj⟩
        have hne : k ≠ s.completed.length := by
          rintro rfl
          exact hj (Option.some.inj (hk.symm.trans hfirst))
        omega
      · exact .inr ⟨by omega, fun hjt => hq (List.mem_cons_of_mem _ hjt), hflags⟩
  · obtain ⟨hasleep, hj⟩ := asleep_wakeup hp
    replace hasleep : s.pc p = .asleep j k := hasleep
    have hle := h.asleep p j k hasleep
    obtain ⟨-, hk, -⟩ := h.proc p j k (by rw [hasleep]; rfl)
    show (s.completed ++ [i]).length ≤ k
    have hne : k ≠ s.completed.length := by
      rintro rfl
      exact hj (Option.some.inj (hk.symm.trans hfirst))
    omega
  · show (s.history ++ [Event.rw i]).filterMap Event.request = s.completed ++ [i]
    rw [List.filterMap_append, h.requests]
    rfl
  · obtain ⟨p, -, hp, -⟩ := h.queued i List.mem_cons_self
    refine replay_concat hm (replay_rw ?_ ?_ ?_ ?_)
    · rw [hmbuf, h.locked, hp]
      rfl
    · rw [hmbuf]
      exact hreq.work
    · rw [hmbuf]
      exact hreq.dev
    · rw [hmbuf, hx]
      exact hreq.block
  · show (served m i).buf = (s.complete (command (s.buf i)) i).buf
    rw [hcomplete]
    exact buf_served hmbuf hdisk
  · show d true = ahead (s.complete (command (s.buf i)) i).buf t (served m i).disk
    rw [hd, disk_served hmbuf hdisk, hcomplete, ahead_congr fun j hj => hbuf j (hne j hj)]

omit [DecidableEq P] in
/-- **`ideintr`** completes the first request and starts the next one. -/
theorem Inv.intr {c : Cmd} (hx : x.disksize = fssize) (h : Inv x m₀ s q) (hc : s.cmd = some c) :
    ∃ s' q', ideintr s c = some s' ∧ Inv x m₀ s' q' := by
  cases q with
  | nil =>
    have hcmd := h.cmd
    rw [hc] at hcmd
    cases hcmd
  | cons i t =>
    have hreq := h.request i List.mem_cons_self
    obtain rfl : c = command (s.buf i) := Option.some.inj (hc.symm.trans h.cmd)
    have hqueue : s.idequeue = some i := h.leads.1
    have hstarted := h.started
    have hidequeue : (s.complete (command (s.buf i)) i).idequeue = s.qnext i := rfl
    unfold ideintr
    simp only [hqueue, hidequeue]
    cases t with
    | nil =>
      have hnext : s.qnext i = none := h.leads.2
      rw [hnext]
      exact ⟨_, [], rfl, h.done hx (hstarted.trans (by simp)) rfl rfl⟩
    | cons j t =>
      have hnext : s.qnext i = some j := h.leads.2.1
      have hji : j ≠ i := fun heq => (List.nodup_cons.mp h.nodup).1 (by simp [heq])
      have hbufj : (s.complete (command (s.buf i)) i).buf j = s.buf j :=
        update_of_ne hji ..
      have hreqj : Request ((s.complete (command (s.buf i)) i).buf j) := by
        rw [hbufj]
        exact h.request j (by simp)
      obtain ⟨d, hstart, hd⟩ := idestart_eq hreqj
      rw [hnext]
      refine ⟨_, j :: t, hstart, h.done hx ?_ ?_ ?_⟩
      · show s.started ++ [j] = _
        rw [hstarted]
        simp
      · rw [hbufj]
        rfl
      · rw [hd _ t rfl]
        simp only [ahead, hbufj]
        rfl

/-! ## After `sleep` -/

theorem wait_buf {k : Nat} : (s.wait p i k).buf = s.buf := by
  unfold State.wait
  split
  · rfl
  · rfl

theorem wait_pc {p' : P} {k : Nat} (hp : p' ≠ p) : (s.wait p i k).pc p' = s.pc p' := by
  unfold State.wait
  split
  · exact update_of_ne hp ..
  · exact update_of_ne hp ..

/-- A process that goes on with its request, or that has none any more. -/
theorem Inv.setPc (h : Inv x m₀ s q) {c : Pc n}
    (hkeep : ∀ i k, (s.pc p).request = some (i, k) → i ∈ q → c.request = some (i, k))
    (hsame : ∀ i k, c.request = some (i, k) → (s.pc p).request = some (i, k))
    (hasleep : ∀ i k, c = .asleep i k → s.completed.length ≤ k) :
    Inv x m₀ { s with pc := update s.pc p c } q := by
  refine ⟨h.leads, h.nodup, h.appended, h.started, h.cmd, h.locked, h.request, fun j hj => ?_,
    fun p' j k hp' => ?_, fun p' j k hp' => ?_, h.requests, h.replayed⟩
  · obtain ⟨p', k, hh, hk⟩ := h.queued j hj
    refine ⟨p', k, hh, ?_⟩
    show (update s.pc p c p').request = some (j, k)
    by_cases hpp : p' = p
    · subst hpp
      rw [update_self]
      exact hkeep j k hk hj
    · rwa [update_of_ne hpp]
  · replace hp' : (update s.pc p c p').request = some (j, k) := hp'
    refine h.proc p' j k ?_
    by_cases hpp : p' = p
    · subst hpp
      rw [update_self] at hp'
      exact hsame j k hp'
    · rwa [update_of_ne hpp] at hp'
  · replace hp' : update s.pc p c p' = .asleep j k := hp'
    by_cases hpp : p' = p
    · rw [hpp, update_self] at hp'
      exact hasleep j k hp'
    · rw [update_of_ne hpp] at hp'
      exact h.asleep p' j k hp'

/-- **A process that has been woken up** goes on, and it returns only when its request is done. -/
theorem Inv.wait {k : Nat} (h : Inv x m₀ s q) (hp : s.pc p = .woken i k) :
    Inv x m₀ (s.wait p i k) q ∧ ((s.wait p i k).pc p = .idle →
      k < s.completed.length ∧ (s.buf i).valid = true ∧ (s.buf i).dirty = false) := by
  have hreq : (s.pc p).request = some (i, k) := by
    rw [hp]
    rfl
  obtain ⟨-, -, hstate⟩ := h.proc p i k hreq
  by_cases hdone : (s.buf i).valid = true ∧ (s.buf i).dirty = false
  · have hiq : i ∉ q := fun hi => (h.request i hi).work hdone
    have hlt : k < s.completed.length := by
      rcases hstate with ⟨-, hi⟩ | ⟨hlt, -⟩
      · exact absurd hi hiq
      · exact hlt
    rw [State.wait, if_pos hdone]
    refine ⟨h.setPc (fun j k' hj hjq => ?_) nofun nofun, fun _ => ⟨hlt, hdone⟩⟩
    rw [hreq] at hj
    cases hj
    exact absurd hjq hiq
  · have hle : s.completed.length ≤ k := by
      rcases hstate with ⟨hle, -⟩ | ⟨-, -, hflags⟩
      · exact hle
      · exact absurd hflags hdone
    rw [State.wait, if_neg hdone]
    refine ⟨h.setPc (fun j k' hj _ => ?_) (fun j k' hj => ?_) fun j k' hj => ?_, fun hidle => ?_⟩
    · rw [← hj, hreq]
      rfl
    · rw [hreq, ← hj]
      rfl
    · cases hj
      exact hle
    · replace hidle : update s.pc p (.asleep i k) p = .idle := hidle
      rw [update_self] at hidle
      cases hidle

/-! ## Runs -/

variable {havedisk1 : Bool}

theorem Inv.step (hx : x.disksize = fssize) (h : Inv x m₀ s q) (hs : Step havedisk1 s s') :
    ∃ q', Inv x m₀ s' q' := by
  obtain ⟨a, hvalid, hs⟩ := hs
  cases a with
  | lock p i =>
    simp only [next] at hs
    split at hs
    next hfree =>
      cases hs
      refine ⟨q, h.change ?_ rfl⟩
      rw [State.busy, hfree]
    · cases hs
  | unlock p i =>
    simp only [next] at hs
    split at hs
    next hp =>
      cases hs
      exact ⟨q, h.change hp.2 rfl⟩
    · cases hs
  | set i b =>
    simp only [next] at hs
    split at hs
    · cases hs
    next hbusy =>
      cases hs
      have hc := h.change (o := s.holder i) (Bool.eq_false_iff.mpr hbusy)
        (b := { b with locked := (s.buf i).locked }) (h.locked i)
      rw [update_eq_self] at hc
      exact ⟨q, hc⟩
  | iderw p i =>
    simp only [next] at hs
    split at hs
    next hidle => exact (h.iderw hidle hvalid.1 hvalid.2 hs).1
    · cases hs
  | intr =>
    simp only [next] at hs
    split at hs
    · cases hs
    next c hc =>
      obtain ⟨s₁, q₁, hs₁, h₁⟩ := h.intr hx hc
      cases hs₁.symm.trans hs
      exact ⟨q₁, h₁⟩
  | resume p =>
    simp only [next] at hs
    split at hs
    next i k hp =>
      cases hs
      exact ⟨q, (h.wait hp).1⟩
    · cases hs

omit [DecidableEq P] in
theorem Inv.init (hs : s.Init) (hbuf : m₀.buf = s.buf) (hdisk : m₀.disk = s.disk true) :
    Inv x m₀ s [] := by
  have hidle : ∀ p, (s.pc p).request = none := by
    intro p
    rw [hs.pc p]
    rfl
  refine ⟨hs.idequeue, List.nodup_nil, ?_, ?_, hs.cmd, hs.locked, nofun, nofun, ?_, ?_, ?_, m₀, ?_,
    hbuf, hdisk.symm⟩
  · rw [hs.appended, hs.completed, List.append_nil]
  · rw [hs.started, hs.completed, List.take_nil, List.append_nil]
  · intro p i k hp
    rw [hidle] at hp
    cases hp
  · intro p i k hp
    rw [hs.pc] at hp
    cases hp
  · rw [hs.history, hs.completed]
    rfl
  · rw [hs.history]
    rfl

theorem Inv.reachable {s₀ : State P n} (hx : x.disksize = fssize) (h₀ : s₀.Init)
    (hbuf : m₀.buf = s₀.buf) (hdisk : m₀.disk = s₀.disk true)
    (hr : Reachable (· = s₀) (Step havedisk1) s) : ∃ q, Inv x m₀ s q := by
  refine hr.invariant (I := fun s => ∃ q, Inv x m₀ s q) (fun s hs => ⟨[], ?_⟩)
    fun s s' ⟨q, h⟩ hs => h.step hx hs
  subst hs
  exact .init h₀ hbuf hdisk

omit [DecidableEq P] in
/-- `ideintr` leaves every process its request. -/
theorem request_ideintr {c : Cmd} (hs : ideintr s c = some s') (p : P) :
    (s'.pc p).request = (s.pc p).request := by
  unfold ideintr at hs
  split at hs
  · cases hs
    rfl
  next i _ =>
    have hpc : ((s.complete c i).pc p).request = (s.pc p).request := request_wakeup p
    simp only at hs
    split at hs
    · cases hs
      exact hpc
    · rw [idestart] at hs
      split at hs
      · cases hs
      · cases hs
        exact hpc

/-- **A process returns** from `iderw` only when its request is done. -/
theorem Inv.returned {k : Nat} (h : Inv x m₀ s q) (hs : Step havedisk1 s s')
    (hp : (s.pc p).request = some (i, k)) (hidle : s'.pc p = .idle) :
    k < s.completed.length ∧ (s'.buf i).valid = true ∧ (s'.buf i).dirty = false := by
  obtain ⟨a, hvalid, hs⟩ := hs
  have hsame : (s'.pc p).request ≠ (s.pc p).request := by
    rw [hp, hidle]
    nofun
  cases a with
  | lock p' j =>
    simp only [next] at hs
    split at hs
    · cases hs
      exact absurd rfl hsame
    · cases hs
  | unlock p' j =>
    simp only [next] at hs
    split at hs
    · cases hs
      exact absurd rfl hsame
    · cases hs
  | set j b =>
    simp only [next] at hs
    split at hs
    · cases hs
    · cases hs
      exact absurd rfl hsame
  | iderw p' j =>
    simp only [next] at hs
    split at hs
    next hidle' =>
      have hpc := (h.iderw hidle' hvalid.1 hvalid.2 hs).2.1
      by_cases hpp : p = p'
      · rw [hpc, hpp, update_self] at hidle
        cases hidle
      · rw [hpc, update_of_ne hpp] at hsame
        exact absurd rfl hsame
    · cases hs
  | intr =>
    simp only [next] at hs
    split at hs
    · cases hs
    · exact absurd (request_ideintr hs p) hsame
  | resume p' =>
    simp only [next] at hs
    split at hs
    next j k' hp' =>
      cases hs
      by_cases hpp : p = p'
      · subst hpp
        rw [hp'] at hp
        cases hp
        rw [wait_buf]
        exact (h.wait hp').2 hidle
      · rw [wait_pc hpp] at hsame
        exact absurd rfl hsame
    · cases hs

end Inv

/-- **The driver refines the one in memory.** -/
theorem ide_refines {x : Machine} {havedisk1 : Bool} [DecidableEq P] {s₀ s : State P n}
    {m₀ : Bio.State n} (hx : x.disksize = fssize) (h₀ : s₀.Init) (hbuf : m₀.buf = s₀.buf)
    (hdisk : m₀.disk = s₀.disk true) (hr : Reachable (· = s₀) (Step havedisk1) s) :
    -- Requests are started and completed in the order of the queue, and none is forgotten.
    s.completed <+: s.started ∧ s.started <+: s.appended ∧
    (s.completed ≠ s.appended → ∃ s', next havedisk1 s .intr = some s') ∧
    ((∀ p, s.pc p = .idle) → s.completed = s.appended) ∧
    -- A process makes one request, and returns when that is done only.
    (∀ p i s', (Act.iderw p i).Valid s → next havedisk1 s (.iderw p i) = some s' →
      s'.pc p = .asleep i s.appended.length ∧ s'.appended = s.appended ++ [i]) ∧
    (∀ p i k s', (s.pc p).request = some (i, k) → Step havedisk1 s s' → s'.pc p = .idle →
      s.appended[k]? = some i ∧ k < s.completed.length ∧
        (s'.buf i).valid = true ∧ (s'.buf i).dirty = false) ∧
    -- The requests that are completed have done what those of `memide.c` do.
    s.history.filterMap Event.request = s.completed ∧
    ∃ m, replay x s.history m₀ = .ok ((), m) ∧ m.buf = s.buf ∧
      (s.completed = s.appended → m.disk = s.disk true) := by
  obtain ⟨q, h⟩ := Inv.reachable hx h₀ hbuf hdisk hr
  have hempty : s.completed = s.appended → q = [] := by
    intro hall
    have happended := h.appended
    rw [← hall] at happended
    exact List.append_cancel_left (happended.symm.trans (List.append_nil _).symm)
  obtain ⟨m, hm, hmbuf, hmdisk⟩ := h.replayed
  refine ⟨⟨_, h.started.symm⟩, ?_, fun hne => ?_, fun hidle => ?_, fun p i s' hvalid hs => ?_,
    fun p i k s' hp hs hidle => ⟨(h.proc p i k hp).2.1, h.returned hs hp hidle⟩, h.requests, m, hm,
    hmbuf, fun hall => ?_⟩
  · rw [h.started, h.appended]
    exact (List.prefix_append_right_inj _).mpr (List.take_prefix 1 q)
  · cases q with
    | nil => exact absurd (h.appended.trans (List.append_nil _)).symm hne
    | cons i t =>
      have hc : s.cmd = some (command (s.buf i)) := h.cmd
      obtain ⟨s', -, hs', -⟩ := h.intr hx hc
      refine ⟨s', ?_⟩
      simp only [next, hc]
      exact hs'
  · cases q with
    | nil => exact (h.appended.trans (List.append_nil _)).symm
    | cons i t =>
      obtain ⟨p, k, -, hp⟩ := h.queued i List.mem_cons_self
      rw [hidle p] at hp
      cases hp
  · simp only [next] at hs
    split at hs
    next hidle =>
      obtain ⟨-, hpc, happended⟩ := h.iderw hidle hvalid.1 hvalid.2 hs
      rw [hpc]
      exact ⟨update_self .., happended⟩
    · cases hs
  · rw [hmdisk, hempty hall]
    rfl

/-! A process writes block 3, and another one reads it into a second buffer. -/

/-- A disk of zeros, and nobody does anything. -/
def quiet : State Bool 2 :=
  { buf := (Bio.State.boot 2 fun _ => Bytes.Block.zero).buf, holder := fun _ => none
    disk := fun _ _ => Bytes.Block.zero, cmd := none, idequeue := none, qnext := fun _ => none
    pc := fun _ => .idle, appended := [], started := [], completed := [], history := [] }

def writeRead : List (Act Bool 2) :=
  [.set 0 ⟨false, true, 1, 3, false, 1, fun _ => 7⟩, .set 1 ⟨false, false, 1, 3, false, 1, fun _ => 0⟩,
    .lock true 0, .lock false 1, .iderw true 0, .iderw false 1, .intr, .resume true, .intr,
    .resume false]

instance (s : State P n) (a : Act P n) : Decidable (a.Valid s) := by
  cases a <;> unfold Act.Valid <;> infer_instance

/-- The steps that are computed. -/
def nextValid (s : State Bool 2) (a : Act Bool 2) : Option (State Bool 2) :=
  if a.Valid s then next true s a else none

theorem step_of_nextValid (s : State Bool 2) (a : Act Bool 2) (s' : State Bool 2)
    (h : nextValid s a = some s') : Step true s s' := by
  unfold nextValid at h
  split at h
  · next hvalid => exact ⟨a, hvalid, h⟩
  · cases h

/-- A disk of as many blocks as the file system has. -/
def memDisk : Machine := ⟨⟨2, 30⟩, fssize, by decide⟩

theorem ide_refines_writeRead : ∃ s m, run nextValid quiet writeRead = some s ∧
    s.completed = [0, 1] ∧ (s.buf 1).data 0 = 7 ∧
    replay memDisk s.history (Bio.State.boot 2 fun _ => Bytes.Block.zero) = .ok ((), m) ∧
    m.buf = s.buf ∧ m.disk = s.disk true := by
  have hrun : (run nextValid quiet writeRead).map
      (fun s => (s.completed, s.appended, (s.buf 1).data 0)) = some ([0, 1], [0, 1], 7) := by
    decide +kernel
  obtain ⟨s, hs, hall⟩ := Option.map_eq_some_iff.mp hrun
  simp only [Prod.mk.injEq] at hall
  have hquiet : Reachable (· = quiet) (Step true) quiet := .init rfl
  have hr := reachable_of_run step_of_nextValid hquiet hs
  have h₀ : quiet.Init := ⟨fun _ => rfl, fun _ => rfl, rfl, rfl, rfl, rfl, rfl, rfl⟩
  have hboot : (Bio.State.boot 2 fun _ => Bytes.Block.zero).buf = quiet.buf := rfl
  obtain ⟨-, -, -, -, -, -, -, m, hm, hbuf, hdisk⟩ :=
    ide_refines (x := memDisk) rfl h₀ hboot rfl hr
  exact ⟨s, m, hs, hall.1, hall.2.2, hm, hbuf, hdisk (hall.1.trans hall.2.1.symm)⟩

end Laboratorio.Xv6.Ide
