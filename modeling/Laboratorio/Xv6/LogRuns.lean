import Laboratorio.Xv6.Crash

/-!
# The log over the life of a disk

A disk goes through many transactions, and the power may fail in each of them. `Machine` is the disk
with its cache and the header that `log.c` keeps in memory: blocks are changed through `log_write`,
a commit makes the changes permanent, and a crash cuts off a commit and any number of the recoveries
after it.

`Atomic` is what the log is for: a disk on which all that has been written since the last commit
becomes permanent at once or is lost. `log_refines` says that no run of the machine can be told from
that.
-/

namespace Laboratorio.Xv6.Durable

open Function Laboratorio.DiskProg

/-- What happens to a disk. -/
inductive Event where
  /-- an operation changes a block in the cache and calls `log_write` -/
  | write (b : UInt32) (v : Blk)
  /-- the last operation ends, and its `end_op` commits -/
  | commit
  /-- the power fails after `n` block writes of the commit, and again after so many of each recovery
  but the last one -/
  | crash (n : Nat) (ns : List Nat)

/-- The disk and its cache, and `log.lh`. -/
structure Machine where
  mem : Mem Blk
  lh : List UInt32

/-- `recover_from_log` after each restart: only the last one comes to its end. -/
def restart (l : Log) : List Nat → Disk Blk → Mem Blk
  | [], d => ((recoverFromLog l).run (.boot d)).2
  | n :: ns, d => restart l ns ((recoverFromLog l).cut (.boot d) n)

def Machine.step (l : Log) (s : Machine) : Event → Except LogFault Machine
  | .write b v => do
    -- inside an operation: `begin_op` has made `outstanding` positive
    let lh ← l.record 1 s.lh b
    return ⟨s.mem.modify b.toNat v, lh⟩
  | .commit => return ⟨((commit l s.lh).run s.mem).2, []⟩
  | .crash n ns => return ⟨restart l ns ((commit l s.lh).cut s.mem n), []⟩

/-- A disk with atomic transactions: what is permanent, what is read, and the blocks changed since
the last commit. -/
structure Atomic where
  stable : Disk Blk
  current : Disk Blk
  pending : List UInt32

/-- A crash keeps the transaction just when its commit has written all its blocks and the header. -/
def Atomic.step (a : Atomic) : Event → Atomic
  | .write b v => ⟨a.stable, update a.current b.toNat v, recordBlock a.pending b⟩
  | .commit => ⟨a.current, a.current, []⟩
  | .crash n _ =>
    if a.pending.length < n then ⟨a.current, a.current, []⟩ else ⟨a.stable, a.stable, []⟩

/-- Operations do not write to the log area. -/
def Event.Outside (l : Log) : Event → Prop
  | .write b _ => ¬ l.Area b.toNat
  | _ => True

/-! ## One event -/

/-- The two disks agree outside the log area, and the log is empty on the disk. -/
structure Agrees (l : Log) (a : Atomic) (s : Machine) : Prop where
  pending : s.lh = a.pending
  fits : l.Fits s.lh
  disk : Clean l a.stable s.mem.disk
  view : ∀ b, ¬ l.Area b → s.mem.view b = a.current b
  same : ∀ b, ¬ l.Area b → b ∉ s.lh.map UInt32.toNat → a.current b = a.stable b

variable {l : Log} {a : Atomic} {s s' : Machine} {c c' d : Disk Blk}

theorem clean_congr (h : Clean l c d) (hc : ∀ b, ¬ l.Area b → c b = c' b) : Clean l c' d :=
  ⟨h.header, fun b hb => (h.blocks b hb).trans (hc b hb)⟩

/-- After a commit the atomic disk has only what was read before. -/
theorem Agrees.settle {m : Mem Blk} (hpos : 0 < l.size) (hm : Clean l c m.disk)
    (hview : ∀ b, ¬ l.Area b → m.view b = c b) : Agrees l ⟨c, c, []⟩ ⟨m, []⟩ :=
  ⟨rfl, .nil hpos, hm, hview, fun _ _ _ => rfl⟩

theorem Agrees.overlay (h : Agrees l a s) {b : Nat} (hb : ¬ l.Area b) :
    overlay s.lh s.mem.view s.mem.disk b = a.current b := by
  by_cases hmem : b ∈ s.lh.map UInt32.toNat
  · rw [overlay_of_mem hmem, h.view b hb]
  · rw [overlay_of_notMem hmem, h.disk.blocks b hb, h.same b hb hmem]

theorem Agrees.write (h : Agrees l a s) {b : UInt32} {v : Blk} (hb : ¬ l.Area b.toNat)
    (hs : s.step l (.write b v) = .ok s') : Agrees l (a.step (.write b v)) s' := by
  cases hlh : l.record 1 s.lh b with
  | error e => simp [Machine.step, hlh, bind, Except.bind] at hs
  | ok lh =>
    obtain rfl : ⟨s.mem.modify b.toNat v, lh⟩ = s' := by
      simpa [Machine.step, hlh, bind, Except.bind, pure, Except.pure] using hs
    obtain ⟨rfl, -⟩ := Log.record_ok hlh
    refine ⟨by rw [h.pending]; rfl, h.fits.record hb hlh, h.disk, fun x hx => ?_,
      fun x hx hmem => ?_⟩
    · simp only [Mem.view_modify, Atomic.step, update_apply, h.view x hx]
    · -- a block that is not in the log now was not in it before, and is not `b`
      have hrecorded : ∀ w, w ∈ s.lh ∨ w = b → x ≠ w.toNat := by
        rintro w hw rfl
        exact hmem (List.mem_map_of_mem (mem_recordBlock.mpr hw))
      refine (update_of_ne (hrecorded b (.inr rfl)) _ _).trans (h.same x hx fun hx' => ?_)
      obtain ⟨w, hw, rfl⟩ := List.mem_map.mp hx'
      exact hrecorded w (.inl hw) rfl

/-- A whole commit leaves an empty log over the blocks of the transaction. -/
theorem clean_commit {lh : List UInt32} (h : l.Fits lh) {m : Mem Blk}
    (h0 : word (m.disk l.start) 0 = 0) :
    Clean l (Xv6.overlay lh m.view m.disk) ((commit l lh).run m).2.disk := by
  unfold commit
  split
  · rw [commitBlocks_eq, Prog.run_bind, Prog.run_bind]
    exact run_install (committed_recovers h m) (committed_header h m) (committed_slot h m).2.overlay
  · next hlen =>
    obtain rfl : lh = [] := List.length_eq_zero_iff.mp (by omega)
    exact ⟨h0, fun b _ => (overlay_of_notMem List.not_mem_nil).symm⟩

theorem Agrees.commit (h : Agrees l a s) :
    Agrees l (a.step .commit) ⟨((Xv6.commit l s.lh).run s.mem).2, []⟩ :=
  .settle (Nat.lt_of_le_of_lt (Nat.zero_le _) h.fits.room)
    (clean_congr (clean_commit h.fits h.disk.header) fun _ => h.overlay)
    fun b hb => (view_commit h.fits s.mem hb).trans (h.view b hb)

/-- The last recovery fulfils the promise of the log, and leaves no changed buffer. -/
theorem restart_clean (ns : List Nat) (h : Recovers l c d) :
    Clean l c (restart l ns d).disk ∧ (restart l ns d).dirty = fun _ => none := by
  induction ns generalizing d with
  | nil => exact ⟨run_recoverFromLog h, Prog.dirty_run _ _ rfl⟩
  | cons n ns ih => exact ih (cut_recoverFromLog h n)

theorem Agrees.crash (h : Agrees l a s) (n : Nat) (ns : List Nat) :
    Agrees l (a.step (.crash n ns)) ⟨restart l ns ((Xv6.commit l s.lh).cut s.mem n), []⟩ := by
  have hpos : 0 < l.size := Nat.lt_of_le_of_lt (Nat.zero_le _) h.fits.room
  have hsettle : ∀ {c c'}, Recovers l c ((Xv6.commit l s.lh).cut s.mem n) →
      (∀ b, ¬ l.Area b → c b = c' b) →
      Agrees l ⟨c', c', []⟩ ⟨restart l ns ((Xv6.commit l s.lh).cut s.mem n), []⟩ := by
    intro c c' hc hcc'
    obtain ⟨hclean, hdirty⟩ := restart_clean ns hc
    have hclean := clean_congr hclean hcc'
    refine .settle hpos hclean fun b hb => ?_
    rw [Mem.view, hdirty]
    exact hclean.blocks b hb
  rw [Atomic.step, ← h.pending]
  -- `write_log` takes `lh.n` writes, and the next one is the header
  split
  · next hn => exact hsettle (cut_commit_after h.fits h.disk.header hn) fun _ => h.overlay
  · next hn =>
    have hold := cut_commit_before h.fits h.disk.header (Nat.le_of_not_lt hn)
    exact hsettle (hold.recovers hpos) h.disk.blocks

/-! ## Runs -/

theorem Agrees.step (h : Agrees l a s) {e : Event} (he : e.Outside l)
    (hs : s.step l e = .ok s') : Agrees l (a.step e) s' := by
  cases e with
  | write b v => exact h.write he hs
  | commit =>
    cases hs
    exact h.commit
  | crash n ns =>
    cases hs
    exact h.crash n ns

theorem Agrees.run (h : Agrees l a s) {es : List Event} (hes : ∀ e ∈ es, e.Outside l)
    (hs : es.foldlM (Machine.step l) s = .ok s') : Agrees l (es.foldl Atomic.step a) s' := by
  induction es generalizing a s with
  | nil =>
    cases hs
    exact h
  | cons e es ih =>
    rw [List.foldlM_cons] at hs
    cases hstep : s.step l e with
    | error f =>
      rw [hstep] at hs
      cases hs
    | ok s₁ =>
      rw [hstep] at hs
      have h₁ := h.step (hes e List.mem_cons_self) hstep
      exact ih h₁ (fun e' he' => hes e' (List.mem_cons_of_mem _ he')) hs

/-- **The log is a disk with atomic transactions.** Over every run of writes, commits and crashes
that starts with an empty log and does not fill it, what is read and what is permanent are those of
the atomic disk, and the log on the disk is empty again. -/
theorem log_refines (hpos : 0 < l.size) (h0 : word (d l.start) 0 = 0) {es : List Event}
    (hes : ∀ e ∈ es, e.Outside l) (hs : es.foldlM (Machine.step l) ⟨.boot d, []⟩ = .ok s') :
    word (s'.mem.disk l.start) 0 = 0 ∧ ∀ b, ¬ l.Area b →
      s'.mem.view b = (es.foldl Atomic.step ⟨d, d, []⟩).current b ∧
      s'.mem.disk b = (es.foldl Atomic.step ⟨d, d, []⟩).stable b := by
  have hstart : Agrees l ⟨d, d, []⟩ ⟨.boot d, []⟩ :=
    .settle hpos ⟨h0, fun _ _ => rfl⟩ fun _ _ => rfl
  have h := hstart.run hes hs
  exact ⟨h.disk.header, fun b hb => ⟨h.view b hb, h.disk.blocks b hb⟩⟩

/-- Block 100 is committed, and a second transaction is lost: its commit is cut off before the
header write, and then the recovery. -/
def lost : Except LogFault Machine :=
  [.write 100 fun _ => 7, .commit, .write 100 fun _ => 8, .crash 1 [0]].foldlM
    (Machine.step ⟨2, 30⟩) ⟨.boot fun _ => Bytes.Block.zero, []⟩

theorem log_refines_lost : ∃ s', lost = .ok s' ∧ s'.mem.view 100 = fun _ => 7 := by
  obtain ⟨s', hs⟩ : ∃ s', lost = .ok s' := ⟨_, rfl⟩
  have h := (log_refines (by decide) (word_zero 0) (by simp [Event.Outside, Log.Area]) hs).2 100
  exact ⟨s', hs, (h (by simp [Log.Area])).1⟩

end Laboratorio.Xv6.Durable
