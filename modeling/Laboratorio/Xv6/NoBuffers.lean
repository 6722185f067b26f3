import Laboratorio.Lib.Count
import Laboratorio.Xv6.Bcache
import Laboratorio.Xv6.BufferProtocol

/-!
# When `bget` finds no buffer

A buffer cannot be recycled while somebody holds it or waits for it, or while it is dirty, which it
is from `log_write` until `commit` has installed its block. A process never needs more than two
buffers at a time, and the dirty ones are those of the blocks in the header of the log (`Inv`). So
`bget` finds a buffer as long as the blocks in the header, and two buffers for each process in a
call, are no more than `NBUF` (`Roomy`). Nothing in the kernel sees to this: `begin_op` bounds the
number of writers only, and with 31 readers of different files the panic is there.
-/

namespace Laboratorio.Xv6.ReadWrite

open Function
open Laboratorio.Bytes Laboratorio.DiskProg Laboratorio.Resumption Laboratorio.Count Laboratorio.Wp
open Laboratorio.Reach Laboratorio.Xv6.Bio

variable {n : Nat} {x : Machine} {d : Disk Blk}

/-! ## What the functions of the cache do to the buffers -/

section Moved

variable {s s' : State n} {order : List (Fin n)} {i : Fin n} {dev b : Nat}

def lockedOf (s : State n) (i : Fin n) : Bool := (s.buf i).locked
def dirtyOf (s : State n) (i : Fin n) : Bool := (s.buf i).dirty

/-- Which buffers are locked and which are dirty after a step; those that were keep their blocks. -/
structure Moved (s s' : State n) (locked dirty : Fin n → Bool) : Prop where
  locked : lockedOf s' = locked
  dirty : dirtyOf s' = dirty
  block : ∀ j, (s.buf j).locked = true ∨ (s.buf j).dirty = true →
    (s'.buf j).blockno = (s.buf j).blockno

/-- A step that changes one buffer. -/
theorem Moved.change {c : Buf} (hbuf : s'.buf = update s.buf i c)
    (hblock : (s.buf i).locked = true ∨ (s.buf i).dirty = true → c.blockno = (s.buf i).blockno) :
    Moved s s' (update (lockedOf s) i c.locked) (update (dirtyOf s) i c.dirty) := by
  refine ⟨?_, ?_, fun j hj => ?_⟩
  · show (fun j => (s'.buf j).locked) = _
    rw [hbuf]
    exact comp_update Buf.locked s.buf i c
  · show (fun j => (s'.buf j).dirty) = _
    rw [hbuf]
    exact comp_update Buf.dirty s.buf i c
  · rw [hbuf]
    by_cases hji : j = i
    · subst hji
      rw [update_self]
      exact hblock hj
    · rw [update_of_ne hji]

/-- A step that changes one buffer, which is dirty or clean as before. -/
theorem Moved.lock {c : Buf} (hbuf : s'.buf = update s.buf i c)
    (hblock : (s.buf i).locked = true ∨ (s.buf i).dirty = true → c.blockno = (s.buf i).blockno)
    (hdirty : c.dirty = (s.buf i).dirty) :
    Moved s s' (update (lockedOf s) i c.locked) (dirtyOf s) := by
  have h := Moved.change hbuf hblock
  rwa [hdirty, show (s.buf i).dirty = dirtyOf s i from rfl, update_eq_self] at h

/-- A step that changes one buffer, which is locked or free as before. -/
theorem Moved.mark {c : Buf} (hbuf : s'.buf = update s.buf i c)
    (hblock : (s.buf i).locked = true ∨ (s.buf i).dirty = true → c.blockno = (s.buf i).blockno)
    (hlocked : c.locked = (s.buf i).locked) :
    Moved s s' (lockedOf s) (update (dirtyOf s) i c.dirty) := by
  have h := Moved.change hbuf hblock
  rwa [hlocked, show (s.buf i).locked = lockedOf s i from rfl, update_eq_self] at h

/-- `bget` takes a buffer that is neither locked nor dirty, or one of the block. -/
theorem bget_moved (h : Bio.Inv x d s order) :
    wp (Bio.bget dev b) (fun _ s' => Moved s s' (lockedOf s) (dirtyOf s)) (fun _ => True) s := by
  simp only [Bio.bget, wp_bind, wp_get]
  rw [h.lists.cached]
  cases hf : order.find? (s.isBlock dev b) with
  | some i =>
    rw [← update_eq_self i (lockedOf s)]
    exact Moved.lock (c := { s.buf i with refcnt := (s.buf i).refcnt + 1 }) rfl (fun _ => rfl) rfl
  | none =>
    simp only [Option.map_none]
    rw [h.lists.unused]
    cases hu : order.reverse.find?
        (fun i => decide ((s.buf i).refcnt = 0 ∧ (s.buf i).dirty = false)) with
    | none => trivial
    | some i =>
      have hfree := List.find?_some hu
      obtain ⟨hr, hd⟩ := of_decide_eq_true hfree
      have hl := (h.unreferenced hr).1
      rw [← update_eq_self i (lockedOf s)]
      refine Moved.lock (c := ⟨false, false, dev, b, (s.buf i).locked, 1, (s.buf i).data⟩) rfl
        (fun hused => ?_) hd.symm
      simp [hl, hd] at hused

/-- The rest of `bread` locks the buffer. -/
theorem breadRest_moved (h : Bio.Inv x d s order) {k : Nat} :
    wp (Bio.breadRest x k)
      (fun i s' => Moved s s' (update (lockedOf s) i true) (dirtyOf s)) (fun _ => True) s := by
  simp only [Bio.breadRest, wp_bind, wp_get]
  cases hw : s.waiting[k]? with
  | none => trivial
  | some w =>
    simp only [wp_bind, wp_ite, wp_throw, wp_set, wp_pure]
    refine ⟨fun _ => trivial, fun _ => ⟨fun hv => ?_, fun _ => ?_⟩⟩
    · have hd : (s.buf w.buf).dirty = false := by
        by_contra hd
        have := h.valid w.buf (.inl (by simpa using hd))
        rw [hv] at this
        cases this
      refine wp_iderw_read (by simp) (by simpa using hv) (by simpa using hd) (fun _ _ => trivial)
        fun _ _ => ?_
      exact Moved.lock (c := { s.buf w.buf with
        locked := true, valid := true, data := s.disk (s.buf w.buf).blockno })
        (by simp [State.setBuf]) (fun _ => rfl) rfl
    · exact Moved.lock (c := { s.buf w.buf with locked := true }) rfl (fun _ => rfl) rfl

/-- A buffer that is stored and written is clean. -/
theorem stored_moved {v : Blk} {dirty : Bool} {lh : List UInt32} :
    Moved s (s.stored i v dirty lh) (lockedOf s) (update (dirtyOf s) i dirty) :=
  Moved.mark (c := { s.buf i with data := v, valid := true, dirty := dirty }) rfl (fun _ => rfl) rfl

theorem bwrite_stored (h : Bio.Inv x d s order) {v : Blk} :
    wp (do
        Bio.store i v
        Bio.bwrite x i)
      (fun _ s' => s' = s.stored i v false s.lh ∧ Bio.Inv x d s' order) (fun _ => True) s := by
  rw [wp_bind]
  exact wp_bwrite h fun _ hinv => ⟨rfl, hinv⟩

theorem logWrite_stored (h : Bio.Inv x d s order) {v : Blk} :
    wp (do
        Bio.store i v
        Bio.logWrite x i)
      (fun _ s' => s' = s.stored i v true (recordBlock s.lh (UInt32.ofNat (s.buf i).blockno)) ∧
        Bio.Inv x d s' order) (fun _ => True) s := by
  simp only [wp_bind, Bio.store, Bio.logWrite, wp_get, wp_ite, wp_throw, wp_set]
  refine ⟨fun _ => trivial, fun hl => ?_⟩
  rw [Bool.not_eq_false] at hl
  split
  · trivial
  next lh hlh =>
    have hvi := h.valid i (.inr hl)
    replace hlh : x.log.record 1 s.lh (UInt32.ofNat (s.buf i).blockno) = .ok lh := by
      simpa [State.setBuf] using hlh
    obtain ⟨rfl, -⟩ := Log.record_ok hlh
    have hinv : Bio.Inv x d (s.stored i v true _) order := h.stored hl (h.header.record hlh)
    suffices hs : _ = s.stored i v true _ from ⟨hs, hs ▸ hinv⟩
    simp [State.stored, State.setBuf, hvi]

theorem brelse_moved :
    wp (Bio.brelse i) (fun _ s' => Moved s s' (update (lockedOf s) i false) (dirtyOf s))
      (fun _ => True) s := by
  simp only [Bio.brelse, wp_bind, wp_get, wp_ite, wp_throw, wp_set]
  refine ⟨fun _ => trivial, fun _ => ⟨fun _ => ?_, fun _ => ?_⟩⟩
  · exact Moved.lock (c := { s.buf i with locked := false, refcnt := (s.buf i).refcnt - 1 }) rfl
      (fun _ => rfl) rfl
  · exact Moved.lock (c := { s.buf i with locked := false, refcnt := (s.buf i).refcnt - 1 }) rfl
      (fun _ => rfl) rfl

end Moved

/-! ## Who holds the buffers -/

/-- The locked buffers are those that the processes hold. -/
structure Bufs (s : State n) (held : Fin nproc → List (Fin n × Nat)) : Prop where
  locked : ∀ i, lockedOf s i = true → ∃ p b, (i, b) ∈ held p
  holds : ∀ p i b, (i, b) ∈ held p → lockedOf s i = true ∧ (s.buf i).blockno = b
  apart : ∀ p q i b b', (i, b) ∈ held p → (i, b') ∈ held q → p = q

section Bufs

variable {s s' : State n} {held : Fin nproc → List (Fin n × Nat)} {dirty : Fin n → Bool} {i : Fin n}
  {b : Nat} {p : Fin nproc}

theorem Bufs.same (h : Bufs s held) (hm : Moved s s' (lockedOf s) dirty) : Bufs s' held := by
  refine ⟨fun i hi => ?_, fun p i b hb => ?_, h.apart⟩
  · rw [hm.locked] at hi
    exact h.locked i hi
  · obtain ⟨hl, hblock⟩ := h.holds p i b hb
    rw [hm.locked, hm.block i (.inl hl)]
    exact ⟨hl, hblock⟩

/-- Process `p` gets the lock of a buffer that was free. -/
theorem Bufs.acquire (h : Bufs s held) (hm : Moved s s' (update (lockedOf s) i true) dirty)
    (hfree : lockedOf s i = false) (hblock : (s'.buf i).blockno = b) :
    Bufs s' (update held p ((i, b) :: held p)) := by
  have hnew : ∀ q b', (i, b') ∉ held q := by
    intro q b' hq
    have hl := (h.holds q i b' hq).1
    rw [hfree] at hl
    cases hl
  have hmem : ∀ q j b', (j, b') ∈ update held p ((i, b) :: held p) q →
      (q = p ∧ j = i ∧ b' = b) ∨ (j ≠ i ∧ (j, b') ∈ held q) := by
    intro q j b' hq
    have hold : (j, b') ∈ held q → j ≠ i ∧ (j, b') ∈ held q := by
      intro hin
      refine ⟨?_, hin⟩
      rintro rfl
      exact hnew q b' hin
    by_cases hqp : q = p
    · subst hqp
      rw [update_self, List.mem_cons] at hq
      rcases hq with heq | hq
      · cases heq
        exact .inl ⟨rfl, rfl, rfl⟩
      · exact .inr (hold hq)
    · rw [update_of_ne hqp] at hq
      exact .inr (hold hq)
  refine ⟨fun j hj => ?_, fun q j b' hq => ?_, fun q q' j a a' hq hq' => ?_⟩
  · by_cases hji : j = i
    · refine ⟨p, b, ?_⟩
      rw [hji, update_self]
      exact List.mem_cons_self
    · rw [hm.locked, update_of_ne hji] at hj
      obtain ⟨q, b', hq⟩ := h.locked j hj
      refine ⟨q, b', ?_⟩
      by_cases hqp : q = p
      · subst hqp
        rw [update_self]
        exact List.mem_cons_of_mem _ hq
      · rwa [update_of_ne hqp]
  · rcases hmem q j b' hq with ⟨-, rfl, rfl⟩ | ⟨hji, hq⟩
    · rw [hm.locked, update_self]
      exact ⟨rfl, hblock⟩
    · obtain ⟨hl, hb⟩ := h.holds q j b' hq
      rw [hm.locked, update_of_ne hji, hm.block j (.inl hl)]
      exact ⟨hl, hb⟩
  · rcases hmem q j a hq with ⟨rfl, rfl, -⟩ | ⟨hji, hq⟩
    · rcases hmem q' j a' hq' with ⟨rfl, -⟩ | ⟨hji, -⟩
      · rfl
      · exact absurd rfl hji
    · rcases hmem q' j a' hq' with ⟨-, rfl, -⟩ | ⟨-, hq'⟩
      · exact absurd rfl hji
      · exact h.apart q q' j a a' hq hq'

/-- Process `p` lets a buffer go. -/
theorem Bufs.release (h : Bufs s held) (hm : Moved s s' (update (lockedOf s) i false) dirty)
    (hi : (i, b) ∈ held p) :
    Bufs s' (update held p ((held p).filter (·.1 ≠ i))) := by
  have hmem : ∀ q j b', (j, b') ∈ update held p ((held p).filter (·.1 ≠ i)) q ↔
      j ≠ i ∧ (j, b') ∈ held q := by
    intro q j b'
    by_cases hqp : q = p
    · subst hqp
      rw [update_self, List.mem_filter]
      simp [and_comm]
    · rw [update_of_ne hqp]
      refine ⟨fun hq => ⟨?_, hq⟩, And.right⟩
      rintro rfl
      exact hqp (h.apart q p j b' b hq hi)
  refine ⟨fun j hj => ?_, fun q j b' hq => ?_, fun q q' j a a' hq hq' => ?_⟩
  · have hji : j ≠ i := by
      rintro rfl
      rw [hm.locked, update_self] at hj
      cases hj
    rw [hm.locked, update_of_ne hji] at hj
    obtain ⟨q, b', hq⟩ := h.locked j hj
    exact ⟨q, b', (hmem q j b').mpr ⟨hji, hq⟩⟩
  · obtain ⟨hji, hq⟩ := (hmem q j b').mp hq
    obtain ⟨hl, hb⟩ := h.holds q j b' hq
    rw [hm.locked, update_of_ne hji, hm.block j (.inl hl)]
    exact ⟨hl, hb⟩
  · exact h.apart q q' j a a' ((hmem q j a).mp hq).2 ((hmem q' j a').mp hq').2

end Bufs

/-! ## The log -/

/-- The dirty buffers are those of blocks in `l`. -/
def DirtyIn (s : State n) (l : List UInt32) : Prop :=
  ∀ i, dirtyOf s i = true → UInt32.ofNat (s.buf i).blockno ∈ l

/-- The transactions that run, and the commit: nobody else is in a transaction then. -/
structure LogOk (s : State n) (outstanding : Nat) (committing : Bool) (mode : Fin nproc → Mode) :
    Prop where
  ops : outstanding = occ (fun p => (mode p).isInOp) true
  commit : ∀ p lh pending, mode p = .committing lh pending →
    committing = true ∧ outstanding = 0 ∧ s.lh = lh ∧ pending ⊆ lh ∧ DirtyIn s pending
  single : ∀ p q lh pending lh' pending', mode p = .committing lh pending →
    mode q = .committing lh' pending' → p = q
  dirty : DirtyIn s s.lh

section LogOk

variable {s s' : State n} {outstanding : Nat} {committing : Bool} {mode : Fin nproc → Mode}
  {locked : Fin n → Bool} {p : Fin nproc}

theorem DirtyIn.same {l : List UInt32} (h : DirtyIn s l) (hm : Moved s s' locked (dirtyOf s)) :
    DirtyIn s' l := by
  intro i hi
  rw [hm.dirty] at hi
  rw [hm.block i (.inr hi)]
  exact h i hi

theorem LogOk.same (h : LogOk s outstanding committing mode) (hm : Moved s s' locked (dirtyOf s))
    (hlh : s'.lh = s.lh) : LogOk s' outstanding committing mode := by
  refine ⟨h.ops, fun p lh pending hp => ?_, h.single, ?_⟩
  · obtain ⟨hc, ho, hl, hsub, hd⟩ := h.commit p lh pending hp
    exact ⟨hc, ho, hlh.trans hl, hsub, hd.same hm⟩
  · rw [hlh]
    exact h.dirty.same hm

/-- Nobody commits while a transaction runs. -/
theorem LogOk.no_commit (h : LogOk s outstanding committing mode) (hrun : 0 < outstanding)
    {lh pending : List UInt32} : mode p ≠ .committing lh pending := by
  intro hp
  have := (h.commit p lh pending hp).2.1
  omega

/-- The mode of one process changes, and nobody else commits. -/
theorem LogOk.setMode (h : LogOk s outstanding committing mode) {m : Mode} {outstanding' : Nat}
    {committing' : Bool} (hdirty : DirtyIn s' s'.lh)
    (hops : outstanding' + (if (mode p).isInOp = true then 1 else 0) =
      outstanding + if m.isInOp = true then 1 else 0)
    (hself : ∀ lh pending, m = .committing lh pending →
      committing' = true ∧ outstanding' = 0 ∧ s'.lh = lh ∧ pending ⊆ lh ∧ DirtyIn s' pending)
    (hother : ∀ q, q ≠ p → ∀ lh pending, mode q ≠ .committing lh pending) :
    LogOk s' outstanding' committing' (update mode p m) := by
  have hmem : ∀ q lh pending, update mode p m q = .committing lh pending →
      q = p ∧ m = .committing lh pending := by
    intro q lh pending hq
    by_cases hqp : q = p
    · rw [hqp, update_self] at hq
      exact ⟨hqp, hq⟩
    · rw [update_of_ne hqp] at hq
      exact absurd hq (hother q hqp lh pending)
  refine ⟨?_, fun q lh pending hq => ?_, fun q q' lh pending lh' pending' hq hq' => ?_, hdirty⟩
  · have hupdate : (fun q => (update mode p m q).isInOp) =
        update (fun q => (mode q).isInOp) p m.isInOp :=
      comp_update Mode.isInOp mode p m
    have hocc := occ_update (fun q => (mode q).isInOp) p m.isInOp true
    have hops₀ := h.ops
    rw [hupdate]
    omega
  · exact hself lh pending (hmem q lh pending hq).2
  · rw [(hmem q lh pending hq).1, (hmem q' lh' pending' hq').1]

end LogOk

/-! ## Operations -/

/-- What holds of the shared state, when the processes have the views `V`. -/
structure Shared (x : Machine) (d : Disk Blk) (s : Sys n) (V : Fin nproc → View n) : Prop where
  cache : ∃ order, Bio.Inv x d s.cache order
  bufs : Bufs s.cache (View.held ∘ V)
  log : LogOk s.cache s.outstanding s.committing (View.mode ∘ V)

section Shared

variable {s s' : Sys n} {V : Fin nproc → View n} {p : Fin nproc}

theorem bio_ok {α : Type} {m : Bio.M n α} {a : α} (h : s.bio m = .ok (a, s')) :
    m s.cache = .ok (a, s'.cache) ∧ s' = { s with cache := s'.cache } := by
  unfold Sys.bio at h
  split at h
  · cases h
  next hm =>
    cases h
    exact ⟨hm, rfl⟩

theorem bio_error {α : Type} {m : Bio.M n α} {e : Stop} (h : s.bio m = .error e) :
    ∃ f, e = .bio f ∧ m s.cache = .error f := by
  unfold Sys.bio at h
  split at h
  next f hm =>
    cases h
    exact ⟨f, rfl, hm⟩
  · cases h

/-- Process `p` holds other buffers. -/
theorem Shared.setHeld {held : List (Fin n × Nat)}
    (hbufs : Bufs s'.cache (update (View.held ∘ V) p held))
    (hlog : LogOk s'.cache s'.outstanding s'.committing (View.mode ∘ V))
    (hcache : ∃ order, Bio.Inv x d s'.cache order) :
    Shared x d s' (update V p { V p with held := held }) := by
  refine ⟨hcache, ?_, ?_⟩
  · rw [comp_update]
    exact hbufs
  · rw [comp_update]
    exact (update_eq_self p (View.mode ∘ V)).symm ▸ hlog

/-- Process `p` goes to another mode. -/
theorem Shared.goto {mode : Mode} (hbufs : Bufs s'.cache (View.held ∘ V))
    (hlog : LogOk s'.cache s'.outstanding s'.committing (update (View.mode ∘ V) p mode))
    (hcache : ∃ order, Bio.Inv x d s'.cache order) :
    Shared x d s' (update V p { V p with mode := mode }) := by
  refine ⟨hcache, ?_, ?_⟩
  · rw [comp_update]
    exact (update_eq_self p (View.held ∘ V)).symm ▸ hbufs
  · rw [comp_update]
    exact hlog

/-- The same state and the same view. -/
theorem Shared.same (h : Shared x d s V) (hcache : s'.cache = s.cache)
    (hout : s'.outstanding = s.outstanding) (hcom : s'.committing = s.committing) :
    Shared x d s' (update V p (V p)) := by
  rw [update_eq_self]
  exact ⟨hcache ▸ h.cache, hcache ▸ h.bufs, hcache ▸ hout ▸ hcom ▸ h.log⟩

theorem Shared.brelse (h : Shared x d s V) {i : Fin n} (hi : ∃ b, (i, b) ∈ (V p).held)
    (hs : s.bio (Bio.brelse i) = .ok ((), s')) :
    Shared x d s' (update V p { V p with held := (V p).held.filter (·.1 ≠ i) }) ∧
      s'.cache.waiting = s.cache.waiting ∧ s'.thread = s.thread := by
  obtain ⟨order, hinv⟩ := h.cache
  obtain ⟨hm, hs'⟩ := bio_ok hs
  obtain ⟨b, hb⟩ := hi
  have hmoved := brelse_moved.ok hm
  obtain ⟨hinv', -, hlh, -, hwait, -⟩ := (wp_brelse hinv).ok hm
  refine ⟨.setHeld (h.bufs.release hmoved hb) ?_ hinv', hwait, by rw [hs']⟩
  rw [hs']
  exact h.log.same hmoved hlh

/-- Blocks of valid buffers have numbers below `2 ^ 32`. -/
theorem blockno_inj {s : State n} {order : List (Fin n)} (h : Bio.Inv x d s order) {i j : Fin n}
    (hi : (s.buf i).valid = true) (hj : (s.buf j).valid = true)
    (heq : UInt32.ofNat (s.buf i).blockno = UInt32.ofNat (s.buf j).blockno) :
    (s.buf i).blockno = (s.buf j).blockno := by
  have hsmall := x.small
  have hbi := (h.range i hi).2
  have hbj := (h.range j hj).2
  have hnat := congrArg UInt32.toNat heq
  rwa [UInt32.toNat_ofNat', UInt32.toNat_ofNat', Nat.mod_eq_of_lt (by omega),
    Nat.mod_eq_of_lt (by omega)] at hnat

/-- A block that is written in a commit is not pending any more. -/
theorem Shared.bwrite (h : Shared x d s V) {i : Fin n} {v : Blk}
    (hi : ∃ b, (i, b) ∈ (V p).held) {lh pending : List UInt32}
    (hp : (V p).mode = .committing lh pending)
    (hs : s.bio (do
      Bio.store i v
      Bio.bwrite x i) = .ok ((), s')) :
    ∃ b, (i, b) ∈ (V p).held ∧
      Shared x d s' (update V p { V p with mode := (V p).mode.written b }) ∧
      s'.cache.waiting = s.cache.waiting ∧ s'.thread = s.thread := by
  obtain ⟨order, hinv⟩ := h.cache
  obtain ⟨hm, hs'⟩ := bio_ok hs
  obtain ⟨b, hb⟩ := hi
  obtain ⟨hst, hinv'⟩ := (bwrite_stored hinv).ok hm
  obtain ⟨hl, hblock⟩ := h.bufs.holds p i b hb
  have hmoved : Moved s.cache s'.cache (lockedOf s.cache) (update (dirtyOf s.cache) i false) := by
    rw [hst]
    exact stored_moved
  -- no other dirty buffer is one of the block
  have hdirty : ∀ {l : List UInt32}, DirtyIn s.cache l →
      DirtyIn s'.cache (l.filter (· ≠ UInt32.ofNat b)) := by
    intro l hd j hj
    rw [hmoved.dirty] at hj
    have hji : j ≠ i := by
      rintro rfl
      rw [update_self] at hj
      cases hj
    rw [update_of_ne hji] at hj
    rw [hmoved.block j (.inr hj), List.mem_filter]
    refine ⟨hd j hj, decide_eq_true fun heq => hji ?_⟩
    have hvj := hinv.valid j (.inl hj)
    have hvi := hinv.valid i (.inr hl)
    exact hinv.same_of_blockno hvj hvi (blockno_inj hinv hvj hvi (heq.trans (by rw [hblock])))
  obtain ⟨hcom, hout, hlh, hsub, hd⟩ := h.log.commit p lh pending hp
  have hlh' : s'.cache.lh = lh := by
    rw [hst]
    exact hlh
  have hfilter : pending.filter (· ≠ UInt32.ofNat b) ⊆ lh :=
    List.Subset.trans (List.filter_subset_self _) hsub
  refine ⟨b, hb, .goto (h.bufs.same hmoved) ?_ ⟨order, hinv'⟩, by rw [hst]; rfl, by rw [hs']⟩
  rw [hs', hp]
  refine h.log.setMode ?_ ?_ ?_ ?_
  · intro j hj
    rw [hlh']
    exact hfilter (hdirty hd j hj)
  · rw [show (View.mode ∘ V) p = .committing lh pending from hp]
    rfl
  · intro lh₁ pending₁ heq
    cases heq
    exact ⟨hcom, hout, hlh', hfilter, hdirty hd⟩
  · intro q hq lh₁ pending₁ hq₁
    exact hq (h.log.single q p lh₁ pending₁ lh pending hq₁ hp)

/-- `log_write` records the block of the buffer it makes dirty; there is no commit then. -/
theorem Shared.logWrite (h : Shared x d s V) {i : Fin n} {v : Blk} {lh : List UInt32}
    (hrec : x.log.record s.outstanding s.cache.lh (UInt32.ofNat (s.cache.buf i).blockno) = .ok lh)
    (hs : s.bio (do
      Bio.store i v
      Bio.logWrite x i) = .ok ((), s')) :
    Shared x d s' V ∧ s'.cache.waiting = s.cache.waiting ∧ s'.thread = s.thread := by
  obtain ⟨order, hinv⟩ := h.cache
  obtain ⟨hm, hs'⟩ := bio_ok hs
  obtain ⟨hst, hinv'⟩ := (logWrite_stored hinv).ok hm
  obtain ⟨-, -, -, hrun⟩ := Log.record_ok hrec
  have hmoved : Moved s.cache s'.cache (lockedOf s.cache) (update (dirtyOf s.cache) i true) := by
    rw [hst]
    exact stored_moved
  refine ⟨⟨⟨order, hinv'⟩, h.bufs.same hmoved, ?_⟩, by rw [hst]; rfl, by rw [hs']⟩
  rw [hs']
  refine ⟨h.log.ops, fun p lh pending hp => absurd hp (h.log.no_commit hrun), h.log.single, ?_⟩
  intro j hj
  show UInt32.ofNat (s'.cache.buf j).blockno ∈ s'.cache.lh
  have hlh : s'.cache.lh = recordBlock s.cache.lh (UInt32.ofNat (s.cache.buf i).blockno) := by
    rw [hst]
    rfl
  rw [hlh, mem_recordBlock]
  by_cases hji : j = i
  · right
    rw [hji, hst, State.stored_buf, if_pos rfl]
  · left
    have hdj : dirtyOf s.cache j = true := by
      have hdirty : dirtyOf s'.cache j = true := hj
      rwa [hmoved.dirty, update_of_ne hji] at hdirty
    rw [hmoved.block j (.inr hdj)]
    exact h.log.dirty j hdj

/-- A step of process `p` in the log that leaves the buffers alone. -/
theorem Shared.setMode (h : Shared x d s V) {m : Mode} (hbuf : s'.cache.buf = s.cache.buf)
    (hcache : ∃ order, Bio.Inv x d s'.cache order)
    (hops : s'.outstanding + (if (V p).mode.isInOp = true then 1 else 0) =
      s.outstanding + if m.isInOp = true then 1 else 0)
    (hdirty : DirtyIn s'.cache s'.cache.lh)
    (hself : ∀ lh pending, m = .committing lh pending → s'.committing = true ∧
      s'.outstanding = 0 ∧ s'.cache.lh = lh ∧ pending ⊆ lh ∧ DirtyIn s'.cache pending)
    (hother : ∀ q, q ≠ p → ∀ lh pending, (V q).mode ≠ .committing lh pending) :
    Shared x d s' (update V p { V p with mode := m }) := by
  have hmoved : Moved s.cache s'.cache (lockedOf s.cache) (dirtyOf s.cache) := by
    refine ⟨?_, ?_, fun j _ => ?_⟩
    · unfold lockedOf
      rw [hbuf]
    · unfold dirtyOf
      rw [hbuf]
    · rw [hbuf]
  exact .goto (h.bufs.same hmoved) (h.log.setMode hdirty hops hself hother) hcache

/-- Nobody else commits when process `p` does. -/
theorem Shared.only (h : Shared x d s V) {lh pending : List UInt32}
    (hp : (V p).mode = .committing lh pending) :
    ∀ q, q ≠ p → ∀ lh' pending', (V q).mode ≠ .committing lh' pending' := by
  intro q hq lh' pending' hq'
  exact hq (h.log.single q p lh' pending' lh pending hq' hp)

/-- A transaction of process `p` runs. -/
theorem Shared.running (h : Shared x d s V) (hp : (V p).mode = .inOp) : 0 < s.outstanding := by
  rw [h.log.ops, occ_pos]
  refine ⟨p, ?_⟩
  show (V p).mode.isInOp = true
  rw [hp]
  rfl

/-- **An operation** other than `bread` keeps to what the protocol says of it. -/
theorem Shared.perform (h : Shared x d s V) {o : Op n} (hpre : (protocol n).pre o (V p)) {r : o.Res}
    (hs : s.perform x p o = .ok (r, s')) :
    ∃ v, (protocol n).post o (V p) r v ∧ Shared x d s' (update V p v) ∧
      s'.cache.waiting = s.cache.waiting ∧ s'.thread = s.thread := by
  cases o with
  | bread b => cases hs
  | logWrite bp data =>
    simp only [Sys.perform] at hs
    split at hs
    · cases hs
    next lh hrec =>
      obtain ⟨h', hrest⟩ := h.logWrite hrec hs
      refine ⟨V p, rfl, ?_, hrest⟩
      rwa [update_eq_self]
  | bwrite bp data =>
    obtain ⟨hb, lh, pending, hp⟩ := hpre
    obtain ⟨b, hb', h', hrest⟩ := h.bwrite hb hp hs
    exact ⟨_, ⟨b, hb', rfl⟩, h', hrest⟩
  | brelse bp =>
    obtain ⟨h', hrest⟩ := h.brelse hpre hs
    exact ⟨_, rfl, h', hrest⟩
  | beginOp =>
    simp only [Sys.perform] at hs
    split at hs
    · cases hs
    next hfree =>
      cases hs
      have hp : (V p).mode = .outside := hpre
      refine ⟨_, rfl, h.setMode rfl h.cache ?_ h.log.dirty nofun ?_, rfl, rfl⟩
      · rw [hp]
        rfl
      · intro q _ lh pending hq
        exact hfree (.inl (h.log.commit q lh pending hq).1)
  | endOp =>
    simp only [Sys.perform] at hs
    split at hs
    · cases hs
    · have hp : (V p).mode = .inOp := hpre
      have hrun := h.running hp
      have hother : ∀ q, q ≠ p → ∀ lh pending, (V q).mode ≠ .committing lh pending :=
        fun q _ lh pending => h.log.no_commit hrun
      split at hs
      next hlast =>
        cases hs
        refine ⟨_, ⟨s.cache.lh, rfl⟩, h.setMode rfl h.cache ?_ h.log.dirty ?_ hother, rfl, rfl⟩
        · rw [hp]
          show 0 + 1 = s.outstanding + 0
          omega
        · intro lh pending heq
          cases heq
          exact ⟨rfl, rfl, rfl, List.Subset.refl _, h.log.dirty⟩
      next hlast =>
        cases hs
        refine ⟨_, rfl, h.setMode rfl h.cache ?_ h.log.dirty nofun hother, rfl, rfl⟩
        rw [hp]
        show s.outstanding - 1 + 1 = s.outstanding + 0
        omega
  | header =>
    cases hs
    refine ⟨V p, ⟨rfl, fun lh pending hp => (h.log.commit p lh pending hp).2.2.1⟩, ?_, rfl, rfl⟩
    exact h.same rfl rfl rfl
  | clearHeader =>
    cases hs
    obtain ⟨lh, hp⟩ := hpre
    obtain ⟨order, hinv⟩ := h.cache
    obtain ⟨hcom, hout, -, -, hclean⟩ := h.log.commit p lh [] hp
    refine ⟨_, rfl, h.setMode rfl ⟨order, { hinv with header := .nil _ }⟩ ?_ hclean ?_ (h.only hp),
      rfl, rfl⟩
    · rw [hp]
      rfl
    · intro lh' pending' heq
      cases heq
      exact ⟨hcom, hout, rfl, List.Subset.refl _, hclean⟩
  | committed =>
    cases hs
    obtain ⟨lh, pending, hp⟩ := hpre
    refine ⟨_, rfl, h.setMode rfl h.cache ?_ h.log.dirty nofun (h.only hp), rfl, rfl⟩
    rw [hp]
    rfl
  | acquiresleep ip =>
    simp only [Sys.perform] at hs
    split at hs
    · cases hs
      exact ⟨V p, rfl, h.same rfl rfl rfl, rfl, rfl⟩
    · cases hs
  | iunlock ip =>
    simp only [Sys.perform] at hs
    split at hs
    · cases hs
    · cases hs
      exact ⟨V p, rfl, h.same rfl rfl rfl, rfl, rfl⟩
  | inode | setCopy | file | setOff =>
    cases hs
    exact ⟨V p, rfl, h.same rfl rfl rfl, rfl, rfl⟩
  | panic e => cases hs

/-- No view has more buffers after an operation other than `bread`. -/
theorem post_held {v v' : View n} {o : Op n} {r : o.Res} (hb : ∀ b, o ≠ .bread b)
    (h : (protocol n).post o v r v') : v'.held.length ≤ v.held.length := by
  cases o with
  | bread b => exact absurd rfl (hb b)
  | bwrite bp data =>
    obtain ⟨b, -, rfl⟩ := h
    exact Nat.le_refl _
  | brelse bp =>
    cases h
    exact List.length_filter_le _ _
  | endOp =>
    cases r with
    | true =>
      obtain ⟨lh, rfl⟩ := h
      exact Nat.le_refl _
    | false =>
      cases h
      exact Nat.le_refl _
  | header =>
    rw [h.1]
  | panic e => cases r
  | logWrite | beginOp | clearHeader | committed | acquiresleep | iunlock | inode | setCopy | file
  | setOff =>
    cases h
    exact Nat.le_refl _

end Shared

/-! ## Threads -/

/-- The `bread` in which a process waits. -/
def Thread.waiter : Thread n → Multiset (Waiter n)
  | .waiting w _ => {w}
  | _ => 0

/-- What is left of a call obeys the protocol. -/
def Thread.Ok : Thread n → View n → Prop
  | .idle, v => v = .quiet
  | .running m, v => v.held.length ≤ 2 ∧ Obeys (protocol n) (fun _ v' => v' = .quiet) m v
  | .waiting w k, v => v.held.length ≤ 1 ∧ ∀ data, (∀ b, (w.buf, b) ∉ v.held) →
      Obeys (protocol n) (fun _ v' => v' = .quiet) (k (w.buf, data))
        { v with held := (w.buf, w.blockno) :: v.held }

/-- **The invariant**, with the views of the processes. -/
structure Inv (x : Machine) (d : Disk Blk) (s : Sys n) (V : Fin nproc → View n) : Prop where
  shared : Shared x d s V
  waiting : (s.cache.waiting : Multiset (Waiter n)) = ∑ p, (s.thread p).waiter
  threads : ∀ p, (s.thread p).Ok (V p)

section Threads

variable {s s' : Sys n} {V : Fin nproc → View n} {p : Fin nproc} {c : Config}

/-- Process `p` has made a step, to the thread `t` and the view `v`. -/
theorem Inv.setThread (h : Inv x d s V) {t : Thread n} {v : View n}
    (hshared : Shared x d s' (update V p v)) (hthread : s'.thread = s.thread)
    (hws : (s'.cache.waiting : Multiset (Waiter n)) + (s.thread p).waiter =
      s.cache.waiting + t.waiter) (ht : t.Ok v) :
    Inv x d (s'.setThread p t) (update V p v) := by
  refine ⟨⟨hshared.cache, hshared.bufs, hshared.log⟩, ?_, fun q => ?_⟩
  · have hsum := sum_update (Finset.mem_univ p) (fun _ t => Thread.waiter t) s.thread t
    show (s'.cache.waiting : Multiset (Waiter n)) = ∑ q, (update s'.thread p t q).waiter
    rw [hthread]
    apply add_right_cancel (b := (s.thread p).waiter)
    rw [hws, h.waiting, ← hsum]
  · show (update s'.thread p t q).Ok (update V p v q)
    rw [hthread]
    by_cases hq : q = p
    · subst hq
      rw [update_self, update_self]
      exact ht
    · rw [update_of_ne hq, update_of_ne hq]
      exact h.threads q

theorem Inv.bget (h : Inv x d s V) {b : Nat} {k : Fin n × Blk → K n Int}
    (ht : s.thread p = .running (.op (.bread b) k)) {w : Waiter n} {s₁ : Sys n}
    (hs : s.bio (Bio.bget rootdev b) = .ok ((), s₁)) (hw : s₁.cache.waiting.head? = some w) :
    Inv x d (s₁.setThread p (.waiting w k)) V := by
  obtain ⟨order, hinv⟩ := h.shared.cache
  obtain ⟨hm, hs₁⟩ := bio_ok hs
  have hmoved := (bget_moved hinv).ok hm
  obtain ⟨hinv', hquiet, i, hwait⟩ := (wp_bget hinv).ok hm
  rw [hwait, List.head?_cons] at hw
  cases hw
  obtain ⟨-, hpre, hpost⟩ : Thread.Ok (.running (.op (.bread b) k)) (V p) := ht ▸ h.threads p
  rw [← update_eq_self p V]
  refine h.setThread ?_ (by rw [hs₁]) ?_ ?_
  · rw [update_eq_self]
    refine ⟨⟨order, hinv'⟩, h.shared.bufs.same hmoved, ?_⟩
    rw [hs₁]
    exact h.shared.log.same hmoved hquiet.lh
  · rw [hwait, ht]
    show ((⟨i, rootdev, b⟩ :: s.cache.waiting : List (Waiter n)) : Multiset (Waiter n)) + 0 =
      (s.cache.waiting : Multiset (Waiter n)) + {⟨i, rootdev, b⟩}
    rw [add_zero, ← Multiset.cons_coe, ← Multiset.singleton_add, add_comm]
  · exact ⟨hpre, fun data hnew => hpost (i, data) _ ⟨hnew, rfl⟩⟩

/-- A process finds its `bread` among those that wait. -/
theorem getElem?_place {w w' : Waiter n} (h : s.cache.waiting[s.place w]? = some w') : w' = w := by
  obtain ⟨hlt, hget⟩ := List.getElem?_eq_some_iff.mp h
  obtain ⟨hbuf, hdev, hblock⟩ := of_decide_eq_true (List.findIdx_getElem (w := hlt))
  replace hget : s.cache.waiting[s.place w] = w' := hget
  change (s.cache.waiting[s.place w]).buf = _ at hbuf
  change (s.cache.waiting[s.place w]).dev = _ at hdev
  change (s.cache.waiting[s.place w]).blockno = _ at hblock
  rw [hget] at hbuf hdev hblock
  cases w
  cases w'
  cases hbuf
  cases hdev
  cases hblock
  rfl

theorem Inv.breadRest (h : Inv x d s V) {w : Waiter n} {k : Fin n × Blk → K n Int}
    (ht : s.thread p = .waiting w k) {bp : Fin n} {s₁ : Sys n}
    (hs : s.bio (Bio.breadRest x (s.place w)) = .ok (bp, s₁)) :
    ∃ v, Inv x d (s₁.setThread p (.running (k (bp, (s₁.cache.buf bp).data)))) (update V p v) := by
  obtain ⟨order, hinv⟩ := h.shared.cache
  obtain ⟨hm, hs₁⟩ := bio_ok hs
  have hmoved := (breadRest_moved hinv).ok hm
  obtain ⟨w', rfl, hread⟩ := (wp_breadRest hinv).ok hm
  obtain rfl := getElem?_place hread.waiter
  obtain ⟨hlen, hobey⟩ : Thread.Ok (.waiting w' k) (V p) := ht ▸ h.threads p
  have hblock : (s₁.cache.buf w'.buf).blockno = w'.blockno := (State.isBlock_iff.mp hread.block).2
  have hnew : ∀ b, (w'.buf, b) ∉ (V p).held := by
    intro b hb
    have hl := (h.shared.bufs.holds p w'.buf b hb).1
    rw [lockedOf, hread.unlocked] at hl
    cases hl
  refine ⟨{ V p with held := (w'.buf, w'.blockno) :: (V p).held }, h.setThread ?_ (by rw [hs₁]) ?_ ?_⟩
  · refine .setHeld (h.shared.bufs.acquire hmoved hread.unlocked hblock) ?_ ⟨order, hread.inv⟩
    rw [hs₁]
    exact h.shared.log.same hmoved hread.quiet.lh
  · rw [hread.rest, ht]
    obtain ⟨hlt, hget⟩ := List.getElem?_eq_some_iff.mp hread.waiter
    have hperm := List.getElem_cons_eraseIdx_perm hlt
    rw [hget] at hperm
    show (s.cache.waiting.eraseIdx (s.place w') : Multiset (Waiter n)) + {w'} =
      (s.cache.waiting : Multiset (Waiter n)) + 0
    rw [add_zero, ← Multiset.coe_eq_coe.mpr hperm, ← Multiset.cons_coe, ← Multiset.singleton_add,
      add_comm]
  · exact ⟨Nat.succ_le_succ hlen, hobey _ hnew⟩

theorem bind_ok {ε α β : Type} {m : Except ε α} {f : α → Except ε β} {b : β}
    (h : (m >>= f) = .ok b) : ∃ a, m = .ok a ∧ f a = .ok b := by
  cases m with
  | error e => cases h
  | ok a => exact ⟨a, rfl, h⟩

theorem bind_error {ε α β : Type} {m : Except ε α} {f : α → Except ε β} {e : ε}
    (h : (m >>= f) = .error e) : m = .error e ∨ ∃ a, m = .ok a ∧ f a = .error e := by
  cases m with
  | error e' =>
    cases h
    exact .inl rfl
  | ok a => exact .inr ⟨a, rfl, h⟩

/-- **A step of a process keeps the invariant.** -/
theorem Inv.step (h : Inv x d s V) (hs : s.step x p = .ok s') : ∃ V', Inv x d s' V' := by
  unfold Sys.step at hs
  split at hs
  next => cases hs
  next a ht =>
    cases hs
    obtain ⟨-, hquiet⟩ : Thread.Ok (.running (.pure a)) (V p) := ht ▸ h.threads p
    refine ⟨update V p (V p), h.setThread ?_ rfl ?_ hquiet⟩
    · rw [update_eq_self]
      exact h.shared
    · rw [ht]
      rfl
  next b k ht =>
    obtain ⟨⟨⟨⟩, s₁⟩, hget, hs⟩ := bind_ok hs
    dsimp only at hs
    split at hs
    next => cases hs
    next w hw =>
      cases hs
      exact ⟨V, h.bget ht hget hw⟩
  next o k hb ht =>
    obtain ⟨⟨r, s₁⟩, hop, hs⟩ := bind_ok hs
    cases hs
    obtain ⟨hlen, hpre, hpost⟩ : Thread.Ok (.running (.op o k)) (V p) := ht ▸ h.threads p
    obtain ⟨v, hv, hshared, hwait, hthread⟩ := h.shared.perform hpre hop
    refine ⟨_, h.setThread hshared hthread ?_ ⟨?_, hpost r v hv⟩⟩
    · rw [hwait, ht]
      rfl
    · have hne : ∀ b, o ≠ .bread b := by
        rintro b rfl
        exact hb b k rfl HEq.rfl
      exact (post_held hne hv).trans hlen
  next w k ht =>
    obtain ⟨⟨bp, s₁⟩, hrest, hs⟩ := bind_ok hs
    cases hs
    obtain ⟨v, hv⟩ := h.breadRest ht hrest
    exact ⟨_, hv⟩

/-- **The invariant is kept**, by calls and by steps in them. -/
theorem Inv.next (h : Inv x d s V) {a : Act} (hs : next c x s a = .ok s') : ∃ V', Inv x d s' V' := by
  cases a with
  | step p => exact h.step hs
  | call p a =>
    simp only [ReadWrite.next] at hs
    split at hs
    next ht =>
      cases hs
      have hquiet : V p = .quiet := by
        have := h.threads p
        rwa [ht] at this
      refine ⟨update V p (V p), h.setThread ?_ rfl ?_ ?_⟩
      · rw [update_eq_self]
        exact h.shared
      · rw [ht]
        rfl
      · rw [hquiet]
        exact ⟨Nat.zero_le _, keeps_prog a _ fun _ => rfl⟩
    next => cases hs

end Threads

/-! ## Counting -/

/-- The process is inside a call. -/
def Thread.active : Thread n → Bool
  | .idle => false
  | _ => true

/-- The number of processes inside a call. -/
def Sys.active (s : Sys n) : Nat := occ (fun p => (s.thread p).active) true

/-- The blocks in the header of the log, and two for each process in a call, find buffers. -/
def Roomy (s : Sys n) : Prop := s.cache.lh.length + 2 * s.active ≤ n

instance (s : Sys n) : Decidable (Roomy s) := inferInstanceAs (Decidable (_ ≤ _))

section Counting

variable {s : Sys n} {V : Fin nproc → View n} {p : Fin nproc}

theorem card_dirty (h : Shared x d s V) :
    (Finset.univ.filter fun i => (s.cache.buf i).dirty = true).card ≤ s.cache.lh.length := by
  obtain ⟨order, hinv⟩ := h.cache
  refine le_trans (Finset.card_le_card_of_injOn (t := s.cache.lh.toFinset)
    (fun i => UInt32.ofNat (s.cache.buf i).blockno) ?_ ?_) (List.toFinset_card_le _)
  · intro i hi
    exact List.mem_toFinset.mpr (h.log.dirty i (Finset.mem_filter.mp hi).2)
  · intro i hi j hj heq
    have hvi := hinv.valid i (.inl (Finset.mem_filter.mp hi).2)
    have hvj := hinv.valid j (.inl (Finset.mem_filter.mp hj).2)
    exact hinv.same_of_blockno hvi hvj (blockno_inj hinv hvi hvj heq)

/-- A thread accounts for at most two buffers, the one it waits for included. -/
theorem Thread.Ok.le_two {t : Thread n} {v : View n} (h : t.Ok v) :
    v.held.length + t.waiter.card ≤ 2 * (if t.active = true then 1 else 0) := by
  cases t with
  | idle =>
    cases h
    rfl
  | running m => exact h.1
  | waiting w k => exact Nat.succ_le_succ h.1

/-- The buffers that somebody holds or waits for. -/
theorem card_used (h : Inv x d s V) :
    (Finset.univ.filter fun i => 0 < (s.cache.buf i).refcnt).card ≤
      ∑ p, ((V p).held.length + (s.thread p).waiter.card) := by
  obtain ⟨order, hinv⟩ := h.shared.cache
  have hwait : s.cache.waiting.length = ∑ p, (s.thread p).waiter.card := by
    rw [← Multiset.card_sum, ← h.waiting, Multiset.coe_card]
  have hsub : (Finset.univ.filter fun i => 0 < (s.cache.buf i).refcnt) ⊆
      (Finset.univ.biUnion fun p => ((V p).held.map Prod.fst).toFinset) ∪
        (s.cache.waiting.map Waiter.buf).toFinset := by
    intro i hi
    have hpos := (Finset.mem_filter.mp hi).2
    rw [hinv.refcnt i] at hpos
    rw [Finset.mem_union, Finset.mem_biUnion, List.mem_toFinset]
    cases hl : (s.cache.buf i).locked with
    | true =>
      obtain ⟨p, b, hb⟩ := h.shared.bufs.locked i hl
      exact .inl ⟨p, Finset.mem_univ p, List.mem_toFinset.mpr (List.mem_map_of_mem hb)⟩
    | false =>
      rw [hl, Bool.toNat_false, add_zero, List.countP_pos_iff] at hpos
      obtain ⟨w, hw, hwi⟩ := hpos
      exact .inr (List.mem_map.mpr ⟨w, hw, of_decide_eq_true hwi⟩)
  have hheld : (Finset.univ.biUnion fun p => ((V p).held.map Prod.fst).toFinset).card ≤
      ∑ p, (V p).held.length := by
    refine Finset.card_biUnion_le.trans (Finset.sum_le_sum fun p _ => ?_)
    exact (List.toFinset_card_le _).trans_eq (List.length_map _)
  have hbuf : (s.cache.waiting.map Waiter.buf).toFinset.card ≤ s.cache.waiting.length :=
    (List.toFinset_card_le _).trans_eq (List.length_map _)
  have hcard := (Finset.card_le_card hsub).trans (Finset.card_union_le _ _)
  rw [Finset.sum_add_distrib, ← hwait]
  omega

/-- **With room for everybody, `bget` finds a buffer.** -/
theorem Inv.bget_finds (h : Inv x d s V) (hroom : Roomy s) {b : Nat} {k : Fin n × Blk → K n Int}
    (ht : s.thread p = .running (.op (.bread b) k)) (e : Stop) :
    s.bio (Bio.bget rootdev b) ≠ .error e := by
  intro hs
  obtain ⟨order, hinv⟩ := h.shared.cache
  obtain ⟨f, -, herr⟩ := bio_error hs
  have hall := ((wp_bget hinv).error herr).2
  -- the process itself holds one buffer at most: it has room for the second
  have hlt : ∑ q, ((V q).held.length + (s.thread q).waiter.card) < 2 * s.active := by
    rw [Sys.active, occ, Finset.mul_sum]
    refine Finset.sum_lt_sum (fun q _ => (h.threads q).le_two) ⟨p, Finset.mem_univ p, ?_⟩
    obtain ⟨-, hpre, -⟩ : Thread.Ok (.running (.op (.bread b) k)) (V p) := ht ▸ h.threads p
    rw [ht]
    exact Nat.lt_succ_of_le hpre
  have huniv : (Finset.univ : Finset (Fin n)) ⊆
      (Finset.univ.filter fun i => 0 < (s.cache.buf i).refcnt) ∪
        (Finset.univ.filter fun i => (s.cache.buf i).dirty = true) := by
    intro i _
    simpa using hall i
  have hcard := (Finset.card_le_card huniv).trans (Finset.card_union_le _ _)
  rw [Finset.card_univ, Fintype.card_fin] at hcard
  have hused := card_used h
  have hdirty := card_dirty h.shared
  rw [Roomy] at hroom
  omega

end Counting

/-! ## Nothing else panics so -/

section Panics

variable {s : Sys n} {p : Fin nproc} {st : State n} {i : Fin n} {v : Blk}

theorem iderw_panics : wp (Bio.iderw x i) (fun _ _ => True) (· ≠ .noBuffers) st := by
  simp only [Bio.iderw, wp_bind, wp_get, wp_ite, wp_throw, wp_set]
  simp

theorem breadRest_panics {k : Nat} :
    wp (Bio.breadRest x k) (fun _ _ => True) (· ≠ .noBuffers) st := by
  simp only [Bio.breadRest, wp_bind, wp_get]
  split
  · intro h
    cases h
  · simp only [wp_bind, wp_ite, wp_throw, wp_set, wp_pure]
    exact ⟨fun _ h => (by cases h), fun _ => ⟨fun _ => iderw_panics, fun _ => trivial⟩⟩

theorem store_then_panics {m : Bio.M n Unit}
    (h : ∀ st, wp m (fun _ _ => True) (· ≠ .noBuffers) st) :
    wp (do Bio.store i v; m) (fun _ _ => True) (· ≠ .noBuffers) st := by
  simp only [Bio.store, wp_bind, wp_get, wp_ite, wp_throw, wp_set]
  exact ⟨fun _ h => (by cases h), fun _ => h _⟩

theorem bwrite_panics : wp (Bio.bwrite x i) (fun _ _ => True) (· ≠ .noBuffers) st := by
  simp only [Bio.bwrite, wp_bind, wp_get, wp_ite, wp_throw, wp_set]
  exact ⟨fun _ h => (by cases h), fun _ => iderw_panics⟩

theorem logWrite_panics : wp (Bio.logWrite x i) (fun _ _ => True) (· ≠ .noBuffers) st := by
  simp only [Bio.logWrite, wp_bind, wp_get]
  split
  · intro h
    cases h
  · trivial

theorem brelse_panics : wp (Bio.brelse i) (fun _ _ => True) (· ≠ .noBuffers) st := by
  simp only [Bio.brelse, wp_bind, wp_get, wp_ite, wp_throw, wp_set]
  simp

theorem bio_panics {α : Type} {m : Bio.M n α}
    (h : wp m (fun _ _ => True) (· ≠ .noBuffers) s.cache) : s.bio m ≠ .error (.bio .noBuffers) := by
  intro hs
  obtain ⟨f, hf, hm⟩ := bio_error hs
  cases hf
  exact h.error hm rfl

theorem perform_panics (o : Op n) : s.perform x p o ≠ .error (.bio .noBuffers) := by
  cases o with
  | logWrite bp data =>
    simp only [Sys.perform]
    split
    · nofun
    · exact bio_panics (store_then_panics fun _ => logWrite_panics)
  | bwrite bp data => exact bio_panics (store_then_panics fun _ => bwrite_panics)
  | brelse bp => exact bio_panics brelse_panics
  | beginOp | endOp | acquiresleep | iunlock =>
    simp only [Sys.perform]
    split_ifs
    all_goals nofun
  | bread | header | clearHeader | committed | inode | setCopy | file | setOff | panic => nofun

end Panics

/-! ## The runs -/

/-- The kernel has started, and the processes have their files open. -/
structure Booted (d : Disk Blk) (s : Sys n) : Prop where
  cache : s.cache = State.boot n d
  outstanding : s.outstanding = 0
  committing : s.committing = false
  thread : ∀ p, s.thread p = .idle

def Step (c : Config) (x : Machine) (s s' : Sys n) : Prop := ∃ a, next c x s a = .ok s'

/-- There is room whenever a process calls `bget`. -/
def Act.Meets (a : Act) (s : Sys n) : Prop :=
  ∀ p b k, a = .step p → s.thread p = .running (.op (.bread b) k) → Roomy s

theorem Booted.inv {s : Sys n} (h : Booted d s) : Inv x d s fun _ => .quiet := by
  refine ⟨⟨?_, ?_, ?_⟩, ?_, fun p => ?_⟩
  · rw [h.cache]
    exact ⟨_, Inv.boot x n d⟩
  · rw [h.cache]
    exact ⟨fun i hi => absurd hi Bool.false_ne_true, fun p i b hb => absurd hb List.not_mem_nil,
      fun p q i b b' hb => absurd hb List.not_mem_nil⟩
  · rw [h.cache, h.outstanding, h.committing]
    refine ⟨(occ_eq_zero.mpr fun _ => Bool.false_ne_true).symm, ?_, ?_, ?_⟩
    · intro p lh pending hp
      cases hp
    · intro p q lh pending lh' pending' hp
      cases hp
    · exact fun i hi => absurd hi Bool.false_ne_true
  · rw [h.cache]
    refine (Finset.sum_eq_zero fun p _ => ?_).symm
    rw [h.thread p]
    rfl
  · rw [h.thread p]
    rfl

/-- A step that panics so is a `bget`. -/
theorem step_panics {s : Sys n} {p : Fin nproc} (h : s.step x p = .error (.bio .noBuffers)) :
    ∃ b k, s.thread p = .running (.op (.bread b) k) ∧
      s.bio (Bio.bget rootdev b) = .error (.bio .noBuffers) := by
  unfold Sys.step at h
  split at h
  · cases h
  · cases h
  next b k ht =>
    refine ⟨b, k, ht, ?_⟩
    obtain hget | ⟨a, -, ha⟩ := bind_error h
    · exact hget
    · dsimp only at ha
      split at ha
      all_goals cases ha
  next o k hb ht =>
    obtain hop | ⟨a, -, ha⟩ := bind_error h
    · exact absurd hop (perform_panics o)
    · cases ha
  next w k ht =>
    obtain hrest | ⟨a, -, ha⟩ := bind_error h
    · exact absurd hrest (bio_panics breadRest_panics)
    · cases ha

/-! ### Readers

Process `k` reads the file of inode `k`, whose only block is block `600 + k`. Eight steps take it to
where it waits for its buffer. -/

namespace Readers

def config : Config where
  sb := ⟨1000, 941, 200, 30, 2, 32, 58⟩
  devsw _ := ⟨none, none⟩
  piperead _ := (-1, [])
  pipewrite _ := -1

def machine : Machine := ⟨⟨2, 30⟩, 1000, thousand_le⟩

def opened : Sys nbuf where
  cache := State.boot nbuf fun _ => Block.zero
  outstanding := 0
  committing := false
  icache ip := ⟨1, ip.val + 2, 1, none, true,
    { Dinode.ofType tFile with
      size := 512
      addrs := fun i => if i.val = 0 then UInt32.ofNat (600 + ip.val) else 0 }⟩
  ftable f := ⟨.inode, 1, true, false, Fin.ofNat _ f.val, 0⟩
  thread _ := .idle

def next? (s : Sys nbuf) (a : Act) : Option (Sys nbuf) := (next config machine s a).toOption

def isNoBuffers : Except Stop (Sys nbuf) → Bool
  | .error (.bio .noBuffers) => true
  | _ => false

def reader (k : Nat) : List Act :=
  .call (Fin.ofNat _ k) (.read (Fin.ofNat _ k) 512) :: List.replicate 8 (.step (Fin.ofNat _ k))

/-- The first `m` processes wait for their buffers, and the next one is at `bget`. -/
def readers (m : Nat) : List Act := (List.range m).flatMap reader ++ (reader m).dropLast

theorem opened_booted : Booted (fun _ => Block.zero) opened := ⟨rfl, rfl, rfl, fun _ => rfl⟩

theorem step_of_next? (s : Sys nbuf) (a : Act) (s' : Sys nbuf) (h : next? s a = some s') :
    Step config machine s s' := by
  refine ⟨a, ?_⟩
  unfold next? at h
  cases hs : next config machine s a with
  | error e =>
    rw [hs] at h
    cases h
  | ok s₁ =>
    rw [hs] at h
    cases h
    rfl

theorem reachable_of_readers {s : Sys nbuf} {as : List Act} (h : run next? opened as = some s) :
    Reachable (· = opened) (Step config machine) s := by
  have h₀ : Reachable (· = opened) (Step config machine) opened := .init rfl
  exact reachable_of_run step_of_next? h₀ h

end Readers

/-- **The cache does not run dry as long as there is room for the processes in a call**, in every run
of reads and writes. -/
theorem bget_has_buffers {c : Config} {s₀ s : Sys nbuf} (h₀ : Booted d s₀)
    (h : Reachable (· = s₀) (Step c x) s) (a : Act) (hroom : a.Meets s) :
    next c x s a ≠ .error (.bio .noBuffers) := by
  obtain ⟨V, hinv⟩ : ∃ V, Inv x d s V := by
    refine h.invariant (I := fun s => ∃ V, Inv x d s V) ?_ ?_
    · rintro s rfl
      exact ⟨_, h₀.inv⟩
    · rintro s s' ⟨V, hinv⟩ ⟨a, ha⟩
      exact hinv.next ha
  intro hs
  cases a with
  | call p a =>
    simp only [next] at hs
    split at hs
    all_goals cases hs
  | step p =>
    obtain ⟨b, k, ht, hget⟩ := step_panics hs
    exact hinv.bget_finds (hroom p b k rfl ht) ht _ hget

/-- The third of three readers finds a buffer. -/
theorem bget_has_buffers_three : ∃ s, Reachable (· = Readers.opened)
    (Step Readers.config Readers.machine) s ∧ Roomy s ∧
    next Readers.config Readers.machine s (.step 2) ≠ .error (.bio .noBuffers) := by
  have hrun : ((run Readers.next? Readers.opened (Readers.readers 2)).map fun s => decide (Roomy s)) =
      some true := by decide +kernel
  obtain ⟨s, hs, hroom⟩ := Option.map_eq_some_iff.mp hrun
  have hreach := Readers.reachable_of_readers hs
  have hroom := of_decide_eq_true hroom
  exact ⟨s, hreach, hroom,
    bget_has_buffers Readers.opened_booted hreach (.step 2) fun _ _ _ _ _ => hroom⟩

/-- **Thirty readers of thirty files have all the buffers**, and the next one panics. -/
theorem bget_runs_dry : ∃ (c : Config) (x : Machine) (d : Disk Blk) (s₀ s : Sys nbuf) (p : Fin nproc),
    Booted d s₀ ∧ Reachable (· = s₀) (Step c x) s ∧
    next c x s (.step p) = .error (.bio .noBuffers) := by
  have hrun : ((run Readers.next? Readers.opened (Readers.readers 30)).map fun s =>
      Readers.isNoBuffers (next Readers.config Readers.machine s (.step 30))) = some true := by
    decide +kernel
  obtain ⟨s, hs, hpanic⟩ := Option.map_eq_some_iff.mp hrun
  refine ⟨Readers.config, Readers.machine, _, Readers.opened, s, 30, Readers.opened_booted,
    Readers.reachable_of_readers hs, ?_⟩
  unfold Readers.isNoBuffers at hpanic
  split at hpanic
  next h => exact h
  next => cases hpanic

end Laboratorio.Xv6.ReadWrite
