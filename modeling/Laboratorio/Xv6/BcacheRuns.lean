import Laboratorio.Xv6.Bcache
import Laboratorio.Xv6.Crash

/-!
# The buffer cache is invisible

The rules for `commit` through the cache relate it to the program `Xv6.commit` on a machine where a
block is read and written in one step (`Rel`, `wp_commit`). With them the invariant of the cache
holds after any calls, and `cache_invisible` is what it says to the users of the cache.
-/

namespace Laboratorio.Xv6.Bio

open Laboratorio.DiskProg Laboratorio.Wp

variable {n : Nat} {x : Machine} {d : Disk Blk} {s s' : State n} {order : List (Fin n)}
variable {dev blockno : Nat} {i : Fin n}

/-! ## Commits -/

/-- The cache and the disk are those of the machine `m`, where a block is read and written in one
step. -/
structure Rel (d : Disk Blk) (s : State n) (m : Mem Blk) : Prop where
  view : m.view = s.content d
  disk : m.disk = s.disk

variable {m : Mem Blk}

theorem Rel.congr (h : Rel d s m) (hdisk : s'.disk = s.disk) (hlatest : s'.latest = s.latest) :
    Rel d s' m := by
  refine ⟨?_, h.disk.trans hdisk.symm⟩
  funext b
  rw [h.view, State.content, State.content, hlatest]

theorem Rel.stored (h : Rel d s m) {b : Nat} {v : Blk} {lh : List UInt32} (hi : s.Held i b) :
    Rel d (s.stored i v false lh) (m.write b v) := by
  refine ⟨?_, ?_⟩
  · rw [Mem.view_write, State.content_stored, h.view, hi.2]
  · rw [Mem.disk_write, h.disk, ← hi.2]
    rfl

/-- A buffer that is held has the contents of its block. -/
theorem Inv.data_of_held (h : Inv x d s order) {b : Nat} (hi : s.Held i b) :
    (s.buf i).data = s.content d b := by
  rw [← hi.2]
  exact h.data i (h.valid i (.inr hi.1))

/-- A `bread` in one go. -/
theorem wp_bread (h : Inv x d s order) :
    wp (bread x dev blockno) (fun i s' => Inv x d s' order ∧ Quiet s s' ∧ s'.Held i blockno ∧
      s'.waiting = s.waiting) (fun e => dev = 1 → blockno < x.disksize →
        e = .sleeping ∨ e = .noBuffers ∧ s.Busy) s := by
  simp only [bread, wp_bind]
  refine wp_mono (wp_bget h) ?_ fun e he _ _ => .inr he
  rintro - s₁ ⟨h₁, hq₁, i, hw⟩
  refine wp_mono (wp_breadRest h₁) ?_ fun e he hdev hb => .inl (he _ (by rw [hw]; rfl) hdev hb).1
  rintro _ s₂ ⟨w, rfl, hr⟩
  have hw₀ : w = ⟨i, dev, blockno⟩ := by
    have := hr.waiter
    rw [hw] at this
    exact (Option.some.inj this).symm
  subst hw₀
  refine ⟨hr.inv, ⟨hr.quiet.disk.trans hq₁.disk, hr.quiet.lh.trans hq₁.lh,
    hr.quiet.latest.trans hq₁.latest, fun j b hj => hr.quiet.held j b (hq₁.held j b hj)⟩,
    ⟨hr.locked, (State.isBlock_iff.mp hr.block).2⟩, ?_⟩
  rw [hr.rest, hw]
  rfl

/-- A `bread` in one go, whatever it stops with. -/
theorem wp_bread_any (h : Inv x d s order) :
    wp (bread x dev blockno) (fun i s' => Inv x d s' order ∧ Quiet s s' ∧ s'.Held i blockno ∧
      s'.waiting = s.waiting) (fun _ => True) s :=
  wp_mono (wp_bread h) (fun _ _ hs => hs) (fun _ _ => trivial)

/-- Copying block `b` to block `a` and letting both buffers go. -/
theorem wp_copy {t f p q : Fin n} {a b : Nat} {k : M n Unit} {Q : Unit → State n → Prop}
    (h : Inv x d s order) (hrel : Rel d s m) (ht : s.Held t a) (hf : s.Held f b)
    (hk : ∀ s' order', Inv x d s' order' → Rel d s' (m.write a (m.view b)) → s'.lh = s.lh →
      s'.waiting = s.waiting → wp k Q (fun _ => True) s') :
    wp (do store t (s.buf f).data; bwrite x t; brelse p; brelse q; k) Q (fun _ => True) s := by
  simp only [wp_bind]
  refine wp_bwrite h fun _ h₁ => ?_
  rw [h.data_of_held hf, ← hrel.view] at h₁ ⊢
  refine wp_post (wp_brelse h₁) ?_
  rintro - s₂ ⟨⟨order₂, h₂⟩, hd₂, hlh₂, hl₂, hw₂, -⟩
  refine wp_post (wp_brelse h₂) ?_
  rintro - s₃ ⟨⟨order₃, h₃⟩, hd₃, hlh₃, hl₃, hw₃, -⟩
  exact hk s₃ order₃ h₃ (((hrel.stored ht).congr hd₂ hl₂).congr hd₃ hl₃) (hlh₃.trans hlh₂)
    (hw₃.trans hw₂)

/-- What a part of `commit` does: the same as the program `p` on `m`. -/
def Does (x : Machine) (d : Disk Blk) (s : State n) (m : Mem Blk) (p : Prog Blk Unit)
    (s' : State n) : Prop :=
  (∃ order, Inv x d s' order) ∧ Rel d s' (p.run m).2 ∧ s'.lh = s.lh ∧ s'.waiting = s.waiting

theorem wp_writeLog (bs : List UInt32) {tail : Nat} (h : Inv x d s order) (hrel : Rel d s m) :
    wp (writeLog x tail bs) (fun _ => Does x d s m (Xv6.writeLog x.log tail bs)) (fun _ => True)
      s := by
  induction bs generalizing s m tail order with
  | nil => exact ⟨⟨order, h⟩, hrel, rfl, rfl⟩
  | cons b bs ih =>
    unfold writeLog
    refine wp_then (wp_bread_any h) ?_
    rintro t s₁ ⟨h₁, hq₁, ht, hw₁⟩
    refine wp_then (wp_bread_any h₁) ?_
    rintro f s₂ ⟨h₂, hq₂, hf, hw₂⟩
    rw [wp_bind, wp_get]
    refine wp_copy h₂ ((hrel.congr hq₁.disk hq₁.latest).congr hq₂.disk hq₂.latest)
      (hq₂.held _ _ ht) hf fun s₃ order₃ h₃ hrel₃ hlh₃ hw₃ => ?_
    refine wp_post (ih h₃ hrel₃) ?_
    rintro - s₄ ⟨h₄, hrel₄, hlh₄, hw₄⟩
    exact ⟨h₄, hrel₄, by rw [hlh₄, hlh₃, hq₂.lh, hq₁.lh], by rw [hw₄, hw₃, hw₂, hw₁]⟩

theorem wp_installTrans (bs : List UInt32) {tail : Nat} (h : Inv x d s order) (hrel : Rel d s m) :
    wp (installTrans x tail bs) (fun _ => Does x d s m (Xv6.installTrans x.log tail bs))
      (fun _ => True) s := by
  induction bs generalizing s m tail order with
  | nil => exact ⟨⟨order, h⟩, hrel, rfl, rfl⟩
  | cons b bs ih =>
    unfold installTrans
    refine wp_then (wp_bread_any h) ?_
    rintro f s₁ ⟨h₁, hq₁, hf, hw₁⟩
    refine wp_then (wp_bread_any h₁) ?_
    rintro t s₂ ⟨h₂, hq₂, ht, hw₂⟩
    rw [wp_bind, wp_get]
    refine wp_copy h₂ ((hrel.congr hq₁.disk hq₁.latest).congr hq₂.disk hq₂.latest) ht
      (hq₂.held _ _ hf) fun s₃ order₃ h₃ hrel₃ hlh₃ hw₃ => ?_
    refine wp_post (ih h₃ hrel₃) ?_
    rintro - s₄ ⟨h₄, hrel₄, hlh₄, hw₄⟩
    exact ⟨h₄, hrel₄, by rw [hlh₄, hlh₃, hq₂.lh, hq₁.lh], by rw [hw₄, hw₃, hw₂, hw₁]⟩

theorem wp_writeHead (h : Inv x d s order) (hrel : Rel d s m) :
    wp (writeHead x) (fun _ => Does x d s m (Xv6.writeHead x.log s.lh)) (fun _ => True) s := by
  simp only [writeHead, wp_bind, wp_get]
  refine wp_post (wp_bread_any h) ?_
  rintro i s₁ ⟨h₁, hq₁, hi, hw₁⟩
  have hrel₁ := hrel.congr hq₁.disk hq₁.latest
  refine wp_bwrite h₁ fun _ h₂ => ?_
  rw [h₁.data_of_held hi, ← hrel₁.view] at h₂ ⊢
  refine wp_post (wp_brelse h₂) ?_
  rintro - s₃ ⟨h₃, hd₃, hlh₃, hl₃, hw₃, -⟩
  refine ⟨h₃, ?_, hlh₃.trans hq₁.lh, hw₃.trans hw₁⟩
  rw [hq₁.lh] at hd₃ hl₃
  exact (hrel₁.stored hi).congr hd₃ hl₃

/-- **`commit` through the cache** is the program `Xv6.commit`. -/
theorem wp_commit (h : Inv x d s order) (hrel : Rel d s m) :
    wp (commit x) (fun _ s' => (∃ order, Inv x d s' order) ∧
      Rel d s' ((Xv6.commit x.log s.lh).run m).2) (fun _ => True) s := by
  simp only [commit, wp_bind, wp_get]
  rw [wp_ite, Xv6.commit]
  refine ⟨fun hlen => ?_, fun hlen => ?_⟩
  · rw [if_pos hlen, commitBlocks_eq, Prog.run_bind, Prog.run_bind]
    simp only [wp_bind, wp_modify]
    refine wp_post (wp_writeLog s.lh h hrel) ?_
    rintro - s₁ ⟨⟨order₁, h₁⟩, hrel₁, hlh₁, -⟩
    refine wp_post (wp_writeHead h₁ hrel₁) ?_
    rintro - s₂ ⟨⟨order₂, h₂⟩, hrel₂, -, -⟩
    refine wp_post (wp_installTrans s.lh h₂ hrel₂) ?_
    rintro - s₃ ⟨⟨order₃, h₃⟩, hrel₃, -, -⟩
    have h₄ : Inv x d { s₃ with lh := [] } order₃ := { h₃ with header := .nil _ }
    rw [hlh₁, Prog.run_bind] at *
    refine wp_post (wp_writeHead h₄ (hrel₃.congr rfl rfl)) ?_
    rintro - s₅ ⟨h₅, hrel₅, -, -⟩
    exact ⟨h₅, hrel₅⟩
  · rw [if_neg hlen]
    exact ⟨⟨order, h⟩, hrel⟩

/-- Every state is one of the machine without a cache. -/
theorem rel_content (d : Disk Blk) (s : State n) :
    Rel d s ⟨s.disk, fun b => some (s.content d b)⟩ := ⟨rfl, rfl⟩

/-! ## Runs -/

theorem Inv.call (h : Inv x d s order) (c : Call n) :
    wp (call x c) (fun _ s' => ∃ order', Inv x d s' order') (fun _ => True) s := by
  cases c with
  | bget dev blockno =>
    exact wp_mono (wp_bget h) (fun _ _ hs => ⟨order, hs.1⟩) (fun _ _ => trivial)
  | breadRest k =>
    simp only [Bio.call, wp_bind]
    refine wp_mono (wp_breadRest h) ?_ (fun _ _ => trivial)
    rintro _ _ ⟨_, _, hr⟩
    exact ⟨order, hr.inv⟩
  | bwrite i v =>
    simp only [Bio.call, wp_bind]
    exact wp_bwrite h fun _ h' => ⟨order, h'⟩
  | logWrite i v =>
    simp only [Bio.call, wp_bind]
    exact wp_logWrite h fun _ _ h' => ⟨order, h'⟩
  | brelse i => exact wp_post (wp_brelse h) (fun _ _ hs => hs.1)
  | commit => exact wp_post (wp_commit h (rel_content d s)) (fun _ _ hs => hs.1)

theorem Inv.reachable (h : Reachable x d s) : ∃ order, Inv x d s order := by
  refine Reach.Reachable.invariant (I := fun s => ∃ order, Inv x d s order) h ?_ ?_
  · rintro _ rfl
    exact ⟨_, Inv.boot x n d⟩
  · rintro s s' ⟨order, hi⟩ ⟨c, hc⟩
    exact (hi.call c).ok hc

/-- **Only writes reach the disk.** -/
theorem Inv.call_disk (h : Inv x d s order) {c : Call n} (hc : c ≠ .commit) {b : Nat}
    (hb : ∀ i v, c = .bwrite i v → (s.buf i).blockno ≠ b) :
    wp (Bio.call x c) (fun _ s' => s'.disk b = s.disk b) (fun _ => True) s := by
  cases c with
  | bget dev blockno =>
    exact wp_mono (wp_bget h) (fun _ _ hs => congrFun hs.2.1.disk b) (fun _ _ => trivial)
  | breadRest k =>
    simp only [Bio.call, wp_bind]
    refine wp_mono (wp_breadRest h) ?_ (fun _ _ => trivial)
    rintro _ _ ⟨_, _, hr⟩
    exact congrFun hr.quiet.disk b
  | bwrite i v =>
    simp only [Bio.call, wp_bind]
    exact wp_bwrite h fun _ _ => Function.update_of_ne (hb i v rfl).symm ..
  | logWrite i v =>
    simp only [Bio.call, wp_bind]
    exact wp_logWrite h fun _ _ _ => rfl
  | brelse i => exact wp_post (wp_brelse h) (fun _ _ hs => congrFun hs.2.1 b)
  | commit => exact absurd rfl hc

/-- A commit of blocks outside the log leaves the contents outside the log as they were. -/
theorem Inv.commit_content (h : Inv x d s order) (hlh : ∀ b ∈ s.lh, ¬ x.log.Area b.toNat) {b : Nat}
    (hb : ¬ x.log.Area b) :
    wp (Bio.call x .commit) (fun _ s' => s'.content d b = s.content d b) (fun _ => True) s := by
  refine wp_post (wp_commit h (rel_content d s)) (fun _ s' hs => ?_)
  rw [← hs.2.view]
  by_cases hnil : s.lh = []
  · rw [hnil]
    rfl
  · exact view_commit ⟨h.header.nodup, h.header.header, h.header.room hnil, hlh⟩ _ hb

/-- **The cache is invisible.** After any calls, the list has every buffer once, no two live buffers
carry the same block, a `bread` returns the contents of its block, and the disk copy of a block
changes in a `bwrite` of the block or a commit only. A commit of blocks outside the log changes
nothing there. A `bread` of a block of the disk returns unless it waits for the lock of the buffer
or every buffer is in use. -/
theorem cache_invisible (x : Machine) (d : Disk Blk) {s : State n} (h : Reachable x d s) :
    (∃ order, s.Lists order) ∧
    (∀ i j, (s.buf i).Live → (s.buf j).Live → (s.buf i).Same (s.buf j) → i = j) ∧
    (∀ dev b i s', bread x dev b s = .ok (i, s') →
      s'.Held i b ∧ (s'.buf i).data = s.content d b) ∧
    (∀ k i s', breadRest x k s = .ok (i, s') → ∃ w, s.waiting[k]? = some w ∧ w.buf = i ∧
      s'.isBlock w.dev w.blockno i = true ∧ (s'.buf i).data = s.content d w.blockno) ∧
    (∀ b < x.disksize, ∀ e, bread x 1 b s = .error e → e = .sleeping ∨ e = .noBuffers ∧ s.Busy) ∧
    (∀ k w, s.waiting[k]? = some w → w.dev = 1 → w.blockno < x.disksize → ∀ e,
      breadRest x k s = .error e → e = .sleeping ∧ (s.buf w.buf).locked = true) ∧
    (∀ c s', call x c s = .ok ((), s') → c ≠ .commit → ∀ b,
      (∀ i v, c = .bwrite i v → (s.buf i).blockno ≠ b) → s'.disk b = s.disk b) ∧
    (∀ s', call x .commit s = .ok ((), s') → (∀ b ∈ s.lh, ¬ x.log.Area b.toNat) → ∀ b,
      ¬ x.log.Area b → s'.content d b = s.content d b) := by
  obtain ⟨order, hi⟩ := Inv.reachable h
  refine ⟨⟨order, hi.lists⟩, fun i j => hi.unique, fun dev b i s' hs => ?_, fun k i s' hs => ?_,
    fun b hb e he => (wp_bread hi).error he rfl hb,
    fun k w hw hdev hb e he => (wp_breadRest hi).error he w hw hdev hb,
    fun c s' hs hc b hb => (hi.call_disk hc hb).ok hs,
    fun s' hs hlh b hb => (hi.commit_content hlh hb).ok hs⟩
  · obtain ⟨h', hq, hheld, -⟩ := (wp_bread hi).ok hs
    refine ⟨hheld, ?_⟩
    rw [h'.data_of_held hheld, State.content, State.content, hq.latest]
  · obtain ⟨w, hw, hr⟩ := (wp_breadRest hi).ok hs
    exact ⟨w, hr.waiter, hw, hw ▸ hr.block, hw ▸ hr.data⟩

/-- The state after a call, if it ends. -/
def next (x : Machine) (s : State n) (c : Call n) : Option (State n) :=
  match call x c s with
  | .ok (_, s') => some s'
  | .error _ => none

theorem step_of_next {c : Call n} (h : next x s c = some s') : Step x s s' := by
  unfold next at h
  split at h
  · next hs =>
    cases h
    exact ⟨c, hs⟩
  · cases h

/-- Block 100 is logged in one of three buffers, and block 101 is read in another. -/
def logAndRead : List (Call 3) :=
  [.bget 1 100, .breadRest 0, .logWrite 0 fun _ => 7, .brelse 0, .bget 1 101, .breadRest 0,
    .brelse 1]

/-- A log of 30 blocks on a disk of 1000. -/
def smallDisk : Machine := ⟨⟨2, 30⟩, 1000, thousand_le⟩

/-- After `logAndRead` block 100 is in the header, and a `bread` returns what was logged. -/
theorem cache_invisible_logAndRead : ∃ (s s' : State 3) (i : Fin 3),
    Reachable smallDisk (fun _ => Bytes.Block.zero) s ∧ s.lh = [100] ∧
    bread smallDisk 1 100 s = .ok (i, s') ∧ (s'.buf i).data = fun _ => 7 := by
  obtain ⟨s, s', i, hrun, hbread, hlh, hlatest⟩ : ∃ s s' i, Reach.run (next smallDisk)
      (State.boot 3 fun _ => Bytes.Block.zero) logAndRead = some s ∧
      bread smallDisk 1 100 s = .ok (i, s') ∧ s.lh = [100] ∧
      s.latest 100 = some fun _ => 7 := ⟨_, _, _, rfl, rfl, rfl, rfl⟩
  have hreach : Reachable smallDisk (fun _ => Bytes.Block.zero) s :=
    Reach.reachable_of_run (fun _ _ _ => step_of_next) (.init rfl) hrun
  refine ⟨s, s', i, hreach, hlh, hbread, ?_⟩
  have hdata := ((cache_invisible smallDisk (fun _ => Bytes.Block.zero) hreach).2.2.1 1 100 i s'
    hbread).2
  rw [hdata, State.content, hlatest]
  rfl

end Laboratorio.Xv6.Bio
