import Laboratorio.Xv6.Bio

/-!
# The invariant of the buffer cache

`Inv x d s order` is the invariant of the cache, with the buffers listed in `order`:

* the search for the block of a live buffer finds that buffer, so that it is the only one;
* a valid buffer holds the contents of its block, and a block without a dirty buffer has them on
  disk;
* a buffer's references are the waiting `bread`s and the holder of its lock.

There is one rule for each function of the cache.
-/

namespace Laboratorio.Xv6.Bio

open Function Laboratorio.Circular Laboratorio.DiskProg Laboratorio.Wp

variable {n : Nat} {x : Machine} {d : Disk Blk} {s s' : State n} {order : List (Fin n)}

/-! ## The invariant -/

/-- Buffer `i` carries the block. -/
def State.isBlock (s : State n) (dev blockno : Nat) (i : Fin n) : Bool :=
  (s.buf i).dev = dev ∧ (s.buf i).blockno = blockno

theorem State.isBlock_iff {dev blockno : Nat} {i : Fin n} :
    s.isBlock dev blockno i = true ↔ (s.buf i).dev = dev ∧ (s.buf i).blockno = blockno := by
  simp [State.isBlock]

/-- What `log_write` maintains of the header, whatever the blocks. -/
structure Header (l : Log) (lh : List UInt32) : Prop where
  nodup : lh.Nodup
  header : lh.length ≤ logsize
  room : lh ≠ [] → lh.length < l.size

theorem Header.nil (l : Log) : Header l [] := ⟨List.nodup_nil, Nat.zero_le _, fun h => absurd rfl h⟩

theorem Header.record {l : Log} {o : Nat} {lh lh' : List UInt32} {b : UInt32} (h : Header l lh)
    (hr : l.record o lh b = .ok lh') : Header l lh' := by
  obtain ⟨rfl, hlog, hsize, -⟩ := Log.record_ok hr
  have hlen := length_recordBlock_le lh b
  refine ⟨?_, by omega, fun _ => by omega⟩
  unfold recordBlock
  split
  · exact h.nodup
  · next hb => exact List.nodup_append.mpr ⟨h.nodup, List.nodup_singleton b, by grind⟩

structure Inv (x : Machine) (d : Disk Blk) (s : State n) (order : List (Fin n)) : Prop where
  lists : s.Lists order
  first : ∀ i, (s.buf i).Live →
    order.find? (s.isBlock (s.buf i).dev (s.buf i).blockno) = some i
  range : ∀ i, (s.buf i).valid = true → (s.buf i).dev = 1 ∧ (s.buf i).blockno < x.disksize
  data : ∀ i, (s.buf i).valid = true → (s.buf i).data = s.content d (s.buf i).blockno
  valid : ∀ i, (s.buf i).dirty = true ∨ (s.buf i).locked = true → (s.buf i).valid = true
  disk : ∀ b, (∀ i, (s.buf i).dirty = true → (s.buf i).blockno ≠ b) → s.disk b = s.content d b
  refcnt : ∀ i, (s.buf i).refcnt =
    s.waiting.countP (fun w => w.buf = i) + (s.buf i).locked.toNat
  waiting : ∀ w ∈ s.waiting, s.isBlock w.dev w.blockno w.buf = true
  header : Header x.log s.lh

/-- The lock of buffer `i` is held, and the buffer carries block `b`. -/
def State.Held (s : State n) (i : Fin n) (b : Nat) : Prop :=
  (s.buf i).locked = true ∧ (s.buf i).blockno = b

/-- Nothing but buffers has changed, and those that are held are held still. -/
structure Quiet (s s' : State n) : Prop where
  disk : s'.disk = s.disk
  lh : s'.lh = s.lh
  latest : s'.latest = s.latest
  held : ∀ i b, s.Held i b → s'.Held i b

/-- Every buffer is referenced or dirty. -/
def State.Busy (s : State n) : Prop := ∀ i, 0 < (s.buf i).refcnt ∨ (s.buf i).dirty = true

theorem Inv.unique (h : Inv x d s order) {i j : Fin n} (hi : (s.buf i).Live) (hj : (s.buf j).Live)
    (hs : (s.buf i).Same (s.buf j)) : i = j := by
  have hfi := h.first i hi
  rw [hs.1, hs.2, h.first j hj] at hfi
  exact (Option.some.inj hfi).symm

theorem Inv.live_of_locked (h : Inv x d s order) {i : Fin n} (hi : (s.buf i).locked = true) :
    (s.buf i).Live := .inl (h.valid i (.inr hi))

theorem Inv.same_of_blockno (h : Inv x d s order) {i j : Fin n} (hi : (s.buf i).valid = true)
    (hj : (s.buf j).valid = true) (hb : (s.buf i).blockno = (s.buf j).blockno) : i = j :=
  h.unique (.inl hi) (.inl hj) ⟨(h.range i hi).1.trans (h.range j hj).1.symm, hb⟩

/-! ## The list -/

theorem nodup_nodes (h : order.Nodup) : (none :: order.map some : List (Option (Fin n))).Nodup := by
  rw [List.nodup_cons]
  exact ⟨by simp, h.map (Option.some_injective _)⟩

theorem State.Lists.length_lt (h : s.Lists order) : (order.map some).length < n + 1 := by
  have := h.2.1.length_le_card
  simp only [Fintype.card_fin] at this
  simpa using Nat.lt_succ_of_le this

theorem State.Lists.cached (h : s.Lists order) (dev blockno : Nat) :
    s.cached dev blockno = (order.find? (s.isBlock dev blockno)).map some := by
  rw [State.cached, h.1.find_next (nodup_nodes h.2.1) h.length_lt, List.find?_map]
  rfl

theorem State.Lists.unused (h : s.Lists order) :
    s.unused = (order.reverse.find?
      fun i => decide ((s.buf i).refcnt = 0 ∧ (s.buf i).dirty = false)).map some := by
  rw [State.unused, h.1.find_prev (nodup_nodes h.2.1) h.length_lt, ← List.map_reverse,
    List.find?_map]
  rfl

/-- `binit` lists every buffer once. -/
theorem lists_binit (n : Nat) :
    Ring (binit n) none ((List.finRange n).reverse.map some) := by
  suffices h : ∀ (l done : List (Fin n)) (k : Links (Option (Fin n))), (done ++ l).Nodup →
      Ring k none (done.map some) →
      Ring (l.foldl (fun k b => k.push none (some b)) k) none ((l.reverse ++ done).map some) by
    have := h (List.finRange n) [] ⟨fun _ => none, fun _ => none⟩ (List.nodup_finRange n)
      (ring_nil.mpr ⟨rfl, rfl⟩)
    rwa [List.append_nil] at this
  intro l
  induction l with
  | nil => exact fun done k _ hr => hr
  | cons b l ih =>
    intro done k hn hr
    obtain ⟨hdone, hbl, hdis⟩ := List.nodup_append.mp hn
    have hb : b ∉ done := fun hb => hdis b hb b List.mem_cons_self rfl
    have hstep := hr.push (nodup_nodes hdone) (b := some b) (by simpa using hb)
    have hn' : (b :: done ++ l).Nodup := List.nodup_middle.mp hn
    simpa using ih (b :: done) _ hn' hstep

theorem State.Lists.boot (n : Nat) (d : Disk Blk) :
    (State.boot n d).Lists (List.finRange n).reverse :=
  ⟨lists_binit n, List.nodup_reverse.mpr (List.nodup_finRange n), by simp⟩

theorem Inv.boot (x : Machine) (n : Nat) (d : Disk Blk) :
    Inv x d (State.boot n d) (List.finRange n).reverse where
  lists := State.Lists.boot n d
  first := by
    rintro i (hv | hr)
    · cases hv
    · cases hr
  range := nofun
  data := nofun
  valid := by
    rintro i (hv | hv) <;> cases hv
  disk := fun _ _ => rfl
  refcnt := fun _ => rfl
  waiting := nofun
  header := .nil _

/-! ## Changing one buffer -/

@[simp] theorem State.setBuf_self (i : Fin n) (f : Buf → Buf) :
    (s.setBuf i f).buf i = f (s.buf i) := update_self ..

/-- Which block the buffers carry is a matter of their names. -/
theorem State.isBlock_congr
    (hs : ∀ i, (s'.buf i).dev = (s.buf i).dev ∧ (s'.buf i).blockno = (s.buf i).blockno) :
    s'.isBlock = s.isBlock := by
  funext dev blockno i
  rw [State.isBlock, State.isBlock, (hs i).1, (hs i).2]

variable {dev blockno k : Nat} {i : Fin n} {w : Waiter n} {Q : Unit → State n → Prop}

/-- Only buffer `i` has changed, which carries the same block and is as dirty as before. -/
structure Touch (s s' : State n) (i : Fin n) : Prop where
  other : ∀ j, j ≠ i → s'.buf j = s.buf j
  dev : (s'.buf i).dev = (s.buf i).dev
  blockno : (s'.buf i).blockno = (s.buf i).blockno
  dirty : (s'.buf i).dirty = (s.buf i).dirty
  links : s'.links = s.links
  disk : s'.disk = s.disk
  lh : s'.lh = s.lh
  latest : s'.latest = s.latest

theorem Touch.same (ht : Touch s s' i) (j : Fin n) :
    (s'.buf j).dev = (s.buf j).dev ∧ (s'.buf j).blockno = (s.buf j).blockno ∧
      (s'.buf j).dirty = (s.buf j).dirty := by
  by_cases hj : j = i
  · exact hj ▸ ⟨ht.dev, ht.blockno, ht.dirty⟩
  · rw [ht.other j hj]
    exact ⟨rfl, rfl, rfl⟩

theorem Touch.isBlock (ht : Touch s s' i) : s'.isBlock = s.isBlock :=
  State.isBlock_congr fun j => ⟨(ht.same j).1, (ht.same j).2.1⟩

theorem Touch.content (ht : Touch s s' i) : s'.content d = s.content d := by
  funext b
  rw [State.content, State.content, ht.latest]

/-- What has to be checked of the buffer that has changed. -/
theorem Touch.inv (ht : Touch s s' i) (h : Inv x d s order)
    (hlive : (s'.buf i).Live →
      order.find? (s.isBlock (s.buf i).dev (s.buf i).blockno) = some i)
    (hvalid : (s'.buf i).valid = true → ((s.buf i).dev = 1 ∧ (s.buf i).blockno < x.disksize) ∧
      (s'.buf i).data = s.content d (s.buf i).blockno)
    (hlock : (s.buf i).dirty = true ∨ (s'.buf i).locked = true → (s'.buf i).valid = true)
    (href : ∀ j, (s'.buf j).refcnt =
      s'.waiting.countP (fun w => w.buf = j) + (s'.buf j).locked.toNat)
    (hwait : ∀ w ∈ s'.waiting, s.isBlock w.dev w.blockno w.buf = true) : Inv x d s' order := by
  refine ⟨?_, fun j hj => ?_, fun j hj => ?_, fun j hj => ?_, fun j hj => ?_, fun b hb => ?_, href,
    fun w hw => ?_, ht.lh ▸ h.header⟩
  · rw [State.Lists, ht.links]
    exact h.lists
  · rw [ht.isBlock, (ht.same j).1, (ht.same j).2.1]
    by_cases hji : j = i
    · exact hji ▸ hlive (hji ▸ hj)
    · exact h.first j (ht.other j hji ▸ hj)
  · rw [(ht.same j).1, (ht.same j).2.1]
    by_cases hji : j = i
    · exact hji ▸ (hvalid (hji ▸ hj)).1
    · exact h.range j (ht.other j hji ▸ hj)
  · rw [(ht.same j).2.1, ht.content]
    by_cases hji : j = i
    · exact hji ▸ (hvalid (hji ▸ hj)).2
    · rw [ht.other j hji] at hj ⊢
      exact h.data j hj
  · by_cases hji : j = i
    · subst hji
      rw [ht.dirty] at hj
      exact hlock hj
    · rw [ht.other j hji] at hj ⊢
      exact h.valid j hj
  · rw [ht.disk, ht.content]
    refine h.disk b fun j hj => ?_
    rw [← (ht.same j).2.1]
    exact hb j ((ht.same j).2.2.trans hj)
  · rw [ht.isBlock]
    exact hwait w hw

/-! ## `bget` -/

/-- The block is cached: the buffer gets a reference. -/
def State.hit (s : State n) (i : Fin n) (dev blockno : Nat) : State n :=
  { s.setBuf i fun b => { b with refcnt := b.refcnt + 1 } with
    waiting := ⟨i, dev, blockno⟩ :: s.waiting }

/-- An unused buffer gets the block. -/
def State.recycle (s : State n) (i : Fin n) (dev blockno : Nat) : State n :=
  { s.setBuf i fun b =>
      { b with dev := dev, blockno := blockno, valid := false, dirty := false, refcnt := 1 }
    with waiting := ⟨i, dev, blockno⟩ :: s.waiting }

theorem State.hit_buf (j : Fin n) : (s.hit i dev blockno).buf j =
    if j = i then { s.buf i with refcnt := (s.buf i).refcnt + 1 } else s.buf j :=
  update_apply ..

theorem State.recycle_buf (j : Fin n) : (s.recycle i dev blockno).buf j =
    if j = i then ⟨false, false, dev, blockno, (s.buf i).locked, 1, (s.buf i).data⟩
    else s.buf j :=
  update_apply ..

theorem Inv.hit (h : Inv x d s order) (hf : order.find? (s.isBlock dev blockno) = some i) :
    Inv x d (s.hit i dev blockno) order := by
  have hi := State.isBlock_iff.mp (List.find?_some hf)
  have hself : (s.hit i dev blockno).buf i = { s.buf i with refcnt := (s.buf i).refcnt + 1 } := by
    rw [State.hit_buf, if_pos rfl]
  have ht : Touch s (s.hit i dev blockno) i :=
    ⟨fun j hj => by rw [State.hit_buf, if_neg hj], by rw [hself], by rw [hself], by rw [hself], rfl,
      rfl, rfl, rfl⟩
  refine ht.inv h ?_ ?_ ?_ (fun j => ?_) fun w hw => ?_
  · rw [hi.1, hi.2]
    exact fun _ => hf
  · rw [hself]
    exact fun hv => ⟨h.range i hv, h.data i hv⟩
  · rw [hself]
    exact h.valid i
  · have hj := h.refcnt j
    rw [State.hit_buf]
    by_cases hji : j = i
    · subst hji
      simp [State.hit, hj]
      omega
    · simp [State.hit, hji, Ne.symm hji, hj]
  · rcases List.mem_cons.mp hw with rfl | hw
    · exact List.find?_some hf
    · exact h.waiting w hw

/-- A buffer without references has no holder, and nobody waits for it. -/
theorem Inv.unreferenced (h : Inv x d s order) (hi : (s.buf i).refcnt = 0) :
    (s.buf i).locked = false ∧ ∀ w ∈ s.waiting, w.buf ≠ i := by
  have hr := h.refcnt i
  have hc : s.waiting.countP (fun w => w.buf = i) = 0 := by omega
  refine ⟨?_, fun w hw e => ?_⟩
  · cases hl : (s.buf i).locked with
    | false => rfl
    | true =>
      rw [hl] at hr
      simp at hr
      omega
  · have := List.countP_eq_zero.mp hc w hw
    simp [e] at this

theorem Inv.recycle (h : Inv x d s order) (hf : order.find? (s.isBlock dev blockno) = none)
    (hr : (s.buf i).refcnt = 0) (hd : (s.buf i).dirty = false) :
    Inv x d (s.recycle i dev blockno) order := by
  obtain ⟨hlock, hwait⟩ := h.unreferenced hr
  have hnone : ∀ j, s.isBlock dev blockno j = false := fun j => by
    simpa using List.find?_eq_none.mp hf j (h.lists.2.2 j)
  have hblock : ∀ dv bn j, j ≠ i → (s.recycle i dev blockno).isBlock dv bn j = s.isBlock dv bn j :=
    fun dv bn j hj => by rw [State.isBlock, State.isBlock, State.recycle_buf, if_neg hj]
  refine ⟨h.lists, fun j hj => ?_, fun j => ?_, fun j => ?_, fun j => ?_,
    fun b hb => h.disk b fun j => ?_, fun j => ?_, fun w hw => ?_, h.header⟩
  · by_cases hji : j = i
    · -- no other buffer carries the block
      subst hji
      obtain ⟨k, hk⟩ := Option.isSome_iff_exists.mp (List.find?_isSome.mpr
        ⟨j, h.lists.2.2 j, (State.isBlock_iff (s := s.recycle j dev blockno)).mpr ⟨rfl, rfl⟩⟩)
      rw [hk]
      by_contra hne
      have hkj : k ≠ j := fun e => hne (e ▸ rfl)
      have hblk := List.find?_some hk
      rw [hblock _ _ _ hkj, State.recycle_buf, if_pos rfl, hnone k] at hblk
      cases hblk
    · rw [State.recycle_buf, if_neg hji] at hj ⊢
      obtain ⟨hpj, as, bs, hsplit, has⟩ := List.find?_eq_some_iff_append.mp (h.first j hj)
      refine List.find?_eq_some_iff_append.mpr ⟨by rw [hblock _ _ _ hji]; exact hpj, as, bs, hsplit,
        fun k hk => ?_⟩
      by_cases hki : k = i
      · subst hki
        -- the block of `j` is not the new one
        suffices hk : ¬ (s.recycle k dev blockno).isBlock (s.buf j).dev (s.buf j).blockno k = true by
          simpa using hk
        intro hk
        obtain ⟨hdev, hblk⟩ := State.isBlock_iff.mp hk
        rw [State.recycle_buf, if_pos rfl] at hdev hblk
        have hj := State.isBlock_iff.mpr ⟨hdev.symm, hblk.symm⟩
        rw [hnone j] at hj
        cases hj
      · rw [hblock _ _ _ hki]
        exact has k hk
  · rw [State.recycle_buf]
    split
    · nofun
    · exact h.range j
  · rw [State.recycle_buf]
    split
    · nofun
    · exact h.data j
  · rw [State.recycle_buf]
    split
    · rintro (hj | hj)
      · cases hj
      · rw [hlock] at hj
        cases hj
    · exact h.valid j
  · have := hb j
    rw [State.recycle_buf] at this
    split at this
    · next hji => exact fun hj => by rw [hji, hd] at hj; cases hj
    · exact this
  · rw [State.recycle_buf]
    have hj := h.refcnt j
    by_cases hji : j = i
    · subst hji
      have hc : s.waiting.countP (fun w => w.buf = j) = 0 := by omega
      simp [State.recycle, hc, hlock]
    · simp [State.recycle, hji, Ne.symm hji, hj]
  · rcases List.mem_cons.mp hw with rfl | hw
    · exact State.isBlock_iff.mpr (by simp [State.recycle])
    · rw [hblock _ _ _ (hwait w hw)]
      exact h.waiting w hw

theorem wp_bget (h : Inv x d s order) :
    wp (bget dev blockno) (fun _ s' => Inv x d s' order ∧ Quiet s s' ∧
      ∃ i, s'.waiting = ⟨i, dev, blockno⟩ :: s.waiting) (fun e => e = .noBuffers ∧ s.Busy) s := by
  simp only [bget, wp_bind, wp_get]
  rw [h.lists.cached]
  cases hf : order.find? (s.isBlock dev blockno) with
  | some i =>
    refine ⟨h.hit hf, ⟨rfl, rfl, rfl, fun j b hj => ?_⟩, i, rfl⟩
    show (s.hit i dev blockno).Held j b
    rw [State.Held, State.hit_buf]
    split
    · next hji => exact hji ▸ hj
    · exact hj
  | none =>
    simp only [Option.map_none]
    rw [h.lists.unused]
    cases hu : order.reverse.find?
        (fun i => decide ((s.buf i).refcnt = 0 ∧ (s.buf i).dirty = false)) with
    | none =>
      refine ⟨rfl, fun i => ?_⟩
      have hi := List.find?_eq_none.mp hu i (List.mem_reverse.mpr (h.lists.2.2 i))
      grind
    | some i =>
      have hfree := List.find?_some hu
      obtain ⟨hr, hd⟩ := of_decide_eq_true hfree
      refine ⟨h.recycle hf hr hd, ⟨rfl, rfl, rfl, fun j b hj => ?_⟩, i, rfl⟩
      show (s.recycle i dev blockno).Held j b
      have hji : j ≠ i := by
        rintro rfl
        have := hj.1
        rw [(h.unreferenced hr).1] at this
        cases this
      rw [State.Held, State.recycle_buf, if_neg hji]
      exact hj

/-! ## The rest of `bread` -/

/-- The `k`-th waiting `bread` gets the lock of buffer `i`, with the contents `v`. -/
def State.acquire (s : State n) (k : Nat) (i : Fin n) (v : Blk) : State n :=
  { s.setBuf i fun b => { b with locked := true, valid := true, data := v } with
    waiting := s.waiting.eraseIdx k }

theorem State.acquire_buf {v : Blk} (j : Fin n) : (s.acquire k i v).buf j =
    if j = i then { s.buf i with locked := true, valid := true, data := v } else s.buf j :=
  update_apply ..

/-- One of the waiting `bread`s is gone. -/
theorem countP_eraseIdx {ws : List (Waiter n)} (hw : ws[k]? = some w)
    (p : Waiter n → Bool) : ws.countP p = (ws.eraseIdx k).countP p + (p w).toNat := by
  obtain ⟨hk, rfl⟩ := List.getElem?_eq_some_iff.mp hw
  rw [← (List.getElem_cons_eraseIdx_perm hk).countP_eq p, List.countP_cons]
  cases p ws[k] <;> rfl

theorem Inv.waiter_live (h : Inv x d s order) (hw : w ∈ s.waiting) : (s.buf w.buf).Live := by
  refine .inr ?_
  have hpos : 0 < s.waiting.countP (fun w' => w'.buf = w.buf) :=
    List.countP_pos_iff.mpr ⟨w, hw, by simp⟩
  have := h.refcnt w.buf
  omega

theorem Inv.acquire (h : Inv x d s order) {v : Blk}
    (hw : s.waiting[k]? = some w) (hl : (s.buf w.buf).locked = false)
    (hr : (s.buf w.buf).dev = 1 ∧ (s.buf w.buf).blockno < x.disksize)
    (hv : v = s.content d (s.buf w.buf).blockno) : Inv x d (s.acquire k w.buf v) order := by
  have hself : (s.acquire k w.buf v).buf w.buf =
      { s.buf w.buf with locked := true, valid := true, data := v } := by
    rw [State.acquire_buf, if_pos rfl]
  have ht : Touch s (s.acquire k w.buf v) w.buf :=
    ⟨fun j hj => by rw [State.acquire_buf, if_neg hj], by rw [hself], by rw [hself], by rw [hself],
      rfl, rfl, rfl, rfl⟩
  refine ht.inv h ?_ ?_ ?_ (fun j => ?_) fun w' hw' => ?_
  · exact fun _ => h.first _ (h.waiter_live (List.mem_of_getElem? hw))
  · rw [hself]
    exact fun _ => ⟨hr, hv⟩
  · rw [hself]
    exact fun _ => rfl
  · -- the reference of the waiting call is now that of the holder
    have hj := h.refcnt j
    have hc := countP_eraseIdx hw (fun w' => decide (w'.buf = j))
    rw [State.acquire_buf]
    by_cases hji : j = w.buf
    · subst hji
      simp only [decide_true, Bool.toNat_true, hl, Bool.toNat_false] at hc hj
      simp only [if_pos, State.acquire, Bool.toNat_true]
      omega
    · simp only [Ne.symm hji, decide_false, Bool.toNat_false] at hc
      simp only [if_neg hji, State.acquire]
      omega
  · exact h.waiting w' (List.mem_of_mem_eraseIdx hw')

/-- A locked and clean buffer that is not valid is read if it is one of the disk. -/
theorem wp_iderw_read {E : Fault → Prop} (hl : (s.buf i).locked = true)
    (hv : (s.buf i).valid = false) (hd : (s.buf i).dirty = false)
    (hE : ¬ ((s.buf i).dev = 1 ∧ (s.buf i).blockno < x.disksize) → ∀ e, E e)
    (hQ : (s.buf i).dev = 1 → (s.buf i).blockno < x.disksize →
      Q () (s.setBuf i fun b => { b with data := s.disk b.blockno, valid := true })) :
    wp (iderw x i) Q E s := by
  simp only [iderw, wp_bind, wp_get, wp_ite, wp_throw, wp_set, hl, hv, hd]
  refine ⟨(fun h => by cases h), fun _ => ⟨(fun h => by cases h.1), fun _ =>
    ⟨fun hdev => hE (fun h => hdev h.1) _, fun hdev => ⟨fun hb => hE (fun h => h.2.not_ge hb) _,
      fun hb => ⟨(fun h => by cases h), fun _ => ?_⟩⟩⟩⟩⟩
  exact hQ (not_not.mp hdev) (not_le.mp hb)

/-- A dirty buffer that `iderw` accepts is written. -/
theorem wp_iderw_write (hd : (s.buf i).dirty = true)
    (hQ : Q () { s.setBuf i fun b => { b with dirty := false, valid := true } with
      disk := update s.disk (s.buf i).blockno (s.buf i).data }) :
    wp (iderw x i) Q (fun _ => True) s := by
  simp only [iderw, wp_bind, wp_get, wp_ite, wp_throw, wp_set, hd]
  refine ⟨fun _ => trivial, fun _ => ⟨fun _ => trivial, fun _ => ⟨fun _ => trivial, fun _ =>
    ⟨fun _ => trivial, fun _ => ⟨fun _ => hQ, fun hne => absurd trivial hne⟩⟩⟩⟩⟩

/-- **What a `bread` returns**: a buffer that nobody held, with the contents of its block. -/
structure Read (x : Machine) (d : Disk Blk) (s : State n) (order : List (Fin n)) (k : Nat)
    (w : Waiter n) (s' : State n) : Prop where
  inv : Inv x d s' order
  quiet : Quiet s s'
  unlocked : (s.buf w.buf).locked = false
  waiter : s.waiting[k]? = some w
  rest : s'.waiting = s.waiting.eraseIdx k
  locked : (s'.buf w.buf).locked = true
  block : s'.isBlock w.dev w.blockno w.buf = true
  data : (s'.buf w.buf).data = s.content d w.blockno

theorem Inv.read (h : Inv x d s order) (hw : s.waiting[k]? = some w)
    (hl : (s.buf w.buf).locked = false)
    (hr : (s.buf w.buf).dev = 1 ∧ (s.buf w.buf).blockno < x.disksize) :
    Read x d s order k w (s.acquire k w.buf (s.content d (s.buf w.buf).blockno)) := by
  obtain ⟨hd, hb⟩ := State.isBlock_iff.mp (h.waiting w (List.mem_of_getElem? hw))
  refine ⟨h.acquire hw hl hr rfl, ⟨rfl, rfl, rfl, fun j b hj => ?_⟩, hl, hw, rfl, ?_, ?_, ?_⟩
  · rw [State.Held, State.acquire_buf]
    split
    · next hji => exact ⟨rfl, hji ▸ hj.2⟩
    · exact hj
  · rw [State.acquire_buf, if_pos rfl]
  · rw [State.isBlock_iff, State.acquire_buf, if_pos rfl]
    exact ⟨hd, hb⟩
  · rw [State.acquire_buf, if_pos rfl, ← hb]

/-- The block of a buffer that is not valid has no dirty buffer. -/
theorem Inv.disk_of_invalid (h : Inv x d s order) (hl : (s.buf i).Live) (hv : (s.buf i).valid = false)
    (hdev : (s.buf i).dev = 1) : s.disk (s.buf i).blockno = s.content d (s.buf i).blockno := by
  refine h.disk _ fun j hj hb => ?_
  have hjv := h.valid j (.inl hj)
  have : j = i := h.unique (.inl hjv) hl ⟨(h.range j hjv).1.trans hdev.symm, hb⟩
  rw [this, hv] at hjv
  cases hjv

/-- The rest of a `bread` of a block of the disk waits for the lock at most. -/
theorem wp_breadRest (h : Inv x d s order) :
    wp (breadRest x k) (fun i s' => ∃ w, w.buf = i ∧ Read x d s order k w s')
      (fun e => ∀ w, s.waiting[k]? = some w → w.dev = 1 → w.blockno < x.disksize →
        e = .sleeping ∧ (s.buf w.buf).locked = true) s := by
  simp only [breadRest, wp_bind, wp_get]
  cases hw : s.waiting[k]? with
  | none =>
    intro _ hw'
    cases hw'
  | some w =>
    simp only [wp_bind, wp_ite, wp_throw, wp_set, wp_pure]
    refine ⟨fun hl w' hw' _ _ => ⟨trivial, Option.some.inj hw' ▸ hl⟩, fun hl => ⟨fun hv => ?_,
      fun hv => ?_⟩⟩
    · have hd : (s.buf w.buf).dirty = false := by
        by_contra hd
        have := h.valid w.buf (.inl (by simpa using hd))
        rw [hv] at this
        cases this
      refine wp_iderw_read (by simp) (by simpa using hv) (by simpa using hd) (fun hno e w' hw' hdev
        hblk => ?_) fun hdev hblk => ⟨w, rfl, ?_⟩
      · cases hw'
        obtain ⟨hd', hb'⟩ := State.isBlock_iff.mp (h.waiting w (List.mem_of_getElem? hw))
        exact absurd (by simp [hd', hb', hdev, hblk]) hno
      simp only [State.setBuf_self] at hdev hblk
      have hread := h.read hw (by simpa using hl) ⟨hdev, hblk⟩
      rw [← h.disk_of_invalid (h.waiter_live (List.mem_of_getElem? hw)) hv hdev] at hread
      simpa [State.acquire, State.setBuf] using hread
    · rw [Bool.not_eq_false] at hv
      have hread := h.read hw (by simpa using hl) (h.range _ hv)
      rw [← h.data _ hv] at hread
      refine ⟨w, rfl, ?_⟩
      simpa [State.acquire, State.setBuf, hv] using hread

/-! ## Changing a block -/

/-- The holder of buffer `i` has stored `v`, and has marked the buffer dirty or written it. -/
def State.stored (s : State n) (i : Fin n) (v : Blk) (dirty : Bool) (lh : List UInt32) : State n :=
  { s.setBuf i fun b => { b with data := v, valid := true, dirty := dirty } with
    disk := if dirty then s.disk else update s.disk (s.buf i).blockno v
    lh := lh
    latest := update s.latest (s.buf i).blockno (some v) }

section

variable {v : Blk} {dirty : Bool} {lh : List UInt32}

theorem State.stored_buf (j : Fin n) : (s.stored i v dirty lh).buf j =
    if j = i then { s.buf i with data := v, valid := true, dirty := dirty } else s.buf j :=
  update_apply ..

theorem State.content_stored : (s.stored i v dirty lh).content d =
    update (s.content d) (s.buf i).blockno v := by
  funext b
  by_cases hb : b = (s.buf i).blockno
  · subst hb
    simp [State.content, State.stored]
  · simp [State.content, State.stored, update_of_ne hb]

theorem Inv.stored (h : Inv x d s order) (hl : (s.buf i).locked = true) (hlh : Header x.log lh) :
    Inv x d (s.stored i v dirty lh) order := by
  have hvi := h.valid i (.inr hl)
  have hsame : ∀ j, ((s.stored i v dirty lh).buf j).dev = (s.buf j).dev ∧
      ((s.stored i v dirty lh).buf j).blockno = (s.buf j).blockno := by
    intro j
    rw [State.stored_buf]
    split <;> simp_all
  refine ⟨h.lists, fun j hj => ?_, fun j => ?_, fun j => ?_, fun j => ?_,
    fun b hb => ?_, fun j => ?_, fun w hw => ?_, hlh⟩
  · rw [State.isBlock_congr hsame, (hsame j).1, (hsame j).2]
    refine h.first j ?_
    rw [State.stored_buf] at hj
    split at hj
    · next hji => exact hji ▸ .inl hvi
    · exact hj
  · rw [State.stored_buf]
    split
    · exact fun _ => h.range i hvi
    · exact h.range j
  · -- no other valid buffer is one of the block
    rw [State.stored_buf, State.content_stored]
    split
    · simp
    · next hji =>
      intro hj
      rw [update_of_ne fun hb => hji (h.same_of_blockno hj hvi hb)]
      exact h.data j hj
  · rw [State.stored_buf]
    split
    · exact fun _ => rfl
    · exact h.valid j
  · have hrest : b ≠ (s.buf i).blockno → s.disk b = s.content d b := fun hne => by
      refine h.disk b fun j hj => ?_
      by_cases hji : j = i
      · exact hji ▸ hne.symm
      · have := hb j
        rw [State.stored_buf, if_neg hji] at this
        exact this hj
    rw [State.content_stored]
    by_cases hbi : b = (s.buf i).blockno
    · have := hb i
      rw [State.stored_buf, if_pos rfl] at this
      cases dirty with
      | true => exact absurd hbi.symm (this rfl)
      | false => simp [State.stored, hbi]
    · rw [update_of_ne hbi, ← hrest hbi]
      cases dirty with
      | true => rfl
      | false => exact update_of_ne hbi ..
  · rw [State.stored_buf]
    split
    · next hji => exact hji ▸ h.refcnt i
    · exact h.refcnt j
  · rw [State.isBlock_congr hsame]
    exact h.waiting w hw

/-- **A stored and written buffer** has its contents on the disk. -/
theorem wp_bwrite (h : Inv x d s order)
    (hQ : (s.buf i).locked = true → Inv x d (s.stored i v false s.lh) order →
      Q () (s.stored i v false s.lh)) :
    wp (store i v) (fun _ s' => wp (bwrite x i) Q (fun _ => True) s') (fun _ => True) s := by
  simp only [store, bwrite, wp_bind, wp_get, wp_ite, wp_throw, wp_set]
  refine ⟨fun _ => trivial, fun hl => ⟨fun _ => trivial, fun _ => ?_⟩⟩
  rw [Bool.not_eq_false] at hl
  refine wp_iderw_write (by simp) ?_
  have hq := hQ hl (h.stored hl h.header)
  simpa [State.stored, State.setBuf] using hq

/-- **A stored and logged buffer** stays in the cache. -/
theorem wp_logWrite (h : Inv x d s order)
    (hQ : ∀ lh, (s.buf i).locked = true → Inv x d (s.stored i v true lh) order →
      Q () (s.stored i v true lh)) :
    wp (store i v) (fun _ s' => wp (logWrite x i) Q (fun _ => True) s') (fun _ => True) s := by
  simp only [store, logWrite, wp_bind, wp_get, wp_ite, wp_throw, wp_set]
  refine ⟨fun _ => trivial, fun hl => ?_⟩
  rw [Bool.not_eq_false] at hl
  split
  · trivial
  · next lh hlh =>
    have hq := hQ lh hl (h.stored hl (h.header.record hlh))
    have hvi := h.valid i (.inr hl)
    simpa [State.stored, State.setBuf, hvi] using hq

end

/-! ## `brelse` -/

/-- The holder of buffer `i` is gone. -/
def State.release (s : State n) (i : Fin n) : State n :=
  s.setBuf i fun b => { b with locked := false, refcnt := b.refcnt - 1 }

/-- Buffer `i` is the most recently used one. -/
def State.front (s : State n) (i : Fin n) : State n :=
  { s with links := (s.links.unlink (some i)).push none (some i) }

theorem State.release_buf (j : Fin n) : (s.release i).buf j =
    if j = i then { s.buf i with locked := false, refcnt := (s.buf i).refcnt - 1 } else s.buf j :=
  update_apply ..

theorem Inv.release (h : Inv x d s order) (hl : (s.buf i).locked = true) :
    Inv x d (s.release i) order := by
  have hself : (s.release i).buf i =
      { s.buf i with locked := false, refcnt := (s.buf i).refcnt - 1 } := by
    rw [State.release_buf, if_pos rfl]
  have ht : Touch s (s.release i) i :=
    ⟨fun j hj => by rw [State.release_buf, if_neg hj], by rw [hself], by rw [hself], by rw [hself],
      rfl, rfl, rfl, rfl⟩
  refine ht.inv h ?_ ?_ ?_ (fun j => ?_) h.waiting
  · exact fun _ => h.first i (h.live_of_locked hl)
  · rw [hself]
    exact fun hv => ⟨h.range i hv, h.data i hv⟩
  · rw [hself]
    exact fun _ => h.valid i (.inr hl)
  · have hj := h.refcnt j
    rw [State.release_buf]
    by_cases hji : j = i
    · subst hji
      simp only [hl, Bool.toNat_true] at hj
      simp only [if_pos, Bool.toNat_false]
      show (s.buf j).refcnt - 1 = s.waiting.countP (fun w => decide (w.buf = j)) + 0
      omega
    · rw [if_neg hji]
      exact hj

theorem Inv.front (h : Inv x d s order) (hi : (s.buf i).Live) :
    ∃ order', Inv x d (s.front i) order' := by
  obtain ⟨xs, ys, rfl⟩ := List.append_of_mem (h.lists.2.2 i)
  obtain ⟨hring, hnodup, hall⟩ := h.lists
  have hperm : (i :: (xs ++ ys)).Perm (xs ++ i :: ys) := List.perm_middle.symm
  have hn : (i :: (xs ++ ys)).Nodup := hperm.nodup_iff.mpr hnodup
  have hunlink : Ring (s.links.unlink (some i)) none ((xs ++ ys).map some) := by
    rw [List.map_append, List.map_cons] at hring
    have hnodes := nodup_nodes hnodup
    rw [List.map_append, List.map_cons] at hnodes
    rw [List.map_append]
    exact hring.unlink hnodes
  refine ⟨i :: (xs ++ ys), ⟨?_, hn, fun j => hperm.mem_iff.mpr (hall j)⟩, fun j hj => ?_, h.range,
    h.data, h.valid, h.disk, h.refcnt, h.waiting, h.header⟩
  · exact hunlink.push (nodup_nodes (List.nodup_cons.mp hn).2)
      (by simpa using (List.nodup_cons.mp hn).1)
  · have hf := h.first j hj
    show (i :: (xs ++ ys)).find? (s.isBlock (s.buf j).dev (s.buf j).blockno) = some j
    cases hb : s.isBlock (s.buf j).dev (s.buf j).blockno i with
    | true =>
      obtain ⟨hdev, hblk⟩ := State.isBlock_iff.mp hb
      rw [List.find?_cons_of_pos hb, h.unique hi hj ⟨hdev, hblk⟩]
    | false =>
      rw [List.find?_append, List.find?_cons_of_neg (by simp [hb])] at hf
      rw [List.find?_cons_of_neg (by simp [hb]), List.find?_append]
      exact hf

/-- `brelse` lets the buffer go and changes nothing else. -/
theorem wp_brelse (h : Inv x d s order) :
    wp (brelse i) (fun _ s' => (∃ order', Inv x d s' order') ∧ s'.disk = s.disk ∧ s'.lh = s.lh ∧
      s'.latest = s.latest ∧ s'.waiting = s.waiting ∧
      ∀ j b, j ≠ i → s.Held j b → s'.Held j b) (fun _ => True) s := by
  simp only [brelse, wp_bind, wp_get, wp_ite, wp_throw, wp_set]
  refine ⟨fun _ => trivial, fun hl => ?_⟩
  rw [Bool.not_eq_false] at hl
  have hheld : ∀ j b, j ≠ i → s.Held j b → (s.release i).Held j b := fun j b hj hb => by
    rw [State.Held, State.release_buf, if_neg hj]
    exact hb
  have hlive : ((s.release i).buf i).Live := by
    rw [State.release_buf, if_pos rfl]
    exact .inl (h.valid i (.inr hl))
  exact ⟨fun _ => ⟨(h.release hl).front hlive, rfl, rfl, rfl, rfl, hheld⟩,
    fun _ => ⟨⟨order, h.release hl⟩, rfl, rfl, rfl, rfl, hheld⟩⟩

end Laboratorio.Xv6.Bio
