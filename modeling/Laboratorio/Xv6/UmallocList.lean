import Laboratorio.Xv6.Umalloc

/-!
# The free list of `malloc`

`Inv base l held s` is the invariant of the allocator: `l` are `base` and the free blocks in the order
of their addresses, and `held` the blocks that are not free. All units of memory that `sbrk` has given
belong to one of them each (`Inv.units`), so that the blocks are disjoint and nothing is lost.

There is one rule for `free` and one for taking a block off the list.
-/

namespace Laboratorio.Xv6.Umalloc

open Function Laboratorio.Cyclic

/-- `c` begins behind `b`, and does not touch it. -/
def Apart (b c : Block) : Prop := b.limit < c.addr

structure Inv (base : Nat) (l held : List Block) (s : Heap) : Prop where
  head : l.head? = some ⟨base, 0⟩
  cycle : Cycle s.ptr (l.map Block.addr)
  size : ∀ b ∈ l, s.size b.addr = b.size
  apart : l.Pairwise Apart
  freep : s.freep ∈ l.map Block.addr
  pos : ∀ b ∈ l, b = ⟨base, 0⟩ ∨ 0 < b.size
  heldSize : ∀ b ∈ held, s.size b.addr = b.size ∧ 0 < b.size
  units : units l + units held = units s.regions
  regions : Regions base s.regions

variable {base : Nat} {l held us vs : List Block} {s : Heap} {b c d v : Block}

theorem Apart.addr_lt (h : Apart b c) : b.addr < c.addr := lt_of_le_of_lt (Nat.le_add_right ..) h

/-- The addresses increase. -/
theorem Inv.sorted (h : Inv base l held s) : (l.map Block.addr).Pairwise (· < ·) :=
  List.pairwise_map.mpr (h.apart.imp Apart.addr_lt)

theorem Inv.nodup (h : Inv base l held s) : (l.map Block.addr).Nodup := h.sorted.imp fun h => h.ne

theorem Inv.nodup_units (h : Inv base l held s) : (Umalloc.units l + Umalloc.units held).Nodup := by
  rw [h.units]
  exact h.regions.nodup

/-- A block of memory, free or not: where it is, and that it has the alignment of a header. -/
theorem Inv.inside (h : Inv base l held s) (hb : b ∈ l ∨ b ∈ held) (hpos : 0 < b.size) :
    base + 8 ≤ b.addr ∧ b.addr % 8 = 0 ∧ b.limit < 2 ^ 32 ∧ b.limit ≤ top base s.regions := by
  have hmem : ∀ a ∈ b.units, a ∈ Umalloc.units s.regions := by
    intro a ha
    rw [← h.units, Multiset.mem_add]
    exact hb.imp (fun hb => Multiset.mem_of_le (units_le hb) ha)
      fun hb => Multiset.mem_of_le (units_le hb) ha
  obtain ⟨hbase, -, hmod, -⟩ := h.regions.mem (hmem _ (addr_mem_units hpos))
  obtain ⟨-, htop, -, hlt⟩ := h.regions.mem (hmem _ (last_mem_units hpos))
  rw [Block.limit] at *
  omega

theorem Inv.base_lt (h : Inv base l held s) (hb : b ∈ held) : base < b.addr := by
  have := (h.inside (.inr hb) (h.heldSize b hb).2).1
  omega

/-- A free block and one that is not free. -/
theorem Inv.disjoint (h : Inv base l held s) (hb : b ∈ l) (hc : c ∈ held) :
    Disjoint b.units c.units := by
  obtain ⟨-, -, hd⟩ := Multiset.nodup_add.mp h.nodup_units
  exact hd.mono (units_le hb) (units_le hc)

theorem Inv.addr_ne (h : Inv base l held s) (hb : b ∈ l) (hc : c ∈ held) : b.addr ≠ c.addr := by
  intro heq
  rcases h.pos b hb with rfl | hpos
  · exact (h.base_lt hc).ne heq
  · have hmem : c.addr ∈ b.units := heq ▸ addr_mem_units hpos
    exact Multiset.disjoint_left.mp (h.disjoint hb hc) hmem (addr_mem_units (h.heldSize c hc).2)

/-- A block that is not free lies behind the free blocks with lower addresses. -/
theorem Inv.limit_le (h : Inv base l held s) (hd : d ∈ l) (hb : b ∈ held) (hlt : d.addr < b.addr) :
    d.limit ≤ b.addr := by
  obtain ⟨-, hpos⟩ := h.heldSize b hb
  rcases h.pos d hd with rfl | hdpos
  · rw [Block.limit]
    exact hlt.le
  · exact limit_le_of_disjoint (h.inside (.inl hd) hdpos).2.1 (h.inside (.inr hb) hpos).2.1 hpos hlt
      (h.disjoint hd hb)

/-- And before those with higher addresses. -/
theorem Inv.limit_le' (h : Inv base l held s) (hv : v ∈ l) (hb : b ∈ held) (hlt : b.addr < v.addr) :
    b.limit ≤ v.addr := by
  obtain ⟨-, hpos⟩ := h.heldSize b hb
  rcases h.pos v hv with rfl | hvpos
  · exact absurd (h.base_lt hb) (not_lt.mpr hlt.le)
  · exact limit_le_of_disjoint (h.inside (.inr hb) hpos).2.1 (h.inside (.inl hv) hvpos).2.1 hvpos hlt
      (h.disjoint hv hb).symm

/-! ## Where `free` puts a block -/

/-- The block after `d` on the list, or `base` again. -/
theorem Inv.ptr_eq (h : Inv base (us ++ d :: vs) held s) :
    s.ptr d.addr = match vs with | [] => base | v :: _ => v.addr := by
  have hcycle := h.cycle
  rw [List.map_append, List.map_cons] at hcycle
  cases vs with
  | cons v vs => exact hcycle.next_eq
  | nil =>
    obtain ⟨c, t, ht⟩ := List.exists_cons_of_ne_nil (List.append_ne_nil_of_right_ne_nil us
      (List.cons_ne_nil d []))
    have hhead := h.head
    rw [ht, List.head?_cons, Option.some.injEq] at hhead
    have hl : base :: t.map Block.addr = us.map Block.addr ++ [d.addr] := by
      have := congrArg (List.map Block.addr) ht
      simpa [hhead] using this.symm
    exact Cycle.next_last (by rw [hl]; exact hcycle) hl

/-- **The loop of `free`** stops at the last block with a lower address. -/
theorem Inv.stops_iff (h : Inv base (us ++ d :: vs) held s) (hb : b ∈ held) :
    s.stops b.addr d.addr = true ↔ d.addr < b.addr ∧ ∀ v ∈ vs, b.addr < v.addr := by
  have hbase := h.base_lt hb
  have hsorted := (List.pairwise_append.mp h.apart).2.1
  simp only [Heap.stops, decide_eq_true_eq]
  cases vs with
  | nil =>
    have hptr : s.ptr d.addr = base := h.ptr_eq
    have hd : base ≤ d.addr := by
      rcases h.pos d (by simp) with rfl | hpos
      · exact le_rfl
      · have := (h.inside (.inl (by simp)) hpos).1
        omega
    simp only [hptr, List.not_mem_nil, false_imp_iff, implies_true, and_true]
    omega
  | cons v vs =>
    have hptr : s.ptr d.addr = v.addr := h.ptr_eq
    obtain ⟨hdv, hvs⟩ := List.pairwise_cons.mp hsorted
    rw [hptr]
    have hlt := (hdv v List.mem_cons_self).addr_lt
    constructor
    · intro hstop
      have hmid : d.addr < b.addr ∧ b.addr < v.addr := by omega
      refine ⟨hmid.1, fun w hw => ?_⟩
      rcases List.mem_cons.mp hw with rfl | hw
      · exact hmid.2
      · exact hmid.2.trans ((List.pairwise_cons.mp hvs).1 w hw).addr_lt
    · rintro ⟨hd, hall⟩
      have := hall v List.mem_cons_self
      omega

/-- There is a block where the loop stops. -/
theorem Inv.exists_stop (h : Inv base l held s) (hb : b ∈ held) :
    ∃ a ∈ l.map Block.addr, s.stops b.addr a = true := by
  -- the last one of those with a lower address
  have hsplit : ∃ us d vs, l = us ++ d :: vs ∧ d.addr < b.addr ∧ ∀ v ∈ vs, b.addr < v.addr := by
    have hne : ∀ c ∈ l, c.addr ≠ b.addr := fun c hc => h.addr_ne hc hb
    have hhead : ∃ c t, l = c :: t ∧ c.addr < b.addr := by
      have hh := h.head
      cases hl : l with
      | nil => simp [hl] at hh
      | cons c t =>
        rw [hl, List.head?_cons, Option.some.injEq] at hh
        exact ⟨c, t, rfl, by rw [hh]; exact h.base_lt hb⟩
    obtain ⟨c, t, rfl, hc⟩ := hhead
    have hsorted := h.apart
    clear h
    induction t generalizing c with
    | nil => exact ⟨[], c, [], rfl, hc, by simp⟩
    | cons d t ih =>
      obtain ⟨hcd, hrest⟩ := List.pairwise_cons.mp hsorted
      by_cases hd : d.addr < b.addr
      · obtain ⟨us, e, vs, heq, he, hvs⟩ := ih d hd (fun x hx => hne x (List.mem_cons_of_mem _ hx))
          hrest
        exact ⟨c :: us, e, vs, by rw [heq]; rfl, he, hvs⟩
      · refine ⟨[], c, d :: t, rfl, hc, fun v hv => ?_⟩
        have hdb : b.addr < d.addr := lt_of_le_of_ne (not_lt.mp hd)
          (hne d (by simp)).symm
        rcases List.mem_cons.mp hv with rfl | hv
        · exact hdb
        · exact hdb.trans ((List.pairwise_cons.mp hrest).1 v hv).addr_lt
  obtain ⟨us, d, vs, rfl, hd, hvs⟩ := hsplit
  exact ⟨d.addr, by simp, (h.stops_iff hb).mpr ⟨hd, hvs⟩⟩

/-- **Replacing the blocks from `d` on** by the blocks `ws`. -/
theorem Inv.replace (h : Inv base (us ++ d :: vs) held s) {ws held' : List Block} {s' : Heap}
    (hhead : us = [] → ws.head? = some ⟨base, 0⟩) (hcycle : Cycle s'.ptr ((us ++ ws).map Block.addr))
    (hapart : ws.Pairwise Apart) (hcross : ∀ u ∈ us, ∀ w ∈ ws, Apart u w)
    (hsize : ∀ w ∈ ws, s'.size w.addr = w.size ∧ (w = ⟨base, 0⟩ ∨ 0 < w.size))
    (hus : ∀ u ∈ us, s'.size u.addr = s.size u.addr)
    (hheld : ∀ c ∈ held', s'.size c.addr = c.size ∧ 0 < c.size)
    (hunits : Umalloc.units ws + Umalloc.units held' =
      d.units + Umalloc.units vs + Umalloc.units held)
    (hregions : s'.regions = s.regions) (hfreep : s'.freep ∈ (us ++ ws).map Block.addr) :
    Inv base (us ++ ws) held' s' where
  head := by
    cases us with
    | nil => exact hhead rfl
    | cons u us => exact h.head
  cycle := hcycle
  size w hw := by
    rcases List.mem_append.mp hw with hw | hw
    · exact (hus w hw).trans (h.size w (List.mem_append_left _ hw))
    · exact (hsize w hw).1
  apart := List.pairwise_append.mpr ⟨(List.pairwise_append.mp h.apart).1, hapart, hcross⟩
  freep := hfreep
  pos w hw := by
    rcases List.mem_append.mp hw with hw | hw
    · exact h.pos w (List.mem_append_left _ hw)
    · exact (hsize w hw).2
  heldSize := hheld
  units := by
    rw [units_append, add_assoc, hunits, hregions, ← h.units, units_append, units_cons]
    abel
  regions := hregions ▸ h.regions

/-! ## Joining blocks -/

theorem Inv.held_ne (h : Inv base l (b :: held) s) (hc : c ∈ held) : c.addr ≠ b.addr := by
  intro heq
  obtain ⟨-, hheld, -⟩ := Multiset.nodup_add.mp h.nodup_units
  rw [units_cons, Multiset.nodup_add] at hheld
  obtain ⟨-, -, hd⟩ := hheld
  obtain ⟨-, hbpos⟩ := h.heldSize b List.mem_cons_self
  obtain ⟨-, hcpos⟩ := h.heldSize c (List.mem_cons_of_mem _ hc)
  have hmem : c.addr ∈ b.units := heq ▸ addr_mem_units hbpos
  exact Multiset.disjoint_left.mp hd hmem (Multiset.mem_of_le (units_le hc) (addr_mem_units hcpos))

/-- What becomes of a block `b` that is freed, and of the blocks `vs` behind it: `n` is its size, and
`vs'` are the blocks behind it then. The pointers are those of a list without `b`. -/
structure Joined (us vs : List Block) (d b : Block) (s s' : Heap) (n : Nat) (vs' : List Block) :
    Prop where
  size : s'.size b.addr = n
  le : b.size ≤ n
  units : Block.units ⟨b.addr, n⟩ + Umalloc.units vs' = b.units + Umalloc.units vs
  suffix : vs' <:+ vs
  apart : ∀ v ∈ vs', Apart ⟨b.addr, n⟩ v
  other : ∀ a, a ≠ b.addr → s'.ptr a = s.ptr a ∧ s'.size a = s.size a
  regions : s'.regions = s.regions
  cycle : ∀ next, next d.addr = s'.ptr b.addr → (∀ c ∈ us, next c.addr = s.ptr c.addr) →
    (∀ c ∈ vs', next c.addr = s.ptr c.addr) → Cycle next ((us ++ d :: vs').map Block.addr)

theorem add_limit (h : b.limit < 2 ^ 32) : add b.addr b.size = b.limit := Nat.mod_eq_of_lt h

theorem Inv.joinUpper (h : Inv base (us ++ d :: vs) (b :: held) s)
    (hvs : ∀ v ∈ vs, b.addr < v.addr) :
    ∃ n vs', Joined us vs d b s (s.joinUpper b.addr d.addr) n vs' := by
  have hb : b ∈ b :: held := List.mem_cons_self
  obtain ⟨hsize, hpos⟩ := h.heldSize b hb
  obtain ⟨-, -, hlimit, -⟩ := h.inside (.inr hb) hpos
  have hcycle := h.cycle
  -- when nothing is joined, the block is linked to what follows `d`
  have hlink : (∀ v ∈ vs, Apart b v) →
      Joined us vs d b s (s.setPtr b.addr (s.ptr d.addr)) b.size vs := by
    intro hapart
    refine ⟨by rw [size_setPtr, hsize], le_rfl, rfl, List.suffix_rfl, hapart,
      fun a ha => ⟨ptr_setPtr_of_ne ha, size_setPtr⟩, rfl, fun next hd hus hvs => ?_⟩
    rw [ptr_setPtr_self] at hd
    refine hcycle.congr fun a ha => ?_
    obtain ⟨c, hc, rfl⟩ := List.mem_map.mp ha
    rcases List.mem_append.mp hc with hc | hc
    · exact hus c hc
    · rcases List.mem_cons.mp hc with rfl | hc
      · exact hd
      · exact hvs c hc
  unfold Heap.joinUpper
  rw [hsize, add_limit hlimit]
  cases vs with
  | nil =>
    have hptr : s.ptr d.addr = base := h.ptr_eq
    have hbase := h.base_lt hb
    rw [if_neg (by rw [hptr, Block.limit]; omega)]
    exact ⟨_, _, hlink (by simp)⟩
  | cons v vs =>
    have hptr : s.ptr d.addr = v.addr := h.ptr_eq
    have hv : v ∈ us ++ d :: v :: vs := by simp
    obtain ⟨-, hpair, -⟩ := List.pairwise_append.mp h.apart
    obtain ⟨-, hpair⟩ := List.pairwise_cons.mp hpair
    obtain ⟨hvapart, -⟩ := List.pairwise_cons.mp hpair
    have hle := h.limit_le' hv hb (hvs v List.mem_cons_self)
    by_cases htouch : b.limit = v.addr
    · have hvpos : 0 < v.size := (h.pos v hv).resolve_left fun hv => by
        have := h.base_lt hb
        rw [hv] at hle
        simp only [Block.limit] at hle
        omega
      have hvlimit := (h.inside (.inl hv) hvpos).2.2.1
      have hvsize := h.size v hv
      have hvb : v.addr ≠ b.addr := (hvs v List.mem_cons_self).ne'
      have hlim : (b.size + v.size) % 2 ^ 32 = b.size + v.size := by
        rw [Block.limit] at htouch hvlimit
        exact Nat.mod_eq_of_lt (by omega)
      have hsum : Block.limit ⟨b.addr, b.size + v.size⟩ = v.limit := by
        simp only [Block.limit] at htouch ⊢
        omega
      rw [if_pos (htouch.trans hptr.symm), hptr, hvsize, hlim]
      refine ⟨b.size + v.size, vs, by simp, Nat.le_add_right .., ?_, List.suffix_cons v vs,
        fun w hw => ?_, fun a ha => ⟨?_, ?_⟩, rfl, fun next hd hus hvs => ?_⟩
      · have hveq : v = ⟨b.addr + 8 * b.size, v.size⟩ := by
          rw [← Block.limit, htouch]
        rw [units_add, units_cons, hveq, add_assoc]
      · rw [Apart, hsum]
        exact hvapart w hw
      · rw [ptr_setPtr_of_ne ha, ptr_setSize]
      · rw [size_setPtr, size_setSize_of_ne ha]
      · rw [ptr_setPtr_self, ptr_setSize, ptr_setSize, hptr] at hd
        rw [List.map_append, List.map_cons, List.map_cons] at hcycle
        rw [List.map_append, List.map_cons]
        refine hcycle.remove hd (fun a ha => ?_) fun a ha => ?_
        · obtain ⟨c, hc, rfl⟩ := List.mem_map.mp ha
          exact hus c hc
        · obtain ⟨c, hc, rfl⟩ := List.mem_map.mp ha
          exact hvs c hc
    · rw [if_neg fun heq => htouch (heq.trans hptr)]
      refine ⟨_, _, hlink fun w hw => ?_⟩
      have hlt : b.limit < v.addr := lt_of_le_of_ne hle htouch
      rcases List.mem_cons.mp hw with rfl | hw
      · exact hlt
      · exact hlt.trans (hvapart w hw).addr_lt

/-- The size of a block that is freed does not overflow. -/
theorem Joined.limit_lt {s₁ : Heap} {n : Nat} {vs' : List Block} (hj : Joined us vs d b s s₁ n vs')
    (h : Inv base (us ++ d :: vs) (b :: held) s) : Block.limit ⟨b.addr, n⟩ < 2 ^ 32 := by
  have hpos : 0 < Block.size ⟨b.addr, n⟩ :=
    lt_of_lt_of_le (h.heldSize b List.mem_cons_self).2 hj.le
  have hmem : Block.limit ⟨b.addr, n⟩ - 8 ∈ b.units + Umalloc.units vs := by
    rw [← hj.units]
    exact Multiset.mem_add.mpr (.inl (last_mem_units hpos))
  have hregion : Block.limit ⟨b.addr, n⟩ - 8 ∈ Umalloc.units s.regions := by
    rw [← h.units, units_append, units_cons, units_cons]
    simp only [Multiset.mem_add] at hmem ⊢
    tauto
  have := (h.regions.mem hregion).2.2.2
  omega

theorem Inv.joinLower (h : Inv base (us ++ d :: vs) (b :: held) s) (hdb : d.addr < b.addr)
    {s₁ : Heap} {n : Nat} {vs' : List Block} (hj : Joined us vs d b s s₁ n vs') :
    ∃ l', Inv base l' held { s₁.joinLower b.addr d.addr with freep := d.addr } ∧
      l'.length ≤ (us ++ d :: vs).length + 1 ∧ ∃ c ∈ l', b.size ≤ c.size := by
  have hb : b ∈ b :: held := List.mem_cons_self
  have hd : d ∈ us ++ d :: vs := by simp
  obtain ⟨hsize, hpos⟩ := h.heldSize b hb
  have hle := h.limit_le hd hb hdb
  have hnlimit := hj.limit_lt h
  have hnpos : 0 < n := lt_of_lt_of_le hpos hj.le
  have hdlimit : d.limit < 2 ^ 32 := lt_of_le_of_lt (hle.trans (Nat.le_add_right ..)) hnlimit
  have hsub : ∀ c ∈ vs', c ∈ vs := fun c hc => hj.suffix.subset hc
  obtain ⟨-, hpvs, hcross⟩ := List.pairwise_append.mp h.apart
  obtain ⟨hdvs, hpvs⟩ := List.pairwise_cons.mp hpvs
  have hpvs' : vs'.Pairwise Apart := hpvs.sublist hj.suffix.sublist
  have hlen := hj.suffix.length_le
  have hdsize : s₁.size d.addr = d.size := (hj.other _ hdb.ne).2.trans (h.size d hd)
  -- the other blocks are neither `d` nor `b`
  have hus : ∀ c ∈ us, c.addr ≠ d.addr ∧ c.addr ≠ b.addr := fun c hc =>
    ⟨(hcross c hc d List.mem_cons_self).addr_lt.ne, h.addr_ne (List.mem_append_left _ hc) hb⟩
  have hvs : ∀ c ∈ vs', c.addr ≠ d.addr ∧ c.addr ≠ b.addr := fun c hc =>
    ⟨(hdvs c (hsub c hc)).addr_lt.ne', h.addr_ne (by simp [hsub c hc]) hb⟩
  have hheld : ∀ c ∈ held, c.addr ≠ d.addr ∧ c.addr ≠ b.addr := fun c hc =>
    ⟨(h.addr_ne hd (List.mem_cons_of_mem _ hc)).symm, h.held_ne hc⟩
  have hcycle := hj.cycle (update s.ptr d.addr (s₁.ptr b.addr)) (update_self ..)
    (fun c hc => update_of_ne (hus c hc).1 ..)
    fun c hc => update_of_ne (hvs c hc).1 ..
  have hcross' : ∀ u ∈ us, Apart u d ∧ ∀ w ∈ vs', Apart u w := fun u hu =>
    ⟨hcross u hu d List.mem_cons_self,
      fun w hw => hcross u hu w (List.mem_cons_of_mem _ (hsub w hw))⟩
  have hkeep : ∀ s₂ : Heap, (∀ a, a ≠ d.addr → s₂.ptr a = s₁.ptr a ∧ s₂.size a = s₁.size a) →
      ∀ c : Block, c.addr ≠ d.addr ∧ c.addr ≠ b.addr →
        s₂.ptr c.addr = s.ptr c.addr ∧ s₂.size c.addr = s.size c.addr := fun s₂ hs₂ c hc =>
    ⟨(hs₂ _ hc.1).1.trans (hj.other _ hc.2).1, (hs₂ _ hc.1).2.trans (hj.other _ hc.2).2⟩
  have hold : ∀ w ∈ vs', s.size w.addr = w.size ∧ (w = ⟨base, 0⟩ ∨ 0 < w.size) := fun w hw =>
    ⟨h.size w (by simp [hsub w hw]), h.pos w (by simp [hsub w hw])⟩
  unfold Heap.joinLower
  rw [hdsize, add_limit hdlimit, hj.size]
  by_cases htouch : d.limit = b.addr
  · have hsum : Block.limit ⟨d.addr, d.size + n⟩ = Block.limit ⟨b.addr, n⟩ := by
      simp only [Block.limit] at htouch ⊢
      omega
    have hmod : (d.size + n) % 2 ^ 32 = d.size + n := by
      rw [← hsum, Block.limit] at hnlimit
      exact Nat.mod_eq_of_lt (by simp only at hnlimit; omega)
    rw [if_pos htouch, hmod]
    have hs₂ := hkeep { (s₁.setSize d.addr (d.size + n)).setPtr d.addr
        ((s₁.setSize d.addr (d.size + n)).ptr b.addr) with freep := d.addr }
      fun a ha => ⟨(ptr_setPtr_of_ne ha).trans ptr_setSize,
        size_setPtr.trans (size_setSize_of_ne ha)⟩
    refine ⟨us ++ ⟨d.addr, d.size + n⟩ :: vs', h.replace ?_ ?_ ?_ ?_ ?_ ?_ ?_ ?_ hj.regions ?_,
      by simp; omega, ⟨d.addr, d.size + n⟩, by simp, hj.le.trans (Nat.le_add_left ..)⟩
    · -- `base` has size zero, and does not touch the block
      rintro rfl
      have hhead : d = ⟨base, 0⟩ := by simpa using h.head
      rw [hhead] at htouch
      exact absurd htouch (h.base_lt hb).ne
    · refine Cycle.congr (by simpa using hcycle) fun a ha => ?_
      by_cases had : a = d.addr
      · rw [had, update_self]
        exact ptr_setPtr_self.trans ptr_setSize
      · obtain ⟨c, hc, rfl⟩ := List.mem_map.mp ha
        rw [update_of_ne had]
        refine (hs₂ c ?_).1
        rcases List.mem_append.mp hc with hc | hc
        · exact hus c hc
        rcases List.mem_cons.mp hc with rfl | hc
        · exact absurd rfl had
        · exact hvs c hc
    · refine List.pairwise_cons.mpr ⟨fun w hw => ?_, hpvs'⟩
      rw [Apart, hsum]
      exact hj.apart w hw
    · exact fun u hu => List.forall_mem_cons.mpr (hcross' u hu)
    · refine List.forall_mem_cons.mpr ⟨⟨size_setPtr.trans size_setSize_self, .inr ?_⟩, fun w hw =>
        ⟨(hs₂ w (hvs w hw)).2.trans (hold w hw).1, (hold w hw).2⟩⟩
      exact Nat.add_pos_right _ hnpos
    · exact fun u hu => (hs₂ u (hus u hu)).2
    · intro c hc
      obtain ⟨hcsize, hcpos⟩ := h.heldSize c (List.mem_cons_of_mem _ hc)
      exact ⟨(hs₂ c (hheld c hc)).2.trans hcsize, hcpos⟩
    · have hsplit : Block.units ⟨d.addr, d.size + n⟩ = d.units + Block.units ⟨b.addr, n⟩ := by
        rw [units_add, ← htouch]
        rfl
      rw [units_cons, units_cons, hsplit, add_assoc d.units, hj.units]
      abel
    · simp
  · rw [if_neg htouch]
    have hlt : Apart d ⟨b.addr, n⟩ := lt_of_le_of_ne hle htouch
    have hs₂ := hkeep { s₁.setPtr d.addr b.addr with freep := d.addr }
      fun a ha => ⟨ptr_setPtr_of_ne ha, size_setPtr⟩
    refine ⟨us ++ d :: ⟨b.addr, n⟩ :: vs', h.replace ?_ ?_ ?_ ?_ ?_ ?_ ?_ ?_ hj.regions ?_,
      by simp; omega, ⟨b.addr, n⟩, by simp, hj.le⟩
    · rintro rfl
      exact h.head
    · rw [List.map_append, List.map_cons] at hcycle
      rw [List.map_append, List.map_cons, List.map_cons]
      refine hcycle.insert ptr_setPtr_self ?_ (fun a ha => ?_) fun a ha => ?_
      · rw [update_self]
        exact ptr_setPtr_of_ne hdb.ne'
      · obtain ⟨c, hc, rfl⟩ := List.mem_map.mp ha
        rw [update_of_ne (hus c hc).1]
        exact (hs₂ c (hus c hc)).1
      · obtain ⟨c, hc, rfl⟩ := List.mem_map.mp ha
        rw [update_of_ne (hvs c hc).1]
        exact (hs₂ c (hvs c hc)).1
    · exact List.pairwise_cons.mpr ⟨List.forall_mem_cons.mpr ⟨hlt, fun w hw => hdvs w (hsub w hw)⟩,
        List.pairwise_cons.mpr ⟨hj.apart, hpvs'⟩⟩
    · exact fun u hu => List.forall_mem_cons.mpr ⟨(hcross' u hu).1,
        List.forall_mem_cons.mpr ⟨(hcross' u hu).1.trans hdb, (hcross' u hu).2⟩⟩
    · exact List.forall_mem_cons.mpr ⟨⟨size_setPtr.trans hdsize, h.pos d hd⟩,
        List.forall_mem_cons.mpr ⟨⟨size_setPtr.trans hj.size, .inr hnpos⟩, fun w hw =>
          ⟨(hs₂ w (hvs w hw)).2.trans (hold w hw).1, (hold w hw).2⟩⟩⟩
    · exact fun u hu => (hs₂ u (hus u hu)).2
    · intro c hc
      obtain ⟨hcsize, hcpos⟩ := h.heldSize c (List.mem_cons_of_mem _ hc)
      exact ⟨(hs₂ c (hheld c hc)).2.trans hcsize, hcpos⟩
    · rw [units_cons, units_cons, units_cons, hj.units]
      abel
    · simp

theorem regions_joinLower {bp p : Nat} : (s.joinLower bp p).regions = s.regions := by
  unfold Heap.joinLower
  split
  · rfl
  · rfl

/-- **`free`** puts a block on the list. -/
theorem Inv.free (h : Inv base l (b :: held) s) {fuel : Nat} (hf : l.length ≤ fuel) :
    ∃ s' l', free fuel s (b.addr + 8) = some s' ∧ Inv base l' held s' ∧ s'.regions = s.regions ∧
      l'.length ≤ l.length + 1 ∧ ∃ c ∈ l', b.size ≤ c.size := by
  have hb : b ∈ b :: held := List.mem_cons_self
  obtain ⟨a, ha, hsearch, hstop⟩ := h.cycle.search h.freep (h.exists_stop hb) (by simpa using hf)
  obtain ⟨d, hd, rfl⟩ := List.mem_map.mp ha
  obtain ⟨us, vs, rfl⟩ := List.append_of_mem hd
  obtain ⟨hdb, hvs⟩ := (h.stops_iff hb).mp hstop
  obtain ⟨n, vs', hj⟩ := h.joinUpper hvs
  obtain ⟨l', hinv, hc⟩ := h.joinLower hdb hj
  refine ⟨_, l', ?_, hinv, regions_joinLower.trans hj.regions, hc⟩
  rw [Umalloc.free, Nat.add_sub_cancel, hsearch]

/-! ## Taking a block -/

/-- The block before another one than `base`. -/
theorem Inv.exists_prev (h : Inv base l held s) {p : Block} (hp : p ∈ l) (hpos : 0 < p.size)
    {prevp : Nat} (hprev : prevp ∈ l.map Block.addr) (hptr : s.ptr prevp = p.addr) :
    ∃ us q vs, l = us ++ q :: p :: vs ∧ q.addr = prevp := by
  obtain ⟨us, vs, rfl⟩ := List.append_of_mem hp
  cases us using List.reverseRecOn with
  | nil =>
    have hhead : p = ⟨base, 0⟩ := by simpa using h.head
    rw [hhead] at hpos
    cases hpos
  | append_singleton us q =>
    rw [List.append_assoc, List.singleton_append] at h hprev ⊢
    refine ⟨us, q, vs, rfl, h.cycle.next_inj h.nodup (by simp) hprev ?_⟩
    have hq : s.ptr q.addr = p.addr := h.ptr_eq
    rw [hq, hptr]

/-- The whole block is taken. -/
theorem Inv.takeAll {q p : Block} (h : Inv base (us ++ q :: p :: vs) held s) (hpos : 0 < p.size) :
    Inv base (us ++ q :: vs) (p :: held)
      { s.setPtr q.addr (s.ptr p.addr) with freep := q.addr } := by
  have hq : q ∈ us ++ q :: p :: vs := by simp
  obtain ⟨-, hpair, hcross⟩ := List.pairwise_append.mp h.apart
  obtain ⟨hqvs, hpair⟩ := List.pairwise_cons.mp hpair
  obtain ⟨-, hvs⟩ := List.pairwise_cons.mp hpair
  refine h.replace ?_ ?_ ?_ ?_ ?_ ?_ ?_ ?_ rfl (by simp)
  · rintro rfl
    exact h.head
  · have hcycle := h.cycle
    rw [List.map_append, List.map_cons, List.map_cons] at hcycle
    rw [List.map_append, List.map_cons]
    refine hcycle.remove ptr_setPtr_self (fun a ha => ?_) fun a ha => ?_
    · obtain ⟨c, hc, rfl⟩ := List.mem_map.mp ha
      exact ptr_setPtr_of_ne (hcross c hc q List.mem_cons_self).addr_lt.ne
    · obtain ⟨c, hc, rfl⟩ := List.mem_map.mp ha
      exact ptr_setPtr_of_ne (hqvs c (List.mem_cons_of_mem _ hc)).addr_lt.ne'
  · exact List.pairwise_cons.mpr ⟨fun w hw => hqvs w (List.mem_cons_of_mem _ hw), hvs⟩
  · intro u hu w hw
    refine hcross u hu w ?_
    rcases List.mem_cons.mp hw with rfl | hw
    · exact List.mem_cons_self
    · exact List.mem_cons_of_mem _ (List.mem_cons_of_mem _ hw)
  · refine List.forall_mem_cons.mpr ⟨⟨size_setPtr.trans (h.size q hq), h.pos q hq⟩, fun w hw => ?_⟩
    have hmem : w ∈ us ++ q :: p :: vs := by simp [hw]
    exact ⟨size_setPtr.trans (h.size w hmem), h.pos w hmem⟩
  · exact fun u _ => size_setPtr
  · exact List.forall_mem_cons.mpr ⟨⟨size_setPtr.trans (h.size p (by simp)), hpos⟩, fun c hc =>
      ⟨size_setPtr.trans (h.heldSize c hc).1, (h.heldSize c hc).2⟩⟩
  · simp only [units_cons]
    abel

/-- The tail of a block is taken, which has `n` units less then. -/
theorem Inv.takeTail {p : Block} (h : Inv base (us ++ p :: vs) held s) {m n prevp : Nat}
    (hsize : p.size = m + n) (hm : 0 < m) (hn : 0 < n)
    (hprev : prevp ∈ (us ++ p :: vs).map Block.addr) :
    Inv base (us ++ ⟨p.addr, m⟩ :: vs) (⟨p.addr + 8 * m, n⟩ :: held)
      { (s.setSize p.addr m).setSize (p.addr + 8 * m) n with freep := prevp } := by
  have hp : p ∈ us ++ p :: vs := by simp
  obtain ⟨-, hpair, hcross⟩ := List.pairwise_append.mp h.apart
  obtain ⟨hpvs, hvs⟩ := List.pairwise_cons.mp hpair
  have hlimit : p.limit = p.addr + 8 * (m + n) := by rw [Block.limit, hsize]
  -- the header of the tail is the one of no other block
  have hne : ∀ a, a ≠ p.addr → a ≠ p.addr + 8 * m →
      Heap.size { (s.setSize p.addr m).setSize (p.addr + 8 * m) n with freep := prevp } a =
        s.size a := fun a ha ha' => (size_setSize_of_ne ha').trans (size_setSize_of_ne ha)
  have hus : ∀ c ∈ us, c.addr ≠ p.addr ∧ c.addr ≠ p.addr + 8 * m := fun c hc => by
    have := (hcross c hc p List.mem_cons_self).addr_lt
    omega
  have hvs' : ∀ c ∈ vs, c.addr ≠ p.addr ∧ c.addr ≠ p.addr + 8 * m := fun c hc => by
    have := hpvs c hc
    rw [Apart, hlimit] at this
    omega
  have hheld : ∀ c ∈ held, c.addr ≠ p.addr ∧ c.addr ≠ p.addr + 8 * m := fun c hc => by
    refine ⟨(h.addr_ne hp hc).symm, fun heq => ?_⟩
    have hmem : c.addr ∈ p.units := mem_units.mpr ⟨m, by omega, heq.symm⟩
    exact Multiset.disjoint_left.mp (h.disjoint hp hc) hmem (addr_mem_units (h.heldSize c hc).2)
  have hpsize : Heap.size { (s.setSize p.addr m).setSize (p.addr + 8 * m) n with freep := prevp }
      p.addr = m := (size_setSize_of_ne (by omega)).trans size_setSize_self
  refine h.replace ?_ ?_ ?_ ?_ ?_ ?_ ?_ ?_ rfl ?_
  · rintro rfl
    have hhead : p = ⟨base, 0⟩ := by simpa using h.head
    rw [hhead] at hsize
    simp only at hsize
    omega
  · have hcycle := h.cycle
    rw [List.map_append, List.map_cons] at hcycle ⊢
    exact hcycle.congr fun a _ => ptr_setSize.trans ptr_setSize
  · refine List.pairwise_cons.mpr ⟨fun w hw => ?_, hvs⟩
    have := hpvs w hw
    rw [Apart, hlimit] at this
    simp only [Apart, Block.limit]
    omega
  · have hcross' := fun u hu => List.forall_mem_cons.mp (hcross u hu)
    exact fun u hu => List.forall_mem_cons.mpr (hcross' u hu)
  · refine List.forall_mem_cons.mpr ⟨⟨hpsize, .inr hm⟩, fun w hw => ?_⟩
    have hmem : w ∈ us ++ p :: vs := by simp [hw]
    exact ⟨(hne _ (hvs' w hw).1 (hvs' w hw).2).trans (h.size w hmem), h.pos w hmem⟩
  · exact fun u hu => hne _ (hus u hu).1 (hus u hu).2
  · refine List.forall_mem_cons.mpr ⟨⟨size_setSize_self, hn⟩, fun c hc => ?_⟩
    obtain ⟨hcsize, hcpos⟩ := h.heldSize c hc
    exact ⟨(hne _ (hheld c hc).1 (hheld c hc).2).trans hcsize, hcpos⟩
  · have hsplit : p.units = Block.units ⟨p.addr, m⟩ + Block.units ⟨p.addr + 8 * m, n⟩ := by
      rw [← units_add, ← hsize]
    simp only [units_cons, hsplit]
    abel
  · simpa using hprev

/-- **`malloc` takes a block** off the list, or the tail of one. -/
theorem Inv.take (h : Inv base l held s) {nunits : Nat} (hn : 0 < nunits) {prevp : Nat}
    (hprev : prevp ∈ l.map Block.addr) (hsize : nunits ≤ s.size (s.ptr prevp)) :
    ∃ l' s' a, s.take nunits prevp (s.ptr prevp) = (s', a + 8) ∧ s'.regions = s.regions ∧
      Inv base l' (⟨a, nunits⟩ :: held) s' := by
  obtain ⟨p, hp, hptr⟩ := List.mem_map.mp (h.cycle.mem_next hprev)
  rw [← hptr, h.size p hp] at hsize
  have hpos : 0 < p.size := lt_of_lt_of_le hn hsize
  obtain ⟨us, q, vs, rfl, rfl⟩ := h.exists_prev hp hpos hprev hptr.symm
  rw [← hptr]
  unfold Heap.take
  rw [h.size p hp]
  by_cases hall : p.size = nunits
  · rw [if_pos hall]
    have hinv := h.takeAll hpos
    obtain ⟨addr, size⟩ := p
    obtain rfl : size = nunits := hall
    exact ⟨_, _, _, rfl, rfl, hinv⟩
  · rw [if_neg hall]
    have hsplit : us ++ q :: p :: vs = (us ++ [q]) ++ p :: vs := by simp
    have hlimit := (h.inside (.inl hp) hpos).2.2.1
    have hadd : add p.addr (p.size - nunits) = p.addr + 8 * (p.size - nunits) := by
      rw [Block.limit] at hlimit
      exact Nat.mod_eq_of_lt (by omega)
    simp only [size_setSize_self, hadd]
    rw [hsplit] at h hprev
    exact ⟨_, _, _, rfl, rfl, h.takeTail (by omega) (by omega) hn hprev⟩

end Laboratorio.Xv6.Umalloc
