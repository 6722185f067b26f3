import Laboratorio.Lib.Reach
import Laboratorio.Xv6.UmallocList

/-!
# `malloc` and `free` in a program

`mallocLoop` finds a block, or it gets one from `morecore` when it has come around the list; either
way it ends (`Inv.malloc`). So the invariant of the allocator holds in every program that frees only
what it has got, and stores only there (`Step.inv`). `heap_invariant` is what it says about the list,
the blocks and the memory.
-/

namespace Laboratorio.Xv6.Umalloc

open Laboratorio.Cyclic Laboratorio.Reach

variable {base : Nat} {l held : List Block} {s : Heap} {b c : Block}

/-! ## `morecore` -/

/-- A region of fresh memory is a block that is not free. -/
theorem Inv.fresh (h : Inv base l held s) {hp nu : Nat} (htop : top base s.regions ≤ hp)
    (hmod : hp % 8 = 0) (hlt : hp + 8 * nu < 2 ^ 32) (hnu : 0 < nu) :
    Inv base l (⟨hp, nu⟩ :: held)
      { s.setSize hp nu with regions := ⟨hp, nu⟩ :: s.regions } := by
  have hbase := h.regions.base_le_top
  have hne : ∀ a, a ≠ hp →
      Heap.size { s.setSize hp nu with regions := ⟨hp, nu⟩ :: s.regions } a = s.size a :=
    fun a ha => size_setSize_of_ne ha
  have hbelow : ∀ b, b ∈ l ∨ b ∈ held → 0 < b.size → b.addr ≠ hp := fun b hb hpos => by
    have := (h.inside hb hpos).2.2.2
    rw [Block.limit] at this
    omega
  have hl : ∀ b ∈ l, b.addr ≠ hp := fun b hb => by
    rcases h.pos b hb with rfl | hpos
    · show base ≠ hp
      omega
    · exact hbelow b (.inl hb) hpos
  refine ⟨h.head, h.cycle.congr fun a _ => ptr_setSize,
    fun b hb => (hne _ (hl b hb)).trans (h.size b hb), h.apart, h.freep, h.pos, fun b hb => ?_, ?_,
    htop, hmod, hlt, h.regions⟩
  · rcases List.mem_cons.mp hb with rfl | hb
    · exact ⟨size_setSize_self, hnu⟩
    · obtain ⟨hsize, hpos⟩ := h.heldSize b hb
      exact ⟨(hne _ (hbelow b (.inr hb) hpos)).trans hsize, hpos⟩
  · show _ = Umalloc.units (⟨hp, nu⟩ :: s.regions)
    rw [units_cons, units_cons, ← h.units]
    abel

theorem Inv.morecore (h : Inv base l held s) (sbrk : Sbrk) {nu fuel : Nat} (hpos : 0 < nu)
    (hnu : 8 * nu < 2 ^ 31) (hf : l.length ≤ fuel) :
    morecore base sbrk fuel s nu = some (s, none) ∨ ∃ s' l',
      morecore base sbrk fuel s nu = some (s', some s'.freep) ∧ Inv base l' held s' ∧
        l'.length ≤ l.length + 1 ∧ ∃ c ∈ l', nu ≤ c.size := by
  have hmax : nu ≤ (if nu < 4096 then 4096 else nu) ∧
      8 * (if nu < 4096 then 4096 else nu) < 2 ^ 31 := by
    split
    · omega
    · omega
  unfold Umalloc.morecore
  generalize (if nu < 4096 then 4096 else nu) = m at hmax ⊢
  simp only
  cases hask : sbrk.ask (top base s.regions) (m * 8 % 2 ^ 32) with
  | none => exact .inl rfl
  | some hp =>
    have hmod : m * 8 % 2 ^ 32 = 8 * m := by
      rw [Nat.mod_eq_of_lt (by omega), Nat.mul_comm]
    rw [hmod] at hask
    obtain ⟨htop, halign, hlt⟩ := sbrk.fresh _ _ _ hmax.2 hask
    obtain ⟨s', l', hfree, hinv, -, hlen, c, hc, hle⟩ :=
      (h.fresh htop halign hlt (by omega)).free hf
    refine .inr ⟨s', l', ?_, hinv, hlen, c, hc, hmax.1.trans hle⟩
    simp only [hfree]

/-! ## The loop of `malloc` -/

section Loop

variable (sbrk : Sbrk) {nunits fuel prevp : Nat} {t : List Nat}

/-- The loop finds a block on the way around. -/
theorem mallocLoop_found (base : Nat) (hc : (prevp :: t).IsChain fun x y => s.ptr x = y)
    (hfreep : s.freep ∉ t.dropLast) (hfit : ∃ p ∈ t, nunits ≤ s.size p) (hf : t.length ≤ fuel) :
    ∃ q ∈ prevp :: t.dropLast, nunits ≤ s.size (s.ptr q) ∧
      mallocLoop base sbrk nunits fuel s prevp (s.ptr prevp) =
        some ((s.take nunits q (s.ptr q)).1, some (s.take nunits q (s.ptr q)).2) := by
  induction t generalizing prevp fuel with
  | nil =>
    obtain ⟨p, hp, -⟩ := hfit
    cases hp
  | cons p t ih =>
    obtain ⟨fuel, rfl⟩ := Nat.exists_eq_succ_of_ne_zero (Nat.ne_of_gt (Nat.zero_lt_of_lt hf))
    rw [List.isChain_cons_cons] at hc
    obtain ⟨rfl, hrest⟩ := hc
    rw [mallocLoop]
    by_cases hp : nunits ≤ s.size (s.ptr prevp)
    · exact ⟨prevp, List.mem_cons_self, hp, by rw [if_pos hp]⟩
    rw [if_neg hp]
    cases t with
    | nil =>
      obtain ⟨q, hq, hfit⟩ := hfit
      rw [List.mem_singleton.mp hq] at hfit
      exact absurd hfit hp
    | cons r t =>
      rw [List.dropLast_cons_cons, List.mem_cons, not_or] at hfreep
      rw [if_neg (Ne.symm hfreep.1)]
      have hfit' : ∃ q ∈ r :: t, nunits ≤ s.size q := by
        obtain ⟨q, hq, hfit⟩ := hfit
        rcases List.mem_cons.mp hq with rfl | hq
        · exact absurd hfit hp
        · exact ⟨q, hq, hfit⟩
      obtain ⟨q, hq, hsize, hloop⟩ := ih hrest hfreep.2 hfit' (Nat.le_of_succ_le_succ hf)
      refine ⟨q, ?_, hsize, hloop⟩
      rw [List.dropLast_cons_cons]
      exact List.mem_cons_of_mem _ hq

/-- The loop comes around to `freep` and asks for more memory. -/
theorem mallocLoop_more (hc : (prevp :: (t ++ [s.freep])).IsChain fun x y => s.ptr x = y)
    (hfreep : s.freep ∉ t) (hfit : ∀ p ∈ t ++ [s.freep], s.size p < nunits) :
    mallocLoop base sbrk nunits (fuel + (t.length + 1)) s prevp (s.ptr prevp) =
      match morecore base sbrk fuel s nunits with
      | none => none
      | some (s, none) => some (s, none)
      | some (s, some p) => mallocLoop base sbrk nunits fuel s p (s.ptr p) := by
  induction t generalizing prevp with
  | nil =>
    have hptr : s.ptr prevp = s.freep := by simpa using hc
    rewrite [hptr, List.length_nil, Nat.zero_add, mallocLoop,
      if_neg (not_le.mpr (hfit _ (by simp))), if_pos rfl]
    rfl
  | cons p t ih =>
    rw [List.cons_append, List.isChain_cons_cons] at hc
    obtain ⟨rfl, hrest⟩ := hc
    rw [List.mem_cons, not_or] at hfreep
    rw [List.length_cons, ← Nat.add_assoc, mallocLoop, if_neg (not_le.mpr (hfit _ (by simp))),
      if_neg (Ne.symm hfreep.1)]
    exact ih hrest hfreep.2 fun q hq => hfit q (List.mem_cons_of_mem _ hq)

end Loop

theorem le_unitsFor {nbytes : Nat} (h : nbytes ≤ 2 ^ 31 - 16) :
    nbytes + 8 ≤ 8 * unitsFor nbytes ∧ 8 * unitsFor nbytes < 2 ^ 31 := by
  unfold unitsFor
  omega

/-- The way around the list from `freep` back to it. -/
theorem Inv.around (h : Inv base l held s) : ∃ t, t.length + 1 = l.length ∧
    (s.freep :: (t ++ [s.freep])).IsChain (fun x y => s.ptr x = y) ∧ s.freep ∉ t ∧
    ∀ a, a ∈ t ++ [s.freep] ↔ a ∈ l.map Block.addr := by
  obtain ⟨t, hrot, hc⟩ := h.cycle.from_mem h.freep
  have hnodup := hrot.nodup_iff.mp h.nodup
  refine ⟨t, by simpa using hrot.perm.length_eq.symm, hc.isChain, (List.nodup_cons.mp hnodup).1,
    fun a => ?_⟩
  rw [hrot.mem_iff, List.mem_append, List.mem_singleton, List.mem_cons, or_comm]

/-- The loop finds a block if there is one on the list. -/
theorem Inv.mallocLoop_found (h : Inv base l held s) (sbrk : Sbrk) {nunits fuel : Nat}
    (hn : 0 < nunits) (hfit : ∃ b ∈ l, nunits ≤ b.size) (hf : l.length ≤ fuel) :
    ∃ s' l' a, mallocLoop base sbrk nunits fuel s s.freep (s.ptr s.freep) = some (s', some (a + 8)) ∧
      Inv base l' (⟨a, nunits⟩ :: held) s' := by
  obtain ⟨t, hlen, hchain, hfreep, hmem⟩ := h.around
  obtain ⟨b, hb, hle⟩ := hfit
  have hfit' : ∃ p ∈ t ++ [s.freep], nunits ≤ s.size p :=
    ⟨b.addr, (hmem _).mpr (List.mem_map_of_mem hb), by rwa [h.size b hb]⟩
  have hlen' : (t ++ [s.freep]).length ≤ fuel := by
    rw [List.length_append, List.length_singleton]
    omega
  obtain ⟨q, hq, hsize, hloop⟩ :=
    Umalloc.mallocLoop_found sbrk base hchain (by simpa using hfreep) hfit' hlen'
  have hqmem : q ∈ l.map Block.addr := by
    rw [List.dropLast_concat] at hq
    rw [← hmem, List.mem_append, List.mem_singleton, or_comm]
    exact List.mem_cons.mp hq
  obtain ⟨l', s', a, htake, -, hinv⟩ := h.take hn hqmem hsize
  exact ⟨s', l', a, by rw [hloop, htake], hinv⟩

theorem Inv.start_eq (h : Inv base l held s) (hbase : 0 < base) : s.start base = s := by
  have hne : s.freep ≠ 0 := by
    obtain ⟨b, hb, heq⟩ := List.mem_map.mp h.freep
    rcases h.pos b hb with rfl | hpos
    · exact heq ▸ hbase.ne'
    · have := (h.inside (.inl hb) hpos).1
      omega
  rw [Heap.start, if_neg hne]

/-- **`malloc` ends**: with a block of the size that it needs, or without more memory. -/
theorem Inv.malloc (h : Inv base l held s) (hbase : 0 < base) (sbrk : Sbrk) {nbytes fuel : Nat}
    (hn : nbytes ≤ 2 ^ 31 - 16) (hf : 2 * l.length + 1 ≤ fuel) :
    malloc base sbrk fuel s nbytes = some (s, none) ∨ ∃ s' l' a,
      malloc base sbrk fuel s nbytes = some (s', some (a + 8)) ∧
        Inv base l' (⟨a, unitsFor nbytes⟩ :: held) s' := by
  have hpos : 0 < unitsFor nbytes := Nat.succ_pos _
  unfold Umalloc.malloc
  simp only [h.start_eq hbase]
  by_cases hfit : ∃ b ∈ l, unitsFor nbytes ≤ b.size
  · exact .inr (h.mallocLoop_found sbrk hpos hfit (by omega))
  · obtain ⟨t, hlen, hchain, hfreep, hmem⟩ := h.around
    have hsmall : ∀ p ∈ t ++ [s.freep], s.size p < unitsFor nbytes := by
      intro p hp
      obtain ⟨b, hb, rfl⟩ := List.mem_map.mp ((hmem p).mp hp)
      rw [h.size b hb]
      exact not_le.mp fun hle => hfit ⟨b, hb, hle⟩
    obtain ⟨k, rfl⟩ : ∃ k, fuel = k + (t.length + 1) := ⟨fuel - (t.length + 1), by omega⟩
    rw [mallocLoop_more sbrk hchain hfreep hsmall]
    have hk : l.length ≤ k := by omega
    rcases h.morecore sbrk hpos (le_unitsFor hn).2 hk with hmore | hmore
    · rw [hmore]
      exact .inl rfl
    · obtain ⟨s', l', hmore, hinv, hlen', c, hc, hle⟩ := hmore
      rw [hmore]
      exact .inr (hinv.mallocLoop_found sbrk hpos ⟨c, hc, hle⟩ (by omega))

/-! ## More fuel -/

theorem free_mono {fuel ap : Nat} {s' : Heap} (h : free fuel s ap = some s') (k : Nat) :
    free (fuel + k) s ap = some s' := by
  unfold free at h ⊢
  simp only at h ⊢
  cases hs : search s.ptr (s.stops (ap - 8)) fuel s.freep with
  | none => simp [hs] at h
  | some p =>
    rw [hs] at h
    rw [search_mono hs k]
    exact h

theorem morecore_mono {sbrk : Sbrk} {fuel nu : Nat} {r : Heap × Option Nat}
    (h : morecore base sbrk fuel s nu = some r) (k : Nat) :
    morecore base sbrk (fuel + k) s nu = some r := by
  unfold morecore at h ⊢
  simp only at h ⊢
  split at h
  · exact h
  · split at h
    · cases h
    · next hf =>
      rw [free_mono hf k]
      exact h

theorem mallocLoop_mono {sbrk : Sbrk} {nunits fuel prevp p : Nat} {r : Heap × Option Nat}
    (h : mallocLoop base sbrk nunits fuel s prevp p = some r) (k : Nat) :
    mallocLoop base sbrk nunits (fuel + k) s prevp p = some r := by
  induction fuel generalizing s prevp p with
  | zero => cases h
  | succ fuel ih =>
    rw [Nat.succ_add, mallocLoop]
    rw [mallocLoop] at h
    split at h
    · next hp => rw [if_pos hp, ← h]
    · next hp =>
      rw [if_neg hp]
      split at h
      · next hfreep =>
        rw [if_pos hfreep]
        split at h
        · cases h
        · next hm =>
          rw [morecore_mono hm k]
          exact h
        · next hm =>
          rw [morecore_mono hm k]
          exact ih h
      · next hfreep => rw [if_neg hfreep, ih h]

/-- Two runs of `malloc` with enough fuel have the same result. -/
theorem malloc_eq {sbrk : Sbrk} {fuel fuel' nbytes : Nat} {r r' : Heap × Option Nat}
    (h : malloc base sbrk fuel s nbytes = some r) (h' : malloc base sbrk fuel' s nbytes = some r') :
    r = r' := by
  have hmono := mallocLoop_mono h fuel'
  rw [Nat.add_comm, mallocLoop_mono h' fuel] at hmono
  exact (Option.some.inj hmono).symm

theorem free_eq {fuel fuel' ap : Nat} {s' s'' : Heap} (h : free fuel s ap = some s')
    (h' : free fuel' s ap = some s'') : s' = s'' := by
  have hmono := free_mono h fuel'
  rw [Nat.add_comm, free_mono h' fuel] at hmono
  exact (Option.some.inj hmono).symm

/-! ## Programs -/

theorem Inv.perm {held' : List Block} (h : Inv base l held s) (hp : held.Perm held') :
    Inv base l held' s :=
  { h with
    heldSize := fun b hb => h.heldSize b (hp.mem_iff.mpr hb)
    units := by rw [← units_perm hp, h.units] }

/-- Blocks that have different places in a list have no common unit. -/
theorem pairwise_disjoint {bs : List Block} (h : (units bs).Nodup) :
    bs.Pairwise fun b c => Disjoint b.units c.units := by
  induction bs with
  | nil => exact .nil
  | cons b bs ih =>
    rw [units_cons, Multiset.nodup_add] at h
    exact List.pairwise_cons.mpr ⟨fun c hc => h.2.2.mono_right (units_le hc), ih h.2.1⟩

theorem disjoint_of_mem {bs : List Block} (h : (units bs).Nodup) (hb : b ∈ bs) (hc : c ∈ bs)
    (hne : b ≠ c) : Disjoint b.units c.units := by
  rw [units_perm (List.perm_cons_erase hb), units_cons, Multiset.nodup_add] at h
  exact h.2.2.mono_right (units_le ((List.mem_erase_of_ne hne.symm).mpr hc))

/-- The invariant of a program: `malloc` has not been called, or there is a list. -/
def State.Inv (base : Nat) (s : State) : Prop :=
  s.Init ∨ (∃ l, Umalloc.Inv base l (s.used.map Used.block) s.heap) ∧
    ∀ u ∈ s.used, u.nbytes + 8 ≤ 8 * u.block.size

theorem Heap.inv_start (base : Nat) (hfreep : s.freep = 0) (hregions : s.regions = []) :
    Inv base [⟨base, 0⟩] [] (s.start base) := by
  rw [Heap.start, if_pos hfreep]
  refine ⟨rfl, ?_, ?_, List.pairwise_singleton .., by simp, by simp, by simp, ?_, ?_⟩
  · refine cycle_cons.mpr ?_
    show [Heap.ptr _ base] = [base]
    exact congrArg (fun a => [a]) (ptr_setSize.trans ptr_setPtr_self)
  · intro b hb
    rw [List.mem_singleton.mp hb]
    exact size_setSize_self
  · show _ = units s.regions
    rw [hregions]
    rfl
  · show Regions base s.regions
    rw [hregions]
    trivial

theorem malloc_start (hbase : 0 < base) {sbrk : Sbrk} {fuel nbytes : Nat} :
    malloc base sbrk fuel (s.start base) nbytes = malloc base sbrk fuel s nbytes := by
  have hidem : (s.start base).start base = s.start base := by
    by_cases hfreep : s.freep = 0
    · rw [Heap.start, Heap.start, if_pos hfreep, if_neg hbase.ne']
    · rw [Heap.start, Heap.start, if_neg hfreep, if_neg hfreep]
  simp only [malloc, hidem]

variable {s s' : State}

/-- The list when `malloc` looks for a block. -/
theorem State.Inv.start (hbase : 0 < base) (h : s.Inv base) : (∃ l, Umalloc.Inv base l (s.used.map Used.block)
    (s.heap.start base)) ∧ ∀ u ∈ s.used, u.nbytes + 8 ≤ 8 * u.block.size := by
  rcases h with ⟨hfreep, hregions, hused⟩ | ⟨⟨l, hl⟩, hused⟩
  · rw [hused]
    exact ⟨⟨_, Heap.inv_start base hfreep hregions⟩, nofun⟩
  · rw [hl.start_eq hbase]
    exact ⟨⟨l, hl⟩, hused⟩

/-- A program that stores into its own memory stores into no header. -/
theorem not_owns (hl : Umalloc.Inv base l (s.used.map Used.block) s.heap) {b : Block}
    (hb : b ∈ l ∨ b ∈ s.used.map Used.block) : ¬s.Owns b.addr := by
  rintro ⟨u, hu, hlow, hhigh⟩
  have huheld := List.mem_map_of_mem (f := Used.block) hu
  have hualign := (hl.inside (.inr huheld) (hl.heldSize _ huheld).2).2.1
  have hunit : b.addr % 8 = 0 → b.addr ∈ u.block.units := fun hmod => by
    rw [Block.limit] at hhigh
    exact mem_units.mpr ⟨(b.addr - u.block.addr) / 8, by omega, by omega⟩
  rcases hb with hb | hb
  · rcases hl.pos b hb with rfl | hpos
    · exact absurd (hl.base_lt huheld) (by simp only at hlow; omega)
    · exact Multiset.disjoint_left.mp (hl.disjoint hb huheld) (addr_mem_units hpos)
        (hunit (hl.inside (.inl hb) hpos).2.1)
  · obtain ⟨-, hpos⟩ := hl.heldSize b hb
    have hne : u.block ≠ b := by
      rintro rfl
      omega
    have hdisjoint := disjoint_of_mem (Multiset.nodup_add.mp hl.nodup_units).2.1 huheld hb hne
    exact Multiset.disjoint_left.mp hdisjoint (hunit (hl.inside (.inr hb) hpos).2.1)
      (addr_mem_units hpos)

theorem Step.inv (hbase : 0 < base) (h : s.Inv base) (hs : Step base s s') : s'.Inv base := by
  cases hs with
  | malloc hn hm =>
    obtain ⟨⟨l, hl⟩, hused⟩ := h.start hbase
    rw [← malloc_start hbase] at hm
    replace hn := hn.le.trans (by decide : 2 ^ 31 - 2 ^ 16 ≤ 2 ^ 31 - 16)
    rcases hl.malloc hbase _ hn le_rfl with hnone | ⟨h', l', a, hsome, hinv⟩
    · cases malloc_eq hm hnone
      exact .inr ⟨⟨l, hl⟩, hused⟩
    · cases malloc_eq hm hsome
      have hsize := (hinv.heldSize _ List.mem_cons_self).1
      simp only at hsize
      refine .inr ⟨⟨l', ?_⟩, ?_⟩
      · simp only [State.got, Nat.add_sub_cancel, List.map_cons, hsize]
        exact hinv
      · intro u hu
        simp only [State.got, Nat.add_sub_cancel, hsize] at hu
        rcases List.mem_cons.mp hu with rfl | hu
        · exact (le_unitsFor hn).1
        · exact hused u hu
  | @free fuel u h' hu hf =>
    rcases h with ⟨-, -, hnone⟩ | ⟨⟨l, hl⟩, hused⟩
    · rw [hnone] at hu
      cases hu
    · have hperm := (List.perm_cons_erase hu).map Used.block
      rw [List.map_cons] at hperm
      obtain ⟨h'', l', hfree, hinv, -⟩ := (hl.perm hperm).free le_rfl
      obtain rfl := free_eq hf hfree
      exact .inr ⟨⟨l', hinv⟩, fun v hv => hused v (List.mem_of_mem_erase hv)⟩
  | store hstore =>
    rcases h with hinit | ⟨⟨l, hl⟩, hused⟩
    · exact .inl hinit
    · have hkeep : ∀ b, b ∈ l ∨ b ∈ s.used.map Used.block → _ :=
        fun b hb => hstore b.addr (not_owns hl hb)
      refine .inr ⟨⟨l, { hl with cycle := ?_, size := ?_, heldSize := ?_ }⟩, hused⟩
      · refine hl.cycle.congr fun a ha => ?_
        obtain ⟨b, hb, rfl⟩ := List.mem_map.mp ha
        exact congrArg Header.ptr (hkeep b (.inl hb))
      · intro b hb
        exact (congrArg Header.size (hkeep b (.inl hb))).trans (hl.size b hb)
      · intro b hb
        obtain ⟨hsize, hpos⟩ := hl.heldSize b hb
        exact ⟨(congrArg Header.size (hkeep b (.inr hb))).trans hsize, hpos⟩

/-- The states of a program that uses the allocator. -/
def Reachable (base : Nat) : State → Prop := Reach.Reachable State.Init (Step base)

theorem State.Inv.reachable (hbase : 0 < base) (h : Reachable base s) : s.Inv base :=
  Reach.Reachable.invariant h (fun _ => .inl) fun _ _ hi hs => Step.inv hbase hi hs

/-- Two blocks have no address in common. -/
def Block.Disjoint (b c : Block) : Prop := b.limit ≤ c.addr ∨ c.limit ≤ b.addr

/-- The allocator in order, with the free blocks `free`. -/
structure Ok (base : Nat) (s : State) (free : List Block) : Prop where
  /-- From `freep` the pointers lead once around, through `base` and the free blocks in the order of
  their addresses. -/
  list : ∃ walk, walk.head? = some s.heap.freep ∧ Cycle s.heap.ptr walk ∧
    walk ~r (base :: free.map Block.addr)
  sorted : (base :: free.map Block.addr).Pairwise (· < ·)
  size : ∀ b ∈ free, s.heap.size b.addr = b.size
  /-- Free blocks are apart, with something between them. -/
  apart : free.Pairwise fun b c => b.limit < c.addr
  enough : ∀ u ∈ s.used, u.nbytes ≤ 8 * (u.block.size - 1)
  inside : ∀ b, b ∈ free ∨ b ∈ s.used.map Used.block → ∀ a, b.addr ≤ a → a < b.limit →
    ∃ r ∈ s.heap.regions, r.addr ≤ a ∧ a < r.limit
  disjoint : ∀ u ∈ s.used, ∀ b ∈ free, u.block.Disjoint b
  used : s.used.Pairwise fun u v => u.block.Disjoint v.block
  conserved : (free.map Block.size).sum + (s.used.map fun u => u.block.size).sum =
    (s.heap.regions.map Block.size).sum

/-- Aligned blocks without a common unit have no common address. -/
theorem disjoint_of_units (hb : b.addr % 8 = 0) (hc : c.addr % 8 = 0) (hbpos : 0 < b.size)
    (hcpos : 0 < c.size) (hd : Disjoint b.units c.units) : b.Disjoint c := by
  rcases lt_trichotomy b.addr c.addr with hlt | heq | hlt
  · exact .inl (limit_le_of_disjoint hb hc hcpos hlt hd)
  · exact absurd (addr_mem_units hcpos)
      (Multiset.disjoint_left.mp hd (heq ▸ addr_mem_units hbpos))
  · exact .inr (limit_le_of_disjoint hc hb hbpos hlt hd.symm)

/-- An address in a block is in the unit of a region. -/
theorem mem_region {rs : List Block} {a : Nat} (h : b.units ≤ units rs) (hlow : b.addr ≤ a)
    (hhigh : a < b.limit) : ∃ r ∈ rs, r.addr ≤ a ∧ a < r.limit := by
  have hunit : b.addr + 8 * ((a - b.addr) / 8) ∈ b.units := by
    rw [Block.limit] at hhigh
    exact mem_units.mpr ⟨(a - b.addr) / 8, by omega, rfl⟩
  obtain ⟨r, hr, hmem⟩ := mem_units_list.mp (Multiset.mem_of_le h hunit)
  obtain ⟨i, hi, heq⟩ := mem_units.mp hmem
  refine ⟨r, hr, ?_, ?_⟩
  · omega
  · rw [Block.limit]
    omega

theorem Inv.ok {fs : List Block} (hl : Inv base (⟨base, 0⟩ :: fs) (s.used.map Used.block) s.heap)
    (hused : ∀ u ∈ s.used, u.nbytes + 8 ≤ 8 * u.block.size) : Ok base s fs := by
  have hpos : ∀ b ∈ fs, 0 < b.size := by
    intro b hb
    refine (hl.pos b (List.mem_cons_of_mem _ hb)).resolve_left fun heq => ?_
    have hapart := (List.pairwise_cons.mp hl.apart).1 b hb
    rw [heq] at hapart
    exact absurd hapart.addr_lt (lt_irrefl _)
  have hheld : ∀ u ∈ s.used, u.block ∈ s.used.map Used.block := fun u hu => List.mem_map_of_mem hu
  have halign : ∀ b, b ∈ fs ∨ b ∈ s.used.map Used.block → b.addr % 8 = 0 ∧ 0 < b.size := by
    rintro b (hb | hb)
    · exact ⟨(hl.inside (.inl (List.mem_cons_of_mem _ hb)) (hpos b hb)).2.1, hpos b hb⟩
    · obtain ⟨-, hbpos⟩ := hl.heldSize b hb
      exact ⟨(hl.inside (.inr hb) hbpos).2.1, hbpos⟩
  have hunits : Umalloc.units fs + Umalloc.units (s.used.map Used.block) =
      Umalloc.units s.heap.regions := by
    have := hl.units
    rwa [units_cons, show Block.units ⟨base, 0⟩ = 0 from rfl, zero_add] at this
  refine ⟨?_, hl.sorted, fun b hb => hl.size b (List.mem_cons_of_mem _ hb),
    (List.pairwise_cons.mp hl.apart).2, fun u hu => ?_, ?_, ?_, ?_, ?_⟩
  · obtain ⟨t, hrot, hcycle⟩ := hl.cycle.from_mem hl.freep
    exact ⟨_, rfl, hcycle, hrot.symm⟩
  · have := hused u hu
    omega
  · intro b hb a hlow hhigh
    refine mem_region ?_ hlow hhigh
    rw [← hunits]
    rcases hb with hb | hb
    · exact (units_le hb).trans (Multiset.le_add_right ..)
    · exact (units_le hb).trans (Multiset.le_add_left ..)
  · intro u hu b hb
    obtain ⟨hub, hupos⟩ := halign _ (.inr (hheld u hu))
    obtain ⟨hbb, hbpos⟩ := halign b (.inl hb)
    exact disjoint_of_units hub hbb hupos hbpos
      (hl.disjoint (List.mem_cons_of_mem _ hb) (hheld u hu)).symm
  · have hpair := pairwise_disjoint (Multiset.nodup_add.mp hl.nodup_units).2.1
    rw [List.pairwise_map] at hpair
    refine hpair.imp_of_mem fun {u v} hu hv hd => ?_
    obtain ⟨hub, hupos⟩ := halign _ (.inr (hheld u hu))
    obtain ⟨hvb, hvpos⟩ := halign _ (.inr (hheld v hv))
    exact disjoint_of_units hub hvb hupos hvpos hd
  · have hcard := congrArg Multiset.card hunits
    rw [Multiset.card_add, card_units_list, card_units_list, card_units_list, List.map_map] at hcard
    exact hcard

/-- **The allocator works**: both loops end, and after `malloc` has been called the list, the blocks
and the memory are in order. -/
theorem heap_invariant (hbase : 0 < base) (h : Reachable base s) :
    (∀ sbrk nbytes, nbytes < 2 ^ 31 - 2 ^ 16 →
      ∃ fuel r, malloc base sbrk fuel s.heap nbytes = some r) ∧
    (∀ u ∈ s.used, ∃ fuel h, free fuel s.heap (u.block.addr + 8) = some h) ∧
    (s.Init ∨ ∃ fs, Ok base s fs) := by
  have hinv := State.Inv.reachable hbase h
  refine ⟨fun sbrk nbytes hn => ?_, fun u hu => ?_, ?_⟩
  · obtain ⟨⟨l, hl⟩, -⟩ := hinv.start hbase
    replace hn := hn.le.trans (by decide : 2 ^ 31 - 2 ^ 16 ≤ 2 ^ 31 - 16)
    rcases hl.malloc hbase sbrk hn le_rfl with hnone | ⟨h', l', a, hsome, -⟩
    · rw [malloc_start hbase] at hnone
      exact ⟨_, _, hnone⟩
    · rw [malloc_start hbase] at hsome
      exact ⟨_, _, hsome⟩
  · rcases hinv with ⟨-, -, hnone⟩ | ⟨⟨l, hl⟩, -⟩
    · rw [hnone] at hu
      cases hu
    · have hperm := (List.perm_cons_erase hu).map Used.block
      rw [List.map_cons] at hperm
      obtain ⟨h', -, hfree, -⟩ := (hl.perm hperm).free le_rfl
      exact ⟨_, h', hfree⟩
  · refine hinv.imp_right fun ⟨⟨l, hl⟩, hused⟩ => ?_
    have hhead := hl.head
    cases l with
    | nil => cases hhead
    | cons b fs =>
      obtain rfl : b = ⟨base, 0⟩ := by simpa using hhead
      exact ⟨fs, hl.ok hused⟩

/-- `sbrk` that gives the memory next to what the program has. -/
def nextSbrk : Sbrk where
  ask top n := if (top + 7) / 8 * 8 + n < 2 ^ 32 then some ((top + 7) / 8 * 8) else none
  fresh top n a hn ha := by
    split at ha
    · cases ha
      omega
    · cases ha

/-- A program asks for 100 bytes and gets the end of a region of 4096 units. -/
theorem heap_invariant_hundred : ∃ s, Reachable 0x1000 s ∧
    s.used = [⟨⟨0x1008 + 8 * 4082, 14⟩, 100⟩] ∧ ∃ fs, Ok 0x1000 s fs := by
  let s₀ : State := ⟨⟨fun _ => ⟨0, 0⟩, 0, []⟩, []⟩
  have hrun : (malloc 0x1000 nextSbrk 5 s₀.heap 100).map
      (fun r => (r.2, r.1.size (0x1008 + 8 * 4082))) = some (some (0x1008 + 8 * 4082 + 8), 14) := by
    decide +kernel
  obtain ⟨⟨h, r⟩, hm, heq⟩ := Option.map_eq_some_iff.mp hrun
  obtain ⟨rfl, hsize⟩ := Prod.mk.inj heq
  have hreach : Reachable 0x1000 (s₀.got h 100 (some (0x1008 + 8 * 4082 + 8))) :=
    .step (.init ⟨rfl, rfl, rfl⟩) (.malloc (by decide) hm)
  refine ⟨_, hreach, ?_, ?_⟩
  · simp only [State.got, Nat.add_sub_cancel, hsize, s₀]
  · refine (heap_invariant (by decide) hreach).2.2.resolve_left ?_
    rintro ⟨-, -, hused⟩
    cases hused

end Laboratorio.Xv6.Umalloc
