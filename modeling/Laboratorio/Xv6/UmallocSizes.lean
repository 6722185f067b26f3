import Laboratorio.Xv6.UmallocRuns

/-!
# The sizes that `malloc` can be asked for

The number of units is computed in 32 bits, and the number of bytes that `sbrk` is asked for is an
`int`. A request of more than `2 ^ 31 - 16` bytes makes one of them wrap around: `sbrk` is asked for a
negative amount or for nothing, or the block is of one unit only. All smaller requests are safe
(`malloc_safe_iff`).
-/

namespace Laboratorio.Xv6.Umalloc

variable {base : Nat} {l : List Block} {s : State}

/-- The argument of `sbrk` in `morecore(nu)`, before it becomes an `int`. -/
def amount (nu : Nat) : Nat := (if nu < 4096 then 4096 else nu) * 8 % 2 ^ 32

/-- The arguments of `sbrk` during the loop of `malloc`, in order. -/
def asks (base : Nat) (sbrk : Sbrk) (nunits : Nat) : Nat → Heap → (p : Nat) → List Nat
  | 0, _, _ => []
  | fuel + 1, s, p =>
    if s.size p ≥ nunits then []
    else if p = s.freep then
      amount nunits :: match morecore base sbrk fuel s nunits with
        | some (s, some p) => asks base sbrk nunits fuel s (s.ptr p)
        | _ => []
    else asks base sbrk nunits fuel s (s.ptr p)

/-- The memory at `ap` has `nbytes` bytes, all of them given by `sbrk`. -/
def Usable (s : Heap) (ap nbytes : Nat) : Prop :=
  nbytes + 8 ≤ 8 * s.size (ap - 8) ∧
    ∀ a, ap ≤ a → a < ap + nbytes → ∃ r ∈ s.regions, r.addr ≤ a ∧ a < r.limit

/-- **A request is safe** in a heap: the call ends; what it returns, if anything, is usable; and every
amount that `sbrk` is asked for is positive as an `int`. -/
def Safe (base : Nat) (s : Heap) (nbytes : Nat) : Prop :=
  ∀ sbrk, (∃ fuel r, malloc base sbrk fuel s nbytes = some r) ∧
    ∀ fuel s' r, malloc base sbrk fuel s nbytes = some (s', r) →
      (∀ ap, r = some ap → Usable s' ap nbytes) ∧
      ∀ n ∈ asks base sbrk (unitsFor nbytes) fuel (s.start base)
          ((s.start base).ptr (s.start base).freep), 0 < n ∧ n < 2 ^ 31

/-- `sbrk` is asked for one amount only. -/
theorem eq_amount {sbrk : Sbrk} {nunits fuel p n : Nat} {s : Heap}
    (h : n ∈ asks base sbrk nunits fuel s p) : n = amount nunits := by
  induction fuel generalizing s p with
  | zero => cases h
  | succ fuel ih =>
    rw [asks] at h
    split at h
    · cases h
    · split at h
      · rcases List.mem_cons.mp h with heq | hrest
        · exact heq
        · split at hrest
          · exact ih hrest
          · cases hrest
      · exact ih h

theorem amount_pos {nbytes : Nat} (hn : nbytes ≤ 2 ^ 31 - 16) :
    0 < amount (unitsFor nbytes) ∧ amount (unitsFor nbytes) < 2 ^ 31 := by
  have hunits := (le_unitsFor hn).2
  unfold amount
  split
  · omega
  · omega

/-- A block that is in order is usable. -/
theorem Inv.usable {held : List Block} {s : Heap} {a nunits nbytes : Nat}
    (h : Inv base l (⟨a, nunits⟩ :: held) s) (hn : nbytes + 8 ≤ 8 * nunits) :
    Usable s (a + 8) nbytes := by
  have hsize := (h.heldSize _ List.mem_cons_self).1
  refine ⟨?_, fun b hlow hhigh => ?_⟩
  · rw [Nat.add_sub_cancel]
    exact hsize ▸ hn
  · refine mem_region (b := ⟨a, nunits⟩) ?_ (by simp only; omega)
      (by simp only [Block.limit]; omega)
    rw [← h.units, units_cons]
    exact (Multiset.le_add_right ..).trans (Multiset.le_add_left ..)

/-- **Small requests are safe.** -/
theorem State.Inv.safe (hbase : 0 < base) (h : s.Inv base) {nbytes : Nat}
    (hn : nbytes ≤ 2 ^ 31 - 16) : Safe base s.heap nbytes := by
  obtain ⟨⟨l, hl⟩, -⟩ := h.start hbase
  intro sbrk
  have hmalloc := hl.malloc hbase sbrk hn le_rfl
  simp only [malloc_start hbase] at hmalloc
  refine ⟨?_, fun fuel s' r hrun => ⟨fun ap hap => ?_, fun n hask => eq_amount hask ▸ amount_pos hn⟩⟩
  · rcases hmalloc with hnone | ⟨s', -, a, hsome, -⟩
    · exact ⟨_, _, hnone⟩
    · exact ⟨_, _, hsome⟩
  · subst hap
    rcases hmalloc with hnone | ⟨s'', l', a, hsome, hinv⟩
    · cases malloc_eq hrun hnone
    · cases malloc_eq hrun hsome
      exact hinv.usable (le_unitsFor hn).1

/-! ## Large requests -/

/-- A program that has not called `malloc`. -/
def fresh : State := ⟨⟨fun _ => ⟨0, 0⟩, 0, []⟩, []⟩

/-- `sbrk` when there is no memory. -/
def noSbrk : Sbrk where
  ask _ _ := none
  fresh _ _ _ _ h := by cases h

/-- Up to `2 ^ 32 - 8` bytes, `sbrk` is asked for a negative amount or for nothing. -/
theorem not_safe_of_le {nbytes : Nat} (hlow : 2 ^ 31 - 16 < nbytes) (hhigh : nbytes ≤ 2 ^ 32 - 8) :
    ¬Safe 0x1000 fresh.heap nbytes := by
  intro h
  obtain ⟨s, hs⟩ : ∃ s, s = fresh.heap.start 0x1000 := ⟨_, rfl⟩
  have hptr : s.ptr s.freep = s.freep := by rw [hs]; decide
  have hsize : ¬s.size s.freep ≥ unitsFor nbytes := by
    have hzero : s.size s.freep = 0 := by rw [hs]; decide
    rw [hzero, ge_iff_le, not_le]
    exact Nat.succ_pos _
  have hrun : malloc 0x1000 noSbrk 1 fresh.heap nbytes = some (s, none) := by
    rw [malloc, ← hs, hptr, mallocLoop, if_neg hsize, if_pos rfl]
    rfl
  have hasks := ((h noSbrk).2 1 s none hrun).2
  rw [← hs, hptr, asks, if_neg hsize, if_pos rfl] at hasks
  obtain ⟨hpos, hlt⟩ := hasks (amount (unitsFor nbytes)) List.mem_cons_self
  have hunits : 2 ^ 28 ≤ unitsFor nbytes ∧ unitsFor nbytes ≤ 2 ^ 29 := by
    unfold unitsFor
    omega
  rw [amount, if_neg (by omega)] at hpos hlt
  omega

/-- From there on, the block is its header alone. -/
theorem malloc_one_unit {nbytes : Nat} (hlow : 2 ^ 32 - 8 < nbytes) (hhigh : nbytes < 2 ^ 32) :
    ∃ s ap, malloc 0x1000 nextSbrk 5 fresh.heap nbytes = some (s, some ap) ∧ s.size (ap - 8) = 1 := by
  have hunits : unitsFor nbytes = unitsFor 0 := by
    unfold unitsFor
    omega
  have hrun : (malloc 0x1000 nextSbrk 5 fresh.heap 0).map
      (fun r => (r.2, r.1.size (0x1008 + 8 * 4095))) = some (some (0x1008 + 8 * 4095 + 8), 1) := by
    decide +kernel
  obtain ⟨⟨s, r⟩, hm, heq⟩ := Option.map_eq_some_iff.mp hrun
  obtain ⟨rfl, hsize⟩ := Prod.mk.inj heq
  refine ⟨s, 0x1008 + 8 * 4095 + 8, ?_, hsize⟩
  rw [malloc, hunits]
  exact hm

/-- **`malloc` is safe for a size in every heap just when it is at most `2 ^ 31 - 16`.** -/
theorem malloc_safe_iff (nbytes : UInt32) :
    (∀ base s, 0 < base → State.Inv base s → Safe base s.heap nbytes.toNat) ↔
      nbytes.toNat ≤ 2 ^ 31 - 16 := by
  constructor
  · intro h
    by_contra hlarge
    have hsafe := h 0x1000 fresh (by decide) (.inl ⟨rfl, rfl, rfl⟩)
    by_cases hle : nbytes.toNat ≤ 2 ^ 32 - 8
    · exact not_safe_of_le (not_le.mp hlarge) hle hsafe
    · obtain ⟨s, ap, hrun, hsize⟩ := malloc_one_unit (not_le.mp hle) nbytes.toNat_lt
      obtain ⟨hroom, -⟩ := ((hsafe nextSbrk).2 5 s _ hrun).1 ap rfl
      omega
  · intro hn base s hbase hinv
    exact hinv.safe hbase hn

/-- **A request of `2 ^ 32 - 1` bytes** gets a block without any usable byte. -/
theorem malloc_largest : ∃ s ap, malloc 0x1000 nextSbrk 5 fresh.heap (2 ^ 32 - 1) = some (s, some ap) ∧
    ¬Usable s ap (2 ^ 32 - 1) := by
  obtain ⟨s, ap, hrun, hsize⟩ := malloc_one_unit (by decide : 2 ^ 32 - 8 < 2 ^ 32 - 1) (by decide)
  exact ⟨s, ap, hrun, fun h => by have := h.1; omega⟩

end Laboratorio.Xv6.Umalloc
