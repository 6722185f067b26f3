import Laboratorio.Xv6.Ops
import Laboratorio.Xv6.Sysfile

/-!
# Directories

The data of a directory is an array of entries. `dirlookup` goes through it up to the first entry with
the name, and `dirlink` up to the first empty one; they read it only (`HasEntries`).

Names are compared with `strncmp`. For two strings this is equality of their first `DIRSIZ`
characters, and those are what `strncpy` puts in an entry.
-/

namespace Laboratorio.Xv6

open Laboratorio.Bytes Laboratorio.DiskProg Laboratorio.Wp Laboratorio.Scan

/-! ## Names -/

theorem Dirent.length_str_le (de : Dirent) : de.str.length ≤ dirsiz := by
  have := (List.takeWhile_sublist (· ≠ 0) (l := List.ofFn de.name)).length_le
  rwa [List.length_ofFn] at this

theorem Dirent.nul_str (de : Dirent) : ∀ ch ∈ de.str, ch ≠ 0 := fun ch hch => by
  simpa using List.mem_takeWhile_imp hch

theorem strncmp_eq_zero {n : Nat} {s t : List UInt8} (hs : ∀ ch ∈ s, ch ≠ 0)
    (ht : ∀ ch ∈ t, ch ≠ 0) : strncmp n s t = 0 ↔ s.take n = t.take n := by
  have hpos : ∀ {ch : UInt8}, ch ≠ 0 → ch.toNat ≠ 0 := fun hne h0 => hne (UInt8.toNat_inj.mp h0)
  induction n generalizing s t with
  | zero => simp [strncmp]
  | succ n ih =>
    cases s with
    | nil =>
      cases t with
      | nil => simp [strncmp]
      | cons q qs =>
        have := hpos (ht q List.mem_cons_self)
        simp [strncmp, this]
    | cons p ps =>
      have hp := hpos (hs p List.mem_cons_self)
      cases t with
      | nil => simp [strncmp, hp]
      | cons q qs =>
        simp only [strncmp, List.take_succ_cons, List.cons.injEq]
        split
        · next e =>
          have := ih (fun ch hch => hs ch (List.mem_cons_of_mem _ hch))
            fun ch hch => ht ch (List.mem_cons_of_mem _ hch)
          simp only [e, true_and, this]
        · next e =>
          have : p.toNat ≠ q.toNat := fun h => e (UInt8.toNat_inj.mp h)
          simp only [e, false_and, iff_false]
          omega

/-- A string is compared with the name in an entry by its first `DIRSIZ` characters. -/
theorem namecmp_str {name : List UInt8} (h : ∀ ch ∈ name, ch ≠ 0) (de : Dirent) :
    namecmp name de.str = 0 ↔ de.str = name.take dirsiz := by
  rw [namecmp, strncmp_eq_zero h de.nul_str, List.take_of_length_le de.length_str_le, eq_comm]

/-- The name that `strncpy` puts in an entry. -/
theorem Dirent.str_make {name : List UInt8} (h : ∀ ch ∈ name, ch ≠ 0) (inum : Nat) :
    (Dirent.make name inum).str = name.take dirsiz := by
  have hofFn : List.ofFn (Dirent.make name inum).name =
      name.take dirsiz ++ List.replicate (dirsiz - name.length) 0 := by
    apply List.ext_getElem
    · rw [List.length_ofFn, List.length_append, List.length_replicate, List.length_take]
      omega
    · intro i h1 h2
      rw [List.length_ofFn] at h1
      rw [List.getElem_ofFn, List.getElem_append]
      split
      · next hi =>
        rw [List.length_take] at hi
        simp [Dirent.make, List.getElem?_eq_getElem (show i < name.length by omega)]
      · next hi =>
        rw [List.length_take] at hi
        simp [Dirent.make, List.getElem?_eq_none (show name.length ≤ i by omega)]
  rw [Dirent.str, hofFn, List.takeWhile_append_of_pos fun ch hch => by
    simpa using h ch (List.mem_of_mem_take hch)]
  cases dirsiz - name.length <;> simp [List.replicate_succ]

/-! ## `iget` -/

variable {c : Config} {s : St} {a : Abs} {E : Fault → Prop} {dp : Fin ninode}

/-- The cache entry that `iget` chooses: the one of the inode, or the first that is not in use. -/
def entryFor (s : St) (dev inum : Nat) : Option (Fin ninode) :=
  (first fun ip => decide (0 < (s.icache ip).ref ∧ (s.icache ip).dev = dev ∧
    (s.icache ip).inum = inum)).or (first fun ip => decide ((s.icache ip).ref = 0))

/-- A cache entry with one more reference, for an inode. -/
def Inode.grab (x : Inode) (dev inum : Nat) : Inode :=
  if x.ref = 0 then { x with dev := dev, inum := inum, ref := 1, valid := false }
  else { x with ref := x.ref + 1 }

theorem wp_iget {dev inum : Nat} {Q : Fin ninode → St → Prop}
    (hfull : entryFor s dev inum = none → E .igetNoInodes)
    (hQ : ∀ k, entryFor s dev inum = some k →
      Q k { s with icache := Function.update s.icache k ((s.icache k).grab dev inum) }) :
    wp (iget dev inum) Q E s := by
  unfold iget
  unfold entryFor at hfull hQ
  simp only [wp_bind, wp_get]
  split
  · next k hk =>
    have hne := (of_decide_eq_true (first_eq_some.mp hk).1).1.ne'
    have hQ := hQ k (by rw [hk]; rfl)
    rw [Inode.grab, if_neg hne] at hQ
    exact hQ
  · next hnone =>
    rw [hnone, Option.none_or] at hfull
    split
    · next hk => exact hfull hk
    · next k hk =>
      have h0 := of_decide_eq_true (first_eq_some.mp hk).1
      have hQ := hQ k (by rw [hnone, hk]; rfl)
      rw [Inode.grab, if_pos h0] at hQ
      exact hQ

theorem entryFor_eq_none {dev inum : Nat} (h : entryFor s dev inum = none) (ip : Fin ninode) :
    (s.icache ip).ref ≠ 0 :=
  of_decide_eq_false (first_eq_none.mp (Option.or_eq_none_iff.mp h).2 ip)

/-- The entry is that of the inode, or not in use because there is none. -/
theorem entryFor_eq_some {dev inum : Nat} {k : Fin ninode} (h : entryFor s dev inum = some k) :
    (0 < (s.icache k).ref ∧ (s.icache k).dev = dev ∧ (s.icache k).inum = inum) ∨
      (s.icache k).ref = 0 := by
  rcases Option.or_eq_some_iff.mp h with h | ⟨-, h⟩
  · exact .inl (of_decide_eq_true (first_eq_some.mp h).1)
  · exact .inr (of_decide_eq_true (first_eq_some.mp h).1)

/-! ## The loops over the entries -/

/-- The entry has the name. -/
def Dirent.Is (e : Dirent) (name : List UInt8) : Prop := e.inum ≠ 0 ∧ e.str = name.take dirsiz

/-- Where `dirlink` puts a new entry: the first empty place, or the end. -/
def vacancy (es : List Dirent) : Nat := es.findIdx fun e => e.inum = 0

theorem vacancy_le (es : List Dirent) : vacancy es ≤ es.length := List.findIdx_le_length

theorem getD_map_range (g : Nat → UInt8) {n i : Nat} (h : i < n) :
    ((List.range n).map g).getD i 0 = g i := by
  simp [h]

/-- The directory in a cache entry begins with the entries `es`, and their blocks are there. -/
structure HasEntries (s : St) (dp : Fin ninode) (es : List Dirent) : Prop where
  type : (s.icache dp).copy.type = tDir
  size : dirent.size * es.length ≤ (s.icache dp).copy.size.toNat
  mapped : ∀ o < dirent.size * es.length, blockAt s.view (s.icache dp).copy (o / bsize) ≠ 0
  entry : ∀ k (hk : k < es.length),
    (dirent.dec fun i => byteAt s.view (s.icache dp).copy (dirent.size * k + i)) = es[k]

variable {es : List Dirent} {name : List UInt8}

theorem HasEntries.readDirent (h : HasEntries s dp es) {k : Nat} (hk : k < es.length)
    {short : Fault} {Q : Dirent → St → Prop} (hQ : Q es[k] s) :
    wp (readDirent c dp (dirent.size * k) short) Q E s := by
  have hle : dirent.size * k + dirent.size ≤ dirent.size * es.length := by
    rw [← Nat.mul_succ]
    exact Nat.mul_le_mul_left _ hk
  have hsize := h.size
  have hlt := (s.icache dp).copy.size.toNat_lt
  have hoff : (UInt32.ofNat (dirent.size * k)).toNat = dirent.size * k :=
    UInt32.toNat_ofNat_of_lt' (by show _ < 2 ^ 32; omega)
  have hn : (UInt32.ofNat dirent.size).toNat = dirent.size := rfl
  unfold Xv6.readDirent
  rw [wp_bind]
  refine wp_readi_mapped (by rw [h.type]; decide) (fun o ho _ => h.mapped o (by omega)) ?_
  have hin : ¬ ((s.icache dp).copy.size < UInt32.ofNat (dirent.size * k) ∨
      UInt32.ofNat (dirent.size * k) + UInt32.ofNat dirent.size < UInt32.ofNat (dirent.size * k)) := by
    rw [UInt32.lt_iff_toNat_lt, add_lt_iff_wrap, hoff, hn]
    omega
  have hlen : readLen (s.icache dp).copy (UInt32.ofNat (dirent.size * k))
      (UInt32.ofNat dirent.size) = dirent.size := by
    rw [readLen, hoff, hn]
    omega
  rw [readResult, if_neg hin, hlen, hoff, if_neg (fun hne => hne rfl), wp_pure,
    dirent.dec_congr _ _ fun i hi => getD_map_range _ hi, h.entry k hk]
  exact hQ

theorem HasEntries.length_le (h : HasEntries s dp es) :
    es.length ≤ entries (s.icache dp).copy.size := by
  have hsize := h.size
  rw [dirent_size] at hsize
  rw [entries, dirent_size]
  omega

/-- A loop over the entries goes from number `i` on to number `k`. -/
theorem wp_pass {β : Type} {loop : Nat → Nat → M β} {Q : β → St → Prop} {i k fuel : Nat}
    (hik : i ≤ k) (hfuel : k - i ≤ fuel)
    (hstep : ∀ n j, j < k → wp (loop n (dirent.size * j + dirent.size)) Q E s →
      wp (loop (n + 1) (dirent.size * j)) Q E s)
    (hend : wp (loop (fuel - (k - i)) (dirent.size * k)) Q E s) :
    wp (loop fuel (dirent.size * i)) Q E s := by
  obtain ⟨m, rfl⟩ := Nat.exists_eq_add_of_le hik
  rw [Nat.add_sub_cancel_left] at hfuel hend
  induction m generalizing i fuel with
  | zero => exact hend
  | succ m ih =>
    obtain ⟨fuel, rfl⟩ : ∃ n, fuel = n + 1 := ⟨fuel - 1, by omega⟩
    have hsucc : i + (m + 1) = i + 1 + m := by omega
    rw [Nat.add_sub_add_right, hsucc] at hend
    refine hstep fuel i (by omega) ?_
    rw [← Nat.mul_succ]
    exact ih (by omega) (by omega) (fun n j hj => hstep n j (by omega)) hend

/-- `dirlookup` passes the entries without the name. -/
theorem HasEntries.pass (h : HasEntries s dp es) (hname : ∀ ch ∈ name, ch ≠ 0) {k : Nat}
    (hk : k ≤ es.length) (hbefore : ∀ j (hj : j < k), ¬ es[j].Is name)
    {Q : Option (Fin ninode × Nat) → St → Prop}
    (hend : wp (dirlookupFrom c dp name (entries (s.icache dp).copy.size - k) (dirent.size * k))
      Q E s) : wp (dirlookup c dp name) Q E s := by
  have hle := h.length_le
  unfold dirlookup
  rw [wp_bind, wp_inode, if_neg (fun hne => hne h.type)]
  refine wp_pass (Nat.zero_le k) (by omega) (fun n j hj hnext => ?_) hend
  unfold dirlookupFrom
  rw [wp_bind]
  refine h.readDirent (by omega) ?_
  split
  · exact hnext
  · next h0 =>
    rw [if_neg fun hcmp => hbefore j hj ⟨h0, (namecmp_str hname _).mp hcmp⟩]
    exact hnext

/-- **`dirlookup`** finds the first entry with the name, and calls `iget` for its inode. -/
theorem HasEntries.dirlookup (h : HasEntries s dp es) (hname : ∀ ch ∈ name, ch ≠ 0) {k : Nat}
    (hk : k < es.length) (hmatch : es[k].Is name) (hbefore : ∀ j (hj : j < k), ¬ es[j].Is name)
    {Q : Option (Fin ninode × Nat) → St → Prop}
    (hQ : wp (iget (s.icache dp).dev es[k].inum.toNat)
      (fun ip s' => Q (some (ip, dirent.size * k)) s') E s) :
    wp (dirlookup c dp name) Q E s := by
  have hle := h.length_le
  obtain ⟨n, hn⟩ : ∃ n, entries (s.icache dp).copy.size - k = n + 1 :=
    Nat.exists_eq_add_one.mpr (by omega)
  refine h.pass hname hk.le hbefore ?_
  rw [hn]
  unfold dirlookupFrom
  rw [wp_bind]
  refine h.readDirent hk ?_
  rw [if_neg hmatch.1, if_pos ((namecmp_str hname _).mpr hmatch.2), wp_bind, wp_inode, wp_bind]
  exact hQ

/-- `dirlookup` of a name that is not there. -/
theorem HasEntries.dirlookup_none (h : HasEntries s dp es) (hname : ∀ ch ∈ name, ch ≠ 0)
    (hall : entries (s.icache dp).copy.size = es.length) (hnone : ∀ e ∈ es, ¬ e.Is name)
    {Q : Option (Fin ninode × Nat) → St → Prop} (hQ : Q none s) :
    wp (Xv6.dirlookup c dp name) Q E s := by
  refine h.pass hname le_rfl (fun j hj => hnone _ (List.getElem_mem _)) ?_
  rw [hall, Nat.sub_self]
  exact hQ

/-- The loop of `dirlink` finds the place for the new entry. -/
theorem HasEntries.emptyFrom (h : HasEntries s dp es)
    (hall : entries (s.icache dp).copy.size = es.length) {Q : Nat → St → Prop}
    (hQ : Q (dirent.size * vacancy es) s) :
    wp (emptyFrom c dp (entries (s.icache dp).copy.size) 0) Q E s := by
  have hle := vacancy_le es
  rw [hall]
  refine wp_pass (k := vacancy es) (Nat.zero_le _) (by omega) (fun n j hj hnext => ?_) ?_
  · unfold Xv6.emptyFrom
    rw [wp_bind]
    refine h.readDirent (by omega) ?_
    rw [if_neg (by simpa using List.not_of_lt_findIdx hj)]
    exact hnext
  · rw [Nat.sub_zero]
    by_cases hlt : vacancy es < es.length
    · obtain ⟨n, hn⟩ : ∃ n, es.length - vacancy es = n + 1 :=
        Nat.exists_eq_add_one.mpr (by omega)
      have h0 : decide (es[vacancy es].inum = 0) = true := List.findIdx_getElem (w := hlt)
      rw [hn]
      unfold Xv6.emptyFrom
      rw [wp_bind]
      refine h.readDirent hlt ?_
      rw [if_pos (of_decide_eq_true h0)]
      exact hQ
    · rw [Nat.sub_eq_zero_of_le (by omega)]
      exact hQ

end Laboratorio.Xv6
