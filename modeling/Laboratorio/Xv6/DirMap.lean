import Laboratorio.Xv6.Filewrite

/-!
# Directories as finite maps

`dirlink` and the write with which `sys_unlink` clears an entry keep the names in a directory apart
(`Sound`), so that `dirlookup` finds the only entry with a name. What it finds is `found`: a directory
is a map from names, cut to `DIRSIZ` characters, to inode numbers.

`dirlink` of a name that is there drops the inode that `dirlookup` has found with `iput`, and `iput`
takes the inode's lock. The caller has locked the directory itself, so a `link` to the name `.` of a
directory never returns.
-/

namespace Laboratorio.Xv6

open Function Laboratorio.Bytes Laboratorio.Wp Shared

variable {c : Config} {s s' : St} {dp : Fin ninode} {d i k : Nat} {e : Dirent}
  {name : List UInt8} {E : Fault → Prop}

/-! ## A directory that a call works on -/

/-- A transaction is running, and cache entry `dp` holds the directory `d`. -/
structure InDir (c : Config) (s : St) (dp : Fin ninode) (d : Nat) : Prop where
  core : Core c s
  running : 0 < s.outstanding
  ref : 0 < (s.icache dp).ref
  valid : (s.icache dp).valid = true
  inum : (s.icache dp).inum = d
  type : (s.icache dp).copy.type = tDir

/-- The entries of the directory `d`. -/
def St.dirents (c : Config) (s : St) (d : Nat) : List Dirent := dirent.items (s.nodes c d).data

/-- The entries fill the data of the directory, and no two in use have the same name. -/
structure Sound (data : List UInt8) : Prop where
  whole : data.length % dirent.size = 0
  distinct : ∀ {j k : Nat} {e e' : Dirent}, (dirent.items data)[j]? = some e →
    (dirent.items data)[k]? = some e' → e.inum ≠ 0 → e'.inum ≠ 0 → e.str = e'.str → j = k

theorem InDir.lt (h : InDir c s dp d) : d < c.sb.ninodes := h.inum ▸ (h.core.range h.ref).2.2

theorem InDir.copy (h : InDir c s dp d) : (s.icache dp).copy = s.din c d := by
  rw [h.core.through h.ref h.valid, h.inum]

theorem InDir.data (h : InDir c s dp d) : (s.nodes c d).data =
    (List.range (s.din c d).size.toNat).map (byteAt s.view (s.din c d)) := by
  rw [St.nodes_eq h.lt]
  rfl

theorem InDir.node_type (h : InDir c s dp d) : (s.nodes c d).type = tDir := by
  rw [St.type_nodes h.lt, ← h.copy]
  exact h.type

theorem InDir.noHoles (h : InDir c s dp d) : NoHoles s.view (s.din c d) :=
  h.core.noHoles d h.lt (by rw [← h.copy, h.type]; decide)

theorem InDir.length_data (h : InDir c s dp d) :
    (s.nodes c d).data.length = (s.din c d).size.toNat := by
  rw [h.data, List.length_map, List.length_range]

theorem St.length_dirents (c : Config) (s : St) (d : Nat) :
    (s.dirents c d).length = (s.nodes c d).data.length / dirent.size := dirent.length_items _

theorem InDir.hasEntries (h : InDir c s dp d) : HasEntries s dp (s.dirents c d) := by
  have hlen := s.length_dirents c d
  have hle : dirent.size * (s.dirents c d).length ≤ (s.din c d).size.toNat := by
    rw [hlen, ← h.length_data]
    exact Nat.mul_div_le _ _
  refine ⟨h.type, by rwa [h.copy], fun o ho => ?_, fun j hj => ?_⟩
  · rw [h.copy]
    have := Nat.div_mul_le_self o bsize
    exact h.noHoles _ (by omega)
  · have hget := dirent.getElem?_items (s.nodes c d).data j
    rw [if_pos (hlen ▸ hj)] at hget
    rw [h.copy, (List.getElem_eq_iff hj).mpr hget]
    apply dirent.dec_congr
    intro m hm
    have : dirent.size * j + dirent.size ≤ dirent.size * (s.dirents c d).length := by
      rw [← Nat.mul_succ]
      exact Nat.mul_le_mul_left _ hj
    rw [h.data, getD_map_range _ (by omega)]

theorem InDir.entries_eq (h : InDir c s dp d) (hs : Sound (s.nodes c d).data) :
    entries (s.icache dp).copy.size = (s.dirents c d).length := by
  have hwhole := hs.whole
  rw [s.length_dirents, h.length_data, h.copy, entries]
  rw [h.length_data] at hwhole
  simp only [dirent_size] at *
  omega

/-! ## What `dirlookup` finds -/

/-- The number of the inode that `dirlookup` returns for a name. -/
def found (c : Config) (dp : Fin ninode) (name : List UInt8) (s : St) : Except Fault (Option Nat) :=
  (dirlookup c dp name s).map fun r => r.1.map fun x => (r.2.icache x.1).inum

theorem found_of_wp {o : Except Fault (Option Nat)}
    (h : wp (dirlookup c dp name)
      (fun r s' => .ok (r.map fun x => (s'.icache x.1).inum) = o) (fun e => .error e = o) s) :
    found c dp name s = o := by
  unfold found
  cases hrun : dirlookup c dp name s with
  | ok r => exact h.ok hrun
  | error e => exact h.error hrun

/-- The entry `e` has the name, at index `k`. -/
theorem wp_dirlookup_is (h : InDir c s dp d) (hs : Sound (s.nodes c d).data) (hname : ∀ ch ∈ name, ch ≠ 0)
    (hk : (s.dirents c d)[k]? = some e) (he : e.Is name)
    {Q : Option (Fin ninode × Nat) → St → Prop}
    (hQ : wp (iget rootdev e.inum.toNat) (fun ip s' => Q (some (ip, dirent.size * k)) s') E s) :
    wp (dirlookup c dp name) Q E s := by
  obtain ⟨hlt, rfl⟩ := List.getElem?_eq_some_iff.mp hk
  refine h.hasEntries.dirlookup hname hlt he (fun j hj hj' => ?_) ?_
  · have heq := hs.distinct (List.getElem?_eq_getElem _) hk hj'.1 he.1 (hj'.2.trans he.2.symm)
    omega
  · rwa [(h.core.range h.ref).1]

theorem wp_dirlookup_none (h : InDir c s dp d) (hs : Sound (s.nodes c d).data) (hname : ∀ ch ∈ name, ch ≠ 0)
    (hnone : ∀ e ∈ s.dirents c d, ¬ e.Is name) {Q : Option (Fin ninode × Nat) → St → Prop}
    (hQ : Q none s) : wp (dirlookup c dp name) Q E s :=
  h.hasEntries.dirlookup_none hname (h.entries_eq hs) hnone hQ

theorem found_is (h : InDir c s dp d) (hs : Sound (s.nodes c d).data) (hname : ∀ ch ∈ name, ch ≠ 0)
    (hk : (s.dirents c d)[k]? = some e) (he : e.Is name) :
    found c dp name s = if (entryFor s rootdev e.inum.toNat).isSome then .ok (some e.inum.toNat)
      else .error .igetNoInodes := by
  refine found_of_wp (wp_dirlookup_is h hs hname hk he (wp_iget (fun hfull => ?_) fun ip hip => ?_))
  · simp [hfull]
  · have hinum : ((s.icache ip).grab rootdev e.inum.toNat).inum = e.inum.toNat := by
      unfold Inode.grab
      rcases entryFor_eq_some hip with ⟨hpos, -, hinum⟩ | h0
      · rw [if_neg hpos.ne']
        exact hinum
      · rw [if_pos h0]
    simp [hip, hinum]

theorem found_none (h : InDir c s dp d) (hs : Sound (s.nodes c d).data) (hname : ∀ ch ∈ name, ch ≠ 0)
    (hnone : ∀ e ∈ s.dirents c d, ¬ e.Is name) : found c dp name s = .ok none :=
  found_of_wp (wp_dirlookup_none h hs hname hnone rfl)

/-! ## One entry written -/

/-- Entry `k` of the directory has been written, and nothing else that a lookup depends on. -/
structure Written (c : Config) (s s' : St) (dp : Fin ninode) (d k : Nat) (e : Dirent) : Prop where
  dir : InDir c s' dp d
  whole : (s'.nodes c d).data.length % dirent.size = 0
  entry : ∀ j, (s'.dirents c d)[j]? = if j = k then some e else (s.dirents c d)[j]?
  slot : ∀ ip, (s'.icache ip).slot = (s.icache ip).slot

theorem wp_writeEntry (hok : c.sb.Ok) (h : InDir c s dp d) (hs : Sound (s.nodes c d).data)
    (hk : k ≤ (s.dirents c d).length) {src : Nat → UInt8}
    (hE : ∀ e, e.Exhausted → ¬ (s.Enough c d (spanned (dirent.size * k) dirent.size) ∧
      LogRoom c s 7) → E e) {Q : Int → St → Prop}
    (hfail : maxfile * bsize < dirent.size * k + dirent.size → Q (-1) s)
    (hQ : ∀ s', Written c s s' dp d k (dirent.dec src) → Q dirent.size s') :
    wp (writei c dp src (UInt32.ofNat (dirent.size * k)) (UInt32.ofNat dirent.size)) Q E s := by
  have hrep : Rep c s (s.abs c) := ⟨h.core, rfl⟩
  have hle : dirent.size * k ≤ (s.nodes c d).data.length := by
    rw [s.length_dirents] at hk
    exact (Nat.mul_le_mul_left _ hk).trans (Nat.mul_div_le _ _)
  have hlt := (s.din c d).size.toNat_lt
  rw [← h.length_data] at hlt
  have hoff : (UInt32.ofNat (dirent.size * k)).toNat = dirent.size * k :=
    UInt32.toNat_ofNat_of_lt' (by show _ < 2 ^ 32; omega)
  have hn : (UInt32.ofNat dirent.size).toNat = dirent.size := rfl
  have htype := h.node_type
  have hinum : ((s.abs c).slot dp).inum = d := h.inum
  refine wp_writei (m := 1) (P := spanned (dirent.size * k) dirent.size) hok hrep h.running h.ref
    h.valid ?_ ?_ ?_ ?_ ?_ ?_
  · rw [hoff, hn]
    simp only [dirent_size, bsize]
    omega
  · rw [hoff, hn]
    exact fun _ => subset_rfl
  · rw [hinum]
    exact hE
  · rw [hinum]
    intro hdev
    exact absurd (htype.symm.trans hdev) (by decide)
  · rw [hinum, hoff, hn]
    rintro (hbad | hbad)
    · exact absurd hle (Nat.not_le.mpr hbad)
    · exact hfail hbad
  · rw [hinum, hoff, hn]
    intro _ _ _ s' hrep' _
    have hnode : s'.nodes c d = { s.nodes c d with
        data := writeData (s.nodes c d).data (dirent.size * k)
          ((List.range dirent.size).map src) } := by
      rw [hrep'.node]
      exact update_self _ _ _
    have hslot : ∀ ip, (s'.icache ip).slot = (s.icache ip).slot := fun ip => (hrep'.slot ip).symm
    have hdir : InDir c s' dp d := by
      have href : (s'.icache dp).ref = (s.icache dp).ref := congrArg Slot.ref (hslot dp)
      have hvalid : (s'.icache dp).valid = (s.icache dp).valid := congrArg Slot.valid (hslot dp)
      have hnum : (s'.icache dp).inum = (s.icache dp).inum := congrArg Slot.inum (hslot dp)
      refine ⟨hrep'.core, ?_, href ▸ h.ref, hvalid.trans h.valid, hnum.trans h.inum, ?_⟩
      · rw [show s'.outstanding = s.outstanding from congrArg Abs.outstanding hrep'.abs]
        exact h.running
      · rw [hrep'.core.through (href ▸ h.ref) (hvalid.trans h.valid), hnum, h.inum,
          ← St.type_nodes h.lt, hnode]
        exact htype
    have hlen : ((List.range dirent.size).map src).length = dirent.size := by simp
    refine hQ s' ⟨hdir, ?_, fun j => ?_, hslot⟩
    · have hwhole := hs.whole
      simp only [hnode, length_writeData _ hle, hlen]
      simp only [dirent_size] at *
      omega
    · simp only [St.dirents, hnode]
      rw [dirent.getElem?_items_writeData _ (by decide) hs.whole hk hlen,
        dirent.dec_congr _ _ fun i hi => getD_map_range _ hi]

variable {P : Dirent → Prop}

/-- The entries are the old ones but for the one written. -/
theorem Written.forall_mem (h : Written c s s' dp d k e) (he : P e)
    (hold : ∀ e ∈ s.dirents c d, P e) : ∀ e ∈ s'.dirents c d, P e := by
  intro x hx
  obtain ⟨j, hj⟩ := List.mem_iff_getElem?.mp hx
  rw [h.entry] at hj
  split at hj
  · cases hj
    exact he
  · exact hold x (List.mem_of_getElem? hj)

/-- An entry keeps the names apart if it is empty, or no other one has its name. -/
theorem Written.sound (h : Written c s s' dp d k e) (hs : Sound (s.nodes c d).data)
    (he : ∀ {j e'}, e.inum ≠ 0 → (s.dirents c d)[j]? = some e' → e'.inum ≠ 0 → e'.str = e.str →
      j = k) : Sound (s'.nodes c d).data := by
  refine ⟨h.whole, fun {j m e₁ e₂} h₁ h₂ hi₁ hi₂ heq => ?_⟩
  replace h₁ := (h.entry j).symm.trans h₁
  replace h₂ := (h.entry m).symm.trans h₂
  split at h₁ <;> split at h₂
  · omega
  · next hj _ =>
    cases h₁
    rw [hj, he hi₁ h₂ hi₂ heq.symm]
  · next hm =>
    cases h₂
    rw [hm, he hi₂ h₁ hi₁ heq]
  · exact hs.distinct h₁ h₂ hi₁ hi₂ heq

theorem Written.entryFor (h : Written c s s' dp d k e) (dev inum : Nat) :
    entryFor s' dev inum = entryFor s dev inum := by
  have href : ∀ ip, (s'.icache ip).ref = (s.icache ip).ref := fun ip => congrArg Slot.ref (h.slot ip)
  have hdev : ∀ ip, (s'.icache ip).dev = (s.icache ip).dev := fun ip => congrArg Slot.dev (h.slot ip)
  have hinum : ∀ ip, (s'.icache ip).inum = (s.icache ip).inum := fun ip =>
    congrArg Slot.inum (h.slot ip)
  simp only [Xv6.entryFor, href, hdev, hinum]

/-- The other names are found as before. -/
theorem Written.found (h : Written c s s' dp d k e) (hd : InDir c s dp d) (hs : Sound (s.nodes c d).data)
    (hs' : Sound (s'.nodes c d).data) (hname : ∀ ch ∈ name, ch ≠ 0) (he : ¬ e.Is name)
    (hold : ∀ e', (s.dirents c d)[k]? = some e' → ¬ e'.Is name) :
    found c dp name s' = found c dp name s := by
  by_cases hex : ∃ x ∈ s.dirents c d, x.Is name
  · obtain ⟨x, hx, his⟩ := hex
    obtain ⟨j, hj⟩ := List.mem_iff_getElem?.mp hx
    have hne : j ≠ k := fun hjk => hold x (hjk ▸ hj) his
    have hj' : (s'.dirents c d)[j]? = some x := by rw [h.entry, if_neg hne, hj]
    rw [found_is hd hs hname hj his, found_is h.dir hs' hname hj' his, h.entryFor]
  · push Not at hex
    rw [found_none hd hs hname hex, found_none h.dir hs' hname (h.forall_mem he hex)]

/-! ## `dirlink` -/

/-- `dirlink` of a name that is not there. -/
theorem wp_dirlink_new (hok : c.sb.Ok) (h : InDir c s dp d) (hs : Sound (s.nodes c d).data)
    (hname : ∀ ch ∈ name, ch ≠ 0) (hnone : ∀ e ∈ s.dirents c d, ¬ e.Is name)
    (hE : ∀ e, e.Exhausted → ¬ (dirent.size * vacancy (s.dirents c d) + dirent.size ≤ maxfile * bsize ∧
      s.Enough c d (spanned (dirent.size * vacancy (s.dirents c d)) dirent.size) ∧
      LogRoom c s 7) → E e) {Q : Int → St → Prop}
    (hQ : ∀ s', Written c s s' dp d (vacancy (s.dirents c d)) (.make name i) → Q 0 s') :
    wp (dirlink c dp name i) Q E s := by
  unfold dirlink
  rw [wp_bind]
  refine wp_dirlookup_none h hs hname hnone ?_
  rw [wp_bind, wp_inode, wp_bind]
  refine h.hasEntries.emptyFrom (h.entries_eq hs) ?_
  rw [wp_bind]
  refine wp_writeEntry hok h hs (vacancy_le _) (fun e he hn => hE e he fun hroom => hn hroom.2)
    (fun hbig => ?_) fun s' hw => ?_
  · exact hE _ trivial fun hroom => absurd hroom.1 (by omega)
  · rw [dirent.dec_enc _ _ fun i _ => rfl] at hw
    rw [if_neg (fun hne => hne rfl)]
    exact hQ s' hw

/-- A cache entry with one reference less. -/
def Inode.drop (x : Inode) : Inode := { x with ref := x.ref - 1 }

/-- `iput` of an inode that it does not free. -/
theorem wp_iput_kept {ip : Fin ninode} {x : Inode} (hx : s.icache ip = x)
    (hkeep : ¬ (x.valid = true ∧ x.copy.nlink = 0 ∧ x.ref = 1)) {Q : Unit → St → Prop}
    (hlocked : ∀ p, x.lock = some p → E (if p = s.myproc then .selfDeadlock else .sleeps))
    (hQ : x.lock = none → Q () { s with icache := update s.icache ip x.drop }) :
    wp (iput c ip) Q E s := by
  unfold iput acquiresleep iputLocked releasesleep
  simp only [wp_bind, wp_get, hx]
  cases hlock : x.lock with
  | some p => exact hlocked p hlock
  | none =>
    simp only [wp_modifyInode, wp_inode, update_self, update_idem, hx]
    rw [if_neg hkeep]
    simp only [wp_pure, update_self, update_idem]
    unfold Inode.drop at hQ
    rw [hlock] at hQ
    exact hQ rfl

/-- `dirlink` of a name that is there. -/
theorem wp_dirlink_old (h : InDir c s dp d) (hs : Sound (s.nodes c d).data) (hname : ∀ ch ∈ name, ch ≠ 0)
    (hk : (s.dirents c d)[k]? = some e) (he : e.Is name) {Q : Int → St → Prop}
    (hfull : entryFor s rootdev e.inum.toNat = none → E .igetNoInodes)
    (hlocked : ∀ ip p, entryFor s rootdev e.inum.toNat = some ip → (s.icache ip).lock = some p →
      E (if p = s.myproc then .selfDeadlock else .sleeps))
    (hQ : ∀ ip, entryFor s rootdev e.inum.toNat = some ip → (s.icache ip).lock = none →
      Q (-1) { s with
        icache := update s.icache ip ((s.icache ip).grab rootdev e.inum.toNat).drop }) :
    wp (dirlink c dp name i) Q E s := by
  unfold dirlink
  rw [wp_bind]
  refine wp_dirlookup_is h hs hname hk he (wp_iget hfull fun ip hip => ?_)
  have hlock : ((s.icache ip).grab rootdev e.inum.toNat).lock = (s.icache ip).lock := by
    unfold Inode.grab
    split <;> rfl
  rw [wp_bind]
  refine wp_iput_kept (update_self _ _ _) ?_ (fun p hp => ?_) fun hfree => ?_
  · -- the inode is in use by others, or has not been read
    unfold Inode.grab
    split
    · exact fun hfree => Bool.false_ne_true hfree.1
    · next hne => exact fun hfree => hne (Nat.succ.inj hfree.2.2)
  · exact hlocked ip p hip (hlock ▸ hp)
  · have hQ := hQ ip hip (hlock ▸ hfree)
    simp only [update_idem]
    exact hQ

/-- What `dirlink` has done when it returns 0. -/
theorem dirlink_zero (hok : c.sb.Ok) (h : InDir c s dp d) (hs : Sound (s.nodes c d).data)
    (hname : ∀ ch ∈ name, ch ≠ 0) (hrun : dirlink c dp name i s = .ok (0, s')) :
    (∀ e ∈ s.dirents c d, ¬ e.Is name) ∧
      Written c s s' dp d (vacancy (s.dirents c d)) (.make name i) := by
  by_cases hex : ∃ e ∈ s.dirents c d, e.Is name
  · obtain ⟨e, he, his⟩ := hex
    obtain ⟨k, hk⟩ := List.mem_iff_getElem?.mp he
    have hwp : wp (dirlink c dp name i) (fun r _ => r ≠ 0) (fun _ => True) s :=
      wp_dirlink_old h hs hname hk his (fun _ => trivial) (fun _ _ _ _ => trivial)
        fun _ _ _ => by decide
    exact absurd rfl (hwp.ok hrun)
  · push Not at hex
    refine ⟨hex, ?_⟩
    have hwp : wp (dirlink c dp name i) (fun _ s' => Written c s s' dp d _ (.make name i))
        (fun _ => True) s :=
      wp_dirlink_new hok h hs hname hex (fun _ _ _ => trivial) fun _ hw => hw
    exact hwp.ok hrun

/-- What `dirlookup` has found when it returns an offset. -/
theorem dirlookup_some (h : InDir c s dp d) (hs : Sound (s.nodes c d).data)
    (hname : ∀ ch ∈ name, ch ≠ 0) {ip : Fin ninode} {off : Nat}
    (hrun : dirlookup c dp name s = .ok (some (ip, off), s')) :
    ∃ k e, (s.dirents c d)[k]? = some e ∧ e.Is name ∧ off = dirent.size * k := by
  by_cases hex : ∃ e ∈ s.dirents c d, e.Is name
  · obtain ⟨e, he, his⟩ := hex
    obtain ⟨k, hk⟩ := List.mem_iff_getElem?.mp he
    have hwp : wp (dirlookup c dp name) (fun r _ => ∀ x ∈ r, x.2 = dirent.size * k)
        (fun _ => True) s :=
      wp_dirlookup_is h hs hname hk his
        (wp_iget (fun _ => trivial) fun ip _ x hx => by cases hx; rfl)
    exact ⟨k, e, hk, his, hwp.ok hrun _ rfl⟩
  · push Not at hex
    have hwp : wp (dirlookup c dp name) (fun r _ => r = none) (fun _ => True) s :=
      wp_dirlookup_none h hs hname hex rfl
    exact absurd (hwp.ok hrun) (by simp)

theorem Written.sound_link (h : Written c s s' dp d k (.make name i)) (hs : Sound (s.nodes c d).data)
    (hname : ∀ ch ∈ name, ch ≠ 0) (hnone : ∀ e ∈ s.dirents c d, ¬ e.Is name) :
    Sound (s'.nodes c d).data :=
  h.sound hs fun _ hj hinum hstr => absurd ⟨hinum, hstr.trans (Dirent.str_make hname i)⟩
    (hnone _ (List.mem_of_getElem? hj))

/-- The entry with a name, overwritten by zeros. -/
theorem inum_dec_zero : (dirent.dec fun _ => 0).inum = 0 := rfl

theorem Written.sound_clear (h : Written c s s' dp d k (dirent.dec fun _ => 0))
    (hs : Sound (s.nodes c d).data) : Sound (s'.nodes c d).data :=
  h.sound hs fun hne => absurd inum_dec_zero hne

/-! ## Built directories -/

/-- The data of the directory `d` as the calls build it. -/
inductive Built (c : Config) (d : Nat) : List UInt8 → Prop
  /-- `create`: the inode that it has from `ialloc` has no data, and `.` and `..` are linked. -/
  | create : Built c d []
  | link {s s' : St} {dp : Fin ninode} {name : List UInt8} {i : Nat} :
      Built c d (s.nodes c d).data → InDir c s dp d → (∀ ch ∈ name, ch ≠ 0) → i ≠ 0 →
      dirlink c dp name i s = .ok (0, s') → Built c d (s'.nodes c d).data
  /-- `sys_unlink`: other inodes may have been locked and read since the lookup. -/
  | clear {s s₁ s₂ s₃ : St} {dp ip : Fin ninode} {name : List UInt8} {off : Nat} :
      Built c d (s.nodes c d).data → InDir c s dp d → (∀ ch ∈ name, ch ≠ 0) →
      dirlookup c dp name s = .ok (some (ip, off), s₁) →
      InDir c s₂ dp d → (s₂.nodes c d).data = (s.nodes c d).data →
      writei c dp (fun _ => 0) (UInt32.ofNat off) (UInt32.ofNat dirent.size) s₂ =
        .ok ((dirent.size : Int), s₃) →
      Built c d (s₃.nodes c d).data

theorem sound_nil : Sound [] where
  whole := rfl
  distinct h := by simp [Codec.items] at h

theorem Built.sound (hok : c.sb.Ok) {data : List UInt8} (h : Built c d data) : Sound data := by
  induction h with
  | create => exact sound_nil
  | link _ hd hname _ hrun ih =>
    obtain ⟨hnone, hw⟩ := dirlink_zero hok hd ih hname hrun
    exact hw.sound_link ih hname hnone
  | @clear _ _ s₂ _ dp _ _ _ _ hd hname hlook hd₂ hsame hrun ih =>
    obtain ⟨k, e, hk, -, rfl⟩ := dirlookup_some hd ih hname hlook
    rw [← hsame] at ih
    have hk₂ : k ≤ (s₂.dirents c d).length := by
      rw [St.dirents, hsame]
      exact (List.getElem?_eq_some_iff.mp hk).1.le
    have hwp : wp (writei c dp (fun _ => 0) _ _)
        (fun r s₃ => r = (dirent.size : Int) → Sound (s₃.nodes c d).data) (fun _ => True) s₂ :=
      wp_writeEntry hok hd₂ ih hk₂ (fun _ _ _ => trivial) (fun _ h => by cases h)
        fun s₃ hw _ => hw.sound_clear ih
    exact hwp.ok hrun rfl

/-- There is room for one more entry: in the directory, on the disk and in the log. -/
structure Room (c : Config) (s : St) (d : Nat) : Prop where
  size : dirent.size * vacancy (s.dirents c d) + dirent.size ≤ maxfile * bsize
  blocks : s.Enough c d (spanned (dirent.size * vacancy (s.dirents c d)) dirent.size)
  log : LogRoom c s 7

/-! ## The laws of the map -/

theorem inum_of_vacancy {es : List Dirent} (h : es[vacancy es]? = some e) : e.inum = 0 := by
  obtain ⟨hlt, rfl⟩ := List.getElem?_eq_some_iff.mp h
  have h0 : decide (es[vacancy es].inum = 0) = true := List.findIdx_getElem (w := hlt)
  exact of_decide_eq_true h0

/-- The new name is found if its number fits in the entry and `iget` has a cache entry for it. -/
theorem found_link_self (hw : Written c s s' dp d k (.make name i))
    (hs' : Sound (s'.nodes c d).data) (hname : ∀ ch ∈ name, ch ≠ 0)
    (hnone : ∀ e ∈ s.dirents c d, ¬ e.Is name) (hi : i ≠ 0) {m : List UInt8}
    (hm : ∀ ch ∈ m, ch ≠ 0) (hsame : m.take dirsiz = name.take dirsiz) :
    found c dp m s' = .ok (some i) ↔ i < 2 ^ 16 ∧ ∃ ip, entryFor s rootdev i = some ip := by
  have hself : (s'.dirents c d)[k]? = some (.make name i) := by rw [hw.entry, if_pos rfl]
  have hnum : (Dirent.make name i).inum.toNat = i % 2 ^ 16 := UInt16.toNat_ofNat'
  by_cases h0 : (Dirent.make name i).inum = 0
  · have hold : ∀ e ∈ s.dirents c d, ¬ e.Is m := fun e he his =>
      hnone e he ⟨his.1, his.2.trans hsame⟩
    rw [found_none hw.dir hs' hm (hw.forall_mem (fun his => his.1 h0) hold)]
    rw [h0] at hnum
    refine iff_of_false (by simp) fun hlt => hi ?_
    rw [Nat.mod_eq_of_lt hlt.1] at hnum
    exact hnum.symm
  · rw [found_is hw.dir hs' hm hself ⟨h0, (Dirent.str_make hname i).trans hsame.symm⟩, hw.entryFor,
      hnum]
    constructor
    · intro heq
      split at heq
      · next hsome =>
        have hmod : i % 2 ^ 16 = i := by simpa using heq
        rw [hmod] at hsome
        exact ⟨by omega, Option.isSome_iff_exists.mp hsome⟩
      · cases heq
    · rintro ⟨hlt, ip, hip⟩
      rw [Nat.mod_eq_of_lt hlt, hip]
      rfl

/-- `dirlink` leaves the other names as they are. -/
theorem found_link_other (h : InDir c s dp d) (hs : Sound (s.nodes c d).data)
    (hs' : Sound (s'.nodes c d).data)
    (hw : Written c s s' dp d (vacancy (s.dirents c d)) (.make name i))
    (hname : ∀ ch ∈ name, ch ≠ 0) {m : List UInt8} (hm : ∀ ch ∈ m, ch ≠ 0)
    (hne : m.take dirsiz ≠ name.take dirsiz) : found c dp m s' = found c dp m s :=
  hw.found h hs hs' hm (fun his => hne (his.2.symm.trans (Dirent.str_make hname i)))
    fun _ hold his => his.1 (inum_of_vacancy hold)

/-- The blocks of the entries are there. -/
theorem InDir.enough (h : InDir c s dp d) (hk : k < (s.dirents c d).length) :
    s.Enough c d (spanned (dirent.size * k) dirent.size) := by
  have hnone : missing s.view (s.din c d) (spanned (dirent.size * k) dirent.size) = 0 := by
    rw [missing, Finset.card_eq_zero, Finset.filter_eq_empty_iff]
    intro p hp
    obtain ⟨o, ho, hp⟩ := Finset.mem_biUnion.mp hp
    have hlt := (Finset.mem_Ico.mp ho).2
    have hle : dirent.size * k + dirent.size ≤ dirent.size * (s.dirents c d).length := by
      rw [← Nat.mul_succ]
      exact Nat.mul_le_mul_left _ hk
    have hmapped := h.hasEntries.mapped o (by omega)
    rw [h.copy] at hmapped
    unfold places at hp
    split at hp
    · rw [Finset.mem_singleton.mp hp]
      exact hmapped
    · next hind =>
      rcases Finset.mem_insert.mp hp with rfl | hp
      · intro h0
        rw [blockAt, if_neg hind, if_neg fun hpos => hpos.2 h0] at hmapped
        exact hmapped rfl
      · rw [Finset.mem_singleton.mp hp]
        exact hmapped
  rw [St.Enough, hnone]
  exact Nat.zero_le _

/-- Clearing the entry of a name takes that name out of the directory. -/
theorem exists_clear (hok : c.sb.Ok) (h : InDir c s dp d) (hs : Sound (s.nodes c d).data)
    (hlog : LogRoom c s 7) (hk : (s.dirents c d)[k]? = some e) (he : e.Is name) :
    ∃ s', writei c dp (fun _ => 0) (UInt32.ofNat (dirent.size * k)) (UInt32.ofNat dirent.size) s =
        .ok ((dirent.size : Int), s') ∧
      ∀ m, (∀ ch ∈ m, ch ≠ 0) → found c dp m s' =
        if m.take dirsiz = name.take dirsiz then .ok none else found c dp m s := by
  have hlt := (List.getElem?_eq_some_iff.mp hk).1
  have hsize : dirent.size * k + dirent.size ≤ maxfile * bsize := by
    have hle := h.hasEntries.size
    have hmax := (Rep.mk h.core rfl).data_le (i := d) (by rw [St.abs, h.node_type]; decide)
    have := Nat.mul_le_mul_left dirent.size hlt
    rw [h.copy, ← h.length_data] at hle
    exact (Nat.mul_succ _ _ ▸ this).trans (hle.trans hmax)
  have hwp := wp_writeEntry (E := fun _ => False) (Q := fun r s' => r = dirent.size ∧
    Written c s s' dp d k (dirent.dec fun _ => 0)) hok h hs hlt.le
    (fun _ _ hn => hn ⟨h.enough hlt, hlog⟩) (fun hbig => absurd hsize (by omega))
    fun s' hw => ⟨rfl, hw⟩
  obtain ⟨r, s', hrun, rfl, hw⟩ := hwp.exists_ok
  have hs' := hw.sound_clear hs
  have hempty : ∀ m, ¬ (dirent.dec fun _ => 0).Is m := fun m his => his.1 inum_dec_zero
  refine ⟨s', hrun, fun m hm => ?_⟩
  split
  · next hsame =>
    refine found_none hw.dir hs' hm fun x hx his => ?_
    obtain ⟨j, hj⟩ := List.mem_iff_getElem?.mp hx
    rw [hw.entry] at hj
    split at hj
    · cases hj
      exact hempty m his
    · next hne =>
      exact hne (hs.distinct hj hk his.1 he.1 (his.2.trans (hsame.trans he.2.symm)))
  · next hne =>
    refine hw.found h hs hs' hm (hempty m) fun x hx his => ?_
    rw [hk] at hx
    cases hx
    exact hne (his.2.symm.trans he.2)

/-- Nothing has changed but cache entries that are not in use. -/
structure Unchanged (s s' : St) : Prop where
  rest : s' = { s with icache := s'.icache }
  ref : ∀ ip, (s'.icache ip).ref = (s.icache ip).ref
  entry : ∀ ip, (s.icache ip).ref ≠ 0 → s'.icache ip = s.icache ip

theorem unchanged_grab_drop (s : St) (ip : Fin ninode) (dev inum : Nat) :
    Unchanged s { s with
      icache := update s.icache ip ((s.icache ip).grab dev inum).drop } := by
  have hdrop : ((s.icache ip).grab dev inum).drop.ref = (s.icache ip).ref ∧
      ((s.icache ip).ref ≠ 0 → ((s.icache ip).grab dev inum).drop = s.icache ip) := by
    unfold Inode.grab Inode.drop
    split
    · next h0 => exact ⟨h0.symm, fun hne => absurd h0 hne⟩
    · exact ⟨rfl, fun _ => rfl⟩
  refine ⟨rfl, fun j => ?_, fun j hj => ?_⟩
  · by_cases hji : j = ip
    · subst hji
      simpa using hdrop.1
    · simp [hji]
  · by_cases hji : j = ip
    · subst hji
      simpa using hdrop.2 hj
    · simp [hji]

/-- The directory `d` is a finite map, for the name `n` and an inode number `i`. -/
structure FiniteMap (c : Config) (s : St) (dp : Fin ninode) (d : Nat) (n : List UInt8) (i : Nat) :
    Prop where
  distinct : ∀ (j k : Nat) (e e' : Dirent), (s.dirents c d)[j]? = some e →
    (s.dirents c d)[k]? = some e' → e.inum ≠ 0 → e'.inum ≠ 0 → j ≠ k → namecmp e.str e'.str ≠ 0
  accepted : (∀ e ∈ s.dirents c d, ¬ e.Is n) → ∃ s', dirlink c dp n i s = .ok (0, s')
  linked : ∀ s', dirlink c dp n i s = .ok (0, s') → ∀ m, (∀ ch ∈ m, ch ≠ 0) → found c dp m s' =
    if m.take dirsiz = n.take dirsiz then .ok (some i) else found c dp m s
  refused : (∃ s', dirlink c dp n i s = .ok (-1, s') ∧ Unchanged s s') ↔
    ∃ e ∈ s.dirents c d, e.Is n
  cleared : ∀ ip off s₁ s₂, dirlookup c dp n s = .ok (some (ip, off), s₁) → InDir c s₂ dp d →
    LogRoom c s₂ 7 → (s₂.nodes c d).data = (s.nodes c d).data →
    ∃ s₃, writei c dp (fun _ => 0) (UInt32.ofNat off) (UInt32.ofNat dirent.size) s₂ =
        .ok ((dirent.size : Int), s₃) ∧
      ∀ m, (∀ ch ∈ m, ch ≠ 0) → found c dp m s₃ =
        if m.take dirsiz = n.take dirsiz then .ok none else found c dp m s₂

/-- `iget` has a cache entry for the inode that `n` names, and its lock is free; or one for `i`, whose
number fits in a directory entry. -/
structure Gets (c : Config) (s : St) (d : Nat) (n : List UInt8) (i : Nat) : Prop where
  old : ∀ e ∈ s.dirents c d, e.Is n →
    ∃ ip, entryFor s rootdev e.inum.toNat = some ip ∧ (s.icache ip).lock = none
  new : (∀ e ∈ s.dirents c d, ¬ e.Is n) → i < 2 ^ 16 ∧ ∃ ip, entryFor s rootdev i = some ip

/-- **A built directory is a finite map** as long as `dirlink` can take and drop the inode that a name
has, which it cannot if the inode is locked. -/
theorem finiteMap_iff (hok : c.sb.Ok) (h : InDir c s dp d) (hb : Built c d (s.nodes c d).data)
    (hroom : Room c s d) {n : List UInt8} (hn : ∀ ch ∈ n, ch ≠ 0) (hi : i ≠ 0) :
    FiniteMap c s dp d n i ↔ Gets c s d n i := by
  have hs := hb.sound hok
  have haccept : (∀ e ∈ s.dirents c d, ¬ e.Is n) → ∃ s', dirlink c dp n i s = .ok (0, s') := by
    intro hnone
    have hwp := wp_dirlink_new (E := fun _ => False) (Q := fun r _ => r = 0) (i := i) hok h hs hn hnone
      (fun _ _ hn => hn ⟨hroom.size, hroom.blocks, hroom.log⟩) fun _ _ => rfl
    obtain ⟨r, s', hrun, rfl⟩ := hwp.exists_ok
    exact ⟨s', hrun⟩
  constructor
  · intro hmap
    refine ⟨fun e he his => ?_, fun hnone => ?_⟩
    · obtain ⟨s', hrun, -⟩ := hmap.refused.mpr ⟨e, he, his⟩
      obtain ⟨k, hk⟩ := List.mem_iff_getElem?.mp he
      have hwp := wp_dirlink_old (E := fun _ => True) (i := i) (Q := fun _ _ =>
        ∃ ip, entryFor s rootdev e.inum.toNat = some ip ∧ (s.icache ip).lock = none) h hs hn hk his
        (fun _ => trivial) (fun _ _ _ _ => trivial) fun ip hip hfree => ⟨ip, hip, hfree⟩
      exact hwp.ok hrun
    · obtain ⟨s', hrun⟩ := haccept hnone
      obtain ⟨-, hw⟩ := dirlink_zero hok h hs hn hrun
      refine (found_link_self hw (hw.sound_link hs hn hnone) hn hnone hi hn rfl).mp ?_
      rw [hmap.linked s' hrun n hn, if_pos rfl]
  · intro hgets
    refine ⟨?_, haccept, ?_, ?_, ?_⟩
    · intro j k e e' hj hk hje hke hne hcmp
      rw [namecmp_str e.nul_str, List.take_of_length_le e.length_str_le] at hcmp
      exact hne (hs.distinct hj hk hje hke hcmp.symm)
    · intro s' hrun m hm
      obtain ⟨hnone, hw⟩ := dirlink_zero hok h hs hn hrun
      have hs' := hw.sound_link hs hn hnone
      split
      · next hsame => exact (found_link_self hw hs' hn hnone hi hm hsame).mpr (hgets.new hnone)
      · next hne => exact found_link_other h hs hs' hw hn hm hne
    · refine ⟨fun ⟨s', hrun, _⟩ => ?_, fun ⟨e, he, his⟩ => ?_⟩
      · by_contra hex
        push Not at hex
        obtain ⟨s'', hrun'⟩ := haccept hex
        cases hrun.symm.trans hrun'
      · obtain ⟨k, hk⟩ := List.mem_iff_getElem?.mp he
        obtain ⟨ip, hip, hfree⟩ := hgets.old e he his
        have hwp := wp_dirlink_old (E := fun _ => False) (i := i)
          (Q := fun r s' => r = -1 ∧ Unchanged s s') h hs hn hk his
          (fun hfull => by simp [hip] at hfull) (fun jp p hjp hp => ?_)
          fun _ _ _ => ⟨rfl, unchanged_grab_drop ..⟩
        · obtain ⟨r, s', hrun, rfl, hun⟩ := hwp.exists_ok
          exact ⟨s', hrun, hun⟩
        · rw [hip, Option.some_inj] at hjp
          rw [← hjp, hfree] at hp
          cases hp
    · intro ip off s₁ s₂ hlook h₂ hlog hsame
      obtain ⟨k, e, hk, his, rfl⟩ := dirlookup_some h hs hn hlook
      rw [← hsame] at hs
      rw [St.dirents, ← hsame] at hk
      exact exists_clear hok h₂ hs hlog hk his

/-! An empty directory, locked by the running process. -/

def dirState : St := { largeState with
  mem := ⟨largeDisk tDir, fun _ => none⟩
  outstanding := 1
  icache := update largeState.icache 0 ⟨rootdev, 1, 1, some 0, true, .ofType tDir⟩ }

theorem dirState_din : dirState.din largeConfig 1 = .ofType tDir := dinodeOf_setDinode _ 1 1 _

theorem dirState_inDir : InDir largeConfig dirState 0 1 := by
  refine ⟨core_of_blank (k := 0) (by decide) rfl (by decide +kernel) (by decide +kernel)
    (by decide +kernel) fun ip h => ?_, Nat.one_pos, Nat.one_pos, rfl, rfl, rfl⟩
  obtain rfl : ip = 0 := by
    by_contra hne
    simp [dirState, largeState, smallState, hne] at h
  exact ⟨rfl, rfl, Nat.one_pos, show 1 < 8 by decide, fun _ => ⟨dirState_din.symm, by decide⟩⟩

theorem dirState_data : (dirState.nodes largeConfig 1).data = [] := by
  rw [dirState_inDir.data, dirState_din]
  rfl

theorem dirState_built : Built largeConfig 1 (dirState.nodes largeConfig 1).data := by
  rw [dirState_data]
  exact .create

theorem dot_nul : ∀ ch ∈ dot, ch ≠ 0 := by simp

/-- The directory with its first entry. -/
theorem exists_linked (hname : ∀ ch ∈ name, ch ≠ 0) (hi : i ≠ 0)
    (h : ((dirlink largeConfig 0 name i dirState).map fun r => (r.1, r.2.lh.length,
      vacancy (r.2.dirents largeConfig 1), freeBlocks largeConfig.sb r.2.view)) =
        .ok (0, 3, 1, 214)) :
    ∃ s, dirlink largeConfig 0 name i dirState = .ok (0, s) ∧
      Written largeConfig dirState s 0 1 0 (.make name i) ∧
      Built largeConfig 1 (s.nodes largeConfig 1).data ∧ Room largeConfig s 1 := by
  cases hrun : dirlink largeConfig 0 name i dirState with
  | error e =>
    rw [hrun] at h
    cases h
  | ok r =>
    obtain ⟨r, s⟩ := r
    rw [hrun] at h
    simp only [Except.map, Except.ok.injEq, Prod.mk.injEq] at h
    obtain ⟨rfl, hlog, hvacancy, hfree⟩ := h
    have hempty : vacancy (dirState.dirents largeConfig 1) = 0 := by
      rw [St.dirents, dirState_data]
      rfl
    obtain ⟨-, hw⟩ := dirlink_zero largeConfig_ok dirState_inDir
      (dirState_built.sound largeConfig_ok) hname hrun
    rw [hempty] at hw
    refine ⟨s, rfl, hw, dirState_built.link dirState_inDir hname hi hrun, ?_, ?_, ?_⟩
    · rw [hvacancy]
      decide
    · rw [hvacancy]
      exact enough_of_free (by rw [hfree]; decide) (by decide)
    · constructor <;> rw [hlog] <;> decide

/-- A directory with an entry for `a`: that name is there, and `.` is not. -/
theorem finiteMap_iff_linked : ∃ s, (∃ e ∈ s.dirents largeConfig 1, e.Is [97]) ∧
    FiniteMap largeConfig s 0 1 [97] 3 ∧ FiniteMap largeConfig s 0 1 dot 1 := by
  have hnul : ∀ ch ∈ ([97] : List UInt8), ch ≠ 0 := by simp
  obtain ⟨s, -, hw, hb, hroom⟩ := exists_linked (i := 2) hnul two_ne_zero (by decide +kernel)
  have hentries : ∀ e ∈ s.dirents largeConfig 1, e = .make [97] 2 :=
    hw.forall_mem rfl fun e he => by
      rw [St.dirents, dirState_data] at he
      cases he
  have his : (Dirent.make [97] 2).Is [97] := ⟨by decide, Dirent.str_make hnul 2⟩
  have hnot : ∀ e ∈ s.dirents largeConfig 1, ¬ e.Is dot := fun e he h => by
    rw [hentries e he] at h
    have hstr := (Dirent.str_make hnul 2).symm.trans h.2
    cases hstr
  have hmem := List.mem_of_getElem? ((hw.entry 0).trans (if_pos rfl))
  refine ⟨s, ⟨_, hmem, his⟩, ?_, ?_⟩
  · refine (finiteMap_iff largeConfig_ok hw.dir hb hroom hnul (by decide)).mpr
      ⟨fun e he _ => ?_, fun hnone => absurd his (hnone _ hmem)⟩
    rw [hentries e he, hw.entryFor]
    exact ⟨1, by decide +kernel, (congrArg Slot.lock (hw.slot 1)).trans rfl⟩
  · refine (finiteMap_iff largeConfig_ok hw.dir hb hroom dot_nul one_ne_zero).mpr
      ⟨fun e he h => absurd h (hnot e he), fun _ => ⟨by decide, 0, ?_⟩⟩
    rw [hw.entryFor]
    decide +kernel

/-- **`link("x", ".")` never returns**: once the directory has its entry `.`, `dirlink` of this name
sleeps on the lock that the process itself holds. -/
theorem dirlink_dot_deadlock : ∃ s, InDir largeConfig s 0 1 ∧
    Built largeConfig 1 (s.nodes largeConfig 1).data ∧ Room largeConfig s 1 ∧
    (∃ e ∈ s.dirents largeConfig 1, e.Is dot) ∧
    dirlink largeConfig 0 dot 2 s = .error .selfDeadlock := by
  have htwice : ((dirlink largeConfig 0 dot 1 dirState).map fun r =>
      (dirlink largeConfig 0 dot 2 r.2).map fun _ => ()) = .ok (.error .selfDeadlock) := by
    decide +kernel
  obtain ⟨s, hrun, hw, hb, hroom⟩ := exists_linked dot_nul one_ne_zero (by decide +kernel)
  refine ⟨s, hw.dir, hb, hroom, ⟨.make dot 1, ?_, by decide, Dirent.str_make dot_nul 1⟩, ?_⟩
  · exact List.mem_of_getElem? ((hw.entry 0).trans (if_pos rfl))
  · rw [hrun] at htwice
    have hagain : (dirlink largeConfig 0 dot 2 s).map (fun _ => ()) = .error .selfDeadlock :=
      Except.ok.inj htwice
    cases hlink : dirlink largeConfig 0 dot 2 s with
    | error e =>
      rw [hlink] at hagain
      exact congrArg _ (Except.error.inj hagain)
    | ok r =>
      rw [hlink] at hagain
      cases hagain

end Laboratorio.Xv6
