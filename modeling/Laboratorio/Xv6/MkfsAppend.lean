import Laboratorio.Xv6.BlockOps
import Laboratorio.Xv6.InodeOps
import Laboratorio.Xv6.Mkfs

/-!
# What `iappend` does

`mkfs` gives out the blocks in order, so the blocks in use are those between the metadata and
`freeblock`, each at one place of one inode (`Laid`). `Holds v d data` says that an inode has the
blocks for `data` and no others, and reads as `data`.

While `iappend` runs, the inode that it changes is a copy in memory. The predicates are therefore
about a disk and a table of inodes `T`, which is the one on the disk except for that inode.
-/

namespace Laboratorio.Xv6.Mkfs

open Function Laboratorio.Bytes Laboratorio.DiskProg Laboratorio.Wp

/-! ## Blocks in use -/

/-- Block `b` is at place `p` of inode `i`, which is one of the first `k`. -/
structure Used (v : Disk Blk) (T : Nat → Dinode) (k i : Nat) (p : Place) (b : UInt32) : Prop where
  pos : 0 < i
  le : i ≤ k
  ne : b ≠ 0
  addr : p.addr v (T i) = b

/-- **The blocks in use** are those from `nmeta` to `fb`, each at one place. -/
structure Laid (v : Disk Blk) (T : Nat → Dinode) (k fb : Nat) : Prop where
  first : nmeta ≤ fb
  last : fb ≤ fssize
  range : ∀ {i p b}, Used v T k i p b → nmeta ≤ b.toNat ∧ b.toNat < fb
  once : ∀ {i j p q b}, Used v T k i p b → Used v T k j q b → i = j ∧ p = q
  onto : ∀ {b}, nmeta ≤ b → b < fb → ∃ i p, Used v T k i p (UInt32.ofNat b)
  fresh : ∀ b, fb ≤ b → v b = Block.zero

variable {v v' v₁ v₂ : Disk Blk} {T T' : Nat → Dinode} {k i fb fb₁ fb₂ : Nat} {d' d₁ d₂ : Dinode}
  {b : UInt32} {j n : Nat}

/-- The block that is given out next. -/
theorem Laid.next (h : Laid v T k fb) : (UInt32.ofNat fb).toNat = fb ∧ UInt32.ofNat fb ≠ 0 := by
  have hlast : fb ≤ 1000 := h.last
  have hfirst : 59 ≤ fb := h.first
  have hnat : (UInt32.ofNat fb).toNat = fb := UInt32.toNat_ofNat_of_lt' (by show _ < 2 ^ 32; omega)
  refine ⟨hnat, fun h0 => ?_⟩
  rw [h0] at hnat
  have : (0 : UInt32).toNat = 0 := rfl
  omega

/-- Nothing changes in where the blocks are. -/
theorem Laid.congr (h : Laid v T k fb)
    (haddr : ∀ j, 0 < j → j ≤ k → ∀ p : Place, p.addr v' (T' j) = p.addr v (T j))
    (hfresh : ∀ b, fb ≤ b → v' b = v b) : Laid v' T' k fb := by
  have hused : ∀ {j p b}, Used v' T' k j p b ↔ Used v T k j p b := by
    intro j p b
    constructor
    · intro hu
      exact ⟨hu.pos, hu.le, hu.ne, (haddr j hu.pos hu.le p).symm.trans hu.addr⟩
    · intro hu
      exact ⟨hu.pos, hu.le, hu.ne, (haddr j hu.pos hu.le p).trans hu.addr⟩
  refine ⟨h.first, h.last, fun hu => h.range (hused.mp hu),
    fun hu hu' => h.once (hused.mp hu) (hused.mp hu'), fun h1 h2 => ?_, fun b hb => ?_⟩
  · obtain ⟨j, p, hu⟩ := h.onto h1 h2
    exact ⟨j, p, hused.mpr hu⟩
  · rw [hfresh b hb, h.fresh b hb]

/-- Of the blocks in use and of the metadata, only blocks and addresses of inode `i` differ. -/
structure Keeps (v : Disk Blk) (T : Nat → Dinode) (k i : Nat) (v' : Disk Blk) (d' : Dinode) :
    Prop where
  frame : ∀ {j p b}, Used v T k j p b → j ≠ i → v' b.toNat = v b.toNat
  fields : d' = { T i with addrs := d'.addrs }
  below : ∀ b < nmeta, v' b = v b

theorem Keeps.refl : Keeps v T k i v (T i) := ⟨fun _ _ => rfl, rfl, fun _ _ => rfl⟩

/-- The other inodes have their blocks where they were. -/
theorem Keeps.used (h : Keeps v T k i v' d') {p : Place}
    (hu : Used v T k j p b) (hj : j ≠ i) : Used v' (update T i d') k j p b := by
  refine ⟨hu.pos, hu.le, hu.ne, ?_⟩
  rw [update_of_ne hj, p.addr_congr fun hne =>
    h.frame (p := .indirect) ⟨hu.pos, hu.le, hne, rfl⟩ hj]
  exact hu.addr

theorem Keeps.trans (h₁ : Keeps v T k i v₁ d₁) (h₂ : Keeps v₁ (update T i d₁) k i v₂ d₂) :
    Keeps v T k i v₂ d₂ where
  frame hu hj := (h₂.frame (h₁.used hu hj) hj).trans (h₁.frame hu hj)
  fields := by
    have h2 := h₂.fields
    rw [update_self, h₁.fields] at h2
    exact h2
  below b hb := (h₂.below b hb).trans (h₁.below b hb)

/-- Inode `i` may have got more blocks, and every file reads as before. -/
structure Extends (v : Disk Blk) (T : Nat → Dinode) (k i : Nat) (v' : Disk Blk) (d' : Dinode)
    (fb' : Nat) : Prop extends Keeps v T k i v' d' where
  laid : Laid v' (update T i d') k fb'
  bytes : ∀ o, byteAt v' d' o = byteAt v (T i) o

theorem Extends.refl (h : Laid v T k fb) (i : Nat) : Extends v T k i v (T i) fb :=
  ⟨.refl, by rwa [update_eq_self], fun _ => rfl⟩

theorem Extends.trans (h₁ : Extends v T k i v₁ d₁ fb₁)
    (h₂ : Extends v₁ (update T i d₁) k i v₂ d₂ fb₂) : Extends v T k i v₂ d₂ fb₂ where
  toKeeps := h₁.toKeeps.trans h₂.toKeeps
  laid := by
    have := h₂.laid
    rwa [update_idem] at this
  bytes o := by
    rw [h₂.bytes, update_self, h₁.bytes]

/-- **The next block is put at an empty place** of inode `i`. -/
theorem Laid.attach (h : Laid v T k fb) (hlt : fb < fssize) (hi : 0 < i) (hik : i ≤ k)
    (p₀ : Place) (hp₀ : p₀.addr v (T i) = 0) (hfields : d' = { T i with addrs := d'.addrs })
    (haddr : ∀ p : Place, p.addr v' d' = if p = p₀ then UInt32.ofNat fb else p.addr v (T i))
    (hkeep : ∀ {j p b}, Used v T k j p b → (j ≠ i ∨ p ≠ .indirect) → v' b.toNat = v b.toNat)
    (hfresh : ∀ b, fb ≤ b → v' b = v b) (hbelow : ∀ b < nmeta, v' b = v b) :
    Extends v T k i v' d' (fb + 1) := by
  obtain ⟨hnat, hne⟩ := h.next
  -- what is in use afterwards
  have hself : update T i d' i = d' := update_self _ _ _
  have hother : ∀ j, j ≠ i → 0 < j → j ≤ k → ∀ p : Place,
      p.addr v' (update T i d' j) = p.addr v (T j) := by
    intro j hj hpos hle p
    rw [update_of_ne hj]
    exact p.addr_congr fun hne => hkeep (p := .indirect) ⟨hpos, hle, hne, rfl⟩ (.inl hj)
  have hused : ∀ {j p b}, Used v' (update T i d') k j p b →
      Used v T k j p b ∨ j = i ∧ p = p₀ ∧ b = UInt32.ofNat fb := by
    intro j p b hu
    by_cases hj : j = i
    · subst hj
      have hadr := hu.addr
      rw [hself, haddr] at hadr
      by_cases hp : p = p₀
      · rw [if_pos hp] at hadr
        exact .inr ⟨rfl, hp, hadr.symm⟩
      · rw [if_neg hp] at hadr
        exact .inl ⟨hu.pos, hu.le, hu.ne, hadr⟩
    · exact .inl ⟨hu.pos, hu.le, hu.ne, (hother j hj hu.pos hu.le p).symm.trans hu.addr⟩
  have hnew : ∀ {j p}, ¬ Used v T k j p (UInt32.ofNat fb) := by
    intro j p hu
    have := (h.range hu).2
    omega
  refine ⟨⟨fun hu hj => hkeep hu (.inl hj), hfields, hbelow⟩, ⟨?_, hlt, fun hu => ?_,
    fun hu hu' => ?_, fun {b} h1 h2 => ?_, fun b hb => ?_⟩, fun o => ?_⟩
  · exact h.first.trans (Nat.le_succ fb)
  · rcases hused hu with hu | ⟨-, -, rfl⟩
    · have := h.range hu
      omega
    · have := h.first
      omega
  · rcases hused hu with h1 | ⟨rfl, rfl, rfl⟩ <;> rcases hused hu' with h2 | ⟨rfl, rfl, h2⟩
    · exact h.once h1 h2
    · subst h2
      exact absurd h1 hnew
    · exact absurd h2 hnew
    · exact ⟨rfl, rfl⟩
  · by_cases hb : b = fb
    · refine ⟨i, p₀, hi, hik, by rw [hb]; exact hne, ?_⟩
      rw [hself, haddr, if_pos rfl, hb]
    · obtain ⟨j, p, hu⟩ := h.onto h1 (by omega)
      refine ⟨j, p, hu.pos, hu.le, hu.ne, ?_⟩
      by_cases hj : j = i
      · subst hj
        rw [hself, haddr, if_neg]
        · exact hu.addr
        · rintro rfl
          exact hu.ne (hu.addr.symm.trans hp₀)
      · rw [hother j hj hu.pos hu.le]
        exact hu.addr
  · rw [hfresh b (by omega), h.fresh b (by omega)]
  · have hblk := haddr (.data (o / bsize))
    simp only [Place.addr] at hblk
    rw [byteAt, byteAt]
    by_cases hp : Place.data (o / bsize) = p₀
    · -- the new block reads as the hole it fills
      rw [if_pos hp] at hblk
      rw [← hp] at hp₀
      simp only [Place.addr] at hp₀
      rw [hblk, if_neg hne, hnat, hfresh fb le_rfl, h.fresh fb le_rfl, if_pos hp₀, Block.byte_zero]
    · rw [if_neg hp] at hblk
      rw [hblk]
      split
      · rfl
      · next hne => rw [hkeep (p := .data (o / bsize)) ⟨hi, hik, hne, rfl⟩ (.inr (by simp))]

/-- The next block becomes a direct block. -/
theorem Laid.attachDirect (h : Laid v T k fb) (hlt : fb < fssize) (hi : 0 < i) (hik : i ≤ k)
    (hn : n < ndirect) (h0 : (T i).addr n = 0) :
    Extends v T k i v ((T i).setAddr n (UInt32.ofNat fb)) (fb + 1) :=
  h.attach hlt hi hik (.data n) (by rw [Place.addr, blockAt_of_direct v _ hn, h0]) rfl
    (Place.addr_setDirect v (T i) hn _) (fun _ _ => rfl) (fun _ _ => rfl) fun _ _ => rfl

/-- The next block becomes the indirect block. -/
theorem Laid.attachIndirect (h : Laid v T k fb) (hlt : fb < fssize) (hi : 0 < i) (hik : i ≤ k)
    (h0 : (T i).addr ndirect = 0) :
    Extends v T k i v ((T i).setAddr ndirect (UInt32.ofNat fb)) (fb + 1) := by
  refine h.attach hlt hi hik .indirect h0 rfl (Place.addr_setIndirect h0 h.next.2 ?_)
    (fun _ _ => rfl) (fun _ _ => rfl) fun _ _ => rfl
  rw [h.next.1]
  exact h.fresh fb le_rfl

/-- The next block is entered into the indirect block. -/
theorem Laid.attachWord (h : Laid v T k fb) (hlt : fb < fssize) (hi : 0 < i) (hik : i ≤ k)
    (hj : j < nindirect) (hd : (T i).addr ndirect ≠ 0)
    (h0 : word (v ((T i).addr ndirect).toNat) j = 0) :
    Extends v T k i (update v ((T i).addr ndirect).toNat
      (setWord (v ((T i).addr ndirect).toNat) j (UInt32.ofNat fb))) (T i) (fb + 1) := by
  have hind : Used v T k i .indirect ((T i).addr ndirect) := ⟨hi, hik, hd, rfl⟩
  have hrange := h.range hind
  refine h.attach hlt hi hik (.data (ndirect + j)) ?_ rfl (Place.addr_setWord v hd hj _) ?_ ?_ ?_
  · rw [Place.addr, blockAt_of_indirect v _ (by omega)
      (by simp only [ndirect, nindirect, maxfile] at *; omega) hd, Nat.add_sub_cancel_left, h0]
  · intro j' p b hu hcase
    refine update_of_ne (fun e => ?_) _ _
    rw [UInt32.toNat_inj.mp e] at hu
    obtain ⟨hji, hp⟩ := h.once hu hind
    exact hcase.elim (fun hne => hne hji) fun hne => hne hp
  · intro b hb
    exact update_of_ne (by omega) _ _
  · intro b hb
    exact update_of_ne (by omega) _ _

/-! ## The functions on sectors -/

variable {s s' : Image} {E : Abort → Prop}

theorem sector_eq {sec : UInt32} (h : sec.toNat ≤ fssize) : sector sec = sec.toNat := by
  have h' : sec.toNat ≤ 1000 := h
  have hmul : (sec * UInt32.ofNat bsize).toNat = sec.toNat * bsize := by
    rw [UInt32.toNat_mul]
    exact Nat.mod_eq_of_lt (by show _ * 512 < 2 ^ 32; omega)
  rw [sector, hmul]
  exact Nat.mul_div_cancel _ (by decide)

theorem wp_rsect {sec : UInt32} {Q : Blk → Image → Prop}
    (hQ : sector sec < s.len → Q (s.disk (sector sec)) s) (hE : ¬ sector sec < s.len → E .read) :
    wp (rsect sec) Q E s := by
  unfold rsect
  simp only [wp_bind, wp_get]
  split
  · next h => exact hQ h
  · next h => exact hE h

theorem wp_wsect {sec : UInt32} {buf : Blk} {Q : Unit → Image → Prop} :
    wp (wsect sec buf) Q E s ↔ Q () { s with
      disk := update s.disk (sector sec) buf
      len := max s.len (sector sec + 1) } := Iff.rfl

theorem wp_nextBlock {Q : UInt32 → Image → Prop} :
    wp nextBlock Q E s ↔ Q s.freeblock { s with freeblock := s.freeblock + 1 } := Iff.rfl

/-! ## `iappend` -/

/-- The image while `iappend` runs. -/
structure Work (s : Image) (T : Nat → Dinode) (k : Nat) : Prop where
  len : s.len = fssize
  laid : Laid s.disk T k s.freeblock.toNat

/-- The blocks of a file with `nb` data blocks, with its indirect block. -/
def blocks (nb : Nat) : Nat := if ndirect < nb then nb + 1 else nb

/-- An inode has its first `nb` blocks and no others. -/
structure Mapped (v : Disk Blk) (d : Dinode) (nb : Nat) : Prop where
  data : ∀ n, blockAt v d n ≠ 0 ↔ n < nb
  indirect : d.addr ndirect ≠ 0 ↔ ndirect < nb

theorem toNat_succ {a : UInt32} (h : a.toNat ≤ fssize) : (a + 1).toNat = a.toNat + 1 := by
  have h' : a.toNat ≤ 1000 := h
  rw [UInt32.toNat_add]
  exact Nat.mod_eq_of_lt (by show a.toNat + 1 < 2 ^ 32; omega)

/-- The blocks after the next one has been put at an empty place. -/
theorem Mapped.attach {nb : Nat} (hdata : ∀ n, blockAt v (T i) n ≠ 0 ↔ n < nb) {b : UInt32}
    (hb : b ≠ 0) (haddr : ∀ p : Place, p.addr v' d' = if p = .data nb then b else p.addr v (T i))
    (hind : d'.addr ndirect ≠ 0 ↔ ndirect < nb + 1) : Mapped v' d' (nb + 1) := by
  refine ⟨fun n => ?_, hind⟩
  have hn := haddr (.data n)
  simp only [Place.addr, Place.data.injEq] at hn
  rw [hn]
  split
  · next e =>
    rw [e]
    exact iff_of_true hb (Nat.lt_succ_self nb)
  · next hne =>
    rw [hdata]
    omega

/-- A block in use is a sector of the image. -/
theorem Work.sector (h : Work s T k) {p : Place} (hu : Used s.disk T k i p b) :
    sector b = b.toNat ∧ b.toNat < s.len := by
  have hrange := h.laid.range hu
  have hlast := h.laid.last
  rw [h.len]
  exact ⟨sector_eq (by omega), by omega⟩

/-- The part of `iappend` on the indirect block. -/
theorem wp_entryFor (h : Work s T k) (hi : 0 < i) (hik : i ≤ k) (hd : (T i).addr ndirect ≠ 0)
    {Q : Dinode × UInt32 → Image → Prop}
    (hthere : word (s.disk ((T i).addr ndirect).toNat) j ≠ 0 →
      Q (T i, word (s.disk ((T i).addr ndirect).toNat) j) s)
    (hnew : word (s.disk ((T i).addr ndirect).toNat) j = 0 →
      Q (T i, s.freeblock) { s with
        disk := update s.disk ((T i).addr ndirect).toNat
          (setWord (s.disk ((T i).addr ndirect).toNat) j s.freeblock)
        freeblock := s.freeblock + 1 }) :
    wp (blockFor.entryFor (T i) j) Q E s := by
  obtain ⟨hsec, hlt⟩ := h.sector (p := .indirect) ⟨hi, hik, hd, rfl⟩
  unfold blockFor.entryFor
  rw [wp_bind]
  refine wp_rsect (fun _ => ?_) fun hge => absurd (hsec ▸ hlt) hge
  rw [hsec]
  split
  · next h0 =>
    rw [wp_bind, wp_nextBlock, wp_bind, wp_wsect, wp_pure, hsec]
    have hlen : max s.len (((T i).addr ndirect).toNat + 1) = s.len := by omega
    rw [hlen]
    exact hnew h0
  · next h0 => exact hthere h0

/-- Inode `i`, with `nb` blocks, has got those that it lacks of `nb'` blocks, from state `s` to
`s'`. -/
structure Placed (s : Image) (T : Nat → Dinode) (k i nb nb' : Nat) (d' : Dinode) (s' : Image) :
    Prop where
  ext : Extends s.disk T k i s'.disk d' s'.freeblock.toNat
  len : s'.len = fssize
  freeinode : s'.freeinode = s.freeinode
  mapped : Mapped s'.disk d' nb'
  count : s'.freeblock.toNat + blocks nb = s.freeblock.toNat + blocks nb'

variable {nb fbn : Nat} {Q : Dinode × UInt32 → Image → Prop}

/-- The next block of a file that has an indirect block. -/
theorem wp_entryFor_next (h : Work s T k) (hi : 0 < i) (hik : i ≤ k) (nb : Nat) (hnb : ndirect ≤ nb)
    (hmax : nb < maxfile) (hd : (T i).addr ndirect ≠ 0)
    (hdata : ∀ n, blockAt s.disk (T i) n ≠ 0 ↔ n < nb)
    (hQ : ∀ s', Extends s.disk T k i s'.disk (T i) s'.freeblock.toNat → s'.len = fssize →
      s'.freeinode = s.freeinode → Mapped s'.disk (T i) (nb + 1) →
      s'.freeblock.toNat = s.freeblock.toNat + 1 → Q (T i, blockAt s'.disk (T i) nb) s')
    (hfull : s.freeblock.toNat = fssize → ∀ x s', s'.len = fssize → sector x = fssize →
      Q (T i, x) s') : wp (blockFor.entryFor (T i) (nb - ndirect)) Q E s := by
  have hj : nb - ndirect < nindirect := by simp only [ndirect, nindirect, maxfile] at *; omega
  have hnbj : ndirect + (nb - ndirect) = nb := by omega
  have h0 : word (s.disk ((T i).addr ndirect).toNat) (nb - ndirect) = 0 := by
    rw [← blockAt_of_indirect _ _ hnb hmax hd]
    by_contra hne
    exact absurd ((hdata nb).mp hne) (lt_irrefl nb)
  refine wp_entryFor h hi hik hd (fun hne => absurd h0 hne) fun _ => ?_
  by_cases hlt : s.freeblock.toNat < fssize
  · have hext := h.laid.attachWord hlt hi hik hj hd h0
    have haddr := Place.addr_setWord s.disk hd hj s.freeblock
    have hfb := h.laid.next.2
    rw [UInt32.ofNat_toNat] at hext hfb
    rw [hnbj] at haddr
    have hblk := haddr (.data nb)
    rw [if_pos rfl, Place.addr] at hblk
    have hmapped := Mapped.attach hdata hfb haddr (iff_of_true hd (by omega))
    have hgoal := hQ { s with
        disk := update s.disk ((T i).addr ndirect).toNat
          (setWord (s.disk ((T i).addr ndirect).toNat) (nb - ndirect) s.freeblock)
        freeblock := s.freeblock + 1 }
      (by rw [toNat_succ h.laid.last]; exact hext) h.len rfl hmapped (toNat_succ h.laid.last)
    rw [hblk] at hgoal
    exact hgoal
  · have hlast := h.laid.last
    have hfull' : s.freeblock.toNat = fssize := by omega
    exact hfull hfull' _ _ h.len ((sector_eq hfull'.le).trans hfull')

/-- The block in which `iappend` writes, when the file has it. -/
theorem wp_blockFor_there (h : Work s T k) (hi : 0 < i) (hik : i ≤ k) (hmax : fbn < maxfile)
    (hmap : Mapped s.disk (T i) nb) (hlt : fbn < nb) (hQ : Q (T i, blockAt s.disk (T i) fbn) s) :
    wp (blockFor (T i) fbn) Q E s := by
  have hne : blockAt s.disk (T i) fbn ≠ 0 := (hmap.data fbn).mpr hlt
  unfold blockFor
  by_cases hdir : fbn < ndirect
  · rw [blockAt_of_direct _ _ hdir] at hne hQ
    rw [if_pos hdir, if_neg hne]
    exact hQ
  · have hind : (T i).addr ndirect ≠ 0 := hmap.indirect.mpr (by omega)
    rw [blockAt_of_indirect _ _ (by omega) hmax hind] at hne hQ
    rw [if_neg hdir, wp_bind, blockFor.withIndirect, if_neg hind, wp_pure]
    exact wp_entryFor h hi hik hind (fun _ => hQ) fun h0 => absurd h0 hne

/-- The next direct block. -/
theorem wp_blockFor_direct (h : Work s T k) (hi : 0 < i) (hik : i ≤ k) (hdir : nb < ndirect)
    (hmap : Mapped s.disk (T i) nb)
    (hQ : ∀ d' s', Placed s T k i nb (nb + 1) d' s' → Q (d', blockAt s'.disk d' nb) s')
    (hfull : fssize + blocks nb < s.freeblock.toNat + blocks (nb + 1) →
      ∀ d' x s', s'.len = fssize → sector x = fssize → Q (d', x) s') :
    wp (blockFor (T i) nb) Q E s := by
  have hblocks : blocks (nb + 1) = blocks nb + 1 := by
    rw [blocks, blocks, if_neg (by omega), if_neg (by omega)]
  have hsucc : (s.freeblock + 1).toNat = s.freeblock.toNat + 1 := toNat_succ h.laid.last
  have h0 : (T i).addr nb = 0 := by
    rw [← blockAt_of_direct s.disk _ hdir]
    by_contra hne
    exact absurd ((hmap.data nb).mp hne) (lt_irrefl nb)
  unfold blockFor
  rw [if_pos hdir, if_pos h0, wp_bind, wp_nextBlock, wp_pure]
  by_cases hlt : s.freeblock.toNat < fssize
  · have hext := h.laid.attachDirect hlt hi hik hdir h0
    have hfb := h.laid.next.2
    rw [UInt32.ofNat_toNat] at hext hfb
    have haddr := Place.addr_setDirect s.disk (T i) hdir s.freeblock
    have hblk := haddr (.data nb)
    rw [if_pos rfl, Place.addr] at hblk
    have hind := haddr .indirect
    rw [if_neg (by simp), Place.addr, Place.addr] at hind
    have hmapped := Mapped.attach hmap.data hfb haddr (by rw [hind, hmap.indirect]; omega)
    have hgoal := hQ ((T i).setAddr nb s.freeblock) { s with freeblock := s.freeblock + 1 }
      ⟨by rw [hsucc]; exact hext, h.len, rfl, hmapped, by rw [hsucc, hblocks]; omega⟩
    rw [hblk] at hgoal
    exact hgoal
  · have hlast := h.laid.last
    have hfull' : s.freeblock.toNat = fssize := by omega
    exact hfull (by omega) _ _ _ h.len ((sector_eq hfull'.le).trans hfull')

/-- The first block that needs the indirect block. -/
theorem wp_blockFor_first (h : Work s T k) (hi : 0 < i) (hik : i ≤ k)
    (hmap : Mapped s.disk (T i) ndirect)
    (hQ : ∀ d' s', Placed s T k i ndirect (ndirect + 1) d' s' →
      Q (d', blockAt s'.disk d' ndirect) s')
    (hfull : fssize + blocks ndirect < s.freeblock.toNat + blocks (ndirect + 1) →
      E .read ∧ ∀ d' x s', s'.len = fssize → sector x = fssize → Q (d', x) s') :
    wp (blockFor (T i) ndirect) Q E s := by
  have hblocks : blocks (ndirect + 1) = blocks ndirect + 2 := rfl
  have hsucc : (s.freeblock + 1).toNat = s.freeblock.toNat + 1 := toNat_succ h.laid.last
  have hind0 : (T i).addr ndirect = 0 := by
    by_contra hne
    exact absurd (hmap.indirect.mp hne) (lt_irrefl _)
  have hset : ((T i).setAddr ndirect s.freeblock).addr ndirect = s.freeblock := by
    rw [Dinode.addr_setAddr _ _ _ (by omega), if_pos rfl]
  unfold blockFor
  rw [if_neg (lt_irrefl _), wp_bind, blockFor.withIndirect, if_pos hind0, wp_bind, wp_nextBlock,
    wp_pure]
  by_cases hlt : s.freeblock.toNat < fssize
  · have hext := h.laid.attachIndirect hlt hi hik hind0
    have hfb := h.laid.next.2
    rw [UInt32.ofNat_toNat] at hext hfb
    have hwork : Work { s with freeblock := s.freeblock + 1 }
        (update T i ((T i).setAddr ndirect s.freeblock)) k :=
      ⟨h.len, by rw [hsucc]; exact hext.laid⟩
    have hzero : s.disk s.freeblock.toNat = Block.zero := h.laid.fresh _ le_rfl
    -- the new block is empty, so the data blocks are as before
    have hdata : ∀ n, blockAt s.disk ((T i).setAddr ndirect s.freeblock) n ≠ 0 ↔ n < ndirect := by
      intro n
      have hn := Place.addr_setIndirect hind0 hfb hzero (.data n)
      rw [if_neg (by simp), Place.addr, Place.addr] at hn
      rw [hn]
      exact hmap.data n
    have hself : update T i ((T i).setAddr ndirect s.freeblock) i =
      (T i).setAddr ndirect s.freeblock := update_self _ _ _
    have hnext := wp_entryFor_next (E := E) (Q := Q) hwork hi hik ndirect le_rfl (by decide)
    rw [hself, hset] at hnext
    refine hnext hfb hdata (fun s' hext' hlen hfree hmapped hcount => ?_) fun hfb' x s' => ?_
    · refine hQ _ s' ⟨hext.trans hext', hlen, hfree, hmapped, ?_⟩
      rw [hcount, hblocks]
      show (s.freeblock + 1).toNat + 1 + _ = _
      omega
    · change (s.freeblock + 1).toNat = fssize at hfb'
      exact (hfull (by omega)).2 _ x s'
  · have hlast := h.laid.last
    have hfull' : s.freeblock.toNat = fssize := by omega
    unfold blockFor.entryFor
    rw [wp_bind, hset]
    refine wp_rsect (fun hsec => absurd hsec ?_) fun _ => (hfull (by omega)).1
    rw [sector_eq hfull'.le, hfull', show _ = fssize from h.len]
    exact lt_irrefl _

/-- **The block in which `iappend` writes.** The next block of the file is allocated, with an indirect
block if it is the first one that needs it; when the image is full, the block number that comes back
cannot be read. -/
theorem wp_blockFor (h : Work s T k) (hi : 0 < i) (hik : i ≤ k) (hfbn : fbn ≤ nb)
    (hmax : fbn < maxfile) (hmap : Mapped s.disk (T i) nb)
    (hQ : ∀ d' s', Placed s T k i nb (max nb (fbn + 1)) d' s' → Q (d', blockAt s'.disk d' fbn) s')
    (hfull : fssize + blocks nb < s.freeblock.toNat + blocks (max nb (fbn + 1)) →
      E .read ∧ ∀ d' x s', s'.len = fssize → sector x = fssize → Q (d', x) s') :
    wp (blockFor (T i) fbn) Q E s := by
  rcases Nat.lt_or_eq_of_le hfbn with hlt | rfl
  · rw [Nat.max_eq_left hlt] at hQ
    exact wp_blockFor_there h hi hik hmax hmap hlt
      (hQ (T i) s ⟨.refl h.laid i, h.len, rfl, hmap, rfl⟩)
  · have hmaxeq : max fbn (fbn + 1) = fbn + 1 := Nat.max_eq_right (Nat.le_succ fbn)
    rw [hmaxeq] at hQ hfull
    rcases Nat.lt_trichotomy fbn ndirect with hdir | rfl | hind
    · exact wp_blockFor_direct h hi hik hdir hmap hQ fun hf => (hfull hf).2
    · exact wp_blockFor_first h hi hik hmap hQ hfull
    · have hd : (T i).addr ndirect ≠ 0 := hmap.indirect.mpr hind
      have hblocks : blocks (fbn + 1) = blocks fbn + 1 := by
        rw [blocks, blocks, if_pos (by omega), if_pos hind]
      unfold blockFor
      rw [if_neg (by omega), wp_bind, blockFor.withIndirect, if_neg hd, wp_pure]
      refine wp_entryFor_next h hi hik fbn hind.le hmax hd hmap.data
        (fun s' hext hlen hfree hmapped hcount => ?_) fun hfb x s' => ?_
      · exact hQ _ s' ⟨hext, hlen, hfree, hmapped, by omega⟩
      · exact (hfull (by omega)).2 _ x s'

/-- A data block in use is overwritten: the blocks stay where they are. -/
theorem Laid.addr_write (h : Laid v T k fb) (hu : Used v T k i (.data n) b)
    (w : Blk) (hj : 0 < j) (hjk : j ≤ k) (p : Place) :
    p.addr (update v b.toNat w) (T j) = p.addr v (T j) := by
  refine p.addr_congr fun hd => update_of_ne (fun e => ?_) _ _
  have hind : Used v T k j .indirect b := ⟨hj, hjk, hu.ne, UInt32.toNat_inj.mp e⟩
  cases (h.once hind hu).2

theorem Laid.write (h : Laid v T k fb) (hu : Used v T k i (.data n) b)
    (w : Blk) : Laid (update v b.toNat w) T k fb := by
  refine h.congr (fun j hj hjk p => h.addr_write hu w hj hjk p) fun x hx => ?_
  have := (h.range hu).2
  exact update_of_ne (by omega) _ _

/-- The bytes of the file after that. -/
theorem Laid.byteAt_write (h : Laid v T k fb) (hu : Used v T k i (.data n) b) (w : Blk) (o : Nat) :
    byteAt (update v b.toNat w) (T i) o =
      if o / bsize = n then w.byte (o % bsize) else byteAt v (T i) o := by
  have hblk := h.addr_write hu w hu.pos hu.le (.data (o / bsize))
  simp only [Place.addr] at hblk
  rw [byteAt, hblk]
  by_cases hn : o / bsize = n
  · have hb : blockAt v (T i) (o / bsize) = b := by
      rw [hn]
      exact hu.addr
    rw [hb, if_neg hu.ne, if_pos hn, update_self]
  · rw [if_neg hn, byteAt]
    split
    · rfl
    · next hne =>
      rw [update_of_ne]
      intro e
      have hu' : Used v T k i (.data (o / bsize)) b := ⟨hu.pos, hu.le, hu.ne, UInt32.toNat_inj.mp e⟩
      exact hn (Place.data.inj (h.once hu' hu).2)

/-! ## Files -/

/-- The number of blocks that hold `len` bytes. -/
def dataBlocks (len : Nat) : Nat := (len + (bsize - 1)) / bsize

/-- An inode reads as `data` and has the blocks for it. -/
structure Holds (v : Disk Blk) (d : Dinode) (data : List UInt8) : Prop where
  mapped : Mapped v d (dataBlocks data.length)
  bytes : ∀ o, byteAt v d o = data.getD o 0

/-- The blocks of an inode have not changed. -/
theorem Holds.congr {d : Dinode} {data : List UInt8} (h : Holds v d data)
    (hv : ∀ p : Place, p.addr v d ≠ 0 → v' (p.addr v d).toNat = v (p.addr v d).toNat) :
    Holds v' d data where
  mapped := by
    refine ⟨fun n => ?_, h.mapped.indirect⟩
    rw [blockAt_congr n fun hd => hv .indirect hd]
    exact h.mapped.data n
  bytes o := (byteAt_congr o hv).trans (h.bytes o)

/-- A file of `old` bytes can be extended to `new` bytes when the next block is `fb`. -/
def Fits (fb old new : Nat) : Prop :=
  new ≤ maxfile * bsize ∧ fb + blocks (dataBlocks new) ≤ fssize + blocks (dataBlocks old)

/-- From state `s` to `s'`, inode `i` has changed from `data` to `data'`. -/
structure Appended (s : Image) (T : Nat → Dinode) (k i : Nat) (data data' : List UInt8) (d' : Dinode)
    (s' : Image) : Prop extends Keeps s.disk T k i s'.disk d' where
  work : Work s' (update T i d') k
  freeinode : s'.freeinode = s.freeinode
  holds : Holds s'.disk d' data'
  count : s'.freeblock.toNat + blocks (dataBlocks data.length) =
    s.freeblock.toNat + blocks (dataBlocks data'.length)

variable {data data₁ data₂ : List UInt8}

theorem Appended.refl (h : Work s T k) (hold : Holds s.disk (T i) data) :
    Appended s T k i data data (T i) s where
  toKeeps := .refl
  work := by rwa [update_eq_self]
  freeinode := rfl
  holds := hold
  count := rfl

theorem Appended.trans {s₁ s₂ : Image} (h₁ : Appended s T k i data data₁ d₁ s₁)
    (h₂ : Appended s₁ (update T i d₁) k i data₁ data₂ d₂ s₂) :
    Appended s T k i data data₂ d₂ s₂ where
  toKeeps := h₁.toKeeps.trans h₂.toKeeps
  work := by
    have := h₂.work
    rwa [update_idem] at this
  freeinode := h₂.freeinode.trans h₁.freeinode
  holds := h₂.holds
  count := by
    have := h₁.count
    have := h₂.count
    omega

theorem blocks_mono {a b : Nat} (h : a ≤ b) : blocks a ≤ blocks b := by
  unfold blocks
  split <;> split <;> omega

/-- The bytes of a file after some have been written at its end. -/
theorem overwrite_end (data p : List UInt8) (m o : Nat) :
    overwrite (fun o => data.getD o 0) data.length m (fun i => p.getD i 0) o =
      (data ++ p.take m).getD o 0 := by
  rw [overwrite]
  simp only [List.getD_eq_getElem?_getD, List.getElem?_append, List.getElem?_take]
  by_cases h1 : o < data.length
  · rw [if_neg (by omega), if_pos h1]
  · rw [if_neg h1]
    by_cases h2 : o < data.length + m
    · rw [if_pos ⟨by omega, h2⟩, if_pos (by omega)]
    · rw [if_neg (by omega), if_neg (by omega), List.getElem?_eq_none (by omega)]

/-- The block that holds the end of a file, and the number of blocks after more bytes in it. -/
theorem dataBlocks_chunk {off m : Nat} (hm : 0 < m) (hle : m ≤ bsize - off % bsize) :
    off / bsize ≤ dataBlocks off ∧
      max (dataBlocks off) (off / bsize + 1) = dataBlocks (off + m) := by
  simp only [dataBlocks, bsize] at *
  omega

/-- One round of the loop of `iappend`: the block is there and `m` bytes are written in it. -/
theorem Placed.write {p : List UInt8} {m : Nat} (hi : 0 < i) (hik : i ≤ k)
    (hold : Holds s.disk (T i) data) (hm : 0 < m) (hmp : m ≤ p.length)
    (hle : m ≤ bsize - data.length % bsize)
    (h : Placed s T k i (dataBlocks data.length) (dataBlocks (data.length + m)) d' s') :
    Appended s T k i data (data ++ p.take m) d' { s' with
      disk := update s'.disk (blockAt s'.disk d' (data.length / bsize)).toNat
        ((s'.disk (blockAt s'.disk d' (data.length / bsize)).toNat).splice (data.length % bsize) m
          fun i => p.getD i 0) } := by
  have hlen : (data ++ p.take m).length = data.length + m := by
    rw [List.length_append, List.length_take, Nat.min_eq_left hmp]
  have hself : update T i d' i = d' := update_self _ _ _
  have hne : blockAt s'.disk d' (data.length / bsize) ≠ 0 := by
    have := dataBlocks_chunk hm hle
    exact (h.mapped.data _).mpr (by omega)
  have hu : Used s'.disk (update T i d') k i (.data (data.length / bsize))
      (blockAt s'.disk d' (data.length / bsize)) := ⟨hi, hik, hne, by rw [hself]; rfl⟩
  have hrange := h.ext.laid.range hu
  have haddr := h.ext.laid.addr_write hu ((s'.disk (blockAt s'.disk d'
    (data.length / bsize)).toNat).splice (data.length % bsize) m fun i => p.getD i 0) hi hik
  rw [hself] at haddr
  refine ⟨⟨fun hu' hj => ?_, h.ext.fields, fun b hb => ?_⟩, ⟨h.len, h.ext.laid.write hu _⟩,
    h.freeinode, ⟨⟨fun n => ?_, ?_⟩, fun o => ?_⟩, ?_⟩
  · have hother := h.ext.used hu' hj
    refine (update_of_ne (fun e => ?_) _ _).trans (h.ext.frame hu' hj)
    rw [UInt32.toNat_inj.mp e] at hother
    exact hj (h.ext.laid.once hother hu).1
  · refine (update_of_ne (by omega) _ _).trans (h.ext.below b hb)
  · have hn := haddr (.data n)
    simp only [Place.addr] at hn
    rw [hn, hlen]
    exact h.mapped.data n
  · rw [hlen]
    exact h.mapped.indirect
  · have hbytes := h.ext.laid.byteAt_write hu ((s'.disk (blockAt s'.disk d'
      (data.length / bsize)).toNat).splice (data.length % bsize) m fun i => p.getD i 0) o
    rw [hself, byte_splice_chunk _ _ _ hle hne, show byteAt s'.disk d' = fun o => data.getD o 0 from
      funext fun o => (h.ext.bytes o).trans (hold.bytes o), overwrite_end] at hbytes
    exact hbytes
  · rw [hlen]
    exact h.count

theorem not_fits {fb old new new' : Nat} (hle : new ≤ new')
    (h : fssize + blocks (dataBlocks old) < fb + blocks (dataBlocks new)) : ¬ Fits fb old new' := by
  intro hfits
  have := blocks_mono (show dataBlocks new ≤ dataBlocks new' from
    Nat.div_le_div_right (Nat.add_le_add_right hle _))
  have := hfits.2
  omega

/-- **The loop of `iappend`.** The bytes are at the end of the file, or they did not fit. -/
theorem wp_appendFrom (fuel : Nat) {p : List UInt8} (hfuel : p.length ≤ fuel) (hi : 0 < i)
    (hik : i ≤ k) (h : Work s T k) (hold : Holds s.disk (T i) data)
    (hmax : data.length ≤ maxfile * bsize)
    (hQ : ∀ d' s', Appended s T k i data (data ++ p) d' s' →
      data.length + p.length ≤ maxfile * bsize →
      Q (d', UInt32.ofNat (data.length + p.length)) s')
    (hE : ¬ Fits s.freeblock.toNat data.length (data.length + p.length) → ∀ e, E e) :
    wp (appendFrom fuel (T i) (UInt32.ofNat data.length) p) Q E s := by
  induction fuel generalizing s T data p with
  | zero =>
    obtain rfl : p = [] := List.eq_nil_of_length_eq_zero (by omega)
    have hgoal := hQ (T i) s (by rw [List.append_nil]; exact .refl h hold) (by simpa using hmax)
    exact hgoal
  | succ fuel ih =>
    unfold appendFrom
    split
    · next hpos =>
      have hoff : (UInt32.ofNat data.length).toNat = data.length :=
        UInt32.toNat_ofNat_of_lt' (lt_of_le_of_lt hmax (by decide))
      simp only [hoff]
      have hdiv := Nat.div_add_mod data.length bsize
      have hmod : data.length % bsize < bsize := Nat.mod_lt _ (by decide)
      split
      · next hfbn =>
        -- the bytes that go into this block
        generalize hm : min p.length ((data.length / bsize + 1) * bsize - data.length) = m
        have hm1 : 0 < m ∧ m ≤ p.length ∧ m ≤ bsize - data.length % bsize := by
          simp only [bsize] at *
          omega
        have hstart : data.length - data.length / bsize * bsize = data.length % bsize := by
          simp only [bsize] at *
          omega
        obtain ⟨hle, hnb⟩ := dataBlocks_chunk hm1.1 hm1.2.2
        rw [hstart, wp_bind]
        refine wp_blockFor h hi hik hle hfbn hold.mapped (fun d' s' hp => ?_) fun hfull => ?_
        · rw [hnb] at hp
          have hwrite := hp.write (p := p) hi hik hold hm1.1 hm1.2.1 hm1.2.2
          have hx : Used s'.disk (update T i d') k i (.data (data.length / bsize))
              (blockAt s'.disk d' (data.length / bsize)) :=
            ⟨hi, hik, (hp.mapped.data _).mpr (by omega), by rw [update_self]; rfl⟩
          obtain ⟨hsec, hlt⟩ := Work.sector ⟨hp.len, hp.ext.laid⟩ hx
          show wp (rsect _ >>= _) _ _ _
          rw [wp_bind]
          refine wp_rsect (fun _ => ?_) fun hge => absurd (hsec ▸ hlt) hge
          rw [wp_bind, wp_wsect, hsec, Nat.max_eq_left hlt]
          have hlen : (data ++ p.take m).length = data.length + m := by
            rw [List.length_append, List.length_take, Nat.min_eq_left hm1.2.1]
          have hdrop : (p.drop m).length = p.length - m := List.length_drop
          have hnext : UInt32.ofNat data.length + UInt32.ofNat m =
              UInt32.ofNat (data ++ p.take m).length := by
            rw [hlen, UInt32.ofNat_add]
          have htotal : (data ++ p.take m).length + (p.drop m).length =
              data.length + p.length := by omega
          have hcount := hwrite.count
          rw [hnext]
          nth_rewrite 1 [← update_self i d' T]
          refine ih (by omega) hwrite.work (by rw [update_self]; exact hwrite.holds)
            ?_ (fun d'' s'' happ hfit => ?_) fun hfits => hE fun hfits' => hfits ?_
          · rw [hlen]
            simp only [bsize] at *
            omega
          · rw [List.append_assoc, List.take_append_drop] at happ
            rw [htotal] at hfit ⊢
            exact hQ d'' s'' (hwrite.trans happ) hfit
          · rw [htotal]
            exact ⟨hfits'.1, by have := hfits'.2; omega⟩
        · rw [hnb] at hfull
          have hfail := hE (not_fits (by omega) hfull)
          refine ⟨hfail _, fun d' x s' hlen hsec => ?_⟩
          show wp (rsect _ >>= _) _ _ _
          rw [wp_bind]
          refine wp_rsect (fun hlt => ?_) fun _ => hfail _
          rw [hlen, hsec] at hlt
          exact absurd hlt (lt_irrefl _)
      · next hfbn =>
        refine hE (fun hfits => ?_) _
        have := hfits.1
        simp only [bsize] at *
        omega
    · next hpos =>
      obtain rfl : p = [] := List.eq_nil_of_length_eq_zero (by omega)
      exact hQ (T i) s (by rw [List.append_nil]; exact .refl h hold) (by simpa using hmax)

end Laboratorio.Xv6.Mkfs
