import Laboratorio.Xv6.ReadWrite

/-!
# The buffers that a call needs

`protocol` says what the calls do with buffers and with the log, from the point of view of the process
that makes the call: it holds two buffers at most, and it does not clear the header of the log before
the blocks in it have been written. Every function behind `read` and `write` obeys it, whatever the
blocks contain (`keeps_prog`).
-/

namespace Laboratorio.Xv6.ReadWrite

open Laboratorio.Bytes Laboratorio.Resumption

variable {n : Nat}

/-! ## The protocol -/

/-- What a process does with the log. When it commits the header `lh`, the blocks `pending` can have
dirty buffers still. -/
inductive Mode where
  | outside
  | inOp
  | committing (lh pending : List UInt32)

def Mode.isInOp : Mode → Bool
  | .inOp => true
  | _ => false

/-- Block `b` has been written. -/
def Mode.written (b : Nat) : Mode → Mode
  | .committing lh pending => .committing lh (pending.filter (· ≠ UInt32.ofNat b))
  | mode => mode

/-- The buffers that a process holds, with their blocks, and what it does with the log. -/
structure View (n : Nat) where
  held : List (Fin n × Nat)
  mode : Mode

/-- A process that is not in a call. -/
def View.quiet : View n := ⟨[], .outside⟩

/-- The operations that are not about buffers or transactions. `log_write` is one: its buffer is dirty
then, and its block is in the header. -/
def Op.plain : Op n → Bool
  | .logWrite _ _ | .acquiresleep _ | .iunlock _ | .inode _ | .setCopy _ _ | .file _ | .setOff _ _ =>
    true
  | _ => false

/-- **The protocol** of the calls: two buffers at most, `bwrite` in a commit only, and all blocks of
the header are written before the header is cleared. -/
def protocol (n : Nat) : Protocol (Op n) Op.Res (View n) where
  pre o v :=
    match o with
    | .bread _ => v.held.length ≤ 1
    | .bwrite bp _ => (∃ b, (bp, b) ∈ v.held) ∧ ∃ lh pending, v.mode = .committing lh pending
    | .brelse bp => ∃ b, (bp, b) ∈ v.held
    | .beginOp => v.mode = .outside
    | .endOp => v.mode = .inOp
    | .clearHeader => ∃ lh, v.mode = .committing lh []
    | .committed => ∃ lh pending, v.mode = .committing lh pending
    | _ => True
  post o v r v' :=
    match o, r with
    | .bread b, r => (∀ b', (r.1, b') ∉ v.held) ∧ v' = { v with held := (r.1, b) :: v.held }
    | .bwrite bp _, _ => ∃ b, (bp, b) ∈ v.held ∧ v' = { v with mode := v.mode.written b }
    | .brelse bp, _ => v' = { v with held := v.held.filter (·.1 ≠ bp) }
    | .beginOp, _ => v' = { v with mode := .inOp }
    | .endOp, true => ∃ lh, v' = { v with mode := .committing lh lh }
    | .endOp, false => v' = { v with mode := .outside }
    | .header, r => v' = v ∧ ∀ lh pending, v.mode = .committing lh pending → r = lh
    | .clearHeader, _ => v' = { v with mode := .committing [] [] }
    | .committed, _ => v' = { v with mode := .outside }
    | _, _ => v' = v

/-! ## The calls obey it -/

section Obeys

variable {c : Config} {v : View n} {α : Type} {Q : Unit → View n → Prop} {i : Fin n} {b : Nat}
  {held : List (Fin n × Nat)}

/-- A function that leaves the view as it is. -/
abbrev Keeps (v : View n) (m : K n α) : Prop :=
  ∀ Q : α → View n → Prop, (∀ a, Q a v) → Obeys (protocol n) Q m v

theorem held_release (h : ∀ b', (i, b') ∉ held) : ((i, b) :: held).filter (·.1 ≠ i) = held := by
  rw [List.filter_cons_of_neg (by simp), List.filter_eq_self]
  intro x hx
  have : x.1 ≠ i := by
    rintro rfl
    exact h x.2 hx
  simpa using this

theorem held_filter_second {j : Fin n} {b' : Nat} (h : i ≠ j) :
    [(i, b), (j, b')].filter (·.1 ≠ j) = [(i, b)] := by
  simp [h]

theorem obeys_bread {Q : Fin n × Blk → View n → Prop} (h : v.held.length ≤ 1)
    (hQ : ∀ i data, (∀ b', (i, b') ∉ v.held) → Q (i, data) { v with held := (i, b) :: v.held }) :
    Obeys (protocol n) Q (bread b) v := by
  refine ⟨h, ?_⟩
  rintro ⟨i, data⟩ v' ⟨hi, rfl⟩
  exact hQ i data hi

theorem obeys_brelse_mem {mode : Mode} (hi : ∃ b, (i, b) ∈ held)
    (hQ : Q () ⟨held.filter (·.1 ≠ i), mode⟩) :
    Obeys (protocol n) Q (brelse i) ⟨held, mode⟩ := by
  refine ⟨hi, ?_⟩
  rintro r v' rfl
  exact hQ

theorem obeys_brelse {mode : Mode} (hi : ∀ b', (i, b') ∉ held) (hQ : Q () ⟨held, mode⟩) :
    Obeys (protocol n) Q (brelse i) ⟨(i, b) :: held, mode⟩ := by
  refine obeys_brelse_mem ⟨b, List.mem_cons_self⟩ ?_
  rw [held_release hi]
  exact hQ

theorem keeps_panic (e : Fault) : Keeps v (panic e : K n α) := fun _ _ => ⟨trivial, nofun⟩

theorem keeps_plain {o : Op n} (ho : o.plain = true) : Keeps v (perform o : K n o.Res) := by
  intro Q hQ
  cases o with
  | bread | bwrite | brelse | beginOp | endOp | header | clearHeader | committed | panic => cases ho
  | logWrite | acquiresleep | iunlock | inode | setCopy | file | setOff =>
    refine ⟨trivial, ?_⟩
    rintro r v' rfl
    exact hQ r

theorem keeps_logWrite (bp : Fin n) (data : Blk) : Keeps v (logWrite bp data) :=
  keeps_plain (o := .logWrite bp data) rfl

theorem keeps_acquiresleep (ip : Fin ninode) : Keeps v (acquiresleep ip : K n Unit) :=
  keeps_plain (o := .acquiresleep ip) rfl

theorem keeps_iunlock (ip : Fin ninode) : Keeps v (iunlock ip : K n Unit) :=
  keeps_plain (o := .iunlock ip) rfl

theorem keeps_inode (ip : Fin ninode) : Keeps v (inode ip) := keeps_plain (o := .inode ip) rfl

theorem keeps_setCopy (ip : Fin ninode) (d : Dinode) : Keeps v (setCopy ip d : K n Unit) :=
  keeps_plain (o := .setCopy ip d) rfl

theorem keeps_file (f : Fin nfile) : Keeps v (file f) := keeps_plain (o := .file f) rfl

theorem keeps_setOff (f : Fin nfile) (off : UInt32) : Keeps v (setOff f off : K n Unit) :=
  keeps_plain (o := .setOff f off) rfl

theorem keeps_bzero (h : v.held.length ≤ 1) (bno : Nat) : Keeps v (bzero bno) := by
  intro Q hQ
  rw [bzero, obeys_bind]
  refine obeys_bread h fun bp _ hbp => ?_
  rw [obeys_bind]
  refine keeps_logWrite _ _ _ fun _ => ?_
  exact obeys_brelse hbp (hQ ())

theorem keeps_ballocFrom (h : v.held.length ≤ 1) (m b : Nat) : Keeps v (ballocFrom c m b) := by
  induction m generalizing b with
  | zero => exact keeps_panic _
  | succ m ih =>
    intro Q hQ
    rw [ballocFrom, obeys_bind]
    refine obeys_bread h fun bp data hbp => ?_
    dsimp only
    split
    · rw [obeys_bind]
      refine keeps_logWrite _ _ _ fun _ => ?_
      rw [obeys_bind]
      refine obeys_brelse hbp ?_
      rw [obeys_bind]
      exact keeps_bzero h _ _ fun _ => hQ _
    · rw [obeys_bind]
      exact obeys_brelse hbp (ih _ Q hQ)

theorem keeps_balloc (h : v.held.length ≤ 1) : Keeps v (balloc c) := keeps_ballocFrom h _ _

theorem keeps_iupdate (h : v.held.length ≤ 1) (ip : Fin ninode) : Keeps v (iupdate c ip) := by
  intro Q hQ
  rw [iupdate, obeys_bind]
  refine keeps_inode _ _ fun x => ?_
  rw [obeys_bind]
  refine obeys_bread h fun bp data hbp => ?_
  rw [obeys_bind]
  refine keeps_logWrite _ _ _ fun _ => ?_
  exact obeys_brelse hbp (hQ ())

theorem keeps_ilock (h : v.held.length ≤ 1) (ip : Fin ninode) : Keeps v (ilock c ip) := by
  intro Q hQ
  rw [ilock, obeys_bind]
  refine keeps_inode _ _ fun x => ?_
  split
  · exact keeps_panic _ _ fun a => hQ a
  · rw [obeys_bind]
    refine keeps_acquiresleep _ _ fun _ => ?_
    rw [obeys_bind]
    refine keeps_inode _ _ fun x => ?_
    split
    · rw [obeys_bind]
      refine obeys_bread h fun bp data hbp => ?_
      rw [obeys_bind]
      refine keeps_setCopy _ _ _ fun _ => ?_
      rw [obeys_bind]
      refine obeys_brelse hbp ?_
      split
      · exact keeps_panic _ _ fun a => hQ a
      · exact hQ ()
    · exact hQ ()

theorem keeps_indirect (h : v.held.length ≤ 1) (ip : Fin ninode) : Keeps v (indirect c ip) := by
  intro Q hQ
  rw [indirect, obeys_bind]
  refine keeps_inode _ _ fun x => ?_
  split
  · rw [obeys_bind]
    refine keeps_balloc h _ fun addr => ?_
    rw [obeys_bind]
    exact keeps_setCopy _ _ _ fun _ => hQ _
  · exact hQ _

/-- The only function that needs a second buffer: for the block it allocates. -/
theorem keeps_bmap (h : v.held = []) (ip : Fin ninode) (bn : Nat) : Keeps v (bmap c ip bn) := by
  intro Q hQ
  have h1 : v.held.length ≤ 1 := by simp [h]
  rw [bmap, obeys_bind]
  refine keeps_inode _ _ fun x => ?_
  split
  · split
    · rw [obeys_bind]
      refine keeps_balloc h1 _ fun addr => ?_
      rw [obeys_bind]
      exact keeps_setCopy _ _ _ fun _ => hQ _
    · exact hQ _
  · split
    · rw [obeys_bind]
      refine keeps_indirect h1 _ _ fun ind => ?_
      rw [obeys_bind]
      refine obeys_bread h1 fun bp data hbp => ?_
      dsimp only
      split
      · rw [obeys_bind]
        refine keeps_balloc (by simp [h]) _ fun addr => ?_
        rw [obeys_bind]
        refine keeps_logWrite _ _ _ fun _ => ?_
        rw [obeys_bind]
        exact obeys_brelse hbp (hQ _)
      · rw [obeys_bind]
        exact obeys_brelse hbp (hQ _)
    · exact keeps_panic _ _ fun a => hQ a

theorem keeps_readFrom (h : v.held = []) (ip : Fin ninode) (m fuel tot off : Nat) :
    Keeps v (readFrom c ip m fuel tot off) := by
  induction fuel generalizing tot off with
  | zero => exact fun Q hQ => hQ _
  | succ fuel ih =>
    intro Q hQ
    rw [readFrom]
    split
    · rw [obeys_bind]
      refine keeps_bmap h _ _ _ fun b => ?_
      rw [obeys_bind]
      refine obeys_bread (by simp [h]) fun bp data hbp => ?_
      rw [obeys_bind]
      refine obeys_brelse hbp ?_
      rw [obeys_bind]
      exact ih _ _ _ fun rest => hQ _
    · exact hQ _

theorem keeps_readi (h : v.held = []) (ip : Fin ninode) (off m : UInt32) :
    Keeps v (readi c ip off m) := by
  intro Q hQ
  rw [readi, obeys_bind]
  refine keeps_inode _ _ fun x => ?_
  split
  · split
    · exact hQ _
    · split
      · exact hQ _
      · exact hQ _
  · split
    · exact hQ _
    · rw [obeys_bind]
      exact keeps_readFrom h _ _ _ _ _ _ fun data => hQ _

theorem keeps_writeFrom (h : v.held = []) (ip : Fin ninode) (src : Nat → UInt8)
    (m fuel tot off : Nat) : Keeps v (writeFrom c ip src m fuel tot off) := by
  induction fuel generalizing tot off with
  | zero => exact fun Q hQ => hQ _
  | succ fuel ih =>
    intro Q hQ
    rw [writeFrom]
    split
    · rw [obeys_bind]
      refine keeps_bmap h _ _ _ fun b => ?_
      rw [obeys_bind]
      refine obeys_bread (by simp [h]) fun bp data hbp => ?_
      rw [obeys_bind]
      refine keeps_logWrite _ _ _ fun _ => ?_
      rw [obeys_bind]
      exact obeys_brelse hbp (ih _ _ Q hQ)
    · exact hQ _

theorem keeps_growTo (h : v.held = []) (ip : Fin ninode) (m : UInt32) (off : Nat) :
    Keeps v (growTo c ip m off) := by
  intro Q hQ
  rw [growTo, obeys_bind]
  refine keeps_inode _ _ fun x => ?_
  split
  · rw [obeys_bind]
    refine keeps_setCopy _ _ _ fun _ => ?_
    exact keeps_iupdate (by simp [h]) _ _ hQ
  · exact hQ ()

theorem keeps_writei (h : v.held = []) (ip : Fin ninode) (src : Nat → UInt8) (off m : UInt32) :
    Keeps v (writei c ip src off m) := by
  intro Q hQ
  rw [writei, obeys_bind]
  refine keeps_inode _ _ fun x => ?_
  split
  · split
    · exact hQ _
    · split
      · exact hQ _
      · exact hQ _
  · split
    · exact hQ _
    · split
      · exact hQ _
      · rw [obeys_bind]
        refine keeps_writeFrom h _ _ _ _ _ _ _ fun off' => ?_
        rw [obeys_bind]
        exact keeps_growTo h _ _ _ _ fun _ => hQ _

theorem keeps_advance (f : Fin nfile) (off : UInt32) (r : Int) : Keeps v (advance f off r) := by
  intro Q hQ
  rw [advance]
  split
  · exact keeps_setOff _ _ _ hQ
  · exact hQ ()

theorem keeps_fileread (h : v.held = []) (f : Fin nfile) (m : UInt32) :
    Keeps v (fileread c f m) := by
  intro Q hQ
  rw [fileread, obeys_bind]
  refine keeps_file _ _ fun x => ?_
  split
  · exact hQ _
  · split
    · exact hQ _
    · rw [obeys_bind]
      refine keeps_ilock (by simp [h]) _ _ fun _ => ?_
      rw [obeys_bind]
      refine keeps_file _ _ fun x => ?_
      rw [obeys_bind]
      refine keeps_readi h _ _ _ _ fun r => ?_
      rw [obeys_bind]
      refine keeps_advance _ _ _ _ fun _ => ?_
      rw [obeys_bind]
      exact keeps_iunlock _ _ fun _ => hQ _
    · exact keeps_panic _ _ fun a => hQ a

/-! In a commit. -/

variable {lh pending : List UInt32}

theorem obeys_bwrite {data : Blk} (hi : (i, b) ∈ held) (hone : ∀ b', (i, b') ∈ held → b' = b)
    (hQ : Q () ⟨held, .committing lh (pending.filter (· ≠ UInt32.ofNat b))⟩) :
    Obeys (protocol n) Q (bwrite i data) ⟨held, .committing lh pending⟩ := by
  refine ⟨⟨⟨b, hi⟩, lh, pending, rfl⟩, ?_⟩
  rintro r v' ⟨b', hb', rfl⟩
  rw [hone b' hb']
  exact hQ

theorem obeys_header {Q : List UInt32 → View n → Prop} (hQ : Q lh ⟨held, .committing lh pending⟩) :
    Obeys (protocol n) Q header ⟨held, .committing lh pending⟩ := by
  refine ⟨trivial, ?_⟩
  rintro r v' ⟨rfl, hr⟩
  rw [hr lh pending rfl]
  exact hQ

/-- Two buffers that are held, and the second one is written. -/
theorem two_held {j : Fin n} {b' : Nat} (h : ∀ a, (i, a) ∉ [(j, b')]) :
    i ≠ j ∧ ∀ a, (j, a) ∈ [(i, b), (j, b')] → a = b' := by
  have hne : i ≠ j := by
    rintro rfl
    exact h b' List.mem_cons_self
  refine ⟨hne, fun a ha => ?_⟩
  simpa [Ne.symm hne] using ha

/-- `write_log` leaves no more blocks pending than before. -/
theorem obeys_writeLog (bs : List UInt32) (tail : Nat)
    (hQ : ∀ pending', pending' ⊆ pending → Q () ⟨[], .committing lh pending'⟩) :
    Obeys (protocol n) Q (writeLog c tail bs) ⟨[], .committing lh pending⟩ := by
  induction bs generalizing tail pending with
  | nil => exact hQ pending (List.Subset.refl _)
  | cons b bs ih =>
    rw [writeLog, obeys_bind]
    refine obeys_bread (Nat.zero_le _) fun tobuf _ hto => ?_
    rw [obeys_bind]
    refine obeys_bread (Nat.le_refl _) fun frm data hfrm => ?_
    rw [obeys_bind]
    refine obeys_bwrite (by simp) (two_held hfrm).2 ?_
    rw [obeys_bind]
    refine obeys_brelse hfrm ?_
    rw [obeys_bind]
    refine obeys_brelse hto (ih _ fun pending' hsub => hQ pending' ?_)
    exact List.Subset.trans hsub (List.filter_subset_self _)

/-- `install_trans` writes all the blocks it is given. -/
theorem obeys_installTrans (bs : List UInt32) (tail : Nat)
    (hQ : ∀ pending', (∀ b ∈ pending', b ∈ pending ∧ b ∉ bs) → Q () ⟨[], .committing lh pending'⟩) :
    Obeys (protocol n) Q (installTrans c tail bs) ⟨[], .committing lh pending⟩ := by
  induction bs generalizing tail pending with
  | nil => exact hQ pending fun b hb => ⟨hb, List.not_mem_nil⟩
  | cons b bs ih =>
    rw [installTrans, obeys_bind]
    refine obeys_bread (Nat.zero_le _) fun lbuf data hl => ?_
    rw [obeys_bind]
    refine obeys_bread (Nat.le_refl _) fun dbuf _ hd => ?_
    have hne : dbuf ≠ lbuf := (two_held (b := 0) hd).1
    rw [obeys_bind]
    refine obeys_bwrite List.mem_cons_self (fun b' hb' => ?_) ?_
    · simpa [hne] using hb'
    rw [obeys_bind]
    refine obeys_brelse_mem ⟨_, List.mem_cons_of_mem _ List.mem_cons_self⟩ ?_
    rw [obeys_bind, held_filter_second hne]
    refine obeys_brelse (fun _ => List.not_mem_nil) (ih _ fun pending' hsub => hQ pending' ?_)
    intro b' hb'
    obtain ⟨hmem, hbs⟩ := hsub b' hb'
    obtain ⟨hp, hb⟩ := List.mem_filter.mp hmem
    refine ⟨hp, ?_⟩
    simp only [UInt32.ofNat_toNat, ne_eq, decide_not, Bool.not_eq_true', decide_eq_false_iff_not] at hb
    simp [hb, hbs]

theorem obeys_writeHead (hQ : ∀ pending', pending' ⊆ pending → Q () ⟨[], .committing lh pending'⟩) :
    Obeys (protocol n) Q (writeHead c) ⟨[], .committing lh pending⟩ := by
  rw [writeHead, obeys_bind]
  refine obeys_bread (Nat.zero_le _) fun buf data hbuf => ?_
  rw [obeys_bind]
  refine obeys_header ?_
  rw [obeys_bind]
  refine obeys_bwrite List.mem_cons_self (fun b' hb' => ?_) ?_
  · simpa using hb'
  · exact obeys_brelse hbuf (hQ _ (List.filter_subset_self _))

/-- **`commit`** has no block pending at the end. -/
theorem obeys_commit (hQ : ∀ lh', Q () ⟨[], .committing lh' []⟩) :
    Obeys (protocol n) Q (commit c) ⟨[], .committing lh lh⟩ := by
  rw [commit, obeys_bind]
  refine obeys_header ?_
  split
  · rw [obeys_bind]
    refine obeys_writeLog _ _ fun p₁ h₁ => ?_
    rw [obeys_bind]
    refine obeys_writeHead fun p₂ h₂ => ?_
    rw [obeys_bind]
    refine obeys_installTrans _ _ fun p₃ h₃ => ?_
    have hnil : p₃ = [] := List.eq_nil_iff_forall_not_mem.mpr fun b hb =>
      (h₃ b hb).2 (h₁ (h₂ (h₃ b hb).1))
    rw [obeys_bind, hnil]
    refine ⟨⟨lh, rfl⟩, ?_⟩
    rintro r v' rfl
    refine obeys_writeHead fun p₄ h₄ => ?_
    rw [List.subset_nil.mp h₄]
    exact hQ []
  · next hlen =>
    have hnil : lh = [] := List.length_eq_zero_iff.mp (by omega)
    rw [hnil]
    exact hQ []

theorem obeys_beginOp (hQ : Q () ⟨[], .inOp⟩) :
    Obeys (protocol n) Q beginOp .quiet := by
  refine ⟨rfl, ?_⟩
  rintro r v' rfl
  exact hQ

theorem obeys_endOp (hQ : Q () .quiet) :
    Obeys (protocol n) Q (endOp c) ⟨[], .inOp⟩ := by
  rw [endOp, obeys_bind]
  refine ⟨rfl, ?_⟩
  intro doCommit v' hv'
  cases doCommit with
  | true =>
    obtain ⟨lh, rfl⟩ := hv'
    show Obeys _ _ (commit c >>= fun _ => committed) _
    rw [obeys_bind]
    refine obeys_commit fun lh' => ⟨⟨lh', [], rfl⟩, ?_⟩
    rintro r v' rfl
    exact hQ
  | false =>
    cases hv'
    exact hQ

theorem keeps_writeChunk (f : Fin nfile) (src : Nat → UInt8) (n1 : Nat) :
    Keeps (.quiet : View n) (writeChunk c f src n1) := by
  intro Q hQ
  rw [writeChunk, obeys_bind]
  refine obeys_beginOp ?_
  rw [obeys_bind]
  refine keeps_file _ _ fun x => ?_
  rw [obeys_bind]
  refine keeps_ilock (Nat.zero_le _) _ _ fun _ => ?_
  rw [obeys_bind]
  refine keeps_file _ _ fun x => ?_
  rw [obeys_bind]
  refine keeps_writei rfl _ _ _ _ _ fun r => ?_
  rw [obeys_bind]
  refine keeps_advance _ _ _ _ fun _ => ?_
  rw [obeys_bind]
  refine keeps_iunlock _ _ fun _ => ?_
  rw [obeys_bind]
  exact obeys_endOp (hQ _)

theorem keeps_filewriteFrom (f : Fin nfile) (src : Nat → UInt8) (m fuel i : Nat) :
    Keeps (.quiet : View n) (filewriteFrom c f src m fuel i) := by
  induction fuel generalizing i with
  | zero => exact fun Q hQ => hQ _
  | succ fuel ih =>
    intro Q hQ
    rw [filewriteFrom]
    split
    · rw [obeys_bind]
      refine keeps_writeChunk _ _ _ _ fun r => ?_
      split
      · exact hQ _
      · split
        · exact keeps_panic _ _ fun a => hQ a
        · exact ih _ Q hQ
    · exact hQ _

theorem keeps_filewrite (f : Fin nfile) (src : Nat → UInt8) (m : Nat) :
    Keeps (.quiet : View n) (filewrite c f src m) := by
  intro Q hQ
  rw [filewrite, obeys_bind]
  refine keeps_file _ _ fun x => ?_
  split
  · exact hQ _
  · split
    · exact hQ _
    · rw [obeys_bind]
      exact keeps_filewriteFrom _ _ _ _ _ _ fun i => hQ _
    · exact keeps_panic _ _ fun a => hQ a

/-- **Every call obeys the protocol**, and holds nothing at its end. -/
theorem keeps_prog (a : Call) : Keeps (.quiet : View n) (a.prog c) := by
  cases a with
  | read f m => exact keeps_fileread rfl f m
  | write f src m => exact keeps_filewrite f src m

end Obeys

end Laboratorio.Xv6.ReadWrite
