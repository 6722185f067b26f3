import Laboratorio.Lib.Count
import Laboratorio.Lib.Interleave
import Laboratorio.Lib.Reach
import Laboratorio.Xv6.Ops
import Laboratorio.Xv6.Sysfile

/-!
# Several writers of one open file

Processes that have got the same `struct file` from `fork` or `dup` call `filewrite` on it. The offset
is in the `struct file`, and what protects it is the lock of the inode: a process can lose the
processor everywhere, but from `ilock` to `iunlock` no other one gets at the offset or at the file. So
a step of a process is what it does from one point without the lock to the next: `begin_op`, the
part with the lock (`writeLocked`), `end_op` with the rest of the loop, and the entry and the return
of `filewrite`.

The history of a run has the pieces that have been written, with the process of each. `Inv` says that
the file consists of them, one after another, and that the part of each process is what it has
written of its calls so far.
-/

namespace Laboratorio.Xv6

@[simp]
theorem wp_file {f : Fin nfile} {s : St} {E : Fault → Prop} {Q : File → St → Prop} :
    Wp.wp (file f) Q E s ↔ Q (s.ftable f) s := Iff.rfl

end Laboratorio.Xv6

namespace Laboratorio.Xv6.Shared

open Function
open Laboratorio.Bytes Laboratorio.Wp Laboratorio.Count Laboratorio.Reach Laboratorio.Interleave

/-! ## Writers -/

/-- Where a process is in `filewrite`: not there, at the head of the loop with `i` bytes written,
after `begin_op`, or after `iunlock` with the result `r` of `writei`. -/
inductive Pc where
  | idle
  | top (i : Nat)
  | begun (i : Nat)
  | written (i : Nat) (r : Int)
deriving DecidableEq

/-- The process is between `begin_op` and `end_op`. -/
def Pc.inOp : Pc → Bool
  | .idle | .top _ => false
  | .begun _ | .written _ _ => true

/-- A process with the calls it has still to make, the bytes of the current one, and what its calls
have returned. -/
structure Writer where
  calls : List (List UInt8)
  addr : List UInt8
  pc : Pc
  ret : List Int

/-- `filewrite` returns `r`. -/
def Writer.return (w : Writer) (r : Int) : Writer := { w with pc := .idle, ret := w.ret ++ [r] }

/-- The end of `filewrite`, with `i` bytes written. -/
def Writer.finish (w : Writer) (i : Nat) : Writer :=
  w.return (if i = w.addr.length then w.addr.length else -1)

/-- `n1` -/
def Writer.size (w : Writer) (i : Nat) : Nat := min (w.addr.length - i) maxWrite

variable (c : Config) (f : Fin nfile)

/-- The part of `filewrite` from `ilock` to `iunlock`. -/
def writeLocked (src : Nat → UInt8) (n1 : Nat) : M Int := do
  let x ← file f
  ilock c x.ip
  let r ← writei c x.ip src x.off (UInt32.ofNat n1)
  advance f r
  iunlock x.ip
  return r

/-- It is what `filewrite` does between `begin_op` and `end_op`. -/
theorem writeChunk_eq (src : Nat → UInt8) (n1 : Nat) :
    writeChunk c f src n1 = do
      beginOp
      let r ← writeLocked c f src n1
      endOp c
      return r := by
  simp only [writeChunk, writeLocked, bind_assoc, pure_bind]

/-- What a process does next. -/
def Writer.act (w : Writer) : Option (M Writer) :=
  match w.pc with
  | .idle =>
    match w.calls with
    | [] => none
    | addr :: calls => some do
        let x ← file f
        let w := { w with calls := calls, addr := addr }
        if x.writable = false then return w.return (-1)
        else match x.type with
          | .pipe => return w.return (c.pipewrite (UInt32.ofNat addr.length))
          | .inode => return { w with pc := .top 0 }
          | .none => throw .filewrite
  | .top i => some do
      if i < w.addr.length then
        beginOp
        return { w with pc := .begun i }
      else return w.finish i
  | .begun i => some do
      let r ← writeLocked c f (fun j => w.addr.getD (i + j) 0) (w.size i)
      return { w with pc := .written i r }
  | .written i r => some do
      endOp c
      if r < 0 then return w.finish i
      else if r ≠ w.size i then throw .shortFilewrite
      else return { w with pc := .top (i + w.size i) }

/-- The file system and the processes. -/
structure Sys where
  st : St
  writer : Fin nproc → Writer

/-- Before the first call. -/
def Sys.start (st : St) (calls : Fin nproc → List (List UInt8)) : Sys where
  st := st
  writer p := ⟨calls p, [], .idle, []⟩

/-- A step of process `p`: the result of a panic, or of a `sleep`, is an error. -/
def step (s : Sys) (p : Fin nproc) : Option (Except Fault Sys) :=
  ((s.writer p).act c f).map fun m =>
    (m { s.st with myproc := p }).map fun r => ⟨r.2, update s.writer p r.1⟩

def Step (s s' : Sys) : Prop := ∃ p, step c f s p = some (.ok s')

/-! ## The rules -/

variable {c f} {k : Fin ninode} {i : Nat} {s : St} {a : Abs} {data : List UInt8} {E : Fault → Prop}

/-- `begin_op`: it sleeps only if somebody else is in a transaction. -/
theorem rep_beginOp (h : Rep c s a) (hc : a.committing = false) :
    wp beginOp (fun _ s' => Rep c s' { a with outstanding := a.outstanding + 1 })
      (fun e => e = .logSleep ∧ 0 < a.outstanding) s := by
  obtain rfl := h.abs
  have hcom : s.committing = false := hc
  unfold beginOp
  simp only [wp_bind, wp_get]
  split
  next hfull =>
    refine ⟨rfl, Nat.pos_of_ne_zero fun h0 => ?_⟩
    replace h0 : s.outstanding = 0 := h0
    rw [hcom, h.core.idle h0, h0] at hfull
    simp [maxopblocks, logsize] at hfull
  · exact ⟨{ h.core with idle := fun h0 => absurd h0 (Nat.succ_ne_zero _) }, rfl⟩

/-- `end_op`: the last transaction commits. -/
theorem rep_endOp (hok : c.sb.Ok) (h : Rep c s a) (hc : a.committing = false)
    (hrun : 0 < a.outstanding) :
    wp (endOp c) (fun _ s' => Rep c s' { a with outstanding := a.outstanding - 1 }) E s := by
  by_cases h1 : a.outstanding = 1
  · refine Xv6.wp_endOp hok h h1 hc fun s' h' _ => ?_
    rw [h1]
    exact h'
  · obtain rfl := h.abs
    have hcom : s.committing = false := hc
    replace h1 : s.outstanding ≠ 1 := h1
    replace hrun : 0 < s.outstanding := hrun
    unfold endOp
    simp only [wp_bind, wp_get]
    rw [if_neg (by simp [hcom]), if_neg (by omega)]
    exact ⟨{ h.core with idle := fun h0 => absurd (show s.outstanding - 1 = 0 from h0) (by omega) },
      rfl⟩

variable (c f k i) in
/-- The open file, between two steps. -/
structure Open (a : Abs) (data : List UInt8) : Prop where
  type : (a.ftable f).type = .inode
  writable : (a.ftable f).writable = true
  ip : (a.ftable f).ip = k
  off : (a.ftable f).off.toNat = data.length
  ref : 0 < (a.slot k).ref
  inum : (a.slot k).inum = i
  lock : (a.slot k).lock = none
  file : (a.node i).type = tFile
  data : (a.node i).data = data
  committing : a.committing = false

theorem Rep.setMyproc (h : Rep c s a) (p : Fin nproc) :
    Rep c { s with myproc := p } { a with myproc := p } := by
  obtain rfl := h.abs
  exact ⟨{ h.core with }, rfl⟩

theorem Rep.setFile (h : Rep c s a) (x : File) :
    Rep c { s with ftable := update s.ftable f x } { a with ftable := update a.ftable f x } := by
  obtain rfl := h.abs
  exact ⟨{ h.core with }, rfl⟩

/-- Bytes that are written at the end of a file. -/
theorem writeData_end (data bytes : List UInt8) : writeData data data.length bytes = data ++ bytes := by
  simp [writeData]

theorem Open.append (ho : Open f k i a data) {a' : Abs} {bytes : List UInt8} {n1 : Nat}
    (hroom : data.length + n1 ≤ maxfile * bsize) (hlen : bytes.length = n1)
    (hfile : a'.ftable f = { a.ftable f with off := (a.ftable f).off + UInt32.ofNat n1 })
    (hslot : a'.slot k = { a.slot k with valid := true })
    (hnode : a'.node i = { a.node i with data := data ++ bytes })
    (hcommitting : a'.committing = a.committing) : Open f k i a' (data ++ bytes) := by
  have hmax : maxfile * bsize < 2 ^ 32 := by decide
  refine ⟨?_, ?_, ?_, ?_, ?_, ?_, ?_, ?_, ?_, hcommitting.trans ho.committing⟩
  · rw [hfile]
    exact ho.type
  · rw [hfile]
    exact ho.writable
  · rw [hfile]
    exact ho.ip
  · rw [hfile]
    show ((a.ftable f).off + UInt32.ofNat n1).toNat = _
    rw [UInt32.toNat_add, ho.off, UInt32.toNat_ofNat', List.length_append, hlen,
      Nat.mod_eq_of_lt (a := n1) (by omega), Nat.mod_eq_of_lt (by omega)]
  · rw [hslot]
    exact ho.ref
  · rw [hslot]
    exact ho.inum
  · rw [hslot]
    exact ho.lock
  · rw [hnode]
    exact ho.file
  · rw [hnode]

variable (f k i) in
/-- The file `f` is open on the regular file `i`, whose inode is in entry `k` and not locked. -/
structure Opened (a : Abs) : Prop where
  ip : (a.ftable f).ip = k
  ref : 0 < (a.slot k).ref
  inum : (a.slot k).inum = i
  lock : (a.slot k).lock = none
  file : (a.node i).type = tFile

variable (f k i) in
/-- The file system after a write to `f`: the file has other data, and the offset has moved. -/
def wrote (a : Abs) (off : UInt32) (data : List UInt8) : Abs :=
  { (a.setSlot k fun x => { x with valid := true }).setNode i { a.node i with data := data } with
    ftable := update a.ftable f { a.ftable f with off := off } }

/-- `ilock` and `iunlock` around a change leave the entry valid. -/
theorem unlock_lock (hl : (a.slot k).lock = none) (off : UInt32) (data : List UInt8) :
    Abs.unlock { (a.lock k).setNode i { a.node i with data := data } with
      ftable := update a.ftable f { a.ftable f with off := off } } k = wrote f k i a off data := by
  unfold Abs.unlock Abs.lock wrote Abs.setSlot Abs.setNode
  simp only [update_self, update_idem, hl]

theorem wrote_self (hl : (a.slot k).lock = none) :
    (a.lock k).unlock k = wrote f k i a (a.ftable f).off (a.node i).data := by
  rw [← unlock_lock hl]
  have hnode : (a.lock k).setNode i (a.node i) = a.lock k :=
    congrArg (fun N => { a.lock k with node := N }) (update_eq_self i a.node)
  show _ = Abs.unlock { (a.lock k).setNode i (a.node i) with
    ftable := update a.ftable f (a.ftable f) } k
  rw [hnode, update_eq_self]
  rfl

/-- **The part with the lock**: `writei` at the offset, which moves behind the bytes. -/
theorem wp_writeLocked {P : Finset Place} (hok : c.sb.Ok) (h : Rep c s a) (ho : Opened f k i a)
    (hrun : 0 < a.outstanding) {src : Nat → UInt8} {n1 m : Nat} (hpos : 0 < n1) (hn1 : n1 < 2 ^ 32)
    (hm : (a.ftable f).off.toNat % bsize + n1 ≤ m * bsize)
    (hP : (a.ftable f).off.toNat + n1 ≤ maxfile * bsize → spanned (a.ftable f).off.toNat n1 ⊆ P)
    (hE : ∀ e, e.Exhausted → ¬ (s.Enough c i P ∧ LogRoom c s (6 * m + 1)) → E e)
    {Q : Int → St → Prop}
    (hfail : (a.node i).data.length < (a.ftable f).off.toNat ∨
        maxfile * bsize < (a.ftable f).off.toNat + n1 →
      ∀ s', Rep c s' (wrote f k i a (a.ftable f).off (a.node i).data) → s'.view = s.view → Q (-1) s')
    (hQ : (a.ftable f).off.toNat ≤ (a.node i).data.length →
      (a.ftable f).off.toNat + n1 ≤ maxfile * bsize →
      ∀ s', Rep c s' (wrote f k i a ((a.ftable f).off + UInt32.ofNat n1) (writeData (a.node i).data
        (a.ftable f).off.toNat ((List.range n1).map src))) →
      (s.Enough c i P → s'.Enough c i P) → Q n1 s') :
    wp (writeLocked c f src n1) Q E s := by
  have hn1 : (UInt32.ofNat n1).toNat = n1 := UInt32.toNat_ofNat_of_lt' hn1
  have hfile : s.ftable f = a.ftable f := by
    rw [← h.abs]
    rfl
  unfold writeLocked
  rw [wp_bind, wp_file, hfile, ho.ip, wp_bind]
  refine wp_ilock h ho.ref ho.lock (fun h0 => ?_) fun _ s₁ h₁ hs₁ => ?_
  · rw [ho.inum, ho.file] at h0
    cases h0
  have hview : s₁.view = s.view := (congrArg St.view hs₁).trans rfl
  have hlh : s₁.lh = s.lh := (congrArg St.lh hs₁).trans rfl
  have hslot : (a.lock k).slot k = { a.slot k with lock := some a.myproc, valid := true } := by
    rw [Abs.lock, Abs.slot_setSlot, if_pos rfl]
  have hinum : ((a.lock k).slot k).inum = i := by
    rw [hslot]
    exact ho.inum
  have hnode : (a.lock k).node = a.node := rfl
  have hen : s₁.Enough c i P ↔ s.Enough c i P := by
    unfold St.Enough St.din
    rw [hview]
  have hlog : LogRoom c s (6 * m + 1) → LogRoom c s₁ (6 * m + 1) :=
    fun hl => LogRoom.after (m := 0) (by rwa [Nat.zero_add]) (by rw [hlh]; exact le_rfl)
  have hlocked : ((a.lock k).slot k).lock = some a.myproc := by rw [hslot]
  have href : 0 < ((a.lock k).slot k).ref := by rw [hslot]; exact ho.ref
  have hrest : ∀ {s₂ a₂ r}, Rep c s₂ a₂ → a₂.slot = (a.lock k).slot → a₂.myproc = a.myproc →
      (∀ s', Rep c s' (a₂.unlock k) → s'.view = s₂.view → Q r s') →
      wp (do iunlock k; return r) Q E s₂ := by
    intro s₂ a₂ r h₂ hslots hproc hQ₂
    rw [wp_bind]
    refine wp_iunlock h₂ (by rw [hslots]; exact href) (by rw [hslots, hproc]; exact hlocked)
      fun s₃ h₃ hs₃ => ?_
    exact hQ₂ s₃ h₃ ((congrArg St.view hs₃).trans rfl)
  rw [wp_bind]
  refine wp_writei (P := P) (m := m) hok h₁ hrun href (by rw [hslot]) (by rw [hn1]; exact fun _ => hm)
    (by rw [hn1]; exact hP) (fun e he hn => hE e he fun hst => hn ?_) (fun hdev => ?_)
    (fun hbad => ?_) fun _ hoff hmax s₂ h₂ hen₂ => ?_
  · rw [hinum]
    exact ⟨hen.mpr hst.1, hlog hst.2⟩
  · rw [hinum] at hdev
    exact absurd (ho.file.symm.trans hdev) (by decide)
  · rw [hinum, hn1] at hbad
    rw [advance, if_neg (by decide), pure_bind]
    refine hrest h₁ rfl rfl fun s' h' hv' => hfail hbad s' ?_ (hv'.trans hview)
    rwa [wrote_self ho.lock] at h'
  · rw [hinum, hn1] at h₂
    rw [hinum] at hen₂ hoff
    rw [hn1] at hmax
    have hfile₂ : s₂.ftable f = a.ftable f := (congrArg (fun a => a.ftable f) h₂.abs).trans rfl
    rw [hn1, advance, if_pos (by omega), wp_bind, modifyFile, wp_modify, hfile₂, Int.toNat_natCast]
    refine hrest (Rep.setFile h₂ _) rfl rfl fun s' h' hv' => hQ hoff hmax s' ?_ fun he => ?_
    · rwa [← unlock_lock ho.lock]
    · have := hen₂ (hen.mpr he)
      unfold St.Enough St.din at this ⊢
      rwa [hv']

theorem Open.opened (ho : Open f k i a data) : Opened f k i a :=
  ⟨ho.ip, ho.ref, ho.inum, ho.lock, ho.file⟩

/-- The part with the lock appends to the file. -/
theorem rep_writeLocked (hok : c.sb.Ok) (h : Rep c s a) (ho : Open f k i a data)
    (hrun : 0 < a.outstanding) {src : Nat → UInt8} {n1 : Nat} (hpos : 0 < n1)
    (hroom : data.length + n1 ≤ maxfile * bsize) :
    wp (writeLocked c f src n1) (fun r s' => r = n1 ∧ ∃ a', Rep c s' a' ∧
        Open f k i a' (data ++ (List.range n1).map src) ∧ a'.outstanding = a.outstanding)
      Fault.Exhausted s := by
  have hmax : maxfile * bsize < 2 ^ 32 := by decide
  refine wp_writeLocked (m := n1 + 1) hok h ho.opened hrun hpos (by omega) ?_
    (fun _ => Finset.Subset.rfl) (fun e he _ => he) (fun hbad => ?_) fun _ _ s' h' _ => ?_
  · simp only [bsize]
    omega
  · rw [ho.data, ho.off] at hbad
    omega
  · rw [ho.off, ho.data, writeData_end] at h'
    refine ⟨rfl, _, h', ho.append hroom (by simp) ?_ ?_ ?_ rfl, rfl⟩
    · exact update_self ..
    · exact update_self ..
    · exact update_self ..

/-! ## The invariant -/

/-- The pieces that a process has still to write. -/
def Writer.rest (w : Writer) : List (List UInt8) :=
  (match w.pc with
    | .idle => []
    | .top i | .begun i => chunks maxWrite (w.addr.drop i)
    | .written i _ => chunks maxWrite (w.addr.drop (i + w.size i))) ++
    w.calls.flatMap (chunks maxWrite)

/-- What the calls of a process have still to return. -/
def Writer.due (w : Writer) : List Int :=
  (match w.pc with
    | .idle => []
    | _ => [(w.addr.length : Int)]) ++ w.calls.map fun addr => (addr.length : Int)

/-- The variables of `filewrite`. -/
def Writer.Vars (w : Writer) : Prop :=
  match w.pc with
  | .idle => True
  | .top i => i ≤ w.addr.length
  | .begun i => i < w.addr.length
  | .written i r => i < w.addr.length ∧ r = w.size i

/-- A process that has `calls` to make, and has written the pieces `done` of them. -/
structure Writer.Ok (w : Writer) (calls : List (List UInt8)) (done : List (List UInt8)) : Prop where
  pieces : done ++ w.rest = calls.flatMap (chunks maxWrite)
  returns : w.ret ++ w.due = calls.map fun addr => (addr.length : Int)
  vars : w.Vars

variable (c f k i) in
structure Inv (calls : Fin nproc → List (List UInt8)) (s : Sys)
    (history : List (Fin nproc × List UInt8)) : Prop where
  rep : ∃ a, Rep c s.st a ∧ Open f k i a (history.map Prod.snd).flatten ∧
    a.outstanding = occ (fun p => (s.writer p).pc.inOp) true
  writer : ∀ p, (s.writer p).Ok (calls p) (part history p)

/-! ## Steps -/

section Steps

variable {w : Writer} {calls done : List (List UInt8)} {p : Fin nproc}

/-- The piece that is written next. -/
theorem map_range_size (w : Writer) (i : Nat) :
    (List.range (w.size i)).map (fun j => w.addr.getD (i + j) 0) = (w.addr.drop i).take maxWrite := by
  apply List.ext_getElem
  · simp [Writer.size, Nat.min_comm]
  · intro j h₁ h₂
    simp only [List.getElem_map, List.getElem_range, List.getElem_take, List.getElem_drop]
    rw [List.getD_eq_getElem]

theorem Writer.Ok.start {addr : List UInt8} {todo : List (List UInt8)} (h : w.Ok calls done)
    (hpc : w.pc = .idle) (hcalls : w.calls = addr :: todo) :
    Writer.Ok { w with calls := todo, addr := addr, pc := .top 0 } calls done := by
  refine ⟨?_, ?_, Nat.zero_le _⟩
  · rw [← h.pieces]
    simp [Writer.rest, hpc, hcalls]
  · rw [← h.returns]
    simp [Writer.due, hpc, hcalls]

theorem Writer.Ok.top {i : Nat} (h : w.Ok calls done) (hpc : w.pc = .top i)
    (hi : i < w.addr.length) : Writer.Ok { w with pc := .begun i } calls done := by
  refine ⟨?_, ?_, hi⟩
  · rw [← h.pieces]
    simp [Writer.rest, hpc]
  · rw [← h.returns]
    simp [Writer.due, hpc]

theorem Writer.Ok.finish {i : Nat} (h : w.Ok calls done) (hpc : w.pc = .top i)
    (hi : ¬ i < w.addr.length) : (w.finish i).Ok calls done := by
  have hle : i ≤ w.addr.length := by
    have := h.vars
    rwa [Writer.Vars, hpc] at this
  have heq : i = w.addr.length := by omega
  refine ⟨?_, ?_, trivial⟩
  · rw [← h.pieces]
    simp [Writer.rest, Writer.finish, Writer.return, hpc, heq, chunks_nil]
  · rw [← h.returns]
    simp [Writer.due, Writer.finish, Writer.return, hpc, heq]

theorem Writer.Ok.written {i : Nat} {r : Int} (h : w.Ok calls done) (hpc : w.pc = .written i r) :
    r = w.size i ∧ Writer.Ok { w with pc := .top (i + w.size i) } calls done := by
  have hvars : i < w.addr.length ∧ r = w.size i := by
    have := h.vars
    rwa [Writer.Vars, hpc] at this
  refine ⟨hvars.2, ?_, ?_, ?_⟩
  · rw [← h.pieces]
    simp [Writer.rest, hpc]
  · rw [← h.returns]
    simp [Writer.due, hpc]
  · show i + w.size i ≤ w.addr.length
    unfold Writer.size
    omega

theorem Writer.Ok.begun {i : Nat} (h : w.Ok calls done) (hpc : w.pc = .begun i) :
    Writer.Ok { w with pc := .written i (w.size i) } calls
      (done ++ [(w.addr.drop i).take maxWrite]) := by
  have hi : i < w.addr.length := by
    have := h.vars
    rwa [Writer.Vars, hpc] at this
  have hne : w.addr.drop i ≠ [] := by
    rw [ne_eq, List.drop_eq_nil_iff]
    omega
  have hrest : w.addr.drop (i + w.size i) = (w.addr.drop i).drop maxWrite := by
    rw [List.drop_drop]
    by_cases hle : w.addr.length ≤ i + maxWrite
    · rw [List.drop_eq_nil_of_le hle, List.drop_eq_nil_of_le]
      unfold Writer.size
      omega
    · congr 1
      unfold Writer.size
      omega
  refine ⟨?_, ?_, hi, rfl⟩
  · rw [← h.pieces]
    simp only [Writer.rest, hpc]
    rw [chunks_of_ne (by decide) hne]
    show _ ++ (chunks maxWrite (w.addr.drop (i + w.size i)) ++ _) = _
    rw [hrest]
    simp
  · have := h.returns
    rwa [Writer.due, hpc] at this

end Steps

section Inv

variable {calls : Fin nproc → List (List UInt8)} {s : Sys} {history : List (Fin nproc × List UInt8)}
  {p : Fin nproc}

/-- The bytes that all processes have to write. -/
def total (calls : Fin nproc → List (List UInt8)) : Nat := ∑ p, (calls p).flatten.length

theorem length_flatten_pieces (l : List (List UInt8)) :
    ((l.flatMap (chunks maxWrite)).map List.length).sum = l.flatten.length := by
  induction l with
  | nil => rfl
  | cons addr l ih =>
    rw [List.flatMap_cons, List.map_append, List.sum_append, ih, List.flatten_cons,
      List.length_append, ← List.length_flatten, flatten_chunks (by decide)]

theorem length_history (history : List (Fin nproc × List UInt8)) :
    (history.map Prod.snd).flatten.length = ∑ p, ((part history p).map List.length).sum := by
  rw [sum_part, List.length_flatten, List.map_map]
  rfl

/-- What has been written is a part of everything. -/
theorem length_history_le (h : ∀ p, part history p <+: (calls p).flatMap (chunks maxWrite)) :
    (history.map Prod.snd).flatten.length ≤ total calls := by
  rw [length_history]
  refine Finset.sum_le_sum fun p _ => ?_
  obtain ⟨rest, hrest⟩ := h p
  rw [← length_flatten_pieces, ← hrest, List.map_append, List.sum_append]
  exact Nat.le_add_right _ _

/-- A step of process `p`, that leaves the part of every other process as it is. -/
theorem Inv.move (h : Inv c f k i calls s history) {w : Writer} {st : St} {a : Abs}
    {history' : List (Fin nproc × List UInt8)} (hrep : Rep c st a)
    (hopen : Open f k i a (history'.map Prod.snd).flatten)
    (hout : a.outstanding + (if (s.writer p).pc.inOp = true then 1 else 0) =
      occ (fun q => (s.writer q).pc.inOp) true + if w.pc.inOp = true then 1 else 0)
    (hsame : ∀ q, q ≠ p → part history' q = part history q)
    (hw : w.Ok (calls p) (part history' p)) :
    Inv c f k i calls ⟨st, update s.writer p w⟩ history' := by
  refine ⟨⟨a, hrep, hopen, ?_⟩, fun q => ?_⟩
  · have hupdate : (fun q => (update s.writer p w q).pc.inOp) =
        update (fun q => (s.writer q).pc.inOp) p w.pc.inOp := by
      funext q
      by_cases hq : q = p
      · rw [hq, update_self, update_self]
      · rw [update_of_ne hq, update_of_ne hq]
    have hocc := occ_update (fun q => (s.writer q).pc.inOp) p w.pc.inOp true
    show a.outstanding = occ (fun q => (update s.writer p w q).pc.inOp) true
    rw [hupdate]
    omega
  · show (update s.writer p w q).Ok _ _
    by_cases hq : q = p
    · rw [hq, update_self]
      exact hw
    · rw [update_of_ne hq, hsame q hq]
      exact h.writer q

/-- The errors of a step: the disk or the log is full, or `begin_op` waits for another process. -/
def Stops (s : Sys) (e : Fault) : Prop :=
  e.Exhausted ∨ e = .logSleep ∧ ∃ q, (s.writer q).pc.inOp = true

/-- **One step** of a process. -/
theorem Inv.act (hok : c.sb.Ok) (h : Inv c f k i calls s history)
    (htotal : total calls ≤ maxfile * bsize) {m : M Writer} (hm : (s.writer p).act c f = some m) :
    wp m (fun w st => ∃ history', Inv c f k i calls ⟨st, update s.writer p w⟩ history')
      (Stops s) { s.st with myproc := p } := by
  obtain ⟨a, hrep, hopen, hout⟩ := h.rep
  have hw := h.writer p
  have hrep' := Rep.setMyproc hrep p
  have hopen' : Open f k i { a with myproc := p } (history.map Prod.snd).flatten := { hopen with }
  unfold Writer.act at hm
  split at hm
  next hpc =>
    split at hm
    · cases hm
    next addr todo hcalls =>
      cases hm
      have hfile : s.st.ftable f = a.ftable f := by
        rw [← hrep.abs]
        rfl
      rw [wp_bind, wp_file]
      simp only [hfile, hopen.writable, hopen.type]
      refine ⟨history, h.move hrep' hopen' ?_ (fun _ _ => rfl) (hw.start hpc hcalls)⟩
      simpa [hpc, Pc.inOp] using hout
  next j hpc =>
    cases hm
    split
    next hj =>
      rw [wp_bind]
      refine wp_mono (rep_beginOp hrep' hopen.committing) (fun _ st hst => ?_) fun e he => ?_
      · refine ⟨history, h.move hst { hopen' with } ?_ (fun _ _ => rfl) (hw.top hpc hj)⟩
        simpa [hpc, Pc.inOp] using hout
      · refine .inr ⟨he.1, occ_pos.mp ?_⟩
        rw [← hout]
        exact he.2
    next hj =>
      refine ⟨history, h.move hrep' hopen' ?_ (fun _ _ => rfl) (hw.finish hpc hj)⟩
      simpa [hpc, Pc.inOp, Writer.finish, Writer.return] using hout
  next j hpc =>
    cases hm
    let piece := ((s.writer p).addr.drop j).take maxWrite
    have hw' := hw.begun hpc
    have hj : j < (s.writer p).addr.length := hw'.vars.1
    have hpart : ∀ q, part (history ++ [(p, piece)]) q =
        part history q ++ if p = q then [piece] else [] := fun q => part_concat history p q piece
    -- all that has been written is in the file, and the next piece is within the total
    have hroom : (history.map Prod.snd).flatten.length + (s.writer p).size j ≤ maxfile * bsize := by
      have hle : ((history ++ [(p, piece)]).map Prod.snd).flatten.length ≤ total calls := by
        refine length_history_le fun q => ?_
        rw [hpart]
        by_cases hq : p = q
        · rw [if_pos hq, ← hq]
          exact ⟨_, hw'.pieces⟩
        · rw [if_neg hq, List.append_nil]
          exact ⟨_, (h.writer q).pieces⟩
      have hsize : (s.writer p).size j = piece.length := by
        simp [Writer.size, piece, Nat.min_comm]
      rw [hsize]
      simp only [List.map_append, List.flatten_append, List.length_append] at hle
      simp only [List.map_cons, List.map_nil, List.flatten_cons, List.flatten_nil,
        List.append_nil] at hle
      omega
    have hin : (s.writer p).pc.inOp = true := by
      rw [hpc]
      rfl
    have hrun : 0 < a.outstanding := by
      rw [hout, occ_pos]
      exact ⟨p, hin⟩
    have hpos : 0 < (s.writer p).size j := Nat.lt_min.mpr ⟨by omega, by decide⟩
    rw [wp_bind]
    refine wp_mono (rep_writeLocked hok hrep' hopen' hrun hpos hroom) ?_ fun e he => .inl he
    rintro r st ⟨rfl, a', hrep₁, hopen₁, hout₁⟩
    rw [map_range_size] at hopen₁
    refine ⟨history ++ [(p, piece)], h.move hrep₁ ?_ ?_ (fun q hq => ?_) ?_⟩
    · rw [List.map_append, List.flatten_append]
      simpa [piece] using hopen₁
    · rw [hout₁]
      simpa [hpc, Pc.inOp] using hout
    · rw [hpart, if_neg (Ne.symm hq), List.append_nil]
    · rw [hpart, if_pos rfl]
      exact hw'
  next j r hpc =>
    cases hm
    obtain ⟨hr, hw'⟩ := hw.written hpc
    have hin : (s.writer p).pc.inOp = true := by
      rw [hpc]
      rfl
    have hrun : 0 < a.outstanding := by
      rw [hout, occ_pos]
      exact ⟨p, hin⟩
    refine wp_then (rep_endOp hok hrep' hopen.committing hrun) (fun _ st hst => ?_)
    rw [if_neg (by omega), if_neg (not_not.mpr hr)]
    refine ⟨history, h.move hst { hopen' with } ?_ (fun _ _ => rfl) hw'⟩
    rw [if_pos hin, if_neg (by intro h; cases h)]
    show a.outstanding - 1 + 1 = _
    omega

end Inv

/-! ## Runs -/

variable (c f) in
/-- A consistent file system without a running transaction, in which `f` is an empty file that is open
for writing. -/
structure Start (st : St) (k : Fin ninode) (i : Nat) : Prop where
  core : Core c st
  outstanding : st.outstanding = 0
  committing : st.committing = false
  type : (st.ftable f).type = .inode
  writable : (st.ftable f).writable = true
  ip : (st.ftable f).ip = k
  off : (st.ftable f).off = 0
  ref : 0 < (st.icache k).ref
  lock : (st.icache k).lock = none
  inum : (st.icache k).inum = i
  file : (st.din c i).type = tFile
  size : (st.din c i).size = 0

section Runs

variable {calls : Fin nproc → List (List UInt8)} {st : St} {s s' : Sys} {p : Fin nproc}
  {history : List (Fin nproc × List UInt8)}

theorem Inv.start (h : Start c f st k i) : Inv c f k i calls (.start st calls) [] := by
  have hi : i < c.sb.ninodes := by
    rw [← h.inum]
    exact (h.core.range h.ref).2.2
  refine ⟨⟨st.abs c, ⟨h.core, rfl⟩, ⟨h.type, h.writable, h.ip, ?_, h.ref, h.inum, h.lock, ?_, ?_,
    h.committing⟩, ?_⟩, fun p => ⟨?_, ?_, trivial⟩⟩
  · show (st.ftable f).off.toNat = 0
    rw [h.off]
    rfl
  · show (st.nodes c i).type = tFile
    rw [St.type_nodes hi, h.file]
  · show (st.nodes c i).data = []
    rw [St.nodes_eq hi, nodeOf, h.size]
    rfl
  · show st.outstanding = _
    rw [h.outstanding, eq_comm, occ_eq_zero]
    exact fun p h => by cases h
  · rfl
  · rfl

/-- A step ends in the invariant, or it stops. -/
theorem Inv.step_spec (hok : c.sb.Ok) (h : Inv c f k i calls s history)
    (htotal : total calls ≤ maxfile * bsize) {r : Except Fault Sys} (hr : step c f s p = some r) :
    (∀ s', r = .ok s' → ∃ history', Inv c f k i calls s' history') ∧
      ∀ e, r = .error e → Stops s e := by
  obtain ⟨m, hm, rfl⟩ := Option.map_eq_some_iff.mp hr
  have hact := h.act hok htotal hm
  cases hrun : m { s.st with myproc := p } with
  | ok r =>
    refine ⟨fun s' hs => ?_, nofun⟩
    cases hs
    exact hact.ok hrun
  | error e =>
    refine ⟨nofun, fun e' he => ?_⟩
    cases he
    exact hact.error hrun

theorem Inv.reachable (hok : c.sb.Ok) (h₀ : Start c f st k i)
    (htotal : total calls ≤ maxfile * bsize)
    (hr : Reachable (· = Sys.start st calls) (Step c f) s) :
    ∃ history, Inv c f k i calls s history := by
  refine hr.invariant (I := fun s => ∃ history, Inv c f k i calls s history) ?_ ?_
  · rintro s rfl
    exact ⟨[], .start h₀⟩
  · rintro s s' ⟨history, h⟩ ⟨p, hp⟩
    exact (h.step_spec hok htotal hp).1 s' rfl

/-- A process that has returned from all its calls. -/
def Writer.Done (w : Writer) : Prop := w.pc = .idle ∧ w.calls = []

theorem Writer.Ok.all {w : Writer} {calls done : List (List UInt8)} (h : w.Ok calls done)
    (hdone : w.Done) : done = calls.flatMap (chunks maxWrite) ∧
      w.ret = calls.map fun addr => (addr.length : Int) := by
  constructor
  · simpa [Writer.rest, hdone.1, hdone.2] using h.pieces
  · simpa [Writer.due, hdone.1, hdone.2] using h.returns

end Runs

/-- **The writers of one open file.** Nothing but a full disk or log, or another transaction, stops a
process. When all have returned, the file is a sequence of the pieces of all calls in which those of
each process are in their order, and its size and the offset are the number of all bytes. -/
theorem filewrite_shared (hok : c.sb.Ok) {st : St} (h₀ : Start c f st k i)
    {calls : Fin nproc → List (List UInt8)} (htotal : total calls ≤ maxfile * bsize) {s : Sys}
    (hr : Reachable (· = Sys.start st calls) (Step c f) s) :
    (∀ p e, step c f s p = some (.error e) → Stops s e) ∧
    ((∀ p, (s.writer p).Done) →
      ∃ history : List (Fin nproc × List UInt8),
        (s.st.nodes c i).data = (history.map Prod.snd).flatten ∧
        (∀ p, part history p = (calls p).flatMap (chunks maxWrite)) ∧
        (∀ x ∈ history, x.2.length ≤ 3 * 512) ∧
        (s.st.din c i).size.toNat = total calls ∧
        (s.st.ftable f).off.toNat = total calls ∧
        ∀ p, (s.writer p).ret = (calls p).map fun addr => (addr.length : Int)) := by
  obtain ⟨history, h⟩ := Inv.reachable hok h₀ htotal hr
  refine ⟨fun p e hp => (h.step_spec hok htotal hp).2 e rfl, fun hdone => ⟨history, ?_⟩⟩
  obtain ⟨a, hrep, hopen, -⟩ := h.rep
  have hparts : ∀ p, part history p = (calls p).flatMap (chunks maxWrite) := fun p =>
    ((h.writer p).all (hdone p)).1
  have hlen : (history.map Prod.snd).flatten.length = total calls := by
    rw [length_history, total]
    refine Finset.sum_congr rfl fun p _ => ?_
    rw [hparts, length_flatten_pieces]
  have hdata : (s.st.nodes c i).data = (history.map Prod.snd).flatten := by
    rw [hrep.node]
    exact hopen.data
  have hi : i < c.sb.ninodes := by
    rw [← hopen.inum]
    exact (hrep.range hopen.ref).2.2
  refine ⟨hdata, hparts, fun x hx => ?_, ?_, ?_, fun p => ((h.writer p).all (hdone p)).2⟩
  · have hmem : x.2 ∈ part history x.1 :=
      List.mem_map_of_mem (List.mem_filter.mpr ⟨hx, decide_eq_true rfl⟩)
    rw [hparts] at hmem
    obtain ⟨addr, -, haddr⟩ := List.mem_flatMap.mp hmem
    exact length_chunks_le addr x.2 haddr
  · rw [← hlen, ← hdata, St.nodes_eq hi, nodeOf, List.length_map, List.length_range]
  · have hoff : (a.ftable f).off.toNat = _ := hopen.off
    rw [← hlen, ← hoff, ← hrep.abs]
    rfl

/-! Two processes write to the file in inode 1 of a small disk; the second one is the first to get the
lock. -/

def smallConfig : Config where
  sb := ⟨20, 5, 8, 10, 2, 12, 14⟩
  devsw _ := ⟨none, none⟩
  piperead _ := (-1, [])
  pipewrite _ := -1

/-- The blocks up to the bitmap are in use, and no others. -/
def smallDisk (b : Nat) : Blk :=
  if b = 12 then setDinode Block.zero 1 (.ofType tFile)
  else if b = 14 then fun j => if j.val = 0 then 255 else if j.val = 1 then 127 else 0
  else Block.zero

def smallState : St where
  mem := ⟨smallDisk, fun _ => none⟩
  lh := []
  outstanding := 0
  committing := false
  icache ip := ⟨rootdev, 1, if ip = 0 then 1 else 0, none, false, .ofType 0⟩
  ftable _ := ⟨.inode, 2, false, true, 0, 0⟩
  myproc := 0

theorem smallConfig_ok : smallConfig.sb.Ok := by
  constructor <;> decide

/-- A file system in which no inode has a block, with one entry in the inode cache. -/
theorem core_of_blank {s : St} (hlog : 0 < c.sb.nlog) (hlh : s.lh = [])
    (hmark : ∀ b < c.sb.nmeta, bit c.sb s.view b = true)
    (haddr : ∀ i < c.sb.ninodes, ∀ n < ndirect + 1, (s.din c i).addr n = 0)
    (hsize : ∀ i < c.sb.ninodes, (s.din c i).size = 0)
    (hcache : ∀ ip, 0 < (s.icache ip).ref → ip = k ∧ (s.icache ip).dev = rootdev ∧
      0 < (s.icache ip).inum ∧ (s.icache ip).inum < c.sb.ninodes ∧
      ((s.icache ip).valid = true →
        (s.icache ip).copy = s.din c (s.icache ip).inum ∧ (s.icache ip).copy.type ≠ 0)) :
    Core c s := by
  have haddr' : ∀ i < c.sb.ninodes, ∀ n, (s.din c i).addr n = 0 := by
    intro i hi n
    by_cases hn : n < ndirect + 1
    · exact haddr i hi n hn
    · exact dif_neg hn
  have hfree : ∀ {i p b}, ¬ Owns c.sb s.view (s.din c) i p b := fun h =>
    h.ne (h.addr.symm.trans (Place.addr_of_empty (haddr' _ h.lt) _ _))
  refine ⟨by rw [hlh]; exact Log.Fits.nil hlog, fun _ => hlh, ⟨hmark, fun h => absurd h hfree,
    fun h => absurd h hfree, fun h => absurd h hfree⟩, fun i hi _ n hn => ?_,
    fun i hi _ n => haddr' i hi n, fun hj hk _ => (hcache _ hj).1.trans (hcache _ hk).1.symm,
    fun hr => ?_, fun hr hv => ((hcache _ hr).2.2.2.2 hv).1, fun hr hv => ((hcache _ hr).2.2.2.2 hv).2⟩
  · rw [hsize i hi] at hn
    exact absurd hn (Nat.not_lt_zero _)
  · obtain ⟨-, hdev, hpos, hlt, -⟩ := hcache _ hr
    exact ⟨hdev, hpos, hlt⟩

theorem eq_zero_of_ref {ip : Fin ninode} (h : 0 < (smallState.icache ip).ref) : ip = 0 := by
  by_contra hne
  simp [smallState, hne] at h

theorem smallState_start : Start smallConfig 0 smallState 0 1 := by
  have hsize : ∀ i < 8, (smallState.din smallConfig i).size = 0 := by decide +kernel
  refine ⟨core_of_blank (k := 0) (by decide) rfl (by decide +kernel) (by decide +kernel) hsize ?_, rfl,
    rfl, rfl, rfl, rfl, rfl, by decide, rfl, rfl, by decide +kernel, hsize 1 (by decide)⟩
  exact fun ip h => ⟨eq_zero_of_ref h, rfl, Nat.one_pos, show 1 < 8 by decide,
    fun hv => absurd hv Bool.false_ne_true⟩

def twoCalls (p : Fin nproc) : List (List UInt8) :=
  if p = 0 then [[1, 2]] else if p = 1 then [[3]] else []

/-- A step that is computed. -/
def next (s : Sys) (p : Fin nproc) : Option Sys :=
  match step smallConfig 0 s p with
  | some (.ok s') => some s'
  | _ => none

theorem step_of_next (s : Sys) (p : Fin nproc) (s' : Sys) (h : next s p = some s') :
    Step smallConfig 0 s s' := by
  unfold next at h
  split at h
  next hs =>
    cases h
    exact ⟨p, hs⟩
  · cases h

instance (w : Writer) : Decidable w.Done := inferInstanceAs (Decidable (_ ∧ _))

theorem filewrite_shared_twoCalls : ∃ s history,
    run next (.start smallState twoCalls) [0, 1, 0, 1, 1, 0, 0, 1, 0, 1] = some s ∧
    (s.st.nodes smallConfig 1).data = [3, 1, 2] ∧
    (history.map Prod.snd).flatten = [3, 1, 2] ∧
    (∀ p, part history p = (twoCalls p).flatMap (chunks maxWrite)) ∧
    (s.st.ftable 0).off.toNat = 3 := by
  have hrun : ((run next (.start smallState twoCalls) [0, 1, 0, 1, 1, 0, 0, 1, 0, 1]).map fun s =>
      (decide (∀ p, (s.writer p).Done), (s.st.nodes smallConfig 1).data)) =
        some (true, [3, 1, 2]) := by
    decide +kernel
  obtain ⟨s, hs, hall⟩ := Option.map_eq_some_iff.mp hrun
  simp only [Prod.mk.injEq, decide_eq_true_eq] at hall
  have hstart : Reachable (· = Sys.start smallState twoCalls) (Step smallConfig 0)
      (.start smallState twoCalls) := .init rfl
  have htotal : total twoCalls = 3 := by decide +kernel
  obtain ⟨history, hdata, hparts, -, -, hoff, -⟩ := (filewrite_shared smallConfig_ok smallState_start
    (by rw [htotal]; decide) (reachable_of_run step_of_next hstart hs)).2 hall.1
  exact ⟨s, history, hs, hall.2, hdata.symm.trans hall.2, hparts, hoff.trans htotal⟩

end Laboratorio.Xv6.Shared
