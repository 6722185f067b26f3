import Laboratorio.Xv6.Ptable

/-!
# Processes and CPUs

`Inv s home` is what holds in every state: `home` gives for each process the CPU that executes its
kernel thread, if there is one. The state of a process follows from its place and from whether it is
on a CPU, and `ptable.lock` is held by the CPU that is at a place where it is held.

The functions of `proc.c` are made of a few kinds of changes, and each keeps the invariant: a process
changes its own entry (`Inv.own`), it changes the entry of a process that is on no CPU (`Inv.other`),
it wakes others (`Inv.wakeup1`), or it switches to the scheduler (`Inv.swtch`).
-/

namespace Laboratorio.Xv6.Ptable

open Function (update update_comm update_eq_self_iff update_of_ne update_self)
open Laboratorio.Scan Laboratorio.Reach

variable {C : Type} {n : Nat}

/-! ## The invariant -/

/-- The place is one where `ptable.lock` is held. -/
def Pc.locks : Pc n → Bool
  | .spot _ | .dead => false
  | _ => true

/-- The place is one just before `swtch`. -/
def Pc.switches : Pc n → Bool
  | .zombie | .waitSwtch | .sleepSwtch | .yieldSwtch _ => true
  | _ => false

/-- The state of a process whose kernel thread executes at a place. -/
def Pc.onCpu : Pc n → Option ProcState
  | .zombie => some .zombie
  | .waitSwtch | .sleepSwtch => some .sleeping
  | .yieldSwtch _ => some .runnable
  | .dead => none
  | _ => some .running

/-- The place of a process on no CPU, by its state. -/
def ProcState.rests : ProcState → Pc n → Bool
  | .unused, .dead | .zombie, .dead | .embryo, .forkret => true
  | .sleeping, .waitWoken | .sleeping, .sleepWoken => true
  | .runnable, .waitWoken | .runnable, .sleepWoken | .runnable, .yieldBack _
  | .runnable, .forkret => true
  | _, _ => false

/-- The process that a process in `fork` is about to make. -/
def Pc.forks : Pc n → Option (Fin n)
  | .spot (.embryo np) | .spot (.adopted np) | .publish np => some np
  | .yield (.embryo np) | .yield (.adopted np) => some np
  | .yieldSwtch (.embryo np) | .yieldSwtch (.adopted np) => some np
  | .yieldBack (.embryo np) | .yieldBack (.adopted np) => some np
  | .waking _ (.embryo np) | .waking _ (.adopted np) => some np
  | _ => none

/-- `c->proc` -/
def Cpu.proc : Cpu n → Option (Fin n)
  | .running p | .back p => some p
  | _ => none

/-- The scheduler holds `ptable.lock`. -/
def Cpu.locks : Cpu n → Bool
  | .idle => false
  | _ => true

/-- CPU `c` is at a place where `ptable.lock` is held. -/
def State.holds (s : State C n) (c : C) : Bool :=
  match s.cpu c with
  | .idle => false
  | .scan _ | .back _ => true
  | .running p => (s.tab p).pc.locks

/-- **What holds in every state.** -/
structure Inv (s : State C n) (home : Fin n → Option C) : Prop where
  running : ∀ c p, s.cpu c = .running p ↔ home p = some c
  proc : ∀ c, s.proc c = (s.cpu c).proc
  lock : Reach.Owns (fun b : Bool => b) s.holds s.lock
  on : ∀ {p c}, home p = some c → (s.tab p).pc.onCpu = some (s.tab p).state
  off : ∀ {p}, home p = none → (s.tab p).state.rests (s.tab p).pc = true
  forks : ∀ {p q}, (s.tab p).pc.forks = some q → (s.tab q).state = .embryo
  forker : ∀ {p p' q}, (s.tab p).pc.forks = some q → (s.tab p').pc.forks = some q → p = p'

theorem Inv.boot (initproc : Fin n) :
    Inv (State.boot initproc : State C n) fun _ => none where
  running _ _ := ⟨nofun, nofun⟩
  proc _ := rfl
  lock _ := ⟨nofun, nofun⟩
  on := nofun
  off {p} _ := by
    unfold State.boot
    dsimp only
    split <;> rfl
  forks {p q} h := by
    unfold State.boot at h
    dsimp only at h
    split at h <;> cases h
  forker {p p' q} h := by
    unfold State.boot at h
    dsimp only at h
    split at h <;> cases h

variable {s s' : State C n} {home : Fin n → Option C} {c : C} {p q initproc : Fin n} {pc : Pc n}
  {x : Proc n} {st : ProcState}

theorem Pc.locks_of_switches (h : pc.switches = true) : pc.locks = true := by
  cases pc <;> first | rfl | cases h

theorem Pc.onCpu_of_not_switches (h : pc.switches = false)
    (hon : pc.onCpu = some st) : st = .running := by
  cases pc with
  | zombie | waitSwtch | sleepSwtch | yieldSwtch => cases h
  | dead => cases hon
  | _ => exact (Option.some.inj hon).symm

/-- The places of a process on no CPU. -/
theorem ProcState.rests_embryo (h : rests .embryo pc = true) : pc = .forkret := by
  cases pc <;> first | rfl | cases h

theorem ProcState.rests_dead (h : st.rests pc = true)
    (hst : st = .unused ∨ st = .zombie) : pc = .dead := by
  rcases hst with rfl | rfl <;> cases pc <;> first | rfl | cases h

theorem ProcState.rests_runnable (h : rests .runnable pc = true) :
    pc.locks = true ∧ pc.onCpu = some .running := by
  cases pc <;> first | exact ⟨rfl, rfl⟩ | cases h

theorem ProcState.rests_wakes (h : rests .sleeping pc = true) :
    rests .runnable pc = true := by
  cases pc <;> first | rfl | cases h

theorem Pc.onCpu_ne_embryo (h : pc.onCpu = some st) :
    st ≠ .embryo ∧ st ≠ .unused := by
  rcases hs : pc.switches with _ | _
  · rw [Pc.onCpu_of_not_switches hs h]
    exact ⟨nofun, nofun⟩
  · cases pc with
    | zombie | waitSwtch | sleepSwtch | yieldSwtch => cases h; exact ⟨nofun, nofun⟩
    | _ => cases hs

/-- Where the lock is held, on the CPU of a process. -/
theorem Inv.holds (h : Inv s home) (hp : home p = some c) : s.holds c = (s.tab p).pc.locks := by
  rw [State.holds, (h.running c p).mpr hp]

theorem Inv.lock_of_locks (h : Inv s home) (hp : home p = some c)
    (hpc : (s.tab p).pc.locks = true) : s.lock = some c :=
  (h.lock c).mp ((h.holds hp).trans hpc)

/-- One CPU executes one process. -/
theorem Inv.home_injective (h : Inv s home) (hp : home p = some c) (hq : home q = some c) : p = q := by
  have := (h.running c p).mpr hp
  rw [(h.running c q).mpr hq] at this
  exact (Cpu.running.inj this).symm

/-- A process on a CPU that is not about to switch is `RUNNING`. -/
theorem Inv.state_on (h : Inv s home) (hp : home p = some c)
    (hpc : (s.tab p).pc = pc) (hs : pc.switches = false) : (s.tab p).state = .running :=
  Pc.onCpu_of_not_switches (hpc ▸ hs) (h.on hp)

/-- A process that is being made, or not in use, is on no CPU. -/
theorem Inv.off_of_new (h : Inv s home)
    (hq : (s.tab q).state = .embryo ∨ (s.tab q).state = .unused) : home q = none := by
  refine Option.eq_none_iff_forall_ne_some.mpr fun c hc => ?_
  obtain ⟨hembryo, hunused⟩ := Pc.onCpu_ne_embryo (h.on hc)
  exact hq.elim hembryo hunused

/-- Nobody else is about to switch. -/
theorem Inv.not_switches (h : Inv s home) (hlock : s.lock = none ∨ s.lock = some c)
    (hc : ∀ q, home q = some c → (s.tab q).pc.switches = false) {c' : C} (hq : home q = some c') :
    (s.tab q).pc.switches = false := by
  by_contra hne
  have hlq := h.lock_of_locks hq (Pc.locks_of_switches (by simpa using hne))
  rcases hlock with hl | hl
  · rw [hl] at hlq
    cases hlq
  · rw [hl] at hlq
    cases hlq
    exact hne (hc q hq)

/-- While the lock is free, a process on a CPU is `RUNNING`. -/
theorem Inv.running_of_free (h : Inv s home) (hfree : s.lock = none) (hq : home q = some c) :
    (s.tab q).state = .running := by
  refine h.state_on hq rfl (h.not_switches (c := c) (.inl hfree) (fun r hr => ?_) hq)
  by_contra hne
  have := h.lock_of_locks hr (Pc.locks_of_switches (by simpa using hne))
  rw [hfree] at this
  cases this

/-! ## The kinds of changes -/

/-- What a change of an entry leaves alone is as before in all entries. -/
theorem State.set_same {α : Type} (s : State C n) (f : Proc n → α)
    (hf : f x = f (s.tab q)) (r : Fin n) : f ((s.set q x).tab r) = f (s.tab r) := by
  show f (update s.tab q x r) = _
  by_cases hr : r = q
  · rw [hr, update_self, hf]
  · rw [update_of_ne hr]

/-- Where the lock is held depends on the CPU, and on the place of the process it executes. -/
theorem State.holds_congr (hcpu : s'.cpu c = s.cpu c)
    (hpc : ∀ r, s.cpu c = .running r → (s'.tab r).pc = (s.tab r).pc) : s'.holds c = s.holds c := by
  unfold State.holds
  rw [hcpu]
  split
  · rfl
  · rfl
  · rfl
  · next r hr => rw [hpc r hr]

/-- The invariant speaks of states and places only. -/
theorem Inv.congr (h : Inv s home) {tab : Fin n → Proc n}
    (htab : ∀ q, (tab q).state = (s.tab q).state ∧ (tab q).pc = (s.tab q).pc) :
    Inv { s with tab := tab } home where
  running := h.running
  proc := h.proc
  lock := h.lock.congr fun _ => State.holds_congr rfl fun r _ => (htab r).2
  on {p c} hp := by rw [(htab p).1, (htab p).2]; exact h.on hp
  off {p} hp := by rw [(htab p).1, (htab p).2]; exact h.off hp
  forks {p q} hp := by rw [(htab p).2] at hp; rw [(htab q).1]; exact h.forks hp
  forker {p p' q} hp hp' := by
    rw [(htab p).2] at hp
    rw [(htab p').2] at hp'
    exact h.forker hp hp'

theorem Inv.congr_set (h : Inv s home) (hst : x.state = (s.tab q).state)
    (hpc : x.pc = (s.tab q).pc) : Inv (s.set q x) home :=
  h.congr fun r => ⟨s.set_same Proc.state hst r, s.set_same Proc.pc hpc r⟩

/-- Where the lock is held after process `p`, on CPU `c`, has changed its entry. -/
theorem Inv.holds_set [DecidableEq C] (h : Inv s home) (hp : home p = some c) (x : Proc n)
    (lock : Option C) : State.holds { s.set p x with lock := lock } =
      update s.holds c x.pc.locks := by
  funext c'
  by_cases hc' : c' = c
  · subst hc'
    rw [update_self]
    unfold State.holds
    show (match s.cpu c' with
      | .idle => false
      | .scan _ | .back _ => true
      | .running r => (update s.tab p x r).pc.locks) = _
    rw [(h.running c' p).mpr hp]
    show (update s.tab p x p).pc.locks = _
    rw [update_self]
  · rw [update_of_ne hc']
    refine State.holds_congr rfl fun r hr => congrArg Proc.pc (update_of_ne ?_ _ _)
    rintro rfl
    rw [h.running, hp] at hr
    exact hc' (Option.some.inj hr).symm

/-- The entry of one process changes, and with it perhaps its CPU. -/
theorem Inv.change (h : Inv s home) {home' : Fin n → Option C}
    (htab : s'.tab = update s.tab q x) (hhome : ∀ r, r ≠ q → home' r = home r)
    (hrunning : ∀ c p, s'.cpu c = .running p ↔ home' p = some c)
    (hproc : ∀ c, s'.proc c = (s'.cpu c).proc)
    (hlock : Reach.Owns (fun b : Bool => b) s'.holds s'.lock)
    (hon : ∀ c, home' q = some c → x.pc.onCpu = some x.state)
    (hoff : home' q = none → x.state.rests x.pc = true)
    (hforks : ∀ t, x.pc.forks = some t → (s.tab q).pc.forks = some t ∨
      t ≠ q ∧ (s.tab t).state = .embryo ∧ ∀ r, (s.tab r).pc.forks ≠ some t)
    (hforked : ∀ r, (s.tab r).pc.forks = some q → x.state = .embryo) : Inv s' home' := by
  have hself : s'.tab q = x := by rw [htab, update_self]
  have hother : ∀ r, r ≠ q → s'.tab r = s.tab r := fun r hr => by
    rw [htab, update_of_ne hr]
  have hforks' : ∀ {r t}, (s'.tab r).pc.forks = some t → (s.tab r).pc.forks = some t ∨
      r = q ∧ t ≠ q ∧ (s.tab t).state = .embryo ∧ ∀ r, (s.tab r).pc.forks ≠ some t := fun {r t} hr => by
    by_cases hrq : r = q
    · subst hrq
      rw [hself] at hr
      exact (hforks t hr).imp_right fun ht => ⟨rfl, ht⟩
    · rw [hother r hrq] at hr
      exact .inl hr
  refine ⟨hrunning, hproc, hlock, fun {r c} hr => ?_, fun {r} hr => ?_, fun {r t} hr => ?_,
    fun {r r' t} hr hr' => ?_⟩
  · by_cases hrq : r = q
    · subst hrq
      rw [hself]
      exact hon c hr
    · rw [hhome r hrq] at hr
      rw [hother r hrq]
      exact h.on hr
  · by_cases hrq : r = q
    · subst hrq
      rw [hself]
      exact hoff hr
    · rw [hhome r hrq] at hr
      rw [hother r hrq]
      exact h.off hr
  · by_cases htq : t = q
    · subst htq
      rw [hself]
      exact (hforks' hr).elim (hforked r) fun ht => absurd rfl ht.2.1
    · rw [hother t htq]
      exact (hforks' hr).elim h.forks fun ht => ht.2.2.1
  · rcases hforks' hr with hr | ⟨rfl, -, -, ht⟩
    · rcases hforks' hr' with hr' | ⟨-, -, -, ht⟩
      · exact h.forker hr hr'
      · exact absurd hr (ht r)
    · rcases hforks' hr' with hr' | ⟨rfl, -⟩
      · exact absurd hr' (ht r')
      · rfl

/-- A process on a CPU changes its own entry. -/
theorem Inv.own [DecidableEq C] (h : Inv s home) (hp : home p = some c)
    {lock : Option C} (hx : x.pc.onCpu = some x.state)
    (hlock : Passes (fun b : Bool => b) c (s.tab p).pc.locks x.pc.locks s.lock lock)
    (hforks : ∀ q, x.pc.forks = some q → (s.tab p).pc.forks = some q ∨
      (s.tab q).state = .embryo ∧ ∀ r, (s.tab r).pc.forks ≠ some q) :
    Inv { s.set p x with lock := lock } home := by
  -- the process is on a CPU, so it is nobody's new process
  have hne : (s.tab p).state ≠ .embryo := (Pc.onCpu_ne_embryo (h.on hp)).1
  refine h.change rfl (fun _ _ => rfl) h.running h.proc ?_ (fun _ _ => hx)
    (fun hn => by rw [hp] at hn; cases hn) (fun t ht => (hforks t ht).imp_right fun hq => ⟨?_, hq⟩)
    fun r hr => absurd (h.forks hr) hne
  · rw [h.holds_set hp]
    exact h.lock.passes (by rw [h.holds hp]; exact hlock)
  · rintro rfl
    exact hne hq.1

/-- The entry of a process on no CPU changes. -/
theorem Inv.other (h : Inv s home) (hq : home q = none)
    (hx : x.state.rests x.pc = true) (hforks : x.pc.forks = (s.tab q).pc.forks)
    (hforked : ∀ r, (s.tab r).pc.forks = some q → x.state = .embryo) :
    Inv (s.set q x) home := by
  refine h.change rfl (fun _ _ => rfl) h.running h.proc (h.lock.congr fun c => ?_)
    (fun c hc => by rw [hq] at hc; cases hc) (fun _ => hx) (fun t ht => .inl (hforks ▸ ht)) hforked
  refine State.holds_congr rfl fun r hr => congrArg Proc.pc (update_of_ne ?_ _ _)
  rintro rfl
  rw [h.running, hq] at hr
  cases hr

/-- `wakeup1` changes states only, from `SLEEPING` to `RUNNABLE`. -/
theorem State.tab_wakeup1 (s : State C n) (chan : Option (Chan n)) (q : Fin n) :
    (s.wakeup1 chan).tab q = { s.tab q with state := ((s.wakeup1 chan).tab q).state } ∧
      (((s.wakeup1 chan).tab q).state = (s.tab q).state ∨
        (s.tab q).state = .sleeping ∧ ((s.wakeup1 chan).tab q).state = .runnable) := by
  unfold State.wakeup1
  dsimp only
  split
  · next hq => exact ⟨rfl, .inr ⟨hq.1, rfl⟩⟩
  · exact ⟨rfl, .inl rfl⟩

/-- Sleeping processes on no CPU become runnable. -/
theorem Inv.wakeup1 (h : Inv s home)
    (hoff : ∀ {q c}, home q = some c → (s.tab q).state ≠ .sleeping) (chan : Option (Chan n)) :
    Inv (s.wakeup1 chan) home := by
  have hpc : ∀ q, ((s.wakeup1 chan).tab q).pc = (s.tab q).pc := fun q => by
    rw [(s.tab_wakeup1 chan q).1]
  have hstate := fun q => (s.tab_wakeup1 chan q).2
  refine ⟨h.running, h.proc, h.lock.congr fun c => ?_, fun {q c} hq => ?_, fun {q} hq => ?_,
    fun {q r} hq => ?_, fun {q q' r} hq hq' => ?_⟩
  · exact State.holds_congr rfl fun r _ => hpc r
  · rw [hpc, (hstate q).resolve_right fun hs => hoff hq hs.1]
    exact h.on hq
  · have hrest := h.off hq
    rw [hpc]
    rcases hstate q with e | ⟨hs, e⟩
    · rw [e]
      exact hrest
    · rw [hs] at hrest
      rw [e]
      exact ProcState.rests_wakes hrest
  · rw [hpc] at hq
    have he := h.forks hq
    rw [(hstate r).resolve_right fun hs => by rw [he] at hs; cases hs.1]
    exact he
  · rw [hpc] at hq hq'
    exact h.forker hq hq'

section Moves

variable [DecidableEq C]

/-- A CPU goes on with something else than a process. -/
theorem Inv.setCpu (h : Inv s home) (hc : ∀ p, s.cpu c ≠ .running p) {x : Cpu n}
    (hx : ∀ p, x ≠ .running p) (lock : Option C)
    (hlock : Passes (fun b : Bool => b) c (s.holds c) x.locks s.lock lock) :
    Inv { s with
      lock := lock, proc := update s.proc c x.proc, cpu := update s.cpu c x }
      home := by
  refine ⟨fun c' p => ?_, fun c' => ?_, ?_, h.on, h.off, h.forks, h.forker⟩
  · show update s.cpu c x c' = _ ↔ _
    by_cases hc' : c' = c
    · subst hc'
      rw [update_self, ← h.running]
      exact iff_of_false (hx p) (hc p)
    · rw [update_of_ne hc']
      exact h.running c' p
  · show update s.proc c x.proc c' = (update s.cpu c x c').proc
    by_cases hc' : c' = c
    · subst hc'
      rw [update_self, update_self]
    · rw [update_of_ne hc', update_of_ne hc']
      exact h.proc c'
  · have hholds : State.holds { s with
        lock := lock, proc := update s.proc c x.proc, cpu := update s.cpu c x } =
        update s.holds c x.locks := by
      funext c'
      by_cases hc' : c' = c
      · subst hc'
        unfold State.holds
        dsimp only
        rw [update_self, update_self]
        cases x with
        | running p => exact absurd rfl (hx p)
        | _ => rfl
      · rw [update_of_ne hc']
        exact State.holds_congr (update_of_ne hc' _ _) fun _ _ => rfl
    rw [hholds]
    exact h.lock.passes hlock

/-- A process switches to the scheduler. -/
theorem Inv.swtch (h : Inv s home) (hp : home p = some c) {pc' : Pc n}
    (hpc : (s.tab p).pc = pc) (hlocks : pc.locks = true) (hst : pc.onCpu = some st)
    (hrest : st.rests pc' = true) (hforks : pc'.forks = pc.forks) :
    Inv (s.swtch c p pc') (update home p none) := by
  subst hpc
  obtain rfl : (s.tab p).state = st := Option.some.inj ((h.on hp).symm.trans hst)
  have hcpu : ∀ c', (s.swtch c p pc').cpu c' = update s.cpu c (.back p) c' := fun _ => rfl
  refine h.change (q := p) (x := { s.tab p with pc := pc' }) rfl
    (fun r hr => update_of_ne hr _ _) (fun c' q => ?_) (fun c' => ?_)
    (h.lock.congr fun c' => ?_) (fun c' hc' => by rw [update_self] at hc'; cases hc')
    (fun _ => hrest) (fun t ht => .inl (hforks ▸ ht)) fun r hr => h.forks hr
  · rw [hcpu]
    by_cases hc' : c' = c
    · subst hc'
      rw [update_self]
      refine iff_of_false nofun fun hq => ?_
      by_cases hqp : q = p
      · rw [hqp, update_self] at hq
        cases hq
      · rw [update_of_ne hqp] at hq
        exact hqp (h.home_injective hq hp)
    · rw [update_of_ne hc', h.running]
      by_cases hqp : q = p
      · subst hqp
        rw [update_self, hp]
        exact iff_of_false (fun e => hc' (Option.some.inj e).symm) nofun
      · rw [update_of_ne hqp]
  · rw [hcpu]
    show s.proc c' = _
    by_cases hc' : c' = c
    · subst hc'
      rw [update_self, h.proc, (h.running c' p).mpr hp]
      rfl
    · rw [update_of_ne hc']
      exact h.proc c'
  · by_cases hc' : c' = c
    · subst hc'
      unfold State.holds
      rw [hcpu, update_self, (h.running c' p).mpr hp]
      exact hlocks.symm
    · refine State.holds_congr (update_of_ne hc' _ _) fun r hr =>
        congrArg Proc.pc (update_of_ne ?_ _ _)
      rintro rfl
      rw [h.running, hp] at hr
      exact hc' (Option.some.inj hr).symm

/-- The scheduler switches to a process. -/
theorem Inv.dispatch (h : Inv s home) {i : Nat} (hc : s.cpu c = .scan i) {q : Fin n}
    (hq : (s.tab q).state = .runnable) :
    Inv { s.set q { s.tab q with state := .running } with
      proc := update s.proc c (some q), cpu := update s.cpu c (.running q) }
      (update home q (some c)) := by
  have hlock : s.lock = some c := (h.lock c).mp (by rw [State.holds, hc])
  have hcfree : ∀ r, home r ≠ some c := fun r hr => by
    rw [(h.running c r).mpr hr] at hc
    cases hc
  -- the process is on no CPU: it would be about to switch there, with the lock
  have hoff : home q = none := by
    refine Option.eq_none_iff_forall_ne_some.mpr fun c' hh => ?_
    have hsw := h.not_switches (.inr hlock) (fun r hr => absurd hr (hcfree r)) hh
    have := h.state_on hh rfl hsw
    rw [hq] at this
    cases this
  have hrest := h.off hoff
  rw [hq] at hrest
  have hlocks := ProcState.rests_runnable hrest
  refine h.change rfl (fun r hr => update_of_ne hr _ _) (fun c' r => ?_) (fun c' => ?_)
    (h.lock.congr fun c' => ?_) (fun _ _ => hlocks.2)
    (fun hn => by rw [update_self] at hn; cases hn) (fun t ht => .inl ht) fun r hr => ?_
  · show update s.cpu c (.running q) c' = _ ↔ _
    by_cases hc' : c' = c
    · subst hc'
      rw [update_self]
      by_cases hrq : r = q
      · subst hrq
        rw [update_self]
        exact iff_of_true rfl rfl
      · rw [update_of_ne hrq]
        exact iff_of_false (fun e => hrq (Cpu.running.inj e).symm) (hcfree r)
    · rw [update_of_ne hc', h.running]
      by_cases hrq : r = q
      · subst hrq
        rw [update_self, hoff]
        exact iff_of_false nofun fun e => hc' (Option.some.inj e).symm
      · rw [update_of_ne hrq]
  · show update s.proc c (some q) c' = (update s.cpu c (.running q) c').proc
    by_cases hc' : c' = c
    · subst hc'
      rw [update_self, update_self]
      rfl
    · rw [update_of_ne hc', update_of_ne hc']
      exact h.proc c'
  · have hpc : ∀ r, (update s.tab q { s.tab q with state := .running } r).pc =
        (s.tab r).pc := s.set_same Proc.pc rfl
    by_cases hc' : c' = c
    · subst hc'
      unfold State.holds
      dsimp only [State.set]
      rw [update_self, hc]
      simp only [hpc]
      exact hlocks.1
    · exact State.holds_congr (update_of_ne hc' _ _) fun r _ => hpc r
  · have := h.forks hr
    rw [hq] at this
    cases this

end Moves

/-! ## The functions of `proc.c` -/

theorem State.set_comm (s : State C n) (hpq : p ≠ q) (x y : Proc n) :
    (s.set q x).set p y = (s.set p y).set q x := by
  unfold State.set
  dsimp only
  rw [update_comm hpq.symm]

theorem State.tab_set_self (s : State C n) (p : Fin n) (x : Proc n) : (s.set p x).tab p = x :=
  update_self ..

theorem State.tab_set_of_ne (s : State C n) (hpq : p ≠ q) (x : Proc n) :
    (s.set q x).tab p = s.tab p :=
  update_of_ne hpq _ _

/-- The invariant does not speak of the counters. -/
theorem Inv.counters (h : Inv s home) (nextpid : Int) (births : Nat) (reaped : List (Reap n)) :
    Inv { s with nextpid := nextpid, births := births, reaped := reaped } home :=
  ⟨h.running, h.proc, h.lock, h.on, h.off, h.forks, h.forker⟩

/-- While a process that does not switch holds the lock, no process on a CPU is asleep. -/
theorem Inv.awake (h : Inv s home) (hp : home p = some c) (hpc : (s.tab p).pc = pc)
    (hl : pc.locks = true) (hs : pc.switches = false) {c' : C} (hq : home q = some c') :
    (s.tab q).state = .running := by
  subst hpc
  refine h.state_on hq rfl (h.not_switches (.inr (h.lock_of_locks hp hl)) (fun r hr => ?_) hq)
  rw [h.home_injective hr hp]
  exact hs

/-- Then a process that is not `RUNNING` is on no CPU. -/
theorem Inv.off_of_awake (h : Inv s home) (hp : home p = some c)
    (hpc : (s.tab p).pc = pc) (hl : pc.locks = true) (hs : pc.switches = false)
    (hq : (s.tab q).state ≠ .running) : home q = none :=
  Option.eq_none_iff_forall_ne_some.mpr fun _ hc => hq (h.awake hp hpc hl hs hc)

/-- A new process is on no CPU, and nobody else makes it. -/
theorem Inv.embryo (h : Inv s home) {np : Fin n} (hnp : (s.tab p).pc.forks = some np) :
    home np = none ∧ (s.tab np).pc = .forkret := by
  have he := h.forks hnp
  have hoff := h.off_of_new (.inl he)
  have hrest := h.off hoff
  rw [he] at hrest
  exact ⟨hoff, ProcState.rests_embryo hrest⟩

/-- The parents of processes do not matter here. -/
theorem Inv.abandon (h : Inv s home) (initproc p : Fin n)
    (hoff : ∀ {q c}, home q = some c → (s.tab q).state ≠ .sleeping) :
    Inv (s.abandon initproc p) home := by
  have hsame : ∀ q, (if (s.tab q).parent = some p then { s.tab q with parent := some initproc }
      else s.tab q).state = (s.tab q).state ∧ (if (s.tab q).parent = some p then
        { s.tab q with parent := some initproc } else s.tab q).pc = (s.tab q).pc := fun q => by
    split <;> exact ⟨rfl, rfl⟩
  have h₁ := h.congr hsame
  unfold State.abandon
  dsimp only
  split
  · refine h₁.wakeup1 (fun {q c} hq => ?_) _
    rw [(hsame q).1]
    exact hoff hq
  · exact h₁

theorem State.pc_abandon (s : State C n) (initproc p q : Fin n) :
    ((s.abandon initproc p).tab q).pc = (s.tab q).pc := by
  unfold State.abandon
  dsimp only
  split
  · rw [(State.tab_wakeup1 _ _ q).1]
    dsimp only
    split <;> rfl
  · dsimp only
    split <;> rfl

variable [DecidableEq C]

/-- A process that holds the lock goes on, or returns, or releases the lock. -/
theorem Inv.advance (h : Inv s home) (hp : home p = some c) (hpc : (s.tab p).pc = pc)
    (hl : pc.locks = true) (hx : x.pc.onCpu = some x.state) {lock : Option C}
    (hlock : x.pc.locks = true ∧ lock = s.lock ∨ x.pc.locks = false ∧ lock = none)
    (hforks : x.pc.forks = none ∨ x.pc.forks = pc.forks) :
    Inv { s.set p x with lock := lock } home := by
  subst hpc
  refine h.own hp hx ?_ fun q hq => ?_
  · rcases hlock with ⟨hx, rfl⟩ | ⟨hx, rfl⟩
    · exact .keep (hx.trans hl.symm)
    · exact .release hl hx
  · rcases hforks with hf | hf
    · rw [hf] at hq
      cases hq
    · exact .inl (hf ▸ hq)

/-- A process that holds the lock goes on, and is still `RUNNING`. -/
theorem Inv.goOn (h : Inv s home) (hp : home p = some c) (hpc : (s.tab p).pc = pc)
    (hl : pc.locks = true) (hs : pc.switches = false)
    (hst : x.state = (s.tab p).state) (hx : x.pc.onCpu = some .running) {lock : Option C}
    (hlock : x.pc.locks = true ∧ lock = s.lock ∨ x.pc.locks = false ∧ lock = none)
    (hforks : x.pc.forks = none ∨ x.pc.forks = pc.forks) :
    Inv { s.set p x with lock := lock } home :=
  h.advance hp hpc hl (by rw [hx, hst, h.state_on hp hpc hs]) hlock hforks

/-- `acquire` at a spot. -/
theorem Inv.acquire (h : Inv s home) (hp : home p = some c) {f : Spot n}
    (hf : (s.tab p).pc = .spot f) (hpc : pc.onCpu = some .running)
    (hl : pc.locks = true) (hforks : pc.forks = none ∨ pc.forks = (Pc.spot f).forks)
    (hs : s.acquire c p pc = some s') : Inv s' home := by
  unfold State.acquire at hs
  split at hs
  · next hfree =>
    cases hs
    have hrun : (s.tab p).state = .running := h.state_on hp hf rfl
    refine h.own hp (x := { s.tab p with pc := pc }) (by rw [hpc, ← hrun]) ?_ fun q hq => ?_
    · rw [hfree]
      exact .acquire hl
    · rcases hforks with hn | hn
      · rw [show pc.forks = some q from hq] at hn
        cases hn
      · rw [hf, ← hn]
        exact .inl hq
  · cases hs

/-- A call returns and releases the lock. -/
theorem Inv.return (h : Inv s home) (hp : home p = some c) (hpc : (s.tab p).pc = pc)
    (hl : pc.locks = true) (hs : pc.switches = false) (ret : Int) :
    Inv (s.return p ret).release home :=
  h.goOn hp hpc hl hs (x := { s.tab p with pc := .spot .user, ret := ret }) rfl rfl
    (.inr ⟨rfl, rfl⟩) (.inl rfl)

theorem Inv.allocproc (h : Inv s home) (hp : home p = some c) (hpc : (s.tab p).pc = .alloc) :
    Inv (s.allocproc p) home := by
  have hrun : (s.tab p).state = .running := h.state_on hp hpc rfl
  unfold State.allocproc
  split
  · exact h.return hp hpc rfl rfl (-1)
  · next np hnp =>
    have hunused : (s.tab np).state = .unused := of_decide_eq_true (first_eq_some.mp hnp).1
    have hne : p ≠ np := by
      rintro rfl
      rw [hrun] at hunused
      cases hunused
    -- nobody makes an unused process
    have hunforked : ∀ r, (s.tab r).pc.forks ≠ some np := fun r hr => by
      have := h.forks hr
      rw [hunused] at this
      cases this
    have hoff := h.off_of_new (.inr hunused)
    have hdead := ProcState.rests_dead (h.off hoff) (.inl hunused)
    have h₁ : Inv (s.set np { s.tab np with
        state := .embryo, pid := s.nextpid, pc := .forkret, birth := s.births }) home :=
      h.other hoff rfl (by rw [hdead]; rfl) fun r hr => absurd hr (hunforked r)
    have h₂ := h₁.counters (s.nextpid + 1) (s.births + 1) s.reaped
    have htab := s.tab_set_of_ne hne { s.tab np with
      state := .embryo, pid := s.nextpid, pc := .forkret, birth := s.births }
    refine h₂.own hp (c := c) ?_ (.release ?_ rfl) fun q hq => .inr ?_
    · show some ProcState.running = some (State.tab (s.set np _) p).state
      rw [htab, hrun]
    · show (State.tab (s.set np _) p).pc.locks = true
      rw [htab, hpc]
      rfl
    · cases hq
      refine ⟨?_, fun r => ?_⟩
      · show (update s.tab np _ np).state = .embryo
        rw [update_self]
      · show (update s.tab np _ r).pc.forks ≠ some np
        by_cases hr : r = np
        · rw [hr, update_self]
          nofun
        · rw [update_of_ne hr]
          exact hunforked r

/-- A process in `fork` is done with the new process `np`, whose entry becomes `x`. -/
theorem Inv.settle (h : Inv s home) (hp : home p = some c) (hpc : (s.tab p).pc = pc)
    {np : Fin n} (hforks : pc.forks = some np) (hs : pc.switches = false)
    (hx : x.state.rests x.pc = true) (hxf : x.pc.forks = none) (ret : Int) :
    Inv { (s.set np x).return p ret with lock := if pc.locks then none else s.lock } home := by
  subst hpc
  obtain ⟨hoff, hforkret⟩ := h.embryo hforks
  have hne : p ≠ np := by
    rintro rfl
    rw [hp] at hoff
    cases hoff
  have hcomm : (s.set np x).return p ret =
      (s.set p { s.tab p with pc := .spot .user, ret := ret }).set np x := by
    rw [State.return, s.tab_set_of_ne hne, s.set_comm hne]
  have h₁ : Inv { s.set p { s.tab p with pc := .spot .user, ret := ret } with
      lock := if (s.tab p).pc.locks then none else s.lock } home := by
    refine h.own hp (by rw [h.state_on hp rfl hs]; rfl) ?_ fun q hq => by cases hq
    split
    · next hl => exact .release hl rfl
    · next hl => exact .keep (by simpa [Pc.locks] using hl)
  rw [hcomm]
  refine h₁.other hoff hx ?_ fun r hr => ?_
  · show x.pc.forks = (update s.tab p _ np).pc.forks
    rw [update_of_ne hne.symm, hforkret, hxf]
    rfl
  · -- nobody else makes it
    exfalso
    change (update s.tab p { s.tab p with pc := .spot .user, ret := ret } r).pc.forks =
      some np at hr
    by_cases hrp : r = p
    · rw [hrp, update_self] at hr
      cases hr
    · rw [update_of_ne hrp] at hr
      exact hrp (h.forker hr hforks)

theorem Inv.publish (h : Inv s home) (hp : home p = some c) {np : Fin n}
    (hpc : (s.tab p).pc = .publish np) : Inv (s.publish p np) home := by
  have hforks : (s.tab p).pc.forks = some np := by rw [hpc]; rfl
  obtain ⟨-, hforkret⟩ := h.embryo hforks
  exact h.settle hp hpc rfl rfl (x := { s.tab np with state := .runnable })
    (by rw [hforkret]; rfl) (by rw [hforkret]; rfl) (s.tab np).pid

theorem Inv.exit (h : Inv s home) (hp : home p = some c) (hpc : (s.tab p).pc = .exiting)
    (initproc : Fin n) : Inv (s.exit initproc p) home := by
  have hawake : ∀ {q c'}, home q = some c' → (s.tab q).state = .running := fun hq =>
    h.awake hp hpc rfl rfl hq
  have h₁ := h.wakeup1 (fun hq => by rw [hawake hq]; nofun) ((s.tab p).parent.map .proc)
  have htab := s.tab_wakeup1 ((s.tab p).parent.map .proc)
  have h₂ := h₁.abandon initproc p fun {q c'} hq => by
    rcases (htab q).2 with e | ⟨-, e⟩
    · rw [e, hawake hq]
      nofun
    · rw [e]
      nofun
  have hpc₂ : (((s.wakeup1 ((s.tab p).parent.map .proc)).abandon initproc p).tab p).pc =
      .exiting := by
    rw [State.pc_abandon, (htab p).1]
    exact hpc
  exact h₂.advance hp hpc₂ rfl rfl (.inl ⟨rfl, rfl⟩) (.inl rfl)

theorem Inv.reap (h : Inv s home) (hp : home p = some c) (hpc : (s.tab p).pc = .wait)
    (hq : (s.tab q).state = .zombie) : Inv (s.reap p q) home ∧ home q = none := by
  have hoff := h.off_of_awake (q := q) hp hpc rfl rfl (by rw [hq]; nofun)
  have hne : p ≠ q := by
    rintro rfl
    rw [hp] at hoff
    cases hoff
  have hdead := ProcState.rests_dead (h.off hoff) (.inr hq)
  have h₁ : Inv (s.set q { s.tab q with
      pid := 0, parent := none, killed := false, state := .unused }) home := by
    refine h.other hoff (by rw [hdead]; rfl) rfl fun r hr => ?_
    rw [h.forks hr] at hq
    cases hq
  have htab := s.tab_set_of_ne hne { s.tab q with
    pid := 0, parent := none, killed := false, state := .unused }
  have h₂ := h₁.counters s.nextpid s.births (⟨p, (s.tab q).birth, (s.tab q).pid⟩ :: s.reaped)
  exact ⟨h₂.return hp ((congrArg Proc.pc htab).trans hpc) rfl rfl (s.tab q).pid, hoff⟩

theorem Inv.wait (h : Inv s home) (hp : home p = some c) (hpc : (s.tab p).pc = .wait) :
    Inv (s.wait p) home := by
  unfold State.wait
  split
  · next q hq =>
    exact (h.reap hp hpc (of_decide_eq_true (first_eq_some.mp hq).1).2).1
  · split
    · exact h.return hp hpc rfl rfl (-1)
    · exact h.advance hp hpc rfl rfl (.inl ⟨rfl, rfl⟩) (.inl rfl)

theorem Inv.kill (h : Inv s home) (hp : home p = some c) {pid : Int}
    (hpc : (s.tab p).pc = .killing pid) : Inv (s.kill p pid) home := by
  unfold State.kill
  split
  · exact h.return hp hpc rfl rfl (-1)
  · next q hq =>
    have h₁ : Inv (s.set q { s.tab q with
        killed := true
        state := if (s.tab q).state = .sleeping then .runnable else (s.tab q).state }) home := by
      by_cases hs : (s.tab q).state = .sleeping
      · rw [if_pos hs]
        have hoff := h.off_of_awake (q := q) hp hpc rfl rfl (by rw [hs]; nofun)
        have hrest := h.off hoff
        rw [hs] at hrest
        refine h.other hoff (ProcState.rests_wakes hrest) rfl fun r hr => ?_
        rw [h.forks hr] at hs
        cases hs
      · rw [if_neg hs]
        exact h.congr_set rfl rfl
    have hpc₁ := (s.set_same (x := { s.tab q with
      killed := true
      state := if (s.tab q).state = .sleeping then .runnable else (s.tab q).state }) Proc.pc rfl
      p).trans hpc
    exact h₁.return hp hpc₁ rfl rfl 0

/-! ## Every step keeps the invariant -/

/-- A step at a spot. -/
theorem Inv.atSpot (h : Inv s home) (hp : home p = some c) {f : Spot n}
    (hf : (s.tab p).pc = .spot f) {a : Act}
    (hs : s.atSpot initproc c p f a = some s') : Inv s' home := by
  cases a with
  | yield => exact h.acquire hp hf rfl rfl (.inr (by cases f <;> rfl)) hs
  | wakeup a => exact h.acquire hp hf rfl rfl (.inr (by cases f <;> rfl)) hs
  | fork | exit | wait | sleep | kill =>
    simp only [State.atSpot] at hs
    split at hs
    · exact h.acquire hp hf rfl rfl (.inl rfl) hs
    · cases hs
  | fail =>
    simp only [State.atSpot] at hs
    split at hs
    · next np =>
      cases hs
      exact h.settle hp hf rfl rfl (x := { s.tab np with state := .unused, pc := .dead }) rfl rfl
        (-1)
    · cases hs
  | go =>
    simp only [State.atSpot] at hs
    split at hs
    · next np =>
      cases hs
      have hne : p ≠ np := by
        rintro rfl
        rw [(h.embryo (p := p) (by rw [hf]; rfl)).1] at hp
        cases hp
      have htab := s.tab_set_of_ne hne { s.tab np with parent := some p }
      have h₁ : Inv (s.set np { s.tab np with parent := some p }) home :=
        h.congr_set rfl rfl
      refine h₁.own hp ?_ (.keep ?_) fun q hq => .inl ?_
      · show some ProcState.running = some (State.tab (s.set np _) p).state
        rw [htab, h.state_on hp hf rfl]
      · rw [htab, hf]
        rfl
      · rw [htab, hf]
        exact hq
    · exact h.acquire hp hf rfl rfl (.inr (by rfl)) hs
    · cases hs

/-- A step of a process. -/
theorem Inv.thread (h : Inv s home) (hp : home p = some c) {a : Act}
    (hs : s.thread initproc c p a = some s') :
    Inv s' home ∨ Inv s' (update home p none) := by
  unfold State.thread at hs
  split at hs
  case h_1 f hpc => exact .inl (h.atSpot hp hpc hs)
  case h_2 hpc => cases hs; exact .inl (h.allocproc hp hpc)
  case h_3 hpc => cases hs; exact .inl (h.publish hp hpc)
  case h_4 hpc => cases hs; exact .inl (h.exit hp hpc initproc)
  case h_5 hpc =>
    cases hs
    exact .inr (h.swtch hp hpc rfl rfl rfl rfl)
  case h_6 hpc => cases hs; exact .inl (h.wait hp hpc)
  case h_7 hpc =>
    cases hs
    exact .inr (h.swtch hp hpc rfl rfl rfl rfl)
  case h_8 hpc =>
    cases hs
    exact .inl (h.goOn hp hpc rfl rfl (by rfl) rfl (.inl ⟨rfl, rfl⟩) (.inl rfl))
  case h_9 hpc =>
    cases hs
    exact .inl (h.advance hp hpc rfl rfl (.inl ⟨rfl, rfl⟩) (.inl rfl))
  case h_10 hpc =>
    cases hs
    exact .inr (h.swtch hp hpc rfl rfl rfl rfl)
  case h_11 hpc =>
    cases hs
    exact .inl (h.goOn hp hpc rfl rfl (by rfl) rfl (.inr ⟨rfl, rfl⟩) (.inl rfl))
  case h_12 f hpc =>
    cases hs
    exact .inl (h.advance hp hpc rfl rfl (.inl ⟨rfl, rfl⟩)
      (.inr (by cases f <;> rfl)))
  case h_13 f hpc =>
    cases hs
    exact .inr (h.swtch hp hpc rfl rfl rfl (by cases f <;> rfl))
  case h_14 f hpc =>
    cases hs
    exact .inl (h.goOn hp hpc rfl rfl (by rfl) rfl (.inr ⟨rfl, rfl⟩)
      (.inr (by cases f <;> rfl)))
  case h_15 hpc =>
    cases hs
    exact .inl (h.goOn hp hpc rfl rfl (by rfl) rfl (.inr ⟨rfl, rfl⟩) (.inl rfl))
  case h_16 a' f hpc =>
    cases hs
    have hawake : ∀ {q c'}, home q = some c' → (s.tab q).state = .running := fun hq =>
      h.awake hp hpc rfl rfl hq
    have h₁ := h.wakeup1 (fun hq => by rw [hawake hq]; nofun) (some (.addr a'))
    obtain ⟨htab, hst⟩ := s.tab_wakeup1 (some (.addr a')) p
    have hrun : ((s.wakeup1 (some (.addr a'))).tab p).state = .running := by
      rcases hst with e | ⟨e, -⟩
      · rw [e, hawake hp]
      · rw [hawake hp] at e
        cases e
    have hpc₁ : ((s.wakeup1 (some (.addr a'))).tab p).pc = .waking a' f := by
      rw [htab]
      exact hpc
    exact .inl (h₁.advance hp hpc₁ rfl (by rw [hrun]; rfl) (.inr ⟨rfl, rfl⟩)
      (.inr (by cases f <;> rfl)))
  case h_17 hpc => cases hs; exact .inl (h.kill hp hpc)
  case h_18 => cases hs

/-- **Every step keeps the invariant.** -/
theorem Inv.step (h : Inv s home) {a : Act}
    (hs : s.step initproc c a = some s') : ∃ home', Inv s' home' := by
  unfold State.step at hs
  split at hs
  case h_1 hc =>
    split at hs
    · next hfree =>
      split at hs
      · -- an interrupt: nobody holds the lock
        cases hs
        refine ⟨home, h.wakeup1 (fun {q c'} hq => ?_) _⟩
        rw [h.running_of_free hfree hq]
        nofun
      · cases hs
        have hproc : update s.proc c none = s.proc := by
          rw [update_eq_self_iff, h.proc, hc]
          rfl
        have := h.setCpu (c := c) (x := .scan 0) (by rw [hc]; nofun) nofun
          (some c) (by rw [State.holds, hc, hfree]; exact .acquire rfl)
        rw [show Cpu.proc (.scan 0 : Cpu n) = none from rfl, hproc] at this
        exact ⟨home, this⟩
    · cases hs
  case h_2 i hc =>
    have hproc : update s.proc c none = s.proc := by
      rw [update_eq_self_iff, h.proc, hc]
      rfl
    split at hs
    · next hi =>
      split at hs
      · next hrun =>
        cases hs
        exact ⟨_, h.dispatch hc hrun⟩
      · cases hs
        have := h.setCpu (c := c) (x := .scan (i + 1)) (by rw [hc]; nofun) nofun
          s.lock (by rw [State.holds, hc]; exact .keep rfl)
        rw [show Cpu.proc (.scan (i + 1) : Cpu n) = none from rfl, hproc] at this
        exact ⟨home, this⟩
    · cases hs
      have := h.setCpu (c := c) (x := .idle) (by rw [hc]; nofun) nofun
        none (by rw [State.holds, hc]; exact .release rfl rfl)
      rw [show Cpu.proc (.idle : Cpu n) = none from rfl, hproc] at this
      exact ⟨home, this⟩
  case h_3 p hc =>
    rcases h.thread ((h.running c p).mp hc) hs with h' | h'
    · exact ⟨_, h'⟩
    · exact ⟨_, h'⟩
  case h_4 p hc =>
    cases hs
    have := h.setCpu (c := c) (x := .scan (p + 1)) (by rw [hc]; nofun) nofun
      s.lock (by rw [State.holds, hc]; exact .keep rfl)
    exact ⟨home, this⟩

theorem Inv.reachable
    (h : Reachable (· = State.boot initproc) (Step initproc) s) : ∃ home, Inv s home := by
  refine h.invariant (I := fun s => ∃ home, Inv s home) ?_ ?_
  · rintro s rfl
    exact ⟨_, Inv.boot initproc⟩
  · rintro s s' ⟨home, hs⟩ ⟨c, a, ha⟩
    exact hs.step ha

/-! ## The main result -/

/-- CPU `c` is in the `wait` of process `p`, and its next step frees the kernel stack of `q`. -/
def State.freesStack (s : State C n) (c : C) (p q : Fin n) : Prop :=
  s.cpu c = .running p ∧ (s.tab p).pc = .wait ∧
    first (fun q => decide ((s.tab q).parent = some p ∧ (s.tab q).state = .zombie)) = some q

instance : Decidable (s.freesStack c p q) := inferInstanceAs (Decidable (_ ∧ _ ∧ _))

omit [DecidableEq C] in
/-- While the lock is free, `c->proc` is the process whose kernel thread CPU `c` executes. -/
theorem Inv.proc_iff (h : Inv s home) (hfree : s.lock = none) :
    s.proc c = some p ↔ home p = some c := by
  rw [← h.running, h.proc]
  cases hc : s.cpu c with
  | idle | scan => exact ⟨nofun, nofun⟩
  | running q => exact ⟨fun e => by cases e; rfl, fun e => by cases e; rfl⟩
  | back q =>
    have := (h.lock c).mp (by rw [State.holds, hc])
    rw [hfree] at this
    cases this

omit [DecidableEq C] in
/-- While the lock is free, the processes on a CPU are `RUNNING`, and no others are. -/
theorem Inv.state_iff (h : Inv s home) (hfree : s.lock = none) :
    (s.tab p).state = .running ↔ ∃ c, home p = some c := by
  constructor
  · intro hrun
    cases hp : home p with
    | some c => exact ⟨c, rfl⟩
    | none =>
      have hrest := h.off hp
      rw [hrun] at hrest
      cases hrest
  · rintro ⟨c, hp⟩
    exact h.running_of_free hfree hp

/-- **The process table and the CPUs agree** whenever `ptable.lock` is free, and `wait` frees no
stack that is in use. -/
theorem table_agrees {initproc : Fin n}
    (h : Reachable (· = State.boot initproc) (Step initproc) s) :
    (s.lock = none →
      (∀ p, (s.tab p).state = .running ↔ ∃! c, s.proc c = some p) ∧
      (∀ c p, s.proc c = some p → (s.tab p).state = .running) ∧
      ∀ p, (s.tab p).state = .zombie ∨ (s.tab p).state = .unused →
        ∀ c, s.proc c ≠ some p ∧ s.cpu c ≠ .running p) ∧
    ∀ c p q, s.freesStack c p q → ∀ c', s.cpu c' ≠ .running q := by
  obtain ⟨home, hs⟩ := Inv.reachable h
  refine ⟨fun hfree => ?_, ?_⟩
  · have hproc : ∀ c p, s.proc c = some p → (s.tab p).state = .running := fun c p hp =>
      (hs.state_iff hfree).mpr ⟨c, (hs.proc_iff hfree).mp hp⟩
    refine ⟨fun p => ⟨fun hrun => ?_, fun ⟨c, hc, _⟩ => hproc c p hc⟩, hproc, ?_⟩
    · obtain ⟨c, hp⟩ := (hs.state_iff hfree).mp hrun
      refine ⟨c, (hs.proc_iff hfree).mpr hp, fun c' hc' => ?_⟩
      have := (hs.proc_iff hfree).mp hc'
      rw [hp] at this
      exact (Option.some.inj this).symm
    · intro p hst c
      have hoff : home p ≠ some c := fun hp => by
        have hrun := (hs.state_iff hfree).mpr ⟨c, hp⟩
        rw [hrun] at hst
        rcases hst with e | e <;> cases e
      exact ⟨fun e => hoff ((hs.proc_iff hfree).mp e), fun e => hoff ((hs.running c p).mp e)⟩
  · rintro c p q ⟨hcpu, hpc, hq⟩ c' hc'
    have hzombie := (of_decide_eq_true (first_eq_some.mp hq).1).2
    have hoff := (hs.reap ((hs.running c p).mp hcpu) hpc hzombie).2
    rw [(hs.running c' q).mp hc'] at hoff
    cases hoff

/-- Two CPUs: the first process forks a child, which runs on the other CPU and exits. -/
def forkAndExit : List (Fin 2 × Act) :=
  List.flatten [
    -- CPU 0 starts the first process, which forks
    [(0, .go), (0, .go), (0, .go), (0, .fork), (0, .go), (0, .go), (0, .go), (0, .go)],
    -- CPU 1 finds the child, which exits
    [(1, .go), (1, .go), (1, .go), (1, .go), (1, .exit), (1, .go), (1, .go), (1, .go), (1, .go),
      (1, .go)]]

/-- After that run the lock is free and the first process is on one CPU; when it calls `wait` it is
about to free the stack of its child, which no CPU executes on. -/
theorem table_agrees_forkAndExit :
    ∃ s s' : State (Fin 2) 3,
      run (fun s t => s.step 0 t.1 t.2) (State.boot 0) forkAndExit = some s ∧
      s.lock = none ∧ (∃! c, s.proc c = some 0) ∧
      s.step 0 0 .wait = some s' ∧ s'.freesStack 0 0 1 ∧ ∀ c', s'.cpu c' ≠ .running 1 := by
  have hend : ((run (fun s t => s.step 0 t.1 t.2) (State.boot 0 : State (Fin 2) 3)
      forkAndExit).bind fun s => (s.step 0 0 .wait).map fun s' =>
        decide (s.lock = none ∧ (s.tab 0).state = .running ∧ s'.freesStack 0 0 1)) = some true := by
    decide +kernel
  obtain ⟨s, hs, hend⟩ := Option.bind_eq_some_iff.mp hend
  obtain ⟨s', hs', hpair⟩ := Option.map_eq_some_iff.mp hend
  obtain ⟨hfree, hrun, hstack⟩ := of_decide_eq_true hpair
  have hr : Reachable (· = State.boot 0) (Step 0) s :=
    reachable_of_run (fun s t s' h => ⟨t.1, t.2, h⟩) (.init rfl) hs
  have hr' : Reachable (· = State.boot 0) (Step 0) s' := hr.step ⟨0, .wait, hs'⟩
  exact ⟨s, s', hs, hfree, (((table_agrees hr).1 hfree).1 0).mp hrun, hs', hstack,
    (table_agrees hr').2 0 0 1 hstack⟩

end Laboratorio.Xv6.Ptable
