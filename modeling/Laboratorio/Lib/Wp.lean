import Mathlib

/-!
# Weakest preconditions for programs that can fail

`wp x Q E s` says that the program `x`, started in the state `s`, ends in a result and a state that
satisfy `Q`, or stops with an error that satisfies `E`. The rules follow the structure of a `do`
block; a function of a program is reasoned about through one rule of its own, used with `wp_then`.
-/

namespace Laboratorio.Wp

variable {σ ε α β : Type}

/-- Every end of `x` from `s` is as `Q` and `E` say. -/
def wp (x : StateT σ (Except ε) α) (Q : α → σ → Prop) (E : ε → Prop) (s : σ) : Prop :=
  match x s with
  | .ok (a, s') => Q a s'
  | .error e => E e

variable {x : StateT σ (Except ε) α} {Q Q' : α → σ → Prop} {E E' : ε → Prop} {s s' : σ}

theorem wp.ok {a : α} (h : wp x Q E s) (hx : x s = .ok (a, s')) : Q a s' := by
  rw [wp, hx] at h
  exact h

theorem wp.error {e : ε} (h : wp x Q E s) (hx : x s = .error e) : E e := by
  rw [wp, hx] at h
  exact h

/-- A program is described by its ends. -/
theorem wp_of_ends (hok : ∀ a s', x s = .ok (a, s') → Q a s') (herr : ∀ e, x s = .error e → E e) :
    wp x Q E s := by
  unfold wp
  split
  · next heq => exact hok _ _ heq
  · next heq => exact herr _ heq

theorem wp_of_ok {a : α} (hx : x s = .ok (a, s')) (hQ : Q a s') : wp x Q E s := by
  rw [wp, hx]
  exact hQ

/-- A program that never stops with an error ends in a result. -/
theorem wp.exists_ok (h : wp x Q (fun _ => False) s) : ∃ a s', x s = .ok (a, s') ∧ Q a s' := by
  unfold wp at h
  split at h
  · next heq => exact ⟨_, _, heq, h⟩
  · exact h.elim

/-- The rule of consequence. -/
theorem wp_mono (h : wp x Q E s) (hQ : ∀ a s', Q a s' → Q' a s') (hE : ∀ e, E e → E' e) :
    wp x Q' E' s :=
  wp_of_ends (fun _ _ hx => hQ _ _ (h.ok hx)) (fun _ hx => hE _ (h.error hx))

/-- The rule of consequence for results only. -/
theorem wp_post (h : wp x Q E s) (hQ : ∀ a s', Q a s' → Q' a s') : wp x Q' E s :=
  wp_mono h hQ fun _ he => he

theorem wp_and (h : wp x Q E s) (h' : wp x Q' E' s) :
    wp x (fun a s' => Q a s' ∧ Q' a s') (fun e => E e ∧ E' e) s :=
  wp_of_ends (fun _ _ hx => ⟨h.ok hx, h'.ok hx⟩) (fun _ hx => ⟨h.error hx, h'.error hx⟩)

/-! ## The rules of a `do` block -/

@[simp] theorem wp_pure (a : α) : wp (pure a : StateT σ (Except ε) α) Q E s ↔ Q a s := Iff.rfl

@[simp] theorem wp_bind {f : α → StateT σ (Except ε) β} {Q : β → σ → Prop} :
    wp (x >>= f) Q E s ↔ wp x (fun a s' => wp (f a) Q E s') E s := by
  have hrun : (x >>= f) s = match x s with
      | .ok (a, s') => f a s'
      | .error e => .error e := by
    show (x s >>= fun p => f p.1 p.2) = _
    cases x s <;> rfl
  rw [wp, wp, hrun]
  cases x s with
  | ok p => rfl
  | error e => rfl

/-- The rule for a sequence, to be applied to a rule for its first part. -/
theorem wp_seq {f : α → StateT σ (Except ε) β} {Q : β → σ → Prop}
    (h : wp x (fun a s' => wp (f a) Q E s') E s) : wp (x >>= f) Q E s := wp_bind.mpr h

/-- The rule for a sequence whose first part has a rule with its own postcondition. -/
theorem wp_then {f : α → StateT σ (Except ε) β} {Q' : β → σ → Prop} (h : wp x Q E s)
    (hf : ∀ a s', Q a s' → wp (f a) Q' E s') : wp (x >>= f) Q' E s := wp_seq (wp_post h hf)

@[simp] theorem wp_map {f : α → β} {Q : β → σ → Prop} :
    wp (f <$> x) Q E s ↔ wp x (fun a => Q (f a)) E s := by
  have : f <$> x = x >>= fun a => pure (f a) := rfl
  rw [this, wp_bind]
  rfl

@[simp] theorem wp_get {Q : σ → σ → Prop} :
    wp (get : StateT σ (Except ε) σ) Q E s ↔ Q s s := Iff.rfl

@[simp] theorem wp_set {Q : PUnit → σ → Prop} (t : σ) :
    wp (set t : StateT σ (Except ε) PUnit) Q E s ↔ Q ⟨⟩ t := Iff.rfl

@[simp] theorem wp_modify {Q : PUnit → σ → Prop} (f : σ → σ) :
    wp (modify f : StateT σ (Except ε) PUnit) Q E s ↔ Q ⟨⟩ (f s) := Iff.rfl

@[simp] theorem wp_throw (e : ε) : wp (throw e : StateT σ (Except ε) α) Q E s ↔ E e := Iff.rfl

theorem wp_ite {c : Prop} [Decidable c] {y : StateT σ (Except ε) α} :
    wp (if c then x else y) Q E s ↔ (c → wp x Q E s) ∧ (¬ c → wp y Q E s) := by
  by_cases hc : c <;> simp [hc]

/-- The rule for a loop over a list: `I` relates the part that has been done to the state. -/
theorem wp_forM {f : β → StateT σ (Except ε) PUnit} (I : List β → σ → Prop) (l : List β)
    (hstep : ∀ pre x post, l = pre ++ x :: post → ∀ s, I pre s →
      wp (f x) (fun _ s' => I (pre ++ [x]) s') E s)
    (h0 : I [] s) : wp (l.forM f) (fun _ s' => I l s') E s := by
  suffices hloop : ∀ post pre s, l = pre ++ post → I pre s →
      wp (post.forM f) (fun _ s' => I l s') E s from hloop l [] s rfl h0
  intro post
  induction post with
  | nil =>
    intro pre s hl hI
    rw [List.append_nil] at hl
    rw [hl]
    exact hI
  | cons x post ih =>
    intro pre s hl hI
    show wp (f x >>= fun _ => post.forM f) _ _ _
    refine wp_then (hstep pre x post hl s hI) fun _ s' hI' => ?_
    exact ih (pre ++ [x]) s' (by rw [hl, List.append_assoc, List.singleton_append]) hI'

end Laboratorio.Wp
