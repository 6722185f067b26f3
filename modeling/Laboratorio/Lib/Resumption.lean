import Mathlib

/-!
# Programs that several parties run together

A `Prog Op Res α` performs operations one at a time; the operation `o` answers with a `Res o`, and the
program goes on from there. Between any two operations others can run, so what a program relies on is
not the state but a *view* of its own, of which a `Protocol` says when an operation is allowed and how
the view changes with the answer. `Obeys T Q p l` says that `p` keeps to the protocol from the view
`l` on, whatever the answers are, and ends in a result and a view that satisfy `Q`.

A thread is a program that has been stopped before its next operation. When a step of it performs
that operation, what remains obeys the protocol from the next view on; this is all that the
invariants of a system of threads need to know of the programs.
-/

namespace Laboratorio.Resumption

variable {Op : Type} {Res : Op → Type} {α β L : Type}

inductive Prog (Op : Type) (Res : Op → Type) (α : Type) where
  | pure (a : α)
  | op (o : Op) (k : Res o → Prog Op Res α)

namespace Prog

/-- Run `p` and then what `f` makes of its result. -/
def bind : Prog Op Res α → (α → Prog Op Res β) → Prog Op Res β
  | pure a, f => f a
  | op o k, f => op o fun r => (k r).bind f

instance : Monad (Prog Op Res) where
  pure := pure
  bind := bind

end Prog

/-- One operation. -/
def perform (o : Op) : Prog Op Res (Res o) := .op o .pure

/-- When an operation is allowed, and the views it can lead to. -/
structure Protocol (Op : Type) (Res : Op → Type) (L : Type) where
  pre : Op → L → Prop
  post : (o : Op) → L → Res o → L → Prop

def Obeys (T : Protocol Op Res L) (Q : α → L → Prop) : Prog Op Res α → L → Prop
  | .pure a, l => Q a l
  | .op o k, l => T.pre o l ∧ ∀ r l', T.post o l r l' → Obeys T Q (k r) l'

variable {T : Protocol Op Res L} {Q Q' : α → L → Prop} {l : L}

/-- **The rule of sequencing.** -/
@[simp] theorem obeys_bind {p : Prog Op Res α} {f : α → Prog Op Res β} {Q : β → L → Prop} :
    Obeys T Q (p >>= f) l ↔ Obeys T (fun a l' => Obeys T Q (f a) l') p l := by
  show Obeys T Q (p.bind f) l ↔ _
  induction p generalizing l with
  | pure a => exact Iff.rfl
  | op o k ih =>
    constructor
    · intro h
      exact ⟨h.1, fun r l' hl' => (ih r).mp (h.2 r l' hl')⟩
    · intro h
      exact ⟨h.1, fun r l' hl' => (ih r).mpr (h.2 r l' hl')⟩

end Laboratorio.Resumption
