import Mathlib.Tactic.Common

/-!
# Bracketed runs

Runs of a machine in which every opening step is matched by a closing one, with what
the other steps have left behind.
-/

namespace ScCore

variable {σ ε : Type} {act : σ → List ε → σ → Prop} {enter leave : σ → σ → Prop}

inductive Bracketed (act : σ → List ε → σ → Prop) (enter leave : σ → σ → Prop) :
    σ → List ε → σ → Prop where
  | refl (a : σ) : Bracketed act enter leave a [] a
  | act {a b c : σ} {k l : List ε} : Bracketed act enter leave a k b → act b l c →
      Bracketed act enter leave a (k ++ l) c
  | bracket {a b c d e : σ} {k l : List ε} : Bracketed act enter leave a k b → enter b c →
      Bracketed act enter leave c l d → leave d e → Bracketed act enter leave a (k ++ l) e

/-- What holds from one end of a step to the other, and from one end of a pair of
brackets to the other when it holds between them, holds from one end of a run to the
other. -/
theorem Bracketed.lift {R : σ → List ε → σ → Prop} (refl : ∀ a, R a [] a)
    (trans : ∀ {a b c k l}, R a k b → R b l c → R a (k ++ l) c)
    (step : ∀ {a b l}, act a l b → R a l b)
    (pair : ∀ {a b c d l}, enter a b → R b l c → leave c d → R a l d)
    {a b : σ} {l : List ε} (run : Bracketed act enter leave a l b) : R a l b := by
  induction run with
  | refl a => exact refl a
  | act _ h ih => exact trans ih (step h)
  | bracket _ opened _ closed ih inner => exact trans ih (pair opened inner closed)

end ScCore
