import Mathlib.Tactic.Common

/-!
# Cursors

A cursor stands on a value of a sequence or is over. What it yields is the
sequence from where it stands; a batch takes values as long as there are some.
-/

universe u v

/-- A cursor: is it over, its step, and the value it stands on. -/
structure Cursor (σ : Type u) (V : Type v) where
  isOver : σ → Bool
  next : σ → σ
  value : σ → V

namespace Cursor

variable {σ : Type u} {V : Type v} {C : Cursor σ V} {s : σ} {vs : List V}

/-- The values from a state on, up to the end. -/
inductive Yields (C : Cursor σ V) : σ → List V → Prop
  | finished {s : σ} (isOver : C.isOver s = true) : Yields C s []
  | value {s : σ} {vs : List V} (stands : C.isOver s = false) (others : Yields C (C.next s) vs) :
      Yields C s (C.value s :: vs)

/-- Up to `n` values, with the state behind them. -/
def batch (C : Cursor σ V) : Nat → σ → σ × List V
  | 0, s => (s, [])
  | n + 1, s =>
      if C.isOver s then (s, [])
      else
        let (s', vs) := batch C n (C.next s)
        (s', C.value s :: vs)

theorem Yields.isOver_iff (h : C.Yields s vs) : C.isOver s = true ↔ vs = [] := by
  cases h with
  | finished isOver => simp [isOver]
  | value stands others => simp [stands]

theorem Yields.next (h : C.Yields s vs) (hne : vs ≠ []) : C.Yields (C.next s) vs.tail := by
  cases h with
  | finished isOver => exact absurd rfl hne
  | value stands others => exact others

theorem Yields.batch (h : C.Yields s vs) (n : Nat) :
    (C.batch n s).2 = vs.take n ∧ C.Yields (C.batch n s).1 (vs.drop n) := by
  induction n generalizing s vs with
  | zero => exact ⟨rfl, h⟩
  | succ n ih =>
    cases h with
    | finished isOver =>
      simp only [Cursor.batch, isOver, if_true]
      exact ⟨rfl, .finished isOver⟩
    | value stands others =>
      obtain ⟨taken, left⟩ := ih others
      simp only [Cursor.batch, stands, Bool.false_eq_true, if_false]
      exact ⟨congrArg (_ :: ·) taken, left⟩

end Cursor
