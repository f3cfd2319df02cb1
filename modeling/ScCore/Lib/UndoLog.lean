import Mathlib.Data.List.Basic

/-!
# Undo logs

A log of keys with the values they had before they were written. Undone from
the newest entry to the oldest it gives every key its first logged value, so
what the log and the present values say together about the past never changes.
-/

universe u v

namespace UndoLog

variable {K : Type u} {V : Type v} [DecidableEq K]

/-- The value of a key before the first entry of the log was written. -/
def before (log : List (K × V)) (now : K → V) (k : K) : V :=
  match log with
  | [] => now k
  | (k', v) :: log => if k' = k then v else before log now k

variable {log : List (K × V)} {now now' : K → V} {k k' : K} {v : V}

theorem before_unlogged (unlogged : ∀ v, (k, v) ∉ log) : before log now k = now k := by
  induction log with
  | nil => rfl
  | cons entry log ih =>
    obtain ⟨k', v⟩ := entry
    have hne : k' ≠ k := by
      rintro rfl
      exact unlogged v List.mem_cons_self
    rw [before, if_neg hne]
    apply ih
    intro v' hv'
    exact unlogged v' (List.mem_cons_of_mem _ hv')

theorem before_append_logged (entry : K × V) (logged : (k, v) ∈ log) :
    before (log ++ [entry]) now' k = before log now k := by
  induction log with
  | nil => cases logged
  | cons first log ih =>
    obtain ⟨k', v'⟩ := first
    rw [List.cons_append, before, before]
    split
    · rfl
    · next hne =>
      apply ih
      rcases List.mem_cons.mp logged with heq | hmem
      · exact absurd (Prod.mk.inj heq).1.symm hne
      · exact hmem

theorem before_append_unlogged (entry : K × V) (unlogged : ∀ v, (k, v) ∉ log) :
    before (log ++ [entry]) now k = if entry.1 = k then entry.2 else now k := by
  induction log with
  | nil => rfl
  | cons first log ih =>
    obtain ⟨k', v⟩ := first
    have hne : k' ≠ k := by
      rintro rfl
      exact unlogged v List.mem_cons_self
    rw [List.cons_append, before, if_neg hne]
    apply ih
    intro v' hv'
    exact unlogged v' (List.mem_cons_of_mem _ hv')

theorem before_append (old : k' = k → (∀ v', (k, v') ∉ log) → v = now k)
    (frame : k' ≠ k → now' k = now k) :
    before (log ++ [(k', v)]) now' k = before log now k := by
  by_cases logged : ∃ v', (k, v') ∈ log
  · obtain ⟨v', hv'⟩ := logged
    exact before_append_logged _ hv'
  · have unlogged : ∀ v', (k, v') ∉ log := fun v' hv' => logged ⟨v', hv'⟩
    rw [before_append_unlogged _ unlogged, before_unlogged unlogged]
    dsimp only
    split
    · next same => exact old same unlogged
    · next other => exact frame other

end UndoLog
