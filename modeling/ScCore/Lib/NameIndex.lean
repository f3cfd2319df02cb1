import Mathlib.Tactic.Common

/-!
# Name indexes

An index from names to holders, beside the name that each holder carries
itself. The two are kept in step when a name is given, taken away or replaced.
-/

namespace ScCore.Lib

open Function

universe u v
variable {Name : Type u} {Holder : Type v}

/-- A name leads to exactly the holder that carries it. -/
def Indexes (index : Name → Option Holder) (name : Holder → Option Name) : Prop :=
  ∀ s e, index s = some e ↔ name e = some s

namespace Indexes

variable {index : Name → Option Holder} {name : Holder → Option Name}
  {s old : Name} {e : Holder}

theorem unique (h : Indexes index name) {e' : Holder} (he : name e = some s)
    (he' : name e' = some s) : e = e' :=
  Option.some.inj (((h s e).mpr he).symm.trans ((h s e').mpr he'))

variable [DecidableEq Holder]

theorem forget (h : Indexes index name) (he : name e = none) :
    Indexes index (update name e none) := by
  rwa [← he, update_eq_self]

variable [DecidableEq Name]

theorem insert (h : Indexes index name) (free : index s = none) (he : name e = none) :
    Indexes (update index s (some e)) (update name e (some s)) := by
  intro t x
  simp only [update_apply]
  by_cases ht : t = s
  · subst ht
    by_cases hx : x = e
    · simp [hx]
    · have hno : name x ≠ some t := by
        intro hxs
        rw [← h t x, free] at hxs
        cases hxs
      simp [hx, hno, Ne.symm hx]
  · by_cases hx : x = e
    · subst hx
      have hno : index t ≠ some x := by
        intro hts
        rw [h t x, he] at hts
        cases hts
      simp [ht, hno, Ne.symm ht]
    · simpa [ht, hx] using h t x

theorem remove (h : Indexes index name) (he : name e = some s) :
    Indexes (update index s none) (update name e none) := by
  intro t x
  simp only [update_apply]
  by_cases ht : t = s
  · subst ht
    by_cases hx : x = e
    · simp [hx]
    · have hno : name x ≠ some t := fun hxs => hx (h.unique hxs he)
      simp [hx, hno]
  · by_cases hx : x = e
    · subst hx
      have hno : index t ≠ some x := by
        intro hts
        exact ht (Option.some.inj (((h t x).mp hts).symm.trans he))
      simp [ht, hno]
    · simpa [ht, hx] using h t x

/-- The new name is entered before the old one is struck out. -/
theorem rename (h : Indexes index name) (free : index s = none) (he : name e = some old) :
    Indexes (update (update index s (some e)) old none) (update name e (some s)) := by
  have hne : s ≠ old := by
    rintro rfl
    rw [(h s e).mpr he] at free
    cases free
  have step := (h.remove he).insert (s := s) (e := e) (by simp [hne, free])
    (by simp)
  rwa [update_idem, update_comm hne.symm] at step

end Indexes

end ScCore.Lib
