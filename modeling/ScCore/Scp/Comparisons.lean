import ScCore.Store.ContentOrder
import ScCore.Scp.Process
import ScCore.Scp.Variables

/-!
# The comparison operators

`ifEq`, `ifGr` and `ifGrEq` on the contents of two elements, and when they fit together.
-/

namespace ScCore.Scp

open ScCore.Store

section Operators

variable (contentOf : Addr → ContentObject) (element1 element2 : Addr)

/-- `scp_oper_ifEq`, the state it sets. `contentOf` is `get_content` of the session. -/
def ifEq : ScpState :=
  if element1 = element2 then .then'
  else if (contentOf element1).eq (contentOf element2) then .then' else .else'

def ifGr : ScpState :=
  if element1 = element2 then .else'
  else if (contentOf element1).gt (contentOf element2) then .then' else .else'

def ifGrEq : ScpState :=
  if element1 = element2 then .then'
  else if (contentOf element1).gt (contentOf element2) ||
      (contentOf element1).eq (contentOf element2) then .then' else .else'

end Operators

/-- The three operators speak of one order: greater is greater or equal without equal, and is
the opposite of greater or equal of the two in the other order. -/
structure OperatorsAgree (contentOf : Addr → ContentObject) (e e' : Addr) : Prop where
  greater : ifGr contentOf e e' = .then' ↔
    ifGrEq contentOf e e' = .then' ∧ ifEq contentOf e e' = .else'
  opposite : ifGr contentOf e e' = .then' ↔ ifGrEq contentOf e' e = .else'

/-- The contents are ordered by `<`, as values where they have one, and the operators follow
this order. -/
structure Ordered (a b c : ContentObject) : Prop where
  one : [a.lt b, a.eq b, b.lt a].count true = 1
  trans : a.lt b = true → b.lt c = true → a.lt c = true
  value : a.ByValue b ∧ b.ByValue a
  operators : ∀ contentOf e e', contentOf e = a → contentOf e' = b →
    OperatorsAgree contentOf e e'

variable {contentOf : Addr → ContentObject} {e e' : Addr}

theorem same_agree (e : Addr) : OperatorsAgree contentOf e e := by
  constructor <;> simp [ifGr, ifGrEq, ifEq, ScpState.then', ScpState.else']

theorem distinct_agree (other : e ≠ e')
    (comparable : (contentOf e).Comparable (contentOf e')) : OperatorsAgree contentOf e e' := by
  have one := (ContentObject.agreeing_iff_comparable.mpr comparable).one
  have greater := comparable.gt_eq
  have less := comparable.symm.gt_eq
  have equal := ContentObject.eq_symm (contentOf e) (contentOf e')
  rw [← greater, ← less] at one
  constructor
  · rw [ifGr, ifGrEq, ifEq, if_neg other, if_neg other, if_neg other]
    revert one
    cases (contentOf e).gt (contentOf e') <;> cases (contentOf e).eq (contentOf e') <;>
      cases (contentOf e').gt (contentOf e) <;> decide
  · rw [ifGr, ifGrEq, if_neg other, if_neg (Ne.symm other), ← equal]
    revert one
    cases (contentOf e).gt (contentOf e') <;> cases (contentOf e).eq (contentOf e') <;>
      cases (contentOf e').gt (contentOf e) <;> decide

theorem ordered_iff_comparable (a b c : ContentObject) : Ordered a b c ↔ a.Comparable b := by
  constructor
  · intro ordered
    exact ContentObject.agreeing_iff_comparable.mp ⟨ordered.one, ordered.value.1, ordered.value.2⟩
  · intro comparable
    have agreeing := ContentObject.agreeing_iff_comparable.mpr comparable
    refine ⟨agreeing.one, ContentObject.lt_trans, ⟨agreeing.value, agreeing.value'⟩, ?_⟩
    rintro contentOf e e' rfl rfl
    obtain rfl | other := eq_or_ne e e'
    · exact same_agree e
    · exact distinct_agree other comparable

/-- Two contents with the string "a". -/
theorem equal_strings_unordered :
    ¬ Ordered ⟨.string [97], 0, by decide⟩ ⟨.string [97], 0, by decide⟩
      ⟨.string [97], 0, by decide⟩ :=
  fun ordered => absurd ordered.one (by decide)

end ScCore.Scp
