import Mathlib.Data.List.Forall2

/-!
# Lists that are related

The members of two lists that are related one by one.
-/

namespace ScCore.Lib

theorem exists_of_mem_left {α β : Type} {R : α → β → Prop} {as : List α} {bs : List β}
    (all : List.Forall₂ R as bs) {a : α} (mem : a ∈ as) : ∃ b ∈ bs, R a b := by
  induction all with
  | nil => cases mem
  | cons head _ ih =>
    obtain rfl | mem := List.mem_cons.mp mem
    · exact ⟨_, List.mem_cons_self, head⟩
    · obtain ⟨b, hb, related⟩ := ih mem
      exact ⟨b, List.mem_cons_of_mem _ hb, related⟩

theorem exists_of_mem_right {α β : Type} {R : α → β → Prop} {as : List α} {bs : List β}
    (all : List.Forall₂ R as bs) {b : β} (mem : b ∈ bs) : ∃ a ∈ as, R a b :=
  exists_of_mem_left (R := flip R) (List.Forall₂.flip all) mem

end ScCore.Lib
