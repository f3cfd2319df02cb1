import Mathlib.Order.WellFoundedSet

/-!
# Closures of a relation

The elements reached from one element are the least set that contains it and is
closed under the relation, and a walk that follows the relation from it ends
exactly when no cycle can be reached.
-/

universe u

namespace Relation

variable {α : Type u} {r : α → α → Prop} {a : α}

/-- `S` contains `a` and everything the relation leads to. -/
def ClosedFrom (r : α → α → Prop) (a : α) (S : Set α) : Prop :=
  a ∈ S ∧ ∀ b ∈ S, ∀ x, r b x → x ∈ S

theorem closedFrom_reach (r : α → α → Prop) (a : α) :
    ClosedFrom r a {x | ReflTransGen r a x} :=
  ⟨ReflTransGen.refl, fun _ hb _ hx => ReflTransGen.tail hb hx⟩

theorem ClosedFrom.reach_subset {S : Set α} (h : ClosedFrom r a S) :
    {x | ReflTransGen r a x} ⊆ S := by
  intro x hx
  induction hx with
  | refl => exact h.1
  | tail _ hbc ih => exact h.2 _ ih _ hbc

theorem isLeast_reach (r : α → α → Prop) (a : α) :
    IsLeast {S | ClosedFrom r a S} {x | ReflTransGen r a x} :=
  ⟨closedFrom_reach r a, fun _ h => h.reach_subset⟩

theorem acc_reach {x : α} (acc : Acc (fun x y => r y x) a) (hx : ReflTransGen r a x) :
    Acc (fun x y => r y x) x := by
  induction hx with
  | refl => exact acc
  | tail _ hbc ih => exact ih.inv hbc

theorem not_cycle_of_acc (acc : Acc (fun x y => r y x) a) : ¬TransGen r a a := by
  induction acc with
  | intro a _ ih =>
    intro cycle
    obtain ⟨b, hab, hba⟩ := TransGen.head'_iff.mp cycle
    exact ih b hab (TransGen.tail' hba hab)

/-- Where only finitely many elements can be reached, a walk ends exactly when
it cannot reach a cycle. -/
theorem acc_iff_acyclic {S : Set α} (finite : S.Finite) (target : ∀ x y, r x y → y ∈ S) :
    Acc (fun x y => r y x) a ↔ ∀ x, ReflTransGen r a x → ¬TransGen r x x := by
  constructor
  · exact fun acc x hx => not_cycle_of_acc (acc_reach acc hx)
  · intro acyclic
    -- Later than, among what is reached from `a`: a strict order.
    let later : α → α → Prop := fun x y => ReflTransGen r a y ∧ TransGen r y x
    have strict : IsStrictOrder α later := {
      irrefl := fun x ⟨hx, cycle⟩ => acyclic x hx cycle
      trans := fun x y z ⟨_, hyx⟩ ⟨hz, hzy⟩ => ⟨hz, hzy.trans hyx⟩ }
    have wf : (insert a S).WellFoundedOn later := (finite.insert a).wellFoundedOn
    have acc : ReflTransGen r a a → Acc (fun x y => r y x) a := by
      refine wf.induction (P := fun x => ReflTransGen r a x → Acc (fun x y => r y x) x)
        (Set.mem_insert a S) fun x _ ih hreach => ⟨_, fun y hxy => ?_⟩
      exact ih y (Set.mem_insert_of_mem a (target x y hxy)) ⟨hreach, TransGen.single hxy⟩
        (hreach.tail hxy)
    exact acc ReflTransGen.refl

end Relation
