import Mathlib.Data.Finset.Card

/-!
# Forests of links

A partial map that links an item to another one, followed until it ends. A link from one
root to another joins two trees, and costs at most one more step.
-/

namespace ScCore.Lib

universe u
variable {α : Type u} {up : α → Option α} {x y a b r : α} {m n : Nat}

/-- Follow the links, at most `n - 1` of them. -/
def climb (up : α → Option α) : Nat → α → Option α
  | 0, _ => none
  | n + 1, x =>
      match up x with
      | none => some x
      | some y => climb up n y

theorem climb_succ (h : up x = some y) (n : Nat) : climb up (n + 1) x = climb up n y := by
  rw [climb, h]

theorem climb_self (h : up x = none) (n : Nat) : climb up (n + 1) x = some x := by
  rw [climb, h]

theorem climb_root (h : climb up n x = some r) : up r = none := by
  induction n generalizing x with
  | zero => cases h
  | succ n ih =>
    cases hx : up x with
    | none =>
      rw [climb_self hx] at h
      exact Option.some.inj h ▸ hx
    | some y =>
      rw [climb_succ hx] at h
      exact ih h

theorem climb_le (h : climb up n x = some r) (le : n ≤ m) : climb up m x = some r := by
  induction n generalizing x m with
  | zero => cases h
  | succ n ih =>
    obtain ⟨m, rfl⟩ : ∃ k, m = k + 1 := ⟨m - 1, by omega⟩
    cases hx : up x with
    | none =>
      rw [climb_self hx] at h ⊢
      exact h
    | some y =>
      rw [climb_succ hx] at h ⊢
      exact ih h (by omega)

theorem climb_induct {P : α → Prop} (step : ∀ x y, up x = some y → P x → P y) (px : P x)
    (h : climb up n x = some r) : P r := by
  induction n generalizing x with
  | zero => cases h
  | succ n ih =>
    cases hx : up x with
    | none =>
      rw [climb_self hx] at h
      exact Option.some.inj h ▸ px
    | some y =>
      rw [climb_succ hx] at h
      exact ih (step x y hx px) h

/-- The linked items are those of `s`, and from every item a root is within reach. -/
structure Rooted (up : α → Option α) (s : Finset α) : Prop where
  linked : ∀ x, (up x).isSome ↔ x ∈ s
  reach : ∀ x, ∃ r, climb up (s.card + 1) x = some r

theorem Rooted.empty (h : ∀ x, up x = none) : Rooted up ∅ where
  linked x := by simp [h]
  reach x := ⟨x, climb_self (h x) _⟩

theorem Rooted.climb_eq {s : Finset α} (rooted : Rooted up s) (le : s.card + 1 ≤ n) (x : α) :
    climb up n x = climb up (s.card + 1) x := by
  obtain ⟨r, hr⟩ := rooted.reach x
  rw [hr, climb_le hr le]

variable [DecidableEq α]

theorem climb_link (ha : up a = none) (hb : up b = none) (ne : a ≠ b)
    (h : climb up n x = some r) :
    climb (Function.update up a (some b)) (n + 1) x = some (if r = a then b else r) := by
  induction n generalizing x with
  | zero => cases h
  | succ n ih =>
    cases hx : up x with
    | none =>
      rw [climb_self hx] at h
      obtain rfl := Option.some.inj h
      by_cases hxa : x = a
      · subst hxa
        have up_b : Function.update up x (some b) b = none := by
          rw [Function.update_of_ne (Ne.symm ne), hb]
        rw [climb_succ (Function.update_self ..), climb_self up_b, if_pos rfl]
      · have up_x : Function.update up a (some b) x = none := by
          rw [Function.update_of_ne hxa, hx]
        rw [climb_self up_x, if_neg hxa]
    | some y =>
      have hxa : x ≠ a := by
        rintro rfl
        rw [ha] at hx
        cases hx
      rw [climb_succ hx] at h
      rw [climb_succ (by rw [Function.update_of_ne hxa, hx])]
      exact ih h

theorem Rooted.link {s : Finset α} (rooted : Rooted up s) (ha : up a = none)
    (hb : up b = none) (ne : a ≠ b) :
    Rooted (Function.update up a (some b)) (insert a s) where
  linked x := by
    by_cases hx : x = a
    · simp [hx]
    · simp [hx, rooted.linked]
  reach x := by
    have new : a ∉ s := by
      rw [← rooted.linked, ha]
      exact Bool.false_ne_true
    obtain ⟨r, hr⟩ := rooted.reach x
    rw [Finset.card_insert_of_notMem new]
    exact ⟨_, climb_link ha hb ne hr⟩

end ScCore.Lib
