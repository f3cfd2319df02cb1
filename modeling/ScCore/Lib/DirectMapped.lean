import Mathlib.Tactic.Common

/-!
# Direct-mapped caches

A cache with one slot for each hash. An entry is sound when it is true of what the
cache stands before; the cache forgets an entry when another key takes its slot.
-/

namespace ScCore

/-- A cache that keeps at most one entry for each hash. -/
structure DirectMapped (κ ν : Type) where
  slots : Nat → Option (κ × ν)

namespace DirectMapped

variable {κ ν : Type} [DecidableEq κ] (hash : κ → Nat)

def empty : DirectMapped κ ν := ⟨fun _ => none⟩

def lookup (c : DirectMapped κ ν) (k : κ) : Option ν :=
  (c.slots (hash k)).bind fun e => if e.1 = k then some e.2 else none

/-- The slot of the key holds an entry of another one. -/
def collides (c : DirectMapped κ ν) (k : κ) : Bool := (c.slots (hash k)).any fun e => e.1 ≠ k

def put (c : DirectMapped κ ν) (k : κ) (v : ν) : DirectMapped κ ν :=
  ⟨Function.update c.slots (hash k) (some (k, v))⟩

def clear (c : DirectMapped κ ν) (k : κ) : DirectMapped κ ν :=
  ⟨Function.update c.slots (hash k) ((c.slots (hash k)).filter fun e => e.1 ≠ k)⟩

/-- Forget the entries with certain values. -/
def drop (c : DirectMapped κ ν) (p : ν → Bool) : DirectMapped κ ν :=
  ⟨fun i => (c.slots i).filter fun e => !p e.2⟩

/-- Every entry is in its slot and true. -/
def Sound (c : DirectMapped κ ν) (R : κ → ν → Prop) : Prop :=
  ∀ i k v, c.slots i = some (k, v) → hash k = i ∧ R k v

variable {hash} {c : DirectMapped κ ν} {R R' : κ → ν → Prop} {k k' : κ} {v : ν}

theorem lookup_eq_some : c.lookup hash k = some v ↔ c.slots (hash k) = some (k, v) := by
  simp only [lookup, Option.bind_eq_some_iff, Option.ite_none_right_eq_some]
  constructor
  · rintro ⟨⟨j, w⟩, hslot, rfl, hw⟩
    rw [hslot, ← Option.some.inj hw]
  · intro hslot
    exact ⟨_, hslot, rfl, rfl⟩

theorem collides_of_lookup (h : c.lookup hash k = some v) : c.collides hash k = false := by
  simp [collides, lookup_eq_some.mp h]

@[simp]
theorem lookup_put_self : (c.put hash k v).lookup hash k = some v := by
  simp [lookup, put]

theorem lookup_put_of_ne (free : c.collides hash k = false) (hne : k' ≠ k) :
    (c.put hash k v).lookup hash k' = c.lookup hash k' := by
  by_cases heq : hash k' = hash k
  · have old : c.lookup hash k' = none := by
      rw [lookup, heq]
      cases hslot : c.slots (hash k) with
      | none => rfl
      | some e =>
        have hkey : e.1 = k := by simpa [collides, hslot] using free
        simp [hkey, hne.symm]
    rw [old, lookup, heq]
    simp [put, hne.symm]
  · simp [lookup, put, heq]

theorem lookup_clear_of_ne (hne : k' ≠ k) :
    (c.clear hash k).lookup hash k' = c.lookup hash k' := by
  by_cases heq : hash k' = hash k
  · rw [lookup, lookup, heq]
    cases hslot : c.slots (hash k) with
    | none => simp [clear, hslot]
    | some e =>
      by_cases hkey : e.1 = k
      · simp [clear, hslot, Option.filter_some, hkey, hne.symm]
      · simp [clear, hslot, Option.filter_some, hkey]
  · simp [lookup, clear, heq]

theorem lookup_drop (p : ν → Bool) :
    (c.drop p).lookup hash k = (c.lookup hash k).filter fun v => !p v := by
  rw [lookup, lookup, drop]
  dsimp only
  cases c.slots (hash k) with
  | none => rfl
  | some e => by_cases hkey : e.1 = k <;> cases hp : p e.2 <;> simp [Option.filter_some, hkey, hp]

omit [DecidableEq κ] in
theorem drop_of_forall (p : ν → Bool) (h : ∀ i e, c.slots i = some e → p e.2 = false) :
    c.drop p = c := by
  have hslots : (fun i => (c.slots i).filter fun e => !p e.2) = c.slots := by
    funext i
    cases hslot : c.slots i with
    | none => rfl
    | some e => simp [Option.filter_some, h i e hslot]
  rw [drop, hslots]

namespace Sound

omit [DecidableEq κ] in
theorem empty : Sound hash (empty : DirectMapped κ ν) R := fun _ _ _ h => by cases h

theorem lookup (sound : Sound hash c R) (h : c.lookup hash k = some v) : R k v :=
  (sound _ _ _ (lookup_eq_some.mp h)).2

omit [DecidableEq κ] in
theorem mono (sound : Sound hash c R) (h : ∀ k v, R k v → R' k v) : Sound hash c R' :=
  fun i k v hslot => ⟨(sound i k v hslot).1, h k v (sound i k v hslot).2⟩

omit [DecidableEq κ] in
theorem put (sound : Sound hash c R) (others : ∀ k' v', k' ≠ k → R k' v' → R' k' v')
    (new : R' k v) : Sound hash (c.put hash k v) R' := by
  intro i k' v' hslot
  by_cases heq : i = hash k
  · subst heq
    simp only [DirectMapped.put, Function.update_self, Option.some.injEq, Prod.mk.injEq] at hslot
    obtain ⟨rfl, rfl⟩ := hslot
    exact ⟨rfl, new⟩
  · simp only [DirectMapped.put, Function.update_of_ne heq] at hslot
    obtain ⟨hhash, hR⟩ := sound i k' v' hslot
    refine ⟨hhash, others k' v' ?_ hR⟩
    rintro rfl
    exact heq hhash.symm

theorem clear (sound : Sound hash c R) (others : ∀ k' v', k' ≠ k → R k' v' → R' k' v') :
    Sound hash (c.clear hash k) R' := by
  intro i k' v' hslot
  by_cases heq : i = hash k
  · subst heq
    simp only [DirectMapped.clear, Function.update_self, Option.filter_eq_some_iff,
      decide_eq_true_eq] at hslot
    obtain ⟨hhash, hR⟩ := sound _ k' v' hslot.1
    exact ⟨hhash, others k' v' hslot.2 hR⟩
  · simp only [DirectMapped.clear, Function.update_of_ne heq] at hslot
    obtain ⟨hhash, hR⟩ := sound i k' v' hslot
    refine ⟨hhash, others k' v' ?_ hR⟩
    rintro rfl
    exact heq hhash.symm

omit [DecidableEq κ] in
theorem drop (sound : Sound hash c R) (p : ν → Bool)
    (others : ∀ k v, p v = false → R k v → R' k v) : Sound hash (c.drop p) R' := by
  intro i k v hslot
  simp only [DirectMapped.drop, Option.filter_eq_some_iff, Bool.not_eq_true'] at hslot
  obtain ⟨hhash, hR⟩ := sound i k v hslot.1
  exact ⟨hhash, others k v hslot.2 hR⟩

end Sound

end DirectMapped

end ScCore
