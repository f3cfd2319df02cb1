import Mathlib.Order.Lattice
import Mathlib.Data.List.Basic

/-!
# Ordered maps

Maps that are walked in the order of their keys. To insert a key that is there changes nothing.
-/

namespace ScCore

/-- Entries in the order of their keys. -/
structure OrderedMap (K V : Type) [LinearOrder K] where
  entries : List (K × V)
  sorted : entries.Pairwise fun p q => p.1 < q.1

namespace OrderedMap

variable {K V : Type} [LinearOrder K]

/-- An entry in its place, unless the key is there. -/
def insertEntry (k : K) (v : V) : List (K × V) → List (K × V)
  | [] => [(k, v)]
  | p :: ps =>
      if k < p.1 then (k, v) :: p :: ps
      else if k = p.1 then p :: ps
      else p :: insertEntry k v ps

variable {p : K × V} {ps : List (K × V)}

theorem mem_insertEntry {k : K} {v : V} (mem : p ∈ insertEntry k v ps) : p = (k, v) ∨ p ∈ ps := by
  induction ps with
  | nil => exact .inl (List.mem_singleton.mp mem)
  | cons q ps ih =>
    rw [insertEntry] at mem
    split at mem
    · exact (List.mem_cons.mp mem).imp id id
    split at mem
    · exact .inr mem
    · obtain rfl | mem := List.mem_cons.mp mem
      · exact .inr List.mem_cons_self
      · exact (ih mem).imp id (List.mem_cons_of_mem _)

theorem sorted_insertEntry {k : K} {v : V} (sorted : ps.Pairwise fun p q => p.1 < q.1) :
    (insertEntry k v ps).Pairwise fun p q => p.1 < q.1 := by
  induction ps with
  | nil => exact List.pairwise_singleton _ _
  | cons q ps ih =>
    obtain ⟨least, rest⟩ := List.pairwise_cons.mp sorted
    rw [insertEntry]
    split
    case isTrue before =>
      refine List.pairwise_cons.mpr ⟨fun p mem => ?_, sorted⟩
      obtain rfl | mem := List.mem_cons.mp mem
      · exact before
      · exact lt_trans before (least p mem)
    case isFalse behind =>
      split
      · exact sorted
      case isFalse other =>
        refine List.pairwise_cons.mpr ⟨fun p mem => ?_, ih rest⟩
        obtain rfl | mem := mem_insertEntry mem
        · exact lt_of_le_of_ne (not_lt.mp behind) (Ne.symm other)
        · exact least p mem

def empty : OrderedMap K V := ⟨[], .nil⟩

def insert (m : OrderedMap K V) (k : K) (v : V) : OrderedMap K V :=
  ⟨insertEntry k v m.entries, sorted_insertEntry m.sorted⟩

def erase (m : OrderedMap K V) (k : K) : OrderedMap K V :=
  ⟨m.entries.filter fun p => p.1 ≠ k, m.sorted.filter _⟩

def find (m : OrderedMap K V) (k : K) : Option V :=
  (m.entries.find? fun p => p.1 = k).map Prod.snd

variable {m : OrderedMap K V} {j k : K} {v w : V}

@[simp] theorem find_empty : (empty : OrderedMap K V).find k = none := rfl

theorem find_eq_some : m.find k = some v ↔ (k, v) ∈ m.entries := by
  obtain ⟨entries, sorted⟩ := m
  rw [find]
  dsimp only
  induction entries with
  | nil => simp
  | cons p ps ih =>
    obtain ⟨least, rest⟩ := List.pairwise_cons.mp sorted
    obtain ⟨j, w⟩ := p
    by_cases here : j = k
    · subst here
      rw [List.find?_cons_of_pos (by simp), Option.map_some, List.mem_cons]
      constructor
      · intro same
        cases same
        exact .inl rfl
      · rintro (same | behind)
        · cases same
          rfl
        · exact absurd (least _ behind) (lt_irrefl _)
    · rw [List.find?_cons_of_neg (by simpa using here), ih rest, List.mem_cons]
      constructor
      · exact .inr
      · rintro (same | behind)
        · cases same
          exact absurd rfl here
        · exact behind

theorem find_eq_none : m.find k = none ↔ ∀ v, (k, v) ∉ m.entries := by
  constructor
  · intro none v mem
    rw [find_eq_some.mpr mem] at none
    cases none
  · intro missing
    cases found : m.find k with
    | none => rfl
    | some v => exact absurd (find_eq_some.mp found) (missing v)

theorem mem_insertEntry_iff (sorted : ps.Pairwise fun p q => p.1 < q.1) :
    p ∈ insertEntry k v ps ↔ p ∈ ps ∨ p = (k, v) ∧ ∀ w, (k, w) ∉ ps := by
  induction ps with
  | nil => simp [insertEntry]
  | cons q ps ih =>
    obtain ⟨least, rest⟩ := List.pairwise_cons.mp sorted
    rw [insertEntry]
    split
    case isTrue before =>
      have missing : ∀ w, (k, w) ∉ q :: ps := by
        intro w mem
        obtain rfl | mem := List.mem_cons.mp mem
        · exact lt_irrefl _ before
        · exact lt_asymm before (least _ mem)
      rw [List.mem_cons, or_comm]
      exact or_congr_right (and_iff_left missing).symm
    case isFalse behind =>
      split
      case isTrue same =>
        refine (or_iff_left ?_).symm
        rintro ⟨-, missing⟩
        exact missing q.2 (by rw [same]; exact List.mem_cons_self)
      case isFalse other =>
        have apart : (∀ w, (k, w) ∉ ps) ↔ ∀ w, (k, w) ∉ q :: ps := by
          refine forall_congr' fun w => not_congr ?_
          rw [List.mem_cons]
          exact (or_iff_right fun same => other (congrArg Prod.fst same)).symm
        rw [List.mem_cons, ih rest, List.mem_cons, or_assoc, apart]

theorem mem_insert : p ∈ (m.insert k v).entries ↔ p ∈ m.entries ∨ p = (k, v) ∧ m.find k = none := by
  rw [find_eq_none]
  exact mem_insertEntry_iff m.sorted

theorem mem_erase : p ∈ (m.erase k).entries ↔ p ∈ m.entries ∧ p.1 ≠ k := by
  rw [erase, List.mem_filter]
  exact and_congr_right fun _ => decide_eq_true_iff

theorem find_insert : (m.insert k v).find j = if j = k then some ((m.find k).getD v)
    else m.find j := by
  have iff (w : V) : (m.insert k v).find j = some w ↔
      (if j = k then some ((m.find k).getD v) else m.find j) = some w := by
    rw [find_eq_some, mem_insert, ← find_eq_some]
    by_cases here : j = k
    · subst here
      rw [if_pos rfl]
      cases found : m.find j with
      | none => simp [eq_comm]
      | some w' => simp
    · rw [if_neg here]
      exact or_iff_left fun new => here (congrArg Prod.fst new.1)
  cases found : (m.insert k v).find j with
  | some w => exact ((iff w).mp found).symm
  | none =>
    cases other : (if j = k then some ((m.find k).getD v) else m.find j) with
    | none => rfl
    | some w =>
      rw [(iff w).mpr other] at found
      cases found

theorem find_erase : (m.erase k).find j = if j = k then none else m.find j := by
  by_cases here : j = k
  · rw [if_pos here, find_eq_none]
    exact fun v mem => (mem_erase.mp mem).2 here
  · rw [if_neg here]
    cases found : m.find j with
    | some v => exact find_eq_some.mpr (mem_erase.mpr ⟨find_eq_some.mp found, here⟩)
    | none => exact find_eq_none.mpr fun v mem => find_eq_none.mp found v (mem_erase.mp mem).1

end OrderedMap

end ScCore
