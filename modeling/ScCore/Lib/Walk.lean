import Mathlib.Data.List.Nodup

/-!
# Walks over a list that changes

A list is walked while its entries die, dead ones are taken out and new ones
join at the end. The log lists what the walk is to meet: the entries that were
alive at the start, and then those that have joined.
-/

universe u

/-- The log falls into a part behind and a part ahead of the walker. -/
structure Walk {N : Type u} (alive : N → Bool) (ahead visited log : List N) : Prop where
  nodup : log.Nodup
  split : ∃ past future, log = past ++ future ∧ visited.Sublist past ∧
    (ahead.filter alive).Sublist future ∧ (∀ n ∈ past, alive n = true → n ∈ visited) ∧
    ∀ n ∈ future, alive n = true → n ∈ ahead

namespace Walk

variable {N : Type u} {alive alive' : N → Bool} {ahead ahead' visited log dead rest : List N}
  {n : N}

theorem start {l : List N} (nodup : l.Nodup) : Walk alive l [] (l.filter alive) where
  nodup := nodup.filter _
  split := ⟨[], l.filter alive, rfl, List.Sublist.refl _, List.Sublist.refl _,
    fun _ hn => absurd hn List.not_mem_nil, fun _ hn _ => (List.mem_filter.mp hn).1⟩

theorem sublist (w : Walk alive ahead visited log) : visited.Sublist log := by
  obtain ⟨past, future, rfl, behind, -⟩ := w.split
  exact behind.trans (List.sublist_append_left past future)

theorem complete (w : Walk alive ahead visited log) (hn : n ∈ log) (ha : alive n = true) :
    n ∈ visited ∨ n ∈ ahead := by
  obtain ⟨past, future, rfl, -, -, seen, coming⟩ := w.split
  rcases List.mem_append.mp hn with h | h
  · exact .inl (seen n h ha)
  · exact .inr (coming n h ha)

theorem advance (w : Walk alive (dead ++ n :: rest) visited log)
    (hdead : ∀ d ∈ dead, alive d = false) (hn : alive n = true) :
    Walk alive rest (visited ++ [n]) log := by
  obtain ⟨past, future, rfl, behind, order, seen, coming⟩ := w.split
  have skipped : dead.filter alive = [] := by
    rw [List.filter_eq_nil_iff]
    intro d hd
    simp [hdead d hd]
  rw [List.filter_append, skipped, List.nil_append, List.filter_cons_of_pos hn,
    List.cons_sublist_iff] at order
  obtain ⟨stepped, left, rfl, hstep, horder⟩ := order
  have disjoint : ∀ p ∈ stepped, p ∉ left := by
    have hnodup := (List.nodup_append.mp w.nodup).2.1
    exact fun p hp hp' => (List.nodup_append.mp hnodup).2.2 p hp p hp' rfl
  -- An entry ahead that is alive is the one stepped onto or comes later.
  have later : ∀ p, p ∈ stepped ++ left → alive p = true → p = n ∨ p ∈ rest := by
    intro p hp ha
    rcases List.mem_append.mp (coming p hp ha) with h | h
    · rw [hdead p h] at ha
      cases ha
    · exact List.mem_cons.mp h
  refine ⟨w.nodup, past ++ stepped, left, (List.append_assoc _ _ _).symm, ?_, horder, ?_, ?_⟩
  · exact behind.append (List.singleton_sublist.mpr hstep)
  · intro p hp ha
    rcases List.mem_append.mp hp with h | h
    · exact List.mem_append_left _ (seen p h ha)
    · rcases later p (List.mem_append_left _ h) ha with rfl | hrest
      · exact List.mem_append_right _ List.mem_cons_self
      · exact absurd (horder.mem (List.mem_filter.mpr ⟨hrest, ha⟩)) (disjoint p h)
  · intro p hp ha
    rcases later p (List.mem_append_right _ hp) ha with rfl | hrest
    · exact absurd hp (disjoint p hstep)
    · exact hrest

theorem finish (w : Walk alive ahead visited log) (none : ∀ n ∈ ahead, alive n = false) :
    Walk alive [] visited log := by
  refine ⟨w.nodup, log, [], (List.append_nil _).symm, w.sublist, List.Sublist.refl _, ?_, ?_⟩
  · intro n hn ha
    rcases w.complete hn ha with h | h
    · exact h
    · rw [none n h] at ha
      cases ha
  · intro n hn
    cases hn

theorem change (w : Walk alive ahead visited log) (die : ∀ n ∈ log, alive' n = true → alive n =
    true)
    (order : (ahead'.filter alive').Sublist (ahead.filter alive))
    (kept : ∀ n ∈ ahead, alive' n = true → n ∈ ahead') : Walk alive' ahead' visited log := by
  obtain ⟨past, future, rfl, behind, order₀, seen, coming⟩ := w.split
  refine ⟨w.nodup, past, future, rfl, behind, order.trans order₀, ?_, ?_⟩
  · intro n hn ha
    exact seen n hn (die n (List.mem_append_left _ hn) ha)
  · intro n hn ha
    exact kept n (coming n hn (die n (List.mem_append_right _ hn) ha)) ha

theorem join (w : Walk alive ahead visited log) (new : n ∉ log) :
    Walk alive (ahead ++ [n]) visited (log ++ [n]) := by
  obtain ⟨past, future, rfl, behind, order, seen, coming⟩ := w.split
  refine ⟨?_, past, future ++ [n], List.append_assoc _ _ _, behind, ?_, seen, ?_⟩
  · exact List.nodup_append_comm.mp (List.nodup_cons.mpr ⟨new, w.nodup⟩)
  · rw [List.filter_append]
    exact order.append (List.filter_sublist)
  · intro p hp ha
    rcases List.mem_append.mp hp with h | h
    · exact List.mem_append_left _ (coming p h ha)
    · exact List.mem_append_right _ h

end Walk
