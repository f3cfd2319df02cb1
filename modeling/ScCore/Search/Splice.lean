import ScCore.Search.Inline
import ScCore.Search.Solutions

/-!
# Putting a program in the place of a command

A program whose registers are renamed finds, in the renamed registers, what it
finds in its own, if no two of its registers that it writes share a place.
-/

namespace ScCore.Search

variable {V : Type}

def PrgItem.placed (ρ : Nat → Nat) (item : PrgItem) : PrgItem :=
  { item with paramsIn := item.paramsIn.map ρ, paramsOut := item.paramsOut.map (Option.map ρ) }

section Renamed

variable {ρ : Nat → Nat} {item : PrgItem} {items : List PrgItem}

@[simp]
theorem PrgItem.placed_targets : (item.placed ρ).targets = item.targets.map (Option.map ρ) := by
  unfold PrgItem.targets
  cases htype : item.type <;> simp [PrgItem.placed, htype]

@[simp]
theorem PrgItem.placed_written : (item.placed ρ).written = item.written.map ρ := by
  rw [PrgItem.written, PrgItem.placed_targets, List.reduceOption_map, PrgItem.written]

theorem flatMap_renamed (items : List PrgItem) :
    (items.map (PrgItem.placed ρ)).flatMap (·.written) =
      (items.flatMap (·.written)).map ρ := by
  rw [List.flatMap_map, List.map_flatMap]
  simp only [PrgItem.placed_written]

theorem PrgItem.Proper.placed (proper : item.Proper) : (item.placed ρ).Proper := by
  unfold PrgItem.Proper at proper ⊢
  cases htype : item.type with
  | func =>
    simp only [htype] at proper
    obtain ⟨r, hr⟩ := proper
    simp [PrgItem.placed, htype, hr]
  | setEach =>
    simp only [htype] at proper
    obtain ⟨s, r, hs, hr⟩ := proper
    simp [PrgItem.placed, htype, hs, hr]
  | ret => simp [htype] at proper
  | _ => simp [PrgItem.placed, htype]

variable {known : List Nat} {regs regs' : Registers V}

theorem scoped_renamed {places : List Nat} (scope : Scoped known items)
    (known_places : ∀ r ∈ known, ρ r ∈ places)
    (fresh : ∀ r ∈ items.flatMap (·.written), ρ r ∉ places)
    (apart : ∀ r ∈ items.flatMap (·.written), ∀ r' ∈ items.flatMap (·.written), ρ r = ρ r' → r =
    r') :
    Scoped places (items.map (PrgItem.placed ρ)) := by
  induction items generalizing known places with
  | nil => trivial
  | cons item items ih =>
    obtain ⟨proper, reads, -, scope⟩ := scope
    rw [List.flatMap_cons] at fresh apart
    refine ⟨proper.placed, ?_, ?_, ih scope ?_ ?_ ?_⟩
    · intro place hplace
      obtain ⟨r, hr, rfl⟩ := List.mem_map.mp hplace
      exact known_places r (reads r hr)
    · rw [PrgItem.placed_written]
      intro place hplace
      obtain ⟨r, hr, rfl⟩ := List.mem_map.mp hplace
      exact fresh r (List.mem_append_left _ hr)
    · rw [PrgItem.placed_written]
      intro r hr
      rcases List.mem_append.mp hr with hr | hr
      · exact List.mem_append_left _ (known_places r hr)
      · exact List.mem_append_right _ (List.mem_map_of_mem hr)
    · rw [PrgItem.placed_written]
      intro r hr hplace
      rcases List.mem_append.mp hplace with hplace | hplace
      · exact fresh r (List.mem_append_right _ hr) hplace
      · obtain ⟨r', hr', same⟩ := List.mem_map.mp hplace
        have := apart r' (List.mem_append_left _ hr') r (List.mem_append_right _ hr) same
        exact scope.not_known hr (List.mem_append_right _ (this ▸ hr'))
    · intro r hr r' hr'
      exact apart r (List.mem_append_right _ hr) r' (List.mem_append_right _ hr')

theorem store_renamed (nil : V) (outs : List (Option Nat)) (vs : List V)
    (same : ∀ r ∈ known, regs' (ρ r) = regs r)
    (apart : ∀ out ∈ outs.reduceOption, ∀ r ∈ known ++ outs.reduceOption, ρ r = ρ out → r = out) :
    ∀ r ∈ known ++ outs.reduceOption,
      regs'.store nil (outs.map (Option.map ρ)) vs (ρ r) = regs.store nil outs vs r := by
  induction outs generalizing known regs regs' vs with
  | nil =>
    intro r hr
    exact same r (by simpa using hr)
  | cons out outs ih =>
    cases out with
    | none =>
      rw [List.reduceOption_cons_of_none] at apart ⊢
      exact ih _ same apart
    | some out =>
      rw [List.reduceOption_cons_of_some] at apart ⊢
      have same₁ : ∀ r ∈ known ++ [out],
          regs'.set (ρ out) (vs.headD nil) (ρ r) = regs.set out (vs.headD nil) r := by
        intro r hr
        by_cases heq : r = out
        · rw [heq, Registers.set_same, Registers.set_same]
        · have hknown : r ∈ known := by simpa [heq] using hr
          have hne : ρ r ≠ ρ out := fun h =>
            heq (apart out List.mem_cons_self r (List.mem_append_left _ hknown) h)
          rw [Registers.set_of_ne hne, Registers.set_of_ne heq]
          exact same r hknown
      intro r hr
      refine ih _ same₁ ?_ r (by simpa using hr)
      intro out' hout r hr
      exact apart out' (List.mem_cons_of_mem _ hout) r (by simpa using hr)

/-- The solutions of a renamed program, one by one: the places have what the program's own
registers have, and nothing else is written. -/
theorem solutions_renamed (world : World V)
    (scope : Scoped known items) (same : ∀ r ∈ known, regs' (ρ r) = regs r)
    (apart : ∀ out ∈ items.flatMap (·.written), ∀ r ∈ known ++ items.flatMap (·.written),
      ρ r = ρ out → r = out) :
    List.Forall₂ (fun found found' =>
        (∀ r ∈ known ++ items.flatMap (·.written), found' (ρ r) = found r) ∧
        ∀ r, r ∉ (items.flatMap (·.written)).map ρ → found' r = regs' r)
      (world.solutions items regs) (world.solutions (items.map (PrgItem.placed ρ)) regs') := by
  induction items generalizing known regs regs' with
  | nil =>
    refine .cons ⟨?_, fun _ _ => rfl⟩ .nil
    simpa using same
  | cons item items ih =>
    obtain ⟨-, reads, -, scope⟩ := scope
    have args : (item.placed ρ).args regs' = item.args regs := by
      simp only [PrgItem.args, PrgItem.placed, List.map_map]
      exact List.map_congr_left fun r hr => same r (reads r hr)
    have choices : world.choices (item.placed ρ) (item.args regs) =
        world.choices item (item.args regs) := rfl
    simp only [List.flatMap_cons] at apart ⊢
    rw [List.map_cons, World.solutions_cons, World.solutions_cons, World.solve, World.solve, args,
      choices, PrgItem.placed_targets, List.flatMap_map, List.flatMap_map]
    apply List.rel_flatMap (R := (· = ·)) (List.forall₂_same.mpr fun _ _ => rfl)
    rintro vs _ rfl
    have same₁ := store_renamed world.nil item.targets vs same
      fun out hout r hr => apart out (List.mem_append_left _ hout) r (by
        rw [← List.append_assoc]
        exact List.mem_append_left _ hr)
    refine (ih scope same₁ ?_).imp ?_
    · intro out hout r hr
      refine apart out (List.mem_append_right _ hout) r ?_
      rwa [← List.append_assoc]
    · rintro found found' ⟨places, frame⟩
      rw [← List.append_assoc]
      refine ⟨places, fun r hr => ?_⟩
      rw [List.map_append, List.mem_append, not_or] at hr
      rw [frame r hr.2]
      apply Registers.store_of_not_mem
      rw [List.reduceOption_map]
      exact hr.1

end Renamed

end ScCore.Search
