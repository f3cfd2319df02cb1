import ScCore.Search.NestedLoops
import Mathlib.Data.List.GetD

/-!
# What a program says

The nested loops of a program find the assignments of its registers under which
every command holds. No tuple is found twice, where each register that a command
ranges over is returned.
-/

namespace ScCore.Search

variable {V : Type}

theorem knownAfter_eq (known : List Nat) (items : List PrgItem) :
    knownAfter known items = known ++ items.flatMap (·.written) := by
  induction items generalizing known with
  | nil => simp [knownAfter]
  | cons item items ih =>
    rw [knownAfter, List.foldl_cons, ← knownAfter, ih, List.flatMap_cons, List.append_assoc]

theorem Scoped.proper {known : List Nat} {items : List PrgItem} (scope : Scoped known items)
    {item : PrgItem} (hitem : item ∈ items) : item.Proper := by
  induction items generalizing known with
  | nil => cases hitem
  | cons first items ih =>
    obtain ⟨proper, -, -, scope⟩ := scope
    rcases List.mem_cons.mp hitem with rfl | hitem
    · exact proper
    · exact ih scope hitem

theorem PrgItem.Proper.not_ret {item : PrgItem} (proper : item.Proper) : item.type ≠ .ret := by
  intro htype
  simp [PrgItem.Proper, htype] at proper

theorem Scoped.not_known {known : List Nat} {items : List PrgItem} (scope : Scoped known items)
    {r : Nat} (hr : r ∈ items.flatMap (·.written)) : r ∉ known := by
  induction items generalizing known with
  | nil => cases hr
  | cons item items ih =>
    obtain ⟨-, -, fresh, scope⟩ := scope
    rw [List.flatMap_cons, List.mem_append] at hr
    rcases hr with hr | hr
    · exact fresh r hr
    · exact fun hknown => ih scope hr (List.mem_append_left _ hknown)

theorem Scoped.reads {known : List Nat} {items : List PrgItem} (scope : Scoped known items)
    {item : PrgItem} (hitem : item ∈ items) :
    ∀ r ∈ item.paramsIn, r ∈ known ++ items.flatMap (·.written) := by
  induction items generalizing known with
  | nil => cases hitem
  | cons first items ih =>
    obtain ⟨-, reads, -, scope⟩ := scope
    rw [List.flatMap_cons, ← List.append_assoc]
    rcases List.mem_cons.mp hitem with rfl | hitem
    · exact fun r hr => List.mem_append_left _ (List.mem_append_left _ (reads r hr))
    · exact ih scope hitem

def World.Holds (world : World V) (item : PrgItem) (regs : Registers V) : Prop :=
  ∃ vs ∈ world.choices item (item.args regs),
    ∀ r ∈ item.written, regs r = regs.store world.nil item.targets vs r

section Holds

variable {world : World V} {item : PrgItem} {items : List PrgItem} {known : List Nat}
  {regs regs' : Registers V}

theorem store_known (fresh : ∀ r ∈ item.written, r ∉ known) (vs : List V) :
    ∀ r ∈ known, regs.store world.nil item.targets vs r = regs r := by
  intro r hr
  apply Registers.store_of_not_mem
  exact fun hwritten => fresh r hwritten hr

theorem solutions_known (scope : Scoped known items) (h : regs' ∈ world.solutions items regs) :
    ∀ r ∈ known, regs' r = regs r := by
  induction items generalizing known regs with
  | nil =>
    rw [World.solutions_nil, List.mem_singleton] at h
    exact fun r _ => congrFun h r
  | cons item items ih =>
    obtain ⟨-, -, fresh, scope⟩ := scope
    rw [World.solutions_cons, List.mem_flatMap] at h
    obtain ⟨regs₁, h₁, h⟩ := h
    obtain ⟨vs, -, rfl⟩ := List.mem_map.mp h₁
    intro r hr
    rw [ih scope h r (List.mem_append_left _ hr)]
    exact store_known fresh vs r hr

theorem holds_of_solution (scope : Scoped known items) (h : regs' ∈ world.solutions items regs) :
    ∀ item ∈ items, world.Holds item regs' := by
  induction items generalizing known regs with
  | nil => exact fun _ hitem => absurd hitem List.not_mem_nil
  | cons item items ih =>
    obtain ⟨-, reads, fresh, scope⟩ := scope
    rw [World.solutions_cons, List.mem_flatMap] at h
    obtain ⟨regs₁, h₁, h⟩ := h
    obtain ⟨vs, hvs, rfl⟩ := List.mem_map.mp h₁
    have after := solutions_known scope h
    have before : ∀ r ∈ known, regs' r = regs r := by
      intro r hr
      rw [after r (List.mem_append_left _ hr)]
      exact store_known fresh vs r hr
    rintro item' (_ | ⟨_, hitem⟩)
    · refine ⟨vs, ?_, fun r hr => ?_⟩
      · rwa [PrgItem.args_congr reads before]
      · rw [after r (List.mem_append_right _ hr)]
        exact Registers.store_congr fun hnot => absurd hr hnot
    · exact ih scope h item' hitem

theorem solution_of_holds (scope : Scoped known items) (same : ∀ r ∈ known, regs' r = regs r)
    (holds : ∀ item ∈ items, world.Holds item regs') :
    ∃ found ∈ world.solutions items regs, ∀ r ∈ knownAfter known items, regs' r = found r := by
  induction items generalizing known regs with
  | nil => exact ⟨regs, List.mem_singleton_self regs, same⟩
  | cons item items ih =>
    obtain ⟨-, reads, fresh, scope⟩ := scope
    obtain ⟨vs, hvs, kept⟩ := holds item List.mem_cons_self
    have same₁ : ∀ r ∈ known ++ item.written,
        regs' r = regs.store world.nil item.targets vs r := by
      intro r hr
      by_cases hwritten : r ∈ item.written
      · rw [kept r hwritten]
        exact Registers.store_congr fun hnot => absurd hwritten hnot
      · have hknown := (List.mem_append.mp hr).resolve_right hwritten
        rw [same r hknown]
        exact (store_known fresh vs r hknown).symm
    obtain ⟨found, hfound, agree⟩ :=
      ih scope same₁ fun item' hitem => holds item' (List.mem_cons_of_mem _ hitem)
    refine ⟨found, ?_, agree⟩
    rw [World.solutions_cons, List.mem_flatMap]
    refine ⟨_, List.mem_map_of_mem ?_, hfound⟩
    rwa [← PrgItem.args_congr reads same]

end Holds

def Registers.of (nil : V) (values : List V) : Registers V := fun r => values.getD r nil

def Program.Fits (p : Program) : Prop :=
  ∀ item ∈ p.body, ∀ r ∈ item.paramsOut.reduceOption, r < p.inputCnt + p.regCnt

theorem written_subset (item : PrgItem) : ∀ r ∈ item.written, r ∈ item.paramsOut.reduceOption := by
  intro r hr
  rw [PrgItem.written, PrgItem.targets] at hr
  split at hr
  · exact hr
  · exact List.reduceOption_mem_iff.mpr (List.mem_of_mem_take (List.reduceOption_mem_iff.mp hr))
  · exact List.reduceOption_mem_iff.mpr (List.mem_of_mem_take (List.reduceOption_mem_iff.mp hr))
  · cases hr
  · cases hr

section Results

variable {world : World V} {p : Program} {inputs t : List V}

theorem mem_results : t ∈ world.results p inputs ↔
    ∃ regs : Registers V,
      (∀ r < p.inputCnt, regs r = inputRegisters world.nil p.inputCnt inputs r) ∧
      (∀ item ∈ p.body, world.Holds item regs) ∧ t = p.ret.args regs := by
  rw [World.results, List.mem_map]
  constructor
  · rintro ⟨regs, hregs, rfl⟩
    refine ⟨regs, fun r hr => ?_, holds_of_solution p.inScope hregs, rfl⟩
    exact solutions_known p.inScope hregs r (List.mem_range.mpr hr)
  · rintro ⟨regs, same, holds, rfl⟩
    obtain ⟨found, hfound, agree⟩ :=
      solution_of_holds p.inScope (fun r hr => same r (List.mem_range.mp hr)) holds
    exact ⟨found, hfound, (PrgItem.args_congr p.known agree).symm⟩

def Registers.Begins (regs : Registers V) : Nat → List V → Prop
  | _, [] => True
  | r, v :: vs => regs r = v ∧ regs.Begins (r + 1) vs

theorem Registers.begins_of {regs : Registers V} {vs : List V} {r : Nat}
    (h : ∀ i (hi : i < vs.length), regs (r + i) = vs[i]) : regs.Begins r vs := by
  induction vs generalizing r with
  | nil => exact trivial
  | cons v vs ih =>
    refine ⟨h 0 (Nat.zero_lt_succ _), ih fun i hi => ?_⟩
    rw [Nat.add_assoc, Nat.add_comm 1]
    exact h (i + 1) (Nat.succ_lt_succ hi)

theorem begins_of_mem_results (hlen : inputs.length = p.inputCnt)
    (ht : t ∈ world.results p inputs) :
    ∃ regs : Registers V, regs.Begins 0 inputs ∧ (∀ item ∈ p.body, world.Holds item regs) ∧
      t = p.ret.args regs := by
  obtain ⟨regs, same, holds, rfl⟩ := mem_results.mp ht
  refine ⟨regs, Registers.begins_of fun i hi => ?_, holds, rfl⟩
  rw [Nat.zero_add, same i (hlen ▸ hi), inputRegisters, ← hlen, List.take_length,
    List.getD_eq_getElem _ _ hi]

theorem mem_results_of (values : List V) (hlen : inputs.length = p.inputCnt)
    (holds : ∀ item ∈ p.body, world.Holds item (.of world.nil (inputs ++ values))) :
    p.ret.args (.of world.nil (inputs ++ values)) ∈ world.results p inputs := by
  refine mem_results.mpr ⟨_, fun r hr => ?_, holds, rfl⟩
  rw [← hlen] at hr ⊢
  rw [Registers.of, inputRegisters, List.take_length, List.getD_append _ _ _ _ hr]

def World.Distinct (world : World V) (item : PrgItem) : Prop :=
  ∀ regs : Registers V, (world.choices item (item.args regs)).Pairwise fun vs vs' =>
    ∃ r ∈ item.written,
      regs.store world.nil item.targets vs r ≠ regs.store world.nil item.targets vs' r

theorem World.choices_once {item : PrgItem} (h : item.resumes = false) (args : List V) :
    world.choices item args = [] ∨ ∃ vs, world.choices item args = [vs] := by
  cases htype : item.type with
  | filter =>
    simp only [World.choices, htype]
    split <;> simp
  | func =>
    simp only [World.choices, htype]
    split <;> simp
  | ret => simp [World.choices, htype]
  | _ => simp [PrgItem.resumes, htype] at h

theorem solutions_pairwise {known returned : List Nat} {items : List PrgItem}
    (scope : Scoped known items)
    (ranged : ∀ item ∈ items, item.resumes = true →
      world.Distinct item ∧ ∀ r ∈ item.written, r ∈ returned) (regs : Registers V) :
    (world.solutions items regs).Pairwise fun found found' =>
      ∃ r ∈ returned, found r ≠ found' r := by
  induction items generalizing known regs with
  | nil => exact List.pairwise_singleton _ _
  | cons item items ih =>
    obtain ⟨-, -, -, scope⟩ := scope
    rw [World.solutions_cons, World.solve, List.flatMap_map, List.pairwise_flatMap]
    constructor
    · intro vs _
      apply ih scope
      exact fun item' h => ranged item' (List.mem_cons_of_mem _ h)
    · cases hres : item.resumes with
      | false =>
        rcases World.choices_once hres (item.args regs) with none | ⟨vs, one⟩
        · rw [none]
          exact .nil
        · rw [one]
          exact List.pairwise_singleton _ _
      | true =>
        obtain ⟨distinct, hreturned⟩ := ranged item List.mem_cons_self hres
        refine (distinct regs).imp ?_
        rintro vs vs' ⟨r, hr, differ⟩ found hfound found' hfound'
        refine ⟨r, hreturned r hr, ?_⟩
        rw [solutions_known scope hfound r (List.mem_append_right _ hr),
          solutions_known scope hfound' r (List.mem_append_right _ hr)]
        exact differ

theorem results_nodup
    (ranged : ∀ item ∈ p.body, item.resumes = true →
      world.Distinct item ∧ ∀ r ∈ item.written, r ∈ p.ret.paramsIn) :
    (world.results p inputs).Nodup := by
  rw [World.results, List.Nodup, List.pairwise_map]
  refine (solutions_pairwise p.inScope ranged _).imp ?_
  rintro found found' ⟨r, hr, differ⟩ same
  exact differ (List.map_inj_left.mp same r hr)

end Results

end ScCore.Search
