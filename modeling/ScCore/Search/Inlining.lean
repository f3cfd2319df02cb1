import ScCore.Search.Splice
import Mathlib.Data.List.Nodup

/-!
# Inlining keeps the results

A program with the programs of other constraints put in the place of the commands
that ask for them finds what it finds where those commands run the iterators of
the constraints.
-/

namespace ScCore.Search

variable {V : Type}

/-! ## Programs as they are registered -/

def World.tuples (world : World V) (dec : Deconstruct) (inputs : List V) : List (List V) :=
  match dec.commands.getLast? with
  | some ret =>
      (world.solutions dec.commands.dropLast
        (inputRegisters world.nil dec.inputCnt inputs)).map ret.args
  | none => []

@[simp]
theorem World.tuples_program (world : World V) (p : Program) (inputs : List V) :
    world.tuples p.toDeconstruct inputs = world.results p inputs := by
  simp [World.tuples, World.results, Program.toDeconstruct]

def World.nested (world : World V) (reg : Registry) : World V :=
  { world with
    iterator := fun id args =>
      match reg.deconstruct id with
      | some dec => world.tuples dec args
      | none => world.iterator id args }

def Program.Flat (p : Program) : Prop := ∀ item ∈ p.body, item.inlines = false

/-! ## What the caller takes over -/

def takes (ins : List Nat) (outs : List (Option Nat)) : List (Nat × Nat) :=
  (ins.zip outs).filterMap fun (r, out) => out.map (r, ·)

theorem takes_snd {ins : List Nat} {outs : List (Option Nat)} (h : outs.length ≤ ins.length) :
    (takes ins outs).map Prod.snd = outs.reduceOption := by
  induction outs generalizing ins with
  | nil => simp [takes]
  | cons out outs ih =>
    cases ins with
    | nil => simp at h
    | cons r ins =>
      have rest := ih (Nat.le_of_succ_le_succ h)
      cases out with
      | none =>
        rw [List.reduceOption_cons_of_none, ← rest]
        simp [takes]
      | some o =>
        rw [List.reduceOption_cons_of_some, ← rest]
        simp [takes]

theorem takes_fst {ins : List Nat} {outs : List (Option Nat)} {c : Nat × Nat}
    (h : c ∈ takes ins outs) : c.1 ∈ ins := by
  obtain ⟨⟨r, out⟩, hmem, hc⟩ := List.mem_filterMap.mp h
  obtain ⟨o, -, rfl⟩ := Option.map_eq_some_iff.mp hc
  exact (List.of_mem_zip hmem).1

theorem store_takes {nil : V} {ins : List Nat} {outs : List (Option Nat)} {found : Registers V}
    {regs : Registers V} (h : outs.length ≤ ins.length) (nodup : outs.reduceOption.Nodup) :
    ∀ c ∈ takes ins outs, regs.store nil outs (ins.map found) c.2 = found c.1 := by
  induction outs generalizing ins regs with
  | nil => simp [takes]
  | cons out outs ih =>
    cases ins with
    | nil => simp at h
    | cons r ins =>
      have shorter := Nat.le_of_succ_le_succ h
      cases out with
      | none =>
        rw [List.reduceOption_cons_of_none] at nodup
        exact ih shorter nodup
      | some o =>
        rw [List.reduceOption_cons_of_some, List.nodup_cons] at nodup
        have cons : takes (r :: ins) (some o :: outs) = (r, o) :: takes ins outs := by simp [takes]
        rw [cons]
        intro c hc
        rcases List.mem_cons.mp hc with rfl | hc
        · exact (Registers.store_of_not_mem nodup.1).trans (Registers.set_same _ _ _)
        · exact ih shorter nodup.2 c hc

/-- The command takes no input back, takes nothing twice and nothing into one register twice,
and has the parameters of the constraint. -/
structure Tidy (par : PrgItem) (inputCnt : Nat) (ret : PrgItem) : Prop where
  inputs : par.paramsIn.length = inputCnt
  outputs : par.paramsOut.length ≤ ret.paramsIn.length
  own : ∀ c ∈ takes ret.paramsIn par.paramsOut, inputCnt ≤ c.1
  once : ((takes ret.paramsIn par.paramsOut).map Prod.fst).Nodup
  apart : par.paramsOut.reduceOption.Nodup

/-! ## The map of the registers -/

section RegMap

variable {regmap : RegMap} {next : Nat} {l : List Nat} {ins : List Nat} {outs : List (Option Nat)}

theorem mapOutputs_cons {r o : Nat} : regmap.mapOutputs ((r :: ins).zip (some o :: outs)) =
    RegMap.mapOutputs (Function.update regmap r (some o)) (ins.zip outs) := rfl

theorem mapOutputs_other {i : Nat} (h : i ∉ (takes ins outs).map Prod.fst) :
    regmap.mapOutputs (ins.zip outs) i = regmap i := by
  induction outs generalizing ins regmap with
  | nil => simp [RegMap.mapOutputs]
  | cons out outs ih =>
    cases ins with
    | nil => simp [RegMap.mapOutputs]
    | cons r ins =>
      cases out with
      | none => exact ih h
      | some o =>
        have cons : takes (r :: ins) (some o :: outs) = (r, o) :: takes ins outs := by simp [takes]
        rw [cons, List.map_cons, List.mem_cons, not_or] at h
        rw [mapOutputs_cons, ih h.2]
        exact Function.update_of_ne h.1 _ _

theorem mapOutputs_takes (once : ((takes ins outs).map Prod.fst).Nodup) :
    ∀ c ∈ takes ins outs, regmap.mapOutputs (ins.zip outs) c.1 = some c.2 := by
  induction outs generalizing ins regmap with
  | nil => simp [takes]
  | cons out outs ih =>
    cases ins with
    | nil => simp [takes]
    | cons r ins =>
      cases out with
      | none => exact ih once
      | some o =>
        have cons : takes (r :: ins) (some o :: outs) = (r, o) :: takes ins outs := by simp [takes]
        rw [cons, List.map_cons, List.nodup_cons] at once
        rw [cons]
        intro c hc
        rw [mapOutputs_cons]
        rcases List.mem_cons.mp hc with rfl | hc
        · rw [mapOutputs_other once.1]
          exact Function.update_self _ _ _
        · exact ih once.2 c hc

structure Allocated (regmap : RegMap) (next : Nat) (l : List Nat) (regmap' : RegMap)
    (next' : Nat) : Prop where
  kept : ∀ i, i ∉ l ∨ (regmap i).isSome → regmap' i = regmap i
  new : ∀ i ∈ l, regmap i = none → ∃ place, regmap' i = some place ∧ next ≤ place ∧ place < next'
  apart : ∀ i ∈ l, ∀ j ∈ l, regmap i = none → regmap j = none → regmap' i = regmap' j → i = j
  grows : next ≤ next'

theorem allocate_spec (nodup : l.Nodup) :
    Allocated regmap next l (regmap.allocate next l).1 (regmap.allocate next l).2 := by
  induction l generalizing regmap next with
  | nil => exact ⟨fun _ _ => rfl, by simp, by simp, Nat.le_refl _⟩
  | cons r l ih =>
    obtain ⟨hr, nodup⟩ := List.nodup_cons.mp nodup
    cases hsome : (regmap r).isSome with
    | true =>
      rw [RegMap.allocate, if_pos hsome]
      have rest := @ih regmap next nodup
      have other : ∀ i ∈ r :: l, regmap i = none → i ∈ l := by
        intro i hi hnone
        refine (List.mem_cons.mp hi).resolve_left fun heq => ?_
        rw [← heq, hnone] at hsome
        cases hsome
      refine ⟨fun i hi => ?_, fun i hi h => rest.new i (other i hi h) h, ?_, rest.grows⟩
      · exact rest.kept i (hi.imp_left fun h hmem => h (List.mem_cons_of_mem _ hmem))
      · exact fun i hi j hj h h' => rest.apart i (other i hi h) j (other j hj h') h h'
    | false =>
      rw [RegMap.allocate, if_neg (by simp [hsome])]
      have same : ∀ i ≠ r, Function.update regmap r (some next) i = regmap i := fun i hi =>
        Function.update_of_ne hi _ _
      have self : Function.update regmap r (some next) r = some next := Function.update_self _ _ _
      have rest := @ih (Function.update regmap r (some next)) (next + 1) nodup
      obtain ⟨regmap₁, hregmap₁⟩ : ∃ regmap₁ : RegMap,
          Function.update regmap r (some next) = regmap₁ := ⟨_, rfl⟩
      rw [hregmap₁] at same self rest ⊢
      have here : (regmap₁.allocate (next + 1) l).1 r = some next := (rest.kept r (.inl hr)).trans
        self
      have above : ∀ i ∈ l, regmap i = none → ∃ place, (regmap₁.allocate (next + 1) l).1 i =
          some place ∧ next < place ∧ place < (regmap₁.allocate (next + 1) l).2 := by
        intro i hi hnone
        have hne : i ≠ r := fun h => hr (h ▸ hi)
        exact rest.new i hi ((same i hne).trans hnone)
      refine ⟨fun i hi => ?_, fun i hi h => ?_, fun i hi j hj h h' heq => ?_, ?_⟩
      · have hne : i ≠ r := by
          rintro rfl
          rcases hi with hi | hi
          · exact hi List.mem_cons_self
          · rw [hsome] at hi
            cases hi
        rw [← same i hne]
        exact rest.kept i (hi.imp (fun h hmem => h (List.mem_cons_of_mem _ hmem))
          fun h => by rwa [same i hne])
      · rcases List.mem_cons.mp hi with rfl | hi
        · exact ⟨next, here, Nat.le_refl _, rest.grows⟩
        · obtain ⟨place, hplace, hlow, hhigh⟩ := above i hi h
          exact ⟨place, hplace, Nat.le_of_lt hlow, hhigh⟩
      · rcases List.mem_cons.mp hi with hri | hi <;> rcases List.mem_cons.mp hj with hrj | hj
        · rw [hri, hrj]
        · obtain ⟨place, hplace, hlow, -⟩ := above j hj h'
          rw [hri, here, hplace] at heq
          cases heq
          exact absurd hlow (Nat.lt_irrefl _)
        · obtain ⟨place, hplace, hlow, -⟩ := above i hi h
          rw [hrj, here, hplace] at heq
          cases heq
          exact absurd hlow (Nat.lt_irrefl _)
        · refine rest.apart i hi j hj ?_ ?_ heq
          · rw [same i fun h => hr (h ▸ hi), h]
          · rw [same j fun h => hr (h ▸ hj), h']
      · exact Nat.le_of_succ_le rest.grows

end RegMap

/-- The places of a callee's registers in the caller, of which those from `next` on are new. -/
structure Places (ρ : Nat → Nat) (par : PrgItem) (q : Program) (next next' : Nat) : Prop where
  input : ∀ (r : Nat) (h : r < par.paramsIn.length), ρ r = par.paramsIn[r]
  taken : ∀ c ∈ takes q.ret.paramsIn par.paramsOut, ρ c.1 = c.2
  own : ∀ r, q.inputCnt ≤ r → r < q.inputCnt + q.regCnt →
    r ∉ (takes q.ret.paramsIn par.paramsOut).map Prod.fst → next ≤ ρ r ∧ ρ r < next'
  apart : ∀ r r', q.inputCnt ≤ r → r < q.inputCnt + q.regCnt →
    r ∉ (takes q.ret.paramsIn par.paramsOut).map Prod.fst → q.inputCnt ≤ r' →
    r' < q.inputCnt + q.regCnt → r' ∉ (takes q.ret.paramsIn par.paramsOut).map Prod.fst →
    ρ r = ρ r' → r = r'
  grows : next ≤ next'

section Places

variable {par : PrgItem} {q : Program} {next next' : Nat} {ρ : Nat → Nat} {known : List Nat}

theorem regMap_places {regmap : RegMap} (tidy : Tidy par q.inputCnt q.ret)
    (hmap : regMap next par q.toDeconstruct q.ret = (regmap, next')) :
    ∃ ρ, (∀ r < q.inputCnt + q.regCnt, regmap r = some (ρ r)) ∧ Places ρ par q next next' := by
  obtain ⟨regmap₀, hregmap₀⟩ : ∃ regmap₀ : RegMap,
      RegMap.mapOutputs (fun i => par.paramsIn[i]?) (q.ret.paramsIn.zip par.paramsOut) = regmap₀ :=
    ⟨_, rfl⟩
  have spec := @allocate_spec regmap₀ next (List.range' q.inputCnt q.regCnt) List.nodup_range'
  have hres : regmap₀.allocate next (List.range' q.inputCnt q.regCnt) = (regmap, next') := by
    rw [← hmap, ← hregmap₀]
    rfl
  rw [hres] at spec
  dsimp only at spec
  have taken : ∀ c ∈ takes q.ret.paramsIn par.paramsOut, regmap c.1 = some c.2 := by
    intro c hc
    have here : RegMap.mapOutputs (fun i => par.paramsIn[i]?)
        (q.ret.paramsIn.zip par.paramsOut) c.1 = some c.2 := mapOutputs_takes tidy.once c hc
    rw [hregmap₀] at here
    rw [spec.kept c.1 (.inr (by rw [here]; rfl)), here]
  have other : ∀ r ∉ (takes q.ret.paramsIn par.paramsOut).map Prod.fst,
      regmap₀ r = par.paramsIn[r]? := by
    intro r hr
    rw [← hregmap₀]
    exact mapOutputs_other hr
  have input : ∀ (r : Nat) (h : r < par.paramsIn.length), regmap r = some par.paramsIn[r] := by
    intro r hr
    have untaken : r ∉ (takes q.ret.paramsIn par.paramsOut).map Prod.fst := by
      intro hmem
      obtain ⟨c, hc, rfl⟩ := List.mem_map.mp hmem
      exact Nat.not_le.mpr (tidy.inputs ▸ hr) (tidy.own c hc)
    have here : regmap₀ r = some par.paramsIn[r] := by
      rw [other r untaken, List.getElem?_eq_getElem hr]
    rw [spec.kept r (.inr (by rw [here]; rfl)), here]
  have free : ∀ r, q.inputCnt ≤ r → r < q.inputCnt + q.regCnt →
      r ∉ (takes q.ret.paramsIn par.paramsOut).map Prod.fst →
      r ∈ List.range' q.inputCnt q.regCnt ∧ regmap₀ r = none := by
    intro r hlow hhigh hr
    refine ⟨List.mem_range'_1.mpr ⟨hlow, hhigh⟩, ?_⟩
    rw [other r hr, List.getElem?_eq_none (tidy.inputs ▸ hlow)]
  have some_of : ∀ {r : Nat} {o : Nat}, regmap r = some o → (regmap r).getD 0 = o := by
    intro r o h
    rw [h]
    rfl
  refine ⟨fun r => (regmap r).getD 0, ?_, ?_⟩
  · intro r hr
    obtain ⟨o, ho⟩ : ∃ o, regmap r = some o := by
      by_cases hlow : r < par.paramsIn.length
      · exact ⟨_, input r hlow⟩
      · by_cases htaken : r ∈ (takes q.ret.paramsIn par.paramsOut).map Prod.fst
        · obtain ⟨c, hc, rfl⟩ := List.mem_map.mp htaken
          exact ⟨_, taken c hc⟩
        · obtain ⟨hmem, hnone⟩ := free r (tidy.inputs ▸ Nat.le_of_not_lt hlow) hr htaken
          obtain ⟨place, hplace, -⟩ := spec.new r hmem hnone
          exact ⟨place, hplace⟩
    exact ho.trans (congrArg some (some_of ho).symm)
  · constructor
    · exact fun r hr => some_of (input r hr)
    · exact fun c hc => some_of (taken c hc)
    · intro r hlow hhigh hr
      obtain ⟨hmem, hnone⟩ := free r hlow hhigh hr
      obtain ⟨place, hplace, bounds⟩ := spec.new r hmem hnone
      rwa [some_of hplace]
    · intro r r' hlow hhigh hr hlow' hhigh' hr' same
      obtain ⟨hmem, hnone⟩ := free r hlow hhigh hr
      obtain ⟨hmem', hnone'⟩ := free r' hlow' hhigh' hr'
      obtain ⟨place, hplace, -⟩ := spec.new r hmem hnone
      obtain ⟨place', hplace', -⟩ := spec.new r' hmem' hnone'
      rw [some_of hplace, some_of hplace'] at same
      exact spec.apart r hmem r' hmem' hnone hnone' (by rw [hplace, hplace', same])
    · exact spec.grows

theorem Places.written (places : Places ρ par q next next') (tidy : Tidy par q.inputCnt q.ret)
    (reads : ∀ r ∈ par.paramsIn, r ∈ known) (below : ∀ r ∈ known, r < next)
    (fresh : ∀ r ∈ par.paramsOut.reduceOption, r ∉ known ∧ r < next) {out : Nat}
    (hlow : q.inputCnt ≤ out) (hhigh : out < q.inputCnt + q.regCnt) :
    ρ out ∉ known ∧ ∀ r < q.inputCnt + q.regCnt, ρ r = ρ out → r = out := by
  have input : ∀ r < q.inputCnt, ρ r ∈ known := by
    intro r hr
    rw [places.input r (tidy.inputs ▸ hr)]
    exact reads _ (List.getElem_mem _)
  have taken : ∀ c ∈ takes q.ret.paramsIn par.paramsOut, ρ c.1 ∉ known ∧ ρ c.1 < next := by
    intro c hc
    rw [places.taken c hc]
    apply fresh
    rw [← takes_snd tidy.outputs]
    exact List.mem_map_of_mem hc
  by_cases hout : out ∈ (takes q.ret.paramsIn par.paramsOut).map Prod.fst
  · obtain ⟨c, hc, rfl⟩ := List.mem_map.mp hout
    refine ⟨(taken c hc).1, fun r hr same => ?_⟩
    by_cases hinput : r < q.inputCnt
    · exact absurd (same ▸ input r hinput) (taken c hc).1
    · by_cases hr' : r ∈ (takes q.ret.paramsIn par.paramsOut).map Prod.fst
      · obtain ⟨c', hc', rfl⟩ := List.mem_map.mp hr'
        have nodup := tidy.apart
        rw [← takes_snd tidy.outputs] at nodup
        rw [places.taken c hc, places.taken c' hc'] at same
        rw [List.inj_on_of_nodup_map nodup hc' hc same]
      · have own := places.own r (Nat.le_of_not_lt hinput) hr hr'
        have := (taken c hc).2
        omega
  · have own := places.own out hlow hhigh hout
    refine ⟨fun h => Nat.not_lt.mpr own.1 (below _ h), fun r hr same => ?_⟩
    by_cases hinput : r < q.inputCnt
    · have := below _ (input r hinput)
      omega
    · by_cases hr' : r ∈ (takes q.ret.paramsIn par.paramsOut).map Prod.fst
      · obtain ⟨c', hc', rfl⟩ := List.mem_map.mp hr'
        have := (taken c' hc').2
        omega
      · exact places.apart r out (Nat.le_of_not_lt hinput) hr hr' hlow hhigh hout same

end Places

/-! ## One command -/

section OneCommand

variable {reg : Registry} {p q : Program} {par item : PrgItem} {ρ : Nat → Nat} {regmap : RegMap}
  {top odec' : Deconstruct} {fuel : Nat}

theorem Program.counted {r : Nat} (fits : p.Fits) (hr : r ∈ p.body.flatMap (·.written)) :
    p.inputCnt ≤ r ∧ r < p.inputCnt + p.regCnt := by
  constructor
  · exact Nat.le_of_not_lt fun h => p.inScope.not_known hr (List.mem_range.mpr h)
  · obtain ⟨item, hitem, hr⟩ := List.mem_flatMap.mp hr
    exact fits item hitem r (written_subset item r hr)

theorem mapM_of_forall {α β : Type} {f : α → Option β} {g : α → β} {l : List α}
    (h : ∀ a ∈ l, f a = some (g a)) : l.mapM f = some (l.map g) := by
  induction l with
  | nil => rfl
  | cons a l ih =>
    have rest := ih fun a' ha => h a' (List.mem_cons_of_mem _ ha)
    simp [List.mapM_cons, h a List.mem_cons_self, rest]

theorem PrgItem.rename_eq {count : Nat} (hmap : ∀ r < count, regmap r = some (ρ r))
    (hin : ∀ r ∈ item.paramsIn, r < count) (hout : ∀ r ∈ item.paramsOut.reduceOption, r < count) :
    item.rename regmap = some (item.placed ρ) := by
  have ins : item.paramsIn.mapM regmap = some (item.paramsIn.map ρ) :=
    mapM_of_forall fun r hr => hmap r (hin r hr)
  have outs {f : Option Nat → Option (Option Nat)} (hnone : f none = some none)
      (hsome : ∀ r, f (some r) = (regmap r).map some) :
      item.paramsOut.mapM f = some (item.paramsOut.map (Option.map ρ)) := by
    apply mapM_of_forall
    intro out hmem
    cases out with
    | none => exact hnone
    | some r =>
      rw [hsome, hmap r (hout r (List.reduceOption_mem_iff.mpr hmem))]
      rfl
  simp only [PrgItem.rename, ins, Option.bind_eq_bind, Option.bind_some]
  refine congrArg (Option.bind · _) (outs ?_ fun _ => ?_)
  · rfl
  · rfl

theorem foldlM_appendItem {inline : Deconstruct → Deconstruct → Option Deconstruct}
    {items : List PrgItem} (rename : ∀ item ∈ items, item.rename regmap = some (item.placed ρ))
    (flat : ∀ item ∈ items, item.inlines = false)
    (h : items.foldlM (fun top item => (item.rename regmap).bind fun item =>
      if top.commands.length ≥ maxCommandsLen then none else appendItem reg inline top item) top =
        some odec') :
    odec' = { top with commands := top.commands ++ items.map (PrgItem.placed ρ) } := by
  induction items generalizing top with
  | nil =>
    cases h
    simp
  | cons item items ih =>
    have hinl : (item.placed ρ).inlines = false := flat item List.mem_cons_self
    rw [List.foldlM_cons, rename item List.mem_cons_self, Option.bind_some] at h
    split at h
    · cases h
    · simp only [appendItem, hinl, Bool.false_eq_true, if_false, Option.bind_eq_bind,
        Option.bind_some] at h
      rw [ih (fun item' h => rename item' (List.mem_cons_of_mem _ h))
        (fun item' h => flat item' (List.mem_cons_of_mem _ h)) h]
      simp

theorem inlineDec_eq (flat : q.Flat) (fits : q.Fits) (tidy : Tidy par q.inputCnt q.ret)
    (hpar : top.commands.getLast? = some par)
    (h : inlineDec reg fuel top q.toDeconstruct = some odec') :
    ∃ ρ next', Places ρ par q (top.regCnt + top.inputCnt) next' ∧
      odec' = ⟨top.inputCnt, next' - top.inputCnt,
        top.commands.dropLast ++ q.body.map (PrgItem.placed ρ)⟩ := by
  cases fuel with
  | zero => cases h
  | succ fuel =>
    have hret : q.toDeconstruct.commands.getLast? = some q.ret := by simp [Program.toDeconstruct]
    have hbody : q.toDeconstruct.commands.dropLast = q.body := by simp [Program.toDeconstruct]
    rw [inlineDec, hpar, hret, hbody] at h
    simp only [Option.bind_eq_bind, Option.bind_some] at h
    split at h
    · cases h
    · obtain ⟨regmap, next', hmap⟩ : ∃ regmap next',
          regMap (top.regCnt + top.inputCnt) par q.toDeconstruct q.ret = (regmap, next') :=
        ⟨_, _, rfl⟩
      rw [hmap] at h
      obtain ⟨ρ, total, places⟩ := regMap_places tidy hmap
      refine ⟨ρ, next', places, foldlM_appendItem ?_ flat h⟩
      intro item hitem
      refine PrgItem.rename_eq total (fun r hr => ?_) (fits item hitem)
      rcases List.mem_append.mp (q.inScope.reads hitem r hr) with hr | hr
      · exact Nat.lt_of_lt_of_le (List.mem_range.mp hr) (Nat.le_add_right _ _)
      · exact (Program.counted fits hr).2

end OneCommand

/-! ## All commands -/

/-- The command may be inlined: it asks for all arcs of an element, or for a program of the
registry in which nothing is left to inline. -/
def Calls (reg : Registry) (item : PrgItem) : Prop :=
  if item.inlines then
    ∃ q : Program, reg.deconstruct item.id = some q.toDeconstruct ∧ q.Flat ∧ q.Fits ∧
      q.body ≠ [] ∧ Tidy item q.inputCnt q.ret
  else item.type = .constr → reg.deconstruct item.id = none

/-- What has come of the commands `done` of a program. -/
structure Inlined (reg : Registry) (p : Program) (done : List PrgItem) (odec : Deconstruct) :
    Prop where
  inputCnt : odec.inputCnt = p.inputCnt
  regCnt : p.regCnt ≤ odec.regCnt
  scope : Scoped (List.range p.inputCnt) odec.commands
  counted : ∀ item ∈ odec.commands, ∀ r ∈ item.paramsOut.reduceOption,
    r < p.inputCnt + odec.regCnt
  flat : ∀ item ∈ odec.commands, item.inlines = false
  empty : odec.commands = [] ↔ done = []
  /-- The new registers are behind those of the program. -/
  known : ∀ r < p.inputCnt + p.regCnt, r ∈ knownAfter (List.range p.inputCnt) odec.commands ↔
    r ∈ knownAfter (List.range p.inputCnt) done
  found : ∀ (V : Type) (world : World V) (regs : Registers V),
    List.Forall₂ (fun found found' => ∀ r ∈ knownAfter (List.range p.inputCnt) done,
      found' r = found r) ((world.nested reg).solutions done regs)
      (world.solutions odec.commands regs)

section AllCommands

variable {reg : Registry} {p q : Program} {item : PrgItem} {done items : List PrgItem}
  {odec odec' d : Deconstruct} {fuel : Nat}

theorem Inlined.start (reg : Registry) (p : Program) :
    Inlined reg p [] ⟨p.inputCnt, p.regCnt, []⟩ where
  inputCnt := rfl
  regCnt := Nat.le_refl _
  scope := trivial
  counted := by simp
  flat := by simp
  empty := Iff.rfl
  known := fun _ _ => Iff.rfl
  found := fun _ _ _ => .cons (fun _ _ => rfl) .nil

theorem found_inlined {ρ : Nat → Nat} {known : List Nat} {next next' : Nat}
    (hq : reg.deconstruct item.id = some q.toDeconstruct) (fits : q.Fits)
    (tidy : Tidy item q.inputCnt q.ret) (places : Places ρ item q next next')
    (htype : item.type = .constr) (reads : ∀ r ∈ item.paramsIn, r ∈ known)
    (below : ∀ r ∈ known, r < next)
    (fresh : ∀ r ∈ item.paramsOut.reduceOption, r ∉ known ∧ r < next) (world : World V)
    {regs regs' : Registers V} {seen : List Nat} (hseen : ∀ r ∈ seen, r ∈ known)
    (hreads : ∀ r ∈ item.paramsIn, r ∈ seen) (same : ∀ r ∈ seen, regs' r = regs r) :
    List.Forall₂ (fun found found' => ∀ r ∈ seen ++ item.written, found' r = found r)
      ((world.nested reg).solve item regs)
      (world.solutions (q.body.map (PrgItem.placed ρ)) regs') := by
  have written : item.written = item.paramsOut.reduceOption := by
    rw [PrgItem.written, PrgItem.targets, htype]
  have choices : (world.nested reg).choices item (item.args regs) =
      world.results q (item.args regs) := by
    simp [World.choices, htype, World.nested, hq]
  have inputs : ∀ r ∈ List.range q.inputCnt,
      regs' (ρ r) = inputRegisters world.nil q.inputCnt (item.args regs) r := by
    intro r hr
    have hr' : r < item.paramsIn.length := tidy.inputs ▸ List.mem_range.mp hr
    rw [places.input r hr', same _ (hreads _ (List.getElem_mem hr')), inputRegisters,
      List.take_of_length_le (by simp [PrgItem.args, tidy.inputs])]
    simp [PrgItem.args, List.getD_eq_getElem?_getD, List.getElem?_eq_getElem hr']
  have apart : ∀ out ∈ q.body.flatMap (·.written),
      ρ out ∉ known ∧ ∀ r < q.inputCnt + q.regCnt, ρ r = ρ out → r = out := by
    intro out hout
    obtain ⟨hlow, hhigh⟩ := Program.counted fits hout
    exact places.written tidy reads below fresh hlow hhigh
  have total : ∀ r ∈ List.range q.inputCnt ++ q.body.flatMap (·.written),
      r < q.inputCnt + q.regCnt := by
    intro r hr
    rcases List.mem_append.mp hr with hr | hr
    · exact Nat.lt_of_lt_of_le (List.mem_range.mp hr) (Nat.le_add_right _ _)
    · exact (Program.counted fits hr).2
  have renamed := solutions_renamed world q.inScope inputs
    fun out hout r hr => (apart out hout).2 r (total r hr)
  rw [World.solve, choices, World.results, List.map_map, List.forall₂_map_left_iff]
  refine renamed.imp ?_
  rintro found found' ⟨same_places, frame⟩ r hr
  rw [PrgItem.targets, htype]
  have returned : ∀ c ∈ takes q.ret.paramsIn item.paramsOut,
      found' c.2 = regs.store world.nil item.paramsOut (q.ret.args found) c.2 := by
    intro c hc
    rw [PrgItem.args, store_takes tidy.outputs tidy.apart c hc, ← places.taken c hc]
    apply same_places
    rw [← knownAfter_eq]
    exact q.known _ (takes_fst hc)
  by_cases hwritten : r ∈ item.written
  · rw [written, ← takes_snd tidy.outputs] at hwritten
    obtain ⟨c, hc, rfl⟩ := List.mem_map.mp hwritten
    exact returned c hc
  · have hr' := (List.mem_append.mp hr).resolve_right hwritten
    have unplaced : r ∉ (q.body.flatMap (·.written)).map ρ := by
      intro hmem
      obtain ⟨out, hout, rfl⟩ := List.mem_map.mp hmem
      exact (apart out hout).1 (hseen _ hr')
    rw [frame r unplaced, same r hr']
    exact (Registers.store_of_not_mem (written ▸ hwritten)).symm

theorem Inlined.below (inl : Inlined reg p done odec) :
    ∀ r ∈ knownAfter (List.range p.inputCnt) odec.commands, r < p.inputCnt + odec.regCnt := by
  intro r hr
  rw [knownAfter_eq, List.mem_append, List.mem_range, List.mem_flatMap] at hr
  rcases hr with hr | ⟨item, hitem, hr⟩
  · exact Nat.lt_of_lt_of_le hr (Nat.le_add_right _ _)
  · exact inl.counted item hitem r (written_subset item r hr)

structure Next (p : Program) (done : List PrgItem) (item : PrgItem) : Prop where
  scope : Scoped (knownAfter (List.range p.inputCnt) done) [item]
  counted : ∀ r ∈ item.paramsOut.reduceOption, r < p.inputCnt + p.regCnt
  below : ∀ r ∈ knownAfter (List.range p.inputCnt) done, r < p.inputCnt + p.regCnt

theorem Next.reads (next : Next p done item) (inl : Inlined reg p done odec) :
    ∀ r ∈ item.paramsIn, r ∈ knownAfter (List.range p.inputCnt) odec.commands := by
  intro r hr
  have hknown := next.scope.2.1 r hr
  exact (inl.known r (next.below r hknown)).mpr hknown

theorem Next.fresh (next : Next p done item) (inl : Inlined reg p done odec) :
    ∀ r ∈ item.written, r ∉ knownAfter (List.range p.inputCnt) odec.commands := by
  intro r hr hknown
  have hlt := next.counted r (written_subset item r hr)
  exact next.scope.2.2.1 r hr ((inl.known r hlt).mp hknown)

theorem Inlined.keep (inl : Inlined reg p done odec) (next : Next p done item)
    (flat : item.inlines = false) (base : item.type = .constr → reg.deconstruct item.id = none) :
    Inlined reg p (done ++ [item]) { odec with commands := odec.commands ++ [item] } where
  inputCnt := inl.inputCnt
  regCnt := inl.regCnt
  scope := scoped_append.mpr
    ⟨inl.scope, next.scope.1, next.reads inl, next.fresh inl, trivial⟩
  counted := by
    intro item' hitem r hr
    rcases List.mem_append.mp hitem with hitem | hitem
    · exact inl.counted item' hitem r hr
    · obtain rfl := List.mem_singleton.mp hitem
      exact Nat.lt_of_lt_of_le (next.counted r hr) (Nat.add_le_add_left inl.regCnt _)
  flat := by
    intro item' hitem
    rcases List.mem_append.mp hitem with hitem | hitem
    · exact inl.flat item' hitem
    · exact List.mem_singleton.mp hitem ▸ flat
  empty := by simp
  known := by
    intro r hr
    simp only [knownAfter_append, knownAfter_eq _ [item], List.mem_append, inl.known r hr]
  found := by
    intro V world regs
    have choices : ∀ args, (world.nested reg).choices item args = world.choices item args := by
      intro args
      cases htype : item.type with
      | constr => simp [World.choices, htype, World.nested, base htype]
      | _ => simp only [World.choices, htype] <;> rfl
    rw [World.solutions_append, World.solutions_append]
    refine List.rel_flatMap (inl.found V world regs) ?_
    intro found found' same
    rw [World.solutions_cons, World.solutions_cons, World.solve, World.solve,
      PrgItem.args_congr next.scope.2.1 same, choices, List.flatMap_map, List.flatMap_map]
    apply List.rel_flatMap (R := (· = ·)) (List.forall₂_same.mpr fun _ _ => rfl)
    rintro vs _ rfl
    refine .cons ?_ .nil
    rw [knownAfter_append, knownAfter_eq _ [item], List.flatMap_singleton]
    exact store_agree same

theorem Places.below {ρ : Nat → Nat} {next next' : Nat} (places : Places ρ item q next next')
    (tidy : Tidy item q.inputCnt q.ret) (input : ∀ r ∈ item.paramsIn, r < next)
    (output : ∀ r ∈ item.paramsOut.reduceOption, r < next) :
    ∀ r < q.inputCnt + q.regCnt, ρ r < next' := by
  intro r hr
  by_cases hinput : r < item.paramsIn.length
  · rw [places.input r hinput]
    exact Nat.lt_of_lt_of_le (input _ (List.getElem_mem _)) places.grows
  · by_cases htaken : r ∈ (takes q.ret.paramsIn item.paramsOut).map Prod.fst
    · obtain ⟨c, hc, rfl⟩ := List.mem_map.mp htaken
      rw [places.taken c hc]
      refine Nat.lt_of_lt_of_le (output _ ?_) places.grows
      rw [← takes_snd tidy.outputs]
      exact List.mem_map_of_mem hc
    · exact (places.own r (tidy.inputs ▸ Nat.le_of_not_lt hinput) hr htaken).2

theorem Inlined.inline (inl : Inlined reg p done odec) (next : Next p done item)
    (htype : item.type = .constr) (hq : reg.deconstruct item.id = some q.toDeconstruct)
    (flat : q.Flat) (fits : q.Fits) (hbody : q.body ≠ []) (tidy : Tidy item q.inputCnt q.ret)
    (h : inlineDec reg fuel { odec with commands := odec.commands ++ [item] } q.toDeconstruct =
      some odec') : Inlined reg p (done ++ [item]) odec' := by
  obtain ⟨ρ, next', places, rfl⟩ := inlineDec_eq flat fits tidy (by simp) h
  change Places ρ item q (odec.regCnt + odec.inputCnt) next' at places
  rw [Nat.add_comm, inl.inputCnt] at places
  have written : item.written = item.paramsOut.reduceOption := by
    rw [PrgItem.written, PrgItem.targets, htype]
  have reads := next.reads inl
  have outputs : ∀ r ∈ item.paramsOut.reduceOption, r < p.inputCnt + odec.regCnt := fun r hr =>
    Nat.lt_of_lt_of_le (next.counted r hr) (Nat.add_le_add_left inl.regCnt _)
  have fresh : ∀ r ∈ item.paramsOut.reduceOption,
      r ∉ knownAfter (List.range p.inputCnt) odec.commands ∧ r < p.inputCnt + odec.regCnt :=
    fun r hr => ⟨next.fresh inl r (written ▸ hr), outputs r hr⟩
  have apart : ∀ out ∈ q.body.flatMap (·.written),
      ρ out ∉ knownAfter (List.range p.inputCnt) odec.commands ∧
        ∀ r < q.inputCnt + q.regCnt, ρ r = ρ out → r = out := by
    intro out hout
    obtain ⟨hlow, hhigh⟩ := Program.counted fits hout
    exact places.written tidy reads inl.below fresh hlow hhigh
  have grows := places.grows
  have total : p.inputCnt + (next' - p.inputCnt) = next' := by omega
  have commands : (odec.commands ++ [item]).dropLast = odec.commands := by simp
  rw [commands, inl.inputCnt]
  constructor
  · rfl
  · have := inl.regCnt
    change p.regCnt ≤ next' - p.inputCnt
    omega
  · apply scoped_append.mpr
    refine ⟨inl.scope, scoped_renamed q.inScope ?_ (fun r hr => (apart r hr).1) ?_⟩
    · intro r hr
      have hr' : r < item.paramsIn.length := tidy.inputs ▸ List.mem_range.mp hr
      rw [places.input r hr']
      exact reads _ (List.getElem_mem _)
    · exact fun r hr r' hr' => (apart r' hr').2 r (Program.counted fits hr).2
  · intro item' hitem place hr
    change place < p.inputCnt + (next' - p.inputCnt)
    rw [total]
    rcases List.mem_append.mp hitem with hitem | hitem
    · exact Nat.lt_of_lt_of_le (inl.counted item' hitem place hr) grows
    · obtain ⟨own, hown, rfl⟩ := List.mem_map.mp hitem
      rw [PrgItem.placed, List.reduceOption_map] at hr
      obtain ⟨out, hout, rfl⟩ := List.mem_map.mp hr
      exact places.below tidy (fun r hr => inl.below r (reads r hr)) outputs out
        (fits own hown out hout)
  · intro item' hitem
    rcases List.mem_append.mp hitem with hitem | hitem
    · exact inl.flat item' hitem
    · obtain ⟨own, hown, rfl⟩ := List.mem_map.mp hitem
      exact flat own hown
  · simp [hbody]
  · intro r hr
    rw [knownAfter_append, knownAfter_append, knownAfter_eq _ [item], List.flatMap_singleton,
      knownAfter_eq _ (q.body.map _), flatMap_renamed, List.mem_append, List.mem_append,
      inl.known r hr]
    refine or_congr_right ?_
    rw [written]
    constructor
    · intro hmem
      obtain ⟨out, hout, rfl⟩ := List.mem_map.mp hmem
      obtain ⟨hlow, hhigh⟩ := Program.counted fits hout
      by_cases htaken : out ∈ (takes q.ret.paramsIn item.paramsOut).map Prod.fst
      · obtain ⟨c, hc, rfl⟩ := List.mem_map.mp htaken
        rw [places.taken c hc, ← takes_snd tidy.outputs]
        exact List.mem_map_of_mem hc
      · have := (places.own out hlow hhigh htaken).1
        have := inl.regCnt
        omega
    · intro hmem
      rw [← takes_snd tidy.outputs] at hmem
      obtain ⟨c, hc, rfl⟩ := List.mem_map.mp hmem
      rw [← places.taken c hc]
      apply List.mem_map_of_mem
      have hknown := q.known c.1 (takes_fst hc)
      rw [knownAfter_eq, List.mem_append, List.mem_range] at hknown
      exact hknown.resolve_left (Nat.not_lt.mpr (tidy.own c hc))
  · intro V world regs
    rw [World.solutions_append, World.solutions_append]
    refine List.rel_flatMap (inl.found V world regs) ?_
    intro found found' same
    rw [World.solutions_cons, List.flatMap_congr fun _ _ => World.solutions_nil _ _,
      List.flatMap_singleton', knownAfter_append, knownAfter_eq _ [item], List.flatMap_singleton]
    exact found_inlined hq fits tidy places htype reads inl.below fresh world
      (fun r hr => (inl.known r (next.below r hr)).mpr hr) next.scope.2.1 same

theorem Inlined.append (inl : Inlined reg p done odec) (next : Next p done item)
    (calls : Calls reg item)
    (h : appendItem reg (inlineDec reg fuel) odec item = some odec') :
    Inlined reg p (done ++ [item]) odec' := by
  unfold Calls at calls
  unfold appendItem at h
  cases hinl : item.inlines with
  | false =>
    simp only [hinl, Bool.false_eq_true, if_false] at calls h
    cases h
    exact inl.keep next hinl calls
  | true =>
    simp only [hinl, if_true] at calls h
    obtain ⟨q, hq, flat, fits, hbody, tidy⟩ := calls
    rw [hq, Option.bind_some] at h
    have htype : item.type = .constr := by
      simp only [PrgItem.inlines, Bool.and_eq_true, decide_eq_true_eq] at hinl
      exact hinl.1.1
    exact inl.inline next htype hq flat fits hbody tidy h

theorem Inlined.appendAll (inl : Inlined reg p done odec) (hbody : p.body = done ++ items)
    (fits : p.Fits) (calls : ∀ item ∈ items, Calls reg item)
    (h : items.foldlM (appendItem reg (inlineDec reg fuel)) odec = some odec') :
    Inlined reg p p.body odec' := by
  induction items generalizing done odec with
  | nil =>
    cases h
    rw [hbody, List.append_nil]
    exact inl
  | cons item items ih =>
    rw [List.foldlM_cons, Option.bind_eq_bind, Option.bind_eq_some_iff] at h
    obtain ⟨odec₁, h₁, h⟩ := h
    have scope := p.inScope
    rw [hbody] at scope
    have mem : ∀ item' ∈ done, item' ∈ p.body := fun item' h =>
      hbody ▸ List.mem_append_left _ h
    have next : Next p done item := by
      refine ⟨?_, ?_, ?_⟩
      · have scope' := (scoped_append.mp scope).2
        exact ⟨scope'.1, scope'.2.1, scope'.2.2.1, trivial⟩
      · exact fits item (hbody ▸ List.mem_append_right _ List.mem_cons_self)
      · intro r hr
        rw [knownAfter_eq, List.mem_append, List.mem_range, List.mem_flatMap] at hr
        rcases hr with hr | ⟨item', hitem, hr⟩
        · exact Nat.lt_of_lt_of_le hr (Nat.le_add_right _ _)
        · exact fits item' (mem item' hitem) r (written_subset item' r hr)
    apply ih (inl.append next (calls item List.mem_cons_self) h₁)
    · rw [hbody, List.append_assoc]
      rfl
    · exact fun item' h => calls item' (List.mem_cons_of_mem _ h)
    · exact h

theorem map_eq_of_forall₂ {α β γ : Type} {R : α → β → Prop} {f : α → γ} {g : β → γ} {l : List α}
    {l' : List β} (h : List.Forall₂ R l l') (same : ∀ a b, R a b → g b = f a) :
    l'.map g = l.map f := by
  induction h with
  | nil => rfl
  | cons hab _ ih => rw [List.map_cons, List.map_cons, same _ _ hab, ih]

theorem inlineDeconstruct_results (fits : p.Fits) (calls : ∀ item ∈ p.body, Calls reg item)
    (h : inlineDeconstruct reg p.toDeconstruct = some d) :
    ∃ q : Program, q.toDeconstruct = d ∧ q.Flat ∧ q.Fits ∧ (q.body = [] ↔ p.body = []) ∧
      q.inputCnt = p.inputCnt ∧ q.ret = p.ret ∧ ∀ (V : Type) (world : World V) (inputs : List V),
        world.results q inputs = (world.nested reg).results p inputs := by
  rw [inlineDeconstruct] at h
  change (p.body ++ [p.ret]).foldlM _ _ = some d at h
  rw [List.foldlM_append, Option.bind_eq_bind, Option.bind_eq_some_iff] at h
  obtain ⟨odec, hodec, h⟩ := h
  have inl := (Inlined.start reg p).appendAll (List.nil_append _).symm fits calls hodec
  have hret : p.ret.inlines = false := by simp [PrgItem.inlines, p.returns]
  simp only [List.foldlM_cons, List.foldlM_nil, appendItem, hret, Bool.false_eq_true, if_false,
    Option.bind_eq_bind, Option.bind_some] at h
  cases h
  have below : ∀ r ∈ p.ret.paramsIn, r < p.inputCnt + p.regCnt := by
    intro r hr
    have hknown := p.known r hr
    rw [knownAfter_eq, List.mem_append, List.mem_range] at hknown
    rcases hknown with hr | hr
    · exact Nat.lt_of_lt_of_le hr (Nat.le_add_right _ _)
    · exact (Program.counted fits hr).2
  refine ⟨⟨p.inputCnt, odec.regCnt, odec.commands, p.ret, inl.scope, p.returns, ?_⟩, ?_, inl.flat,
    inl.counted, inl.empty, rfl, rfl, fun V world inputs => ?_⟩
  · exact fun r hr => (inl.known r (below r hr)).mpr (p.known r hr)
  · change (⟨p.inputCnt, odec.regCnt, odec.commands ++ [p.ret]⟩ : Deconstruct) = _
    rw [← inl.inputCnt]
  · apply map_eq_of_forall₂ (inl.found V world _)
    exact fun found found' same => PrgItem.args_congr p.known same

end AllCommands

end ScCore.Search
