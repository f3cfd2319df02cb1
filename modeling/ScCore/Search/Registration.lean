import ScCore.Search.StdConstraints

/-!
# What is registered does what was written

Between the program that is given to the registry and the one by which the
constraint is searched, names become ids and programs take the place of commands.
Where each command takes over only what it may, the iterator yields the same
tuples in the same order.
-/

namespace ScCore.Search

open FallbackIterator

variable {V : Type}

def Realized (reg : Registry) (item item' : PrgItem) : Prop :=
  ∃ id, reg.findHolderIdByName item.name = some id ∧ item' = { item with id }

section Realize

variable {reg : Registry} {items items' : List PrgItem} {known : List Nat} {p : Program}
  {d : Deconstruct}

theorem scoped_realized (h : List.Forall₂ (Realized reg) items items') :
    (Scoped known items → Scoped known items') ∧
      knownAfter known items' = knownAfter known items := by
  induction h generalizing known with
  | nil => exact ⟨id, rfl⟩
  | cons realized _ ih =>
    obtain ⟨id, -, rfl⟩ := realized
    refine ⟨?_, ?_⟩
    · rintro ⟨proper, reads, fresh, scope⟩
      exact ⟨proper, reads, fresh, ih.1 scope⟩
    · exact ih.2

theorem realized_of_mem (h : List.Forall₂ (Realized reg) items items') {item' : PrgItem}
    (hitem : item' ∈ items') : ∃ item ∈ items, Realized reg item item' := by
  induction h with
  | nil => cases hitem
  | cons realized _ ih =>
    rcases List.mem_cons.mp hitem with rfl | hitem
    · exact ⟨_, List.mem_cons_self, realized⟩
    · obtain ⟨item, hitem, realized⟩ := ih hitem
      exact ⟨item, List.mem_cons_of_mem _ hitem, realized⟩

theorem mapM_realized {f : PrgItem → Option PrgItem}
    (each : ∀ item ∈ items, ∀ item', f item = some item' → Realized reg item item')
    (h : items.mapM f = some items') : List.Forall₂ (Realized reg) items items' := by
  induction items generalizing items' with
  | nil =>
    cases h
    exact .nil
  | cons item items ih =>
    rw [List.mapM_cons, Option.bind_eq_bind, Option.bind_eq_some_iff] at h
    obtain ⟨item', hitem, h⟩ := h
    obtain ⟨rest, hrest, h⟩ := Option.bind_eq_some_iff.mp h
    cases h
    refine .cons (each item List.mem_cons_self item' hitem) (ih ?_ hrest)
    exact fun i hi => each i (List.mem_cons_of_mem _ hi)

theorem realize_program (h : realize reg p.toDeconstruct = some d) :
    ∃ r : Program, r.toDeconstruct = d ∧ r.inputCnt = p.inputCnt ∧ r.regCnt = p.regCnt ∧
      List.Forall₂ (Realized reg) p.body r.body := by
  rw [realize, Option.bind_eq_bind, Option.bind_eq_some_iff] at h
  obtain ⟨commands, hcommands, h⟩ := h
  cases h
  rw [Program.toDeconstruct, List.mapM_append, Option.bind_eq_bind,
    Option.bind_eq_some_iff] at hcommands
  obtain ⟨body, hbody, h⟩ := hcommands
  simp only [List.mapM_cons, List.mapM_nil, p.returns, if_true, Option.bind_eq_bind,
    Option.bind_some, Option.pure_def, Option.some.injEq] at h
  have realized : List.Forall₂ (Realized reg) p.body body := by
    refine mapM_realized (fun item hitem item' hitem' => ?_) hbody
    have proper := p.inScope.proper hitem
    rw [if_neg proper.not_ret, Option.map_eq_some_iff] at hitem'
    obtain ⟨id, hid, rfl⟩ := hitem'
    exact ⟨id, hid, rfl⟩
  have kept : (Scoped (List.range p.inputCnt) p.body → Scoped (List.range p.inputCnt) body) ∧
      knownAfter (List.range p.inputCnt) body = knownAfter (List.range p.inputCnt) p.body :=
    scoped_realized realized
  obtain ⟨scope, after⟩ := kept
  refine ⟨⟨p.inputCnt, p.regCnt, body, p.ret, scope p.inScope, p.returns, ?_⟩, ?_, rfl, rfl,
    realized⟩
  · exact fun r hr => after ▸ p.known r hr
  · rw [← h]
    rfl

end Realize

/-- The world in which the commands of a program find what the constraints' own iterators yield,
where those run in the first world. -/
structure Executes (world : World V) (reg : Registry) (body : List PrgItem) (own : World V) :
    Prop where
  nil : own.nil = world.nil
  isElement : own.isElement = world.isElement
  isOpened : own.isOpened = world.isOpened
  filter : own.filter = world.filter
  func : own.func = world.func
  plainSet : own.plainSet = world.plainSet
  program : ∀ item ∈ body, item.inlines = true → ∀ dec, reg.deconstruct item.id = some dec →
    ∀ args, RunsTo world dec args (own.iterator item.id args)
  arcs : ∀ item ∈ body, item.type = .constr → item.inlines = false →
    ∀ args, own.iterator item.id args = world.iterator item.id args

section Worlds

variable {world own : World V} {reg : Registry} {items : List PrgItem} {p : Program}

theorem solutions_of_choices (nil : own.nil = world.nil)
    (choices : ∀ item ∈ items, ∀ args, own.choices item args = world.choices item args)
    (regs : Registers V) : own.solutions items regs = world.solutions items regs := by
  induction items generalizing regs with
  | nil => rfl
  | cons item items ih =>
    have solve : own.solve item regs = world.solve item regs := by
      rw [World.solve, World.solve, choices item List.mem_cons_self, nil]
    rw [World.solutions_cons, World.solutions_cons, solve]
    exact List.flatMap_congr fun regs _ =>
      ih (fun item h => choices item (List.mem_cons_of_mem _ h)) regs

theorem Executes.results (exec : Executes world reg p.body own)
    (calls : ∀ item ∈ p.body, Calls reg item) (inputs : List V) :
    own.results p inputs = (world.nested reg).results p inputs := by
  have nil : own.nil = (world.nested reg).nil := exec.nil
  rw [World.results, World.results, nil]
  refine congrArg (List.map p.ret.args) (solutions_of_choices nil ?_ _)
  intro item hitem args
  have call := calls item hitem
  unfold Calls at call
  cases htype : item.type with
  | constr =>
    simp only [World.choices, htype]
    cases hinl : item.inlines with
    | true =>
      simp only [hinl, if_true] at call
      obtain ⟨q, hq, -, -, hbody, -⟩ := call
      have runs := exec.program item hitem hinl _ hq args
      rw [runs.unique (runsTo_results q world args hbody)]
      simp only [World.nested, hq, World.tuples_program]
    | false =>
      simp only [hinl, Bool.false_eq_true, if_false] at call
      rw [exec.arcs item hitem htype hinl]
      simp only [World.nested, call htype]
  | filter => simp only [World.choices, htype, exec.filter]; rfl
  | func =>
    simp only [World.choices, htype, exec.func, World.passes, exec.isElement, exec.isOpened]
    rfl
  | setEach => simp only [World.choices, htype, exec.plainSet, exec.nil]; rfl
  | ret => simp only [World.choices, htype]

theorem runsTo_iff (world : World V) (hbody : p.body ≠ []) (inputs : List V)
    (tuples : List (List V)) :
    RunsTo world p.toDeconstruct inputs tuples ↔ tuples = world.results p inputs := by
  have runs := runsTo_results p world inputs hbody
  constructor
  · exact fun runs' => runs'.unique runs
  · rintro rfl
    exact runs

end Worlds

section Register

variable {reg reg' : Registry} {name : String} {dec : Deconstruct}

theorem register_some (h : reg.register name (some dec) = some reg') :
    ∃ r d, realize reg dec = some r ∧ inlineDeconstruct reg r = some d ∧
      reg.findHolderIdByName name = none ∧ reg' = reg ++ [.constr name (some d)] := by
  rw [Registry.register, Option.bind_eq_bind, Option.bind_eq_some_iff] at h
  obtain ⟨inlined, hinlined, h⟩ := h
  obtain ⟨r, hr, hinlined⟩ := Option.bind_eq_some_iff.mp hinlined
  obtain ⟨d, hd, rfl⟩ := Option.map_eq_some_iff.mp hinlined
  split at h
  · cases h
  · next hnew =>
    cases h
    exact ⟨r, d, hr, hd, Option.not_isSome_iff_eq_none.mp hnew, rfl⟩

theorem program_registered (d : Deconstruct) (hnew : reg.findHolderIdByName name = none) :
    Registry.program (reg ++ [.constr name (some d)]) name = some d := by
  have hid : Registry.findHolderIdByName (reg ++ [.constr name (some d)]) name =
      some reg.length := by
    rw [Registry.findHolderIdByName] at hnew ⊢
    rw [List.findIdx?_append, hnew]
    simp [Holder.name]
  rw [Registry.program, hid, Option.bind_some, Registry.deconstruct]
  simp

end Register

/-- The registered program of a constraint yields what the given one does when its commands run
the iterators of their constraints. -/
def RegistersRight (reg reg' : Registry) (name : String) (p : Program) : Prop :=
  ∃ d r : Deconstruct, reg'.program name = some d ∧ realize reg p.toDeconstruct = some r ∧
    ∀ (V : Type) (world own : World V), Executes world reg r.commands.dropLast own →
      ∀ inputs tuples, RunsTo world d inputs tuples ↔ RunsTo own r inputs tuples

def arcsOfElement : Program where
  inputCnt := 1
  regCnt := 1
  body := [⟨.constr, [0], [none, some 1], "all_output", 1⟩]
  ret := ⟨.ret, [0, 1], [], "return", 0⟩
  inScope := by decide
  returns := rfl
  known := by decide

def asksForArcs : Program where
  inputCnt := 1
  regCnt := 1
  body := [⟨.constr, [0], [none, some 1], "arcs_of_element", 0⟩]
  ret := ⟨.ret, [1], [], "return", 0⟩
  inScope := by decide
  returns := rfl
  known := by decide

def asksForElement : Program where
  inputCnt := 1
  regCnt := 2
  body := [⟨.constr, [0], [some 1, some 2], "arcs_of_element", 0⟩]
  ret := ⟨.ret, [1, 2], [], "return", 0⟩
  inScope := by decide
  returns := rfl
  known := by decide

def arcsRegistry : Registry :=
  [.constr "all_input" none, .constr "all_output" none,
    .constr "arcs_of_element" (some arcsOfElement.toDeconstruct)]

def oneArcWorld : World Nat where
  nil := 0
  isElement v := v ≥ 4096
  isOpened _ := true
  iterator id args :=
    if (id = 1 ∨ id = 2) ∧ args.head? = some 5000 then [[5000, 6000]] else []
  filter _ _ := true
  func _ _ := (0, true)
  plainSet _ := []

end ScCore.Search
