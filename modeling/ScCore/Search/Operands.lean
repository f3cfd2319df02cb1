import ScCore.Search.Filters
import ScCore.Search.Patterns

/-!
# Searches with operands

How the operators of the language search for triples. An operand is fixed to an
element or assigned; elements are filtered; an assigned operand that stands in two
places holds one element.
-/

namespace ScCore.Search

open Store

/-! ## Operands -/

/-- `scp_opnd_info`: an operand that has a value is fixed, any other is assigned. What is neither
or both is refused before the search. -/
structure OpndInfo where
  opnd : Addr
  value : Option Addr
  typeMask : ScType
  deriving DecidableEq, Repr

namespace OpndInfo

def fixed (o : OpndInfo) : Bool := o.value.isSome

def assign (o : OpndInfo) : Bool := o.value.isNone

def arc (o : OpndInfo) : OpndInfo := { o with typeMask := o.typeMask ||| ScType.arcAccessory }

def position (o : OpndInfo) : Position :=
  match o.value with
  | some e => .fixed e
  | none => .assigned o.typeMask

def Shared (o o' : OpndInfo) : Prop := o.assign = true ∧ o'.assign = true ∧ o.opnd = o'.opnd

def Opened (ss : Session) (m : Memory) (o : OpndInfo) : Prop := ∀ e ∈ o.value, InOpened ss m e

end OpndInfo

/-! ## The search by an arc -/

def idEqualWithD : Nat := 7

/-- `filter_equal_with_d`. A number is kept as a type is. -/
def filterEqualWithD (m : Memory) : List Param → Bool
  | [addr1, .addr (some addr2), .type d, .type mask] =>
      if d ≠ 0 then addr1 == .addr (some addr2)
      else (m.typeOf addr2).any fun type => checkScType type mask
  | _ => false

def dfdWorld (lost : Bool) (ss : Session) (m : Memory) : World Param :=
  { stdWorld lost ss m with
    filter := fun id args =>
      if id = idEqualWithD then filterEqualWithD m args else (stdWorld lost ss m).filter id args }

def decStd3Dfd : Program where
  inputCnt := 8
  regCnt := 2
  body := [
    ⟨.filter, [3, 4], [], "check_type", idCheckType⟩,
    ⟨.func, [3], [some 8], "get_beg", idGetBeg⟩,
    ⟨.filter, [0, 8, 1, 2], [], "equal_with_d", idEqualWithD⟩,
    ⟨.func, [3], [some 9], "get_end", idGetEnd⟩,
    ⟨.filter, [5, 9, 6, 7], [], "equal_with_d", idEqualWithD⟩]
  ret := ⟨.ret, [8, 3, 9], [], "return", 0⟩
  inScope := by decide
  returns := rfl
  known := by decide

def dfdArgs (o1 : OpndInfo) (e2 : Option Addr) (t2 : ScType) (o3 : OpndInfo) : List Param :=
  [.addr o1.value, .type (if o1.fixed then 1 else 0), .type o1.typeMask, .addr e2, .type t2,
    .addr o3.value, .type (if o3.fixed then 1 else 0), .type o3.typeMask]

structure Searches (lost : Bool) (ss : Session) (m : Memory) where
  iterator : StdConstraint → List Param → List (List Param)
  dfd : List Param → List (List Param)
  runs : ∀ pattern : Pattern, (∀ e, pattern.Given e → ∃ g, m.addrs e = some g) →
    pattern.RunsTo lost ss m (iterator pattern.constraint pattern.params)
  runsDfd : ∀ args, FallbackIterator.RunsTo (dfdWorld lost ss m) decStd3Dfd.toDeconstruct args
    (dfd args)

/-! ## The source of the tuples -/

/-- `indexate`: the parameter for an operand, and the index of the constraint. -/
def indexate (ss : Session) (m : Memory) (opnd : OpndInfo) (index indValue : Nat) :
    Option (Nat × Param) :=
  match opnd.value with
  | some e =>
      if (m.addrs e).any fun g => ss.opened g.seg then some (index ||| indValue, .addr (some e))
      else none
  | none => some (index, .type opnd.typeMask)

def constrs3 : List (Option StdConstraint) :=
  [none, some .std3Faa, some .std3Aaf, some .std3Faf]

def required (guards : List (Bool × Nat × Nat)) : List (Nat × Nat) :=
  (guards.filter Prod.fst).map Prod.snd

section Create

variable {lost : Bool} {ss : Session} {m : Memory} (its : Searches lost ss m)

/-- The iterator of `create_search3_iterator` that is filtered. -/
def source3 (o1 o2 o3 : OpndInfo) : Option (List (List Param)) :=
  match o2.value with
  | some e2 => some (its.dfd (dfdArgs o1 e2 o2.typeMask o3))
  | none => do
      let (index, p1) ← indexate ss m o1 0 1
      let (index, p3) ← indexate ss m o3 index 2
      let constr ← constrs3.getD index none
      some (its.iterator constr [p1, .type o2.typeMask, p3])

def guards3 (o1 o2 o3 : OpndInfo) : List (Bool × Nat × Nat) :=
  [(o1.assign && o2.assign && o1.opnd == o2.opnd, 0, 1),
    (o1.assign && o3.assign && o1.opnd == o3.opnd, 0, 2),
    (o2.assign && o3.assign && o2.opnd == o3.opnd, 1, 2)]

/-- `create_search3_iterator`; an error is `none`. -/
def createSearch3 (o1 o2 o3 : OpndInfo) (f1 f2 f3 : SingleFilter) : Option MatchFilter := do
  let source ← source3 its o1 o2.arc o3
  some (.begin ⟨.create [f1, f2, f3] source, required (guards3 o1 o2 o3)⟩)

end Create

/-! ## What the searches for triples find -/

section Dfd

variable {lost : Bool} {ss : Session} {m : Memory} {regs : Registers Param} {a e1 e2 e3 : Addr}
  {o o1 o3 : OpndInfo} {t2 : ScType} {t : List Param} {i r d k : Nat}

theorem holds_equalWithD (hi : regs i = .addr o.value) (hr : regs r = .addr (some a))
    (hd : regs d = .type (if o.fixed then 1 else 0)) (hk : regs k = .type o.typeMask) :
    (dfdWorld lost ss m).Holds ⟨.filter, [i, r, d, k], [], "equal_with_d", idEqualWithD⟩ regs ↔
      o.position.Admits m a := by
  have choices : (dfdWorld lost ss m).Holds
      ⟨.filter, [i, r, d, k], [], "equal_with_d", idEqualWithD⟩ regs ↔
        filterEqualWithD m [regs i, regs r, regs d, regs k] = true := by
    simp only [World.Holds, World.choices, PrgItem.args, PrgItem.written, PrgItem.targets,
      List.reduceOption_nil, List.not_mem_nil, false_implies, implies_true, and_true]
    change (∃ vs, vs ∈ if filterEqualWithD m _ = true then [[]] else []) ↔ _
    split <;> simp_all
  rw [choices, hi, hr, hd, hk, filterEqualWithD]
  cases hvalue : o.value with
  | none =>
    simp only [OpndInfo.fixed, OpndInfo.position, hvalue, Position.Admits, Option.isSome_none,
      Bool.false_eq_true, if_false, ne_eq, not_true_eq_false, Option.any_eq_true]
    rfl
  | some e =>
    simp only [OpndInfo.fixed, OpndInfo.position, hvalue, Position.Admits, Option.isSome_some,
      if_true]
    rw [if_pos (by decide), beq_iff_eq, Param.addr.injEq, Option.some.injEq]
    exact eq_comm

theorem mem_dfd (quiet : Quiet m) (its : Searches lost ss m) :
    t ∈ its.dfd (dfdArgs o1 (some e2) t2 o3) ↔
      ∃ e1 e3, t = Pattern.values [e1, e2, e3] ∧ Arc m e2 e1 e3 ∧ Accepts m t2 e2 ∧
        o1.position.Admits m e1 ∧ o3.position.Admits m e3 ∧ InOpened ss m e1 ∧
        InOpened ss m e3 := by
  have same : its.dfd (dfdArgs o1 (some e2) t2 o3) =
      (dfdWorld lost ss m).results decStd3Dfd (dfdArgs o1 (some e2) t2 o3) :=
    (its.runsDfd _).unique (runsTo_results decStd3Dfd _ _ (by decide))
  have check : ∀ {regs : Registers Param}, m.liveAddr e2 = true → regs 3 = .addr (some e2) →
      regs 4 = .type t2 → ((dfdWorld lost ss m).Holds
        ⟨.filter, [3, 4], [], "check_type", idCheckType⟩ regs ↔ Accepts m t2 e2) :=
    fun {regs} live h3 h4 => show ((stdWorld lost ss m).nested []).Holds _ regs ↔ _ from
      holds_check quiet live h3 h4
  have getEnd : ∀ {regs : Registers Param} {s : Endpoint} {o id : Nat} {name : String},
      (id = idGetBeg ∧ s = .beg) ∨ (id = idGetEnd ∧ s = .fin) → regs 3 = .addr (some e2) →
      ((dfdWorld lost ss m).Holds ⟨.func, [3], [some o], name, id⟩ regs ↔
        ∃ a, regs o = .addr (some a) ∧ m.endOf e2 s = some a ∧ InOpened ss m a) :=
    fun {regs _ _ _ _} hid h3 => show ((stdWorld lost ss m).nested []).Holds _ regs ↔ _ from
      holds_end quiet hid h3
  rw [same]
  constructor
  · intro ht
    obtain ⟨regs, ⟨h0, h1, h2, h3, h4, h5, h6, h7, -⟩, holds, rfl⟩ := begins_of_mem_results rfl ht
    simp only [decStd3Dfd, List.forall_mem_cons] at holds
    obtain ⟨accepts, beg, first, fin, third, -⟩ := holds
    obtain ⟨e1, h8, hbeg, p1⟩ := (getEnd (.inl ⟨rfl, rfl⟩) h3).mp beg
    obtain ⟨e3, h9, hfin, p3⟩ := (getEnd (.inr ⟨rfl, rfl⟩) h3).mp fin
    exact ⟨e1, e3, by simp [PrgItem.args, decStd3Dfd, h3, h8, h9, Pattern.values], ⟨hbeg, hfin⟩,
      (check (quiet.live hbeg).2.1 h3 h4).mp accepts, (holds_equalWithD h0 h8 h1 h2).mp first,
      (holds_equalWithD h5 h9 h6 h7).mp third, p1, p3⟩
  · rintro ⟨e1, e3, rfl, arc, accepts, a1, a3, p1, p3⟩
    refine mem_results_of [Param.addr (some e1), .addr (some e3)] rfl ?_
    simp only [decStd3Dfd, List.forall_mem_cons]
    refine ⟨?_, ?_, ?_, ?_, ?_, by simp⟩
    · exact (check (quiet.live arc.1).2.1 rfl rfl).mpr accepts
    · exact (getEnd (.inl ⟨rfl, rfl⟩) rfl).mpr ⟨e1, rfl, arc.1, p1⟩
    · exact (holds_equalWithD rfl rfl rfl rfl).mpr a1
    · exact (getEnd (.inr ⟨rfl, rfl⟩) rfl).mpr ⟨e3, rfl, arc.2, p3⟩
    · exact (holds_equalWithD rfl rfl rfl rfl).mpr a3

theorem nodup_dfd (its : Searches lost ss m) (args : List Param) : (its.dfd args).Nodup := by
  rw [(its.runsDfd args).unique (runsTo_results decStd3Dfd _ _ (by decide))]
  apply results_nodup
  intro item hitem resumes
  simp only [decStd3Dfd, List.mem_cons, List.not_mem_nil, or_false] at hitem
  rcases hitem with rfl | rfl | rfl | rfl | rfl <;> cases resumes

theorem mem_iterator (quiet : Quiet m) (its : Searches lost ss m) {pattern : Pattern}
    (opened : ∀ e, pattern.Given e → InOpened ss m e) :
    (its.iterator pattern.constraint pattern.params).Nodup ∧
      ∀ t, t ∈ its.iterator pattern.constraint pattern.params ↔
        ∃ es, t = Pattern.values es ∧ pattern.Matches m es ∧ ∀ e ∈ es, InOpened ss m e := by
  have given : ∀ e, pattern.Given e → ∃ g, m.addrs e = some g := by
    intro e given
    obtain ⟨g, hg, -⟩ := opened e given
    exact ⟨g, hg⟩
  obtain ⟨tuples, -, unique, nodup, mem⟩ := runsTo_pattern ss lost quiet given
  rw [unique _ (its.runs pattern given)]
  refine ⟨nodup, fun t => (mem t).trans (exists_congr fun es => ?_)⟩
  refine and_congr_right fun _ => and_congr_right fun matched => ?_
  exact visible_iff quiet opened matched

end Dfd

section Patterns

variable {lost : Bool} {ss : Session} {m : Memory} {its : Searches lost ss m} {e1 e3 : Addr}
  {o o1 o2 o3 : OpndInfo} {index indValue : Nat} {pattern : Pattern}

namespace OpndInfo

theorem position_some {e : Addr} (h : o.value = some e) : o.position = .fixed e := by
  rw [position, h]

theorem position_none (h : o.value = none) : o.position = .assigned o.typeMask := by
  rw [position, h]

theorem value_of_position {e : Addr} (h : o.position = .fixed e) : o.value = some e := by
  cases hvalue : o.value with
  | none =>
    rw [position_none hvalue] at h
    cases h
  | some e' =>
    rw [position_some hvalue] at h
    cases h
    rfl

@[simp]
theorem arc_value (o : OpndInfo) : o.arc.value = o.value := rfl

@[simp]
theorem arc_arc (o : OpndInfo) : o.arc.arc = o.arc := by
  simp [arc, UInt16.or_assoc]

end OpndInfo

theorem indexate_eq (opened : o.Opened ss m) :
    indexate ss m o index indValue =
      some (if o.fixed then index ||| indValue else index, o.position.param) := by
  cases hvalue : o.value with
  | none => simp [indexate, hvalue, OpndInfo.fixed, OpndInfo.position, Position.param]
  | some e =>
    have hopen : (m.addrs e).any (fun g => ss.opened g.seg) = true :=
      any_opened.mpr (opened e hvalue)
    simp [indexate, hvalue, OpndInfo.fixed, OpndInfo.position, Position.param, hopen]

theorem indexate_refused (h : ¬o.Opened ss m) :
    indexate ss m o index indValue = none := by
  cases hvalue : o.value with
  | none => exact absurd (fun e he => by simp [hvalue] at he) h
  | some e =>
    have closed : (m.addrs e).any (fun g => ss.opened g.seg) = false := by
      rw [Bool.eq_false_iff, ne_eq, any_opened]
      intro opened
      apply h
      intro e' he'
      cases hvalue.symm.trans he'
      exact opened
    simp [indexate, hvalue, closed]

theorem opened_of_given {ops : List OpndInfo} (hpos : pattern.positions = ops.map (·.position))
    (opened : ∀ o ∈ ops, o.Opened ss m) (e : Addr) (given : pattern.Given e) :
    InOpened ss m e := by
  rw [Pattern.Given, hpos] at given
  obtain ⟨o, ho, position⟩ := List.mem_map.mp given
  exact opened o ho e (OpndInfo.value_of_position position)

theorem source3_pattern (its : Searches lost ss m) (second : o2.value = none)
    (opened : ∀ o ∈ [o1, o3], o.Opened ss m)
    (fixed : ∃ o ∈ [o1, o3], o.fixed = true) :
    ∃ pattern : Pattern, source3 its o1 o2 o3 =
        some (its.iterator pattern.constraint pattern.params) ∧
      pattern.positions = [o1, o2, o3].map (·.position) := by
  simp only [List.forall_mem_cons] at opened
  obtain ⟨first, third, -⟩ := opened
  have p2 := OpndInfo.position_none second
  have source : ∀ pattern : Pattern, pattern.positions = [o1, o2, o3].map (·.position) →
      constrs3.getD (if o3.fixed then (if o1.fixed then 0 ||| 1 else 0) ||| 2
        else if o1.fixed then 0 ||| 1 else 0) none = some pattern.constraint →
      source3 its o1 o2 o3 = some (its.iterator pattern.constraint pattern.params) := by
    intro pattern positions constr
    simp only [source3, second, indexate_eq first, indexate_eq third, Option.bind_eq_bind,
      Option.bind_some, constr, Pattern.params, positions, List.map_cons, List.map_nil, p2,
      Position.param]
  simp only [List.map_cons, List.map_nil, p2] at source ⊢
  rcases h1 : o1.value with _ | e1 <;> rcases h3 : o3.value with _ | e3 <;>
    simp only [OpndInfo.position, h1, h3] at source ⊢ <;>
    simp [OpndInfo.fixed, h1, h3, constrs3] at fixed source
  · exact ⟨.aaf _ _ _, source _ rfl rfl, rfl⟩
  · exact ⟨.faa _ _ _, source _ rfl rfl, rfl⟩
  · exact ⟨.faf _ _ _, source _ rfl rfl, rfl⟩

end Patterns

/-! ## What passes the filters -/

section Passing

variable {es : List Addr} {fs : List SingleFilter} {guards : List (Bool × Nat × Nat)}
  {source : List (List Param)} {t : List Param} {width i : Nat}

@[simp]
theorem valueAt_values (es : List Addr) (i : Nat) : valueAt (Pattern.values es) i = es[i]? := by
  rw [valueAt, Pattern.values, List.getElem?_map]
  cases es[i]? <;> rfl

theorem matches_values (hlen : es.length = width) :
    MatchFilter.checkTuple width (required guards) (Pattern.values es) = true ↔
      ∀ g ∈ guards, g.1 = true → es[g.2.1]? = es[g.2.2]? := by
  have whole : ∀ i ∈ List.range width, es[i]?.isSome = true := by
    intro i hi
    rw [List.getElem?_eq_getElem (hlen ▸ List.mem_range.mp hi)]
    rfl
  simp only [MatchFilter.checkTuple, valueAt_values, Bool.and_eq_true, List.all_eq_true, required,
    List.mem_map, List.mem_filter, beq_iff_eq]
  constructor
  · rintro ⟨-, equal⟩ g hg guard
    exact equal g.2 ⟨g, ⟨hg, guard⟩, rfl⟩
  · intro equal
    refine ⟨whole, ?_⟩
    rintro _ ⟨g, ⟨hg, guard⟩, rfl⟩
    exact equal g hg guard

theorem mem_begin (whole : ∀ t ∈ source, ∃ es, t = Pattern.values es ∧ es.length = fs.length) :
    t ∈ (MatchFilter.begin ⟨.create fs source, required guards⟩).tuples ↔
      ∃ es, t = Pattern.values es ∧ Pattern.values es ∈ source ∧
        (∀ (i : Nat) (f : SingleFilter), fs[i]? = some f → es[i]?.any f.passes = true) ∧
        ∀ g ∈ guards, g.1 = true → es[g.2.1]? = es[g.2.2]? := by
  have full : ∀ t ∈ source, Full fs.length t := by
    intro t ht i hi
    obtain ⟨es, rfl, hlen⟩ := whole t ht
    rw [valueAt_values, List.getElem?_eq_getElem (hlen ▸ hi)]
    rfl
  rw [MatchFilter.tuples_begin full, List.mem_filter, Bool.and_eq_true]
  constructor
  · rintro ⟨ht, checks, matching⟩
    obtain ⟨es, rfl, hlen⟩ := whole t ht
    refine ⟨es, rfl, ht, ?_, (matches_values hlen).mp matching⟩
    simpa only [checkTuple_iff, valueAt_values] using checks
  · rintro ⟨es, rfl, ht, checks, matching⟩
    obtain ⟨es', same, hlen⟩ := whole _ ht
    have hes : es.length = fs.length := by
      rw [← hlen]
      simpa [Pattern.values] using congrArg List.length same
    refine ⟨ht, ?_, (matches_values hes).mpr matching⟩
    simpa only [checkTuple_iff, valueAt_values] using checks

theorem nodup_begin (nodup : source.Nodup)
    (whole : ∀ t ∈ source, ∃ es, t = Pattern.values es ∧ es.length = fs.length) :
    (MatchFilter.begin ⟨.create fs source, required guards⟩).tuples.Nodup := by
  rw [MatchFilter.tuples_begin]
  · exact nodup.filter _
  · intro t ht i hi
    obtain ⟨es, rfl, hlen⟩ := whole t ht
    rw [valueAt_values, List.getElem?_eq_getElem (hlen ▸ hi)]
    rfl

theorem forall_filters {P : Nat → SingleFilter → Prop} {f : SingleFilter} :
    (∀ (i : Nat) (f' : SingleFilter), (f :: fs)[i]? = some f' → P i f') ↔
      P 0 f ∧ ∀ (i : Nat) (f' : SingleFilter), fs[i]? = some f' → P (i + 1) f' := by
  constructor
  · intro h
    exact ⟨h 0 f rfl, fun i f' hf => h (i + 1) f' hf⟩
  · rintro ⟨first, rest⟩ i f' hf
    cases i with
    | zero =>
      cases hf
      exact first
    | succ i => exact rest i f' hf

end Passing

/-! ## The search for triples -/

structure Matched3 (ss : Session) (m : Memory) (o1 o2 o3 : OpndInfo) (e1 e2 e3 : Addr) : Prop where
  arc : Arc m e2 e1 e3
  first : o1.position.Admits m e1
  second : o2.position.Admits m e2 ∧ Accepts m o2.typeMask e2
  third : o3.position.Admits m e3
  opened1 : InOpened ss m e1
  opened2 : o2.assign = true → InOpened ss m e2
  opened3 : InOpened ss m e3

structure Passes3 (o1 o2 o3 : OpndInfo) (f1 f2 f3 : SingleFilter) (e1 e2 e3 : Addr) : Prop where
  first : f1.passes e1 = true
  second : f2.passes e2 = true
  third : f3.passes e3 = true
  pair12 : o1.Shared o2 → e1 = e2
  pair13 : o1.Shared o3 → e1 = e3
  pair23 : o2.Shared o3 → e2 = e3

section Triples

variable {lost : Bool} {ss : Session} {m : Memory} {o1 o2 o3 : OpndInfo}
  {t : List Param}

theorem guard_iff {o o' : OpndInfo} :
    (o.assign && o'.assign && o.opnd == o'.opnd) = true ↔ o.Shared o' := by
  simp [OpndInfo.Shared, and_assoc]

def Accepted3 (ss : Session) (m : Memory) (o1 o2 o3 : OpndInfo) : Prop :=
  o2.assign = true → (∀ o ∈ [o1, o3], o.Opened ss m) ∧ ∃ o ∈ [o1, o3], o.fixed = true

theorem source3_spec (quiet : Quiet m) (its : Searches lost ss m)
    (accepted : Accepted3 ss m o1 o2 o3) :
    ∃ l, source3 its o1 o2 o3 = some l ∧ l.Nodup ∧
      ∀ t, t ∈ l ↔ ∃ e1 e2 e3, t = Pattern.values [e1, e2, e3] ∧
        Matched3 ss m o1 o2 o3 e1 e2 e3 := by
  cases hvalue : o2.value with
  | some e2 =>
    refine ⟨its.dfd (dfdArgs o1 (some e2) o2.typeMask o3), by simp only [source3, hvalue],
      nodup_dfd its _, fun t => ?_⟩
    have assigned : o2.assign = false := by simp [OpndInfo.assign, hvalue]
    refine (mem_dfd quiet its).trans ?_
    constructor
    · rintro ⟨e1, e3, rfl, arc, accepts, a1, a3, p1, p3⟩
      refine ⟨e1, e2, e3, rfl, arc, a1, ⟨?_, accepts⟩, a3, p1, by simp [assigned], p3⟩
      rw [OpndInfo.position_some hvalue]
      rfl
    · rintro ⟨e1, e2', e3, rfl, matched⟩
      have second := matched.second.1
      rw [OpndInfo.position_some hvalue] at second
      cases second
      exact ⟨e1, e3, rfl, matched.arc, matched.second.2, matched.first, matched.third,
        matched.opened1, matched.opened3⟩
  | none =>
    have assigned : o2.assign = true := by simp [OpndInfo.assign, hvalue]
    obtain ⟨opened, fixed⟩ := accepted assigned
    obtain ⟨pattern, source, positions⟩ := source3_pattern its hvalue opened fixed
    have given : ∀ e, pattern.Given e → InOpened ss m e := by
      apply opened_of_given positions
      simp only [List.forall_mem_cons] at opened ⊢
      exact ⟨opened.1, fun e he => by simp [hvalue] at he, opened.2⟩
    obtain ⟨nodup, mem⟩ := mem_iterator quiet its given
    refine ⟨_, source, nodup, fun t => (mem t).trans ?_⟩
    simp only [Pattern.Matches, positions, List.map_cons, List.map_nil]
    refine exists_three.trans ?_
    refine exists_congr fun e1 => exists_congr fun e2 => exists_congr fun e3 =>
      and_congr_right fun _ => ?_
    rw [OpndInfo.position_none hvalue]
    constructor
    · rintro ⟨arc, a1, a2, a3, opened⟩
      simp only [List.forall_mem_cons] at opened
      exact ⟨arc, a1, ⟨by rwa [OpndInfo.position_none hvalue], a2⟩, a3, opened.1,
        fun _ => opened.2.1, opened.2.2.1⟩
    · intro matched
      refine ⟨matched.arc, matched.first, matched.second.2, matched.third, ?_⟩
      simp [matched.opened1, matched.opened2 assigned, matched.opened3]

theorem createSearch3_spec (quiet : Quiet m) (its : Searches lost ss m)
    (accepted : Accepted3 ss m o1 o2 o3) (f1 f2 f3 : SingleFilter) :
    ∃ it, createSearch3 its o1 o2 o3 f1 f2 f3 = some it ∧ it.tuples.Nodup ∧
      ∀ t, t ∈ it.tuples ↔ ∃ e1 e2 e3, t = Pattern.values [e1, e2, e3] ∧
        Matched3 ss m o1 o2.arc o3 e1 e2 e3 ∧ Passes3 o1 o2 o3 f1 f2 f3 e1 e2 e3 := by
  obtain ⟨l, source, nodup, mem⟩ := source3_spec quiet its
    (show Accepted3 ss m o1 o2.arc o3 from accepted)
  have whole : ∀ t ∈ l, ∃ es, t = Pattern.values es ∧ es.length = [f1, f2, f3].length := by
    intro t ht
    obtain ⟨e1, e2, e3, rfl, -⟩ := (mem t).mp ht
    exact ⟨_, rfl, rfl⟩
  refine ⟨_, by rw [createSearch3, source]; rfl, nodup_begin nodup whole, fun t => ?_⟩
  rw [mem_begin whole]
  constructor
  · rintro ⟨es, rfl, ht, passes, equal⟩
    obtain ⟨e1, e2, e3, same, matched⟩ := (mem _).mp ht
    obtain rfl := values_injective same
    simp only [guards3, List.forall_mem_cons, guard_iff] at equal
    refine ⟨e1, e2, e3, rfl, matched, ?_⟩
    exact {
      first := passes 0 f1 rfl
      second := passes 1 f2 rfl
      third := passes 2 f3 rfl
      pair12 := by simpa using equal.1
      pair13 := by simpa using equal.2.1
      pair23 := by simpa using equal.2.2.1 }
  · rintro ⟨e1, e2, e3, rfl, matched, passes⟩
    refine ⟨_, rfl, (mem _).mpr ⟨e1, e2, e3, rfl, matched⟩, ?_, ?_⟩
    · simp only [forall_filters]
      simp [passes.first, passes.second, passes.third]
    · simp only [guards3, List.forall_mem_cons, guard_iff]
      simpa using ⟨passes.pair12, passes.pair13, passes.pair23⟩

end Triples

/-! ## A session creates such iterators -/

section Exists

variable {m : Memory} {ss : Session}

theorem Pattern.eq_of_params {pattern pattern' : Pattern}
    (constr : pattern.constraint = pattern'.constraint)
    (params : pattern.params = pattern'.params) :
    pattern = pattern' := by
  cases pattern <;> cases pattern' <;> cases constr <;>
    simpa [Pattern.params, Pattern.positions, Position.param] using params

variable (ss) in
theorem searches_nonempty (quiet : Quiet m) (lost : Bool) : Nonempty (Searches lost ss m) := by
  have each : ∀ c params, ∃ l, ∀ pattern : Pattern, pattern.constraint = c →
      pattern.params = params → (∀ e, pattern.Given e → ∃ g, m.addrs e = some g) →
      pattern.RunsTo lost ss m l := by
    intro c params
    by_cases h : ∃ pattern : Pattern, pattern.constraint = c ∧ pattern.params = params ∧
        ∀ e, pattern.Given e → ∃ g, m.addrs e = some g
    · obtain ⟨pattern, rfl, rfl, given⟩ := h
      obtain ⟨l, runs, -⟩ := runsTo_pattern ss lost quiet given
      refine ⟨l, fun pattern' constr params _ => ?_⟩
      rwa [Pattern.eq_of_params constr params]
    · exact ⟨[], fun pattern constr params given => absurd ⟨pattern, constr, params, given⟩ h⟩
  choose iterator runs using each
  exact ⟨iterator, fun args => (dfdWorld lost ss m).results decStd3Dfd args,
    fun pattern => runs _ _ pattern rfl rfl,
    fun args => runsTo_results decStd3Dfd _ args (by decide)⟩

end Exists

end ScCore.Search
