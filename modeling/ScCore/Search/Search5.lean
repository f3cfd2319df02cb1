import ScCore.Search.Operands

/-!
# The search for five-tuples

`create_search5_iterator`: the fixed operands decide between a constraint, the tuples
of a search for triples with two more elements, and one tuple. Two of the ten guards of
its matches name another operand than their pair.
-/

namespace ScCore.Search

open Store

def constrs5 : List (Option StdConstraint) :=
  [none, some .std5Faaaa, some .std5Aafaa, some .std5Fafaa, some .std5Aaaaf, some .std5Faaaf,
    some .std5Aafaf, some .std5Fafaf]

/-- The operands and filters of `create_search5_iterator`. -/
structure Search5 where
  i1 : OpndInfo
  i2 : OpndInfo
  i3 : OpndInfo
  i4 : OpndInfo
  i5 : OpndInfo
  f1 : SingleFilter
  f2 : SingleFilter
  f3 : SingleFilter
  f4 : SingleFilter
  f5 : SingleFilter

namespace Search5

section Create

variable {lost : Bool} {ss : Session} {m : Memory} (its : Searches lost ss m)

/-- `f2_s5_iterator`: a tuple of the arc to the second element, with the ends of that one. -/
def f2S5 (e1 e3 : Option Addr) (t : List Param) : List Param :=
  [.addr e1, .addr (valueAt t 2), .addr e3, .addr (valueAt t 1), .addr (valueAt t 0)]

def guards5 (s : Search5) : List (Bool × Nat × Nat) :=
  [(s.i1.assign && s.i2.assign && s.i1.opnd == s.i2.opnd, 0, 1),
    (s.i1.assign && s.i3.assign && s.i1.opnd == s.i3.opnd, 0, 2),
    (s.i1.assign && s.i4.assign && s.i1.opnd == s.i4.opnd, 0, 3),
    (s.i1.assign && s.i5.assign && s.i1.opnd == s.i5.opnd, 0, 4),
    (s.i2.assign && s.i5.assign && s.i2.opnd == s.i3.opnd, 1, 2),
    (s.i2.assign && s.i4.assign && s.i2.opnd == s.i4.opnd, 1, 3),
    (s.i2.assign && s.i4.assign && s.i2.opnd == s.i5.opnd, 1, 4),
    (s.i3.assign && s.i4.assign && s.i3.opnd == s.i4.opnd, 2, 3),
    (s.i3.assign && s.i5.assign && s.i3.opnd == s.i5.opnd, 2, 4),
    (s.i4.assign && s.i5.assign && s.i4.opnd == s.i5.opnd, 3, 4)]

/-- The filters of the matching search over a source. -/
def filtered (s : Search5) (filters : List SingleFilter) (source : List (List Param)) :
    MatchFilter :=
  .begin ⟨.create filters source, required s.guards5⟩

/-- The second operand is fixed to `e2`. What the inner search filters is not filtered again. -/
def bySecond (s : Search5) (e2 : Addr) : Option MatchFilter := do
  let iter ← createSearch3 its s.i5 s.i4.arc s.i2.arc s.f5 s.f4 s.f2
  match its.dfd (dfdArgs s.i1 e2 s.i2.arc.typeMask s.i3) with
  -- An iterator that is over.
  | [] => some ⟨⟨[], []⟩, []⟩
  | t :: _ =>
      some (s.filtered [s.f1, none, s.f3, none, none]
        (iter.tuples.map (f2S5 (valueAt t 0) (valueAt t 2))))

/-- The fourth operand is fixed to `e4` and the second is not. -/
def byFourth (s : Search5) (e4 : Addr) : Option MatchFilter := do
  let t ← (its.dfd (dfdArgs s.i5 e4 s.i4.arc.typeMask s.i2.arc)).head?
  let t' ← (its.dfd (dfdArgs s.i1 (valueAt t 2) s.i2.arc.typeMask s.i3)).head?
  some (s.filtered [s.f1, s.f2, s.f3, s.f4, s.f5]
    [[.addr (valueAt t' 0), .addr (valueAt t 2), .addr (valueAt t' 2), .addr (some e4),
      .addr (valueAt t 0)]])

def source5 (s : Search5) : Option (List (List Param)) := do
  let (index, p1) ← indexate ss m s.i1 0 1
  let (index, p3) ← indexate ss m s.i3 index 2
  let (index, p5) ← indexate ss m s.i5 index 4
  let constr ← constrs5.getD index none
  some (its.iterator constr
    [p1, .type s.i2.arc.typeMask, p3, .type s.i4.arc.typeMask, p5])

/-- `create_search5_iterator`; an error is `none`. -/
def create (s : Search5) : Option MatchFilter :=
  match s.i2.value, s.i4.value with
  | some e2, _ => s.bySecond its e2
  | none, some e4 => s.byFourth its e4
  | none, none => do
      let source ← s.source5 its
      some (s.filtered [s.f1, s.f2, s.f3, s.f4, s.f5] source)

end Create

/-! ## What it should find -/

structure Matched (ss : Session) (m : Memory) (s : Search5) (e1 e2 e3 e4 e5 : Addr) : Prop where
  arc : Arc m e2 e1 e3
  arc' : Arc m e4 e5 e2
  first : s.i1.position.Admits m e1
  second : s.i2.arc.position.Admits m e2 ∧ Accepts m s.i2.arc.typeMask e2
  third : s.i3.position.Admits m e3
  fourth : s.i4.arc.position.Admits m e4 ∧ Accepts m s.i4.arc.typeMask e4
  fifth : s.i5.position.Admits m e5
  opened1 : InOpened ss m e1
  opened2 : InOpened ss m e2
  opened3 : InOpened ss m e3
  opened4 : s.i4.assign = true → InOpened ss m e4
  opened5 : InOpened ss m e5

structure Passes (s : Search5) (e1 e2 e3 e4 e5 : Addr) : Prop where
  first : s.f1.passes e1 = true
  second : s.f2.passes e2 = true
  third : s.f3.passes e3 = true
  fourth : s.f4.passes e4 = true
  fifth : s.f5.passes e5 = true

structure Equal (s : Search5) (e1 e2 e3 e4 e5 : Addr) : Prop where
  pair12 : s.i1.Shared s.i2 → e1 = e2
  pair13 : s.i1.Shared s.i3 → e1 = e3
  pair14 : s.i1.Shared s.i4 → e1 = e4
  pair15 : s.i1.Shared s.i5 → e1 = e5
  pair24 : s.i2.Shared s.i4 → e2 = e4
  pair34 : s.i3.Shared s.i4 → e3 = e4
  pair35 : s.i3.Shared s.i5 → e3 = e5
  pair45 : s.i4.Shared s.i5 → e4 = e5

def Due (s : Search5) (e2 e3 e5 : Addr) : Prop :=
  (s.i2.Shared s.i3 → e2 = e3) ∧ (s.i2.Shared s.i5 → e2 = e5)

def Asked (s : Search5) (e2 e3 e5 : Addr) : Prop :=
  (s.i2.assign = true → s.i5.assign = true → s.i2.opnd = s.i3.opnd → e2 = e3) ∧
    (s.i2.assign = true → s.i4.assign = true → s.i2.opnd = s.i5.opnd → e2 = e5)

/-- The iterator yields the tuples that are found, each once; value `k` of a tuple is its element
in place `k`. -/
def YieldsFound (ss : Session) (m : Memory) (s : Search5) (it : MatchFilter) : Prop :=
  ∃ l, it.Yields l ∧ l.Nodup ∧ ∀ t, t ∈ l ↔ ∃ e1 e2 e3 e4 e5,
    t = Pattern.values [e1, e2, e3, e4, e5] ∧ s.Matched ss m e1 e2 e3 e4 e5 ∧
      s.Passes e1 e2 e3 e4 e5 ∧ s.Equal e1 e2 e3 e4 e5 ∧ s.Due e2 e3 e5

def Accepted (ss : Session) (m : Memory) (s : Search5) : Prop :=
  (s.i2.fixed = true → s.i4.assign = true → s.i5.Opened ss m ∧ s.i2.Opened ss m) ∧
    (s.i2.assign = true → s.i4.assign = true → (∀ o ∈ [s.i1, s.i3, s.i5], o.Opened ss m) ∧
      ∃ o ∈ [s.i1, s.i3, s.i5], o.fixed = true)

def GuardsAgree (ss : Session) (m : Memory) (s : Search5) : Prop :=
  ∀ e1 e2 e3 e4 e5, s.Matched ss m e1 e2 e3 e4 e5 → s.Passes e1 e2 e3 e4 e5 →
    s.Equal e1 e2 e3 e4 e5 → (s.Asked e2 e3 e5 ↔ s.Due e2 e3 e5)

def Led (ss : Session) (m : Memory) (s : Search5) : Prop :=
  s.i2.assign = true → s.i4.fixed = true →
    ∃ e1 e2 e3 e4 e5, s.Matched ss m e1 e2 e3 e4 e5

end Search5

/-! ## The search for five-tuples -/

section Source

variable {lost : Bool} {ss : Session} {m : Memory}

theorem source5_pattern (its : Searches lost ss m) {s : Search5}
    (second : s.i2.value = none) (fourth : s.i4.value = none)
    (opened : ∀ o ∈ [s.i1, s.i3, s.i5], o.Opened ss m)
    (fixed : ∃ o ∈ [s.i1, s.i3, s.i5], o.fixed = true) :
    ∃ pattern : Pattern,
      s.source5 its = some (its.iterator pattern.constraint pattern.params) ∧
      pattern.positions = [s.i1, s.i2.arc, s.i3, s.i4.arc, s.i5].map (·.position) := by
  have p2 : s.i2.arc.position = .assigned s.i2.arc.typeMask := OpndInfo.position_none second
  have p4 : s.i4.arc.position = .assigned s.i4.arc.typeMask := OpndInfo.position_none fourth
  simp only [List.forall_mem_cons] at opened
  obtain ⟨first, third, fifth, -⟩ := opened
  have source : ∀ pattern : Pattern,
      pattern.positions = [s.i1, s.i2.arc, s.i3, s.i4.arc, s.i5].map (·.position) →
      constrs5.getD (if s.i5.fixed then (if s.i3.fixed then
        (if s.i1.fixed then 0 ||| 1 else 0) ||| 2
        else if s.i1.fixed then 0 ||| 1 else 0) ||| 4 else if s.i3.fixed then
          (if s.i1.fixed then 0 ||| 1 else 0) ||| 2 else if s.i1.fixed then 0 ||| 1 else 0) none =
        some pattern.constraint →
      s.source5 its = some (its.iterator pattern.constraint pattern.params) := by
    intro pattern positions constr
    simp only [Search5.source5, indexate_eq first, indexate_eq third, indexate_eq fifth,
      Option.bind_eq_bind, Option.bind_some, constr, Pattern.params, positions, List.map_cons,
      List.map_nil, p2, p4, Position.param]
  simp only [List.map_cons, List.map_nil, p2, p4] at source ⊢
  rcases h1 : s.i1.value with _ | e1 <;> rcases h3 : s.i3.value with _ | e3 <;>
    rcases h5 : s.i5.value with _ | e5 <;>
    simp only [OpndInfo.position, h1, h3, h5] at source ⊢ <;>
    simp [OpndInfo.fixed, h1, h3, h5, constrs5] at fixed source
  · exact ⟨.aaaaf _ _ _ _ _, source _ rfl rfl, rfl⟩
  · exact ⟨.aafaa _ _ _ _ _, source _ rfl rfl, rfl⟩
  · exact ⟨.aafaf _ _ _ _ _, source _ rfl rfl, rfl⟩
  · exact ⟨.faaaa _ _ _ _ _, source _ rfl rfl, rfl⟩
  · exact ⟨.faaaf _ _ _ _ _, source _ rfl rfl, rfl⟩
  · exact ⟨.fafaa _ _ _ _ _, source _ rfl rfl, rfl⟩
  · exact ⟨.fafaf _ _ _ _ _, source _ rfl rfl, rfl⟩

end Source

namespace Search5

section Five

variable {lost : Bool} {ss : Session} {m : Memory} {s : Search5} {it : MatchFilter}
  {filters : List SingleFilter} {source : List (List Param)} {t : List Param}
  {P : Addr → Addr → Addr → Addr → Addr → Prop}

def YieldsAsked (ss : Session) (m : Memory) (s : Search5) (it : MatchFilter) : Prop :=
  it.tuples.Nodup ∧ ∀ t, t ∈ it.tuples ↔ ∃ e1 e2 e3 e4 e5,
    t = Pattern.values [e1, e2, e3, e4, e5] ∧ s.Matched ss m e1 e2 e3 e4 e5 ∧
      s.Passes e1 e2 e3 e4 e5 ∧ s.Equal e1 e2 e3 e4 e5 ∧ s.Asked e2 e3 e5

variable {e1 e2 e3 e4 e5 : Addr}

theorem equal_guards :
    (∀ g ∈ s.guards5, g.1 = true →
      [e1, e2, e3, e4, e5][g.2.1]? = [e1, e2, e3, e4, e5][g.2.2]?) ↔
      s.Equal e1 e2 e3 e4 e5 ∧ s.Asked e2 e3 e5 := by
  have shared : ∀ {o o' : OpndInfo} {P : Prop},
      (o.Shared o' → P) ↔ (o.assign = true → o'.assign = true → o.opnd = o'.opnd → P) := by
    simp [OpndInfo.Shared]
  simp only [guards5, List.forall_mem_cons, Bool.and_eq_true, beq_iff_eq,
    List.getElem?_cons_zero, List.getElem?_cons_succ, Option.some.injEq, List.not_mem_nil,
    false_implies, implies_true, and_true, and_imp]
  constructor
  · rintro ⟨p12, p13, p14, p15, p23, p24, p25, p34, p35, p45⟩
    exact ⟨⟨shared.mpr p12, shared.mpr p13, shared.mpr p14, shared.mpr p15, shared.mpr p24,
      shared.mpr p34, shared.mpr p35, shared.mpr p45⟩, p23, p25⟩
  · rintro ⟨⟨p12, p13, p14, p15, p24, p34, p35, p45⟩, p23, p25⟩
    exact ⟨shared.mp p12, shared.mp p13, shared.mp p14, shared.mp p15, p23, shared.mp p24, p25,
      shared.mp p34, shared.mp p35, shared.mp p45⟩

theorem filtered_spec (hlen : filters.length = 5) (nodup : source.Nodup)
    (mem : ∀ t, t ∈ source ↔ ∃ e1 e2 e3 e4 e5, t = Pattern.values [e1, e2, e3, e4, e5] ∧
      P e1 e2 e3 e4 e5)
    (found : ∀ e1 e2 e3 e4 e5, s.Equal e1 e2 e3 e4 e5 → s.Asked e2 e3 e5 →
      ((P e1 e2 e3 e4 e5 ∧ ∀ (i : Nat) (f : SingleFilter), filters[i]? = some f →
        [e1, e2, e3, e4, e5][i]?.any f.passes = true) ↔
        s.Matched ss m e1 e2 e3 e4 e5 ∧ s.Passes e1 e2 e3 e4 e5)) :
    s.YieldsAsked ss m (s.filtered filters source) := by
  have whole : ∀ t ∈ source, ∃ es, t = Pattern.values es ∧ es.length = filters.length := by
    intro t ht
    obtain ⟨e1, e2, e3, e4, e5, rfl, -⟩ := (mem t).mp ht
    exact ⟨_, rfl, hlen.symm⟩
  refine ⟨nodup_begin nodup whole, fun t => (mem_begin whole).trans ?_⟩
  constructor
  · rintro ⟨es, rfl, ht, passes, equal⟩
    obtain ⟨e1, e2, e3, e4, e5, same, holds⟩ := (mem _).mp ht
    obtain rfl := values_injective same
    obtain ⟨equal, asked⟩ := equal_guards.mp equal
    obtain ⟨matched, passes⟩ := (found _ _ _ _ _ equal asked).mp ⟨holds, passes⟩
    exact ⟨e1, e2, e3, e4, e5, rfl, matched, passes, equal, asked⟩
  · rintro ⟨e1, e2, e3, e4, e5, rfl, matched, passes, equal, asked⟩
    obtain ⟨holds, passes⟩ := (found _ _ _ _ _ equal asked).mpr ⟨matched, passes⟩
    exact ⟨_, rfl, (mem _).mpr ⟨e1, e2, e3, e4, e5, rfl, holds⟩, passes,
      equal_guards.mpr ⟨equal, asked⟩⟩

theorem passes_iff :
    (∀ (i : Nat) (f : SingleFilter), [s.f1, s.f2, s.f3, s.f4, s.f5][i]? = some f →
      [e1, e2, e3, e4, e5][i]?.any f.passes = true) ↔ s.Passes e1 e2 e3 e4 e5 := by
  simp only [forall_filters]
  constructor
  · rintro ⟨f1, f2, f3, f4, f5, -⟩
    exact ⟨f1, f2, f3, f4, f5⟩
  · rintro ⟨f1, f2, f3, f4, f5⟩
    exact ⟨f1, f2, f3, f4, f5, by simp⟩

theorem source5_spec (quiet : Quiet m) (its : Searches lost ss m) (accepted : s.Accepted ss m)
    (second : s.i2.value = none) (fourth : s.i4.value = none) :
    ∃ it, s.create its = some it ∧ s.YieldsAsked ss m it := by
  have assigned2 : s.i2.assign = true := by simp [OpndInfo.assign, second]
  have assigned4 : s.i4.assign = true := by simp [OpndInfo.assign, fourth]
  obtain ⟨opened, fixed⟩ := accepted.2 assigned2 assigned4
  obtain ⟨pattern, source, positions⟩ := source5_pattern its second fourth opened fixed
  have given : ∀ e, pattern.Given e → InOpened ss m e := by
    apply opened_of_given positions
    simp only [List.forall_mem_cons] at opened ⊢
    exact ⟨opened.1, fun e he => by simp [second] at he, opened.2.1,
      fun e he => by simp [fourth] at he, opened.2.2⟩
  obtain ⟨nodup, mem⟩ := mem_iterator quiet its given
  have p2 : s.i2.arc.position = .assigned s.i2.arc.typeMask := OpndInfo.position_none second
  have p4 : s.i4.arc.position = .assigned s.i4.arc.typeMask := OpndInfo.position_none fourth
  refine ⟨s.filtered [s.f1, s.f2, s.f3, s.f4, s.f5]
    (its.iterator pattern.constraint pattern.params), ?_, ?_⟩
  · rw [create, second, fourth]
    simp only [source, Option.bind_eq_bind, Option.bind_some]
  · refine filtered_spec (P := s.Matched ss m) rfl nodup (fun t => (mem t).trans ?_) ?_
    · simp only [Pattern.Matches, positions, List.map_cons, List.map_nil]
      refine exists_five.trans ?_
      refine exists_congr fun e1 => exists_congr fun e2 => exists_congr fun e3 =>
        exists_congr fun e4 => exists_congr fun e5 => and_congr_right fun _ => ?_
      constructor
      · rintro ⟨arc, arc', a1, a2, a3, a4, a5, opened⟩
        simp only [List.forall_mem_cons] at opened
        obtain ⟨o1, o2, o3, o4, o5, -⟩ := opened
        rw [p2] at a2
        rw [p4] at a4
        exact ⟨arc, arc', a1, ⟨by rwa [p2], a2⟩, a3, ⟨by rwa [p4], a4⟩, a5, o1, o2, o3,
          fun _ => o4, o5⟩
      · intro matched
        refine ⟨matched.arc, matched.arc', matched.first, matched.second.1, matched.third,
          matched.fourth.1, matched.fifth, ?_⟩
        simp [matched.opened1, matched.opened2, matched.opened3, matched.opened4 assigned4,
          matched.opened5]
    · intro e1 e2 e3 e4 e5 _ _
      rw [passes_iff]

theorem Matched.mem_dfd (quiet : Quiet m) (its : Searches lost ss m)
    (h : s.Matched ss m e1 e2 e3 e4 e5) :
    Pattern.values [e1, e2, e3] ∈ its.dfd (dfdArgs s.i1 (some e2) s.i2.arc.typeMask s.i3) :=
  (Search.mem_dfd quiet its).mpr ⟨e1, e3, rfl, h.arc, h.second.2, h.first, h.third, h.opened1,
    h.opened3⟩

theorem f2S5_values (e1 e2 e3 e4 e5 : Addr) :
    f2S5 (some e1) (some e3) (Pattern.values [e5, e4, e2]) =
      Pattern.values [e1, e2, e3, e4, e5] := by
  simp only [f2S5, valueAt_values]
  rfl

theorem bySecond_spec (quiet : Quiet m) (its : Searches lost ss m) (accepted : s.Accepted ss m)
    (second : s.i2.value = some e2) : ∃ it, s.create its = some it ∧ s.YieldsAsked ss m it := by
  have fixed : s.i2.fixed = true := by simp [OpndInfo.fixed, second]
  have assigned : s.i2.assign = false := by simp [OpndInfo.assign, second]
  have p2 : s.i2.arc.position = .fixed e2 := OpndInfo.position_some second
  have accepted3 : Accepted3 ss m s.i5 s.i4.arc s.i2.arc := by
    intro assigned4
    obtain ⟨o5, o2⟩ := accepted.1 fixed assigned4
    refine ⟨?_, s.i2.arc, by simp, fixed⟩
    simp only [List.forall_mem_cons]
    exact ⟨o5, o2, by simp⟩
  obtain ⟨iter, inner, nodup, mem⟩ :=
    createSearch3_spec quiet its accepted3 s.f5 s.f4 s.f2
  simp only [OpndInfo.arc_arc] at mem
  have create : s.create its = s.bySecond its e2 := by
    rw [Search5.create, second]
  rw [create, bySecond, inner]
  simp only [Option.bind_eq_bind, Option.bind_some]
  split
  · next none =>
    refine ⟨_, rfl, ?_⟩
    have nothing : MatchFilter.tuples ⟨⟨[], []⟩, []⟩ = [] := by
      rw [MatchFilter.tuples, dif_pos rfl]
    rw [YieldsAsked, nothing]
    refine ⟨.nil, fun t => iff_of_false (by simp) ?_⟩
    rintro ⟨e1, e2', e3, e4, e5, -, matched, -⟩
    have same := matched.second.1
    rw [p2] at same
    cases same
    have found := matched.mem_dfd quiet its
    rw [none] at found
    cases found
  · next t rest some =>
    obtain ⟨e1, e3, rfl, arc, accepts, a1, a3, o1, o3⟩ :=
      (Search.mem_dfd quiet its).mp (some ▸ List.mem_cons_self)
    refine ⟨_, rfl, filtered_spec (P := fun e1' e2' e3' e4' e5' => e1' = e1 ∧ e3' = e3 ∧
      Matched3 ss m s.i5 s.i4.arc s.i2.arc e5' e4' e2' ∧
        Passes3 s.i5 s.i4.arc s.i2.arc s.f5 s.f4 s.f2 e5' e4' e2') rfl ?_ ?_ ?_⟩
    · refine nodup.map_on fun t ht t' ht' same => ?_
      obtain ⟨e5, e4, e2, rfl, -⟩ := (mem t).mp ht
      obtain ⟨e5', e4', e2', rfl, -⟩ := (mem t').mp ht'
      simp only [valueAt_values, List.getElem?_cons_zero, List.getElem?_cons_succ,
        f2S5_values] at same
      have := values_injective same
      simp_all
    · intro t
      simp only [List.mem_map, mem, valueAt_values, List.getElem?_cons_zero,
        List.getElem?_cons_succ]
      constructor
      · rintro ⟨_, ⟨e5, e4, e2, rfl, matched, passes⟩, rfl⟩
        exact ⟨e1, e2, e3, e4, e5, f2S5_values .., rfl, rfl, matched, passes⟩
      · rintro ⟨_, e2, _, e4, e5, rfl, rfl, rfl, matched, passes⟩
        exact ⟨_, ⟨e5, e4, e2, rfl, matched, passes⟩, f2S5_values ..⟩
    · intro e1' e2' e3' e4' e5' equal _
      simp only [forall_filters]
      constructor
      · rintro ⟨⟨rfl, rfl, matched, passes⟩, f1, -, f3, -⟩
        have same := matched.third
        rw [p2] at same
        cases same
        exact ⟨⟨arc, matched.arc, a1, ⟨by rw [p2]; rfl, accepts⟩, a3, matched.second,
          matched.first, o1, matched.opened3, o3, matched.opened2, matched.opened1⟩,
          ⟨f1, passes.third, f3, passes.second, passes.first⟩⟩
      · rintro ⟨matched, passes⟩
        have same := matched.second.1
        rw [p2] at same
        cases same
        have first : e1' = e1 := Option.some.inj (matched.arc.1.symm.trans arc.1)
        have third : e3' = e3 := Option.some.inj (matched.arc.2.symm.trans arc.2)
        refine ⟨⟨first, third, ⟨matched.arc', matched.fifth, matched.fourth, matched.second.1,
          matched.opened5, matched.opened4, matched.opened2⟩, ⟨passes.fifth, passes.fourth,
          passes.second, ?_, ?_, ?_⟩⟩, passes.first, rfl, passes.third, rfl, rfl, by simp⟩
        · exact fun shared => (equal.pair45 ⟨shared.2.1, shared.1, shared.2.2.symm⟩).symm
        · exact fun shared => absurd shared.2.1 (by simp [OpndInfo.assign, second])
        · exact fun shared => absurd shared.2.1 (by simp [OpndInfo.assign, second])

theorem byFourth_spec (quiet : Quiet m) (its : Searches lost ss m) (second : s.i2.value = none)
    (fourth : s.i4.value = some e4) :
    (s.create its = none ∧ ∀ e1 e2 e3 e4 e5, ¬s.Matched ss m e1 e2 e3 e4 e5) ∨
      ∃ it, s.create its = some it ∧ s.YieldsAsked ss m it ∧
        ∃ e1 e2 e3 e4 e5, s.Matched ss m e1 e2 e3 e4 e5 := by
  have p2 : s.i2.arc.position = .assigned s.i2.arc.typeMask := OpndInfo.position_none second
  have p4 : s.i4.arc.position = .fixed e4 := OpndInfo.position_some fourth
  have assigned4 : s.i4.assign = false := by simp [OpndInfo.assign, fourth]
  have create : s.create its = s.byFourth its e4 := by
    rw [Search5.create, second, fourth]
  -- A tuple that matches has the arc, and so its ends.
  have given : ∀ {e1 e2 e3 e4' e5}, s.Matched ss m e1 e2 e3 e4' e5 →
      e4' = e4 ∧ Pattern.values [e5, e4, e2] ∈
        its.dfd (dfdArgs s.i5 (some e4) s.i4.arc.typeMask s.i2.arc) := by
    intro e1 e2 e3 e4' e5 matched
    have same := matched.fourth.1
    rw [p4] at same
    cases same
    exact ⟨rfl, (Search.mem_dfd quiet its).mpr ⟨e5, e2, rfl, matched.arc', matched.fourth.2,
      matched.fifth, matched.second.1, matched.opened5, matched.opened2⟩⟩
  rw [create, byFourth]
  cases outer : its.dfd (dfdArgs s.i5 (some e4) s.i4.arc.typeMask s.i2.arc) with
  | nil =>
    refine .inl ⟨rfl, fun e1 e2 e3 e4' e5 matched => ?_⟩
    have found := (given matched).2
    rw [outer] at found
    cases found
  | cons t _ =>
    obtain ⟨e5, e2, rfl, arc', accepts4, a5, a2, o5, o2⟩ :=
      (Search.mem_dfd quiet its).mp (outer ▸ List.mem_cons_self)
    simp only [List.head?_cons, Option.bind_eq_bind, Option.bind_some, valueAt_values,
      List.getElem?_cons_zero, List.getElem?_cons_succ]
    cases inner : its.dfd (dfdArgs s.i1 (some e2) s.i2.arc.typeMask s.i3) with
    | nil =>
      refine .inl ⟨rfl, fun e1 e2' e3 e4' e5' matched => ?_⟩
      obtain ⟨rfl, -⟩ := given matched
      cases matched.arc'.2.symm.trans arc'.2
      have found := matched.mem_dfd quiet its
      rw [inner] at found
      cases found
    | cons t' _ =>
      obtain ⟨e1, e3, rfl, arc, accepts2, a1, a3, o1, o3⟩ :=
        (Search.mem_dfd quiet its).mp (inner ▸ List.mem_cons_self)
      have matched : s.Matched ss m e1 e2 e3 e4 e5 :=
        ⟨arc, arc', a1, ⟨a2, accepts2⟩, a3, ⟨by rw [p4]; rfl, accepts4⟩, a5, o1, o2, o3,
          by simp [assigned4], o5⟩
      refine .inr ⟨_, rfl, ?_, e1, e2, e3, e4, e5, matched⟩
      refine filtered_spec (P := fun e1' e2' e3' e4' e5' =>
        e1' = e1 ∧ e2' = e2 ∧ e3' = e3 ∧ e4' = e4 ∧ e5' = e5) rfl (List.nodup_singleton _) ?_ ?_
      · intro t
        simp only [valueAt_values, List.getElem?_cons_zero, List.getElem?_cons_succ,
          List.mem_singleton]
        constructor
        · rintro rfl
          exact ⟨e1, e2, e3, e4, e5, rfl, rfl, rfl, rfl, rfl, rfl⟩
        · rintro ⟨_, _, _, _, _, rfl, rfl, rfl, rfl, rfl, rfl⟩
          rfl
      · intro e1' e2' e3' e4' e5' _ _
        rw [passes_iff]
        refine and_congr_left' ⟨?_, fun matched' => ?_⟩
        · rintro ⟨rfl, rfl, rfl, rfl, rfl⟩
          exact matched
        · obtain ⟨rfl, -⟩ := given matched'
          cases matched'.arc'.2.symm.trans arc'.2
          cases matched'.arc'.1.symm.trans arc'.1
          cases matched'.arc.1.symm.trans arc.1
          cases matched'.arc.2.symm.trans arc.2
          exact ⟨rfl, rfl, rfl, rfl, rfl⟩

theorem create_spec (quiet : Quiet m) (its : Searches lost ss m) (accepted : s.Accepted ss m) :
    (s.create its = none ∧ ¬s.Led ss m) ∨
      ∃ it, s.create its = some it ∧ s.YieldsAsked ss m it ∧ s.Led ss m := by
  cases second : s.i2.value with
  | some e2 =>
    obtain ⟨it, create, yields⟩ := bySecond_spec quiet its accepted second
    have assigned : s.i2.assign = false := by simp [OpndInfo.assign, second]
    exact .inr ⟨it, create, yields, by simp [Led, assigned]⟩
  | none =>
    have assigned : s.i2.assign = true := by simp [OpndInfo.assign, second]
    cases fourth : s.i4.value with
    | none =>
      obtain ⟨it, create, yields⟩ := source5_spec quiet its accepted second fourth
      have fixed : s.i4.fixed = false := by simp [OpndInfo.fixed, fourth]
      exact .inr ⟨it, create, yields, by simp [Led, fixed]⟩
    | some e4 =>
      have fixed : s.i4.fixed = true := by simp [OpndInfo.fixed, fourth]
      rcases byFourth_spec quiet its second fourth with
        ⟨create, nothing⟩ | ⟨it, create, yields, matched⟩
      · refine .inl ⟨create, fun led => ?_⟩
        obtain ⟨e1, e2, e3, e4, e5, matched⟩ := led assigned fixed
        exact nothing _ _ _ _ _ matched
      · exact .inr ⟨it, create, yields, fun _ _ => matched⟩

/-- What is yielded is right where the guards ask for what is due of each tuple. -/
theorem YieldsAsked.found_iff (h : s.YieldsAsked ss m it) :
    s.YieldsFound ss m it ↔ s.GuardsAgree ss m := by
  obtain ⟨nodup, mem⟩ := h
  constructor
  · rintro ⟨l, yields, -, found⟩ e1 e2 e3 e4 e5 matched passes equal
    cases it.yields_tuples.unique yields
    constructor
    · intro asked
      obtain ⟨_, _, _, _, _, same, -, -, -, due⟩ :=
        (found _).mp ((mem _).mpr ⟨e1, e2, e3, e4, e5, rfl, matched, passes, equal, asked⟩)
      cases values_injective same
      exact due
    · intro due
      obtain ⟨_, _, _, _, _, same, -, -, -, asked⟩ :=
        (mem _).mp ((found _).mpr ⟨e1, e2, e3, e4, e5, rfl, matched, passes, equal, due⟩)
      cases values_injective same
      exact asked
  · intro right
    refine ⟨it.tuples, it.yields_tuples, nodup, fun t => (mem t).trans ?_⟩
    refine exists_congr fun e1 => exists_congr fun e2 => exists_congr fun e3 =>
      exists_congr fun e4 => exists_congr fun e5 => and_congr_right fun _ =>
        and_congr_right fun matched => and_congr_right fun passes =>
          and_congr_right fun equal => ?_
    exact right e1 e2 e3 e4 e5 matched passes equal

theorem guardsAgree_of (alike3 : s.i2.assign = true → s.i2.opnd = s.i3.opnd →
      s.i3.assign = s.i5.assign)
    (alike5 : s.i2.assign = true → s.i2.opnd = s.i5.opnd → s.i4.assign = s.i5.assign) :
    s.GuardsAgree ss m := by
  intro e1 e2 e3 e4 e5 _ _ _
  constructor
  · rintro ⟨ask3, ask5⟩
    refine ⟨fun ⟨a2, a3, same⟩ => ?_, fun ⟨a2, a5, same⟩ => ?_⟩
    · exact ask3 a2 (alike3 a2 same ▸ a3) same
    · exact ask5 a2 (alike5 a2 same ▸ a5) same
  · rintro ⟨due3, due5⟩
    refine ⟨fun a2 a5 same => ?_, fun a2 a4 same => ?_⟩
    · exact due3 ⟨a2, (alike3 a2 same).trans a5, same⟩
    · exact due5 ⟨a2, (alike5 a2 same).symm.trans a4, same⟩

theorem source5_refused (its : Searches lost ss m)
    (h : ¬((∀ o ∈ [s.i1, s.i3, s.i5], o.Opened ss m) ∧
      ∃ o ∈ [s.i1, s.i3, s.i5], o.fixed = true)) :
    s.source5 its = none := by
  by_cases first : s.i1.Opened ss m
  · by_cases third : s.i3.Opened ss m
    · by_cases fifth : s.i5.Opened ss m
      · have unfixed : s.i1.fixed = false ∧ s.i3.fixed = false ∧ s.i5.fixed = false := by
          simpa [first, third, fifth, not_or] using h
        simp [source5, indexate_eq first, indexate_eq third, indexate_eq fifth, unfixed, constrs5]
      · simp [source5, indexate_eq first, indexate_eq third, indexate_refused fifth]
    · simp [source5, indexate_eq first, indexate_refused third]
  · simp [source5, indexate_refused first]

theorem create_refused (its : Searches lost ss m) (h : ¬s.Accepted ss m) :
    s.create its = none := by
  cases second : s.i2.value with
  | some e2 =>
    have fixed : s.i2.fixed = true := by simp [OpndInfo.fixed, second]
    have assigned : s.i2.assign = false := by simp [OpndInfo.assign, second]
    have refused : s.i4.assign = true ∧ ¬(s.i5.Opened ss m ∧ s.i2.Opened ss m) := by
      simpa [Accepted, fixed, assigned] using h
    obtain ⟨assigned4, refused⟩ := refused
    have fourth : s.i4.value = none := by simpa [OpndInfo.assign] using assigned4
    have source : source3 its s.i5 s.i4.arc.arc s.i2.arc = none := by
      by_cases fifth : s.i5.Opened ss m
      · have second : ¬s.i2.arc.Opened ss m := fun opened => refused ⟨fifth, opened⟩
        simp [source3, fourth, indexate_eq fifth, indexate_refused second]
      · simp [source3, fourth, indexate_refused fifth]
    rw [create, second]
    simp only [bySecond, createSearch3, source, Option.bind_eq_bind, Option.bind_none]
  | none =>
    have fixed : s.i2.fixed = false := by simp [OpndInfo.fixed, second]
    have assigned : s.i2.assign = true := by simp [OpndInfo.assign, second]
    have refused : s.i4.assign = true ∧ ¬((∀ o ∈ [s.i1, s.i3, s.i5], o.Opened ss m) ∧
        ∃ o ∈ [s.i1, s.i3, s.i5], o.fixed = true) := by
      rw [Accepted, not_and_or] at h
      simpa only [fixed, assigned, Bool.false_eq_true, false_implies, not_true_eq_false, false_or,
        true_implies, Classical.not_imp] using h
    have fourth : s.i4.value = none := by simpa [OpndInfo.assign] using refused.1
    rw [create, second, fourth]
    simp only [source5_refused its refused.2, Option.bind_eq_bind, Option.bind_none]

end Five

end Search5

/-- The search for five-tuples finds what matches, with equal elements in the places of one
assigned operand, exactly where a given fourth arc leads somewhere and the guards of the places
2 and 3, 2 and 5 agree with what is due. -/
theorem search5_right_iff (uri tmpPrefix : SegId → ScString) (st : State)
    (run : Reaches arcsKeepType (State.initial uri tmpPrefix) st) (lost : Bool) (ss : Session)
    (its : Searches lost ss st.memory) (s : Search5) (accepted : s.Accepted ss st.memory) :
    (∃ it, s.create its = some it ∧ s.YieldsFound ss st.memory it) ↔
      s.Led ss st.memory ∧ s.GuardsAgree ss st.memory := by
  rcases Search5.create_spec (quiet_of_run run) its accepted with
    ⟨create, unled⟩ | ⟨it, create, yields, led⟩
  · refine iff_of_false ?_ fun right => unled right.1
    rintro ⟨it, create', -⟩
    cases create.symm.trans create'
  · rw [← yields.found_iff]
    constructor
    · rintro ⟨it', create', found⟩
      cases create.symm.trans create'
      exact ⟨led, found⟩
    · rintro ⟨-, found⟩
      exact ⟨it, create, found⟩

def attributeOps : List Op :=
  [.createEl 0 .node, .createEl 0 .node, .createEl 0 .node, .gen3 (some 0) 0 .arcAccessory (some 1),
    .gen3 (some 2) 0 .arcAccessory (some 3)]

def reflexiveSearch : Search5 where
  i1 := ⟨10, none, 0⟩
  i2 := ⟨11, none, 0⟩
  i3 := ⟨11, none, 0⟩
  i4 := ⟨12, none, 0⟩
  i5 := ⟨13, some 2, 0⟩
  f1 := none
  f2 := none
  f3 := none
  f4 := none
  f5 := none

theorem attributeOps_run : ∃ st,
    runOps 3 attributeOps (State.initial (fun _ => []) fun _ => []) = some st ∧
      Reaches arcsKeepType (State.initial (fun _ => []) fun _ => []) st ∧
      reflexiveSearch.Matched systemSession st.memory 0 3 1 4 2 := by
  have hrun : ∃ st t0 t1 t3 t4,
      runOps 3 attributeOps (State.initial (fun _ => []) fun _ => []) = some st ∧
      Arc st.memory 3 0 1 ∧ Arc st.memory 4 2 3 ∧
      (st.memory.typeOf 0 = some t0 ∧ checkScType t0 0 = true) ∧
      (st.memory.typeOf 1 = some t1 ∧ checkScType t1 0 = true) ∧
      (st.memory.typeOf 3 = some t3 ∧ checkScType t3 ScType.arcAccessory = true) ∧
      (st.memory.typeOf 4 = some t4 ∧ checkScType t4 ScType.arcAccessory = true) := by
    refine ⟨_, _, _, _, _, rfl, ⟨rfl, rfl⟩, ⟨rfl, rfl⟩, ⟨rfl, ?_⟩, ⟨rfl, ?_⟩, ⟨rfl, ?_⟩,
      ⟨rfl, ?_⟩⟩ <;> decide
  obtain ⟨st, t0, t1, t3, t4, hst, arc, arc', a0, a1, a3, a4⟩ := hrun
  have run := reaches_keeping (by decide) hst
  have opened : ∀ {e}, st.memory.liveAddr e = true → InOpened systemSession st.memory e := by
    intro e live
    obtain ⟨g, hg, -⟩ := liveAddr_eq_true.mp live
    exact ⟨g, hg, rfl⟩
  have quiet := quiet_of_run run
  refine ⟨st, hst, run, arc, arc', ⟨t0, a0⟩, ⟨⟨t3, a3⟩, t3, a3⟩, ⟨t1, a1⟩, ⟨⟨t4, a4⟩, t4, a4⟩,
    rfl, ?_, ?_, ?_, fun _ => ?_, ?_⟩
  · exact opened (quiet.live arc.1).1
  · exact opened (quiet.live arc.1).2.1
  · exact opened (quiet.live arc.2).1
  · exact opened (quiet.live arc'.1).2.1
  · exact opened (quiet.live arc'.1).1

theorem reflexiveSearch_accepted {m : Memory} (opened : InOpened systemSession m 2) :
    reflexiveSearch.Accepted systemSession m := by
  refine ⟨nofun, fun _ _ => ⟨?_, reflexiveSearch.i5, by simp, rfl⟩⟩
  simp only [List.forall_mem_cons]
  refine ⟨nofun, nofun, ?_, by simp⟩
  rintro _ ⟨⟩
  exact opened

theorem search5_right_iff_reflexive :
    ∃ st, runOps 3 attributeOps (State.initial (fun _ => []) fun _ => []) = some st ∧
      ∃ its : Searches false systemSession st.memory,
        ((∃ it, reflexiveSearch.create its = some it ∧
            reflexiveSearch.YieldsFound systemSession st.memory it) ↔
          reflexiveSearch.Led systemSession st.memory ∧
            reflexiveSearch.GuardsAgree systemSession st.memory) := by
  obtain ⟨st, hst, run, matched⟩ := attributeOps_run
  obtain ⟨its⟩ := searches_nonempty systemSession (quiet_of_run run) false
  exact ⟨st, hst, its, search5_right_iff _ _ st run false systemSession its reflexiveSearch
    (reflexiveSearch_accepted matched.opened5)⟩

/-- One operand stands in the places 2 and 3, and the end of an arc is found that is not the arc. -/
theorem search5_fails : ¬∀ (uri tmpPrefix : SegId → ScString) (st : State),
    Reaches arcsKeepType (State.initial uri tmpPrefix) st → ∀ (lost : Bool) (ss : Session)
    (its : Searches lost ss st.memory) (s : Search5), s.Accepted ss st.memory →
    ∃ it, s.create its = some it ∧ s.YieldsFound ss st.memory it := by
  intro claim
  obtain ⟨st, -, run, matched⟩ := attributeOps_run
  have quiet := quiet_of_run run
  obtain ⟨its⟩ := searches_nonempty systemSession quiet false
  have accepted := reflexiveSearch_accepted matched.opened5
  obtain ⟨it, create, found⟩ := claim _ _ st run false systemSession its reflexiveSearch accepted
  rcases Search5.create_spec quiet its accepted with ⟨refused, -⟩ | ⟨it', create', yields, -⟩
  · cases create.symm.trans refused
  · cases create.symm.trans create'
    have passes : reflexiveSearch.Passes 0 3 1 4 2 := ⟨rfl, rfl, rfl, rfl, rfl⟩
    have equal : reflexiveSearch.Equal 0 3 1 4 2 := by
      constructor <;> simp [OpndInfo.Shared, reflexiveSearch, OpndInfo.assign]
    have asked : reflexiveSearch.Asked 3 1 2 := by
      simp [Search5.Asked, reflexiveSearch, OpndInfo.assign]
    have due := (yields.found_iff.mp found 0 3 1 4 2 matched passes equal).mp asked
    have same := due.1 ⟨rfl, rfl, rfl⟩
    cases same

end ScCore.Search
