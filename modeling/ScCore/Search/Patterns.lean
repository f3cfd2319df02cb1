import ScCore.Search.Triples

/-!
# The basic searches

What the constraints for three and for five elements enumerate, whatever the
session has opened: each matching tuple that can be seen on the way once, and no
other.
-/

namespace ScCore.Search

open Store

namespace Pattern

def constraint : Pattern → StdConstraint
  | faa .. => .std3Faa
  | faf .. => .std3Faf
  | aaf .. => .std3Aaf
  | faaaa .. => .std5Faaaa
  | faaaf .. => .std5Faaaf
  | fafaa .. => .std5Fafaa
  | fafaf .. => .std5Fafaf
  | aaaaf .. => .std5Aaaaf
  | aafaa .. => .std5Aafaa
  | aafaf .. => .std5Aafaf

/-- The iterator of the constraint yields the tuples and is over then. That of `std5_faaaf` is
written by hand. -/
def RunsTo (lost : Bool) (ss : Session) (m : Memory) (pattern : Pattern)
    (tuples : List (List Param)) : Prop :=
  match pattern with
  | faaaf e1 t2 t3 t4 e5 => Std5Iter.RunsTo ss m e1 e5 t2 t3 t4 tuples
  | _ => ∃ reg dec, stdRegistry = some reg ∧ reg.program pattern.constraint.name = some dec ∧
      FallbackIterator.RunsTo (stdWorld lost ss m) dec pattern.params tuples

end Pattern

section Programs

variable {m : Memory} {ss : Session} {reg : Registry} {lost : Bool} {t : List Param}

variable {P : List Addr → Prop} {item : PrgItem} {t2 t3 t4 : ScType} {pattern : Pattern}

theorem mem_results_pattern (quiet : Quiet m) (hreg : stdRegistry = some reg) (pattern : Pattern)
    (byProgram : pattern.constraint ≠ .std5Faaaf) :
    t ∈ ((stdWorld lost ss m).nested reg).results pattern.constraint.source pattern.params ↔
      pattern.Finds ss m t := by
  cases pattern with
  | faa => exact mem_std3Faa quiet hreg
  | faf => exact mem_std3Faf quiet (has_of_stdRegistry hreg).2.1
  | aaf => exact mem_std3Aaf quiet hreg
  | faaaa => exact mem_std5Faaaa quiet hreg
  | faaaf => exact absurd rfl byProgram
  | fafaa => exact mem_std5Fafaa quiet hreg
  | fafaf => exact mem_std5Fafaf quiet hreg
  | aaaaf => exact mem_std5Aaaaf quiet hreg
  | aafaa => exact mem_std5Aafaa quiet hreg
  | aafaf => exact mem_std5Aafaf quiet hreg

def PrgItem.isArcs (item : PrgItem) : Bool :=
  item.type = .constr && (item.id = idAllInput || item.id = idAllOutput) &&
    match item.paramsIn, item.paramsOut with
    | [_], [none, some _] => true
    | _, _ => false

def Deconstruct.returnsArcs (dec : Deconstruct) : Bool :=
  dec.commands.dropLast.all fun item => !item.resumes || item.isArcs &&
    item.written.all fun r => dec.commands.getLast?.any fun ret => ret.paramsIn.contains r

theorem stdRegistry_returnsArcs : (stdRegistry.any fun reg =>
    [StdConstraint.std3Faa, .std3Faf, .std3Aaf, .std5Faaaa, .std5Fafaa, .std5Fafaf, .std5Aaaaf,
      .std5Aafaa, .std5Aafaf].all
        fun c => (reg.deconstruct c.id).any Deconstruct.returnsArcs) = true := by
  decide +kernel

theorem PrgItem.isArcs_iff : item.isArcs = true ↔ ∃ r o, item =
    ⟨.constr, [r], [none, some o], item.name, item.id⟩ ∧
      (item.id = idAllInput ∨ item.id = idAllOutput) := by
  obtain ⟨type, ins, outs, name, id⟩ := item
  simp only [isArcs, Bool.and_eq_true, decide_eq_true_eq, Bool.or_eq_true]
  constructor
  · rintro ⟨⟨rfl, hid⟩, h⟩
    split at h
    · exact ⟨_, _, rfl, hid⟩
    · cases h
  · rintro ⟨r, o, heq, hid⟩
    cases heq
    exact ⟨⟨rfl, hid⟩, rfl⟩

theorem distinct_arcs (quiet : Quiet m) (h : item.isArcs = true) :
    (stdWorld lost ss m).Distinct item := by
  obtain ⟨r, o, heq, hid⟩ := PrgItem.isArcs_iff.mp h
  rw [heq]
  intro regs
  obtain ⟨s, harcs⟩ : ∃ s, (stdWorld lost ss m).iterator item.id [regs r] =
      allArcs ss s m [regs r] := by
    rcases hid with hid | hid
    · exact ⟨.fin, by rw [hid]; rfl⟩
    · exact ⟨.beg, by rw [hid]; rfl⟩
  simp only [World.choices, PrgItem.args, List.map_cons, List.map_nil, harcs]
  cases hr : regs r with
  | type t => exact .nil
  | addr a =>
    cases a with
    | none => exact .nil
    | some a =>
      rw [allArcs, List.pairwise_map]
      refine (nodup_metaArcs quiet).imp fun {x y} hne => ⟨o, List.mem_singleton_self o, ?_⟩
      simpa [Registers.store, PrgItem.targets, Registers.set_same] using hne

theorem nodup_results {q : Program} (quiet : Quiet m) (h : q.toDeconstruct.returnsArcs = true)
    (inputs : List Param) : ((stdWorld lost ss m).results q inputs).Nodup := by
  apply results_nodup
  intro item hitem hres
  have hbody : q.toDeconstruct.commands.dropLast = q.body := by simp [Program.toDeconstruct]
  have hlast : q.toDeconstruct.commands.getLast? = some q.ret := by simp [Program.toDeconstruct]
  simp only [Deconstruct.returnsArcs, hbody, hlast, List.all_eq_true, Bool.or_eq_true,
    Bool.and_eq_true, Option.any_some, List.contains_iff_mem] at h
  rcases h item hitem with hnot | ⟨arcs, returned⟩
  · simp [hres] at hnot
  · exact ⟨distinct_arcs quiet arcs, returned⟩

/-- The tuples of `std5_f_a_a_a_f_iter`. -/
def handTuples (ss : Session) (m : Memory) (e1 e5 : Addr) (t2 t3 t4 : ScType) :
    List (List Param) :=
  ((metaArcs ss .beg m e1).getD []).flatMap (Std5Iter.tuplesAt ss m
    ⟨e1, none, none, none, e5, t2.extendMask, t3.extendMask, t4.extendMask, [], none, false⟩)

theorem any_fits {mask : ScType} {x : Addr} :
    (m.typeOf x).any (fun type => type.fits mask.extendMask) = true ↔ Accepts m mask x := by
  rw [Option.any_eq_true]
  exact exists_congr fun type => and_congr_left' Iff.rfl

theorem any_opened {e : Addr} :
    (m.addrs e).any (fun g => ss.opened g.seg) = true ↔ InOpened ss m e :=
  Option.any_eq_true _ _

theorem mem_tuplesAt (quiet : Quiet m) {it : Std5Iter} {e2 : Addr} (h2 : it.t2 = t2.extendMask)
    (h3 : it.t3 = t3.extendMask) (h4 : it.t4 = t4.extendMask) :
    t ∈ it.tuplesAt ss m e2 ↔ ∃ e3 e4, t = it.tuple e2 e3 e4 ∧ Accepts m t2 e2 ∧
      m.endOf e2 .fin = some e3 ∧ InOpened ss m e3 ∧ Accepts m t3 e3 ∧
      m.endOf e4 .fin = some e2 ∧ Seen ss m e2 e4 ∧ Accepts m t4 e4 ∧
      m.endOf e4 .beg = some it.e5 := by
  have third : ∀ e3, it.third ss m e2 = some e3 ↔ Accepts m t2 e2 ∧
      m.endOf e2 .fin = some e3 ∧ InOpened ss m e3 ∧ Accepts m t3 e3 := by
    intro e3
    rw [Std5Iter.third, h2, h3]
    split
    · next hfits =>
      rw [Option.filter_eq_some_iff, Bool.and_eq_true, any_opened, any_fits]
      exact (and_iff_right (any_fits.mp hfits)).symm
    · next hfits =>
      simp only [reduceCtorEq, false_iff, not_and]
      exact fun accepts => absurd (any_fits.mpr accepts) hfits
  have fourth : ∀ e4, it.fourth m e4 = true ↔ Accepts m t4 e4 ∧ m.endOf e4 .beg = some it.e5 := by
    intro e4
    rw [Std5Iter.fourth, h4, Bool.and_eq_true, any_fits, beq_iff_eq]
  constructor
  · intro ht
    unfold Std5Iter.tuplesAt at ht
    split at ht
    · cases ht
    · next e3 hthird =>
      obtain ⟨e4, he4, rfl⟩ := List.mem_map.mp ht
      obtain ⟨harc, hfourth⟩ := List.mem_filter.mp he4
      obtain ⟨a2, hfin, o3, a3⟩ := (third e3).mp hthird
      obtain ⟨hend, seen⟩ := (mem_metaArcs quiet).mp harc
      obtain ⟨a4, hbeg⟩ := (fourth e4).mp hfourth
      exact ⟨e3, e4, rfl, a2, hfin, o3, a3, hend, seen, a4, hbeg⟩
  · rintro ⟨e3, e4, rfl, a2, hfin, o3, a3, hend, seen, a4, hbeg⟩
    rw [Std5Iter.tuplesAt, (third e3).mpr ⟨a2, hfin, o3, a3⟩]
    apply List.mem_map_of_mem
    exact List.mem_filter.mpr ⟨(mem_metaArcs quiet).mpr ⟨hend, seen⟩, (fourth e4).mpr ⟨a4, hbeg⟩⟩

theorem mem_handTuples (quiet : Quiet m) {e1 e5 : Addr} :
    t ∈ handTuples ss m e1 e5 t2 t3 t4 ↔ (Pattern.faaaf e1 t2 t3 t4 e5).Finds ss m t := by
  refine .trans ?_ exists_five.symm
  rw [handTuples, List.mem_flatMap]
  constructor
  · rintro ⟨e2, he2, ht⟩
    obtain ⟨hbeg, s2⟩ := (mem_metaArcs quiet).mp he2
    obtain ⟨e3, e4, rfl, a2, hfin, o3, a3, hend, s4, a4, hbeg'⟩ :=
      (mem_tuplesAt quiet rfl rfl rfl).mp ht
    exact ⟨e1, e2, e3, e4, e5, rfl, ⟨hbeg, hfin⟩, ⟨hbeg', hend⟩, rfl, a2, a3, a4, rfl, s2, o3, s4⟩
  · rintro ⟨e1, e2, e3, e4, e5, rfl, arc, arc', rfl, a2, a3, a4, rfl, s2, o3, s4⟩
    refine ⟨e2, (mem_metaArcs quiet).mpr ⟨arc.1, s2⟩, ?_⟩
    exact (mem_tuplesAt quiet rfl rfl rfl).mpr
      ⟨e3, e4, rfl, a2, arc.2, o3, a3, arc'.2, s4, a4, arc'.1⟩

theorem nodup_handTuples (quiet : Quiet m) (e1 e5 : Addr) (t2 t3 t4 : ScType) :
    (handTuples ss m e1 e5 t2 t3 t4).Nodup := by
  rw [handTuples, List.nodup_flatMap]
  constructor
  · intro e2 _
    unfold Std5Iter.tuplesAt
    split
    · exact .nil
    · refine List.Nodup.map ?_ ((nodup_metaArcs quiet).filter _)
      intro x y same
      simpa [Std5Iter.tuple] using same
  · refine (nodup_metaArcs quiet).imp ?_
    intro e2 e2' hne t ht ht'
    obtain ⟨e3, e4, rfl, -⟩ := (mem_tuplesAt quiet rfl rfl rfl).mp ht
    obtain ⟨e3', e4', same, -⟩ := (mem_tuplesAt quiet rfl rfl rfl).mp ht'
    exact hne (by simpa [Std5Iter.tuple] using (List.cons.inj (List.cons.inj same).2).1)

theorem seen_iff {a x : Addr} (opened : InOpened ss m a)
    (stored : ∃ g, m.addrs x = some g) : Seen ss m a x ↔ InOpened ss m x := by
  obtain ⟨ga, ha, hopen⟩ := opened
  obtain ⟨gx, hx⟩ := stored
  have sega : segOf m a = some ga.seg := by rw [segOf, ha, Option.map_some]
  have segx : segOf m x = some gx.seg := by rw [segOf, hx, Option.map_some]
  constructor
  · rintro (same | ⟨seg, hseg, hopen'⟩)
    · rw [sega, segx, Option.some.injEq] at same
      exact ⟨gx, hx, same ▸ hopen⟩
    · cases segx.symm.trans hseg
      exact ⟨gx, hx, hopen'⟩
  · rintro ⟨g, hg, hopen'⟩
    cases hx.symm.trans hg
    exact .inr ⟨gx.seg, segx, hopen'⟩

theorem visible_iff (quiet : Quiet m) {es : List Addr}
    (opened : ∀ e, pattern.Given e → InOpened ss m e) (h : pattern.Matches m es) :
    pattern.Visible ss m es ↔ ∀ e ∈ es, InOpened ss m e := by
  have seen : ∀ {x a b : Addr}, Arc m x a b →
      (InOpened ss m a → (Seen ss m a x ↔ InOpened ss m x)) ∧
      (InOpened ss m b → (Seen ss m b x ↔ InOpened ss m x)) := by
    intro x a b arc
    obtain ⟨g, hg, -⟩ := liveAddr_eq_true.mp (quiet.live arc.1).2.1
    exact ⟨fun opened => seen_iff opened ⟨g, hg⟩, fun opened => seen_iff opened ⟨g, hg⟩⟩
  obtain ⟨conn, adm⟩ := h
  cases pattern
  case' faa e1 t2 t3 =>
    rcases adm with _ | ⟨rfl, _ | ⟨-, _ | ⟨-, _ | _⟩⟩⟩
    have o1 := opened _ (.head _)
    have seen2 := seen conn
  case' faf e1 t2 e3 =>
    rcases adm with _ | ⟨rfl, _ | ⟨-, _ | ⟨rfl, _ | _⟩⟩⟩
    have o1 := opened _ (.head _)
    have o3 := opened _ (.tail _ (.tail _ (.head _)))
    have seen2 := seen conn
  case' aaf t1 t2 e3 =>
    rcases adm with _ | ⟨-, _ | ⟨-, _ | ⟨rfl, _ | _⟩⟩⟩
    have o3 := opened _ (.tail _ (.tail _ (.head _)))
    have seen2 := seen conn
  case' faaaa e1 t2 t3 t4 t5 =>
    rcases adm with _ | ⟨rfl, _ | ⟨-, _ | ⟨-, _ | ⟨-, _ | ⟨-, _ | _⟩⟩⟩⟩⟩
    have o1 := opened _ (.head _)
    have seen2 := seen conn.1
    have seen4 := seen conn.2
  case' faaaf e1 t2 t3 t4 e5 =>
    rcases adm with _ | ⟨rfl, _ | ⟨-, _ | ⟨-, _ | ⟨-, _ | ⟨rfl, _ | _⟩⟩⟩⟩⟩
    have o1 := opened _ (.head _)
    have o5 := opened _ (.tail _ (.tail _ (.tail _ (.tail _ (.head _)))))
    have seen2 := seen conn.1
    have seen4 := seen conn.2
  case' fafaa e1 t2 e3 t4 t5 =>
    rcases adm with _ | ⟨rfl, _ | ⟨-, _ | ⟨rfl, _ | ⟨-, _ | ⟨-, _ | _⟩⟩⟩⟩⟩
    have o1 := opened _ (.head _)
    have o3 := opened _ (.tail _ (.tail _ (.head _)))
    have seen2 := seen conn.1
    have seen4 := seen conn.2
  case' fafaf e1 t2 e3 t4 e5 =>
    rcases adm with _ | ⟨rfl, _ | ⟨-, _ | ⟨rfl, _ | ⟨-, _ | ⟨rfl, _ | _⟩⟩⟩⟩⟩
    have o1 := opened _ (.head _)
    have o3 := opened _ (.tail _ (.tail _ (.head _)))
    have o5 := opened _ (.tail _ (.tail _ (.tail _ (.tail _ (.head _)))))
    have seen2 := seen conn.1
    have seen4 := seen conn.2
  case' aaaaf t1 t2 t3 t4 e5 =>
    rcases adm with _ | ⟨-, _ | ⟨-, _ | ⟨-, _ | ⟨-, _ | ⟨rfl, _ | _⟩⟩⟩⟩⟩
    have o5 := opened _ (.tail _ (.tail _ (.tail _ (.tail _ (.head _)))))
    have seen2 := seen conn.1
    have seen4 := seen conn.2
  case' aafaa t1 t2 e3 t4 t5 =>
    rcases adm with _ | ⟨-, _ | ⟨-, _ | ⟨rfl, _ | ⟨-, _ | ⟨-, _ | _⟩⟩⟩⟩⟩
    have o3 := opened _ (.tail _ (.tail _ (.head _)))
    have seen2 := seen conn.1
    have seen4 := seen conn.2
  case' aafaf t1 t2 e3 t4 e5 =>
    rcases adm with _ | ⟨-, _ | ⟨-, _ | ⟨rfl, _ | ⟨-, _ | ⟨rfl, _ | _⟩⟩⟩⟩⟩
    have o3 := opened _ (.tail _ (.tail _ (.head _)))
    have o5 := opened _ (.tail _ (.tail _ (.tail _ (.tail _ (.head _)))))
    have seen2 := seen conn.1
    have seen4 := seen conn.2
  all_goals
    simp only [Pattern.Visible, List.forall_mem_cons, List.not_mem_nil, false_implies,
      implies_true, and_true]
    grind

variable (ss lost) in
theorem runsTo_pattern (quiet : Quiet m) (given : ∀ e, pattern.Given e → ∃ g, m.addrs e = some g) :
    ∃ tuples, pattern.RunsTo lost ss m tuples ∧
      (∀ l, pattern.RunsTo lost ss m l → l = tuples) ∧ tuples.Nodup ∧
      ∀ t, t ∈ tuples ↔ pattern.Finds ss m t := by
  by_cases byHand : pattern.constraint = .std5Faaaf
  · cases pattern with
    | faaaf e1 t2 t3 t4 e5 =>
      obtain ⟨h, inv, unheld⟩ := quiet.inv
      have runs := Std5Iter.runsTo ss inv unheld (given e1 (.head _)) e5 t2 t3 t4
      refine ⟨handTuples ss m e1 e5 t2 t3 t4, runs, fun l runs' => runs'.unique runs,
        nodup_handTuples quiet .., fun _ => mem_handTuples quiet⟩
    | _ => cases byHand
  · obtain ⟨reg, hreg⟩ := stdRegistry_some
    obtain ⟨q, means⟩ := means hreg pattern.constraint
    have runs : pattern.RunsTo lost ss m ((stdWorld lost ss m).results q pattern.params) := by
      have runs := runsTo_results q (stdWorld lost ss m) pattern.params means.body
      cases pattern with
      | faaaf => exact absurd rfl byHand
      | _ => exact ⟨reg, _, hreg, means.program, runs⟩
    refine ⟨_, runs, ?_, ?_, fun t => ?_⟩
    · intro l runs'
      cases pattern with
      | faaaf => exact absurd rfl byHand
      | _ =>
        obtain ⟨reg', dec', hreg', hdec', runs'⟩ := runs'
        cases hreg.symm.trans hreg'
        cases means.program.symm.trans hdec'
        exact runs'.unique (runsTo_results q _ _ means.body)
    · apply nodup_results quiet
      have h := stdRegistry_returnsArcs
      rw [hreg, Option.any_some, List.all_eq_true] at h
      have hc := h pattern.constraint (by cases pattern <;> simp [Pattern.constraint] at byHand ⊢)
      rwa [means.deconstruct, Option.any_some] at hc
    · rw [means.results]
      exact mem_results_pattern quiet hreg pattern byHand

end Programs

/-- Every search comes to an end. It yields what matches and can be seen on the way, each tuple
once; with the given elements in opened segments these are the matching tuples all of whose
elements are in opened segments. -/
def EnumeratesPattern (lost : Bool) (ss : Session) (m : Memory) (pattern : Pattern) : Prop :=
  ∃ tuples, (∀ l, pattern.RunsTo lost ss m l ↔ l = tuples) ∧ tuples.Nodup ∧
    (∀ t, t ∈ tuples ↔
      ∃ es, t = Pattern.values es ∧ pattern.Matches m es ∧ pattern.Visible ss m es) ∧
    ((∀ e, pattern.Given e → InOpened ss m e) → ∀ t, t ∈ tuples ↔
      ∃ es, t = Pattern.values es ∧ pattern.Matches m es ∧ ∀ e ∈ es, InOpened ss m e)

/-- The basic searches mean what their names say in every memory where arcs have kept their
types. -/
theorem enumerates_pattern (uri tmpPrefix : SegId → ScString) (st : State)
    (run : Reaches arcsKeepType (State.initial uri tmpPrefix) st) (lost : Bool) (ss : Session)
    (pattern : Pattern) (given : ∀ e, pattern.Given e → ∃ g, st.memory.addrs e = some g) :
    EnumeratesPattern lost ss st.memory pattern := by
  have quiet := quiet_of_run run
  obtain ⟨tuples, runs, unique, nodup, mem⟩ :=
    runsTo_pattern ss lost quiet given
  refine ⟨tuples, fun l => ⟨unique l, ?_⟩, nodup, mem, fun opened t => ?_⟩
  · rintro rfl
    exact runs
  · refine (mem t).trans (exists_congr fun es => and_congr_right fun _ => and_congr_right ?_)
    intro matched
    exact visible_iff quiet opened matched

def crossingOps : List Op :=
  [.createEl 0 .node, .createEl 1 .node, .gen3 (some 0) 0 .arc (some 1)]

theorem enumerates_pattern_crossing :
    ∃ st, runOps 3 crossingOps (State.initial (fun _ => []) fun _ => []) = some st ∧
      EnumeratesPattern false systemSession st.memory (.faa 0 .arc .node) := by
  have hrun : ∃ st g, runOps 3 crossingOps (State.initial (fun _ => []) fun _ => []) = some st ∧
      st.memory.addrs 0 = some g := ⟨_, _, rfl, rfl⟩
  obtain ⟨st, g, hst, hg⟩ := hrun
  have run := reaches_keeping (by decide) hst
  refine ⟨st, hst, enumerates_pattern _ _ st run false systemSession _ fun e given => ?_⟩
  rcases List.mem_cons.mp given with same | given
  · cases same
    exact ⟨g, hg⟩
  · simp at given

/-- The arcs in the segment of a given element are found even if it is not opened. -/
theorem enumerates_opened_fails : ¬∀ (uri tmpPrefix : SegId → ScString) (st : State),
    Reaches arcsKeepType (State.initial uri tmpPrefix) st → ∀ (lost : Bool) (ss : Session)
    (pattern : Pattern), (∀ e, pattern.Given e → ∃ g, st.memory.addrs e = some g) →
    ∀ l, pattern.RunsTo lost ss st.memory l → ∀ t, t ∈ l ↔ ∃ es, t = Pattern.values es ∧
      pattern.Matches st.memory es ∧ ∀ e ∈ es, InOpened ss st.memory e := by
  intro claim
  have hrun : ∃ st g0 g1 t1 t2, runOps 3 crossingOps (State.initial (fun _ => []) fun _ => []) =
        some st ∧ st.memory.addrs 0 = some g0 ∧ g0.seg = 0 ∧ st.memory.addrs 1 = some g1 ∧
      g1.seg = 1 ∧ Arc st.memory 2 0 1 ∧ segOf st.memory 2 = some 0 ∧
      st.memory.typeOf 1 = some t1 ∧ checkScType t1 0 = true ∧ st.memory.typeOf 2 = some t2 ∧
      checkScType t2 0 = true := by
    refine ⟨_, _, _, _, _, rfl, rfl, rfl, rfl, rfl, ⟨rfl, rfl⟩, rfl, rfl, ?_, rfl, ?_⟩ <;> decide
  obtain ⟨st, g0, g1, t1, t2, hst, hg0, hseg0, hg1, hseg1, arc, hx, ht1, fits1, ht2, fits2⟩ := hrun
  have run := reaches_keeping (by decide) hst
  have given : ∀ e, (Pattern.faa 0 0 0).Given e → ∃ g, st.memory.addrs e = some g := by
    intro e given
    rcases List.mem_cons.mp given with same | given
    · cases same
      exact ⟨g0, hg0⟩
    · simp at given
  obtain ⟨tuples, runs, -, -, mem⟩ := runsTo_pattern ⟨fun seg => seg = 1⟩ false
    (quiet_of_run run) given
  have found : Pattern.values [0, 2, 1] ∈ tuples := by
    refine (mem _).mpr ⟨[0, 2, 1], rfl, ⟨arc, ?_⟩, .inl ?_, g1, hg1, by simp [hseg1]⟩
    · exact .cons rfl (.cons ⟨t2, ht2, fits2⟩ (.cons ⟨t1, ht1, fits1⟩ .nil))
    · rw [hx, segOf, hg0, Option.map_some, hseg0]
  obtain ⟨es, heq, -, opened⟩ := (claim _ _ st run false _ _ given _ runs _).mp found
  have mem0 : (0 : Addr) ∈ es := by
    have h0 : Param.addr (some 0) ∈ Pattern.values es := heq ▸ .head _
    obtain ⟨e, he, same⟩ := List.mem_map.mp h0
    cases same
    exact he
  obtain ⟨g, hg, hopen⟩ := opened 0 mem0
  cases hg0.symm.trans hg
  simp [hseg0] at hopen

end ScCore.Search
