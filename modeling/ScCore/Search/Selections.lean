import ScCore.Search.Patterns

/-!
# Searches that select from sets

The `std_sely` constraints look for tuples of arcs whose elements are members of
given sets. They begin with the members of the first set and filter by the others.
-/

namespace ScCore.Search

open Store

/-! ## Members -/

/-- `SC_A_CONST|SC_POS`, the type of the arcs from a set to its members. -/
def memberType : ScType := ScType.arcAccessory ||| ScType.const ||| ScType.pos

def Member (m : Memory) (set e : Addr) : Prop := ∃ x, Arc m x set e ∧ Accepts m memberType x

def SeenMember (ss : Session) (m : Memory) (set e : Addr) : Prop :=
  ∃ x, Arc m x set e ∧ Accepts m memberType x ∧ Seen ss m set x

section Members

variable {m : Memory} {ss : Session} {reg : Registry} {lost : Bool} {t : List Param}
  {set e : Addr} {mask : ScType} {regs : Registers Param} {r o i j : Nat} {name : String}
  {outs : List (Option Nat)}

theorem SeenMember.member (h : SeenMember ss m set e) : Member m set e := by
  obtain ⟨x, arc, accepts, -⟩ := h
  exact ⟨x, arc, accepts⟩

theorem inOpened_system (live : m.liveAddr e = true) : InOpened systemSession m e := by
  obtain ⟨g, hg, -⟩ := liveAddr_eq_true.mp live
  exact ⟨g, hg, rfl⟩

theorem filterIsInSet_iff (quiet : Quiet m) :
    filterIsInSet lost m [.addr (some set), .addr (some e)] = true ↔ Member m set e := by
  have same : (sessionWorld systemSession m).results decStd3Faf
      [.addr (some set), .type memberType, .addr (some e)] =
      ((stdWorld lost systemSession m).nested []).results decStd3Faf
        [.addr (some set), .type memberType, .addr (some e)] := rfl
  have found : filterIsInSet lost m [.addr (some set), .addr (some e)] = true ↔
      (sessionWorld systemSession m).results decStd3Faf
        [.addr (some set), .type memberType, .addr (some e)] ≠ [] := by
    rw [filterIsInSet, Bool.not_eq_true', List.isEmpty_eq_false_iff]
    rfl
  rw [found, same]
  constructor
  · intro something
    obtain ⟨t, ht⟩ := List.exists_mem_of_ne_nil _ something
    obtain ⟨set, x, e, -, arc, rfl, accepts, rfl, -⟩ := exists_three.mp
      ((mem_std3Faf quiet rfl).mp ht)
    exact ⟨x, arc, accepts⟩
  · rintro ⟨x, arc, accepts⟩
    obtain ⟨live, stored, -⟩ := quiet.live arc.1
    obtain ⟨g, hg, -⟩ := liveAddr_eq_true.mp stored
    refine List.ne_nil_of_mem ((mem_std3Faf quiet rfl).mpr (exists_three.mpr
      ⟨set, x, e, rfl, arc, rfl, accepts, rfl, ?_, inOpened_system live⟩))
    exact .inr ⟨g.seg, by rw [segOf, hg, Option.map_some], rfl⟩

theorem filterIsInSet_any (quiet : Quiet m) {set : Option Addr} :
    filterIsInSet lost m [.addr set, .addr (some e)] = true ↔ ∀ s ∈ set, Member m s e := by
  cases set with
  | none => simp [filterIsInSet]
  | some set => simp [filterIsInSet_iff quiet]

theorem holds_isInSet {v w : Param} (hr : regs r = v) (ho : regs o = w) :
    ((stdWorld lost ss m).nested reg).Holds ⟨.filter, [r, o], [], name, idIsInSet⟩ regs ↔
      filterIsInSet lost m [v, w] = true := by
  rw [holds_filter, ← hr, ← ho]
  rfl

theorem holds_member (quiet : Quiet m) {set : Option Addr} (hr : regs r = .addr set)
    (ho : regs o = .addr (some e)) :
    ((stdWorld lost ss m).nested reg).Holds ⟨.filter, [r, o], [], name, idIsInSet⟩ regs ↔
      ∀ s ∈ set, Member m s e :=
  (holds_isInSet hr ho).trans (filterIsInSet_any quiet)

theorem holds_getCpa :
    ((stdWorld lost ss m).nested reg).Holds ⟨.func, [], [some o], name, idGetCpa⟩ regs ↔
      regs o = .type memberType := by
  have choices : ((stdWorld lost ss m).nested reg).choices ⟨.func, [], [some o], name, idGetCpa⟩
      [] = [[.type memberType]] := rfl
  simp only [World.Holds, PrgItem.args, List.map_nil, choices, PrgItem.written, PrgItem.targets,
    List.take_succ_cons, List.take_nil, List.reduceOption_cons_of_some, List.reduceOption_nil,
    List.mem_singleton, forall_eq, exists_eq_left]
  exact (Eq.congr_right (Registers.set_same regs o (.type memberType)))

theorem mem_stdInSet (quiet : Quiet m) (hreg : stdRegistry = some reg) :
    t ∈ ((stdWorld lost ss m).nested reg).results decStdInSet [.addr (some set), .type mask] ↔
      ∃ e, t = [Param.addr (some e)] ∧ SeenMember ss m set e ∧ Accepts m mask e ∧
        InOpened ss m e := by
  constructor
  · intro ht
    obtain ⟨regs, ⟨h0, h1, -⟩, holds, rfl⟩ := begins_of_mem_results rfl ht
    simp only [decStdInSet, List.forall_mem_cons] at holds
    obtain ⟨cpa, search, -⟩ := holds
    have h3 := holds_getCpa.mp cpa
    obtain ⟨set, x, e, ⟨h2, -⟩, arc, rfl, ax, ae, seen, opened⟩ :=
      (holds_three hreg .std3Faa (mem_std3Faa quiet hreg) h0 h3 h1 (by decide)).mp search
    exact ⟨e, by simp [PrgItem.args, decStdInSet, h2], ⟨x, arc, ax, seen⟩, ae, opened⟩
  · rintro ⟨e, rfl, ⟨x, arc, ax, seen⟩, ae, opened⟩
    refine mem_results_of [Param.addr (some e), .type memberType] rfl ?_
    simp only [decStdInSet, List.forall_mem_cons]
    refine ⟨?_, ?_, by simp⟩
    · exact holds_getCpa.mpr rfl
    · exact (holds_three hreg .std3Faa (mem_std3Faa quiet hreg) rfl rfl rfl (by decide)).mpr
        ⟨set, x, e, ⟨rfl, trivial⟩, arc, rfl, ax, ae, seen, opened⟩

theorem holds_stdInSet (quiet : Quiet m) (hreg : stdRegistry = some reg)
    (hi : regs i = .addr (some set)) (hj : regs j = .type mask)
    (nodup : outs.reduceOption.Nodup) :
    ((stdWorld lost ss m).nested reg).Holds ⟨.constr, [i, j], outs, name, idStdInSet⟩ regs ↔
      ∃ e, regs.Takes (.addr none) outs [.addr (some e)] ∧
        SeenMember ss m set e ∧ Accepts m mask e ∧ InOpened ss m e := by
  refine (holds_constr hreg .stdInSet [.addr (some set), .type mask]
    (by simp [hi, hj]) nodup).trans ?_
  constructor
  · rintro ⟨vs, hvs, kept⟩
    obtain ⟨e, rfl, facts⟩ := (mem_stdInSet quiet hreg).mp hvs
    exact ⟨e, kept, facts⟩
  · rintro ⟨e, kept, facts⟩
    exact ⟨_, (mem_stdInSet quiet hreg).mpr ⟨e, rfl, facts⟩, kept⟩

end Members

/-! ## The variants -/

/-- The `std_sely` constraints with their arguments. The first set is given, the others may be
null. -/
inductive Selection where
  | sely3P1 (s1 : Addr) (t1 : ScType) (s2 : Option Addr) (t2 : ScType) (s3 : Option Addr)
      (t3 : ScType)
  | sely3U1p2 (t1 : ScType) (s2 : Addr) (t2 : ScType) (s3 : Option Addr) (t3 : ScType)
  | sely3U1u2p3 (t1 t2 : ScType) (s3 : Addr) (t3 : ScType)
  | sely5P1 (s1 : Addr) (t1 : ScType) (s2 : Option Addr) (t2 : ScType) (s3 : Option Addr)
      (t3 : ScType) (s4 : Option Addr) (t4 : ScType) (s5 : Option Addr) (t5 : ScType)
  | sely5U1p2 (t1 : ScType) (s2 : Addr) (t2 : ScType) (s3 : Option Addr) (t3 : ScType)
      (s4 : Option Addr) (t4 : ScType) (s5 : Option Addr) (t5 : ScType)
  | sely5U1u2p3 (t1 t2 : ScType) (s3 : Addr) (t3 : ScType) (s4 : Option Addr) (t4 : ScType)
      (s5 : Option Addr) (t5 : ScType)
  | sely5U1u2u3p4 (t1 t2 t3 : ScType) (s4 : Addr) (t4 : ScType) (s5 : Option Addr) (t5 : ScType)
  | sely5U1u2u3u4p5 (t1 t2 t3 t4 : ScType) (s5 : Addr) (t5 : ScType)
  deriving DecidableEq, Repr

namespace Selection

def constraint : Selection → StdConstraint
  | sely3P1 .. => .stdSely3P1
  | sely3U1p2 .. => .stdSely3U1p2
  | sely3U1u2p3 .. => .stdSely3U1u2p3
  | sely5P1 .. => .stdSely5P1
  | sely5U1p2 .. => .stdSely5U1p2
  | sely5U1u2p3 .. => .stdSely5U1u2p3
  | sely5U1u2u3p4 .. => .stdSely5U1u2u3p4
  | sely5U1u2u3u4p5 .. => .stdSely5U1u2u3u4p5

def params : Selection → List Param
  | sely3P1 s1 t1 s2 t2 s3 t3 =>
      [.addr (some s1), .type t1, .addr s2, .type t2, .addr s3, .type t3]
  | sely3U1p2 t1 s2 t2 s3 t3 => [.type t1, .addr (some s2), .type t2, .addr s3, .type t3]
  | sely3U1u2p3 t1 t2 s3 t3 => [.type t1, .type t2, .addr (some s3), .type t3]
  | sely5P1 s1 t1 s2 t2 s3 t3 s4 t4 s5 t5 =>
      [.addr (some s1), .type t1, .addr s2, .type t2, .addr s3, .type t3, .addr s4, .type t4,
        .addr s5, .type t5]
  | sely5U1p2 t1 s2 t2 s3 t3 s4 t4 s5 t5 =>
      [.type t1, .addr (some s2), .type t2, .addr s3, .type t3, .addr s4, .type t4, .addr s5,
        .type t5]
  | sely5U1u2p3 t1 t2 s3 t3 s4 t4 s5 t5 =>
      [.type t1, .type t2, .addr (some s3), .type t3, .addr s4, .type t4, .addr s5, .type t5]
  | sely5U1u2u3p4 t1 t2 t3 s4 t4 s5 t5 =>
      [.type t1, .type t2, .type t3, .addr (some s4), .type t4, .addr s5, .type t5]
  | sely5U1u2u3u4p5 t1 t2 t3 t4 s5 t5 =>
      [.type t1, .type t2, .type t3, .type t4, .addr (some s5), .type t5]

def positions : Selection → List (Option Addr × ScType)
  | sely3P1 s1 t1 s2 t2 s3 t3 => [(some s1, t1), (s2, t2), (s3, t3)]
  | sely3U1p2 t1 s2 t2 s3 t3 => [(none, t1), (some s2, t2), (s3, t3)]
  | sely3U1u2p3 t1 t2 s3 t3 => [(none, t1), (none, t2), (some s3, t3)]
  | sely5P1 s1 t1 s2 t2 s3 t3 s4 t4 s5 t5 =>
      [(some s1, t1), (s2, t2), (s3, t3), (s4, t4), (s5, t5)]
  | sely5U1p2 t1 s2 t2 s3 t3 s4 t4 s5 t5 =>
      [(none, t1), (some s2, t2), (s3, t3), (s4, t4), (s5, t5)]
  | sely5U1u2p3 t1 t2 s3 t3 s4 t4 s5 t5 =>
      [(none, t1), (none, t2), (some s3, t3), (s4, t4), (s5, t5)]
  | sely5U1u2u3p4 t1 t2 t3 s4 t4 s5 t5 =>
      [(none, t1), (none, t2), (none, t3), (some s4, t4), (s5, t5)]
  | sely5U1u2u3u4p5 t1 t2 t3 t4 s5 t5 =>
      [(none, t1), (none, t2), (none, t3), (none, t4), (some s5, t5)]

def leader : Selection → Nat × Addr
  | sely3P1 s1 .. | sely5P1 s1 .. => (0, s1)
  | sely3U1p2 _ s2 .. | sely5U1p2 _ s2 .. => (1, s2)
  | sely3U1u2p3 _ _ s3 .. | sely5U1u2p3 _ _ s3 .. => (2, s3)
  | sely5U1u2u3p4 _ _ _ s4 .. => (3, s4)
  | sely5U1u2u3u4p5 _ _ _ _ s5 .. => (4, s5)

def Admits (m : Memory) (position : Option Addr × ScType) (e : Addr) : Prop :=
  Accepts m position.2 e ∧ ∀ set ∈ position.1, Member m set e

/-- The tuples of the plain search whose elements are members of the sets, as far as they can be
seen: all elements are in opened segments, and the first set's arc is seen from the set. -/
def Selects (ss : Session) (m : Memory) (sel : Selection) (es : List Addr) : Prop :=
  (Pattern.Connected m es ∧ List.Forall₂ (Admits m) sel.positions es) ∧
    (∀ e ∈ es, InOpened ss m e) ∧
    ∃ e, es[sel.leader.1]? = some e ∧ SeenMember ss m sel.leader.2 e

def RunsTo (lost : Bool) (ss : Session) (m : Memory) (sel : Selection)
    (tuples : List (List Param)) : Prop :=
  ∃ reg dec, stdRegistry = some reg ∧ reg.program sel.constraint.name = some dec ∧
    FallbackIterator.RunsTo (stdWorld lost ss m) dec sel.params tuples

end Selection

section Variants

variable {m : Memory} {ss : Session} {reg : Registry} {lost : Bool} {t : List Param}
  {e s1 s2 s3 s4 s5 : Addr} {mask t1 t2 t3 t4 t5 : ScType} {o2 o3 o4 o5 : Option Addr}

theorem Arc.seen_iff (quiet : Quiet m) {x a b : Addr} (arc : Arc m x a b) :
    (InOpened ss m a → (Seen ss m a x ↔ InOpened ss m x)) ∧
      (InOpened ss m b → (Seen ss m b x ↔ InOpened ss m x)) := by
  obtain ⟨g, hg, -⟩ := liveAddr_eq_true.mp (quiet.live arc.1).2.1
  exact ⟨fun opened => Search.seen_iff opened ⟨g, hg⟩, fun opened => Search.seen_iff opened ⟨g, hg⟩⟩

namespace Selection

theorem admits_leader (accepts : Accepts m mask e) (led : SeenMember ss m s1 e) :
    Admits m (some s1, mask) e := by
  refine ⟨accepts, ?_⟩
  rintro _ ⟨⟩
  exact led.member

theorem admits_none : Admits m (none, mask) e ↔ Accepts m mask e := by
  simp [Admits]

end Selection

open Selection

section

variable (quiet : Quiet m) (hreg : stdRegistry = some reg)
include quiet hreg

theorem mem_sely3P1 :
    t ∈ ((stdWorld lost ss m).nested reg).results decStdSely3P1
        (Selection.sely3P1 s1 t1 o2 t2 o3 t3).params ↔
      ∃ es, t = Pattern.values es ∧ (Selection.sely3P1 s1 t1 o2 t2 o3 t3).Selects ss m es := by
  refine .trans ?_ exists_three.symm
  constructor
  · intro ht
    obtain ⟨regs, ⟨h0, h1, h2, h3, h4, h5, -⟩, holds, rfl⟩ := begins_of_mem_results rfl ht
    simp only [decStdSely3P1, List.forall_mem_cons] at holds
    obtain ⟨first, second, in2, in3, -⟩ := holds
    obtain ⟨e1, ⟨h6, -⟩, led, a1, p1⟩ := (holds_stdInSet quiet hreg h0 h1 (by decide)).mp first
    obtain ⟨e1, e2, e3, ⟨h7, h8, -⟩, arc, rfl, a2, a3, seen2, p3⟩ :=
      (holds_three hreg .std3Faa (mem_std3Faa quiet hreg) h6 h3 h5 (by decide)).mp second
    have m2 := (holds_member quiet h2 h7).mp in2
    have m3 := (holds_member quiet h4 h8).mp in3
    have p2 := ((arc.seen_iff quiet).1 p1).mp seen2
    exact ⟨e1, e2, e3, by simp [PrgItem.args, decStdSely3P1, h6, h7, h8, Pattern.values], arc,
      admits_leader a1 led, ⟨a2, m2⟩, ⟨a3, m3⟩, by simp [p1, p2, p3], e1, rfl, led⟩
  · rintro ⟨e1, e2, e3, rfl, arc, ⟨a1, -⟩, ⟨a2, m2⟩, ⟨a3, m3⟩, opened, e, he, led⟩
    cases he
    simp only [List.forall_mem_cons] at opened
    obtain ⟨p1, p2, p3, -⟩ := opened
    refine mem_results_of [Param.addr (some e1), .addr (some e2), .addr (some e3)] rfl ?_
    simp only [decStdSely3P1, List.forall_mem_cons]
    refine ⟨?_, ?_, ?_, ?_, by simp⟩
    · exact (holds_stdInSet quiet hreg rfl rfl (by decide)).mpr ⟨e1, ⟨rfl, trivial⟩, led, a1, p1⟩
    · exact (holds_three hreg .std3Faa (mem_std3Faa quiet hreg) rfl rfl rfl (by decide)).mpr
        ⟨e1, e2, e3, ⟨rfl, rfl, trivial⟩, arc, rfl, a2, a3, ((arc.seen_iff quiet).1 p1).mpr p2, p3⟩
    · exact (holds_member quiet rfl rfl).mpr m2
    · exact (holds_member quiet rfl rfl).mpr m3

theorem mem_sely3U1p2 :
    t ∈ ((stdWorld lost ss m).nested reg).results decStdSely3U1p2
        (Selection.sely3U1p2 t1 s2 t2 o3 t3).params ↔
      ∃ es, t = Pattern.values es ∧ (Selection.sely3U1p2 t1 s2 t2 o3 t3).Selects ss m es := by
  refine .trans ?_ exists_three.symm
  constructor
  · intro ht
    obtain ⟨regs, ⟨h0, h1, h2, h3, h4, -⟩, holds, rfl⟩ := begins_of_mem_results rfl ht
    simp only [decStdSely3U1p2, List.forall_mem_cons] at holds
    obtain ⟨first, beg, check1, fin, check3, in3, -⟩ := holds
    obtain ⟨e2, ⟨h6, -⟩, led, a2, p2⟩ := (holds_stdInSet quiet hreg h1 h2 (by decide)).mp first
    obtain ⟨e1, h5, hbeg, p1⟩ := (holds_end quiet (.inl ⟨rfl, rfl⟩) h6).mp beg
    obtain ⟨e3, h7, hfin, p3⟩ := (holds_end quiet (.inr ⟨rfl, rfl⟩) h6).mp fin
    have a1 := (holds_check quiet (quiet.live hbeg).1 h5 h0).mp check1
    have a3 := (holds_check quiet (quiet.live hfin).1 h7 h4).mp check3
    have m3 := (holds_member quiet h3 h7).mp in3
    exact ⟨e1, e2, e3, by simp [PrgItem.args, decStdSely3U1p2, h5, h6, h7, Pattern.values],
      ⟨hbeg, hfin⟩, admits_none.mpr a1, admits_leader a2 led, ⟨a3, m3⟩, by simp [p1, p2, p3], e2,
      rfl, led⟩
  · rintro ⟨e1, e2, e3, rfl, arc, ⟨a1, -⟩, ⟨a2, -⟩, ⟨a3, m3⟩, opened, e, he, led⟩
    cases he
    simp only [List.forall_mem_cons] at opened
    obtain ⟨p1, p2, p3, -⟩ := opened
    refine mem_results_of [Param.addr (some e1), .addr (some e2), .addr (some e3)] rfl ?_
    simp only [decStdSely3U1p2, List.forall_mem_cons]
    refine ⟨?_, ?_, ?_, ?_, ?_, ?_, by simp⟩
    · exact (holds_stdInSet quiet hreg rfl rfl (by decide)).mpr ⟨e2, ⟨rfl, trivial⟩, led, a2, p2⟩
    · exact (holds_end quiet (.inl ⟨rfl, rfl⟩) rfl).mpr ⟨e1, rfl, arc.1, p1⟩
    · exact (holds_check quiet (quiet.live arc.1).1 rfl rfl).mpr a1
    · exact (holds_end quiet (.inr ⟨rfl, rfl⟩) rfl).mpr ⟨e3, rfl, arc.2, p3⟩
    · exact (holds_check quiet (quiet.live arc.2).1 rfl rfl).mpr a3
    · exact (holds_member quiet rfl rfl).mpr m3

theorem mem_sely3U1u2p3 :
    t ∈ ((stdWorld lost ss m).nested reg).results decStdSely3U1u2p3
        (Selection.sely3U1u2p3 t1 t2 s3 t3).params ↔
      ∃ es, t = Pattern.values es ∧ (Selection.sely3U1u2p3 t1 t2 s3 t3).Selects ss m es := by
  refine .trans ?_ exists_three.symm
  constructor
  · intro ht
    obtain ⟨regs, ⟨h0, h1, h2, h3, -⟩, holds, rfl⟩ := begins_of_mem_results rfl ht
    simp only [decStdSely3U1u2p3, List.forall_mem_cons] at holds
    obtain ⟨first, second, -⟩ := holds
    obtain ⟨e3, ⟨h6, -⟩, led, a3, p3⟩ := (holds_stdInSet quiet hreg h2 h3 (by decide)).mp first
    obtain ⟨e1, e2, e3, ⟨h4, h5, -⟩, arc, a1, a2, rfl, seen2, p1⟩ :=
      (holds_three hreg .std3Aaf (mem_std3Aaf quiet hreg) h0 h1 h6 (by decide)).mp second
    have p2 := ((arc.seen_iff quiet).2 p3).mp seen2
    exact ⟨e1, e2, e3, by simp [PrgItem.args, decStdSely3U1u2p3, h4, h5, h6, Pattern.values], arc,
      admits_none.mpr a1, admits_none.mpr a2, admits_leader a3 led, by simp [p1, p2, p3], e3, rfl,
      led⟩
  · rintro ⟨e1, e2, e3, rfl, arc, ⟨a1, -⟩, ⟨a2, -⟩, ⟨a3, -⟩, opened, e, he, led⟩
    cases he
    simp only [List.forall_mem_cons] at opened
    obtain ⟨p1, p2, p3, -⟩ := opened
    refine mem_results_of [Param.addr (some e1), .addr (some e2), .addr (some e3)] rfl ?_
    simp only [decStdSely3U1u2p3, List.forall_mem_cons]
    refine ⟨?_, ?_, by simp⟩
    · exact (holds_stdInSet quiet hreg rfl rfl (by decide)).mpr ⟨e3, ⟨rfl, trivial⟩, led, a3, p3⟩
    · exact (holds_three hreg .std3Aaf (mem_std3Aaf quiet hreg) rfl rfl rfl (by decide)).mpr
        ⟨e1, e2, e3, ⟨rfl, rfl, trivial⟩, arc, a1, a2, rfl, ((arc.seen_iff quiet).2 p3).mpr p2, p1⟩

theorem mem_sely5P1 :
    t ∈ ((stdWorld lost ss m).nested reg).results decStdSely5P1
        (Selection.sely5P1 s1 t1 o2 t2 o3 t3 o4 t4 o5 t5).params ↔
      ∃ es, t = Pattern.values es ∧
        (Selection.sely5P1 s1 t1 o2 t2 o3 t3 o4 t4 o5 t5).Selects ss m es := by
  refine .trans ?_ exists_five.symm
  constructor
  · intro ht
    obtain ⟨regs, ⟨h0, h1, h2, h3, h4, h5, h6, h7, h8, h9, -⟩, holds, rfl⟩ := begins_of_mem_results
      rfl ht
    simp only [decStdSely5P1, List.forall_mem_cons] at holds
    obtain ⟨first, second, in4, in2, in3, in5, -⟩ := holds
    obtain ⟨e1, ⟨h10, -⟩, led, a1, p1⟩ := (holds_stdInSet quiet hreg h0 h1 (by decide)).mp first
    obtain ⟨vs, hvs, kept⟩ := (holds_constr hreg .std5Faaaa
      [.addr (some e1), .type t2, .type t3, .type t4, .type t5]
      (by simp [h3, h5, h7, h9, h10]) (by decide)).mp second
    obtain ⟨e1, e2, e3, e4, e5, rfl, arc, arc', rfl, a2, a3, a4, a5, seen2, p3, seen4, p5⟩ :=
      exists_five.mp ((mem_std5Faaaa quiet hreg).mp hvs)
    obtain ⟨h11, h12, h13, h14, -⟩ := kept
    have m2 := (holds_member quiet h2 h11).mp in2
    have m3 := (holds_member quiet h4 h12).mp in3
    have m4 := (holds_member quiet h6 h13).mp in4
    have m5 := (holds_member quiet h8 h14).mp in5
    have p2 := ((arc.seen_iff quiet).1 p1).mp seen2
    have p4 := ((arc'.seen_iff quiet).2 p2).mp seen4
    exact ⟨e1, e2, e3, e4, e5,
      by simp [PrgItem.args, decStdSely5P1, h10, h11, h12, h13, h14, Pattern.values], arc, arc',
      admits_leader a1 led, ⟨a2, m2⟩, ⟨a3, m3⟩, ⟨a4, m4⟩, ⟨a5, m5⟩, by simp [p1, p2, p3, p4, p5],
      e1, rfl, led⟩
  · rintro ⟨e1, e2, e3, e4, e5, rfl, arc, arc', ⟨a1, -⟩, ⟨a2, m2⟩, ⟨a3, m3⟩, ⟨a4, m4⟩, ⟨a5, m5⟩,
      opened, e, he, led⟩
    cases he
    simp only [List.forall_mem_cons] at opened
    obtain ⟨p1, p2, p3, p4, p5, -⟩ := opened
    refine mem_results_of [Param.addr (some e1), .addr (some e2), .addr (some e3),
      .addr (some e4), .addr (some e5)] rfl ?_
    simp only [decStdSely5P1, List.forall_mem_cons]
    refine ⟨?_, ?_, ?_, ?_, ?_, ?_, by simp⟩
    · exact (holds_stdInSet quiet hreg rfl rfl (by decide)).mpr ⟨e1, ⟨rfl, trivial⟩, led, a1, p1⟩
    · exact (holds_constr hreg .std5Faaaa _ rfl (by decide)).mpr ⟨_, (mem_std5Faaaa quiet hreg).mpr
        (exists_five.mpr ⟨e1, e2, e3, e4, e5, rfl, arc, arc', rfl, a2, a3, a4, a5,
          ((arc.seen_iff quiet).1 p1).mpr p2, p3, ((arc'.seen_iff quiet).2 p2).mpr p4, p5⟩),
        rfl, rfl, rfl, rfl, trivial⟩
    · exact (holds_member quiet rfl rfl).mpr m4
    · exact (holds_member quiet rfl rfl).mpr m2
    · exact (holds_member quiet rfl rfl).mpr m3
    · exact (holds_member quiet rfl rfl).mpr m5

theorem mem_sely5U1p2 :
    t ∈ ((stdWorld lost ss m).nested reg).results decStdSely5U1p2
        (Selection.sely5U1p2 t1 s2 t2 o3 t3 o4 t4 o5 t5).params ↔
      ∃ es, t = Pattern.values es ∧
        (Selection.sely5U1p2 t1 s2 t2 o3 t3 o4 t4 none t5).Selects ss m es ∧
        ∃ e5, es[4]? = some e5 ∧ filterIsInSet lost m [.addr (some e5), .addr o5] = true := by
  simp only [Selects, and_assoc]
  simp only [← and_assoc (a := Pattern.Connected _ _)]
  refine .trans ?_ exists_five.symm
  constructor
  · intro ht
    obtain ⟨regs, ⟨h0, h1, h2, h3, h4, h5, h6, h7, h8, -⟩, holds, rfl⟩ := begins_of_mem_results rfl
      ht
    simp only [decStdSely5U1p2, List.forall_mem_cons] at holds
    obtain ⟨first, beg, check1, fin, check3, in3, second, in4, in5, -⟩ := holds
    obtain ⟨e2, ⟨h10, -⟩, led, a2, p2⟩ := (holds_stdInSet quiet hreg h1 h2 (by decide)).mp first
    obtain ⟨e1, h9, hbeg, p1⟩ := (holds_end quiet (.inl ⟨rfl, rfl⟩) h10).mp beg
    obtain ⟨e3, h11, hfin, p3⟩ := (holds_end quiet (.inr ⟨rfl, rfl⟩) h10).mp fin
    obtain ⟨e5, e4, e2, ⟨h13, h12, -⟩, arc', a5, a4, rfl, seen4, p5⟩ :=
      (holds_three hreg .std3Aaf (mem_std3Aaf quiet hreg) h8 h6 h10 (by decide)).mp second
    have a1 := (holds_check quiet (quiet.live hbeg).1 h9 h0).mp check1
    have a3 := (holds_check quiet (quiet.live hfin).1 h11 h4).mp check3
    have m3 := (holds_member quiet h3 h11).mp in3
    have m4 := (holds_member quiet h5 h12).mp in4
    have p4 := ((arc'.seen_iff quiet).2 p2).mp seen4
    exact ⟨e1, e2, e3, e4, e5,
      by simp [PrgItem.args, decStdSely5U1p2, h9, h10, h11, h12, h13, Pattern.values],
      ⟨hbeg, hfin⟩, arc', admits_none.mpr a1, admits_leader a2 led, ⟨a3, m3⟩, ⟨a4, m4⟩,
      admits_none.mpr a5, by simp [p1, p2, p3, p4, p5], ⟨e2, rfl, led⟩, e5, rfl,
      (holds_isInSet h13 h7).mp in5⟩
  · rintro ⟨e1, e2, e3, e4, e5, rfl, arc, arc', ⟨a1, -⟩, ⟨a2, -⟩, ⟨a3, m3⟩, ⟨a4, m4⟩, ⟨a5, -⟩,
      opened, ⟨e, he, led⟩, e', he', in5⟩
    cases he'
    cases he
    simp only [List.forall_mem_cons] at opened
    obtain ⟨p1, p2, p3, p4, p5, -⟩ := opened
    refine mem_results_of [Param.addr (some e1), .addr (some e2), .addr (some e3),
      .addr (some e4), .addr (some e5)] rfl ?_
    simp only [decStdSely5U1p2, List.forall_mem_cons]
    refine ⟨?_, ?_, ?_, ?_, ?_, ?_, ?_, ?_, ?_, by simp⟩
    · exact (holds_stdInSet quiet hreg rfl rfl (by decide)).mpr ⟨e2, ⟨rfl, trivial⟩, led, a2, p2⟩
    · exact (holds_end quiet (.inl ⟨rfl, rfl⟩) rfl).mpr ⟨e1, rfl, arc.1, p1⟩
    · exact (holds_check quiet (quiet.live arc.1).1 rfl rfl).mpr a1
    · exact (holds_end quiet (.inr ⟨rfl, rfl⟩) rfl).mpr ⟨e3, rfl, arc.2, p3⟩
    · exact (holds_check quiet (quiet.live arc.2).1 rfl rfl).mpr a3
    · exact (holds_member quiet rfl rfl).mpr m3
    · exact (holds_three hreg .std3Aaf (mem_std3Aaf quiet hreg) rfl rfl rfl (by decide)).mpr
        ⟨e5, e4, e2, ⟨rfl, rfl, trivial⟩, arc', a5, a4, rfl, ((arc'.seen_iff quiet).2 p2).mpr p4,
          p5⟩
    · exact (holds_member quiet rfl rfl).mpr m4
    · exact (holds_isInSet rfl rfl).mpr in5

theorem mem_sely5U1u2p3 :
    t ∈ ((stdWorld lost ss m).nested reg).results decStdSely5U1u2p3
        (Selection.sely5U1u2p3 t1 t2 s3 t3 o4 t4 o5 t5).params ↔
      ∃ es, t = Pattern.values es ∧
        (Selection.sely5U1u2p3 t1 t2 s3 t3 o4 t4 o5 t5).Selects ss m es := by
  refine .trans ?_ exists_five.symm
  constructor
  · intro ht
    obtain ⟨regs, ⟨h0, h1, h2, h3, h4, h5, h6, h7, -⟩, holds, rfl⟩ := begins_of_mem_results rfl ht
    simp only [decStdSely5U1u2p3, List.forall_mem_cons] at holds
    obtain ⟨first, second, third, in4, in5, -⟩ := holds
    obtain ⟨e3, ⟨h10, -⟩, led, a3, p3⟩ := (holds_stdInSet quiet hreg h2 h3 (by decide)).mp first
    obtain ⟨e1, e2, e3, ⟨h8, h9, -⟩, arc, a1, a2, rfl, seen2, p1⟩ :=
      (holds_three hreg .std3Aaf (mem_std3Aaf quiet hreg) h0 h1 h10 (by decide)).mp second
    obtain ⟨e5, e4, e2, ⟨h12, h11, -⟩, arc', a5, a4, rfl, seen4, p5⟩ :=
      (holds_three hreg .std3Aaf (mem_std3Aaf quiet hreg) h7 h5 h9 (by decide)).mp third
    have m4 := (holds_member quiet h4 h11).mp in4
    have m5 := (holds_member quiet h6 h12).mp in5
    have p2 := ((arc.seen_iff quiet).2 p3).mp seen2
    have p4 := ((arc'.seen_iff quiet).2 p2).mp seen4
    exact ⟨e1, e2, e3, e4, e5,
      by simp [PrgItem.args, decStdSely5U1u2p3, h8, h9, h10, h11, h12, Pattern.values], arc, arc',
      admits_none.mpr a1, admits_none.mpr a2, admits_leader a3 led, ⟨a4, m4⟩, ⟨a5, m5⟩,
      by simp [p1, p2, p3, p4, p5], e3, rfl, led⟩
  · rintro ⟨e1, e2, e3, e4, e5, rfl, arc, arc', ⟨a1, -⟩, ⟨a2, -⟩, ⟨a3, -⟩, ⟨a4, m4⟩, ⟨a5, m5⟩,
      opened, e, he, led⟩
    cases he
    simp only [List.forall_mem_cons] at opened
    obtain ⟨p1, p2, p3, p4, p5, -⟩ := opened
    refine mem_results_of [Param.addr (some e1), .addr (some e2), .addr (some e3),
      .addr (some e4), .addr (some e5)] rfl ?_
    simp only [decStdSely5U1u2p3, List.forall_mem_cons]
    refine ⟨?_, ?_, ?_, ?_, ?_, by simp⟩
    · exact (holds_stdInSet quiet hreg rfl rfl (by decide)).mpr ⟨e3, ⟨rfl, trivial⟩, led, a3, p3⟩
    · exact (holds_three hreg .std3Aaf (mem_std3Aaf quiet hreg) rfl rfl rfl (by decide)).mpr
        ⟨e1, e2, e3, ⟨rfl, rfl, trivial⟩, arc, a1, a2, rfl, ((arc.seen_iff quiet).2 p3).mpr p2, p1⟩
    · exact (holds_three hreg .std3Aaf (mem_std3Aaf quiet hreg) rfl rfl rfl (by decide)).mpr
        ⟨e5, e4, e2, ⟨rfl, rfl, trivial⟩, arc', a5, a4, rfl, ((arc'.seen_iff quiet).2 p2).mpr p4,
          p5⟩
    · exact (holds_member quiet rfl rfl).mpr m4
    · exact (holds_member quiet rfl rfl).mpr m5

theorem mem_sely5U1u2u3p4 :
    t ∈ ((stdWorld lost ss m).nested reg).results decStdSely5U1u2u3p4
        (Selection.sely5U1u2u3p4 t1 t2 t3 s4 t4 o5 t5).params ↔
      ∃ es, t = Pattern.values es ∧
        (Selection.sely5U1u2u3p4 t1 t2 t3 s4 t4 o5 t5).Selects ss m es := by
  refine .trans ?_ exists_five.symm
  constructor
  · intro ht
    obtain ⟨regs, ⟨h0, h1, h2, h3, h4, h5, h6, -⟩, holds, rfl⟩ := begins_of_mem_results rfl ht
    simp only [decStdSely5U1u2u3p4, List.forall_mem_cons] at holds
    obtain ⟨first, beg4, check5, in5, end4, check2, beg2, end2, check1, check3, -⟩ := holds
    obtain ⟨e4, ⟨h10, -⟩, led, a4, p4⟩ := (holds_stdInSet quiet hreg h3 h4 (by decide)).mp first
    obtain ⟨e5, h11, hbeg4, p5⟩ := (holds_end quiet (.inl ⟨rfl, rfl⟩) h10).mp beg4
    obtain ⟨e2, h8, hend4, p2⟩ := (holds_end quiet (.inr ⟨rfl, rfl⟩) h10).mp end4
    obtain ⟨e1, h7, hbeg2, p1⟩ := (holds_end quiet (.inl ⟨rfl, rfl⟩) h8).mp beg2
    obtain ⟨e3, h9, hend2, p3⟩ := (holds_end quiet (.inr ⟨rfl, rfl⟩) h8).mp end2
    have a5 := (holds_check quiet (quiet.live hbeg4).1 h11 h6).mp check5
    have a2 := (holds_check quiet (quiet.live hend4).1 h8 h1).mp check2
    have a1 := (holds_check quiet (quiet.live hbeg2).1 h7 h0).mp check1
    have a3 := (holds_check quiet (quiet.live hend2).1 h9 h2).mp check3
    have m5 := (holds_member quiet h5 h11).mp in5
    exact ⟨e1, e2, e3, e4, e5,
      by simp [PrgItem.args, decStdSely5U1u2u3p4, h7, h8, h9, h10, h11, Pattern.values],
      ⟨hbeg2, hend2⟩, ⟨hbeg4, hend4⟩, admits_none.mpr a1, admits_none.mpr a2, admits_none.mpr a3,
      admits_leader a4 led, ⟨a5, m5⟩, by simp [p1, p2, p3, p4, p5], e4, rfl, led⟩
  · rintro ⟨e1, e2, e3, e4, e5, rfl, arc, arc', ⟨a1, -⟩, ⟨a2, -⟩, ⟨a3, -⟩, ⟨a4, -⟩, ⟨a5, m5⟩,
      opened, e, he, led⟩
    cases he
    simp only [List.forall_mem_cons] at opened
    obtain ⟨p1, p2, p3, p4, p5, -⟩ := opened
    refine mem_results_of [Param.addr (some e1), .addr (some e2), .addr (some e3),
      .addr (some e4), .addr (some e5)] rfl ?_
    simp only [decStdSely5U1u2u3p4, List.forall_mem_cons]
    refine ⟨?_, ?_, ?_, ?_, ?_, ?_, ?_, ?_, ?_, ?_, by simp⟩
    · exact (holds_stdInSet quiet hreg rfl rfl (by decide)).mpr ⟨e4, ⟨rfl, trivial⟩, led, a4, p4⟩
    · exact (holds_end quiet (.inl ⟨rfl, rfl⟩) rfl).mpr ⟨e5, rfl, arc'.1, p5⟩
    · exact (holds_check quiet (quiet.live arc'.1).1 rfl rfl).mpr a5
    · exact (holds_member quiet rfl rfl).mpr m5
    · exact (holds_end quiet (.inr ⟨rfl, rfl⟩) rfl).mpr ⟨e2, rfl, arc'.2, p2⟩
    · exact (holds_check quiet (quiet.live arc'.2).1 rfl rfl).mpr a2
    · exact (holds_end quiet (.inl ⟨rfl, rfl⟩) rfl).mpr ⟨e1, rfl, arc.1, p1⟩
    · exact (holds_end quiet (.inr ⟨rfl, rfl⟩) rfl).mpr ⟨e3, rfl, arc.2, p3⟩
    · exact (holds_check quiet (quiet.live arc.1).1 rfl rfl).mpr a1
    · exact (holds_check quiet (quiet.live arc.2).1 rfl rfl).mpr a3

theorem mem_sely5U1u2u3u4p5 :
    t ∈ ((stdWorld lost ss m).nested reg).results decStdSely5U1u2u3u4p5
        (Selection.sely5U1u2u3u4p5 t1 t2 t3 t4 s5 t5).params ↔
      ∃ es, t = Pattern.values es ∧
        (Selection.sely5U1u2u3u4p5 t1 t2 t3 t4 s5 t5).Selects ss m es := by
  refine .trans ?_ exists_five.symm
  constructor
  · intro ht
    obtain ⟨regs, ⟨h0, h1, h2, h3, h4, h5, -⟩, holds, rfl⟩ := begins_of_mem_results rfl ht
    simp only [decStdSely5U1u2u3u4p5, List.forall_mem_cons] at holds
    obtain ⟨first, second, -⟩ := holds
    obtain ⟨e5, ⟨h10, -⟩, led, a5, p5⟩ := (holds_stdInSet quiet hreg h4 h5 (by decide)).mp first
    obtain ⟨vs, hvs, kept⟩ := (holds_constr hreg .std5Aaaaf
      [.type t1, .type t2, .type t3, .type t4, .addr (some e5)]
      (by simp [h0, h1, h2, h3, h10]) (by decide)).mp second
    obtain ⟨e1, e2, e3, e4, e5, rfl, arc, arc', a1, a2, a3, a4, rfl, seen4, p2, p1, p3⟩ :=
      exists_five.mp ((mem_std5Aaaaf quiet hreg).mp hvs)
    obtain ⟨h6, h7, h8, h9, -⟩ := kept
    have p4 := ((arc'.seen_iff quiet).1 p5).mp seen4
    exact ⟨e1, e2, e3, e4, e5,
      by simp [PrgItem.args, decStdSely5U1u2u3u4p5, h6, h7, h8, h9, h10, Pattern.values], arc,
      arc', admits_none.mpr a1, admits_none.mpr a2, admits_none.mpr a3, admits_none.mpr a4,
      admits_leader a5 led, by simp [p1, p2, p3, p4, p5], e5, rfl, led⟩
  · rintro ⟨e1, e2, e3, e4, e5, rfl, arc, arc', ⟨a1, -⟩, ⟨a2, -⟩, ⟨a3, -⟩, ⟨a4, -⟩, ⟨a5, -⟩,
      opened, e, he, led⟩
    cases he
    simp only [List.forall_mem_cons] at opened
    obtain ⟨p1, p2, p3, p4, p5, -⟩ := opened
    refine mem_results_of [Param.addr (some e1), .addr (some e2), .addr (some e3),
      .addr (some e4), .addr (some e5)] rfl ?_
    simp only [decStdSely5U1u2u3u4p5, List.forall_mem_cons]
    refine ⟨?_, ?_, by simp⟩
    · exact (holds_stdInSet quiet hreg rfl rfl (by decide)).mpr ⟨e5, ⟨rfl, trivial⟩, led, a5, p5⟩
    · exact (holds_constr hreg .std5Aaaaf _ rfl (by decide)).mpr ⟨_, (mem_std5Aaaaf quiet hreg).mpr
        (exists_five.mpr ⟨e1, e2, e3, e4, e5, rfl, arc, arc', a1, a2, a3, a4, rfl,
          ((arc'.seen_iff quiet).1 p5).mpr p4, p2, p1, p3⟩), rfl, rfl, rfl, rfl, trivial⟩

end

variable (ss m) in
theorem Selection.runsTo (hreg : stdRegistry = some reg) (lost : Bool) (sel : Selection) :
    ∃ tuples, (∀ l, sel.RunsTo lost ss m l ↔ l = tuples) ∧
      tuples = ((stdWorld lost ss m).nested reg).results sel.constraint.source sel.params := by
  obtain ⟨q, means⟩ := means hreg sel.constraint
  have runs := runsTo_results q (stdWorld lost ss m) sel.params means.body
  rw [means.results] at runs
  refine ⟨_, fun l => ⟨?_, ?_⟩, rfl⟩
  · rintro ⟨reg', dec, hreg', hdec, runs'⟩
    cases hreg.symm.trans hreg'
    cases means.program.symm.trans hdec
    exact runs'.unique runs
  · rintro rfl
    exact ⟨reg, _, hreg, means.program, runs⟩

end Variants

/-! ## The variants agree with the plain search -/

def EnumeratesSelection (lost : Bool) (ss : Session) (m : Memory) (sel : Selection) : Prop :=
  ∃ tuples, (∀ l, sel.RunsTo lost ss m l ↔ l = tuples) ∧
    ∀ t, t ∈ tuples ↔ ∃ es, t = Pattern.values es ∧ sel.Selects ss m es

theorem enumerates_iff_results {reg : Registry} (hreg : stdRegistry = some reg) {lost : Bool}
    {ss : Session} {m : Memory} {sel : Selection} :
    EnumeratesSelection lost ss m sel ↔ ∀ t,
      t ∈ ((stdWorld lost ss m).nested reg).results sel.constraint.source sel.params ↔
        ∃ es, t = Pattern.values es ∧ sel.Selects ss m es := by
  obtain ⟨tuples, runs, rfl⟩ := sel.runsTo m ss hreg lost
  constructor
  · rintro ⟨tuples', runs', mem⟩
    rwa [← (runs' _).mp ((runs _).mpr rfl)] at mem
  · exact fun mem => ⟨_, runs, mem⟩

/-- Asking whether the set is a member of the element gives the right answer. This is what
`std_sely5_u1p2` asks of its fifth element, and there must be a set then. -/
def Selection.Swappable (ss : Session) (m : Memory) : Selection → Prop
  | sely5U1p2 t1 s2 t2 s3 t3 s4 t4 s5 t5 => ∀ es e5, es[4]? = some e5 →
      (sely5U1p2 t1 s2 t2 s3 t3 s4 t4 none t5).Selects ss m es →
      ∃ set, s5 = some set ∧ (Member m e5 set ↔ Member m set e5)
  | _ => True

/-- Any element at the fifth position of `std_sely5_u1p2` has a set of its own to be in. -/
theorem Selection.selects_fifth {ss : Session} {m : Memory} {t1 t2 t3 t4 t5 : ScType} {s2 : Addr}
    {s3 s4 s5 : Option Addr} {es : List Addr} :
    (sely5U1p2 t1 s2 t2 s3 t3 s4 t4 s5 t5).Selects ss m es ↔
      (sely5U1p2 t1 s2 t2 s3 t3 s4 t4 none t5).Selects ss m es ∧
        ∃ e5, es[4]? = some e5 ∧ ∀ set ∈ s5, Member m set e5 := by
  constructor
  · rintro ⟨⟨conn, adm⟩, rest⟩
    rcases adm with _ | ⟨a1, _ | ⟨a2, _ | ⟨a3, _ | ⟨a4, _ | ⟨a5, _ | _⟩⟩⟩⟩⟩
    exact ⟨⟨⟨conn, .cons a1 (.cons a2 (.cons a3 (.cons a4 (.cons ⟨a5.1, nofun⟩ .nil))))⟩, rest⟩,
      _, rfl, a5.2⟩
  · rintro ⟨⟨⟨conn, adm⟩, rest⟩, e5, he5, members⟩
    rcases adm with _ | ⟨a1, _ | ⟨a2, _ | ⟨a3, _ | ⟨a4, _ | ⟨a5, _ | _⟩⟩⟩⟩⟩
    cases he5
    exact ⟨⟨conn, .cons a1 (.cons a2 (.cons a3 (.cons a4 (.cons ⟨a5.1, members⟩ .nil))))⟩, rest⟩

/-- The variants enumerate what they should, but for the one that asks for the membership of its
fifth element the wrong way round: that one does where both ways give the same answer. -/
theorem enumerates_selection_iff (uri tmpPrefix : SegId → ScString) (st : State)
    (run : Reaches arcsKeepType (State.initial uri tmpPrefix) st) (ss : Session)
    (sel : Selection) :
    (∀ lost, EnumeratesSelection lost ss st.memory sel) ↔ sel.Swappable ss st.memory := by
  have quiet := quiet_of_run run
  obtain ⟨reg, hreg⟩ := stdRegistry_some
  rw [forall_congr' fun lost => enumerates_iff_results hreg]
  cases sel with
  | sely3P1 => exact iff_of_true (fun _ _ => mem_sely3P1 quiet hreg) trivial
  | sely3U1p2 => exact iff_of_true (fun _ _ => mem_sely3U1p2 quiet hreg) trivial
  | sely3U1u2p3 => exact iff_of_true (fun _ _ => mem_sely3U1u2p3 quiet hreg) trivial
  | sely5P1 => exact iff_of_true (fun _ _ => mem_sely5P1 quiet hreg) trivial
  | sely5U1u2p3 => exact iff_of_true (fun _ _ => mem_sely5U1u2p3 quiet hreg) trivial
  | sely5U1u2u3p4 => exact iff_of_true (fun _ _ => mem_sely5U1u2u3p4 quiet hreg) trivial
  | sely5U1u2u3u4p5 => exact iff_of_true (fun _ _ => mem_sely5U1u2u3u4p5 quiet hreg) trivial
  | sely5U1p2 t1 s2 t2 s3 t3 s4 t4 s5 t5 =>
    constructor
    · intro mem es e5 he5 candidate
      have same : ∀ lost, filterIsInSet lost st.memory [.addr (some e5), .addr s5] = true ↔
          ∀ set ∈ s5, Member st.memory set e5 := by
        intro lost
        have found := (mem_sely5U1p2 quiet hreg).symm.trans (mem lost (Pattern.values es))
        constructor
        · intro ok
          obtain ⟨es', heq, selects⟩ := found.mp ⟨es, rfl, candidate, e5, he5, ok⟩
          cases values_injective heq
          obtain ⟨-, e5', he5', members⟩ := Selection.selects_fifth.mp selects
          cases he5.symm.trans he5'
          exact members
        · intro members
          obtain ⟨es', heq, -, e5', he5', ok⟩ := found.mpr
            ⟨es, rfl, Selection.selects_fifth.mpr ⟨candidate, e5, he5, members⟩⟩
          cases values_injective heq
          cases he5.symm.trans he5'
          exact ok
      cases s5 with
      | none => cases (same false).mpr nofun
      | some set =>
        refine ⟨set, rfl, ?_⟩
        have := same false
        rw [filterIsInSet_iff quiet] at this
        simpa using this
    · intro swappable lost t
      refine (mem_sely5U1p2 quiet hreg).trans (exists_congr fun es => and_congr_right fun _ => ?_)
      refine .trans ?_ Selection.selects_fifth.symm
      refine and_congr_right fun candidate => exists_congr fun e5 => and_congr_right fun he5 => ?_
      obtain ⟨set, rfl, swap⟩ := swappable es e5 he5 candidate
      rw [filterIsInSet_iff quiet, swap]
      simp

/-- An arc from `1` to itself and one from `1` to that arc; the arc and `1` are in the set `0`. -/
def selectionOps : List Op :=
  [.createEl 0 .node, .createEl 0 .node, .gen3 (some 1) 0 .arc (some 1),
    .gen3 (some 1) 0 .arc (some 2), .gen3 (some 0) 0 memberType (some 2),
    .gen3 (some 0) 0 memberType (some 1)]

theorem enumerates_selection_iff_arc :
    ∃ st, runOps 3 selectionOps (State.initial (fun _ => []) fun _ => []) = some st ∧
      ∀ lost, EnumeratesSelection lost systemSession st.memory
        (.sely5U1u2p3 0 0 0 0 none 0 (some 0) 0) := by
  have hrun : ∃ st, runOps 3 selectionOps (State.initial (fun _ => []) fun _ => []) = some st :=
    ⟨_, rfl⟩
  obtain ⟨st, hst⟩ := hrun
  exact ⟨st, hst,
    (enumerates_selection_iff _ _ st (reaches_keeping (by decide) hst) systemSession _).mpr trivial⟩

/-- The set has the fifth element as a member, and not the other way round: the tuple is
dropped. -/
theorem enumerates_selection_fails : ¬∀ (uri tmpPrefix : SegId → ScString) (st : State),
    Reaches arcsKeepType (State.initial uri tmpPrefix) st → ∀ (ss : Session) (sel : Selection)
    (lost : Bool), EnumeratesSelection lost ss st.memory sel := by
  intro claim
  have hrun : ∃ st g1 g2 g3 ty1 ty2 ty3 ty4 ty5,
      runOps 3 selectionOps (State.initial (fun _ => []) fun _ => []) = some st ∧
      (Arc st.memory 2 1 1 ∧ Arc st.memory 3 1 2 ∧ Arc st.memory 4 0 2 ∧ Arc st.memory 5 0 1) ∧
      (st.memory.addrs 1 = some g1 ∧ st.memory.addrs 2 = some g2 ∧ st.memory.addrs 3 = some g3) ∧
      (st.memory.typeOf 1 = some ty1 ∧ checkScType ty1 0 = true) ∧
      (st.memory.typeOf 2 = some ty2 ∧ checkScType ty2 0 = true) ∧
      (st.memory.typeOf 3 = some ty3 ∧ checkScType ty3 0 = true) ∧
      (st.memory.typeOf 4 = some ty4 ∧ checkScType ty4 memberType = true) ∧
      (st.memory.typeOf 5 = some ty5 ∧ checkScType ty5 memberType = true) ∧
      (segOf st.memory 4 = some 0 ∧ segOf st.memory 0 = some 0) ∧
      (∀ x ∈ [0, 1, 2, 3, 4, 5], st.memory.endOf x .fin ≠ some 0) ∧
      ∀ x, st.memory.addrs (x + 6) = none := by
    refine ⟨_, _, _, _, _, _, _, _, _, rfl, ⟨⟨rfl, rfl⟩, ⟨rfl, rfl⟩, ⟨rfl, rfl⟩, rfl, rfl⟩,
      ⟨rfl, rfl, rfl⟩, ⟨rfl, ?_⟩, ⟨rfl, ?_⟩, ⟨rfl, ?_⟩, ⟨rfl, ?_⟩, ⟨rfl, ?_⟩, ⟨rfl, rfl⟩, ?_,
      fun _ => rfl⟩ <;> decide
  obtain ⟨st, g1, g2, g3, ty1, ty2, ty3, ty4, ty5, hst, ⟨arc2, arc4, led, in5⟩, ⟨hg1, hg2, hg3⟩,
    a1, a2, a4, b4, b5, ⟨seg4, seg0⟩, no_end, hrest⟩ := hrun
  have quiet := quiet_of_run (reaches_keeping (by decide) hst)
  obtain ⟨reg, hreg⟩ := stdRegistry_some
  have selects : (Selection.sely5U1p2 0 0 0 none 0 none 0 (some 0) 0).Selects systemSession
      st.memory [1, 2, 1, 3, 1] := by
    refine ⟨⟨⟨arc2, arc4⟩, ?_⟩, ?_, 2, rfl, 4, led, ⟨ty4, b4⟩, .inl (seg4.trans seg0.symm)⟩
    · refine .cons ⟨⟨ty1, a1⟩, nofun⟩ (.cons ⟨⟨ty2, a2⟩, ?_⟩ (.cons ⟨⟨ty1, a1⟩, nofun⟩
        (.cons ⟨⟨ty3, a4⟩, nofun⟩ (.cons ⟨⟨ty1, a1⟩, ?_⟩ .nil))))
      · rintro _ ⟨⟩
        exact ⟨4, led, ty4, b4⟩
      · rintro _ ⟨⟩
        exact ⟨5, in5, ty5, b5⟩
    · have o1 : InOpened systemSession st.memory 1 := ⟨g1, hg1, rfl⟩
      have o2 : InOpened systemSession st.memory 2 := ⟨g2, hg2, rfl⟩
      have o3 : InOpened systemSession st.memory 3 := ⟨g3, hg3, rfl⟩
      simp [o1, o2, o3]
  have mem := (enumerates_iff_results hreg).mp
    (claim _ _ st (reaches_keeping (by decide) hst) systemSession
      (.sely5U1p2 0 0 0 none 0 none 0 (some 0) 0) false) (Pattern.values [1, 2, 1, 3, 1])
  obtain ⟨es, heq, -, e5, he5, ok⟩ :=
    (mem_sely5U1p2 quiet hreg).mp (mem.mpr ⟨_, rfl, selects⟩)
  cases values_injective heq
  cases he5
  obtain ⟨x, arc, -⟩ := (filterIsInSet_iff quiet).mp ok
  match x, arc with
  | 0, arc | 1, arc | 2, arc | 3, arc | 4, arc | 5, arc => exact no_end _ (by simp) arc.2
  | x + 6, arc =>
    obtain ⟨g, hg, -⟩ := liveAddr_eq_true.mp (quiet.live arc.2).2.1
    cases (hrest x).symm.trans hg

end ScCore.Search
