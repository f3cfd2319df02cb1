import ScCore.Search.StdWorld

/-!
# Triples and five-tuples of elements

The standard searches find exactly the tuples in which arcs have the stated
begins and ends, given elements stand in their places and the masks accept the
types of the others.
-/

namespace ScCore.Search

open Store

def Arc (m : Memory) (x a b : Addr) : Prop := m.endOf x .beg = some a ∧ m.endOf x .fin = some b

inductive Position where
  | fixed (e : Addr)
  | assigned (mask : ScType)
  deriving DecidableEq, Repr

namespace Position

def param : Position → Param
  | fixed e => .addr (some e)
  | assigned mask => .type mask

def Admits (m : Memory) : Position → Addr → Prop
  | fixed e, x => x = e
  | assigned mask, x => Accepts m mask x

@[simp] theorem param_fixed (e : Addr) : (fixed e).param = .addr (some e) := rfl

@[simp] theorem param_assigned (mask : ScType) : (assigned mask).param = .type mask := rfl

end Position

inductive Pattern where
  | faa (e1 : Addr) (t2 t3 : ScType)
  | faf (e1 : Addr) (t2 : ScType) (e3 : Addr)
  | aaf (t1 t2 : ScType) (e3 : Addr)
  | faaaa (e1 : Addr) (t2 t3 t4 t5 : ScType)
  | faaaf (e1 : Addr) (t2 t3 t4 : ScType) (e5 : Addr)
  | fafaa (e1 : Addr) (t2 : ScType) (e3 : Addr) (t4 t5 : ScType)
  | fafaf (e1 : Addr) (t2 : ScType) (e3 : Addr) (t4 : ScType) (e5 : Addr)
  | aaaaf (t1 t2 t3 t4 : ScType) (e5 : Addr)
  | aafaa (t1 t2 : ScType) (e3 : Addr) (t4 t5 : ScType)
  | aafaf (t1 t2 : ScType) (e3 : Addr) (t4 : ScType) (e5 : Addr)
  deriving DecidableEq, Repr

namespace Pattern

open Position

def positions : Pattern → List Position
  | faa e1 t2 t3 => [fixed e1, assigned t2, assigned t3]
  | faf e1 t2 e3 => [fixed e1, assigned t2, fixed e3]
  | aaf t1 t2 e3 => [assigned t1, assigned t2, fixed e3]
  | faaaa e1 t2 t3 t4 t5 => [fixed e1, assigned t2, assigned t3, assigned t4, assigned t5]
  | faaaf e1 t2 t3 t4 e5 => [fixed e1, assigned t2, assigned t3, assigned t4, fixed e5]
  | fafaa e1 t2 e3 t4 t5 => [fixed e1, assigned t2, fixed e3, assigned t4, assigned t5]
  | fafaf e1 t2 e3 t4 e5 => [fixed e1, assigned t2, fixed e3, assigned t4, fixed e5]
  | aaaaf t1 t2 t3 t4 e5 => [assigned t1, assigned t2, assigned t3, assigned t4, fixed e5]
  | aafaa t1 t2 e3 t4 t5 => [assigned t1, assigned t2, fixed e3, assigned t4, assigned t5]
  | aafaf t1 t2 e3 t4 e5 => [assigned t1, assigned t2, fixed e3, assigned t4, fixed e5]

def params (pattern : Pattern) : List Param := pattern.positions.map param

def Given (pattern : Pattern) (e : Addr) : Prop := fixed e ∈ pattern.positions

/-! ### What they should find -/

def Connected (m : Memory) : List Addr → Prop
  | [e1, e2, e3] => Arc m e2 e1 e3
  | [e1, e2, e3, e4, e5] => Arc m e2 e1 e3 ∧ Arc m e4 e5 e2
  | _ => False

def Matches (m : Memory) (pattern : Pattern) (es : List Addr) : Prop :=
  Connected m es ∧ List.Forall₂ (Admits m) pattern.positions es

/-- What the search meets on its way can be seen: an arc from the element at which it is looked
for, the end of an arc in an opened segment. -/
def Visible (ss : Session) (m : Memory) : Pattern → List Addr → Prop
  | faa .., [e1, e2, e3] => Seen ss m e1 e2 ∧ InOpened ss m e3
  | faf .., [e1, e2, e3] | aaf .., [e1, e2, e3] => Seen ss m e3 e2 ∧ InOpened ss m e1
  | faaaa .., [e1, e2, e3, e4, e5] =>
      Seen ss m e1 e2 ∧ InOpened ss m e3 ∧ Seen ss m e2 e4 ∧ InOpened ss m e5
  | faaaf .., [e1, e2, e3, e4, _] => Seen ss m e1 e2 ∧ InOpened ss m e3 ∧ Seen ss m e2 e4
  | aaaaf .., [e1, e2, e3, e4, e5] =>
      Seen ss m e5 e4 ∧ InOpened ss m e2 ∧ InOpened ss m e1 ∧ InOpened ss m e3
  | fafaa .., [e1, e2, e3, e4, e5] | fafaf .., [e1, e2, e3, e4, e5]
  | aafaa .., [e1, e2, e3, e4, e5] | aafaf .., [e1, e2, e3, e4, e5] =>
      Seen ss m e3 e2 ∧ InOpened ss m e1 ∧ Seen ss m e2 e4 ∧ InOpened ss m e5
  | _, _ => False

def values (es : List Addr) : List Param := es.map fun e => .addr (some e)

def Finds (ss : Session) (m : Memory) (pattern : Pattern) (t : List Param) : Prop :=
  ∃ es, t = values es ∧ pattern.Matches m es ∧ pattern.Visible ss m es

end Pattern

theorem values_injective : Function.Injective Pattern.values := by
  apply List.map_injective_iff.mpr
  intro a b same
  cases same
  rfl

section Programs

variable {m : Memory} {ss : Session} {reg : Registry} {lost : Bool} {t : List Param}
  {e1 e3 e5 : Addr} {t1 t2 t3 t4 t5 : ScType} {regs : Registers Param} {i j k : Nat}
  {outs : List (Option Nat)} {name : String} {R P : List Addr → Prop}

theorem exists_three {Q : Type} {A : Q → Addr → Prop} {p1 p2 p3 : Q} :
    (∃ es, R es ∧ (Pattern.Connected m es ∧ List.Forall₂ A [p1, p2, p3] es) ∧ P es) ↔
      ∃ e1 e2 e3, R [e1, e2, e3] ∧ Arc m e2 e1 e3 ∧ A p1 e1 ∧ A p2 e2 ∧ A p3 e3 ∧
        P [e1, e2, e3] := by
  constructor
  · rintro ⟨es, r, ⟨conn, adm⟩, h⟩
    rcases adm with _ | ⟨a1, _ | ⟨a2, _ | ⟨a3, _ | _⟩⟩⟩
    exact ⟨_, _, _, r, conn, a1, a2, a3, h⟩
  · rintro ⟨e1, e2, e3, r, conn, a1, a2, a3, h⟩
    exact ⟨_, r, ⟨conn, .cons a1 (.cons a2 (.cons a3 .nil))⟩, h⟩

theorem exists_five {Q : Type} {A : Q → Addr → Prop} {p1 p2 p3 p4 p5 : Q} :
    (∃ es, R es ∧ (Pattern.Connected m es ∧ List.Forall₂ A [p1, p2, p3, p4, p5] es) ∧ P es) ↔
      ∃ e1 e2 e3 e4 e5, R [e1, e2, e3, e4, e5] ∧ Arc m e2 e1 e3 ∧ Arc m e4 e5 e2 ∧ A p1 e1 ∧
        A p2 e2 ∧ A p3 e3 ∧ A p4 e4 ∧ A p5 e5 ∧ P [e1, e2, e3, e4, e5] := by
  constructor
  · rintro ⟨es, r, ⟨conn, adm⟩, h⟩
    rcases adm with _ | ⟨a1, _ | ⟨a2, _ | ⟨a3, _ | ⟨a4, _ | ⟨a5, _ | _⟩⟩⟩⟩⟩
    exact ⟨_, _, _, _, _, r, conn.1, conn.2, a1, a2, a3, a4, a5, h⟩
  · rintro ⟨e1, e2, e3, e4, e5, r, arc, arc', a1, a2, a3, a4, a5, h⟩
    exact ⟨_, r,
      ⟨⟨arc, arc'⟩, .cons a1 (.cons a2 (.cons a3 (.cons a4 (.cons a5 .nil))))⟩, h⟩

theorem mem_arcTypeOutput (quiet : Quiet m) (hreg : stdRegistry = some reg) :
    t ∈ ((stdWorld lost ss m).nested reg).results decArcTypeOutput [.addr (some e1), .type t2] ↔
      ∃ e2, t = [Param.addr (some e1), .addr (some e2)] ∧ m.endOf e2 .beg = some e1 ∧
        Seen ss m e1 e2 ∧ Accepts m t2 e2 := by
  have houtput := (has_of_stdRegistry hreg).2.2
  constructor
  · intro ht
    obtain ⟨regs, ⟨h0, h1, -⟩, holds, rfl⟩ := begins_of_mem_results rfl ht
    simp only [decArcTypeOutput, List.forall_mem_cons] at holds
    obtain ⟨arcs, check, -⟩ := holds
    obtain ⟨e2, h2, hend, seen⟩ := (holds_arcs quiet (.inr ⟨rfl, rfl⟩) houtput h0).mp arcs
    have accepts := (holds_check quiet (quiet.live hend).2.1 h2 h1).mp check
    exact ⟨e2, by simp [PrgItem.args, decArcTypeOutput, h0, h2], hend, seen, accepts⟩
  · rintro ⟨e2, rfl, hend, seen, accepts⟩
    refine mem_results_of [Param.addr (some e2)] rfl ?_
    simp only [decArcTypeOutput, List.forall_mem_cons]
    refine ⟨?_, ?_, by simp⟩
    · exact (holds_arcs quiet (.inr ⟨rfl, rfl⟩) houtput rfl).mpr ⟨e2, rfl, hend, seen⟩
    · exact (holds_check quiet (quiet.live hend).2.1 rfl rfl).mpr accepts

theorem mem_arcTypeInput (quiet : Quiet m) (hreg : stdRegistry = some reg) :
    t ∈ ((stdWorld lost ss m).nested reg).results decArcTypeInput [.type t2, .addr (some e3)] ↔
      ∃ e2, t = [Param.addr (some e2), .addr (some e3)] ∧ m.endOf e2 .fin = some e3 ∧
        Seen ss m e3 e2 ∧ Accepts m t2 e2 := by
  have hinput := (has_of_stdRegistry hreg).2.1
  constructor
  · intro ht
    obtain ⟨regs, ⟨h0, h1, -⟩, holds, rfl⟩ := begins_of_mem_results rfl ht
    simp only [decArcTypeInput, List.forall_mem_cons] at holds
    obtain ⟨arcs, check, -⟩ := holds
    obtain ⟨e2, h2, hend, seen⟩ := (holds_arcs quiet (.inl ⟨rfl, rfl⟩) hinput h1).mp arcs
    have accepts := (holds_check quiet (quiet.live hend).2.1 h2 h0).mp check
    exact ⟨e2, by simp [PrgItem.args, decArcTypeInput, h1, h2], hend, seen, accepts⟩
  · rintro ⟨e2, rfl, hend, seen, accepts⟩
    refine mem_results_of [Param.addr (some e2)] rfl ?_
    simp only [decArcTypeInput, List.forall_mem_cons]
    refine ⟨?_, ?_, by simp⟩
    · exact (holds_arcs quiet (.inl ⟨rfl, rfl⟩) hinput rfl).mpr ⟨e2, rfl, hend, seen⟩
    · exact (holds_check quiet (quiet.live hend).2.1 rfl rfl).mpr accepts

/-! ## Three elements -/

theorem mem_std3Faa (quiet : Quiet m) (hreg : stdRegistry = some reg) :
    t ∈ ((stdWorld lost ss m).nested reg).results decStd3Faa (Pattern.faa e1 t2 t3).params ↔
      (Pattern.faa e1 t2 t3).Finds ss m t := by
  refine .trans ?_ exists_three.symm
  constructor
  · intro ht
    obtain ⟨regs, ⟨h0, h1, h2, -⟩, holds, rfl⟩ := begins_of_mem_results rfl ht
    simp only [decStd3Faa, List.forall_mem_cons] at holds
    obtain ⟨arcs, fin, check, -⟩ := holds
    obtain ⟨vs, hvs, kept⟩ := (holds_constr hreg .arcTypeOutput
      [.addr (some e1), .type t2] (by simp [h0, h1]) (by decide)).mp arcs
    obtain ⟨e2, rfl, hbeg, seen, accepts⟩ := (mem_arcTypeOutput quiet hreg).mp hvs
    obtain ⟨h3, -⟩ := kept
    obtain ⟨e3, h4, hfin, opened⟩ := (holds_end quiet (.inr ⟨rfl, rfl⟩) h3).mp fin
    have accepts' := (holds_check quiet (quiet.live hfin).1 h4 h2).mp check
    exact ⟨e1, e2, e3, by simp [PrgItem.args, decStd3Faa, h0, h3, h4, Pattern.values],
      ⟨hbeg, hfin⟩, rfl, accepts, accepts', seen, opened⟩
  · rintro ⟨e1, e2, e3, rfl, arc, rfl, accepts, accepts', seen, opened⟩
    refine mem_results_of [Param.addr (some e2), .addr (some e3)] rfl ?_
    simp only [decStd3Faa, List.forall_mem_cons]
    refine ⟨?_, ?_, ?_, by simp⟩
    · exact (holds_constr hreg .arcTypeOutput _ rfl (by decide)).mpr
        ⟨_, (mem_arcTypeOutput quiet hreg).mpr ⟨e2, rfl, arc.1, seen, accepts⟩, rfl, trivial⟩
    · exact (holds_end quiet (.inr ⟨rfl, rfl⟩) rfl).mpr ⟨e3, rfl, arc.2, opened⟩
    · exact (holds_check quiet (quiet.live arc.2).1 rfl rfl).mpr accepts'

theorem mem_std3Faf (quiet : Quiet m) (hinput : reg.deconstruct idAllInput = none) :
    t ∈ ((stdWorld lost ss m).nested reg).results decStd3Faf (Pattern.faf e1 t2 e3).params ↔
      (Pattern.faf e1 t2 e3).Finds ss m t := by
  refine .trans ?_ exists_three.symm
  constructor
  · intro ht
    obtain ⟨regs, ⟨h0, h1, h2, -⟩, holds, rfl⟩ := begins_of_mem_results rfl ht
    simp only [decStd3Faf, List.forall_mem_cons] at holds
    obtain ⟨arcs, beg, equal, check, -⟩ := holds
    obtain ⟨e2, h3, hfin, seen⟩ := (holds_arcs quiet (.inl ⟨rfl, rfl⟩) hinput h2).mp arcs
    obtain ⟨b, h4, hbeg, opened⟩ := (holds_end quiet (.inl ⟨rfl, rfl⟩) h3).mp beg
    have same := holds_equal.mp equal
    rw [h0, h4] at same
    cases same
    have accepts := (holds_check quiet (quiet.live hfin).2.1 h3 h1).mp check
    exact ⟨e1, e2, e3, by simp [PrgItem.args, decStd3Faf, h0, h2, h3, Pattern.values],
      ⟨hbeg, hfin⟩, rfl, accepts, rfl, seen, opened⟩
  · rintro ⟨e1, e2, e3, rfl, arc, rfl, accepts, rfl, seen, opened⟩
    refine mem_results_of [Param.addr (some e2), .addr (some e1)] rfl ?_
    simp only [decStd3Faf, List.forall_mem_cons]
    refine ⟨?_, ?_, ?_, ?_, by simp⟩
    · exact (holds_arcs quiet (.inl ⟨rfl, rfl⟩) hinput rfl).mpr ⟨e2, rfl, arc.2, seen⟩
    · exact (holds_end quiet (.inl ⟨rfl, rfl⟩) rfl).mpr ⟨e1, rfl, arc.1, opened⟩
    · exact holds_equal.mpr rfl
    · exact (holds_check quiet (quiet.live arc.2).2.1 rfl rfl).mpr accepts

theorem mem_std3Aaf (quiet : Quiet m) (hreg : stdRegistry = some reg) :
    t ∈ ((stdWorld lost ss m).nested reg).results decStd3Aaf (Pattern.aaf t1 t2 e3).params ↔
      (Pattern.aaf t1 t2 e3).Finds ss m t := by
  refine .trans ?_ exists_three.symm
  constructor
  · intro ht
    obtain ⟨regs, ⟨h0, h1, h2, -⟩, holds, rfl⟩ := begins_of_mem_results rfl ht
    simp only [decStd3Aaf, List.forall_mem_cons] at holds
    obtain ⟨arcs, beg, check, -⟩ := holds
    obtain ⟨vs, hvs, kept⟩ := (holds_constr hreg .arcTypeInput
      [.type t2, .addr (some e3)] (by simp [h1, h2]) (by decide)).mp arcs
    obtain ⟨e2, rfl, hfin, seen, accepts⟩ := (mem_arcTypeInput quiet hreg).mp hvs
    obtain ⟨h4, -⟩ := kept
    obtain ⟨e1, h3, hbeg, opened⟩ := (holds_end quiet (.inl ⟨rfl, rfl⟩) h4).mp beg
    have accepts' := (holds_check quiet (quiet.live hbeg).1 h3 h0).mp check
    exact ⟨e1, e2, e3, by simp [PrgItem.args, decStd3Aaf, h2, h3, h4, Pattern.values],
      ⟨hbeg, hfin⟩, accepts', accepts, rfl, seen, opened⟩
  · rintro ⟨e1, e2, e3, rfl, arc, accepts, accepts', rfl, seen, opened⟩
    refine mem_results_of [Param.addr (some e1), .addr (some e2)] rfl ?_
    simp only [decStd3Aaf, List.forall_mem_cons]
    refine ⟨?_, ?_, ?_, by simp⟩
    · exact (holds_constr hreg .arcTypeInput _ rfl (by decide)).mpr
        ⟨_, (mem_arcTypeInput quiet hreg).mpr ⟨e2, rfl, arc.2, seen, accepts'⟩, rfl, trivial⟩
    · exact (holds_end quiet (.inl ⟨rfl, rfl⟩) rfl).mpr ⟨e1, rfl, arc.1, opened⟩
    · exact (holds_check quiet (quiet.live arc.1).1 rfl rfl).mpr accepts

theorem holds_three (hreg : stdRegistry = some reg) (c : StdConstraint) {p1 p2 p3 : Position}
    (mem : ∀ {t}, t ∈ ((stdWorld lost ss m).nested reg).results c.source
        [p1.param, p2.param, p3.param] ↔ ∃ es, t = Pattern.values es ∧
      (Pattern.Connected m es ∧ List.Forall₂ (Position.Admits m) [p1, p2, p3] es) ∧ P es)
    (hi : regs i = p1.param) (hj : regs j = p2.param) (hk : regs k = p3.param)
    (nodup : outs.reduceOption.Nodup) :
    ((stdWorld lost ss m).nested reg).Holds ⟨.constr, [i, j, k], outs, name, c.id⟩ regs ↔
      ∃ e1 e2 e3, regs.Takes (.addr none) outs [.addr (some e1), .addr (some e2),
        .addr (some e3)] ∧ Arc m e2 e1 e3 ∧ p1.Admits m e1 ∧ p2.Admits m e2 ∧ p3.Admits m e3 ∧
          P [e1, e2, e3] := by
  refine .trans ?_ (exists_three (R := fun es => regs.Takes (.addr none) outs (Pattern.values es)))
  refine (holds_constr hreg c [p1.param, p2.param, p3.param] (by simp [hi, hj, hk]) nodup).trans ?_
  constructor
  · rintro ⟨vs, hvs, kept⟩
    obtain ⟨es, rfl, facts⟩ := mem.mp hvs
    exact ⟨es, kept, facts⟩
  · rintro ⟨es, kept, facts⟩
    exact ⟨_, mem.mpr ⟨es, rfl, facts⟩, kept⟩

/-! ## Five elements -/

section

variable (quiet : Quiet m) (hreg : stdRegistry = some reg)
include quiet hreg

theorem mem_std5Faaaa :
    t ∈ ((stdWorld lost ss m).nested reg).results decStd5Faaaa
    (Pattern.faaaa e1 t2 t3 t4 t5).params ↔
      (Pattern.faaaa e1 t2 t3 t4 t5).Finds ss m t := by
  refine .trans ?_ exists_five.symm
  constructor
  · intro ht
    obtain ⟨regs, ⟨h0, h1, h2, h3, h4, -⟩, holds, rfl⟩ := begins_of_mem_results rfl ht
    simp only [decStd5Faaaa, List.forall_mem_cons] at holds
    obtain ⟨first, second, -⟩ := holds
    obtain ⟨e1, e2, e3, ⟨h5, h6, -⟩, arc, rfl, a2, a3, s2, o3⟩ :=
      (holds_three hreg .std3Faa (mem_std3Faa quiet hreg) h0 h1 h2 (by decide)).mp first
    obtain ⟨e5, e4, e2, ⟨h8, h7, -⟩, arc', a5, a4, rfl, s4, o5⟩ :=
      (holds_three hreg .std3Aaf (mem_std3Aaf quiet hreg) h4 h3 h5 (by decide)).mp second
    exact ⟨e1, e2, e3, e4, e5, by simp [PrgItem.args, decStd5Faaaa, h0, h5, h6, h7, h8,
      Pattern.values],
      arc, arc', rfl, a2, a3, a4, a5, s2, o3, s4, o5⟩
  · rintro ⟨e1, e2, e3, e4, e5, rfl, arc, arc', rfl, a2, a3, a4, a5, s2, o3, s4, o5⟩
    refine mem_results_of [Param.addr (some e2), .addr (some e3), .addr (some e4),
      .addr (some e5)] rfl ?_
    simp only [decStd5Faaaa, List.forall_mem_cons]
    refine ⟨?_, ?_, by simp⟩
    · exact (holds_three hreg .std3Faa (mem_std3Faa quiet hreg) rfl rfl rfl (by decide)).mpr
        ⟨e1, e2, e3, ⟨rfl, rfl, trivial⟩, arc, rfl, a2, a3, s2, o3⟩
    · exact (holds_three hreg .std3Aaf (mem_std3Aaf quiet hreg) rfl rfl rfl (by decide)).mpr
        ⟨e5, e4, e2, ⟨rfl, rfl, trivial⟩, arc', a5, a4, rfl, s4, o5⟩

theorem mem_std5Fafaa :
    t ∈ ((stdWorld lost ss m).nested reg).results decStd5Fafaa
    (Pattern.fafaa e1 t2 e3 t4 t5).params ↔
      (Pattern.fafaa e1 t2 e3 t4 t5).Finds ss m t := by
  have hinput := (has_of_stdRegistry hreg).2.1
  refine .trans ?_ exists_five.symm
  constructor
  · intro ht
    obtain ⟨regs, ⟨h0, h1, h2, h3, h4, -⟩, holds, rfl⟩ := begins_of_mem_results rfl ht
    simp only [decStd5Fafaa, List.forall_mem_cons] at holds
    obtain ⟨first, second, -⟩ := holds
    obtain ⟨e1, e2, e3, ⟨h5, -⟩, arc, rfl, a2, rfl, s2, o1⟩ :=
      (holds_three hreg .std3Faf (mem_std3Faf quiet hinput) h0 h1 h2 (by decide)).mp first
    obtain ⟨e5, e4, e2, ⟨h7, h6, -⟩, arc', a5, a4, rfl, s4, o5⟩ :=
      (holds_three hreg .std3Aaf (mem_std3Aaf quiet hreg) h4 h3 h5 (by decide)).mp second
    exact ⟨e1, e2, e3, e4, e5, by simp [PrgItem.args, decStd5Fafaa, h0, h2, h5, h6, h7,
      Pattern.values],
      arc, arc', rfl, a2, rfl, a4, a5, s2, o1, s4, o5⟩
  · rintro ⟨e1, e2, e3, e4, e5, rfl, arc, arc', rfl, a2, rfl, a4, a5, s2, o1, s4, o5⟩
    refine mem_results_of [Param.addr (some e2), .addr (some e4), .addr (some e5)] rfl ?_
    simp only [decStd5Fafaa, List.forall_mem_cons]
    refine ⟨?_, ?_, by simp⟩
    · exact (holds_three hreg .std3Faf (mem_std3Faf quiet hinput) rfl rfl rfl (by decide)).mpr
        ⟨e1, e2, e3, ⟨rfl, trivial⟩, arc, rfl, a2, rfl, s2, o1⟩
    · exact (holds_three hreg .std3Aaf (mem_std3Aaf quiet hreg) rfl rfl rfl (by decide)).mpr
        ⟨e5, e4, e2, ⟨rfl, rfl, trivial⟩, arc', a5, a4, rfl, s4, o5⟩

theorem mem_std5Fafaf :
    t ∈ ((stdWorld lost ss m).nested reg).results decStd5Fafaf
    (Pattern.fafaf e1 t2 e3 t4 e5).params ↔
      (Pattern.fafaf e1 t2 e3 t4 e5).Finds ss m t := by
  have hinput := (has_of_stdRegistry hreg).2.1
  refine .trans ?_ exists_five.symm
  constructor
  · intro ht
    obtain ⟨regs, ⟨h0, h1, h2, h3, h4, -⟩, holds, rfl⟩ := begins_of_mem_results rfl ht
    simp only [decStd5Fafaf, List.forall_mem_cons] at holds
    obtain ⟨first, second, -⟩ := holds
    obtain ⟨e1, e2, e3, ⟨h5, -⟩, arc, rfl, a2, rfl, s2, o1⟩ :=
      (holds_three hreg .std3Faf (mem_std3Faf quiet hinput) h0 h1 h2 (by decide)).mp first
    obtain ⟨e5, e4, e2, ⟨h6, -⟩, arc', rfl, a4, rfl, s4, o5⟩ :=
      (holds_three hreg .std3Faf (mem_std3Faf quiet hinput) h4 h3 h5 (by decide)).mp second
    exact ⟨e1, e2, e3, e4, e5, by simp [PrgItem.args, decStd5Fafaf, h0, h2, h4, h5, h6,
      Pattern.values],
      arc, arc', rfl, a2, rfl, a4, rfl, s2, o1, s4, o5⟩
  · rintro ⟨e1, e2, e3, e4, e5, rfl, arc, arc', rfl, a2, rfl, a4, rfl, s2, o1, s4, o5⟩
    refine mem_results_of [Param.addr (some e2), .addr (some e4)] rfl ?_
    simp only [decStd5Fafaf, List.forall_mem_cons]
    refine ⟨?_, ?_, by simp⟩
    · exact (holds_three hreg .std3Faf (mem_std3Faf quiet hinput) rfl rfl rfl (by decide)).mpr
        ⟨e1, e2, e3, ⟨rfl, trivial⟩, arc, rfl, a2, rfl, s2, o1⟩
    · exact (holds_three hreg .std3Faf (mem_std3Faf quiet hinput) rfl rfl rfl (by decide)).mpr
        ⟨e5, e4, e2, ⟨rfl, trivial⟩, arc', rfl, a4, rfl, s4, o5⟩

theorem mem_std5Aaaaf :
    t ∈ ((stdWorld lost ss m).nested reg).results decStd5Aaaaf
    (Pattern.aaaaf t1 t2 t3 t4 e5).params ↔
      (Pattern.aaaaf t1 t2 t3 t4 e5).Finds ss m t := by
  refine .trans ?_ exists_five.symm
  constructor
  · intro ht
    obtain ⟨regs, ⟨h0, h1, h2, h3, h4, -⟩, holds, rfl⟩ := begins_of_mem_results rfl ht
    simp only [decStd5Aaaaf, List.forall_mem_cons] at holds
    obtain ⟨first, beg, check, fin, check', -⟩ := holds
    obtain ⟨e5, e4, e2, ⟨h8, h6, -⟩, arc', rfl, a4, a2, s4, o2⟩ :=
      (holds_three hreg .std3Faa (mem_std3Faa quiet hreg) h4 h3 h1 (by decide)).mp first
    obtain ⟨e1, h5, hbeg, o1⟩ := (holds_end quiet (.inl ⟨rfl, rfl⟩) h6).mp beg
    obtain ⟨e3, h7, hfin, o3⟩ := (holds_end quiet (.inr ⟨rfl, rfl⟩) h6).mp fin
    have a1 := (holds_check quiet (quiet.live hbeg).1 h5 h0).mp check
    have a3 := (holds_check quiet (quiet.live hfin).1 h7 h2).mp check'
    exact ⟨e1, e2, e3, e4, e5, by simp [PrgItem.args, decStd5Aaaaf, h4, h5, h6, h7, h8,
      Pattern.values],
      ⟨hbeg, hfin⟩, arc', a1, a2, a3, a4, rfl, s4, o2, o1, o3⟩
  · rintro ⟨e1, e2, e3, e4, e5, rfl, arc, arc', a1, a2, a3, a4, rfl, s4, o2, o1, o3⟩
    refine mem_results_of [Param.addr (some e1), .addr (some e2), .addr (some e3),
      .addr (some e4)] rfl ?_
    simp only [decStd5Aaaaf, List.forall_mem_cons]
    refine ⟨?_, ?_, ?_, ?_, ?_, by simp⟩
    · exact (holds_three hreg .std3Faa (mem_std3Faa quiet hreg) rfl rfl rfl (by decide)).mpr
        ⟨e5, e4, e2, ⟨rfl, rfl, trivial⟩, arc', rfl, a4, a2, s4, o2⟩
    · exact (holds_end quiet (.inl ⟨rfl, rfl⟩) rfl).mpr ⟨e1, rfl, arc.1, o1⟩
    · exact (holds_check quiet (quiet.live arc.1).1 rfl rfl).mpr a1
    · exact (holds_end quiet (.inr ⟨rfl, rfl⟩) rfl).mpr ⟨e3, rfl, arc.2, o3⟩
    · exact (holds_check quiet (quiet.live arc.2).1 rfl rfl).mpr a3

theorem mem_std5Aafaa :
    t ∈ ((stdWorld lost ss m).nested reg).results decStd5Aafaa
    (Pattern.aafaa t1 t2 e3 t4 t5).params ↔
      (Pattern.aafaa t1 t2 e3 t4 t5).Finds ss m t := by
  refine .trans ?_ exists_five.symm
  constructor
  · intro ht
    obtain ⟨regs, ⟨h0, h1, h2, h3, h4, -⟩, holds, rfl⟩ := begins_of_mem_results rfl ht
    simp only [decStd5Aafaa, List.forall_mem_cons] at holds
    obtain ⟨first, second, -⟩ := holds
    obtain ⟨e1, e2, e3, ⟨h5, h6, -⟩, arc, a1, a2, rfl, s2, o1⟩ :=
      (holds_three hreg .std3Aaf (mem_std3Aaf quiet hreg) h0 h1 h2 (by decide)).mp first
    obtain ⟨e5, e4, e2, ⟨h8, h7, -⟩, arc', a5, a4, rfl, s4, o5⟩ :=
      (holds_three hreg .std3Aaf (mem_std3Aaf quiet hreg) h4 h3 h6 (by decide)).mp second
    exact ⟨e1, e2, e3, e4, e5, by simp [PrgItem.args, decStd5Aafaa, h2, h5, h6, h7, h8,
      Pattern.values],
      arc, arc', a1, a2, rfl, a4, a5, s2, o1, s4, o5⟩
  · rintro ⟨e1, e2, e3, e4, e5, rfl, arc, arc', a1, a2, rfl, a4, a5, s2, o1, s4, o5⟩
    refine mem_results_of [Param.addr (some e1), .addr (some e2), .addr (some e4),
      .addr (some e5)] rfl ?_
    simp only [decStd5Aafaa, List.forall_mem_cons]
    refine ⟨?_, ?_, by simp⟩
    · exact (holds_three hreg .std3Aaf (mem_std3Aaf quiet hreg) rfl rfl rfl (by decide)).mpr
        ⟨e1, e2, e3, ⟨rfl, rfl, trivial⟩, arc, a1, a2, rfl, s2, o1⟩
    · exact (holds_three hreg .std3Aaf (mem_std3Aaf quiet hreg) rfl rfl rfl (by decide)).mpr
        ⟨e5, e4, e2, ⟨rfl, rfl, trivial⟩, arc', a5, a4, rfl, s4, o5⟩

theorem mem_std5Aafaf :
    t ∈ ((stdWorld lost ss m).nested reg).results decStd5Aafaf
    (Pattern.aafaf t1 t2 e3 t4 e5).params ↔
      (Pattern.aafaf t1 t2 e3 t4 e5).Finds ss m t := by
  have hinput := (has_of_stdRegistry hreg).2.1
  refine .trans ?_ exists_five.symm
  constructor
  · intro ht
    obtain ⟨regs, ⟨h0, h1, h2, h3, h4, -⟩, holds, rfl⟩ := begins_of_mem_results rfl ht
    simp only [decStd5Aafaf, List.forall_mem_cons] at holds
    obtain ⟨first, second, -⟩ := holds
    obtain ⟨e1, e2, e3, ⟨h5, h6, -⟩, arc, a1, a2, rfl, s2, o1⟩ :=
      (holds_three hreg .std3Aaf (mem_std3Aaf quiet hreg) h0 h1 h2 (by decide)).mp first
    obtain ⟨e5, e4, e2, ⟨h8, -⟩, arc', rfl, a4, rfl, s4, o5⟩ :=
      (holds_three hreg .std3Faf (mem_std3Faf quiet hinput) h4 h3 h6 (by decide)).mp second
    exact ⟨e1, e2, e3, e4, e5, by simp [PrgItem.args, decStd5Aafaf, h2, h4, h5, h6, h8,
      Pattern.values],
      arc, arc', a1, a2, rfl, a4, rfl, s2, o1, s4, o5⟩
  · rintro ⟨e1, e2, e3, e4, e5, rfl, arc, arc', a1, a2, rfl, a4, rfl, s2, o1, s4, o5⟩
    -- One of the source's registers, the seventh, is never used.
    refine mem_results_of [Param.addr (some e1), .addr (some e2), .addr none,
      .addr (some e4)] rfl ?_
    simp only [decStd5Aafaf, List.forall_mem_cons]
    refine ⟨?_, ?_, by simp⟩
    · exact (holds_three hreg .std3Aaf (mem_std3Aaf quiet hreg) rfl rfl rfl (by decide)).mpr
        ⟨e1, e2, e3, ⟨rfl, rfl, trivial⟩, arc, a1, a2, rfl, s2, o1⟩
    · exact (holds_three hreg .std3Faf (mem_std3Faf quiet hinput) rfl rfl rfl (by decide)).mpr
        ⟨e5, e4, e2, ⟨rfl, trivial⟩, arc', rfl, a4, rfl, s4, o5⟩

end

end Programs

end ScCore.Search
