import ScCore.Search.MetaIterator
import ScCore.Search.StdConstraints

/-!
# What the standard commands say of a memory

Each command of the standard programs as a condition on the values of its
registers: an arc that is seen from an element, an end in an opened segment, a
type that a mask accepts.
-/

namespace ScCore.Search

open Store

/-- `filter_is_in_set`: the system session searches for an arc of the set to the element.
What comes of a search for no element is not defined, so it may be any answer. -/
def filterIsInSet (lost : Bool) (m : Memory) : List Param → Bool
  | [.addr none, _] => true
  | [.addr (some set), .addr (some element)] =>
      !((sessionWorld systemSession m).results decStd3Faf
        [.addr (some set), .type (ScType.arcAccessory ||| ScType.const ||| ScType.pos),
          .addr (some element)]).isEmpty
  | [.addr (some _), .addr none] => lost
  | _ => false

def stdWorld (lost : Bool) (ss : Session) (m : Memory) : World Param :=
  { sessionWorld ss m with
    filter := fun id args =>
      if id = idIsInSet then filterIsInSet lost m args else (sessionWorld ss m).filter id args
    func := fun id args =>
      if id = idGetCpa then (.type (ScType.const ||| ScType.pos ||| ScType.arcAccessory), true)
      else (sessionWorld ss m).func id args }

namespace Registers

variable {V : Type} {nil : V} {regs regs' : Registers V}

def Takes (nil : V) (regs : Registers V) : List (Option Nat) → List V → Prop
  | [], _ => True
  | none :: outs, vs => Takes nil regs outs vs.tail
  | some r :: outs, vs => regs r = vs.headD nil ∧ Takes nil regs outs vs.tail

theorem takes_iff {outs : List (Option Nat)} {vs : List V} (nodup : outs.reduceOption.Nodup) :
    (∀ r ∈ outs.reduceOption, regs r = regs'.store nil outs vs r) ↔ regs.Takes nil outs vs := by
  induction outs generalizing regs' vs with
  | nil => simp [Takes]
  | cons out outs ih =>
    cases out with
    | none => exact ih nodup
    | some r =>
      rw [List.reduceOption_cons_of_some, List.nodup_cons] at nodup
      rw [List.reduceOption_cons_of_some, List.forall_mem_cons]
      refine and_congr ?_ (ih nodup.2)
      rw [store, store_of_not_mem nodup.1, set_same]

end Registers

/-- The arc is seen from an element: it is stored in the segment of the element or in one that
the session has opened. -/
def Seen (ss : Session) (m : Memory) (a x : Addr) : Prop :=
  segOf m x = segOf m a ∨ ∃ seg, segOf m x = some seg ∧ ss.opened seg = true

def Accepts (m : Memory) (mask : ScType) (x : Addr) : Prop :=
  ∃ type, m.typeOf x = some type ∧ checkScType type mask = true

structure Quiet (m : Memory) : Prop where
  whole : Whole m
  inv : ∃ h, Inv h m ∧ ∀ n, h.node n = 0

theorem quiet_of_run {uri tmpPrefix : SegId → ScString} {st : State}
    (run : Reaches arcsKeepType (State.initial uri tmpPrefix) st) : Quiet st.memory :=
  ⟨whole_of_run run, _, StateInv.reaches run, fun _ => rfl⟩

section Seen

variable {m : Memory} {ss : Session} {s : Endpoint} {a x : Addr} {reg : Registry} {lost : Bool}

theorem Quiet.live (quiet : Quiet m) (h : m.endOf x s = some a) :
    m.liveAddr a = true ∧ m.liveAddr x = true ∧ (∃ g, m.addrs a = some g) := by
  obtain ⟨h', inv, -⟩ := quiet.inv
  obtain ⟨-, -, -, -, -, la, lx⟩ := inv.endOf_some h
  obtain ⟨g, hg, -⟩ := liveAddr_eq_true.mp la
  exact ⟨la, lx, g, hg⟩

theorem mem_metaArcs (quiet : Quiet m) :
    x ∈ (metaArcs ss s m a).getD [] ↔ m.endOf x s = some a ∧ Seen ss m a x := by
  cases hg : m.addrs a with
  | none =>
    simp only [metaArcs, hg, Option.bind_eq_bind, Option.bind_none, Option.getD_none,
      List.not_mem_nil, false_iff, not_and]
    intro hend
    obtain ⟨-, -, g, hg'⟩ := quiet.live hend
    cases hg.symm.trans hg'
  | some g =>
    have hseg : segOf m a = some g.seg := by rw [segOf, hg, Option.map_some]
    rw [metaArcs_eq quiet.whole hg, Option.getD_some, List.mem_append, mem_own quiet.whole hg,
      mem_visible quiet.whole hg ss, ← and_or_left, Seen, hseg]
    refine and_congr_right fun _ => ?_
    by_cases own : segOf m x = some g.seg
    · simp [own]
    · refine or_congr_right (exists_congr fun seg => and_congr_right fun hx => ?_)
      exact and_iff_right fun h => own (h ▸ hx)

theorem nodup_metaArcs (quiet : Quiet m) : ((metaArcs ss s m a).getD []).Nodup := by
  cases hg : m.addrs a with
  | none => simp [metaArcs, hg]
  | some g =>
    rw [metaArcs_eq quiet.whole hg]
    exact nodup_arcs quiet.whole hg ss

variable {regs : Registers Param} {r o t : Nat} {name : String}

variable {id : Nat} {ins : List Nat}

theorem holds_arcs (quiet : Quiet m)
    (hid : (id = idAllInput ∧ s = .fin) ∨ (id = idAllOutput ∧ s = .beg))
    (hreg : reg.deconstruct id = none) (hr : regs r = .addr (some a)) :
    ((stdWorld lost ss m).nested reg).Holds ⟨.constr, [r], [none, some o], name, id⟩ regs ↔
      ∃ x, regs o = .addr (some x) ∧ m.endOf x s = some a ∧ Seen ss m a x := by
  have choices : ((stdWorld lost ss m).nested reg).iterator id [regs r] =
      allArcs ss s m [.addr (some a)] := by
    simp only [World.nested, hreg, hr]
    rcases hid with ⟨rfl, rfl⟩ | ⟨rfl, rfl⟩ <;> rfl
  simp only [World.Holds, World.choices, PrgItem.args, List.map_cons, List.map_nil, choices,
    PrgItem.written, PrgItem.targets, List.reduceOption_cons_of_none,
    List.reduceOption_cons_of_some, List.reduceOption_nil, List.mem_singleton, forall_eq]
  constructor
  · rintro ⟨vs, hvs, kept⟩
    obtain ⟨x, hx, rfl⟩ := List.mem_map.mp hvs
    exact ⟨x, kept.trans (Registers.set_same _ _ _), (mem_metaArcs quiet).mp hx⟩
  · rintro ⟨x, ho, harc⟩
    refine ⟨_, List.mem_map_of_mem ((mem_metaArcs quiet).mpr harc), ?_⟩
    exact ho.trans (Registers.set_same _ _ _).symm

theorem holds_filter :
    ((stdWorld lost ss m).nested reg).Holds ⟨.filter, ins, [], name, id⟩ regs ↔
      (stdWorld lost ss m).filter id (ins.map regs) = true := by
  simp only [World.Holds, World.choices, PrgItem.args, PrgItem.written, PrgItem.targets,
    List.reduceOption_nil, List.not_mem_nil, false_implies, implies_true, and_true]
  change (∃ vs, vs ∈ if (stdWorld lost ss m).filter id _ = true then [[]] else []) ↔ _
  split <;> simp [*]

theorem holds_check {mask : ScType} (quiet : Quiet m) (live : m.liveAddr a = true)
    (hr : regs r = .addr (some a)) (ht : regs t = .type mask) :
    ((stdWorld lost ss m).nested reg).Holds ⟨.filter, [r, t], [], name, idCheckType⟩ regs ↔
      Accepts m mask a := by
  obtain ⟨h, inv, -⟩ := quiet.inv
  rw [holds_filter]
  change filterCheckType m [regs r, regs t] = true ↔ _
  rw [hr, ht, filterCheckType, inv.getType_system live, Option.any_eq_true]
  exact exists_congr fun type => and_congr_left' Iff.rfl

theorem holds_equal :
    ((stdWorld lost ss m).nested reg).Holds ⟨.filter, [r, t], [], name, idEqual2⟩ regs ↔
      regs r = regs t := by
  rw [holds_filter]
  change (regs r == regs t) = true ↔ _
  exact beq_iff_eq

theorem getEnd_system_iff (quiet : Quiet m) :
    systemSession.getEnd s m (some x) = some (some a) ↔ m.endOf x s = some a := by
  obtain ⟨h, inv, -⟩ := quiet.inv
  cases live : m.liveAddr x with
  | true => rw [inv.getEnd_system live, Option.some.injEq]
  | false =>
    rw [inv.endOf_dead live]
    simp only [reduceCtorEq, iff_false]
    intro hend
    have access : systemSession.access m (some x) = some rvOk := by
      simp only [Session.getEnd, Option.bind_eq_bind] at hend
      obtain ⟨rv, hrv, hend⟩ := Option.bind_eq_some_iff.mp hend
      rw [hrv]
      split at hend
      · cases hend
      · next hok => rw [not_not.mp hok]
    obtain ⟨g, hg, hd, -⟩ := access_ok.mp access
    rw [liveAddr_eq_true.mpr ⟨g, hg, hd⟩] at live
    cases live

theorem holds_end (quiet : Quiet m)
    (hid : (id = idGetBeg ∧ s = .beg) ∨ (id = idGetEnd ∧ s = .fin))
    (hr : regs r = .addr (some x)) :
    ((stdWorld lost ss m).nested reg).Holds ⟨.func, [r], [some o], name, id⟩ regs ↔
      ∃ a, regs o = .addr (some a) ∧ m.endOf x s = some a ∧ InOpened ss m a := by
  have choices : ((stdWorld lost ss m).nested reg).choices ⟨.func, [r], [some o], name, id⟩
      [regs r] = if (funcGetEnd s m [.addr (some x)]).2 && (stdWorld lost ss m).passes
        (funcGetEnd s m [.addr (some x)]).1 then [[(funcGetEnd s m [.addr (some x)]).1]] else
          [] := by
    rw [hr]
    rcases hid with ⟨rfl, rfl⟩ | ⟨rfl, rfl⟩ <;> rfl
  simp only [World.Holds, PrgItem.args, List.map_cons, List.map_nil, choices,
    PrgItem.written, PrgItem.targets, List.take_succ_cons, List.take_nil,
    List.reduceOption_cons_of_some, List.reduceOption_nil, List.mem_singleton, forall_eq]
  have passes : ∀ a, (stdWorld lost ss m).passes (.addr (some a)) = true ↔ InOpened ss m a := by
    intro a
    change (m.addrs a).any (fun g => ss.opened g.seg) = true ↔ _
    rw [Option.any_eq_true]
    rfl
  constructor
  · rintro ⟨vs, hvs, kept⟩
    split at hvs
    · next hok =>
      obtain rfl := List.mem_singleton.mp hvs
      obtain ⟨ok, hpass⟩ := Bool.and_eq_true_iff.mp hok
      simp only [funcGetEnd] at ok hpass kept
      split at ok
      · next a hend =>
        simp only [hend] at hpass kept
        exact ⟨a, kept.trans (Registers.set_same _ _ _), (getEnd_system_iff quiet).mp hend,
          (passes a).mp hpass⟩
      · cases ok
    · cases hvs
  · rintro ⟨a, ho, hend, hopen⟩
    have found : funcGetEnd s m [.addr (some x)] = (.addr (some a), true) := by
      simp only [funcGetEnd, (getEnd_system_iff quiet).mpr hend]
    rw [found, (passes a).mpr hopen]
    exact ⟨_, List.mem_singleton_self _, ho.trans (Registers.set_same _ _ _).symm⟩

theorem holds_constr (hreg : stdRegistry = some reg) (c : StdConstraint)
    {outs : List (Option Nat)} (args : List Param) (hargs : ins.map regs = args)
    (nodup : outs.reduceOption.Nodup) :
    ((stdWorld lost ss m).nested reg).Holds ⟨.constr, ins, outs, name, c.id⟩ regs ↔
      ∃ vs ∈ ((stdWorld lost ss m).nested reg).results c.source args,
        regs.Takes (.addr none) outs vs := by
  simp only [World.Holds, World.choices, PrgItem.args, hargs, nested_iterator hreg]
  exact exists_congr fun vs => and_congr_right fun _ => Registers.takes_iff nodup

end Seen

end ScCore.Search
