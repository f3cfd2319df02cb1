import ScCore.Gen.Systems

/-!
# Members of a system

Calls that are nested well keep what the states below have, so a system has collected all that was
passed and generated since it was opened when it is closed.
-/

namespace ScCore.Gen

open Generator

namespace Generator

variable {g g' : Generator}

/-- From `g` to `g'` a state was pushed and popped: what is below has only collected. -/
def Returns (g g' : Generator) : Prop :=
  Grows g g' ∧ ∃ set, g'.top = { g.top with systemSet := set }

theorem Grows.leaveSet {set : Addr} (idle : g.top.tmp = [])
    (h : Grows { g with
      top := { RealGenState.new with
        sysSign := g.top.sysSign, systemSet := g.top.systemSet, set := some set },
      below := { g.top with systemSet := [] } :: g.below } g') : Returns g g'.leaveSet := by
  have below : g'.below = { g.top with systemSet := [] } :: g.below := h.below
  have sysSign : g'.top.sysSign = g.top.sysSign := h.sysSign
  have leaves : g'.leaveSet = { g' with
      top := { g.top with
        systemSet := if g.top.sysSign.isSome then g'.top.systemSet else [] },
      below := g.below } := by
    rw [Generator.leaveSet, below, sysSign]
    dsimp only
    split <;> rfl
  rw [leaves]
  refine ⟨⟨rfl, rfl, rfl, rfl, rfl, idle, fun nodup => ?_, ?_⟩, _, rfl⟩
  · dsimp only
    split
    · exact h.nodup nodup
    · exact .nil
  · obtain ⟨more, log, mem⟩ := h.collected
    refine ⟨more, log, fun sys x => ?_⟩
    dsimp only
    rw [if_pos sys]
    exact mem sys x

structure Closed (g g' : Generator) (sign : Addr) (inside : List Addr) (arcs : List Created) :
    Prop where
  nodup : inside.Nodup
  members : ∀ x, x ∈ inside ↔ x ∈ g'.log.drop g.log.length
  ends : List.Forall₂ (fun a (c : Created) => c.beg = some sign ∧ c.fin = some a ∧
    c.seg = g.fields.activeSegment ∧ some c.type = g.fields.systemArcType.verify) inside arcs
  created : g'.leaveSystem.output.created = g'.output.created ++ arcs

theorem Grows.leaveSystem {sign : Addr} (idle : g.top.tmp = [])
    (h : Grows { g with
      top := { RealGenState.new with
        sysSign := some sign, systemSegment := g.fields.activeSegment,
        systemArcType := g.fields.systemArcType },
      below := g.top :: g.below } g')
    (fine : g'.leaveSystem.output.failed = false) :
    Returns g g'.leaveSystem ∧ ∃ inside arcs, Closed g g' sign inside arcs := by
  have below : g'.below = g.top :: g.below := h.below
  have sysSign : g'.top.sysSign = some sign := h.sysSign
  have segment : g'.top.systemSegment = g.fields.activeSegment := h.systemSegment
  have type : g'.top.systemArcType = g.fields.systemArcType := h.systemArcType
  obtain failed | ⟨arcs, state, top, m⟩ := leaveSystem_spec below sysSign
  · rw [failed] at fine
    cases fine
  obtain ⟨more, log, mem⟩ := h.collected
  have inSystem (x : Addr) : x ∈ g'.top.systemSet ↔ x ∈ more := by
    rw [mem rfl x]
    exact ⟨fun h => h.resolve_left List.not_mem_nil, .inr⟩
  have state' : state = { g.top with systemSet := state.systemSet } := m.state
  have ends := m.ends
  rw [segment, type] at ends
  refine ⟨⟨⟨m.below, ?_, ?_, ?_, ?_, ?_, fun nodup => ?_, more ++ arcs.map Created.addr, ?_, ?_⟩,
    _, top.trans state'⟩, g'.top.systemSet, arcs, ⟨h.nodup .nil, fun x => ?_, ends, m.created⟩⟩
  · rw [top, state']
  · rw [top, state']
  · rw [top, state']
  · rw [top, state']
  · rw [top, state']
    exact idle
  · rw [top]
    exact m.nodup nodup
  · rw [m.log, log, List.append_assoc]
  · intro sys x
    rw [top, m.collected sys x, inSystem, List.mem_append]
  · rw [log, List.drop_left, inSystem]

theorem element_grows {el : Addr} (idle : g.top.tmp = [])
    (fine : (g.element el).output.failed = false) :
    Grows g (g.element el) ∧ (g.element el).top.attrs = [] := by
  obtain failed | ⟨parts, member, elements⟩ := g.element_spec el
  · rw [failed] at fine
    cases fine
  · refine ⟨elements.grows idle, ?_⟩
    rw [elements.top]

end Generator

namespace Call

variable {g : Generator} {sign : Addr} {calls : List Call}

theorem inside_set (fine : ((set sign calls).run g).output.failed = false) :
    (runAll calls (g.enterSet sign)).output.failed = false := by
  rw [run, leaveSet] at fine
  split at fine <;> exact fine

theorem inside_system (fine : ((system sign calls).run g).output.failed = false) :
    (runAll calls (g.enterSystem sign)).output.failed = false := by
  by_contra failed
  rw [run, leaveSystem_failed (by simpa using failed)] at fine
  cases fine

mutual

theorem run_grows : ∀ (c : Call) {g : Generator}, g.top.tmp = [] →
    (c.run g).output.failed = false → Grows g (c.run g)
  | create _ _, _, idle, _ => ⟨rfl, rfl, rfl, rfl, rfl, idle, id, [], (List.append_nil _).symm,
      fun _ x => by simp [run]⟩
  | configure _, _, idle, _ => ⟨rfl, rfl, rfl, rfl, rfl, idle, id, [], (List.append_nil _).symm,
      fun _ x => by simp [run]⟩
  | element _, _, idle, fine => (element_grows idle fine).1
  | attr _, _, idle, _ => attr_grows idle
  | arc, _, idle, _ => ⟨rfl, rfl, rfl, rfl, rfl, idle, id, [], (List.append_nil _).symm,
      fun _ x => by simp [run, Generator.arc]⟩
  | finish, _, idle, _ => ⟨rfl, rfl, rfl, rfl, rfl, idle, id, [], (List.append_nil _).symm,
      fun _ x => by simp [run, Generator.finish]⟩
  | set sign calls, g, idle, fine => by
    have whole := inside_set fine
    obtain ⟨opens, -⟩ := element_grows idle (fine_before (g := g.enterSet sign) whole)
    exact opens.trans (Grows.leaveSet opens.tmp (runAll_grows calls rfl whole)).1
  | system sign calls, g, idle, fine => by
    have whole := inside_system fine
    obtain ⟨opens, -⟩ := element_grows idle (fine_before (g := g.enterSystem sign) whole)
    exact opens.trans (Grows.leaveSystem opens.tmp (runAll_grows calls rfl whole) fine).1.1

theorem runAll_grows : ∀ (cs : List Call) {g : Generator}, g.top.tmp = [] →
    (runAll cs g).output.failed = false → Grows g (runAll cs g)
  | [], _, idle, _ => Grows.refl idle
  | c :: cs, _, idle, fine => by
    have first := run_grows c idle (fine_before fine)
    exact first.trans (runAll_grows cs first.tmp fine)

end

def pending (attrs : List Addr) : Call → List Addr
  | .attr el => attrs ++ [el]
  | .element _ | .set _ _ | .system _ _ => []
  | .create _ _ | .configure _ | .arc | .finish => attrs

theorem run_attrs (c : Call) {g : Generator} (idle : g.top.tmp = [])
    (fine : (c.run g).output.failed = false) :
    (c.run g).top.attrs.map AttrStruct.addr = pending (g.top.attrs.map AttrStruct.addr) c := by
  cases c with
  | create | configure | arc | finish => rfl
  | element el => exact congrArg _ (element_grows idle fine).2
  | attr el => exact List.map_append
  | set sign calls =>
    have whole := inside_set fine
    obtain ⟨opens, none⟩ := element_grows idle (fine_before (g := g.enterSet sign) whole)
    obtain ⟨-, set, top⟩ := Grows.leaveSet opens.tmp (runAll_grows calls rfl whole)
    refine congrArg (List.map AttrStruct.addr) ((congrArg RealGenState.attrs top).trans none)
  | system sign calls =>
    have whole := inside_system fine
    obtain ⟨opens, none⟩ := element_grows idle (fine_before (g := g.enterSystem sign) whole)
    obtain ⟨⟨-, set, top⟩, -⟩ := Grows.leaveSystem opens.tmp (runAll_grows calls rfl whole) fine
    exact congrArg (List.map AttrStruct.addr) ((congrArg RealGenState.attrs top).trans none)

theorem runAll_attrs (cs : List Call) {g : Generator} (idle : g.top.tmp = [])
    (fine : (runAll cs g).output.failed = false) :
    (runAll cs g).top.attrs.map AttrStruct.addr =
      cs.foldl pending (g.top.attrs.map AttrStruct.addr) := by
  induction cs generalizing g with
  | nil => rfl
  | cons c cs ih =>
    have before : (c.run g).output.failed = false := fine_before fine
    rw [runAll, ih (run_grows c idle before).tmp fine, run_attrs c idle before, List.foldl_cons]

end Call

inductive Reached : Generator → Prop where
  | new (seg : SegId) (next : Addr) (types : Addr → ScType) :
      Reached (.new seg (.start next types))
  | run {g : Generator} (c : Call) : Reached g → Reached (c.run g)
  | enterSet {g : Generator} (sign : Addr) : Reached g → Reached (g.enterSet sign)
  | enterSystem {g : Generator} (sign : Addr) : Reached g → Reached (g.enterSystem sign)

theorem Reached.idle {g : Generator} (h : Reached g) (fine : g.output.failed = false) :
    g.top.tmp = [] := by
  induction h with
  | new => rfl
  | run c _ ih =>
    have before := Call.fine_before_run c fine
    exact (Call.run_grows c (ih before) fine).tmp
  | enterSet | enterSystem => rfl

open Call in
/-- A system is closed with one arc of its sign to each of the elements that were passed or
generated since it was opened, and in a set each element gets one arc of the set with the
attributes that wait for it. -/
theorem systems_complete {g : Generator} (h : Reached g) (sign : Addr) (calls : List Call) :
    (((Call.system sign calls).run g).output.failed = false →
      ∃ inside arcs, Closed (g.enterSystem sign) (runAll calls (g.enterSystem sign)) sign inside
        arcs) ∧
    ∀ el, ((runAll calls (g.enterSet sign)).element el).output.failed = false →
      ∃ parts arc rest,
        Elements (runAll calls (g.enterSet sign)) el parts (arc :: rest)
          ((runAll calls (g.enterSet sign)).element el) ∧
        Carries (runAll calls (g.enterSet sign)).top.attrs sign
          (runAll calls (g.enterSet sign)).fields.activeSegment
          (runAll calls (g.enterSet sign)).fields.setArcType el arc rest ∧
        (runAll calls (g.enterSet sign)).top.attrs.map AttrStruct.addr =
          calls.foldl pending [] := by
  refine ⟨fun fine => ?_, fun el fine => ?_⟩
  · have whole := inside_system fine
    have opened : (g.element sign).output.failed = false :=
      fine_before (g := g.enterSystem sign) whole
    have idle := h.idle (fine_before_run (.element sign) opened)
    obtain ⟨opens, -⟩ := element_grows idle opened
    obtain ⟨-, inside, arcs, closed⟩ :=
      Grows.leaveSystem opens.tmp (runAll_grows calls rfl whole) fine
    exact ⟨inside, arcs, closed.nodup, closed.members, closed.ends, closed.created⟩
  · have whole : (runAll calls (g.enterSet sign)).output.failed = false :=
      fine_before_run (.element el) fine
    have grows := runAll_grows calls rfl whole
    obtain failed | ⟨parts, member, elements⟩ := (runAll calls (g.enterSet sign)).element_spec el
    · rw [failed] at fine
      cases fine
    · obtain ⟨arc, rest, rfl, carries⟩ := elements.member sign grows.set
      exact ⟨parts, arc, rest, elements, carries, runAll_attrs calls rfl whole⟩

/-- A set inside of a system, with an attribute. -/
theorem systems_complete_sample :
    (∃ inside arcs, Closed ((Generator.new 0 (.start 9 fun _ => .node ||| .const)).enterSystem 0)
      (Call.runAll [.element 1, .set 2 [.attr 3, .element 4]]
        ((Generator.new 0 (.start 9 fun _ => .node ||| .const)).enterSystem 0)) 0 inside arcs) ∧
    ((Call.runAll [.attr 3, .element 4, .attr 5]
      ((Generator.new 0 (.start 9 fun _ => .node ||| .const)).enterSet 2)).top.attrs.map
        AttrStruct.addr) = [5] := by
  have reached : Reached (.new 0 (.start 9 fun _ => .node ||| .const)) := .new _ _ _
  refine ⟨(systems_complete reached 0 [.element 1, .set 2 [.attr 3, .element 4]]).1
    (by decide +kernel), ?_⟩
  obtain ⟨-, -, -, -, -, attrs⟩ :=
    (systems_complete reached 2 [.attr 3, .element 4, .attr 5]).2 6 (by decide +kernel)
  exact attrs

/-- The sign of a system that was closed before has two arcs to what is in both. -/
theorem not_one_arc : ¬ ∀ g, Reached g → ∀ sign calls,
    ((Call.system sign calls).run g).output.failed = false →
    ∀ x ∈ (Call.runAll calls (g.enterSystem sign)).log.drop (g.enterSystem sign).log.length,
      (((Call.system sign calls).run g).output.created.filter fun c =>
        c.beg = some sign ∧ c.fin = some x ∧
          some c.type = g.fields.systemArcType.verify).length = 1 := by
  intro all
  have one := all _ (.run (.system 0 [.element 1]) (.new 0 2 fun _ => .node ||| .const)) 0
    [.element 1] (by decide +kernel) 1 (by decide +kernel)
  revert one
  decide +kernel

end ScCore.Gen
