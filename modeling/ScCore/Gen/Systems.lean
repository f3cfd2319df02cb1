import ScCore.Gen.Generator
import Mathlib.Data.List.Nodup

/-!
# Systems of the generator

What is passed to the generator or generated by it while a system is open is collected in the last
state. A set takes over what has been collected and hands it back, a nested system collects for
itself and adds what it had to the state below.
-/

namespace ScCore.Gen

/-! ## One arc -/

namespace Output

variable {o o' : Output} {src dst : Addr} {seg : SegId} {type : ScType}

structure Arc (o : Output) (src : Addr) (seg : SegId) (type : ScType) (dst : Addr) (c : Created) :
    Prop where
  addr : c.addr = o.next
  seg : c.seg = seg
  type : some c.type = type.verify
  beg : c.beg = some src
  fin : c.fin = some dst

theorem gen3_cases (o : Output) (src : Addr) (seg : SegId) (type : ScType) (dst : Addr) :
    (∃ o', o.gen3 src seg type dst = (none, o') ∧ o'.failed = true) ∨
      ∃ o' c, o.gen3 src seg type dst = (some o.next, o') ∧ o'.failed = o.failed ∧
        o'.created = o.created ++ [c] ∧ o.Arc src seg type dst c ∧ o'.next = o.next + 1 := by
  obtain ⟨verified, hverified⟩ : ∃ verified, type.verify = verified := ⟨_, rfl⟩
  rw [gen3, createEl, hverified]
  cases verified with
  | none => exact .inl ⟨_, rfl, rfl⟩
  | some type' =>
    dsimp only
    by_cases refused : ¬ ((o.create seg type').types o.next).isConnector ∨
        ((o.create seg type').types src).isConnector
    · rw [setBeg, if_pos refused]
      exact .inl ⟨_, rfl, rfl⟩
    obtain ⟨connector, plain⟩ := not_or.mp refused
    have connector := not_not.mp connector
    have other : src ≠ o.next := by
      rintro rfl
      exact plain connector
    have still : ((o.create seg type').putBeg o.next src).types o.next =
        (o.create seg type').types o.next := by
      rw [putBeg]
      dsimp only
      split
      · exact Function.update_of_ne other.symm _ _
      · rfl
    rw [setBeg, if_neg refused]
    dsimp only
    rw [setEnd, if_pos (by rw [still]; exact connector)]
    refine .inr ⟨_, ⟨o.next, seg, type', some src, some dst⟩, rfl, rfl, ?_,
      ⟨rfl, rfl, hverified.symm, rfl, rfl⟩, rfl⟩
    have keeps (change : Created → Created) :
        o.created.map (fun c => if c.addr = o.next then change c else c) = o.created :=
      (List.map_congr_left fun c mem => if_neg (Nat.ne_of_lt (o.fresh c mem))).trans
        (List.map_id' _)
    simp only [putEnd, putBeg, modify, create, List.map_append, List.map_cons, List.map_nil,
      if_true, keeps]

end Output

/-! ## Arcs of a call -/

structure Carries (attrs : List AttrStruct) (src : Addr) (seg : SegId) (type : ScType) (dst : Addr)
    (arc : Created) (rest : List Created) : Prop where
  seg : arc.seg = seg
  type : some arc.type = type.verify
  beg : arc.beg = some src
  fin : arc.fin = some dst
  attrs : List.Forall₂ (fun (a : AttrStruct) c => c.beg = some a.addr ∧ c.fin = some arc.addr ∧
    c.seg = a.seg ∧ some c.type = a.type.verify) attrs rest

namespace Generator

variable {g g' : Generator} {el src dst arc : Addr} {seg : SegId} {type : ScType}

/-- From `g` to `g'` the arcs `arcs` are generated, and left in `tmp` and in the log. -/
structure Generates (g : Generator) (arcs : List Created) (g' : Generator) : Prop where
  created : g'.output.created = g.output.created ++ arcs
  failed : g'.output.failed = g.output.failed
  log : g'.log = g.log ++ arcs.map Created.addr
  top : g'.top = { g.top with tmp := g.top.tmp ++ arcs.map Created.addr }
  below : g'.below = g.below
  fields : g'.fields = g.fields

theorem Generates.nil (g : Generator) : g.Generates [] g :=
  ⟨(List.append_nil _).symm, rfl, (List.append_nil _).symm, by rw [List.map_nil, List.append_nil],
    rfl, rfl⟩

theorem Generates.trans {g'' : Generator} {arcs arcs' : List Created} (h : g.Generates arcs g')
    (h' : g'.Generates arcs' g'') : g.Generates (arcs ++ arcs') g'' where
  created := by rw [h'.created, h.created, List.append_assoc]
  failed := h'.failed.trans h.failed
  log := by rw [h'.log, h.log, List.map_append, List.append_assoc]
  top := by rw [h'.top, h.top, List.map_append, List.append_assoc]
  below := h'.below.trans h.below
  fields := h'.fields.trans h.fields

theorem gen3_spec (g : Generator) (src : Addr) (seg : SegId) (type : ScType) (dst : Addr) :
    (∃ g', g.gen3 src seg type dst = (none, g') ∧ g'.output.failed = true) ∨
      ∃ g' c, g.gen3 src seg type dst = (some c.addr, g') ∧
        g.output.Arc src seg type dst c ∧ g.Generates [c] (g'.pushTmp c.addr) ∧
          g'.output.next = g.output.next + 1 ∧ g'.top = g.top := by
  obtain ⟨o', gen, failed⟩ | ⟨o', c, gen, failed, created, arc, next⟩ :=
    g.output.gen3_cases src seg type dst
  · refine .inl ⟨{ g with output := o' }, ?_, failed⟩
    rw [gen3, gen]
  · refine .inr ⟨{ g with output := o', log := g.log ++ [g.output.next] }, c, ?_, arc,
      ⟨created, failed, ?_, ?_, rfl, rfl⟩, next, rfl⟩
    · rw [gen3, gen, arc.addr]
    · rw [List.map_singleton, arc.addr]
      rfl
    · rfl

theorem genAttrs_spec (arc : Addr) (attrs : List AttrStruct) (g : Generator) :
    (genAttrs arc attrs g).2.output.failed = true ∨
      ∃ rest, (genAttrs arc attrs g).1 = some arc ∧ g.Generates rest (genAttrs arc attrs g).2 ∧
        List.Forall₂ (fun (a : AttrStruct) (c : Created) => c.beg = some a.addr ∧
          c.fin = some arc ∧ c.seg = a.seg ∧ some c.type = a.type.verify) attrs rest := by
  induction attrs generalizing g with
  | nil => exact .inr ⟨[], rfl, .nil g, .nil⟩
  | cons attr attrs ih =>
    rw [genAttrs]
    obtain ⟨g', gen, failed⟩ | ⟨g', c, gen, new, generates, -, -⟩ :=
      g.gen3_spec attr.addr attr.seg attr.type arc
    · rw [gen]
      exact .inl failed
    · rw [gen]
      dsimp only
      obtain failed | ⟨rest, result, more, carries⟩ := ih (g'.pushTmp c.addr)
      · exact .inl failed
      · exact .inr ⟨c :: rest, result, generates.trans more,
          .cons ⟨new.beg, new.fin, new.seg, new.type⟩ carries⟩

theorem internalGenArc_spec (g : Generator) (src dst : Addr) (type : ScType) (seg : SegId) :
    (g.internalGenArc src dst type seg).2.output.failed = true ∨
      ∃ arc rest, (g.internalGenArc src dst type seg).1 = some arc.addr ∧
        g.Generates (arc :: rest) (g.internalGenArc src dst type seg).2 ∧
          Carries g.top.attrs src seg type dst arc rest := by
  rw [internalGenArc]
  obtain ⟨g', gen, failed⟩ | ⟨g', c, gen, new, generates, -, top⟩ := g.gen3_spec src seg type dst
  · rw [gen]
    exact .inl failed
  · rw [gen]
    dsimp only
    rw [top]
    obtain failed | ⟨rest, result, more, carries⟩ :=
      genAttrs_spec c.addr g.top.attrs (g'.pushTmp c.addr)
    · exact .inl failed
    · exact .inr ⟨c, rest, result, generates.trans more,
        ⟨new.seg, new.type, new.beg, new.fin, carries⟩⟩

/-! ## Failures stay -/

theorem gen3_failed (h : g.output.failed = true) :
    (g.gen3 src seg type dst).2.output.failed = true := by
  obtain ⟨g', gen, failed⟩ | ⟨g', c, gen, -, generates, -⟩ := g.gen3_spec src seg type dst
  · rw [gen]
    exact failed
  · rw [gen]
    exact generates.failed.trans h

theorem genAttrs_failed (attrs : List AttrStruct) (h : g.output.failed = true) :
    (genAttrs arc attrs g).2.output.failed = true := by
  induction attrs generalizing g with
  | nil => exact h
  | cons attr attrs ih =>
    have gen := @gen3_failed g attr.addr arc attr.seg attr.type h
    rw [genAttrs]
    generalize g.gen3 attr.addr attr.seg attr.type arc = r at gen
    obtain ⟨result, g'⟩ := r
    cases result with
    | none => exact gen
    | some arc4 => exact ih gen

theorem internalGenArc_failed (h : g.output.failed = true) :
    (g.internalGenArc src dst type seg).2.output.failed = true := by
  have gen := @gen3_failed g src dst seg type h
  rw [internalGenArc]
  generalize g.gen3 src seg type dst = r at gen
  obtain ⟨result, g'⟩ := r
  cases result with
  | none => exact gen
  | some arc => exact genAttrs_failed _ gen

theorem genSentence_failed (prevEls : List Addr) (h : g.output.failed = true) :
    (genSentence el g prevEls).output.failed = true := by
  induction prevEls generalizing g with
  | nil => exact h
  | cons prev prevEls ih => exact ih (internalGenArc_failed h)

theorem enclose_failed (h : g.output.failed = true) : (g.enclose el).output.failed = true := by
  obtain ⟨set, hset⟩ : ∃ set, g.top.set = set := ⟨_, rfl⟩
  rw [enclose, hset]
  cases set with
  | none => exact h
  | some set =>
    have member := @internalGenArc_failed g set el g.fields.activeSegment g.fields.setArcType h
    dsimp only
    generalize g.internalGenArc set el g.fields.setArcType g.fields.activeSegment = r at member
    obtain ⟨result, g'⟩ := r
    cases result <;> exact member

theorem element_failed (h : g.output.failed = true) : (g.element el).output.failed = true :=
  enclose_failed (genSentence_failed _ h)

/-! ## An element -/

def arcsOf (parts : List (Created × List Created)) : List Created :=
  parts.flatMap fun p => p.1 :: p.2

def insertAll (set : List Addr) (as : List Addr) : List Addr :=
  as.foldl (fun set a => set.insert a) set

structure Elements (g : Generator) (el : Addr) (parts : List (Created × List Created))
    (inSet : List Created) (g' : Generator) : Prop where
  sentence : List.Forall₂ (fun prev (p : Created × List Created) =>
    Carries g.top.attrs prev g.top.sentSeg g.top.sentArcType el p.1 p.2) g.top.prevEls parts
  member : ∀ set, g.top.set = some set → ∃ arc rest, inSet = arc :: rest ∧
    Carries g.top.attrs set g.fields.activeSegment g.fields.setArcType el arc rest
  alone : g.top.set = none → inSet = []
  created : g'.output.created = g.output.created ++ (arcsOf parts ++ inSet)
  failed : g'.output.failed = g.output.failed
  log : g'.log = g.log ++ el :: (arcsOf parts ++ inSet).map Created.addr
  below : g'.below = g.below
  fields : g'.fields = g.fields
  top : g'.top = { g.top with
    systemSet := if g.top.sysSign.isSome then insertAll g.top.systemSet
        (g.top.tmp ++ el :: (arcsOf parts ++ inSet).map Created.addr)
      else g.top.systemSet,
    tmp := [], attrs := [], elements := g.top.elements ++ [el] }

theorem genSentence_spec (prevEls : List Addr) (g : Generator) :
    (genSentence el g prevEls).output.failed = true ∨ ∃ parts : List (Created × List Created),
      g.Generates (arcsOf parts) (genSentence el g prevEls) ∧
        List.Forall₂ (fun prev (p : Created × List Created) =>
          Carries g.top.attrs prev g.top.sentSeg g.top.sentArcType el p.1 p.2) prevEls parts := by
  induction prevEls generalizing g with
  | nil => exact .inr ⟨[], .nil g, .nil⟩
  | cons prev prevEls ih =>
    rw [genSentence]
    obtain failed | ⟨arc, rest, -, generates, carries⟩ :=
      g.internalGenArc_spec prev el g.top.sentArcType g.top.sentSeg
    · exact .inl (genSentence_failed prevEls failed)
    · obtain failed | ⟨parts, more, all⟩ :=
        ih (g.internalGenArc prev el g.top.sentArcType g.top.sentSeg).2
      · exact .inl failed
      · refine .inr ⟨(arc, rest) :: parts, generates.trans more, .cons carries ?_⟩
        rw [generates.top] at all
        exact all

theorem enclose_spec (g : Generator) (el : Addr) :
    (g.enclose el).output.failed = true ∨ ∃ member g', g.Generates member g' ∧
      g.enclose el = g'.collect el ∧ (∀ set, g.top.set = some set → ∃ arc rest,
        member = arc :: rest ∧
          Carries g.top.attrs set g.fields.activeSegment g.fields.setArcType el arc rest) ∧
        (g.top.set = none → member = []) := by
  obtain ⟨set, hset⟩ : ∃ set, g.top.set = set := ⟨_, rfl⟩
  rw [enclose, hset]
  cases set with
  | none => exact .inr ⟨[], g, .nil g, rfl, fun _ h => (nomatch h), fun _ => rfl⟩
  | some set =>
    obtain failed | ⟨arc, rest, result, generates, carries⟩ :=
      g.internalGenArc_spec set el g.fields.setArcType g.fields.activeSegment
    · refine .inl ?_
      dsimp only
      generalize g.internalGenArc set el g.fields.setArcType g.fields.activeSegment = r at failed
      obtain ⟨result, g'⟩ := r
      cases result <;> exact failed
    · refine .inr ⟨arc :: rest, _, generates, ?_, ?_, fun h => (nomatch h)⟩
      · dsimp only
        generalize g.internalGenArc set el g.fields.setArcType g.fields.activeSegment = r at result
        obtain ⟨result', g'⟩ := r
        obtain rfl : result' = some arc.addr := result
        rfl
      · rintro set' same
        cases same
        exact ⟨arc, rest, rfl, carries⟩

theorem element_spec (g : Generator) (el : Addr) : (g.element el).output.failed = true ∨
    ∃ parts member, Elements g el parts member (g.element el) := by
  obtain failed | ⟨parts, sentence, all⟩ := @genSentence_spec el g.top.prevEls (g.pass el)
  · exact .inl (enclose_failed failed)
  rw [element]
  generalize genSentence el (g.pass el) g.top.prevEls = g₁ at sentence ⊢
  obtain failed | ⟨member, g₂, generates, collected, inSet, alone⟩ := g₁.enclose_spec el
  · exact .inl failed
  refine .inr ⟨parts, member, ?_⟩
  have whole := sentence.trans generates
  have top₁ := sentence.top
  rw [collected]
  refine ⟨all, fun set hset => ?_, fun none => alone ?_, whole.created, whole.failed, ?_,
    whole.below, whole.fields, ?_⟩
  · obtain ⟨arc, rest, hmember, carries⟩ := inSet set (by rw [top₁]; exact hset)
    rw [top₁, sentence.fields] at carries
    exact ⟨arc, rest, hmember, carries⟩
  · rw [top₁]
    exact none
  · show g₂.log = _
    rw [whole.log, pass, List.append_assoc, List.singleton_append]
  · rw [collect]
    dsimp only
    rw [whole.top, pass, pushTmp]
    simp only [List.append_assoc, List.singleton_append]
    rfl

/-! ## What is collected -/

variable {set as : List Addr} {sign : Addr} {old : RealGenState}

theorem mem_insertAll {x : Addr} : x ∈ insertAll set as ↔ x ∈ set ∨ x ∈ as := by
  induction as generalizing set with
  | nil => simp [insertAll]
  | cons a as ih =>
    have next : insertAll set (a :: as) = insertAll (set.insert a) as := rfl
    rw [next, ih, List.mem_insert_iff, List.mem_cons]
    tauto

theorem nodup_insertAll (nodup : set.Nodup) : (insertAll set as).Nodup := by
  induction as generalizing set with
  | nil => exact nodup
  | cons a as ih => exact ih nodup.insert

/-- From `g` to `g'` the last state has collected what was passed and generated. -/
structure Grows (g g' : Generator) : Prop where
  below : g'.below = g.below
  sysSign : g'.top.sysSign = g.top.sysSign
  set : g'.top.set = g.top.set
  systemSegment : g'.top.systemSegment = g.top.systemSegment
  systemArcType : g'.top.systemArcType = g.top.systemArcType
  tmp : g'.top.tmp = []
  nodup : g.top.systemSet.Nodup → g'.top.systemSet.Nodup
  collected : ∃ more, g'.log = g.log ++ more ∧ (g.top.sysSign.isSome →
    ∀ x, x ∈ g'.top.systemSet ↔ x ∈ g.top.systemSet ∨ x ∈ more)

namespace Grows

theorem refl (idle : g.top.tmp = []) : Grows g g :=
  ⟨rfl, rfl, rfl, rfl, rfl, idle, id, [], (List.append_nil _).symm, fun _ x => by simp⟩

theorem trans {g'' : Generator} (h : Grows g g') (h' : Grows g' g'') : Grows g g'' where
  below := h'.below.trans h.below
  sysSign := h'.sysSign.trans h.sysSign
  set := h'.set.trans h.set
  systemSegment := h'.systemSegment.trans h.systemSegment
  systemArcType := h'.systemArcType.trans h.systemArcType
  tmp := h'.tmp
  nodup nodup := h'.nodup (h.nodup nodup)
  collected := by
    obtain ⟨more, log, mem⟩ := h.collected
    obtain ⟨more', log', mem'⟩ := h'.collected
    refine ⟨more ++ more', by rw [log', log, List.append_assoc], fun sys x => ?_⟩
    rw [mem' (by rw [h.sysSign]; exact sys), mem sys, List.mem_append, or_assoc]

end Grows

theorem Elements.grows {parts : List (Created × List Created)} {inSet : List Created}
    (idle : g.top.tmp = []) (h : Elements g el parts inSet g') : Grows g g' := by
  have top := h.top
  refine ⟨h.below, by rw [top], by rw [top], by rw [top], by rw [top], by rw [top], fun nodup => ?_,
    _, h.log, fun sys x => ?_⟩
  · rw [top]
    dsimp only
    split
    · exact nodup_insertAll nodup
    · exact nodup
  · rw [top]
    dsimp only
    rw [if_pos sys, idle, List.nil_append, mem_insertAll]

theorem attr_grows (idle : g.top.tmp = []) : Grows g (g.attr el) := by
  refine ⟨rfl, rfl, rfl, rfl, rfl, idle, fun nodup => ?_, [el], rfl, fun sys x => ?_⟩
  · rw [attr]
    dsimp only
    split
    · exact nodup.insert
    · exact nodup
  · rw [attr]
    dsimp only
    rw [if_pos sys, List.mem_insert_iff, List.mem_singleton]
    exact or_comm

/-! ## Closing a system -/

structure Members (g : Generator) (old : RealGenState) (sign : Addr) (seg : SegId) (type : ScType)
    (nested : Bool) (as : List Addr) (arcs : List Created) (r : Generator × RealGenState) :
    Prop where
  ends : List.Forall₂ (fun a (c : Created) => c.beg = some sign ∧ c.fin = some a ∧ c.seg = seg ∧
    some c.type = type.verify) as arcs
  created : r.1.output.created = g.output.created ++ arcs
  log : r.1.log = g.log ++ arcs.map Created.addr
  below : r.1.below = g.below
  fields : r.1.fields = g.fields
  state : r.2 = { old with systemSet := r.2.systemSet }
  nodup : old.systemSet.Nodup → r.2.systemSet.Nodup
  collected : nested = true → ∀ x, x ∈ r.2.systemSet ↔
    x ∈ old.systemSet ∨ x ∈ as ∨ x ∈ arcs.map Created.addr

theorem genMembers_failed {nested : Bool} (h : g.output.failed = true) :
    (genMembers sign seg type nested as g old).1.output.failed = true := by
  induction as generalizing g old with
  | nil => exact h
  | cons a as ih =>
    have gen := @gen3_failed g sign a seg type h
    rw [genMembers]
    generalize g.gen3 sign seg type a = r at gen
    obtain ⟨result, g'⟩ := r
    cases result with
    | none => exact ih gen
    | some arc => exact ih gen

theorem genMembers_spec (sign : Addr) (seg : SegId) (type : ScType) (nested : Bool)
    (as : List Addr) (g : Generator) (old : RealGenState) :
    (genMembers sign seg type nested as g old).1.output.failed = true ∨
      ∃ arcs, Members g old sign seg type nested as arcs
        (genMembers sign seg type nested as g old) := by
  induction as generalizing g old with
  | nil =>
    exact .inr ⟨[], .nil, (List.append_nil _).symm, (List.append_nil _).symm, rfl, rfl, rfl, id,
      fun _ x => by simp [genMembers]⟩
  | cons a as ih =>
    rw [genMembers]
    obtain ⟨g', gen, failed⟩ | ⟨g', c, gen, new, generates, -, -⟩ := g.gen3_spec sign seg type a
    · rw [gen]
      exact .inl (genMembers_failed failed)
    · rw [gen]
      dsimp only
      generalize hold : (if nested = true then { old with
        systemSet := (old.systemSet.insert c.addr).insert a } else old) = old'
      have state : old' = { old with systemSet := old'.systemSet } := by
        rw [← hold]
        split <;> rfl
      obtain failed | ⟨arcs, m⟩ := ih g' old'
      · exact .inl failed
      · refine .inr ⟨c :: arcs, .cons ⟨new.beg, new.fin, new.seg, new.type⟩ m.ends, ?_, ?_, ?_, ?_,
          ?_, fun nodup => m.nodup ?_, fun inner x => ?_⟩
        · have created : g'.output.created = g.output.created ++ [c] := generates.created
          rw [m.created, created, List.append_assoc, List.singleton_append]
        · have log : g'.log = g.log ++ [c.addr] := generates.log
          rw [m.log, log, List.append_assoc, List.singleton_append, List.map_cons]
        · exact m.below.trans generates.below
        · exact m.fields.trans generates.fields
        · have same (set : List Addr) :
              { old' with systemSet := set } = { old with systemSet := set } := by rw [state]
          rw [← same]
          exact m.state
        · rw [← hold]
          split
          · exact nodup.insert.insert
          · exact nodup
        · rw [m.collected inner, ← hold, if_pos inner]
          dsimp only
          rw [List.mem_insert_iff, List.mem_insert_iff, List.mem_cons, List.map_cons, List.mem_cons]
          tauto

theorem leaveSystem_failed (h : g.output.failed = true) :
    g.leaveSystem.output.failed = true := by
  rw [leaveSystem]
  split
  · exact genMembers_failed h
  · exact h

theorem leaveSystem_spec {below : List RealGenState} (hbelow : g.below = old :: below)
    (hsign : g.top.sysSign = some sign) :
    g.leaveSystem.output.failed = true ∨ ∃ arcs state, g.leaveSystem.top = state ∧
      Members { g with below := below } old sign g.top.systemSegment g.top.systemArcType
        old.sysSign.isSome g.top.systemSet arcs (g.leaveSystem, state) := by
  have closes : g.leaveSystem =
      { (genMembers sign g.top.systemSegment g.top.systemArcType old.sysSign.isSome
          g.top.systemSet { g with below := below } old).1 with
        top := (genMembers sign g.top.systemSegment g.top.systemArcType old.sysSign.isSome
          g.top.systemSet { g with below := below } old).2 } := by
    rw [leaveSystem, hbelow, hsign]
  obtain failed | ⟨arcs, m⟩ := genMembers_spec sign g.top.systemSegment g.top.systemArcType
    old.sysSign.isSome g.top.systemSet { g with below := below } old
  · refine .inl ?_
    rw [closes]
    exact failed
  · refine .inr ⟨arcs, _, rfl, ?_⟩
    rw [closes]
    exact ⟨m.ends, m.created, m.log, m.below, m.fields, m.state, m.nodup, m.collected⟩

end Generator

/-! ## Runs -/

open Generator

namespace Call

mutual

theorem run_failed : ∀ (c : Call) {g : Generator}, g.output.failed = true →
    (c.run g).output.failed = true
  | create seg type, g, h => by
    rw [run, Output.createEl]
    dsimp only
    split
    · rfl
    · exact h
  | configure _, _, h => h
  | element _, _, h => element_failed h
  | attr _, _, h => h
  | arc, _, h => h
  | finish, _, h => h
  | set sign calls, g, h => by
    have inner : (runAll calls (g.enterSet sign)).output.failed = true :=
      runAll_failed calls (element_failed h)
    rw [run, leaveSet]
    split <;> exact inner
  | system sign calls, g, h => leaveSystem_failed (runAll_failed calls (element_failed h))

theorem runAll_failed : ∀ (cs : List Call) {g : Generator}, g.output.failed = true →
    (runAll cs g).output.failed = true
  | [], _, h => h
  | c :: cs, _, h => runAll_failed cs (run_failed c h)

end

theorem fine_before {cs : List Call} {g : Generator} (h : (runAll cs g).output.failed = false) :
    g.output.failed = false := by
  by_contra failed
  rw [runAll_failed cs (by simpa using failed)] at h
  cases h

theorem fine_before_run (c : Call) {g : Generator} (h : (c.run g).output.failed = false) :
    g.output.failed = false :=
  fine_before (show (runAll [c] g).output.failed = false from h)

end Call

end ScCore.Gen
