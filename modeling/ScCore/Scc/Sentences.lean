import ScCore.Scc.ConnectorRuns

/-!
# What a sentence generates

Each pair of a left and a right identifier has its block of elements. The blocks are those of the
written connectors exactly if each pair fits when its turn comes.
-/

namespace ScCore.Scc

open Gen Gen.Generator Gen.Output

/-! ## What is written -/

structure IsComponent (constancy : Constancy) (tuple : Created) (el attr : Addr)
    (arc arc4 : Created) : Prop where
  beg : arc.beg = some tuple.addr
  fin : arc.fin = some el
  type : arc.type = constancy.arcType
  attr : arc4.beg = some attr
  arc : arc4.fin = some arc.addr
  attrType : arc4.type = constancy.arcType

namespace Compiler

variable (cc : Compiler) (c : Connector)

def Tuple (source dest : Ident) (block : List Created) : Prop :=
  ∃ tuple arc₁ attr₁ arc₂ attr₂, block = [tuple, arc₁, attr₁, arc₂, attr₂] ∧
    tuple.type = .node ||| c.constancy.type ∧
    IsComponent c.constancy tuple source.obj.sign cc.n1 arc₁ attr₁ ∧
    IsComponent c.constancy tuple dest.obj.sign cc.n2 arc₂ attr₂

def Connected (source dest : Ident) (block : List Created) : Prop :=
  ∃ arc arcs written, block = arc :: arcs ∧ arc.type = c.type ∧ arc.beg = some source.obj.sign ∧
    arc.fin = some dest.obj.sign ∧ List.Perm written dest.written ∧
    List.Forall₂ (fun (a : LangObject × Constancy) (arc4 : Created) =>
      arc4.beg = some a.1.sign ∧ arc4.fin = some arc.addr ∧ arc4.type = a.2.arcType) written arcs

def Tupled : Prop := c.type.isa .arc = true ∧ ¬ cc.newScAlpha = true

instance : Decidable (cc.Tupled c) := inferInstanceAs (Decidable (_ ∧ _))

def Connects (source dest : Ident) (block : List Created) : Prop :=
  if cc.Tupled c then cc.Tuple c source dest block else Connected c source dest block

def pairs (fromList toList : List Ident) : List (Ident × Ident) :=
  fromList.flatMap fun source => toList.map fun dest => (source, dest)

def connected (ps : List (Ident × Ident)) : List (Ident × Ident) :=
  ps.filter fun p => p.1.obj.type.special.isNone

def Exact (fromList toList : List Ident) (g : Generator) : Prop :=
  ∃ g', cc.scsentence c.type toList fromList g = some g' ∧ ∃ blocks : List (List Created),
    g'.output.created = g.output.created ++ blocks.flatten ∧
      List.Forall₂ (fun p block => cc.Connects c p.1 p.2 block)
        (connected (pairs fromList toList)) blocks

/-! ## When a sentence is compiled to what is written -/

/-- A general arc of the old alphabet has to be constant and without attributes. Otherwise neither
the left element nor an attribute may be a connector. -/
def PairFits (types : Addr → ScType) (source dest : Ident) : Prop :=
  if cc.Tupled c then c.constancy = .const ∧ dest.written = []
  else (types source.obj.sign).isConnector = false ∧
    ∀ a ∈ dest.written, (types a.1.sign).isConnector = false

def after (types : Addr → ScType) (source dest : Ident) : Addr → ScType :=
  if cc.Tupled c then types
  else offeredAll (offeredAll (offeredAll (offered types source.obj.sign) (dest.attrsOf .const))
    (dest.attrsOf .var)) (dest.attrsOf .metavar)

def ConversionFits (types : Addr → ScType) (special : SpecialNode) (dest : Ident) : Prop :=
  dest.obj.type.special = none ∧ dest.obj.type.isScElement = true ∧ c.type = arcMain ∧
    dest.written = [] ∧ special.isAllowed (types dest.obj.sign &&& special.mask) = true

def converted (types : Addr → ScType) (special : SpecialNode) (dest : Ident) : Addr → ScType :=
  match (types dest.obj.sign &&& ~~~ special.mask ||| special.newType).verify with
  | none => types
  | some type => Function.update types dest.obj.sign type

def Fits : (Addr → ScType) → List (Ident × Ident) → Prop
  | _, [] => True
  | types, (source, dest) :: ps =>
      match source.obj.type.special with
      | some special => ConversionFits c types special dest ∧
          Fits (converted types special dest) ps
      | none => cc.PairFits c types source dest ∧ Fits (cc.after c types source dest) ps

/-- `N1_` and `N2_` are nodes. -/
structure Keynodes (g : Generator) : Prop where
  live₁ : cc.n1 < g.output.next
  live₂ : cc.n2 < g.output.next
  node₁ : (g.output.types cc.n1).syntactic = .node
  node₂ : (g.output.types cc.n2).syntactic = .node

end Compiler

def Ident.Live (i : Ident) (n : Nat) : Prop :=
  i.obj.sign < n ∧ ∀ a ∈ i.written, a.1.sign < n

/-! ## One connector -/

theorem Ident.attrsOf_live {i : Ident} {n : Nat} (live : i.Live n) (constancy : Constancy) :
    ∀ attr ∈ i.attrsOf constancy, attr.sign < n := by
  intro attr mem
  obtain ⟨a, written, rfl⟩ := List.mem_map.mp mem
  exact live.2 a (List.mem_of_mem_filter written)

theorem newConnector {g : Generator} (h : AtSentence g) (c : Connector) {source dest : Addr}
    (live : source < g.output.next) (live' : dest < g.output.next) :
    ∃ g', elementNew g c.type = (some g.output.next, g') ∧
      ∃ o', ((g'.output.setBeg g.output.next source).2.setEnd g.output.next dest).2 = o' ∧
        g.output.Outcome (offered g.output.types source)
          [⟨g.output.next, g.fields.activeSegment, c.type,
            if (g.output.types source).isConnector then none else some source, some dest⟩] o' ∧
        g.output.next < o'.next ∧ AtSentence ({ g' with output := o' } : Generator).finish := by
  obtain ⟨-, -, ended⟩ := g.output.ended g.fields.activeSegment c.type_connector live dest
  have outcome := ended.outcome live live'
  have made : generate g c.type = (some g.output.next,
      { g with output := g.output.create g.fields.activeSegment c.type }) := by
    have type : c.type ≠ 0 := by
      intro zero
      have connector := c.type_connector
      rw [zero] at connector
      revert connector
      decide
    rw [generate, if_neg type, createEl, c.verify_type]
  generalize hg₁ : ({ g with output := g.output.create g.fields.activeSegment c.type } :
    Generator) = g₁ at made
  have h₁ : AtSentence g₁ := by
    rw [← hg₁]
    exact ⟨h.set, h.attrs, h.prevEls, h.setArcType, (create_outcome _ _ _).sound h.sound⟩
  have place := h₁.element g.output.next
  have output : (g₁.element g.output.next).output =
      g.output.create g.fields.activeSegment c.type := by
    rw [h₁.element_output, ← hg₁]
  refine ⟨g₁.element g.output.next, ?_, _, rfl, ?_, ?_, ?_⟩
  · rw [elementNew, made]
    dsimp only
    rw [h₁.prevEls, genSentence, enclosed, show (g₁.pass g.output.next).top.set = none from h₁.set]
    rfl
  · rw [output]
    exact outcome
  · rw [output, ended.next]
    exact Nat.lt_succ_self _
  · rw [output]
    exact ⟨place.set, place.attrs, rfl, place.setArcType, outcome.sound h.sound⟩

theorem Compiler.genConnector_connector {cc : Compiler} {c : Connector} {g : Generator}
    (h : AtSentence g) (plain : ¬ cc.Tupled c) {source dest : Ident}
    (live : source.Live g.output.next) (live' : dest.Live g.output.next) :
    ∃ r arc arcs b₁ b₂ b₃, cc.genConnector source c.type dest g = some r ∧ AtSentence r.2 ∧
      g.output.Outcome (cc.after c g.output.types source dest) (arc :: arcs) r.2.output ∧
      arcs = b₁ ++ b₂ ++ b₃ ∧
      arc.type = c.type ∧ arc.fin = some dest.obj.sign ∧
      arc.beg = (if (g.output.types source.obj.sign).isConnector then none
        else some source.obj.sign) ∧
      AttributeArcs g.output.types arc.addr .const (dest.attrsOf .const) b₁ ∧
      AttributeArcs g.output.types arc.addr .var (dest.attrsOf .var) b₂ ∧
      AttributeArcs g.output.types arc.addr .metavar (dest.attrsOf .metavar) b₃ := by
  obtain ⟨g', made, o', ends, outcome, here, place⟩ := newConnector h c live.1 live'.1
  rw [genConnector, dest.attrs_eq]
  dsimp only [Option.bind_eq_bind, Option.bind_some]
  have untupled : ¬ (c.type.isa .arc = true ∧ ¬ cc.newScAlpha = true) := plain
  rw [if_neg untupled, made]
  dsimp only
  rw [ends]
  generalize hg₀ : ({ g' with output := o' } : Generator).finish = g₀ at place ⊢
  have output₀ : g₀.output = o' := by rw [← hg₀]; rfl
  have idle₀ : g₀.top.elements = [] := by rw [← hg₀]; rfl
  rw [← output₀] at outcome here
  -- three passes, each over the attributes of one constancy
  have attrsLive (constancy : Constancy) {n : Nat} (le : g.output.next ≤ n) :
      ∀ attr ∈ dest.attrsOf constancy, attr.sign < n :=
    fun attr mem => Nat.lt_of_lt_of_le (Ident.attrsOf_live live' constancy attr mem) le
  obtain ⟨b₁, outcome₁, place₁, idle₁, all₁⟩ := genAttributes_outcome place idle₀ here .const
    (attrsLive .const outcome.next)
  have so₁ := outcome.trans outcome₁ (foldl_offered_congr outcome.types fun a mem => by
    obtain ⟨attr, inside, rfl⟩ := List.mem_map.mp mem
    exact Ident.attrsOf_live live' _ attr inside)
  have here₁ := Nat.lt_of_lt_of_le here outcome₁.next
  obtain ⟨b₂, outcome₂, place₂, idle₂, all₂⟩ := genAttributes_outcome place₁ idle₁ here₁ .var
    (attrsLive .var so₁.next)
  have so₂ := so₁.trans outcome₂ (foldl_offered_congr so₁.types fun a mem => by
    obtain ⟨attr, inside, rfl⟩ := List.mem_map.mp mem
    exact Ident.attrsOf_live live' _ attr inside)
  have here₂ := Nat.lt_of_lt_of_le here₁ outcome₂.next
  obtain ⟨b₃, outcome₃, place₃, idle₃, all₃⟩ := genAttributes_outcome place₂ idle₂ here₂ .metavar
    (attrsLive .metavar so₂.next)
  have so₃ := so₂.trans outcome₃ (foldl_offered_congr so₂.types fun a mem => by
    obtain ⟨attr, inside, rfl⟩ := List.mem_map.mp mem
    exact Ident.attrsOf_live live' _ attr inside)
  refine ⟨_, ⟨g.output.next, g.fields.activeSegment, c.type,
    if (g.output.types source.obj.sign).isConnector then none else some source.obj.sign,
    some dest.obj.sign⟩, b₁ ++ b₂ ++ b₃, b₁, b₂, b₃, rfl, place₃.finish, ?_, rfl, rfl, rfl, rfl,
    ?_, ?_, ?_⟩
  · rw [after, if_neg plain]
    exact so₃
  · refine all₁.congr fun attr mem => ?_
    rw [outcome.types _ (Ident.attrsOf_live live' _ attr mem), offered_connector]
  · refine all₂.congr fun attr mem => ?_
    rw [so₁.types _ (Ident.attrsOf_live live' _ attr mem), ← offeredAll, offeredAll_connector,
      offered_connector]
  · refine all₃.congr fun attr mem => ?_
    rw [so₂.types _ (Ident.attrsOf_live live' _ attr mem), ← offeredAll, offeredAll_connector,
      ← offeredAll, offeredAll_connector, offered_connector]

/-! ## Blocks of a pair -/

section Blocks

variable {types : Addr → ScType} {arc : Created} {constancy : Constancy} {dest : Ident}
  {attrs : List LangObject} {block b₁ b₂ b₃ : List Created}

theorem AttributeArcs.length_le (h : AttributeArcs types arc.addr constancy attrs block) :
    block.length ≤ attrs.length := by
  rw [← List.Forall₂.length_eq h]
  exact List.length_filter_le _ _

theorem AttributeArcs.all_plain (h : AttributeArcs types arc.addr constancy attrs block)
    (full : block.length = attrs.length) :
    ∀ attr ∈ attrs, (types attr.sign).isConnector = false := by
  rw [← List.Forall₂.length_eq h, List.length_filter_eq_length_iff] at full
  intro attr mem
  simpa using full attr mem

theorem AttributeArcs.arcs
    (h : AttributeArcs types arc.addr constancy (dest.attrsOf constancy) block)
    (plain : ∀ a ∈ dest.written, (types a.1.sign).isConnector = false) :
    List.Forall₂ (fun (a : LangObject × Constancy) (arc4 : Created) =>
      arc4.beg = some a.1.sign ∧ arc4.fin = some arc.addr ∧ arc4.type = a.2.arcType)
      (dest.written.filter (·.2 = constancy)) block := by
  have all : (dest.attrsOf constancy).filter (fun attr => !(types attr.sign).isConnector) =
      dest.attrsOf constancy := by
    refine List.filter_eq_self.mpr fun attr mem => ?_
    obtain ⟨a, written, rfl⟩ := List.mem_map.mp mem
    rw [plain a (List.mem_of_mem_filter written)]
    rfl
  rw [AttributeArcs, all, Ident.attrsOf, List.forall₂_map_left_iff] at h
  have constant : ∀ a ∈ dest.written.filter (·.2 = constancy), a.2 = constancy :=
    fun a mem => of_decide_eq_true (List.mem_filter.mp mem).2
  generalize dest.written.filter (·.2 = constancy) = written at h constant
  induction h with
  | nil => exact .nil
  | cons head _ ih =>
    refine .cons ?_ (ih fun a mem => constant a (List.mem_cons_of_mem _ mem))
    rw [constant _ List.mem_cons_self]
    exact head

/-- Exactly the connectors that nothing refuses are as they are written. -/
theorem connected_iff {c : Connector} {source : Ident} (type : arc.type = c.type)
    (fin : arc.fin = some dest.obj.sign)
    (beg : arc.beg = if (types source.obj.sign).isConnector then none else some source.obj.sign)
    (h₁ : AttributeArcs types arc.addr .const (dest.attrsOf .const) b₁)
    (h₂ : AttributeArcs types arc.addr .var (dest.attrsOf .var) b₂)
    (h₃ : AttributeArcs types arc.addr .metavar (dest.attrsOf .metavar) b₃) :
    ((types source.obj.sign).isConnector = false ∧
        ∀ a ∈ dest.written, (types a.1.sign).isConnector = false) ↔
      Compiler.Connected c source dest (arc :: (b₁ ++ b₂ ++ b₃)) := by
  constructor
  · rintro ⟨sourcePlain, plain⟩
    rw [if_neg (by rw [sourcePlain]; exact Bool.false_ne_true)] at beg
    exact ⟨arc, _, dest.inOrder, rfl, type, beg, fin, dest.inOrder_perm,
      List.rel_append (List.rel_append (h₁.arcs plain) (h₂.arcs plain)) (h₃.arcs plain)⟩
  · rintro ⟨arc', arcs, written, same, -, beg', -, perm, all⟩
    obtain ⟨rfl, rfl⟩ := List.cons.inj same
    have sourcePlain : (types source.obj.sign).isConnector = false := by
      by_contra refused
      rw [beg, if_pos (by simpa using refused)] at beg'
      cases beg'
    refine ⟨sourcePlain, fun a mem => ?_⟩
    have full := (List.Forall₂.length_eq all).symm
    have order := dest.inOrder_perm.length_eq
    have le₁ := h₁.length_le
    have le₂ := h₂.length_le
    have le₃ := h₃.length_le
    rw [perm.length_eq, ← order, Ident.inOrder] at full
    simp only [List.length_append] at full
    simp only [Ident.attrsOf, List.length_map] at le₁ le₂ le₃
    have inside : a.1 ∈ dest.attrsOf a.2 :=
      List.mem_map_of_mem (List.mem_filter.mpr ⟨mem, decide_eq_true rfl⟩)
    obtain ⟨attr, constancy⟩ := a
    cases constancy with
    | const => exact h₁.all_plain (by simp only [Ident.attrsOf, List.length_map]; omega) _ inside
    | var => exact h₂.all_plain (by simp only [Ident.attrsOf, List.length_map]; omega) _ inside
    | metavar => exact h₃.all_plain (by simp only [Ident.attrsOf, List.length_map]; omega) _ inside

end Blocks

/-! ## One tuple -/

namespace Compiler

variable {cc : Compiler} {c : Connector} {g : Generator}

theorem Tupled.general (h : cc.Tupled c) : ∃ constancy, c = .general constancy := by
  cases c with
  | access fuzzyness constancy temporary right =>
    refine absurd h.1 ?_
    cases fuzzyness <;> cases constancy <;> cases temporary <;> cases right <;> decide
  | general constancy => exact ⟨constancy, rfl⟩

theorem node_plain {t : ScType} (h : t.syntactic = .node) : t.isConnector = false := by
  rw [ScType.isConnector_syntactic, h]
  decide

theorem offered_node {types : Addr → ScType} {a : Addr} (h : (types a).syntactic = .node) :
    offered types a = types := by
  have undf : types a &&& .undf = 0 := by
    have mask : ScType.undf = .syntacticMask &&& .undf := by decide
    rw [mask, ← UInt16.and_assoc, show types a &&& .syntacticMask = .node from h]
    decide
  rw [offered, if_neg (by rw [node_plain h]; exact Bool.false_ne_true), if_neg (by simp [undf])]

theorem newTuple (h : AtSentence g) (constancy : Constancy) :
    ∃ g' old, enterSetNew g (.node ||| constancy.type) = (some g.output.next, g') ∧
      g.output.Outcome g.output.types
        [⟨g.output.next, g.fields.activeSegment, .node ||| constancy.type, none, none⟩]
        g'.output ∧
      g'.output.next = g.output.next + 1 ∧
      g'.output.types g.output.next = .node ||| constancy.type ∧
      g'.top.set = some g.output.next ∧ g'.top.prevEls = [] ∧ g'.top.attrs = [] ∧
      g'.fields = g.fields ∧ g'.below = old :: g.below ∧ old.set = none ∧ old.attrs = [] := by
  have made : generate g (.node ||| constancy.type) = (some g.output.next,
      { g with output := g.output.create g.fields.activeSegment (.node ||| constancy.type) }) := by
    rw [generate, if_neg (by cases constancy <;> decide), createEl,
      show (.node ||| constancy.type : ScType).verify = some (.node ||| constancy.type) by
        cases constancy <;> decide]
  generalize hg₁ : ({ g with
    output := g.output.create g.fields.activeSegment (.node ||| constancy.type) } :
    Generator) = g₁ at made
  have h₁ : AtSentence g₁ := by
    rw [← hg₁]
    exact ⟨h.set, h.attrs, h.prevEls, h.setArcType, (create_outcome _ _ _).sound h.sound⟩
  have output : (g₁.element g.output.next).output =
      g.output.create g.fields.activeSegment (.node ||| constancy.type) := by
    rw [h₁.element_output, ← hg₁]
  have below : (g₁.element g.output.next).below = g.below := by
    rw [h₁.element_eq, ← hg₁]
    rfl
  refine ⟨g₁.enterSet g.output.next, _, ?_, ?_, ?_, ?_, rfl, rfl, rfl, ?_,
    congrArg (_ :: ·) below, (h₁.element _).set, (h₁.element _).attrs⟩
  · rw [enterSetNew, made]
  · show g.output.Outcome _ _ (g₁.element g.output.next).output
    rw [output]
    exact create_outcome _ _ _
  · show (g₁.element g.output.next).output.next = _
    rw [output]
    rfl
  · show (g₁.element g.output.next).output.types _ = _
    rw [output]
    exact Function.update_self _ _ _
  · show (g₁.element g.output.next).fields = _
    rw [h₁.element_fields, ← hg₁]

/-- The elements of the tuple that `gen_connector` makes. The arcs of its components have the
type of the generator for sets. -/
def MadeTuple (cc : Compiler) (constancy : Constancy) (source dest : Ident) (n : Addr)
    (block : List Created) : Prop :=
  ∃ tuple arc₁ attr₁ arc₂ attr₂, block = [tuple, arc₁, attr₁, arc₂, attr₂] ∧ tuple.addr = n ∧
    tuple.type = .node ||| constancy.type ∧
    (arc₁.beg = some n ∧ arc₁.fin = some source.obj.sign ∧
      arc₁.type = Constancy.arcType .const ∧ attr₁.beg = some cc.n1 ∧
      attr₁.fin = some arc₁.addr ∧ attr₁.type = constancy.arcType) ∧
    arc₂.beg = some n ∧ arc₂.fin = some dest.obj.sign ∧
      arc₂.type = Constancy.arcType .const ∧ attr₂.beg = some cc.n2 ∧
      attr₂.fin = some arc₂.addr ∧ attr₂.type = constancy.arcType

theorem component {set attr el : Addr} {constancy : Constancy} (inside : g.top.set = some set)
    (prevEls : g.top.prevEls = []) (none : g.top.attrs = []) (sound : g.output.Sound)
    (setArcType : g.fields.setArcType = constPos)
    (attrArcType : g.fields.attrArcType = .arcAccessory ||| .pos ||| constancy.type)
    (live : set < g.output.next) (live' : el < g.output.next) (attrLive : attr < g.output.next)
    (node : (g.output.types set).syntactic = .node)
    (attrNode : (g.output.types attr).syntactic = .node) :
    ∃ arc a, g.output.Outcome g.output.types [arc, a] ((g.attr attr).element el).output ∧
      (arc.beg = some set ∧ arc.fin = some el ∧ arc.type = Constancy.arcType .const ∧
        a.beg = some attr ∧ a.fin = some arc.addr ∧ a.type = constancy.arcType) ∧
      ((g.attr attr).element el).below = g.below ∧
      ((g.attr attr).element el).fields = g.fields ∧
      ((g.attr attr).element el).top.set = some set ∧
      ((g.attr attr).element el).top.prevEls = [] ∧
      ((g.attr attr).element el).top.attrs = [] := by
  obtain ⟨a, outcome, below, fields, set', prevEls', attrs'⟩ := @element_inSet (g.attr attr) el _ _
    ⟨attr, g.fields.attrArcType, g.fields.activeSegment⟩ set inside prevEls
    (show g.top.attrs ++ _ = _ by rw [none]; rfl) sound
    (show g.fields.setArcType.verify = _ by rw [setArcType]; exact verify_constPos)
    (arcType_connector .const) (by rw [attrArcType]; exact verify_arcType constancy)
    (arcType_connector constancy) live live' attrLive (node_plain node) (node_plain attrNode)
  rw [show (g.attr attr).output = g.output from rfl, offered_node node, offered_node attrNode]
    at outcome
  exact ⟨_, _, outcome, ⟨rfl, rfl, rfl, rfl, rfl, rfl⟩, below, fields, set', prevEls', attrs'⟩

theorem genConnector_tuple (h : AtSentence g) (tupled : cc.Tupled c) (keys : cc.Keynodes g)
    {source dest : Ident} (live : source.Live g.output.next) (live' : dest.Live g.output.next)
    (bare : dest.written = []) :
    ∃ r block, cc.genConnector source c.type dest g = some r ∧ AtSentence r.2 ∧
      g.output.Outcome g.output.types block r.2.output ∧
      MadeTuple cc c.constancy source dest g.output.next block := by
  obtain ⟨constancy, rfl⟩ := tupled.general
  have constType :
      ScType.constancyMask &&& (Connector.general constancy).type = constancy.type := by
    cases constancy <;> decide
  rw [genConnector, dest.attrs_eq]
  dsimp only [Option.bind_eq_bind, Option.bind_some]
  have isTuple : (Connector.general constancy).type.isa .arc = true ∧
    ¬ cc.newScAlpha = true := tupled
  rw [if_pos isTuple, if_neg (not_not.mpr (dest.attrs_empty.mpr bare)), constType]
  generalize hg₀ : ({ g with fields := { g.fields with
    attrArcType := .arcAccessory ||| .pos ||| constancy.type,
    arcType := .arcAccessory ||| .pos ||| constancy.type } } : Generator) = g₀
  have h₀ : AtSentence g₀ := by
    rw [← hg₀]
    exact ⟨h.set, h.attrs, h.prevEls, h.setArcType, h.sound⟩
  have output₀ : g₀.output = g.output := by rw [← hg₀]
  have attrArcType₀ : g₀.fields.attrArcType = .arcAccessory ||| .pos ||| constancy.type := by
    rw [← hg₀]
  obtain ⟨g₁, old, made, outcome₁, next₁, type₁, set₁, prevEls₁, attrs₁, fields₁, below₁, oldSet,
    oldAttrs⟩ := newTuple h₀ constancy
  rw [output₀] at made outcome₁ next₁ type₁ set₁
  rw [made]
  dsimp only
  have le₁ := outcome₁.next
  have node₁ : (g₁.output.types g.output.next).syntactic = .node := by
    rw [type₁]
    cases constancy <;> decide
  obtain ⟨arc₁, a₁, outcome₂, ends₁, below₂, fields₂, set₂, prevEls₂, attrs₂⟩ :=
    @component g₁ _ cc.n1 source.obj.sign constancy set₁ prevEls₁ attrs₁
      (outcome₁.sound h.sound) (by rw [fields₁]; exact h₀.setArcType)
      (by rw [fields₁]; exact attrArcType₀) (by rw [next₁]; exact Nat.lt_succ_self _)
      (Nat.lt_of_lt_of_le live.1 le₁) (Nat.lt_of_lt_of_le keys.live₁ le₁) node₁
      (by rw [outcome₁.types _ keys.live₁]; exact keys.node₁)
  generalize (g₁.attr cc.n1).element source.obj.sign = g₂ at *
  have so₂ := outcome₁.trans outcome₂ outcome₁.types
  have le₂ := so₂.next
  obtain ⟨arc₂, a₂, outcome₃, ends₂, below₃, fields₃, set₃, prevEls₃, attrs₃⟩ :=
    @component g₂ _ cc.n2 dest.obj.sign constancy set₂ prevEls₂ attrs₂
      (so₂.sound h.sound) (by rw [fields₂, fields₁]; exact h₀.setArcType)
      (by rw [fields₂, fields₁]; exact attrArcType₀)
      (Nat.lt_of_lt_of_le (by rw [next₁]; exact Nat.lt_succ_self _) outcome₂.next)
      (Nat.lt_of_lt_of_le live'.1 le₂) (Nat.lt_of_lt_of_le keys.live₂ le₂)
      (by rw [outcome₂.types _ (by rw [next₁]; exact Nat.lt_succ_self _)]; exact node₁)
      (by rw [so₂.types _ keys.live₂]; exact keys.node₂)
  generalize (g₂.attr cc.n2).element dest.obj.sign = g₃ at *
  have so₃ := so₂.trans outcome₃ so₂.types
  have belowAll : g₃.below = old :: g₀.below := by rw [below₃, below₂, below₁]
  refine ⟨_, _, rfl, ?_, ?_,
    ⟨g.output.next, g₀.fields.activeSegment, .node ||| constancy.type, none, none⟩, arc₁, a₁, arc₂,
    a₂, rfl, rfl, rfl, ends₁, ends₂⟩
  · have fieldsAll : g₃.fields = g₀.fields := by rw [fields₃, fields₂, fields₁]
    dsimp only
    rw [leaveSet, belowAll]
    refine ⟨?_, ?_, rfl, ?_, so₃.sound h.sound⟩
    · rw [Generator.finish]
      dsimp only
      split <;> exact oldSet
    · rw [Generator.finish]
      dsimp only
      split <;> exact oldAttrs
    · show g₃.fields.setArcType = _
      rw [fieldsAll]
      exact h₀.setArcType
  · dsimp only
    rw [leaveSet, belowAll]
    exact so₃

/-! ## A pair of identifiers -/

def size (cc : Compiler) (c : Connector) (dest : Ident) : Nat :=
  if cc.Tupled c then 5 else dest.written.length + 1

theorem Connects.length {source dest : Ident} {block : List Created}
    (h : cc.Connects c source dest block) : block.length = cc.size c dest := by
  rw [Connects] at h
  rw [size]
  split at h
  case isTrue tupled =>
    obtain ⟨tuple, arc₁, attr₁, arc₂, attr₂, rfl, -⟩ := h
    rw [if_pos tupled]
    rfl
  case isFalse plain =>
    obtain ⟨arc, arcs, written, rfl, -, -, -, perm, all⟩ := h
    rw [if_neg plain, List.length_cons, ← all.length_eq, perm.length_eq]

theorem tuple_iff {source dest : Ident} {n : Addr} {block : List Created}
    (made : MadeTuple cc c.constancy source dest n block) :
    c.constancy = .const ↔ cc.Tuple c source dest block := by
  obtain ⟨tuple, arc₁, attr₁, arc₂, attr₂, rfl, rfl, type, ⟨beg₁, fin₁, type₁, attrBeg₁, attrFin₁,
    attrType₁⟩, beg₂, fin₂, type₂, attrBeg₂, attrFin₂, attrType₂⟩ := made
  constructor
  · intro const
    rw [← const] at type₁ type₂
    exact ⟨tuple, arc₁, attr₁, arc₂, attr₂, rfl, type,
      ⟨beg₁, fin₁, type₁, attrBeg₁, attrFin₁, attrType₁⟩,
      ⟨beg₂, fin₂, type₂, attrBeg₂, attrFin₂, attrType₂⟩⟩
  · rintro ⟨tuple', arc₁', attr₁', arc₂', attr₂', same, -, first, -⟩
    obtain ⟨rfl, tail⟩ := List.cons.inj same
    obtain ⟨rfl, -⟩ := List.cons.inj tail
    exact arcType_injective (first.type.symm.trans type₁)

theorem genConnector_spec (h : AtSentence g) (keys : cc.Tupled c → cc.Keynodes g)
    {source dest : Ident} (live : source.Live g.output.next) (live' : dest.Live g.output.next) :
    (cc.genConnector source c.type dest g = none ∧ ¬ cc.PairFits c g.output.types source dest) ∨
      ∃ r block, cc.genConnector source c.type dest g = some r ∧ AtSentence r.2 ∧
        g.output.Outcome (cc.after c g.output.types source dest) block r.2.output ∧
        block.length ≤ cc.size c dest ∧
        (cc.PairFits c g.output.types source dest ↔ cc.Connects c source dest block) := by
  by_cases tupled : cc.Tupled c
  · by_cases bare : dest.written = []
    · obtain ⟨r, block, run, place, outcome, made⟩ :=
        genConnector_tuple h tupled (keys tupled) live live' bare
      refine .inr ⟨r, block, run, place, ?_, ?_, ?_⟩
      · rw [after, if_pos tupled]
        exact outcome
      · obtain ⟨tuple, arc₁, attr₁, arc₂, attr₂, rfl, -⟩ := made
        rw [size, if_pos tupled]
        exact Nat.le_refl _
      · rw [PairFits, if_pos tupled, Connects, if_pos tupled, ← tuple_iff made]
        exact and_iff_left bare
    · refine .inl ⟨?_, ?_⟩
      · have isTuple : c.type.isa .arc = true ∧ ¬ cc.newScAlpha = true := tupled
        rw [genConnector, dest.attrs_eq]
        dsimp only [Option.bind_eq_bind, Option.bind_some]
        rw [if_pos isTuple, if_pos (mt dest.attrs_empty.mp bare)]
      · rw [PairFits, if_pos tupled]
        exact fun fits => bare fits.2
  · obtain ⟨r, arc, arcs, b₁, b₂, b₃, run, place, outcome, rfl, type, fin, beg, all₁, all₂, all₃⟩ :=
      genConnector_connector h tupled live live'
    refine .inr ⟨r, _, run, place, outcome, ?_, ?_⟩
    · have order := dest.inOrder_perm.length_eq
      have le₁ := all₁.length_le
      have le₂ := all₂.length_le
      have le₃ := all₃.length_le
      rw [Ident.inOrder] at order
      rw [size, if_neg tupled]
      simp only [List.length_append, List.length_cons, Ident.attrsOf, List.length_map] at *
      omega
    · rw [PairFits, if_neg tupled, Connects, if_neg tupled]
      exact connected_iff type fin beg all₁ all₂ all₃

/-! ## A conversion -/

def convert (c : Connector) (special : SpecialNode) (source dest : Ident) (g : Generator) :
    Option Generator := do
  let _ ← isTypeConversion source.obj dest.obj c.type
  let attrs ← dest.attrs
  if ¬ attrs.empty then none else applyTypeConversion special dest.obj g

theorem convert_spec (h : AtSentence g) {special : SpecialNode} {source dest : Ident}
    (kind : source.obj.type.special = some special) :
    (convert c special source dest g = none ∧ ¬ ConversionFits c g.output.types special dest) ∨
      ∃ g', convert c special source dest g = some g' ∧ AtSentence g' ∧
        ConversionFits c g.output.types special dest ∧
        g'.output.created = g.output.created ∧ g'.output.next = g.output.next ∧
        g'.output.types = converted g.output.types special dest := by
  rw [convert, isTypeConversion, dest.attrs_eq, ConversionFits]
  by_cases end' : dest.obj.type.special.isSome
  · refine .inl ⟨by rw [if_pos end']; rfl, fun fits => ?_⟩
    rw [fits.1] at end'
    cases end'
  rw [if_neg end', if_pos (by rw [kind]; rfl)]
  by_cases element : dest.obj.type.isScElement = true
  swap
  · exact .inl ⟨by rw [if_pos element]; rfl, fun fits => element fits.2.1⟩
  rw [if_neg (not_not.mpr element)]
  by_cases main : c.type = arcMain
  swap
  · exact .inl ⟨by rw [if_pos main]; rfl, fun fits => main fits.2.2.1⟩
  rw [if_neg (not_not.mpr main)]
  dsimp only [Option.bind_eq_bind, Option.bind_some]
  by_cases bare : dest.written = []
  swap
  · exact .inl ⟨by rw [if_pos (mt dest.attrs_empty.mp bare)], fun fits => bare fits.2.2.2.1⟩
  rw [if_neg (not_not.mpr (dest.attrs_empty.mpr bare)), applyTypeConversion]
  by_cases allowed : special.isAllowed (g.output.types dest.obj.sign &&& special.mask) = true
  swap
  · exact .inl ⟨by rw [if_neg allowed], fun fits => allowed fits.2.2.2.2⟩
  rw [if_pos allowed]
  refine .inr ⟨_, rfl, ?_⟩
  rw [changeType, converted]
  have plainEnd : dest.obj.type.special = none := Option.not_isSome_iff_eq_none.mp end'
  obtain ⟨type, verified⟩ : ∃ type, (g.output.types dest.obj.sign &&& ~~~ special.mask |||
    special.newType).verify = type := ⟨_, rfl⟩
  rw [verified]
  cases type with
  | none =>
    exact ⟨⟨h.set, h.attrs, h.prevEls, h.setArcType, h.sound⟩,
      ⟨plainEnd, element, main, bare, allowed⟩, rfl, rfl, rfl⟩
  | some type =>
    exact ⟨⟨h.set, h.attrs, h.prevEls, h.setArcType, h.sound⟩,
      ⟨plainEnd, element, main, bare, allowed⟩, rfl, rfl, rfl⟩

end Compiler

end ScCore.Scc
