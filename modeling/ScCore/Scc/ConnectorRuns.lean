import ScCore.Gen.Outcome
import ScCore.Scc.Connectors

/-!
# Runs of gen_connector

Where a sentence stands nothing waits in the last state of the generator: what `gen_connector`
creates there is known exactly, also when a begin is refused.
-/

namespace ScCore.Scc

open Gen Gen.Generator Gen.Output

structure AtSentence (g : Generator) : Prop where
  set : g.top.set = none
  attrs : g.top.attrs = []
  prevEls : g.top.prevEls = []
  setArcType : g.fields.setArcType = constPos
  sound : g.output.Sound

namespace AtSentence

variable {g : Generator} {el : Addr}

theorem new (seg : SegId) (next : Addr) (types : Addr → ScType) :
    AtSentence (.new seg (.start next types)) :=
  ⟨rfl, rfl, rfl, rfl, fun _ mem => nomatch mem⟩

section

variable (h : AtSentence g)
include h

theorem element_eq (el : Addr) : g.element el = (g.pass el).collect el := by
  rw [element, h.prevEls, genSentence, enclose,
    show (g.pass el).top.set = none from h.set]

theorem element (el : Addr) : AtSentence (g.element el) := by
  rw [h.element_eq]
  exact ⟨h.set, rfl, h.prevEls, h.setArcType, h.sound⟩

theorem element_output (el : Addr) : (g.element el).output = g.output := by
  rw [h.element_eq]
  rfl

theorem element_elements (el : Addr) : (g.element el).top.elements = g.top.elements ++ [el] := by
  rw [h.element_eq]
  rfl

theorem element_fields (el : Addr) : (g.element el).fields = g.fields := by
  rw [h.element_eq]
  rfl

theorem finish : AtSentence g.finish :=
  ⟨h.set, h.attrs, rfl, h.setArcType, h.sound⟩

theorem elements (attrs : List LangObject) :
    AtSentence (attrs.foldl (fun (g : Generator) attr => g.element attr.sign) g) ∧
      (attrs.foldl (fun (g : Generator) attr => g.element attr.sign) g).output = g.output ∧
      (attrs.foldl (fun (g : Generator) attr => g.element attr.sign) g).fields = g.fields ∧
      (attrs.foldl (fun (g : Generator) attr => g.element attr.sign) g).top.elements =
        g.top.elements ++ attrs.map LangObject.sign := by
  induction attrs generalizing g with
  | nil => exact ⟨h, rfl, rfl, (List.append_nil _).symm⟩
  | cons attr attrs ih =>
    obtain ⟨place, output, fields, els⟩ := ih (h.element attr.sign)
    refine ⟨place, output.trans (h.element_output _), fields.trans (h.element_fields _), ?_⟩
    rw [List.foldl_cons, els, h.element_elements, List.map_cons, List.append_assoc,
      List.singleton_append]

end

end AtSentence

def Constancy.arcType (c : Constancy) : ScType :=
  .arcAccessory ||| .pos ||| c.type ||| .permanent

theorem verify_arcType (c : Constancy) :
    (.arcAccessory ||| .pos ||| c.type : ScType).verify = some c.arcType := by
  cases c <;> decide

theorem arcType_connector (c : Constancy) : c.arcType.isConnector = true := by
  cases c <;> decide

theorem arcType_injective {c c' : Constancy} (h : c.arcType = c'.arcType) : c = c' := by
  revert h
  cases c <;> cases c' <;> decide

theorem verify_constPos : constPos.verify = some (Constancy.arcType .const) := by decide

theorem Connector.verify_type (c : Connector) : c.type.verify = some c.type := by
  cases c with
  | access fuzzyness constancy temporary right =>
    cases fuzzyness <;> cases constancy <;> cases temporary <;> cases right <;> decide
  | general constancy => cases constancy <;> decide

theorem Connector.type_connector (c : Connector) : c.type.isConnector = true := by
  cases c with
  | access fuzzyness constancy temporary right =>
    cases fuzzyness <;> cases constancy <;> cases temporary <;> cases right <;> decide
  | general constancy => cases constancy <;> decide

def AttributeArcs (types : Addr → ScType) (arc : Addr) (constancy : Constancy)
    (attrs : List LangObject) (block : List Created) : Prop :=
  List.Forall₂ (fun (attr : LangObject) (c : Created) => c.beg = some attr.sign ∧ c.fin = some arc ∧
    c.type = constancy.arcType) (attrs.filter fun attr => !(types attr.sign).isConnector) block

def offeredAll (types : Addr → ScType) (attrs : List LangObject) : Addr → ScType :=
  (attrs.map LangObject.sign).foldl offered types

theorem offeredAll_connector (types : Addr → ScType) (attrs : List LangObject) (a : Addr) :
    (offeredAll types attrs a).isConnector = (types a).isConnector := by
  induction attrs generalizing types with
  | nil => rfl
  | cons attr attrs ih => exact (ih (offered types attr.sign)).trans (offered_connector _ _ _)

variable {attrs : List LangObject}

theorem AttributeArcs.congr {types types' : Addr → ScType} {arc : Addr} {constancy : Constancy}
    {block : List Created} (h : AttributeArcs types arc constancy attrs block)
    (same : ∀ attr ∈ attrs, (types attr.sign).isConnector = (types' attr.sign).isConnector) :
    AttributeArcs types' arc constancy attrs block := by
  have kinds : attrs.filter (fun attr => !(types attr.sign).isConnector) =
      attrs.filter fun attr => !(types' attr.sign).isConnector :=
    List.filter_congr fun attr mem => by rw [same attr mem]
  rw [AttributeArcs, ← kinds]
  exact h

theorem genAttributes_outcome {g : Generator} (h : AtSentence g) (idle : g.top.elements = [])
    {arc : Addr} (here : arc < g.output.next) (constancy : Constancy)
    (live : ∀ attr ∈ attrs, attr.sign < g.output.next) :
    ∃ block, g.output.Outcome (offeredAll g.output.types attrs) block
        (genAttributes g arc constancy attrs).output ∧
      AtSentence (genAttributes g arc constancy attrs) ∧
      (genAttributes g arc constancy attrs).top.elements = [] ∧
      AttributeArcs g.output.types arc constancy attrs block := by
  rw [genAttributes]
  dsimp only
  generalize hg₀ : ({ g with fields := { g.fields with
    arcType := .arcAccessory ||| .pos ||| constancy.type } } : Generator) = g₀
  have h₀ : AtSentence g₀ := by
    rw [← hg₀]
    exact ⟨h.set, h.attrs, h.prevEls, h.setArcType, h.sound⟩
  have output₀ : g₀.output = g.output := by rw [← hg₀]
  have idle₀ : g₀.top.elements = [] := by rw [← hg₀]; exact idle
  have arcType₀ : g₀.fields.arcType = .arcAccessory ||| .pos ||| constancy.type := by rw [← hg₀]
  obtain ⟨h₁, output₁, fields₁, els⟩ := h₀.elements attrs
  generalize attrs.foldl (fun (g : Generator) attr => g.element attr.sign) g₀ = g₁ at *
  rw [idle₀, List.nil_append] at els
  rw [output₀] at output₁
  obtain ⟨block, wrote, all⟩ := @genSentence_bare (g₁.arc.pass arc) arc _
    (attrs.map LangObject.sign) h₁.attrs h₁.sound
    (show (g₁.fields.arcType).verify = _ by rw [fields₁, arcType₀]; exact verify_arcType constancy)
    (arcType_connector constancy)
    (fun prev mem => by
      obtain ⟨attr, inside, rfl⟩ := List.mem_map.mp mem
      show attr.sign < g₁.output.next
      rw [output₁]
      exact live attr inside)
    (show arc < g₁.output.next by rw [output₁]; exact here)
  have prev : g₁.arc.top.prevEls = attrs.map LangObject.sign := els
  obtain ⟨tmp, top⟩ := wrote.top
  have closes : (g₁.arc.element arc) =
      (genSentence arc (g₁.arc.pass arc) (attrs.map LangObject.sign)).collect arc := by
    rw [Generator.element, prev, enclose, top]
    dsimp only
    rw [show (g₁.arc.pass arc).top.set = none from h₁.set]
  have outcome := wrote.outcome
  rw [show (g₁.arc.pass arc).output = g.output from output₁] at outcome all
  rw [closes]
  refine ⟨block, outcome, ⟨?_, rfl, rfl, ?_, outcome.sound h.sound⟩, rfl, ?_⟩
  · show (genSentence arc (g₁.arc.pass arc) (attrs.map LangObject.sign)).top.set = none
    rw [top]
    exact h₁.set
  · show (genSentence arc (g₁.arc.pass arc) _).fields.setArcType = constPos
    rw [wrote.fields]
    exact h₁.setArcType
  · rw [AttributeArcs]
    rw [List.filter_map, List.forall₂_map_left_iff] at all
    exact all

namespace Ident

def attrsOf (i : Ident) (c : Constancy) : List LangObject :=
  (i.written.filter (·.2 = c)).map Prod.fst

theorem foldlM_add (written : List (LangObject × Constancy)) (attrs : ScAttributes) :
    written.foldlM (fun attrs a => attrs.add a.1 a.2.type) attrs = some
      ⟨attrs.consts ++ (written.filter (·.2 = .const)).map Prod.fst,
        attrs.vars ++ (written.filter (·.2 = .var)).map Prod.fst,
        attrs.metavars ++ (written.filter (·.2 = .metavar)).map Prod.fst⟩ := by
  induction written generalizing attrs with
  | nil => simp
  | cons a written ih =>
    obtain ⟨attr, constancy⟩ := a
    rw [List.foldlM_cons]
    cases constancy with
    | const =>
      have adds : attrs.add attr (Constancy.type .const) =
          some { attrs with consts := attrs.consts ++ [attr] } := by
        rw [ScAttributes.add, if_pos (by decide)]
      rw [adds]
      simpa using ih { attrs with consts := attrs.consts ++ [attr] }
    | var =>
      have adds : attrs.add attr (Constancy.type .var) =
          some { attrs with vars := attrs.vars ++ [attr] } := by
        rw [ScAttributes.add, if_neg (by decide), if_pos (by decide)]
      rw [adds]
      simpa using ih { attrs with vars := attrs.vars ++ [attr] }
    | metavar =>
      have adds : attrs.add attr (Constancy.type .metavar) =
          some { attrs with metavars := attrs.metavars ++ [attr] } := by
        rw [ScAttributes.add, if_neg (by decide), if_neg (by decide), if_pos (by decide)]
      rw [adds]
      simpa using ih { attrs with metavars := attrs.metavars ++ [attr] }

theorem attrs_eq (i : Ident) :
    i.attrs = some ⟨i.attrsOf .const, i.attrsOf .var, i.attrsOf .metavar⟩ :=
  foldlM_add i.written ScAttributes.new

def inOrder (i : Ident) : List (LangObject × Constancy) :=
  i.written.filter (·.2 = .const) ++ i.written.filter (·.2 = .var) ++
    i.written.filter (·.2 = .metavar)

theorem inOrder_perm (i : Ident) : i.inOrder.Perm i.written := by
  rw [inOrder]
  generalize i.written = written
  induction written with
  | nil => rfl
  | cons a written ih =>
    obtain ⟨attr, constancy⟩ := a
    cases constancy with
    | const => exact ih.cons _
    | var => exact (List.perm_middle.append_right _).trans (ih.cons _)
    | metavar => exact List.perm_middle.trans (ih.cons _)

theorem attrs_empty (i : Ident) :
    ScAttributes.empty ⟨i.attrsOf .const, i.attrsOf .var, i.attrsOf .metavar⟩ = true ↔
      i.written = [] := by
  have lengths := i.inOrder_perm.length_eq
  rw [inOrder, List.length_append, List.length_append] at lengths
  rw [ScAttributes.empty, Bool.and_eq_true, Bool.and_eq_true, List.isEmpty_iff_length_eq_zero,
    List.isEmpty_iff_length_eq_zero, List.isEmpty_iff_length_eq_zero,
    ← List.length_eq_zero_iff]
  simp only [attrsOf, List.length_map]
  omega

end Ident

end ScCore.Scc
