import ScCore.Lib.AdjacencyLists
import ScCore.Store.Session

/-!
# Views of the storage

What the arc lists, the nodes and the ends of the elements of a memory say
about incidence, as adjacency lists; the counters beside them; and the rest of
an element, its label. A pointer that maps to nothing reads as an element with
empty lists and no ends.
-/

namespace ScCore.Store

structure Label where
  addr : Option Addr
  type : ScType
  cont : Content
  idtf : ScString
  isLink : Bool
  missingIdtf : Bool
  deriving DecidableEq

def Element.label (el : Element) : Label :=
  ⟨el.addr, el.type, el.cont, el.idtf, el.isLink, el.missingIdtf⟩

namespace Memory

def graph (m : Memory) : AdjacencyLists ElemId Endpoint NodeId where
  listed e s := ((m.elems e).map (·.arcs s)).getD []
  arc n := (m.nodes n).bind fun l => if l.dead then none else some l.value
  target x s := (m.elems x).bind (·.ends s)
  back x s := (m.elems x).bind (·.hint s)

def qnt (m : Memory) (e : ElemId) (s : Endpoint) : Int := ((m.elems e).map (·.qnt s)).getD 0

def label (m : Memory) (e : ElemId) : Option Label := (m.elems e).map (·.label)

def addrOf (m : Memory) (e : ElemId) : Option Addr := (m.label e).bind (·.addr)

variable {m : Memory} {e : ElemId} {el : Element} {s : Endpoint}

section Stored

variable (h : m.elems e = some el)
include h

theorem listed_stored : m.graph.listed e s = el.arcs s := by simp [graph, h]

theorem target_stored : m.graph.target e s = el.ends s := by simp [graph, h]

theorem back_stored : m.graph.back e s = el.hint s := by simp [graph, h]

theorem qnt_stored : m.qnt e s = el.qnt s := by simp [qnt, h]

theorem label_stored : m.label e = some el.label := by simp [label, h]

theorem addrOf_stored : m.addrOf e = el.addr := by simp [addrOf, label, h, Element.label]

end Stored

section Missing

variable (h : m.elems e = none)
include h

theorem listed_missing : m.graph.listed e s = [] := by simp [graph, h]

theorem target_missing : m.graph.target e s = none := by simp [graph, h]

theorem back_missing : m.graph.back e s = none := by simp [graph, h]

theorem qnt_missing : m.qnt e s = 0 := by simp [qnt, h]

theorem label_missing : m.label e = none := by simp [label, h]

end Missing

theorem stored_of_target {t : ElemId} (h : m.graph.target e s = some t) :
    ∃ el, m.elems e = some el ∧ el.ends s = some t := by
  simpa [graph, Option.bind_eq_some_iff] using h

theorem stored_of_listed {n : NodeId} (h : n ∈ m.graph.listed e s) :
    ∃ el, m.elems e = some el ∧ n ∈ el.arcs s := by
  cases he : m.elems e with
  | none => simp [listed_missing he] at h
  | some el => exact ⟨el, rfl, listed_stored he ▸ h⟩

theorem stored_of_addrOf {a : Addr} (h : m.addrOf e = some a) :
    ∃ el, m.elems e = some el ∧ el.addr = some a := by
  cases he : m.elems e with
  | none => simp [addrOf, label_missing he] at h
  | some el => exact ⟨el, rfl, addrOf_stored he ▸ h⟩

theorem addrOf_congr {m' : Memory} (h : m'.label e = m.label e) : m'.addrOf e = m.addrOf e := by
  rw [addrOf, h, addrOf]

theorem arc_eq_some {n : NodeId} {x : ElemId} :
    m.graph.arc n = some x ↔ ∃ l, m.nodes n = some l ∧ l.dead = false ∧ l.value = x := by
  cases h : m.nodes n with
  | none => simp [graph, h]
  | some l => cases hd : l.dead <;> simp [graph, h, hd]

/-- `modifyElem` as a total function: a missing element stays missing. -/
def mapElem (m : Memory) (e : ElemId) (f : Element → Element) : Memory :=
  { m with elems := fun x => if x = e then (m.elems x).map f else m.elems x }

def mapNode (m : Memory) (n : NodeId) (f : ElementLink → ElementLink) : Memory :=
  { m with nodes := fun x => if x = n then (m.nodes x).map f else m.nodes x }

def mapAddr (m : Memory) (a : Addr) (f : GlobalAddr → GlobalAddr) : Memory :=
  { m with addrs := fun x => if x = a then (m.addrs x).map f else m.addrs x }

theorem modifyElem_eq {f : Element → Element} (h : m.elems e = some el) :
    m.modifyElem e f = some (m.mapElem e f) := by
  have : ∀ x, (if x = e then some (f el) else m.elems x) =
      if x = e then (m.elems x).map f else m.elems x := by
    intro x
    by_cases hx : x = e <;> simp [hx, h]
  simp [modifyElem, h, mapElem, this]

theorem modifyNode_eq {n : NodeId} {l : ElementLink} {f : ElementLink → ElementLink}
    (h : m.nodes n = some l) : m.modifyNode n f = some (m.mapNode n f) := by
  have : ∀ x, (if x = n then some (f l) else m.nodes x) =
      if x = n then (m.nodes x).map f else m.nodes x := by
    intro x
    by_cases hx : x = n <;> simp [hx, h]
  simp [modifyNode, h, mapNode, this]

theorem modifyAddr_eq {a : Addr} {g : GlobalAddr} {f : GlobalAddr → GlobalAddr}
    (h : m.addrs a = some g) : m.modifyAddr a f = some (m.mapAddr a f) := by
  have : ∀ x, (if x = a then some (f g) else m.addrs x) =
      if x = a then (m.addrs x).map f else m.addrs x := by
    intro x
    by_cases hx : x = a <;> simp [hx, h]
  simp [modifyAddr, h, mapAddr, this]

theorem modifyElem_some {f : Element → Element} {m' : Memory} (h : m.modifyElem e f = some m') :
    (∃ el, m.elems e = some el) ∧ m' = m.mapElem e f := by
  cases he : m.elems e with
  | none => simp [modifyElem, he] at h
  | some el =>
    rw [modifyElem_eq he] at h
    exact ⟨⟨el, rfl⟩, (Option.some.inj h).symm⟩

section Maps

variable (f : Element → Element) (fn : ElementLink → ElementLink) (fa : GlobalAddr → GlobalAddr)
variable (n : NodeId) (a : Addr)

@[simp] theorem mapElem_elems (x : ElemId) :
    (m.mapElem e f).elems x = if x = e then (m.elems x).map f else m.elems x := rfl

theorem elems_mapElem {x : ElemId} (h : m.elems x = some el) :
    (m.mapElem e f).elems x = some (if x = e then f el else el) := by
  rw [mapElem_elems]
  split <;> simp [h]

theorem stored_mapElem {x : ElemId} :
    (∃ el, (m.mapElem e f).elems x = some el) ↔ ∃ el, m.elems x = some el := by
  rw [mapElem_elems]
  split <;> simp

theorem modifyElem_stored (h : ∃ el, m.elems e = some el) :
    m.modifyElem e f = some (m.mapElem e f) :=
  modifyElem_eq h.choose_spec

@[simp] theorem mapElem_nodes : (m.mapElem e f).nodes = m.nodes := rfl

@[simp] theorem mapElem_addrs : (m.mapElem e f).addrs = m.addrs := rfl

@[simp] theorem mapElem_nextNode : (m.mapElem e f).nextNode = m.nextNode := rfl

@[simp] theorem mapNode_elems : (m.mapNode n fn).elems = m.elems := rfl

@[simp] theorem mapNode_nodes (x : NodeId) :
    (m.mapNode n fn).nodes x = if x = n then (m.nodes x).map fn else m.nodes x := rfl

@[simp] theorem mapAddr_elems : (m.mapAddr a fa).elems = m.elems := rfl

@[simp] theorem mapAddr_nodes : (m.mapAddr a fa).nodes = m.nodes := rfl

@[simp] theorem mapAddr_addrs (x : Addr) :
    (m.mapAddr a fa).addrs x = if x = a then (m.addrs x).map fa else m.addrs x := rfl

@[simp] theorem freeNode_elems : (m.freeNode n).elems = m.elems := rfl

@[simp] theorem freeNode_nodes (x : NodeId) :
    (m.freeNode n).nodes x = if x = n then none else m.nodes x := rfl

@[simp] theorem newNode_elems (l : ElementLink) : (m.newNode l).elems = m.elems := rfl

@[simp] theorem newNode_nextNode (l : ElementLink) : (m.newNode l).nextNode = m.nextNode + 1 := rfl

@[simp] theorem newNode_nodes (l : ElementLink) (x : NodeId) :
    (m.newNode l).nodes x = if x = m.nextNode then some l else m.nodes x := rfl

theorem freeNode_mapNode : (m.mapNode n fn).freeNode n = m.freeNode n := by
  have : (fun x => if x = n then none else if x = n then (m.nodes x).map fn else m.nodes x) =
      fun x => if x = n then none else m.nodes x := by
    funext x
    by_cases hx : x = n <;> simp [hx]
  simp [freeNode, mapNode, this]

end Maps

theorem qnt_mapElem {f : Element → Element} (hf : ∀ el, (f el).qnt = el.qnt) (x : ElemId)
    (t : Endpoint) : (m.mapElem e f).qnt x t = m.qnt x t := by
  by_cases hx : x = e
  · cases he : m.elems e <;> simp [qnt, hx, he, hf]
  · simp [qnt, hx]

theorem qnt_setQnt (he : m.elems e = some el) (c : Element → Int) (x : ElemId) (t : Endpoint) :
    (m.mapElem e fun el => el.setQnt s (c el)).qnt x t =
      if x = e ∧ t = s then c el else m.qnt x t := by
  by_cases hx : x = e
  · by_cases ht : t = s <;> simp [qnt, hx, he, Element.setQnt, ht]
  · simp [qnt, hx]

theorem graph_mapElem {f : Element → Element} (hf : ∀ el, (f el).arcs = el.arcs)
    (hf' : ∀ el, (f el).ends = el.ends) (hf'' : ∀ el, (f el).hint = el.hint) :
    (m.mapElem e f).graph = m.graph := by
  refine AdjacencyLists.ext (fun x t => ?_) (fun _ => rfl) (fun x t => ?_) fun x t => ?_
  all_goals
    by_cases hx : x = e
    · cases he : m.elems e <;> simp [graph, hx, he, hf, hf', hf'']
    · simp [graph, hx]

theorem graph_setQnt (c : Element → Int) :
    (m.mapElem e fun el => el.setQnt s (c el)).graph = m.graph :=
  graph_mapElem (fun _ => rfl) (fun _ => rfl) fun _ => rfl

theorem graph_setArcs (f : List NodeId → List NodeId) (hf : m.elems e = none → f [] = []) :
    (m.mapElem e fun el => el.setArcs s (f (el.arcs s))).graph =
      { m.graph with
        listed := fun x t => if x = e ∧ t = s then f (m.graph.listed e s)
          else m.graph.listed x t } := by
  refine AdjacencyLists.ext (fun x t => ?_) (fun _ => rfl) (fun x t => ?_) fun x t => ?_
  · by_cases hx : x = e
    · subst hx
      cases he : m.elems x with
      | none => simp [graph, he, hf he]
      | some el => by_cases ht : t = s <;> simp [graph, he, Element.setArcs, ht]
    · simp [graph, hx]
  all_goals
    by_cases hx : x = e
    · cases he : m.elems e <;> simp [graph, hx, he, Element.setArcs]
    · simp [graph, hx]

theorem graph_eraseNode (n : NodeId) :
    (m.mapElem e fun el => el.setArcs s ((el.arcs s).erase n)).graph =
      { m.graph with
        listed := fun x t => if x = e ∧ t = s then (m.graph.listed e s).erase n
          else m.graph.listed x t } :=
  graph_setArcs (fun l => l.erase n) fun _ => rfl

theorem graph_appendNode (he : ∃ el, m.elems e = some el) (n : NodeId) :
    (m.mapElem e fun el => el.setArcs s (el.arcs s ++ [n])).graph =
      { m.graph with
        listed := fun x t => if x = e ∧ t = s then m.graph.listed e s ++ [n]
          else m.graph.listed x t } :=
  graph_setArcs (fun l => l ++ [n]) fun h => by simp [h] at he

theorem graph_forget :
    (m.mapElem e fun el => (el.setEnd s none).setHint s none).graph =
      { m.graph with
        target := fun x t => if x = e ∧ t = s then none else m.graph.target x t
        back := fun x t => if x = e ∧ t = s then none else m.graph.back x t } := by
  refine AdjacencyLists.ext (fun x t => ?_) (fun _ => rfl) (fun x t => ?_) fun x t => ?_
  · by_cases hx : x = e
    · cases he : m.elems e <;> simp [graph, hx, he, Element.setEnd, Element.setHint]
    · simp [graph, hx]
  all_goals
    by_cases hx : x = e
    · by_cases ht : t = s <;> cases he : m.elems e <;>
        simp [graph, hx, he, Element.setEnd, Element.setHint, ht]
    · simp [graph, hx]

theorem graph_setHint (he : ∃ el, m.elems e = some el) (n : NodeId) :
    (m.mapElem e fun el => el.setHint s (some n)).graph =
      { m.graph with
        back := fun x t => if x = e ∧ t = s then some n else m.graph.back x t } := by
  obtain ⟨el, he⟩ := he
  refine AdjacencyLists.ext (fun x t => ?_) (fun _ => rfl) (fun x t => ?_) fun x t => ?_
  all_goals
    by_cases hx : x = e
    · by_cases ht : t = s <;> simp [graph, hx, he, Element.setHint, ht]
    · simp [graph, hx]

theorem graph_setEnd (he : ∃ el, m.elems e = some el) (t : ElemId) :
    (m.mapElem e fun el => el.setEnd s (some t)).graph =
      { m.graph with
        target := fun x u => if x = e ∧ u = s then some t else m.graph.target x u } := by
  obtain ⟨el, he⟩ := he
  refine AdjacencyLists.ext (fun x u => ?_) (fun _ => rfl) (fun x u => ?_) fun x u => ?_
  all_goals
    by_cases hx : x = e
    · by_cases hu : u = s <;> simp [graph, hx, he, Element.setEnd, hu]
    · simp [graph, hx]

theorem graph_freeNode (n : NodeId) :
    (m.freeNode n).graph =
      { m.graph with arc := fun x => if x = n then none else m.graph.arc x } := by
  refine AdjacencyLists.ext (fun _ _ => rfl) (fun x => ?_) (fun _ _ => rfl) fun _ _ => rfl
  by_cases hx : x = n <;> simp [graph, hx]

theorem graph_killNode (n : NodeId) {f : ElementLink → ElementLink}
    (hf : ∀ l, (f l).dead = true) :
    (m.mapNode n f).graph =
      { m.graph with arc := fun x => if x = n then none else m.graph.arc x } := by
  refine AdjacencyLists.ext (fun _ _ => rfl) (fun x => ?_) (fun _ _ => rfl) fun _ _ => rfl
  by_cases hx : x = n
  · cases hn : m.nodes n <;> simp [graph, hx, hn, hf]
  · simp [graph, hx]

theorem graph_countNode (n : NodeId) {f : ElementLink → ElementLink}
    (hf : ∀ l, (f l).dead = l.dead) (hf' : ∀ l, (f l).value = l.value) :
    (m.mapNode n f).graph = m.graph := by
  refine AdjacencyLists.ext (fun _ _ => rfl) (fun x => ?_) (fun _ _ => rfl) fun _ _ => rfl
  by_cases hx : x = n
  · cases hn : m.nodes n <;> simp [graph, hx, hn, hf, hf']
  · simp [graph, hx]

theorem graph_newNode (x : ElemId) :
    (m.newNode ⟨x, 1, false⟩).graph =
      { m.graph with arc := fun n => if n = m.nextNode then some x else m.graph.arc n } := by
  refine AdjacencyLists.ext (fun _ _ => rfl) (fun n => ?_) (fun _ _ => rfl) fun _ _ => rfl
  by_cases hn : n = m.nextNode <;> simp [graph, hn]

end Memory

end ScCore.Store
