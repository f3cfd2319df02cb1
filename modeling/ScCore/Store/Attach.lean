import ScCore.Store.View

/-!
# The effect of attaching and detaching an arc

`tmp_segment::set_beg` and `tmp_segment::set_end` in terms of the views: an arc
leaves the list it stands in, and then joins another one with a new node.
-/

namespace ScCore.Store

structure Relinks (m m' : Memory) : Prop where
  label : ∀ e, m'.label e = m.label e
  addrs : m'.addrs = m.addrs
  segs : m'.segs = m.segs
  nextElem : m'.nextElem = m.nextElem
  nextAddr : m'.nextAddr = m.nextAddr
  idtfCounter : m'.idtfCounter = m.idtfCounter

namespace Relinks

variable {m m' m'' : Memory}

theorem trans (h : Relinks m m') (h' : Relinks m' m'') : Relinks m m'' where
  label e := (h'.label e).trans (h.label e)
  addrs := h'.addrs.trans h.addrs
  segs := h'.segs.trans h.segs
  nextElem := h'.nextElem.trans h.nextElem
  nextAddr := h'.nextAddr.trans h.nextAddr
  idtfCounter := h'.idtfCounter.trans h.idtfCounter

theorem addrOf (h : Relinks m m') (e : ElemId) : m'.addrOf e = m.addrOf e :=
  Memory.addrOf_congr (h.label e)

theorem stored_iff (h : Relinks m m') (e : ElemId) : m'.elems e = none ↔ m.elems e = none := by
  have := h.label e
  rw [Memory.label, Memory.label] at this
  rw [← Option.map_eq_none_iff (f := Element.label), this, Option.map_eq_none_iff]

theorem stored (h : Relinks m m') {e : ElemId} {el : Element} (he : m.elems e = some el) :
    ∃ el', m'.elems e = some el' :=
  Option.ne_none_iff_exists'.mp fun h' => by simp [(h.stored_iff e).mp h'] at he

end Relinks

section Maps

variable {m : Memory}

theorem relinks_mapElem {e : ElemId} {f : Element → Element}
    (hf : ∀ el, (f el).label = el.label) : Relinks m (m.mapElem e f) where
  label x := by
    by_cases hx : x = e
    · cases he : m.elems e <;> simp [Memory.label, hx, he, hf]
    · simp [Memory.label, hx]
  addrs := rfl
  segs := rfl
  nextElem := rfl
  nextAddr := rfl
  idtfCounter := rfl

theorem relinks_mapNode {n : NodeId} {f : ElementLink → ElementLink} : Relinks m (m.mapNode n f) :=
  ⟨fun _ => rfl, rfl, rfl, rfl, rfl, rfl⟩

theorem relinks_freeNode {n : NodeId} : Relinks m (m.freeNode n) :=
  ⟨fun _ => rfl, rfl, rfl, rfl, rfl, rfl⟩

theorem relinks_newNode {l : ElementLink} : Relinks m (m.newNode l) :=
  ⟨fun _ => rfl, rfl, rfl, rfl, rfl, rfl⟩

end Maps

namespace TmpSegment

/-- The second half of `set_beg` and `set_end`, after the old end is gone. -/
def attachEnd (s : Endpoint) (m : Memory) (arc t : ElemId) : Option Memory := do
  let m ← attachArc s m t arc
  m.modifyElem arc fun a => a.setEnd s (some t)

theorem setEndpoint_some (s : Endpoint) (m : Memory) (arc t : ElemId) :
    setEndpoint s m arc (some t) =
      (setEndpoint s m arc none).bind fun m => attachEnd s m arc t := by
  unfold setEndpoint
  cases m.elems arc with
  | none => rfl
  | some a => cases h : a.ends s <;> simp [h, attachEnd, Option.bind_assoc]

section Unlink

variable {m : Memory} {owner : ElemId} {o : Element} {s : Endpoint} {n : NodeId} {l : ElementLink}

def unlinked (m : Memory) (owner : ElemId) (s : Endpoint) (n : NodeId) : Memory :=
  (m.mapElem owner fun e => e.setArcs s ((e.arcs s).erase n)).freeNode n

theorem removeNode_eq (ho : m.elems owner = some o) :
    removeNode m owner s n = some (unlinked m owner s n) := by
  simp [removeNode, Memory.modifyElem_eq ho, unlinked]

theorem unlinked_mapNode (f : ElementLink → ElementLink) :
    unlinked (m.mapNode n f) owner s n = unlinked m owner s n :=
  Memory.freeNode_mapNode (m := m.mapElem owner _) f n

theorem relinks_unlinked : Relinks m (unlinked m owner s n) :=
  (relinks_mapElem (by exact fun _ => rfl)).trans relinks_freeNode

theorem unref_eq (ho : m.elems owner = some o) (hn : m.nodes n = some l) :
    ElementLink.unref m owner s n = some (if l.refcnt = 1 then unlinked m owner s n
      else m.mapNode n fun l => { l with refcnt := l.refcnt - 1 }) := by
  have hr : l.refcnt - 1 = 0 ↔ l.refcnt = 1 := by omega
  simp only [ElementLink.unref, hn, Memory.modifyNode_eq hn, Option.bind_eq_bind, Option.bind_some,
    hr]
  split
  · rw [removeNode_eq (o := o) (by simpa using ho), unlinked_mapNode]
  · rfl

theorem die_eq (ho : m.elems owner = some o) (hn : m.nodes n = some l) :
    ElementLink.die m owner s n = some (if l.refcnt = 1 then unlinked m owner s n
      else m.mapNode n fun l => { l with refcnt := l.refcnt - 1, dead := true }) := by
  have hr : l.refcnt - 1 = 0 ↔ l.refcnt = 1 := by omega
  simp only [ElementLink.die, hn, Memory.modifyNode_eq hn, Option.bind_eq_bind, Option.bind_some,
    hr]
  split
  · rw [removeNode_eq (o := o) (by simpa using ho), unlinked_mapNode]
  · rw [Memory.modifyNode_eq (l := { l with refcnt := l.refcnt - 1 }) (by simp [hn])]
    simp only [Memory.mapNode, Option.some.injEq, Memory.mk.injEq, and_true, true_and]
    funext x
    by_cases hx : x = n <;> simp [hx, hn]

end Unlink

/-- The memory after `detach_input_arc` or `detach_output_arc`. The node dies,
and it is unlinked unless someone else holds it. -/
def left (m : Memory) (s : Endpoint) (old : ElemId) (n : NodeId) (l : ElementLink) : Memory :=
  let m := m.mapElem old fun e => e.setQnt s (e.qnt s - 1)
  if l.refcnt = 1 then unlinked m old s n
  else m.mapNode n fun l => { l with refcnt := l.refcnt - 1, dead := true }

def detached (m : Memory) (s : Endpoint) (arc old : ElemId) (n : NodeId) (l : ElementLink) :
    Memory :=
  (left m s old n l).mapElem arc fun a => (a.setEnd s none).setHint s none

section Detach

variable {s : Endpoint} {m : Memory} {arc old : ElemId} {a o : Element} {n : NodeId}
  {l : ElementLink}

theorem relinks_left : Relinks m (left m s old n l) := by
  unfold left
  split
  · exact (relinks_mapElem (by exact fun _ => rfl)).trans relinks_unlinked
  · exact (relinks_mapElem (by exact fun _ => rfl)).trans relinks_mapNode

theorem relinks_detached : Relinks m (detached m s arc old n l) :=
  relinks_left.trans (relinks_mapElem (by exact fun _ => rfl))

theorem detachArc_eq (ha : m.elems arc = some a) (hhint : a.hint s = some n)
    (ho : m.elems old = some o) (hn : m.nodes n = some l) :
    detachArc s m old arc = some (left m s old n l) := by
  have hback : (if arc = old then a.setQnt s (a.qnt s - 1) else a).hint s = some n := by
    split <;> exact hhint
  have hso := Memory.elems_mapElem (e := old) (fun e => e.setQnt s (e.qnt s - 1)) ho
  simp only [detachArc, Memory.modifyElem_eq ho, Option.bind_eq_bind, Option.bind_some,
    Memory.elems_mapElem _ ha, hback]
  exact die_eq hso hn

theorem setEndpoint_detach (ha : m.elems arc = some a) (hend : a.ends s = some old)
    (hhint : a.hint s = some n) (ho : m.elems old = some o) (hn : m.nodes n = some l) :
    setEndpoint s m arc none = some (detached m s arc old n l) := by
  obtain ⟨a', ha'⟩ := (relinks_left : Relinks m (left m s old n l)).stored ha
  simp only [setEndpoint, ha, hend, detachArc_eq ha hhint ho hn, Option.bind_eq_bind,
    Option.bind_some]
  rw [Memory.modifyElem_eq ha', Option.bind_some, detached]

theorem graph_detached (m : Memory) (s : Endpoint) (arc old : ElemId) (n : NodeId)
    (l : ElementLink) :
    (detached m s arc old n l).graph = if l.refcnt = 1 then (m.graph.detach s arc n).unlink old s n
      else m.graph.detach s arc n := by
  rw [detached, Memory.graph_forget, left]
  by_cases hr : l.refcnt = 1
  · simp only [hr, if_true, unlinked]
    rw [Memory.graph_freeNode, Memory.graph_eraseNode, Memory.graph_setQnt]
    rfl
  · simp only [hr, if_false]
    rw [Memory.graph_killNode _ (by exact fun _ => rfl), Memory.graph_setQnt]
    rfl

theorem qnt_detached (ho : m.elems old = some o) (e : ElemId) (t : Endpoint) :
    (detached m s arc old n l).qnt e t = if e = old ∧ t = s then m.qnt e t - 1 else m.qnt e t := by
  rw [detached, Memory.qnt_mapElem (by exact fun _ => rfl)]
  have hleft : (left m s old n l).qnt e t =
      (m.mapElem old fun e => e.setQnt s (e.qnt s - 1)).qnt e t := by
    unfold left
    dsimp only
    split
    · exact Memory.qnt_mapElem (by exact fun _ => rfl) e t
    · rfl
  rw [hleft, Memory.qnt_setQnt ho]
  split
  · next h => rw [h.1, h.2, Memory.qnt_stored ho]
  · rfl

theorem nodes_detached (s : Endpoint) (arc old : ElemId) (hn : m.nodes n = some l) (x : NodeId) :
    (detached m s arc old n l).nodes x = if x = n then
        (if l.refcnt = 1 then none else some ⟨l.value, l.refcnt - 1, true⟩)
      else m.nodes x := by
  rw [detached, Memory.mapElem_nodes, left]
  by_cases hr : l.refcnt = 1
  · simp [hr, unlinked]
  · by_cases hx : x = n <;> simp [hr, hx, hn]

theorem nextNode_detached : (detached m s arc old n l).nextNode = m.nextNode := by
  rw [detached, Memory.mapElem_nextNode, left]
  split <;> rfl

theorem setEndpoint_idle (ha : m.elems arc = some a) (hend : a.ends s = none) :
    setEndpoint s m arc none =
      some (m.mapElem arc fun a => (a.setEnd s none).setHint s none) := by
  simp [setEndpoint, ha, hend, Memory.modifyElem_eq ha]

end Detach

def attached (m : Memory) (s : Endpoint) (arc t : ElemId) : Memory :=
  let m' := m.mapElem t fun e => e.setQnt s (e.qnt s + 1)
  let m' := m'.newNode ⟨arc, 1, false⟩
  let m' := m'.mapElem arc fun a => a.setHint s (some m.nextNode)
  let m' := m'.mapElem t fun e => e.setArcs s (e.arcs s ++ [m.nextNode])
  m'.mapElem arc fun a => a.setEnd s (some t)

section Attach

variable {s : Endpoint} {m : Memory} {arc t : ElemId} {a e : Element}

theorem attachEnd_eq (ha : ∃ a, m.elems arc = some a) (ht : ∃ e, m.elems t = some e) :
    attachEnd s m arc t = some (attached m s arc t) := by
  simp only [attachEnd, attachArc, Option.bind_eq_bind, Option.bind_assoc]
  rw [Memory.modifyElem_stored _ ht, Option.bind_some, Memory.modifyElem_stored, Option.bind_some,
    Memory.modifyElem_stored, Option.bind_some, Memory.modifyElem_stored]
  · rfl
  all_goals simpa only [Memory.stored_mapElem, Memory.newNode_elems]

theorem relinks_attached : Relinks m (attached m s arc t) := by
  refine (relinks_mapElem ?_).trans <| relinks_newNode.trans <| (relinks_mapElem ?_).trans <|
    (relinks_mapElem ?_).trans (relinks_mapElem ?_)
  all_goals exact fun _ => rfl

theorem graph_attached (s : Endpoint) (ha : ∃ a, m.elems arc = some a)
    (ht : ∃ e, m.elems t = some e) :
    (attached m s arc t).graph = m.graph.attach s arc t m.nextNode := by
  simp only [attached]
  rw [Memory.graph_setEnd, Memory.graph_appendNode, Memory.graph_setHint, Memory.graph_newNode,
    Memory.graph_setQnt]
  · rfl
  all_goals simpa only [Memory.stored_mapElem, Memory.newNode_elems]

theorem qnt_attached (s : Endpoint) (arc : ElemId) (ht : m.elems t = some e) (x : ElemId)
    (u : Endpoint) :
    (attached m s arc t).qnt x u = if x = t ∧ u = s then m.qnt x u + 1 else m.qnt x u := by
  simp only [attached]
  rw [Memory.qnt_mapElem (by exact fun _ => rfl), Memory.qnt_mapElem (by exact fun _ => rfl),
    Memory.qnt_mapElem (by exact fun _ => rfl)]
  have : ((m.mapElem t fun e => e.setQnt s (e.qnt s + 1)).newNode ⟨arc, 1, false⟩).qnt x u =
      (m.mapElem t fun e => e.setQnt s (e.qnt s + 1)).qnt x u := rfl
  rw [this, Memory.qnt_setQnt ht]
  split
  · next h => rw [h.1, h.2, Memory.qnt_stored ht]
  · rfl

theorem nodes_attached (m : Memory) (s : Endpoint) (arc t : ElemId) (n : NodeId) :
    (attached m s arc t).nodes n = if n = m.nextNode then some ⟨arc, 1, false⟩ else m.nodes n := rfl

end Attach

end TmpSegment

end ScCore.Store
