import ScCore.Store.Memory

/-!
# Operations of the in-memory segment

`tmp_segment.cpp` function by function. `none` is a run that stopped: an
`SC_ABORT`, or a read through a freed pointer.
-/

namespace ScCore.Store

def removeNode (m : Memory) (owner : ElemId) (s : Endpoint) (n : NodeId) : Option Memory := do
  let m ← m.modifyElem owner fun e => e.setArcs s ((e.arcs s).erase n)
  some (m.freeNode n)

namespace ElementLink

/-- `element_link::unref`. The list the node stands in is named by its owner. -/
def unref (m : Memory) (owner : ElemId) (s : Endpoint) (n : NodeId) : Option Memory := do
  let l ← m.nodes n
  let m ← m.modifyNode n fun l => { l with refcnt := l.refcnt - 1 }
  if l.refcnt - 1 = 0 then removeNode m owner s n else some m

def die (m : Memory) (owner : ElemId) (s : Endpoint) (n : NodeId) : Option Memory := do
  let l ← m.nodes n
  let m ← m.modifyNode n fun l => { l with refcnt := l.refcnt - 1 }
  if l.refcnt - 1 = 0 then removeNode m owner s n
  else m.modifyNode n fun l => { l with dead := true }

def ref (m : Memory) (n : NodeId) : Option Memory :=
  m.modifyNode n fun l => { l with refcnt := l.refcnt + 1 }

end ElementLink

namespace TmpSegment

/-- `attach_input_arc` and `attach_output_arc`. The list head is prepended to,
which in a ring puts the new node last. -/
def attachArc (s : Endpoint) (m : Memory) (el arc : ElemId) : Option Memory := do
  let m ← m.modifyElem el fun e => e.setQnt s (e.qnt s + 1)
  let link := m.nextNode
  let m := m.newNode ⟨arc, 1, false⟩
  let m ← m.modifyElem arc fun a => a.setHint s (some link)
  m.modifyElem el fun e => e.setArcs s (e.arcs s ++ [link])

def attachInputArc := attachArc .fin
def attachOutputArc := attachArc .beg

/-- `detach_input_arc` and `detach_output_arc`. -/
def detachArc (s : Endpoint) (m : Memory) (el arc : ElemId) : Option Memory := do
  let m ← m.modifyElem el fun e => e.setQnt s (e.qnt s - 1)
  let a ← m.elems arc
  let link ← a.hint s
  ElementLink.die m el s link

def detachInputArc := detachArc .fin
def detachOutputArc := detachArc .beg

/-- `tmp_segment::set_beg` and `tmp_segment::set_end`. -/
def setEndpoint (s : Endpoint) (m : Memory) (arc : ElemId) (target : Option ElemId) :
    Option Memory := do
  let a ← m.elems arc
  let m ← match a.ends s with
    | some old => detachArc s m old arc
    | none => some m
  let m ← m.modifyElem arc fun a => (a.setEnd s none).setHint s none
  match target with
  | none => some m
  | some t =>
      let m ← attachArc s m t arc
      m.modifyElem arc fun a => a.setEnd s (some t)

def setBeg := setEndpoint .beg
def setEnd := setEndpoint .fin

/-- `gen_el`: the list head is prepended to, so new elements come last. -/
def genEl (m : Memory) (seg : SegId) (type : ScType) : Memory × ElemId :=
  let e := m.nextElem
  let m := m.newElem (Element.new type false true)
  (m.modifySeg seg fun sg => { sg with elements := sg.elements ++ [e] }, e)

/-- `create_link`: the list head is appended to, so links come first. -/
def createLink (m : Memory) (seg : SegId) (targetUri : ScString) : Memory × ElemId :=
  let e := m.nextElem
  let m := m.newElem { Element.new ScType.empty true false with idtf := targetUri }
  (m.modifySeg seg fun sg => { sg with elements := e :: sg.elements }, e)

/-- `register_idtf`: `std::map::insert`, which refuses a key that is there. -/
def registerIdtf (m : Memory) (seg : SegId) (idtf : ScString) (e : ElemId) : Option Memory :=
  if ((m.segs seg).idtfMap idtf).isSome then none
  else some (m.modifySeg seg fun sg =>
    { sg with idtfMap := fun k => if k = idtf then some e else sg.idtfMap k })

def deregisterIdtf (m : Memory) (seg : SegId) (idtf : ScString) : Memory :=
  m.modifySeg seg fun sg => { sg with idtfMap := fun k => if k = idtf then none else sg.idtfMap k }

def eraseEl (m : Memory) (seg : SegId) (e : ElemId) : Option Memory := do
  let el ← m.elems e
  let m := if !el.isLink && el.hasIdtf then deregisterIdtf m seg el.idtf else m
  some ((m.modifySeg seg fun sg => { sg with elements := sg.elements.erase e }).freeElem e)

/-- `%x` of an unsigned int. -/
def hex (n : Nat) : ScString := ((Nat.toDigits 16 n).map fun c => c.toNat.toUInt8)

/-- `generate_idtf`: `"@@" + current_tmp_prefix + "@"` and the counter in hex. -/
def generateIdtf (m : Memory) (seg : SegId) (e : ElemId) : Option Memory := do
  let idtf := [64, 64] ++ (m.segs seg).tmpPrefix ++ [64] ++ hex (m.idtfCounter % 2 ^ 32)
  let m := { m with idtfCounter := m.idtfCounter + 1 }
  let m ← registerIdtf m seg idtf e
  m.modifyElem e fun el => { el with idtf := idtf, missingIdtf := false }

def getIdtf (m : Memory) (seg : SegId) (e : ElemId) : Option (Memory × ScString) := do
  let el ← m.elems e
  let m ← if el.hasIdtf then some m else generateIdtf m seg e
  let el ← m.elems e
  some (m, el.idtf)

def eraseIdtf (m : Memory) (seg : SegId) (e : ElemId) : Option Memory := do
  let el ← m.elems e
  if el.hasIdtf then
    (deregisterIdtf m seg el.idtf).modifyElem e fun el => { el with missingIdtf := true }
  else some m

def setIdtf (m : Memory) (seg : SegId) (e : ElemId) (idtf : ScString) :
    Option (Memory × Retval) := do
  let el ← m.elems e
  if idtf = [] then
    let m ← eraseIdtf m seg e
    some (m, rvOk)
  else if el.hasIdtf && el.idtf == idtf then some (m, rvOk)
  else
    match registerIdtf m seg idtf e with
    | none => some (m, rvErrGen)
    | some m =>
        let m := if el.hasIdtf then deregisterIdtf m seg el.idtf else m
        let m ← m.modifyElem e fun el => { el with idtf := idtf, missingIdtf := false }
        some (m, rvOk)

def findByIdtf (m : Memory) (seg : SegId) (idtf : ScString) : Option ElemId :=
  (m.segs seg).idtfMap idtf

def changeType (m : Memory) (e : ElemId) (type : ScType) : Option Memory :=
  m.modifyElem e fun el => { el with type := type }

def setLinkTarget (m : Memory) (e : ElemId) (target : ScString) : Option Memory :=
  m.modifyElem e fun el => { el with idtf := target }

def setContent (m : Memory) (e : ElemId) (c : Content) : Option Memory :=
  m.modifyElem e fun el => { el with cont := c }

def setElementAddr (m : Memory) (e : ElemId) (a : Option Addr) : Option Memory :=
  m.modifyElem e fun el => { el with addr := a }

end TmpSegment

end ScCore.Store
