import ScCore.Types

/-!
# The storage of the sc-memory

Elements, arc-list nodes and addresses are reached through pointers in the
source. Here each kind has its own heap, a partial map from identities that
are never reused, so a freed pointer is one that maps to `none`. The begin and
the end of an arc are handled alike almost everywhere; fields that come in
such a pair are functions of the `Endpoint` they belong to.
-/

namespace ScCore.Store

abbrev SegId := Nat
/-- `sc_addr_ll`, a pointer to an `element`. -/
abbrev ElemId := Nat
/-- A pointer to an `element_link`. -/
abbrev NodeId := Nat
/-- `sc_addr`, a pointer to a `sc_global_addr`. -/
abbrev Addr := Nat

inductive Endpoint where
  | beg
  | fin
  deriving DecidableEq, Repr

/-- `Content`. Strings and data carry their bytes without the closing zero;
a real is carried as its bits. -/
inductive Content where
  | empty
  | string (bytes : ScString)
  | int (i : Int)
  | real (bits : UInt64)
  | data (bytes : ScString)
  | lazy (uri : ScString)
  deriving DecidableEq, Repr

/-- `element_link`, a node of the list of arcs that begin or end at an element. -/
structure ElementLink where
  value : ElemId
  refcnt : Int
  dead : Bool
  deriving DecidableEq, Repr

/-- `element`. `arcs .beg` is the list `output` and `arcs .fin` the list
`input`; `qnt` is `out_qnt` and `in_qnt`, `ends` is `beg` and `end`, and `hint`
is `beg_hint` and `end_hint`. -/
structure Element where
  addr : Option Addr
  type : ScType
  qnt : Endpoint → Int
  arcs : Endpoint → List NodeId
  ends : Endpoint → Option ElemId
  hint : Endpoint → Option NodeId
  cont : Content
  idtf : ScString
  isLink : Bool
  missingIdtf : Bool

/-- The constructor of `element`. -/
def Element.new (type : ScType) (isLink missingIdtf : Bool) : Element where
  addr := none
  type := type
  qnt _ := 0
  arcs _ := []
  ends _ := none
  hint _ := none
  cont := .empty
  idtf := []
  isLink := isLink
  missingIdtf := missingIdtf

namespace Element

def hasIdtf (e : Element) : Bool := !e.missingIdtf

def setQnt (s : Endpoint) (v : Int) (e : Element) : Element :=
  { e with qnt := fun t => if t = s then v else e.qnt t }

def setArcs (s : Endpoint) (l : List NodeId) (e : Element) : Element :=
  { e with arcs := fun t => if t = s then l else e.arcs t }

def setEnd (s : Endpoint) (v : Option ElemId) (e : Element) : Element :=
  { e with ends := fun t => if t = s then v else e.ends t }

def setHint (s : Endpoint) (v : Option NodeId) (e : Element) : Element :=
  { e with hint := fun t => if t = s then v else e.hint t }

end Element

structure LinkAddr where
  seg : SegId
  impl : ElemId
  deriving DecidableEq, Repr

def refcntBarrier : Int := 0x100

/-- `sc_global_addr`; `qnt` is `out_qnt` and `in_qnt`. -/
structure GlobalAddr where
  seg : SegId
  impl : ElemId
  links : List LinkAddr
  refcnt : Int
  dead : Bool
  zombie : Bool
  linksQnt : Nat
  qnt : Endpoint → Int

def GlobalAddr.setQnt (s : Endpoint) (v : Int) (g : GlobalAddr) : GlobalAddr :=
  { g with qnt := fun t => if t = s then v else g.qnt t }

/-- `tmp_segment`, with the full uri and the `current_tmp_prefix` that its
repository gives it. -/
structure Segment where
  uri : ScString
  tmpPrefix : ScString
  elements : List ElemId
  idtfMap : ScString → Option ElemId

structure Memory where
  segs : SegId → Segment
  elems : ElemId → Option Element
  nodes : NodeId → Option ElementLink
  addrs : Addr → Option GlobalAddr
  nextElem : ElemId
  nextNode : NodeId
  nextAddr : Addr
  /-- The counter of `generate_idtf`. -/
  idtfCounter : Nat

namespace Memory

def empty (uri tmpPrefix : SegId → ScString) : Memory where
  segs i := ⟨uri i, tmpPrefix i, [], fun _ => none⟩
  elems _ := none
  nodes _ := none
  addrs _ := none
  nextElem := 0
  nextNode := 0
  nextAddr := 0
  idtfCounter := 0

def modifySeg (m : Memory) (i : SegId) (f : Segment → Segment) : Memory :=
  { m with segs := fun j => if j = i then f (m.segs i) else m.segs j }

/-- Write through an element pointer; a freed pointer stops the run. -/
def modifyElem (m : Memory) (e : ElemId) (f : Element → Element) : Option Memory := do
  let el ← m.elems e
  some { m with elems := fun x => if x = e then some (f el) else m.elems x }

def modifyNode (m : Memory) (n : NodeId) (f : ElementLink → ElementLink) : Option Memory := do
  let l ← m.nodes n
  some { m with nodes := fun x => if x = n then some (f l) else m.nodes x }

def modifyAddr (m : Memory) (a : Addr) (f : GlobalAddr → GlobalAddr) : Option Memory := do
  let g ← m.addrs a
  some { m with addrs := fun x => if x = a then some (f g) else m.addrs x }

def newElem (m : Memory) (el : Element) : Memory :=
  { m with
    elems := fun x => if x = m.nextElem then some el else m.elems x
    nextElem := m.nextElem + 1 }

def newNode (m : Memory) (l : ElementLink) : Memory :=
  { m with
    nodes := fun x => if x = m.nextNode then some l else m.nodes x
    nextNode := m.nextNode + 1 }

def newAddr (m : Memory) (g : GlobalAddr) : Memory :=
  { m with
    addrs := fun x => if x = m.nextAddr then some g else m.addrs x
    nextAddr := m.nextAddr + 1 }

def freeElem (m : Memory) (e : ElemId) : Memory :=
  { m with elems := fun x => if x = e then none else m.elems x }

def freeNode (m : Memory) (n : NodeId) : Memory :=
  { m with nodes := fun x => if x = n then none else m.nodes x }

def freeAddr (m : Memory) (a : Addr) : Memory :=
  { m with addrs := fun x => if x = a then none else m.addrs x }

def liveNode (m : Memory) (n : NodeId) : Bool :=
  match m.nodes n with
  | some l => !l.dead
  | none => false

def liveAddr (m : Memory) (a : Addr) : Bool :=
  match m.addrs a with
  | some g => !g.dead
  | none => false

end Memory

end ScCore.Store
