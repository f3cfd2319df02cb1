import ScCore.Store.Address

/-!
# Session operations on elements

The calls of `session_base` that create elements, set and clear the ends of
arcs and change types. A session is the set of segments it has opened. Of the
events, only the handlers that can refuse an operation are kept: they are a
parameter, free to look at the whole memory.
-/

namespace ScCore.Store

structure Session where
  opened : SegId → Bool

def systemSession : Session := ⟨fun _ => true⟩

/-- The `_PRE` wait types. -/
inductive WaitType where
  | diePreReal
  | attachInputPre
  | attachOutputPre
  | changeTypePre
  | detachInputPre
  | detachOutputPre
  | hackSetMemberPre
  | hackInSetPre
  deriving DecidableEq, Repr

/-- `activate` of a `_PRE` wait: whether a handler attached to the address
refuses, given the parameters the caller filled in. -/
abbrev Waits := Memory → Addr → WaitType → List Addr → Bool

def noWaits : Waits := fun _ _ _ _ => false

namespace Session

variable (ss : Session) (w : Waits)

def access (m : Memory) (a : Option Addr) : Option Retval :=
  match a with
  | none => some rvErrGen
  | some a => do
      let g ← m.addrs a
      if g.dead then some rvErrGen
      else some (if ss.opened g.seg then rvOk else rvErrGen)

/-- `get_type`. On a failed access the error code is returned as a type. -/
def getType (m : Memory) (a : Addr) : Option ScType := do
  let rv ← ss.access m (some a)
  if rv ≠ rvOk then some 0xFFFF
  else
    let g ← m.addrs a
    let el ← m.elems g.impl
    some el.type

/-- `get_element_addr` of an end that may be null. -/
def endAddr (m : Memory) (ll : Option ElemId) : Option (Option Addr) :=
  match ll with
  | none => some none
  | some e => do
      let el ← m.elems e
      some el.addr

def verifyTypeChanging (m : Memory) (a : Addr) (newType : ScType) : Option Bool := do
  let g ← m.addrs a
  let el ← m.elems g.impl
  let syn := el.type.syntactic
  if syn = .undf then some true
  else if syn = .node then
    if newType.isa .node then some true
    else some (g.qnt .beg == 0)
  else if syn = .edge ∨ syn = .arc ∨ syn = .arcAccessory then
    if newType.isConnector then some true
    else some ((el.ends .beg).isNone && (el.ends .fin).isNone)
  else some true

def changeType (m : Memory) (a : Addr) (newType : ScType) : Option (Memory × Retval) := do
  let rv ← ss.access m (some a)
  if rv ≠ rvOk then some (m, rv)
  else
    match newType.verify with
    | none => some (m, rvErrGen)
    | some newType => do
        let g ← m.addrs a
        let el ← m.elems g.impl
        if el.type = newType then some (m, rvOk)
        else
          let allowed ← verifyTypeChanging m a newType
          if !allowed then some (m, rvErrGen)
          else if w m a .changeTypePre [a] then some (m, rvElseGen)
          else
            let m ← TmpSegment.changeType m g.impl newType
            some (m, rvOk)

def ensureLinkTo (m : Memory) (seg : SegId) (a : Addr) : Option (Memory × ElemId) := do
  let g ← m.addrs a
  if g.seg = seg then some (m, g.impl)
  else
    match g.findLink seg with
    | some link => some (m, link.impl)
    | none => do
        let (m, str) ← TmpSegment.getIdtf m g.seg g.impl
        let (m, ll) := TmpSegment.createLink m seg ((m.segs g.seg).uri ++ [47] ++ str)
        let m ← GlobalAddr.addLink m a ⟨seg, ll⟩
        let m ← TmpSegment.setElementAddr m ll (some a)
        some (m, ll)

def eraseLonelyLinkTo (m : Memory) (seg : SegId) (a : Addr) : Option Memory := do
  let g ← m.addrs a
  if g.seg = seg then some m
  else
    match g.findLink seg with
    | none => some m
    | some link => do
        let el ← m.elems link.impl
        if el.qnt .fin + el.qnt .beg = 0 then
          let m ← TmpSegment.eraseEl m seg link.impl
          GlobalAddr.removeLink m a link
        else some m

/-- `set_beg_pre`: the refusals asked for before the begin is set or cleared. -/
def setBegPre (m : Memory) (arc : Addr) (beg : Option Addr) : Option Bool := do
  let g ← m.addrs arc
  let el ← m.elems g.impl
  match beg with
  | none => do
      match ← endAddr m (el.ends .beg) with
      | some a => some (w m a .detachOutputPre [a, arc])
      | none => some false
  | some b => do
      if w m b .attachOutputPre [arc] then some true
      else
        match ← endAddr m (el.ends .fin) with
        | some e => some (w m b .hackSetMemberPre [b, arc, e] || w m e .hackInSetPre [b, arc, e])
        | none => some false

def setEndPre (m : Memory) (arc : Addr) (fin : Option Addr) : Option Bool := do
  let g ← m.addrs arc
  let el ← m.elems g.impl
  match fin with
  | none => do
      match ← endAddr m (el.ends .fin) with
      | some a => some (w m a .detachInputPre [arc, a])
      | none => some false
  | some e => do
      if w m e .attachInputPre [arc, e] then some true
      else
        match ← endAddr m (el.ends .beg) with
        | some b => some (w m e .hackInSetPre [b, arc, e] || w m b .hackSetMemberPre [b, arc, e])
        | none => some false

/-- `down_out_qnt` and `down_in_qnt`. -/
def downQnt (s : Endpoint) (m : Memory) (a : Addr) : Option Memory :=
  m.modifyAddr a fun g => g.setQnt s (g.qnt s - 1)

/-- `up_out_qnt` and `up_in_qnt`. -/
def upQnt (s : Endpoint) (m : Memory) (a : Addr) : Option Memory :=
  m.modifyAddr a fun g => g.setQnt s (g.qnt s + 1)

/-- The branch of `__set_beg` and `__set_end` that clears an end. -/
def clearEnd (s : Endpoint) (m : Memory) (arc : ElemId) (old : Option Addr) : Option Memory := do
  let m ← TmpSegment.setEndpoint s m arc none
  match old with
  | some a => downQnt s m a
  | none => some m

/-- The branch of `__set_beg` and `__set_end` that links the new end into the
arc's segment and attaches the arc to it. -/
def linkEnd (s : Endpoint) (m : Memory) (seg : SegId) (arc : ElemId) (a : Addr) :
    Option Memory := do
  let (m, ll) ← ensureLinkTo m seg a
  let m ← TmpSegment.setEndpoint s m arc (some ll)
  upQnt s m a

/-- `__set_beg`. -/
def setBegCore (m : Memory) (arc : Addr) (beg : Option Addr) : Option (Memory × Retval) := do
  let g ← m.addrs arc
  let el ← m.elems g.impl
  let ll := el.ends .beg
  let a ← endAddr m ll
  if ll.isSome ∧ a = beg then some (m, rvOk)
  else
    match beg with
    | none => do
        let m ← clearEnd .beg m g.impl a
        some (m, rvOk)
    | some b => do
        let begType ← ss.getType m b
        if begType.isConnector then some (m, rvErrGen)
        else
          let m ←
            if begType &&& .undf ≠ 0 then do
              -- The result of `change_type` is not looked at.
              let (m, _) ← ss.changeType w m b ((begType &&& ~~~.syntacticMask) ||| .node)
              some m
            else some m
          let m ← linkEnd .beg m g.seg g.impl b
          some (m, rvOk)

/-- `__set_end`. -/
def setEndCore (m : Memory) (arc : Addr) (fin : Option Addr) : Option (Memory × Retval) := do
  let g ← m.addrs arc
  let el ← m.elems g.impl
  let ll := el.ends .fin
  let a ← endAddr m ll
  if ll.isSome ∧ a = fin then some (m, rvOk)
  else
    match fin with
    | none => do
        let m ← clearEnd .fin m g.impl a
        some (m, rvOk)
    | some e => do
        let m ← linkEnd .fin m g.seg g.impl e
        some (m, rvOk)

/-- `__access(arc) || (end && __access(end))`. -/
def accessBoth (m : Memory) (arc : Option Addr) (target : Option Addr) : Option Retval := do
  let rv ← ss.access m arc
  if rv ≠ rvOk then some rv
  else
    match target with
    | none => some rvOk
    | some t => ss.access m (some t)

def setBeg (m : Memory) (arc : Option Addr) (beg : Option Addr) : Option (Memory × Retval) := do
  let rv ← ss.accessBoth m arc beg
  if rv ≠ rvOk then some (m, rv)
  else
    let arc ← arc
    let type ← ss.getType m arc
    if !type.isConnector then some (m, rvErrGen)
    else if ← setBegPre w m arc beg then some (m, rvElseGen)
    else ss.setBegCore w m arc beg

def setEnd (m : Memory) (arc : Option Addr) (fin : Option Addr) : Option (Memory × Retval) := do
  let rv ← ss.accessBoth m arc fin
  if rv ≠ rvOk then some (m, rv)
  else
    let arc ← arc
    let type ← ss.getType m arc
    if !type.isConnector then some (m, rvErrGen)
    else if ← setEndPre w m arc fin then some (m, rvElseGen)
    else setEndCore m arc fin

def createEl (m : Memory) (seg : SegId) (type : ScType) : Option (Memory × Option Addr × Retval) :=
  if !ss.opened seg then some (m, none, rvErrGen)
  else
    match type.verify with
    | none => some (m, none, rvErrGen)
    | some type => do
        let (m, ll) := TmpSegment.genEl m seg type
        let el ← m.elems ll
        let a := m.nextAddr
        let m := m.newAddr ⟨seg, ll, [], refcntBarrier, false, false, 0, el.qnt⟩
        let m ← TmpSegment.setElementAddr m ll (some a)
        some (m, some a, rvOk)

/-- The links of `a` take the new uri. -/
def retargetLinks (m : Memory) (target : ScString) : List LinkAddr → Option Memory
  | [] => some m
  | l :: rest => do
      let m ← TmpSegment.setLinkTarget m l.impl target
      retargetLinks m target rest

def setIdtf (m : Memory) (a : Addr) (idtf : ScString) : Option (Memory × Retval) := do
  let rv ← ss.access m (some a)
  if rv ≠ rvOk then some (m, rv)
  else
    let g ← m.addrs a
    let (m, rv) ← TmpSegment.setIdtf m g.seg g.impl idtf
    if rv ≠ rvOk then some (m, rv)
    else
      let m ← retargetLinks m ((m.segs g.seg).uri ++ [47] ++ idtf) g.links
      some (m, rvOk)

def eraseIdtf (m : Memory) (a : Addr) : Option (Memory × Retval) := do
  let rv ← ss.access m (some a)
  if rv ≠ rvOk then some (m, rv)
  else
    let g ← m.addrs a
    let m ← TmpSegment.eraseIdtf m g.seg g.impl
    some (m, rvOk)

/-- `get_idtf`. On a failed access the string is empty. -/
def getIdtf (m : Memory) (a : Addr) : Option (Memory × ScString) := do
  let rv ← ss.access m (some a)
  if rv ≠ rvOk then some (m, [])
  else
    let g ← m.addrs a
    TmpSegment.getIdtf m g.seg g.impl

/-- `get_out_qnt` and `get_in_qnt` of the session: the sum over the elements
that the walk over the links meets. -/
def sumQnt (s : Endpoint) (m : Memory) : List LinkAddr → Option Int
  | [] => some 0
  | st :: rest => do
      let el ← m.elems st.impl
      let cnt ← sumQnt s m rest
      some (el.qnt s + cnt)

def getQnt (s : Endpoint) (m : Memory) (a : Addr) : Option Int := do
  let g ← m.addrs a
  sumQnt s m g.stores

def getOutQnt := getQnt .beg
def getInQnt := getQnt .fin

end Session

end ScCore.Store
