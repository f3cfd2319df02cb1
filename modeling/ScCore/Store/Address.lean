import ScCore.Store.Segment

/-!
# Addresses and arc iterators

The reference-counted `sc_global_addr` of `sc_core.cpp` and the `tmp_iterator`
that walks an arc list while holding the node and the arc it stands on.
-/

namespace ScCore.Store

namespace GlobalAddr

/-- The own element and the links, in the order of `sc_global_addr::links`. -/
def stores (g : GlobalAddr) : List LinkAddr := ⟨g.seg, g.impl⟩ :: g.links

def ref (m : Memory) (a : Addr) : Option Memory :=
  m.modifyAddr a fun g => { g with refcnt := g.refcnt + 1 }

/-- `seg->erase_el` on every element of a list, in order. -/
def eraseStores (m : Memory) : List LinkAddr → Option Memory
  | [] => some m
  | st :: rest => do
      let m ← TmpSegment.eraseEl m st.seg st.impl
      eraseStores m rest

/-- `__sc_addr_erase_el` of an address that is not a plain set. -/
def eraseAddr (m : Memory) (a : Addr) : Option Memory := do
  let g ← m.addrs a
  let m ← eraseStores m (if g.zombie then g.links else g.stores)
  some (m.freeAddr a)

def unref (m : Memory) (a : Addr) : Option Memory := do
  let g ← m.addrs a
  let m ← m.modifyAddr a fun g => { g with refcnt := g.refcnt - 1 }
  if g.refcnt - 1 = 0 then eraseAddr m a else some m

/-- `sc_global_addr::die`, with no observer registered. -/
def die (m : Memory) (a : Addr) : Option Memory := do
  let g ← m.addrs a
  if g.dead then some m
  else
    let m ← m.modifyAddr a fun g =>
      { g with dead := true, refcnt := g.refcnt - refcntBarrier }
    if g.refcnt - refcntBarrier = 0 then eraseAddr m a else some m

/-- `find_link`: the links are kept ordered by segment. -/
def findLink (g : GlobalAddr) (seg : SegId) : Option LinkAddr :=
  match g.links.dropWhile fun l => decide (l.seg < seg) with
  | [] => none
  | l :: _ => if l.seg = seg then some l else none

/-- `insert_link` before the first link whose segment is not smaller. -/
def insertLink (la : LinkAddr) : List LinkAddr → List LinkAddr
  | [] => [la]
  | l :: rest => if l.seg < la.seg then l :: insertLink la rest else la :: l :: rest

def addLink (m : Memory) (a : Addr) (la : LinkAddr) : Option Memory := do
  let el ← m.elems la.impl
  m.modifyAddr a fun g =>
    { g with
      links := insertLink la g.links
      linksQnt := g.linksQnt + 1
      qnt := fun s => g.qnt s + el.qnt s }

def removeLink (m : Memory) (a : Addr) (la : LinkAddr) : Option Memory :=
  m.modifyAddr a fun g =>
    { g with links := g.links.erase la, linksQnt := g.linksQnt - 1 }

end GlobalAddr

/-- `tmp_iterator`. `curr` is `none` when `curr == first`; otherwise it is the
node the iterator stands on with `curr_addr`. -/
structure TmpIterator where
  owner : ElemId
  side : Endpoint
  curr : Option (NodeId × Addr)

namespace TmpIterator

/-- Follow `next` past dead nodes and nodes whose arc has no address. -/
def firstLive (m : Memory) : List NodeId → Option (Option (NodeId × Addr))
  | [] => some none
  | n :: rest => do
      let l ← m.nodes n
      if l.dead then firstLive m rest
      else
        let v ← m.elems l.value
        match v.addr with
        | none => firstLive m rest
        | some a => some (some (n, a))

/-- The nodes between `n` and the head of the ring. -/
def after (n : NodeId) (nodes : List NodeId) : List NodeId :=
  (nodes.dropWhile fun x => decide (x ≠ n)).tail

def next (m : Memory) (it : TmpIterator) : Option (Memory × TmpIterator) :=
  match it.curr with
  | none => some (m, it)
  | some (n, a) => do
      let owner ← m.elems it.owner
      let found ← firstLive m (after n (owner.arcs it.side))
      let m ← ElementLink.unref m it.owner it.side n
      let m ← GlobalAddr.unref m a
      match found with
      | none => some (m, { it with curr := none })
      | some (n', a') => do
          let m ← ElementLink.ref m n'
          let m ← GlobalAddr.ref m a'
          some (m, { it with curr := some (n', a') })

/-- The constructor of `tmp_iterator`. -/
def create (m : Memory) (owner : ElemId) (side : Endpoint) : Option (Memory × TmpIterator) := do
  let o ← m.elems owner
  match o.arcs side with
  | [] => some (m, ⟨owner, side, none⟩)
  | n :: _ =>
      let l ← m.nodes n
      let v ← m.elems l.value
      -- Without an address the constructor calls `next`, which reads through a null pointer.
      let a ← v.addr
      let m ← GlobalAddr.ref m a
      let m ← ElementLink.ref m n
      let g ← m.addrs a
      if l.dead || g.dead then next m ⟨owner, side, some (n, a)⟩
      else some (m, ⟨owner, side, some (n, a)⟩)

/-- The destructor of `tmp_iterator`. -/
def destroy (m : Memory) (it : TmpIterator) : Option Memory :=
  match it.curr with
  | none => some m
  | some (n, a) => do
      let m ← GlobalAddr.unref m a
      ElementLink.unref m it.owner it.side n

def isOver (it : TmpIterator) : Bool := it.curr.isNone

end TmpIterator

end ScCore.Store
