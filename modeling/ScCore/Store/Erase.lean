import ScCore.Store.Session

/-!
# Erasing an element

`erase_el_pre` asks every element that the erasure will reach, `__erase_el`
detaches and kills it. Both recurse over the arcs that begin or end at the
element, in its own segment and in every segment that holds a link to it. The
recursion is cut off by a fuel argument; `none` is a run that is cut off or
has stopped.
-/

namespace ScCore.Store.Session

/-- The arcs a `tmp_iterator` yields on a list that nobody changes meanwhile. -/
def listedArcs (m : Memory) : List NodeId → Option (List Addr)
  | [] => some []
  | n :: rest => do
      let l ← m.nodes n
      let arcs ← listedArcs m rest
      if l.dead then some arcs
      else
        let v ← m.elems l.value
        match v.addr with
        | none => some arcs
        | some a => some (a :: arcs)

def incidentArcs (m : Memory) : List LinkAddr → Option (List Addr)
  | [] => some []
  | st :: rest => do
      let el ← m.elems st.impl
      let output ← listedArcs m (el.arcs .beg)
      let input ← listedArcs m (el.arcs .fin)
      let arcs ← incidentArcs m rest
      some (output ++ input ++ arcs)

def anyRefuses (ask : Addr → Option Bool) : List Addr → Option Bool
  | [] => some false
  | a :: rest => do
      if ← ask a then some true else anyRefuses ask rest

/-- The questions of `erase_el_pre` about the ends of an arc. The begin is asked
about twice, and the answers are dropped. -/
def askEnds (w : Waits) (m : Memory) (a : Addr) : Option Unit := do
  let type ← systemSession.getType m a
  if type.isConnector then
    let _ ← setBegPre w m a none
    let _ ← setBegPre w m a none
    some ()
  else some ()

/-- `erase_el_pre`. It only takes and drops references, so the memory is left
out of the result. -/
def eraseElPre (w : Waits) (m : Memory) : Nat → Addr → Option Bool
  | 0, _ => none
  | fuel + 1, a => do
      let g ← m.addrs a
      if w m a .diePreReal [a] then some true
      else
        askEnds w m a
        let arcs ← incidentArcs m g.stores
        anyRefuses (eraseElPre w m fuel) arcs

/-- `for (; !iter->is_over(); iter->next()) __erase_el(iter->value(0))`. -/
def eraseLoop (erase : Memory → Addr → Option Memory) :
    Nat → Memory → TmpIterator → Option Memory
  | 0, _, _ => none
  | fuel + 1, m, it =>
      match it.curr with
      | none => some m
      | some (_, v) => do
          let m ← erase m v
          let (m, it) ← it.next m
          eraseLoop erase fuel m it

def eraseArcsOf (erase : Memory → Addr → Option Memory) (fuel : Nat) (m : Memory)
    (ll : ElemId) : Option Memory := do
  let (m, it) ← TmpIterator.create m ll .beg
  let m ← eraseLoop erase fuel m it
  let (m, it) ← TmpIterator.create m ll .fin
  eraseLoop erase fuel m it

def eraseStoresArcs (erase : Memory → Addr → Option Memory) (fuel : Nat) (m : Memory) :
    List LinkAddr → Option Memory
  | [] => some m
  | st :: rest => do
      let m ← eraseArcsOf erase fuel m st.impl
      eraseStoresArcs erase fuel m rest

/-- Stage 1 of `__erase_el`: an arc forgets its ends. -/
def forgetEnds (ss : Session) (w : Waits) (m : Memory) (a : Addr) : Option Memory := do
  let type ← ss.getType m a
  if type.isConnector then
    let (m, _) ← setEndCore m a none
    let (m, _) ← ss.setBegCore w m a none
    some m
  else some m

/-- `__erase_el`. The arcs are erased by the system session. -/
def eraseElCore (w : Waits) : Nat → Session → Memory → Addr → Option Memory
  | 0, _, _, _ => none
  | fuel + 1, ss, m, a => do
      let m ← forgetEnds ss w m a
      let g ← m.addrs a
      let m ← eraseStoresArcs (eraseElCore w fuel systemSession) fuel m g.stores
      let (m, _) ← ss.eraseIdtf m a
      GlobalAddr.die m a

variable (ss : Session) (w : Waits)

def eraseEl (fuel : Nat) (m : Memory) (a : Option Addr) : Option (Memory × Retval) := do
  let rv ← ss.access m a
  if rv ≠ rvOk then some (m, rv)
  else
    let a ← a
    if ← eraseElPre w m fuel a then some (m, rvElseGen)
    else
      let m ← eraseElCore w fuel ss m a
      some (m, rvOk)

/-- `gen3_f_a_f`. A created arc that cannot be attached is erased again. -/
def gen3 (fuel : Nat) (m : Memory) (e1 : Option Addr) (s2 : SegId) (t2 : ScType)
    (e3 : Option Addr) : Option (Memory × Option Addr × Retval) := do
  let rv ← ss.access m e1
  if rv ≠ rvOk then some (m, none, rv)
  else
    let rv ← ss.access m e3
    if rv ≠ rvOk then some (m, none, rv)
    else
      let (m, ce2, rv) ← ss.createEl m s2 t2
      if rv ≠ rvOk then some (m, none, rv)
      else
        let (m, rv) ← ss.setBeg w m ce2 e1
        let (m, rv) ← if rv ≠ rvOk then some (m, rv) else ss.setEnd w m ce2 e3
        if rv ≠ rvOk then
          let (m, _) ← ss.eraseEl w fuel m ce2
          some (m, none, rv)
        else some (m, ce2, rvOk)

/-- `gen5_f_a_f_a_f`. When the second arc fails the error of erasing the first
one is returned. -/
def gen5 (fuel : Nat) (m : Memory) (e1 : Option Addr) (s2 : SegId) (t2 : ScType)
    (e3 : Option Addr) (s4 : SegId) (t4 : ScType) (e5 : Option Addr) :
    Option (Memory × Option (Addr × Addr) × Retval) := do
  let (m, ce2, rv) ← ss.gen3 w fuel m e1 s2 t2 e3
  match ce2 with
  | none => some (m, none, rv)
  | some ce2 => do
      let (m, ce4, _) ← ss.gen3 w fuel m e5 s4 t4 (some ce2)
      match ce4 with
      | none => do
          let (m, rv) ← ss.eraseEl w fuel m (some ce2)
          some (m, none, rv)
      | some ce4 => some (m, some (ce2, ce4), rvOk)

end ScCore.Store.Session
