import ScCore.Lib.UndoLog
import ScCore.Store.Frame

/-!
# Mini-transactions

`sc_transaction` forwards the calls of a session to its host. It logs the ends
it changes and the elements it creates, puts erasures off until `commit`, and
takes what it has logged back in `rollback`. What it forwards without logging
stays done.
-/

namespace ScCore.Store

open Memory TmpSegment

/-- `trans_pair`: an arc and the end it had. -/
abbrev TransPair := Option Addr × Option Addr

/-- `sc_transaction`; `orig .beg` and `orig .fin` are `orig_beg` and `orig_end`. -/
structure Transaction where
  erasedElems : List Addr
  orig : Endpoint → List TransPair
  genedElems : List Addr
  needRollback : Bool

/-- The constructor of `sc_transaction`. -/
def Transaction.new : Transaction := ⟨[], fun _ => [], [], true⟩

structure TxState where
  memory : Memory
  refs : Addr → Nat
  tx : Transaction

def TxState.start (st : State) : TxState := ⟨st.memory, st.refs, Transaction.new⟩

namespace Session

variable (ss : Session)

/-- `get_beg` and `get_end`. -/
def getEnd (s : Endpoint) (m : Memory) (arc : Option Addr) : Option (Option Addr) := do
  let rv ← ss.access m arc
  if rv ≠ rvOk then some none
  else
    let arc ← arc
    let g ← m.addrs arc
    let el ← m.elems g.impl
    if !el.type.isConnector then some none
    else
      match el.ends s with
      | none => some none
      | some ll => do
          let a ← endAddr m (some ll)
          let rv ← ss.access m a
          if rv ≠ rvOk then some none else some a

end Session

namespace Transaction

variable (ss : Session) (w : Waits)

/-- `sc_transaction::set_beg` and `sc_transaction::set_end`. -/
def setEndpoint (s : Endpoint) (st : TxState) (arc target : Option Addr) :
    Option (TxState × Retval) := do
  let old ← ss.getEnd s st.memory arc
  let (m, rv) ← ss.setEnds w s st.memory arc target
  if rv ≠ rvOk then
    let (m, _) ← ss.setEnds w s m arc old
    some ({ st with memory := m }, rv)
  else
    let tx := { st.tx with
      orig := fun t => if t = s then st.tx.orig s ++ [(arc, old)] else st.tx.orig t }
    some ({ st with memory := m, tx := tx }, rv)

def setBeg := setEndpoint ss w .beg
def setEnd := setEndpoint ss w .fin

def createEl (st : TxState) (seg : SegId) (type : ScType) :
    Option (TxState × Option Addr × Retval) := do
  let (m, a, rv) ← ss.createEl st.memory seg type
  match a with
  | none => some ({ st with memory := m }, none, rv)
  | some a =>
      let tx := { st.tx with genedElems := st.tx.genedElems ++ [a] }
      some ({ st with memory := m, tx := tx }, some a, rv)

/-- `sc_transaction::erase_el` takes a reference and erases nothing yet. -/
def eraseEl (st : TxState) (a : Addr) : Option (TxState × Retval) := do
  let g ← st.memory.addrs a
  if !ss.opened g.seg then some (st, rvErrGen)
  else
    let m ← GlobalAddr.ref st.memory a
    let tx := { st.tx with erasedElems := st.tx.erasedElems ++ [a] }
    some (⟨m, fun b => if b = a then st.refs b + 1 else st.refs b, tx⟩, rvOk)

/-- One of the two loops of `rollback` over a log, newest entry first. -/
def restore (s : Endpoint) (m : Memory) : List TransPair → Option Memory
  | [] => some m
  | (arc, old) :: rest => do
      let (m, _) ← ss.setEnds w s m arc old
      restore s m rest

/-- The loop of `rollback` over the created elements, newest first. -/
def eraseGened (fuel : Nat) (m : Memory) : List Addr → Option Memory
  | [] => some m
  | a :: rest => do
      let (m, _) ← ss.eraseEl w fuel m (some a)
      eraseGened fuel m rest

/-- `sc_transaction::rollback`, of a transaction that has created no segments. -/
def rollback (fuel : Nat) (st : TxState) : Option Memory :=
  if st.tx.needRollback then do
    let m ← restore ss w .beg st.memory (st.tx.orig .beg).reverse
    let m ← restore ss w .fin m (st.tx.orig .fin).reverse
    eraseGened ss w fuel m st.tx.genedElems.reverse
  else some st.memory

end Transaction

/-- The calls of a client of a transaction. `gen3_f_a_f`, `gen5_f_a_f_a_f` and
`change_type` are those of the proxy, which hands them to the host. -/
inductive TxOp where
  | createEl (seg : SegId) (type : ScType)
  | setBeg (arc beg : Option Addr)
  | setEnd (arc fin : Option Addr)
  | gen3 (e1 : Option Addr) (s2 : SegId) (t2 : ScType) (e3 : Option Addr)
  | gen5 (e1 : Option Addr) (s2 : SegId) (t2 : ScType) (e3 : Option Addr) (s4 : SegId)
      (t4 : ScType) (e5 : Option Addr)
  | changeType (a : Addr) (type : ScType)
  | eraseEl (a : Addr)

def TxOp.exec (ss : Session) (w : Waits) (fuel : Nat) (op : TxOp) (st : TxState) :
    Option TxState :=
  let m := st.memory
  match op with
  | .createEl seg type => (Transaction.createEl ss st seg type).map (·.1)
  | .setBeg arc beg => (Transaction.setBeg ss w st arc beg).map (·.1)
  | .setEnd arc fin => (Transaction.setEnd ss w st arc fin).map (·.1)
  | .gen3 e1 s2 t2 e3 =>
      (ss.gen3 w fuel m e1 s2 t2 e3).map fun p => { st with memory := p.1 }
  | .gen5 e1 s2 t2 e3 s4 t4 e5 =>
      (ss.gen5 w fuel m e1 s2 t2 e3 s4 t4 e5).map fun p => { st with memory := p.1 }
  | .changeType a type => (ss.changeType w m a type).map fun p => { st with memory := p.1 }
  | .eraseEl a => (Transaction.eraseEl ss st a).map (·.1)

/-- A condition on a call and the state it finds. -/
abbrev TxGuard := Waits → TxOp → TxState → Prop

inductive TxReaches (ss : Session) (ok : TxGuard) : TxState → TxState → Prop where
  | refl (st : TxState) : TxReaches ss ok st st
  | step {st st₁ st₂ : TxState} (w : Waits) (fuel : Nat) (op : TxOp) :
      TxReaches ss ok st st₁ → ok w op st₁ → op.exec ss w fuel st₁ = some st₂ →
      TxReaches ss ok st st₂

/-- What a rollback should leave: the elements that were live, with the types, the ends and
the arcs that they had, and no other. -/
structure Restored (m m' : Memory) : Prop where
  live : ∀ a, m'.liveAddr a = m.liveAddr a
  type : ∀ a, m.liveAddr a = true → m'.typeOf a = m.typeOf a
  ends : ∀ a s, m.liveAddr a = true → m'.endOf a s = m.endOf a s
  arcs : ∀ a s x, m.liveAddr a = true → (m'.HasArc s a x ↔ m.HasArc s a x)

section Guards

variable (ss : Session) (w : Waits) (m₀ m : Memory)

/-- An arc can be made to begin or end at `b` again, at no cost: `set_beg` refuses
connectors and turns undefined elements into nodes. -/
structure Restorable (s : Endpoint) (b : Addr) : Prop where
  access : ss.access m₀ (some b) = some rvOk
  plain : s = .beg → ∀ t, m₀.typeOf b = some t → t.isConnector = false ∧ t &&& .undf = 0

/-- `set_beg` and `set_end` get past their checks. -/
def setPasses (s : Endpoint) (arc target : Option Addr) : Prop :=
  match s with
  | .beg => begPasses ss w m arc target
  | .fin => endPasses ss w m arc target

def movesEnd (s : Endpoint) (arc target : Option Addr) : Prop :=
  setPasses ss w m s arc target ∧ ∃ x, arc = some x ∧ m.endOf x s ≠ target

/-- A call that sets an end can be taken back: the host has access to the end an arc has,
and an end that is moved is one that the host can set again, if it is of an element that
was there at first, and so is the new one. -/
structure EndUndoable (s : Endpoint) (arc target : Option Addr) : Prop where
  access : ∀ x b, arc = some x → ss.access m (some x) = some rvOk → m.endOf x s = some b →
    ss.access m (some b) = some rvOk
  old : movesEnd ss w m s arc target → ∀ x b, arc = some x → m.endOf x s = some b →
    m₀.liveAddr b = true → s = .beg → ∀ t, m.typeOf b = some t →
    t.isConnector = false ∧ t &&& .undf = 0
  new : movesEnd ss w m s arc target → ∀ b, target = some b → m₀.liveAddr b = true →
    s = .beg → ∀ t, m.typeOf b = some t → t &&& .undf = 0

/-- `gen3_f_a_f` gets as far as creating the arc. -/
def gen3Creates (e1 : Option Addr) (s2 : SegId) (t2 : ScType) (e3 : Option Addr) : Prop :=
  ss.access m e1 = some rvOk ∧ ss.access m e3 = some rvOk ∧ ss.opened s2 = true ∧
    t2.verify ≠ none

def typeChanges (a : Addr) (type : ScType) : Prop :=
  ∃ t, type.verify = some t ∧ ss.access m (some a) = some rvOk ∧ m.typeOf a ≠ some t ∧
    Session.verifyTypeChanging m a t = some true ∧ w m a .changeTypePre [a] = false

/-- Calls whose effects a transaction that was started in `m₀` can take back. -/
def undoable : TxGuard := fun w op st =>
  match op with
  | .createEl _ _ => True
  | .setBeg arc beg => EndUndoable ss w m₀ st.memory .beg arc beg
  | .setEnd arc fin => EndUndoable ss w m₀ st.memory .fin arc fin
  | .gen3 e1 s2 t2 e3 => ¬gen3Creates ss st.memory e1 s2 t2 e3
  | .gen5 e1 s2 t2 e3 _ _ _ => ¬gen3Creates ss st.memory e1 s2 t2 e3
  | .changeType a type =>
      arcsKeepType ss w (.changeType a type) st.memory ∧
        (m₀.liveAddr a = true → ¬typeChanges ss w st.memory a type)
  | .eraseEl _ => True

/-- No wait refuses a call of a loop of `rollback` over a log. -/
def RestoreCalm (ss : Session) (w : Waits) (s : Endpoint) : Memory → List TransPair → Prop
  | _, [] => True
  | m, (arc, old) :: rest =>
      (∀ x, arc = some x → setPre w s m x old ≠ some true) ∧
        ∀ m' rv, ss.setEnds w s m arc old = some (m', rv) → RestoreCalm ss w s m' rest

/-- No wait refuses an erasure of `rollback`. -/
def EraseCalm (ss : Session) (w : Waits) (fuel : Nat) : Memory → List Addr → Prop
  | _, [] => True
  | m, a :: rest =>
      Session.eraseElPre w m fuel a ≠ some true ∧
        ∀ m' rv, ss.eraseEl w fuel m (some a) = some (m', rv) → EraseCalm ss w fuel m' rest

/-- No wait refuses a call of `rollback`. -/
structure RollbackCalm (ss : Session) (w : Waits) (fuel : Nat) (st : TxState) : Prop where
  begs : RestoreCalm ss w .beg st.memory (st.tx.orig .beg).reverse
  ends : ∀ m, Transaction.restore ss w .beg st.memory (st.tx.orig .beg).reverse = some m →
    RestoreCalm ss w .fin m (st.tx.orig .fin).reverse
  gened : ∀ m m', Transaction.restore ss w .beg st.memory (st.tx.orig .beg).reverse = some m →
    Transaction.restore ss w .fin m (st.tx.orig .fin).reverse = some m' →
    EraseCalm ss w fuel m' st.tx.genedElems.reverse

end Guards

end ScCore.Store
