import Mathlib.Data.List.Nodup
import ScCore.Store.Memory

/-!
# The lifetime of an address

`ref`, `unref` and `die` of `sc_global_addr` with its observers. The address counts its references,
and as long as it is not dead, `SC_ADDR_REFCNT_BARRIER` on top of them.
-/

namespace ScCore.Store

/-- The element of a segment. -/
structure AddrImpl where
  seg : Nat
  impl : Nat
  deriving DecidableEq, Repr

/-- A `die_handle`. -/
abbrev DieHandle := Nat

/-- `sc_global_addr`. The observers come in the order of their list. -/
structure CountedAddr where
  isSet : Bool
  store : AddrImpl
  links : List AddrImpl
  refcnt : Int
  dead : Bool
  zombie : Bool
  observers : List DieHandle
  deriving DecidableEq, Repr

/-- The address, until it is deleted, the calls of `erase_el` and of the handlers so far, how many
references are held, and the observers that there were when the address was told to die. -/
structure AddrLife where
  addr : Option CountedAddr
  erased : List AddrImpl
  called : List DieHandle
  refs : Nat
  told : Option (List DieHandle)
  deriving DecidableEq, Repr

/-- What a handler does. It takes or gives up references, and may unregister itself. -/
inductive HandlerAct where
  | ref
  | unref
  | unregister
  deriving DecidableEq, Repr

inductive LifeCall where
  | ref
  | unref
  | die
  | addObserver (h : DieHandle)
  | removeObserver (h : DieHandle)
  deriving DecidableEq, Repr

namespace CountedAddr

/-- `sc_global_addr`. -/
def new (isSet : Bool) (store : AddrImpl) (links : List AddrImpl) (zombie : Bool) : CountedAddr :=
  ⟨isSet, store, links, refcntBarrier, false, zombie, []⟩

/-- What `__sc_addr_erase_el` erases from segments. -/
def toErase (a : CountedAddr) : List AddrImpl :=
  if a.isSet then [] else if a.zombie then a.links else a.store :: a.links

end CountedAddr

namespace AddrLife

/-- `__sc_addr_erase_el`, when there are no references. -/
def settle (w : AddrLife) (a : CountedAddr) : AddrLife :=
  if a.refcnt = 0 then { w with addr := none, erased := w.erased ++ a.toErase }
  else { w with addr := some a }

/-- `ref`. Nothing is defined for an address that has been deleted. -/
def ref (w : AddrLife) : Option AddrLife :=
  w.addr.map fun a => { w with addr := some { a with refcnt := a.refcnt + 1 }, refs := w.refs + 1 }

/-- `unref`, of a reference that is held. -/
def unref (w : AddrLife) : Option AddrLife :=
  match w.refs with
  | 0 => none
  | refs + 1 => w.addr.map fun a => { w with refs := refs }.settle { a with refcnt := a.refcnt - 1 }

/-- `add_observer`. A handle is on one list only, and once. -/
def addObserver (h : DieHandle) (w : AddrLife) : Option AddrLife :=
  w.addr.bind fun a =>
    if h ∈ a.observers then none
    else some { w with addr := some { a with observers := h :: a.observers } }

/-- `remove_observer`, which reads through the null pointer when there are no observers. -/
def removeObserver (h : DieHandle) (w : AddrLife) : Option AddrLife :=
  w.addr.bind fun a =>
    if a.observers = [] then none
    else some { w with addr := some { a with observers := a.observers.erase h } }

def act (h : DieHandle) (w : AddrLife) : HandlerAct → Option AddrLife
  | .ref => w.ref
  | .unref => w.unref
  | .unregister => w.removeObserver h

/-- The loop of `die`. A handler takes no handle but its own from the list, so the handles behind it
stay what they are. -/
def callObservers (handler : DieHandle → List HandlerAct) : List DieHandle → AddrLife →
    Option AddrLife
  | [], w => some w
  | h :: rest, w =>
      ((handler h).foldlM (act h) { w with called := w.called ++ [h] }).bind
        (callObservers handler rest)

def die (handler : DieHandle → List HandlerAct) (w : AddrLife) : Option AddrLife :=
  w.addr.bind fun a =>
    if a.dead then some w
    else (callObservers handler a.observers { w with told := some a.observers }).bind fun w =>
      w.addr.map fun a => w.settle { a with dead := true, refcnt := a.refcnt - refcntBarrier }

def exec (handler : DieHandle → List HandlerAct) (w : AddrLife) : LifeCall → Option AddrLife
  | .ref => w.ref
  | .unref => w.unref
  | .die => w.die handler
  | .addObserver h => w.addObserver h
  | .removeObserver h => w.removeObserver h

def start (a : CountedAddr) : AddrLife := ⟨some a, [], [], 0, none⟩

/-- Calls one after the other, as far as they are defined. -/
def run (handler : DieHandle → List HandlerAct) (calls : List LifeCall) (w : AddrLife) :
    Option AddrLife :=
  calls.foldlM (exec handler) w

/-- What is to hold of an address that would erase the given elements. -/
structure Sound (toErase : List AddrImpl) (w : AddrLife) : Prop where
  refcnt : ∀ a ∈ w.addr, a.refcnt = (if a.dead then 0 else refcntBarrier) + w.refs
  deleted : w.addr = none ↔ w.told.isSome ∧ w.refs = 0
  erased : w.erased = if w.addr = none then toErase else []
  called : w.called = w.told.getD []
  once : w.called.Nodup

/-- The address has not been told to die, or is telling its observers. -/
structure Living (toErase : List AddrImpl) (w : AddrLife) (a : CountedAddr) : Prop where
  addr : w.addr = some a
  dead : a.dead = false
  toErase : a.toErase = toErase
  refcnt : a.refcnt = refcntBarrier + w.refs
  erased : w.erased = []
  observers : a.observers.Nodup

/-- The address is dead, and is deleted as soon as there are no references. -/
structure Dead (toErase : List AddrImpl) (w : AddrLife) : Prop where
  addr : ∀ a ∈ w.addr, a.dead = true ∧ a.toErase = toErase ∧ a.refcnt = w.refs ∧ 0 < w.refs
  deleted : w.addr = none → w.refs = 0
  erased : w.erased = if w.addr = none then toErase else []
  told : ∃ observers, w.told = some observers ∧ w.called = observers ∧ observers.Nodup

variable {toErase : List AddrImpl} {w w' : AddrLife} {a : CountedAddr} {h : DieHandle}
  {handler : DieHandle → List HandlerAct}

theorem ref_eq (h : w.ref = some w') : ∃ a, w.addr = some a ∧
    w' = { w with addr := some { a with refcnt := a.refcnt + 1 }, refs := w.refs + 1 } := by
  obtain ⟨a, ha, rfl⟩ := Option.map_eq_some_iff.mp h
  exact ⟨a, ha, rfl⟩

theorem unref_eq (h : w.unref = some w') : ∃ a refs, w.addr = some a ∧ w.refs = refs + 1 ∧
    w' = { w with refs := refs }.settle { a with refcnt := a.refcnt - 1 } := by
  rw [unref] at h
  split at h
  · cases h
  · next refs hrefs =>
      obtain ⟨a, ha, rfl⟩ := Option.map_eq_some_iff.mp h
      exact ⟨a, refs, ha, hrefs, rfl⟩

theorem addObserver_eq (call : w.addObserver h = some w') : ∃ a, w.addr = some a ∧
    h ∉ a.observers ∧ w' = { w with addr := some { a with observers := h :: a.observers } } := by
  obtain ⟨a, ha, call⟩ := Option.bind_eq_some_iff.mp call
  split at call
  · cases call
  · next new => exact ⟨a, ha, new, (Option.some.inj call).symm⟩

theorem removeObserver_eq (call : w.removeObserver h = some w') : ∃ a, w.addr = some a ∧
    w' = { w with addr := some { a with observers := a.observers.erase h } } := by
  obtain ⟨a, ha, call⟩ := Option.bind_eq_some_iff.mp call
  split at call
  · cases call
  · exact ⟨a, ha, (Option.some.inj call).symm⟩

namespace Living

theorem settle (refs : Nat) :
    ({ w with refs := refs }.settle { a with refcnt := refcntBarrier + refs }) =
      { w with refs := refs, addr := some { a with refcnt := refcntBarrier + refs } } :=
  if_neg (by simp only [refcntBarrier]; omega)

theorem act (living : Living toErase w a) {x : HandlerAct} (call : w.act h x = some w') :
    (∃ a', Living toErase w' a') ∧ w'.called = w.called ∧ w'.told = w.told := by
  obtain ⟨addr, dead, gone, refcnt, erased, nodup⟩ := living
  cases x with
  | ref =>
      obtain ⟨a', ha, rfl⟩ := ref_eq call
      obtain rfl := Option.some.inj (addr.symm.trans ha)
      refine ⟨⟨_, rfl, dead, gone, ?_, erased, nodup⟩, rfl, rfl⟩
      change a.refcnt + 1 = refcntBarrier + (w.refs + 1 : Nat)
      omega
  | unref =>
      obtain ⟨a', refs, ha, hrefs, rfl⟩ := unref_eq call
      obtain rfl := Option.some.inj (addr.symm.trans ha)
      have less : a.refcnt - 1 = refcntBarrier + refs := by rw [refcnt, hrefs]; omega
      rw [less, settle]
      exact ⟨⟨_, rfl, dead, gone, rfl, erased, nodup⟩, rfl, rfl⟩
  | unregister =>
      obtain ⟨a', ha, rfl⟩ := removeObserver_eq call
      obtain rfl := Option.some.inj (addr.symm.trans ha)
      exact ⟨⟨_, rfl, dead, gone, refcnt, erased, nodup.erase h⟩, rfl, rfl⟩

theorem acts (living : Living toErase w a) {acts : List HandlerAct}
    (call : acts.foldlM (AddrLife.act h) w = some w') :
    (∃ a', Living toErase w' a') ∧ w'.called = w.called ∧ w'.told = w.told := by
  induction acts generalizing w a with
  | nil =>
      obtain rfl := Option.some.inj call
      exact ⟨⟨a, living⟩, rfl, rfl⟩
  | cons x acts ih =>
      rw [List.foldlM_cons] at call
      obtain ⟨w₁, first, call⟩ := Option.bind_eq_some_iff.mp call
      obtain ⟨⟨a₁, living⟩, called, told⟩ := living.act first
      obtain ⟨living, called', told'⟩ := ih living call
      exact ⟨living, called'.trans called, told'.trans told⟩

theorem callObservers (living : Living toErase w a) {l : List DieHandle}
    (call : AddrLife.callObservers handler l w = some w') :
    (∃ a', Living toErase w' a') ∧ w'.called = w.called ++ l ∧ w'.told = w.told := by
  induction l generalizing w a with
  | nil =>
      obtain rfl := Option.some.inj call
      exact ⟨⟨a, living⟩, (List.append_nil _).symm, rfl⟩
  | cons h l ih =>
      obtain ⟨w₁, acts, call⟩ := Option.bind_eq_some_iff.mp call
      have living : Living toErase { w with called := w.called ++ [h] } a :=
        ⟨living.addr, living.dead, living.toErase, living.refcnt, living.erased, living.observers⟩
      obtain ⟨⟨a₁, living⟩, called, told⟩ := living.acts acts
      obtain ⟨living, called', told'⟩ := ih living call
      rw [called, List.append_assoc] at called'
      exact ⟨living, called', told'.trans told⟩

theorem die (living : Living toErase w a) (called : w.called = [])
    (call : w.die handler = some w') : Dead toErase w' := by
  obtain ⟨a₁, ha, call⟩ := Option.bind_eq_some_iff.mp call
  obtain rfl := Option.some.inj (living.addr.symm.trans ha)
  rw [living.dead, if_neg Bool.false_ne_true] at call
  obtain ⟨w₁, loop, call⟩ := Option.bind_eq_some_iff.mp call
  have telling : Living toErase { w with told := some a.observers } a :=
    ⟨living.addr, living.dead, living.toErase, living.refcnt, living.erased, living.observers⟩
  obtain ⟨⟨a₁, last⟩, called', told⟩ := telling.callObservers loop
  obtain ⟨a₂, ha, rfl⟩ := Option.map_eq_some_iff.mp call
  obtain rfl := Option.some.inj (last.addr.symm.trans ha)
  have told : ∃ observers, w₁.told = some observers ∧ w₁.called = observers ∧ observers.Nodup :=
    ⟨_, told, by rw [called', called, List.nil_append], living.observers⟩
  have less : a₁.refcnt - refcntBarrier = w₁.refs := by rw [last.refcnt]; omega
  rw [less, AddrLife.settle]
  split
  · next none =>
      refine ⟨nofun, fun _ => Int.natCast_eq_zero.mp none, ?_, told⟩
      rw [if_pos rfl, last.erased, List.nil_append]
      exact last.toErase
  · next some =>
      refine ⟨?_, nofun, last.erased, told⟩
      rintro _ ⟨⟩
      exact ⟨rfl, last.toErase, rfl, Nat.pos_of_ne_zero fun h => some (Int.natCast_eq_zero.mpr h)⟩

end Living

namespace Dead

theorem exec (inv : Dead toErase w) {call : LifeCall} (h : w.exec handler call = some w') :
    Dead toErase w' := by
  obtain ⟨addr, deleted, erased, told⟩ := inv
  cases call with
  | ref =>
      obtain ⟨a, ha, rfl⟩ := ref_eq h
      obtain ⟨dead, gone, refcnt, -⟩ := addr a ha
      refine ⟨?_, nofun, by rw [erased, ha]; rfl, told⟩
      rintro _ ⟨⟩
      refine ⟨dead, gone, ?_, Nat.succ_pos _⟩
      change a.refcnt + 1 = (w.refs + 1 : Nat)
      omega
  | unref =>
      obtain ⟨a, refs, ha, hrefs, rfl⟩ := unref_eq h
      obtain ⟨dead, gone, refcnt, -⟩ := addr a ha
      have none : w.erased = [] := by rw [erased, ha]; rfl
      have less : a.refcnt - 1 = refs := by omega
      rw [less, AddrLife.settle]
      split
      · next zero =>
          refine ⟨nofun, fun _ => Int.natCast_eq_zero.mp zero, ?_, told⟩
          rw [if_pos rfl, none, List.nil_append]
          exact gone
      · next pos =>
          refine ⟨?_, nofun, none, told⟩
          rintro _ ⟨⟩
          exact ⟨dead, gone, rfl, Nat.pos_of_ne_zero fun h => pos (Int.natCast_eq_zero.mpr h)⟩
  | die =>
      obtain ⟨a, ha, h⟩ := Option.bind_eq_some_iff.mp h
      rw [if_pos (addr a ha).1] at h
      obtain rfl := Option.some.inj h
      exact ⟨addr, deleted, erased, told⟩
  | addObserver h' =>
      obtain ⟨a, ha, -, rfl⟩ := addObserver_eq h
      refine ⟨?_, nofun, by rw [erased, ha]; rfl, told⟩
      rintro _ ⟨⟩
      exact addr a ha
  | removeObserver h' =>
      obtain ⟨a, ha, rfl⟩ := removeObserver_eq h
      refine ⟨?_, nofun, by rw [erased, ha]; rfl, told⟩
      rintro _ ⟨⟩
      exact addr a ha

theorem sound (inv : Dead toErase w) : w.Sound toErase := by
  obtain ⟨observers, told, called, nodup⟩ := inv.told
  refine ⟨fun a ha => ?_, ⟨fun h => ⟨by rw [told]; rfl, inv.deleted h⟩, fun h => ?_⟩, inv.erased,
    by rw [called, told]; rfl, called ▸ nodup⟩
  · rw [if_pos (inv.addr a ha).1, Int.zero_add]
    exact (inv.addr a ha).2.2.1
  · cases ha : w.addr with
    | none => rfl
    | some a => exact absurd h.2 (Nat.ne_of_gt (inv.addr a ha).2.2.2)

end Dead

/-- An address that nobody has told to die, or a dead one. -/
def Stage (toErase : List AddrImpl) (w : AddrLife) : Prop :=
  (w.told = none ∧ w.called = [] ∧ ∃ a, Living toErase w a) ∨ Dead toErase w

theorem Stage.exec (stage : Stage toErase w) {call : LifeCall}
    (h : w.exec handler call = some w') : Stage toErase w' := by
  obtain ⟨told, called, a, living⟩ | dead := stage
  · have acted (d : DieHandle) (x : HandlerAct) (h : w.act d x = some w') : Stage toErase w' := by
      obtain ⟨living, called', told'⟩ := living.act h
      exact .inl ⟨told'.trans told, called'.trans called, living⟩
    cases call with
    | ref => exact acted 0 .ref h
    | unref => exact acted 0 .unref h
    | die => exact .inr (living.die called h)
    | addObserver d =>
        obtain ⟨a', ha, new, rfl⟩ := addObserver_eq h
        obtain rfl := Option.some.inj (living.addr.symm.trans ha)
        exact .inl ⟨told, called, _, rfl, living.dead, living.toErase, living.refcnt,
          living.erased, List.nodup_cons.mpr ⟨new, living.observers⟩⟩
    | removeObserver d => exact acted d .unregister h
  · exact .inr (dead.exec h)

theorem Stage.run (stage : Stage toErase w) {calls : List LifeCall}
    (h : run handler calls w = some w') : Stage toErase w' := by
  induction calls generalizing w with
  | nil => rwa [← Option.some.inj h]
  | cons call calls ih =>
      rw [AddrLife.run, List.foldlM_cons] at h
      obtain ⟨w₁, first, h⟩ := Option.bind_eq_some_iff.mp h
      exact ih (stage.exec first) h

end AddrLife

end ScCore.Store
