import ScCore.Search.Deconstruct
import ScCore.Store.Rollback

/-!
# Searching the memory

What a session answers to the commands of a deconstruct program: the iterators
over all arcs of an element, the type filter, and the functions that go from an
arc to its ends. The memory does not change while it is searched.
-/

namespace ScCore

namespace ScType

def extendMaskGroup (mask group : ScType) : ScType :=
  if mask &&& group ≠ 0 then mask else mask ||| group

def extendMask (mask : ScType) : ScType :=
  let mask := extendMaskGroup mask constancyMask
  if mask &&& node ≠ 0 then mask
  else
    let mask :=
      if mask &&& syntacticMask ≠ 0 then mask else extendMaskGroup mask syntacticMask
    extendMaskGroup (extendMaskGroup mask fuzzynessMask) permanencyMask

/-- `__check_sc_type`: the mask allows every property of the type. -/
def fits (val mask : ScType) : Bool := val == val &&& mask

end ScType

def checkScType (val mask : ScType) : Bool := val.fits mask.extendMask

namespace Search

open Store

/-- `sc_param`, as far as the programs use it. -/
inductive Param where
  | addr (a : Option Addr)
  | type (t : ScType)
  deriving DecidableEq, Repr

def storesArcs (s : Endpoint) (m : Memory) : List LinkAddr → Option (List Addr)
  | [] => some []
  | st :: rest => do
      let el ← m.elems st.impl
      let arcs ← Session.listedArcs m (el.arcs s)
      let others ← storesArcs s m rest
      some (arcs ++ others)

/-- What a `meta_iterator` yields: the arcs at the element itself, then those at
its links in the segments that the session has opened. -/
def metaArcs (ss : Session) (s : Endpoint) (m : Memory) (a : Addr) : Option (List Addr) := do
  let g ← m.addrs a
  storesArcs s m (⟨g.seg, g.impl⟩ :: g.links.filter fun link => ss.opened link.seg)

def idGetBeg : Nat := 0
def idGetEnd : Nat := 1
def idCheckType : Nat := 5
def idEqual2 : Nat := 6
def idAllInput : Nat := 11
def idAllOutput : Nat := 12

/-- `filter_check_type`. The system session is asked for the type. -/
def filterCheckType (m : Memory) : List Param → Bool
  | [.addr (some a), .type mask] =>
      (systemSession.getType m a).any fun type => checkScType type mask
  | [.addr none, .type mask] => checkScType 0xFFFF mask
  | _ => false

def filterEqual2 : List Param → Bool
  | [a, b] => a == b
  | _ => false

/-- `func_get_beg` and `func_get_end`. The system session is asked for the end. -/
def funcGetEnd (s : Endpoint) (m : Memory) : List Param → Param × Bool
  | [.addr arc] =>
      match systemSession.getEnd s m arc with
      | some (some a) => (.addr (some a), true)
      | _ => (.addr none, false)
  | _ => (.addr none, false)

def allArcs (ss : Session) (s : Endpoint) (m : Memory) : List Param → List (List Param)
  | [.addr (some a)] =>
      ((metaArcs ss s m a).getD []).map fun arc => [.addr (some a), .addr (some arc)]
  | _ => []

def sessionWorld (ss : Session) (m : Memory) : World Param where
  nil := .addr none
  isElement
    | .addr a => a.isSome
    | .type _ => false
  isOpened
    | .addr a => (a.bind m.addrs).any fun g => ss.opened g.seg
    | .type _ => false
  iterator id args :=
    if id = idAllInput then allArcs ss .fin m args
    else if id = idAllOutput then allArcs ss .beg m args
    else []
  filter id args :=
    if id = idCheckType then filterCheckType m args
    else if id = idEqual2 then filterEqual2 args
    else false
  func id args :=
    if id = idGetBeg then funcGetEnd .beg m args
    else if id = idGetEnd then funcGetEnd .fin m args
    else (.addr none, false)
  plainSet _ := []

end Search

namespace Store

open Memory Session

variable {h : Holds} {m : Memory} {ss : Session} {a x : Addr} {s : Endpoint}

theorem Inv.reads (inv : Inv h m) {g : GlobalAddr} (hg : m.addrs x = some g) (s : Endpoint) :
    ∃ el, m.elems g.impl = some el ∧ m.typeOf x = some el.type ∧
      Session.endAddr m (el.ends s) = some (m.endOf x s) := by
  obtain ⟨el, old, -, hel, hold, -⟩ := inv.clearEnd hg s
  refine ⟨el, hel, ?_, ?_⟩
  · rw [Memory.typeOf, hg, Option.bind_some, hel, Option.map_some]
  · rw [hold, endOf_target hg, target_stored hel, bind_addrOf hold]

theorem Inv.stored_of_endOf (inv : Inv h m) {b : Addr} (hb : m.endOf x s = some b) :
    ∃ g, m.addrs b = some g := by
  obtain ⟨-, e, -, -, he, -⟩ := inv.endOf_some hb
  obtain ⟨g, hg, -⟩ := inv.addr_stores he
  exact ⟨g, hg⟩

theorem Inv.storesArcs (inv : Inv h m) (unheld : ∀ n, h.node n = 0) (s : Endpoint)
    (l : List LinkAddr) (hl : ∀ st ∈ l, m.addrOf st.impl = some a) :
    ∃ arcs, Search.storesArcs s m l = some arcs ∧ ∀ x ∈ arcs, m.endOf x s = some a := by
  induction l with
  | nil => exact ⟨[], rfl, by simp⟩
  | cons st l ih =>
    obtain ⟨others, hothers, hmem⟩ := ih fun st' hst' => hl st' (List.mem_cons_of_mem _ hst')
    have hst := hl st List.mem_cons_self
    obtain ⟨el, hel, -⟩ := stored_of_addrOf hst
    obtain ⟨arcs, harcs, harc⟩ := inv.listedArcs_eq unheld (e := st.impl) (s := s) (el.arcs s)
      fun n hn => listed_stored hel ▸ hn
    refine ⟨arcs ++ others, ?_, ?_⟩
    · simp [Search.storesArcs, hel, harcs, hothers]
    · intro x hx
      rcases List.mem_append.mp hx with hx | hx
      · obtain ⟨n, hn, arc, hn', haddr⟩ := (harc x).mp hx
        rw [← listed_stored hel] at hn
        apply inv.hasArc_iff.mp
        refine ⟨st.impl, arc, hst, haddr, ?_⟩
        exact inv.coherent.mem_arcs_iff.mpr (inv.coherent.listed_target hn hn').1
      · exact hmem x hx

/-- The arcs that an iterator yields are arcs that have the element for an end. -/
theorem Inv.metaArcs (inv : Inv h m) (unheld : ∀ n, h.node n = 0) (ss : Session) (s : Endpoint)
    (stored : ∃ g, m.addrs a = some g) :
    ∃ arcs, Search.metaArcs ss s m a = some arcs ∧ ∀ x ∈ arcs, m.endOf x s = some a := by
  obtain ⟨g, hg⟩ := stored
  rw [Search.metaArcs, hg]
  apply inv.storesArcs unheld s
  intro st hst
  apply inv.stores_addr hg
  rcases List.mem_cons.mp hst with rfl | hlink
  · exact List.mem_cons_self
  · exact List.mem_cons_of_mem _ (List.mem_of_mem_filter hlink)

theorem Inv.stored_of_arc (inv : Inv h m) (hx : m.endOf x s = some a) : ∃ g, m.addrs x = some
    g := by
  obtain ⟨g, -, hg, -⟩ := inv.endOf_some hx
  exact ⟨g, hg⟩

theorem Inv.getEnd_system (inv : Inv h m) (live : m.liveAddr x = true) (s : Endpoint) :
    systemSession.getEnd s m (some x) = some (m.endOf x s) := by
  obtain ⟨g, hg, hd⟩ := liveAddr_eq_true.mp live
  have ok : systemSession.access m (some x) = some rvOk := access_ok.mpr ⟨g, hg, hd, rfl⟩
  have acc : ∀ b, m.endOf x s = some b → systemSession.access m (some b) = some rvOk := by
    intro b hb
    obtain ⟨-, -, -, -, -, hlive, -⟩ := inv.endOf_some hb
    obtain ⟨gb, hgb, hdb⟩ := liveAddr_eq_true.mp hlive
    exact access_ok.mpr ⟨gb, hgb, hdb, rfl⟩
  obtain ⟨old, hold⟩ : ∃ old, systemSession.getEnd s m (some x) = some old := by
    obtain ⟨el, hel, -, hend⟩ := inv.reads hg s
    simp only [Session.getEnd, ok, hg, hel, Option.bind_eq_bind, Option.bind_some, ne_eq,
      not_true_eq_false, if_false]
    split
    · exact ⟨none, rfl⟩
    · cases hll : el.ends s with
      | none => exact ⟨none, rfl⟩
      | some ll =>
        rw [hll] at hend
        simp only [hend, Option.bind_some]
        cases hb : m.endOf x s with
        | none => exact ⟨none, rfl⟩
        | some b =>
          simp only [acc b hb, Option.bind_some, not_true_eq_false, if_false]
          exact ⟨some b, rfl⟩
  rw [hold, inv.getEnd ok acc hold]

theorem Inv.getType_system (inv : Inv h m) (live : m.liveAddr x = true) :
    systemSession.getType m x = m.typeOf x := by
  obtain ⟨g, hg, hd⟩ := liveAddr_eq_true.mp live
  have ok : systemSession.access m (some x) = some rvOk := access_ok.mpr ⟨g, hg, hd, rfl⟩
  obtain ⟨el, hel, htype, -⟩ := inv.reads hg .beg
  rw [htype]
  simp [Session.getType, ok, hg, hel]

end Store

end ScCore
