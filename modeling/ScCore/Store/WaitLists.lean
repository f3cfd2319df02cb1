import ScCore.Lib.LinkedRings
import ScCore.Store.Session
import Mathlib.Data.List.Induction

/-!
# The lists of waits

A wait is on a list of the element that it listens to and, if it is a good one,
on the list of its session. Both are intrusive rings, whose `append` is not
prepared for a wait that is on a list already.
-/

namespace ScCore.Store

inductive ScWaitType where
  | die | attachInput | attachOutput | changeType | detachInput | detachOutput
  | arcBeg | arcEnd | arcsEnds | cont | idtf | hackSetMember | hackInSet | merge
  | diePreReal | attachInputPre | attachOutputPre | changeTypePre | detachInputPre
  | detachOutputPre | hackSetMemberPre | hackInSetPre
  | count
  | segmentCreate | segmentOnAdd | segmentOnRemove
  deriving DecidableEq, Repr

/-- `type < SC_WAIT_COUNT`: an element has a list for the type. -/
def ScWaitType.ofElement : ScWaitType → Bool
  | .count | .segmentCreate | .segmentOnAdd | .segmentOnRemove => false
  | _ => true

/-- `sc_wait *`. -/
abbrev WaitId := Nat

/-- `sc_session *`. -/
abbrev SessionId := Nat

/-- `__sc_listhead_virtual::append`. Of a node that is linked already, it is the head of
the list that is taken out of its ring. -/
def append {N : Type} [DecidableEq N] (r : Links N) (this new : N) : Links N :=
  let r := if r.prev new ≠ new then r.remove this else r
  r.insertAfter this new

/-- The links of all waits, and what a session notes in them. A `sc_waits_holder` without
`heads` has the heads of empty lists. -/
structure WaitTable where
  /-- `sc_wait_listhead`. -/
  elements : Links (RingNode (Addr × ScWaitType) WaitId)
  /-- `sc_wait_session_list`, with `good_waits` of the sessions as heads. -/
  sessions : Links (RingNode SessionId WaitId)
  type : WaitId → ScWaitType
  session : WaitId → Option SessionId

namespace WaitTable

def new (type : WaitId → ScWaitType) : WaitTable := ⟨.alone, .alone, type, fun _ => none⟩

variable (t : WaitTable)

def add (e : Addr) (type : ScWaitType) (w : WaitId) : WaitTable :=
  { t with elements := append t.elements (.head (e, type)) (.entry w) }

def attachWait (type : ScWaitType) (prm : List Addr) (w : Option WaitId) : Retval × WaitTable :=
  match prm, w with
  | [], _ => (rvErrGen, t)
  | _, none => (rvErrGen, t)
  | e :: _, some w =>
      if type.ofElement then (rvOk, t.add e type w)
      else if type = .segmentCreate then (rvOk, t)
      else (rvErrGen, t)

def attachGoodWait (ss : SessionId) (type : ScWaitType) (prm : List Addr) (w : Option WaitId) :
    Retval × WaitTable :=
  let (error, t) := t.attachWait type prm w
  match w with
  | none => (error, t)
  | some w =>
      if error ≠ rvOk then (error, t)
      else (rvOk,
        { t with
          type := Function.update t.type w type
          session := Function.update t.session w (some ss)
          sessions := append t.sessions (.head ss) (.entry w) })

def detachWait (w : Option WaitId) : Retval × WaitTable :=
  match w with
  | none => (rvErrGen, t)
  | some w => (rvOk,
      { t with elements := t.elements.remove (.entry w), sessions := t.sessions.remove (.entry w) })

end WaitTable

inductive WaitCall where
  | attachWait (type : ScWaitType) (prm : List Addr) (w : Option WaitId)
  | attachGoodWait (ss : SessionId) (type : ScWaitType) (prm : List Addr) (w : Option WaitId)
  | detachWait (w : Option WaitId)
  deriving DecidableEq, Repr

def WaitCall.exec (t : WaitTable) : WaitCall → WaitTable
  | .attachWait type prm w => (t.attachWait type prm w).2
  | .attachGoodWait ss type prm w => (t.attachGoodWait ss type prm w).2
  | .detachWait w => (t.detachWait w).2

/-! ## Where waits are to be -/

structure Attachments where
  element : WaitId → Option (Addr × ScWaitType)
  session : WaitId → Option SessionId

namespace Attachments

def nowhere : Attachments := ⟨fun _ => none, fun _ => none⟩

def toElement (p : Attachments) (type : ScWaitType) (prm : List Addr) (w : Option WaitId) :
    Attachments :=
  match prm, w with
  | e :: _, some w =>
      if type.ofElement then { p with element := Function.update p.element w (some (e, type)) }
      else p
  | _, _ => p

def toSession (p : Attachments) (ss : SessionId) (type : ScWaitType) (prm : List Addr)
    (w : Option WaitId) : Attachments :=
  match prm, w with
  | _ :: _, some w =>
      if type.ofElement ∨ type = .segmentCreate then
        { p with session := Function.update p.session w (some ss) }
      else p
  | _, _ => p

end Attachments

def WaitCall.place (p : Attachments) : WaitCall → Attachments
  | .attachWait type prm w => p.toElement type prm w
  | .attachGoodWait ss type prm w => (p.toElement type prm w).toSession ss type prm w
  | .detachWait (some w) =>
      ⟨Function.update p.element w none, Function.update p.session w none⟩
  | .detachWait none => p

def Places {H : Type} (r : Links (RingNode H WaitId)) (place : WaitId → Option H) : Prop :=
  ∃ lists : EntryLists H WaitId, r.Rings lists ∧ ∀ h w, w ∈ lists h ↔ place w = some h

def WaitTable.Apart (t : WaitTable) (p : Attachments) : Prop :=
  Places t.elements p.element ∧ Places t.sessions p.session

def Loose {H : Type} (place : WaitId → Option H) (h : H) (w : WaitId) : Prop :=
  place w = none ∨ place w = some h ∧ ∀ v, place v = some h → v = w

def WaitCall.Clean (p : Attachments) : WaitCall → Prop
  | .attachWait type (e :: _) (some w) => type.ofElement → Loose p.element (e, type) w
  | .attachGoodWait ss type (e :: _) (some w) =>
      (type.ofElement → Loose p.element (e, type) w) ∧
        (type.ofElement ∨ type = .segmentCreate → Loose p.session ss w)
  | _ => True

section

variable {H : Type} [DecidableEq H] {r : Links (RingNode H WaitId)} {place : WaitId → Option H}
  {h : H} {w : WaitId}

theorem Places.remove (keeps : Places r place) (w : WaitId) :
    Places (r.remove (.entry w)) (Function.update place w none) := by
  obtain ⟨lists, rings, mem⟩ := keeps
  refine ⟨lists.leave w, rings.remove w, ?_⟩
  intro h v
  rw [EntryLists.leave, (rings.nodup h).mem_erase_iff, mem]
  by_cases same : v = w
  · subst same
    simp
  · simp [same]

theorem rings_append {lists : EntryLists H WaitId} (rings : r.Rings lists)
    (out : ∀ h, w ∉ lists h) (h : H) :
    (append r (.head h) (.entry w)).Rings (lists.enter h w) := by
  have self : r.prev (.entry w) = .entry w := rings.prev_eq_iff.mpr out
  rw [append, if_neg (not_not.mpr self)]
  exact rings.insertAfter out h

theorem Places.append_out (keeps : Places r place) (out : place w = none) (h : H) :
    Places (append r (.head h) (.entry w)) (Function.update place w (some h)) := by
  obtain ⟨lists, rings, mem⟩ := keeps
  have hout : ∀ h, w ∉ lists h := by
    intro h hw
    rw [mem, out] at hw
    cases hw
  refine ⟨lists.enter h w, rings_append rings hout h, ?_⟩
  intro h' v
  rw [EntryLists.enter_of_out hout]
  by_cases head : h' = h
  · subst head
    by_cases same : v = w
    · subst same
      simp
    · simp [same, mem]
  · rw [Function.update_of_ne head, mem]
    by_cases same : v = w
    · subst same
      simp [out, Ne.symm head]
    · simp [same]

theorem Places.append_alone (keeps : Places r place) (on : place w = some h)
    (only : ∀ v, place v = some h → v = w) :
    Places (append r (.head h) (.entry w)) (Function.update place w (some h)) := by
  rw [Function.update_eq_self_iff.mpr on.symm]
  obtain ⟨lists, rings, mem⟩ := keeps
  refine ⟨lists, ?_, mem⟩
  have hw : w ∈ lists h := (mem h w).mpr on
  have single : lists h = [w] := by
    apply List.perm_singleton.mp
    rw [List.perm_ext_iff_of_nodup (rings.nodup h) (List.nodup_singleton w)]
    intro v
    rw [List.mem_singleton]
    constructor
    · exact fun hv => only v ((mem h v).mp hv)
    · rintro rfl
      exact hw
  have path := (rings.ring h).path
  rw [single] at path
  obtain ⟨forth, back⟩ : r.Linked (.head h) (.entry w) ∧ r.Linked (.entry w) (.head h) := path
  suffices same : append r (.head h) (.entry w) = r by
    rw [same]
    exact rings
  have linked : r.prev (.entry w) ≠ .entry w := by
    rw [forth.2]
    exact nofun
  rw [append, if_pos linked]
  ext n
  · by_cases head : n = .head h
    · simp [head, forth.1]
    · by_cases entry : n = .entry w
      · simp [entry, back.1]
      · have other : n ≠ r.prev (.head h) := by
          rwa [back.2]
        simp [head, entry, other]
  · by_cases head : n = .head h
    · simp [head, back.2]
    · by_cases entry : n = .entry w
      · simp [entry, forth.2]
      · have other : n ≠ r.next (.head h) := by
          rwa [forth.1]
        simp [head, entry, other]

theorem Places.not_append_other (keeps : Places r place) {h' : H} (on : place w = some h')
    (ne : h' ≠ h) :
    ¬Places (append r (.head h) (.entry w)) (Function.update place w (some h)) := by
  rintro ⟨lists', rings', mem'⟩
  obtain ⟨lists, rings, mem⟩ := keeps
  have hw : w ∈ lists h' := (mem h' w).mpr on
  obtain ⟨p, hp, -, -, before, -, other, -⟩ :=
    (rings.ring h').around (List.mem_map_of_mem (f := RingNode.entry) hw)
  have linked : r.prev (.entry w) ≠ .entry w := by
    rw [before.2]
    exact other
  -- The node before it still leads to it.
  have stale : (append r (.head h) (.entry w)).next p = .entry w := by
    have hph : p ≠ .head h := by
      rintro rfl
      simp [ne.symm] at hp
    have hpp : p ≠ r.prev (.head h) := by
      obtain ⟨q, -, back⟩ := ((rings.ring h).linked List.mem_cons_self).1
      intro same
      have leads := before.1
      rw [same, back.2, back.1] at leads
      cases leads
    rw [append, if_pos linked]
    simp [hph, other, hpp, before.1]
  have hp' : p ∈ RingNode.head h' :: (lists' h').map .entry := by
    rcases List.mem_cons.mp hp with rfl | hp
    · exact List.mem_cons_self
    · obtain ⟨v, hv, rfl⟩ := List.mem_map.mp hp
      have hvw : v ≠ w := fun same => other (congrArg _ same)
      apply List.mem_cons_of_mem
      apply List.mem_map_of_mem
      rw [mem', Function.update_of_ne hvw, ← mem]
      exact hv
  obtain ⟨-, s, hs, after⟩ := (rings'.ring h').linked hp'
  rw [← after.1, stale] at hs
  have hw' : w ∈ lists' h' := by simpa using hs
  rw [mem', Function.update_self] at hw'
  exact ne (Option.some.inj hw').symm

theorem Places.not_append_same (keeps : Places r place) (on : place w = some h) {v : WaitId}
    (hv : place v = some h) (ne : v ≠ w) :
    ¬Places (append r (.head h) (.entry w)) (Function.update place w (some h)) := by
  rw [Function.update_eq_self_iff.mpr on.symm]
  rintro ⟨lists', rings', mem'⟩
  obtain ⟨lists, rings, mem⟩ := keeps
  have linked : r.prev (.entry w) ≠ .entry w := by
    rw [Ne, rings.prev_eq_iff]
    exact fun out => out h ((mem h w).mpr on)
  have forth : (append r (.head h) (.entry w)).next (.head h) = .entry w := by
    rw [append, if_pos linked]
    simp
  have back : (append r (.head h) (.entry w)).next (.entry w) = .head h := by
    rw [append, if_pos linked]
    simp
  have path := (rings'.ring h).path
  have hv' : v ∈ lists' h := (mem' h v).mpr hv
  cases hl : lists' h with
  | nil => simp [hl] at hv'
  | cons u l =>
    rw [hl] at path
    have first : RingNode.entry u = (.entry w : RingNode H WaitId) :=
      path.1.1.symm.trans forth
    cases l with
    | nil =>
      rw [hl] at hv'
      exact ne ((List.mem_singleton.mp hv').trans (RingNode.entry.inj first))
    | cons x l =>
      have second := path.2.1.1
      rw [first, back] at second
      cases second

theorem Places.append_iff (keeps : Places r place) (h : H) (w : WaitId) :
    Places (append r (.head h) (.entry w)) (Function.update place w (some h)) ↔
      Loose place h w := by
  constructor
  · intro kept
    by_contra tied
    rw [Loose, not_or] at tied
    obtain ⟨h', on⟩ := Option.ne_none_iff_exists'.mp tied.1
    by_cases same : h' = h
    · subst same
      have more : ∃ v, place v = some h' ∧ v ≠ w := by
        by_contra none
        push Not at none
        exact tied.2 ⟨on, none⟩
      obtain ⟨v, hv, ne⟩ := more
      exact keeps.not_append_same on hv ne kept
    · exact keeps.not_append_other on same kept
  · rintro (out | ⟨on, only⟩)
    · exact keeps.append_out out h
    · exact keeps.append_alone on only

end

/-! ## Runs -/

def WaitTable.run (t : WaitTable) (calls : List WaitCall) : WaitTable :=
  calls.foldl WaitCall.exec t

def Attachments.run (p : Attachments) (calls : List WaitCall) : Attachments :=
  calls.foldl WaitCall.place p

theorem WaitTable.Apart.new (type : WaitId → ScWaitType) :
    (WaitTable.new type).Apart .nowhere :=
  ⟨⟨.empty, .alone, fun _ _ => by simp [EntryLists.empty, Attachments.nowhere]⟩,
    ⟨.empty, .alone, fun _ _ => by simp [EntryLists.empty, Attachments.nowhere]⟩⟩

variable {t : WaitTable} {p : Attachments}

theorem WaitTable.Apart.attachWait_iff (apart : t.Apart p) (type : ScWaitType) (e : Addr)
    (prm : List Addr) (w : WaitId) :
    Places (t.attachWait type (e :: prm) (some w)).2.elements
        (p.toElement type (e :: prm) (some w)).element ↔
      (type.ofElement → Loose p.element (e, type) w) := by
  by_cases elements : type.ofElement = true
  · simp only [WaitTable.attachWait, Attachments.toElement, WaitTable.add, elements, if_true,
      true_imp_iff]
    exact apart.1.append_iff _ w
  · have kept : (t.attachWait type (e :: prm) (some w)).2 = t := by
      simp only [WaitTable.attachWait, elements, Bool.false_eq_true, if_false]
      split <;> rfl
    simp only [kept, Attachments.toElement, elements, Bool.false_eq_true, if_false,
      false_imp_iff, iff_true]
    exact apart.1

theorem WaitTable.attachWait_sessions (t : WaitTable) (type : ScWaitType) (prm : List Addr)
    (w : Option WaitId) : (t.attachWait type prm w).2.sessions = t.sessions := by
  cases prm with
  | nil => rfl
  | cons e prm =>
    cases w with
    | none => rfl
    | some w =>
      simp only [WaitTable.attachWait]
      split
      · rfl
      · split <;> rfl

theorem WaitTable.attachWait_error (t : WaitTable) (type : ScWaitType) (e : Addr)
    (prm : List Addr) (w : WaitId) : (t.attachWait type (e :: prm) (some w)).1 =
      if type.ofElement ∨ type = .segmentCreate then rvOk else rvErrGen := by
  simp only [WaitTable.attachWait]
  cases type <;> rfl

theorem Attachments.toElement_session (p : Attachments) (type : ScWaitType) (prm : List Addr)
    (w : Option WaitId) : (p.toElement type prm w).session = p.session := by
  cases prm with
  | nil => rfl
  | cons e prm =>
    cases w with
    | none => rfl
    | some w =>
      simp only [Attachments.toElement]
      split <;> rfl

/-- One call keeps the lists apart exactly if it attaches nothing that is attached. -/
theorem WaitTable.Apart.exec_iff (apart : t.Apart p) (c : WaitCall) :
    (c.exec t).Apart (c.place p) ↔ c.Clean p := by
  cases c with
  | attachWait type prm w =>
    cases prm with
    | nil => exact iff_of_true apart trivial
    | cons e prm =>
      cases w with
      | none => exact iff_of_true apart trivial
      | some w =>
        rw [WaitTable.Apart, WaitCall.exec, WaitCall.place, apart.attachWait_iff,
          t.attachWait_sessions, p.toElement_session]
        exact and_iff_left apart.2
  | attachGoodWait ss type prm w =>
    cases prm with
    | nil => exact iff_of_true (by cases w <;> exact apart) trivial
    | cons e prm =>
      cases w with
      | none => exact iff_of_true apart trivial
      | some w =>
        have elements := apart.attachWait_iff type e prm w
        have sessions := t.attachWait_sessions type (e :: prm) (some w)
        have error := t.attachWait_error type e prm w
        rw [WaitTable.Apart, WaitCall.exec, WaitCall.place, WaitTable.attachGoodWait]
        by_cases accepted : type.ofElement ∨ type = .segmentCreate
        · rw [if_pos accepted] at error
          simp only [error, ne_eq, not_true_eq_false, if_false, Attachments.toSession, accepted,
            if_true, p.toElement_session, sessions, WaitCall.Clean, true_imp_iff]
          exact and_congr elements (apart.2.append_iff ss w)
        · rw [if_neg accepted] at error
          have failed : rvErrGen ≠ rvOk := by decide
          simp only [error, failed, ne_eq, not_false_eq_true, if_true, sessions,
            Attachments.toSession, accepted, if_false, p.toElement_session, WaitCall.Clean,
            false_imp_iff, and_true]
          exact (and_iff_left apart.2).trans elements
  | detachWait w =>
    cases w with
    | none => exact iff_of_true apart trivial
    | some w => exact iff_of_true ⟨apart.1.remove w, apart.2.remove w⟩ trivial

/-- The lists stay apart as long as nothing is attached that is attached. -/
theorem waits_apart_iff (type : WaitId → ScWaitType) (calls : List WaitCall) :
    (∀ before, before <+: calls →
        ((WaitTable.new type).run before).Apart (Attachments.nowhere.run before)) ↔
      ∀ before c, before ++ [c] <+: calls → c.Clean (Attachments.nowhere.run before) := by
  constructor
  · intro apart before c now
    have was := apart before ((List.prefix_append before [c]).trans now)
    have is := apart (before ++ [c]) now
    simp only [WaitTable.run, Attachments.run, List.foldl_append, List.foldl_cons,
      List.foldl_nil] at is
    exact (was.exec_iff c).mp is
  · intro clean before
    induction before using List.reverseRecOn with
    | nil => exact fun _ => .new type
    | append_singleton before c ih =>
      intro now
      have was := ih ((List.prefix_append before [c]).trans now)
      simp only [WaitTable.run, Attachments.run, List.foldl_append, List.foldl_cons,
        List.foldl_nil]
      exact (was.exec_iff c).mpr (clean before c now)

/-- Attaching a wait that listens to one element to another, whose list is not empty. -/
theorem waits_not_apart :
    let calls : List WaitCall := [.attachWait .die [0] (some 0), .attachWait .die [1] (some 1),
      .attachWait .die [1] (some 0)]
    ¬((WaitTable.new fun _ => .die).run calls).Apart (Attachments.nowhere.run calls) := by
  intro calls
  have start := WaitTable.Apart.new fun _ => .die
  have first := (start.exec_iff (.attachWait .die [0] (some 0))).mpr fun _ => .inl rfl
  have second := (first.exec_iff (.attachWait .die [1] (some 1))).mpr fun _ => .inl rfl
  refine mt (second.exec_iff (.attachWait .die [1] (some 0))).mp ?_
  intro clean
  rcases clean rfl with out | ⟨on, -⟩
  · cases out
  · cases on

end ScCore.Store
