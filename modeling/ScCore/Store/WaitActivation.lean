import ScCore.Store.WaitLists

/-!
# Activation of waits

`sc_waits_holder::activate` walks over a list of waits and runs their handlers,
which may change the list meanwhile. It has the next wait noted before it runs
one, so that a wait can remove itself.
-/

namespace ScCore.Store

/-- `type >= SC_WAIT_PRE_FIRST`. -/
def ScWaitType.isPre : ScWaitType → Bool
  | .diePreReal | .attachInputPre | .attachOutputPre | .changeTypePre | .detachInputPre
  | .detachOutputPre | .hackSetMemberPre | .hackInSetPre => true
  | type => !type.ofElement

/-- `check_prm_access`. The loop counts down `len` and not `i`, and so looks at the last
parameter each time. -/
def checkPrmAccess (ss : Session) (prm : List SegId) (given : prm ≠ []) : Bool :=
  (List.range (prm.length + 1)).all fun _ => ss.opened (prm.getLast given)

inductive WaitAction where
  | detach (w : WaitId)
  /-- `delete`. -/
  | destroy (w : WaitId)
  | attach (h : Addr × ScWaitType) (w : WaitId)
  deriving DecidableEq, Repr

structure WaitMemory where
  links : Links (RingNode (Addr × ScWaitType) WaitId)
  freed : WaitId → Bool

def WaitAction.exec (s : WaitMemory) : WaitAction → WaitMemory
  | .detach w => if s.freed w then s else { s with links := s.links.remove (.entry w) }
  | .destroy w =>
      if s.freed w then s
      else ⟨s.links.remove (.entry w), Function.update s.freed w true⟩
  | .attach h w =>
      if s.freed w ∨ s.links.prev (.entry w) ≠ .entry w then s
      else { s with links := append s.links (.head h) (.entry w) }

/-- An activation: the list, the sessions of its waits, the segments of the parameters, and
what happens in each turn. -/
structure Activation where
  head : Addr × ScWaitType
  session : WaitId → Option SessionId
  prm : List SegId
  given : prm ≠ []
  /-- What the sessions have opened by then. -/
  sessions : Nat → SessionId → Session
  acts : Nat → WaitId → List WaitAction
  /-- What the handler returns. -/
  returns : Nat → WaitId → Bool

structure WaitTurn where
  wait : WaitId
  run : Bool
  acts : List WaitAction
  deriving DecidableEq, Repr

inductive ActivationEnd where
  | returned (handled : Bool) (s : WaitMemory)
  | noWait

namespace Activation

variable (c : Activation)

/-- Handlers of the `_PRE` types are always run. -/
def runs (n : Nat) (w : WaitId) : Bool :=
  c.head.2.isPre || match c.session w with
    | none => true
    | some ss => checkPrmAccess (c.sessions n ss) c.prm c.given

def turn (n : Nat) (w : WaitId) : WaitTurn :=
  ⟨w, c.runs n w, if c.runs n w then c.acts n w else []⟩

/-- A handler of a `_PRE` type denies the operation. -/
def stops (n : Nat) (w : WaitId) : Bool := c.head.2.isPre && c.returns n w

/-- The loop of `activate`, from the `n`-th turn on. -/
def loop : Nat → Nat → RingNode (Addr × ScWaitType) WaitId → WaitMemory →
    Option (List WaitTurn × ActivationEnd)
  | 0, _, _, _ => none
  | fuel + 1, n, p, s =>
      match p with
      | .head h => some ([], if h = c.head then .returned false s else .noWait)
      | .entry w =>
          if s.freed w then some ([], .noWait)
          else
            let next := s.links.next p
            let turn := c.turn n w
            let s := turn.acts.foldl WaitAction.exec s
            if c.stops n w then some ([turn], .returned true s)
            else (loop fuel (n + 1) next s).map fun r => (turn :: r.1, r.2)

def activate (fuel : Nat) (s : WaitMemory) : Option (List WaitTurn × ActivationEnd) :=
  c.loop fuel 0 (s.links.next (.head c.head)) s

end Activation

/-! ## Which waits are to be run -/

def WaitAction.detaches (v : WaitId) : WaitAction → Bool
  | .detach w | .destroy w => w = v
  | .attach _ _ => false

def WaitTurn.detaches (t : WaitTurn) (v : WaitId) : Bool := t.acts.any (WaitAction.detaches v)

namespace Activation

variable (c : Activation)

def due : Nat → (WaitId → Bool) → List WaitId → List WaitTurn × Bool
  | _, _, [] => ([], false)
  | n, gone, w :: l =>
      if gone w then due n gone l
      else if c.stops n w then ([c.turn n w], true)
      else
        let later := due (n + 1) (fun v => gone v || (c.turn n w).detaches v) l
        (c.turn n w :: later.1, later.2)

def spares : Nat → (WaitId → Bool) → List WaitId → Bool
  | _, _, [] => true
  | n, gone, w :: l =>
      if gone w then spares n gone l
      else c.stops n w ||
        (l.find? fun v => !gone v).all (fun v => !(c.turn n w).detaches v) &&
          spares (n + 1) (fun v => gone v || (c.turn n w).detaches v) l

end Activation

structure WaitMemory.Holds (s : WaitMemory) (lists : EntryLists (Addr × ScWaitType) WaitId) :
    Prop where
  rings : s.links.Rings lists
  exist : ∀ h, ∀ w ∈ lists h, s.freed w = false

variable {s : WaitMemory} {lists : EntryLists (Addr × ScWaitType) WaitId}
  {h : Addr × ScWaitType} {front l : List WaitId}

theorem erase_split (nodup : (front ++ l).Nodup) (w : WaitId) :
    ∃ front', (front ++ l).erase w = front' ++ l.filter fun v => !decide (w = v) := by
  by_cases before : w ∈ front
  · refine ⟨front.erase w, ?_⟩
    have out : w ∉ l := fun hw => (List.nodup_append.mp nodup).2.2 w before w hw rfl
    have all : l.filter (fun v => !decide (w = v)) = l := by
      apply List.filter_eq_self.mpr
      intro v hv
      have ne : w ≠ v := by
        rintro rfl
        exact out hv
      simp [ne]
    rw [all, List.erase_append_left _ before]
  · refine ⟨front, ?_⟩
    rw [List.erase_append_right _ before, (List.nodup_append.mp nodup).2.1.erase_eq_filter]
    congr 1
    apply List.filter_congr
    intro v _
    simp [bne, Bool.beq_eq_decide_eq, eq_comm]

theorem WaitMemory.Holds.exec (holds : s.Holds lists) (split : lists h = front ++ l)
    (a : WaitAction) : ∃ lists' front', (a.exec s).Holds lists' ∧
      lists' h = front' ++ l.filter fun v => !a.detaches v := by
  -- What has been destroyed is on no list.
  have gone : ∀ w, s.freed w = true → ∃ front', lists h =
      front' ++ l.filter fun v => !decide (w = v) := by
    intro w freed
    have out : w ∉ lists h := by
      intro hw
      rw [holds.exist h w hw] at freed
      cases freed
    obtain ⟨front', erased⟩ := erase_split (split ▸ holds.rings.nodup h) w
    rw [← split, List.erase_of_not_mem out] at erased
    exact ⟨front', erased⟩
  have leaves : ∀ w, ∃ front', lists.leave w h =
      front' ++ l.filter fun v => !decide (w = v) := by
    intro w
    rw [EntryLists.leave, split]
    exact erase_split (split ▸ holds.rings.nodup h) w
  have whole : l.filter (fun _ => !false) = l := List.filter_eq_self.mpr fun _ _ => rfl
  cases a with
  | detach w =>
    rw [WaitAction.exec]
    split
    · next freed =>
      obtain ⟨front', hfront⟩ := gone w freed
      exact ⟨lists, front', holds, hfront⟩
    · next freed =>
      obtain ⟨front', hfront⟩ := leaves w
      refine ⟨lists.leave w, front', ⟨holds.rings.remove w, ?_⟩, hfront⟩
      exact fun h' v hv => holds.exist h' v (List.mem_of_mem_erase hv)
  | destroy w =>
    rw [WaitAction.exec]
    split
    · next freed =>
      obtain ⟨front', hfront⟩ := gone w freed
      exact ⟨lists, front', holds, hfront⟩
    · next freed =>
      obtain ⟨front', hfront⟩ := leaves w
      refine ⟨lists.leave w, front', ⟨holds.rings.remove w, ?_⟩, hfront⟩
      intro h' v hv
      have ne : v ≠ w := by
        rintro rfl
        exact ((holds.rings.nodup h').not_mem_erase) hv
      change Function.update s.freed w true v = false
      rw [Function.update_of_ne ne]
      exact holds.exist h' v (List.mem_of_mem_erase hv)
  | attach h' w =>
    rw [WaitAction.exec]
    split
    · exact ⟨lists, front, holds, by simpa [WaitAction.detaches, whole] using split⟩
    · next free =>
      rw [not_or, not_not] at free
      have out := holds.rings.prev_eq_iff.mp free.2
      have enter := EntryLists.enter_of_out (h := h') out
      have mem : ∀ h₁, ∀ v ∈ lists.enter h' w h₁, v = w ∨ v ∈ lists h₁ := by
        intro h₁ v hv
        rw [enter] at hv
        by_cases same : h₁ = h'
        · subst same
          simpa using hv
        · rw [Function.update_of_ne same] at hv
          exact .inr hv
      have front' : ∃ front', lists.enter h' w h = front' ++ l := by
        rw [enter]
        by_cases same : h = h'
        · subst same
          exact ⟨w :: front, by simp [split]⟩
        · exact ⟨front, by rw [Function.update_of_ne same, split]⟩
      obtain ⟨front', hfront⟩ := front'
      refine ⟨lists.enter h' w, front', ⟨rings_append holds.rings out h', ?_⟩, ?_⟩
      · intro h₁ v hv
        rcases mem h₁ v hv with rfl | hv
        · simpa using free.1
        · exact holds.exist h₁ v hv
      · simpa [WaitAction.detaches, whole] using hfront

theorem WaitMemory.Holds.execs (holds : s.Holds lists) (split : lists h = front ++ l)
    (acts : List WaitAction) : ∃ lists' front', (acts.foldl WaitAction.exec s).Holds lists' ∧
      lists' h = front' ++ l.filter fun v => !acts.any (WaitAction.detaches v) := by
  induction acts generalizing s lists front l with
  | nil => exact ⟨lists, front, holds, by simpa using split⟩
  | cons a acts ih =>
    obtain ⟨lists', front', holds', split'⟩ := holds.exec split a
    obtain ⟨lists'', front'', holds'', split''⟩ := ih holds' split'
    refine ⟨lists'', front'', holds'', split''.trans ?_⟩
    rw [List.filter_filter]
    congr 1
    apply List.filter_congr
    intro v _
    rw [List.any_cons, Bool.not_or, Bool.and_comm]

def firstNode (h : Addr × ScWaitType) (l : List WaitId) : RingNode (Addr × ScWaitType) WaitId :=
  (l.head?.map .entry).getD (.head h)

theorem WaitMemory.Holds.next (holds : s.Holds lists) {w : WaitId}
    (split : lists h = front ++ w :: l) : s.links.next (.entry w) = firstNode h l := by
  have path := (holds.rings.ring h).path
  rw [split, List.map_append, List.map_cons] at path
  have after := (Links.path_append.mp path).2
  cases l with
  | nil => exact after.1
  | cons v l => exact after.1.1

theorem WaitMemory.Holds.first (holds : s.Holds lists) :
    s.links.next (.head h) = firstNode h (lists h) := by
  have path := (holds.rings.ring h).path
  cases hl : lists h with
  | nil =>
    rw [hl] at path
    exact path.1
  | cons v l =>
    rw [hl] at path
    exact path.1.1

namespace Activation

variable {c : Activation} {n : Nat} {gone : WaitId → Bool} {w : WaitId}

theorem not_gone_of_due {t : WaitTurn} (ht : t ∈ (c.due n gone l).1) : gone t.wait = false := by
  induction l generalizing n gone with
  | nil => cases ht
  | cons w l ih =>
    rw [due] at ht
    split at ht
    · exact ih ht
    · next present =>
      have own : gone (c.turn n w).wait = false := by
        change gone w = false
        simpa using present
      split at ht
      · rw [List.mem_singleton] at ht
        exact ht ▸ own
      · rcases List.mem_cons.mp ht with rfl | ht
        · exact own
        · exact (Bool.or_eq_false_iff.mp (ih ht)).1

theorem turn_of_returned {fuel : Nat} {turns : List WaitTurn} {handled : Bool} {s' : WaitMemory}
    (run : c.loop fuel n (.entry w) s = some (turns, .returned handled s')) :
    ∃ later, turns = c.turn n w :: later := by
  cases fuel with
  | zero => cases run
  | succ fuel =>
    simp only [loop] at run
    split at run
    · cases run
    · split at run
      · cases run
        exact ⟨[], rfl⟩
      · obtain ⟨r, -, result⟩ := Option.map_eq_some_iff.mp run
        exact ⟨r.1, (congrArg Prod.fst result).symm⟩

/-- The loop does what is due exactly if the wait whose turn is next is spared each time. -/
theorem loop_iff (holds : s.Holds lists)
    (split : lists c.head = front ++ l.filter fun v => !gone v) :
    (∃ fuel s' lists', s'.Holds lists' ∧
        c.loop fuel n (firstNode c.head (l.filter fun v => !gone v)) s =
          some ((c.due n gone l).1, .returned (c.due n gone l).2 s')) ↔
      c.spares n gone l = true := by
  induction l generalizing n gone s lists front with
  | nil =>
    refine iff_of_true ⟨1, s, lists, holds, ?_⟩ rfl
    simp [loop, firstNode, due]
  | cons w l ih =>
    by_cases absent : gone w = true
    · have skip : (w :: l).filter (fun v => !gone v) = l.filter fun v => !gone v := by
        simp [absent]
      rw [skip] at split ⊢
      rw [due, spares, if_pos absent, if_pos absent]
      exact ih holds split
    · have stay : (w :: l).filter (fun v => !gone v) = w :: l.filter fun v => !gone v := by
        simp [absent]
      rw [stay] at split ⊢
      have exist : s.freed w = false := holds.exist c.head w (by simp [split])
      have hnext := holds.next split
      obtain ⟨lists', front', holds', split'⟩ := holds.execs split (c.turn n w).acts
      have rest : (l.filter fun v => !gone v).filter (fun v => !(c.turn n w).detaches v) =
          l.filter fun v => !(gone v || (c.turn n w).detaches v) := by
        rw [List.filter_filter]
        apply List.filter_congr
        intro v _
        rw [Bool.not_or, Bool.and_comm]
      have left : ∃ front'', lists' c.head =
          front'' ++ l.filter fun v => !(gone v || (c.turn n w).detaches v) := by
        rw [split', ← rest, List.filter_cons]
        split
        · exact ⟨front' ++ [w], List.append_cons _ _ _⟩
        · exact ⟨front', rfl⟩
      obtain ⟨front'', split''⟩ := left
      have step : ∀ fuel,
          c.loop (fuel + 1) n (firstNode c.head (w :: l.filter fun v => !gone v)) s =
          if c.stops n w then
            some ([c.turn n w], .returned true ((c.turn n w).acts.foldl WaitAction.exec s))
          else (c.loop fuel (n + 1) (firstNode c.head (l.filter fun v => !gone v))
            ((c.turn n w).acts.foldl WaitAction.exec s)).map
              fun r => (c.turn n w :: r.1, r.2) := by
        intro fuel
        simp only [loop, firstNode, List.head?_cons, Option.map_some, Option.getD_some, exist,
          Bool.false_eq_true, if_false, hnext]
      rw [due, spares, if_neg absent, if_neg absent]
      by_cases stops : c.stops n w = true
      · rw [if_pos stops, stops, Bool.true_or]
        exact iff_of_true ⟨1, _, lists', holds', by rw [step, if_pos stops]⟩ rfl
      · have calm : c.stops n w = false := by simpa using stops
        rw [if_neg stops, calm, Bool.false_or, Bool.and_eq_true,
          ← List.head?_filter]
        by_cases spared : ((l.filter fun v => !gone v).head?.all
            fun v => !(c.turn n w).detaches v) = true
        · have same : firstNode c.head (l.filter fun v => !gone v) =
              firstNode c.head (l.filter fun v => !(gone v || (c.turn n w).detaches v)) := by
            rw [← rest]
            cases hl : l.filter fun v => !gone v with
            | nil => rfl
            | cons v r =>
              have stays : (!(c.turn n w).detaches v) = true := by simpa [hl] using spared
              rw [List.filter_cons_of_pos (p := fun v => !(c.turn n w).detaches v) stays]
              rfl
          rw [← ih holds' split'', and_iff_right spared]
          constructor
          · rintro ⟨fuel, s', lists'', holds'', run⟩
            cases fuel with
            | zero => cases run
            | succ fuel =>
              rw [step, if_neg stops, same, Option.map_eq_some_iff] at run
              obtain ⟨⟨turns, e⟩, run, result⟩ := run
              cases result
              exact ⟨fuel, s', lists'', holds'', run⟩
          · rintro ⟨fuel, s', lists'', holds'', run⟩
            refine ⟨fuel + 1, s', lists'', holds'', ?_⟩
            rw [step, if_neg stops, same, run]
            rfl
        · refine iff_of_false ?_ fun h => spared h.1
          rintro ⟨fuel, s', lists'', -, run⟩
          cases hl : l.filter fun v => !gone v with
          | nil => exact spared (by rw [hl]; rfl)
          | cons v r =>
            -- The wait that is gone has the next turn, which is not due.
            have detached : (c.turn n w).detaches v = true := by
              rw [hl] at spared
              simpa using spared
            cases fuel with
            | zero => cases run
            | succ fuel =>
              rw [step, if_neg stops, hl, Option.map_eq_some_iff] at run
              obtain ⟨⟨turns, e⟩, run, result⟩ := run
              cases result
              obtain ⟨ts, first⟩ := turn_of_returned run
              have due := not_gone_of_due (first ▸ List.mem_cons_self)
              rw [Bool.or_eq_false_iff] at due
              exact Bool.false_ne_true (due.2.symm.trans detached)

/-! ## Each wait once -/

theorem due_order : ((c.due n gone l).1.map WaitTurn.wait).Sublist l := by
  induction l generalizing n gone with
  | nil => exact List.Sublist.slnil
  | cons w l ih =>
    rw [due]
    split
    · exact ih.cons w
    · split
      · exact List.cons_sublist_cons.mpr (List.nil_sublist l)
      · exact List.cons_sublist_cons.mpr ih

theorem due_turn {i : Nat} {t : WaitTurn} (ht : (c.due n gone l).1[i]? = some t) :
    t = c.turn (n + i) t.wait := by
  induction l generalizing n gone i with
  | nil => simp [due] at ht
  | cons w l ih =>
    rw [due] at ht
    split at ht
    · exact ih ht
    · split at ht
      · cases i with
        | zero =>
          cases ht
          rfl
        | succ i => simp at ht
      · cases i with
        | zero =>
          cases ht
          rfl
        | succ i =>
          rw [List.getElem?_cons_succ] at ht
          rw [← Nat.add_assoc, Nat.add_right_comm]
          exact ih ht

theorem due_missed (hw : w ∈ l) (missed : w ∉ (c.due n gone l).1.map WaitTurn.wait) :
    gone w = true ∨ (∃ t ∈ (c.due n gone l).1, t.detaches w) ∨ (c.due n gone l).2 = true := by
  induction l generalizing n gone with
  | nil => cases hw
  | cons v l ih =>
    rw [due] at missed ⊢
    split at missed
    · next absent =>
      rw [if_pos absent]
      rcases List.mem_cons.mp hw with rfl | hw
      · exact .inl absent
      · exact ih hw missed
    · next present =>
      rw [if_neg present]
      split at missed
      · next stops =>
        rw [if_pos stops]
        exact .inr (.inr rfl)
      · next calm =>
        rw [if_neg calm]
        rw [List.map_cons, List.mem_cons, not_or] at missed
        rcases List.mem_cons.mp hw with rfl | hw
        · exact absurd rfl missed.1
        · rcases ih hw missed.2 with absent | ⟨t, ht, detached⟩ | handled
          · rcases Bool.or_eq_true_iff.mp absent with absent | detached
            · exact .inl absent
            · exact .inr (.inl ⟨_, List.mem_cons_self, detached⟩)
          · exact .inr (.inl ⟨t, List.mem_cons_of_mem _ ht, detached⟩)
          · exact .inr (.inr handled)

theorem due_handled (handled : (c.due n gone l).2 = true) : ∃ before t,
    (c.due n gone l).1 = before ++ [t] ∧ c.stops (n + before.length) t.wait = true := by
  induction l generalizing n gone with
  | nil => cases handled
  | cons w l ih =>
    rw [due] at handled ⊢
    split at handled
    · next absent =>
      rw [if_pos absent]
      exact ih handled
    · next present =>
      rw [if_neg present]
      split at handled
      · next stops =>
        rw [if_pos stops]
        exact ⟨[], c.turn n w, rfl, stops⟩
      · next calm =>
        rw [if_neg calm]
        obtain ⟨before, t, split, stops⟩ := ih handled
        refine ⟨c.turn n w :: before, t, congrArg (_ :: ·) split, ?_⟩
        rw [List.length_cons, ← Nat.add_assoc, Nat.add_right_comm]
        exact stops

theorem due_spent {before later : List WaitTurn} {t u : WaitTurn}
    (split : (c.due n gone l).1 = before ++ t :: later) (hu : u ∈ before) :
    u.detaches t.wait = false := by
  induction l generalizing n gone before with
  | nil => simp [due] at split
  | cons w l ih =>
    rw [due] at split
    split at split
    · exact ih split hu
    · split at split
      · have length := congrArg List.length split
        cases before with
        | nil => cases hu
        | cons v before => simp at length
      · cases before with
        | nil => cases hu
        | cons v before =>
          rw [List.cons_append, List.cons.injEq] at split
          obtain ⟨rfl, split⟩ := split
          rcases List.mem_cons.mp hu with rfl | hu
          · have ht : t ∈ (c.due (n + 1) (fun v => gone v || (c.turn n w).detaches v) l).1 := by
              simp [split]
            exact (Bool.or_eq_false_iff.mp (not_gone_of_due ht)).2
          · exact ih split hu

/-- The waits of a list have a turn each, in their order. One has none only if a handler
has detached it before, or if the last handler has denied. -/
structure RunOnce (c : Activation) (l : List WaitId) (turns : List WaitTurn) (handled : Bool) :
    Prop where
  order : (turns.map WaitTurn.wait).Sublist l
  turn : ∀ i t, turns[i]? = some t → t = c.turn i t.wait
  spent : ∀ before t later, turns = before ++ t :: later →
    ∀ u ∈ before, u.detaches t.wait = false
  missed : ∀ w ∈ l, w ∉ turns.map WaitTurn.wait →
    (∃ t ∈ turns, t.detaches w = true) ∨ handled = true
  handled : handled = true → ∃ before t, turns = before ++ [t] ∧
    c.stops before.length t.wait = true

theorem due_once (l : List WaitId) :
    c.RunOnce l (c.due 0 (fun _ => false) l).1 (c.due 0 (fun _ => false) l).2 where
  order := due_order
  turn i t ht := by
    have turn := due_turn ht
    rwa [Nat.zero_add] at turn
  spent _ _ _ split _ hu := due_spent split hu
  missed _ hw missed := (due_missed hw missed).resolve_left Bool.false_ne_true
  handled handled := by
    obtain ⟨before, t, split, stops⟩ := due_handled handled
    rw [Nat.zero_add] at stops
    exact ⟨before, t, split, stops⟩

end Activation

def twoWaits (type : ScWaitType) : WaitMemory where
  links := append (append .alone (.head (0, type)) (.entry 1)) (.head (0, type)) (.entry 0)
  freed := fun _ => false

def twoLists (type : ScWaitType) : EntryLists (Addr × ScWaitType) WaitId :=
  (EntryLists.empty.enter (0, type) 1).enter (0, type) 0

theorem twoWaits_holds (type : ScWaitType) : (twoWaits type).Holds (twoLists type) where
  rings := by
    have first := rings_append (w := 1) (Links.Rings.alone (H := Addr × ScWaitType))
      (fun _ => List.not_mem_nil) (0, type)
    apply rings_append first
    intro h
    by_cases same : h = (0, type)
    · subst same
      simp [EntryLists.enter, EntryLists.leave, EntryLists.empty]
    · simp [EntryLists.enter, EntryLists.leave, EntryLists.empty, same]
  exist _ _ _ := rfl

def activation (type : ScWaitType) (session : WaitId → Option SessionId)
    (acts : WaitId → List WaitAction) (denies : Bool) : Activation where
  head := (0, type)
  session := session
  prm := [0]
  given := List.cons_ne_nil _ _
  sessions _ _ := ⟨fun _ => false⟩
  acts _ := acts
  returns _ _ := denies

def reattaches (w : WaitId) : List WaitAction :=
  if w = 0 then [.detach 0, .attach (0, .die) 0, .attach (0, .die) 2] else []

theorem Activation.loop_detached {c : Activation} {w : WaitId} (stays : s.freed w = false)
    (self : s.links.next (.entry w) = .entry w) (idle : ∀ n, c.acts n w = [])
    (calm : ∀ n, c.stops n w = false) (fuel n : Nat) : c.loop fuel n (.entry w) s = none := by
  induction fuel generalizing n with
  | zero => rfl
  | succ fuel ih =>
    have nothing : (c.turn n w).acts = [] := by
      simp [Activation.turn, idle]
    simp only [Activation.loop, stays, Bool.false_eq_true, if_false, calm, nothing,
      List.foldl_nil, self, ih, Option.map_none]

end ScCore.Store
