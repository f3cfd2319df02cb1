import ScCore.Search.MoveLoop
import ScCore.Sets.Copying
import ScCore.Store.ContentOrder

/-!
# Merging two elements

`sc_merge_elements` gives the arcs of one element to another one and erases the first. The arcs
are moved by the system session, all the rest is done by the session of the caller.
-/

namespace ScCore.ScType

def structureMask : ScType := 0x7E00
def poorMask : ScType :=
  constancyMask ||| fuzzynessMask ||| syntacticMask ||| permanencyMask ||| structureMask

end ScCore.ScType

namespace ScCore.Sets

open Store Search Memory Relation

/-- `Content::operator!=`, which does not read the padding of a content. Sizes have 32 bits. -/
def differs (a b : Content) : Bool :=
  if fits : a.block.length < 2 ^ 32 ∧ b.block.length < 2 ^ 32 then
    !(ContentObject.mk a 0 fits.1).eq ⟨b, 0, fits.2⟩
  else true

def mergedType (mainType otherType : ScType) : Option ScType :=
  if mainType &&& .poorMask ≠ otherType &&& .poorMask then
    if mainType &&& .constancyMask ≠ otherType &&& .constancyMask then none
    else if mainType.syntactic = .undf then some otherType
    else if otherType.syntactic ≠ .undf then none
    else some mainType
  else some mainType

def mergedContent (mainCont otherCont : Content) : Option Content :=
  if mainCont = .empty then some otherCont
  else if otherCont ≠ .empty ∧ differs otherCont mainCont then none
  else some mainCont

section Code

variable (ss : Session) (w : Waits) (m : Memory) (main other : Addr)

def endsClash (s : Endpoint) : Option Bool := do
  match ← ss.getEnd s m (some main) with
  | none => some false
  | some el =>
      match ← ss.getEnd s m (some other) with
      | none => some false
      | some el2 => some (decide (el ≠ el2))

/-- `sc_is_mergeable`, with the type and the content that it hands over. -/
def isMergeable : Option (Except Retval (ScType × Content)) := do
  let mainType ← ss.getType m main
  let otherType ← ss.getType m other
  let mainCont ← getContent ss m main
  let otherCont ← getContent ss m other
  -- `s->error` is what the last of the calls has left there.
  let error ← ss.access m (some other)
  if error ≠ rvOk then some (.error rvErrGen)
  else if ← (if mainType.isConnector then endsClash ss m main other .beg else some false) then
    some (.error rvElseGen)
  else if ← (if mainType.isConnector then endsClash ss m main other .fin else some false) then
    some (.error rvElseGen)
  else
    match mergedType mainType otherType, mergedContent mainCont otherCont with
    | some newType, some newCont => some (.ok (newType, newCont))
    | _, _ => some (.error rvElseGen)

def settleContent (newCont : Content) : Option Memory := do
  let cont ← getContent ss m main
  if differs cont newCont then do
    let (m, _) ← ss.setContent m main newCont
    some m
  else some m

/-- The result of `change_type` is asserted to be good. -/
def settleType (newType : ScType) : Option Memory := do
  let type ← ss.getType m main
  if type = newType then some m
  else do
    let (m, rv) ← ss.changeType w m main newType
    if rv ≠ rvOk then none else some m

/-- An end that `main` does not have is taken over. -/
def fillEnd (s : Endpoint) : Option Memory := do
  match ← ss.getEnd s m (some main) with
  | some _ => some m
  | none =>
      let target ← ss.getEnd s m (some other)
      let (m, _) ← ss.setEnds w s m (some main) target
      some m

def fillEnds (newType : ScType) : Option Memory :=
  if newType.isConnector then do
    let m ← fillEnd ss w m main other .beg
    fillEnd ss w m main other .fin
  else some m

def mergeElements (fuel : Nat) : Option (Memory × Retval) := do
  match ← isMergeable ss m main other with
  | .error _ => some (m, rvElseGen)
  | .ok (newType, newCont) =>
      let m ← moveArcs w .fin main fuel m other
      let m ← moveArcs w .beg main fuel m other
      let m ← settleContent ss m main newCont
      let m ← settleType ss w m main newType
      let m ← fillEnds ss w m main other newType
      let (m, _) ← ss.eraseEl w fuel m (some other)
      some (m, rvOk)

end Code

/-- Arcs that ended at `other` end at `main`, and only `other` is gone. An end that `main` does
not have may be taken over from `other`. -/
structure Merged (m : Memory) (main other : Addr) (m' : Memory) : Prop where
  live : ∀ b, m'.liveAddr b = (m.liveAddr b && decide (b ≠ other))
  ends : ∀ x s e, x ≠ other → m.endOf x s = some e →
    m'.endOf x s = some (if e = other then main else e)
  free : ∀ x s, x ≠ other → x ≠ main → m.endOf x s = none → m'.endOf x s = none

section Conditions

variable (ss : Session) (m : Memory) (main other : Addr)

/-- The session sees that `other` begins at a connector, where it can begin no arc. -/
def BeginsAtConnector : Prop :=
  ∃ b type, m.endOf other .beg = some b ∧ ss.access m (some b) = some rvOk ∧
    m.typeOf b = some type ∧ type.isConnector = true

/-- A connector takes over no arcs that begin at `other`, and the session sees the ends that
`main` has or cannot set them anyway. -/
structure MovesAll : Prop where
  begins : ∀ type, m.typeOf main = some type → type.isConnector = true →
    ∀ x, x ≠ other → m.endOf x .beg ≠ some other
  seen : ss.access m (some main) = some rvOk → ∀ s e, m.endOf main s = some e →
    ss.access m (some e) = some rvOk ∨ s = .beg ∧ BeginsAtConnector ss m other

end Conditions

/-! ## The steps between the moves and the erasure -/

section Steps

variable {refs : Addr → Nat} {ss : Session} {w : Waits} {m m' : Memory} {main other a x : Addr}
  {s : Endpoint} {newType : ScType} {newCont : Content}

theorem type_of_live (inv : Inv (clientHolds refs) m) (live : m.liveAddr x = true) :
    ∃ type, m.typeOf x = some type := by
  obtain ⟨g, hg, -⟩ := liveAddr_eq_true.mp live
  obtain ⟨el, hel, -⟩ := inv.own_stored hg
  rw [typeOf_label hg, label_stored hel]
  exact ⟨el.type, rfl⟩

theorem type_of_end (inv : Inv (clientHolds refs) m) (hend : m.endOf x s = some a) :
    ∃ type, m.typeOf x = some type ∧ type.isConnector = true := by
  obtain ⟨-, -, -, -, -, -, live⟩ := inv.endOf_some hend
  obtain ⟨type, htype⟩ := type_of_live inv live
  exact ⟨type, htype, inv.connector_of_end hend htype⟩

theorem stays_access (stays : Stays m m') :
    ss.access m' (some a) = some rvOk ↔ ss.access m (some a) = some rvOk := by
  constructor
  · intro ok
    obtain ⟨g', hg', hd, hopen⟩ := access_ok.mp ok
    obtain ⟨g, hg⟩ := stays.back hg'
    obtain ⟨g'', hg'', hs, -, hd'⟩ := stays.persists.addrs hg
    cases hg'.symm.trans hg''
    exact access_ok.mpr ⟨g, hg, hd'.symm.trans hd, hs ▸ hopen⟩
  · exact stays.access

structure Refits (refs : Addr → Nat) (m m' : Memory) : Prop where
  steady : Steady ⟨m', refs⟩
  stays : Stays m m'
  ends : ∀ x s, m'.endOf x s = m.endOf x s

theorem Refits.refl (steady : Steady ⟨m, refs⟩) : Refits refs m m :=
  ⟨steady, Stays.refl m, fun _ _ => rfl⟩

theorem Refits.content (steady : Steady ⟨m, refs⟩)
    (hr : settleContent ss m main newCont = some m') : Refits refs m m' ∧
      ∀ y, m'.typeOf y = m.typeOf y := by
  obtain ⟨cont, -, hr⟩ := Option.bind_eq_some_iff.mp hr
  split at hr
  · obtain ⟨⟨m₁, rv⟩, set, hr⟩ := Option.bind_eq_some_iff.mp hr
    cases hr
    have renames := renames_setContent set
    have inv : Inv (clientHolds refs) m := steady.inv
    refine ⟨⟨steady.renames renames, renames.relabels.stays, fun y s => renames.relabels.endOf inv⟩,
      fun y => renames.relabels.stays.typeOf fun g _ => renames.types g.impl⟩
  · cases hr
    exact ⟨Refits.refl steady, fun _ => rfl⟩

theorem Refits.type (steady : Steady ⟨m, refs⟩)
    (connector : ∀ s e, m.endOf main s = some e → ss.access m (some main) = some rvOk →
      newType.isConnector = true)
    (hr : settleType ss w m main newType = some m') : Refits refs m m' ∧
      ∀ y, y ≠ main → m'.typeOf y = m.typeOf y := by
  have inv : Inv (clientHolds refs) m := steady.inv
  obtain ⟨type, -, hr⟩ := Option.bind_eq_some_iff.mp hr
  split at hr
  · cases hr
    exact ⟨Refits.refl steady, fun _ _ => rfl⟩
  · obtain ⟨⟨m₁, rv⟩, change, hr⟩ := Option.bind_eq_some_iff.mp hr
    dsimp only at hr
    split at hr
    · cases hr
    · cases hr
      have keeps : arcsKeepType ss w (.changeType main newType) m := by
        rintro g el t ok verify hg hel - ⟨s, hs⟩ plain
        obtain ⟨e, he⟩ := Option.ne_none_iff_exists'.mp hs
        obtain ⟨o, b, ho, hob, -⟩ := inv.target_addr ((target_stored hel).trans he)
        have hend : m.endOf main s = some b := by
          rw [endOf_eq hg hel, he, Option.bind_some]
          exact (addrOf_stored ho).trans hob
        have same := ScType.isConnector_verify verify
        rw [plain, connector s b hend ok] at same
        cases same
      have exec : (Op.changeType main newType).exec ss w 0 ⟨m, refs⟩ = some ⟨m', refs⟩ := by
        rw [Op.exec, change]
        rfl
      have steady' : Steady ⟨m', refs⟩ := Steady.exec steady keeps exec
      obtain rfl | ⟨g, t, ch⟩ := changeType_some change
      · exact ⟨Refits.refl steady, fun _ _ => rfl⟩
      · have relabels : Relabels (· = g.impl) m m' := by
          rw [ch.memory]
          exact Relabels.mapElem (P := (· = g.impl)) rfl ⟨fun _ => rfl, fun _ => rfl, fun _ => rfl,
            fun _ => rfl, fun _ => rfl⟩
        refine ⟨⟨steady', relabels.stays, fun y s => relabels.endOf inv⟩, fun y other => ?_⟩
        apply relabels.stays.typeOf
        intro g' hg'
        have apart : g'.impl ≠ g.impl := fun same => other
          (inv.addr_unique hg' ch.addr
            (List.mem_cons_self : (⟨g'.seg, g'.impl⟩ : LinkAddr) ∈ g'.stores)
            (List.mem_cons_self : (⟨g.seg, g.impl⟩ : LinkAddr) ∈ g.stores) same)
        rw [relabels.label g'.impl apart]

end Steps

/-! ## The ends that are taken over -/

section Fill

variable {refs : Addr → Nat} {ss : Session} {m m' : Memory} {main other x y : Addr}
  {s : Endpoint}

theorem getEnd_access (hr : ss.getEnd s m (some x) = some (some y)) :
    ss.access m (some y) = some rvOk := by
  obtain ⟨rv, -, hr⟩ := Option.bind_eq_some_iff.mp hr
  split at hr
  · cases hr
  · obtain ⟨x, -, hr⟩ := Option.bind_eq_some_iff.mp hr
    obtain ⟨g, -, hr⟩ := Option.bind_eq_some_iff.mp hr
    obtain ⟨el, -, hr⟩ := Option.bind_eq_some_iff.mp hr
    split at hr
    · cases hr
    · split at hr
      · cases hr
      · obtain ⟨a, -, hr⟩ := Option.bind_eq_some_iff.mp hr
        obtain ⟨rv', access, hr⟩ := Option.bind_eq_some_iff.mp hr
        split at hr
        · cases hr
        · next ok =>
          rw [Option.some.inj hr] at access
          rw [access, not_not.mp ok]

theorem getEnd_seen (inv : Inv (clientHolds refs) m) {old : Option Addr}
    (hr : ss.getEnd s m (some x) = some old) (there : m.endOf x s = some y)
    (ok : ss.access m (some x) = some rvOk) (seen : ss.access m (some y) = some rvOk) :
    old = some y := by
  rw [inv.getEnd ok (fun b hb => ?_) hr, there]
  cases there.symm.trans hb
  exact seen

/-- What `fillEnd` does to the end `s` of `main`. -/
structure Fills (refs : Addr → Nat) (ss : Session) (s : Endpoint) (m : Memory) (main other : Addr)
    (m' : Memory) : Prop where
  steady : Steady ⟨m', refs⟩
  stays : Stays m m'
  frame : ∀ x u, ¬(x = main ∧ u = s) → m'.endOf x u = m.endOf x u
  kept : ∀ e, m.endOf main s = some e → (ss.access m (some main) = some rvOk →
    ss.access m (some e) = some rvOk ∨ s = .beg ∧ BeginsAtConnector ss m other) →
    m'.endOf main s = some e
  lost : ∀ e, m.endOf main s = some e → ss.access m (some main) = some rvOk →
    ss.access m (some e) ≠ some rvOk → ¬(s = .beg ∧ BeginsAtConnector ss m other) →
    m'.endOf main s ≠ some e
  taken : ∀ e, m'.endOf main s = some e → m.endOf main s = some e ∨ m.endOf other s = some e ∧
    (s = .beg → ∀ type, m.typeOf e = some type → type.isConnector = false)

theorem fillEnd_fills (steady : Steady ⟨m, refs⟩) (sees : ss.access m (some other) = some rvOk)
    (hr : fillEnd ss noWaits m main other s = some m') : Fills refs ss s m main other m' := by
  have inv : Inv (clientHolds refs) m := steady.inv
  obtain ⟨old, hold, hr⟩ := Option.bind_eq_some_iff.mp hr
  cases old with
  | some e =>
    cases hr
    refine ⟨steady, Stays.refl m, fun _ _ _ => rfl, fun _ there _ => there, ?_,
      fun _ there => .inl there⟩
    intro e' there _ hidden
    cases (getEnd_endOf hold).1.symm.trans there
    exact absurd (getEnd_access hold) hidden
  | none =>
    obtain ⟨target, htarget, hr⟩ := Option.bind_eq_some_iff.mp hr
    obtain ⟨⟨m₁, rv⟩, set, hr⟩ := Option.bind_eq_some_iff.mp hr
    cases hr
    obtain ⟨-, step, -⟩ := inv.setEnds (fun _ => rfl) set
    have moves := step.moves inv
    refine ⟨steady.setEnds set, moves.stays, ?_, ?_, ?_, ?_⟩
    · intro y u elsewhere
      refine moves.endOf y u ?_
      rintro ⟨same, hu⟩
      exact elsewhere ⟨(Option.some.inj same).symm, hu⟩
    · intro e there seen
      by_cases ok : ss.access m (some main) = some rvOk
      · obtain visible | ⟨rfl, b, type, hb, bok, htype, connector⟩ := seen ok
        · cases getEnd_seen inv hold there ok visible
        · obtain rfl := getEnd_seen inv htarget hb sees bok
          rw [setBeg_connector htype connector set, there]
      · rw [setEnds_denied set ok, there]
    · intro e there ok hidden free
      have access : ∀ t, target = some t → ss.access m (some t) = some rvOk := by
        rintro t rfl
        exact getEnd_access htarget
      have done : rv = rvOk := by
        refine setEnds_ok set ok (fun type htype => inv.connector_of_end there htype)
          (setPre_of_calm fun _ _ _ _ => rfl) access fun hs t type ht htype => ?_
        subst hs ht
        by_contra connector
        exact free ⟨rfl, t, type, (getEnd_endOf htarget).1, access t rfl, htype,
          by simpa using connector⟩
      obtain ⟨x, same, moved⟩ := step.there inv done
      cases same
      rw [moved]
      rintro rfl
      exact hidden (access e rfl)
    · intro e there
      by_cases done : rv = rvOk
      · obtain ⟨x, same, moved⟩ := step.there inv done
        cases same
        by_cases idle : m' = m
        · exact .inl (idle ▸ there)
        · rw [moved] at there
          subst there
          refine .inr ⟨(getEnd_endOf htarget).1, fun hs type htype => ?_⟩
          subst hs
          by_contra connector
          exact idle (setBeg_connector htype (by simpa using connector) set)
      · rw [step.failed done] at there
        exact .inl there

end Fill

section FillBoth

variable {refs : Addr → Nat} {ss : Session} {m m' : Memory} {main other : Addr} {newType : ScType}

/-- What `fillEnds` does. -/
structure FillsBoth (refs : Addr → Nat) (ss : Session) (m : Memory) (main other : Addr)
    (newType : ScType) (m' : Memory) : Prop where
  steady : Steady ⟨m', refs⟩
  stays : Stays m m'
  frame : ∀ x u, x ≠ main → m'.endOf x u = m.endOf x u
  kept : ∀ s e, m.endOf main s = some e → (ss.access m (some main) = some rvOk →
    ss.access m (some e) = some rvOk ∨ s = .beg ∧ BeginsAtConnector ss m other) →
    m'.endOf main s = some e
  lost : newType.isConnector = true → ∀ s e, m.endOf main s = some e →
    ss.access m (some main) = some rvOk → ss.access m (some e) ≠ some rvOk →
    ¬(s = .beg ∧ BeginsAtConnector ss m other) → m'.endOf main s ≠ some e
  taken : ∀ s e, m'.endOf main s = some e → m.endOf main s = some e ∨ m.endOf other s = some e ∧
    (s = .beg → ∀ type, m.typeOf e = some type → type.isConnector = false)

theorem fillEnds_fills (steady : Steady ⟨m, refs⟩)
    (sees : ss.access m (some other) = some rvOk)
    (hr : fillEnds ss noWaits m main other newType = some m') :
    FillsBoth refs ss m main other newType m' := by
  rw [fillEnds] at hr
  split at hr
  · obtain ⟨m₁, first, hr⟩ := Option.bind_eq_some_iff.mp hr
    have beg := fillEnd_fills steady sees first
    have fin := fillEnd_fills beg.steady ((stays_access beg.stays).mpr sees) hr
    have before : m₁.endOf main .fin = m.endOf main .fin := beg.frame main .fin nofun
    have after : m'.endOf main .beg = m₁.endOf main .beg := fin.frame main .beg nofun
    refine ⟨fin.steady, beg.stays.trans fin.stays, ?_, ?_, ?_, ?_⟩
    · intro x u apart
      rw [fin.frame x u fun both => apart both.1, beg.frame x u fun both => apart both.1]
    · intro s e there seen
      cases s with
      | beg => exact after.trans (beg.kept e there seen)
      | fin =>
        refine fin.kept e (before.trans there) fun ok => ?_
        obtain visible | ⟨none, -⟩ := seen ((stays_access beg.stays).mp ok)
        · exact .inl ((stays_access beg.stays).mpr visible)
        · cases none
    · intro _ s e there ok hidden free
      cases s with
      | beg => exact after ▸ beg.lost e there ok hidden free
      | fin =>
        exact fin.lost e (before.trans there) ((stays_access beg.stays).mpr ok)
          (fun visible => hidden ((stays_access beg.stays).mp visible)) nofun
    · intro s e there
      cases s with
      | beg => exact beg.taken e (after ▸ there)
      | fin =>
        obtain old | ⟨new, -⟩ := fin.taken e there
        · exact .inl (before ▸ old)
        · rw [beg.frame other .fin nofun] at new
          exact .inr ⟨new, nofun⟩
  · next plain =>
    cases hr
    exact ⟨steady, Stays.refl m, fun _ _ _ => rfl, fun _ _ there _ => there,
      fun connector => absurd connector plain, fun _ _ there => .inl there⟩

end FillBoth

/-! ## The merge as a whole -/

section Merge

variable {refs : Addr → Nat} {ss : Session} {w : Waits} {m m' m₁ m₂ : Memory}
  {main other : Addr} {fuel : Nat} {newType : ScType} {newCont : Content}

theorem mergedType_connector {type otherType : ScType} (connector : type.isConnector = true)
    (merged : mergedType type otherType = some newType) : newType = type := by
  have defined : type.syntactic ≠ .undf := by
    intro undf
    rw [ScType.isConnector_syntactic, undf] at connector
    revert connector
    decide
  rw [mergedType, if_neg defined] at merged
  split at merged
  · split at merged
    · cases merged
    · split at merged
      · cases merged
      · exact (Option.some.inj merged).symm
  · exact (Option.some.inj merged).symm

theorem isMergeable_ok (hr : isMergeable ss m main other = some (.ok (newType, newCont))) :
    ss.access m (some other) = some rvOk ∧
      ∀ type, ss.getType m main = some type → type.isConnector = true → newType = type := by
  obtain ⟨mainType, hmain, hr⟩ := Option.bind_eq_some_iff.mp hr
  obtain ⟨otherType, -, hr⟩ := Option.bind_eq_some_iff.mp hr
  obtain ⟨mainCont, -, hr⟩ := Option.bind_eq_some_iff.mp hr
  obtain ⟨otherCont, -, hr⟩ := Option.bind_eq_some_iff.mp hr
  obtain ⟨error, access, hr⟩ := Option.bind_eq_some_iff.mp hr
  split at hr
  · cases hr
  · next ok =>
    rw [not_not.mp ok] at access
    refine ⟨access, fun type htype connector => ?_⟩
    cases hmain.symm.trans htype
    obtain ⟨beg, -, hr⟩ := Option.bind_eq_some_iff.mp hr
    split at hr
    · cases hr
    · obtain ⟨fin, -, hr⟩ := Option.bind_eq_some_iff.mp hr
      split at hr
      · cases hr
      · split at hr
        · next merged _ =>
          cases hr
          exact mergedType_connector connector merged
        · cases hr

/-- The arcs of `other` after both loops. -/
structure Gathered (refs : Addr → Nat) (m : Memory) (main other : Addr) (m' : Memory) : Prop where
  steady : Steady ⟨m', refs⟩
  stays : Stays m m'
  types : ∀ y type, m.typeOf y = some type → type.isConnector = true ∨ y ≠ main →
    m'.typeOf y = some type
  ends : ∀ x s, m'.endOf x s = m.endOf x s ∨ m.endOf x s = some other ∧ m'.endOf x s = some main
  fins : ∀ x, m'.endOf x .fin ≠ some other
  begs : (∀ x, m'.endOf x .beg ≠ some other) ∨
    ∃ type, m.typeOf main = some type ∧ type.isConnector = true
  connector : ∀ type, m.typeOf main = some type → type.isConnector = true →
    ∀ x, m'.endOf x .beg = m.endOf x .beg

theorem gathered (steady : Steady ⟨m, refs⟩) (distinct : main ≠ other)
    (alive : m.liveAddr other = true) (live : m.liveAddr main = true)
    (ends : moveArcs noWaits .fin main fuel m other = some m₁)
    (begs : moveArcs noWaits .beg main fuel m₁ other = some m₂) :
    Gathered refs m main other m₂ := by
  have inv : Inv (clientHolds refs) m := steady.inv
  obtain ⟨kind, hkind⟩ := type_of_live inv live
  cases moveArcs_moved steady alive distinct.symm live ends with
  | refused impossible => cases impossible
  | all _ r₁ none₁ =>
    have sides : ∀ x, m₁.endOf x .beg = m.endOf x .beg := fun x => r₁.sides x .beg nofun
    cases moveArcs_moved r₁.steady ((r₁.stays.liveAddr other).trans alive) distinct.symm
      ((r₁.stays.liveAddr main).trans live) begs with
    | @refused type _ htype₁ connector same =>
      subst same
      refine ⟨r₁.steady, r₁.stays, r₁.types, ?_, none₁, .inr ⟨kind, hkind, ?_⟩,
        fun _ _ _ => sides⟩
      · intro x s
        cases s with
        | beg => exact .inl (sides x)
        | fin => exact r₁.ends x
      · by_contra plain
        have still := r₁.plain (fun type' htype' => by
          cases hkind.symm.trans htype'
          simpa using plain) type htype₁
        rw [connector] at still
        cases still
    | all plain r₂ none₂ =>
      have across : ∀ x, m₂.endOf x .fin = m₁.endOf x .fin := fun x => r₂.sides x .fin nofun
      refine ⟨r₂.steady, r₁.stays.trans r₂.stays, fun y type htype kept =>
        r₂.types y type (r₁.types y type htype kept) kept, ?_, fun x hend => none₁ x
        (across x ▸ hend), .inl none₂, fun type htype connector => ?_⟩
      · intro x s
        cases s with
        | beg => exact sides x ▸ r₂.ends x
        | fin => exact across x ▸ r₁.ends x
      · have not := plain rfl type (r₁.types main type htype (.inl connector))
        rw [connector] at not
        cases not

/-- The content and the type of `main` are settled and missing ends are taken over. -/
structure Completes (refs : Addr → Nat) (ss : Session) (m : Memory) (main other : Addr)
    (newType : ScType) (m₂ m₅ : Memory) : Prop where
  steady : Steady ⟨m₅, refs⟩
  stays : Stays m₂ m₅
  frame : ∀ x u, x ≠ main → m₅.endOf x u = m₂.endOf x u
  kept : ∀ s e, m₂.endOf main s = some e → (ss.access m (some main) = some rvOk →
    ss.access m (some e) = some rvOk ∨ s = .beg ∧ BeginsAtConnector ss m other) →
    m₅.endOf main s = some e
  lost : newType.isConnector = true → ∀ s e, m₂.endOf main s = some e →
    ss.access m (some main) = some rvOk → ss.access m (some e) ≠ some rvOk →
    ¬(s = .beg ∧ BeginsAtConnector ss m other) → m₅.endOf main s ≠ some e
  taken : ∀ s e, m₅.endOf main s = some e → m₂.endOf main s = some e ∨ m₂.endOf other s = some e ∧
    (s = .beg → ∀ b, m₂.endOf e s ≠ some b)

theorem settleType_idle {type : ScType} (htype : m.typeOf main = some type)
    (same : ss.access m (some main) = some rvOk → newType = type)
    (hr : settleType ss w m main newType = some m') : m' = m := by
  obtain ⟨read, hread, hr⟩ := Option.bind_eq_some_iff.mp hr
  split at hr
  · exact (Option.some.inj hr).symm
  · next differs =>
    by_cases ok : ss.access m (some main) = some rvOk
    · cases htype.symm.trans (access_typeOf ok hread)
      exact absurd (same ok).symm differs
    · obtain ⟨⟨m₁, rv⟩, change, hr⟩ := Option.bind_eq_some_iff.mp hr
      dsimp only at hr
      split at hr
      · cases hr
      · cases hr
        obtain rfl | ⟨g, t, ch⟩ := changeType_some change
        · rfl
        · exact absurd ch.access ok

theorem getType_ok (htype : m.typeOf main = some newType)
    (ok : ss.access m (some main) = some rvOk) : ss.getType m main = some newType := by
  obtain ⟨g, hg, hel⟩ := Option.bind_eq_some_iff.mp htype
  obtain ⟨el, stored, rfl⟩ := Option.map_eq_some_iff.mp hel
  simp [Session.getType, ok, hg, stored]

theorem completes {m₃ m₄ m₅ : Memory} (inv : Inv (clientHolds refs) m)
    (gathered : Gathered refs m main other m₂)
    (mergeable : isMergeable ss m main other = some (.ok (newType, newCont)))
    (content : settleContent ss m₂ main newCont = some m₃)
    (type : settleType ss noWaits m₃ main newType = some m₄)
    (fill : fillEnds ss noWaits m₄ main other newType = some m₅) :
    Completes refs ss m main other newType m₂ m₅ := by
  obtain ⟨sees, agreed⟩ := isMergeable_ok mergeable
  obtain ⟨c, ctypes⟩ := Refits.content gathered.steady content
  -- If `main` has an end, it is a connector and was one before.
  have connector : ∀ s e, m₂.endOf main s = some e →
      ∃ type, m.typeOf main = some type ∧ type.isConnector = true := by
    intro s e hend
    obtain same | ⟨moved, -⟩ := gathered.ends main s
    · exact type_of_end inv (same ▸ hend)
    · exact type_of_end inv moved
  have stays₃ := gathered.stays.trans c.stays
  obtain ⟨t, -⟩ := Refits.type c.steady (fun s e hend ok => by
    obtain ⟨type, htype, conn⟩ := connector s e (c.ends main s ▸ hend)
    rw [agreed type (getType_ok htype ((stays_access stays₃).mp ok)) conn]
    exact conn) type
  have stays₄ := stays₃.trans t.stays
  have ends : ∀ x s, m₄.endOf x s = m₂.endOf x s := fun x s => (t.ends x s).trans (c.ends x s)
  -- What the session sees at the begin of `other` has not changed if `main` is a connector.
  have begins : (∃ s e, m₂.endOf main s = some e) →
      (BeginsAtConnector ss m₄ other ↔ BeginsAtConnector ss m other) := by
    rintro ⟨s, e, hend⟩
    obtain ⟨kind, hkind, conn⟩ := connector s e hend
    have kind₃ : m₃.typeOf main = some kind :=
      (ctypes main).trans (gathered.types main kind hkind (.inl conn))
    obtain rfl := settleType_idle kind₃
      (fun ok => agreed kind (getType_ok hkind ((stays_access stays₃).mp ok)) conn) type
    have beg : m₄.endOf other .beg = m.endOf other .beg :=
      (ends other .beg).trans (gathered.connector kind hkind conn other)
    have types : ∀ y τ, m.typeOf y = some τ → m₄.typeOf y = some τ := by
      intro y τ hτ
      rw [ctypes]
      by_cases hy : y = main
      · subst hy
        cases hkind.symm.trans hτ
        exact gathered.types y kind hkind (.inl conn)
      · exact gathered.types y τ hτ (.inr hy)
    constructor
    · rintro ⟨b, τ, hb, ok, hτ, isConn⟩
      rw [beg] at hb
      obtain ⟨-, -, -, -, -, live, -⟩ := inv.endOf_some hb
      obtain ⟨old, hold⟩ := type_of_live inv live
      obtain rfl := Option.some.inj ((types b old hold).symm.trans hτ)
      exact ⟨b, old, hb, (stays_access stays₄).mp ok, hold, isConn⟩
    · rintro ⟨b, τ', hb, ok, hτ, isConn⟩
      exact ⟨b, τ', beg.trans hb, (stays_access stays₄).mpr ok, types b τ' hτ, isConn⟩
  have f := fillEnds_fills t.steady ((stays_access stays₄).mpr sees) fill
  refine ⟨f.steady, (c.stays.trans t.stays).trans f.stays, ?_, ?_, ?_, ?_⟩
  · intro x u apart
    rw [f.frame x u apart, ends]
  · intro s e there seen
    refine f.kept s e ((ends main s).trans there) fun ok => ?_
    obtain visible | ⟨hs, blocked⟩ := seen ((stays_access stays₄).mp ok)
    · exact .inl ((stays_access stays₄).mpr visible)
    · exact .inr ⟨hs, (begins ⟨s, e, there⟩).mpr blocked⟩
  · intro conn s e there ok hidden free
    refine f.lost conn s e ((ends main s).trans there) ((stays_access stays₄).mpr ok)
      (fun visible => hidden ((stays_access stays₄).mp visible)) ?_
    rintro ⟨hs, blocked⟩
    exact free ⟨hs, (begins ⟨s, e, there⟩).mp blocked⟩
  · intro s e there
    obtain old | ⟨new, plain⟩ := f.taken s e there
    · exact .inl (ends main s ▸ old)
    · refine .inr ⟨ends other s ▸ new, fun hs b hb => ?_⟩
      have inv₄ : Inv (clientHolds refs) m₄ := t.steady.inv
      have hb₄ := (ends e s).trans hb
      obtain ⟨kind, hkind, isConn⟩ := type_of_end inv₄ hb₄
      rw [plain hs kind hkind] at isConn
      cases isConn

theorem merged_iff (steady : Steady ⟨m, refs⟩) (distinct : main ≠ other)
    (live : m.liveAddr main = true)
    (hr : mergeElements ss noWaits m main other fuel = some (m', rvOk)) :
    Merged m main other m' ↔ MovesAll ss m main other := by
  have inv : Inv (clientHolds refs) m := steady.inv
  obtain ⟨result, mergeable, hr⟩ := Option.bind_eq_some_iff.mp hr
  obtain ⟨rv, rfl⟩ | ⟨⟨newType, newCont⟩, rfl⟩ :
      (∃ rv, result = .error rv) ∨ ∃ new, result = .ok new := by
    cases result with
    | error rv => exact .inl ⟨rv, rfl⟩
    | ok new => exact .inr ⟨new, rfl⟩
  · cases hr
  obtain ⟨m₁, ends, hr⟩ := Option.bind_eq_some_iff.mp hr
  obtain ⟨m₂, begs, hr⟩ := Option.bind_eq_some_iff.mp hr
  obtain ⟨m₃, content, hr⟩ := Option.bind_eq_some_iff.mp hr
  obtain ⟨m₄, type, hr⟩ := Option.bind_eq_some_iff.mp hr
  obtain ⟨m₅, fill, hr⟩ := Option.bind_eq_some_iff.mp hr
  obtain ⟨⟨m₆, rv⟩, erase, hr⟩ := Option.bind_eq_some_iff.mp hr
  cases hr
  obtain ⟨sees, agreed⟩ := isMergeable_ok mergeable
  have ga := gathered steady distinct (access_live sees) live ends begs
  have co := completes inv ga mergeable content type fill
  have stays := ga.stays.trans co.stays
  have inv₅ : Inv (clientHolds refs) m₅ := co.steady.inv
  have er : Erodes refs (fun r => r = other) m₅ m' := Steady.erodes co.steady
    (eraseEl_calm (fun _ => rfl) ((stays_access stays).mpr sees) erase ▸ erase)
  constructor
  · intro merged
    have lives : ∀ x, x ≠ other → m.liveAddr x = true → m'.liveAddr x = true := by
      intro x apart alive
      simp [merged.live, alive, apart]
    refine ⟨fun kind hkind conn x apart there => ?_, fun ok s e there => ?_⟩
    · -- The arc is left where it is and dies with `other`.
      have there₂ := (ga.connector kind hkind conn x).trans there
      have there₅ : m₅.endOf x .beg = some other := by
        by_cases hx : x = main
        · subst hx
          exact co.kept .beg other there₂ fun _ => .inl sees
        · rw [co.frame x .beg hx, there₂]
      have dead := er.closed inv₅ (er.dead other rfl)
        (.single (inv₅.incident_iff.mpr ⟨.beg, there₅⟩))
      obtain ⟨-, -, -, -, -, -, alive⟩ := inv.endOf_some there
      rw [lives x apart alive] at dead
      cases dead
    · by_contra missed
      obtain ⟨hidden, free⟩ := not_or.mp missed
      have apart : e ≠ other := by
        rintro rfl
        exact hidden sees
      obtain ⟨kind, hkind, conn⟩ := type_of_end inv there
      have there₂ : m₂.endOf main s = some e := by
        obtain same | ⟨moved, -⟩ := ga.ends main s
        · rw [same, there]
        · exact absurd (Option.some.inj (there.symm.trans moved)) apart
      have isConn : newType.isConnector = true := by
        rw [agreed kind (getType_ok hkind ok) conn]
        exact conn
      have gone := co.lost isConn s e there₂ ok hidden free
      rw [← er.ends main (lives main distinct live) s, merged.ends main s e distinct there,
        if_neg apart] at gone
      exact gone rfl
  · intro moves
    have none₂ : ∀ x s, x ≠ other → m₂.endOf x s ≠ some other := by
      intro x s apart
      cases s with
      | fin => exact ga.fins x
      | beg =>
        obtain none | ⟨kind, hkind, conn⟩ := ga.begs
        · exact none x
        · rw [ga.connector kind hkind conn x]
          exact moves.begins kind hkind conn x apart
    have none₅ : ∀ x s, x ≠ other → m₅.endOf x s ≠ some other := by
      intro x s apart there
      by_cases hx : x = main
      · subst hx
        obtain old | ⟨new, plain⟩ := co.taken s other there
        · exact none₂ x s apart old
        · cases s with
          | fin => exact ga.fins other new
          | beg => exact plain rfl other new
      · exact none₂ x s apart (co.frame x s hx ▸ there)
    have only : ∀ b, ReflTransGen (Incident m₅) other b → b = other := by
      intro b hangs
      induction hangs with
      | refl => rfl
      | @tail y z _ incident ih =>
        subst ih
        obtain ⟨s, hend⟩ := inv₅.incident_iff.mp incident
        by_contra apart
        exact none₅ z s apart hend
    have lives : ∀ b, b ≠ other → m.liveAddr b = true → m'.liveAddr b = true := by
      intro b apart alive
      by_contra dead
      obtain ⟨r, rfl, hangs⟩ := er.killed b ((stays.liveAddr b).trans alive) (by simpa using dead)
      exact apart (only b hangs)
    refine ⟨fun b => ?_, fun x s e apart there => ?_, fun x s apart aside free => ?_⟩
    · by_cases hb : b = other
      · subst hb
        simp [er.dead b rfl]
      · cases alive : m.liveAddr b with
        | true => simp [lives b hb alive, hb]
        | false =>
          have dead : m'.liveAddr b = false := by
            by_contra still
            have back := er.live b (by simpa using still)
            rw [stays.liveAddr b, alive] at back
            cases back
          simp [dead]
    · obtain ⟨-, -, -, -, -, -, alive⟩ := inv.endOf_some there
      have there₂ : m₂.endOf x s = some (if e = other then main else e) := by
        obtain same | ⟨moved, new⟩ := ga.ends x s
        · rw [same, there, if_neg]
          rintro rfl
          exact none₂ x s apart (same.trans there)
        · rw [new, if_pos (Option.some.inj (there.symm.trans moved))]
      rw [er.ends x (lives x apart alive) s]
      by_cases hx : x = main
      · subst hx
        refine co.kept s _ there₂ fun ok => ?_
        by_cases he : e = other
        · rw [if_pos he]
          exact .inl ok
        · rw [if_neg he]
          exact moves.seen ok s e there
      · rw [co.frame x s hx, there₂]
    · cases alive : m'.liveAddr x with
      | true =>
        rw [er.ends x alive s, co.frame x s aside]
        obtain same | ⟨moved, -⟩ := ga.ends x s
        · rw [same, free]
        · cases free.symm.trans moved
      | false =>
        have inv' : Inv (clientHolds refs) m' := er.steady.inv
        cases hend : m'.endOf x s with
        | none => rfl
        | some b =>
          obtain ⟨-, -, -, -, -, -, live'⟩ := inv'.endOf_some hend
          rw [alive] at live'
          cases live'

end Merge

/-! ## Runs -/

def mergeOps : List Op :=
  [.createEl 0 .node, .createEl 0 .node, .createEl 1 .node, .gen3 (some 0) 0 .arc (some 1),
    .gen3 (some 1) 1 .arc (some 2), .gen3 (some 2) 1 .arc (some 1)]

def unseenBeginOps : List Op :=
  [.createEl 1 .node, .createEl 0 .arc, .setBeg (some 1) (some 0), .createEl 0 .arc]

end ScCore.Sets
