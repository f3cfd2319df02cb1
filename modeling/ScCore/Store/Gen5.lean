import ScCore.Store.GiveUp

/-!
# What `gen5_f_a_f_a_f` reports

When the second arc fails, the first one is erased, and it is the result of this that
`gen5_f_a_f_a_f` returns: success without the arcs, or a failure that leaves one behind.
-/

namespace ScCore.Store

open Memory TmpSegment Relation

variable {h : Holds} {m m' m₁ m₂ m₃ : Memory} {a b x y : Addr} {arc : Addr}
  {ss : Session} {w : Waits} {rv rv' : Retval} {fuel : Nat}
  {e1 e3 e5 : Option Addr} {s2 s4 : SegId} {t2 t4 : ScType}

structure NewArc (m m' : Memory) (x : Addr) (beg fin : Option Addr) : Prop where
  new : m.liveAddr x = false
  live : m'.liveAddr x = true
  beg : m'.endOf x .beg = beg
  fin : m'.endOf x .fin = fin

structure Reports (m m' : Memory) (e1 e3 e5 : Option Addr) (r : Option (Addr × Addr))
    (rv : Retval) : Prop where
  ok : rv = rvOk ↔ ∃ x y, r = some (x, y) ∧ x ≠ y ∧ NewArc m m' x e1 e3 ∧ NewArc m m' y e5 (some x)
  error : rv ≠ rvOk → r = none ∧ ∀ a t, m'.liveAddr a = true → m'.typeOf a = some t →
    t.isConnector = true → m.liveAddr a = true

/-- `gen3_f_a_f` gets past its own checks and past those of `set_beg` and `set_end`. -/
def gen3Passes (ss : Session) (w : Waits) (m : Memory) (e1 : Option Addr) (s2 : SegId)
    (t2 : ScType) (e3 : Option Addr) : Prop :=
  ss.access m e1 = some rvOk ∧ ss.access m e3 = some rvOk ∧
    ∃ m₁ arc t, ss.createEl m s2 t2 = some (m₁, some arc, rvOk) ∧ m₁.typeOf arc = some t ∧
      t.isConnector = true ∧ begPasses ss w m₁ (some arc) e1 ∧
      ∀ m₂ rv, ss.setBeg w m₁ (some arc) e1 = some (m₂, rv) → endPasses ss w m₂ (some arc) e3

/-- If `gen3_f_a_f` creates an arc, no wait denies its death. -/
def arcMayDie (ss : Session) (w : Waits) (m : Memory) (e1 : Option Addr) (s2 : SegId)
    (t2 : ScType) (e3 : Option Addr) : Prop :=
  ss.access m e1 = some rvOk → ss.access m e3 = some rvOk →
    ∀ m₁ arc t, ss.createEl m s2 t2 = some (m₁, some arc, rvOk) → m₁.typeOf arc = some t →
      t.isConnector = true → ∀ m₂ rv, ss.setBeg w m₁ (some arc) e1 = some (m₂, rv) →
        ¬DeniesDeath w m₂ arc

def reportsTruthfully (ss : Session) (w : Waits) (fuel : Nat) (m : Memory) (e1 : Option Addr)
    (s2 : SegId) (t2 : ScType) (e3 : Option Addr) (s4 : SegId) (t4 : ScType)
    (e5 : Option Addr) : Prop :=
  (gen3Passes ss w m e1 s2 t2 e3 → ∀ m₁ ce2,
    ss.gen3 w fuel m e1 s2 t2 e3 = some (m₁, some ce2, rvOk) →
      gen3Passes ss w m₁ e5 s4 t4 (some ce2)) ∧
  (¬gen3Passes ss w m e1 s2 t2 e3 → arcMayDie ss w m e1 s2 t2 e3)

theorem Inv.setEnds_ok_iff (inv : Inv h m) (unheld : ∀ n, h.node n = 0) {s : Endpoint} {t : Addr}
    (free : m.endOf x s = none) (hr : ss.setEnds w s m (some x) (some t) = some (m', rv)) :
    rv = rvOk ↔ setPasses ss w m s (some x) (some t) ∧
      ∃ type, m.typeOf x = some type ∧ type.isConnector = true := by
  obtain ⟨-, step, passes⟩ := inv.setEnds unheld hr
  constructor
  · intro ok
    obtain ⟨x', hx', there⟩ := step.there inv ok
    cases hx'
    have moved : m' ≠ m := by
      rintro rfl
      rw [free] at there
      cases there
    refine ⟨passes.resolve_left moved, ?_⟩
    cases setEnds_some hr with
    | refused same failed => exact absurd ok failed
    | works harc both htype hconn core =>
      cases harc
      exact ⟨_, access_typeOf (accessBoth_ok both).1 htype, hconn⟩
  · rintro ⟨passes, type, htype, hconn⟩
    have both : ss.accessBoth m (some x) (some t) = some rvOk ∧
        setPre w s m x (some t) = some false ∧
        (s = .beg → ∀ type, ss.getType m t = some type → type.isConnector = false) := by
      cases s with
      | beg =>
        obtain ⟨both, ⟨x', hx', pre⟩, plain⟩ := passes
        cases hx'
        exact ⟨both, pre, fun _ type htype => plain t type rfl htype⟩
      | fin =>
        obtain ⟨both, x', hx', pre⟩ := passes
        cases hx'
        exact ⟨both, pre, nofun⟩
    obtain ⟨both, pre, plain⟩ := both
    obtain ⟨okx, okt⟩ := accessBoth_ok both
    apply setEnds_ok hr okx
    · intro type' htype'
      obtain rfl := Option.some.inj (htype.symm.trans htype')
      exact hconn
    · rw [pre]
      simp
    · exact okt
    · intro hs t' type' ht' htype'
      cases ht'
      obtain ⟨g, hg, hd, hopen⟩ := access_ok.mp (okt t rfl)
      obtain ⟨el, hel, hget⟩ := inv.getType_eq hg hd hopen
      have htype := access_typeOf (okt t rfl) hget
      rw [htype'] at htype
      cases htype
      exact plain hs _ hget

section Created

variable (inv : Inv h m) (unheld : ∀ n, h.node n = 0)

include inv

theorem Inv.unborn : m.liveAddr m.nextAddr = false := by
  rw [Memory.liveAddr, inv.unusedAddr]

theorem Inv.created_arc (create : ss.createEl m s2 t2 = some (m₁, some arc, rvOk)) :
    Inv h m₁ ∧ arc = m.nextAddr ∧ (∀ y s, m₁.endOf y s = m.endOf y s) ∧
      ∀ y, y ≠ arc → m₁.liveAddr y = m.liveAddr y := by
  rcases createEl_some create with ⟨-, none, -⟩ | ⟨t, rfl, harc, -, -⟩
  · cases none
  · obtain rfl := Option.some.inj harc
    refine ⟨(inv.created s2 t).1, rfl, inv.created_endOf, fun y hy => ?_⟩
    rw [Memory.liveAddr, created_addrs, if_neg hy, Memory.liveAddr]

include unheld

theorem Inv.gen3_made (hr : ss.gen3 w fuel m e1 s2 t2 e3 = some (m', some x, rvOk)) :
    Inv h m' ∧ NewArc m m' x e1 e3 ∧ ∀ y, y ≠ x →
      m'.liveAddr y = m.liveAddr y ∧ ∀ s, m'.endOf y s = m.endOf y s := by
  cases gen3_some hr with
  | made access₁ access₃ create beg fin =>
    obtain ⟨inv₁, rfl, ends₁, live₁⟩ := inv.created_arc create
    obtain ⟨sets₂, -, step₂⟩ := inv₁.setBeg unheld beg
    obtain ⟨sets₃, -, step₃⟩ := sets₂.inv.setEnd unheld fin
    have moves₂ := step₂.moves inv₁
    have moves₃ := step₃.moves sets₂.inv
    obtain ⟨x₂, hx₂, begun⟩ := step₂.there inv₁ rfl
    obtain ⟨x₃, hx₃, ended⟩ := step₃.there sets₂.inv rfl
    cases hx₂
    cases hx₃
    refine ⟨sets₃.inv, ⟨inv.unborn, ?_, ?_, ended⟩, fun y hy => ⟨?_, fun s => ?_⟩⟩
    · cases e1 with
      | none => cases access₁
      | some b =>
        have begun' : m'.endOf m.nextAddr .beg = some b := by
          rw [moves₃.endOf _ _ (by simp), begun]
        obtain ⟨-, -, -, -, -, -, live⟩ := sets₃.inv.endOf_some begun'
        exact live
    · rw [moves₃.endOf _ _ (by simp), begun]
    · rw [moves₃.stays.liveAddr, moves₂.stays.liveAddr, live₁ y hy]
    · have other : ∀ u, ¬(some m.nextAddr = some y ∧ s = u) := fun u same =>
        hy (Option.some.inj same.1).symm
      rw [moves₃.endOf y s (other _), moves₂.endOf y s (other _), ends₁]

theorem Inv.begin_iff (access₁ : ss.access m e1 = some rvOk)
    (create : ss.createEl m s2 t2 = some (m₁, some arc, rvOk))
    (beg : ss.setBeg w m₁ (some arc) e1 = some (m₂, rv)) :
    (rv = rvOk ↔ begPasses ss w m₁ (some arc) e1 ∧
      ∃ t, m₁.typeOf arc = some t ∧ t.isConnector = true) ∧
    Inv h m₂ ∧ m₂.endOf arc .fin = none ∧ m₂.typeOf arc = m₁.typeOf arc := by
  obtain ⟨inv₁, rfl, ends₁, -⟩ := inv.created_arc create
  obtain ⟨sets, -, step⟩ := inv₁.setBeg unheld beg
  have moves := step.moves inv₁
  cases e1 with
  | none => cases access₁
  | some b =>
    have old : b ≠ m.nextAddr := by
      rintro rfl
      have live := access_live access₁
      rw [inv.unborn] at live
      cases live
    refine ⟨?_, sets.inv, ?_, ?_⟩
    · exact inv₁.setEnds_ok_iff (s := .beg) unheld ((ends₁ _ _).trans (inv.endOf_dead inv.unborn))
        beg
    · rw [moves.endOf _ _ (by simp), ends₁, inv.endOf_dead inv.unborn]
    · exact moves.typeOf _ fun _ same => absurd (Option.some.inj same) old

variable {r : Option Addr}

theorem Inv.gen3_ok_iff (hr : ss.gen3 w fuel m e1 s2 t2 e3 = some (m', r, rv)) :
    rv = rvOk ↔ gen3Passes ss w m e1 s2 t2 e3 := by
  have ended : ∀ {m₁ m₂ m₃ arc rv}, ss.access m e1 = some rvOk → ss.access m e3 = some rvOk →
      ss.createEl m s2 t2 = some (m₁, some arc, rvOk) →
      ss.setBeg w m₁ (some arc) e1 = some (m₂, rvOk) →
      ss.setEnd w m₂ (some arc) e3 = some (m₃, rv) →
      (rv = rvOk ↔ gen3Passes ss w m e1 s2 t2 e3) := by
    intro m₁ m₂ m₃ arc rv access₁ access₃ create beg fin
    obtain ⟨begun, inv₂, free, type⟩ := inv.begin_iff unheld access₁ create beg
    obtain ⟨passes, t, ht, hconn⟩ := begun.mp rfl
    cases e3 with
    | none => cases access₃
    | some e =>
      rw [inv₂.setEnds_ok_iff (s := .fin) unheld free fin, type]
      constructor
      · rintro ⟨ends, -⟩
        refine ⟨access₁, access₃, m₁, arc, t, create, ht, hconn, passes, ?_⟩
        intro m₂' rv' beg'
        cases beg.symm.trans beg'
        exact ends
      · rintro ⟨-, -, m₁', arc', t', create', -, -, -, ends⟩
        cases create.symm.trans create'
        exact ⟨ends m₂ rvOk beg, t, ht, hconn⟩
  cases gen3_some hr with
  | refused failed why =>
    refine iff_of_false failed ?_
    rintro ⟨ok₁, ok₃, m₁, arc, t, create, -⟩
    rcases why with denied | denied | none
    · exact denied ok₁
    · exact denied ok₃
    · cases none.symm.trans create
  | unbegun access₁ access₃ create beg failed =>
    refine iff_of_false failed ?_
    rintro ⟨-, -, m₁, arc, t, create', ht, hconn, passes, -⟩
    cases create.symm.trans create'
    exact failed ((inv.begin_iff unheld access₁ create beg).1.mpr ⟨passes, t, ht, hconn⟩)
  | unended access₁ access₃ create beg fin => exact ended access₁ access₃ create beg fin
  | made access₁ access₃ create beg fin => exact ended access₁ access₃ create beg fin

/-- What a failed `gen3_f_a_f` leaves: the other elements with their ends, and its arc where
its death is denied. -/
theorem Inv.gen3_left (hr : ss.gen3 w fuel m e1 s2 t2 e3 = some (m', r, rv)) (failed : rv ≠ rvOk) :
    r = none ∧
    (∀ y, m.liveAddr y = true → m'.liveAddr y = true ∧ ∀ s, m'.endOf y s = m.endOf y s) ∧
    ((∀ a t, m'.liveAddr a = true → m'.typeOf a = some t → t.isConnector = true →
      m.liveAddr a = true) ↔ arcMayDie ss w m e1 s2 t2 e3) := by
  have none : r = none := by
    cases gen3_some hr with
    | refused => rfl
    | unbegun => rfl
    | unended => rfl
    | made => exact absurd rfl failed
  refine ⟨none, ?_⟩
  rcases inv.gen3_failed unheld hr failed with
    ⟨rfl, clean⟩ | ⟨t, m₂, rv₂, rv₃, ok₁, ok₃, create, opened, begin', erase⟩
  · refine ⟨fun y hy => ⟨hy, fun _ => rfl⟩, iff_of_true (fun a _ ha _ _ => ha) ?_⟩
    intro ok₁ ok₃ m₁ arc _ create _ _ m₂ rv begin'
    exact (clean ok₁ ok₃ m₁ arc create).1 m₂ rv begin'
  · obtain ⟨-, -, -, type⟩ := inv.begin_iff unheld ok₁ create begin'
    cases e1 with
    | none => cases ok₁
    | some b =>
      have up := inv.givenUp unheld (access_live ok₁) opened begin'
      have old : ∀ y, m.liveAddr y = true → y ≠ m.nextAddr := by
        rintro y hy rfl
        rw [inv.unborn] at hy
        cases hy
      rcases up.inv.eraseEl_bare unheld up.bare up.access erase with
        ⟨denied, rfl⟩ | ⟨agreed, erased⟩
      · refine ⟨fun y hy => ⟨(up.live y (old y hy)).trans hy, fun s => up.endOf y s (old y hy)⟩, ?_⟩
        constructor
        · intro lives _ _ m₁ arc t' create' ht' hconn m₂ rv begin₂
          cases create.symm.trans create'
          have live := lives _ t' (access_live up.access) (type.trans ht') hconn
          exact absurd rfl (old _ live)
        · intro dies a t' ha ht' hconn
          by_cases new : a = m.nextAddr
          · subst new
            exact absurd denied (dies ok₁ ok₃ _ _ t' create (type.symm.trans ht') hconn _ _ begin')
          · exact (up.live a new).symm.trans ha
      · refine ⟨fun y hy => ?_, iff_of_true (fun a t' ha _ _ => ?_) ?_⟩
        · have live := erased.alone up.bare (old y hy) ((up.live y (old y hy)).trans hy)
          refine ⟨live, fun s => ?_⟩
          rw [erased.endOf up.inv up.bare live, up.endOf y s (old y hy)]
        · have new : a ≠ m.nextAddr := by
            rintro rfl
            rw [erased.dead] at ha
            cases ha
          exact (up.live a new).symm.trans (erased.cascade.shrinks.liveAddr ha)
        · intro _ _ m₁ arc t' create' _ _ m₂' rv' begin₂
          cases create.symm.trans create'
          cases begin'.symm.trans begin₂
          exact agreed

end Created

theorem gen3_none (hr : ss.gen3 w fuel m e1 s2 t2 e3 = some (m', none, rv)) : rv ≠ rvOk := by
  cases gen3_some hr with
  | refused failed => exact failed
  | unbegun _ _ _ _ failed => exact failed
  | unended _ _ _ _ _ failed => exact failed

theorem gen3_stored (hr : ss.gen3 w fuel m e1 s2 t2 e3 = some (m', some x, rv)) : rv = rvOk := by
  cases gen3_some hr with
  | made => rfl

theorem gen5_some {r : Option (Addr × Addr)}
    (hr : ss.gen5 w fuel m e1 s2 t2 e3 s4 t4 e5 = some (m', r, rv)) :
    (∃ rv₁, rv₁ ≠ rvOk ∧ ss.gen3 w fuel m e1 s2 t2 e3 = some (m', none, rv₁) ∧ r = none ∧
      rv = rv₁) ∨
    ∃ m₁ x, ss.gen3 w fuel m e1 s2 t2 e3 = some (m₁, some x, rvOk) ∧
      ((∃ m₂ rv₂, rv₂ ≠ rvOk ∧ ss.gen3 w fuel m₁ e5 s4 t4 (some x) = some (m₂, none, rv₂) ∧
          ss.eraseEl w fuel m₂ (some x) = some (m', rv) ∧ r = none) ∨
        ∃ y, ss.gen3 w fuel m₁ e5 s4 t4 (some x) = some (m', some y, rvOk) ∧ r = some (x, y) ∧
          rv = rvOk) := by
  obtain ⟨⟨m₁, r₁, rv₁⟩, first, hr⟩ := Option.bind_eq_some_iff.mp hr
  dsimp only at hr
  cases r₁ with
  | none =>
    cases hr
    exact .inl ⟨rv, gen3_none first, first, rfl, rfl⟩
  | some x =>
    obtain rfl := gen3_stored first
    obtain ⟨⟨m₂, r₂, rv₂⟩, second, hr⟩ := Option.bind_eq_some_iff.mp hr
    dsimp only at hr
    refine .inr ⟨m₁, x, first, ?_⟩
    cases r₂ with
    | none =>
      obtain ⟨⟨m₃, rv₃⟩, erase, hr⟩ := Option.bind_eq_some_iff.mp hr
      cases hr
      exact .inl ⟨m₂, rv₂, gen3_none second, second, erase, rfl⟩
    | some y =>
      obtain rfl := gen3_stored second
      cases hr
      exact .inr ⟨y, second, rfl, rfl⟩

/-- `gen5_f_a_f_a_f` reports truthfully exactly where the second arc can be made if the first
one can, and otherwise the first one, if it is created, may die. -/
theorem gen5_reports_iff (uri tmpPrefix : SegId → ScString) (st : State)
    (before : Reaches arcsKeepType (State.initial uri tmpPrefix) st) (ss : Session) (w : Waits)
    (fuel : Nat) (e1 : Option Addr) (s2 : SegId) (t2 : ScType) (e3 : Option Addr) (s4 : SegId)
    (t4 : ScType) (e5 : Option Addr) (m : Memory) (r : Option (Addr × Addr)) (rv : Retval)
    (hr : ss.gen5 w fuel st.memory e1 s2 t2 e3 s4 t4 e5 = some (m, r, rv)) :
    Reports st.memory m e1 e3 e5 r rv ↔
      reportsTruthfully ss w fuel st.memory e1 s2 t2 e3 s4 t4 e5 := by
  have inv : Inv (clientHolds st.refs) st.memory := StateInv.reaches before
  have unheld : ∀ n, (clientHolds st.refs).node n = 0 := fun _ => rfl
  rcases gen5_some hr with ⟨rv₁, failed, first, rfl, rfl⟩ | ⟨m₁, x, first, second⟩
  · obtain ⟨-, -, left⟩ := inv.gen3_left unheld first failed
    have stops : ¬gen3Passes ss w st.memory e1 s2 t2 e3 := fun passes =>
      failed ((inv.gen3_ok_iff unheld first).mpr passes)
    constructor
    · intro reports
      exact ⟨fun passes => absurd passes stops, fun _ => left.mp (reports.error failed).2⟩
    · intro truthful
      refine ⟨iff_of_false failed ?_, fun _ => ⟨rfl, left.mpr (truthful.2 stops)⟩⟩
      rintro ⟨x, y, none, -⟩
      cases none
  · obtain ⟨inv₁, newArc, frame⟩ := inv.gen3_made unheld first
    have passes := (inv.gen3_ok_iff unheld first).mp rfl
    rcases second with ⟨m₂, rv₂, failed, second, erase, rfl⟩ | ⟨y, second, rfl, rfl⟩
    · refine iff_of_false (fun reports => ?_) fun truthful => ?_
      · have error : rv ≠ rvOk := by
          intro ok
          obtain ⟨x, y, none, -⟩ := reports.ok.mp ok
          cases none
        have inv₂ := (inv₁.gen3 unheld second).1
        obtain ⟨-, lives, -⟩ := inv₁.gen3_left unheld second failed
        obtain ⟨live, ends⟩ := lives x newArc.live
        rcases inv₂.eraseEl unheld erase with ⟨rfl, -⟩ | ⟨-, -, ok, -⟩
        · -- The first arc is still there.
          obtain ⟨g, hg, -⟩ := liveAddr_eq_true.mp live
          obtain ⟨el, hel, -⟩ := inv₂.own_stored hg
          have type : m.typeOf x = some el.type := by
            rw [Memory.typeOf, hg, Option.bind_some, hel, Option.map_some]
          cases e1 with
          | none => cases passes.1
          | some b =>
            have beg : m.endOf x .beg = some b := (ends .beg).trans newArc.beg
            have old := (reports.error error).2 x _ live type (inv₂.connector_of_end beg type)
            rw [newArc.new] at old
            cases old
        · exact error ok
      · exact failed ((inv₁.gen3_ok_iff unheld second).mpr (truthful.1 passes m₁ x first))
    · obtain ⟨-, newArc', frame'⟩ := inv₁.gen3_made unheld second
      have passes' := (inv₁.gen3_ok_iff unheld second).mp rfl
      have ne : x ≠ y := by
        rintro rfl
        have dead := newArc'.new
        rw [newArc.live] at dead
        cases dead
      obtain ⟨live, ends⟩ := frame' x ne
      refine iff_of_true ⟨?_, fun error => absurd rfl error⟩ ⟨fun _ m₁' x' first' => ?_, ?_⟩
      · refine iff_of_true rfl ⟨x, y, rfl, ne, ?_, ?_⟩
        · exact ⟨newArc.new, live.trans newArc.live, (ends .beg).trans newArc.beg,
            (ends .fin).trans newArc.fin⟩
        · exact ⟨(frame y ne.symm).1.symm.trans newArc'.new, newArc'.live, newArc'.beg, newArc'.fin⟩
      · cases first.symm.trans first'
        exact passes'
      · exact fun stops => absurd passes stops

/-- Two arcs are made, of which the first is a loop. -/
theorem gen5_reports_iff_made : ∃ st m r,
    runOps 0 arcOps (State.initial (fun _ => []) fun _ => []) = some st ∧
    systemSession.gen5 noWaits 3 st.memory (some 0) 0 .arc (some 0) 0 .arc (some 0)
      = some (m, some r, rvOk) ∧
    (Reports st.memory m (some 0) (some 0) (some 0) (some r) rvOk ↔
      reportsTruthfully systemSession noWaits 3 st.memory (some 0) 0 .arc (some 0) 0 .arc
        (some 0)) := by
  have hrun : ∃ st m r, runOps 0 arcOps (State.initial (fun _ => []) fun _ => []) = some st ∧
      systemSession.gen5 noWaits 3 st.memory (some 0) 0 .arc (some 0) 0 .arc (some 0)
        = some (m, some r, rvOk) := ⟨_, _, _, rfl, rfl⟩
  obtain ⟨st, m, r, hst, hm⟩ := hrun
  exact ⟨st, m, r, hst, hm, gen5_reports_iff _ _ st (reaches_keeping (by decide) hst) systemSession
    noWaits 3
    (some 0) 0 .arc (some 0) 0 .arc (some 0) m (some r) rvOk hm⟩

/-- The second arc cannot begin at an arc, the first one is erased, and success is reported. -/
theorem gen5_reports_fails : ¬∀ (uri tmpPrefix : SegId → ScString) (st : State),
    Reaches arcsKeepType (State.initial uri tmpPrefix) st → ∀ (ss : Session) (w : Waits)
    (fuel : Nat) (e1 : Option Addr) (s2 : SegId) (t2 : ScType) (e3 : Option Addr) (s4 : SegId)
    (t4 : ScType) (e5 : Option Addr) (m : Memory) (r : Option (Addr × Addr)) (rv : Retval),
    ss.gen5 w fuel st.memory e1 s2 t2 e3 s4 t4 e5 = some (m, r, rv) →
    Reports st.memory m e1 e3 e5 r rv := by
  intro claim
  have hrun : ∃ st m, runOps 0 arcOps (State.initial (fun _ => []) fun _ => []) = some st ∧
      systemSession.gen5 noWaits 3 st.memory (some 0) 0 .arc (some 0) 0 .arc (some 1)
        = some (m, none, rvOk) := ⟨_, _, rfl, rfl⟩
  obtain ⟨st, m, hst, hm⟩ := hrun
  have reports := claim _ _ st (reaches_keeping (by decide) hst) systemSession noWaits 3 (some 0) 0
    .arc (some 0)
    0 .arc (some 1) m none rvOk hm
  obtain ⟨x, y, none, -⟩ := reports.ok.mp rfl
  cases none

end ScCore.Store
