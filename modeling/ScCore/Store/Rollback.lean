import ScCore.Store.Transaction
import Mathlib.Data.List.Induction

/-!
# What a rollback restores

The log of each side tells, together with the ends that arcs have now, the ends
they had when the transaction began. Every call keeps this, and so does every
step of the two loops of `rollback`; when the logs are used up the ends are the
old ones and the created elements stand alone.
-/

namespace ScCore.Store

open Memory TmpSegment Relation

variable {h : Holds} {m m' : Memory} {a b x y : Addr} {g : GlobalAddr} {s u : Endpoint}
  {ss : Session} {w : Waits} {arc target : Option Addr} {rv : Retval}

/-! ## One call to the host -/

section Host

theorem Inv.setEnds (inv : Inv h m) (unheld : ∀ n, h.node n = 0)
    (hr : ss.setEnds w s m arc target = some (m', rv)) :
    Inv h m' ∧ SetStep h ss w s arc target m m' rv ∧
      (m' = m ∨ setPasses ss w m s arc target) := by
  cases s with
  | beg =>
    obtain ⟨sets, passes, step⟩ := inv.setBeg unheld hr
    exact ⟨sets.inv, step, passes⟩
  | fin =>
    obtain ⟨sets, passes, step⟩ := inv.setEnd unheld hr
    exact ⟨sets.inv, step, passes⟩

theorem setEnds_denied (hr : ss.setEnds w s m arc target = some (m', rv))
    (denied : ss.access m arc ≠ some rvOk) : m' = m := by
  cases setEnds_some hr with
  | refused same => exact same
  | works harc both => exact absurd (accessBoth_ok both).1 denied

theorem setEnds_access (hr : ss.setEnds w s m arc target = some (m', rvOk)) :
    ss.access m arc = some rvOk ∧ ∀ t, target = some t → ss.access m (some t) = some rvOk := by
  cases setEnds_some hr with
  | refused same failed => exact absurd rfl failed
  | works harc both => exact accessBoth_ok both

theorem setCore_there {t : Addr} (hr : setCore ss w s m x (some t) = some (m', rv))
    (there : m.endOf x s = some t) : m' = m := by
  have early : ∀ {g el old}, m.addrs x = some g → m.elems g.impl = some el →
      Session.endAddr m (el.ends s) = some old → (el.ends s).isSome = true ∧ old = some t := by
    intro g el old hg hel hold
    rw [endOf_eq hg hel, bind_addrOf hold] at there
    refine ⟨?_, there⟩
    cases hend : el.ends s with
    | some e => rfl
    | none =>
      rw [hend] at hold
      obtain rfl := Option.some.inj hold
      cases there
  cases s with
  | beg =>
    simp only [setCore, Session.setBegCore, Option.bind_eq_bind, Option.bind_eq_some_iff] at hr
    obtain ⟨g, hg, el, hel, old, hold, hr⟩ := hr
    rw [if_pos (early hg hel hold)] at hr
    exact (Prod.mk.inj (Option.some.inj hr)).1.symm
  | fin =>
    simp only [setCore, Session.setEndCore, Option.bind_eq_bind, Option.bind_eq_some_iff] at hr
    obtain ⟨g, hg, el, hel, old, hold, hr⟩ := hr
    rw [if_pos (early hg hel hold)] at hr
    exact (Prod.mk.inj (Option.some.inj hr)).1.symm

theorem setEnds_there {t : Addr} (hr : ss.setEnds w s m (some x) (some t) = some (m', rv))
    (there : m.endOf x s = some t) : m' = m := by
  cases setEnds_some hr with
  | refused same => exact same
  | works harc both htype hconn core =>
    obtain rfl := Option.some.inj harc
    exact setCore_there core there

theorem access_typeOf (ok : ss.access m (some x) = some rvOk) {type : ScType}
    (htype : ss.getType m x = some type) : m.typeOf x = some type := by
  simp only [Session.getType, ok, Option.bind_eq_bind, Option.bind_some, ne_eq,
    not_true_eq_false, if_false] at htype
  obtain ⟨g, hg, htype⟩ := Option.bind_eq_some_iff.mp htype
  obtain ⟨el, hel, htype⟩ := Option.bind_eq_some_iff.mp htype
  rw [Memory.typeOf, hg, Option.bind_some, hel, Option.map_some, htype]

theorem setCore_ok (hr : setCore ss w s m x target = some (m', rv))
    (plain : s = .beg → ∀ t type, target = some t → ss.getType m t = some type →
      type.isConnector = false) : rv = rvOk := by
  cases s with
  | beg =>
    simp only [setCore, Session.setBegCore, Option.bind_eq_bind, Option.bind_eq_some_iff] at hr
    obtain ⟨g, -, el, -, old, -, hr⟩ := hr
    split at hr
    · exact (Prod.mk.inj (Option.some.inj hr)).2.symm
    · split at hr
      · obtain ⟨m₁, -, hr⟩ := Option.bind_eq_some_iff.mp hr
        exact (Prod.mk.inj (Option.some.inj hr)).2.symm
      · next t hne =>
        obtain ⟨type, htype, hr⟩ := Option.bind_eq_some_iff.mp hr
        rw [if_neg (by simp [plain rfl t type rfl htype])] at hr
        obtain ⟨m₁, hr⟩ : ∃ m₁, (Session.linkEnd .beg m₁ g.seg g.impl t).bind
            (fun m => some (m, rvOk)) = some (m', rv) := by
          split at hr
          · obtain ⟨p, -, hr⟩ := Option.bind_eq_some_iff.mp hr
            exact ⟨p.1, hr⟩
          · exact ⟨m, hr⟩
        obtain ⟨m₂, -, hr⟩ := Option.bind_eq_some_iff.mp hr
        exact (Prod.mk.inj (Option.some.inj hr)).2.symm
  | fin =>
    simp only [setCore, Session.setEndCore, Option.bind_eq_bind, Option.bind_eq_some_iff] at hr
    obtain ⟨g, -, el, -, old, -, hr⟩ := hr
    split at hr
    · exact (Prod.mk.inj (Option.some.inj hr)).2.symm
    · split at hr
      all_goals
        obtain ⟨m₁, -, hr⟩ := Option.bind_eq_some_iff.mp hr
        exact (Prod.mk.inj (Option.some.inj hr)).2.symm

theorem setEnds_ok (hr : ss.setEnds w s m (some x) target = some (m', rv))
    (ok : ss.access m (some x) = some rvOk)
    (hconn : ∀ type, m.typeOf x = some type → type.isConnector = true)
    (calm : setPre w s m x target ≠ some true)
    (acc : ∀ t, target = some t → ss.access m (some t) = some rvOk)
    (plain : s = .beg → ∀ t type, target = some t → m.typeOf t = some type →
      type.isConnector = false) : rv = rvOk := by
  cases setEnds_some hr with
  | refused same failed why =>
    rcases why with denied | ⟨x', harc, ⟨type, htype, hnot⟩ | pre⟩
    · refine absurd ?_ denied
      simp only [Session.accessBoth, ok, Option.bind_eq_bind, Option.bind_some, ne_eq,
        not_true_eq_false, if_false]
      cases target with
      | none => rfl
      | some t => exact acc t rfl
    · obtain rfl := Option.some.inj harc
      rw [hconn type (access_typeOf ok htype)] at hnot
      cases hnot
    · obtain rfl := Option.some.inj harc
      exact absurd pre calm
  | works harc both htype _ core =>
    obtain rfl := Option.some.inj harc
    apply setCore_ok core
    intro hs t type ht htype
    exact plain hs t type ht (access_typeOf (acc t ht) htype)

theorem Inv.getEnd (inv : Inv h m) {old : Option Addr} (ok : ss.access m (some x) = some rvOk)
    (acc : ∀ b, m.endOf x s = some b → ss.access m (some b) = some rvOk)
    (hr : ss.getEnd s m (some x) = some old) : old = m.endOf x s := by
  simp only [Session.getEnd, ok, Option.bind_eq_bind, Option.bind_some, ne_eq,
    not_true_eq_false, if_false] at hr
  obtain ⟨g, hg, hr⟩ := Option.bind_eq_some_iff.mp hr
  obtain ⟨el, hel, hr⟩ := Option.bind_eq_some_iff.mp hr
  rw [endOf_eq hg hel] at acc ⊢
  split at hr
  · next hnot =>
    obtain rfl := Option.some.inj hr
    cases hend : el.ends s with
    | none => rfl
    | some e =>
      have := inv.typed ((target_stored hel).trans hend) (label_stored hel)
      rw [show el.label.type = el.type from rfl] at this
      simp [this] at hnot
  · cases hend : el.ends s with
    | none =>
      rw [hend] at hr
      exact (Option.some.inj hr).symm
    | some e =>
      rw [hend] at hr acc
      obtain ⟨a, ha, hr⟩ := Option.bind_eq_some_iff.mp hr
      have hbind := bind_addrOf ha
      obtain ⟨o, b, ho, hob, -⟩ := inv.target_addr ((target_stored hel).trans hend)
      have he : m.addrOf e = some b := (addrOf_stored ho).trans hob
      rw [Option.bind_some, he] at hbind
      rw [Option.bind_some, he]
      subst hbind
      rw [acc b he] at hr
      exact (Option.some.inj hr).symm

end Host

/-! ## What a transaction keeps -/

/-- The elements of `m₀` are as they were but for their ends, and every other one that is
alive has been created and logged. -/
structure Carries (ss : Session) (m₀ m : Memory) (gened : List Addr) : Prop where
  persists : Persists m₀ m
  type : ∀ a, m₀.liveAddr a = true → m.typeOf a = m₀.typeOf a
  born : ∀ a, m.liveAddr a = true → m₀.liveAddr a = true ∨ a ∈ gened
  fresh : ∀ a ∈ gened, m₀.liveAddr a = false
  opened : ∀ a ∈ gened, ∀ g, m.addrs a = some g → ss.opened g.seg = true

def endNow (m : Memory) (s : Endpoint) (arc : Option Addr) : Option Addr :=
  arc.bind fun x => m.endOf x s

/-- The end `s` of `x` has never moved, or whatever it has been can be set again. -/
def Sound (ss : Session) (s : Endpoint) (m₀ m : Memory) (log : List TransPair) (x : Addr) : Prop :=
  (m.endOf x s = m₀.endOf x s ∧ ∀ old, (some x, old) ∈ log → old = m₀.endOf x s) ∨
    ∀ b, (m₀.endOf x s = some b ∨ m.endOf x s = some b ∨ (some x, some b) ∈ log) →
      m₀.liveAddr b = true → Restorable ss m₀ s b

/-- The log and the present ends tell the ends of `m₀`. -/
structure Tells (ss : Session) (s : Endpoint) (m₀ m : Memory) (log : List TransPair) : Prop where
  past : ∀ x, UndoLog.before log (endNow m s) (some x) = m₀.endOf x s
  arcs : ∀ arc old, (arc, old) ∈ log → ∃ x, arc = some x ∧ ss.access m (some x) = some rvOk
  sound : ∀ x, Sound ss s m₀ m log x

variable {m₀ : Memory} {gened : List Addr} {log : List TransPair}

theorem Stays.access (st : Stays m m') (ok : ss.access m (some a) = some rvOk) :
    ss.access m' (some a) = some rvOk := by
  obtain ⟨g, hg, hd, hopen⟩ := access_ok.mp ok
  obtain ⟨g', hg', hs, -, hd'⟩ := st.persists.addrs hg
  exact access_ok.mpr ⟨g', hg', hd'.trans hd, hs ▸ hopen⟩

theorem Carries.stays (c : Carries ss m₀ m gened) (st : Stays m m')
    (types : ∀ a, m₀.liveAddr a = true → m'.typeOf a = m.typeOf a) : Carries ss m₀ m' gened where
  persists := c.persists.trans st.persists
  type a ha := (types a ha).trans (c.type a ha)
  born a ha := c.born a (st.liveAddr a ▸ ha)
  fresh := c.fresh
  opened a ha g' hg' := by
    obtain ⟨g, hg⟩ := st.back hg'
    obtain ⟨g'', hg'', hs, -⟩ := st.persists.addrs hg
    obtain rfl := Option.some.inj (hg'.symm.trans hg'')
    rw [hs]
    exact c.opened a ha g hg

theorem Carries.access (c : Carries ss m₀ m gened) (ha : m₀.liveAddr a = true) :
    ss.access m (some a) = some rvOk ↔ ss.access m₀ (some a) = some rvOk := by
  obtain ⟨g, hg, hd⟩ := liveAddr_eq_true.mp ha
  obtain ⟨g', hg', hs, -, hd'⟩ := c.persists.addrs hg
  rw [access_ok, access_ok, hg, hg']
  simp only [Option.some.injEq, exists_eq_left', hs, hd']

theorem Tells.stays (tells : Tells ss s m₀ m log) (st : Stays m m')
    (ends : ∀ y, m'.endOf y s = m.endOf y s) : Tells ss s m₀ m' log where
  past x := by
    rw [← tells.past x]
    congr 1
    funext arc
    cases arc with
    | none => rfl
    | some y => exact ends y
  arcs arc old hmem := by
    obtain ⟨x, harc, ok⟩ := tells.arcs arc old hmem
    exact ⟨x, harc, st.access ok⟩
  sound x := by
    rw [Sound, ends x]
    exact tells.sound x

variable {old e1 e3 r : Option Addr} {type t2 : ScType} {h₀ : Holds} {l : List Addr}

theorem Tells.past_of_write (tells : Tells ss s m₀ m log) (hold : old = m.endOf x s)
    (frame : ∀ y, y ≠ x → m'.endOf y s = m.endOf y s) (y : Addr) :
    UndoLog.before (log ++ [(some x, old)]) (endNow m' s) (some y) = m₀.endOf y s := by
  rw [← tells.past y]
  apply UndoLog.before_append
  · intro same _
    obtain rfl := Option.some.inj same
    exact hold
  · intro other
    exact frame y fun same => other (congrArg some same.symm)

theorem mem_append_single {entry e : TransPair} :
    entry ∈ log ++ [e] ↔ entry ∈ log ∨ entry = e := by
  simp

theorem sound_append_other (hy : y ≠ x) (same : m'.endOf y s = m.endOf y s) :
    Sound ss s m₀ m' (log ++ [(some x, old)]) y ↔ Sound ss s m₀ m log y := by
  have hmem : ∀ o, (some y, o) ∈ log ++ [(some x, old)] ↔ (some y, o) ∈ log := by
    intro o
    rw [mem_append_single, or_iff_left]
    exact fun heq => hy (Option.some.inj (Prod.mk.inj heq).1)
  simp only [Sound, same, hmem]

theorem Sound.append_same (sound : Sound ss s m₀ m log x) (same : m'.endOf x s = m.endOf x s) :
    Sound ss s m₀ m' (log ++ [(some x, m.endOf x s)]) x := by
  rcases sound with ⟨idle, logged⟩ | all
  · refine .inl ⟨same.trans idle, fun o ho => ?_⟩
    rcases mem_append_single.mp ho with ho | ho
    · exact logged o ho
    · exact (Prod.mk.inj ho).2.trans idle
  · refine .inr fun b hb => all b ?_
    rw [same, mem_append_single] at hb
    rcases hb with first | now | hmem | heq
    · exact .inl first
    · exact .inr (.inl now)
    · exact .inr (.inr hmem)
    · exact .inr (.inl (Prod.mk.inj heq).2.symm)

theorem Sound.append_moved (sound : Sound ss s m₀ m log x)
    (current : ∀ b, m.endOf x s = some b → m₀.liveAddr b = true → Restorable ss m₀ s b)
    (new : ∀ b, m'.endOf x s = some b → m₀.liveAddr b = true → Restorable ss m₀ s b) :
    Sound ss s m₀ m' (log ++ [(some x, m.endOf x s)]) x := by
  refine .inr fun b hb hlive => ?_
  rw [mem_append_single] at hb
  rcases hb with first | now | hmem | heq
  · rcases sound with ⟨idle, -⟩ | all
    · exact current b (idle.trans first) hlive
    · exact all b (.inl first) hlive
  · exact new b now hlive
  · rcases sound with ⟨idle, logged⟩ | all
    · exact current b (idle.trans (logged _ hmem).symm) hlive
    · exact all b (.inr (.inr hmem)) hlive
  · exact current b (Prod.mk.inj heq).2.symm hlive

theorem Moves.keepsTypes (mv : Moves s (some x) target m m') (c : Carries ss m₀ m gened)
    (hr : ss.setEnds w s m (some x) target = some (m', rv))
    (plain : s = .beg → ∀ b, target = some b → m.endOf x s ≠ some b → m₀.liveAddr b = true →
      ∀ t, m.typeOf b = some t → t &&& .undf = 0) : Carries ss m₀ m' gened := by
  apply c.stays mv.stays
  intro a ha
  by_cases there : ∃ b, target = some b ∧ m.endOf x s = some b
  · obtain ⟨b, rfl, hb⟩ := there
    rw [setEnds_there hr hb]
  · apply mv.typeOf
    intro hs ht t
    refine plain hs a ht ?_ ha t
    exact fun hb => there ⟨a, ht, hb⟩

theorem Inv.logged (inv : Inv h m) (unheld : ∀ n, h.node n = 0) (c : Carries ss m₀ m gened)
    (tells : Tells ss s m₀ m log) (ok : EndUndoable ss w m₀ m s arc target)
    (hold : ss.getEnd s m arc = some old) (hr : ss.setEnds w s m arc target = some (m', rvOk)) :
    Inv h m' ∧ Carries ss m₀ m' gened ∧ Tells ss s m₀ m' (log ++ [(arc, old)]) ∧
      Moves s arc target m m' := by
  obtain ⟨inv', step, passes⟩ := inv.setEnds unheld hr
  have mv := step.moves inv
  obtain ⟨x, rfl, there⟩ := step.there inv rfl
  obtain ⟨okx, okt⟩ := setEnds_access hr
  obtain rfl : old = m.endOf x s :=
    inv.getEnd okx (fun b hb => ok.access x b rfl okx hb) hold
  have moves : m.endOf x s ≠ target → movesEnd ss w m s (some x) target := by
    intro hne
    refine ⟨passes.resolve_left ?_, x, rfl, hne⟩
    rintro rfl
    exact hne there
  have frame : ∀ y, y ≠ x → m'.endOf y s = m.endOf y s := fun y hy =>
    mv.endOf y s fun same => hy (Option.some.inj same.1).symm
  refine ⟨inv', mv.keepsTypes c hr ?_, ⟨tells.past_of_write rfl frame, ?_, ?_⟩, mv⟩
  · intro hs b hb hne hlive
    exact ok.new (moves (hb ▸ hne)) b hb hlive hs
  · intro arc' old' hmem
    rcases mem_append_single.mp hmem with hmem | heq
    · obtain ⟨x', harc, okx'⟩ := tells.arcs arc' old' hmem
      exact ⟨x', harc, mv.stays.access okx'⟩
    · exact ⟨x, (Prod.mk.inj heq).1, mv.stays.access okx⟩
  · intro y
    by_cases hy : y = x
    · subst hy
      by_cases same : m.endOf y s = target
      · exact (tells.sound y).append_same (there.trans same.symm)
      · have mvs := moves same
        apply (tells.sound y).append_moved
        · intro b hb hlive
          refine ⟨(c.access hlive).mp (ok.access y b rfl okx hb), fun hs t ht => ?_⟩
          rw [← c.type b hlive] at ht
          exact ok.old mvs y b rfl hb hlive hs t ht
        · intro b hb hlive
          have hbt : target = some b := there.symm.trans hb
          refine ⟨(c.access hlive).mp (okt b hbt), fun hs t ht => ?_⟩
          rw [← c.type b hlive] at ht
          refine ⟨?_, ok.new mvs b hbt hlive hs t ht⟩
          subst hs
          obtain ⟨g, hg, hd, hopen⟩ := access_ok.mp (okt b hbt)
          obtain ⟨el, hel, htype⟩ := inv.getType_eq hg hd hopen
          obtain rfl := Option.some.inj (ht.symm.trans (access_typeOf (okt b hbt) htype))
          exact mvs.1.2.2 b _ hbt htype
    · exact (sound_append_other hy (frame y hy)).mpr (tells.sound y)

/-- The call that a transaction makes after one that failed: it sets the end that is there. -/
theorem Inv.setBack (inv : Inv h m) (unheld : ∀ n, h.node n = 0)
    (acc : ∀ x b, arc = some x → ss.access m (some x) = some rvOk → m.endOf x s = some b →
      ss.access m (some b) = some rvOk)
    (hold : ss.getEnd s m arc = some old)
    (hr : ss.setEnds w s m arc old = some (m', rv)) :
    Inv h m' ∧ Stays m m' ∧ (∀ y u, m'.endOf y u = m.endOf y u) ∧
      ∀ y, m'.typeOf y = m.typeOf y := by
  obtain ⟨inv', step, -⟩ := inv.setEnds unheld hr
  by_cases ok : ss.access m arc = some rvOk
  · cases arc with
    | none => cases ok
    | some x =>
      obtain rfl : old = m.endOf x s := inv.getEnd ok (fun b hb => acc x b rfl ok hb) hold
      have mv := step.moves inv
      cases hend : m.endOf x s with
      | some b =>
        rw [hend] at hr
        obtain rfl := setEnds_there hr hend
        exact ⟨inv', Stays.refl _, fun _ _ => rfl, fun _ => rfl⟩
      | none =>
        rw [hend] at mv step
        refine ⟨inv', mv.stays, fun y u => ?_, fun y => mv.typeOf y fun _ hy => by cases hy⟩
        by_cases here : some x = some y ∧ u = s
        · obtain ⟨hxy, rfl⟩ := here
          obtain rfl := Option.some.inj hxy
          rw [hend]
          by_cases okrv : rv = rvOk
          · obtain ⟨x', hx', there⟩ := step.there inv okrv
            obtain rfl := Option.some.inj hx'
            exact there
          · rw [step.failed okrv, hend]
        · exact mv.endOf y u here
  · obtain rfl := setEnds_denied hr ok
    exact ⟨inv', Stays.refl _, fun _ _ => rfl, fun _ => rfl⟩

/-! ## Runs of a transaction -/

section Created

variable {seg : SegId} {t : ScType}

theorem Inv.created_new (inv : Inv h m) {b : Addr} {g : GlobalAddr} (hb : m.addrs b = some g) :
    b ≠ m.nextAddr := by
  rintro rfl
  rw [inv.unusedAddr] at hb
  cases hb

theorem Inv.created_endOf (inv : Inv h m) (y : Addr) (s : Endpoint) :
    (ScCore.Store.created m seg t).endOf y s = m.endOf y s := by
  have ad := adds_created m seg t
  by_cases hy : y = m.nextAddr
  · have bare : m.graph.target m.nextElem s = none := target_missing inv.unused
    rw [endOf_target (m := ScCore.Store.created m seg t) (x := y)
      (by rw [created_addrs, if_pos hy]),
      ad.graph inv.toAddrInv, bare, Memory.endOf, hy, inv.unusedAddr]
    rfl
  · rw [Memory.endOf, created_addrs, if_neg hy, Memory.endOf]
    cases hg : m.addrs y with
    | none => rfl
    | some g =>
      rw [Option.bind_some, Option.bind_some, ad.graph inv.toAddrInv]
      cases ht : m.graph.target g.impl s with
      | none => rfl
      | some e =>
        obtain ⟨o, b, ho, hob, -⟩ := inv.target_addr ht
        have he : m.addrOf e = some b := (addrOf_stored ho).trans hob
        rw [Option.bind_some, Option.bind_some, ad.addrOf_old (Adds.ne_new inv.toAddrInv he)]

theorem Inv.created_typeOf (inv : Inv h m) (hlive : m.liveAddr y = true) :
    (ScCore.Store.created m seg t).typeOf y = m.typeOf y := by
  obtain ⟨g, hg, -⟩ := liveAddr_eq_true.mp hlive
  have hg' : (ScCore.Store.created m seg t).addrs y = some g := by
    rw [created_addrs, if_neg (inv.created_new hg), hg]
  have old := Adds.ne_new inv.toAddrInv (inv.stores_addr hg List.mem_cons_self)
  rw [typeOf_label hg', typeOf_label hg, (adds_created m seg t).label_old old]

theorem created_live (hlive : (ScCore.Store.created m seg t).liveAddr y = true) :
    m.liveAddr y = true ∨ y = m.nextAddr := by
  by_cases hy : y = m.nextAddr
  · exact .inr hy
  · rw [Memory.liveAddr, created_addrs, if_neg hy] at hlive
    exact .inl hlive

theorem Carries.created (c : Carries ss m₀ m gened) (inv : Inv h m)
    (hopen : ss.opened seg = true) :
    Carries ss m₀ (ScCore.Store.created m seg t) (gened ++ [m.nextAddr]) where
  persists := c.persists.trans (persists_created inv seg t)
  type a ha := (inv.created_typeOf (c.persists.liveAddr ha)).trans (c.type a ha)
  born a ha := by
    rcases created_live ha with hlive | rfl
    · exact (c.born a hlive).imp_right fun hmem => List.mem_append_left _ hmem
    · exact .inr (List.mem_append_right _ List.mem_cons_self)
  fresh a ha := by
    rcases List.mem_append.mp ha with ha | ha
    · exact c.fresh a ha
    · obtain rfl := List.mem_singleton.mp ha
      cases hlive : m₀.liveAddr m.nextAddr with
      | false => rfl
      | true =>
        obtain ⟨g, hg, -⟩ := liveAddr_eq_true.mp (c.persists.liveAddr hlive)
        exact absurd rfl (inv.created_new hg)
  opened a ha g hg := by
    rw [created_addrs] at hg
    split at hg
    · obtain rfl := Option.some.inj hg
      exact hopen
    · next hne =>
      rcases List.mem_append.mp ha with ha | ha
      · exact c.opened a ha g hg
      · exact absurd (List.mem_singleton.mp ha) hne

theorem Tells.created (tells : Tells ss s m₀ m log) (inv : Inv h m) :
    Tells ss s m₀ (ScCore.Store.created m seg t) log where
  past x := by
    rw [← tells.past x]
    congr 1
    funext arc
    cases arc with
    | none => rfl
    | some y => exact inv.created_endOf y s
  arcs arc old hmem := by
    obtain ⟨x, harc, ok⟩ := tells.arcs arc old hmem
    obtain ⟨g, hg, hd, hopen⟩ := access_ok.mp ok
    refine ⟨x, harc, access_ok.mpr ⟨g, ?_, hd, hopen⟩⟩
    rw [created_addrs, if_neg (inv.created_new hg), hg]
  sound x := by
    rw [Sound, inv.created_endOf]
    exact tells.sound x

end Created

theorem createEl_refused {seg : SegId} (refused : ¬(ss.opened seg = true ∧ type.verify ≠ none)) :
    ss.createEl m seg type = some (m, none, rvErrGen) := by
  unfold Session.createEl
  cases hopen : ss.opened seg with
  | false => rfl
  | true =>
    cases hverify : type.verify with
    | none => simp
    | some t => exact absurd ⟨hopen, by simp [hverify]⟩ refused

theorem gen3_refused {fuel : Nat} {s2 : SegId} (refused : ¬gen3Creates ss m e1 s2 t2 e3)
    (hr : ss.gen3 w fuel m e1 s2 t2 e3 = some (m', r, rv)) : m' = m ∧ r = none := by
  simp only [Session.gen3, Option.bind_eq_bind, Option.bind_eq_some_iff] at hr
  obtain ⟨rv₁, ok₁, hr⟩ := hr
  split at hr
  · obtain ⟨rfl, rfl, -⟩ : m = m' ∧ none = r ∧ rv₁ = rv := by simpa using hr
    exact ⟨rfl, rfl⟩
  · next hrv₁ =>
    obtain ⟨rv₃, ok₃, hr⟩ := Option.bind_eq_some_iff.mp hr
    split at hr
    · obtain ⟨rfl, rfl, -⟩ : m = m' ∧ none = r ∧ rv₃ = rv := by simpa using hr
      exact ⟨rfl, rfl⟩
    · next hrv₃ =>
      obtain rfl : rv₁ = rvOk := by simpa using hrv₁
      obtain rfl : rv₃ = rvOk := by simpa using hrv₃
      rw [createEl_refused fun both => refused ⟨ok₁, ok₃, both⟩, Option.bind_some,
        if_pos (show rvErrGen ≠ rvOk by decide)] at hr
      obtain ⟨rfl, rfl, -⟩ : m = m' ∧ none = r ∧ rvErrGen = rv := by simpa using hr
      exact ⟨rfl, rfl⟩

theorem gen5_refused {fuel : Nat} {e5 : Option Addr} {r : Option (Addr × Addr)} {s2 s4 : SegId}
    {t4 : ScType} (refused : ¬gen3Creates ss m e1 s2 t2 e3)
    (hr : ss.gen5 w fuel m e1 s2 t2 e3 s4 t4 e5 = some (m', r, rv)) : m' = m := by
  simp only [Session.gen5, Option.bind_eq_bind, Option.bind_eq_some_iff] at hr
  obtain ⟨⟨m₁, r₁, rv₁⟩, hm₁, hr⟩ := hr
  obtain ⟨rfl, rfl⟩ := gen3_refused refused hm₁
  exact (Prod.mk.inj (Option.some.inj hr)).1.symm

theorem Carries.changeType (c : Carries ss m₀ m gened) (inv : Inv h m)
    (kept : m₀.liveAddr a = true → ¬typeChanges ss w m a type)
    (hr : ss.changeType w m a type = some (m', rv)) :
    Carries ss m₀ m' gened ∧ Stays m m' ∧ ∀ y s, m'.endOf y s = m.endOf y s := by
  rcases changeType_some hr with rfl | ⟨g, t, ch⟩
  · exact ⟨c, Stays.refl _, fun _ _ => rfl⟩
  · have r : Relabels (· = g.impl) m m' := by
      rw [ch.memory]
      exact Relabels.mapElem (P := (· = g.impl)) rfl ⟨fun _ => rfl, fun _ => rfl, fun _ => rfl,
        fun _ => rfl, fun _ => rfl⟩
    refine ⟨c.stays r.stays fun b hb => ?_, r.stays, fun y s => r.endOf inv⟩
    by_cases hba : b = a
    · subst hba
      have same : m.typeOf b = some t := by
        by_contra hne
        exact kept hb ⟨t, ch.verify, ch.access, hne, ch.allowed, ch.unrefused⟩
      obtain ⟨el, hel, -⟩ := inv.own_stored ch.addr
      have hel' := elems_mapElem (e := g.impl) (fun el => { el with type := t }) hel
      rw [← ch.memory, if_pos rfl] at hel'
      rw [same, typeOf_label (r.addrs ▸ ch.addr), label_stored hel']
      rfl
    · apply r.stays.typeOf
      intro gb hgb
      rw [r.label]
      intro same
      exact hba (inv.addr_unique hgb ch.addr
        (List.mem_cons_self : (⟨gb.seg, gb.impl⟩ : LinkAddr) ∈ gb.stores)
        (List.mem_cons_self : (⟨g.seg, g.impl⟩ : LinkAddr) ∈ g.stores) same)

structure TxInv (ss : Session) (m₀ : Memory) (st : TxState) : Prop where
  armed : st.tx.needRollback = true
  inv : Inv (clientHolds st.refs) st.memory
  carries : Carries ss m₀ st.memory st.tx.genedElems
  tells : ∀ s, Tells ss s m₀ st.memory (st.tx.orig s)

variable {st st' : TxState}

theorem TxInv.start {st : State} (inv : StateInv st) : TxInv ss st.memory (TxState.start st) where
  armed := rfl
  inv := inv
  carries := ⟨Persists.refl _, fun _ _ => rfl, fun _ ha => .inl ha, fun _ ha => (nomatch ha),
    fun _ ha => (nomatch ha)⟩
  tells _ := ⟨fun _ => rfl, fun _ _ hmem => (nomatch hmem),
    fun _ => .inl ⟨rfl, fun _ hmem => (nomatch hmem)⟩⟩

theorem TxInv.idle (i : TxInv ss m₀ st) {refs : Addr → Nat} {erased : List Addr}
    (inv : Inv (clientHolds refs) m') (stays : Stays st.memory m')
    (ends : ∀ y s, m'.endOf y s = st.memory.endOf y s)
    (types : ∀ y, m₀.liveAddr y = true → m'.typeOf y = st.memory.typeOf y) :
    TxInv ss m₀ ⟨m', refs, { st.tx with erasedElems := erased }⟩ where
  armed := i.armed
  inv := inv
  carries := i.carries.stays stays types
  tells s := (i.tells s).stays stays fun y => ends y s

theorem TxInv.setEndpoint (i : TxInv ss m₀ st)
    (ok : EndUndoable ss w m₀ st.memory s arc target)
    (hr : Transaction.setEndpoint ss w s st arc target = some (st', rv)) : TxInv ss m₀ st' := by
  simp only [Transaction.setEndpoint, Option.bind_eq_bind, Option.bind_eq_some_iff] at hr
  obtain ⟨old, hold, ⟨m₁, rv₁⟩, hm₁, hr⟩ := hr
  have unheld : ∀ n, (clientHolds st.refs).node n = 0 := fun _ => rfl
  dsimp only at hr
  split at hr
  · next failed =>
    obtain ⟨⟨m₂, rv₂⟩, hm₂, hr⟩ := Option.bind_eq_some_iff.mp hr
    obtain ⟨rfl, -⟩ := Prod.mk.inj (Option.some.inj hr)
    obtain ⟨-, step, -⟩ := i.inv.setEnds unheld hm₁
    obtain rfl := step.failed failed
    obtain ⟨inv', stays, ends, types⟩ := i.inv.setBack unheld ok.access hold hm₂
    exact i.idle inv' stays ends fun y _ => types y
  · next hrv =>
    obtain rfl : rv₁ = rvOk := by simpa using hrv
    obtain ⟨rfl, -⟩ := Prod.mk.inj (Option.some.inj hr)
    obtain ⟨inv', carries, tells, mv⟩ := i.inv.logged unheld i.carries (i.tells s) ok hold hm₁
    refine ⟨i.armed, inv', carries, fun u => ?_⟩
    by_cases hu : u = s
    · subst hu
      simpa using tells
    · simp only [hu, if_false]
      exact (i.tells u).stays mv.stays fun y => mv.endOf y u fun same => hu same.2

theorem TxInv.createEl {seg : SegId} (i : TxInv ss m₀ st)
    (hr : Transaction.createEl ss st seg type = some (st', r, rv)) : TxInv ss m₀ st' := by
  simp only [Transaction.createEl, Option.bind_eq_bind, Option.bind_eq_some_iff] at hr
  obtain ⟨⟨m₁, r₁, rv₁⟩, hm₁, hr⟩ := hr
  rcases createEl_some hm₁ with ⟨rfl, rfl, -⟩ | ⟨t, rfl, rfl, -, hopen⟩
  · obtain ⟨rfl, -⟩ := Prod.mk.inj (Option.some.inj hr)
    exact i
  · obtain ⟨rfl, -⟩ := Prod.mk.inj (Option.some.inj hr)
    exact ⟨i.armed, (i.inv.created seg t).1, i.carries.created i.inv hopen,
      fun s => (i.tells s).created i.inv⟩

theorem TxInv.eraseEl (i : TxInv ss m₀ st)
    (hr : Transaction.eraseEl ss st a = some (st', rv)) : TxInv ss m₀ st' := by
  simp only [Transaction.eraseEl, Option.bind_eq_bind, Option.bind_eq_some_iff] at hr
  obtain ⟨g, hg, hr⟩ := hr
  split at hr
  · obtain ⟨rfl, -⟩ := Prod.mk.inj (Option.some.inj hr)
    exact i
  · obtain ⟨m₁, hm₁, hr⟩ := Option.bind_eq_some_iff.mp hr
    obtain ⟨rfl, -⟩ := Prod.mk.inj (Option.some.inj hr)
    obtain ⟨m₂, hm₂, inv₂, -⟩ := Inv.refAddr i.inv hg
    obtain rfl := Option.some.inj (hm₁.symm.trans hm₂)
    rw [clientHolds_ref] at inv₂
    obtain rfl := Option.some.inj ((modifyAddr_eq hg).symm.trans hm₁)
    have stays := stays_mapAddr (m := st.memory) (a := a)
      (f := fun g => { g with refcnt := g.refcnt + 1 }) fun _ => ⟨rfl, rfl, rfl⟩
    exact i.idle inv₂ stays (fun y s => stays.endOf i.inv fun _ _ => rfl)
      fun y _ => stays.typeOf fun _ _ => rfl

theorem TxInv.exec {fuel : Nat} {op : TxOp} (i : TxInv ss m₀ st) (ok : undoable ss m₀ w op st)
    (hr : op.exec ss w fuel st = some st') : TxInv ss m₀ st' := by
  cases op with
  | createEl seg type =>
    obtain ⟨⟨st₁, r, rv⟩, hst₁, rfl⟩ := Option.map_eq_some_iff.mp hr
    exact i.createEl hst₁
  | setBeg arc beg =>
    obtain ⟨⟨st₁, rv⟩, hst₁, rfl⟩ := Option.map_eq_some_iff.mp hr
    exact i.setEndpoint ok hst₁
  | setEnd arc fin =>
    obtain ⟨⟨st₁, rv⟩, hst₁, rfl⟩ := Option.map_eq_some_iff.mp hr
    exact i.setEndpoint ok hst₁
  | gen3 e1 s2 t2 e3 =>
    obtain ⟨⟨m₁, r, rv⟩, hm₁, rfl⟩ := Option.map_eq_some_iff.mp hr
    obtain ⟨rfl, -⟩ := gen3_refused ok hm₁
    exact i
  | gen5 e1 s2 t2 e3 s4 t4 e5 =>
    obtain ⟨⟨m₁, r, rv⟩, hm₁, rfl⟩ := Option.map_eq_some_iff.mp hr
    obtain rfl := gen5_refused ok hm₁
    exact i
  | changeType a type =>
    obtain ⟨⟨m₁, rv⟩, hm₁, rfl⟩ := Option.map_eq_some_iff.mp hr
    obtain ⟨carries, stays, ends⟩ := i.carries.changeType i.inv ok.2 hm₁
    exact ⟨i.armed, (i.inv.changeType_guarded ok.1 hm₁).1, carries,
      fun s => (i.tells s).stays stays fun y => ends y s⟩
  | eraseEl a =>
    obtain ⟨⟨st₁, rv⟩, hst₁, rfl⟩ := Option.map_eq_some_iff.mp hr
    exact i.eraseEl hst₁

theorem TxInv.reaches {st₀ : State} (inv : StateInv st₀)
    (run : TxReaches ss (undoable ss st₀.memory) (TxState.start st₀) st) :
    TxInv ss st₀.memory st := by
  induction run with
  | refl => exact TxInv.start inv
  | step w fuel op _ ok hexec ih => exact ih.exec ok hexec

/-! ## The loops over the logs -/

theorem Inv.connector_of_end (inv : Inv h m) (hb : m.endOf x s = some b)
    (htype : m.typeOf x = some type) : type.isConnector = true := by
  obtain ⟨g, e, hg, ht, -⟩ := inv.endOf_some hb
  obtain ⟨el, hel, -⟩ := inv.own_stored hg
  rw [typeOf_label hg, label_stored hel] at htype
  obtain rfl := Option.some.inj htype
  exact inv.typed ht (label_stored hel)

section

variable (inv₀ : Inv h₀ m₀) (inv : Inv h m) (unheld : ∀ n, h.node n = 0) (c : Carries ss m₀ m gened)
include inv₀ inv unheld c

theorem Inv.undone (okx : ss.access m (some x) = some rvOk)
    (sound : ∀ b, m₀.endOf x s = some b → Restorable ss m₀ s b)
    (calm : setPre w s m x (m₀.endOf x s) ≠ some true)
    (hr : ss.setEnds w s m (some x) (m₀.endOf x s) = some (m', rv)) :
    m'.endOf x s = m₀.endOf x s := by
  obtain ⟨-, step, -⟩ := inv.setEnds unheld hr
  have done : rv = rvOk → m'.endOf x s = m₀.endOf x s := by
    intro ok
    obtain ⟨x', hx', there⟩ := step.there inv ok
    obtain rfl := Option.some.inj hx'
    exact there
  by_cases conn : ∀ type, m.typeOf x = some type → type.isConnector = true
  · apply done
    apply setEnds_ok hr okx conn calm
    · intro b hb
      obtain ⟨-, -, -, -, -, hlive, -⟩ := inv₀.endOf_some hb
      exact (c.access hlive).mpr (sound b hb).access
    · intro hs b type hb htype
      obtain ⟨-, -, -, -, -, hlive, -⟩ := inv₀.endOf_some hb
      rw [c.type b hlive] at htype
      exact ((sound b hb).plain hs type htype).1
  · -- What is no connector now was none before, and has no end.
    have old : m₀.endOf x s = none := by
      cases hb : m₀.endOf x s with
      | none => rfl
      | some b =>
        obtain ⟨-, -, -, -, -, -, hlive⟩ := inv₀.endOf_some hb
        refine absurd (fun type htype => ?_) conn
        exact inv₀.connector_of_end hb ((c.type x hlive).symm.trans htype)
    have now : m.endOf x s = none := by
      cases hb : m.endOf x s with
      | none => rfl
      | some b => exact absurd (fun type htype => inv.connector_of_end hb htype) conn
    by_cases ok : rv = rvOk
    · exact done ok
    · rw [step.failed ok, now, old]

theorem Inv.undo (tells : Tells ss s m₀ m (log ++ [(arc, old)]))
    (calm : ∀ x, arc = some x → setPre w s m x old ≠ some true)
    (hr : ss.setEnds w s m arc old = some (m', rv)) :
    Inv h m' ∧ Carries ss m₀ m' gened ∧ Tells ss s m₀ m' log ∧ Moves s arc old m m' := by
  obtain ⟨inv', step, -⟩ := inv.setEnds unheld hr
  have mv := step.moves inv
  obtain ⟨x, rfl, okx⟩ := tells.arcs arc old (mem_append_single.mpr (.inr rfl))
  have frame : ∀ y, y ≠ x → m'.endOf y s = m.endOf y s := fun y hy =>
    mv.endOf y s fun same => hy (Option.some.inj same.1).symm
  have entry : (some x, old) ∈ log ++ [(some x, old)] := mem_append_single.mpr (.inr rfl)
  -- Either way the end is the one that is put back or stays what it is.
  have ends : m'.endOf x s = old ∨ m'.endOf x s = m.endOf x s := by
    by_cases ok : rv = rvOk
    · obtain ⟨x', hx', there⟩ := step.there inv ok
      obtain rfl := Option.some.inj hx'
      exact .inl there
    · exact .inr (by rw [step.failed ok])
  have first : (∀ v, (some x, v) ∉ log) → m'.endOf x s = old := by
    intro unlogged
    have hold : old = m₀.endOf x s := by
      rw [← tells.past x, UndoLog.before_append_unlogged _ unlogged, if_pos rfl]
    rcases tells.sound x with ⟨idle, logged⟩ | all
    · rcases ends with back | stays
      · exact back
      · rw [stays, idle, hold]
    · subst hold
      refine inv₀.undone inv unheld c okx (fun b hb => ?_) (calm x rfl) hr
      obtain ⟨-, -, -, -, -, hlive, -⟩ := inv₀.endOf_some hb
      exact all b (.inl hb) hlive
  refine ⟨inv', mv.keepsTypes c hr ?_, ⟨fun y => ?_, ?_, fun y => ?_⟩, mv⟩
  · intro hs b hb hne hlive t ht
    rcases tells.sound x with ⟨idle, logged⟩ | all
    · refine absurd ?_ hne
      rw [idle, ← logged old entry, hb]
    · rw [c.type b hlive] at ht
      exact ((all b (.inr (.inr (hb ▸ entry))) hlive).plain hs t ht).2
  · rw [← tells.past y]
    symm
    apply UndoLog.before_append
    · intro same unlogged
      obtain rfl := Option.some.inj same
      exact (first unlogged).symm
    · intro other
      exact (frame y fun same => other (congrArg some same.symm)).symm
  · intro arc' old' hmem
    obtain ⟨x', harc, ok⟩ := tells.arcs arc' old' (mem_append_single.mpr (.inl hmem))
    exact ⟨x', harc, mv.stays.access ok⟩
  · by_cases hy : y = x
    · subst hy
      rcases tells.sound y with ⟨idle, logged⟩ | all
      · refine .inl ⟨?_, fun o ho => logged o (mem_append_single.mpr (.inl ho))⟩
        rcases ends with back | stays
        · exact back.trans (logged old entry)
        · exact stays.trans idle
      · refine .inr fun b hb => all b ?_
        rcases hb with before | now | hmem
        · exact .inl before
        · rcases ends with back | stays
          · exact .inr (.inr (back.symm.trans now ▸ entry))
          · exact .inr (.inl (stays.symm.trans now))
        · exact .inr (.inr (mem_append_single.mpr (.inl hmem)))
    · exact (sound_append_other hy (frame y hy).symm).mp (tells.sound y)

theorem Inv.restore (tells : Tells ss s m₀ m log) (calm : RestoreCalm ss w s m log.reverse)
    (hr : Transaction.restore ss w s m log.reverse = some m') :
    Inv h m' ∧ Carries ss m₀ m' gened ∧ Stays m m' ∧ (∀ x, m'.endOf x s = m₀.endOf x s) ∧
      ∀ x u, u ≠ s → m'.endOf x u = m.endOf x u := by
  induction log using List.reverseRecOn generalizing m with
  | nil =>
    obtain rfl := Option.some.inj hr
    exact ⟨inv, c, Stays.refl _, tells.past, fun _ _ _ => rfl⟩
  | append_singleton log entry ih =>
    obtain ⟨arc, old⟩ := entry
    rw [List.reverse_append] at calm hr
    obtain ⟨calm₁, rest⟩ := calm
    obtain ⟨⟨m₁, rv⟩, hm₁, hr⟩ := Option.bind_eq_some_iff.mp hr
    obtain ⟨inv₁, c₁, tells₁, mv⟩ := inv₀.undo inv unheld c tells calm₁ hm₁
    obtain ⟨inv', c', stays, ends, frame⟩ := ih inv₁ c₁ tells₁ (rest m₁ rv hm₁) hr
    refine ⟨inv', c', mv.stays.trans stays, ends, fun x u hu => ?_⟩
    rw [frame x u hu]
    exact mv.endOf x u fun same => hu same.2

end

/-! ## The loop over the created elements -/

/-- All ends are as they were, and besides the elements of `m₀` only those in `l` are left. -/
structure Leaves (ss : Session) (m₀ m : Memory) (l : List Addr) : Prop where
  kept : ∀ a, m₀.liveAddr a = true → m.liveAddr a = true
  type : ∀ a, m₀.liveAddr a = true → m.typeOf a = m₀.typeOf a
  born : ∀ a, m.liveAddr a = true → m₀.liveAddr a = true ∨ a ∈ l
  fresh : ∀ a ∈ l, m₀.liveAddr a = false
  opened : ∀ a ∈ l, ∀ g, m.addrs a = some g → ss.opened g.seg = true
  ends : ∀ x s, m.endOf x s = m₀.endOf x s

theorem Erased.alone (er : Erased h a m m') (bare : ∀ x, ¬Incident m a x) (hb : b ≠ a)
    (hlive : m.liveAddr b = true) : m'.liveAddr b = true := by
  by_contra hdead
  have reach := er.cascade.killed b hlive (by simpa using hdead)
  rcases ReflTransGen.cases_head reach with rfl | ⟨x, i, -⟩
  · exact hb rfl
  · exact bare x i

theorem Erased.typeOf (er : Erased h a m m') (inv : Inv h m) (hlive : m'.liveAddr b = true) :
    m'.typeOf b = m.typeOf b := by
  obtain ⟨g', hg', -⟩ := liveAddr_eq_true.mp hlive
  obtain ⟨g, hg, -, hi, -⟩ := er.cascade.shrinks.addr hg'
  have own := inv.stores_addr hg List.mem_cons_self
  rw [typeOf_label hg', typeOf_label hg, hi, (er.cascade.keeps b hlive g.impl own).1]

theorem Erased.endOf (er : Erased h a m m') (inv : Inv h m) (bare : ∀ x, ¬Incident m a x)
    (hlive : m'.liveAddr x = true) : m'.endOf x s = m.endOf x s := by
  obtain ⟨g', hg', -⟩ := liveAddr_eq_true.mp hlive
  obtain ⟨g, hg, -, hi, -⟩ := er.cascade.shrinks.addr hg'
  have own := inv.stores_addr hg List.mem_cons_self
  rw [endOf_target hg', endOf_target hg, hi,
    ((er.cascade.keeps x hlive g.impl own).2 s).1]
  cases ht : m.graph.target g.impl s with
  | none => rfl
  | some e =>
    obtain ⟨o, b, ho, hob, hb⟩ := inv.target_addr ht
    have he : m.addrOf e = some b := (addrOf_stored ho).trans hob
    have hne : b ≠ a := by
      rintro rfl
      exact bare x ⟨e, g.impl, s, he, own, ht⟩
    have hb' := er.alone bare hne hb
    rw [Option.bind_some, Option.bind_some, he]
    exact (er.cascade.keeps b hb').addrOf he

theorem Leaves.erase (inv₀ : Inv h₀ m₀) {fuel : Nat} (lv : Leaves ss m₀ m (a :: l))
    (inv : Inv h m) (unheld : ∀ n, h.node n = 0)
    (calm : Session.eraseElPre w m fuel a ≠ some true)
    (hr : ss.eraseEl w fuel m (some a) = some (m', rv)) : Inv h m' ∧ Leaves ss m₀ m' l := by
  have tail : ∀ b ∈ l, b ∈ a :: l := fun b hb => List.mem_cons_of_mem _ hb
  have afresh := lv.fresh a List.mem_cons_self
  rcases inv.eraseEl unheld hr with ⟨rfl, failed⟩ | ⟨c, hc, -, -, er⟩
  · -- The element has died already.
    have adead : m'.liveAddr a = false := by
      cases hlive : m'.liveAddr a with
      | false => rfl
      | true =>
        obtain ⟨g, hg, hd⟩ := liveAddr_eq_true.mp hlive
        have ok := access_ok.mpr ⟨g, hg, hd, lv.opened a List.mem_cons_self g hg⟩
        rw [eraseEl_of_access ok] at hr
        obtain ⟨refused, pre, hr⟩ := Option.bind_eq_some_iff.mp hr
        cases refused with
        | true => exact absurd pre calm
        | false =>
          obtain ⟨m₁, -, hr⟩ := Option.bind_eq_some_iff.mp hr
          exact absurd (Prod.mk.inj (Option.some.inj hr)).2.symm failed
    refine ⟨inv, { lv with born := fun b hb => ?_, fresh := fun b hb => lv.fresh b (tail b hb),
                           opened := fun b hb => lv.opened b (tail b hb) }⟩
    refine (lv.born b hb).imp_right fun hmem => ?_
    rcases List.mem_cons.mp hmem with rfl | hmem
    · simp [adead] at hb
    · exact hmem
  · obtain rfl := Option.some.inj hc
    have bare : ∀ x, ¬Incident m a x := by
      intro x i
      obtain ⟨s, hs⟩ := inv.incident_iff.mp i
      rw [lv.ends] at hs
      obtain ⟨-, -, -, -, -, hlive, -⟩ := inv₀.endOf_some hs
      simp [afresh] at hlive
    have kept : ∀ b, m₀.liveAddr b = true → m'.liveAddr b = true := by
      intro b hb
      refine er.alone bare (fun same => ?_) (lv.kept b hb)
      simp [same, afresh] at hb
    refine ⟨er.inv, kept, fun b hb => ?_, fun b hb => ?_, fun b hb => lv.fresh b (tail b hb),
      fun b hb g' hg' => ?_, fun x s => ?_⟩
    · exact (er.typeOf inv (kept b hb)).trans (lv.type b hb)
    · refine (lv.born b (er.cascade.shrinks.liveAddr hb)).imp_right fun hmem => ?_
      rcases List.mem_cons.mp hmem with same | hmem
      · simp [same, er.dead] at hb
      · exact hmem
    · obtain ⟨g, hg, hs, -⟩ := er.cascade.shrinks.addr hg'
      rw [hs]
      exact lv.opened b (tail b hb) g hg
    · cases hlive : m'.liveAddr x with
      | true => exact (er.endOf inv bare hlive).trans (lv.ends x s)
      | false =>
        rw [er.inv.endOf_dead hlive]
        cases hx : m₀.liveAddr x with
        | false => exact (inv₀.endOf_dead hx).symm
        | true => simp [kept x hx] at hlive

theorem Leaves.eraseGened (inv₀ : Inv h₀ m₀) {fuel : Nat} (lv : Leaves ss m₀ m l) (inv : Inv h m)
    (unheld : ∀ n, h.node n = 0) (calm : EraseCalm ss w fuel m l)
    (hr : Transaction.eraseGened ss w fuel m l = some m') : Inv h m' ∧ Leaves ss m₀ m' [] := by
  induction l generalizing m with
  | nil =>
    obtain rfl := Option.some.inj hr
    exact ⟨inv, lv⟩
  | cons a l ih =>
    obtain ⟨calm₁, rest⟩ := calm
    obtain ⟨⟨m₁, rv⟩, hm₁, hr⟩ := Option.bind_eq_some_iff.mp hr
    obtain ⟨inv₁, lv₁⟩ := lv.erase inv₀ inv unheld calm₁ hm₁
    exact ih lv₁ inv₁ (rest m₁ rv hm₁) hr

theorem Leaves.restored (inv₀ : Inv h₀ m₀) (inv : Inv h m) (lv : Leaves ss m₀ m []) :
    Restored m₀ m where
  live a := by
    cases hlive : m₀.liveAddr a with
    | true => exact lv.kept a hlive
    | false =>
      cases hlive' : m.liveAddr a with
      | false => rfl
      | true =>
        rcases lv.born a hlive' with born | born
        · simp [hlive] at born
        · cases born
  type := lv.type
  ends a s _ := lv.ends a s
  arcs a s x _ := by rw [inv.hasArc_iff, inv₀.hasArc_iff, lv.ends]

variable {fuel : Nat} {st : TxState}

theorem TxInv.rollback (inv₀ : Inv h₀ m₀) (i : TxInv ss m₀ st) (calm : RollbackCalm ss w fuel st)
    (hr : Transaction.rollback ss w fuel st = some m') : Restored m₀ m' := by
  have unheld : ∀ n, (clientHolds st.refs).node n = 0 := fun _ => rfl
  rw [Transaction.rollback, if_pos i.armed] at hr
  obtain ⟨m₁, hm₁, hr⟩ := Option.bind_eq_some_iff.mp hr
  obtain ⟨m₂, hm₂, hr⟩ := Option.bind_eq_some_iff.mp hr
  obtain ⟨inv₁, c₁, stays₁, begs₁, other₁⟩ :=
    inv₀.restore i.inv unheld i.carries (i.tells .beg) calm.begs hm₁
  have tells₁ : Tells ss .fin m₀ m₁ (st.tx.orig .fin) :=
    (i.tells .fin).stays stays₁ fun y => other₁ y .fin (by decide)
  obtain ⟨inv₂, c₂, -, ends₂, other₂⟩ :=
    inv₀.restore inv₁ unheld c₁ tells₁ (calm.ends m₁ hm₁) hm₂
  have lv : Leaves ss m₀ m₂ st.tx.genedElems.reverse := {
    kept := fun a ha => c₂.persists.liveAddr ha
    type := c₂.type
    born := fun a ha => (c₂.born a ha).imp_right List.mem_reverse.mpr
    fresh := fun a ha => c₂.fresh a (List.mem_reverse.mp ha)
    opened := fun a ha => c₂.opened a (List.mem_reverse.mp ha)
    ends := fun x s => by
      cases s with
      | beg => exact (other₂ x .beg (by decide)).trans (begs₁ x)
      | fin => exact ends₂ x }
  obtain ⟨inv', lv'⟩ := lv.eraseGened inv₀ inv₂ unheld (calm.gened m₁ m₂ hm₁ hm₂) hr
  exact lv'.restored inv₀ inv'

theorem restoreCalm_noWaits (s : Endpoint) (l : List TransPair) :
    ∀ m, RestoreCalm ss noWaits s m l := by
  induction l with
  | nil => exact fun _ => trivial
  | cons entry l ih =>
    obtain ⟨arc, old⟩ := entry
    refine fun m => ⟨fun x _ pre => ?_, fun m' _ _ => ih m'⟩
    cases s
    all_goals
      simp only [setPre, Session.setBegPre, Session.setEndPre, noWaits, Option.bind_eq_bind,
        Option.bind_eq_some_iff] at pre
      obtain ⟨g, -, el, -, pre⟩ := pre
      cases old
      all_goals
        obtain ⟨a, -, pre⟩ := Option.bind_eq_some_iff.mp pre
        cases a <;> cases pre

theorem eraseCalm_noWaits (l : List Addr) : ∀ m, EraseCalm ss noWaits fuel m l := by
  induction l with
  | nil => exact fun _ => trivial
  | cons a l ih => exact fun m => ⟨eraseElPre_calm fun _ => rfl, fun m' _ _ => ih m'⟩

theorem rollbackCalm_noWaits (ss : Session) (fuel : Nat) (st : TxState) :
    RollbackCalm ss noWaits fuel st where
  begs := restoreCalm_noWaits .beg _ _
  ends m _ := restoreCalm_noWaits .fin _ m
  gened _ m' _ _ := eraseCalm_noWaits _ m'

def arcOps : List Op := [.createEl 0 .node, .createEl 0 .arc, .setBeg (some 1) (some 0)]

end ScCore.Store
