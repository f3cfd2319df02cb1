import ScCore.Store.Run

/-!
# Ends and types by address

What the session calls do to the ends and the types of elements, told in terms
of addresses alone, so that one need not look at links and segments.
-/

namespace ScCore.Store

open Memory TmpSegment Relation

def Memory.typeOf (m : Memory) (a : Addr) : Option ScType :=
  (m.addrs a).bind fun g => (m.elems g.impl).map (·.type)

/-- The arc `x` is on a list `s` of an element of the address `a`. -/
def Memory.HasArc (m : Memory) (s : Endpoint) (a x : Addr) : Prop :=
  ∃ e arc, m.addrOf e = some a ∧ m.addrOf arc = some x ∧ arc ∈ m.graph.arcs e s

variable {h : Holds} {m m' m'' : Memory} {a b x y : Addr} {g : GlobalAddr} {s u : Endpoint}

theorem typeOf_label (hg : m.addrs a = some g) :
    m.typeOf a = (m.label g.impl).map (·.type) := by
  simp only [Memory.typeOf, hg, Option.bind_some, Memory.label, Option.map_map]
  rfl

theorem endOf_target (hg : m.addrs x = some g) :
    m.endOf x s = (m.graph.target g.impl s).bind m.addrOf := by
  rw [Memory.endOf, hg, Option.bind_some]

theorem Inv.own_of_target (inv : Inv h m) {arc e : ElemId} (ht : m.graph.target arc s = some e)
    (harc : m.addrOf arc = some x) : ∃ g, m.addrs x = some g ∧ g.impl = arc := by
  obtain ⟨g, hg, st, hst, rfl⟩ := inv.addr_stores harc
  rcases List.mem_cons.mp hst with rfl | hlink
  · exact ⟨g, hg, rfl⟩
  · rw [inv.own hg hlink] at ht
    cases ht

theorem Inv.endOf_some (inv : Inv h m) (hb : m.endOf x s = some b) :
    ∃ g e, m.addrs x = some g ∧ m.graph.target g.impl s = some e ∧ m.addrOf e = some b ∧
      m.liveAddr b = true ∧ m.liveAddr x = true := by
  obtain ⟨g, hg, hb⟩ := Option.bind_eq_some_iff.mp hb
  obtain ⟨e, ht, he⟩ := Option.bind_eq_some_iff.mp hb
  refine ⟨g, e, hg, ht, he, ?_, ?_⟩
  · obtain ⟨o, b', ho, hob, hlive⟩ := inv.target_addr ht
    obtain rfl : b' = b := Option.some.inj (((addrOf_stored ho).trans hob).symm.trans he)
    exact hlive
  · cases hlive : m.liveAddr x with
    | true => rfl
    | false =>
      obtain ⟨-, hnone⟩ := inv.dead_free s (inv.stores_addr hg List.mem_cons_self) hlive
      rw [hnone] at ht
      cases ht

theorem Inv.endOf_dead (inv : Inv h m) (hx : m.liveAddr x = false) : m.endOf x s = none := by
  cases hb : m.endOf x s with
  | none => rfl
  | some b =>
    obtain ⟨-, -, -, -, -, -, hlive⟩ := inv.endOf_some hb
    simp [hx] at hlive

theorem Inv.hasArc_iff (inv : Inv h m) : m.HasArc s a x ↔ m.endOf x s = some a := by
  constructor
  · rintro ⟨e, arc, he, harc, hmem⟩
    have ht := inv.coherent.mem_arcs_iff.mp hmem
    obtain ⟨g, hg, rfl⟩ := inv.own_of_target ht harc
    rw [endOf_target hg, ht, Option.bind_some, he]
  · intro hend
    obtain ⟨g, e, hg, ht, he, -⟩ := inv.endOf_some hend
    refine ⟨e, g.impl, he, inv.stores_addr hg List.mem_cons_self, ?_⟩
    exact inv.coherent.mem_arcs_iff.mpr ht

theorem Inv.incident_iff (inv : Inv h m) : Incident m a x ↔ ∃ s, m.endOf x s = some a := by
  constructor
  · rintro ⟨e, arc, s, he, harc, ht⟩
    refine ⟨s, inv.hasArc_iff.mp ⟨e, arc, he, harc, ?_⟩⟩
    exact inv.coherent.mem_arcs_iff.mpr ht
  · rintro ⟨s, hend⟩
    obtain ⟨g, e, hg, ht, he, -⟩ := inv.endOf_some hend
    exact ⟨e, g.impl, s, he, inv.stores_addr hg List.mem_cons_self, ht⟩

structure Stays (m m' : Memory) : Prop where
  persists : Persists m m'
  back : ∀ {b g'}, m'.addrs b = some g' → ∃ g, m.addrs b = some g

namespace Stays

theorem refl (m : Memory) : Stays m m := ⟨Persists.refl m, fun hb => ⟨_, hb⟩⟩

theorem trans (st : Stays m m') (st' : Stays m' m'') : Stays m m'' where
  persists := st.persists.trans st'.persists
  back hb := by
    obtain ⟨g', hg'⟩ := st'.back hb
    exact st.back hg'

theorem missing (st : Stays m m') (hy : m.addrs y = none) : m'.addrs y = none := by
  cases hy' : m'.addrs y with
  | none => rfl
  | some g' =>
    obtain ⟨g, hg⟩ := st.back hy'
    rw [hy] at hg
    cases hg

theorem liveAddr (st : Stays m m') (y : Addr) : m'.liveAddr y = m.liveAddr y := by
  cases hy : m.addrs y with
  | none => rw [Memory.liveAddr, Memory.liveAddr, hy, st.missing hy]
  | some g =>
    obtain ⟨g', hg', -, -, hd⟩ := st.persists.addrs hy
    simp only [Memory.liveAddr, hy, hg', hd]

theorem endOf (st : Stays m m') (inv : Inv h m)
    (same : ∀ g, m.addrs y = some g → m'.graph.target g.impl s = m.graph.target g.impl s) :
    m'.endOf y s = m.endOf y s := by
  cases hy : m.addrs y with
  | none => simp only [Memory.endOf, hy, st.missing hy, Option.bind_none]
  | some g =>
    obtain ⟨g', hg', -, hi, -⟩ := st.persists.addrs hy
    rw [endOf_target hg', endOf_target hy, hi, same g hy]
    cases ht : m.graph.target g.impl s with
    | none => rfl
    | some e =>
      obtain ⟨o, b, ho, hob, -⟩ := inv.target_addr ht
      have he : m.addrOf e = some b := (addrOf_stored ho).trans hob
      rw [Option.bind_some, Option.bind_some, he, st.persists.addrOf he]

theorem typeOf (st : Stays m m')
    (same : ∀ g, m.addrs y = some g →
      (m'.label g.impl).map (·.type) = (m.label g.impl).map (·.type)) :
    m'.typeOf y = m.typeOf y := by
  cases hy : m.addrs y with
  | none => simp only [Memory.typeOf, hy, st.missing hy, Option.bind_none]
  | some g =>
    obtain ⟨g', hg', -, hi, -⟩ := st.persists.addrs hy
    rw [typeOf_label hg', typeOf_label hy, hi, same g hy]

end Stays

variable {P : ElemId → Prop} {seg : SegId}

theorem Relabels.stays (r : Relabels P m m') : Stays m m' :=
  ⟨r.persists, fun hb => ⟨_, r.addrs ▸ hb⟩⟩

theorem Relabels.endOf (r : Relabels P m m') (inv : Inv h m) : m'.endOf y s = m.endOf y s :=
  r.stays.endOf inv fun _ _ => by rw [r.graph]

theorem stays_mapAddr {f : GlobalAddr → GlobalAddr}
    (hf : ∀ g, (f g).seg = g.seg ∧ (f g).impl = g.impl ∧ (f g).dead = g.dead) :
    Stays m (m.mapAddr a f) where
  persists := {
    addrs := fun {b g} hb => by
      rw [mapAddr_addrs, hb]
      split
      · exact ⟨f g, rfl, hf g⟩
      · exact ⟨g, rfl, rfl, rfl, rfl⟩
    addrOf := id }
  back := by
    intro b g' hb
    rw [mapAddr_addrs] at hb
    split at hb
    · obtain ⟨g, hg, -⟩ := Option.map_eq_some_iff.mp hb
      exact ⟨g, hg⟩
    · exact ⟨g', hb⟩

theorem Forgets.stays (f : Forgets x m m') (inv : Inv h m) (inv' : Inv h m') : Stays m m' where
  persists := f.persists inv inv'
  back hb := by
    obtain ⟨g, hg, -⟩ := f.shrinks.addr hb
    exact ⟨g, hg⟩

theorem ensureLinkTo_back {ll : ElemId} (hr : Session.ensureLinkTo m seg a = some (m', ll))
    {g' : GlobalAddr} (hb : m'.addrs b = some g') : ∃ g, m.addrs b = some g := by
  simp only [Session.ensureLinkTo, Option.bind_eq_bind, Option.bind_eq_some_iff] at hr
  obtain ⟨ga, hga, hr⟩ := hr
  split at hr
  · obtain ⟨rfl, -⟩ := Prod.mk.inj (Option.some.inj hr)
    exact ⟨g', hb⟩
  · split at hr
    · obtain ⟨rfl, -⟩ := Prod.mk.inj (Option.some.inj hr)
      exact ⟨g', hb⟩
    · obtain ⟨⟨m₁, str⟩, hm₁, hr⟩ := Option.bind_eq_some_iff.mp hr
      have r := (renames_getIdtf hm₁).relabels
      obtain ⟨rfl, -⟩ := Prod.mk.inj (newLink_eq (r.addrs ▸ hga) hr)
      obtain ⟨g, hg, -⟩ := linked_addrs hb
      exact ⟨g, r.addrs ▸ hg⟩

theorem Lands.stays {arc : ElemId} (lands : Lands s arc a seg m m') :
    Stays m m' where
  persists := lands.persists
  back := by
    intro b g' hb
    obtain ⟨m₁, ll, m₂, hm₁, relinks, rfl⟩ := lands.via
    obtain ⟨g₂, hg₂, -⟩ := addQnt_addr hb
    rw [relinks.addrs] at hg₂
    exact ensureLinkTo_back hm₁ hg₂

/-- The call that sets the end `s` of an arc touches nothing else that addresses show,
except that an undefined begin becomes a node. -/
structure Moves (s : Endpoint) (arc target : Option Addr) (m m' : Memory) : Prop where
  stays : Stays m m'
  endOf : ∀ y u, ¬(arc = some y ∧ u = s) → m'.endOf y u = m.endOf y u
  typeOf : ∀ y, (s = .beg → target = some y → ∀ t, m.typeOf y = some t → t &&& .undf = 0) →
    m'.typeOf y = m.typeOf y

variable {ss : Session} {w : Waits} {arc target : Option Addr} {rv : Retval}

theorem Moves.refl (s : Endpoint) (arc target : Option Addr) (m : Memory) :
    Moves s arc target m m :=
  ⟨Stays.refl m, fun _ _ _ => rfl, fun _ _ => rfl⟩

theorem Readies.typeOf {t : Addr} {m₀ : Memory} (readies : Readies ss w t m m₀) (inv : Inv h m)
    (plain : t = y → ∀ type, m.typeOf y = some type → type &&& .undf = 0) :
    m₀.typeOf y = m.typeOf y := by
  obtain ⟨gt, et, hgt, het, -, ⟨-, rfl⟩ | ⟨hundf, rv, hchange⟩⟩ := readies
  · rfl
  · rcases changeType_some hchange with rfl | ⟨g', t', ch⟩
    · rfl
    · obtain rfl := Option.some.inj (hgt.symm.trans ch.addr)
      have hne : t ≠ y := by
        rintro rfl
        have htype : m.typeOf t = some et.type := by
          rw [typeOf_label hgt, label_stored het]
          rfl
        exact hundf (plain rfl _ htype)
      have r : Relabels (· = gt.impl) m m₀ := by
        rw [ch.memory]
        exact Relabels.mapElem (P := (· = gt.impl)) rfl ⟨fun _ => rfl, fun _ => rfl, fun _ => rfl,
          fun _ => rfl, fun _ => rfl⟩
      apply r.stays.typeOf
      intro g hg
      have other : g.impl ≠ gt.impl := fun same =>
        hne (inv.addr_unique hgt hg (List.mem_cons_self : (⟨gt.seg, gt.impl⟩ : LinkAddr) ∈
          gt.stores)
          (List.mem_cons_self : (⟨g.seg, g.impl⟩ : LinkAddr) ∈ g.stores) same.symm)
      rw [r.label g.impl other]

theorem SetStep.moves (step : SetStep h ss w s arc target m m' rv) (inv : Inv h m) :
    Moves s arc target m m' := by
  cases step with
  | kept same => exact same ▸ Moves.refl s arc target m
  | @cleared x g hx none hg u =>
    have stays := u.forgets.stays inv u.inv
    refine ⟨stays, fun y t other => ?_, fun y _ => ?_⟩
    · apply stays.endOf inv
      intro g' hg'
      rw [u.target, if_neg]
      rintro ⟨same, rfl⟩
      refine other ⟨?_, rfl⟩
      rw [hx, inv.addr_unique hg hg' (List.mem_cons_self : (⟨g.seg, g.impl⟩ : LinkAddr) ∈ g.stores)
        (List.mem_cons_self : (⟨g'.seg, g'.impl⟩ : LinkAddr) ∈ g'.stores) same.symm]
    · apply stays.typeOf
      intro g' _
      rw [u.forgets.label]
  | @attached x t g el m₀ hx ht ready access inv₀ relabels begs ends lands =>
    have stays := relabels.stays.trans lands.stays
    refine ⟨stays, fun y u other => ?_, fun y plain => ?_⟩
    · rw [lands.stays.endOf inv₀, relabels.endOf inv]
      intro g' hg'
      apply lands.frame
      rintro ⟨same, rfl⟩
      rw [relabels.addrs] at hg'
      refine other ⟨?_, rfl⟩
      rw [hx, inv.addr_unique ready.addr hg'
        (List.mem_cons_self : (⟨g.seg, g.impl⟩ : LinkAddr) ∈ g.stores)
        (List.mem_cons_self : (⟨g'.seg, g'.impl⟩ : LinkAddr) ∈ g'.stores) same.symm]
    · rw [lands.stays.typeOf]
      · cases s with
        | fin => rw [ends rfl]
        | beg =>
          apply (begs rfl).typeOf inv
          rintro rfl
          exact plain rfl ht
      · intro g' hg'
        obtain ⟨el', hel', -⟩ := inv₀.own_stored hg'
        obtain ⟨l', hl', htype⟩ := lands.type (label_stored hel')
        rw [hl', label_stored hel', Option.map_some, Option.map_some, htype]

theorem SetStep.there (step : SetStep h ss w s arc target m m' rv) (inv : Inv h m)
    (ok : rv = rvOk) : ∃ x, arc = some x ∧ m'.endOf x s = target := by
  cases step with
  | kept same there => exact same ▸ there ok
  | @cleared x g hx none hg u =>
    obtain ⟨g', hg', -, hi, -⟩ := (u.forgets.persists inv u.inv).addrs hg
    refine ⟨x, hx, ?_⟩
    rw [endOf_target hg', hi, u.target, if_pos ⟨rfl, rfl⟩, none]
    rfl
  | @attached x t g el m₀ hx ht ready access inv₀ relabels begs ends lands =>
    have hg₀ : m₀.addrs x = some g := relabels.addrs ▸ ready.addr
    obtain ⟨g', hg', -, hi, -⟩ := lands.persists.addrs hg₀
    obtain ⟨ll, hll, haddr⟩ := lands.target
    refine ⟨x, hx, ?_⟩
    rw [endOf_target hg', hi, hll, ht]
    exact haddr

theorem SetStep.failed (step : SetStep h ss w s arc target m m' rv) (failed : rv ≠ rvOk) :
    m' = m := by
  cases step with
  | kept same => exact same
  | cleared => exact absurd rfl failed
  | attached => exact absurd rfl failed

end ScCore.Store
