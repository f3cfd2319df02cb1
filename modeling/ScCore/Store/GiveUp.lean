import ScCore.Store.Rollback
import ScCore.Store.Veto

/-!
# Giving up `gen3_f_a_f`

When the end of the created arc is refused, `gen3_f_a_f` erases the arc. What `set_beg` has
done to the begin element, the node that it has become and the link that it has got, stays.
-/

namespace ScCore.Store

open Memory TmpSegment Relation

variable {h : Holds} {m m' m₁ m₂ : Memory} {a b : Addr} {g : GlobalAddr}
  {ss : Session} {w : Waits} {rv : Retval}

structure Undone (m m' : Memory) : Prop where
  restored : Restored m m'
  links : ∀ a g', m'.addrs a = some g' → ∀ l ∈ g'.links, ∃ g, m.addrs a = some g ∧ l ∈ g.links

/-- `set_beg` leaves no trace on `b`: it does not become a node and it has, or is, an element
in the segment. `m₁` is the memory with the new arc. -/
structure Traceless (ss : Session) (w : Waits) (m₁ : Memory) (seg : SegId) (b : Addr) : Prop where
  type : ∀ t, m₁.typeOf b = some t → t &&& .undf ≠ 0 →
    ¬typeChanges ss w m₁ b ((t &&& ~~~.syntacticMask) ||| .node)
  linked : ∃ g, m₁.addrs b = some g ∧ (g.seg = seg ∨ (g.findLink seg).isSome)

/-- Nothing is left of a failed `gen3_f_a_f` that has created its arc: the death of the arc
is not refused, and if its begin is accepted, that leaves no trace. -/
def givesUpCleanly (ss : Session) (w : Waits) (m : Memory) (e1 : Option Addr) (s2 : SegId)
    (t2 : ScType) (e3 : Option Addr) : Prop :=
  ss.access m e1 = some rvOk → ss.access m e3 = some rvOk →
    ∀ m₁ arc, ss.createEl m s2 t2 = some (m₁, some arc, rvOk) →
      (∀ m₂ rv, ss.setBeg w m₁ (some arc) e1 = some (m₂, rv) → ¬DeniesDeath w m₂ arc) ∧
      ∀ m₂, ss.setBeg w m₁ (some arc) e1 = some (m₂, rvOk) →
        ∀ b, e1 = some b → Traceless ss w m₁ s2 b

/-! ## Types and links -/

theorem changeType_typeOf {type : ScType} (hr : ss.changeType w m a type = some (m', rv)) :
    m'.typeOf a = m.typeOf a ↔ ¬typeChanges ss w m a type := by
  rcases changeType_some hr with rfl | ⟨g, t, ch⟩
  · refine ⟨fun _ changes => ?_, fun _ => rfl⟩
    obtain ⟨t, ht, access, ne, allowed, unrefused⟩ := changes
    simp only [Session.changeType, access, ht, Option.bind_eq_bind, Option.bind_some, ne_eq,
      not_true_eq_false, if_false] at hr
    obtain ⟨g, hg, hr⟩ := Option.bind_eq_some_iff.mp hr
    obtain ⟨el, hel, hr⟩ := Option.bind_eq_some_iff.mp hr
    have type : m'.typeOf a = some el.type := by
      rw [Memory.typeOf, hg, Option.bind_some, hel, Option.map_some]
    have other : el.type ≠ t := by
      rintro rfl
      exact ne type
    rw [if_neg other] at hr
    simp only [allowed, unrefused, Option.bind_some, TmpSegment.changeType, modifyElem_eq hel,
      Bool.not_true, Bool.false_eq_true, if_false] at hr
    obtain ⟨same, -⟩ := Prod.mk.inj (Option.some.inj hr)
    have now : m'.elems g.impl = some { el with type := t } := by
      rw [← same, elems_mapElem _ hel, if_pos rfl]
    rw [hel] at now
    exact other (congrArg (fun e : Element => e.type) (Option.some.inj now))
  · obtain ⟨el, hel⟩ : ∃ el, m.elems g.impl = some el := by
      have allowed := ch.allowed
      simp only [Session.verifyTypeChanging, ch.addr, Option.bind_eq_bind,
        Option.bind_some] at allowed
      obtain ⟨el, hel, -⟩ := Option.bind_eq_some_iff.mp allowed
      exact ⟨el, hel⟩
    have old : m.typeOf a = some el.type := by
      rw [Memory.typeOf, ch.addr, Option.bind_some, hel, Option.map_some]
    have now : m'.typeOf a = some t := by
      rw [Memory.typeOf, ch.memory]
      simp [ch.addr, hel]
    rw [now, old]
    constructor
    · rintro same ⟨t', ht', -, ne, -⟩
      rw [ch.verify] at ht'
      cases ht'
      exact ne (old.trans same.symm)
    · intro idle
      by_contra ne
      exact idle ⟨t, ch.verify, ch.access, fun same => ne (same ▸ old.symm ▸ rfl), ch.allowed,
        ch.unrefused⟩

theorem Inv.ensureLinkTo_links (inv : Inv h m) {seg : SegId} {ll : ElemId}
    (ha : m.addrs a = some g) (hr : Session.ensureLinkTo m seg a = some (m', ll)) :
    (∀ b g', m'.addrs b = some g' → (b ≠ a ∨ g.seg = seg ∨ (g.findLink seg).isSome) →
      ∃ g₀, m.addrs b = some g₀ ∧ g'.links = g₀.links) ∧
    (¬(g.seg = seg ∨ (g.findLink seg).isSome) → ∀ g', m'.addrs a = some g' →
      ∃ l ∈ g'.links, m.addrOf l.impl = none) := by
  simp only [Session.ensureLinkTo, ha, Option.bind_eq_bind, Option.bind_some] at hr
  have same (hm : m' = m) (has : g.seg = seg ∨ (g.findLink seg).isSome) :
      (∀ b g', m'.addrs b = some g' → (b ≠ a ∨ g.seg = seg ∨ (g.findLink seg).isSome) →
        ∃ g₀, m.addrs b = some g₀ ∧ g'.links = g₀.links) ∧
      (¬(g.seg = seg ∨ (g.findLink seg).isSome) → ∀ g', m'.addrs a = some g' →
        ∃ l ∈ g'.links, m.addrOf l.impl = none) :=
    ⟨fun b g' hb _ => ⟨g', hm ▸ hb, rfl⟩, fun no => absurd has no⟩
  split at hr
  · next hseg => exact same (Prod.mk.inj (Option.some.inj hr)).1.symm (.inl hseg)
  · next hseg =>
    split at hr
    · next link hlink =>
      apply same (Prod.mk.inj (Option.some.inj hr)).1.symm
      rw [hlink]
      exact .inr rfl
    · next hlink =>
      obtain ⟨⟨m₁, str⟩, hm₁, hr⟩ := Option.bind_eq_some_iff.mp hr
      have r₁ := (renames_getIdtf hm₁).relabels
      obtain ⟨rfl, -⟩ := Prod.mk.inj (newLink_eq (r₁.addrs ▸ ha) hr)
      have needs : ¬(g.seg = seg ∨ (g.findLink seg).isSome) := by
        rw [hlink]
        simp [hseg]
      constructor
      · intro b g' hb has
        have ne : b ≠ a := has.resolve_right needs
        obtain ⟨g₀, hg₀, -, -, -, -, -, -, perm⟩ := linked_addrs hb
        refine ⟨g₀, r₁.addrs ▸ hg₀, ?_⟩
        have old : (ScCore.Store.linked m₁ a seg ((m₁.segs g.seg).uri ++ [47] ++ str)).addrs b =
          m₁.addrs b :=
          if_neg ne
        rw [old, hg₀] at hb
        cases hb
        rfl
      · intro _ g' ha'
        obtain ⟨g₀, hg₀, -, -, -, -, -, -, perm⟩ := linked_addrs ha'
        rw [if_pos rfl] at perm
        refine ⟨⟨seg, m₁.nextElem⟩, perm.mem_iff.mpr List.mem_cons_self, ?_⟩
        rw [r₁.nextElem]
        rw [Memory.addrOf, label_missing inv.unused]
        rfl

theorem Lands.links {s : Endpoint} {arc : ElemId} {seg : SegId} (lands : Lands s arc a seg m m')
    (inv : Inv h m) (ha : m.addrs a = some g) :
    (∀ b g', m'.addrs b = some g' → (b ≠ a ∨ g.seg = seg ∨ (g.findLink seg).isSome) →
      ∃ g₀, m.addrs b = some g₀ ∧ g'.links = g₀.links) ∧
    (¬(g.seg = seg ∨ (g.findLink seg).isSome) → ∀ g', m'.addrs a = some g' →
      ∃ l ∈ g'.links, m.addrOf l.impl = none) := by
  obtain ⟨m₁, ll, m₂, hm₁, relinks, rfl⟩ := lands.via
  obtain ⟨same, new⟩ := inv.ensureLinkTo_links ha hm₁
  constructor
  · intro b g' hb has
    obtain ⟨g₂, hg₂, -, -, hl, -⟩ := addQnt_addr hb
    obtain ⟨g₀, hg₀, hl₀⟩ := same b g₂ (relinks.addrs ▸ hg₂) has
    exact ⟨g₀, hg₀, hl.trans hl₀⟩
  · intro needs g' ha'
    obtain ⟨g₂, hg₂, -, -, hl, -⟩ := addQnt_addr ha'
    rw [hl]
    exact new needs g₂ (relinks.addrs ▸ hg₂)

/-- What `set_beg` does to the begin of an arc that has had none. -/
structure Begins (ss : Session) (w : Waits) (m₁ m₂ : Memory) (seg : SegId) (b : Addr) :
    Prop where
  type : m₂.typeOf b = m₁.typeOf b ↔ ∀ t, m₁.typeOf b = some t → t &&& .undf ≠ 0 →
    ¬typeChanges ss w m₁ b ((t &&& ~~~.syntacticMask) ||| .node)
  links : ∀ g, m₁.addrs b = some g →
    (∀ c g', m₂.addrs c = some g' → (c ≠ b ∨ g.seg = seg ∨ (g.findLink seg).isSome) →
      ∃ g₀, m₁.addrs c = some g₀ ∧ g'.links = g₀.links) ∧
    (¬(g.seg = seg ∨ (g.findLink seg).isSome) → ∀ g', m₂.addrs b = some g' →
      ∃ l ∈ g'.links, m₁.addrOf l.impl = none)

theorem Inv.begins (inv : Inv h m₁) (unheld : ∀ n, h.node n = 0) {x : Addr} {gx : GlobalAddr}
    (hx : m₁.addrs x = some gx) (free : m₁.endOf x .beg = none)
    (hr : ss.setBeg w m₁ (some x) (some b) = some (m₂, rvOk)) :
    Begins ss w m₁ m₂ gx.seg b := by
  obtain ⟨-, -, step⟩ := inv.setBeg unheld hr
  cases step with
  | kept same there =>
    obtain ⟨x', hx', hend⟩ := there rfl
    obtain rfl := Option.some.inj hx'
    rw [free] at hend
    cases hend
  | cleared _ none => cases none
  | @attached x' b' gx' el m₀ hx' hb' ready access inv₀ relabels begs ends lands =>
    obtain rfl := Option.some.inj hx'
    obtain rfl := Option.some.inj hb'
    obtain rfl := Option.some.inj (hx.symm.trans ready.addr)
    obtain ⟨gt, et, hgt, het, -, readied⟩ := begs rfl
    have type : m₁.typeOf b = some et.type := by
      rw [Memory.typeOf, hgt, Option.bind_some, het, Option.map_some]
    have landed : m₂.typeOf b = m₀.typeOf b := by
      apply lands.stays.typeOf
      intro g' hg'
      obtain ⟨el', hel', -⟩ := inv₀.own_stored hg'
      obtain ⟨l', hl', htype⟩ := lands.type (label_stored hel')
      rw [hl', label_stored hel', Option.map_some, Option.map_some, htype]
    constructor
    · rw [landed]
      rcases readied with ⟨plain, rfl⟩ | ⟨undf, rv, change⟩
      · refine iff_of_true rfl fun t ht undf => absurd plain ?_
        rw [type] at ht
        cases ht
        exact undf
      · rw [changeType_typeOf change]
        constructor
        · intro idle t ht _
          rw [type] at ht
          cases ht
          exact idle
        · intro idle
          exact idle et.type type undf
    · intro g hg
      have hg₀ : m₀.addrs b = some g := relabels.addrs ▸ hg
      obtain ⟨same, new⟩ := lands.links inv₀ hg₀
      constructor
      · intro c g' hc has
        obtain ⟨g₀, hg₀, hl⟩ := same c g' hc has
        exact ⟨g₀, relabels.addrs ▸ hg₀, hl⟩
      · intro needs g' hb
        obtain ⟨l, hl, none⟩ := new needs g' hb
        exact ⟨l, hl, (relabels.addrOf l.impl).symm.trans none⟩

/-! ## The failed call -/

/-- A failed `gen3_f_a_f` has done nothing, or has erased the arc it has created. -/
theorem Inv.gen3_failed (inv : Inv h m) (unheld : ∀ n, h.node n = 0) {fuel : Nat}
    {e1 e3 r : Option Addr} {s2 : SegId} {t2 : ScType}
    (hr : ss.gen3 w fuel m e1 s2 t2 e3 = some (m', r, rv)) (failed : rv ≠ rvOk) :
    (m' = m ∧ givesUpCleanly ss w m e1 s2 t2 e3) ∨
      ∃ t m₂ rv₂ rv₃, ss.access m e1 = some rvOk ∧ ss.access m e3 = some rvOk ∧
        ss.createEl m s2 t2 = some (ScCore.Store.created m s2 t, some m.nextAddr, rvOk) ∧
        ss.opened s2 = true ∧
        ss.setBeg w (ScCore.Store.created m s2 t) (some m.nextAddr) e1 = some (m₂, rv₂) ∧
        ss.eraseEl w fuel m₂ (some m.nextAddr) = some (m', rv₃) := by
  have given : ∀ {m₁ m₂ arc rv₂ rv₃}, ss.access m e1 = some rvOk → ss.access m e3 = some rvOk →
      ss.createEl m s2 t2 = some (m₁, some arc, rvOk) →
      ss.setBeg w m₁ (some arc) e1 = some (m₂, rv₂) →
      ss.eraseEl w fuel m₂ (some arc) = some (m', rv₃) →
      ∃ t m₂ rv₂ rv₃, ss.access m e1 = some rvOk ∧ ss.access m e3 = some rvOk ∧
        ss.createEl m s2 t2 = some (ScCore.Store.created m s2 t, some m.nextAddr, rvOk) ∧
        ss.opened s2 = true ∧
        ss.setBeg w (ScCore.Store.created m s2 t) (some m.nextAddr) e1 = some (m₂, rv₂) ∧
        ss.eraseEl w fuel m₂ (some m.nextAddr) = some (m', rv₃) := by
    intro m₁ m₂ arc rv₂ rv₃ access₁ access₃ create beg erase
    rcases createEl_some create with ⟨-, none, -⟩ | ⟨t, rfl, harc, -, opened⟩
    · cases none
    · obtain rfl := Option.some.inj harc
      exact ⟨t, m₂, rv₂, rv₃, access₁, access₃, create, opened, beg, erase⟩
  cases gen3_some hr with
  | refused _ why =>
    refine .inl ⟨rfl, fun ok₁ ok₃ m₁ arc create => ?_⟩
    rcases why with denied | denied | none
    · exact absurd ok₁ denied
    · exact absurd ok₃ denied
    · cases none.symm.trans create
  | unbegun access₁ access₃ create beg _ erase =>
    exact .inr (given access₁ access₃ create beg erase)
  | unended access₁ access₃ create beg fin failed' erase =>
    obtain ⟨inv₂, -⟩ := inv.begun unheld create beg
    obtain ⟨-, -, step⟩ := inv₂.setEnd unheld fin
    rw [step.failed failed'] at erase
    exact .inr (given access₁ access₃ create beg erase)
  | made => exact absurd rfl failed

theorem Inv.eraseEl_bare (inv : Inv h m) (unheld : ∀ n, h.node n = 0) {fuel : Nat}
    (bare : ∀ x, ¬Incident m a x) (ok : ss.access m (some a) = some rvOk)
    (hr : ss.eraseEl w fuel m (some a) = some (m', rv)) :
    (DeniesDeath w m a ∧ m' = m) ∨ (¬DeniesDeath w m a ∧ Erased h a m m') := by
  obtain ⟨g, hg, -⟩ := access_ok.mp ok
  have walk : ∀ refused, Session.eraseElPre w m fuel a = some refused →
      (refused = true ↔ DeniesDeath w m a) := by
    intro refused pre
    cases fuel with
    | zero => cases pre
    | succ k =>
      obtain ⟨arcs, harcs, hmem⟩ := inv.incidentArcs_iff unheld hg
      have none : arcs = [] := List.eq_nil_iff_forall_not_mem.mpr fun x hx =>
        bare x ((hmem x).mp hx)
      rw [inv.eraseElPre_succ hg harcs, none] at pre
      by_cases denied : w m a .diePreReal [a] = true
      · rw [if_pos denied] at pre
        cases pre
        exact iff_of_true rfl denied
      · rw [if_neg denied] at pre
        cases pre
        exact iff_of_false Bool.false_ne_true denied
  rw [eraseEl_of_access ok] at hr
  obtain ⟨refused, pre, done⟩ := Option.bind_eq_some_iff.mp hr
  cases refused with
  | true =>
    obtain ⟨rfl, -⟩ := Prod.mk.inj (Option.some.inj done)
    exact .inl ⟨(walk true pre).mp rfl, rfl⟩
  | false =>
    obtain ⟨m₁, core, done⟩ := Option.bind_eq_some_iff.mp done
    obtain ⟨rfl, -⟩ := Prod.mk.inj (Option.some.inj done)
    rw [← eraseEl_of_access ok] at hr
    rcases inv.eraseEl unheld hr with ⟨-, failed⟩ | ⟨b, hb, -, -, erased⟩
    · rw [eraseEl_of_access ok, pre, Option.bind_some] at hr
      simp only [Bool.false_eq_true, if_false, core, Option.bind_some] at hr
      exact absurd (Prod.mk.inj (Option.some.inj hr)).2.symm failed
    · cases hb
      exact .inr ⟨fun denied => Bool.false_ne_true ((walk false pre).mpr denied), erased⟩

section Created

variable {t : ScType} {seg : SegId} {rv₂ rv₃ : Retval} {fuel : Nat}

structure GivenUp (h : Holds) (ss : Session) (m m₂ : Memory) (b : Addr) : Prop where
  inv : Inv h m₂
  access : ss.access m₂ (some m.nextAddr) = some rvOk
  bare : ∀ y, ¬Incident m₂ m.nextAddr y
  live : ∀ y, y ≠ m.nextAddr → m₂.liveAddr y = m.liveAddr y
  endOf : ∀ y s, y ≠ m.nextAddr → m₂.endOf y s = m.endOf y s
  typeOf : ∀ y, y ≠ b → m.liveAddr y = true → m₂.typeOf y = m.typeOf y
  links : ∀ c g', c ≠ b → m₂.addrs c = some g' →
    ∀ l ∈ g'.links, ∃ g, m.addrs c = some g ∧ l ∈ g.links

theorem Inv.givenUp (inv : Inv h m) (unheld : ∀ n, h.node n = 0) (live : m.liveAddr b = true)
    (opened : ss.opened seg = true)
    (hr : ss.setBeg w (ScCore.Store.created m seg t) (some m.nextAddr) (some b)
      = some (m₂, rv₂)) : GivenUp h ss m m₂ b := by
  have inv₁ := (inv.created seg t).1
  obtain ⟨sets, -, step⟩ := inv₁.setBeg unheld hr
  have moves := step.moves inv₁
  have unborn : m.liveAddr m.nextAddr = false := by
    rw [Memory.liveAddr, inv.unusedAddr]
  have endOf : ∀ y s, y ≠ m.nextAddr → m₂.endOf y s = m.endOf y s := by
    intro y s hy
    rw [moves.endOf y s fun same => hy (Option.some.inj same.1).symm, inv.created_endOf]
  have live₂ : ∀ y, y ≠ m.nextAddr → m₂.liveAddr y = m.liveAddr y := by
    intro y hy
    rw [moves.stays.liveAddr, Memory.liveAddr, created_addrs, if_neg hy, Memory.liveAddr]
  constructor
  · exact sets.inv
  · apply moves.stays.access
    exact access_ok.mpr ⟨_, created_addrs m seg t _ ▸ if_pos rfl, rfl, opened⟩
  · intro y incident
    obtain ⟨s, hs⟩ := sets.inv.incident_iff.mp incident
    by_cases hy : y = m.nextAddr
    · subst hy
      have begun : m₂.endOf m.nextAddr .beg = none ∨ m₂.endOf m.nextAddr .beg = some b := by
        by_cases ok : rv₂ = rvOk
        · obtain ⟨x, hx, hend⟩ := step.there inv₁ ok
          cases hx
          exact .inr hend
        · rw [step.failed ok, inv.created_endOf, inv.endOf_dead unborn]
          exact .inl rfl
      cases s with
      | beg =>
        rcases begun with none | some
        · rw [none] at hs
          cases hs
        · rw [some] at hs
          cases hs
          rw [unborn] at live
          cases live
      | fin =>
        rw [moves.endOf _ .fin (by simp), inv.created_endOf, inv.endOf_dead unborn] at hs
        cases hs
    · rw [endOf y s hy] at hs
      obtain ⟨-, -, -, -, -, alive, -⟩ := inv.endOf_some hs
      rw [unborn] at alive
      cases alive
  · exact live₂
  · exact endOf
  · intro y hy hlive
    rw [moves.typeOf y, inv.created_typeOf hlive]
    intro _ same
    exact absurd (Option.some.inj same).symm hy
  · intro c g' hc hg' l hl
    obtain ⟨gb, hgb, -⟩ := liveAddr_eq_true.mp live
    have hgb₁ : (ScCore.Store.created m seg t).addrs b = some gb := by
      rw [created_addrs, if_neg (inv.created_new hgb), hgb]
    have free : (ScCore.Store.created m seg t).endOf m.nextAddr .beg = none := by
      rw [inv.created_endOf, inv.endOf_dead unborn]
    obtain ⟨g₀, hg₀, hl₀⟩ : ∃ g₀, (ScCore.Store.created m seg t).addrs c = some g₀ ∧
        g'.links = g₀.links := by
      by_cases ok : rv₂ = rvOk
      · subst ok
        have begins := inv₁.begins unheld (if_pos rfl) free hr
        exact (begins.links gb hgb₁).1 c g' hg' (.inl hc)
      · exact ⟨g', step.failed ok ▸ hg', rfl⟩
    rw [hl₀] at hl
    rw [created_addrs] at hg₀
    by_cases new : c = m.nextAddr
    · rw [if_pos new] at hg₀
      cases hg₀
      cases hl
    · rw [if_neg new] at hg₀
      exact ⟨g₀, hg₀, hl⟩

/-- Once the arc is erased, all is undone where the begin has its type and its links. -/
theorem GivenUp.undone_iff (up : GivenUp h ss m m₂ b) (inv : Inv h m)
    (live : m.liveAddr b = true) (erased : Erased h m.nextAddr m₂ m') :
    Undone m m' ↔ m₂.typeOf b = m.typeOf b ∧
      ∀ g', m₂.addrs b = some g' → ∀ l ∈ g'.links, ∃ g, m.addrs b = some g ∧ l ∈ g.links := by
  have unborn : m.liveAddr m.nextAddr = false := by
    rw [Memory.liveAddr, inv.unusedAddr]
  have old : ∀ y, m.liveAddr y = true → y ≠ m.nextAddr := by
    rintro y hy rfl
    rw [unborn] at hy
    cases hy
  have lives : ∀ y, m.liveAddr y = true → m'.liveAddr y = true := by
    intro y hy
    apply erased.alone up.bare (old y hy)
    rw [up.live y (old y hy), hy]
  have typeOf : ∀ y, m.liveAddr y = true → m'.typeOf y = m₂.typeOf y :=
    fun y hy => erased.typeOf up.inv (lives y hy)
  have endOf : ∀ y s, m'.endOf y s = m.endOf y s := by
    intro y s
    cases hy : m.liveAddr y with
    | true => rw [erased.endOf up.inv up.bare (lives y hy), up.endOf y s (old y hy)]
    | false =>
      have gone : m'.liveAddr y = false := by
        by_cases new : y = m.nextAddr
        · rw [new, erased.dead]
        · cases hy' : m'.liveAddr y with
          | false => rfl
          | true =>
            have := erased.cascade.shrinks.liveAddr hy'
            rw [up.live y new, hy] at this
            cases this
      rw [erased.inv.endOf_dead gone, inv.endOf_dead hy]
  constructor
  · intro undone
    refine ⟨?_, ?_⟩
    · rw [← typeOf b live]
      exact undone.restored.type b live
    · intro g₂ hg₂ l hl
      obtain ⟨g', hg', -⟩ := liveAddr_eq_true.mp (lives b live)
      obtain ⟨g₂', hg₂', -, -, links, -⟩ := erased.cascade.shrinks.addr hg'
      obtain rfl := Option.some.inj (hg₂.symm.trans hg₂')
      exact undone.links b g' hg' l (links ▸ hl)
  · rintro ⟨type, links⟩
    constructor
    · constructor
      · intro y
        cases hy : m.liveAddr y with
        | true => exact lives y hy
        | false =>
          by_cases new : y = m.nextAddr
          · rw [new, erased.dead]
          · cases hy' : m'.liveAddr y with
            | false => rfl
            | true =>
              have := erased.cascade.shrinks.liveAddr hy'
              rw [up.live y new, hy] at this
              cases this
      · intro y hy
        rw [typeOf y hy]
        by_cases same : y = b
        · rw [same, type]
        · exact up.typeOf y same hy
      · intro y s _
        exact endOf y s
      · intro y s x _
        rw [erased.inv.hasArc_iff, inv.hasArc_iff, endOf]
    · intro c g' hg' l hl
      obtain ⟨g₂, hg₂, -, -, same, -⟩ := erased.cascade.shrinks.addr hg'
      rw [same] at hl
      by_cases hc : c = b
      · subst hc
        exact links g₂ hg₂ l hl
      · exact up.links c g₂ hc hg₂ l hl

theorem Inv.undone_iff (inv : Inv h m) (unheld : ∀ n, h.node n = 0)
    (live : m.liveAddr b = true) (opened : ss.opened seg = true)
    (hr : ss.setBeg w (ScCore.Store.created m seg t) (some m.nextAddr) (some b)
      = some (m₂, rv₂))
    (erase : ss.eraseEl w fuel m₂ (some m.nextAddr) = some (m', rv₃)) :
    Undone m m' ↔ ¬DeniesDeath w m₂ m.nextAddr ∧
      (rv₂ = rvOk → Traceless ss w (ScCore.Store.created m seg t) seg b) := by
  have up := inv.givenUp unheld live opened hr
  have inv₁ := (inv.created seg t).1
  obtain ⟨gb, hgb, -⟩ := liveAddr_eq_true.mp live
  have hgb₁ : (ScCore.Store.created m seg t).addrs b = some gb := by
    rw [created_addrs, if_neg (inv.created_new hgb), hgb]
  have unborn : m.liveAddr m.nextAddr = false := by
    rw [Memory.liveAddr, inv.unusedAddr]
  rcases up.inv.eraseEl_bare unheld up.bare up.access erase with ⟨denied, rfl⟩ | ⟨agreed, erased⟩
  · refine iff_of_false (fun undone => ?_) fun clean => clean.1 denied
    obtain ⟨g, hg, hd, -⟩ := access_ok.mp up.access
    have alive := undone.restored.live m.nextAddr
    rw [liveAddr_eq_true.mpr ⟨g, hg, hd⟩, unborn] at alive
    cases alive
  · rw [up.undone_iff inv live erased, and_iff_right agreed]
    by_cases ok : rv₂ = rvOk
    · subst ok
      have free : (ScCore.Store.created m seg t).endOf m.nextAddr .beg = none := by
        rw [inv.created_endOf, inv.endOf_dead unborn]
      have begins := inv₁.begins unheld (if_pos rfl) free hr
      obtain ⟨same, new⟩ := begins.links gb hgb₁
      have typed : (ScCore.Store.created m seg t).typeOf b = m.typeOf b :=
        inv.created_typeOf live
      rw [← typed, begins.type]
      constructor
      · rintro ⟨type, links⟩ -
        refine ⟨type, gb, hgb₁, ?_⟩
        by_contra needs
        obtain ⟨g₂, hg₂⟩ : ∃ g₂, m₂.addrs b = some g₂ := by
          obtain ⟨g₂, hg₂, -⟩ := liveAddr_eq_true.mp
            ((up.live b (inv.created_new hgb)).trans live)
          exact ⟨g₂, hg₂⟩
        obtain ⟨l, hl, none⟩ := new needs g₂ hg₂
        obtain ⟨g, hg, hl⟩ := links g₂ hg₂ l hl
        have own := inv.stores_addr hg (List.mem_cons_of_mem _ hl)
        rw [(persists_created inv seg t).addrOf own] at none
        cases none
      · intro clean
        obtain ⟨type, g, hg, linked⟩ := clean rfl
        rw [hgb₁] at hg
        cases hg
        refine ⟨type, fun g₂ hg₂ l hl => ?_⟩
        obtain ⟨g₀, hg₀, links⟩ := same b g₂ hg₂ (.inr linked)
        rw [hgb₁] at hg₀
        cases hg₀
        exact ⟨gb, hgb, links ▸ hl⟩
    · refine iff_of_true ⟨?_, ?_⟩ fun succeeded => absurd succeeded ok
      · obtain ⟨-, -, step⟩ := inv₁.setBeg unheld hr
        rw [step.failed ok, inv.created_typeOf live]
      · obtain ⟨-, -, step⟩ := inv₁.setBeg unheld hr
        intro g₂ hg₂ l hl
        rw [step.failed ok, hgb₁] at hg₂
        cases hg₂
        exact ⟨gb, hgb, hl⟩

end Created

/-- In every reachable memory, a `gen3_f_a_f` that fails leaves everything as it was exactly
where the death of the arc is not refused and its begin, if accepted, keeps no trace. -/
theorem gen3_undone_iff (uri tmpPrefix : SegId → ScString) (st : State)
    (before : Reaches arcsKeepType (State.initial uri tmpPrefix) st) (ss : Session) (w : Waits)
    (fuel : Nat) (e1 : Option Addr) (s2 : SegId) (t2 : ScType) (e3 : Option Addr) (m : Memory)
    (r : Option Addr) (rv : Retval)
    (hr : ss.gen3 w fuel st.memory e1 s2 t2 e3 = some (m, r, rv)) (failed : rv ≠ rvOk) :
    Undone st.memory m ↔ givesUpCleanly ss w st.memory e1 s2 t2 e3 := by
  have inv : Inv (clientHolds st.refs) st.memory := StateInv.reaches before
  have unheld : ∀ n, (clientHolds st.refs).node n = 0 := fun _ => rfl
  rcases inv.gen3_failed unheld hr failed with
    ⟨rfl, clean⟩ | ⟨t, m₂, rv₂, rv₃, ok₁, ok₃, create, opened, begin', erase⟩
  · refine iff_of_true ⟨⟨?_, ?_, ?_, ?_⟩, ?_⟩ clean
    · exact fun _ => rfl
    · exact fun _ _ => rfl
    · exact fun _ _ _ => rfl
    · exact fun _ _ _ _ => Iff.rfl
    · exact fun a g' hg' l hl => ⟨g', hg', hl⟩
  · cases e1 with
    | none => cases ok₁
    | some b =>
      rw [inv.undone_iff unheld (access_live ok₁) opened begin' erase]
      constructor
      · rintro ⟨agreed, traceless⟩ _ _ m₁ arc create'
        rw [create] at create'
        cases create'
        constructor
        · intro m₂' rv₂' begin₂
          rw [begin'] at begin₂
          cases begin₂
          exact agreed
        · intro m₂' begin₂ b' hb'
          cases hb'
          rw [begin'] at begin₂
          cases begin₂
          exact traceless rfl
      · intro clean
        obtain ⟨agreed, traceless⟩ := clean ok₁ ok₃ _ _ create
        refine ⟨agreed m₂ rv₂ begin', ?_⟩
        rintro rfl
        exact traceless m₂ begin' b rfl

/-- An undefined element, and a node in another segment. -/
def strangers : List Op := [.createEl 0 .undf, .createEl 1 .node]

theorem gen3_undone_iff_refused : ∃ st m rv,
    runOps 0 strangers (State.initial (fun _ => []) fun _ => []) = some st ∧
    systemSession.gen3 (denies 0 .attachOutputPre) 3 st.memory (some 0) 1 .arc (some 1)
      = some (m, none, rv) ∧ rv ≠ rvOk ∧
    (Undone st.memory m ↔
      givesUpCleanly systemSession (denies 0 .attachOutputPre) st.memory (some 0) 1 .arc
        (some 1)) := by
  have hrun : ∃ st m, runOps 0 strangers (State.initial (fun _ => []) fun _ => []) = some st ∧
      systemSession.gen3 (denies 0 .attachOutputPre) 3 st.memory (some 0) 1 .arc (some 1)
        = some (m, none, rvElseGen) := ⟨_, _, rfl, rfl⟩
  obtain ⟨st, m, hst, hm⟩ := hrun
  exact ⟨st, m, rvElseGen, hst, hm, by decide,
    gen3_undone_iff _ _ st (reaches_keeping (by decide) hst) systemSession _ 3 (some 0) 1 .arc
      (some 1) m
      none rvElseGen hm (by decide)⟩

theorem gen3_undone_fails : ¬∀ (uri tmpPrefix : SegId → ScString) (st : State),
    Reaches arcsKeepType (State.initial uri tmpPrefix) st → ∀ (ss : Session) (w : Waits)
    (fuel : Nat) (e1 : Option Addr) (s2 : SegId) (t2 : ScType) (e3 : Option Addr) (m : Memory)
    (r : Option Addr) (rv : Retval), ss.gen3 w fuel st.memory e1 s2 t2 e3 = some (m, r, rv) →
    rv ≠ rvOk → Undone st.memory m := by
  intro claim
  have hrun : ∃ st m, runOps 0 strangers (State.initial (fun _ => []) fun _ => []) = some st ∧
      systemSession.gen3 (denies 1 .attachInputPre) 3 st.memory (some 0) 1 .arc (some 1)
        = some (m, none, rvElseGen) ∧
      (st.memory.liveAddr 0 = true ∧ st.memory.typeOf 0 = some (.undf ||| .const) ∧
        m.typeOf 0 = some (.node ||| .const)) := by
    refine ⟨_, _, rfl, rfl, ?_⟩
    decide
  obtain ⟨st, m, hst, hm, live, old, new⟩ := hrun
  have undone := claim _ _ st (reaches_keeping (by decide) hst) systemSession _ 3 (some 0) 1 .arc
    (some 1) m
    none rvElseGen hm (by decide)
  have type := undone.restored.type 0 live
  rw [old, new] at type
  revert type
  decide

end ScCore.Store
