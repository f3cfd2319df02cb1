import ScCore.Store.ContentFrame

/-!
# What calls leave alone

A call names the ends, the begins and the contents that it may write; everything else that
addresses show stays. An undefined begin may become a node.
-/

namespace ScCore.Store

open Memory TmpSegment Session

/-- What may be written: ends of arcs, the type of an undefined begin, and contents. -/
structure Touches where
  ends : Addr → Endpoint → Prop
  begins : Addr → Prop
  contents : Addr → Prop

structure TouchesOnly (refs : Addr → Nat) (τ : Touches) (m m' : Memory) : Prop where
  steady : Steady ⟨m', refs⟩
  persists : Persists m m'
  ends : ∀ y s, ¬τ.ends y s → m'.endOf y s = m.endOf y s
  types : ∀ y t, m.typeOf y = some t →
    t.isConnector = true ∨ t &&& .undf = 0 ∨ ¬τ.begins y → m'.typeOf y = some t
  contents : ∀ y g, m.addrs y = some g → ¬τ.contents y → contOf m' y = contOf m y

variable {refs : Addr → Nat} {τ : Touches} {m m' m'' : Memory} {ss : Session} {w : Waits}
  {s : Endpoint} {x y a : Addr} {target r : Option Addr} {rv : Retval} {seg : SegId} {t : ScType}

theorem addrs_of_typeOf (type : m.typeOf y = some t) : ∃ g, m.addrs y = some g := by
  obtain ⟨g, hg, -⟩ := Option.bind_eq_some_iff.mp type
  exact ⟨g, hg⟩

namespace TouchesOnly

theorem refl (steady : Steady ⟨m, refs⟩) : TouchesOnly refs τ m m :=
  ⟨steady, Persists.refl m, fun _ _ _ => rfl, fun _ _ type _ => type, fun _ _ _ _ => rfl⟩

theorem trans (l : TouchesOnly refs τ m m') (l' : TouchesOnly refs τ m' m'') :
    TouchesOnly refs τ m m'' where
  steady := l'.steady
  persists := l.persists.trans l'.persists
  ends y s other := (l'.ends y s other).trans (l.ends y s other)
  types y t type kept := l'.types y t (l.types y t type kept) kept
  contents y g hg other := by
    obtain ⟨g', hg', -⟩ := l.persists.addrs hg
    exact (l'.contents y g' hg' other).trans (l.contents y g hg other)

end TouchesOnly

theorem Steady.setEnds (steady : Steady ⟨m, refs⟩)
    (hr : ss.setEnds w s m (some x) target = some (m', rv)) : Steady ⟨m', refs⟩ := by
  cases s with
  | beg =>
    have exec : (Op.setBeg (some x) target).exec ss w 0 ⟨m, refs⟩ = some ⟨m', refs⟩ := by
      rw [Op.exec, show ss.setBeg w m (some x) target = _ from hr]
      rfl
    refine Steady.exec steady ?_ exec
    trivial
  | fin =>
    have exec : (Op.setEnd (some x) target).exec ss w 0 ⟨m, refs⟩ = some ⟨m', refs⟩ := by
      rw [Op.exec, show ss.setEnd w m (some x) target = _ from hr]
      rfl
    refine Steady.exec steady ?_ exec
    trivial

theorem SetStep.connector {h : Holds} (step : SetStep h ss w .beg (some x) (some y) m m' rv)
    (type : m.typeOf y = some t) (connector : t.isConnector = true) : m' = m := by
  cases step with
  | kept same => exact same
  | cleared _ none => cases none
  | attached hx ht ready access inv₀ relabels begs =>
    obtain rfl := Option.some.inj ht
    obtain ⟨gt, et, hgt, het, plain, -⟩ := begs rfl
    rw [Memory.typeOf, hgt, Option.bind_some, het, Option.map_some] at type
    rw [Option.some.inj type, connector] at plain
    cases plain

theorem only_setEnds (steady : Steady ⟨m, refs⟩)
    (hr : ss.setEnds w s m (some x) target = some (m', rv)) (ends : τ.ends x s)
    (begins : s = .beg → ∀ b, target = some b → τ.begins b) : TouchesOnly refs τ m m' := by
  have inv : Inv (clientHolds refs) m := steady.inv
  obtain ⟨-, step, -⟩ := inv.setEnds (fun _ => rfl) hr
  have moves := step.moves inv
  refine ⟨steady.setEnds hr, moves.stays.persists, fun y u other => ?_, fun y t type kept => ?_,
    fun y g hg _ => contOf_eq (KeepsContents.setEnds hr) inv moves.stays.persists hg⟩
  · refine moves.endOf y u ?_
    rintro ⟨same, rfl⟩
    obtain rfl := Option.some.inj same
    exact other ends
  · by_cases connector : t.isConnector = true
    · by_cases aimed : s = .beg ∧ target = some y
      · obtain ⟨rfl, rfl⟩ := aimed
        rw [step.connector type connector, type]
      · rw [moves.typeOf y fun hs ht => absurd ⟨hs, ht⟩ aimed, type]
    · rw [moves.typeOf y fun hs ht t' ht' => ?_, type]
      cases type.symm.trans ht'
      exact (kept.resolve_left connector).resolve_right fun other => other (begins hs y ht)

theorem only_created (steady : Steady ⟨m, refs⟩)
    (hr : ss.createEl m seg t = some (m', r, rv)) : TouchesOnly refs τ m m' := by
  have inv : Inv (clientHolds refs) m := steady.inv
  have keeps := KeepsContents.createEl hr
  have steady' := steady.createEl hr
  obtain ⟨rfl, -⟩ | ⟨t', rfl, -⟩ := createEl_some hr
  · exact TouchesOnly.refl steady
  · have persists := persists_created inv seg t'
    refine ⟨steady', persists, fun y u _ => inv.created_endOf y u, fun y u type _ => ?_,
      fun y g hg _ => contOf_eq keeps inv persists hg⟩
    obtain ⟨g, hg⟩ := addrs_of_typeOf type
    have hg' : (created m seg t').addrs y = some g := by
      rw [created_addrs, if_neg (inv.created_new hg), hg]
    have old := Adds.ne_new inv.toAddrInv (inv.stores_addr hg List.mem_cons_self)
    rw [typeOf_label hg', (adds_created m seg t').label_old old, ← typeOf_label hg, type]

theorem only_renames {P : ElemId → Prop} (steady : Steady ⟨m, refs⟩) (renames : Renames P m m')
    (contents : ∀ y g, m.addrs y = some g → ¬τ.contents y → contOf m' y = contOf m y) :
    TouchesOnly refs τ m m' := by
  have inv : Inv (clientHolds refs) m := steady.inv
  have stays := renames.relabels.stays
  refine ⟨steady.renames renames, stays.persists, fun y s _ => renames.relabels.endOf inv,
    fun y t type _ => ?_, contents⟩
  rw [stays.typeOf fun g _ => renames.types g.impl, type]

variable {str : ScString} {c : Content}

theorem renames_sessionGetIdtf (hr : ss.getIdtf m a = some (m', str)) :
    Renames (fun _ => True) m m' := by
  obtain ⟨rv, -, hr⟩ := Option.bind_eq_some_iff.mp hr
  split at hr
  · cases hr
    exact Renames.refl _ m
  · obtain ⟨g, -, hr⟩ := Option.bind_eq_some_iff.mp hr
    exact (renames_getIdtf hr).mono fun _ _ => trivial

theorem only_getIdtf (steady : Steady ⟨m, refs⟩) (hr : ss.getIdtf m a = some (m', str)) :
    TouchesOnly refs τ m m' := by
  have renames := renames_sessionGetIdtf hr
  exact only_renames steady renames fun y g hg _ =>
    contOf_eq (KeepsContents.sessionGetIdtf hr) steady.inv renames.relabels.stays.persists hg

theorem only_setIdtf {idtf : ScString} (steady : Steady ⟨m, refs⟩)
    (hr : ss.setIdtf m a idtf = some (m', rv)) : TouchesOnly refs τ m m' := by
  have renames := renames_sessionSetIdtf hr
  exact only_renames steady renames fun y g hg _ =>
    contOf_eq (KeepsContents.sessionSetIdtf hr) steady.inv renames.relabels.stays.persists hg

theorem setContent_some {h : Holds} (inv : Inv h m) (hr : ss.setContent m a c = some (m', rv)) :
    (∀ y g, m.addrs y = some g → y ≠ a → contOf m' y = contOf m y) ∧
      (ss.access m (some a) = some rvOk → contOf m' a = some c) := by
  obtain ⟨rv', access, hr⟩ := Option.bind_eq_some_iff.mp hr
  split at hr
  · next denied =>
    cases hr
    refine ⟨fun _ _ _ _ => rfl, fun ok => absurd ?_ denied⟩
    exact Option.some.inj (access.symm.trans ok)
  · obtain ⟨g, hg, hr⟩ := Option.bind_eq_some_iff.mp hr
    obtain ⟨m₁, hm₁, hr⟩ := Option.bind_eq_some_iff.mp hr
    cases hr
    obtain ⟨⟨el, hel⟩, rfl⟩ := modifyElem_some hm₁
    constructor
    · intro y gy hy other
      have apart : gy.impl ≠ g.impl := fun same => other
        (inv.addr_unique hy hg (List.mem_cons_self : (⟨gy.seg, gy.impl⟩ : LinkAddr) ∈ gy.stores)
          (List.mem_cons_self : (⟨g.seg, g.impl⟩ : LinkAddr) ∈ g.stores) same)
      have hy' : (m.mapElem g.impl fun el => { el with cont := c }).addrs y = some gy := hy
      rw [contOf, contOf, hy', hy, Option.bind_some, Option.bind_some, mapElem_elems, if_neg apart]
    · intro _
      have hg' : (m.mapElem g.impl fun el => { el with cont := c }).addrs a = some g := hg
      rw [contOf, hg', Option.bind_some, mapElem_elems, if_pos rfl, hel]
      rfl

theorem only_setContent (steady : Steady ⟨m, refs⟩) (hr : ss.setContent m a c = some (m', rv))
    (touched : τ.contents a) : TouchesOnly refs τ m m' := by
  refine only_renames steady (renames_setContent hr) fun y g hg other =>
    (setContent_some (h := clientHolds refs) steady.inv hr).1 y g hg ?_
  rintro rfl
  exact other touched

end ScCore.Store
