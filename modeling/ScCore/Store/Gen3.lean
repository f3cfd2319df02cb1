import ScCore.Store.Gen5

/-!
# What `gen3_f_a_f` does to the memory

One account of a call that may succeed or fail: the elements that were there keep their ends
and, unless it was undefined, their type; what is new with an end is the arc that is reported.
-/

namespace ScCore.Store

open Memory TmpSegment

variable {h : Holds} {m m' m₁ m₂ : Memory} {ss : Session} {w : Waits} {fuel : Nat} {rv : Retval}
  {seg : SegId} {t t' : ScType} {b e x y arc : Addr} {r : Option Addr}

structure Gen3Step (h : Holds) (m m' : Memory) (type : ScType) (b e : Addr) (r : Option Addr) :
    Prop where
  inv : Inv h m'
  live : ∀ y, m.liveAddr y = true → m'.liveAddr y = true
  ends : ∀ y, m.liveAddr y = true → ∀ s, m'.endOf y s = m.endOf y s
  typeOf : ∀ y t, m.liveAddr y = true → m.typeOf y = some t → t &&& .undf = 0 →
    m'.typeOf y = some t
  made : ∀ x, r = some x → NewArc m m' x (some b) (some e) ∧
    ∀ t, type.verify = some t → t &&& .undf = 0 → m'.typeOf x = some t
  ended : ∀ y, m'.endOf y .fin ≠ none → m.liveAddr y = true ∨ r = some y
  born : r ≠ none → ∀ y, m'.liveAddr y = true → m.liveAddr y = true ∨ r = some y

theorem Persists.access (persists : Persists m m') (ok : ss.access m (some b) = some rvOk) :
    ss.access m' (some b) = some rvOk := by
  obtain ⟨g, hg, hd, hopen⟩ := access_ok.mp ok
  obtain ⟨g', hg', hs, -, hd'⟩ := persists.addrs hg
  exact access_ok.mpr ⟨g', hg', hd'.trans hd, hs ▸ hopen⟩

theorem created_own : (created m seg t).typeOf m.nextAddr = some t := by
  have addr : (created m seg t).addrs m.nextAddr =
      some ⟨seg, m.nextElem, [], refcntBarrier, false, false, 0, fun _ => 0⟩ := by
    rw [created_addrs, if_pos rfl]
  have elem : (created m seg t).elems m.nextElem =
      some { Element.new t false true with addr := some m.nextAddr } := by
    rw [(adds_created m seg t).elems, if_pos rfl]
  rw [Memory.typeOf, addr, Option.bind_some, elem]
  rfl

theorem createEl_eq (opened : ss.opened seg = true) (verified : t.verify = some t') :
    ss.createEl m seg t = some (created m seg t', some m.nextAddr, rvOk) := by
  have hel : ((m.newElem (Element.new t' false true)).modifySeg seg
      fun sg => { sg with elements := sg.elements ++ [m.nextElem] }).elems m.nextElem =
      some (Element.new t' false true) := if_pos rfl
  have stored : ∀ g, (((m.newElem (Element.new t' false true)).modifySeg seg
      fun sg => { sg with elements := sg.elements ++ [m.nextElem] }).newAddr g).elems m.nextElem =
      some (Element.new t' false true) := fun _ => hel
  unfold Session.createEl
  simp only [opened, Bool.not_true, Bool.false_eq_true, if_false, verified, genEl, hel,
    Option.bind_eq_bind, Option.bind_some, setElementAddr]
  rw [modifyElem_eq (stored _)]
  rfl

theorem createEl_type (verified : t.verify = some t')
    (hr : ss.createEl m seg t = some (m₁, some arc, rv)) : m₁.typeOf arc = some t' := by
  obtain ⟨-, none, -⟩ | ⟨-, -, -, -, opened⟩ := createEl_some hr
  · cases none
  · obtain ⟨rfl, harc, -⟩ := by simpa using (createEl_eq opened verified).symm.trans hr
    exact harc ▸ created_own

theorem Inv.live_of_end (inv : Inv h m) {s : Endpoint} (ended : m.endOf y s ≠ none) :
    m.liveAddr y = true := by
  by_contra dead
  exact ended (inv.endOf_dead (by simpa using dead))

variable (inv : Inv h m) (unheld : ∀ n, h.node n = 0)

include inv unheld

theorem Inv.gen3_keeps
    (hr : ss.gen3 w fuel m (some b) seg t (some e) = some (m', some x, rvOk)) :
    (∀ y u, m.liveAddr y = true → m.typeOf y = some u → u &&& .undf = 0 → m'.typeOf y = some u) ∧
    ∀ u, t.verify = some u → u &&& .undf = 0 → m'.typeOf x = some u := by
  cases gen3_some hr with
  | @made m₁ m₂ _ _ access₁ access₃ create beg fin =>
    obtain ⟨inv₁, harc, -, -⟩ := inv.created_arc create
    obtain ⟨sets₂, -, step₂⟩ := inv₁.setBeg unheld beg
    obtain ⟨-, -, step₃⟩ := sets₂.inv.setEnd unheld fin
    have moves₂ := step₂.moves inv₁
    have moves₃ := step₃.moves sets₂.inv
    have keeps : ∀ y u, m₁.typeOf y = some u → u &&& .undf = 0 → m'.typeOf y = some u := by
      intro y u hu defined
      rw [moves₃.typeOf y nofun, moves₂.typeOf y ?_, hu]
      intro _ _ t ht
      cases hu.symm.trans ht
      exact defined
    refine ⟨fun y u live hu defined => keeps y u ?_ defined, fun u hv defined =>
      keeps x u (createEl_type hv create) defined⟩
    obtain ⟨-, none, -⟩ | ⟨t', rfl, -⟩ := createEl_some create
    · cases none
    · rw [inv.created_typeOf live, hu]

theorem Inv.gen3_places
    (hr : ss.gen3 w fuel m (some b) seg t (some e) = some (m', some x, rvOk)) :
    Persists m m' ∧ ss.opened seg = true ∧ ss.access m (some b) = some rvOk ∧
      ∃ g, m'.addrs x = some g ∧ g.seg = seg := by
  cases gen3_some hr with
  | @made m₁ m₂ _ _ access₁ access₃ create beg fin =>
    obtain ⟨inv₁, rfl, -, -⟩ := inv.created_arc create
    obtain ⟨sets₂, -, step₂⟩ := inv₁.setBeg unheld beg
    obtain ⟨-, -, step₃⟩ := sets₂.inv.setEnd unheld fin
    have persists := ((step₂.moves inv₁).stays.trans (step₃.moves sets₂.inv).stays).persists
    obtain ⟨-, none, -⟩ | ⟨t', rfl, -, -, opened⟩ := createEl_some create
    · cases none
    · obtain ⟨g, hg, hs, -, -⟩ := persists.addrs
        (show (ScCore.Store.created m seg t').addrs m.nextAddr = _ from if_pos rfl)
      exact ⟨(persists_created inv seg t').trans persists, opened, access₁, g, hg, hs⟩

theorem Inv.gen3_step (hr : ss.gen3 w fuel m (some b) seg t (some e) = some (m', r, rv)) :
    Gen3Step h m m' t b e r := by
  cases r with
  | some x =>
    obtain rfl := gen3_stored hr
    obtain ⟨inv', arc, frame⟩ := inv.gen3_made unheld hr
    obtain ⟨types, type⟩ := inv.gen3_keeps unheld hr
    have old : ∀ y, m.liveAddr y = true → y ≠ x := by
      rintro y live rfl
      rw [arc.new] at live
      cases live
    refine ⟨inv', fun y live => ?_, fun y live => (frame y (old y live)).2, types, ?_, ?_, ?_⟩
    · rw [(frame y (old y live)).1, live]
    · rintro x' same
      obtain rfl := Option.some.inj same
      exact ⟨arc, type⟩
    · intro y ended
      by_cases same : y = x
      · exact .inr (same ▸ rfl)
      · rw [(frame y same).2] at ended
        exact .inl (inv.live_of_end ended)
    · intro _ y live
      by_cases same : y = x
      · exact .inr (same ▸ rfl)
      · rw [(frame y same).1] at live
        exact .inl live
  | none =>
    have failed := gen3_none hr
    obtain ⟨-, lives, -⟩ := inv.gen3_left unheld hr failed
    refine ⟨(inv.gen3 unheld hr).1, fun y live => (lives y live).1, fun y live => (lives y live).2,
      ?_, nofun, ?_, fun none => absurd rfl none⟩
    all_goals
      obtain ⟨rfl, -⟩ | ⟨t', m₂, rv₂, rv₃, ok₁, ok₃, create, opened, begin', erase⟩ :=
        inv.gen3_failed unheld hr failed
    · exact fun y u _ hu _ => hu
    · intro y u live hu defined
      obtain ⟨inv₁, -, -, -⟩ := inv.created_arc create
      obtain ⟨-, -, step⟩ := inv₁.setBeg unheld begin'
      have type₁ : (ScCore.Store.created m seg t').typeOf y = some u := by
        rw [inv.created_typeOf live, hu]
      have type₂ : m₂.typeOf y = some u := by
        rw [(step.moves inv₁).typeOf y, type₁]
        intro _ _ t ht
        cases type₁.symm.trans ht
        exact defined
      have up := inv.givenUp unheld (access_live ok₁) opened begin'
      obtain ⟨-, rfl⟩ | ⟨-, erased⟩ := up.inv.eraseEl_bare unheld up.bare up.access erase
      · exact type₂
      · rw [erased.typeOf up.inv (lives y live).1, type₂]
    · exact fun y ended => .inl (inv.live_of_end ended)
    · intro y ended
      have up := inv.givenUp unheld (access_live ok₁) opened begin'
      obtain ⟨-, -, free, -⟩ := inv.begin_iff unheld ok₁ create begin'
      have ended₂ : m₂.endOf y .fin ≠ none := by
        obtain ⟨-, rfl⟩ | ⟨-, erased⟩ := up.inv.eraseEl_bare unheld up.bare up.access erase
        · exact ended
        · rwa [erased.endOf up.inv up.bare (erased.inv.live_of_end ended)] at ended
      have other : y ≠ m.nextAddr := by
        rintro rfl
        exact ended₂ free
      rw [up.endOf y .fin other] at ended₂
      exact .inl (inv.live_of_end ended₂)

end ScCore.Store
