import ScCore.Store.Survivors

/-!
# Links that nobody refuses

Where no wait refuses, `gen3_f_a_f` and `gen5_f_a_f_a_f` succeed on elements that the session has
access to.
-/

namespace ScCore.Store

open Memory TmpSegment

section Waits

variable {w : Waits} {m : Memory} {s : Endpoint}

theorem setPre_calm {arc : Addr} {a : Option Addr}
    (calm : ∀ b, a = some b ∨ (∃ u, u ≠ s ∧ m.endOf arc u = some b) ∨
      (a = none ∧ m.endOf arc s = some b) → ∀ k ps, w m b k ps = false) :
    setPre w s m arc a ≠ some true := by
  have reads : ∀ {g el u old}, m.addrs arc = some g → m.elems g.impl = some el →
      Session.endAddr m (el.ends u) = some old → m.endOf arc u = old := by
    intro g el u old hg hel hold
    rw [endOf_eq hg hel, bind_addrOf hold]
  intro refused
  cases s with
  | beg =>
    obtain ⟨g, hg, refused⟩ := Option.bind_eq_some_iff.mp refused
    obtain ⟨el, hel, refused⟩ := Option.bind_eq_some_iff.mp refused
    cases a with
    | none =>
      obtain ⟨old, hold, refused⟩ := Option.bind_eq_some_iff.mp refused
      cases old with
      | none => cases refused
      | some b =>
        have quiet := calm b (.inr (.inr ⟨rfl, reads hg hel hold⟩)) .detachOutputPre [b, arc]
        rw [Option.some.inj refused] at quiet
        cases quiet
    | some b =>
      dsimp only at refused
      rw [calm b (.inl rfl), if_neg Bool.false_ne_true] at refused
      obtain ⟨old, hold, refused⟩ := Option.bind_eq_some_iff.mp refused
      cases old with
      | none => cases refused
      | some e =>
        have quiet := calm e (.inr (.inl ⟨.fin, nofun, reads hg hel hold⟩))
        simp [calm b (.inl rfl), quiet] at refused
  | fin =>
    obtain ⟨g, hg, refused⟩ := Option.bind_eq_some_iff.mp refused
    obtain ⟨el, hel, refused⟩ := Option.bind_eq_some_iff.mp refused
    cases a with
    | none =>
      obtain ⟨old, hold, refused⟩ := Option.bind_eq_some_iff.mp refused
      cases old with
      | none => cases refused
      | some b =>
        have quiet := calm b (.inr (.inr ⟨rfl, reads hg hel hold⟩)) .detachInputPre [arc, b]
        rw [Option.some.inj refused] at quiet
        cases quiet
    | some e =>
      dsimp only at refused
      rw [calm e (.inl rfl), if_neg Bool.false_ne_true] at refused
      obtain ⟨old, hold, refused⟩ := Option.bind_eq_some_iff.mp refused
      cases old with
      | none => cases refused
      | some b =>
        have quiet := calm b (.inr (.inl ⟨.beg, nofun, reads hg hel hold⟩))
        simp [calm e (.inl rfl), quiet] at refused

theorem setPre_of_calm (calm : ∀ m a k ps, w m a k ps = false) {arc : Addr} {a : Option Addr} :
    setPre w s m arc a ≠ some true :=
  setPre_calm fun b _ k ps => calm m b k ps

end Waits

section Gen

variable {refs : Addr → Nat} {ss : Session} {w : Waits} {m m' m₁ : Memory} {fuel : Nat}
  {e1 e3 e5 x y : Addr} {seg : SegId} {t t' : ScType} {rv : Retval} {r : Option Addr}

structure Joins (ss : Session) (m : Memory) (e1 : Addr) (seg : SegId) (t t' : ScType) (e3 : Addr) :
    Prop where
  opened : ss.opened seg = true
  verified : t.verify = some t'
  connector : t'.isConnector = true
  defined : t' &&& .undf = 0
  first : ss.access m (some e1) = some rvOk
  third : ss.access m (some e3) = some rvOk
  plain : ∀ t, m.typeOf e1 = some t → t.isConnector = false

theorem created_access (opened : ss.opened seg = true) :
    ss.access (created m seg t) (some m.nextAddr) = some rvOk := by
  have addr : (created m seg t).addrs m.nextAddr =
      some ⟨seg, m.nextElem, [], refcntBarrier, false, false, 0, fun _ => 0⟩ := by
    rw [created_addrs, if_pos rfl]
  exact access_ok.mpr ⟨_, addr, rfl, opened⟩

theorem Inv.gen3_calm (inv : Inv (clientHolds refs) m) (calm : ∀ m a k ps, w m a k ps = false)
    (joins : Joins ss m e1 seg t t' e3)
    (hr : ss.gen3 w fuel m (some e1) seg t (some e3) = some (m', r, rv)) :
    rv = rvOk ∧ r = some m.nextAddr := by
  have own : ∀ {m₁ arc}, ss.createEl m seg t = some (m₁, some arc, rvOk) →
      m₁ = ScCore.Store.created m seg t' ∧ arc = m.nextAddr := by
    intro m₁ arc create
    cases (createEl_eq joins.opened joins.verified).symm.trans create
    exact ⟨rfl, rfl⟩
  have inv₁ : Inv (clientHolds refs) (ScCore.Store.created m seg t') := (inv.created seg t').1
  have persists := persists_created inv seg t'
  have begun : ∀ {m₂ rv}, ss.setBeg w (ScCore.Store.created m seg t') (some m.nextAddr) (some e1) =
      some (m₂, rv) → rv = rvOk := by
    intro m₂ rv beg
    refine setEnds_ok (s := .beg) beg (created_access joins.opened) (fun type htype => ?_)
      (setPre_of_calm calm) (fun b hb => ?_) fun _ b type hb htype => ?_
    · rw [created_own] at htype
      exact Option.some.inj htype ▸ joins.connector
    · exact Option.some.inj hb ▸ persists.access joins.first
    · obtain rfl := Option.some.inj hb
      rw [inv.created_typeOf (access_live joins.first)] at htype
      exact joins.plain type htype
  have ended : ∀ {m₂ m₃ rv}, ss.setBeg w (ScCore.Store.created m seg t') (some m.nextAddr)
      (some e1) = some (m₂, rvOk) → ss.setEnd w m₂ (some m.nextAddr) (some e3) = some (m₃, rv) →
      rv = rvOk := by
    intro m₂ m₃ rv beg fin
    obtain ⟨-, -, step⟩ := inv₁.setBeg (fun _ => rfl) beg
    have moves := step.moves inv₁
    refine setEnds_ok (s := .fin) fin (moves.stays.persists.access (created_access joins.opened))
      (fun type htype => ?_) (setPre_of_calm calm) (fun b hb => ?_) nofun
    · rw [moves.typeOf _ fun _ same => ?_, created_own] at htype
      · exact Option.some.inj htype ▸ joins.connector
      · intro t ht
        have live := access_live joins.first
        rw [Option.some.inj same, inv.unborn] at live
        cases live
    · exact Option.some.inj hb ▸ moves.stays.persists.access (persists.access joins.third)
  cases gen3_some hr with
  | refused failed why =>
    obtain denied | denied | none := why
    · exact absurd joins.first denied
    · exact absurd joins.third denied
    · have same := Option.some.inj ((createEl_eq joins.opened joins.verified).symm.trans none)
      cases (Prod.mk.inj (Prod.mk.inj same).2).1
  | unbegun access₁ access₃ create beg failed =>
    obtain ⟨rfl, rfl⟩ := own create
    exact absurd (begun beg) failed
  | unended access₁ access₃ create beg fin failed =>
    obtain ⟨rfl, rfl⟩ := own create
    exact absurd (ended beg fin) failed
  | made access₁ access₃ create beg fin =>
    obtain ⟨-, rfl⟩ := own create
    exact ⟨rfl, rfl⟩

/-- What a made arc leaves: only the type of an undefined begin changes. -/
theorem Inv.gen3_types (inv : Inv (clientHolds refs) m)
    (hr : ss.gen3 w fuel m (some e1) seg t (some e3) = some (m', some x, rvOk)) {u : ScType}
    (type : m.typeOf y = some u) (kept : y ≠ e1 ∨ u &&& .undf = 0) : m'.typeOf y = some u := by
  cases gen3_some hr with
  | @made m₁ m₂ _ _ access₁ access₃ create beg fin =>
    obtain ⟨inv₁, -, -, -⟩ := inv.created_arc create
    obtain ⟨sets₂, -, step₂⟩ := inv₁.setBeg (fun _ => rfl) beg
    obtain ⟨-, -, step₃⟩ := sets₂.inv.setEnd (fun _ => rfl) fin
    have moves₂ := step₂.moves inv₁
    have moves₃ := step₃.moves sets₂.inv
    have type₁ : m₁.typeOf y = some u := by
      obtain ⟨-, none, -⟩ | ⟨t', rfl, -⟩ := createEl_some create
      · cases none
      · obtain ⟨g, hg, -⟩ := Option.bind_eq_some_iff.mp type
        have other : y ≠ m.nextAddr := by
          rintro rfl
          cases inv.unusedAddr.symm.trans hg
        have hg' : (ScCore.Store.created m seg t').addrs y = some g := by
          rw [created_addrs, if_neg other, hg]
        have old := Adds.ne_new inv.toAddrInv (inv.stores_addr hg List.mem_cons_self)
        rw [typeOf_label hg', (adds_created m seg t').label_old old, ← typeOf_label hg, type]
    rw [moves₃.typeOf y nofun, moves₂.typeOf y ?_, type₁]
    intro _ same t' ht'
    cases type₁.symm.trans ht'
    exact kept.resolve_left fun other => other (Option.some.inj same).symm

structure Linked (refs : Addr → Nat) (ss : Session) (seg : SegId) (m m' : Memory)
    (c k e x y : Addr) : Prop where
  steady : Steady ⟨m', refs⟩
  persists : Persists m m'
  live : ∀ a, m.liveAddr a = true → m'.liveAddr a = true
  ends : ∀ a, m.liveAddr a = true → ∀ s, m'.endOf a s = m.endOf a s
  typeOf : ∀ a u, m.typeOf a = some u → (a ≠ c ∧ a ≠ k) ∨ u &&& .undf = 0 → m'.typeOf a = some u
  arc : NewArc m m' x (some c) (some e)
  mark : NewArc m m' y (some k) (some x)
  born : ∀ a, m'.liveAddr a = true → m.liveAddr a = true ∨ a = x ∨ a = y
  places : Search.segOf m' x = some seg ∧ Search.segOf m' y = some seg
  order : ∀ a, m.liveAddr a = true → a < x ∧ a < y
  after : x < y

theorem Inv.gen5_calm (steady : Steady ⟨m, refs⟩) (calm : ∀ m a k ps, w m a k ps = false)
    (joins : Joins ss m e1 seg t t' e3) (access₅ : ss.access m (some e5) = some rvOk)
    {u₅ : ScType} (type₅ : m.typeOf e5 = some u₅) (plain₅ : u₅.isConnector = false)
    (defined₅ : u₅ &&& .undf = 0) {r : Option (Addr × Addr)}
    (hr : ss.gen5 w fuel m (some e1) seg t (some e3) seg t (some e5) = some (m', r, rv)) :
    rv = rvOk ∧ ∃ x y, r = some (x, y) ∧ Linked refs ss seg m m' e1 e5 e3 x y ∧
      m'.typeOf x = some t' ∧ m'.typeOf y = some t' := by
  have inv : Inv (clientHolds refs) m := steady.inv
  obtain ⟨_, -, first, -⟩ | ⟨m₁, x, first, second⟩ := gen5_some hr
  · cases (inv.gen3_calm calm joins first).2
  · have newx := Option.some.inj (inv.gen3_calm calm joins first).2
    have step₁ := inv.gen3_step (fun _ => rfl) first
    obtain ⟨persists₁, -, -, g₁, hg₁, seg₁⟩ := inv.gen3_places (fun _ => rfl) first
    obtain ⟨arc, arcType⟩ := step₁.made x rfl
    have inv₁ : Inv (clientHolds refs) m₁ := step₁.inv
    have accessx : ss.access m₁ (some x) = some rvOk := by
      obtain ⟨g, hg, hd⟩ := liveAddr_eq_true.mp arc.live
      obtain rfl := Option.some.inj (hg₁.symm.trans hg)
      exact access_ok.mpr ⟨_, hg, hd, seg₁ ▸ joins.opened⟩
    have joins₁ : Joins ss m₁ e5 seg t t' x := by
      refine ⟨joins.opened, joins.verified, joins.connector, joins.defined,
        persists₁.access access₅, accessx, ?_⟩
      intro u' hu'
      rw [inv.gen3_types first type₅ (.inr defined₅)] at hu'
      exact Option.some.inj hu' ▸ plain₅
    obtain ⟨m₂, rv₂, failed, second, -⟩ | ⟨y, second, rfl, rfl⟩ := second
    · cases (inv₁.gen3_calm calm joins₁ second).2
    · have newy := Option.some.inj (inv₁.gen3_calm calm joins₁ second).2
      have step₂ := inv₁.gen3_step (fun _ => rfl) second
      obtain ⟨persists₂, -, -, g₂, hg₂, seg₂⟩ := inv₁.gen3_places (fun _ => rfl) second
      obtain ⟨mark, markType⟩ := step₂.made y rfl
      have stored : ∀ {n : Memory} {a}, Inv (clientHolds refs) n → n.liveAddr a = true →
          a < n.nextAddr := by
        intro n a inv live
        obtain ⟨g, hg, -⟩ := liveAddr_eq_true.mp live
        exact inv.addr_lt hg
      refine ⟨rfl, x, y, rfl, ⟨(steady.gen3 first).gen3 second, persists₁.trans persists₂,
        fun a live => step₂.live a (step₁.live a live), fun a live s => ?_, fun a u ha kept => ?_,
        ?_, ?_, fun a live => ?_, ⟨?_, ?_⟩, fun a live => ⟨newx ▸ stored inv live,
          newy ▸ stored inv₁ (step₁.live a live)⟩, newy ▸ stored inv₁ arc.live⟩, ?_, ?_⟩
      · rw [step₂.ends a (step₁.live a live), step₁.ends a live]
      · exact inv₁.gen3_types second (inv.gen3_types first ha (kept.imp_left And.left))
          (kept.imp_left And.right)
      · exact ⟨arc.new, step₂.live x arc.live, (step₂.ends x arc.live _).trans arc.beg,
          (step₂.ends x arc.live _).trans arc.fin⟩
      · refine ⟨?_, mark.live, mark.beg, mark.fin⟩
        by_contra live
        have dead := mark.new
        rw [step₁.live y (by simpa using live)] at dead
        cases dead
      · obtain live | same := step₂.born nofun a live
        · obtain live | same := step₁.born nofun a live
          · exact .inl live
          · exact .inr (.inl (Option.some.inj same).symm)
        · exact .inr (.inr (Option.some.inj same).symm)
      · obtain ⟨g', hg', hs, -⟩ := persists₂.addrs hg₁
        rw [Search.segOf, hg', Option.map_some, hs, seg₁]
      · rw [Search.segOf, hg₂, Option.map_some, seg₂]
      · exact inv₁.gen3_types second (arcType t' joins.verified joins.defined) (.inr joins.defined)
      · exact markType t' joins.verified joins.defined

end Gen

end ScCore.Store
