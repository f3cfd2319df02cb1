import ScCore.Store.Growth

/-!
# Setting an end

`set_beg`, `set_end` and `change_type` keep the invariant. The counters of
addresses survive as long as no attached end is re-pointed.
-/

namespace ScCore.Store

open Memory TmpSegment

variable {h : Holds} {m m' m'' : Memory} {a x : Addr} {g : GlobalAddr} {s : Endpoint} {ll : ElemId}

structure Persists (m m' : Memory) : Prop where
  addrs : ∀ {b g}, m.addrs b = some g →
    ∃ g', m'.addrs b = some g' ∧ g'.seg = g.seg ∧ g'.impl = g.impl ∧ g'.dead = g.dead
  addrOf : ∀ {e b}, m.addrOf e = some b → m'.addrOf e = some b

namespace Persists

theorem refl (m : Memory) : Persists m m := ⟨fun hb => ⟨_, hb, rfl, rfl, rfl⟩, id⟩

theorem trans (p : Persists m m') (p' : Persists m' m'') : Persists m m'' where
  addrs hb := by
    obtain ⟨g', hg', hs', hi', hd'⟩ := p.addrs hb
    obtain ⟨g'', hg'', hs'', hi'', hd''⟩ := p'.addrs hg'
    exact ⟨g'', hg'', hs''.trans hs', hi''.trans hi', hd''.trans hd'⟩
  addrOf he := p'.addrOf (p.addrOf he)

theorem liveAddr (p : Persists m m') {b : Addr} (hb : m.liveAddr b = true) :
    m'.liveAddr b = true := by
  obtain ⟨g, hg, hd⟩ := liveAddr_eq_true.mp hb
  obtain ⟨g', hg', -, -, hd'⟩ := p.addrs hg
  exact liveAddr_eq_true.mpr ⟨g', hg', hd'.trans hd⟩

end Persists

theorem Relabels.persists {P : ElemId → Prop} (r : Relabels P m m') : Persists m m' where
  addrs hb := ⟨_, r.addrs ▸ hb, rfl, rfl, rfl⟩
  addrOf he := r.addrOf _ ▸ he

theorem Relinks.persists (r : Relinks m m') : Persists m m' where
  addrs hb := ⟨_, r.addrs ▸ hb, rfl, rfl, rfl⟩
  addrOf he := r.addrOf _ ▸ he

theorem persists_linked (inv : Inv h m) (a : Addr) (seg : SegId) (uri : ScString) :
    Persists m (linked m a seg uri) where
  addrs hb := by
    obtain ⟨g', hg'⟩ := linked_stored a seg uri hb
    obtain ⟨g₀, hg₀, hs, hi, -, hd, -⟩ := linked_addrs hg'
    obtain rfl := Option.some.inj (hb.symm.trans hg₀)
    exact ⟨g', hg', hs, hi, hd⟩
  addrOf he := by
    rw [(adds_linked m a seg uri).addrOf_old (Adds.ne_new inv.toAddrInv he)]
    exact he

theorem persists_created (inv : Inv h m) (seg : SegId) (t : ScType) :
    Persists m (created m seg t) where
  addrs {b g} hb := by
    have hne : b ≠ m.nextAddr := by
      rintro rfl
      simp [inv.unusedAddr] at hb
    exact ⟨g, by rw [created_addrs, if_neg hne, hb], rfl, rfl, rfl⟩
  addrOf he := by
    rw [(adds_created m seg t).addrOf_old (Adds.ne_new inv.toAddrInv he)]
    exact he

/-- The element `ll` stands for `a` in some segment. -/
structure Ensures (h : Holds) (a : Addr) (ll : ElemId) (m m' : Memory) : Prop where
  inv : Inv h m'
  tallied : Tallied m m'
  graph : m'.graph = m.graph
  persists : Persists m m'
  type : ∀ {e l}, m.label e = some l → ∃ l', m'.label e = some l' ∧ l'.type = l.type
  addrOf : m'.addrOf ll = some a

theorem SameTypes.type (t : SameTypes m m') {e : ElemId} {l : Label} (hl : m.label e = some l) :
    ∃ l', m'.label e = some l' ∧ l'.type = l.type := by
  have := t e
  rw [hl, Option.map_some, Option.map_eq_some_iff] at this
  exact this

variable {seg : SegId}

theorem findLink_mem {link : LinkAddr} (hl : g.findLink seg = some link) : link ∈ g.links := by
  unfold GlobalAddr.findLink at hl
  split at hl
  · cases hl
  · next l rest hdrop =>
    split at hl
    · obtain rfl := Option.some.inj hl
      have hmem : l ∈ g.links.dropWhile fun l => decide (l.seg < seg) :=
        hdrop ▸ List.mem_cons_self
      exact (List.dropWhile_sublist _).mem hmem
    · cases hl

theorem newLink_eq {uri : ScString} (ha : m.addrs a = some g) {r : Memory × ElemId}
    (hr : ((GlobalAddr.addLink (createLink m seg uri).1 a ⟨seg, (createLink m seg uri).2⟩).bind
      fun m' => (setElementAddr m' (createLink m seg uri).2 (some a)).bind
        fun m' => some (m', (createLink m seg uri).2)) = some r) :
    r = (linked m a seg uri, m.nextElem) := by
  have hel : (createLink m seg uri).1.elems m.nextElem =
      some { Element.new ScType.empty true false with idtf := uri } := if_pos rfl
  have haddr : (createLink m seg uri).1.addrs a = some g := ha
  have hsnd : (createLink m seg uri).2 = m.nextElem := rfl
  simp only [GlobalAddr.addLink, hsnd, hel, Option.bind_eq_bind, Option.bind_some,
    modifyAddr_eq haddr, setElementAddr] at hr
  have stored : ∀ f, ((createLink m seg uri).1.mapAddr a f).elems m.nextElem =
      some { Element.new ScType.empty true false with idtf := uri } := fun _ => hel
  rw [modifyElem_eq (stored _), Option.bind_some] at hr
  exact (Option.some.inj hr).symm

theorem Inv.ensureLinkTo (inv : Inv h m) (ha : m.addrs a = some g)
    (hr : Session.ensureLinkTo m seg a = some (m', ll)) : Ensures h a ll m m' := by
  simp only [Session.ensureLinkTo, ha, Option.bind_eq_bind, Option.bind_some] at hr
  have same : ∀ {st}, st ∈ g.stores → Ensures h a st.impl m m := fun hst =>
    ⟨inv, Tallied.refl m, rfl, Persists.refl m, fun hl => ⟨_, hl, rfl⟩, inv.stores_addr ha hst⟩
  split at hr
  · obtain ⟨rfl, rfl⟩ := Prod.mk.inj (Option.some.inj hr)
    exact same (List.mem_cons_self : (⟨g.seg, g.impl⟩ : LinkAddr) ∈ g.stores)
  · split at hr
    · next link hlink =>
      obtain ⟨rfl, rfl⟩ := Prod.mk.inj (Option.some.inj hr)
      exact same (List.mem_cons_of_mem _ (findLink_mem hlink))
    · obtain ⟨⟨m₁, str⟩, hm₁, hr⟩ := Option.bind_eq_some_iff.mp hr
      have r₁ := renames_getIdtf hm₁
      have inv₁ := r₁.inv inv
      have ha₁ : m₁.addrs a = some g := r₁.relabels.addrs ▸ ha
      obtain ⟨rfl, rfl⟩ := Prod.mk.inj (newLink_eq ha₁ hr)
      obtain ⟨inv₂, tallied₂⟩ := inv₁.linked ha₁ seg ((m₁.segs g.seg).uri ++ [47] ++ str)
      have ad := adds_linked m₁ a seg ((m₁.segs g.seg).uri ++ [47] ++ str)
      refine ⟨inv₂, r₁.relabels.tallied.trans tallied₂, ?_, ?_, ?_, ad.addrOf_new⟩
      · rw [ad.graph inv₁.toAddrInv, r₁.relabels.graph]
      · exact r₁.relabels.persists.trans (persists_linked inv₁ a seg _)
      · intro e l hl
        obtain ⟨l₁, hl₁, ht₁⟩ := r₁.types.type hl
        refine ⟨l₁, ?_, ht₁⟩
        rw [ad.label_old, hl₁]
        rintro rfl
        simp [label_missing inv₁.unused] at hl₁

theorem Inv.attach (inv : Inv h m) (unheld : ∀ n, h.node n = 0) (hg : m.addrs x = some g)
    (hd : g.dead = false) (typed : ∀ l, m.label g.impl = some l → l.type.isConnector = true)
    (he : m.addrOf ll = some a) (hlive : m.liveAddr a = true)
    (free : m.graph.target g.impl s = none) :
    ∃ m', attachEnd s m g.impl ll = some m' ∧ Inv h m' ∧ Attaches s g.impl ll m m' := by
  obtain ⟨el, hel, hela⟩ := inv.own_stored hg
  obtain ⟨o, ho, -⟩ := stored_of_addrOf he
  obtain ⟨m', hm', gi, at'⟩ := inv.toGraphInv.attach (unheld _) ⟨el, hel⟩ ⟨o, ho⟩ free
  have ai : AddrInv h m' := inv.toAddrInv.relinks at'.relinks
  have hown : m.addrOf g.impl = some x := (addrOf_stored hel).trans hela
  have htarget : ∀ y t, m'.graph.target y t =
      if y = g.impl ∧ t = s then some ll else m.graph.target y t := by
    intro y t
    rw [at'.graph]
    rfl
  refine ⟨m', hm', ?_, at'⟩
  exact {
    toGraphInv := gi
    toAddrInv := ai
    own := fun {b g' st t} hb hst => by
      rw [at'.relinks.addrs] at hb
      have hne : st.impl ≠ g.impl := by
        intro hi
        have hst' : st ∈ g'.stores := List.mem_cons_of_mem _ hst
        obtain rfl : b = x := Option.some.inj ((inv.stores_addr hb hst').symm.trans (hi ▸ hown))
        obtain rfl : g = g' := by simpa [hg] using hb
        exact (List.nodup_cons.mp (inv.nodup hg)).1 (List.mem_map.mpr ⟨st, hst, hi⟩)
      rw [htarget, if_neg fun h' => hne h'.1]
      exact inv.own hb hst
    typed := fun {y t e l} ht hl => by
      rw [at'.relinks.label] at hl
      rw [htarget] at ht
      split at ht
      · next same => exact typed l (same.1 ▸ hl)
      · exact inv.typed ht hl
    dead_free := fun {e b} t heb hdead => by
      rw [at'.relinks.addrOf] at heb
      rw [at'.relinks.liveAddr] at hdead
      obtain ⟨hlist, htg⟩ := inv.dead_free t heb hdead
      constructor
      · rw [at'.graph]
        show (if e = ll ∧ t = s then _ else m.graph.listed e t) = []
        rw [if_neg, hlist]
        rintro ⟨rfl, -⟩
        obtain rfl := Option.some.inj (he.symm.trans heb)
        simp [hlive] at hdead
      · rw [htarget, if_neg, htg]
        rintro ⟨rfl, -⟩
        obtain rfl := Option.some.inj (hown.symm.trans heb)
        rw [liveAddr_eq_true.mpr ⟨g, hg, hd⟩] at hdead
        cases hdead
    held_detached := fun {n} _ _ _ _ _ hh => by
      rw [unheld n] at hh
      cases hh }

/-- What setting the end `s` of the arc `x` to the address `a` does. -/
structure Sets (h : Holds) (s : Endpoint) (x : Addr) (g : GlobalAddr) (m m' : Memory) : Prop where
  inv : Inv h m'
  tallied : m.graph.target g.impl s = none → Tallied m m'
  covered : Covered m → Covered m'
  persists : Persists m m'
  target : ∀ y t, ¬(y = g.impl ∧ t = s) → m'.graph.target y t = m.graph.target y t

/-- The end `s` of the element `arc` now is an element that stands for `a` in the segment. -/
structure Lands (s : Endpoint) (arc : ElemId) (a : Addr) (seg : SegId) (m m' : Memory) :
    Prop where
  via : ∃ m₁ ll m₂, Session.ensureLinkTo m seg a = some (m₁, ll) ∧ Relinks m₁ m₂ ∧
    m' = addQnt m₂ a s 1
  target : ∃ ll, m'.graph.target arc s = some ll ∧ m'.addrOf ll = some a
  frame : ∀ y t, ¬(y = arc ∧ t = s) → m'.graph.target y t = m.graph.target y t
  persists : Persists m m'
  type : ∀ {e l}, m.label e = some l → ∃ l', m'.label e = some l' ∧ l'.type = l.type
  ensured : ∃ m₁ ll, Session.ensureLinkTo m seg a = some (m₁, ll) ∧
    m'.graph.target arc s = some ll

theorem persists_addQnt (b : Addr) (d : Int) : Persists m (addQnt m b s d) where
  addrs {c g} hc := by
    simp only [addQnt, mapAddr_addrs, hc]
    split <;> exact ⟨_, rfl, rfl, rfl, rfl⟩
  addrOf := id

theorem Inv.linkEnd (inv : Inv h m) (unheld : ∀ n, h.node n = 0) (hg : m.addrs x = some g)
    (hd : g.dead = false) (typed : ∀ l, m.label g.impl = some l → l.type.isConnector = true)
    (hlive : m.liveAddr a = true) (hr : Session.linkEnd s m seg g.impl a = some m') :
    Sets h s x g m m' ∧ Lands s g.impl a seg m m' := by
  simp only [Session.linkEnd, Option.bind_eq_bind, Option.bind_eq_some_iff] at hr
  obtain ⟨⟨m₁, ll⟩, hm₁, m₂, hm₂, hr⟩ := hr
  obtain ⟨ga, hga, -⟩ := liveAddr_eq_true.mp hlive
  have en := inv.ensureLinkTo hga hm₁
  obtain ⟨g₁, hg₁, hs₁, hi₁, hd₁⟩ := en.persists.addrs hg
  obtain ⟨el, hel, hela⟩ := en.inv.own_stored hg₁
  rw [setEndpoint_some] at hm₂
  obtain ⟨m₁', hm₁', gi, c⟩ := en.inv.toGraphInv.clear (s := s) (hi₁ ▸ hel)
  rw [hm₁', Option.bind_some] at hm₂
  have ai : AddrInv h m₁' := en.inv.toAddrInv.relinks c.relinks
  have inv₁' : Inv h m₁' := en.inv.shrink gi ai c.shrinks
    fun _ hd => (c.relinks.liveAddr _).symm.trans hd
  have hg₁' : m₁'.addrs x = some g₁ := c.relinks.addrs ▸ hg₁
  have typed₁ : ∀ l, m₁'.label g₁.impl = some l → l.type.isConnector = true := by
    intro l hl
    rw [c.relinks.label, hi₁] at hl
    obtain ⟨el₀, hel₀, -⟩ := inv.own_stored hg
    obtain ⟨l₁, hl₁, ht₁⟩ := en.type (label_stored hel₀)
    obtain rfl := Option.some.inj (hl₁.symm.trans hl)
    rw [ht₁]
    exact typed _ (label_stored hel₀)
  have hll : m₁'.addrOf ll = some a := (c.relinks.addrOf ll).trans en.addrOf
  have hlive₁ : m₁'.liveAddr a = true :=
    (c.relinks.liveAddr a).trans (en.persists.liveAddr hlive)
  obtain ⟨m₂', hm₂', inv₂, at₂⟩ := inv₁'.attach (s := s) unheld hg₁' (hd₁.trans hd) typed₁ hll
    hlive₁ (by simp [c.target, hi₁])
  obtain rfl : m₂' = m₂ := Option.some.inj (hm₂'.symm.trans (hi₁ ▸ hm₂))
  obtain ⟨ga₂, hga₂, -⟩ := liveAddr_eq_true.mp ((at₂.relinks.liveAddr a).trans hlive₁)
  rw [upQnt_eq hga₂] at hr
  obtain rfl := Option.some.inj hr
  have shift : Tallied m₁' (ScCore.Store.addQnt m₂' a s 1) :=
    Tallied.shift inv₁'.toAddrInv hll at₂.relinks.addrs at₂.qnt
  have htarget : ∀ y t, m₂'.graph.target y t =
      if y = g.impl ∧ t = s then some ll else m₁'.graph.target y t := by
    rw [at₂.graph, hi₁]
    exact fun _ _ => rfl
  have relinks : Relinks m₁ m₂' := c.relinks.trans at₂.relinks
  have persists : Persists m (ScCore.Store.addQnt m₂' a s 1) :=
    (en.persists.trans relinks.persists).trans (persists_addQnt a 1)
  have frame : ∀ y t, ¬(y = g.impl ∧ t = s) → m₂'.graph.target y t = m.graph.target y t := by
    intro y t hne
    rw [htarget, if_neg hne, c.target, if_neg hne, en.graph]
  have target : m₂'.graph.target g.impl s = some ll := (htarget _ _).trans (if_pos ⟨rfl, rfl⟩)
  refine ⟨⟨?_, ?_, ?_, persists, frame⟩, ⟨m₁, ll, m₂', hm₁, relinks, rfl⟩, ⟨ll, target, ?_⟩, frame,
    persists, ?_, m₁, ll, hm₁, target⟩
  · exact inv₂.shrink inv₂.toGraphInv.addQnt inv₂.toAddrInv.addQnt
      (shrinks_addQnt inv₂.toGraphInv) fun _ hd => (liveAddr_addQnt _).symm.trans hd
  · intro hfree
    have hfree₁ : m₁.graph.target g.impl s = none := en.graph ▸ hfree
    refine (en.tallied.trans (Tallied.of_eq c.relinks.addrs fun e t => ?_)).trans shift
    rw [c.qnt, hfree₁]
    simp
  · intro covered
    -- The element that loses the arc counts one less, its address does not.
    refine shift.covered ((en.tallied.covered covered).loosen c.relinks.addrs fun e t => ?_)
    rw [c.qnt]
    split <;> omega
  · exact (at₂.relinks.addrOf ll).trans hll
  · intro e l hl
    obtain ⟨l₁, hl₁, htype⟩ := en.type hl
    exact ⟨l₁, (relinks.label e).trans hl₁, htype⟩

section ChangeType

variable {ss : Session} {w : Waits} {type : ScType} {rv : Retval}

structure Changes (ss : Session) (w : Waits) (a : Addr) (type : ScType) (g : GlobalAddr)
    (t : ScType) (m m' : Memory) : Prop where
  access : ss.access m (some a) = some rvOk
  verify : type.verify = some t
  addr : m.addrs a = some g
  allowed : Session.verifyTypeChanging m a t = some true
  unrefused : w m a .changeTypePre [a] = false
  memory : m' = m.mapElem g.impl fun el => { el with type := t }

theorem changeType_some (hr : ss.changeType w m a type = some (m', rv)) :
    m' = m ∨ ∃ g t, Changes ss w a type g t m m' := by
  simp only [Session.changeType, Option.bind_eq_bind, Option.bind_eq_some_iff] at hr
  obtain ⟨rv₀, haccess, hr⟩ := hr
  split at hr
  · exact .inl (Prod.mk.inj (Option.some.inj hr)).1.symm
  · next hrv =>
    obtain rfl : rv₀ = rvOk := by simpa using hrv
    split at hr
    · exact .inl (Prod.mk.inj (Option.some.inj hr)).1.symm
    · next t ht =>
      obtain ⟨g, hg, hr⟩ := Option.bind_eq_some_iff.mp hr
      obtain ⟨el, hel, hr⟩ := Option.bind_eq_some_iff.mp hr
      split at hr
      · exact .inl (Prod.mk.inj (Option.some.inj hr)).1.symm
      · obtain ⟨allowed, hallowed, hr⟩ := Option.bind_eq_some_iff.mp hr
        split at hr
        · exact .inl (Prod.mk.inj (Option.some.inj hr)).1.symm
        · next hal =>
          split at hr
          · exact .inl (Prod.mk.inj (Option.some.inj hr)).1.symm
          · next hw =>
            rw [TmpSegment.changeType, modifyElem_eq hel] at hr
            obtain ⟨rfl, -⟩ := Prod.mk.inj (Option.some.inj hr)
            refine .inr ⟨g, t, haccess, ht, hg, ?_, by simpa using hw, rfl⟩
            rw [hallowed]
            simpa using hal

theorem Inv.changeType (inv : Inv h m) (hr : ss.changeType w m a type = some (m', rv))
    (keep : ∀ {g t}, Changes ss w a type g t m m' → (∃ s, m.graph.target g.impl s ≠ none) →
      t.isConnector = true) : Inv h m' ∧ Relabels (fun _ => True) m m' := by
  rcases changeType_some hr with rfl | ⟨g, t, ch⟩
  · exact ⟨inv, Relabels.refl _ _⟩
  · have r : Relabels (fun _ => True) m m' := by
      rw [ch.memory]
      exact Relabels.mapElem trivial ⟨fun _ => rfl, fun _ => rfl, fun _ => rfl, fun _ => rfl,
        fun _ => rfl⟩
    refine ⟨r.inv inv fun {x s e l} ht hl => ?_, r⟩
    obtain ⟨el, hel, -⟩ := stored_of_target ht
    have hel' := elems_mapElem (e := g.impl) (fun el => { el with type := t }) hel
    rw [← ch.memory] at hel'
    rw [label_stored hel'] at hl
    obtain rfl := Option.some.inj hl
    by_cases hx : x = g.impl
    · subst hx
      simp only [if_true, Element.label]
      exact keep ch ⟨s, by simp [ht]⟩
    · simp only [hx, if_false]
      exact inv.typed ht (label_stored hel)

end ChangeType

end ScCore.Store
