import ScCore.Search.MovedArcs
import ScCore.Store.Connectors
import ScCore.Store.Untouched
import ScCore.Store.CalmGen

/-!
# Moving all arcs of an element

Each of the two loops of `sc_merge_elements` gives the arcs that an iterator of the system
session yields another end, so the lists that it goes along get shorter under it.
-/

namespace ScCore.Search

open Store Memory TmpSegment

/-! ## The loop -/

/-- The destructor of `meta_iterator`. -/
def MetaIterator.destroy (m : Memory) (it : MetaIterator) : Option Memory := do
  let m ← match it.citer with
    | none => some m
    | some citer => citer.destroy m
  GlobalAddr.unref m it.fromAddr

section Code

variable (w : Waits) (s : Endpoint) (main : Addr)

/-- Nobody looks at what `set_end` and `set_beg` return. -/
def moveLoop : Nat → Memory → MetaIterator → Option (Memory × MetaIterator)
  | 0, _, _ => none
  | fuel + 1, m, it =>
      if it.isOver then some (m, it)
      else do
        let (m, _) ← systemSession.setEnds w s m (it.value 1) (some main)
        let (m, it, _) ← it.next systemSession s m
        moveLoop fuel m it

/-- The arcs that end at `other`, or those that begin there, are given to `main`. -/
def moveArcs (fuel : Nat) (m : Memory) (other : Addr) : Option Memory := do
  let (m, it) ← MetaIterator.create systemSession s m other
  let (m, it) ← moveLoop w s main fuel m it
  it.destroy m

end Code

/-! ## What a moved arc leaves as it is -/

section Frame

variable {h : Holds} {refs : Addr → Nat} {ss : Session} {w : Waits} {s : Endpoint}
  {m m' m'' : Memory} {x y t a b : Addr} {rv : Retval}

variable {seg : SegId}

theorem ensureLinkTo_other {ll : ElemId} (hr : Session.ensureLinkTo m seg t = some (m', ll))
    (other : b ≠ t) : m'.addrs b = m.addrs b := by
  simp only [Session.ensureLinkTo, Option.bind_eq_bind, Option.bind_eq_some_iff] at hr
  obtain ⟨g, hg, hr⟩ := hr
  split at hr
  · cases hr
    rfl
  · split at hr
    · cases hr
      rfl
    · obtain ⟨⟨m₁, str⟩, hm₁, hr⟩ := Option.bind_eq_some_iff.mp hr
      have r := (renames_getIdtf hm₁).relabels
      cases newLink_eq (r.addrs ▸ hg) hr
      rw [← r.addrs]
      exact if_neg other

theorem Lands.other {arc : ElemId} (lands : Lands s arc t seg m m') (other : b ≠ t) :
    m'.addrs b = m.addrs b := by
  obtain ⟨m₁, ll, m₂, hm₁, relinks, rfl⟩ := lands.via
  rw [addQnt, mapAddr_addrs, if_neg other, relinks.addrs]
  exact ensureLinkTo_other hm₁ other

theorem SetStep.other (step : SetStep h ss w s (some x) (some t) m m' rv) (other : b ≠ t) :
    m'.addrs b = m.addrs b := by
  cases step with
  | kept same => rw [same]
  | cleared _ none => cases none
  | attached _ ht _ _ _ relabels _ _ lands =>
    cases ht
    rw [Lands.other lands other, relabels.addrs]

theorem SetStep.targets (step : SetStep h ss w s (some x) (some t) m m' rv) {g : GlobalAddr}
    (hg : m.addrs x = some g) {y : ElemId} {u : Endpoint} (other : ¬(y = g.impl ∧ u = s)) :
    m'.graph.target y u = m.graph.target y u := by
  cases step with
  | kept same => rw [same]
  | cleared _ none => cases none
  | attached hx _ ready _ _ relabels _ _ lands =>
    cases hx
    cases hg.symm.trans ready.addr
    rw [Lands.frame lands y u other, relabels.graph]

theorem SetStep.plain (step : SetStep h ss w .beg (some x) (some t) m m' rv)
    (plain : ∀ type, m.typeOf t = some type → type.isConnector = false) :
    ∀ type, m'.typeOf t = some type → type.isConnector = false := by
  cases step with
  | kept same => exact same ▸ plain
  | cleared _ none => cases none
  | @attached _ _ _ _ m₀ _ ht _ _ inv₀ _ begs _ lands =>
    cases ht
    have same : m'.typeOf t = m₀.typeOf t := by
      apply lands.stays.typeOf
      intro g' hg'
      obtain ⟨el', hel', -⟩ := inv₀.own_stored hg'
      obtain ⟨l', hl', htype⟩ := lands.type (label_stored hel')
      rw [hl', label_stored hel', Option.map_some, Option.map_some, htype]
    rw [same]
    obtain ⟨gt, et, hgt, het, -, ⟨-, rfl⟩ | ⟨-, rv', change⟩⟩ := begs rfl
    · exact plain
    · obtain rfl | ⟨g', t', ch⟩ := changeType_some change
      · exact plain
      · cases hgt.symm.trans ch.addr
        intro type htype
        have hgt' : m₀.addrs t = some gt := by
          rw [ch.memory]
          exact hgt
        rw [Memory.typeOf, hgt', Option.bind_some, ch.memory, mapElem_elems, if_pos rfl, het]
          at htype
        rw [← Option.some.inj htype]
        show t'.isConnector = false
        rw [ScType.isConnector_verify ch.verify, ScType.isConnector_asNode]

/-- Ends `s` at `a` have been moved to `t`, and nothing else has changed at the addresses, except
that `t` may have become a node. -/
structure Redirects (refs : Addr → Nat) (s : Endpoint) (a t : Addr) (m m' : Memory) : Prop where
  steady : Steady ⟨m', refs⟩
  stays : Stays m m'
  addr : m'.addrs a = m.addrs a
  sides : ∀ x u, u ≠ s → m'.endOf x u = m.endOf x u
  ends : ∀ x, m'.endOf x s = m.endOf x s ∨ m.endOf x s = some a ∧ m'.endOf x s = some t
  types : ∀ y type, m.typeOf y = some type → type.isConnector = true ∨ y ≠ t →
    m'.typeOf y = some type
  plain : (∀ type, m.typeOf t = some type → type.isConnector = false) →
    ∀ type, m'.typeOf t = some type → type.isConnector = false

namespace Redirects

theorem refl (steady : Steady ⟨m, refs⟩) : Redirects refs s a t m m :=
  ⟨steady, Stays.refl m, rfl, fun _ _ _ => rfl, fun _ => .inl rfl, fun _ _ type _ => type,
    fun plain => plain⟩

theorem trans (r : Redirects refs s a t m m') (r' : Redirects refs s a t m' m'') :
    Redirects refs s a t m m'' where
  steady := r'.steady
  stays := r.stays.trans r'.stays
  addr := r'.addr.trans r.addr
  sides x u other := (r'.sides x u other).trans (r.sides x u other)
  ends x := by
    obtain same | ⟨at', moved⟩ := r'.ends x
    · rw [same]
      exact r.ends x
    · obtain same' | ⟨at₀, -⟩ := r.ends x
      · exact .inr ⟨same' ▸ at', moved⟩
      · exact .inr ⟨at₀, moved⟩
  types y type htype kept := r'.types y type (r.types y type htype kept) kept
  plain h := r'.plain (r.plain h)

theorem single (steady : Steady ⟨m, refs⟩) (there : m.endOf x s = some a) (other : a ≠ t)
    (hr : ss.setEnds w s m (some x) (some t) = some (m', rvOk)) :
    Redirects refs s a t m m' ∧ m'.endOf x s = some t := by
  have inv : Inv (clientHolds refs) m := steady.inv
  obtain ⟨-, step, -⟩ := inv.setEnds (fun _ => rfl) hr
  have moves := step.moves inv
  obtain ⟨x', same, moved⟩ := step.there inv rfl
  cases same
  refine ⟨⟨steady.setEnds hr, moves.stays, SetStep.other step other, ?_, ?_, ?_, ?_⟩, moved⟩
  · intro y u side
    exact moves.endOf y u fun both => side both.2
  · intro y
    by_cases hy : y = x
    · subst hy
      exact .inr ⟨there, moved⟩
    · exact .inl (moves.endOf y s fun both => hy (Option.some.inj both.1).symm)
  · intro y type htype kept
    rw [moves.typeOf y fun hs ht => ?_, htype]
    cases hs
    cases ht
    obtain connector | kept := kept
    · have none : m' = m := SetStep.connector step htype connector
      rw [none] at moved
      exact absurd (Option.some.inj (there.symm.trans moved)) other
    · exact absurd rfl kept
  · intro plain
    cases s with
    | beg => exact SetStep.plain step plain
    | fin =>
      rw [moves.typeOf t nofun]
      exact plain

end Redirects

end Frame

/-! ## The iterator while its lists get shorter -/

section Lists

variable {h : Holds} {m m' p : Memory} {e : ElemId} {s : Endpoint} {n : NodeId} {a b : Addr}
  {g : GlobalAddr}

theorem length_arcsOf (inv : Inv h m) (unheld : ∀ n, h.node n = 0) {l : List NodeId}
    (listed : ∀ k ∈ l, k ∈ m.graph.listed e s) : (arcsOf m l).length = l.length := by
  induction l with
  | nil => rfl
  | cons k l ih =>
    obtain ⟨lk, -, v, -, -, -, -, live, hv, -⟩ :=
      inv.arc_of_unheld (listed k List.mem_cons_self) (unheld k)
    rw [arcsOf_live live hv, List.length_cons, List.length_cons,
      ih fun k' hk' => listed k' (List.mem_cons_of_mem _ hk')]

theorem stands_first (inv : Inv h m) (unheld : ∀ n, h.node n = 0)
    (stands : Stands m s e (n, b)) (all : ahead m s e (some (n, b)) =
      arcsOf m (m.graph.listed e s)) :
    m.graph.listed e s = n :: TmpIterator.after n (m.graph.listed e s) := by
  obtain ⟨front, split⟩ : ∃ front, m.graph.listed e s =
      front ++ n :: TmpIterator.after n (m.graph.listed e s) := split_after stands.1
  have behind : (arcsOf m (TmpIterator.after n (m.graph.listed e s))).length =
      (TmpIterator.after n (m.graph.listed e s)).length :=
    length_arcsOf inv unheld fun k hk => ListInv.mem_after hk
  have whole := congrArg List.length all
  rw [length_arcsOf inv unheld fun k hk => hk, ahead, List.length_cons, behind] at whole
  have lengths := congrArg List.length split
  rw [List.length_append, List.length_cons] at lengths
  have none : front = [] := List.length_eq_zero_iff.mp (by omega)
  rw [none] at split
  exact split

theorem listed_nil_of_arcs (inv : Inv h m) (unheld : ∀ n, h.node n = 0)
    (none : arcsOf m (m.graph.listed e s) = []) : m.graph.listed e s = [] := by
  have lengths := length_arcsOf inv unheld (l := m.graph.listed e s) fun k hk => hk
  rw [none] at lengths
  exact List.length_eq_zero_iff.mp lengths.symm

inductive Facing (s : Endpoint) (m : Memory) (a : Addr) (g : GlobalAddr) :
    Memory → MetaIterator → Prop
  | ended (rest : List LinkAddr) (used : ∀ st ∈ g.stores, m.graph.listed st.impl s = []) :
      Facing s m a g m ⟨rest, none, a⟩
  | on {done rest : List LinkAddr} {st : LinkAddr} {n : NodeId} {b : Addr} {post : List NodeId}
      (split : g.stores = done ++ st :: rest)
      (used : ∀ st' ∈ done, m.graph.listed st'.impl s = [])
      (first : m.graph.listed st.impl s = n :: post) (stands : Stands m s st.impl (n, b)) :
      Facing s m a g (held m (some (n, b))) ⟨rest, some ⟨st.impl, s, some (n, b)⟩, a⟩

variable {done : List LinkAddr} {st : LinkAddr}

theorem used_concat (used : ∀ st ∈ done, m.graph.listed st.impl s = [])
    (nothing : m.graph.listed st.impl s = []) :
    ∀ st' ∈ done ++ [st], m.graph.listed st'.impl s = [] := by
  intro st' hst
  obtain hst | hst := List.mem_append.mp hst
  · exact used st' hst
  · rw [List.mem_singleton.mp hst]
    exact nothing

theorem again_facing (inv : Inv h m) (unheld : ∀ n, h.node n = 0) (whole : Whole m)
    (hg : m.addrs a = some g) (done : List LinkAddr) {l : List LinkAddr}
    (split : g.stores = done ++ l)
    (used : ∀ st ∈ done, m.graph.listed st.impl s = []) :
    ∃ p rest citer rv, MetaIterator.again systemSession s m l = some (p, rest, citer, rv) ∧
      Facing s m a g p ⟨rest, citer, a⟩ := by
  induction l generalizing done with
  | nil =>
    rw [List.append_nil] at split
    exact ⟨m, [], none, rvElseGen, rfl, .ended [] (split ▸ used)⟩
  | cons link l ih =>
    have mem : link ∈ g.stores := split ▸ List.mem_append_right _ List.mem_cons_self
    have opened : systemSession.opened link.seg = true := rfl
    obtain ⟨curr, hcreate, arcs, stands⟩ := (walkable (s := s) whole hg mem).create
    cases curr with
    | none =>
      have nothing := listed_nil_of_arcs inv unheld arcs.symm
      obtain ⟨p, rest, citer, rv, hagain, facing⟩ := ih (done ++ [link])
        (by rw [split, List.append_assoc]; rfl) (used_concat used nothing)
      refine ⟨p, rest, citer, rv, ?_, facing⟩
      simp [MetaIterator.again, opened, hcreate, TmpIterator.isOver, TmpIterator.destroy, held,
        hagain]
    | some c =>
      obtain ⟨n, b⟩ := c
      refine ⟨held m (some (n, b)), l, some ⟨link.impl, s, some (n, b)⟩, rvOk, ?_,
        .on split used (stands_first inv unheld (stands _ rfl) arcs) (stands _ rfl)⟩
      simp [MetaIterator.again, opened, hcreate, TmpIterator.isOver]

theorem next_facing (inv : Inv h m') (unheld : ∀ n, h.node n = 0) (whole : Whole m')
    (hg : m'.addrs a = some g) {rest : List LinkAddr} {post : List NodeId}
    (split : g.stores = done ++ st :: rest) (used : ∀ st' ∈ done, m'.graph.listed st'.impl s = [])
    (parked : Parked m' p st.impl s n b [] post)
    (there : ∃ gb, m'.addrs b = some gb ∧ 0 < gb.refcnt) :
    ∃ p' it rv, MetaIterator.next systemSession s p ⟨rest, some ⟨st.impl, s, some (n, b)⟩, a⟩ =
      some (p', it, rv) ∧ Facing s m' a g p' it := by
  obtain ⟨gb, hgb, pos⟩ := there
  have mem : st ∈ g.stores := split ▸ List.mem_append_right _ List.mem_cons_self
  obtain ⟨curr, hnext, arcs, stands⟩ := parked.next (walkable whole hg mem) hgb pos
  have listed : m'.graph.listed st.impl s = post := parked.listed.1
  cases curr with
  | none =>
    have nothing : m'.graph.listed st.impl s = [] :=
      listed_nil_of_arcs inv unheld (listed ▸ arcs.symm)
    obtain ⟨p', rest', citer, rv, hagain, facing⟩ := again_facing inv unheld whole hg
      (done ++ [st]) (l := rest) (by rw [split, List.append_assoc]; rfl) (used_concat used nothing)
    have hagain' : MetaIterator.again systemSession s (held m' none) rest =
        some (p', rest', citer, rv) := hagain
    refine ⟨p', ⟨rest', citer, a⟩, rv, ?_, facing⟩
    simp [MetaIterator.next, TmpIterator.isOver, hnext, TmpIterator.destroy, hagain']
  | some c =>
    obtain ⟨k, c⟩ := c
    have first := stands_first inv unheld (stands _ rfl) (arcs.trans (by rw [listed]))
    refine ⟨held m' (some (k, c)), ⟨rest, some ⟨st.impl, s, some (k, c)⟩, a⟩, rvOk, ?_,
      .on split used first (stands _ rfl)⟩
    simp [MetaIterator.next, TmpIterator.isOver, hnext]

end Lists

/-! ## The run of the loop -/

section Run

variable {refs : Addr → Nat} {s : Endpoint} {m m' p p' : Memory} {a b t x : Addr} {g : GlobalAddr}
  {it it' : MetaIterator} {fuel : Nat} {rv : Retval}

theorem refs_of_live (steady : Steady ⟨m, refs⟩) (live : m.liveAddr b = true) :
    ∃ g, m.addrs b = some g ∧ 0 < g.refcnt := by
  have inv : Inv (clientHolds refs) m := steady.inv
  obtain ⟨g, hg, hd⟩ := liveAddr_eq_true.mp live
  have counted := inv.addr_refs hg
  rw [hd, if_neg Bool.false_ne_true, refcntBarrier] at counted
  exact ⟨g, hg, by omega⟩

theorem used_of_moved (steady : Steady ⟨m, refs⟩) (hg : m.addrs a = some g) {gb : GlobalAddr}
    (hb : m.addrs b = some gb) (moved : m'.endOf b s = some t) (other : a ≠ t)
    (redirect : Redirects refs s a t m m')
    (targets : ∀ y, y ≠ gb.impl → m'.graph.target y s = m.graph.target y s) {st : LinkAddr}
    (hst : st ∈ g.stores) (used : m.graph.listed st.impl s = []) :
    m'.graph.listed st.impl s = [] := by
  have inv : Inv (clientHolds refs) m := steady.inv
  have inv' : Inv (clientHolds refs) m' := redirect.steady.inv
  rw [List.eq_nil_iff_forall_not_mem]
  intro k hk
  obtain ⟨lk, -, -, -, -, -, -, harc, -⟩ := inv'.arc_of_unheld hk rfl
  have target := (inv'.coherent.listed_target hk harc).1
  by_cases same : lk.value = gb.impl
  · obtain ⟨gb', hb', -, hi, -⟩ := redirect.stays.persists.addrs hb
    have hg' : m'.addrs a = some g := redirect.addr.trans hg
    rw [endOf_target hb', hi, ← same, target, Option.bind_some, inv'.stores_addr hg' hst] at moved
    exact other (Option.some.inj moved)
  · rw [targets lk.value same] at target
    obtain ⟨n, hn, -⟩ := inv.coherent.target_listed target
    rw [used] at hn
    cases hn

theorem moveLoop_moves (steady : Steady ⟨m, refs⟩) (hg : m.addrs a = some g) (other : a ≠ t)
    (live : m.liveAddr t = true)
    (accepts : s = .beg → ∀ type, m.typeOf t = some type → type.isConnector = false)
    (facing : Facing s m a g p it) (hr : moveLoop noWaits s t fuel p it = some (p', it')) :
    (∃ rest, it' = ⟨rest, none, a⟩) ∧ Redirects refs s a t m p' ∧ ∀ x, p'.endOf x s ≠ some a := by
  induction fuel generalizing m p it with
  | zero => cases hr
  | succ fuel ih =>
    have inv : Inv (clientHolds refs) m := steady.inv
    have whole : Whole m := inv.whole (fun _ => rfl) steady.housed
    rw [moveLoop] at hr
    cases facing with
    | ended rest used =>
      cases hr
      refine ⟨⟨rest, rfl⟩, Redirects.refl steady, fun x hend => ?_⟩
      obtain ⟨st, hst, -, hx⟩ := listed_of_end whole hg hend
      rw [used st hst] at hx
      cases hx
    | @on done rest st n b post split used first stands =>
      obtain ⟨⟨p₁, rv⟩, hset, rest₁⟩ := Option.bind_eq_some_iff.mp hr
      obtain ⟨⟨p₂, it₂, rv₂⟩, hnext, loop⟩ := Option.bind_eq_some_iff.mp rest₁
      have mem : st ∈ g.stores := split ▸ List.mem_append_right _ List.mem_cons_self
      have he : m.addrOf st.impl = some a := whole.stores_addr hg mem
      obtain ⟨listed, l, hl, hb⟩ : n ∈ m.graph.listed st.impl s ∧
        ∃ l, m.nodes n = some l ∧ m.addrOf l.value = some b := stands
      obtain ⟨l', -, v, hl', -, -, -, harc, hv, alive⟩ := inv.arc_of_unheld listed rfl
      cases hl.symm.trans hl'
      cases hb.symm.trans hv
      have target := (inv.coherent.listed_target listed harc).1
      obtain ⟨gb, hgb, himpl⟩ := arc_own whole target hb
      rw [← himpl] at harc target
      have there : m.endOf b s = some a := by rw [endOf_target hgb, target, Option.bind_some, he]
      have split' : m.graph.listed st.impl s = [] ++ n :: post := first
      have beside := setEnds_held inv (fun _ => rfl) split' harc hgb he other hset
      generalize hm : systemSession.setEnds noWaits s m (some b) (some t) = r at beside
      cases beside with
      | refused _ failed =>
        refine absurd (setEnds_ok hm ?_ ?_ ?_ ?_ ?_) failed
        · obtain ⟨gb', hgb', hd⟩ := liveAddr_eq_true.mp alive
          exact access_ok.mpr ⟨gb', hgb', hd, rfl⟩
        · intro type htype
          obtain ⟨el, hel, -⟩ := inv.own_stored hgb
          rw [typeOf_label hgb, label_stored hel, Option.map_some] at htype
          exact Option.some.inj htype ▸ inv.typed target (label_stored hel)
        · exact setPre_of_calm fun _ _ _ _ => rfl
        · intro t' same
          cases same
          obtain ⟨gt, hgt, hd⟩ := liveAddr_eq_true.mp live
          exact access_ok.mpr ⟨gt, hgt, hd, rfl⟩
        · intro hs t' type same htype
          cases same
          exact accepts hs type htype
      | @moved m' ok parked =>
        subst ok
        obtain ⟨redirect, moved⟩ := Redirects.single steady there other hm
        have step := (inv.setEnds (fun _ => rfl) hm).2.1
        have inv' : Inv (clientHolds refs) m' := redirect.steady.inv
        have hg' : m'.addrs a = some g := redirect.addr.trans hg
        have used' : ∀ st' ∈ done, m'.graph.listed st'.impl s = [] := fun st' hst' =>
          used_of_moved steady hg hgb moved other redirect
            (fun y hy => SetStep.targets step hgb fun both => hy both.1)
            (split ▸ List.mem_append_left _ hst') (used st' hst')
        obtain ⟨p₂', it₂', rv₂', hnext', facing'⟩ := next_facing inv' (fun _ => rfl)
          (inv'.whole (fun _ => rfl) redirect.steady.housed) hg' split used' parked
          (refs_of_live redirect.steady ((redirect.stays.liveAddr b).trans alive))
        cases hnext.symm.trans hnext'
        obtain ⟨ended, rest', none⟩ := ih redirect.steady hg'
          ((redirect.stays.liveAddr t).trans live) (fun hs => redirect.plain (accepts hs)) facing'
          loop
        exact ⟨ended, redirect.trans rest', none⟩

variable {type : ScType} {f : GlobalAddr → GlobalAddr}

/-- `set_beg` refuses to begin an arc at a connector, whatever the memory is like. -/
theorem setBeg_connector {ss : Session} {w : Waits} (htype : m.typeOf t = some type)
    (connector : type.isConnector = true)
    (hr : ss.setEnds w .beg m (some x) (some t) = some (m', rv)) : m' = m := by
  cases setEnds_some hr with
  | refused same => exact same
  | works _ both _ _ core =>
    obtain same | plain := setBegCore_passes core
    · exact same
    · have access := (accessBoth_ok both).2 t rfl
      obtain ⟨gt, hgt, hel⟩ := Option.bind_eq_some_iff.mp htype
      obtain ⟨et, het, rfl⟩ := Option.map_eq_some_iff.mp hel
      have read : ss.getType m t = some et.type := by
        simp [Session.getType, access, hgt, het]
      rw [plain t et.type rfl read] at connector
      cases connector

theorem typeOf_held (c : Option (NodeId × Addr)) : (held m c).typeOf x = m.typeOf x := by
  obtain ⟨k, hk⟩ := held_addrs m c x
  rw [Memory.typeOf, Memory.typeOf, hk, held_elems]
  cases m.addrs x <;> rfl

theorem moveLoop_refused (htype : m.typeOf t = some type) (connector : type.isConnector = true)
    {rest : List LinkAddr} {citer : Option TmpIterator} {arcs : List Addr} {w : Waits}
    (rests : MetaIterator.Rests systemSession .beg m a p rest citer arcs)
    (hr : moveLoop w .beg t fuel p ⟨rest, citer, a⟩ = some (p', it')) :
    (∃ rest, it' = ⟨rest, none, a⟩) ∧ p' = m := by
  induction fuel generalizing p rest citer arcs with
  | zero => cases hr
  | succ fuel ih =>
    rw [moveLoop] at hr
    cases citer with
    | none =>
      cases rests
      cases hr
      exact ⟨⟨rest, rfl⟩, rfl⟩
    | some citer =>
      obtain ⟨⟨p₁, rv⟩, hset, rest₁⟩ := Option.bind_eq_some_iff.mp hr
      obtain ⟨⟨p₂, it₂, rv₂⟩, hnext, loop⟩ := Option.bind_eq_some_iff.mp rest₁
      obtain ⟨b, left, m'', ⟨rest', citer', _⟩, rv', -, value, hnext', rfl, rests'⟩ :=
        MetaIterator.next_rests rests
      have same : p.typeOf t = m.typeOf t := by
        cases rests
        exact typeOf_held _
      rw [value] at hset
      obtain rfl := setBeg_connector (same.trans htype) connector hset
      cases hnext.symm.trans hnext'
      exact ih rests' loop

theorem mapAddr_endOf (hf : ∀ g, (f g).impl = g.impl) :
    (m.mapAddr a f).endOf x s = m.endOf x s := by
  rw [Memory.endOf, Memory.endOf, mapAddr_addrs]
  split
  · cases m.addrs x with
    | none => rfl
    | some g =>
      rw [Option.map_some, Option.bind_some, Option.bind_some, hf]
      rfl
  · rfl

theorem mapAddr_typeOf (hf : ∀ g, (f g).impl = g.impl) : (m.mapAddr a f).typeOf x = m.typeOf x := by
  rw [Memory.typeOf, Memory.typeOf, mapAddr_addrs]
  split
  · cases m.addrs x with
    | none => rfl
    | some g =>
      rw [Option.map_some, Option.bind_some, Option.bind_some, hf]
      rfl
  · rfl

theorem Steady.ref (steady : Steady ⟨m, refs⟩) (hg : m.addrs a = some g) :
    Steady ⟨m.mapAddr a fun g => { g with refcnt := g.refcnt + 1 },
      fun b => if b = a then refs b + 1 else refs b⟩ := by
  have exec : (Op.ref a).exec systemSession noWaits 0 ⟨m, refs⟩ =
      some ⟨m.mapAddr a fun g => { g with refcnt := g.refcnt + 1 },
        fun b => if b = a then refs b + 1 else refs b⟩ := by
    rw [Op.exec, GlobalAddr.ref, modifyAddr_eq hg]
    rfl
  refine Steady.exec steady ?_ exec
  trivial

theorem Steady.unref (steady : Steady ⟨m, fun b => if b = a then refs b + 1 else refs b⟩)
    (hr : GlobalAddr.unref m a = some m') : Steady ⟨m', refs⟩ := by
  have back : (fun b => if b = a then (if b = a then refs b + 1 else refs b) - 1 else
      if b = a then refs b + 1 else refs b) = refs := by
    funext b
    split <;> rfl
  have exec : (Op.unref a).exec systemSession noWaits 0
      ⟨m, fun b => if b = a then refs b + 1 else refs b⟩ = some ⟨m', refs⟩ := by
    simp [Op.exec, hr, back]
  refine Steady.exec steady ?_ exec
  trivial

theorem create_facing (steady : Steady ⟨m, refs⟩) (hg : m.addrs a = some g) :
    ∃ p it, MetaIterator.create systemSession s m a = some (p, it) ∧
      Facing s (m.mapAddr a fun g => { g with refcnt := g.refcnt + 1 }) a
        { g with refcnt := g.refcnt + 1 } p it := by
  have steady' := Steady.ref steady hg
  have inv' : Inv _ (m.mapAddr a fun g => { g with refcnt := g.refcnt + 1 }) := steady'.inv
  have whole' := inv'.whole (fun _ => rfl) steady'.housed
  have hg' : (m.mapAddr a fun g => { g with refcnt := g.refcnt + 1 }).addrs a =
      some { g with refcnt := g.refcnt + 1 } := by
    rw [mapAddr_addrs, if_pos rfl, hg]
    rfl
  have split : ({ g with refcnt := g.refcnt + 1 } : GlobalAddr).stores =
      [] ++ ⟨g.seg, g.impl⟩ :: g.links := rfl
  have href := modifyAddr_eq (f := fun g => { g with refcnt := g.refcnt + 1 }) hg
  obtain ⟨curr, hcreate, arcs, stands⟩ := (walkable (s := s) whole' hg' List.mem_cons_self).create
  cases curr with
  | none =>
    have nothing := listed_nil_of_arcs inv' (fun _ => rfl) arcs.symm
    obtain ⟨p, rest, citer, rv, hagain, facing⟩ := again_facing inv' (fun _ => rfl) whole'
      hg' [⟨g.seg, g.impl⟩] (l := g.links) rfl fun st hst => by
        rw [List.mem_singleton.mp hst]
        exact nothing
    refine ⟨p, ⟨rest, citer, a⟩, ?_, facing⟩
    simp [MetaIterator.create, GlobalAddr.ref, hg, href, hcreate, TmpIterator.isOver,
      MetaIterator.next, TmpIterator.destroy, held, hagain]
  | some c =>
    obtain ⟨n, b⟩ := c
    refine ⟨_, ⟨g.links, some ⟨g.impl, s, some (n, b)⟩, a⟩, ?_, .on split
      (fun _ h => absurd h List.not_mem_nil)
      (stands_first inv' (fun _ => rfl) (stands _ rfl) arcs) (stands _ rfl)⟩
    simp [MetaIterator.create, GlobalAddr.ref, hg, href, hcreate, TmpIterator.isOver]

end Run

/-! ## All arcs of an element -/

section All

variable {refs : Addr → Nat} {s : Endpoint} {m m' : Memory} {a t : Addr} {fuel : Nat}

/-- What a loop over the arcs that end at `a`, or over those that begin there, comes to. -/
inductive Moved (refs : Addr → Nat) (s : Endpoint) (a t : Addr) (m m' : Memory) : Prop
  | refused {type : ScType} (beg : s = .beg) (htype : m.typeOf t = some type)
      (connector : type.isConnector = true) (same : m' = m)
  | all (plain : s = .beg → ∀ type, m.typeOf t = some type → type.isConnector = false)
      (redirects : Redirects refs s a t m m') (none : ∀ x, m'.endOf x s ≠ some a)

theorem Redirects.released {g : GlobalAddr} {p : Memory}
    (hg : m.addrs a = some g) (pos : 0 < g.refcnt)
    (r : Redirects (fun b => if b = a then refs b + 1 else refs b) s a t
      (m.mapAddr a fun g => { g with refcnt := g.refcnt + 1 }) p)
    (hr : GlobalAddr.unref p a = some m') :
    Redirects refs s a t m m' ∧ ∀ x u, m'.endOf x u = p.endOf x u := by
  have hp : p.addrs a = some { g with refcnt := g.refcnt + 1 } := by
    rw [r.addr, mapAddr_addrs, if_pos rfl, hg]
    rfl
  have kept : g.refcnt + 1 - 1 ≠ 0 := by omega
  have release : m' = p.mapAddr a fun g => { g with refcnt := g.refcnt - 1 } := by
    simp only [GlobalAddr.unref, hp, modifyAddr_eq hp, Option.bind_eq_bind, Option.bind_some,
      if_neg kept] at hr
    exact (Option.some.inj hr).symm
  have endBefore : ∀ x u, (m.mapAddr a fun g => { g with refcnt := g.refcnt + 1 }).endOf x u =
      m.endOf x u := fun x u => mapAddr_endOf fun _ => rfl
  have endAfter : ∀ x u, m'.endOf x u = p.endOf x u := fun x u =>
    release ▸ mapAddr_endOf fun _ => rfl
  have typeBefore : ∀ y, (m.mapAddr a fun g => { g with refcnt := g.refcnt + 1 }).typeOf y =
      m.typeOf y := fun y => mapAddr_typeOf fun _ => rfl
  have typeAfter : ∀ y, m'.typeOf y = p.typeOf y := fun y =>
    release ▸ mapAddr_typeOf fun _ => rfl
  refine ⟨⟨Steady.unref r.steady hr, ?_, ?_, ?_, ?_, ?_, ?_⟩, endAfter⟩
  · have before : Stays m (m.mapAddr a fun g => { g with refcnt := g.refcnt + 1 }) :=
      stays_mapAddr fun _ => ⟨rfl, rfl, rfl⟩
    have after : Stays p m' := release ▸ stays_mapAddr fun _ => ⟨rfl, rfl, rfl⟩
    exact (before.trans r.stays).trans after
  · rw [release, mapAddr_addrs, if_pos rfl, hp, hg, Option.map_some]
    simp
  · intro x u other
    rw [endAfter, r.sides x u other, endBefore]
  · intro x
    rw [endAfter, ← endBefore x s]
    exact r.ends x
  · intro y type htype kept
    rw [typeAfter]
    exact r.types y type ((typeBefore y).trans htype) kept
  · intro plain type htype
    exact r.plain (fun type' htype' => plain type' ((typeBefore t).symm.trans htype')) type
      ((typeAfter t).symm.trans htype)

theorem moveArcs_moved (steady : Steady ⟨m, refs⟩) (alive : m.liveAddr a = true) (other : a ≠ t)
    (live : m.liveAddr t = true) (hr : moveArcs noWaits s t fuel m a = some m') :
    Moved refs s a t m m' := by
  have inv : Inv (clientHolds refs) m := steady.inv
  obtain ⟨g, hg, pos⟩ := refs_of_live steady alive
  obtain ⟨⟨p, it⟩, hcreate, rest⟩ := Option.bind_eq_some_iff.mp hr
  obtain ⟨⟨p', it'⟩, loop, destroy⟩ := Option.bind_eq_some_iff.mp rest
  have hg' : (m.mapAddr a fun g => { g with refcnt := g.refcnt + 1 }).addrs a =
      some { g with refcnt := g.refcnt + 1 } := by
    rw [mapAddr_addrs, if_pos rfl, hg]
    rfl
  obtain ⟨gt, hgt, hd⟩ := liveAddr_eq_true.mp live
  obtain ⟨el, hel, -⟩ := inv.own_stored hgt
  have htype : m.typeOf t = some el.type := by
    rw [typeOf_label hgt, label_stored hel]
    rfl
  have types : (m.mapAddr a fun g => { g with refcnt := g.refcnt + 1 }).typeOf t = m.typeOf t :=
    mapAddr_typeOf fun _ => rfl
  by_cases refused : s = .beg ∧ el.type.isConnector = true
  · obtain ⟨rfl, connector⟩ := refused
    have whole : Whole m := inv.whole (fun _ => rfl) steady.housed
    obtain ⟨p₀, rest₀, citer, hcreate', rests⟩ := MetaIterator.create_rests systemSession .beg
      hg fun st hst => walkable_of_whole whole hg hst
    cases hcreate.symm.trans hcreate'
    obtain ⟨⟨rest', rfl⟩, rfl⟩ := moveLoop_refused (types.trans htype) connector rests loop
    have back : GlobalAddr.unref (m.mapAddr a fun g => { g with refcnt := g.refcnt + 1 }) a =
        some m := unref_addr hg pos
    exact .refused rfl htype connector (Option.some.inj (destroy.symm.trans back))
  · have plain : s = .beg → ∀ type, m.typeOf t = some type → type.isConnector = false := by
      intro hs type same
      cases htype.symm.trans same
      simpa [hs] using refused
    obtain ⟨p₀, it₀, hcreate', facing⟩ := create_facing (s := s) steady hg
    cases hcreate.symm.trans hcreate'
    have stays : Stays m (m.mapAddr a fun g => { g with refcnt := g.refcnt + 1 }) :=
      stays_mapAddr fun _ => ⟨rfl, rfl, rfl⟩
    obtain ⟨⟨rest', rfl⟩, redirects, none⟩ := moveLoop_moves (Steady.ref steady hg) hg' other
      ((stays.liveAddr t).trans live)
      (fun hs type same => plain hs type (types.symm.trans same))
      facing loop
    obtain ⟨released, ends⟩ := redirects.released hg pos destroy
    exact .all plain released fun x hend => none x ((ends x s).symm.trans hend)

end All

end ScCore.Search
