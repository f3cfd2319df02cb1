import ScCore.Search.MetaIterator

/-!
# Iterators that stand on arcs that are moved

A loop over the arcs of an element may give the arc it stands on another end. The node that the
iterator holds dies then, but it stays on its list until the iterator goes on.
-/

namespace ScCore.Search

open Store Memory TmpSegment

section Held

variable {m : Memory} {c : Option (NodeId × Addr)} {e : ElemId} {a : Addr} {seg : SegId}

theorem modifyElem_held (m : Memory) (c : Option (NodeId × Addr)) (e : ElemId)
    (f : Element → Element) :
    (held m c).modifyElem e f = (m.modifyElem e f).map fun m => held m c := by
  cases c with
  | none => simp [held]
  | some c =>
    have elems : (held m (some c)).elems = m.elems := rfl
    rw [modifyElem, modifyElem, elems]
    cases m.elems e <;> rfl

theorem modifyAddr_held (m : Memory) (c : Option (NodeId × Addr)) (a : Addr)
    {f : GlobalAddr → GlobalAddr} (hf : ∀ g, f { g with refcnt := g.refcnt + 1 } =
      { f g with refcnt := (f g).refcnt + 1 }) :
    (held m c).modifyAddr a f = (m.modifyAddr a f).map fun m => held m c := by
  cases c with
  | none => simp [held]
  | some c =>
    have addrs : ∀ x, (held m (some c)).addrs x = if x = c.2 then
        (m.addrs x).map fun g => { g with refcnt := g.refcnt + 1 } else m.addrs x := fun _ => rfl
    rw [modifyAddr, modifyAddr, addrs]
    cases hg : m.addrs a with
    | none => simp
    | some g =>
      have same : ∀ {m₁ m₂ : Memory}, m₁ = m₂ → some m₁ = some m₂ := congrArg some
      by_cases hc : a = c.2
      · subst hc
        simp only [if_pos, Option.map_some, Option.bind_eq_bind, Option.bind_some, hf]
        refine same ?_
        simp only [held, mapAddr, mapNode, Memory.mk.injEq, true_and, and_true]
        funext x
        by_cases hx : x = c.2
        · simp [hx]
        · simp [hx]
      · simp only [if_neg hc, Option.map_some, Option.bind_eq_bind, Option.bind_some]
        refine same ?_
        simp only [held, mapAddr, mapNode, Memory.mk.injEq, true_and, and_true]
        funext x
        by_cases hx : x = a
        · subst hx
          simp [hc]
        · simp [hx]

theorem registerIdtf_held (m : Memory) (c : Option (NodeId × Addr)) (seg : SegId)
    (idtf : ScString) (e : ElemId) :
    registerIdtf (held m c) seg idtf e = (registerIdtf m seg idtf e).map fun m => held m c := by
  have segs : (held m c).segs = m.segs := by cases c <;> rfl
  rw [registerIdtf, registerIdtf, segs]
  split
  · rfl
  · cases c <;> rfl

theorem generateIdtf_held (m : Memory) (c : Option (NodeId × Addr)) (seg : SegId) (e : ElemId) :
    generateIdtf (held m c) seg e = (generateIdtf m seg e).map fun m => held m c := by
  have counted : { held m c with idtfCounter := (held m c).idtfCounter + 1 } =
      held { m with idtfCounter := m.idtfCounter + 1 } c := by
    cases c <;> rfl
  have name : [64, 64] ++ ((held m c).segs seg).tmpPrefix ++ [64] ++
      hex ((held m c).idtfCounter % 2 ^ 32) =
        [64, 64] ++ (m.segs seg).tmpPrefix ++ [64] ++ hex (m.idtfCounter % 2 ^ 32) := by
    cases c <;> rfl
  rw [generateIdtf, generateIdtf, name, counted, registerIdtf_held]
  cases registerIdtf { m with idtfCounter := m.idtfCounter + 1 } seg _ e with
  | none => rfl
  | some m => exact modifyElem_held m c e _

theorem getIdtf_held (m : Memory) (c : Option (NodeId × Addr)) (seg : SegId) (e : ElemId) :
    TmpSegment.getIdtf (held m c) seg e =
      (TmpSegment.getIdtf m seg e).map fun r => (held r.1 c, r.2) := by
  have elems : ∀ m : Memory, (held m c).elems = m.elems := by
    intro m
    cases c <;> rfl
  rw [TmpSegment.getIdtf, TmpSegment.getIdtf, elems]
  cases hel : m.elems e with
  | none => rfl
  | some el =>
    simp only [Option.bind_eq_bind, Option.bind_some]
    have read : ∀ r : Option Memory, ((r.map fun m => held m c).bind fun m =>
        (m.elems e).bind fun el => some (m, el.idtf)) =
          (r.bind fun m => (m.elems e).bind fun el => some (m, el.idtf)).map
            fun r => (held r.1 c, r.2) := by
      intro r
      cases r with
      | none => rfl
      | some m =>
        simp only [Option.map_some, Option.bind_some, elems]
        cases m.elems e <;> rfl
    split
    · exact read (some m)
    · rw [generateIdtf_held]
      exact read _

theorem ensureLinkTo_held (m : Memory) (c : Option (NodeId × Addr)) (seg : SegId) (a : Addr) :
    Session.ensureLinkTo (held m c) seg a =
      (Session.ensureLinkTo m seg a).map fun r => (held r.1 c, r.2) := by
  have created : ∀ (m : Memory) (uri : ScString), createLink (held m c) seg uri =
      (held (createLink m seg uri).1 c, (createLink m seg uri).2) := by
    intro m uri
    cases c <;> rfl
  have uri : ∀ (m : Memory) (i : SegId), ((held m c).segs i).uri = (m.segs i).uri := by
    intro m i
    cases c <;> rfl
  have elems : ∀ m : Memory, (held m c).elems = m.elems := by
    intro m
    cases c <;> rfl
  have linked : ∀ (m : Memory) (la : LinkAddr), GlobalAddr.addLink (held m c) a la =
      (GlobalAddr.addLink m a la).map fun m => held m c := by
    intro m la
    rw [GlobalAddr.addLink, GlobalAddr.addLink, elems]
    cases m.elems la.impl with
    | none => rfl
    | some el => exact modifyAddr_held m c a fun _ => rfl
  obtain ⟨g', hg', place⟩ : ∃ f : GlobalAddr → GlobalAddr,
      (held m c).addrs a = (m.addrs a).map f ∧ ∀ g, (f g).seg = g.seg ∧ (f g).impl = g.impl ∧
        (f g).findLink seg = g.findLink seg := by
    cases c with
    | none => exact ⟨id, by simp [held], fun g => ⟨rfl, rfl, rfl⟩⟩
    | some c =>
      by_cases hc : a = c.2
      · refine ⟨fun g => { g with refcnt := g.refcnt + 1 }, ?_, fun g => ⟨rfl, rfl, rfl⟩⟩
        show (if a = c.2 then _ else _) = _
        rw [if_pos hc]
      · refine ⟨id, ?_, fun g => ⟨rfl, rfl, rfl⟩⟩
        show (if a = c.2 then _ else _) = _
        rw [if_neg hc, Option.map_id_apply]
  rw [Session.ensureLinkTo, Session.ensureLinkTo, hg']
  cases m.addrs a with
  | none => rfl
  | some g =>
    obtain ⟨hseg, himpl, hfind⟩ := place g
    simp only [Option.map_some, Option.bind_eq_bind, Option.bind_some, hseg, himpl, hfind]
    split
    · rfl
    · split
      · rfl
      · rw [getIdtf_held]
        cases TmpSegment.getIdtf m g.seg g.impl with
        | none => rfl
        | some r =>
          simp only [Option.map_some, Option.bind_some, uri, created, linked]
          cases GlobalAddr.addLink (createLink r.1 seg ((r.1.segs g.seg).uri ++ [47] ++ r.2)).1 a
              ⟨seg, (createLink r.1 seg ((r.1.segs g.seg).uri ++ [47] ++ r.2)).2⟩ with
          | none => rfl
          | some m =>
            simp only [Option.map_some, Option.bind_some, setElementAddr, modifyElem_held]
            cases m.modifyElem _ _ <;> rfl

end Held

/-! ## An arc that is moved while an iterator stands on it -/

/-- The memory after the arc of the iterator has been moved, for what it is without the iterator:
the node is dead and on its list, and only the iterator holds it. -/
structure Parked (m' p : Memory) (e : ElemId) (s : Endpoint) (n : NodeId) (b : Addr)
    (pre post : List NodeId) : Prop where
  node : ∃ x, p.nodes n = some ⟨x, 1, true⟩
  owner : ∃ o, p.elems e = some o ∧ o.arcs s = pre ++ n :: post ∧ (pre ++ n :: post).Nodup
  gone : unlinked p e s n = m'.mapAddr b fun g => { g with refcnt := g.refcnt + 1 }

section Moves

variable {h : Holds} {m m' p : Memory} {e t x : ElemId} {s : Endpoint} {n : NodeId} {b : Addr}
  {pre post : List NodeId}

theorem unlinked_attached (ne : t ≠ e) (old : n ≠ m.nextNode) :
    unlinked (attached m s x t) e s n = attached (unlinked m e s n) s x t := by
  have nodes : ∀ k, (if k = n then none else if k = m.nextNode then some ⟨x, 1, false⟩
      else m.nodes k) = if k = m.nextNode then some (⟨x, 1, false⟩ : ElementLink) else
        if k = n then none else m.nodes k := by
    intro k
    by_cases hk : k = n
    · rw [if_pos hk, if_pos hk, if_neg (hk ▸ old)]
    · rw [if_neg hk, if_neg hk]
  simp only [unlinked, attached, mapElem, newNode, freeNode, Memory.mk.injEq, true_and, and_true]
  refine ⟨?_, funext nodes⟩
  funext y
  by_cases ht : y = t
  · subst ht
    by_cases hx : y = x
    · subst hx
      cases m.elems y <;>
        simp [ne, Element.setQnt, Element.setArcs, Element.setHint, Element.setEnd]
    · cases m.elems y <;> simp [ne, hx]
  · by_cases hx : y = x
    · subst hx
      by_cases he : y = e
      · subst he
        cases m.elems y <;> simp [ht, Element.setArcs, Element.setHint, Element.setEnd]
      · cases m.elems y <;> simp [ht, he]
    · simp [ht, hx]

theorem unlinked_detached {l : ElementLink} (one : l.refcnt = 1) :
    unlinked (detached (held m (some (n, b))) s x e n { l with refcnt := l.refcnt + 1 }) e s n =
      (detached m s x e n l).mapAddr b fun g => { g with refcnt := g.refcnt + 1 } := by
  have two : l.refcnt + 1 ≠ 1 := by omega
  simp only [detached, left, if_neg two, if_pos one, held, unlinked, mapElem, mapAddr, mapNode,
    freeNode, Memory.mk.injEq, true_and, and_true]
  constructor
  · funext y
    by_cases hx : y = x
    · subst hx
      by_cases he : y = e
      · subst he
        cases m.elems y <;> simp [Element.setQnt, Element.setArcs, Element.setHint, Element.setEnd]
      · simp [he]
    · simp [hx]
  · funext k
    by_cases hk : k = n <;> simp [hk]

theorem setEndpoint_held (inv : Inv h m) (unheld : ∀ n, h.node n = 0)
    (split : m.graph.listed e s = pre ++ n :: post) (harc : m.graph.arc n = some x)
    (hb : m.addrOf x = some b) (ne : t ≠ e) (stored : ∃ o, m.elems t = some o) :
    ∃ m' p, setEndpoint s m x (some t) = some m' ∧
      setEndpoint s (held m (some (n, b))) x (some t) = some p ∧ Parked m' p e s n b pre post := by
  have hn : n ∈ m.graph.listed e s := split ▸ List.mem_append_right _ List.mem_cons_self
  obtain ⟨l, hl, alive, rfl⟩ := arc_eq_some.mp harc
  have one : l.refcnt = 1 := by simp [inv.node_refs hl, unheld, alive]
  obtain ⟨target, back⟩ := inv.coherent.listed_target hn harc
  obtain ⟨el, hel, hend⟩ := stored_of_target target
  have hint : el.hint s = some n := (back_stored hel).symm.trans back
  obtain ⟨o, ho, -⟩ := stored_of_listed hn
  have hl' : (held m (some (n, b))).nodes n = some { l with refcnt := l.refcnt + 1 } := by
    rw [held, mapNode_nodes, if_pos rfl, mapAddr_nodes, hl]
    rfl
  have old : n ≠ m.nextNode := Nat.ne_of_lt (inv.node_lt hl)
  have nodup : (pre ++ n :: post).Nodup := split ▸ inv.coherent.nodup e s
  refine ⟨attached (detached m s l.value e n l) s l.value t,
    attached (detached (held m (some (n, b))) s l.value e n { l with refcnt := l.refcnt + 1 }) s
      l.value t, ?_, ?_, ⟨⟨l.value, ?_⟩, ?_, ?_⟩⟩
  · rw [setEndpoint_some, setEndpoint_detach hel hend hint ho hl, Option.bind_some, attachEnd_eq]
    · exact relinks_detached.stored hel
    · obtain ⟨o', ho'⟩ := stored
      exact relinks_detached.stored ho'
  · rw [setEndpoint_some, setEndpoint_detach (m := held m (some (n, b))) hel hend hint ho hl',
      Option.bind_some, attachEnd_eq]
    · exact relinks_detached.stored (m := held m (some (n, b))) hel
    · obtain ⟨o', ho'⟩ := stored
      exact relinks_detached.stored (m := held m (some (n, b))) ho'
  · rw [nodes_attached, if_neg (nextNode_detached.symm ▸ old), nodes_detached s l.value e hl',
      if_pos rfl, if_neg (by simp only [one]; decide), one]
    rfl
  · have two : l.refcnt + 1 ≠ 1 := by omega
    have listed : (attached (detached (held m (some (n, b))) s l.value e n
        { l with refcnt := l.refcnt + 1 }) s l.value t).graph.listed e s = pre ++ n :: post := by
      obtain ⟨o', ho'⟩ := stored
      rw [graph_attached s (relinks_detached.stored (m := held m (some (n, b))) hel)
        (relinks_detached.stored (m := held m (some (n, b))) ho'), graph_detached, if_neg two]
      show (if e = t ∧ s = s then _ else m.graph.listed e s) = _
      rw [if_neg fun same => ne same.1.symm, split]
    obtain ⟨o', ho', -⟩ := stored_of_listed (listed ▸ List.mem_append_right pre List.mem_cons_self :
      n ∈ (attached _ s l.value t).graph.listed e s)
    exact ⟨o', ho', (listed_stored ho').symm.trans listed, nodup⟩
  · rw [unlinked_attached ne (nextNode_detached.symm ▸ old), unlinked_detached one]
    rfl

theorem Parked.listed (parked : Parked m' p e s n b pre post) :
    m'.graph.listed e s = pre ++ post ∧ n ∉ post := by
  obtain ⟨o, ho, split, nodup⟩ := parked.owner
  obtain ⟨-, nodup', other⟩ := List.nodup_append.mp nodup
  have fresh : n ∉ pre := fun mem => other n mem n List.mem_cons_self rfl
  refine ⟨?_, (List.nodup_cons.mp nodup').1⟩
  have same : (m'.mapAddr b fun g => { g with refcnt := g.refcnt + 1 }).graph.listed e s =
      (unlinked p e s n).graph.listed e s := by rw [parked.gone]
  have elems : (unlinked p e s n).elems e = some (o.setArcs s ((o.arcs s).erase n)) := by
    rw [unlinked, freeNode_elems, mapElem_elems, if_pos rfl, ho]
    rfl
  refine same.trans ((listed_stored elems).trans ?_)
  rw [Element.setArcs, split]
  simp [List.erase_append_right _ fresh]

theorem Parked.firstLive (parked : Parked m' p e s n b pre post) :
    TmpIterator.firstLive p post = TmpIterator.firstLive m' post := by
  obtain ⟨-, fresh⟩ := parked.listed
  have nodes : ∀ k, k ≠ n → p.nodes k = m'.nodes k := by
    intro k hk
    have same : (unlinked p e s n).nodes k = m'.nodes k := by
      rw [parked.gone]
      rfl
    rwa [unlinked, freeNode_nodes, if_neg hk] at same
  have addr : ∀ y, (p.elems y).map (·.addr) = (m'.elems y).map (·.addr) := by
    intro y
    have same : (unlinked p e s n).elems y = m'.elems y := by
      rw [parked.gone]
      rfl
    rw [← same, unlinked, freeNode_elems, mapElem_elems]
    split
    · cases p.elems y <;> rfl
    · rfl
  generalize post = l at fresh
  induction l with
  | nil => rfl
  | cons k l ih =>
    obtain ⟨first, rest⟩ := not_or.mp (List.mem_cons.not.mp fresh)
    rw [TmpIterator.firstLive, TmpIterator.firstLive, nodes k (Ne.symm first), ih rest]
    cases hl : m'.nodes k with
    | none => rfl
    | some lk =>
      have same := addr lk.value
      simp only [Option.bind_eq_bind, Option.bind_some]
      split
      · rfl
      · cases hp : p.elems lk.value <;> cases hm : m'.elems lk.value <;>
          simp only [hp, hm, Option.map_none, Option.map_some, reduceCtorEq, Option.some.injEq]
            at same
        · rfl
        · simp only [Option.bind_some, same]

theorem Parked.next (parked : Parked m' p e s n b pre post) (ok : Walkable m' s e) {g : GlobalAddr}
    (hg : m'.addrs b = some g) (pos : 0 < g.refcnt) :
    ∃ curr, TmpIterator.next p ⟨e, s, some (n, b)⟩ = some (held m' curr, ⟨e, s, curr⟩) ∧
      ahead m' s e curr = arcsOf m' post ∧ ∀ c, curr = some c → Stands m' s e c := by
  obtain ⟨o, ho, split, nodup⟩ := parked.owner
  obtain ⟨x, hx⟩ := parked.node
  obtain ⟨listed, -⟩ := parked.listed
  have after : TmpIterator.after n (o.arcs s) = post := by
    rw [split]
    exact after_split nodup
  have node : ElementLink.unref p e s n =
      some (m'.mapAddr b fun g => { g with refcnt := g.refcnt + 1 }) := by
    rw [unref_eq ho hx, if_pos rfl, parked.gone]
  have addr := unref_addr hg pos
  rcases ok.firstLive (l := post) fun k hk => listed ▸ List.mem_append_right _ hk with
    ⟨first, nothing⟩ | ⟨skip, k, rest, c, split', first, arcs, stands⟩
  · refine ⟨none, ?_, nothing.symm, nofun⟩
    simp only [TmpIterator.next, ho, after, parked.firstLive, first, node, addr,
      Option.bind_eq_bind, Option.bind_some]
    rfl
  · obtain ⟨hk, l, hl, hc⟩ := stands
    obtain ⟨l', c', g', hl', -, hc', hg', -⟩ := ok.node k hk
    cases hl.symm.trans hl'
    cases hc.symm.trans hc'
    refine ⟨some (k, c), ?_, ?_, ?_⟩
    · have hg'' : (m'.mapNode k fun l => { l with refcnt := l.refcnt + 1 }).addrs c = some g' := hg'
      simp only [TmpIterator.next, ho, after, parked.firstLive, first, node, addr,
        Option.bind_eq_bind, Option.bind_some, ElementLink.ref, GlobalAddr.ref,
        modifyNode_eq hl, modifyAddr_eq hg'']
      rfl
    · have behind : TmpIterator.after k (m'.graph.listed e s) = rest := by
        have whole : m'.graph.listed e s = (pre ++ skip) ++ k :: rest := by
          rw [listed, split', List.append_assoc]
        have nodup' := ok.nodup
        rw [whole] at nodup' ⊢
        exact after_split nodup'
      rw [ahead, behind, arcs]
    · intro _ same
      cases same
      exact ⟨hk, l, hl, hc⟩

end Moves

/-! ## Setting an end beside an iterator -/

section Calls

variable {ss : Session} {m : Memory} {c : Option (NodeId × Addr)} {a : Addr}

theorem held_elems (m : Memory) (c : Option (NodeId × Addr)) : (held m c).elems = m.elems := by
  cases c <;> rfl

theorem held_addrs (m : Memory) (c : Option (NodeId × Addr)) (a : Addr) :
    ∃ k, (held m c).addrs a = (m.addrs a).map fun g => { g with refcnt := g.refcnt + k } := by
  cases c with
  | none => exact ⟨0, by simp [held]⟩
  | some c =>
    by_cases hc : a = c.2
    · exact ⟨1, if_pos hc⟩
    · refine ⟨0, ?_⟩
      show (if a = c.2 then _ else m.addrs a) = _
      rw [if_neg hc]
      simp

theorem access_held (x : Option Addr) : ss.access (held m c) x = ss.access m x := by
  cases x with
  | none => rfl
  | some x =>
    obtain ⟨k, hk⟩ := held_addrs m c x
    rw [Session.access, Session.access, hk]
    cases m.addrs x <;> rfl

theorem accessBoth_held (x t : Option Addr) :
    ss.accessBoth (held m c) x t = ss.accessBoth m x t := by
  cases t <;> simp only [Session.accessBoth, access_held]

theorem getType_held (x : Addr) : ss.getType (held m c) x = ss.getType m x := by
  obtain ⟨k, hk⟩ := held_addrs m c x
  rw [Session.getType, Session.getType, access_held, hk, held_elems]
  cases m.addrs x <;> rfl

theorem endAddr_held (ll : Option ElemId) :
    Session.endAddr (held m c) ll = Session.endAddr m ll := by
  cases ll with
  | none => rfl
  | some e => rw [Session.endAddr, Session.endAddr, held_elems]

theorem setPre_held (s : Endpoint) (x : Addr) (t : Option Addr) :
    setPre noWaits s (held m c) x t = setPre noWaits s m x t := by
  obtain ⟨k, hk⟩ := held_addrs m c x
  cases s with
  | beg =>
    simp only [setPre, Session.setBegPre, hk, held_elems, endAddr_held]
    cases m.addrs x <;> rfl
  | fin =>
    simp only [setPre, Session.setEndPre, hk, held_elems, endAddr_held]
    cases m.addrs x <;> rfl

theorem verifyTypeChanging_held (x : Addr) (type : ScType) :
    Session.verifyTypeChanging (held m c) x type = Session.verifyTypeChanging m x type := by
  obtain ⟨k, hk⟩ := held_addrs m c x
  rw [Session.verifyTypeChanging, Session.verifyTypeChanging, hk, held_elems]
  cases m.addrs x <;> rfl

theorem changeType_held (x : Addr) (type : ScType) :
    ss.changeType noWaits (held m c) x type =
      (ss.changeType noWaits m x type).map fun r => (held r.1 c, r.2) := by
  obtain ⟨k, hk⟩ := held_addrs m c x
  rw [Session.changeType, Session.changeType, access_held]
  cases ss.access m (some x) with
  | none => rfl
  | some rv =>
    simp only [Option.bind_eq_bind, Option.bind_some]
    split
    · rfl
    · cases type.verify with
      | none => rfl
      | some type =>
        simp only [hk, held_elems, verifyTypeChanging_held]
        cases m.addrs x with
        | none => rfl
        | some g =>
          simp only [Option.map_some, Option.bind_some]
          cases m.elems g.impl with
          | none => rfl
          | some el =>
            simp only [Option.bind_some]
            split
            · rfl
            · cases Session.verifyTypeChanging m x type with
              | none => rfl
              | some allowed =>
                simp only [Option.bind_some, noWaits, TmpSegment.changeType, modifyElem_held]
                split
                · rfl
                · cases m.modifyElem g.impl _ <;> rfl

end Calls

section Moved

variable {ss : Session} {h : Holds} {m m' p : Memory} {e : ElemId} {s : Endpoint} {n : NodeId}
  {a b t : Addr} {g : GlobalAddr} {seg : SegId} {rv : Retval} {pre post : List NodeId}

theorem Parked.addQnt (parked : Parked m' p e s n b pre post) (t : Addr) :
    Parked (addQnt m' t s 1) (addQnt p t s 1) e s n b pre post where
  node := parked.node
  owner := parked.owner
  gone := by
    have lost : unlinked (ScCore.Store.addQnt p t s 1) e s n =
        ScCore.Store.addQnt (unlinked p e s n) t s 1 := rfl
    rw [lost, parked.gone]
    simp only [ScCore.Store.addQnt, mapAddr, Memory.mk.injEq, true_and, and_true]
    funext y
    by_cases ht : y = t
    · subst ht
      by_cases hb : y = b
      · subst hb
        cases m'.addrs y <;> simp [GlobalAddr.setQnt]
      · simp [hb]
    · simp [ht]

theorem linkEnd_held (inv : Inv h m) (unheld : ∀ n, h.node n = 0)
    (split : m.graph.listed e s = pre ++ n :: post) (harc : m.graph.arc n = some g.impl)
    (hg : m.addrs b = some g) (he : m.addrOf e = some a) (other : a ≠ t)
    (hr : Session.linkEnd s (held m (some (n, b))) seg g.impl t = some p) :
    ∃ m', Session.linkEnd s m seg g.impl t = some m' ∧ Parked m' p e s n b pre post := by
  simp only [Session.linkEnd, ensureLinkTo_held] at hr ⊢
  cases hlink : Session.ensureLinkTo m seg t with
  | none =>
    rw [hlink] at hr
    cases hr
  | some r =>
    obtain ⟨m₁, ll⟩ := r
    rw [hlink] at hr
    simp only [Option.map_some, Option.bind_eq_bind, Option.bind_some] at hr ⊢
    have stored : ∃ ga, m.addrs t = some ga := by
      cases ht : m.addrs t with
      | some ga => exact ⟨ga, rfl⟩
      | none =>
        rw [Session.ensureLinkTo, ht] at hlink
        cases hlink
    obtain ⟨ga, hga⟩ := stored
    have en := inv.ensureLinkTo hga hlink
    have own : m.addrOf g.impl = some b := inv.stores_addr hg List.mem_cons_self
    have ne : ll ≠ e := by
      rintro rfl
      exact other (Option.some.inj ((en.persists.addrOf he).symm.trans en.addrOf))
    obtain ⟨o, ho, -⟩ := stored_of_addrOf en.addrOf
    obtain ⟨m₂, p₂, hm₂, hp₂, parked⟩ := setEndpoint_held en.inv unheld (en.graph ▸ split)
      (en.graph ▸ harc) (en.persists.addrOf own) ne ⟨o, ho⟩
    rw [hp₂] at hr
    rw [hm₂]
    have addrs : p₂.addrs = (m₂.mapAddr b fun g => { g with refcnt := g.refcnt + 1 }).addrs :=
      (congrArg Memory.addrs parked.gone : (unlinked p₂ e s n).addrs = _)
    have counted : ∃ gt, m₂.addrs t = some gt := by
      cases ht : m₂.addrs t with
      | some gt => exact ⟨gt, rfl⟩
      | none =>
        have none : p₂.addrs t = none := by simp [addrs, ht]
        rw [Option.bind_some, Session.upQnt, modifyAddr, none] at hr
        cases hr
    obtain ⟨gt, hgt⟩ := counted
    have there : ∃ gp, p₂.addrs t = some gp := by
      rw [addrs, mapAddr_addrs, hgt]
      split <;> exact ⟨_, rfl⟩
    obtain ⟨gp, hgp⟩ := there
    rw [Option.bind_some, upQnt_eq hgp] at hr
    obtain rfl := Option.some.inj hr
    exact ⟨_, upQnt_eq hgt, parked.addQnt t⟩

inductive Beside (m : Memory) (n : NodeId) (b : Addr) (e : ElemId) (s : Endpoint)
    (pre post : List NodeId) (p : Memory) (rv : Retval) : Option (Memory × Retval) → Prop
  | refused (same : p = held m (some (n, b))) (failed : rv ≠ rvOk) :
      Beside m n b e s pre post p rv (some (m, rv))
  | moved {m' : Memory} (ok : rv = rvOk) (parked : Parked m' p e s n b pre post) :
      Beside m n b e s pre post p rv (some (m', rv))

theorem end_differs (inv : Inv h m) (hn : n ∈ m.graph.listed e s)
    (harc : m.graph.arc n = some g.impl) (he : m.addrOf e = some a) (other : a ≠ t) {el : Element}
    (hel : m.elems g.impl = some el) {old : Option Addr}
    (hold : Session.endAddr m (el.ends s) = some old) :
    ¬((el.ends s).isSome = true ∧ old = some t) := by
  rintro ⟨-, there⟩
  have target := (inv.coherent.listed_target hn harc).1
  have hend : el.ends s = some e := (target_stored hel).symm.trans target
  have bound := bind_addrOf hold
  rw [hend, Option.bind_some, he, there] at bound
  exact other (Option.some.inj bound)

theorem setCore_held (inv : Inv h m) (unheld : ∀ n, h.node n = 0)
    (split : m.graph.listed e s = pre ++ n :: post) (harc : m.graph.arc n = some g.impl)
    (hg : m.addrs b = some g) (he : m.addrOf e = some a) (other : a ≠ t)
    (access : ss.access m (some t) = some rvOk)
    (ready : ∃ el, m.elems g.impl = some el ∧ el.type.isConnector = true) (alive : g.dead = false)
    (hr : setCore ss noWaits s (held m (some (n, b))) b (some t) = some (p, rv)) :
    Beside m n b e s pre post p rv (setCore ss noWaits s m b (some t)) := by
  obtain ⟨el, hel, hconn⟩ := ready
  obtain ⟨k, hk⟩ := held_addrs m (some (n, b)) b
  have hn : n ∈ m.graph.listed e s := split ▸ List.mem_append_right _ List.mem_cons_self
  cases s with
  | fin =>
    simp only [setCore, Session.setEndCore, hk, hg, held_elems, hel, endAddr_held, Option.map_some,
      Option.bind_eq_bind, Option.bind_some] at hr ⊢
    obtain ⟨old, hold, hr⟩ := Option.bind_eq_some_iff.mp hr
    have ne := end_differs inv hn harc he other hel hold
    rw [if_neg ne] at hr
    rw [hold, Option.bind_some, if_neg ne]
    obtain ⟨p', hp', hr⟩ := Option.bind_eq_some_iff.mp hr
    cases hr
    obtain ⟨m', hm', parked⟩ := linkEnd_held inv unheld split harc hg he other hp'
    rw [hm']
    exact .moved rfl parked
  | beg =>
    simp only [setCore, Session.setBegCore, hk, hg, held_elems, hel, endAddr_held, getType_held,
      Option.map_some, Option.bind_eq_bind, Option.bind_some] at hr ⊢
    obtain ⟨old, hold, hr⟩ := Option.bind_eq_some_iff.mp hr
    have ne := end_differs inv hn harc he other hel hold
    rw [if_neg ne] at hr
    rw [hold, Option.bind_some, if_neg ne]
    obtain ⟨type, htype, hr⟩ := Option.bind_eq_some_iff.mp hr
    rw [htype, Option.bind_some]
    split at hr
    · next connector =>
      cases hr
      rw [if_pos connector]
      exact .refused rfl (by decide)
    · next plain =>
      rw [if_neg plain]
      split at hr
      · next undf =>
        -- The new begin is told to become a node first.
        rw [if_pos undf]
        rw [changeType_held] at hr
        obtain ⟨p₁, hp₁, hr⟩ := Option.bind_eq_some_iff.mp hr
        obtain ⟨p', hp', hr⟩ := Option.bind_eq_some_iff.mp hr
        cases hr
        obtain ⟨r₁, hr₁, rfl⟩ := Option.map_eq_some_iff.mp hp₁
        obtain ⟨gt, et, hgt, -, het, rfl⟩ := inv.getType_ok access htype
        obtain ⟨inv₁, relabels, -⟩ := inv.becomeNode ⟨hg, alive, hel, hconn⟩ hgt het
          (by simpa using plain) hr₁
        obtain ⟨m', hm', parked⟩ := linkEnd_held inv₁ unheld (relabels.graph ▸ split)
          (relabels.graph ▸ harc) (relabels.addrs ▸ hg) ((relabels.addrOf e).trans he) other hp'
        rw [hr₁, Option.bind_some, hm']
        exact .moved rfl parked
      · next defined =>
        rw [if_neg defined]
        obtain ⟨p', hp', hr⟩ := Option.bind_eq_some_iff.mp hr
        cases hr
        obtain ⟨m', hm', parked⟩ := linkEnd_held inv unheld split harc hg he other hp'
        rw [hm']
        exact .moved rfl parked

theorem setEnds_held (inv : Inv h m) (unheld : ∀ n, h.node n = 0)
    (split : m.graph.listed e s = pre ++ n :: post) (harc : m.graph.arc n = some g.impl)
    (hg : m.addrs b = some g) (he : m.addrOf e = some a) (other : a ≠ t)
    (hr : ss.setEnds noWaits s (held m (some (n, b))) (some b) (some t) = some (p, rv)) :
    Beside m n b e s pre post p rv (ss.setEnds noWaits s m (some b) (some t)) := by
  rw [setEnds_eq] at hr ⊢
  simp only [accessBoth_held, getType_held, setPre_held] at hr
  obtain ⟨rv₀, both, hr⟩ := Option.bind_eq_some_iff.mp hr
  rw [both, Option.bind_some]
  split at hr
  · next denied =>
    cases hr
    rw [if_pos denied]
    exact .refused rfl denied
  · next granted =>
    obtain rfl : rv₀ = rvOk := by simpa using granted
    obtain ⟨access, target⟩ := accessBoth_ok both
    rw [if_neg granted]
    rw [Option.bind_some] at hr ⊢
    obtain ⟨type, htype, hr⟩ := Option.bind_eq_some_iff.mp hr
    obtain ⟨g', el, hg', alive, hel, rfl⟩ := inv.getType_ok access htype
    cases hg.symm.trans hg'
    rw [htype, Option.bind_some]
    split at hr
    · next not =>
      cases hr
      rw [if_pos not]
      exact .refused rfl (by decide)
    · next conn =>
      rw [if_neg conn]
      obtain ⟨refused, pre, hr⟩ := Option.bind_eq_some_iff.mp hr
      rw [pre, Option.bind_some]
      split at hr
      · next hrefused =>
        cases hr
        rw [if_pos hrefused]
        exact .refused rfl (by decide)
      · next passed =>
        rw [if_neg passed]
        exact setCore_held inv unheld split harc hg he other (target t rfl)
          ⟨el, hel, by simpa using conn⟩ alive hr

end Moved

end ScCore.Search
