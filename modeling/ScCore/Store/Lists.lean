import ScCore.Store.Growth

/-!
# Iterators on lists that change

What an arc iterator does to the storage, for any number of iterators that
stand anywhere. Only what concerns lists, nodes and addresses is asked of the
storage, so the owner of a list may be an arc itself.
-/

namespace ScCore.Store

open Memory TmpSegment

structure ListInv (h : Holds) (m : Memory) : Prop extends GraphInv h m, AddrInv h m where
  dead_free : ∀ {e a} s, m.addrOf e = some a → m.liveAddr a = false →
    m.graph.listed e s = [] ∧ m.graph.target e s = none
  stored_listed : ∀ {n l}, m.nodes n = some l → ∃ e s, n ∈ m.graph.listed e s

structure Sweeps (m m' : Memory) : Prop where
  arc : ∀ n, m'.graph.arc n = m.graph.arc n
  target : ∀ x s, m'.graph.target x s = m.graph.target x s
  listed : ∀ e s, m'.graph.listed e s = (m.graph.listed e s).filter fun n => (m'.nodes n).isSome
  node : ∀ {n l'}, m'.nodes n = some l' → ∃ l, m.nodes n = some l ∧ l'.value = l.value
  addr : ∀ {b g'}, m'.addrs b = some g' → ∃ g, m.addrs b = some g
  addrOf : ∀ {e b g'}, m.addrOf e = some b → m'.addrs b = some g' → m'.addrOf e = some b
  live : ∀ b, m'.liveAddr b = m.liveAddr b
  nextNode : m'.nextNode = m.nextNode

variable {h h' : Holds} {m m' m'' : Memory} {a : Addr} {e : ElemId} {s : Endpoint} {n : NodeId}

namespace Sweeps

theorem refl (gi : GraphInv h m) : Sweeps m m where
  arc _ := rfl
  target _ _ := rfl
  listed e s := (gi.filter_stored e s).symm
  node hl := ⟨_, hl, rfl⟩
  addr hg := ⟨_, hg⟩
  addrOf he _ := he
  live _ := rfl
  nextNode := rfl

theorem trans (w : Sweeps m m') (w' : Sweeps m' m'') : Sweeps m m'' where
  arc n := (w'.arc n).trans (w.arc n)
  target x s := (w'.target x s).trans (w.target x s)
  listed e s := by
    rw [w'.listed, w.listed, List.filter_filter]
    refine List.filter_congr fun n _ => ?_
    cases hl : m''.nodes n with
    | none => rfl
    | some l =>
      obtain ⟨l', hl', -⟩ := w'.node hl
      simp [hl']
  node hl := by
    obtain ⟨l', hl', hv'⟩ := w'.node hl
    obtain ⟨l, hl, hv⟩ := w.node hl'
    exact ⟨l, hl, hv'.trans hv⟩
  addr hg := by
    obtain ⟨g', hg'⟩ := w'.addr hg
    exact w.addr hg'
  addrOf he hg := by
    obtain ⟨g', hg'⟩ := w'.addr hg
    exact w'.addrOf (w.addrOf he hg') hg
  live b := (w'.live b).trans (w.live b)
  nextNode := w'.nextNode.trans w.nextNode

theorem of_graph (gi : GraphInv h m) (graph : m'.graph = m.graph) (nodes : m'.nodes = m.nodes)
    (nextNode : m'.nextNode = m.nextNode)
    (addr : ∀ {b g'}, m'.addrs b = some g' → ∃ g, m.addrs b = some g)
    (addrOf : ∀ {e b g'}, m.addrOf e = some b → m'.addrs b = some g' → m'.addrOf e = some b)
    (live : ∀ b, m'.liveAddr b = m.liveAddr b) : Sweeps m m' where
  arc n := by rw [graph]
  target x s := by rw [graph]
  listed e s := by
    rw [graph, nodes]
    exact (gi.filter_stored e s).symm
  node hl := ⟨_, nodes ▸ hl, rfl⟩
  addr := addr
  addrOf := addrOf
  live := live
  nextNode := nextNode

end Sweeps

/-- Where an iterator comes to rest among the nodes `l` in front of it. -/
inductive Stops (h : Holds) (m m' : Memory) (l : List NodeId) : Option (NodeId × Addr) → Prop
  | spent (inv : ListInv h m') (dead : ∀ k ∈ l, m.graph.arc k = none) : Stops h m m' l none
  | on {k : NodeId} {b : Addr} {dead rest : List NodeId} {x : ElemId}
      (inv : ListInv ((h.holdAddr b).holdNode k) m') (split : l = dead ++ k :: rest)
      (skipped : ∀ d ∈ dead, m.graph.arc d = none) (arc : m.graph.arc k = some x)
      (addr : m.addrOf x = some b) : Stops h m m' l (some (k, b))

namespace ListInv

theorem arc_addr (inv : ListInv h m) {x : ElemId} (hn : n ∈ m.graph.listed e s)
    (harc : m.graph.arc n = some x) : ∃ b, m.addrOf x = some b ∧ m.liveAddr b = true := by
  have ht := (inv.coherent.listed_target hn harc).1
  obtain ⟨el, hel, -⟩ := stored_of_target ht
  obtain ⟨b, hb⟩ := inv.addressed hel
  have haddr : m.addrOf x = some b := (addrOf_stored hel).trans hb
  refine ⟨b, haddr, ?_⟩
  cases hlive : m.liveAddr b with
  | true => rfl
  | false =>
    rw [(inv.dead_free s haddr hlive).2] at ht
    cases ht

theorem readdress (inv : ListInv h m) (node : h'.node = h.node) (ai : AddrInv h' m')
    (graph : m'.graph = m.graph) (qnt : ∀ e s, m'.qnt e s = m.qnt e s)
    (nodes : m'.nodes = m.nodes) (nextNode : m'.nextNode = m.nextNode)
    (dead_free : ∀ {e a}, m'.addrOf e = some a → m'.liveAddr a = false → ∀ s,
      m.graph.listed e s = [] ∧ m.graph.target e s = none) : ListInv h' m' where
  toGraphInv := (inv.toGraphInv.congr graph qnt nodes nextNode).holds node
  toAddrInv := ai
  dead_free s he hd := by
    rw [graph]
    exact dead_free he hd s
  stored_listed hl := by
    rw [graph]
    exact inv.stored_listed (nodes ▸ hl)

/-! ## References to addresses -/

variable {g : GlobalAddr} {l : List NodeId}

theorem recount (inv : ListInv h m) {f : GlobalAddr → GlobalAddr} (hg : m.addrs a = some g)
    (hstores : ∀ g, (f g).stores = g.stores) (hzombie : ∀ g, (f g).zombie = g.zombie)
    (hdead : (f g).dead = g.dead) (other : ∀ x, x ≠ a → h'.addr x = h.addr x)
    (node : h'.node = h.node)
    (refs : (f g).refcnt = h'.addr a + if (f g).dead then 0 else refcntBarrier)
    (held : (f g).dead = true → 0 < h'.addr a) :
    ListInv h' (m.mapAddr a f) ∧ Sweeps m (m.mapAddr a f) := by
  have live := liveAddr_mapAddr hg hdead
  constructor
  · refine inv.readdress node ?_ rfl (fun _ _ => rfl) rfl rfl ?_
    · exact inv.toAddrInv.recount hg hstores hzombie other refs held
    · intro e b he hd s
      exact inv.dead_free s he ((live b).symm.trans hd)
  · refine Sweeps.of_graph inv.toGraphInv rfl rfl rfl ?_ (fun he _ => he) live
    intro b g' hb
    rw [mapAddr_addrs] at hb
    split at hb
    · next hba => exact ⟨g, hba ▸ hg⟩
    · exact ⟨g', hb⟩

theorem refAddr (inv : ListInv h m) (hg : m.addrs a = some g) :
    ∃ m', GlobalAddr.ref m a = some m' ∧ ListInv (h.holdAddr a) m' ∧ Sweeps m m' ∧
      m'.graph = m.graph ∧ m'.nodes = m.nodes := by
  have refs := inv.addr_refs hg
  obtain ⟨inv', sweeps⟩ := inv.recount
    (f := fun g => { g with refcnt := g.refcnt + 1 }) hg (fun _ => rfl) (fun _ => rfl) rfl
    (fun _ => h.holdAddr_other) rfl (by simp only [refs, Holds.holdAddr, if_true]; omega)
    (by simp [Holds.holdAddr])
  exact ⟨_, modifyAddr_eq hg, inv', sweeps, rfl, rfl⟩

theorem drop (inv : ListInv h m) (d : Drops a m m') (node : h'.node = h.node)
    (other : ∀ b, b ≠ a → h'.addr b = h.addr b) (unheld : h'.addr a = 0)
    (bare : ∀ e, m.addrOf e = some a → ∀ s, m.graph.listed e s = [] ∧
      m.graph.target e s = none) : ListInv h' m' := by
  refine inv.readdress node (d.addrInv inv.toAddrInv other unheld) (d.graph bare inv.toGraphInv)
    (d.qnt bare inv.toGraphInv) d.nodes d.nextNode ?_
  intro e b he hd s
  obtain ⟨hne, he⟩ := d.addrOf_some he
  exact inv.dead_free s he ((d.liveAddr hne).symm.trans hd)

theorem sweeps_drop (inv : ListInv h m) (d : Drops a m m') (dead : m.liveAddr a = false)
    (bare : ∀ e, m.addrOf e = some a → ∀ s, m.graph.listed e s = [] ∧
      m.graph.target e s = none) : Sweeps m m' := by
  refine Sweeps.of_graph inv.toGraphInv (d.graph bare inv.toGraphInv) d.nodes d.nextNode
    (fun hg => ⟨_, (d.addrs_some hg).2⟩) ?_ ?_
  · intro e b g' he hg
    have hne := (d.addrs_some hg).1
    rw [addrOf_congr (d.label fun h' => hne (Option.some.inj (he.symm.trans h')))]
    exact he
  · intro b
    by_cases hb : b = a
    · rw [hb, d.liveAddr_self, dead]
    · exact d.liveAddr hb

theorem unrefAddr (inv : ListInv (h.holdAddr a) m) :
    ∃ m', GlobalAddr.unref m a = some m' ∧ ListInv h m' ∧ Sweeps m m' := by
  obtain ⟨g, hg, ⟨dead, unheld, m', hm', d⟩ | ⟨hm', refs, held⟩⟩ := inv.toAddrInv.unref
  · have bare : ∀ e, m.addrOf e = some a → ∀ s, m.graph.listed e s = [] ∧
        m.graph.target e s = none := fun e he s => inv.dead_free s he dead
    exact ⟨m', hm', inv.drop d rfl (fun _ hx => (h.holdAddr_other hx).symm) unheld bare,
      inv.sweeps_drop d dead bare⟩
  · obtain ⟨inv', sweeps⟩ := inv.recount (f := fun g => { g with refcnt := g.refcnt - 1 }) hg
      (fun _ => rfl) (fun _ => rfl) rfl (fun _ hx => (h.holdAddr_other hx).symm) rfl refs held
    exact ⟨_, hm', inv', sweeps⟩

theorem dieAddr (inv : ListInv h m) (hg : m.addrs a = some g) (hd : g.dead = false)
    (bare : ∀ e, m.addrOf e = some a → ∀ s, m.graph.listed e s = [] ∧ m.graph.target e s = none) :
    ∃ m', GlobalAddr.die m a = some m' ∧ ListInv h m' ∧ m'.graph = m.graph ∧
      m'.nodes = m.nodes ∧ m'.nextNode = m.nextNode ∧
      (∀ {e b g'}, m.addrOf e = some b → m'.addrs b = some g' → m'.addrOf e = some b) ∧
      ∀ b, m'.liveAddr b = if b = a then false else m.liveAddr b := by
  have refs := inv.addr_refs hg
  simp only [hd, Bool.false_eq_true, if_false] at refs
  by_cases hr : g.refcnt - refcntBarrier = 0
  · have unheld : h.addr a = 0 := by omega
    obtain ⟨m', hm', d⟩ := inv.toAddrInv.eraseAddr hg
      (f := fun g => { g with dead := true, refcnt := g.refcnt - refcntBarrier })
      (fun _ => rfl) fun _ => rfl
    refine ⟨m', ?_, inv.drop d rfl (fun _ _ => rfl) unheld bare, d.graph bare inv.toGraphInv,
      d.nodes, d.nextNode, ?_, fun b => ?_⟩
    · simp [GlobalAddr.die, hg, hd, modifyAddr_eq hg, hr, hm']
    · intro e b g' he hg'
      have hne := (d.addrs_some hg').1
      rw [addrOf_congr (d.label fun h' => hne (Option.some.inj (he.symm.trans h')))]
      exact he
    · split
      · next hb => rw [hb, d.liveAddr_self]
      · next hb => exact d.liveAddr hb
  · have live : ∀ b, (m.mapAddr a fun g =>
        { g with dead := true, refcnt := g.refcnt - refcntBarrier }).liveAddr b =
          if b = a then false else m.liveAddr b := by
      intro b
      split
      · next hb => simp [Memory.liveAddr, hb, hg]
      · next hb => simp [Memory.liveAddr, hb]
    refine ⟨m.mapAddr a fun g => { g with dead := true, refcnt := g.refcnt - refcntBarrier }, ?_,
      ?_, rfl, rfl, rfl, fun he _ => he, live⟩
    · simp [GlobalAddr.die, hg, hd, modifyAddr_eq hg, hr]
    · refine inv.readdress rfl ?_ rfl (fun _ _ => rfl) rfl rfl ?_
      · refine inv.toAddrInv.recount hg (fun _ => rfl) (fun _ => rfl) (fun _ _ => rfl) ?_ ?_
        · simp [refs]
        · intro _
          omega
      · intro e b he hdead s
        rw [live] at hdead
        split at hdead
        · next hb => exact bare e (hb ▸ he) s
        · exact inv.dead_free s he hdead

/-! ## References to nodes -/

theorem sweeps_shrinks (inv : ListInv h m) (gi : GraphInv h' m') (sh : Shrinks m m')
    (r : Relinks m m') (ht : ∀ x s, m'.graph.target x s = m.graph.target x s)
    (hb : ∀ x s, m'.graph.back x s = m.graph.back x s) (nextNode : m'.nextNode = m.nextNode) :
    Sweeps m m' where
  arc n := by
    cases harc : m.graph.arc n with
    | some x =>
      obtain ⟨l, hl, -⟩ := arc_eq_some.mp harc
      obtain ⟨e, s, hn⟩ := inv.stored_listed hl
      obtain ⟨htarget, hback⟩ := inv.coherent.listed_target hn harc
      obtain ⟨n', -, hback', harc'⟩ := gi.coherent.target_listed ((ht x s).trans htarget)
      obtain rfl : n' = n := Option.some.inj (hback'.symm.trans ((hb x s).trans hback))
      exact harc'
    | none =>
      cases harc' : m'.graph.arc n with
      | none => rfl
      | some x =>
        obtain ⟨l', hl', hd', -⟩ := arc_eq_some.mp harc'
        obtain ⟨l, hl, -, hd⟩ := sh.node hl'
        rw [arc_eq_some.mpr ⟨l, hl, hd hd', rfl⟩] at harc
        cases harc
  target := ht
  listed := sh.listed
  node hl := by
    obtain ⟨l, hl, hv, -⟩ := sh.node hl
    exact ⟨l, hl, hv⟩
  addr hg := ⟨_, r.addrs ▸ hg⟩
  addrOf he _ := (r.addrOf _).trans he
  live := r.liveAddr
  nextNode := nextNode

theorem shrink (inv : ListInv h m) (gi : GraphInv h' m') (sh : Shrinks m m') (r : Relinks m m')
    (addr : h'.addr = h.addr) : ListInv h' m' where
  toGraphInv := gi
  toAddrInv := (inv.toAddrInv.relinks r).holds addr
  dead_free s he hd := by
    obtain ⟨hlist, ht⟩ := inv.dead_free s (r.addrOf _ ▸ he) (r.liveAddr _ ▸ hd)
    exact ⟨by rw [sh.listed, hlist]; rfl, sh.target_none ht⟩
  stored_listed {n l'} hl' := by
    obtain ⟨l, hl, -⟩ := sh.node hl'
    obtain ⟨e, s, hn⟩ := inv.stored_listed hl
    refine ⟨e, s, ?_⟩
    rw [sh.listed]
    exact List.mem_filter.mpr ⟨hn, by simp [hl']⟩

theorem refNode (inv : ListInv h m) (hn : n ∈ m.graph.listed e s) :
    ∃ m', ElementLink.ref m n = some m' ∧ ListInv (h.holdNode n) m' ∧ Sweeps m m' ∧
      m'.graph = m.graph ∧ m'.addrs = m.addrs := by
  obtain ⟨l, hl⟩ := inv.listed_node hn
  obtain ⟨m', hm', gi, sh, r, hg, -⟩ := inv.toGraphInv.refNode hl
  refine ⟨m', hm', inv.shrink gi sh r rfl, ?_, hg, r.addrs⟩
  refine inv.sweeps_shrinks gi sh r (by simp [hg]) (by simp [hg]) ?_
  rw [ElementLink.ref, modifyNode_eq hl] at hm'
  exact Option.some.inj hm' ▸ rfl

theorem nextNode_unref {m' : Memory} (hm : ElementLink.unref m e s n = some m') :
    m'.nextNode = m.nextNode := by
  simp only [ElementLink.unref, Option.bind_eq_bind, Option.bind_eq_some_iff] at hm
  obtain ⟨l, hl, m₁, hm₁, hm⟩ := hm
  rw [modifyNode_eq hl] at hm₁
  obtain rfl := Option.some.inj hm₁
  split at hm
  · obtain ⟨m₂, hm₂, hm⟩ := Option.bind_eq_some_iff.mp hm
    obtain ⟨-, rfl⟩ := modifyElem_some hm₂
    exact Option.some.inj hm ▸ rfl
  · exact Option.some.inj hm ▸ rfl

theorem unrefNode (inv : ListInv (h.holdNode n) m) (hn : n ∈ m.graph.listed e s) :
    ∃ m', ElementLink.unref m e s n = some m' ∧ ListInv h m' ∧ Sweeps m m' := by
  obtain ⟨m', hm', gi, sh, r, ht, hb, -⟩ := inv.toGraphInv.unrefNode hn
  exact ⟨m', hm', inv.shrink gi sh r rfl,
    inv.sweeps_shrinks gi sh r ht hb (nextNode_unref hm')⟩

/-! ## Iterators -/

theorem mem_after {k : NodeId} (hk : k ∈ TmpIterator.after n l) : k ∈ l :=
  (List.dropWhile_sublist _).mem (List.mem_of_mem_tail hk)

theorem firstLive (inv : ListInv h m) (hl : ∀ k ∈ l, k ∈ m.graph.listed e s) :
    (TmpIterator.firstLive m l = some none ∧ ∀ k ∈ l, m.graph.arc k = none) ∨
      ∃ k b dead rest x, TmpIterator.firstLive m l = some (some (k, b)) ∧
        l = dead ++ k :: rest ∧ (∀ d ∈ dead, m.graph.arc d = none) ∧
        m.graph.arc k = some x ∧ m.addrOf x = some b := by
  induction l with
  | nil => exact .inl ⟨rfl, fun k hk => by cases hk⟩
  | cons k l ih =>
    have hk := hl k List.mem_cons_self
    obtain ⟨lk, hlk⟩ := inv.listed_node hk
    cases hd : lk.dead with
    | true =>
      have harc : m.graph.arc k = none := by simp [graph, hlk, hd]
      have first : TmpIterator.firstLive m (k :: l) = TmpIterator.firstLive m l := by
        simp [TmpIterator.firstLive, hlk, hd]
      rw [first]
      rcases ih fun k' hk' => hl k' (List.mem_cons_of_mem _ hk') with
        ⟨hfirst, hdead⟩ | ⟨k', b, dead, rest, x, hfirst, rfl, hdead, harc', haddr⟩
      · refine .inl ⟨hfirst, fun k' hk' => ?_⟩
        rcases List.mem_cons.mp hk' with rfl | hk'
        · exact harc
        · exact hdead k' hk'
      · refine .inr ⟨k', b, k :: dead, rest, x, hfirst, rfl, fun d hd' => ?_, harc', haddr⟩
        rcases List.mem_cons.mp hd' with rfl | hd'
        · exact harc
        · exact hdead d hd'
    | false =>
      have harc : m.graph.arc k = some lk.value := arc_eq_some.mpr ⟨lk, hlk, hd, rfl⟩
      obtain ⟨b, haddr, -⟩ := inv.arc_addr hk harc
      obtain ⟨v, hv, hvb⟩ := stored_of_addrOf haddr
      refine .inr ⟨k, b, [], l, lk.value, ?_, rfl, fun d hd' => (by cases hd'), harc, haddr⟩
      simp [TmpIterator.firstLive, hlk, hd, hv, hvb]

theorem stand (inv : ListInv h m) {x : ElemId} {b : Addr} (hn : n ∈ m.graph.listed e s)
    (haddr : m.addrOf x = some b) :
    ∃ m₁ m₂, ElementLink.ref m n = some m₁ ∧ GlobalAddr.ref m₁ b = some m₂ ∧
      ListInv ((h.holdAddr b).holdNode n) m₂ ∧ Sweeps m m₂ := by
  obtain ⟨m₁, hm₁, inv₁, sweeps₁, -, haddrs⟩ := inv.refNode hn
  obtain ⟨g, hg, -⟩ := inv.addr_stores haddr
  obtain ⟨m₂, hm₂, inv₂, sweeps₂, -⟩ := inv₁.refAddr (haddrs ▸ hg)
  exact ⟨m₁, m₂, hm₁, hm₂, inv₂, sweeps₁.trans sweeps₂⟩

theorem next (inv : ListInv ((h.holdAddr a).holdNode n) m) (hn : n ∈ m.graph.listed e s) :
    ∃ m' curr, TmpIterator.next m ⟨e, s, some (n, a)⟩ = some (m', ⟨e, s, curr⟩) ∧ Sweeps m m' ∧
      Stops h m m' (TmpIterator.after n (m.graph.listed e s)) curr := by
  obtain ⟨o, ho, -⟩ := stored_of_listed hn
  have hlist : o.arcs s = m.graph.listed e s := (listed_stored ho).symm
  obtain ⟨m₁, hm₁, inv₁, sweeps₁⟩ := inv.unrefNode hn
  obtain ⟨m₂, hm₂, inv₂, sweeps₂⟩ := inv₁.unrefAddr
  have sweeps := sweeps₁.trans sweeps₂
  rcases inv.firstLive (fun k hk => mem_after hk) with
    ⟨hfirst, hdead⟩ | ⟨k, b, dead, rest, x, hfirst, hsplit, hdead, harc, haddr⟩
  · refine ⟨m₂, none, ?_, sweeps, .spent inv₂ hdead⟩
    simp [TmpIterator.next, ho, hlist, hfirst, hm₁, hm₂]
  · have hk : k ∈ m.graph.listed e s := by
      apply mem_after (n := n)
      rw [hsplit]
      exact List.mem_append_right _ List.mem_cons_self
    have harc₂ : m₂.graph.arc k = some x := (sweeps.arc k).trans harc
    have hk₂ : k ∈ m₂.graph.listed e s := by
      obtain ⟨l, hl, -⟩ := arc_eq_some.mp harc₂
      rw [sweeps.listed]
      exact List.mem_filter.mpr ⟨hk, by simp [hl]⟩
    have haddr₂ : m₂.addrOf x = some b := by
      obtain ⟨b', hb', hlive⟩ := inv.arc_addr hk harc
      obtain rfl := Option.some.inj (haddr.symm.trans hb')
      rw [← sweeps.live] at hlive
      obtain ⟨g, hg⟩ : ∃ g, m₂.addrs b = some g := by
        cases hg : m₂.addrs b with
        | none => simp [Memory.liveAddr, hg] at hlive
        | some g => exact ⟨g, rfl⟩
      exact sweeps.addrOf haddr hg
    obtain ⟨m₃, m₄, hm₃, hm₄, inv₄, sweeps₄⟩ := inv₂.stand hk₂ haddr₂
    refine ⟨m₄, some (k, b), ?_, sweeps.trans sweeps₄, .on inv₄ hsplit hdead harc haddr⟩
    simp [TmpIterator.next, ho, hlist, hfirst, hm₁, hm₂, hm₃, hm₄]

theorem create (inv : ListInv h m) (hstored : ∃ o, m.elems e = some o)
    (first : ∀ n l, n ∈ m.graph.listed e s → m.nodes n = some l → ∃ a, m.addrOf l.value = some a) :
    ∃ m' curr, TmpIterator.create m e s = some (m', ⟨e, s, curr⟩) ∧ Sweeps m m' ∧
      Stops h m m' (m.graph.listed e s) curr := by
  obtain ⟨o, ho⟩ := hstored
  have hlist : o.arcs s = m.graph.listed e s := (listed_stored ho).symm
  cases hnodes : m.graph.listed e s with
  | nil =>
    refine ⟨m, none, ?_, Sweeps.refl inv.toGraphInv, .spent inv fun k hk => by cases hk⟩
    simp [TmpIterator.create, ho, hlist, hnodes]
  | cons n post =>
    have hn : n ∈ m.graph.listed e s := hnodes ▸ List.mem_cons_self
    obtain ⟨l, hl⟩ := inv.listed_node hn
    obtain ⟨a, ha⟩ := first n l hn hl
    obtain ⟨v, hv, hva⟩ := stored_of_addrOf ha
    obtain ⟨g, hg, -⟩ := inv.addr_stores ha
    obtain ⟨m₁, hm₁, inv₁, sweeps₁, hgraph₁, hnodes₁⟩ := inv.refAddr hg
    obtain ⟨m₂, hm₂, inv₂, sweeps₂, hgraph₂, haddrs₂⟩ :=
      inv₁.refNode (n := n) (e := e) (s := s) (hgraph₁ ▸ hn)
    have hgraph : m₂.graph = m.graph := hgraph₂.trans hgraph₁
    have sweeps := sweeps₁.trans sweeps₂
    obtain ⟨g₂, hg₂⟩ := inv₂.held_addr (a := a) (by simp [Holds.holdNode, Holds.holdAddr])
    by_cases moves : (l.dead || g₂.dead) = true
    · -- The first node is a dead one: the constructor moves on at once.
      have harc : m.graph.arc n = none := by
        cases hd : l.dead with
        | true => simp [graph, hl, hd]
        | false =>
          have harc : m.graph.arc n = some l.value := arc_eq_some.mpr ⟨l, hl, hd, rfl⟩
          obtain ⟨b, hb, hlive⟩ := inv.arc_addr hn harc
          obtain rfl := Option.some.inj (ha.symm.trans hb)
          rw [← sweeps.live, Memory.liveAddr, hg₂] at hlive
          simp only [hd, Bool.false_or] at moves
          simp [moves] at hlive
      obtain ⟨m₃, curr, hm₃, sweeps₃, stops⟩ :=
        inv₂.next (n := n) (e := e) (s := s) (hgraph ▸ hn)
      have hafter : TmpIterator.after n (m₂.graph.listed e s) = post := by
        rw [hgraph, hnodes]
        simp [TmpIterator.after]
      rw [hafter] at stops
      refine ⟨m₃, curr, ?_, sweeps.trans sweeps₃, ?_⟩
      · simp only [TmpIterator.create, ho, hlist, hnodes, hl, hv, hva, hm₁, hm₂, hg₂,
          Option.bind_eq_bind, Option.bind_some, moves, if_true, hm₃]
      · cases stops with
        | spent inv₃ hdead =>
          refine .spent inv₃ fun k hk => ?_
          rcases List.mem_cons.mp hk with rfl | hk
          · exact harc
          · exact (sweeps.arc k).symm.trans (hdead k hk)
        | @on k b dead rest x inv₃ hsplit hskip harc' haddr =>
          rw [hsplit]
          have split : n :: (dead ++ k :: rest) = (n :: dead) ++ k :: rest := rfl
          refine .on inv₃ split (fun d hd => ?_) ((sweeps.arc k).symm.trans harc') ?_
          · rcases List.mem_cons.mp hd with rfl | hd
            · exact harc
            · exact (sweeps.arc d).symm.trans (hskip d hd)
          · have hk : k ∈ m.graph.listed e s := by
              rw [hnodes, hsplit]
              exact List.mem_cons_of_mem _ (List.mem_append_right _ List.mem_cons_self)
            obtain ⟨b', hb', hlive⟩ := inv.arc_addr hk ((sweeps.arc k).symm.trans harc')
            rw [← sweeps.live] at hlive
            obtain ⟨g', hg', -⟩ : ∃ g', m₂.addrs b' = some g' ∧ g'.dead = false := by
              cases hg' : m₂.addrs b' with
              | none => simp [Memory.liveAddr, hg'] at hlive
              | some g' => exact ⟨g', rfl, by simpa [Memory.liveAddr, hg'] using hlive⟩
            obtain rfl := Option.some.inj (haddr.symm.trans (sweeps.addrOf hb' hg'))
            exact hb'
    · have hd : l.dead = false := by
        cases hd : l.dead with
        | true => simp [hd] at moves
        | false => rfl
      have split : n :: post = [] ++ n :: post := rfl
      have none : ∀ d ∈ ([] : List NodeId), m.graph.arc d = none := fun d hd => by cases hd
      refine ⟨m₂, some (n, a), ?_, sweeps,
        .on inv₂ split none (arc_eq_some.mpr ⟨l, hl, hd, rfl⟩) ha⟩
      simp only [TmpIterator.create, ho, hlist, hnodes, hl, hv, hva, hm₁, hm₂, hg₂,
        Option.bind_eq_bind, Option.bind_some, moves, Bool.false_eq_true, if_false]

theorem destroy (inv : ListInv ((h.holdAddr a).holdNode n) m) (hn : n ∈ m.graph.listed e s) :
    ∃ m', TmpIterator.destroy m ⟨e, s, some (n, a)⟩ = some m' ∧ ListInv h m' ∧ Sweeps m m' := by
  have inv₀ : ListInv ((h.holdNode n).holdAddr a) m := inv
  obtain ⟨m₁, hm₁, inv₁, sweeps₁⟩ := inv₀.unrefAddr
  have hn₁ : n ∈ m₁.graph.listed e s := by
    obtain ⟨l, hl⟩ := inv₁.held_node (n := n) (by simp [Holds.holdNode])
    rw [sweeps₁.listed]
    exact List.mem_filter.mpr ⟨hn, by simp [hl]⟩
  obtain ⟨m₂, hm₂, inv₂, sweeps₂⟩ := inv₁.unrefNode hn₁
  refine ⟨m₂, ?_, inv₂, sweeps₁.trans sweeps₂⟩
  simp [TmpIterator.destroy, hm₁, hm₂]

end ListInv

end ScCore.Store
