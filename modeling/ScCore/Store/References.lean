import ScCore.Store.Ends

/-!
# Taking and dropping references

A node or an address goes when its last reference is dropped after it has died.
-/

namespace ScCore.Store

open Memory TmpSegment

namespace Holds

def holdNode (h : Holds) (n : NodeId) : Holds :=
  { h with node := fun x => if x = n then h.node x + 1 else h.node x }

def holdAddr (h : Holds) (a : Addr) : Holds :=
  { h with addr := fun x => if x = a then h.addr x + 1 else h.addr x }

theorem holdAddr_other {a x : Addr} (h : Holds) (hx : x ≠ a) : (h.holdAddr a).addr x = h.addr x :=
  if_neg hx

end Holds

variable {h : Holds} {m m' : Memory}

/-! ## Nodes -/

section Nodes

variable {n : NodeId} {h' : Holds}

theorem GraphInv.holds (gi : GraphInv h m) (node : h'.node = h.node) : GraphInv h' m :=
  ⟨gi.coherent, gi.qnt_eq, gi.listed_node, node ▸ gi.node_refs, node ▸ gi.node_held,
    node ▸ gi.held_node, gi.node_lt⟩

theorem AddrInv.holds (ai : AddrInv h m) (addr : h'.addr = h.addr) : AddrInv h' m :=
  ⟨ai.stores_addr, ai.addr_stores, ai.addressed, ai.nodup, ai.not_zombie, addr ▸ ai.addr_refs,
    addr ▸ ai.addr_held, addr ▸ ai.held_addr, ai.elem_lt, ai.addr_lt⟩

theorem GraphInv.recount (gi : GraphInv h m) {f : ElementLink → ElementLink} {d : Int}
    (hf : ∀ l, (f l).refcnt = l.refcnt + d) (hval : ∀ l, (f l).value = l.value)
    (hdead : ∀ l, (f l).dead = l.dead) (other : ∀ x, x ≠ n → h'.node x = h.node x)
    (hold : (h'.node n : Int) = h.node n + d) {l : ElementLink} (hn : m.nodes n = some l)
    (held : l.dead = true → 0 < h'.node n) :
    GraphInv h' (m.mapNode n f) ∧ Shrinks m (m.mapNode n f) ∧ (m.mapNode n f).graph = m.graph := by
  have hg : (m.mapNode n f).graph = m.graph := graph_countNode n hdead hval
  have hnode : ∀ {x l'}, (m.mapNode n f).nodes x = some l' →
      ∃ l, m.nodes x = some l ∧ l' = if x = n then f l else l := by
    intro x l' hl'
    rw [mapNode_nodes] at hl'
    split at hl'
    · next hx =>
      obtain ⟨l, hl, rfl⟩ := Option.map_eq_some_iff.mp hl'
      exact ⟨l, hl, by simp [hx]⟩
    · next hx => exact ⟨l', hl', by simp [hx]⟩
  have hsome : ∀ x, ((m.mapNode n f).nodes x).isSome = (m.nodes x).isSome := by
    intro x
    rw [mapNode_nodes]
    split <;> simp
  refine ⟨?_, ?_, hg⟩
  · exact {
      coherent := hg ▸ gi.coherent
      qnt_eq := fun e s => by rw [hg]; exact gi.qnt_eq e s
      listed_node := fun {e s x} hx => by
        rw [hg] at hx
        rw [← Option.isSome_iff_exists, hsome, Option.isSome_iff_exists]
        exact gi.listed_node hx
      node_refs := fun {x l'} hl' => by
        obtain ⟨l, hl, rfl⟩ := hnode hl'
        have := gi.node_refs hl
        by_cases hx : x = n
        · subst hx
          simp only [if_true, hf, hdead, this, hold]
          omega
        · simpa [hx, other x hx] using this
      node_held := fun {x l'} hl' hd => by
        obtain ⟨l₀, hl, rfl⟩ := hnode hl'
        by_cases hx : x = n
        · subst hx
          obtain rfl : l = l₀ := by simpa [hn] using hl
          exact held (by simpa [hdead] using hd)
        · rw [other x hx]
          exact gi.node_held hl (by simpa [hx] using hd)
      held_node := fun {x} hx => by
        rw [← Option.isSome_iff_exists, hsome, Option.isSome_iff_exists]
        by_cases hxn : x = n
        · exact ⟨l, hxn ▸ hn⟩
        · exact gi.held_node (other x hxn ▸ hx)
      node_lt := fun {x l'} hl' => by
        obtain ⟨l, hl, -⟩ := hnode hl'
        exact gi.node_lt hl }
  · exact {
      listed := fun e s => by
        rw [hg, List.filter_congr fun x _ => hsome x]
        exact (gi.filter_stored e s).symm
      node := fun {x l'} hl' => by
        obtain ⟨l, hl, rfl⟩ := hnode hl'
        refine ⟨l, hl, ?_, ?_⟩
        · split <;> simp [hval]
        · split <;> simp [hdead]
      target := fun ht => by rwa [hg] at ht
      label := fun hl => ⟨_, hl, rfl, rfl⟩
      addr := fun ha => ⟨_, ha, rfl, rfl, rfl, id⟩
      uri := fun _ => rfl }

variable {e : ElemId} {s : Endpoint}

theorem qnt_unlinked (x : ElemId) (t : Endpoint) : (unlinked m e s n).qnt x t = m.qnt x t :=
  qnt_mapElem (m := m) (by exact fun _ => rfl) x t

theorem GraphInv.unlink (gi : GraphInv h m) (hn : n ∈ m.graph.listed e s)
    (dead : m.graph.arc n = none) (unheld : h'.node n = 0)
    (other : ∀ x, x ≠ n → h'.node x = h.node x) :
    GraphInv h' (unlinked m e s n) ∧ Shrinks m (unlinked m e s n) ∧
      (∀ x t, (unlinked m e s n).graph.target x t = m.graph.target x t) ∧
      ∀ x t, (unlinked m e s n).graph.back x t = m.graph.back x t := by
  have hg : (unlinked m e s n).graph = m.graph.unlink e s n := by
    rw [unlinked, graph_freeNode, graph_eraseNode]
    refine AdjacencyLists.ext (fun _ _ => rfl) (fun x => ?_) (fun _ _ => rfl) fun _ _ => rfl
    show (if x = n then none else m.graph.arc x) = m.graph.arc x
    split
    · next hx => rw [hx, dead]
    · rfl
  have hnodes : ∀ x, (unlinked m e s n).nodes x = if x = n then none else m.nodes x := fun _ => rfl
  have hlisted : ∀ x t, (unlinked m e s n).graph.listed x t =
      (m.graph.listed x t).filter fun n' => ((unlinked m e s n).nodes n').isSome := by
    intro x t
    have hsome : ∀ n' ∈ m.graph.listed x t,
        ((unlinked m e s n).nodes n').isSome = (n' != n) := by
      intro n' hn'
      obtain ⟨l', hl'⟩ := gi.listed_node hn'
      by_cases hnn : n' = n <;> simp [hnodes, hnn, hl']
    rw [List.filter_congr hsome, hg]
    show (if x = e ∧ t = s then (m.graph.listed e s).erase n else m.graph.listed x t) = _
    split
    · next same =>
      rw [same.1, same.2]
      exact (gi.coherent.nodup e s).erase_eq_filter n
    · next diff =>
      refine (List.filter_eq_self.mpr fun n' hn' => ?_).symm
      simp only [bne_iff_ne]
      rintro rfl
      exact gi.listed_ne hn diff hn'
  have hnode : ∀ {x l}, (unlinked m e s n).nodes x = some l → x ≠ n ∧ m.nodes x = some l := by
    intro x l hl
    rw [hnodes] at hl
    split at hl
    · cases hl
    · next hx => exact ⟨hx, hl⟩
  refine ⟨?_, ?_, fun x t => by rw [hg]; rfl, fun x t => by rw [hg]; rfl⟩
  · exact {
      coherent := hg ▸ gi.coherent.unlink dead
      qnt_eq := fun x t => by
        rw [qnt_unlinked, hg, AdjacencyLists.Coherent.arcs_unlink dead]
        exact gi.qnt_eq x t
      listed_node := fun {x t n'} hn' => by
        rw [hlisted] at hn'
        simpa [Option.isSome_iff_exists] using (List.mem_filter.mp hn').2
      node_refs := fun {x l} hl => by
        obtain ⟨hx, hl⟩ := hnode hl
        rw [other x hx]
        exact gi.node_refs hl
      node_held := fun {x l} hl hd => by
        obtain ⟨hx, hl⟩ := hnode hl
        rw [other x hx]
        exact gi.node_held hl hd
      held_node := fun {x} hx => by
        have hxn : x ≠ n := by
          rintro rfl
          omega
        rw [hnodes, if_neg hxn]
        exact gi.held_node (other x hxn ▸ hx)
      node_lt := fun {x l} hl => gi.node_lt (hnode hl).2 }
  · exact {
      listed := hlisted
      node := fun hl => ⟨_, (hnode hl).2, rfl, id⟩
      target := fun ht => by rw [hg] at ht; exact ht
      label := fun {x l'} hl => ⟨_, (relinks_unlinked.label x).symm.trans hl, rfl, rfl⟩
      addr := fun ha => ⟨_, ha, rfl, rfl, rfl, id⟩
      uri := fun _ => rfl }

theorem GraphInv.refNode (gi : GraphInv h m) {l : ElementLink} (hn : m.nodes n = some l) :
    ∃ m', ElementLink.ref m n = some m' ∧ GraphInv (h.holdNode n) m' ∧ Shrinks m m' ∧
      Relinks m m' ∧ m'.graph = m.graph ∧ ∀ x t, m'.qnt x t = m.qnt x t := by
  have other : ∀ x, x ≠ n → (h.holdNode n).node x = h.node x := by
    intro x hx
    simp [Holds.holdNode, hx]
  obtain ⟨gi', sh, hg⟩ := gi.recount (d := 1) (f := fun l => { l with refcnt := l.refcnt + 1 })
    (fun _ => rfl) (fun _ => rfl) (fun _ => rfl) other (by simp [Holds.holdNode]) hn
    fun _ => by simp [Holds.holdNode]
  exact ⟨_, modifyNode_eq hn, gi', sh, relinks_mapNode, hg, fun _ _ => rfl⟩

theorem GraphInv.unrefNode (gi : GraphInv (h.holdNode n) m) (hn : n ∈ m.graph.listed e s) :
    ∃ m', ElementLink.unref m e s n = some m' ∧ GraphInv h m' ∧ Shrinks m m' ∧ Relinks m m' ∧
      (∀ x t, m'.graph.target x t = m.graph.target x t) ∧
      (∀ x t, m'.graph.back x t = m.graph.back x t) ∧ ∀ x t, m'.qnt x t = m.qnt x t := by
  obtain ⟨l, hl⟩ := gi.listed_node hn
  obtain ⟨o, ho, -⟩ := stored_of_listed hn
  have hrefs := gi.node_refs hl
  have other : ∀ x, x ≠ n → h.node x = (h.holdNode n).node x := by
    intro x hx
    simp [Holds.holdNode, hx]
  simp only [Holds.holdNode, if_true] at hrefs
  rw [unref_eq ho hl]
  by_cases hr : l.refcnt = 1
  · have hdead : l.dead = true := by
      cases hd : l.dead with
      | true => rfl
      | false => simp [hd] at hrefs; omega
    have unheld : h.node n = 0 := by
      simp only [hdead, if_true] at hrefs
      omega
    obtain ⟨gi', sh, ht, hb⟩ := gi.unlink hn (by simp [graph, hl, hdead]) unheld other
    exact ⟨_, by rw [if_pos hr], gi', sh, relinks_unlinked, ht, hb, qnt_unlinked⟩
  · obtain ⟨gi', sh, hg⟩ := gi.recount (n := n) (d := -1)
      (f := fun l => { l with refcnt := l.refcnt - 1 }) (fun _ => rfl) (fun _ => rfl)
      (fun _ => rfl) other (by simp only [Holds.holdNode, if_true]; omega) hl fun hd => by
        simp only [hd, if_true] at hrefs
        omega
    refine ⟨_, by rw [if_neg hr], gi', sh, relinks_mapNode, ?_, ?_, fun _ _ => rfl⟩
    · intro x t
      rw [hg]
    · intro x t
      rw [hg]

end Nodes

/-! ## Addresses -/

section Addresses

variable {a : Addr} {h' : Holds}

variable {g : GlobalAddr} {f : GlobalAddr → GlobalAddr}

theorem of_stores_eq {g' : GlobalAddr} (hs : g'.stores = g.stores) :
    g'.seg = g.seg ∧ g'.impl = g.impl ∧ g'.links = g.links := by
  simpa [GlobalAddr.stores, and_assoc] using hs

theorem AddrInv.recount (ai : AddrInv h m) (hg : m.addrs a = some g)
    (hstores : ∀ g, (f g).stores = g.stores) (hzombie : ∀ g, (f g).zombie = g.zombie)
    (other : ∀ x, x ≠ a → h'.addr x = h.addr x)
    (refs : (f g).refcnt = h'.addr a + if (f g).dead then 0 else refcntBarrier)
    (held : (f g).dead = true → 0 < h'.addr a) : AddrInv h' (m.mapAddr a f) := by
  have haddr : ∀ {b g'}, (m.mapAddr a f).addrs b = some g' →
      (b = a ∧ g' = f g) ∨ (b ≠ a ∧ m.addrs b = some g') := by
    intro b g' hb
    rw [mapAddr_addrs] at hb
    split at hb
    · next hba =>
      rw [hba, hg] at hb
      exact .inl ⟨hba, (Option.some.inj hb).symm⟩
    · next hba => exact .inr ⟨hba, hb⟩
  have hstored : ∀ {b g'}, m.addrs b = some g' →
      ∃ g'', (m.mapAddr a f).addrs b = some g'' ∧ g''.stores = g'.stores := by
    intro b g' hb
    rw [mapAddr_addrs]
    split
    · exact ⟨f g', by rw [hb]; rfl, hstores g'⟩
    · exact ⟨g', hb, rfl⟩
  exact {
    stores_addr := fun {b g' st} hb hst => by
      rcases haddr hb with ⟨rfl, rfl⟩ | ⟨-, hb⟩
      · exact ai.stores_addr hg (hstores g ▸ hst)
      · exact ai.stores_addr hb hst
    addr_stores := fun {e b} he => by
      obtain ⟨g', hg', st, hst, hi⟩ := ai.addr_stores (e := e) he
      obtain ⟨g'', hg'', hs⟩ := hstored hg'
      exact ⟨g'', hg'', st, hs ▸ hst, hi⟩
    addressed := ai.addressed
    nodup := fun {b g'} hb => by
      rcases haddr hb with ⟨rfl, rfl⟩ | ⟨-, hb⟩
      · exact hstores g ▸ ai.nodup hg
      · exact ai.nodup hb
    not_zombie := fun {b g'} hb => by
      rcases haddr hb with ⟨rfl, rfl⟩ | ⟨-, hb⟩
      · exact (hzombie g).trans (ai.not_zombie hg)
      · exact ai.not_zombie hb
    addr_refs := fun {b g'} hb => by
      rcases haddr hb with ⟨rfl, rfl⟩ | ⟨hne, hb⟩
      · exact refs
      · exact other b hne ▸ ai.addr_refs hb
    addr_held := fun {b g'} hb hd => by
      rcases haddr hb with ⟨rfl, rfl⟩ | ⟨hne, hb⟩
      · exact held hd
      · exact other b hne ▸ ai.addr_held hb hd
    held_addr := fun {b} hb => by
      by_cases hba : b = a
      · obtain ⟨g'', hg'', -⟩ := hstored hg
        exact ⟨g'', hba ▸ hg''⟩
      · obtain ⟨g', hg'⟩ := ai.held_addr (other b hba ▸ hb)
        obtain ⟨g'', hg'', -⟩ := hstored hg'
        exact ⟨g'', hg''⟩
    elem_lt := ai.elem_lt
    addr_lt := fun {b g'} hb => by
      rcases haddr hb with ⟨rfl, rfl⟩ | ⟨-, hb⟩
      · exact ai.addr_lt hg
      · exact ai.addr_lt hb }

/-- The address `a` and its elements are deleted. -/
structure Drops (a : Addr) (m m' : Memory) : Prop where
  elems : ∀ e, m'.elems e = if m.addrOf e = some a then none else m.elems e
  nodes : m'.nodes = m.nodes
  addrs : ∀ b, m'.addrs b = if b = a then none else m.addrs b
  nextElem : m'.nextElem = m.nextElem
  nextNode : m'.nextNode = m.nextNode
  nextAddr : m'.nextAddr = m.nextAddr
  uri : ∀ j, (m'.segs j).uri = (m.segs j).uri

namespace Drops

variable {e : ElemId} {b : Addr}

theorem elems_some (d : Drops a m m') {el : Element} (he : m'.elems e = some el) :
    m.addrOf e ≠ some a ∧ m.elems e = some el := by
  rw [d.elems] at he
  split at he
  · cases he
  · next hne => exact ⟨hne, he⟩

theorem label (d : Drops a m m') (he : m.addrOf e ≠ some a) : m'.label e = m.label e := by
  rw [Memory.label, Memory.label, d.elems, if_neg he]

theorem addrOf_some (d : Drops a m m') (he : m'.addrOf e = some b) :
    b ≠ a ∧ m.addrOf e = some b := by
  obtain ⟨el, hel, hb⟩ := stored_of_addrOf he
  obtain ⟨hne, hel'⟩ := d.elems_some hel
  have : m.addrOf e = some b := (addrOf_stored hel').trans hb
  exact ⟨fun hba => hne (hba ▸ this), this⟩

theorem addrs_some (d : Drops a m m') {g : GlobalAddr} (hb : m'.addrs b = some g) :
    b ≠ a ∧ m.addrs b = some g := by
  rw [d.addrs] at hb
  split at hb
  · cases hb
  · next hne => exact ⟨hne, hb⟩

variable (bare : ∀ e, m.addrOf e = some a → ∀ s, m.graph.listed e s = [] ∧
  m.graph.target e s = none)
include bare

section

variable (d : Drops a m m') (gi : GraphInv h m)
include d gi

theorem graph : m'.graph = m.graph := by
  refine AdjacencyLists.ext (fun e s => ?_) (fun n => ?_) (fun e s => ?_) fun e s => ?_
  · by_cases he : m.addrOf e = some a
    · rw [listed_missing (by rw [d.elems, if_pos he]), (bare e he s).1]
    · show ((m'.elems e).map _).getD _ = ((m.elems e).map _).getD _
      rw [d.elems, if_neg he]
  · show (m'.nodes n).bind _ = (m.nodes n).bind _
    rw [d.nodes]
  · by_cases he : m.addrOf e = some a
    · rw [target_missing (by rw [d.elems, if_pos he]), (bare e he s).2]
    · show (m'.elems e).bind _ = (m.elems e).bind _
      rw [d.elems, if_neg he]
  · by_cases he : m.addrOf e = some a
    · rw [back_missing (by rw [d.elems, if_pos he]), gi.coherent.back_none (bare e he s).2]
    · show (m'.elems e).bind _ = (m.elems e).bind _
      rw [d.elems, if_neg he]

theorem qnt (e : ElemId) (s : Endpoint) : m'.qnt e s = m.qnt e s := by
  by_cases he : m.addrOf e = some a
  · rw [qnt_missing (by rw [d.elems, if_pos he]), gi.qnt_eq, AdjacencyLists.arcs, (bare e he s).1]
    rfl
  · rw [Memory.qnt, Memory.qnt, d.elems, if_neg he]

theorem shrinks : Shrinks m m' where
  listed e s := by
    rw [d.graph bare gi, d.nodes]
    exact (gi.filter_stored e s).symm
  node hl := ⟨_, d.nodes ▸ hl, rfl, id⟩
  target ht := d.graph bare gi ▸ ht
  label := by
    intro e l' hl'
    have he : m.addrOf e ≠ some a := by
      intro he
      simp [Memory.label, d.elems, he] at hl'
    exact ⟨l', (d.label he).symm.trans hl', rfl, rfl⟩
  addr hb := ⟨_, (d.addrs_some hb).2, rfl, rfl, rfl, id⟩
  uri := d.uri

theorem keeps (hb : b ≠ a) : Keeps m m' b := by
  intro e he
  refine ⟨d.label fun h' => hb (Option.some.inj (he.symm.trans h')), fun s => ?_⟩
  rw [d.graph bare gi]
  exact ⟨rfl, rfl⟩

end

omit bare in
theorem liveAddr (d : Drops a m m') (hb : b ≠ a) : m'.liveAddr b = m.liveAddr b := by
  rw [Memory.liveAddr, Memory.liveAddr, d.addrs, if_neg hb]

omit bare in
theorem liveAddr_self (d : Drops a m m') : m'.liveAddr a = false := by
  simp [Memory.liveAddr, d.addrs]

omit bare in
theorem addrInv (d : Drops a m m') (ai : AddrInv h m) (other : ∀ b, b ≠ a → h'.addr b = h.addr b)
    (unheld : h'.addr a = 0) : AddrInv h' m' where
  stores_addr := by
    intro b g st hb hst
    obtain ⟨hne, hb⟩ := d.addrs_some hb
    have he := ai.stores_addr hb hst
    rw [addrOf_congr (d.label fun h' => hne (Option.some.inj (he.symm.trans h')))]
    exact he
  addr_stores := by
    intro e b he
    obtain ⟨hne, he⟩ := d.addrOf_some he
    rw [d.addrs, if_neg hne]
    exact ai.addr_stores he
  addressed he := ai.addressed (d.elems_some he).2
  nodup hb := ai.nodup (d.addrs_some hb).2
  not_zombie hb := ai.not_zombie (d.addrs_some hb).2
  addr_refs := by
    intro b g hb
    obtain ⟨hne, hb⟩ := d.addrs_some hb
    exact other b hne ▸ ai.addr_refs hb
  addr_held := by
    intro b g hb hd
    obtain ⟨hne, hb⟩ := d.addrs_some hb
    exact other b hne ▸ ai.addr_held hb hd
  held_addr := by
    intro b hb
    have hne : b ≠ a := by
      rintro rfl
      simp [unheld] at hb
    rw [d.addrs, if_neg hne]
    exact ai.held_addr (other b hne ▸ hb)
  elem_lt he := d.nextElem ▸ ai.elem_lt (d.elems_some he).2
  addr_lt hb := d.nextAddr ▸ ai.addr_lt (d.addrs_some hb).2

theorem inv (d : Drops a m m') (inv : Inv h m) (nodes : h'.node = h.node)
    (other : ∀ b, b ≠ a → h'.addr b = h.addr b) (unheld : h'.addr a = 0) : Inv h' m' where
  toGraphInv := (inv.toGraphInv.congr (d.graph bare inv.toGraphInv) (d.qnt bare inv.toGraphInv)
    d.nodes d.nextNode).holds nodes
  toAddrInv := d.addrInv inv.toAddrInv other unheld
  own hb hst := by
    rw [d.graph bare inv.toGraphInv]
    exact inv.own (d.addrs_some hb).2 hst
  typed := by
    intro x s e l ht hl
    have sh := d.shrinks bare inv.toGraphInv
    obtain ⟨l', hl', -, htype⟩ := sh.label hl
    exact htype ▸ inv.typed (sh.target ht) hl'
  dead_free := by
    intro e b s he hd
    obtain ⟨hne, he⟩ := d.addrOf_some he
    rw [d.graph bare inv.toGraphInv]
    exact inv.dead_free s he ((d.liveAddr hne).symm.trans hd)
  held_detached := by
    intro n e s b x t hh hn he hx
    rw [d.graph bare inv.toGraphInv] at hn ⊢
    exact inv.held_detached (nodes ▸ hh) hn (d.addrOf_some he).2 (d.addrOf_some hx).2

theorem tallied (d : Drops a m m') (gi : GraphInv h m) : Tallied m m' := by
  intro R _ t b g s hb
  simp only [d.qnt bare gi]
  exact t b g s (d.addrs_some hb).2

end Drops

theorem eraseEl_stored {e : ElemId} {el : Element} (hel : m.elems e = some el) (seg : SegId) :
    ∃ m', TmpSegment.eraseEl m seg e = some m' ∧
      (∀ x, m'.elems x = if x = e then none else m.elems x) ∧ m'.nodes = m.nodes ∧
      m'.addrs = m.addrs ∧ m'.nextElem = m.nextElem ∧ m'.nextNode = m.nextNode ∧
      m'.nextAddr = m.nextAddr ∧ ∀ j, (m'.segs j).uri = (m.segs j).uri := by
  refine ⟨_, by simp only [TmpSegment.eraseEl, hel]; rfl, ?_⟩
  split
  all_goals
    refine ⟨fun _ => rfl, rfl, rfl, rfl, rfl, rfl, fun j => ?_⟩
    by_cases hj : j = seg <;> simp [freeElem, TmpSegment.deregisterIdtf, modifySeg, hj]

theorem eraseStores_eq (l : List LinkAddr) (m : Memory)
    (stored : ∀ st ∈ l, ∃ el, m.elems st.impl = some el) (nodup : (l.map (·.impl)).Nodup) :
    ∃ m', GlobalAddr.eraseStores m l = some m' ∧
      (∀ e, m'.elems e = if e ∈ l.map (·.impl) then none else m.elems e) ∧
      m'.nodes = m.nodes ∧ m'.addrs = m.addrs ∧ m'.nextElem = m.nextElem ∧
      m'.nextNode = m.nextNode ∧ m'.nextAddr = m.nextAddr ∧
      ∀ j, (m'.segs j).uri = (m.segs j).uri := by
  induction l generalizing m with
  | nil => exact ⟨m, rfl, fun e => by simp, rfl, rfl, rfl, rfl, rfl, fun _ => rfl⟩
  | cons st l ih =>
    obtain ⟨el, hel⟩ := stored st List.mem_cons_self
    simp only [List.map_cons, List.nodup_cons] at nodup
    obtain ⟨m₁, hm₁, he₁, hn₁, ha₁, hne₁, hnn₁, hna₁, hu₁⟩ := eraseEl_stored hel st.seg
    obtain ⟨m₂, hm₂, he₂, hn₂, ha₂, hne₂, hnn₂, hna₂, hu₂⟩ := ih m₁ (fun st' hst' => by
      obtain ⟨el', hel'⟩ := stored st' (List.mem_cons_of_mem _ hst')
      have hne : st'.impl ≠ st.impl := fun h' =>
        nodup.1 (h' ▸ List.mem_map_of_mem hst')
      exact ⟨el', by rw [he₁, if_neg hne, hel']⟩) nodup.2
    refine ⟨m₂, by simp [GlobalAddr.eraseStores, hm₁, hm₂], fun e => ?_, hn₂.trans hn₁,
      ha₂.trans ha₁, hne₂.trans hne₁, hnn₂.trans hnn₁, hna₂.trans hna₁,
      fun j => (hu₂ j).trans (hu₁ j)⟩
    rw [he₂, he₁]
    by_cases he : e = st.impl <;> by_cases hl : e ∈ l.map (·.impl) <;> simp [he, hl]

theorem AddrInv.eraseAddr (ai : AddrInv h m) (hg : m.addrs a = some g)
    (hstores : ∀ g, (f g).stores = g.stores) (hzombie : ∀ g, (f g).zombie = g.zombie) :
    ∃ m', GlobalAddr.eraseAddr (m.mapAddr a f) a = some m' ∧ Drops a m m' := by
  obtain ⟨m', hm', he, hn, ha, hne, hnn, hna, hu⟩ := eraseStores_eq g.stores (m.mapAddr a f)
    (fun st hst => by
      obtain ⟨el, hel, -⟩ := ai.stored hg hst
      exact ⟨el, hel⟩) (ai.nodup hg)
  refine ⟨m'.freeAddr a, ?_, ?_⟩
  · simp [GlobalAddr.eraseAddr, hg, hzombie, hstores, ai.not_zombie hg, hm']
  · exact {
      elems := fun e => by
        have hiff : e ∈ g.stores.map (·.impl) ↔ m.addrOf e = some a := by
          rw [List.mem_map]
          constructor
          · rintro ⟨st, hst, rfl⟩
            exact ai.stores_addr hg hst
          · intro he
            obtain ⟨g', hg', st, hst, hi⟩ := ai.addr_stores he
            obtain rfl : g = g' := by simpa [hg] using hg'
            exact ⟨st, hst, hi⟩
        show m'.elems e = _
        rw [he]
        simp only [hiff]
        rfl
      nodes := hn
      addrs := fun b => by
        show (if b = a then none else m'.addrs b) = _
        rw [ha, mapAddr_addrs]
        by_cases hb : b = a <;> simp [hb]
      nextElem := hne
      nextNode := hnn
      nextAddr := hna
      uri := hu }

structure Rerefs (m m' : Memory) : Prop where
  shrinks : Shrinks m m'
  live : ∀ b, m'.liveAddr b = m.liveAddr b
  keeps : ∀ b, m.liveAddr b = true → Keeps m m' b

theorem Inv.recount (inv : Inv h m)
    (hg : m.addrs a = some g) (hstores : ∀ g, (f g).stores = g.stores)
    (hzombie : ∀ g, (f g).zombie = g.zombie)
    (other : ∀ x, x ≠ a → h'.addr x = h.addr x) (node : h'.node = h.node)
    (refs : (f g).refcnt = h'.addr a + if (f g).dead then 0 else refcntBarrier)
    (held : (f g).dead = true → 0 < h'.addr a)
    (bare : g.dead = false → (f g).dead = true → ∀ e, m.addrOf e = some a → ∀ s,
      m.graph.listed e s = [] ∧ m.graph.target e s = none) :
    Inv h' (m.mapAddr a f) where
  toGraphInv := (inv.toGraphInv.holds node).congr rfl (fun _ _ => rfl) rfl rfl
  toAddrInv := inv.toAddrInv.recount hg hstores hzombie other refs held
  own := by
    intro b g' st s hb hst
    rw [mapAddr_addrs] at hb
    split at hb
    · obtain ⟨g₀, hg₀, rfl⟩ := Option.map_eq_some_iff.mp hb
      exact inv.own hg₀ ((of_stores_eq (hstores g₀)).2.2 ▸ hst)
    · exact inv.own hb hst
  typed := inv.typed
  dead_free := by
    intro e b s he hd
    by_cases hba : b = a
    · subst hba
      have hfd : (f g).dead = true := by simpa [Memory.liveAddr, hg] using hd
      cases hgd : g.dead with
      | true => exact inv.dead_free s he (by simp [Memory.liveAddr, hg, hgd])
      | false => exact bare hgd hfd e he s
    · exact inv.dead_free s he (by simpa [Memory.liveAddr, hba] using hd)
  held_detached hh := inv.held_detached (node ▸ hh)

theorem shrinks_mapAddr (gi : GraphInv h m) (hg : m.addrs a = some g)
    (hstores : ∀ g, (f g).stores = g.stores) (hdead : (f g).dead = false → g.dead = false) :
    Shrinks m (m.mapAddr a f) where
  listed e s := (gi.filter_stored e s).symm
  node hn := ⟨_, hn, rfl, id⟩
  target := id
  label hl := ⟨_, hl, rfl, rfl⟩
  addr := by
    intro b g' hb
    rw [mapAddr_addrs] at hb
    split at hb
    · next hba =>
      rw [hba, hg] at hb
      obtain rfl := Option.some.inj hb
      obtain ⟨hs, hi, hl⟩ := of_stores_eq (hstores g)
      exact ⟨g, hba ▸ hg, hs, hi, hl, hdead⟩
    · exact ⟨g', hb, rfl, rfl, rfl, id⟩
  uri _ := rfl

theorem tallied_mapAddr (hstores : ∀ g, (f g).stores = g.stores) (hqnt : ∀ g, (f g).qnt = g.qnt) :
    Tallied m (m.mapAddr a f) := by
  intro R _ t b g' s hb
  rw [mapAddr_addrs] at hb
  split at hb
  · obtain ⟨g, hg, rfl⟩ := Option.map_eq_some_iff.mp hb
    rw [hqnt, hstores]
    exact t b g s hg
  · exact t b g' s hb

theorem liveAddr_mapAddr (hg : m.addrs a = some g) (hdead : (f g).dead = g.dead) (b : Addr) :
    (m.mapAddr a f).liveAddr b = m.liveAddr b := by
  by_cases hba : b = a
  · subst hba
    simp [Memory.liveAddr, hg, hdead]
  · simp [Memory.liveAddr, hba]

theorem Inv.refAddr (inv : Inv h m) (hg : m.addrs a = some g) :
    ∃ m', GlobalAddr.ref m a = some m' ∧ Inv (h.holdAddr a) m' ∧ Tallied m m' ∧
      Rerefs m m' ∧ m'.graph = m.graph := by
  have refs := inv.addr_refs hg
  refine ⟨_, modifyAddr_eq hg, ?_, tallied_mapAddr (fun _ => rfl) fun _ => rfl, ?_, rfl⟩
  · refine inv.recount hg (fun _ => rfl) (fun _ => rfl) (fun _ => h.holdAddr_other) rfl ?_ ?_ ?_
    · simp only [refs, Holds.holdAddr, if_true]
      omega
    · simp [Holds.holdAddr]
    · intro hd hd'
      simp [hd] at hd'
  · exact ⟨shrinks_mapAddr inv.toGraphInv hg (fun _ => rfl) id, liveAddr_mapAddr hg rfl,
      fun b _ => Keeps.refl m b⟩

theorem AddrInv.unref (ai : AddrInv (h.holdAddr a) m) : ∃ g, m.addrs a = some g ∧
    ((m.liveAddr a = false ∧ h.addr a = 0 ∧
        ∃ m', GlobalAddr.unref m a = some m' ∧ Drops a m m') ∨
      (GlobalAddr.unref m a = some (m.mapAddr a fun g => { g with refcnt := g.refcnt - 1 }) ∧
        g.refcnt - 1 = h.addr a + (if g.dead then 0 else refcntBarrier) ∧
        (g.dead = true → 0 < h.addr a))) := by
  obtain ⟨g, hg⟩ := ai.held_addr (a := a) (by simp [Holds.holdAddr])
  have refs := ai.addr_refs hg
  simp only [Holds.holdAddr, if_true] at refs
  refine ⟨g, hg, ?_⟩
  by_cases hr : g.refcnt - 1 = 0
  · have hdead : g.dead = true := by
      cases hd : g.dead with
      | true => rfl
      | false => simp [hd, refcntBarrier] at refs; omega
    simp only [hdead, if_true] at refs
    obtain ⟨m', hm', d⟩ := ai.eraseAddr hg
      (f := fun g => { g with refcnt := g.refcnt - 1 }) (fun _ => rfl) fun _ => rfl
    refine .inl ⟨by simp [Memory.liveAddr, hg, hdead], by omega, m', ?_, d⟩
    simp [GlobalAddr.unref, hg, modifyAddr_eq hg, hr, hm']
  · refine .inr ⟨by simp [GlobalAddr.unref, hg, modifyAddr_eq hg, hr], by omega, fun hd => ?_⟩
    simp only [hd, if_true] at refs
    omega

theorem Inv.unrefAddr (inv : Inv (h.holdAddr a) m) :
    ∃ m', GlobalAddr.unref m a = some m' ∧ Inv h m' ∧ Tallied m m' ∧ Rerefs m m' := by
  obtain ⟨g, hg, ⟨dead, unheld, m', hm', d⟩ | ⟨hm', refs, held⟩⟩ := inv.toAddrInv.unref
  · have bare : ∀ e, m.addrOf e = some a → ∀ s, m.graph.listed e s = [] ∧
        m.graph.target e s = none := fun e he s => inv.dead_free s he dead
    refine ⟨m', hm', d.inv bare inv rfl (fun _ hx => (h.holdAddr_other hx).symm) unheld,
      d.tallied bare inv.toGraphInv, d.shrinks bare inv.toGraphInv, fun b => ?_, fun b hb => ?_⟩
    · by_cases hba : b = a
      · rw [hba, d.liveAddr_self, dead]
      · exact d.liveAddr hba
    · refine d.keeps bare inv.toGraphInv ?_
      rintro rfl
      simp [dead] at hb
  · refine ⟨_, hm', ?_, tallied_mapAddr (fun _ => rfl) fun _ => rfl,
      shrinks_mapAddr inv.toGraphInv hg (fun _ => rfl) id, liveAddr_mapAddr hg rfl,
      fun b _ => Keeps.refl m b⟩
    refine inv.recount hg (fun _ => rfl) (fun _ => rfl) (fun _ hx => (h.holdAddr_other hx).symm) rfl
      refs held ?_
    intro hd hd'
    simp [hd] at hd'

theorem Inv.dieAddr (inv : Inv h m) (hlive : m.liveAddr a = true)
    (bare : ∀ e, m.addrOf e = some a → ∀ s, m.graph.listed e s = [] ∧ m.graph.target e s = none) :
    ∃ m', GlobalAddr.die m a = some m' ∧ Inv h m' ∧ Tallied m m' ∧ Shrinks m m' ∧
      (∀ b, b ≠ a → Keeps m m' b) ∧ ∀ b, m'.liveAddr b = if b = a then false else m.liveAddr b := by
  obtain ⟨g, hg, hd⟩ : ∃ g, m.addrs a = some g ∧ g.dead = false := by
    cases hg : m.addrs a with
    | none => simp [Memory.liveAddr, hg] at hlive
    | some g => exact ⟨g, rfl, by simpa [Memory.liveAddr, hg] using hlive⟩
  have refs := inv.addr_refs hg
  simp only [hd, Bool.false_eq_true, if_false] at refs
  by_cases hr : g.refcnt - refcntBarrier = 0
  · have unheld : h.addr a = 0 := by omega
    obtain ⟨m', hm', d⟩ := inv.toAddrInv.eraseAddr hg
      (f := fun g => { g with dead := true, refcnt := g.refcnt - refcntBarrier })
      (fun _ => rfl) fun _ => rfl
    refine ⟨m', ?_, d.inv bare inv rfl (fun _ _ => rfl) unheld, d.tallied bare inv.toGraphInv,
      d.shrinks bare inv.toGraphInv, fun b hb => d.keeps bare inv.toGraphInv hb, fun b => ?_⟩
    · simp [GlobalAddr.die, hg, hd, modifyAddr_eq hg, hr, hm']
    · split
      · next hb => rw [hb, d.liveAddr_self]
      · next hb => exact d.liveAddr hb
  · refine ⟨m.mapAddr a fun g => { g with dead := true, refcnt := g.refcnt - refcntBarrier }, ?_,
      ?_,
      tallied_mapAddr (fun _ => rfl) fun _ => rfl,
      shrinks_mapAddr inv.toGraphInv hg (fun _ => rfl) (by simp), fun b _ => Keeps.refl m b, ?_⟩
    · simp [GlobalAddr.die, hg, hd, modifyAddr_eq hg, hr]
    · refine inv.recount hg (fun _ => rfl) (fun _ => rfl) (fun _ _ => rfl) rfl ?_ ?_ ?_
      · simp [refs]
      · intro _
        omega
      · intro _ _ e he s
        exact bare e he s
    · intro b
      by_cases hba : b = a
      · simp [Memory.liveAddr, hba, hg]
      · simp [Memory.liveAddr, hba]

end Addresses

end ScCore.Store
