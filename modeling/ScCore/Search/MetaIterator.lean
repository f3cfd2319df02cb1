import ScCore.Search.Elements
import ScCore.Store.Housing
import ScCore.Store.ListWalks

/-!
# Iterators over all arcs of an element

`meta_input_iterator` and `meta_output_iterator` go along the arc list of the
element itself and then along those of its links in opened segments. Nobody
else changes the memory meanwhile; the iterator itself holds what it stands on.
-/

namespace ScCore.Search

open Store Memory TmpSegment

/-- `meta_iterator`; `clink` lists the links from the pointer of that name on. -/
structure MetaIterator where
  clink : List LinkAddr
  citer : Option TmpIterator
  fromAddr : Addr

namespace MetaIterator

variable (ss : Session) (s : Endpoint)

def isOver (it : MetaIterator) : Bool := it.citer.isNone

def value (it : MetaIterator) (num : Nat) : Option Addr :=
  match it.citer with
  | none => none
  | some citer =>
      if num = 0 then some it.fromAddr
      else if num = 1 then citer.curr.map (·.2)
      else none

/-- From `__again` on, with the old iterator deleted. -/
def again (m : Memory) : List LinkAddr →
    Option (Memory × List LinkAddr × Option TmpIterator × Retval)
  | [] => some (m, [], none, rvElseGen)
  | link :: rest =>
      if ss.opened link.seg then do
        let (m, citer) ← TmpIterator.create m link.impl s
        if citer.isOver then do
          let m ← citer.destroy m
          again m rest
        else some (m, rest, some citer, rvOk)
      else again m rest

def next (m : Memory) (it : MetaIterator) : Option (Memory × MetaIterator × Retval) :=
  match it.citer with
  | none => some (m, it, rvElseGen)
  | some citer => do
      let (m, citer) ← if citer.isOver then some (m, citer) else citer.next m
      if citer.isOver then do
        let m ← citer.destroy m
        let (m, clink, citer, rv) ← again ss s m it.clink
        some (m, { it with clink := clink, citer := citer }, rv)
      else some (m, { it with citer := some citer }, rvOk)

def create (m : Memory) (a : Addr) : Option (Memory × MetaIterator) := do
  let g ← m.addrs a
  let m ← GlobalAddr.ref m a
  let (m, citer) ← TmpIterator.create m g.impl s
  let it : MetaIterator := ⟨g.links, some citer, a⟩
  if citer.isOver then (it.next ss s m).map fun r => (r.1, r.2.1) else some (m, it)

inductive Yields : Memory → MetaIterator → List (Option Addr × Option Addr) → Prop
  | isOver {m it} : it.isOver = true → Yields m it []
  | next {m it m' it' rv l} : it.isOver = false → it.next ss s m = some (m', it', rv) →
      Yields m' it' l → Yields m it ((it.value 0, it.value 1) :: l)

def RunsTo (m : Memory) (a : Addr) (l : List (Option Addr × Option Addr)) : Prop :=
  ∃ m' it, create ss s m a = some (m', it) ∧ Yields ss s m' it l

end MetaIterator

/-! ## A list that nobody changes -/

def arcsOf (m : Memory) (l : List NodeId) : List Addr :=
  (l.filterMap m.graph.arc).filterMap m.addrOf

def held (m : Memory) : Option (NodeId × Addr) → Memory
  | none => m
  | some (n, b) =>
      (m.mapAddr b fun g => { g with refcnt := g.refcnt + 1 }).mapNode n fun l =>
        { l with refcnt := l.refcnt + 1 }

/-- Nothing that is read on the way along a list dangles. -/
structure Walkable (m : Memory) (s : Endpoint) (e : ElemId) : Prop where
  stored : ∃ o, m.elems e = some o
  nodup : (m.graph.listed e s).Nodup
  node : ∀ n ∈ m.graph.listed e s, ∃ l b g, m.nodes n = some l ∧ 0 < l.refcnt ∧
    m.addrOf l.value = some b ∧ m.addrs b = some g ∧ 0 < g.refcnt ∧
    (l.dead = false → g.dead = false)

def Stands (m : Memory) (s : Endpoint) (e : ElemId) (c : NodeId × Addr) : Prop :=
  c.1 ∈ m.graph.listed e s ∧ ∃ l, m.nodes c.1 = some l ∧ m.addrOf l.value = some c.2

def ahead (m : Memory) (s : Endpoint) (e : ElemId) : Option (NodeId × Addr) → List Addr
  | none => []
  | some (n, b) => b :: arcsOf m (TmpIterator.after n (m.graph.listed e s))

section Quiet

variable {m : Memory} {s : Endpoint} {e : ElemId} {n : NodeId} {b : Addr}

variable {l : List NodeId}

theorem arcsOf_dead (dead : m.graph.arc n = none) : arcsOf m (n :: l) = arcsOf m l := by
  rw [arcsOf, List.filterMap_cons_none dead, arcsOf]

theorem arcsOf_live {x : ElemId} (live : m.graph.arc n = some x) (hb : m.addrOf x = some b) :
    arcsOf m (n :: l) = b :: arcsOf m l := by
  rw [arcsOf, List.filterMap_cons_some live, List.filterMap_cons_some hb, arcsOf]

theorem firstLive_held (c : Option (NodeId × Addr)) (l : List NodeId) :
    TmpIterator.firstLive (held m c) l = TmpIterator.firstLive m l := by
  cases c with
  | none => rfl
  | some c =>
    induction l with
    | nil => rfl
    | cons k l ih =>
      simp only [TmpIterator.firstLive, ih]
      have elems : (held m (some c)).elems = m.elems := rfl
      have nodes : (held m (some c)).nodes k = if k = c.1 then
          (m.nodes k).map fun l => { l with refcnt := l.refcnt + 1 } else m.nodes k := rfl
      rw [elems, nodes]
      split
      · cases m.nodes k <;> rfl
      · rfl

theorem Walkable.firstLive (ok : Walkable m s e) (hl : ∀ k ∈ l, k ∈ m.graph.listed e s) :
    (TmpIterator.firstLive m l = some none ∧ arcsOf m l = []) ∨
      ∃ pre k rest c, l = pre ++ k :: rest ∧ TmpIterator.firstLive m l = some (some (k, c)) ∧
        arcsOf m l = c :: arcsOf m rest ∧ Stands m s e (k, c) := by
  induction l with
  | nil => exact .inl ⟨rfl, rfl⟩
  | cons k l ih =>
    obtain ⟨lk, c, g, hlk, -, hc, -⟩ := ok.node k (hl k List.mem_cons_self)
    cases hd : lk.dead with
    | true =>
      have dead : m.graph.arc k = none := by simp [graph, hlk, hd]
      have skip : TmpIterator.firstLive m (k :: l) = TmpIterator.firstLive m l := by
        simp [TmpIterator.firstLive, hlk, hd]
      rw [skip, arcsOf_dead dead]
      rcases ih fun k' hk' => hl k' (List.mem_cons_of_mem _ hk') with none | found
      · exact .inl none
      · obtain ⟨pre, k', rest, c', rfl, found⟩ := found
        exact .inr ⟨k :: pre, k', rest, c', rfl, found⟩
    | false =>
      have live : m.graph.arc k = some lk.value := arc_eq_some.mpr ⟨lk, hlk, hd, rfl⟩
      obtain ⟨v, hv, hvc⟩ := stored_of_addrOf hc
      refine .inr ⟨[], k, l, c, rfl, ?_, arcsOf_live live hc, hl k List.mem_cons_self, lk, hlk, hc⟩
      simp [TmpIterator.firstLive, hlk, hd, hv, hvc]

theorem mapAddr_cancel (m : Memory) (b : Addr) :
    (m.mapAddr b fun g => { g with refcnt := g.refcnt + 1 }).mapAddr b
      (fun g => { g with refcnt := g.refcnt - 1 }) = m := by
  have addrs : ∀ x, (if x = b then (if x = b then (m.addrs x).map fun g =>
      { g with refcnt := g.refcnt + 1 } else m.addrs x).map fun g =>
        { g with refcnt := g.refcnt - 1 } else
      if x = b then (m.addrs x).map fun g => { g with refcnt := g.refcnt + 1 } else m.addrs x) =
      m.addrs x := by
    intro x
    by_cases hx : x = b
    · subst hx
      cases m.addrs x <;> simp
    · simp [hx]
  simp only [mapAddr, funext addrs]

theorem mapNode_cancel (m : Memory) (n : NodeId) :
    (m.mapNode n fun l => { l with refcnt := l.refcnt + 1 }).mapNode n
      (fun l => { l with refcnt := l.refcnt - 1 }) = m := by
  have nodes : ∀ x, (if x = n then (if x = n then (m.nodes x).map fun l =>
      { l with refcnt := l.refcnt + 1 } else m.nodes x).map fun l =>
        { l with refcnt := l.refcnt - 1 } else
      if x = n then (m.nodes x).map fun l => { l with refcnt := l.refcnt + 1 } else m.nodes x) =
      m.nodes x := by
    intro x
    by_cases hx : x = n
    · subst hx
      cases m.nodes x <;> simp
    · simp [hx]
  simp only [mapNode, funext nodes]

theorem unref_node {l : ElementLink} (hl : m.nodes n = some l) (pos : 0 < l.refcnt) :
    ElementLink.unref (m.mapNode n fun l => { l with refcnt := l.refcnt + 1 }) e s n = some m := by
  have hl' : (m.mapNode n fun l => { l with refcnt := l.refcnt + 1 }).nodes n =
      some { l with refcnt := l.refcnt + 1 } := by
    rw [mapNode_nodes, if_pos rfl, hl]
    rfl
  have kept : l.refcnt + 1 - 1 ≠ 0 := by omega
  simp only [ElementLink.unref, hl', modifyNode_eq hl', Option.bind_eq_bind, Option.bind_some,
    if_neg kept, mapNode_cancel]

theorem unref_addr {g : GlobalAddr} (hg : m.addrs b = some g) (pos : 0 < g.refcnt) :
    GlobalAddr.unref (m.mapAddr b fun g => { g with refcnt := g.refcnt + 1 }) b = some m := by
  have hg' : (m.mapAddr b fun g => { g with refcnt := g.refcnt + 1 }).addrs b =
      some { g with refcnt := g.refcnt + 1 } := by
    rw [mapAddr_addrs, if_pos rfl, hg]
    rfl
  have kept : g.refcnt + 1 - 1 ≠ 0 := by omega
  simp only [GlobalAddr.unref, hg', modifyAddr_eq hg', Option.bind_eq_bind, Option.bind_some,
    if_neg kept, mapAddr_cancel]

/-! ### The iterator of one list -/

theorem Walkable.leave (ok : Walkable m s e) (stands : Stands m s e (n, b)) :
    ElementLink.unref (held m (some (n, b))) e s n =
        some (m.mapAddr b fun g => { g with refcnt := g.refcnt + 1 }) ∧
      GlobalAddr.unref (m.mapAddr b fun g => { g with refcnt := g.refcnt + 1 }) b = some m ∧
      GlobalAddr.unref (held m (some (n, b))) b =
        some (m.mapNode n fun l => { l with refcnt := l.refcnt + 1 }) ∧
      ElementLink.unref (m.mapNode n fun l => { l with refcnt := l.refcnt + 1 }) e s n =
        some m := by
  obtain ⟨hn, l, hl, hb⟩ := stands
  obtain ⟨l', b', g, hl', node, hb', hg, addr, -⟩ := ok.node n hn
  cases hl.symm.trans hl'
  cases hb.symm.trans hb'
  have swap : held m (some (n, b)) = (m.mapNode n fun l =>
      { l with refcnt := l.refcnt + 1 }).mapAddr b fun g => { g with refcnt := g.refcnt + 1 } := rfl
  refine ⟨unref_node hl node, unref_addr hg addr, ?_, unref_node hl node⟩
  rw [swap]
  exact unref_addr hg addr

theorem Walkable.next (ok : Walkable m s e) (stands : Stands m s e (n, b)) :
    ∃ curr, TmpIterator.next (held m (some (n, b))) ⟨e, s, some (n, b)⟩ =
        some (held m curr, ⟨e, s, curr⟩) ∧
      ahead m s e curr = arcsOf m (TmpIterator.after n (m.graph.listed e s)) ∧
      ∀ c, curr = some c → Stands m s e c := by
  obtain ⟨o, ho⟩ := ok.stored
  have hlist : o.arcs s = m.graph.listed e s := (listed_stored ho).symm
  have ho' : (held m (some (n, b))).elems e = some o := ho
  obtain ⟨node, addr, -⟩ := ok.leave stands
  rcases ok.firstLive (l := TmpIterator.after n (m.graph.listed e s)) fun k hk =>
      ListInv.mem_after hk with ⟨first, nothing⟩ | ⟨pre, k, rest, c, split, first, arcs, stands'⟩
  · refine ⟨none, ?_, nothing.symm, nofun⟩
    simp only [TmpIterator.next, ho', hlist, firstLive_held, first, node, addr,
      Option.bind_eq_bind, Option.bind_some]
    rfl
  · obtain ⟨hk, l, hl, hc⟩ := stands'
    obtain ⟨l', c', g, hl', -, hc', hg, -⟩ := ok.node k hk
    cases hl.symm.trans hl'
    cases hc.symm.trans hc'
    refine ⟨some (k, c), ?_, ?_, ?_⟩
    · have hg' : (m.mapNode k fun l => { l with refcnt := l.refcnt + 1 }).addrs c = some g := hg
      simp only [TmpIterator.next, ho', hlist, firstLive_held, first, node, addr,
        Option.bind_eq_bind, Option.bind_some, ElementLink.ref, GlobalAddr.ref,
        modifyNode_eq hl, modifyAddr_eq hg']
      rfl
    · have after : TmpIterator.after k (m.graph.listed e s) = rest := by
        obtain ⟨front, hfront⟩ := split_after stands.1
        have whole : m.graph.listed e s = (front ++ n :: pre) ++ k :: rest := by
          rw [split] at hfront
          rw [hfront, List.append_assoc]
          rfl
        have nodup := ok.nodup
        rw [whole] at nodup ⊢
        exact after_split nodup
      rw [ahead, after, arcs]
    · intro _ same
      cases same
      exact ⟨hk, l, hl, hc⟩

theorem Walkable.create (ok : Walkable m s e) :
    ∃ curr, TmpIterator.create m e s = some (held m curr, ⟨e, s, curr⟩) ∧
      ahead m s e curr = arcsOf m (m.graph.listed e s) ∧
      ∀ c, curr = some c → Stands m s e c := by
  obtain ⟨o, ho⟩ := ok.stored
  have hlist : o.arcs s = m.graph.listed e s := (listed_stored ho).symm
  cases hnodes : m.graph.listed e s with
  | nil =>
    refine ⟨none, ?_, rfl, nofun⟩
    simp [TmpIterator.create, ho, hlist, hnodes, held]
  | cons n post =>
    have hn : n ∈ m.graph.listed e s := hnodes ▸ List.mem_cons_self
    obtain ⟨l, b, g, hl, -, hb, hg, -, alive⟩ := ok.node n hn
    obtain ⟨v, hv, hvb⟩ := stored_of_addrOf hb
    have stands : Stands m s e (n, b) := ⟨hn, l, hl, hb⟩
    have after : TmpIterator.after n (m.graph.listed e s) = post := by
      rw [hnodes]
      simp [TmpIterator.after]
    have hl' : (m.mapAddr b fun g => { g with refcnt := g.refcnt + 1 }).nodes n = some l := hl
    have hg' : (held m (some (n, b))).addrs b = some { g with refcnt := g.refcnt + 1 } := by
      show (m.mapAddr b _).addrs b = _
      rw [mapAddr_addrs, if_pos rfl, hg]
      rfl
    have hold : (m.mapAddr b fun g => { g with refcnt := g.refcnt + 1 }).mapNode n
        (fun l => { l with refcnt := l.refcnt + 1 }) = held m (some (n, b)) := rfl
    have unfolded : TmpIterator.create m e s =
        if l.dead || g.dead then TmpIterator.next (held m (some (n, b))) ⟨e, s, some (n, b)⟩
        else some (held m (some (n, b)), ⟨e, s, some (n, b)⟩) := by
      simp only [TmpIterator.create, ho, hlist, hnodes, hl, hv, hvb, GlobalAddr.ref,
        ElementLink.ref, modifyAddr_eq hg, modifyNode_eq hl', hold, hg', Option.bind_eq_bind,
        Option.bind_some]
    rw [unfolded]
    cases hd : l.dead with
    | true =>
      obtain ⟨curr, hnext, arcs, stands'⟩ := ok.next stands
      have dead : m.graph.arc n = none := by simp [graph, hl, hd]
      refine ⟨curr, hnext, ?_, stands'⟩
      rw [arcs, after, arcsOf_dead dead]
    | false =>
      have live : m.graph.arc n = some l.value := arc_eq_some.mpr ⟨l, hl, hd, rfl⟩
      refine ⟨some (n, b), by rw [alive hd]; rfl, ?_, ?_⟩
      · rw [ahead, after, arcsOf_live live hb]
      · intro _ same
        cases same
        exact stands

end Quiet

/-! ## The iterator over all lists -/

def visibleArcs (ss : Session) (s : Endpoint) (m : Memory) (l : List LinkAddr) : List Addr :=
  (l.filter fun link => ss.opened link.seg).flatMap fun link =>
    arcsOf m (m.graph.listed link.impl s)

namespace MetaIterator

variable {ss : Session} {s : Endpoint} {m m' : Memory} {a : Addr}

/-- An iterator in a memory that is `m` but for what the iterator holds, and the arcs that it
has still to yield. -/
inductive Rests (ss : Session) (s : Endpoint) (m : Memory) (a : Addr) :
    Memory → List LinkAddr → Option TmpIterator → List Addr → Prop
  | ended (rest : List LinkAddr) : Rests ss s m a m rest none []
  | on {rest : List LinkAddr} {e : ElemId} {n : NodeId} {b : Addr} (ok : Walkable m s e)
      (stands : Stands m s e (n, b)) (links : ∀ link ∈ rest, Walkable m s link.impl) :
      Rests ss s m a (held m (some (n, b))) rest (some ⟨e, s, some (n, b)⟩)
        (b :: arcsOf m (TmpIterator.after n (m.graph.listed e s)) ++ visibleArcs ss s m rest)

theorem again_rests {l : List LinkAddr} (links : ∀ link ∈ l, Walkable m s link.impl) :
    ∃ m' rest citer rv, again ss s m l = some (m', rest, citer, rv) ∧
      Rests ss s m a m' rest citer (visibleArcs ss s m l) := by
  induction l with
  | nil => exact ⟨m, [], none, rvElseGen, rfl, .ended []⟩
  | cons link l ih =>
    have links' : ∀ link ∈ l, Walkable m s link.impl := fun link' h =>
      links link' (List.mem_cons_of_mem _ h)
    cases hopen : ss.opened link.seg with
    | false =>
      obtain ⟨m', rest, citer, rv, hagain, rests⟩ := ih links'
      refine ⟨m', rest, citer, rv, by simp [again, hopen, hagain], ?_⟩
      rwa [visibleArcs, List.filter_cons_of_neg (by simp [hopen])]
    | true =>
      have ok := links link List.mem_cons_self
      have first : visibleArcs ss s m (link :: l) =
          arcsOf m (m.graph.listed link.impl s) ++ visibleArcs ss s m l := by
        simp [visibleArcs, hopen]
      obtain ⟨curr, hcreate, arcs, stands⟩ := ok.create
      rw [first, ← arcs]
      cases curr with
      | none =>
        -- The list is empty or all dead: on to the next link.
        obtain ⟨m', rest, citer, rv, hagain, rests⟩ := ih links'
        refine ⟨m', rest, citer, rv, ?_, rests⟩
        simp [again, hopen, hcreate, TmpIterator.isOver, TmpIterator.destroy, held, hagain]
      | some c =>
        refine ⟨held m (some c), l, some ⟨link.impl, s, some c⟩, rvOk, ?_, ?_⟩
        · simp [again, hopen, hcreate, TmpIterator.isOver]
        · exact .on ok (stands c rfl) links'

variable {rest : List LinkAddr} {arcs : List Addr} {l l' : List (Option Addr × Option Addr)}

theorem next_rests {citer : TmpIterator} (rests : Rests ss s m a m' rest (some citer) arcs) :
    ∃ b left m'' it' rv, arcs = b :: left ∧
      (⟨rest, some citer, a⟩ : MetaIterator).value 1 = some b ∧
      next ss s m' ⟨rest, some citer, a⟩ = some (m'', it', rv) ∧ it'.fromAddr = a ∧
      Rests ss s m a m'' it'.clink it'.citer left := by
  cases rests with
  | @on _ e n b ok stands links =>
    obtain ⟨curr, hnext, arcs, stands'⟩ := ok.next stands
    rw [← arcs]
    cases curr with
    | none =>
      obtain ⟨m'', rest', citer, rv, hagain, rests'⟩ := again_rests links
      have hagain' : again ss s (held m none) rest = some (m'', rest', citer, rv) := hagain
      refine ⟨b, _, m'', ⟨rest', citer, a⟩, rv, rfl, rfl, ?_, rfl, rests'⟩
      simp [next, TmpIterator.isOver, hnext, TmpIterator.destroy, hagain']
    | some c =>
      refine ⟨b, _, held m (some c), ⟨rest, some ⟨e, s, some c⟩, a⟩, rvOk, rfl, rfl, ?_, rfl,
        .on ok (stands' c rfl) links⟩
      simp [next, TmpIterator.isOver, hnext]

theorem Rests.yields {citer : Option TmpIterator} (rests : Rests ss s m a m' rest citer arcs) :
    Yields ss s m' ⟨rest, citer, a⟩ (arcs.map fun x => (some a, some x)) := by
  induction arcs generalizing m' rest citer with
  | nil =>
    cases rests with
    | ended => exact .isOver rfl
  | cons x arcs ih =>
    cases citer with
    | none => cases rests
    | some citer =>
      obtain ⟨b, left, m'', ⟨rest', citer', _⟩, rv, same, value, hnext, rfl, rests'⟩ :=
        next_rests rests
      cases same
      rw [List.map_cons, ← value]
      exact .next rfl hnext (ih rests')

theorem Yields.unique {it : MetaIterator} (y : Yields ss s m it l) (y' : Yields ss s m it l') :
    l = l' := by
  induction y generalizing l' with
  | isOver ended =>
    cases y' with
    | isOver => rfl
    | next ended' => cases ended.symm.trans ended'
  | next ended hnext _ ih =>
    cases y' with
    | isOver ended' => cases ended.symm.trans ended'
    | next _ hnext' y' =>
      cases hnext.symm.trans hnext'
      rw [ih y']

theorem RunsTo.unique (r : RunsTo ss s m a l) (r' : RunsTo ss s m a l') : l = l' := by
  obtain ⟨m', it, hcreate, yields⟩ := r
  obtain ⟨m'', it', hcreate', yields'⟩ := r'
  cases hcreate.symm.trans hcreate'
  exact yields.unique yields'

variable (ss s) in
theorem create_rests {g : GlobalAddr} (hg : m.addrs a = some g)
    (ok : ∀ st ∈ g.stores, Walkable (m.mapAddr a fun g => { g with refcnt := g.refcnt + 1 }) s
      st.impl) :
    ∃ m' rest citer, create ss s m a = some (m', ⟨rest, citer, a⟩) ∧
      Rests ss s (m.mapAddr a fun g => { g with refcnt := g.refcnt + 1 }) a m' rest citer
        (arcsOf m (m.graph.listed g.impl s) ++ visibleArcs ss s m g.links) := by
  have href := modifyAddr_eq (f := fun g => { g with refcnt := g.refcnt + 1 }) hg
  have links : ∀ link ∈ g.links, Walkable _ s link.impl := fun link hlink =>
    ok link (List.mem_cons_of_mem _ hlink)
  obtain ⟨curr, hcreate, arcs, stands⟩ := (ok ⟨g.seg, g.impl⟩ List.mem_cons_self).create
  have same : arcsOf m (m.graph.listed g.impl s) ++ visibleArcs ss s m g.links =
      ahead (m.mapAddr a fun g => { g with refcnt := g.refcnt + 1 }) s g.impl curr ++
        visibleArcs ss s (m.mapAddr a fun g => { g with refcnt := g.refcnt + 1 }) g.links := by
    rw [arcs]
    rfl
  rw [same]
  cases curr with
  | none =>
    obtain ⟨m', rest, citer, rv, hagain, rests⟩ := again_rests links
    refine ⟨m', rest, citer, ?_, rests⟩
    simp [create, GlobalAddr.ref, hg, href, hcreate, TmpIterator.isOver, next,
      TmpIterator.destroy, held, hagain]
  | some c =>
    refine ⟨_, g.links, some ⟨g.impl, s, some c⟩, ?_,
      .on (ok ⟨g.seg, g.impl⟩ List.mem_cons_self) (stands c rfl) links⟩
    simp [create, GlobalAddr.ref, hg, href, hcreate, TmpIterator.isOver]

theorem runsTo {g : GlobalAddr} (hg : m.addrs a = some g)
    (ok : ∀ st ∈ g.stores, Walkable (m.mapAddr a fun g => { g with refcnt := g.refcnt + 1 }) s
      st.impl) :
    RunsTo ss s m a ((arcsOf m (m.graph.listed g.impl s) ++ visibleArcs ss s m g.links).map
      fun x => (some a, some x)) := by
  obtain ⟨m', rest, citer, hcreate, rests⟩ := create_rests ss s hg ok
  exact ⟨m', ⟨rest, citer, a⟩, hcreate, rests.yields⟩

end MetaIterator

/-! ## Which arcs these are -/

def segOf (m : Memory) (x : Addr) : Option SegId := (m.addrs x).map (·.seg)

section Visible

variable {m : Memory} {s : Endpoint} {a x : Addr} {e y : ElemId} {g : GlobalAddr}

variable {st : LinkAddr}

theorem walkable (whole : Whole m) (hg : m.addrs a = some g) (hst : st ∈ g.stores) :
    Walkable m s st.impl where
  stored := by
    obtain ⟨o, ho, -⟩ := stored_of_addrOf (whole.stores_addr hg hst)
    exact ⟨o, ho⟩
  nodup := whole.coherent.nodup st.impl s
  node n hn := whole.node hn

theorem Walkable.ref (ok : Walkable m s e) (a : Addr) :
    Walkable (m.mapAddr a fun g => { g with refcnt := g.refcnt + 1 }) s e where
  stored := ok.stored
  nodup := ok.nodup
  node := by
    intro n hn
    obtain ⟨l, b, gb, hl, node, hb, hgb, addr, alive⟩ := ok.node n hn
    by_cases hba : b = a
    · refine ⟨l, b, { gb with refcnt := gb.refcnt + 1 }, hl, node, hb, ?_, ?_, alive⟩
      · rw [mapAddr_addrs, if_pos hba, hgb]
        rfl
      · exact Int.add_pos addr Int.one_pos
    · refine ⟨l, b, gb, hl, node, hb, ?_, addr, alive⟩
      rw [mapAddr_addrs, if_neg hba, hgb]

section

variable (whole : Whole m)
include whole

theorem walkable_of_whole (hg : m.addrs a = some g) (hst : st ∈ g.stores) :
    Walkable (m.mapAddr a fun g => { g with refcnt := g.refcnt + 1 }) s st.impl :=
  (walkable whole hg hst).ref a

theorem mem_arcsOf :
    x ∈ arcsOf m (m.graph.listed e s) ↔ ∃ y, m.graph.target y s = some e ∧ m.addrOf y = some x := by
  rw [arcsOf, List.mem_filterMap]
  constructor
  · rintro ⟨y, hy, hx⟩
    exact ⟨y, whole.coherent.mem_arcs_iff.mp hy, hx⟩
  · rintro ⟨y, hy, hx⟩
    exact ⟨y, whole.coherent.mem_arcs_iff.mpr hy, hx⟩

theorem arc_own (ht : m.graph.target y s = some e) (hy : m.addrOf y = some x) :
    ∃ gx, m.addrs x = some gx ∧ gx.impl = y := by
  obtain ⟨gx, hx, st, hst, rfl⟩ := whole.addr_stores hy
  rcases List.mem_cons.mp hst with rfl | hlink
  · exact ⟨gx, hx, rfl⟩
  · rw [whole.own hx hlink] at ht
    cases ht

section

variable (hg : m.addrs a = some g)
include hg

theorem end_of_listed (hst : st ∈ g.stores) (hx : x ∈ arcsOf m (m.graph.listed st.impl s)) :
    m.endOf x s = some a ∧ segOf m x = some st.seg := by
  obtain ⟨y, ht, hy⟩ := (mem_arcsOf whole).mp hx
  obtain ⟨gx, hx, rfl⟩ := arc_own whole ht hy
  constructor
  · rw [endOf_target hx, ht]
    exact whole.stores_addr hg hst
  · rw [segOf, hx, Option.map_some, whole.housed.arcs hx hg hst ht]

theorem listed_of_end (hend : m.endOf x s = some a) :
    ∃ st ∈ g.stores, segOf m x = some st.seg ∧ x ∈ arcsOf m (m.graph.listed st.impl s) := by
  obtain ⟨gx, hx, hend⟩ := Option.bind_eq_some_iff.mp hend
  obtain ⟨e, ht, he⟩ := Option.bind_eq_some_iff.mp hend
  obtain ⟨g', hg', st, hst, rfl⟩ := whole.addr_stores he
  cases hg.symm.trans hg'
  refine ⟨st, hst, ?_, (mem_arcsOf whole).mpr ⟨gx.impl, ht, ?_⟩⟩
  · rw [segOf, hx, Option.map_some, whole.housed.arcs hx hg hst ht]
  · exact whole.stores_addr hx (List.mem_cons_self : (⟨gx.seg, gx.impl⟩ : LinkAddr) ∈ gx.stores)

theorem mem_own :
    x ∈ arcsOf m (m.graph.listed g.impl s) ↔ m.endOf x s = some a ∧ segOf m x = some g.seg := by
  constructor
  · exact end_of_listed whole hg (List.mem_cons_self : (⟨g.seg, g.impl⟩ : LinkAddr) ∈ g.stores)
  · rintro ⟨hend, hseg⟩
    obtain ⟨st, hst, hseg', hx⟩ := listed_of_end whole hg hend
    rcases List.mem_cons.mp hst with rfl | hlink
    · exact hx
    · exact absurd (Option.some.inj (hseg'.symm.trans hseg)) (whole.housed.away hg hlink)

theorem mem_visible (ss : Session) :
    x ∈ visibleArcs ss s m g.links ↔ m.endOf x s = some a ∧
      ∃ seg, segOf m x = some seg ∧ seg ≠ g.seg ∧ ss.opened seg = true := by
  rw [visibleArcs, List.mem_flatMap]
  constructor
  · rintro ⟨link, hlink, hx⟩
    obtain ⟨hlink, hopen⟩ := List.mem_filter.mp hlink
    obtain ⟨hend, hseg⟩ := end_of_listed whole hg (List.mem_cons_of_mem _ hlink) hx
    exact ⟨hend, link.seg, hseg, whole.housed.away hg hlink, hopen⟩
  · rintro ⟨hend, seg, hseg, hne, hopen⟩
    obtain ⟨st, hst, hseg', hx⟩ := listed_of_end whole hg hend
    cases hseg.symm.trans hseg'
    rcases List.mem_cons.mp hst with rfl | hlink
    · exact absurd rfl hne
    · exact ⟨st, List.mem_filter.mpr ⟨hlink, hopen⟩, hx⟩

theorem nodup_arcs (ss : Session) :
    (arcsOf m (m.graph.listed g.impl s) ++ visibleArcs ss s m g.links).Nodup := by
  let lists := (⟨g.seg, g.impl⟩ : LinkAddr) :: g.links.filter fun link => ss.opened link.seg
  have hlists : ∀ st ∈ lists, st ∈ g.stores := by
    intro st hst
    rcases List.mem_cons.mp hst with rfl | hlink
    · exact List.mem_cons_self
    · exact List.mem_cons_of_mem _ (List.mem_filter.mp hlink).1
  have flat : arcsOf m (m.graph.listed g.impl s) ++ visibleArcs ss s m g.links =
      (lists.flatMap fun st => m.graph.arcs st.impl s).filterMap m.addrOf := by
    rw [List.filterMap_flatMap]
    rfl
  have target : ∀ y ∈ lists.flatMap fun st => m.graph.arcs st.impl s,
      ∃ e, m.graph.target y s = some e := by
    intro y hy
    obtain ⟨st, -, hy⟩ := List.mem_flatMap.mp hy
    exact ⟨st.impl, whole.coherent.mem_arcs_iff.mp hy⟩
  have nodup : (lists.flatMap fun st => m.graph.arcs st.impl s).Nodup := by
    rw [List.nodup_flatMap]
    constructor
    · intro st _
      rw [AdjacencyLists.arcs, List.Nodup, List.pairwise_filterMap]
      apply (whole.coherent.nodup st.impl s).imp_of_mem
      intro n n' hn hn' hne y hy y' hy' same
      cases same
      exact hne (whole.coherent.arc_inj hn hn' hy hy')
    · have impls : (lists.map (·.impl)).Nodup := by
        refine List.Nodup.sublist ?_ (whole.nodup hg)
        exact (List.filter_sublist.cons_cons _).map _
      rw [List.Nodup, List.pairwise_map] at impls
      apply impls.imp
      intro st st' hne y hy hy'
      have ht := whole.coherent.mem_arcs_iff.mp hy
      exact hne (Option.some.inj (ht.symm.trans (whole.coherent.mem_arcs_iff.mp hy')))
  rw [flat, List.Nodup, List.pairwise_filterMap]
  apply nodup.imp_of_mem
  intro y y' hy hy' hne x hx x' hx' same
  obtain ⟨e, ht⟩ := target y hy
  obtain ⟨e', ht'⟩ := target y' hy'
  obtain ⟨gx, hgx, rfl⟩ := arc_own whole ht hx
  obtain ⟨gx', hgx', rfl⟩ := arc_own whole ht' hx'
  cases same
  cases hgx.symm.trans hgx'
  exact hne rfl

end

theorem listedArcs_eq (l : List NodeId) (hl : ∀ n ∈ l, n ∈ m.graph.listed e s) :
    Session.listedArcs m l = some (arcsOf m l) := by
  induction l with
  | nil => rfl
  | cons n l ih =>
    obtain ⟨lk, b, -, hlk, -, hb, -⟩ := whole.node (hl n List.mem_cons_self)
    obtain ⟨v, hv, hvb⟩ := stored_of_addrOf hb
    have ih := ih fun n' hn' => hl n' (List.mem_cons_of_mem _ hn')
    cases hd : lk.dead with
    | true =>
      rw [arcsOf_dead (by simp [graph, hlk, hd])]
      simp [Session.listedArcs, hlk, hd, ih]
    | false =>
      rw [arcsOf_live (arc_eq_some.mpr ⟨lk, hlk, hd, rfl⟩) hb]
      simp [Session.listedArcs, hlk, hd, hv, hvb, ih]

theorem storesArcs_eq (hg : m.addrs a = some g) (l : List LinkAddr) (hl : ∀ st ∈ l, st ∈ g.stores) :
    storesArcs s m l = some (l.flatMap fun st => arcsOf m (m.graph.listed st.impl s)) := by
  induction l with
  | nil => rfl
  | cons st l ih =>
    obtain ⟨o, ho, -⟩ := stored_of_addrOf (whole.stores_addr hg (hl st List.mem_cons_self))
    have arcs : Session.listedArcs m (o.arcs s) = some (arcsOf m (m.graph.listed st.impl s)) := by
      rw [← listed_stored ho]
      exact listedArcs_eq whole _ fun _ hn => hn
    simp [storesArcs, ho, arcs, ih fun st' hst' => hl st' (List.mem_cons_of_mem _ hst')]

theorem metaArcs_eq (hg : m.addrs a = some g) (ss : Session) :
    metaArcs ss s m a =
      some (arcsOf m (m.graph.listed g.impl s) ++ visibleArcs ss s m g.links) := by
  rw [metaArcs, hg]
  refine storesArcs_eq whole hg _ fun st hst => ?_
  rcases List.mem_cons.mp hst with rfl | hlink
  · exact List.mem_cons_self
  · exact List.mem_cons_of_mem _ (List.mem_filter.mp hlink).1

end

/-- The iterator over the arcs of an element is sound, complete and free of repetitions: it yields
the arcs stored in the element's own segment, then those stored in other segments that the
session has opened. -/
def EnumeratesVisible (ss : Session) (s : Endpoint) (m : Memory) (a : Addr) (g : GlobalAddr) :
    Prop :=
  ∃ own linked : List Addr,
    (∀ l, MetaIterator.RunsTo ss s m a l ↔ l = (own ++ linked).map fun x => (some a, some x)) ∧
    (own ++ linked).Nodup ∧
    (∀ x, x ∈ own ↔ m.endOf x s = some a ∧ segOf m x = some g.seg) ∧
    ∀ x, x ∈ linked ↔ m.endOf x s = some a ∧
      ∃ seg, segOf m x = some seg ∧ seg ≠ g.seg ∧ ss.opened seg = true

/-- Visible arcs are enumerated exactly, whatever lists are empty and whatever nodes are dead. -/
theorem enumerates_visible (m : Memory) (whole : Whole m) (a : Addr) (g : GlobalAddr)
    (hg : m.addrs a = some g) (ss : Session) (s : Endpoint) : EnumeratesVisible ss s m a g := by
  have runs : MetaIterator.RunsTo ss s m a _ := MetaIterator.runsTo hg fun st hst =>
    walkable_of_whole whole hg hst
  refine ⟨arcsOf m (m.graph.listed g.impl s), visibleArcs ss s m g.links, fun l => ?_,
    nodup_arcs whole hg ss, fun x => mem_own whole hg, fun x => mem_visible whole hg ss⟩
  constructor
  · intro r
    exact r.unique runs
  · rintro rfl
    exact runs

end Visible

def visibleOps : List Op :=
  [.createEl 0 .node, .createEl 1 .node, .createEl 2 .node, .gen3 (some 0) 2 .arc (some 2),
    .gen3 (some 0) 1 .arc (some 1), .gen3 (some 0) 0 .arc (some 1)]

def opensFirst : Session := ⟨fun seg => decide (seg < 2)⟩

theorem enumerates_visible_three :
    ∃ st g, runOps 3 visibleOps (State.initial (fun _ => []) fun _ => []) = some st ∧
      st.memory.addrs 0 = some g ∧ g.links.length = 2 ∧
      EnumeratesVisible opensFirst .beg st.memory 0 g := by
  have hrun : ∃ st g, runOps 3 visibleOps (State.initial (fun _ => []) fun _ => []) = some st ∧
      st.memory.addrs 0 = some g ∧ g.links.length = 2 := ⟨_, _, rfl, rfl, rfl⟩
  obtain ⟨st, g, hst, hg, hlen⟩ := hrun
  have run := reaches_keeping (by decide) hst
  exact ⟨st, g, hst, hg, hlen,
    enumerates_visible st.memory (whole_of_run run) 0 g hg opensFirst .beg⟩

def ownArcOps : List Op := [.createEl 0 .node, .gen3 (some 0) 0 .arc (some 0)]

/-- The arcs of the element's own segment are yielded even if it is not opened. -/
theorem visible_only_opened_fails : ¬∀ (m : Memory), Whole m → ∀ (a : Addr) (g : GlobalAddr),
    m.addrs a = some g → ∀ (ss : Session) (s : Endpoint), EnumeratesVisible ss s m a g ∧
      ∀ l, MetaIterator.RunsTo ss s m a l → ∀ x, (some a, some x) ∈ l →
        ∀ seg, segOf m x = some seg → ss.opened seg = true := by
  intro claim
  have hrun : ∃ st g, runOps 3 ownArcOps (State.initial (fun _ => []) fun _ => []) = some st ∧
      st.memory.addrs 0 = some g ∧ g.seg = 0 ∧ st.memory.endOf 1 .beg = some 0 ∧
      segOf st.memory 1 = some 0 := ⟨_, _, rfl, rfl, rfl, rfl, rfl⟩
  obtain ⟨st, g, hst, hg, hseg, hend, hx⟩ := hrun
  have run := reaches_keeping (by decide) hst
  obtain ⟨⟨own, linked, runs, -, mem, -⟩, opened⟩ :=
    claim st.memory (whole_of_run run) 0 g hg ⟨fun _ => false⟩ .beg
  have hown : 1 ∈ own := (mem 1).mpr ⟨hend, hseg ▸ hx⟩
  have hl : (some 0, some 1) ∈ (own ++ linked).map fun x => ((some 0 : Option Addr), some x) :=
    List.mem_map_of_mem (List.mem_append_left _ hown)
  cases opened _ ((runs _).mpr rfl) 1 hl 0 hx

end ScCore.Search
