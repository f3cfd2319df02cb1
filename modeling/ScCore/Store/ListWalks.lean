import ScCore.Lib.Walk
import ScCore.Store.Lists
import ScCore.Store.Run

/-!
# Walks over arc lists

Any number of iterators walk the arc lists while arcs are attached and
detached, elements come and go and clients hold addresses. An iterator carries
the record of its walk.
-/

namespace ScCore.Store

open Memory TmpSegment Relation

def TmpIterator.ahead (m : Memory) (it : TmpIterator) : List NodeId :=
  match it.curr with
  | none => []
  | some (n, _) => TmpIterator.after n (m.graph.listed it.owner it.side)

/-- An iterator and the nodes it has stood on. Nodes that stood for an arc when it was
created are in `start`, those attached later, before it was over, in `since`. -/
structure Walker where
  it : TmpIterator
  visited : List NodeId
  start : List NodeId
  since : List NodeId
  /-- How often it has been told to go on. -/
  moves : Nat

namespace Walker

def arrive (w : Walker) (it : TmpIterator) : Walker :=
  { w with it := it, visited := w.visited ++ (it.curr.map (·.1)).toList }

/-- A node has been attached at the end of the list `e`, `s`. -/
def joined (s : Endpoint) (e : ElemId) (n : NodeId) (w : Walker) : Walker :=
  if w.it.owner = e ∧ w.it.side = s ∧ w.it.curr.isSome then { w with since := w.since ++ [n] }
  else w

def log (w : Walker) : List NodeId := w.start ++ w.since

end Walker

structure ListState where
  memory : Memory
  refs : Addr → Nat
  walkers : List Walker

def ListState.initial (uri tmpPrefix : SegId → ScString) : ListState :=
  ⟨Memory.empty uri tmpPrefix, fun _ => 0, []⟩

inductive ListOp where
  | createEl (seg : SegId) (type : ScType)
  | ensureLinkTo (seg : SegId) (a : Addr)
  | die (a : Addr)
  | ref (a : Addr)
  | unref (a : Addr)
  | setEnd (s : Endpoint) (arc : ElemId) (target : Option ElemId)
  | create (e : ElemId) (s : Endpoint)
  | next (k : Nat)
  | destroy (k : Nat)

namespace ListOp

def exec (op : ListOp) (st : ListState) : Option ListState :=
  match op with
  | .createEl seg type =>
      (systemSession.createEl st.memory seg type).map fun p => { st with memory := p.1 }
  | .ensureLinkTo seg a =>
      (Session.ensureLinkTo st.memory seg a).map fun p => { st with memory := p.1 }
  | .die a => (GlobalAddr.die st.memory a).map fun m => { st with memory := m }
  | .ref a =>
      (GlobalAddr.ref st.memory a).map fun m =>
        { st with memory := m, refs := fun b => if b = a then st.refs b + 1 else st.refs b }
  | .unref a =>
      (GlobalAddr.unref st.memory a).map fun m =>
        { st with memory := m, refs := fun b => if b = a then st.refs b - 1 else st.refs b }
  | .setEnd s arc none =>
      (setEndpoint s st.memory arc none).map fun m => { st with memory := m }
  | .setEnd s arc (some t) =>
      (setEndpoint s st.memory arc (some t)).map fun m =>
        { st with memory := m, walkers := st.walkers.map (Walker.joined s t st.memory.nextNode) }
  | .create e s =>
      (TmpIterator.create st.memory e s).map fun p =>
        { st with
          memory := p.1
          walkers := st.walkers ++ [Walker.arrive ⟨p.2, [], st.memory.graph.live e s, [], 0⟩ p.2] }
  | .next k => do
      let w ← st.walkers[k]?
      let (m, it) ← w.it.next st.memory
      some { st with
        memory := m
        walkers := st.walkers.set k ({ w with moves := w.moves + 1 }.arrive it) }
  | .destroy k => do
      let w ← st.walkers[k]?
      let m ← w.it.destroy st.memory
      some { st with memory := m, walkers := st.walkers.eraseIdx k }

def Accessible (m : Memory) (e : ElemId) : Prop := ∃ b, m.addrOf e = some b ∧ m.liveAddr b = true

/-- What the callers see to. Arcs and the ends they get are alive; an element is erased when
it has lost its arcs and its ends and no iterator walks over its lists. -/
def ok (st : ListState) : ListOp → Prop
  | .createEl _ _ => True
  | .ensureLinkTo _ a => st.memory.liveAddr a = true
  | .die a => st.memory.liveAddr a = true ∧
      (∀ e s, st.memory.addrOf e = some a →
        st.memory.graph.live e s = [] ∧ st.memory.graph.target e s = none) ∧
      ∀ w ∈ st.walkers, st.memory.addrOf w.it.owner ≠ some a
  | .ref a => ∃ g, st.memory.addrs a = some g
  | .unref a => 0 < st.refs a
  | .setEnd _ arc target =>
      Accessible st.memory arc ∧ ∀ t, target = some t → Accessible st.memory t
  | .create e _ => Accessible st.memory e
  | .next k | .destroy k => k < st.walkers.length

end ListOp

def ListStep (st st' : ListState) : Prop := ∃ op, ListOp.ok st op ∧ op.exec st = some st'

/-! ## The invariant -/

def holdsOf (refs : Addr → Nat) (ws : List Walker) : Holds where
  node n := ws.countP fun w => decide (w.it.curr.map (·.1) = some n)
  addr a := refs a + ws.countP fun w => decide (w.it.curr.map (·.2) = some a)

def alive (m : Memory) (n : NodeId) : Bool := (m.graph.arc n).isSome

structure Walker.Ok (m : Memory) (w : Walker) : Prop where
  owner : ListOp.Accessible m w.it.owner
  stands : ∀ n a, w.it.curr = some (n, a) → n ∈ m.graph.listed w.it.owner w.it.side ∧
    ∃ l, m.nodes n = some l ∧ m.addrOf l.value = some a
  walk : Walk (alive m) (w.it.ahead m) w.visited w.log
  old : ∀ n ∈ w.log, n < m.nextNode
  count : w.it.curr ≠ none → w.visited.length = w.moves + 1

structure ListStateInv (st : ListState) : Prop where
  lists : ListInv (holdsOf st.refs st.walkers) st.memory
  walkers : ∀ w ∈ st.walkers, w.Ok st.memory

section Holders

variable {refs : Addr → Nat} {ws pre post : List Walker} {w : Walker}

def Walker.hold (w : Walker) (h : Holds) : Holds :=
  match w.it.curr with
  | none => h
  | some (n, a) => (h.holdAddr a).holdNode n

theorem holdsOf_insert : holdsOf refs (pre ++ w :: post) = w.hold (holdsOf refs (pre ++ post)) := by
  have node : ∀ n, (holdsOf refs (pre ++ w :: post)).node n =
      (w.hold (holdsOf refs (pre ++ post))).node n := by
    intro n
    simp only [holdsOf, Walker.hold, List.countP_append, List.countP_cons]
    cases hc : w.it.curr with
    | none => simp
    | some c =>
      obtain ⟨k, a⟩ := c
      by_cases hn : n = k
      · subst hn
        simp [Holds.holdNode, Holds.holdAddr, Nat.add_assoc]
      · simp [Holds.holdNode, Holds.holdAddr, hn, Ne.symm hn]
  have addr : ∀ b, (holdsOf refs (pre ++ w :: post)).addr b =
      (w.hold (holdsOf refs (pre ++ post))).addr b := by
    intro b
    simp only [holdsOf, Walker.hold, List.countP_append, List.countP_cons]
    cases hc : w.it.curr with
    | none => simp
    | some c =>
      obtain ⟨k, a⟩ := c
      by_cases hb : b = a
      · subst hb
        simp [Holds.holdNode, Holds.holdAddr, Nat.add_assoc]
      · simp [Holds.holdNode, Holds.holdAddr, hb, Ne.symm hb]
  have ext : ∀ h h' : Holds, h.node = h'.node → h.addr = h'.addr → h = h' := by
    rintro ⟨_, _⟩ ⟨_, _⟩ rfl rfl
    rfl
  exact ext _ _ (funext node) (funext addr)

theorem holdsOf_held (hw : w ∈ ws) {n : NodeId} {a : Addr} (hc : w.it.curr = some (n, a)) :
    0 < (holdsOf refs ws).node n ∧ 0 < (holdsOf refs ws).addr a := by
  constructor
  · exact List.countP_pos_iff.mpr ⟨w, hw, by simp [hc]⟩
  · have : 0 < ws.countP fun w => decide (w.it.curr.map (·.2) = some a) :=
      List.countP_pos_iff.mpr ⟨w, hw, by simp [hc]⟩
    simp only [holdsOf]
    omega

theorem holder_of_node {n : NodeId} (hn : 0 < (holdsOf refs ws).node n) :
    ∃ w ∈ ws, ∃ a, w.it.curr = some (n, a) := by
  obtain ⟨w, hw, hc⟩ := List.countP_pos_iff.mp hn
  obtain ⟨⟨k, a⟩, hcurr, rfl⟩ := Option.map_eq_some_iff.mp (decide_eq_true_iff.mp hc)
  exact ⟨w, hw, a, hcurr⟩

theorem joined_it (s : Endpoint) (e : ElemId) (n : NodeId) (w : Walker) :
    (w.joined s e n).it = w.it := by
  unfold Walker.joined
  split <;> rfl

theorem holdsOf_joined (s : Endpoint) (e : ElemId) (n : NodeId) :
    holdsOf refs (ws.map (Walker.joined s e n)) = holdsOf refs ws := by
  simp only [holdsOf, List.countP_map, Function.comp_def, joined_it]

end Holders

/-! ## What happens elsewhere -/

structure Thins (m m' : Memory) : Prop where
  arc : ∀ {n x}, m'.graph.arc n = some x → m.graph.arc n = some x
  listed : ∀ e s, m'.graph.listed e s = (m.graph.listed e s).filter fun n => (m'.nodes n).isSome
  node : ∀ {n l'}, m'.nodes n = some l' → ∃ l, m.nodes n = some l ∧ l'.value = l.value
  addrOf : ∀ {e b g'}, m.addrOf e = some b → m'.addrs b = some g' → m'.addrOf e = some b
  nextNode : m'.nextNode = m.nextNode

variable {h h' : Holds} {m m' : Memory} {w : Walker} {n : NodeId} {s : Endpoint}

theorem Sweeps.thins (sw : Sweeps m m') : Thins m m' where
  arc harc := (sw.arc _).symm.trans harc
  listed := sw.listed
  node := sw.node
  addrOf := sw.addrOf
  nextNode := sw.nextNode

theorem Clears.thins {arc : ElemId} (c : Clears s arc m m') : Thins m m' where
  arc harc := by
    obtain ⟨l', hl', hd', rfl⟩ := arc_eq_some.mp harc
    obtain ⟨l, hl, hv, hd⟩ := c.node hl'
    exact arc_eq_some.mpr ⟨l, hl, hd hd', hv.symm⟩
  listed := c.listed
  node hl := by
    obtain ⟨l, hl, hv, -⟩ := c.node hl
    exact ⟨l, hl, hv⟩
  addrOf he _ := (c.relinks.addrOf _).trans he
  nextNode := c.nextNode

theorem Thins.of_graph (gi : GraphInv h m) (graph : m'.graph = m.graph)
    (nodes : m'.nodes = m.nodes) (nextNode : m'.nextNode = m.nextNode)
    (addrOf : ∀ {e b g'}, m.addrOf e = some b → m'.addrs b = some g' → m'.addrOf e = some b) :
    Thins m m' where
  arc harc := graph ▸ harc
  listed e s := by
    rw [graph, nodes]
    exact (gi.filter_stored e s).symm
  node hl := ⟨_, nodes ▸ hl, rfl⟩
  addrOf := addrOf
  nextNode := nextNode

theorem after_filter {p : NodeId → Bool} (hn : p n = true) (l : List NodeId) :
    TmpIterator.after n (l.filter p) = (TmpIterator.after n l).filter p := by
  induction l with
  | nil => rfl
  | cons k l ih =>
    by_cases hk : k = n
    · subst hk
      rw [List.filter_cons_of_pos hn]
      simp [TmpIterator.after]
    · have skip : TmpIterator.after n (k :: l) = TmpIterator.after n l := by
        simp [TmpIterator.after, hk]
      rw [skip, ← ih]
      cases hp : p k with
      | true =>
        rw [List.filter_cons_of_pos hp]
        simp [TmpIterator.after, hk]
      | false => rw [List.filter_cons_of_neg (by simp [hp])]

theorem after_append {l : List NodeId} (hn : n ∈ l) (k : NodeId) :
    TmpIterator.after n (l ++ [k]) = TmpIterator.after n l ++ [k] := by
  induction l with
  | nil => cases hn
  | cons x l ih =>
    by_cases hx : x = n
    · simp [TmpIterator.after, hx]
    · have skip : ∀ l : List NodeId, TmpIterator.after n (x :: l) = TmpIterator.after n l := by
        intro l
        simp [TmpIterator.after, hx]
      rw [List.cons_append, skip, skip]
      exact ih ((List.mem_cons.mp hn).resolve_left (Ne.symm hx))

namespace Walker.Ok

theorem thins (ok : w.Ok m) (th : Thins m m') (inv' : ListInv h' m')
    (held : ∀ n a, w.it.curr = some (n, a) → 0 < h'.node n ∧ 0 < h'.addr a)
    (owner : ListOp.Accessible m' w.it.owner) : w.Ok m' := by
  have stored : ∀ n x, m'.graph.arc n = some x → (m'.nodes n).isSome = true := by
    intro n x harc
    obtain ⟨l, hl, -⟩ := arc_eq_some.mp harc
    simp [hl]
  refine ⟨owner, ?_, ?_, fun n hn => th.nextNode ▸ ok.old n hn, ok.count⟩
  · intro n a hc
    obtain ⟨hn, l, hl, ha⟩ := ok.stands n a hc
    obtain ⟨hnode, haddr⟩ := held n a hc
    obtain ⟨l', hl'⟩ := inv'.held_node hnode
    obtain ⟨g', hg'⟩ := inv'.held_addr haddr
    obtain ⟨l₀, hl₀, hv⟩ := th.node hl'
    obtain rfl := Option.some.inj (hl.symm.trans hl₀)
    refine ⟨?_, l', hl', hv ▸ th.addrOf ha hg'⟩
    rw [th.listed]
    exact List.mem_filter.mpr ⟨hn, by simp [hl']⟩
  · have die : ∀ n, alive m' n = true → alive m n = true := by
      intro n ha
      obtain ⟨x, hx⟩ := Option.isSome_iff_exists.mp ha
      simp [alive, th.arc hx]
    have keep : w.it.ahead m' = (w.it.ahead m).filter fun n => (m'.nodes n).isSome := by
      unfold TmpIterator.ahead
      cases hc : w.it.curr with
      | none => rfl
      | some c =>
        obtain ⟨n, a⟩ := c
        obtain ⟨l', hl'⟩ := inv'.held_node (held n a hc).1
        show TmpIterator.after n _ = List.filter _ (TmpIterator.after n _)
        rw [th.listed]
        exact after_filter (p := fun n => (m'.nodes n).isSome) (by simp [hl']) _
    apply ok.walk.change (fun n _ ha => die n ha)
    · rw [keep, List.filter_filter]
      apply List.monotone_filter_right
      intro n hn
      exact die n (Bool.and_eq_true_iff.mp hn).1
    · intro n hn ha
      obtain ⟨x, hx⟩ := Option.isSome_iff_exists.mp ha
      rw [keep]
      exact List.mem_filter.mpr ⟨hn, stored n x hx⟩

theorem attach (ok : w.Ok m) (inv : ListInv h m) {arc t : ElemId} (at' : Attaches s arc t m m')
    (nodes : ∀ {n l}, m.nodes n = some l → m'.nodes n = some l)
    (nextNode : m.nextNode < m'.nextNode) : (w.joined s t m.nextNode).Ok m' := by
  have hit := joined_it s t m.nextNode w
  have hlog : (w.joined s t m.nextNode).log = if w.it.owner = t ∧ w.it.side = s ∧
      w.it.curr.isSome then w.log ++ [m.nextNode] else w.log := by
    unfold Walker.joined
    split
    · simp [Walker.log]
    · rfl
  have hlisted : ∀ e u, m'.graph.listed e u =
      if e = t ∧ u = s then m.graph.listed t s ++ [m.nextNode] else m.graph.listed e u := by
    rw [at'.graph]
    exact fun _ _ => rfl
  have hmem : ∀ {n e u}, n ∈ m.graph.listed e u → n ∈ m'.graph.listed e u := by
    intro n e u hn
    rw [hlisted]
    split
    · next same => exact List.mem_append_left _ (same.1 ▸ same.2 ▸ hn)
    · exact hn
  have halive : ∀ n, n < m.nextNode → alive m' n = alive m n := by
    intro n hn
    simp only [alive, at'.graph]
    show (if n = m.nextNode then some arc else m.graph.arc n).isSome = _
    rw [if_neg (Nat.ne_of_lt hn)]
  have hlt : ∀ {n e u}, n ∈ m.graph.listed e u → n < m.nextNode := by
    intro n e u hn
    obtain ⟨l, hl⟩ := inv.listed_node hn
    exact inv.node_lt hl
  have hahead : ∀ n ∈ w.it.ahead m, n < m.nextNode := by
    unfold TmpIterator.ahead
    intro n hn
    split at hn
    · cases hn
    · exact hlt (ListInv.mem_after hn)
  -- First the nodes that are there already, then the new one.
  have kept : Walk (alive m') (w.it.ahead m) w.visited w.log := by
    apply ok.walk.change
    · intro n hn ha
      rwa [halive n (ok.old n hn)] at ha
    · rw [List.filter_congr fun n hn => halive n (hahead n hn)]
    · exact fun n hn _ => hn
  refine ⟨?_, ?_, ?_, ?_, ?_⟩
  · obtain ⟨b, hb, hlive⟩ := ok.owner
    rw [hit]
    exact ⟨b, (at'.relinks.addrOf _).trans hb, (at'.relinks.liveAddr b).trans hlive⟩
  · intro n a hc
    rw [hit] at hc ⊢
    obtain ⟨hn, l, hl, ha⟩ := ok.stands n a hc
    exact ⟨hmem hn, l, nodes hl, (at'.relinks.addrOf _).trans ha⟩
  · have hvisited : (w.joined s t m.nextNode).visited = w.visited := by
      unfold Walker.joined
      split <;> rfl
    rw [hvisited, hlog]
    unfold TmpIterator.ahead at kept ⊢
    rw [hit]
    cases hc : w.it.curr with
    | none => simpa [hc] using kept
    | some c =>
      obtain ⟨n, a⟩ := c
      simp only [hc] at kept
      simp only [hlisted, Option.isSome_some, and_true]
      split
      · next same =>
        have hn := (ok.stands n a hc).1
        rw [same.1, same.2] at hn kept
        rw [after_append hn]
        exact kept.join fun hnew => absurd (ok.old _ hnew) (Nat.lt_irrefl _)
      · exact kept
  · intro n hn
    rw [hlog] at hn
    split at hn
    · rcases List.mem_append.mp hn with h | h
      · exact Nat.lt_trans (ok.old n h) nextNode
      · exact List.mem_singleton.mp h ▸ nextNode
    · exact Nat.lt_trans (ok.old n hn) nextNode
  · rw [hit]
    unfold Walker.joined
    split
    · exact ok.count
    · exact ok.count

end Walker.Ok

theorem ListOp.Accessible.thins {e : ElemId} (acc : Accessible m e) (th : Thins m m')
    (live : ∀ b, m.addrOf e = some b → m.liveAddr b = true → m'.liveAddr b = true) :
    Accessible m' e := by
  obtain ⟨b, hb, hlive⟩ := acc
  have hlive' := live b hb hlive
  obtain ⟨g', hg'⟩ : ∃ g', m'.addrs b = some g' := by
    cases hg' : m'.addrs b with
    | none => simp [Memory.liveAddr, hg'] at hlive'
    | some g' => exact ⟨g', rfl⟩
  exact ⟨b, th.addrOf hb hg', hlive'⟩

theorem Walker.Ok.others {refs : Addr → Nat} {ws : List Walker} (ok : w.Ok m) (hw : w ∈ ws)
    (lists : ListInv (holdsOf refs ws) m') (th : Thins m m')
    (live : ∀ b, m.addrOf w.it.owner = some b → m.liveAddr b = true → m'.liveAddr b = true) :
    w.Ok m' :=
  ok.thins th lists (fun _ _ hc => holdsOf_held hw hc) (ok.owner.thins th live)

/-! ## Coming to rest -/

section Rest

variable {e : ElemId} {l : List NodeId} {curr : Option (NodeId × Addr)} {visited log : List NodeId}

theorem split_after (hn : n ∈ l) : ∃ pre, l = pre ++ n :: TmpIterator.after n l := by
  induction l with
  | nil => cases hn
  | cons x l ih =>
    by_cases hx : x = n
    · subst hx
      exact ⟨[], by simp [TmpIterator.after]⟩
    · obtain ⟨pre, hpre⟩ := ih ((List.mem_cons.mp hn).resolve_left (Ne.symm hx))
      have skip : TmpIterator.after n (x :: l) = TmpIterator.after n l := by
        simp [TmpIterator.after, hx]
      exact ⟨x :: pre, by rw [skip, List.cons_append, ← hpre]⟩

theorem after_split {pre rest : List NodeId} (nodup : (pre ++ n :: rest).Nodup) :
    TmpIterator.after n (pre ++ n :: rest) = rest := by
  induction pre with
  | nil => simp [TmpIterator.after]
  | cons x pre ih =>
    obtain ⟨hx, nodup⟩ := List.nodup_cons.mp nodup
    have hne : x ≠ n := fun h => hx (h ▸ List.mem_append_right _ List.mem_cons_self)
    have skip : TmpIterator.after n (x :: (pre ++ n :: rest)) =
        TmpIterator.after n (pre ++ n :: rest) := by
      simp [TmpIterator.after, hne]
    rw [List.cons_append, skip]
    exact ih nodup

theorem alive_sweeps (sw : Sweeps m m') : alive m' = alive m := by
  funext n
  simp only [alive, sw.arc]

theorem Stops.walk (st : Stops h m m' l curr) (sw : Sweeps m m') (coh : m.graph.Coherent)
    (hl : ∃ pre, m.graph.listed e s = pre ++ l) (walk : Walk (alive m) l visited log) :
    Walk (alive m') (TmpIterator.ahead m' ⟨e, s, curr⟩)
      (visited ++ (curr.map (·.1)).toList) log := by
  rw [alive_sweeps sw]
  have none_of : ∀ {n}, m.graph.arc n = none → alive m n = false := by
    intro n hn
    simp [alive, hn]
  cases st with
  | spent _ dead =>
    rw [show visited ++ ((none : Option (NodeId × Addr)).map (·.1)).toList = visited from
      List.append_nil _]
    exact walk.finish fun k hk => none_of (dead k hk)
  | @on k b dead rest x _ hsplit hskip harc _ =>
    rw [hsplit] at walk hl
    obtain ⟨pre, hpre⟩ := hl
    have halive : alive m k = true := by simp [alive, harc]
    have stepped := walk.advance (fun d hd => none_of (hskip d hd)) halive
    have hstored : (m'.nodes k).isSome = true := by
      obtain ⟨lk, hlk, -⟩ := arc_eq_some.mp ((sw.arc k).trans harc)
      simp [hlk]
    have hlisted : m.graph.listed e s = (pre ++ dead) ++ k :: rest := by
      rw [hpre, List.append_assoc]
    have hafter : TmpIterator.after k (m'.graph.listed e s) =
        rest.filter fun n => (m'.nodes n).isSome := by
      have nodup := coh.nodup e s
      rw [hlisted] at nodup
      rw [sw.listed, after_filter (p := fun n => (m'.nodes n).isSome) hstored, hlisted,
        after_split nodup]
    apply stepped.change (fun n _ ha => ha)
    · show (List.filter _ (TmpIterator.after k _)).Sublist _
      rw [hafter, List.filter_filter]
      apply List.monotone_filter_right
      intro n hn
      exact (Bool.and_eq_true_iff.mp hn).1
    · intro n hn ha
      show n ∈ TmpIterator.after k _
      rw [hafter]
      obtain ⟨y, hy⟩ := Option.isSome_iff_exists.mp ha
      obtain ⟨ln, hln, -⟩ := arc_eq_some.mp ((sw.arc n).trans hy)
      exact List.mem_filter.mpr ⟨hn, by simp [hln]⟩

theorem Stops.rests {b : Addr} (st : Stops h m m' l (some (n, b))) (sw : Sweeps m m')
    (inv : ListInv h' m) (hl : ∀ k ∈ l, k ∈ m.graph.listed e s) :
    n ∈ m'.graph.listed e s ∧ alive m' n = true ∧
      ∃ ln, m'.nodes n = some ln ∧ m'.addrOf ln.value = some b := by
  cases st with
  | @on _ _ dead rest x _ hsplit _ harc haddr =>
    have hn : n ∈ m.graph.listed e s := by
      apply hl
      rw [hsplit]
      exact List.mem_append_right _ List.mem_cons_self
    have harc' : m'.graph.arc n = some x := (sw.arc n).trans harc
    obtain ⟨ln, hln, -, rfl⟩ := arc_eq_some.mp harc'
    obtain ⟨b', hb', hlive⟩ := inv.arc_addr hn harc
    obtain rfl := Option.some.inj (haddr.symm.trans hb')
    obtain ⟨g', hg'⟩ : ∃ g', m'.addrs b = some g' := by
      rw [← sw.live] at hlive
      cases hg' : m'.addrs b with
      | none => simp [Memory.liveAddr, hg'] at hlive
      | some g' => exact ⟨g', rfl⟩
    refine ⟨?_, by simp [alive, harc'], ln, hln, sw.addrOf haddr hg'⟩
    rw [sw.listed]
    exact List.mem_filter.mpr ⟨hn, by simp [hln]⟩

end Rest

/-! ## Operations on the storage -/

section Storage

variable {el : Element} {arc t : ElemId} {a : Addr}

theorem ListInv.adds (inv : ListInv h m) (ad : Adds el m m') (ai : AddrInv h m')
    (live : ∀ {e a}, m.addrOf e = some a → m'.liveAddr a = m.liveAddr a) :
    ListInv h m' ∧ Thins m m' := by
  have graph := ad.graph inv.toAddrInv
  constructor
  · refine inv.readdress rfl ai graph (ad.qnt inv.toAddrInv) ad.nodes ad.nextNode ?_
    intro e b he hd s
    rcases ad.addrOf_some he with ⟨rfl, -⟩ | ⟨-, he⟩
    · exact ⟨listed_missing inv.unused, target_missing inv.unused⟩
    · exact inv.dead_free s he (live he ▸ hd)
  · refine Thins.of_graph inv.toGraphInv graph ad.nodes ad.nextNode fun he _ => ?_
    rw [ad.addrOf_old (Adds.ne_new inv.toAddrInv he)]
    exact he

theorem ListInv.relabels {P : ElemId → Prop} (inv : ListInv h m) (r : Relabels P m m') :
    ListInv h m' ∧ Thins m m' := by
  constructor
  · refine inv.readdress rfl (r.addrInv inv.toAddrInv) r.graph r.qnt r.nodes r.nextNode ?_
    intro e b he hd s
    exact inv.dead_free s (r.addrOf e ▸ he) (r.liveAddr b ▸ hd)
  · refine Thins.of_graph inv.toGraphInv r.graph r.nodes r.nextNode fun he _ => ?_
    exact (r.addrOf _).trans he

theorem ListInv.ensureLinkTo {seg : SegId} {ll : ElemId} (inv : ListInv h m)
    (hr : Session.ensureLinkTo m seg a = some (m', ll)) :
    ListInv h m' ∧ Thins m m' ∧ ∀ b, m'.liveAddr b = m.liveAddr b := by
  simp only [Session.ensureLinkTo, Option.bind_eq_bind, Option.bind_eq_some_iff] at hr
  obtain ⟨g, hg, hr⟩ := hr
  have same : ListInv h m ∧ Thins m m ∧ ∀ b, m.liveAddr b = m.liveAddr b :=
    ⟨inv, (Sweeps.refl inv.toGraphInv).thins, fun _ => rfl⟩
  split at hr
  · exact (Prod.mk.inj (Option.some.inj hr)).1 ▸ same
  · split at hr
    · exact (Prod.mk.inj (Option.some.inj hr)).1 ▸ same
    · obtain ⟨⟨m₁, str⟩, hm₁, hr⟩ := Option.bind_eq_some_iff.mp hr
      have r := (renames_getIdtf hm₁).relabels
      obtain ⟨inv₁, thins₁⟩ := inv.relabels r
      have hg₁ : m₁.addrs a = some g := r.addrs ▸ hg
      obtain ⟨rfl, rfl⟩ := Prod.mk.inj (newLink_eq hg₁ hr)
      generalize (m₁.segs g.seg).uri ++ [47] ++ str = uri
      have live : ∀ b, (linked m₁ a seg uri).liveAddr b = m₁.liveAddr b := by
        intro b
        cases hb : m₁.addrs b with
        | none =>
          cases hb' : (linked m₁ a seg uri).addrs b with
          | none => simp [Memory.liveAddr, hb, hb']
          | some g' =>
            obtain ⟨g₀, hg₀, -⟩ := linked_addrs hb'
            rw [hb] at hg₀
            cases hg₀
        | some g₀ =>
          obtain ⟨g', hg'⟩ := linked_stored a seg uri hb
          obtain ⟨g₁, hg₁', -, -, -, hd, -⟩ := linked_addrs hg'
          obtain rfl := Option.some.inj (hb.symm.trans hg₁')
          simp [Memory.liveAddr, hb, hg', hd]
      obtain ⟨inv₂, thins₂⟩ := inv₁.adds (adds_linked m₁ a seg uri)
        (inv₁.toAddrInv.linked hg₁ seg uri) fun _ => live _
      refine ⟨inv₂, ?_, fun b => (live b).trans (r.liveAddr b)⟩
      exact {
        arc := fun harc => thins₁.arc (thins₂.arc harc)
        listed := fun e s => by
          have hnodes : (linked m₁ a seg uri).nodes = m.nodes := r.nodes
          rw [(adds_linked m₁ a seg uri).graph inv₁.toAddrInv, r.graph, hnodes]
          exact (inv.filter_stored e s).symm
        node := fun hl => ⟨_, r.nodes ▸ hl, rfl⟩
        addrOf := fun he hg' => by
          obtain ⟨g₀, hg₀, -⟩ := linked_addrs hg'
          exact thins₂.addrOf (thins₁.addrOf he hg₀) hg'
        nextNode := thins₂.nextNode.trans thins₁.nextNode }

theorem ListInv.clear (inv : ListInv h m) (s : Endpoint) (harc : ∃ el, m.elems arc = some el) :
    ∃ m', setEndpoint s m arc none = some m' ∧ ListInv h m' ∧ Clears s arc m m' := by
  obtain ⟨el, hel⟩ := harc
  obtain ⟨m', hm', gi, c⟩ := inv.toGraphInv.clear (s := s) hel
  exact ⟨m', hm', inv.shrink gi c.shrinks c.relinks rfl, c⟩

theorem ListInv.attach (inv : ListInv h m) (harc : ListOp.Accessible m arc)
    (ht : ListOp.Accessible m t) (free : m.graph.target arc s = none) :
    ∃ m', attachEnd s m arc t = some m' ∧ ListInv h m' ∧ Attaches s arc t m m' ∧
      (∀ {n l}, m.nodes n = some l → m'.nodes n = some l) ∧ m.nextNode < m'.nextNode := by
  obtain ⟨x, hx, hxlive⟩ := harc
  obtain ⟨b, hb, hblive⟩ := ht
  obtain ⟨el, hel, -⟩ := stored_of_addrOf hx
  obtain ⟨o, ho, -⟩ := stored_of_addrOf hb
  have fresh : h.node m.nextNode = 0 := by
    rcases Nat.eq_zero_or_pos (h.node m.nextNode) with h0 | hpos
    · exact h0
    · obtain ⟨l, hl⟩ := inv.held_node hpos
      exact absurd (inv.node_lt hl) (Nat.lt_irrefl _)
  obtain ⟨m', hm', gi, at'⟩ := inv.toGraphInv.attach fresh ⟨el, hel⟩ ⟨o, ho⟩ free
  have hmem : m' = attached m s arc t :=
    (Option.some.inj ((attachEnd_eq ⟨el, hel⟩ ⟨o, ho⟩).symm.trans hm')).symm
  have hnodes : ∀ n, m'.nodes n = if n = m.nextNode then some ⟨arc, 1, false⟩ else m.nodes n := by
    rw [hmem]
    exact nodes_attached m s arc t
  have hlisted : ∀ e u, m'.graph.listed e u =
      if e = t ∧ u = s then m.graph.listed t s ++ [m.nextNode] else m.graph.listed e u := by
    rw [at'.graph]
    exact fun _ _ => rfl
  have htarget : ∀ y u, m'.graph.target y u =
      if y = arc ∧ u = s then some t else m.graph.target y u := by
    rw [at'.graph]
    exact fun _ _ => rfl
  refine ⟨m', hm', ?_, at', ?_, ?_⟩
  · exact {
      toGraphInv := gi
      toAddrInv := inv.toAddrInv.relinks at'.relinks
      dead_free := fun {e c} u he hd => by
        rw [at'.relinks.addrOf] at he
        rw [at'.relinks.liveAddr] at hd
        obtain ⟨hlist, htg⟩ := inv.dead_free u he hd
        constructor
        · rw [hlisted, if_neg, hlist]
          rintro ⟨rfl, -⟩
          obtain rfl := Option.some.inj (hb.symm.trans he)
          simp [hblive] at hd
        · rw [htarget, if_neg, htg]
          rintro ⟨rfl, -⟩
          obtain rfl := Option.some.inj (hx.symm.trans he)
          simp [hxlive] at hd
      stored_listed := fun {n l} hl => by
        rw [hnodes] at hl
        split at hl
        · next hn =>
          refine ⟨t, s, ?_⟩
          rw [hlisted, if_pos ⟨rfl, rfl⟩, hn]
          exact List.mem_append_right _ List.mem_cons_self
        · obtain ⟨e, u, hmem⟩ := inv.stored_listed hl
          refine ⟨e, u, ?_⟩
          rw [hlisted]
          split
          · next same => exact List.mem_append_left _ (same.1 ▸ same.2 ▸ hmem)
          · exact hmem }
  · intro n l hl
    rw [hnodes, if_neg (Nat.ne_of_lt (inv.node_lt hl)), hl]
  · rw [hmem]
    exact Nat.lt_succ_self _

end Storage

/-! ## Steps -/

theorem walkers_split {ws : List Walker} {k : Nat} (hk : k < ws.length) :
    ∃ pre w post, ws = pre ++ w :: post ∧ ws[k]? = some w ∧
      (∀ w', ws.set k w' = pre ++ w' :: post) ∧ ws.eraseIdx k = pre ++ post ∧ pre.length = k := by
  refine ⟨ws.take k, ws[k], ws.drop (k + 1), ?_, List.getElem?_eq_getElem hk, ?_, ?_, ?_⟩
  · rw [List.getElem_cons_drop, List.take_append_drop]
  · intro w'
    rw [List.set_eq_take_append_cons_drop, if_pos hk]
  · exact List.eraseIdx_eq_take_drop_succ ws k
  · exact List.length_take_of_le (Nat.le_of_lt hk)

section Steps

variable {st st' : ListState} {e : ElemId} {k : Nat}

theorem Walker.Ok.arrive {l : List NodeId} {curr : Option (NodeId × Addr)}
    (stops : Stops h m m' l curr) (sw : Sweeps m m') (inv : ListInv h' m)
    (hl : ∃ pre, m.graph.listed e s = pre ++ l) (walk : Walk (alive m) l w.visited w.log)
    (owner : ListOp.Accessible m e) (old : ∀ n ∈ w.log, n < m.nextNode)
    (count : w.visited.length = w.moves) : (w.arrive ⟨e, s, curr⟩).Ok m' where
  owner := owner.thins sw.thins fun b _ hb => (sw.live b).trans hb
  stands n a hc := by
    obtain rfl : curr = some (n, a) := hc
    obtain ⟨hn, -, ha⟩ := stops.rests sw inv fun k hk => by
      obtain ⟨pre, hpre⟩ := hl
      rw [hpre]
      exact List.mem_append_right _ hk
    exact ⟨hn, ha⟩
  walk := stops.walk sw inv.coherent hl walk
  old n hn := sw.nextNode ▸ old n hn
  count hc := by
    obtain ⟨c, hc⟩ := Option.ne_none_iff_exists'.mp hc
    obtain rfl : curr = some c := hc
    simp [Walker.arrive, count]

theorem ListStateInv.still (inv : ListStateInv st) {refs : Addr → Nat}
    (lists : ListInv (holdsOf refs st.walkers) m') (th : Thins st.memory m')
    (live : ∀ w ∈ st.walkers, ∀ b, st.memory.addrOf w.it.owner = some b →
      st.memory.liveAddr b = true → m'.liveAddr b = true) :
    ListStateInv ⟨m', refs, st.walkers⟩ :=
  ⟨lists, fun w hw => (inv.walkers w hw).others hw lists th (live w hw)⟩

theorem holdsOf_ref (refs : Addr → Nat) (ws : List Walker) (a : Addr) :
    holdsOf (fun b => if b = a then refs b + 1 else refs b) ws = (holdsOf refs ws).holdAddr a := by
  simp only [holdsOf, Holds.holdAddr, Holds.mk.injEq, true_and]
  funext b
  split
  · omega
  · rfl

theorem ListStateInv.setEnd (inv : ListStateInv st) {arc : ElemId} {target : Option ElemId}
    (ok : ListOp.ok st (.setEnd s arc target)) :
    ∃ st', (ListOp.setEnd s arc target).exec st = some st' ∧ ListStateInv st' := by
  obtain ⟨harc, htarget⟩ := ok
  have stored : ∃ el, st.memory.elems arc = some el := by
    obtain ⟨x, hx, -⟩ := harc
    obtain ⟨el, hel, -⟩ := stored_of_addrOf hx
    exact ⟨el, hel⟩
  obtain ⟨m₁, hm₁, lists₁, c⟩ := inv.lists.clear s stored
  have live₁ : ∀ b, st.memory.liveAddr b = true → m₁.liveAddr b = true := fun b hb =>
    (c.relinks.liveAddr b).trans hb
  have inv₁ := inv.still lists₁ c.thins fun _ _ b _ => live₁ b
  cases target with
  | none => exact ⟨_, by simp [ListOp.exec, hm₁], inv₁⟩
  | some t =>
    obtain ⟨m₂, hm₂, lists₂, at', nodes, nextNode⟩ := lists₁.attach (s := s)
      (harc.thins c.thins fun b _ => live₁ b)
      ((htarget t rfl).thins c.thins fun b _ => live₁ b) ((c.target arc s).trans
        (if_pos ⟨rfl, rfl⟩))
    refine ⟨⟨m₂, st.refs, st.walkers.map (Walker.joined s t st.memory.nextNode)⟩, ?_, ?_, ?_⟩
    · simp [ListOp.exec, setEndpoint_some, hm₁, hm₂]
    · show ListInv (holdsOf st.refs (st.walkers.map _)) m₂
      rw [holdsOf_joined]
      exact lists₂
    · intro w hw
      obtain ⟨w₀, hw₀, rfl⟩ := List.mem_map.mp hw
      rw [← c.nextNode]
      exact (inv₁.walkers w₀ hw₀).attach lists₁ at' nodes nextNode

theorem ListStateInv.create (inv : ListStateInv st) (ok : ListOp.ok st (.create e s)) :
    ∃ st', (ListOp.create e s).exec st = some st' ∧ ListStateInv st' ∧
      ∃ w, st'.walkers = st.walkers ++ [w] ∧
        ∀ n a, w.it.curr = some (n, a) → alive st'.memory n = true := by
  have stored : ∃ o, st.memory.elems e = some o := by
    obtain ⟨b, hb, -⟩ := ok
    obtain ⟨o, ho, -⟩ := stored_of_addrOf hb
    exact ⟨o, ho⟩
  have first : ∀ n l, n ∈ st.memory.graph.listed e s → st.memory.nodes n = some l →
      ∃ a, st.memory.addrOf l.value = some a := by
    intro n l hn hl
    cases hd : l.dead with
    | false =>
      obtain ⟨b, hb, -⟩ := inv.lists.arc_addr hn (arc_eq_some.mpr ⟨l, hl, hd, rfl⟩)
      exact ⟨b, hb⟩
    | true =>
      -- Somebody stands on a dead node and holds the arc it stood for.
      obtain ⟨w, hw, a, hc⟩ := holder_of_node (inv.lists.node_held hl hd)
      obtain ⟨-, l', hl', ha⟩ := (inv.walkers w hw).stands n a hc
      obtain rfl := Option.some.inj (hl.symm.trans hl')
      exact ⟨a, ha⟩
  obtain ⟨m', curr, hm', sw, stops⟩ := inv.lists.create (s := s) stored first
  have started : Walk (alive st.memory) (st.memory.graph.listed e s) []
      (st.memory.graph.live e s ++ []) := by
    rw [List.append_nil]
    exact Walk.start (inv.lists.coherent.nodup e s)
  have old : ∀ n ∈ st.memory.graph.live e s ++ [], n < st.memory.nextNode := by
    intro n hn
    rw [List.append_nil] at hn
    obtain ⟨l, hl⟩ := inv.lists.listed_node (AdjacencyLists.mem_live.mp hn).1
    exact inv.lists.node_lt hl
  let w : Walker := Walker.arrive ⟨⟨e, s, curr⟩, [], st.memory.graph.live e s, [], 0⟩ ⟨e, s, curr⟩
  have hw : w.Ok m' := Walker.Ok.arrive stops sw inv.lists ⟨[], rfl⟩ started ok old rfl
  have lists : ListInv (holdsOf st.refs (st.walkers ++ [w])) m' := by
    rw [holdsOf_insert, List.append_nil]
    cases stops with
    | spent inv' _ => exact inv'
    | on inv' _ _ _ _ => exact inv'
  refine ⟨⟨m', st.refs, st.walkers ++ [w]⟩, ?_, ⟨lists, ?_⟩, w, rfl, ?_⟩
  · simp [ListOp.exec, hm', w]
  · intro u hu
    rcases List.mem_append.mp hu with hmem | hmem
    · exact (inv.walkers u hmem).others hu lists sw.thins fun b _ hb => (sw.live b).trans hb
    · exact List.mem_singleton.mp hmem ▸ hw
  · intro n a hc
    obtain rfl : curr = some (n, a) := hc
    exact (stops.rests sw inv.lists fun k hk => hk).2.1

theorem ListStateInv.next (inv : ListStateInv st) (ok : ListOp.ok st (.next k)) :
    ∃ st', (ListOp.next k).exec st = some st' ∧ ListStateInv st' ∧
      ∀ w, st'.walkers[k]? = some w → ∀ n a, w.it.curr = some (n, a) →
        alive st'.memory n = true := by
  obtain ⟨pre, w, post, hsplit, hget, hset, -, hlen⟩ := walkers_split ok
  have hw : w ∈ st.walkers := hsplit ▸ List.mem_append_right _ List.mem_cons_self
  have okw := inv.walkers w hw
  have lists := inv.lists
  rw [hsplit, holdsOf_insert] at lists
  obtain ⟨⟨e, s, curr⟩, visited, start, since, moves⟩ := w
  cases curr with
  | none =>
    let w' : Walker := Walker.arrive ⟨⟨e, s, none⟩, visited, start, since, moves + 1⟩ ⟨e, s, none⟩
    refine ⟨⟨st.memory, st.refs, pre ++ w' :: post⟩, ?_, ⟨?_, ?_⟩, ?_⟩
    · simp [ListOp.exec, hget, TmpIterator.next, hset, w']
    · rw [holdsOf_insert]
      exact lists
    · intro u hu
      rcases List.mem_append.mp hu with hmem | hmem
      · exact inv.walkers u (hsplit ▸ List.mem_append_left _ hmem)
      · rcases List.mem_cons.mp hmem with rfl | hmem
        · refine ⟨okw.owner, fun n a hc => (by cases hc), ?_, okw.old, fun hc => absurd rfl hc⟩
          show Walk _ [] (visited ++ []) _
          rw [List.append_nil]
          exact okw.walk
        · exact inv.walkers u (hsplit ▸ List.mem_append_right _ (List.mem_cons_of_mem _ hmem))
    · intro u hu n a hc
      simp only [List.getElem?_append_right (Nat.le_of_eq hlen), hlen, Nat.sub_self,
        List.getElem?_cons_zero, Option.some.injEq] at hu
      subst hu
      cases hc
  | some c =>
    obtain ⟨n, a⟩ := c
    obtain ⟨hn, -⟩ := okw.stands n a rfl
    obtain ⟨m', curr', hm', sw, stops⟩ := lists.next hn
    have hl : ∃ p, st.memory.graph.listed e s =
        p ++ TmpIterator.after n (st.memory.graph.listed e s) := by
      obtain ⟨p, hp⟩ := split_after hn
      exact ⟨p ++ [n], by rw [List.append_assoc]; exact hp⟩
    let w' : Walker :=
      Walker.arrive ⟨⟨e, s, some (n, a)⟩, visited, start, since, moves + 1⟩ ⟨e, s, curr'⟩
    have okw' : w'.Ok m' := Walker.Ok.arrive stops sw lists hl okw.walk okw.owner okw.old
      (okw.count (by simp))
    have lists' : ListInv (holdsOf st.refs (pre ++ w' :: post)) m' := by
      rw [holdsOf_insert]
      cases stops with
      | spent inv' _ => exact inv'
      | on inv' _ _ _ _ => exact inv'
    refine ⟨⟨m', st.refs, pre ++ w' :: post⟩, ?_, ⟨lists', ?_⟩, ?_⟩
    · simp [ListOp.exec, hget, hm', hset, w']
    · intro u hu
      have live : ∀ b, st.memory.addrOf u.it.owner = some b → st.memory.liveAddr b = true →
          m'.liveAddr b = true := fun b _ hb => (sw.live b).trans hb
      rcases List.mem_append.mp hu with hmem | hmem
      · exact (inv.walkers u (hsplit ▸ List.mem_append_left _ hmem)).others hu lists' sw.thins live
      · rcases List.mem_cons.mp hmem with rfl | hmem
        · exact okw'
        · exact (inv.walkers u (hsplit ▸ List.mem_append_right _
            (List.mem_cons_of_mem _ hmem))).others hu lists' sw.thins live
    · intro u hu k' b hc
      simp only [List.getElem?_append_right (Nat.le_of_eq hlen), hlen, Nat.sub_self,
        List.getElem?_cons_zero, Option.some.injEq] at hu
      subst hu
      obtain rfl : curr' = some (k', b) := hc
      exact (stops.rests sw lists fun _ hk => ListInv.mem_after hk).2.1

theorem ListStateInv.destroy (inv : ListStateInv st) (ok : ListOp.ok st (.destroy k)) :
    ∃ st', (ListOp.destroy k).exec st = some st' ∧ ListStateInv st' := by
  obtain ⟨pre, w, post, hsplit, hget, -, herase, -⟩ := walkers_split ok
  have hw : w ∈ st.walkers := hsplit ▸ List.mem_append_right _ List.mem_cons_self
  have okw := inv.walkers w hw
  have lists := inv.lists
  rw [hsplit, holdsOf_insert] at lists
  have old : ∀ u ∈ pre ++ post, u.Ok st.memory := by
    intro u hu
    apply inv.walkers u
    rw [hsplit]
    rcases List.mem_append.mp hu with hmem | hmem
    · exact List.mem_append_left _ hmem
    · exact List.mem_append_right _ (List.mem_cons_of_mem _ hmem)
  obtain ⟨⟨e, s, curr⟩, visited, start, since, moves⟩ := w
  cases curr with
  | none =>
    refine ⟨⟨st.memory, st.refs, pre ++ post⟩, ?_, lists, old⟩
    simp [ListOp.exec, hget, TmpIterator.destroy, herase]
  | some c =>
    obtain ⟨n, a⟩ := c
    obtain ⟨m', hm', lists', sw⟩ := lists.destroy (okw.stands n a rfl).1
    refine ⟨⟨m', st.refs, pre ++ post⟩, ?_, lists', fun u hu => ?_⟩
    · simp [ListOp.exec, hget, hm', herase]
    · exact (old u hu).others hu lists' sw.thins fun b _ hb => (sw.live b).trans hb

theorem ListStateInv.exec {op : ListOp} (inv : ListStateInv st) (ok : op.ok st)
    (hr : op.exec st = some st') : ListStateInv st' := by
  cases op with
  | createEl seg type =>
    obtain ⟨⟨m', r, rv⟩, hm', rfl⟩ := Option.map_eq_some_iff.mp hr
    rcases createEl_some hm' with ⟨rfl, -⟩ | ⟨t, rfl, -⟩
    · exact inv
    · have live : ∀ {e a}, st.memory.addrOf e = some a →
          (created st.memory seg t).liveAddr a = st.memory.liveAddr a := by
        intro e a he
        obtain ⟨g, hg, -⟩ := inv.lists.addr_stores he
        have hne : a ≠ st.memory.nextAddr := by
          rintro rfl
          simp [inv.lists.unusedAddr] at hg
        rw [Memory.liveAddr, Memory.liveAddr, created_addrs, if_neg hne]
      obtain ⟨lists, th⟩ := inv.lists.adds (adds_created st.memory seg t)
        (inv.lists.toAddrInv.created seg t) live
      exact inv.still lists th fun w _ b hb hlive => (live hb).trans hlive
  | ensureLinkTo seg a =>
    obtain ⟨⟨m', ll⟩, hm', rfl⟩ := Option.map_eq_some_iff.mp hr
    obtain ⟨lists, th, live⟩ := inv.lists.ensureLinkTo hm'
    exact inv.still lists th fun w _ b _ hlive => (live b).trans hlive
  | die a =>
    obtain ⟨m', hm', rfl⟩ := Option.map_eq_some_iff.mp hr
    obtain ⟨hlive, free, unwalked⟩ := ok
    obtain ⟨g, hg, hd⟩ := liveAddr_eq_true.mp hlive
    have bare : ∀ e, st.memory.addrOf e = some a → ∀ s,
        st.memory.graph.listed e s = [] ∧ st.memory.graph.target e s = none := by
      intro e he s
      refine ⟨List.eq_nil_iff_forall_not_mem.mpr fun n hn => ?_, (free e s he).2⟩
      obtain ⟨l, hl⟩ := inv.lists.listed_node hn
      cases hdead : l.dead with
      | false =>
        have harc := arc_eq_some.mpr ⟨l, hl, hdead, rfl⟩
        have hmem := AdjacencyLists.mem_live.mpr ⟨hn, l.value, harc⟩
        rw [(free e s he).1] at hmem
        cases hmem
      | true =>
        -- An iterator stands on the dead node and walks over this list.
        obtain ⟨w, hw, b, hc⟩ := holder_of_node (inv.lists.node_held hl hdead)
        obtain ⟨hn', -⟩ := (inv.walkers w hw).stands n b hc
        obtain ⟨rfl, -⟩ := inv.lists.coherent.owner hn' hn
        exact unwalked w hw he
    obtain ⟨m₁, hm₁, lists, hgraph, hnodes, hnext, haddrOf, live⟩ := inv.lists.dieAddr hg hd bare
    obtain rfl := Option.some.inj (hm₁.symm.trans hm')
    refine inv.still lists (Thins.of_graph inv.lists.toGraphInv hgraph hnodes hnext haddrOf) ?_
    intro w hw b hb hlive
    rw [live, if_neg]
    · exact hlive
    · rintro rfl
      exact unwalked w hw hb
  | ref a =>
    obtain ⟨m', hm', rfl⟩ := Option.map_eq_some_iff.mp hr
    obtain ⟨g, hg⟩ := ok
    obtain ⟨m₁, hm₁, lists, sw, -⟩ := inv.lists.refAddr hg
    obtain rfl := Option.some.inj (hm₁.symm.trans hm')
    rw [← holdsOf_ref] at lists
    exact inv.still lists sw.thins fun w _ b _ hb => (sw.live b).trans hb
  | unref a =>
    obtain ⟨m', hm', rfl⟩ := Option.map_eq_some_iff.mp hr
    have hrefs : (fun b => if b = a then (if b = a then st.refs b - 1 else st.refs b) + 1
        else if b = a then st.refs b - 1 else st.refs b) = st.refs := by
      funext b
      by_cases hb : b = a
      · subst hb
        have : 0 < st.refs b := ok
        simp only [if_true]
        omega
      · simp [hb]
    have lists : ListInv ((holdsOf (fun b => if b = a then st.refs b - 1 else st.refs b)
        st.walkers).holdAddr a) st.memory := by
      rw [← holdsOf_ref, hrefs]
      exact inv.lists
    obtain ⟨m₁, hm₁, lists', sw⟩ := lists.unrefAddr
    obtain rfl := Option.some.inj (hm₁.symm.trans hm')
    exact inv.still lists' sw.thins fun w _ b _ hb => (sw.live b).trans hb
  | setEnd s arc target =>
    obtain ⟨st₁, hst₁, inv₁⟩ := inv.setEnd ok
    exact Option.some.inj (hst₁.symm.trans hr) ▸ inv₁
  | create e s =>
    obtain ⟨st₁, hst₁, inv₁, -⟩ := inv.create ok
    exact Option.some.inj (hst₁.symm.trans hr) ▸ inv₁
  | next k =>
    obtain ⟨st₁, hst₁, inv₁, -⟩ := inv.next ok
    exact Option.some.inj (hst₁.symm.trans hr) ▸ inv₁
  | destroy k =>
    obtain ⟨st₁, hst₁, inv₁⟩ := inv.destroy ok
    exact Option.some.inj (hst₁.symm.trans hr) ▸ inv₁

theorem ListStateInv.initial (uri tmpPrefix : SegId → ScString) :
    ListStateInv (ListState.initial uri tmpPrefix) := by
  have empty : Inv (clientHolds fun _ => 0) (Memory.empty uri tmpPrefix) :=
    (Inv.empty uri tmpPrefix (fun _ => 0) fun _ => rfl).1
  refine ⟨⟨empty.toGraphInv, empty.toAddrInv, fun s he hd => empty.dead_free s he hd, ?_⟩, ?_⟩
  · intro n l hl
    cases hl
  · intro w hw
    cases hw

end Steps

/-! ## What holds of lists and iterators -/

/-- The node `n` stands for an arc attached to the list `e`, `s`. -/
def AttachedAs (m : Memory) (e : ElemId) (s : Endpoint) (n : NodeId) : Prop :=
  ∃ x, m.graph.target x s = some e ∧ m.graph.back x s = some n

def ListOp.onLists : ListOp → Bool
  | .setEnd _ _ _ | .create _ _ | .next _ | .destroy _ => true
  | _ => false

structure ListsSafe (st : ListState) : Prop where
  /-- A node is freed exactly when it is detached and no iterator stands on it. -/
  kept : ∀ n, (∃ l, st.memory.nodes n = some l) ↔
    (∃ e s, AttachedAs st.memory e s n) ∨ ∃ w ∈ st.walkers, ∃ a, w.it.curr = some (n, a)
  /-- Nothing freed is ever read. -/
  reads : ∀ op : ListOp, op.onLists = true → op.ok st → ∃ st', op.exec st = some st'
  /-- An iterator returns the arc its node stands for, or stood for. -/
  value : ∀ w ∈ st.walkers, ∀ n a, w.it.curr = some (n, a) →
    ∃ l, st.memory.nodes n = some l ∧ st.memory.addrOf l.value = some a
  /-- The nodes come in list order, each once. -/
  order : ∀ w ∈ st.walkers, w.visited.Sublist w.log ∧ w.log.Nodup
  /-- What is still attached has been returned or is in front of the iterator. -/
  complete : ∀ w ∈ st.walkers, ∀ n ∈ w.log, AttachedAs st.memory w.it.owner w.it.side n →
    n ∈ w.visited ∨ n ∈ w.it.ahead st.memory
  /-- An iterator does not move onto a detached arc. -/
  created : ∀ e s st', (ListOp.create e s).ok st → (ListOp.create e s).exec st = some st' →
    ∃ w, st'.walkers = st.walkers ++ [w] ∧ ∀ n a, w.it.curr = some (n, a) →
      AttachedAs st'.memory w.it.owner w.it.side n
  moved : ∀ k st' w, (ListOp.next k).ok st → (ListOp.next k).exec st = some st' →
    st'.walkers[k]? = some w → ∀ n a, w.it.curr = some (n, a) →
      AttachedAs st'.memory w.it.owner w.it.side n
  /-- It is over when it has moved as often as there were nodes to meet. -/
  ends : ∀ w ∈ st.walkers, w.log.length ≤ w.moves → w.it.isOver = true

section Runs

variable {st : ListState}

theorem AttachedAs.arc {e : ElemId} (at' : AttachedAs m e s n) (coh : m.graph.Coherent) :
    n ∈ m.graph.listed e s ∧ ∃ x, m.graph.arc n = some x := by
  obtain ⟨x, ht, hb⟩ := at'
  obtain ⟨hn, harc⟩ := coh.back_listed ht hb
  exact ⟨hn, x, harc⟩

theorem attachedAs_of_alive {e : ElemId} (coh : m.graph.Coherent) (hn : n ∈ m.graph.listed e s)
    (ha : alive m n = true) : AttachedAs m e s n := by
  obtain ⟨x, hx⟩ := Option.isSome_iff_exists.mp ha
  exact ⟨x, coh.listed_target hn hx⟩

theorem ListStateInv.listsSafe (inv : ListStateInv st) : ListsSafe st where
  kept n := by
    constructor
    · rintro ⟨l, hl⟩
      cases hd : l.dead with
      | false =>
        obtain ⟨e, s, hn⟩ := inv.lists.stored_listed hl
        have harc := arc_eq_some.mpr ⟨l, hl, hd, rfl⟩
        exact .inl ⟨e, s, l.value, inv.lists.coherent.listed_target hn harc⟩
      | true => exact .inr (holder_of_node (inv.lists.node_held hl hd))
    · rintro (⟨e, s, at'⟩ | ⟨w, hw, a, hc⟩)
      · obtain ⟨-, x, harc⟩ := at'.arc inv.lists.coherent
        obtain ⟨l, hl, -⟩ := arc_eq_some.mp harc
        exact ⟨l, hl⟩
      · exact inv.lists.held_node (holdsOf_held hw hc).1
  reads op hop ok := by
    cases op with
    | setEnd s arc target =>
      obtain ⟨st', hst', -⟩ := inv.setEnd ok
      exact ⟨st', hst'⟩
    | create e s =>
      obtain ⟨st', hst', -⟩ := inv.create ok
      exact ⟨st', hst'⟩
    | next k =>
      obtain ⟨st', hst', -⟩ := inv.next ok
      exact ⟨st', hst'⟩
    | destroy k =>
      obtain ⟨st', hst', -⟩ := inv.destroy ok
      exact ⟨st', hst'⟩
    | createEl _ _ | ensureLinkTo _ _ | die _ | ref _ | unref _ => cases hop
  value w hw n a hc := ((inv.walkers w hw).stands n a hc).2
  order w hw := ⟨(inv.walkers w hw).walk.sublist, (inv.walkers w hw).walk.nodup⟩
  complete w hw n hn at' := by
    apply (inv.walkers w hw).walk.complete hn
    obtain ⟨-, x, harc⟩ := at'.arc inv.lists.coherent
    simp [alive, harc]
  created e s st' ok hr := by
    obtain ⟨st₁, hst₁, inv₁, w, hws, hw⟩ := inv.create ok
    obtain rfl := Option.some.inj (hst₁.symm.trans hr)
    refine ⟨w, hws, fun n a hc => ?_⟩
    have okw := inv₁.walkers w (hws ▸ List.mem_append_right _ List.mem_cons_self)
    exact attachedAs_of_alive inv₁.lists.coherent (okw.stands n a hc).1 (hw n a hc)
  moved k st' w ok hr hget n a hc := by
    obtain ⟨st₁, hst₁, inv₁, hw⟩ := inv.next ok
    obtain rfl := Option.some.inj (hst₁.symm.trans hr)
    have okw := inv₁.walkers w (List.mem_of_getElem? hget)
    exact attachedAs_of_alive inv₁.lists.coherent (okw.stands n a hc).1 (hw w hget n a hc)
  ends w hw hlen := by
    have okw := inv.walkers w hw
    cases hc : w.it.curr with
    | none => simp [TmpIterator.isOver, hc]
    | some c =>
      have count := okw.count (by simp [hc])
      have bound := okw.walk.sublist.length_le
      omega

/-- Iterators walk safely over lists, whatever happens to the lists in between. -/
theorem lists_safe_of_run (uri tmpPrefix : SegId → ScString) (st : ListState)
    (run : ReflTransGen ListStep (ListState.initial uri tmpPrefix) st) : ListsSafe st := by
  have inv : ListStateInv st := by
    induction run with
    | refl => exact ListStateInv.initial uri tmpPrefix
    | tail _ step ih =>
      obtain ⟨op, ok, hr⟩ := step
      exact ih.exec ok hr
  exact inv.listsSafe

/-! ### Runs on given operations -/

def accessible (m : Memory) (e : ElemId) : Bool := (m.addrOf e).any m.liveAddr

/-- What a caller can check by looking. Erasure is left out. -/
def ListOp.check (st : ListState) : ListOp → Bool
  | .createEl _ _ => true
  | .ensureLinkTo _ a => st.memory.liveAddr a
  | .die _ => false
  | .ref a => (st.memory.addrs a).isSome
  | .unref a => decide (0 < st.refs a)
  | .setEnd _ arc target => accessible st.memory arc && target.all (accessible st.memory)
  | .create e _ => accessible st.memory e
  | .next k | .destroy k => decide (k < st.walkers.length)

def runLists : List ListOp → ListState → Option ListState
  | [], st => some st
  | op :: ops, st => if op.check st then (op.exec st).bind (runLists ops) else none

theorem accessible_iff {e : ElemId} : accessible m e = true ↔ ListOp.Accessible m e :=
  Option.any_eq_true _ _

theorem ListOp.ok_of_check {op : ListOp} (hc : op.check st = true) : op.ok st := by
  cases op with
  | createEl seg type => trivial
  | ensureLinkTo seg a => exact hc
  | die a => cases hc
  | ref a => exact Option.isSome_iff_exists.mp hc
  | unref a => simpa [ListOp.check, ListOp.ok] using hc
  | setEnd s arc target =>
    obtain ⟨harc, htarget⟩ := Bool.and_eq_true_iff.mp hc
    refine ⟨accessible_iff.mp harc, fun t ht => ?_⟩
    subst ht
    exact accessible_iff.mp htarget
  | create e s => exact accessible_iff.mp hc
  | next k => simpa [ListOp.check, ListOp.ok] using hc
  | destroy k => simpa [ListOp.check, ListOp.ok] using hc

theorem reaches_runLists {st' : ListState} (ops : List ListOp) :
    ∀ {st : ListState}, runLists ops st = some st' → ReflTransGen ListStep st st' := by
  induction ops with
  | nil =>
    intro st hr
    exact Option.some.inj hr ▸ ReflTransGen.refl
  | cons op ops ih =>
    intro st hr
    simp only [runLists] at hr
    split at hr
    · next hc =>
      obtain ⟨st₁, hst₁, hr⟩ := Option.bind_eq_some_iff.mp hr
      exact ReflTransGen.head ⟨op, ListOp.ok_of_check hc, hst₁⟩ (ih hr)
    · cases hr

def lateOps : List ListOp :=
  [.createEl 0 .node, .createEl 0 .arc, .createEl 0 .arc, .setEnd .beg 1 (some 0),
    .create 0 .beg, .setEnd .beg 2 (some 0), .setEnd .beg 1 none, .next 0]

theorem late_run : ∃ st, runLists lateOps (ListState.initial (fun _ => []) fun _ => []) = some st ∧
    st.walkers.map (fun w => (w.visited, w.start, w.since)) = [([0, 1], [0], [1])] :=
  ⟨_, rfl, rfl⟩

theorem lists_safe_of_run_late : ∃ st, st.walkers.map (fun w => (w.visited, w.start, w.since)) =
    [([0, 1], [0], [1])] ∧ ListsSafe st := by
  obtain ⟨st, run, hw⟩ := late_run
  exact ⟨st, hw, lists_safe_of_run _ _ st (reaches_runLists lateOps run)⟩

/-- An arc that is attached later joins the list at its end, and the iterator returns it. -/
theorem lists_return_late_arcs : ¬∀ (uri tmpPrefix : SegId → ScString) (st : ListState),
    ReflTransGen ListStep (ListState.initial uri tmpPrefix) st →
      ∀ w ∈ st.walkers, ∀ n ∈ w.visited, n ∉ w.since := by
  intro claim
  obtain ⟨st, run, hw⟩ := late_run
  obtain ⟨w, hmem, hrec⟩ : ∃ w ∈ st.walkers, (w.visited, w.start, w.since) =
    ([0, 1], [0], [1]) := by
    apply List.mem_map.mp
    rw [hw]
    exact List.mem_cons_self
  obtain ⟨hvisited, -, hsince⟩ : w.visited = [0, 1] ∧ w.start = [0] ∧ w.since = [1] := by
    simpa using hrec
  apply claim _ _ st (reaches_runLists lateOps run) w hmem 1
  · simp [hvisited]
  · simp [hsince]

end Runs

end ScCore.Store
