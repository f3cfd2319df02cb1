import ScCore.Store.Run

/-!
# The incidence invariant and the counters

In every state of a run the arc lists, the ends of the arcs, the back pointers
and the counters agree, unless an attached arc has lost its connector type. The
counters of the addresses agree with them unless an attached end was re-pointed.
-/

namespace ScCore.Store

open Memory

/-- The list of `el`, stored as `e`, on the side `s` names exactly the arcs that
are attached there. -/
structure ListsArcs (m : Memory) (e : ElemId) (el : Element) (s : Endpoint) : Prop where
  nodup : (el.arcs s).Nodup
  bij : Set.BijOn (fun n => (m.nodes n).map (·.value)) {n | n ∈ el.arcs s ∧ m.liveNode n = true}
    (some '' {x | ∃ arc, m.elems x = some arc ∧ arc.ends s = some e})
  qnt : el.qnt s = ((el.arcs s).filter m.liveNode).length
  hint : ∀ x arc, m.elems x = some arc → arc.ends s = some e →
    ∃ n ∈ el.arcs s, arc.hint s = some n ∧ m.liveNode n = true ∧
      (m.nodes n).map (·.value) = some x

structure Incidence (m : Memory) : Prop where
  stored : ∀ x arc s e, m.elems x = some arc → arc.ends s = some e → ∃ el, m.elems e = some el
  lists : ∀ e el s, m.elems e = some el → ListsArcs m e el s

variable {m : Memory}

theorem arc_liveNode {n : NodeId} : (m.graph.arc n).isSome = m.liveNode n := by
  cases h : m.nodes n with
  | none => simp [graph, liveNode, h]
  | some l => cases hd : l.dead <;> simp [graph, liveNode, h, hd]

theorem arc_of_liveNode {n : NodeId} (hn : m.liveNode n = true) :
    m.graph.arc n = (m.nodes n).map (·.value) := by
  cases h : m.nodes n with
  | none => simp [graph, h]
  | some l => cases hd : l.dead <;> simp_all [graph, liveNode]

theorem GraphInv.listsArcs {h : Holds} (gi : GraphInv h m) {e : ElemId} {el : Element}
    (he : m.elems e = some el) (s : Endpoint) : ListsArcs m e el s := by
  have hlist : m.graph.listed e s = el.arcs s := listed_stored he
  have hlive : {n | n ∈ m.graph.live e s} = {n | n ∈ el.arcs s ∧ m.liveNode n = true} := by
    ext n
    simp [AdjacencyLists.live, hlist, arc_liveNode]
  have hends : {x | m.graph.target x s = some e} =
      {x | ∃ arc, m.elems x = some arc ∧ arc.ends s = some e} := by
    ext x
    simp [graph, Option.bind_eq_some_iff]
  refine ⟨hlist ▸ gi.coherent.nodup e s, ?_, ?_, ?_⟩
  · rw [← hlive, ← hends]
    refine (gi.coherent.bijOn e s).congr fun n hn => arc_of_liveNode ?_
    rw [hlive] at hn
    exact hn.2
  · rw [← qnt_stored he, gi.qnt_eq, AdjacencyLists.length_arcs, AdjacencyLists.live, hlist]
    simp only [arc_liveNode]
  · intro x arc hx hend
    obtain ⟨n, hn, hb, harc⟩ := gi.coherent.target_listed ((target_stored hx).trans hend)
    have hnode : m.liveNode n = true := by rw [← arc_liveNode, harc]; rfl
    exact ⟨n, hlist ▸ hn, (back_stored hx).symm.trans hb, hnode, by rw
      [← arc_of_liveNode hnode, harc]⟩

/-- The arc lists are exact in every state of a run in which attached arcs stay connectors. -/
theorem incidence_of_run (uri tmpPrefix : SegId → ScString) (st : State)
    (run : Reaches arcsKeepType (State.initial uri tmpPrefix) st) : Incidence st.memory := by
  have inv := StateInv.reaches run
  refine ⟨fun x arc s e hx hend => ?_, fun e el s he => inv.toGraphInv.listsArcs he s⟩
  obtain ⟨o, -, ho, -⟩ := Inv.target_addr inv ((target_stored hx).trans hend)
  exact ⟨o, ho⟩

def connectedOps : List Op :=
  [.createEl 0 .arc, .createEl 1 .node, .createEl 0 .node, .setBeg (some 0) (some 1),
    .setEnd (some 0) (some 2), .setEnd (some 0) (some 1), .eraseEl (some 2)]

theorem incidence_of_run_connected :
    ∃ st, runOps 3 connectedOps (State.initial (fun _ => []) fun _ => []) = some st ∧
      ((st.memory.elems 0).bind fun el => el.ends .fin) = some 3 ∧ Incidence st.memory := by
  have hrun : ∃ st, runOps 3 connectedOps (State.initial (fun _ => []) fun _ => []) = some st ∧
      ((st.memory.elems 0).bind fun el => el.ends .fin) = some 3 := by
    refine ⟨_, rfl, ?_⟩
    decide
  obtain ⟨st, hst, hend⟩ := hrun
  refine ⟨st, hst, hend, incidence_of_run _ _ st (reaches_keeping (by decide) hst)⟩

/-- An arc with two connector bits is attached and then made a node, which
`verify_type_changing` lets through. Erasing it leaves its node behind. -/
def degradedOps : List Op :=
  [.createEl 0 (.edge ||| .arc), .createEl 0 .node, .setBeg (some 0) (some 1),
    .changeType 0 .node, .eraseEl (some 0)]

theorem incidence_fails : ¬∀ (uri tmpPrefix : SegId → ScString) (st : State),
    Reaches (fun _ _ _ _ => True) (State.initial uri tmpPrefix) st → Incidence st.memory := by
  intro claim
  have hrun : ∃ st, runOps 3 degradedOps (State.initial (fun _ => []) fun _ => []) = some st ∧
      (st.memory.elems 0).isNone = true ∧
      (∃ el, st.memory.elems 1 = some el ∧ el.arcs .beg = [0]) ∧
      st.memory.liveNode 0 = true ∧ (st.memory.nodes 0).map (·.value) = some 0 := by
    refine ⟨_, rfl, ?_, ⟨_, rfl, ?_⟩, ?_, ?_⟩ <;> decide
  obtain ⟨st, hst, hgone, ⟨el, hel, harcs⟩, hlive, hvalue⟩ := hrun
  have inc := claim _ _ st (reaches_runOps degradedOps (fun _ _ _ => trivial) (.refl _) hst)
  have hn : 0 ∈ {n | n ∈ el.arcs .beg ∧ st.memory.liveNode n = true} := ⟨by simp [harcs], hlive⟩
  obtain ⟨x, ⟨arc, harc, -⟩, hx⟩ := (inc.lists 1 el .beg hel).bij.mapsTo hn
  obtain rfl : x = 0 := Option.some.inj (hx.trans hvalue)
  simp [harc] at hgone

def CountersAgree (m : Memory) : Prop :=
  ∀ a g s, m.addrs a = some g → g.dead = false → Session.getQnt s m a = some (g.qnt s)

theorem sumQnt_eq {s : Endpoint} (l : List LinkAddr)
    (hl : ∀ st ∈ l, ∃ el, m.elems st.impl = some el) :
    Session.sumQnt s m l = some (l.map fun st => m.qnt st.impl s).sum := by
  induction l with
  | nil => rfl
  | cons st l ih =>
    obtain ⟨el, hel⟩ := hl st List.mem_cons_self
    have ih := ih fun st' hst' => hl st' (List.mem_cons_of_mem _ hst')
    simp [Session.sumQnt, hel, ih, qnt_stored hel]

theorem Counted.agree {h : Holds} (c : Counted m) (inv : Inv h m) : CountersAgree m := by
  intro a g s hg _
  have hsum := sumQnt_eq (s := s) g.stores fun st hst => by
    obtain ⟨el, hel, -⟩ := inv.stored hg hst
    exact ⟨el, hel⟩
  simp [Session.getQnt, hg, hsum, c a g s hg]

def countersKept : Guard := fun ss w op m => isTypeChange op = false ∧ neverRepoints ss w op m

theorem arcsKeepType_of_countersKept {ss : Session} {w : Waits} {op : Op}
    (ok : countersKept ss w op m) : arcsKeepType ss w op m := by
  cases op with
  | changeType a type => cases ok.1
  | _ => trivial

/-- The counters agree in every state of a run that re-points no attached end. -/
theorem counters_of_run (uri tmpPrefix : SegId → ScString) (st : State)
    (run : Reaches countersKept (State.initial uri tmpPrefix) st) : CountersAgree st.memory := by
  have both : StateInv st ∧ Counted st.memory :=
    run.invariant (P := fun st => StateInv st ∧ Counted st.memory)
      (StateInv.initial uri tmpPrefix) fun ss w fuel op st₁ st₂ ⟨inv, c⟩ ok hexec => by
        obtain ⟨inv', tallied, -⟩ := inv.exec (arcsKeepType_of_countersKept ok) hexec
        exact ⟨inv', (tallied ok.2).counted c⟩
  exact both.2.agree both.1

def clearedOps : List Op :=
  [.createEl 1 .node, .createEl 0 .node, .gen3 (some 0) 0 .arc (some 1), .eraseEl (some 2),
    .eraseLonelyLinkTo 0 0]

theorem counters_of_run_cleared :
    ∃ st, runOps 3 clearedOps (State.initial (fun _ => []) fun _ => []) = some st ∧
      (st.memory.addrs 0).map (·.linksQnt) = some 0 ∧ CountersAgree st.memory := by
  have hrun : ∃ st, runOps 3 clearedOps (State.initial (fun _ => []) fun _ => []) = some st ∧
      (st.memory.addrs 0).map (·.linksQnt) = some 0 := by
    refine ⟨_, rfl, ?_⟩
    decide
  obtain ⟨st, hst, hq⟩ := hrun
  refine ⟨st, hst, hq, counters_of_run _ _ st (reaches_runOps clearedOps ?_ (.refl _) hst)⟩
  intro op hop m
  simp only [clearedOps, List.mem_cons, List.not_mem_nil, or_false] at hop
  rcases hop with rfl | rfl | rfl | rfl | rfl <;> exact ⟨rfl, trivial⟩

def repointOps : List Op :=
  [.createEl 0 .arc, .createEl 0 .node, .createEl 0 .node, .setEnd (some 0) (some 1),
    .setEnd (some 0) (some 2)]

/-- The node that lost the arc still counts it. -/
theorem counters_fail : ¬∀ (uri tmpPrefix : SegId → ScString) (st : State),
    Reaches (fun _ _ op _ => isTypeChange op = false) (State.initial uri tmpPrefix) st →
      CountersAgree st.memory := by
  intro claim
  have hrun : ∃ st, runOps 3 repointOps (State.initial (fun _ => []) fun _ => []) = some st ∧
      (∃ g, st.memory.addrs 1 = some g ∧ g.dead = false ∧ g.qnt .fin = 1) ∧
      Session.getInQnt st.memory 1 = some 0 := by
    refine ⟨_, rfl, ⟨_, rfl, ?_, ?_⟩, ?_⟩ <;> decide
  obtain ⟨st, hst, ⟨g, hg, hd, hq⟩, hin⟩ := hrun
  have agree := claim _ _ st (reaches_runOps repointOps
    (fun op hop _ => (by decide : ∀ op ∈ repointOps, isTypeChange op = false) op hop) (.refl _) hst)
    1 g .fin hg hd
  rw [hq] at agree
  simp [Session.getInQnt, agree] at hin

end ScCore.Store
