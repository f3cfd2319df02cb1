import ScCore.Store.Invariant

/-!
# Clearing and setting the end of an arc

One specification for each of the two halves of `tmp_segment::set_beg` and
`tmp_segment::set_end`, and what they do to the invariant.
-/

namespace ScCore.Store

open Memory

/-- The end `s` of `arc` is cleared; the node that stood for it dies. -/
structure Clears (s : Endpoint) (arc : ElemId) (m m' : Memory) : Prop where
  relinks : Relinks m m'
  nextNode : m'.nextNode = m.nextNode
  target : ∀ x t, m'.graph.target x t = if x = arc ∧ t = s then none else m.graph.target x t
  back : ∀ x t, m'.graph.back x t = if x = arc ∧ t = s then none else m.graph.back x t
  listed : ∀ e t, m'.graph.listed e t = (m.graph.listed e t).filter fun n => (m'.nodes n).isSome
  node : ∀ {n l'}, m'.nodes n = some l' →
    ∃ l, m.nodes n = some l ∧ l'.value = l.value ∧ (l'.dead = false → l.dead = false)
  qnt : ∀ e t, m'.qnt e t =
    if m.graph.target arc s = some e ∧ t = s then m.qnt e t - 1 else m.qnt e t

namespace GraphInv

variable {h : Holds} {m : Memory} {s : Endpoint} {arc : ElemId}

theorem filter_stored (inv : GraphInv h m) (e : ElemId) (t : Endpoint) :
    ((m.graph.listed e t).filter fun n => (m.nodes n).isSome) = m.graph.listed e t := by
  refine List.filter_eq_self.mpr fun n hn => ?_
  obtain ⟨l, hl⟩ := inv.listed_node hn
  simp [hl]

theorem listed_ne (inv : GraphInv h m) {e e' : ElemId} {t : Endpoint} {n : NodeId}
    (hn : n ∈ m.graph.listed e s) (other : ¬(e' = e ∧ t = s)) : n ∉ m.graph.listed e' t :=
  fun hn' => other (inv.coherent.owner hn' hn)

section Idle

variable {a : Element}

theorem graph_idle (inv : GraphInv h m) (hend : m.graph.target arc s = none) :
    (m.mapElem arc fun a => (a.setEnd s none).setHint s none).graph = m.graph := by
  rw [graph_forget]
  refine AdjacencyLists.ext (fun _ _ => rfl) (fun _ => rfl) (fun x t => ?_) fun x t => ?_
  · show (if x = arc ∧ t = s then none else _) = _
    split
    · next h => rw [h.1, h.2, hend]
    · rfl
  · show (if x = arc ∧ t = s then none else _) = _
    split
    · next h => rw [h.1, h.2, inv.coherent.back_none hend]
    · rfl

/-- Clearing an end that is not attached changes nothing that the views show. -/
theorem clear_idle (inv : GraphInv h m) (ha : m.elems arc = some a) (hend : a.ends s = none) :
    ∃ m', TmpSegment.setEndpoint s m arc none = some m' ∧ GraphInv h m' ∧ Clears s arc m m' := by
  have htarget : m.graph.target arc s = none := target_stored ha ▸ hend
  have hg := inv.graph_idle htarget
  have hq := qnt_mapElem (m := m) (e := arc) (f := fun a => (a.setEnd s none).setHint s none)
    fun _ => rfl
  refine ⟨_, TmpSegment.setEndpoint_idle ha hend, inv.congr hg hq rfl rfl, ?_⟩
  exact {
    relinks := relinks_mapElem fun _ => rfl
    nextNode := rfl
    target := fun x t => by
      rw [hg]
      split
      · next h => rw [h.1, h.2, htarget]
      · rfl
    back := fun x t => by
      rw [hg]
      split
      · next h => rw [h.1, h.2, inv.coherent.back_none htarget]
      · rfl
    listed := fun e t => by rw [hg]; exact (inv.filter_stored e t).symm
    node := fun hn => ⟨_, hn, rfl, id⟩
    qnt := fun e t => by simp [hq, htarget] }

end Idle

section Attached

variable {old : ElemId} {n : NodeId} {l : ElementLink}

theorem clears_detached (inv : GraphInv h m) (ht : m.graph.target arc s = some old)
    (hn : n ∈ m.graph.listed old s) (hl : m.nodes n = some l) (hd : l.dead = false)
    {o : Element} (ho : m.elems old = some o) :
    Clears s arc m (TmpSegment.detached m s arc old n l) := by
  have hg := TmpSegment.graph_detached m s arc old n l
  have hnodes := TmpSegment.nodes_detached s arc old hl
  refine ⟨TmpSegment.relinks_detached, TmpSegment.nextNode_detached, ?_, ?_, ?_, ?_, ?_⟩
  · intro x t
    rw [hg]
    split <;> rfl
  · intro x t
    rw [hg]
    split <;> rfl
  · intro e t
    rw [hg]
    by_cases hr : l.refcnt = 1
    · have hsome : ∀ x ∈ m.graph.listed e t,
          ((TmpSegment.detached m s arc old n l).nodes x).isSome = (x != n) := by
        intro x hx
        obtain ⟨l', hl'⟩ := inv.listed_node hx
        by_cases hxn : x = n <;> simp [hnodes, hxn, hr, hl']
      rw [List.filter_congr hsome, if_pos hr]
      show (if e = old ∧ t = s then (m.graph.listed old s).erase n else m.graph.listed e t) = _
      split
      · next h =>
        rw [h.1, h.2]
        exact (inv.coherent.nodup old s).erase_eq_filter n
      · next other =>
        refine (List.filter_eq_self.mpr fun x hx => ?_).symm
        simp only [bne_iff_ne]
        rintro rfl
        exact inv.listed_ne hn other hx
    · rw [if_neg hr]
      refine (List.filter_eq_self.mpr fun x hx => ?_).symm
      obtain ⟨l', hl'⟩ := inv.listed_node hx
      by_cases hxn : x = n <;> simp [hnodes, hxn, hr, hl']
  · intro x l' hl'
    rw [hnodes] at hl'
    by_cases hxn : x = n
    · subst hxn
      refine ⟨l, hl, ?_, fun _ => hd⟩
      by_cases hr : l.refcnt = 1
      · simp [hr] at hl'
      · simp only [if_true, hr, if_false, Option.some.injEq] at hl'
        rw [← hl']
    · rw [if_neg hxn] at hl'
      exact ⟨l', hl', rfl, id⟩
  · intro e t
    rw [TmpSegment.qnt_detached ho, ht]
    simp only [Option.some.injEq, eq_comm]

theorem detached (inv : GraphInv h m) (ht : m.graph.target arc s = some old)
    (hb : m.graph.back arc s = some n) (hn : n ∈ m.graph.listed old s) (hl : m.nodes n = some l)
    (hd : l.dead = false) {o : Element} (ho : m.elems old = some o) :
    GraphInv h (TmpSegment.detached m s arc old n l) := by
  have hclears := inv.clears_detached ht hn hl hd ho
  have hg := TmpSegment.graph_detached m s arc old n l
  have hnodes := TmpSegment.nodes_detached s arc old hl
  have hrefs := inv.live_node hl hd
  have dead : (m.graph.detach s arc n).arc n = none := if_pos rfl
  have coherent := inv.coherent.detach ht hb
  have harcs : ∀ e t, (TmpSegment.detached m s arc old n l).graph.arcs e t =
      if e = old ∧ t = s then (m.graph.arcs old s).erase arc else m.graph.arcs e t := by
    intro e t
    rw [hg, ← inv.coherent.arcs_detach ht hb]
    split
    · exact AdjacencyLists.Coherent.arcs_unlink dead e t
    · rfl
  have hmem : arc ∈ m.graph.arcs old s := inv.coherent.mem_arcs_iff.mpr ht
  exact {
    coherent := by
      rw [hg]
      split
      · exact coherent.unlink dead
      · exact coherent
    qnt_eq := fun e t => by
      rw [TmpSegment.qnt_detached ho, harcs, inv.qnt_eq]
      split
      · next same =>
        have hpos := List.length_pos_of_mem hmem
        rw [same.1, same.2, List.length_erase_of_mem hmem]
        omega
      · rfl
    listed_node := fun {e t x} hx => by
      rw [hclears.listed] at hx
      simpa [Option.isSome_iff_exists] using (List.mem_filter.mp hx).2
    node_refs := fun {x l'} hl' => by
      rw [hnodes] at hl'
      by_cases hxn : x = n
      · subst hxn
        by_cases hr : l.refcnt = 1
        · simp [hr] at hl'
        · simp only [if_true, hr, if_false, Option.some.injEq] at hl'
          subst hl'
          simp [hrefs]
      · rw [if_neg hxn] at hl'
        exact inv.node_refs hl'
    node_held := fun {x l'} hl' hdead => by
      rw [hnodes] at hl'
      by_cases hxn : x = n
      · subst hxn
        by_cases hr : l.refcnt = 1
        · simp [hr] at hl'
        · omega
      · rw [if_neg hxn] at hl'
        exact inv.node_held hl' hdead
    held_node := fun {x} hx => by
      rw [hnodes]
      by_cases hxn : x = n
      · subst hxn
        have hr : l.refcnt ≠ 1 := by omega
        exact ⟨_, by rw [if_pos rfl, if_neg hr]⟩
      · rw [if_neg hxn]
        exact inv.held_node hx
    node_lt := fun {x l'} hl' => by
      obtain ⟨l, hl, -⟩ := hclears.node hl'
      rw [hclears.nextNode]
      exact inv.node_lt hl }

end Attached

theorem clear (inv : GraphInv h m) {a : Element} (ha : m.elems arc = some a) :
    ∃ m', TmpSegment.setEndpoint s m arc none = some m' ∧ GraphInv h m' ∧ Clears s arc m m' := by
  cases hend : a.ends s with
  | none => exact inv.clear_idle ha hend
  | some old =>
    have ht : m.graph.target arc s = some old := target_stored ha ▸ hend
    obtain ⟨n, l, o, hb, hn, hl, hd, -, ho⟩ := inv.attached ht
    exact ⟨_, TmpSegment.setEndpoint_detach ha hend (back_stored ha ▸ hb) ho hl,
      inv.detached ht hb hn hl hd ho, inv.clears_detached ht hn hl hd ho⟩

end GraphInv

/-- The free end `s` of `arc` is attached to `e`. -/
structure Attaches (s : Endpoint) (arc e : ElemId) (m m' : Memory) : Prop where
  relinks : Relinks m m'
  graph : m'.graph = m.graph.attach s arc e m.nextNode
  qnt : ∀ x t, m'.qnt x t = if x = e ∧ t = s then m.qnt x t + 1 else m.qnt x t

theorem GraphInv.attach {h : Holds} {m : Memory} {s : Endpoint} {arc e : ElemId}
    (inv : GraphInv h m) (fresh : h.node m.nextNode = 0) (ha : ∃ a, m.elems arc = some a)
    (he : ∃ o, m.elems e = some o) (free : m.graph.target arc s = none) :
    ∃ m', TmpSegment.attachEnd s m arc e = some m' ∧ GraphInv h m' ∧ Attaches s arc e m m' := by
  have hg := TmpSegment.graph_attached s ha he
  obtain ⟨o, ho⟩ := he
  have hq := TmpSegment.qnt_attached s arc ho
  have hnodes := TmpSegment.nodes_attached m s arc e
  have unlisted := inv.fresh
  refine ⟨_, TmpSegment.attachEnd_eq ha ⟨o, ho⟩, ?_, TmpSegment.relinks_attached, hg, hq⟩
  exact {
    coherent := hg ▸ inv.coherent.attach free unlisted
    qnt_eq := fun x t => by
      rw [hq, hg, AdjacencyLists.Coherent.arcs_attach unlisted, inv.qnt_eq]
      split
      · next same => simp [same.1, same.2]
      · rfl
    listed_node := fun {x t n} hn => by
      by_cases hnew : n = m.nextNode
      · exact ⟨_, (hnodes n).trans (if_pos hnew)⟩
      · have hn : n ∈ m.graph.listed x t := by
          rw [hg] at hn
          revert hn
          show n ∈ (if x = e ∧ t = s then m.graph.listed e s ++ [m.nextNode]
            else m.graph.listed x t) → _
          split
          · next same => simp [same.1, same.2, hnew]
          · exact id
        obtain ⟨l, hl⟩ := inv.listed_node hn
        exact ⟨l, by rw [hnodes, if_neg hnew, hl]⟩
    node_refs := fun {n l} hl => by
      rw [hnodes] at hl
      split at hl
      · next hnew =>
        obtain rfl := Option.some.inj hl
        simp [hnew, fresh]
      · exact inv.node_refs hl
    node_held := fun {n l} hl hd => by
      rw [hnodes] at hl
      split at hl
      · obtain rfl := Option.some.inj hl
        cases hd
      · exact inv.node_held hl hd
    held_node := fun {n} hn => by
      rw [hnodes]
      split
      · exact ⟨_, rfl⟩
      · exact inv.held_node hn
    node_lt := fun {n l} hl => by
      have hnext : (TmpSegment.attached m s arc e).nextNode = m.nextNode + 1 := rfl
      rw [hnodes] at hl
      rw [hnext]
      split at hl
      · next hnew => exact hnew ▸ Nat.lt_succ_self _
      · exact Nat.lt_succ_of_lt (inv.node_lt hl) }

end ScCore.Store
