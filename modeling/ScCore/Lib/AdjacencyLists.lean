import Mathlib.Data.List.Nodup
import Mathlib.Data.Set.Function

/-!
# Adjacency lists with back pointers

Every vertex carries, for each side, a list of nodes that stand for the arcs
attached to it there; an arc records for each side the vertex it is attached to
and the node that stands for it. A node whose arc has gone stays in its list as
a dead node until it is unlinked. The same incidence is thus stored four times,
and coherence says that the copies agree.
-/

universe u v w

/-- Vertices (arcs among them) are `V`, the sides of an arc `S`, the list nodes `N`. -/
structure AdjacencyLists (V : Type u) (S : Type v) (N : Type w) where
  /-- The nodes listed at a vertex. -/
  listed : V → S → List N
  /-- The arc a node stands for; a dead node stands for none. -/
  arc : N → Option V
  /-- The vertex an arc is attached to. -/
  target : V → S → Option V
  /-- The node that stands for an arc. -/
  back : V → S → Option N

namespace AdjacencyLists

variable {V : Type u} {S : Type v} {N : Type w}

@[ext]
theorem ext {g g' : AdjacencyLists V S N} (listed : ∀ e s, g.listed e s = g'.listed e s)
    (arc : ∀ n, g.arc n = g'.arc n) (target : ∀ x s, g.target x s = g'.target x s)
    (back : ∀ x s, g.back x s = g'.back x s) : g = g' := by
  cases g
  cases g'
  congr
  · exact funext fun e => funext (listed e)
  · exact funext arc
  · exact funext fun x => funext (target x)
  · exact funext fun x => funext (back x)

/-- The four copies of the incidence agree. -/
structure Coherent (g : AdjacencyLists V S N) : Prop where
  listed_target : ∀ {e s n x}, n ∈ g.listed e s → g.arc n = some x →
    g.target x s = some e ∧ g.back x s = some n
  target_listed : ∀ {x s e}, g.target x s = some e →
    ∃ n ∈ g.listed e s, g.back x s = some n ∧ g.arc n = some x
  back_none : ∀ {x s}, g.target x s = none → g.back x s = none
  nodup : ∀ e s, (g.listed e s).Nodup
  owner : ∀ {e s e' s' n}, n ∈ g.listed e s → n ∈ g.listed e' s' → e = e' ∧ s = s'

/-- The nodes listed at a vertex that still stand for an arc. -/
def live (g : AdjacencyLists V S N) (e : V) (s : S) : List N :=
  (g.listed e s).filter fun n => (g.arc n).isSome

@[simp]
theorem mem_live {g : AdjacencyLists V S N} {e : V} {s : S} {n : N} :
    n ∈ g.live e s ↔ n ∈ g.listed e s ∧ ∃ x, g.arc n = some x := by
  simp [live, Option.isSome_iff_exists]

/-- The arcs attached to a vertex, in the order of its list. -/
def arcs (g : AdjacencyLists V S N) (e : V) (s : S) : List V :=
  (g.listed e s).filterMap g.arc

theorem length_arcs (g : AdjacencyLists V S N) (e : V) (s : S) :
    (g.arcs e s).length = (g.live e s).length := by
  rw [arcs, List.length_filterMap_eq_countP, live, List.countP_eq_length_filter]

theorem mem_arcs {g : AdjacencyLists V S N} {e : V} {s : S} {x : V} :
    x ∈ g.arcs e s ↔ ∃ n ∈ g.listed e s, g.arc n = some x :=
  List.mem_filterMap

namespace Coherent

variable {g : AdjacencyLists V S N}

theorem mem_arcs_iff (wf : g.Coherent) {e : V} {s : S} {x : V} :
    x ∈ g.arcs e s ↔ g.target x s = some e := by
  rw [mem_arcs]
  constructor
  · rintro ⟨n, hn, hx⟩
    exact (wf.listed_target hn hx).1
  · intro h
    obtain ⟨n, hn, -, hx⟩ := wf.target_listed h
    exact ⟨n, hn, hx⟩

theorem arc_inj (wf : g.Coherent) {e : V} {s : S} {n n' : N} {x : V} (hn : n ∈ g.listed e s)
    (hn' : n' ∈ g.listed e s) (hx : g.arc n = some x) (hx' : g.arc n' = some x) : n = n' := by
  have h := (wf.listed_target hn hx).2
  rw [(wf.listed_target hn' hx').2] at h
  exact (Option.some.inj h).symm

theorem bijOn (wf : g.Coherent) (e : V) (s : S) :
    Set.BijOn g.arc {n | n ∈ g.live e s} (some '' {x | g.target x s = some e}) := by
  refine ⟨?_, ?_, ?_⟩
  · rintro n hn
    obtain ⟨hn, x, hx⟩ := mem_live.mp hn
    exact ⟨x, (wf.listed_target hn hx).1, hx.symm⟩
  · intro n hn n' hn' h
    obtain ⟨hn, x, hx⟩ := mem_live.mp hn
    obtain ⟨hn', -⟩ := mem_live.mp hn'
    exact wf.arc_inj hn hn' hx (h ▸ hx)
  · rintro _ ⟨x, hx, rfl⟩
    obtain ⟨n, hn, -, ha⟩ := wf.target_listed hx
    exact ⟨n, mem_live.mpr ⟨hn, x, ha⟩, ha⟩

end Coherent

section Updates

variable [DecidableEq V] [DecidableEq S] [DecidableEq N]

/-- Attach the arc `x` to `e` with the new node `n` at the end of the list. -/
def attach (g : AdjacencyLists V S N) (s : S) (x e : V) (n : N) : AdjacencyLists V S N where
  listed e' s' := if e' = e ∧ s' = s then g.listed e s ++ [n] else g.listed e' s'
  arc n' := if n' = n then some x else g.arc n'
  target x' s' := if x' = x ∧ s' = s then some e else g.target x' s'
  back x' s' := if x' = x ∧ s' = s then some n else g.back x' s'

/-- Detach the arc `x`, whose node `n` dies and stays listed. -/
def detach (g : AdjacencyLists V S N) (s : S) (x : V) (n : N) : AdjacencyLists V S N where
  listed := g.listed
  arc n' := if n' = n then none else g.arc n'
  target x' s' := if x' = x ∧ s' = s then none else g.target x' s'
  back x' s' := if x' = x ∧ s' = s then none else g.back x' s'

/-- Remove a node from its list. -/
def unlink (g : AdjacencyLists V S N) (e : V) (s : S) (n : N) : AdjacencyLists V S N where
  listed e' s' := if e' = e ∧ s' = s then (g.listed e s).erase n else g.listed e' s'
  arc := g.arc
  target := g.target
  back := g.back

namespace Coherent

variable {g : AdjacencyLists V S N} {s : S} {x e : V} {n : N}

theorem attach (wf : g.Coherent) (free : g.target x s = none)
    (fresh : ∀ e' s', n ∉ g.listed e' s') : (g.attach s x e n).Coherent where
  listed_target := by
    intro e' s' n' x' hn hx
    have := @wf.listed_target
    grind [AdjacencyLists.attach]
  target_listed := by
    intro x' s' e' h
    by_cases same : x' = x ∧ s' = s
    · obtain ⟨rfl, rfl⟩ := same
      have he : e' = e := by simpa [AdjacencyLists.attach] using h.symm
      exact ⟨n, by simp [AdjacencyLists.attach, he]⟩
    · obtain ⟨n', hn, hb, hx⟩ := wf.target_listed (e := e') (x := x') (s := s')
        (by simpa [AdjacencyLists.attach, same] using h)
      exact ⟨n', by grind [AdjacencyLists.attach]⟩
  back_none := by
    intro x' s' h
    have := @wf.back_none x' s'
    grind [AdjacencyLists.attach]
  nodup := by
    intro e' s'
    have := wf.nodup e' s'
    have := fresh e' s'
    grind [AdjacencyLists.attach, List.nodup_append]
  owner := by
    intro e' s' e'' s'' n' h h'
    have := @wf.owner e' s' e'' s'' n'
    grind [AdjacencyLists.attach]

omit [DecidableEq V] [DecidableEq S] [DecidableEq N] in
theorem back_listed (wf : g.Coherent) (h : g.target x s = some e) (hn : g.back x s = some n) :
    n ∈ g.listed e s ∧ g.arc n = some x := by
  obtain ⟨n', hn', hb, hx⟩ := wf.target_listed h
  obtain rfl : n' = n := by simpa [hb] using hn
  exact ⟨hn', hx⟩

theorem detach (wf : g.Coherent) (h : g.target x s = some e) (hn : g.back x s = some n) :
    (g.detach s x n).Coherent where
  listed_target := by
    intro e' s' n' x' hn hx
    have := @wf.listed_target e' s' n' x'
    grind [AdjacencyLists.detach]
  target_listed := by
    intro x' s' e' h'
    obtain ⟨hne, h'⟩ : ¬(x' = x ∧ s' = s) ∧ g.target x' s' = some e' := by
      simpa [AdjacencyLists.detach, ite_eq_iff] using h'
    obtain ⟨n', hn', hb, hx'⟩ := wf.target_listed h'
    obtain ⟨hn, hx⟩ := wf.back_listed h hn
    -- One node standing for both arcs would be listed on one side and make them equal.
    have other : n' ≠ n := by
      rintro rfl
      have := wf.owner hn hn'
      simp_all
    refine ⟨n', hn', ?_, ?_⟩
    · simp [AdjacencyLists.detach, hne, hb]
    · simp [AdjacencyLists.detach, other, hx']
  back_none := by
    intro x' s' h
    have := @wf.back_none x' s'
    grind [AdjacencyLists.detach]
  nodup := wf.nodup
  owner := wf.owner

theorem unlink (wf : g.Coherent) (dead : g.arc n = none) : (g.unlink e s n).Coherent where
  listed_target := by
    intro e' s' n' x' hn hx
    have := @wf.listed_target e' s' n' x'
    grind [AdjacencyLists.unlink, List.mem_of_mem_erase]
  target_listed := by
    intro x' s' e' h
    obtain ⟨n', hn, hb, hx⟩ := wf.target_listed h
    have : n' ≠ n := by
      rintro rfl
      simp_all
    refine ⟨n', ?_, hb, hx⟩
    grind [AdjacencyLists.unlink]
  back_none := wf.back_none
  nodup := by
    intro e' s'
    have := wf.nodup e' s'
    grind [AdjacencyLists.unlink, List.Nodup.erase]
  owner := by
    intro e' s' e'' s'' n' h h'
    have := @wf.owner e' s' e'' s'' n'
    grind [AdjacencyLists.unlink, List.mem_of_mem_erase]

theorem arcs_attach (fresh : ∀ e' s', n ∉ g.listed e' s') (e' : V) (s' : S) :
    (g.attach s x e n).arcs e' s' = if e' = e ∧ s' = s then g.arcs e s ++ [x] else g.arcs e'
    s' := by
  have old : ∀ e' s', (g.listed e' s').filterMap (g.attach s x e n).arc = g.arcs e' s' := by
    intro e' s'
    refine List.filterMap_congr fun n' hn => ?_
    have : n' ≠ n := fun h => fresh e' s' (h ▸ hn)
    simp [AdjacencyLists.attach, this]
  by_cases same : e' = e ∧ s' = s
  · rw [arcs, if_pos same]
    have : (g.attach s x e n).listed e' s' = g.listed e s ++ [n] := if_pos same
    rw [this, List.filterMap_append, old]
    simp [AdjacencyLists.attach]
  · rw [arcs, if_neg same, ← old]
    simp [AdjacencyLists.attach, same]

theorem arcs_unlink (dead : g.arc n = none) (e' : V) (s' : S) :
    (g.unlink e s n).arcs e' s' = g.arcs e' s' := by
  have erase : ∀ l : List N, (l.erase n).filterMap g.arc = l.filterMap g.arc := by
    intro l
    induction l with
    | nil => rfl
    | cons a l ih =>
      by_cases h : a = n
      · simp [h, dead]
      · rw [List.erase_cons_tail (by simpa using h)]
        simp [List.filterMap_cons, ih]
  by_cases same : e' = e ∧ s' = s
  · obtain ⟨rfl, rfl⟩ := same
    simp [arcs, AdjacencyLists.unlink, erase]
  · simp [arcs, AdjacencyLists.unlink, same]

omit [DecidableEq S] in
theorem filterMap_kill {f : N → Option V} {l : List N} (nodup : l.Nodup) (hn : n ∈ l)
    (hx : f n = some x) (inj : ∀ n' ∈ l, f n' = some x → n' = n) :
    l.filterMap (fun n' => if n' = n then none else f n') = (l.filterMap f).erase x := by
  induction l with
  | nil => simp at hn
  | cons a l ih =>
    obtain ⟨notin, nodup⟩ := List.nodup_cons.mp nodup
    by_cases ha : a = n
    · subst ha
      have rest : l.filterMap (fun n' => if n' = a then none else f n') = l.filterMap f :=
        List.filterMap_congr fun n' hn' => if_neg fun (h : n' = a) => notin (h ▸ hn')
      simp [hx, rest]
    · have hn : n ∈ l := (List.mem_cons.mp hn).resolve_left (Ne.symm ha)
      have ih := ih nodup hn fun n' hn' => inj n' (List.mem_cons_of_mem _ hn')
      cases hy : f a with
      | none => simp [ha, hy, ih]
      | some y =>
        have hne : y ≠ x := by
          rintro rfl
          exact ha (inj a List.mem_cons_self hy)
        simp [ha, hy, ih, List.erase_cons_tail, hne]

theorem arcs_detach (wf : g.Coherent) (h : g.target x s = some e)
    (hn : g.back x s = some n) (e' : V) (s' : S) :
    (g.detach s x n).arcs e' s' =
      if e' = e ∧ s' = s then (g.arcs e s).erase x else g.arcs e' s' := by
  obtain ⟨hn, hx⟩ := wf.back_listed h hn
  by_cases same : e' = e ∧ s' = s
  · obtain ⟨rfl, rfl⟩ := same
    rw [if_pos ⟨rfl, rfl⟩]
    exact filterMap_kill (wf.nodup e' s') hn hx fun n' hn' hx' => wf.arc_inj hn' hn hx' hx
  · rw [if_neg same]
    refine List.filterMap_congr fun n' hn' => ?_
    have : n' ≠ n := by
      rintro rfl
      exact same (wf.owner hn' hn)
    simp [AdjacencyLists.detach, this]

end Coherent

end Updates

end AdjacencyLists
