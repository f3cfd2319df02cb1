import ScCore.Store.Relink

/-!
# What is left after arcs have gone

Erasure only takes away: ends are cleared, nodes and elements disappear and
addresses die. `Shrinks` compares two memories on these grounds, `Keeps` says
that nothing has happened to the elements of one address.
-/

namespace ScCore.Store

open Memory

/-- `m'` is left of `m`. -/
structure Shrinks (m m' : Memory) : Prop where
  listed : ∀ e s, m'.graph.listed e s = (m.graph.listed e s).filter fun n => (m'.nodes n).isSome
  node : ∀ {n l'}, m'.nodes n = some l' →
    ∃ l, m.nodes n = some l ∧ l'.value = l.value ∧ (l'.dead = false → l.dead = false)
  target : ∀ {x s e}, m'.graph.target x s = some e → m.graph.target x s = some e
  label : ∀ {e l'}, m'.label e = some l' →
    ∃ l, m.label e = some l ∧ l'.addr = l.addr ∧ l'.type = l.type
  addr : ∀ {a g'}, m'.addrs a = some g' → ∃ g, m.addrs a = some g ∧
    g'.seg = g.seg ∧ g'.impl = g.impl ∧ g'.links = g.links ∧ (g'.dead = false → g.dead = false)
  uri : ∀ j, (m'.segs j).uri = (m.segs j).uri

/-- The elements of the address `b` and their ends are as they were. -/
def Keeps (m m' : Memory) (b : Addr) : Prop :=
  ∀ e, m.addrOf e = some b → m'.label e = m.label e ∧
    ∀ s, m'.graph.target e s = m.graph.target e s ∧ m'.graph.back e s = m.graph.back e s

theorem Keeps.trans {m m' m'' : Memory} {b : Addr} (h : Keeps m m' b) (h' : Keeps m' m'' b) :
    Keeps m m'' b := by
  intro e he
  obtain ⟨hl, ht⟩ := h e he
  obtain ⟨hl', ht'⟩ := h' e (by rw [addrOf_congr hl, he])
  refine ⟨hl'.trans hl, fun s => ⟨?_, ?_⟩⟩
  · rw [(ht' s).1, (ht s).1]
  · rw [(ht' s).2, (ht s).2]

theorem Keeps.refl (m : Memory) (b : Addr) : Keeps m m b :=
  fun _ _ => ⟨rfl, fun _ => ⟨rfl, rfl⟩⟩

namespace Shrinks

variable {h : Holds} {m m' m'' : Memory}

theorem refl (inv : GraphInv h m) : Shrinks m m where
  listed e s := (inv.filter_stored e s).symm
  node hn := ⟨_, hn, rfl, id⟩
  target := id
  label hl := ⟨_, hl, rfl, rfl⟩
  addr ha := ⟨_, ha, rfl, rfl, rfl, id⟩
  uri _ := rfl

theorem trans (sh : Shrinks m m') (sh' : Shrinks m' m'') : Shrinks m m'' where
  listed e s := by
    rw [sh'.listed, sh.listed, List.filter_filter]
    refine List.filter_congr fun n _ => ?_
    cases hn : m''.nodes n with
    | none => rfl
    | some l =>
      obtain ⟨l', hl', -⟩ := sh'.node hn
      simp [hl']
  node hn := by
    obtain ⟨l', hl', hv', hd'⟩ := sh'.node hn
    obtain ⟨l, hl, hv, hd⟩ := sh.node hl'
    exact ⟨l, hl, hv'.trans hv, hd ∘ hd'⟩
  target ht := sh.target (sh'.target ht)
  label hl := by
    obtain ⟨l', hl', ha', ht'⟩ := sh'.label hl
    obtain ⟨l, hl, ha, ht⟩ := sh.label hl'
    exact ⟨l, hl, ha'.trans ha, ht'.trans ht⟩
  addr ha := by
    obtain ⟨g', hg', hs', hi', hl', hd'⟩ := sh'.addr ha
    obtain ⟨g, hg, hs, hi, hl, hd⟩ := sh.addr hg'
    exact ⟨g, hg, hs'.trans hs, hi'.trans hi, hl'.trans hl, hd ∘ hd'⟩
  uri j := (sh'.uri j).trans (sh.uri j)

theorem addrOf (sh : Shrinks m m') {e : ElemId} {a : Addr} (he : m'.addrOf e = some a) :
    m.addrOf e = some a := by
  obtain ⟨l', hl', ha⟩ := Option.bind_eq_some_iff.mp he
  obtain ⟨l, hl, hla, -⟩ := sh.label hl'
  rw [Memory.addrOf, hl, Option.bind_some, ← hla, ha]

variable {s : Endpoint}

theorem target_none (sh : Shrinks m m') {x : ElemId} (ht : m.graph.target x s = none) :
    m'.graph.target x s = none := by
  cases ht' : m'.graph.target x s with
  | none => rfl
  | some e => exact (sh.target ht').symm.trans ht

theorem mem_listed (sh : Shrinks m m') {e : ElemId} {n : NodeId} (hn : n ∈ m'.graph.listed e s) :
    n ∈ m.graph.listed e s := by
  rw [sh.listed] at hn
  exact List.mem_of_mem_filter hn

theorem liveAddr (sh : Shrinks m m') {a : Addr} (ha : m'.liveAddr a = true) :
    m.liveAddr a = true := by
  cases hg' : m'.addrs a with
  | none => simp [Memory.liveAddr, hg'] at ha
  | some g' =>
    obtain ⟨g, hg, -, -, -, hd⟩ := sh.addr hg'
    simp only [Memory.liveAddr, hg', hg, Bool.not_eq_true'] at ha ⊢
    exact hd ha

end Shrinks

theorem Inv.shrink_holds {h h' : Holds} {m m' : Memory} (inv : Inv h m) (gi : GraphInv h' m')
    (ai : AddrInv h' m') (sh : Shrinks m m')
    (alive : ∀ {e a}, m'.addrOf e = some a → m'.liveAddr a = false → m.liveAddr a = false)
    (held : ∀ {n e s a x t}, h.node n = 0 → 0 < h'.node n → n ∈ m.graph.listed e s →
      m.addrOf e = some a → m.addrOf x = some a → m.graph.target x t = none) :
    Inv h' m' where
  toGraphInv := gi
  toAddrInv := ai
  own := by
    intro a g' st s ha hst
    obtain ⟨g, hg, -, -, hl, -⟩ := sh.addr ha
    exact sh.target_none (inv.own hg (hl ▸ hst))
  typed := by
    intro x s e l' ht hl'
    obtain ⟨l, hl, -, htype⟩ := sh.label hl'
    rw [htype]
    exact inv.typed (sh.target ht) hl
  dead_free := by
    intro e a s he hd
    obtain ⟨hlist, htarget⟩ := inv.dead_free s (sh.addrOf he) (alive he hd)
    exact ⟨by rw [sh.listed, hlist]; rfl, sh.target_none htarget⟩
  held_detached := by
    intro n e s a x t hh hn he hx
    refine sh.target_none ?_
    rcases Nat.eq_zero_or_pos (h.node n) with h0 | hpos
    · exact held h0 hh (sh.mem_listed hn) (sh.addrOf he) (sh.addrOf hx)
    · exact inv.held_detached hpos (sh.mem_listed hn) (sh.addrOf he) (sh.addrOf hx)

theorem Inv.shrink {h : Holds} {m m' : Memory} (inv : Inv h m) (gi : GraphInv h m')
    (ai : AddrInv h m') (sh : Shrinks m m')
    (alive : ∀ {e a}, m'.addrOf e = some a → m'.liveAddr a = false → m.liveAddr a = false) :
    Inv h m' :=
  inv.shrink_holds gi ai sh alive fun h0 hpos => absurd hpos (by omega)

variable {s : Endpoint} {arc : ElemId}

theorem Clears.shrinks {m m' : Memory} (c : Clears s arc m m') :
    Shrinks m m' where
  listed := c.listed
  node := c.node
  target ht := by
    rw [c.target] at ht
    split at ht
    · cases ht
    · exact ht
  label hl := ⟨_, (c.relinks.label _).symm.trans hl, rfl, rfl⟩
  addr ha := ⟨_, c.relinks.addrs ▸ ha, rfl, rfl, rfl, id⟩
  uri j := by rw [c.relinks.segs]

theorem Clears.keeps {m m' : Memory} (c : Clears s arc m m') {b : Addr}
    (hb : m.addrOf arc ≠ some b) : Keeps m m' b := by
  intro e he
  have hne : e ≠ arc := by
    rintro rfl
    exact hb he
  exact ⟨c.relinks.label e, fun t => ⟨by simp [c.target, hne], by simp [c.back, hne]⟩⟩

theorem Relinks.liveAddr {m m' : Memory} (r : Relinks m m') (b : Addr) :
    m'.liveAddr b = m.liveAddr b := by
  rw [Memory.liveAddr, Memory.liveAddr, r.addrs]

end ScCore.Store
