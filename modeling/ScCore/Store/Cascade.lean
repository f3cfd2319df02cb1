import ScCore.Lib.Fuel
import ScCore.Store.Erase
import ScCore.Store.References

/-!
# What an erasure does

`__erase_el` makes an arc forget its ends, erases the arcs that begin or end at
the element while its iterators stand on the lists, and lets the address die.
Its specification names the addresses that die on the way.
-/

namespace ScCore.Store

open Memory TmpSegment Relation

/-- The arc `x` begins or ends at an element of the address `a`. -/
def Incident (m : Memory) (a x : Addr) : Prop :=
  ∃ e arc s, m.addrOf e = some a ∧ m.addrOf arc = some x ∧ m.graph.target arc s = some e

def Detached (m : Memory) (a : Addr) : Prop :=
  ∀ e s, m.addrOf e = some a → m.graph.target e s = none

/-- Nobody holds a node of the lists of `a`. -/
def Unheld (h : Holds) (m : Memory) (a : Addr) : Prop :=
  ∀ e s n, m.addrOf e = some a → n ∈ m.graph.listed e s → h.node n = 0

/-- Arcs go, and the addresses that die are among `K`. -/
structure Cascade (K : Addr → Prop) (m m' : Memory) : Prop where
  tallied : Tallied m m'
  shrinks : Shrinks m m'
  keeps : ∀ b, m'.liveAddr b = true → Keeps m m' b
  killed : ∀ b, m.liveAddr b = true → m'.liveAddr b = false → K b

variable {h : Holds} {m m' m'' : Memory} {a v : Addr}

namespace Shrinks

theorem incident (sh : Shrinks m m') {a x : Addr} (i : Incident m' a x) : Incident m a x := by
  obtain ⟨e, arc, s, he, harc, ht⟩ := i
  exact ⟨e, arc, s, sh.addrOf he, sh.addrOf harc, sh.target ht⟩

theorem detached (sh : Shrinks m m') (d : Detached m a) : Detached m' a :=
  fun e s he => sh.target_none (d e s (sh.addrOf he))

theorem unheld (sh : Shrinks m m') (u : Unheld h m a) : Unheld h m' a :=
  fun e s n he hn => u e s n (sh.addrOf he) (sh.mem_listed hn)

end Shrinks

/-- The recursion does not come back to an address that has forgotten its ends. -/
theorem Detached.eq_of_reaches (d : Detached m a) (r : ReflTransGen (Incident m) v a) : v = a := by
  rcases ReflTransGen.cases_tail r with rfl | ⟨c, -, e, arc, s, -, harc, ht⟩
  · rfl
  · rw [d arc s harc] at ht
    cases ht

namespace Cascade

variable {K : Addr → Prop}

theorem trans (c : Cascade K m m') (c' : Cascade K m' m'') : Cascade K m m'' where
  tallied := c.tallied.trans c'.tallied
  shrinks := c.shrinks.trans c'.shrinks
  keeps b hb := (c.keeps b (c'.shrinks.liveAddr hb)).trans (c'.keeps b hb)
  killed b hb hb' := by
    cases hmid : m'.liveAddr b with
    | true => exact c'.killed b hmid hb'
    | false => exact c.killed b hb hmid

theorem refl (gi : GraphInv h m) : Cascade K m m where
  tallied := Tallied.refl m
  shrinks := Shrinks.refl gi
  keeps b _ := Keeps.refl m b
  killed b hb hb' := by simp [hb] at hb'

theorem mono {K' : Addr → Prop} (c : Cascade K m m') (hK : ∀ b, K b → K' b) : Cascade K' m m' :=
  { c with killed := fun b hb hb' => hK b (c.killed b hb hb') }

end Cascade

theorem Keeps.addrOf {b : Addr} (k : Keeps m m' b) {e : ElemId} (he : m.addrOf e = some b) :
    m'.addrOf e = some b := by
  rw [addrOf_congr (k e he).1, he]

theorem Rerefs.cascade {K : Addr → Prop} (r : Rerefs m m') (tallied : Tallied m m') :
    Cascade K m m' where
  tallied := tallied
  shrinks := r.shrinks
  keeps b hb := r.keeps b (r.live b ▸ hb)
  killed b hb hb' := by
    rw [r.live, hb] at hb'
    cases hb'

section Iterators

variable {n : NodeId} {e : ElemId} {s : Endpoint}

theorem Relinks.rerefs (r : Relinks m m') (sh : Shrinks m m')
    (ht : ∀ x t, m'.graph.target x t = m.graph.target x t)
    (hb : ∀ x t, m'.graph.back x t = m.graph.back x t) : Rerefs m m' where
  shrinks := sh
  live := r.liveAddr
  keeps _ _ x _ := ⟨r.label x, fun t => ⟨ht x t, hb x t⟩⟩

theorem Inv.refNode (inv : Inv h m) (hn : n ∈ m.graph.listed e s) (he : m.addrOf e = some a)
    (d : Detached m a) :
    ∃ m', ElementLink.ref m n = some m' ∧ Inv (h.holdNode n) m' ∧ Tallied m m' ∧
      Rerefs m m' ∧ Relinks m m' ∧ m'.graph = m.graph := by
  obtain ⟨l, hl⟩ := inv.listed_node hn
  obtain ⟨m', hm', gi, sh, r, hg, hq⟩ := inv.toGraphInv.refNode hl
  refine ⟨m', hm', ?_, Tallied.of_eq r.addrs hq, r.rerefs sh (by simp [hg]) (by simp [hg]), r,
    hg⟩
  have ai : AddrInv (h.holdNode n) m' := (inv.toAddrInv.relinks r).holds rfl
  refine inv.shrink_holds gi ai sh (fun _ hd => (r.liveAddr _).symm.trans hd) ?_
  intro n' e' s' a' x t h0 hpos hn' he' hx
  have hnn : n' = n := by
    by_contra hne
    simp [Holds.holdNode, hne, h0] at hpos
  obtain ⟨rfl, -⟩ := inv.coherent.owner hn' (hnn ▸ hn)
  obtain rfl : a = a' := Option.some.inj (he.symm.trans he')
  exact d x t hx

theorem Inv.unrefNode (inv : Inv (h.holdNode n) m) (hn : n ∈ m.graph.listed e s) :
    ∃ m', ElementLink.unref m e s n = some m' ∧ Inv h m' ∧ Tallied m m' ∧
      Rerefs m m' ∧ Relinks m m' ∧ (∀ x t, m'.graph.target x t = m.graph.target x t) ∧
      ∀ x t, m'.graph.back x t = m.graph.back x t := by
  obtain ⟨m', hm', gi, sh, r, ht, hb, hq⟩ := inv.toGraphInv.unrefNode hn
  have ai : AddrInv h m' := (inv.toAddrInv.relinks r).holds rfl
  refine ⟨m', hm', ?_, Tallied.of_eq r.addrs hq, r.rerefs sh ht hb, r, ht, hb⟩
  refine inv.shrink_holds gi ai sh (fun _ hd => (r.liveAddr _).symm.trans hd) ?_
  intro n' e' s' a' x t h0 hpos
  simp only [Holds.holdNode] at h0
  split at h0 <;> omega

/-- An iterator on the list of `e` stands on its head `n`, whose arc has the address `v`. -/
structure Standing (h : Holds) (m : Memory) (e : ElemId) (s : Endpoint) (a : Addr) (n : NodeId)
    (v : Addr) : Prop where
  inv : Inv ((h.holdAddr v).holdNode n) m
  head : ∃ post, m.graph.listed e s = n :: post
  arc : ∃ x, m.graph.arc n = some x ∧ m.addrOf x = some v

def At (h : Holds) (m : Memory) (a : Addr) (it : TmpIterator) : Prop :=
  match it.curr with
  | none => Inv h m ∧ m.graph.listed it.owner it.side = []
  | some (n, v) => Standing h m it.owner it.side a n v

theorem Inv.arc_of_unheld (inv : Inv h m) (hn : n ∈ m.graph.listed e s) (hh : h.node n = 0) :
    ∃ l x v, m.nodes n = some l ∧ l.dead = false ∧ m.elems l.value = some x ∧ x.addr = some v ∧
      m.graph.arc n = some l.value ∧ m.addrOf l.value = some v ∧ m.liveAddr v = true := by
  obtain ⟨l, hl⟩ := inv.listed_node hn
  have hd : l.dead = false := by
    cases hd : l.dead with
    | false => rfl
    | true => exact absurd (inv.node_held hl hd) (by omega)
  have harc : m.graph.arc n = some l.value := arc_eq_some.mpr ⟨l, hl, hd, rfl⟩
  have ht := (inv.coherent.listed_target hn harc).1
  obtain ⟨x, hx, -⟩ := stored_of_target ht
  obtain ⟨v, hv⟩ := inv.addressed hx
  have hxv : m.addrOf l.value = some v := (addrOf_stored hx).trans hv
  refine ⟨l, x, v, hl, hd, hx, hv, harc, hxv, ?_⟩
  cases hlive : m.liveAddr v with
  | true => rfl
  | false => simp [(inv.dead_free s hxv hlive).2] at ht

theorem liveAddr_eq_true {a : Addr} :
    m.liveAddr a = true ↔ ∃ g, m.addrs a = some g ∧ g.dead = false := by
  cases hg : m.addrs a <;> simp [Memory.liveAddr, hg]

theorem Inv.firstLive_eq (inv : Inv h m) {l : List NodeId} (hl : ∀ n ∈ l, n ∈ m.graph.listed e s)
    (hh : ∀ n ∈ l, h.node n = 0) :
    (l = [] ∧ TmpIterator.firstLive m l = some none) ∨
      ∃ n rest x v, l = n :: rest ∧ TmpIterator.firstLive m l = some (some (n, v)) ∧
        m.graph.arc n = some x ∧ m.addrOf x = some v := by
  cases l with
  | nil => exact .inl ⟨rfl, rfl⟩
  | cons n rest =>
    obtain ⟨l, x, v, hn, hd, hx, hv, harc, haddr, -⟩ :=
      inv.arc_of_unheld (hl n List.mem_cons_self) (hh n List.mem_cons_self)
    refine .inr ⟨n, rest, l.value, v, rfl, ?_, harc, haddr⟩
    simp [TmpIterator.firstLive, hn, hd, hx, hv]

theorem ref_comm {m₁ m₂ : Memory} (h₁ : GlobalAddr.ref m v = some m₁)
    (h₂ : ElementLink.ref m₁ n = some m₂) :
    ∃ m₁', ElementLink.ref m n = some m₁' ∧ GlobalAddr.ref m₁' v = some m₂ := by
  cases hg : m.addrs v with
  | none => simp [GlobalAddr.ref, modifyAddr, hg] at h₁
  | some g =>
    rw [GlobalAddr.ref, modifyAddr_eq hg] at h₁
    obtain rfl := Option.some.inj h₁
    cases hl : m.nodes n with
    | none => simp [ElementLink.ref, modifyNode, hl] at h₂
    | some l =>
      rw [ElementLink.ref, modifyNode_eq (l := l) (by simpa using hl)] at h₂
      obtain rfl := Option.some.inj h₂
      exact ⟨_, modifyNode_eq hl, modifyAddr_eq (g := g) hg⟩

theorem Inv.stand (inv : Inv h m) {post : List NodeId} (hlist : m.graph.listed e s = n :: post)
    (he : m.addrOf e = some a) (d : Detached m a) (hlive : m.liveAddr a = true) {x : ElemId}
    (harc : m.graph.arc n = some x) (haddr : m.addrOf x = some v) (hv : m.liveAddr v = true) :
    ∃ m₁ m₂, GlobalAddr.ref m v = some m₁ ∧ ElementLink.ref m₁ n = some m₂ ∧
      Standing h m₂ e s a n v ∧ (∀ K, Cascade K m m₂) ∧ m₂.liveAddr v = true := by
  obtain ⟨g, hg, -⟩ := liveAddr_eq_true.mp hv
  obtain ⟨m₁, hm₁, inv₁, tallied₁, r₁, hg₁⟩ := inv.refAddr hg
  have hn : n ∈ m₁.graph.listed e s := by
    rw [hg₁, hlist]
    exact List.mem_cons_self
  obtain ⟨m₂, hm₂, inv₂, tallied₂, r₂, rl₂, hg₂⟩ := inv₁.refNode hn ((r₁.keeps a hlive).addrOf he)
    (r₁.shrinks.detached d)
  refine ⟨m₁, m₂, hm₁, hm₂, ⟨inv₂, ⟨post, ?_⟩, x, ?_, ?_⟩,
    fun K => (r₁.cascade tallied₁).trans (r₂.cascade tallied₂), ?_⟩
  · rw [hg₂, hg₁, hlist]
  · rw [hg₂, hg₁, harc]
  · rw [rl₂.addrOf]
    exact (r₁.keeps v hv).addrOf haddr
  · rw [r₂.live, r₁.live, hv]

theorem Inv.create (inv : Inv h m) (he : m.addrOf e = some a) (hlive : m.liveAddr a = true)
    (d : Detached m a) (u : Unheld h m a) :
    ∃ m' it, TmpIterator.create m e s = some (m', it) ∧ it.owner = e ∧ it.side = s ∧
      At h m' a it ∧ ∀ K, Cascade K m m' := by
  obtain ⟨o, ho, -⟩ := stored_of_addrOf he
  cases hlist : m.graph.listed e s with
  | nil =>
    have harcs : o.arcs s = [] := listed_stored ho ▸ hlist
    exact ⟨m, ⟨e, s, none⟩, by simp [TmpIterator.create, ho, harcs], rfl, rfl, ⟨inv, hlist⟩,
      fun _ => Cascade.refl inv.toGraphInv⟩
  | cons n post =>
    have hn : n ∈ m.graph.listed e s := hlist ▸ List.mem_cons_self
    have harcs : o.arcs s = n :: post := listed_stored ho ▸ hlist
    obtain ⟨l, x, v, hl, hd, hx, hv, harc, haddr, hvlive⟩ := inv.arc_of_unheld hn (u e s n he hn)
    obtain ⟨m₁, m₂, hm₁, hm₂, st, cascade, hv₂⟩ :=
      inv.stand hlist he d hlive harc haddr hvlive
    obtain ⟨g, hg, hgd⟩ := liveAddr_eq_true.mp hv₂
    refine ⟨m₂, ⟨e, s, some (n, v)⟩, ?_, rfl, rfl, st, cascade⟩
    simp [TmpIterator.create, ho, harcs, hl, hx, hv, hm₁, hm₂, hg, hd, hgd]

/-- The memory `m'` after the address `a` has been erased in `m`. -/
structure Erased (h : Holds) (a : Addr) (m m' : Memory) : Prop where
  inv : Inv h m'
  cascade : Cascade (ReflTransGen (Incident m) a) m m'
  dead : m'.liveAddr a = false

theorem Erased.arc_none (er : Erased h v m m') {x : ElemId} (hn : n ∈ m'.graph.listed e s)
    (harc : m.graph.arc n = some x) (haddr : m.addrOf x = some v) : m'.graph.arc n = none := by
  cases harc' : m'.graph.arc n with
  | none => rfl
  | some x' =>
    obtain ⟨l', hl', -, hv'⟩ := arc_eq_some.mp harc'
    obtain ⟨l, hl, hval, -⟩ := er.cascade.shrinks.node hl'
    obtain ⟨l₀, hl₀, -, hv⟩ := arc_eq_some.mp harc
    obtain rfl : l = l₀ := by simpa [hl] using hl₀
    obtain rfl : x' = x := by rw [← hv', hval, hv]
    have ht := (er.inv.coherent.listed_target hn harc').1
    obtain ⟨el, hel, -⟩ := stored_of_target ht
    obtain ⟨b, hb⟩ := er.inv.addressed hel
    have hxb : m'.addrOf x' = some b := (addrOf_stored hel).trans hb
    have hbv : b = v := Option.some.inj ((er.cascade.shrinks.addrOf hxb).symm.trans haddr)
    rw [(er.inv.dead_free s hxb (hbv ▸ er.dead)).2] at ht
    cases ht

theorem after_head (post : List NodeId) : TmpIterator.after n (n :: post) = post := by
  simp [TmpIterator.after]

theorem Standing.next (st : Standing h m e s a n v)
    (er : Erased ((h.holdAddr v).holdNode n) v m m') (he : m.addrOf e = some a) (d : Detached m a)
    (u : Unheld h m a) (halive : m'.liveAddr a = true) :
    ∃ m'' it, TmpIterator.next m' ⟨e, s, some (n, v)⟩ = some (m'', it) ∧ it.owner = e ∧
      it.side = s ∧ At h m'' a it ∧ (∀ K, Cascade K m' m'') ∧
      (m''.graph.listed e s).length < (m.graph.listed e s).length := by
  obtain ⟨post, hlist⟩ := st.head
  obtain ⟨x, harc, haddr⟩ := st.arc
  have sh := er.cascade.shrinks
  have he' : m'.addrOf e = some a := (er.cascade.keeps a halive).addrOf he
  obtain ⟨l, hl⟩ := er.inv.held_node (n := n) (by simp [Holds.holdNode])
  have hlist' : m'.graph.listed e s = n :: post.filter fun n => (m'.nodes n).isSome := by
    rw [sh.listed, hlist, List.filter_cons_of_pos (by simp [hl])]
  have hn' : n ∈ m'.graph.listed e s := hlist' ▸ List.mem_cons_self
  have hdead := er.arc_none hn' harc haddr
  generalize hpost : (post.filter fun n => (m'.nodes n).isSome) = post' at hlist'
  have hlen : post'.length ≤ post.length := hpost ▸ List.length_filter_le _ _
  have hnodup : (n :: post').Nodup := hlist' ▸ er.inv.coherent.nodup e s
  have hunheld : ∀ k ∈ n :: post', h.node k = 0 := fun k hk =>
    u e s k he (sh.mem_listed (hlist' ▸ hk))
  obtain ⟨o, ho, -⟩ := stored_of_addrOf he'
  have hafter : TmpIterator.after n (o.arcs s) = post' := by
    rw [← listed_stored ho, hlist', after_head]
  -- Drop the reference to the node, then the one to the erased arc.
  obtain ⟨m₂, hm₂, inv₂, tallied₂, r₂, rl₂, ht₂, hb₂⟩ := er.inv.unrefNode hn'
  obtain ⟨m₃, hm₃, inv₃, tallied₃, r₃⟩ := inv₂.unrefAddr
  have cascade₃ : ∀ K, Cascade K m' m₃ := fun K =>
    (r₂.cascade tallied₂).trans (r₃.cascade tallied₃)
  have hn₃ : (m₃.nodes n).isSome = false := by
    cases hl₃ : m₃.nodes n with
    | none => rfl
    | some l₃ =>
      have hd₃ : l₃.dead = true := by
        cases hd : l₃.dead with
        | true => rfl
        | false =>
          obtain ⟨l', hl', -, hd'⟩ := (cascade₃ fun _ => True).shrinks.node hl₃
          rw [arc_eq_some.mpr ⟨l', hl', hd' hd, rfl⟩] at hdead
          cases hdead
      exact absurd (inv₃.node_held hl₃ hd₃) (by simp [hunheld n List.mem_cons_self])
  have hlist₃ : m₃.graph.listed e s = post'.filter fun n => (m₃.nodes n).isSome := by
    rw [(cascade₃ fun _ => True).shrinks.listed, hlist', List.filter_cons_of_neg (by simp [hn₃])]
  have hlen₃ : (m₃.graph.listed e s).length < (m.graph.listed e s).length := by
    have := List.length_filter_le (fun n => (m₃.nodes n).isSome) post'
    rw [hlist₃, hlist, List.length_cons]
    omega
  have hpost' : ∀ k ∈ post', k ∈ m'.graph.listed e s ∧ ((h.holdAddr v).holdNode n).node k = 0 := by
    intro k hk
    have hkn : k ≠ n := fun hkn => (List.nodup_cons.mp hnodup).1 (hkn ▸ hk)
    refine ⟨hlist' ▸ List.mem_cons_of_mem _ hk, ?_⟩
    simpa [Holds.holdNode, Holds.holdAddr, hkn] using hunheld k (List.mem_cons_of_mem _ hk)
  rcases er.inv.firstLive_eq (fun k hk => (hpost' k hk).1) fun k hk => (hpost' k hk).2 with
    ⟨hnil, hfirst⟩ | ⟨n', rest, x', v', hcons, hfirst, harc', haddr'⟩
  · refine ⟨m₃, ⟨e, s, none⟩, ?_, rfl, rfl, ⟨inv₃, by rw [hlist₃, hnil]; rfl⟩, cascade₃, hlen₃⟩
    simp [TmpIterator.next, ho, hafter, hfirst, hm₂, hm₃]
  · have hmem : n' ∈ m'.graph.listed e s := (hpost' n' (hcons ▸ List.mem_cons_self)).1
    obtain ⟨ht, hb⟩ := er.inv.coherent.listed_target hmem harc'
    have hlive' : m'.liveAddr v' = true := by
      cases hlive : m'.liveAddr v' with
      | true => rfl
      | false => simp [(er.inv.dead_free s haddr' hlive).2] at ht
    have hlive₃ : m₃.liveAddr v' = true := by rw [r₃.live, r₂.live, hlive']
    obtain ⟨-, hkeep⟩ := (cascade₃ fun _ => True).keeps v' hlive₃ x' haddr'
    obtain ⟨n'', hn'', hb'', harc''⟩ := inv₃.coherent.target_listed ((hkeep s).1.trans ht)
    obtain rfl : n' = n'' := Option.some.inj (by rw [← hb, ← (hkeep s).2, hb''])
    have hcons₃ : ∃ rest', m₃.graph.listed e s = n' :: rest' := by
      rw [hlist₃, hcons] at hn''
      have hsome : (m₃.nodes n').isSome = true := by simpa using (List.mem_filter.mp hn'').2
      exact ⟨_, by rw [hlist₃, hcons, List.filter_cons_of_pos (by simpa using hsome)]⟩
    obtain ⟨rest', hlist₃'⟩ := hcons₃
    have halive₃ : m₃.liveAddr a = true := by rw [r₃.live, r₂.live, halive]
    have sh₃ := sh.trans (cascade₃ fun _ => True).shrinks
    obtain ⟨m₄, m₅, hm₄, hm₅, st₅, cascade₅, -⟩ := inv₃.stand hlist₃'
      (((cascade₃ fun _ => True).keeps a halive₃).addrOf he') (sh₃.detached d) halive₃ harc''
      (((cascade₃ fun _ => True).keeps v' hlive₃).addrOf haddr') hlive₃
    obtain ⟨m₄', hm₄', hm₅'⟩ := ref_comm hm₄ hm₅
    refine ⟨m₅, ⟨e, s, some (n', v')⟩, ?_, rfl, rfl, st₅,
      fun K => (cascade₃ K).trans (cascade₅ K), ?_⟩
    · simp [TmpIterator.next, ho, hafter, hfirst, hm₂, hm₃, hm₄', hm₅']
    · refine Nat.lt_of_le_of_lt ?_ hlen₃
      rw [(cascade₅ fun _ => True).shrinks.listed]
      exact List.length_filter_le _ _

end Iterators

end ScCore.Store
