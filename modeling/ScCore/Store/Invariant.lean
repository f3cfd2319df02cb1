import ScCore.Store.Attach
import Mathlib.Algebra.Order.BigOperators.Group.List

/-!
# The invariant of the storage

The reference counts are explained by who holds a node or an address: the arc
iterators that stand on them and the clients. Given the holders, the invariant
ties the arc lists to the ends of the arcs, the counters to the lists, the
addresses to the elements, and says what may still hang on a dead address.
-/

namespace ScCore.Store

open Memory

structure Holds where
  node : NodeId → Nat
  addr : Addr → Nat

/-- Lists, ends, back pointers and counters of the elements agree, and a node is
kept as long as it stands for an arc or is held. -/
structure GraphInv (h : Holds) (m : Memory) : Prop where
  coherent : m.graph.Coherent
  qnt_eq : ∀ e s, m.qnt e s = (m.graph.arcs e s).length
  listed_node : ∀ {e s n}, n ∈ m.graph.listed e s → ∃ l, m.nodes n = some l
  node_refs : ∀ {n l}, m.nodes n = some l → l.refcnt = h.node n + if l.dead then 0 else 1
  node_held : ∀ {n l}, m.nodes n = some l → l.dead = true → 0 < h.node n
  held_node : ∀ {n}, 0 < h.node n → ∃ l, m.nodes n = some l
  node_lt : ∀ {n l}, m.nodes n = some l → n < m.nextNode

structure AddrInv (h : Holds) (m : Memory) : Prop where
  stores_addr : ∀ {a g st}, m.addrs a = some g → st ∈ g.stores → m.addrOf st.impl = some a
  addr_stores : ∀ {e a}, m.addrOf e = some a →
    ∃ g, m.addrs a = some g ∧ ∃ st ∈ g.stores, st.impl = e
  addressed : ∀ {e el}, m.elems e = some el → ∃ a, el.addr = some a
  nodup : ∀ {a g}, m.addrs a = some g → (g.stores.map (·.impl)).Nodup
  not_zombie : ∀ {a g}, m.addrs a = some g → g.zombie = false
  addr_refs : ∀ {a g}, m.addrs a = some g →
    g.refcnt = h.addr a + if g.dead then 0 else refcntBarrier
  addr_held : ∀ {a g}, m.addrs a = some g → g.dead = true → 0 < h.addr a
  held_addr : ∀ {a}, 0 < h.addr a → ∃ g, m.addrs a = some g
  elem_lt : ∀ {e el}, m.elems e = some el → e < m.nextElem
  addr_lt : ∀ {a g}, m.addrs a = some g → a < m.nextAddr

structure Inv (h : Holds) (m : Memory) : Prop extends GraphInv h m, AddrInv h m where
  /-- Only own elements are arcs. -/
  own : ∀ {a g st s}, m.addrs a = some g → st ∈ g.links → m.graph.target st.impl s = none
  typed : ∀ {x s e l}, m.graph.target x s = some e → m.label x = some l →
    l.type.isConnector = true
  dead_free : ∀ {e a} s, m.addrOf e = some a → m.liveAddr a = false →
    m.graph.listed e s = [] ∧ m.graph.target e s = none
  /-- An element whose nodes are held is on its way out and has no ends any more. -/
  held_detached : ∀ {n e s a x t}, 0 < h.node n → n ∈ m.graph.listed e s →
    m.addrOf e = some a → m.addrOf x = some a → m.graph.target x t = none

def Tally (R : Int → Int → Prop) (m : Memory) : Prop :=
  ∀ a g s, m.addrs a = some g → R (g.qnt s) (g.stores.map fun st => m.qnt st.impl s).sum

def Counted (m : Memory) : Prop :=
  ∀ a g s, m.addrs a = some g → g.qnt s = (g.stores.map fun st => m.qnt st.impl s).sum

def Covered : Memory → Prop := Tally (· ≥ ·)

structure Comparison (R : Int → Int → Prop) : Prop where
  zero : R 0 0
  add : ∀ {x y} d, R x y → R (x + d) (y + d)

def Tallied (m m' : Memory) : Prop :=
  ∀ R, Comparison R → Tally R m → Tally R m'

namespace Tallied

variable {m m' m'' : Memory}

theorem refl (m : Memory) : Tallied m m := fun _ _ t => t

theorem trans (t : Tallied m m') (t' : Tallied m' m'') : Tallied m m'' :=
  fun R cmp h => t' R cmp (t R cmp h)

theorem counted (t : Tallied m m') : Counted m → Counted m' :=
  t (· = ·) ⟨rfl, fun d h => congrArg (· + d) h⟩

theorem covered (t : Tallied m m') : Covered m → Covered m' :=
  t (· ≥ ·) ⟨Int.le_refl 0, fun d h => Int.add_le_add_right h d⟩

theorem of_eq (addrs : m'.addrs = m.addrs) (qnt : ∀ e s, m'.qnt e s = m.qnt e s) :
    Tallied m m' := by
  intro R _ t a g s ha
  simp only [qnt]
  exact t a g s (addrs ▸ ha)

end Tallied

theorem Covered.loosen {m m' : Memory} (c : Covered m) (addrs : m'.addrs = m.addrs)
    (qnt : ∀ e s, m'.qnt e s ≤ m.qnt e s) : Covered m' := by
  intro a g s ha
  refine Int.le_trans ?_ (c a g s (addrs ▸ ha))
  exact List.sum_le_sum fun st _ => qnt st.impl s

namespace GraphInv

variable {h : Holds} {m : Memory}

theorem live_node (inv : GraphInv h m) {n : NodeId} {l : ElementLink} (hn : m.nodes n = some l)
    (hd : l.dead = false) : l.refcnt = h.node n + 1 := by
  simpa [hd] using inv.node_refs hn

theorem fresh (inv : GraphInv h m) (e : ElemId) (s : Endpoint) :
    m.nextNode ∉ m.graph.listed e s := by
  intro hn
  obtain ⟨l, hl⟩ := inv.listed_node hn
  exact absurd (inv.node_lt hl) (Nat.lt_irrefl _)

theorem attached (inv : GraphInv h m) {x e : ElemId} {s : Endpoint}
    (ht : m.graph.target x s = some e) :
    ∃ n l o, m.graph.back x s = some n ∧ n ∈ m.graph.listed e s ∧ m.nodes n = some l ∧
      l.dead = false ∧ l.value = x ∧ m.elems e = some o := by
  obtain ⟨n, hn, hb, hx⟩ := inv.coherent.target_listed ht
  obtain ⟨l, hl, hd, hv⟩ := arc_eq_some.mp hx
  obtain ⟨o, ho, -⟩ := stored_of_listed hn
  exact ⟨n, l, o, hb, hn, hl, hd, hv, ho⟩

theorem congr (inv : GraphInv h m) {m' : Memory} (hg : m'.graph = m.graph)
    (hq : ∀ e s, m'.qnt e s = m.qnt e s) (hn : m'.nodes = m.nodes)
    (hnext : m'.nextNode = m.nextNode) : GraphInv h m' where
  coherent := hg ▸ inv.coherent
  qnt_eq e s := by rw [hq, hg]; exact inv.qnt_eq e s
  listed_node := by rw [hg, hn]; exact inv.listed_node
  node_refs := by rw [hn]; exact inv.node_refs
  node_held := by rw [hn]; exact inv.node_held
  held_node := by rw [hn]; exact inv.held_node
  node_lt := by rw [hn, hnext]; exact inv.node_lt

end GraphInv

namespace AddrInv

variable {h : Holds} {m : Memory}

variable {a : Addr} {g : GlobalAddr} {st : LinkAddr}

theorem stored (inv : AddrInv h m) (ha : m.addrs a = some g) (hst : st ∈ g.stores) :
    ∃ el, m.elems st.impl = some el ∧ el.addr = some a :=
  stored_of_addrOf (inv.stores_addr ha hst)

theorem own_stored (inv : AddrInv h m) (ha : m.addrs a = some g) :
    ∃ el, m.elems g.impl = some el ∧ el.addr = some a :=
  inv.stored ha (List.mem_cons_self : (⟨g.seg, g.impl⟩ : LinkAddr) ∈ g.stores)

theorem addr_unique (inv : AddrInv h m) {b : Addr} {g' : GlobalAddr} {st' : LinkAddr}
    (ha : m.addrs a = some g) (hb : m.addrs b = some g') (hst : st ∈ g.stores)
    (hst' : st' ∈ g'.stores) (same : st.impl = st'.impl) : a = b := by
  have h1 := inv.stores_addr ha hst
  have h2 := inv.stores_addr hb hst'
  rw [same, h2] at h1
  exact (Option.some.inj h1).symm

theorem relinks (inv : AddrInv h m) {m' : Memory} (r : Relinks m m') : AddrInv h m' where
  stores_addr := by rw [r.addrs]; intro a g st; rw [r.addrOf]; exact inv.stores_addr
  addr_stores := by rw [r.addrs]; intro e a; rw [r.addrOf]; exact inv.addr_stores
  addressed := by
    intro e el he
    cases ho : m.elems e with
    | none => simp [(r.stored_iff e).mpr ho] at he
    | some o =>
      have := r.addrOf e
      rw [addrOf_stored he, addrOf_stored ho] at this
      exact this ▸ inv.addressed ho
  nodup := by rw [r.addrs]; exact inv.nodup
  not_zombie := by rw [r.addrs]; exact inv.not_zombie
  addr_refs := by rw [r.addrs]; exact inv.addr_refs
  addr_held := by rw [r.addrs]; exact inv.addr_held
  held_addr := by rw [r.addrs]; exact inv.held_addr
  elem_lt := by
    intro e el he
    rw [r.nextElem]
    cases ho : m.elems e with
    | none => simp [(r.stored_iff e).mpr ho] at he
    | some o => exact inv.elem_lt ho
  addr_lt := by rw [r.addrs, r.nextAddr]; exact inv.addr_lt

end AddrInv

end ScCore.Store
