import ScCore.Store.EraseReturns

/-!
# New elements

An element is created with an address of its own or as a link of an existing
address. Either way it comes without arcs.
-/

namespace ScCore.Store

open Memory TmpSegment

variable {h : Holds} {m m' : Memory} {a : Addr} {e : ElemId}

structure Bare (el : Element) : Prop where
  arcs : ∀ s, el.arcs s = []
  ends : ∀ s, el.ends s = none
  hint : ∀ s, el.hint s = none
  qnt : ∀ s, el.qnt s = 0

/-- The bare element `el` has been added. -/
structure Adds (el : Element) (m m' : Memory) : Prop where
  elems : ∀ x, m'.elems x = if x = m.nextElem then some el else m.elems x
  nodes : m'.nodes = m.nodes
  nextElem : m'.nextElem = m.nextElem + 1
  nextNode : m'.nextNode = m.nextNode
  bare : Bare el
  uri : ∀ j, (m'.segs j).uri = (m.segs j).uri

theorem AddrInv.unused (ai : AddrInv h m) : m.elems m.nextElem = none := by
  cases he : m.elems m.nextElem with
  | none => rfl
  | some el => exact absurd (ai.elem_lt he) (Nat.lt_irrefl _)

namespace Adds

variable {el : Element}

variable {x : ElemId}

theorem elems_old (ad : Adds el m m') (hx : x ≠ m.nextElem) : m'.elems x = m.elems x := by
  rw [ad.elems, if_neg hx]

theorem ne_new (ai : AddrInv h m) {b : Addr} (hx : m.addrOf x = some b) : x ≠ m.nextElem := by
  rintro rfl
  obtain ⟨el, hel, -⟩ := stored_of_addrOf hx
  simp [ai.unused] at hel

section

variable (ad : Adds el m m')
include ad

theorem label_old (hx : x ≠ m.nextElem) : m'.label x = m.label x := by
  rw [Memory.label, Memory.label, ad.elems_old hx]

theorem graph (ai : AddrInv h m) : m'.graph = m.graph := by
  have hnew : m'.elems m.nextElem = some el := by rw [ad.elems, if_pos rfl]
  refine AdjacencyLists.ext (fun x s => ?_) (fun n => ?_) (fun x s => ?_) fun x s => ?_
  · by_cases hx : x = m.nextElem
    · rw [hx, listed_stored hnew, listed_missing ai.unused, ad.bare.arcs]
    · show ((m'.elems x).map _).getD _ = ((m.elems x).map _).getD _
      rw [ad.elems_old hx]
  · show (m'.nodes n).bind _ = (m.nodes n).bind _
    rw [ad.nodes]
  · by_cases hx : x = m.nextElem
    · rw [hx, target_stored hnew, target_missing ai.unused, ad.bare.ends]
    · show (m'.elems x).bind _ = (m.elems x).bind _
      rw [ad.elems_old hx]
  · by_cases hx : x = m.nextElem
    · rw [hx, back_stored hnew, back_missing ai.unused, ad.bare.hint]
    · show (m'.elems x).bind _ = (m.elems x).bind _
      rw [ad.elems_old hx]

theorem qnt (ai : AddrInv h m) (x : ElemId) (s : Endpoint) : m'.qnt x s = m.qnt x s := by
  by_cases hx : x = m.nextElem
  · have hnew : m'.elems m.nextElem = some el := by rw [ad.elems, if_pos rfl]
    rw [hx, qnt_stored hnew, qnt_missing ai.unused, ad.bare.qnt]
  · rw [Memory.qnt, Memory.qnt, ad.elems_old hx]

theorem graphInv (gi : GraphInv h m) (ai : AddrInv h m) : GraphInv h m' :=
  gi.congr (ad.graph ai) (ad.qnt ai) ad.nodes ad.nextNode

theorem addrOf_new : m'.addrOf m.nextElem = el.addr :=
  addrOf_stored (by rw [ad.elems, if_pos rfl])

theorem addrOf_old (hx : x ≠ m.nextElem) : m'.addrOf x = m.addrOf x :=
  addrOf_congr (ad.label_old hx)

theorem addrOf_some {b : Addr} (hx : m'.addrOf x = some b) :
    (x = m.nextElem ∧ el.addr = some b) ∨ (x ≠ m.nextElem ∧ m.addrOf x = some b) := by
  by_cases hn : x = m.nextElem
  · exact .inl ⟨hn, by rw [← ad.addrOf_new, ← hn, hx]⟩
  · exact .inr ⟨hn, by rw [← ad.addrOf_old hn, hx]⟩

theorem inv (inv : Inv h m) (ai : AddrInv h m')
    (own : ∀ {a g st s}, m'.addrs a = some g → st ∈ g.links → m.graph.target st.impl s = none)
    (live : ∀ {e a}, m.addrOf e = some a → m'.liveAddr a = m.liveAddr a) : Inv h m' where
  toGraphInv := ad.graphInv inv.toGraphInv inv.toAddrInv
  toAddrInv := ai
  own := by rw [ad.graph inv.toAddrInv]; exact own
  typed := by
    intro x s e l ht hl
    rw [ad.graph inv.toAddrInv] at ht
    have hx : x ≠ m.nextElem := by
      rintro rfl
      rw [target_missing inv.unused] at ht
      cases ht
    exact inv.typed ht ((ad.label_old hx).symm.trans hl)
  dead_free := by
    intro e a s he hd
    rw [ad.graph inv.toAddrInv]
    rcases ad.addrOf_some he with ⟨rfl, -⟩ | ⟨-, he⟩
    · exact ⟨listed_missing inv.unused, target_missing inv.unused⟩
    · exact inv.dead_free s he (live he ▸ hd)
  held_detached := by
    intro n e s a x t hh hn he hx
    rw [ad.graph inv.toAddrInv] at hn ⊢
    rcases ad.addrOf_some hx with ⟨rfl, -⟩ | ⟨-, hx⟩
    · exact target_missing inv.unused
    · rcases ad.addrOf_some he with ⟨rfl, -⟩ | ⟨-, he⟩
      · rw [listed_missing inv.unused] at hn
        cases hn
      · exact inv.held_detached hh hn he hx

end

end Adds

/-! ## `create_el` -/

section Create

variable {ss : Session} {seg : SegId} {type : ScType}

/-- The memory after `create_el` has made an element of a verified type. -/
def created (m : Memory) (seg : SegId) (type : ScType) : Memory :=
  ((((m.newElem (Element.new type false true)).modifySeg seg
    fun sg => { sg with elements := sg.elements ++ [m.nextElem] }).newAddr
    ⟨seg, m.nextElem, [], refcntBarrier, false, false, 0, fun _ => 0⟩).mapElem m.nextElem
    fun el => { el with addr := some m.nextAddr })

theorem createEl_some {r : Option Addr} {rv : Retval}
    (hr : ss.createEl m seg type = some (m', r, rv)) :
    (m' = m ∧ r = none ∧ rv ≠ rvOk) ∨
      ∃ t, m' = created m seg t ∧ r = some m.nextAddr ∧ rv = rvOk ∧ ss.opened seg = true := by
  unfold Session.createEl at hr
  split at hr
  · obtain ⟨rfl, rfl, rfl⟩ : m = m' ∧ none = r ∧ rvErrGen = rv := by simpa using hr
    exact .inl ⟨rfl, rfl, by decide⟩
  · next hopen =>
    split at hr
    · obtain ⟨rfl, rfl, rfl⟩ : m = m' ∧ none = r ∧ rvErrGen = rv := by simpa using hr
      exact .inl ⟨rfl, rfl, by decide⟩
    · next t _ =>
      have hel : ((m.newElem (Element.new t false true)).modifySeg seg
          fun sg => { sg with elements := sg.elements ++ [m.nextElem] }).elems m.nextElem =
          some (Element.new t false true) := if_pos rfl
      simp only [genEl, hel, Option.bind_eq_bind, Option.bind_some, setElementAddr] at hr
      have stored : ∀ g, (((m.newElem (Element.new t false true)).modifySeg seg
          fun sg => { sg with elements := sg.elements ++ [m.nextElem] }).newAddr g).elems
            m.nextElem =
          some (Element.new t false true) := fun _ => hel
      rw [modifyElem_eq (stored _)] at hr
      obtain ⟨rfl, rfl, rfl⟩ := by simpa using hr
      exact .inr ⟨t, rfl, rfl, rfl, by simpa using hopen⟩

theorem adds_created (m : Memory) (seg : SegId) (t : ScType) :
    Adds { Element.new t false true with addr := some m.nextAddr } m (created m seg t) where
  elems x := by
    by_cases hx : x = m.nextElem <;> simp [created, newElem, modifySeg, newAddr, hx]
  nodes := rfl
  nextElem := rfl
  nextNode := rfl
  bare := ⟨fun _ => rfl, fun _ => rfl, fun _ => rfl, fun _ => rfl⟩
  uri j := by by_cases hj : j = seg <;> simp [created, newElem, modifySeg, newAddr, mapElem, hj]

theorem created_addrs (m : Memory) (seg : SegId) (t : ScType) (b : Addr) :
    (created m seg t).addrs b = if b = m.nextAddr then
      some ⟨seg, m.nextElem, [], refcntBarrier, false, false, 0, fun _ => 0⟩ else m.addrs b := rfl

theorem AddrInv.unusedAddr (ai : AddrInv h m) : m.addrs m.nextAddr = none := by
  cases hg : m.addrs m.nextAddr with
  | none => rfl
  | some g => exact absurd (ai.addr_lt hg) (Nat.lt_irrefl _)

theorem AddrInv.created (ai : AddrInv h m) (seg : SegId) (t : ScType) :
    AddrInv h (created m seg t) := by
  have ad := adds_created m seg t
  have hne : ∀ {b g}, m.addrs b = some g → b ≠ m.nextAddr := by
    rintro b g hg rfl
    simp [ai.unusedAddr] at hg
  have haddr : ∀ {b g}, (ScCore.Store.created m seg t).addrs b = some g →
      (b = m.nextAddr ∧ g = ⟨seg, m.nextElem, [], refcntBarrier, false, false, 0, fun _ => 0⟩) ∨
        m.addrs b = some g := by
    intro b g hb
    rw [created_addrs] at hb
    split at hb
    · next hb' => exact .inl ⟨hb', (Option.some.inj hb).symm⟩
    · exact .inr hb
  have hold : ∀ {b g}, m.addrs b = some g → (ScCore.Store.created m seg t).addrs b = some g := by
    intro b g hb
    rw [created_addrs, if_neg (hne hb), hb]
  have hunheld : h.addr m.nextAddr = 0 := by
    rcases Nat.eq_zero_or_pos (h.addr m.nextAddr) with h0 | hpos
    · exact h0
    · obtain ⟨g, hg⟩ := ai.held_addr hpos
      exact absurd rfl (hne hg)
  exact {
    stores_addr := fun {b g st} hb hst => by
      rcases haddr hb with ⟨rfl, rfl⟩ | hb
      · obtain rfl : st = ⟨seg, m.nextElem⟩ := by simpa [GlobalAddr.stores] using hst
        exact ad.addrOf_new
      · have := ai.stores_addr hb hst
        rw [ad.addrOf_old (Adds.ne_new ai this), this]
    addr_stores := fun {x b} hx => by
      rcases ad.addrOf_some hx with ⟨rfl, hb⟩ | ⟨-, hx⟩
      · obtain rfl : m.nextAddr = b := Option.some.inj hb
        exact ⟨_, if_pos rfl, _, List.mem_cons_self, rfl⟩
      · obtain ⟨g, hg, hst⟩ := ai.addr_stores hx
        exact ⟨g, hold hg, hst⟩
    addressed := fun {x el} hx => by
      rw [ad.elems] at hx
      split at hx
      · obtain rfl := Option.some.inj hx
        exact ⟨_, rfl⟩
      · exact ai.addressed hx
    nodup := fun {b g} hb => by
      rcases haddr hb with ⟨-, rfl⟩ | hb
      · simp [GlobalAddr.stores]
      · exact ai.nodup hb
    not_zombie := fun {b g} hb => by
      rcases haddr hb with ⟨-, rfl⟩ | hb
      · rfl
      · exact ai.not_zombie hb
    addr_refs := fun {b g} hb => by
      rcases haddr hb with ⟨rfl, rfl⟩ | hb
      · simp [hunheld]
      · exact ai.addr_refs hb
    addr_held := fun {b g} hb hd => by
      rcases haddr hb with ⟨-, rfl⟩ | hb
      · cases hd
      · exact ai.addr_held hb hd
    held_addr := fun {b} hb => by
      obtain ⟨g, hg⟩ := ai.held_addr hb
      exact ⟨g, hold hg⟩
    elem_lt := fun {x el} hx => by
      rw [ad.elems] at hx
      rw [ad.nextElem]
      split at hx
      · next hn => exact hn ▸ Nat.lt_succ_self _
      · exact Nat.lt_succ_of_lt (ai.elem_lt hx)
    addr_lt := fun {b g} hb => by
      rcases haddr hb with ⟨rfl, -⟩ | hb
      · exact Nat.lt_succ_self _
      · exact Nat.lt_succ_of_lt (ai.addr_lt hb) }

theorem Inv.created (inv : Inv h m) (seg : SegId) (t : ScType) :
    Inv h (created m seg t) ∧ Tallied m (created m seg t) := by
  have ad := adds_created m seg t
  have ai := inv.toAddrInv.created seg t
  refine ⟨ad.inv inv ai ?_ ?_, ?_⟩
  · intro b g st s hb hst
    rw [created_addrs] at hb
    split at hb
    · obtain rfl := Option.some.inj hb
      cases hst
    · exact inv.own hb hst
  · intro e b he
    obtain ⟨g, hg, -⟩ := inv.addr_stores he
    have hne : b ≠ m.nextAddr := by
      rintro rfl
      simp [inv.unusedAddr] at hg
    rw [Memory.liveAddr, Memory.liveAddr, created_addrs, if_neg hne]
  · intro R cmp c b g s hb
    simp only [ad.qnt inv.toAddrInv]
    rw [created_addrs] at hb
    split at hb
    · obtain rfl := Option.some.inj hb
      simpa [GlobalAddr.stores, qnt_missing inv.unused] using cmp.zero
    · exact c b g s hb

end Create

/-! ## Links -/

section Links

variable {seg : SegId} {g : GlobalAddr}

theorem insertLink_perm (la : LinkAddr) (l : List LinkAddr) :
    (GlobalAddr.insertLink la l).Perm (la :: l) := by
  induction l with
  | nil => exact List.Perm.refl _
  | cons x l ih =>
    rw [GlobalAddr.insertLink]
    split
    · exact (ih.cons x).trans (List.Perm.swap la x l)
    · exact List.Perm.refl _

/-- The memory after a new link `la.impl` to `a` has been made in `la.seg`. -/
def linked (m : Memory) (a : Addr) (seg : SegId) (uri : ScString) : Memory :=
  let link : Element := { Element.new ScType.empty true false with idtf := uri }
  let m' := (m.newElem link).modifySeg seg
    fun sg => { sg with elements := m.nextElem :: sg.elements }
  (m'.mapAddr a fun g =>
    { g with
      links := GlobalAddr.insertLink ⟨seg, m.nextElem⟩ g.links
      linksQnt := g.linksQnt + 1
      qnt := fun s => g.qnt s + link.qnt s }).mapElem m.nextElem
    fun el => { el with addr := some a }

theorem adds_linked (m : Memory) (a : Addr) (seg : SegId) (uri : ScString) :
    Adds { Element.new ScType.empty true false with idtf := uri, addr := some a } m
      (linked m a seg uri) where
  elems x := by
    by_cases hx : x = m.nextElem <;> simp [linked, newElem, modifySeg, mapAddr, hx]
  nodes := rfl
  nextElem := rfl
  nextNode := rfl
  bare := ⟨fun _ => rfl, fun _ => rfl, fun _ => rfl, fun _ => rfl⟩
  uri j := by by_cases hj : j = seg <;> simp [linked, newElem, modifySeg, mapAddr, mapElem, hj]

variable {b : Addr} {g' : GlobalAddr}

theorem linked_addrs {uri : ScString} (hb : (linked m a seg uri).addrs b = some g') :
    ∃ g, m.addrs b = some g ∧ g'.seg = g.seg ∧ g'.impl = g.impl ∧ g'.refcnt = g.refcnt ∧
      g'.dead = g.dead ∧ g'.zombie = g.zombie ∧ (∀ s, g'.qnt s = g.qnt s) ∧
      g'.links.Perm (if b = a then ⟨seg, m.nextElem⟩ :: g.links else g.links) := by
  have hb : (if b = a then (m.addrs b).map fun g => { g with
      links := GlobalAddr.insertLink ⟨seg, m.nextElem⟩ g.links
      linksQnt := g.linksQnt + 1
      qnt := fun s => g.qnt s + 0 } else m.addrs b) = some g' := hb
  split at hb
  · next hba =>
    obtain ⟨g, hg, rfl⟩ := Option.map_eq_some_iff.mp hb
    refine ⟨g, hg, rfl, rfl, rfl, rfl, rfl, fun s => Int.add_zero _, ?_⟩
    rw [if_pos hba]
    exact insertLink_perm _ _
  · next hba =>
    refine ⟨g', hb, rfl, rfl, rfl, rfl, rfl, fun _ => rfl, ?_⟩
    rw [if_neg hba]

theorem linked_stored (a : Addr) (seg : SegId) (uri : ScString) (hb : m.addrs b = some g) :
    ∃ g', (linked m a seg uri).addrs b = some g' := by
  have : (linked m a seg uri).addrs b = if b = a then (m.addrs b).map fun g => { g with
      links := GlobalAddr.insertLink ⟨seg, m.nextElem⟩ g.links
      linksQnt := g.linksQnt + 1
      qnt := fun s => g.qnt s + 0 } else m.addrs b := rfl
  rw [this, hb]
  split
  · exact ⟨_, rfl⟩
  · exact ⟨_, rfl⟩

theorem stores_perm {la : LinkAddr} (hs : g'.seg = g.seg) (hi : g'.impl = g.impl)
    (hl : g'.links.Perm (if b = a then la :: g.links else g.links)) :
    g'.stores.Perm (if b = a then la :: g.stores else g.stores) := by
  rw [GlobalAddr.stores, hs, hi]
  split at hl
  · next hba =>
    rw [if_pos hba]
    exact (hl.cons _).trans (List.Perm.swap _ _ _)
  · next hba =>
    rw [if_neg hba]
    exact hl.cons _

theorem AddrInv.linked (ai : AddrInv h m) (ha : m.addrs a = some g) (seg : SegId)
    (uri : ScString) : AddrInv h (linked m a seg uri) := by
  have ad := adds_linked m a seg uri
  have hold : ∀ {b g₀ st}, m.addrs b = some g₀ → st ∈ g₀.stores →
      st.impl ≠ m.nextElem := fun hb hst => Adds.ne_new ai (ai.stores_addr hb hst)
  exact {
    stores_addr := fun {b g' st} hb hst => by
      obtain ⟨g₀, hg₀, hs, hi, -, -, -, -, hl⟩ := linked_addrs hb
      have hst := (stores_perm hs hi hl).mem_iff.mp hst
      split at hst
      · next hba =>
        subst hba
        rcases List.mem_cons.mp hst with rfl | hst
        · exact ad.addrOf_new
        · rw [ad.addrOf_old (hold hg₀ hst)]
          exact ai.stores_addr hg₀ hst
      · rw [ad.addrOf_old (hold hg₀ hst)]
        exact ai.stores_addr hg₀ hst
    addr_stores := fun {x b} hx => by
      rcases ad.addrOf_some hx with ⟨rfl, hb⟩ | ⟨-, hx⟩
      · obtain rfl : a = b := Option.some.inj hb
        obtain ⟨g', hg'⟩ := linked_stored a seg uri ha
        obtain ⟨g₀, hg₀, hs, hi, -, -, -, -, hl⟩ := linked_addrs hg'
        refine ⟨g', hg', ⟨seg, m.nextElem⟩, (stores_perm hs hi hl).mem_iff.mpr ?_, rfl⟩
        rw [if_pos rfl]
        exact List.mem_cons_self
      · obtain ⟨g₁, hg₁, st, hst, hi'⟩ := ai.addr_stores hx
        obtain ⟨g', hg'⟩ := linked_stored a seg uri hg₁
        obtain ⟨g₀, hg₀, hs, hi, -, -, -, -, hl⟩ := linked_addrs hg'
        obtain rfl : g₁ = g₀ := by simpa [hg₁] using hg₀
        refine ⟨g', hg', st, (stores_perm hs hi hl).mem_iff.mpr ?_, hi'⟩
        split
        · exact List.mem_cons_of_mem _ hst
        · exact hst
    addressed := fun {x el} hx => by
      rw [ad.elems] at hx
      split at hx
      · obtain rfl := Option.some.inj hx
        exact ⟨_, rfl⟩
      · exact ai.addressed hx
    nodup := fun {b g'} hb => by
      obtain ⟨g₀, hg₀, hs, hi, -, -, -, -, hl⟩ := linked_addrs hb
      refine (((stores_perm hs hi hl).map (·.impl)).nodup_iff).mpr ?_
      split
      · rw [List.map_cons, List.nodup_cons]
        refine ⟨fun hmem => ?_, ai.nodup hg₀⟩
        obtain ⟨st, hst, hi⟩ := List.mem_map.mp hmem
        exact hold hg₀ hst hi
      · exact ai.nodup hg₀
    not_zombie := fun {b g'} hb => by
      obtain ⟨g₀, hg₀, -, -, -, -, hz, -⟩ := linked_addrs hb
      exact hz.trans (ai.not_zombie hg₀)
    addr_refs := fun {b g'} hb => by
      obtain ⟨g₀, hg₀, -, -, hr, hd, -⟩ := linked_addrs hb
      rw [hr, hd]
      exact ai.addr_refs hg₀
    addr_held := fun {b g'} hb hd => by
      obtain ⟨g₀, hg₀, -, -, -, hd', -⟩ := linked_addrs hb
      exact ai.addr_held hg₀ (hd' ▸ hd)
    held_addr := fun {b} hb => by
      obtain ⟨g₀, hg₀⟩ := ai.held_addr hb
      exact linked_stored a seg uri hg₀
    elem_lt := fun {x el} hx => by
      rw [ad.elems] at hx
      rw [ad.nextElem]
      split at hx
      · next hn => exact hn ▸ Nat.lt_succ_self _
      · exact Nat.lt_succ_of_lt (ai.elem_lt hx)
    addr_lt := fun {b g'} hb => by
      obtain ⟨g₀, hg₀, -⟩ := linked_addrs hb
      exact ai.addr_lt hg₀ }

theorem Inv.linked (inv : Inv h m) (ha : m.addrs a = some g) (seg : SegId) (uri : ScString) :
    Inv h (linked m a seg uri) ∧ Tallied m (linked m a seg uri) := by
  have ad := adds_linked m a seg uri
  have ai := inv.toAddrInv.linked ha seg uri
  refine ⟨ad.inv inv ai ?_ ?_, ?_⟩
  · intro b g' st s hb hst
    obtain ⟨g₀, hg₀, -, -, -, -, -, -, hl⟩ := linked_addrs hb
    have hst := hl.mem_iff.mp hst
    split at hst
    · rcases List.mem_cons.mp hst with rfl | hst
      · exact target_missing inv.unused
      · exact inv.own hg₀ hst
    · exact inv.own hg₀ hst
  · intro e b he
    obtain ⟨g₁, hg₁, -⟩ := inv.addr_stores he
    obtain ⟨g', hg'⟩ := linked_stored a seg uri hg₁
    obtain ⟨g₀, hg₀, -, -, -, hd, -⟩ := linked_addrs hg'
    obtain rfl : g₁ = g₀ := by simpa [hg₁] using hg₀
    simp [Memory.liveAddr, hg', hg₁, hd]
  · intro R _ c b g' s hb
    obtain ⟨g₀, hg₀, hs, hi, -, -, -, hq, hl⟩ := linked_addrs hb
    have hsum := ((stores_perm hs hi hl).map fun st => m.qnt st.impl s).sum_eq
    simp only [ad.qnt inv.toAddrInv]
    rw [hq, hsum]
    split
    · simpa [qnt_missing inv.unused] using c b g₀ s hg₀
    · exact c b g₀ s hg₀

end Links

end ScCore.Store
