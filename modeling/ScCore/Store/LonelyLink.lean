import ScCore.Store.SetSpec

/-!
# Removing a lonely link

`erase_lonely_link_to` deletes a link on which no arc is listed any more.
-/

namespace ScCore.Store

open Memory TmpSegment

variable {h : Holds} {m m' : Memory} {a : Addr} {g : GlobalAddr} {seg : SegId} {la : LinkAddr}

/-- The link `la` of `a` has been deleted. -/
structure Unlinks (a : Addr) (la : LinkAddr) (m m' : Memory) : Prop where
  elems : ∀ e, m'.elems e = if e = la.impl then none else m.elems e
  nodes : m'.nodes = m.nodes
  addrs : ∀ b, m'.addrs b = if b = a then
    (m.addrs b).map fun g => { g with links := g.links.erase la, linksQnt := g.linksQnt - 1 }
    else m.addrs b
  nextElem : m'.nextElem = m.nextElem
  nextNode : m'.nextNode = m.nextNode
  nextAddr : m'.nextAddr = m.nextAddr

theorem eraseLonelyLinkTo_some (hr : Session.eraseLonelyLinkTo m seg a = some m') :
    m' = m ∨ ∃ g la el, m.addrs a = some g ∧ la ∈ g.links ∧ m.elems la.impl = some el ∧
      el.qnt .fin + el.qnt .beg = 0 ∧ Unlinks a la m m' := by
  simp only [Session.eraseLonelyLinkTo, Option.bind_eq_bind, Option.bind_eq_some_iff] at hr
  obtain ⟨g, hg, hr⟩ := hr
  split at hr
  · exact .inl (Option.some.inj hr).symm
  · split at hr
    · exact .inl (Option.some.inj hr).symm
    · next la hla =>
      obtain ⟨el, hel, hr⟩ := Option.bind_eq_some_iff.mp hr
      split at hr
      · next hq =>
        obtain ⟨m₁, hm₁, hr⟩ := Option.bind_eq_some_iff.mp hr
        refine .inr ⟨g, la, el, hg, findLink_mem hla, hel, hq, ?_⟩
        obtain ⟨m₂, hm₂, he, hn, ha, hne, hnn, hna, -⟩ := eraseEl_stored hel seg
        obtain rfl := Option.some.inj (hm₂.symm.trans hm₁)
        rw [GlobalAddr.removeLink, modifyAddr_eq (g := g) (by rw [ha, hg])] at hr
        obtain rfl := Option.some.inj hr
        exact ⟨he, hn, fun b => by rw [mapAddr_addrs, ha], hne, hnn, hna⟩
      · exact .inl (Option.some.inj hr).symm

namespace Unlinks

variable (u : Unlinks a la m m') (hg : m.addrs a = some g) (hla : la ∈ g.links)
include u

variable {e : ElemId} {b : Addr} {g' g₁ : GlobalAddr}

theorem elems_some {el : Element} (he : m'.elems e = some el) :
    e ≠ la.impl ∧ m.elems e = some el := by
  rw [u.elems] at he
  split at he
  · cases he
  · next hne => exact ⟨hne, he⟩

theorem label_old (he : e ≠ la.impl) : m'.label e = m.label e := by
  rw [Memory.label, Memory.label, u.elems, if_neg he]

theorem addrOf_some (he : m'.addrOf e = some b) : e ≠ la.impl ∧ m.addrOf e = some b := by
  obtain ⟨el, hel, hb⟩ := stored_of_addrOf he
  obtain ⟨hne, hel⟩ := u.elems_some hel
  exact ⟨hne, (addrOf_stored hel).trans hb⟩

theorem addrs_some (hb : m'.addrs b = some g') :
    ∃ g, m.addrs b = some g ∧ g'.seg = g.seg ∧ g'.impl = g.impl ∧ g'.refcnt = g.refcnt ∧
      g'.dead = g.dead ∧ g'.zombie = g.zombie ∧ g'.qnt = g.qnt ∧
      g'.links = if b = a then g.links.erase la else g.links := by
  rw [u.addrs] at hb
  split at hb
  · next hba =>
    obtain ⟨g, hg, rfl⟩ := Option.map_eq_some_iff.mp hb
    exact ⟨g, hg, rfl, rfl, rfl, rfl, rfl, rfl, by rw [if_pos hba]⟩
  · next hba => exact ⟨g', hb, rfl, rfl, rfl, rfl, rfl, rfl, by rw [if_neg hba]⟩

theorem addrs_stored {g : GlobalAddr} (hb : m.addrs b = some g) : ∃ g', m'.addrs b = some g' := by
  rw [u.addrs, hb]
  split <;> exact ⟨_, rfl⟩

theorem liveAddr (b : Addr) : m'.liveAddr b = m.liveAddr b := by
  rw [Memory.liveAddr, Memory.liveAddr, u.addrs]
  by_cases hb : b = a
  · subst hb
    cases hg : m.addrs b <;> simp
  · rw [if_neg hb]

include hg hla

theorem stores_perm (hb : m.addrs b = some g₁) (hb' : m'.addrs b = some g') :
    g₁.stores.Perm (if b = a then la :: g'.stores else g'.stores) := by
  obtain ⟨g₀, hg₀, hs, hi, -, -, -, -, hl⟩ := u.addrs_some hb'
  obtain rfl := Option.some.inj (hb.symm.trans hg₀)
  rw [GlobalAddr.stores, GlobalAddr.stores, hs, hi, hl]
  split
  · next hba =>
    subst hba
    obtain rfl := Option.some.inj (hb.symm.trans hg)
    exact ((List.perm_cons_erase hla).cons _).trans (List.Perm.swap _ _ _)
  · exact List.Perm.refl _

theorem mem_stores (ai : AddrInv h m) (hb : m.addrs b = some g₁) (hb' : m'.addrs b = some g')
    {st : LinkAddr} (hst : st ∈ g'.stores) : st ∈ g₁.stores ∧ st.impl ≠ la.impl := by
  have hperm := u.stores_perm hg hla hb hb'
  have hmem : st ∈ g₁.stores := by
    refine hperm.mem_iff.mpr ?_
    split
    · exact List.mem_cons_of_mem _ hst
    · exact hst
  refine ⟨hmem, fun hi => ?_⟩
  have hba : b = a := ai.addr_unique hb hg hmem (List.mem_cons_of_mem _ hla) hi
  rw [if_pos hba] at hperm
  have hnodup := (hperm.map (·.impl)).nodup_iff.mp (ai.nodup hb)
  exact (List.nodup_cons.mp hnodup).1 (List.mem_map.mpr ⟨st, hst, hi⟩)

theorem addrInv (ai : AddrInv h m) : AddrInv h m' where
  stores_addr := by
    intro b g' st hb hst
    obtain ⟨g₁, hg₁, -⟩ := u.addrs_some hb
    obtain ⟨hmem, hne⟩ := u.mem_stores hg hla ai hg₁ hb hst
    rw [addrOf_congr (u.label_old hne)]
    exact ai.stores_addr hg₁ hmem
  addr_stores := by
    intro e b he
    obtain ⟨hne, he⟩ := u.addrOf_some he
    obtain ⟨g₁, hg₁, st, hst, rfl⟩ := ai.addr_stores he
    obtain ⟨g', hg'⟩ := u.addrs_stored hg₁
    refine ⟨g', hg', st, ?_, rfl⟩
    have hmem := (u.stores_perm hg hla hg₁ hg').mem_iff.mp hst
    split at hmem
    · refine (List.mem_cons.mp hmem).resolve_left ?_
      rintro rfl
      exact hne rfl
    · exact hmem
  addressed he := ai.addressed (u.elems_some he).2
  nodup := by
    intro b g' hb
    obtain ⟨g₁, hg₁, -⟩ := u.addrs_some hb
    have hnodup := ((u.stores_perm hg hla hg₁ hb).map (·.impl)).nodup_iff.mp (ai.nodup hg₁)
    split at hnodup
    · exact (List.nodup_cons.mp hnodup).2
    · exact hnodup
  not_zombie hb := by
    obtain ⟨g₁, hg₁, -, -, -, -, hz, -⟩ := u.addrs_some hb
    exact hz.trans (ai.not_zombie hg₁)
  addr_refs hb := by
    obtain ⟨g₁, hg₁, -, -, hr, hd, -⟩ := u.addrs_some hb
    rw [hr, hd]
    exact ai.addr_refs hg₁
  addr_held hb hd := by
    obtain ⟨g₁, hg₁, -, -, -, hd', -⟩ := u.addrs_some hb
    exact ai.addr_held hg₁ (hd' ▸ hd)
  held_addr hb := by
    obtain ⟨g₁, hg₁⟩ := ai.held_addr hb
    exact u.addrs_stored hg₁
  elem_lt he := u.nextElem ▸ ai.elem_lt (u.elems_some he).2
  addr_lt hb := by
    obtain ⟨g₁, hg₁, -⟩ := u.addrs_some hb
    exact u.nextAddr ▸ ai.addr_lt hg₁

variable (bare : ∀ s, m.graph.listed la.impl s = [])
include bare

theorem graph (inv : Inv h m) : m'.graph = m.graph := by
  have htarget : ∀ s, m.graph.target la.impl s = none := fun _ => inv.own hg hla
  have hnone : m'.elems la.impl = none := by rw [u.elems, if_pos rfl]
  refine AdjacencyLists.ext (fun e s => ?_) (fun n => ?_) (fun e s => ?_) fun e s => ?_
  · by_cases he : e = la.impl
    · rw [he, listed_missing hnone, bare]
    · show ((m'.elems e).map _).getD _ = ((m.elems e).map _).getD _
      rw [u.elems, if_neg he]
  · show (m'.nodes n).bind _ = (m.nodes n).bind _
    rw [u.nodes]
  · by_cases he : e = la.impl
    · rw [he, target_missing hnone, htarget]
    · show (m'.elems e).bind _ = (m.elems e).bind _
      rw [u.elems, if_neg he]
  · by_cases he : e = la.impl
    · rw [he, back_missing hnone, inv.coherent.back_none (htarget s)]
    · show (m'.elems e).bind _ = (m.elems e).bind _
      rw [u.elems, if_neg he]

omit hg hla in
theorem qnt (inv : Inv h m) (e : ElemId) (s : Endpoint) : m'.qnt e s = m.qnt e s := by
  by_cases he : e = la.impl
  · rw [he, qnt_missing (by rw [u.elems, if_pos rfl]), inv.qnt_eq, AdjacencyLists.arcs, bare]
    rfl
  · rw [Memory.qnt, Memory.qnt, u.elems, if_neg he]

theorem inv (inv : Inv h m) : Inv h m' ∧ Tallied m m' := by
  have hgraph := u.graph hg hla bare inv
  have ai := u.addrInv hg hla inv.toAddrInv
  constructor
  · exact {
      toGraphInv := inv.toGraphInv.congr hgraph (u.qnt bare inv) u.nodes u.nextNode
      toAddrInv := ai
      own := fun {b g' st s} hb hst => by
        rw [hgraph]
        obtain ⟨g₁, hg₁, -, -, -, -, -, -, hl⟩ := u.addrs_some hb
        refine inv.own hg₁ ?_
        rw [hl] at hst
        split at hst
        · exact List.mem_of_mem_erase hst
        · exact hst
      typed := fun {x s e l} ht hl => by
        rw [hgraph] at ht
        have hne : x ≠ la.impl := by
          rintro rfl
          rw [inv.own hg hla] at ht
          cases ht
        exact inv.typed ht ((u.label_old hne).symm.trans hl)
      dead_free := fun {e b} s he hd => by
        rw [hgraph]
        exact inv.dead_free s (u.addrOf_some he).2 (u.liveAddr b ▸ hd)
      held_detached := fun {n e s b x t} hh hn he hx => by
        rw [hgraph] at hn ⊢
        exact inv.held_detached hh hn (u.addrOf_some he).2 (u.addrOf_some hx).2 }
  · intro R _ c b g' s hb
    obtain ⟨g₁, hg₁, -, -, -, -, -, hq, -⟩ := u.addrs_some hb
    simp only [u.qnt bare inv]
    have hsum := ((u.stores_perm hg hla hg₁ hb).map fun st => m.qnt st.impl s).sum_eq
    have tally := c b g₁ s hg₁
    rw [hsum] at tally
    rw [hq]
    split at tally
    · have hzero : m.qnt la.impl s = 0 := by
        rw [inv.qnt_eq, AdjacencyLists.arcs, bare]
        rfl
      simpa [hzero] using tally
    · exact tally

end Unlinks

theorem Inv.eraseLonelyLinkTo (inv : Inv h m) (unheld : ∀ n, h.node n = 0)
    (hr : Session.eraseLonelyLinkTo m seg a = some m') : Inv h m' ∧ Tallied m m' := by
  rcases eraseLonelyLinkTo_some hr with rfl | ⟨g, la, el, hg, hla, hel, hq, u⟩
  · exact ⟨inv, Tallied.refl m'⟩
  · refine u.inv hg hla (fun s => ?_) inv
    -- Both counters are lengths, so a sum of zero means that nothing is listed.
    have hlen : (m.graph.arcs la.impl s).length = 0 := by
      have hf := inv.qnt_eq la.impl .fin
      have hb := inv.qnt_eq la.impl .beg
      rw [qnt_stored hel] at hf hb
      cases s <;> omega
    cases hlist : m.graph.listed la.impl s with
    | nil => rfl
    | cons n post =>
      obtain ⟨l, x, v, -, -, -, -, harc, -⟩ :=
        inv.arc_of_unheld (s := s) (hlist ▸ List.mem_cons_self) (unheld n)
      have hmem : l.value ∈ m.graph.arcs la.impl s :=
        AdjacencyLists.mem_arcs.mpr ⟨n, hlist ▸ List.mem_cons_self, harc⟩
      simp [List.eq_nil_of_length_eq_zero hlen] at hmem

end ScCore.Store
