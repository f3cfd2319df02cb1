import ScCore.Store.Run

/-!
# Arcs and the segments of their lists

An arc is attached to the element that stands for its end in the arc's own
segment, so the links of an element sort its arcs by the segments they are
stored in. A memory that is whole has no dangling pointer on its arc lists.
-/

namespace ScCore.Store

open Memory TmpSegment

structure Housed (m : Memory) : Prop where
  away : ∀ {a g st}, m.addrs a = some g → st ∈ g.links → st.seg ≠ g.seg
  arcs : ∀ {x gx b gb st s}, m.addrs x = some gx → m.addrs b = some gb → st ∈ gb.stores →
    m.graph.target gx.impl s = some st.impl → st.seg = gx.seg

variable {h : Holds} {m m' : Memory} {a b x : Addr} {g : GlobalAddr} {ss : Session} {w : Waits}
  {rv : Retval} {s : Endpoint} {fuel : Nat}

namespace Housed

theorem mono (housed : Housed m)
    (addr : ∀ {a g'}, m'.addrs a = some g' → ∃ g, m.addrs a = some g ∧ g'.seg = g.seg ∧
      g'.impl = g.impl ∧ ∀ st ∈ g'.links, st ∈ g.links)
    (target : ∀ {y t e}, m'.graph.target y t = some e → m.graph.target y t = some e) :
    Housed m' where
  away hg hst := by
    obtain ⟨g, hg, hs, -, hl⟩ := addr hg
    rw [hs]
    exact housed.away hg (hl _ hst)
  arcs hx hb hst ht := by
    obtain ⟨gx, hx, hs, hi, -⟩ := addr hx
    obtain ⟨gb, hb, hs', hi', hl⟩ := addr hb
    rw [hs]
    apply housed.arcs hx hb _ (hi ▸ target ht)
    rcases List.mem_cons.mp hst with rfl | hst
    · rw [hs', hi']
      exact List.mem_cons_self
    · exact List.mem_cons_of_mem _ (hl _ hst)

theorem shrinks (housed : Housed m) (sh : Shrinks m m') : Housed m' := by
  apply housed.mono _ sh.target
  intro a g' hg'
  obtain ⟨g, hg, hs, hi, hl, -⟩ := sh.addr hg'
  exact ⟨g, hg, hs, hi, fun st hst => hl ▸ hst⟩

theorem relabels {P : ElemId → Prop} (housed : Housed m) (r : Relabels P m m') : Housed m' := by
  apply housed.mono
  · intro a g' hg'
    exact ⟨g', r.addrs ▸ hg', rfl, rfl, fun _ hst => hst⟩
  · intro y t e ht
    exact r.graph ▸ ht

theorem unlinks {la : LinkAddr} (housed : Housed m) (u : Unlinks a la m m') : Housed m' := by
  apply housed.mono
  · intro b g' hb
    rw [u.addrs] at hb
    split at hb
    · obtain ⟨g, hg, rfl⟩ := Option.map_eq_some_iff.mp hb
      exact ⟨g, hg, rfl, rfl, fun st hst => List.mem_of_mem_erase hst⟩
    · exact ⟨g', hb, rfl, rfl, fun _ hst => hst⟩
  · intro y t e ht
    obtain ⟨el, hel, hend⟩ := stored_of_target ht
    exact (target_stored (u.elems_some hel).2).trans hend

theorem created (housed : Housed m) (inv : Inv h m) (seg : SegId) (t : ScType) :
    Housed (created m seg t) := by
  have ad := adds_created m seg t
  have fresh : ∀ u, m.graph.target m.nextElem u = none := fun u => target_missing inv.unused
  constructor
  · intro a g st hg hst
    rw [created_addrs] at hg
    split at hg
    · cases hg
      cases hst
    · exact housed.away hg hst
  · intro x gx b gb st s hx hb hst ht
    rw [ad.graph inv.toAddrInv] at ht
    rw [created_addrs] at hx hb
    split at hx
    · cases hx
      cases (fresh s).symm.trans ht
    · split at hb
      · cases hb
        obtain rfl := List.mem_singleton.mp hst
        obtain ⟨o, -, ho, -⟩ := inv.target_addr ht
        cases inv.unused.symm.trans ho
      · exact housed.arcs hx hb hst ht

end Housed

theorem findLink_seg {seg : SegId} {link : LinkAddr} (hl : g.findLink seg = some link) :
    link.seg = seg := by
  unfold GlobalAddr.findLink at hl
  split at hl
  · cases hl
  · split at hl
    · next hs =>
      cases hl
      exact hs
    · cases hl

theorem Inv.ensureLinkTo_stores (inv : Inv h m) {seg : SegId} {ll : ElemId}
    (hg : m.addrs a = some g) (hr : Session.ensureLinkTo m seg a = some (m', ll)) :
    (∃ g', m'.addrs a = some g' ∧ ⟨seg, ll⟩ ∈ g'.stores) ∧
      ∀ b g', m'.addrs b = some g' → ∃ g, m.addrs b = some g ∧ g'.seg = g.seg ∧
        g'.impl = g.impl ∧ ∀ st ∈ g'.links, st ∈ g.links ∨
          (st = ⟨seg, ll⟩ ∧ seg ≠ g.seg ∧ m.elems ll = none) := by
  have same : ∀ b g', m.addrs b = some g' → ∃ g, m.addrs b = some g ∧ g'.seg = g.seg ∧
      g'.impl = g.impl ∧ ∀ st ∈ g'.links, st ∈ g.links ∨
        (st = ⟨seg, ll⟩ ∧ seg ≠ g.seg ∧ m.elems ll = none) :=
    fun b g' hb => ⟨g', hb, rfl, rfl, fun _ hst => .inl hst⟩
  simp only [Session.ensureLinkTo, hg, Option.bind_eq_bind, Option.bind_some] at hr
  split at hr
  · next hseg =>
    cases hr
    exact ⟨⟨g, hg, hseg ▸ List.mem_cons_self⟩, same⟩
  · next hseg =>
    split at hr
    · next link hlink =>
      cases hr
      have link_eq : (⟨seg, link.impl⟩ : LinkAddr) = link := by
        rw [← findLink_seg hlink]
      refine ⟨⟨g, hg, List.mem_cons_of_mem _ ?_⟩, same⟩
      rw [link_eq]
      exact findLink_mem hlink
    · obtain ⟨⟨m₁, str⟩, hm₁, hr⟩ := Option.bind_eq_some_iff.mp hr
      have r₁ := (renames_getIdtf hm₁).relabels
      have hg₁ : m₁.addrs a = some g := r₁.addrs ▸ hg
      obtain ⟨rfl, rfl⟩ := Prod.mk.inj (newLink_eq hg₁ hr)
      constructor
      · obtain ⟨g', hg'⟩ := linked_stored a seg ((m₁.segs g.seg).uri ++ [47] ++ str) hg₁
        obtain ⟨g₀, -, -, -, -, -, -, -, perm⟩ := linked_addrs hg'
        rw [if_pos rfl] at perm
        exact ⟨g', hg', List.mem_cons_of_mem _ (perm.mem_iff.mpr List.mem_cons_self)⟩
      · intro b g' hb
        obtain ⟨g₀, hg₀, hs, hi, -, -, -, -, perm⟩ := linked_addrs hb
        refine ⟨g₀, r₁.addrs ▸ hg₀, hs, hi, fun st hst => ?_⟩
        rw [perm.mem_iff] at hst
        split at hst
        · next hba =>
          subst hba
          obtain rfl := Option.some.inj (hg₁.symm.trans hg₀)
          rcases List.mem_cons.mp hst with rfl | hst
          · exact .inr ⟨rfl, Ne.symm hseg, r₁.nextElem ▸ inv.unused⟩
          · exact .inl hst
        · exact .inl hst

namespace Housed

theorem lands {arc : GlobalAddr} (housed : Housed m) (inv : Inv h m) (inv' : Inv h m')
    (hx : m.addrs x = some arc) (ha : m.addrs a = some g) (lands : Lands s arc.impl a arc.seg m
    m') : Housed m' := by
  obtain ⟨m₁, ll, m₂, hm₁, relinks, rfl⟩ := lands.via
  obtain ⟨m₁', ll', hm₁', attached⟩ := lands.ensured
  cases hm₁.symm.trans hm₁'
  obtain ⟨⟨g₁, hg₁, hll⟩, changed⟩ := inv.ensureLinkTo_stores ha hm₁
  have stores : ∀ b g', (addQnt m₂ a s 1).addrs b = some g' → ∃ g, m.addrs b = some g ∧
      g'.seg = g.seg ∧ g'.impl = g.impl ∧ ∀ st ∈ g'.links, st ∈ g.links ∨
        (st = ⟨arc.seg, ll⟩ ∧ arc.seg ≠ g.seg ∧ m.elems ll = none) := by
    intro b g' hb
    obtain ⟨g₂, hg₂, hs, hi, hl, -⟩ := addQnt_addr hb
    obtain ⟨g₀, hg₀, hs₀, hi₀, hl₀⟩ := changed b g₂ (relinks.addrs ▸ hg₂)
    exact ⟨g₀, hg₀, hs.trans hs₀, hi.trans hi₀, fun st hst => hl₀ st (hl ▸ hst)⟩
  constructor
  · intro b g' st hb hst
    obtain ⟨g₀, hg₀, hs, -, hl⟩ := stores b g' hb
    rw [hs]
    rcases hl st hst with old | ⟨rfl, hne, -⟩
    · exact housed.away hg₀ old
    · exact hne
  · intro y gy b gb st t hy hb hst ht
    obtain ⟨gy₀, hy₀, hsy, hiy, -⟩ := stores y gy hy
    rw [hiy] at ht
    by_cases new : gy₀.impl = arc.impl ∧ t = s
    · -- The arc itself: it hangs on the element of its own segment.
      obtain ⟨same, rfl⟩ := new
      have own : ∀ g : GlobalAddr, (⟨g.seg, g.impl⟩ : LinkAddr) ∈ g.stores := fun _ =>
        List.mem_cons_self
      obtain rfl := inv.addr_unique hy₀ hx (own gy₀) (own arc) same
      obtain rfl := Option.some.inj (hx.symm.trans hy₀)
      have impl : st.impl = ll := Option.some.inj (ht.symm.trans attached)
      obtain ⟨g₂, hg₂, stores₂⟩ : ∃ g₂, (addQnt m₂ a t 1).addrs a = some g₂ ∧
          g₂.stores = g₁.stores := by
        refine ⟨g₁.setQnt t (g₁.qnt t + 1), ?_, rfl⟩
        simp [addQnt, relinks.addrs, hg₁]
      have hll₂ : ⟨arc.seg, ll⟩ ∈ g₂.stores := stores₂ ▸ hll
      obtain rfl := inv'.addr_unique hb hg₂ hst hll₂ impl
      cases hb.symm.trans hg₂
      have := List.inj_on_of_nodup_map (inv'.nodup hb) hst hll₂ impl
      rw [this, hsy]
    · rw [lands.frame _ _ new] at ht
      rw [hsy]
      obtain ⟨gb₀, hb₀, hs, hi, hl⟩ := stores b gb hb
      refine housed.arcs hy₀ hb₀ ?_ ht
      rcases List.mem_cons.mp hst with rfl | hst
      · rw [hs, hi]
        exact List.mem_cons_self
      · rcases hl st hst with old | ⟨rfl, -, missing⟩
        · exact List.mem_cons_of_mem _ old
        · obtain ⟨o, -, ho, -⟩ := inv.target_addr ht
          cases missing.symm.trans ho

theorem setStep {arc target : Option Addr} (housed : Housed m) (inv' : Inv h m')
    (step : SetStep h ss w s arc target m m' rv) : Housed m' := by
  cases step with
  | kept same => exact same ▸ housed
  | cleared _ _ _ u => exact housed.shrinks u.forgets.shrinks
  | @attached x t g el m₀ _ _ ready access inv₀ relabels _ _ lands =>
    obtain ⟨gt, hgt, -⟩ := access_ok.mp access
    exact (housed.relabels relabels).lands inv₀ inv' (relabels.addrs ▸ ready.addr)
      (relabels.addrs ▸ hgt) lands

theorem eraseEl (housed : Housed m) (inv : Inv h m) (unheld : ∀ n, h.node n = 0)
    {a : Option Addr} (hr : ss.eraseEl w fuel m a = some (m', rv)) : Housed m' := by
  rcases inv.eraseEl unheld hr with ⟨rfl, -⟩ | ⟨b, -, -, -, er⟩
  · exact housed
  · exact housed.shrinks er.cascade.shrinks

end Housed

theorem closed_housed (ss : Session) (w : Waits) (unheld : ∀ n, h.node n = 0) :
    Closed ss w fun m => Inv h m ∧ Housed m where
  createEl := by
    rintro m m' seg t a rv ⟨inv, housed⟩ hr
    rcases createEl_some hr with ⟨rfl, -⟩ | ⟨t, rfl, -⟩
    · exact ⟨inv, housed⟩
    · exact ⟨(inv.created seg t).1, housed.created inv seg t⟩
  setBeg := by
    rintro m m' arc beg rv ⟨inv, housed⟩ hr
    obtain ⟨sets, -, step⟩ := inv.setBeg unheld hr
    exact ⟨sets.inv, housed.setStep sets.inv step⟩
  setEnd := by
    rintro m m' arc fin rv ⟨inv, housed⟩ hr
    obtain ⟨sets, -, step⟩ := inv.setEnd unheld hr
    exact ⟨sets.inv, housed.setStep sets.inv step⟩
  eraseEl := by
    rintro m m' fuel a rv ⟨inv, housed⟩ hr
    exact ⟨(inv.eraseEl_keeps unheld hr).1, housed.eraseEl inv unheld hr⟩

section Exec

variable {op : Op} {st st' : State}

theorem Housed.exec (inv : StateInv st) (housed : Housed st.memory)
    (hr : op.exec ss w fuel st = some st') : Housed st'.memory := by
  have unheld : ∀ n, (clientHolds st.refs).node n = 0 := fun _ => rfl
  have closed := closed_housed ss w unheld
  have both : Inv (clientHolds st.refs) st.memory ∧ Housed st.memory := ⟨inv, housed⟩
  cases op.ran hr with
  | createEl call => exact (closed.createEl both call).2
  | setBeg call => exact (closed.setBeg both call).2
  | setEnd call => exact (closed.setEnd both call).2
  | changeType call =>
    rcases changeType_some call with rfl | ⟨g, t, ch⟩
    · exact housed
    · refine housed.relabels (P := (· = g.impl)) ?_
      rw [ch.memory]
      exact Relabels.mapElem (P := (· = g.impl)) rfl ⟨fun _ => rfl, fun _ => rfl, fun _ => rfl,
        fun _ => rfl, fun _ => rfl⟩
  | setIdtf call => exact housed.relabels (renames_sessionSetIdtf call).relabels
  | gen3 call => exact (closed.gen3 both call).2
  | gen5 call => exact (closed.gen5 both call).2
  | eraseEl call => exact (closed.eraseEl both call).2
  | eraseLonelyLinkTo call =>
    rcases eraseLonelyLinkTo_some call with rfl | ⟨g, la, el, -, -, -, -, u⟩
    · exact housed
    · exact housed.unlinks u
  | ref call => exact housed.shrinks (inv.ref call).2.2.shrinks
  | unref held call => exact housed.shrinks (inv.unref held call).2.2.shrinks

end Exec

/-- No pointer that is read on the way along a list dangles, lists and ends agree, and every
arc is listed in its own segment. Dead nodes may be on the lists while somebody holds them. -/
structure Whole (m : Memory) : Prop where
  coherent : m.graph.Coherent
  housed : Housed m
  stores_addr : ∀ {a g st}, m.addrs a = some g → st ∈ g.stores → m.addrOf st.impl = some a
  addr_stores : ∀ {e a}, m.addrOf e = some a →
    ∃ g, m.addrs a = some g ∧ ∃ st ∈ g.stores, st.impl = e
  nodup : ∀ {a g}, m.addrs a = some g → (g.stores.map (·.impl)).Nodup
  /-- Only own elements are arcs. -/
  own : ∀ {a g st s}, m.addrs a = some g → st ∈ g.links → m.graph.target st.impl s = none
  node : ∀ {n e s}, n ∈ m.graph.listed e s → ∃ l b g, m.nodes n = some l ∧ 0 < l.refcnt ∧
    m.addrOf l.value = some b ∧ m.addrs b = some g ∧ 0 < g.refcnt ∧
    (l.dead = false → g.dead = false)

theorem Inv.whole (inv : Inv h m) (unheld : ∀ n, h.node n = 0) (housed : Housed m) : Whole m where
  coherent := inv.coherent
  housed := housed
  stores_addr := inv.stores_addr
  addr_stores := inv.addr_stores
  nodup := inv.nodup
  own := inv.own
  node := by
    intro n e s hn
    obtain ⟨l, -, b, hl, hd, -, -, -, hb, live⟩ := inv.arc_of_unheld hn (unheld n)
    obtain ⟨g, hg, hgd⟩ := liveAddr_eq_true.mp live
    have refs := inv.node_refs hl
    have addr_refs := inv.addr_refs hg
    simp only [hd, hgd, Bool.false_eq_true, if_false, refcntBarrier] at refs addr_refs
    exact ⟨l, b, g, hl, by omega, hb, hg, by omega, fun _ => hgd⟩

theorem whole_of_run {uri tmpPrefix : SegId → ScString} {st : State}
    (run : Reaches arcsKeepType (State.initial uri tmpPrefix) st) : Whole st.memory := by
  have both : StateInv st ∧ Housed st.memory := by
    apply run.invariant (P := fun st => StateInv st ∧ Housed st.memory)
    · refine ⟨(StateInv.initial uri tmpPrefix).1, ?_, ?_⟩
      · intro a g st hg
        cases hg
      · intro x gx b gb st s hx
        cases hx
    · rintro ss w fuel op st₁ st₂ ⟨inv, housed⟩ ok hexec
      exact ⟨(inv.exec ok hexec).1, housed.exec inv hexec⟩
  exact Inv.whole both.1 (fun _ => rfl) both.2

end ScCore.Store
