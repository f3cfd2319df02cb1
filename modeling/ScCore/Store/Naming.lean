import ScCore.Store.IdtfIndex
import ScCore.Store.Run

/-!
# Links name their element

A link holds a copy of the full uri of the element it stands for, made when the
link is created. It is renewed by `set_idtf`. Taking an identifier away leaves
it behind, and the next `get_idtf` makes up another name.
-/

namespace ScCore.Store

open Memory TmpSegment Relation

def LinksNamed (m : Memory) : Prop :=
  ∀ a g, m.addrs a = some g → g.dead = false → ∀ st ∈ g.links, ∀ own link,
    m.label g.impl = some own → m.label st.impl = some link →
    own.missingIdtf = false ∧ link.idtf = (m.segs g.seg).uri ++ [47] ++ own.idtf

structure CarriesNames (m m' : Memory) : Prop where
  uri : ∀ j, (m'.segs j).uri = (m.segs j).uri
  addr : ∀ {a g'}, m'.addrs a = some g' → g'.dead = false → g'.links = [] ∨
    ∃ g, m.addrs a = some g ∧ g.dead = false ∧ g'.seg = g.seg ∧ g'.impl = g.impl ∧
      g'.links = g.links
  label : ∀ {a g}, m.addrs a = some g → m'.liveAddr a = true → ∀ st ∈ g.stores, ∀ l',
    m'.label st.impl = some l' → ∃ l, m.label st.impl = some l ∧ l'.idtf = l.idtf ∧
      l'.missingIdtf = l.missingIdtf

variable {h : Holds} {m m' : Memory} {a : Addr} {g : GlobalAddr} {ss : Session} {w : Waits}
  {rv : Retval} {s : Endpoint}

theorem LinksNamed.carried (named : LinksNamed m) (c : CarriesNames m m') : LinksNamed m' := by
  intro a g' hg' hd' st hst own link hown hlink
  rcases c.addr hg' hd' with hnil | ⟨g, hg, hd, hseg, himpl, hlinks⟩
  · rw [hnil] at hst
    cases hst
  · have hlive : m'.liveAddr a = true := liveAddr_eq_true.mpr ⟨g', hg', hd'⟩
    rw [hlinks] at hst
    rw [himpl] at hown
    obtain ⟨own₀, hown₀, hi, hm⟩ :=
      c.label hg hlive ⟨g.seg, g.impl⟩ List.mem_cons_self own hown
    obtain ⟨link₀, hlink₀, hli, -⟩ :=
      c.label hg hlive st (List.mem_cons_of_mem _ hst) link hlink
    obtain ⟨hmiss, hname⟩ := named _ _ hg hd st hst own₀ link₀ hown₀ hlink₀
    refine ⟨hm.trans hmiss, ?_⟩
    rw [hli, hname, hi, hseg, c.uri]

/-! ## Operations that carry names along -/

theorem Cascade.carriesNames {K : Addr → Prop} (c : Cascade K m m') (inv : Inv h m) :
    CarriesNames m m' where
  uri := c.shrinks.uri
  addr hg' hd' := by
    obtain ⟨g, hg, hseg, himpl, hlinks, hd⟩ := c.shrinks.addr hg'
    exact .inr ⟨g, hg, hd hd', hseg, himpl, hlinks⟩
  label {a g} hg hlive st hst l' hl' := by
    have same := (c.keeps a hlive st.impl (inv.stores_addr hg hst)).1
    exact ⟨l', same.symm.trans hl', rfl, rfl⟩

theorem Forgets.carriesNames (f : Forgets a m m') : CarriesNames m m' where
  uri := f.shrinks.uri
  addr hg' hd' := by
    obtain ⟨g, hg, hseg, himpl, hlinks, hd⟩ := f.shrinks.addr hg'
    exact .inr ⟨g, hg, hd hd', hseg, himpl, hlinks⟩
  label _ _ st _ l' hl' := ⟨l', (f.label st.impl).symm.trans hl', rfl, rfl⟩

theorem Relinks.carriesNames (r : Relinks m m') : CarriesNames m m' where
  uri j := by rw [r.segs]
  addr hg' hd' := .inr ⟨_, r.addrs ▸ hg', hd', rfl, rfl, rfl⟩
  label _ _ st _ l' hl' := ⟨l', (r.label st.impl).symm.trans hl', rfl, rfl⟩

theorem carriesNames_addQnt (b : Addr) (d : Int) : CarriesNames m (addQnt m b s d) where
  uri _ := rfl
  addr hg' hd' := by
    obtain ⟨g, hg, hseg, himpl, hlinks, -, hd, -⟩ := addQnt_addr hg'
    exact .inr ⟨g, hg, hd ▸ hd', hseg, himpl, hlinks⟩
  label _ _ _ _ l' hl' := ⟨l', hl', rfl, rfl⟩

theorem carriesNames_created (inv : Inv h m) (seg : SegId) (t : ScType) :
    CarriesNames m (created m seg t) where
  uri := (adds_created m seg t).uri
  addr hg' hd' := by
    rw [created_addrs] at hg'
    split at hg'
    · obtain rfl := Option.some.inj hg'
      exact .inl rfl
    · exact .inr ⟨_, hg', hd', rfl, rfl, rfl⟩
  label hg _ st hst l' hl' := by
    have hne := Adds.ne_new inv.toAddrInv (inv.stores_addr hg hst)
    exact ⟨l', ((adds_created m seg t).label_old hne).symm.trans hl', rfl, rfl⟩

theorem carriesNames_changeType {type : ScType}
    (hr : ss.changeType w m a type = some (m', rv)) : CarriesNames m m' := by
  have refl : CarriesNames m m :=
    ⟨fun _ => rfl, fun hg hd => .inr ⟨_, hg, hd, rfl, rfl, rfl⟩, fun _ _ _ _ l' hl' =>
      ⟨l', hl', rfl, rfl⟩⟩
  rcases changeType_some hr with rfl | ⟨g, t, ch⟩
  · exact refl
  · rw [ch.memory]
    refine ⟨fun _ => rfl, fun hg hd => .inr ⟨_, hg, hd, rfl, rfl, rfl⟩, ?_⟩
    intro a g' hg _ st hst l' hl'
    rw [Memory.label, mapElem_elems] at hl'
    split at hl'
    · obtain ⟨el, hel, rfl⟩ := Option.map_eq_some_iff.mp hl'
      obtain ⟨el₀, hel₀, rfl⟩ := Option.map_eq_some_iff.mp hel
      exact ⟨el₀.label, label_stored hel₀, rfl, rfl⟩
    · exact ⟨l', hl', rfl, rfl⟩

/-! ## Operations on names -/

theorem LinksNamed.relabeled {e : ElemId} (named : LinksNamed m) (r : Relabels (· = e) m m')
    (inv : Inv h m) (ha : m.addrOf e = some a)
    (self : ∀ g, m.addrs a = some g → g.dead = false → ∀ st ∈ g.links, ∀ own link,
      m'.label g.impl = some own → m'.label st.impl = some link →
      own.missingIdtf = false ∧ link.idtf = (m.segs g.seg).uri ++ [47] ++ own.idtf) :
    LinksNamed m' := by
  intro b g hg hd st hst own link hown hlink
  rw [r.addrs] at hg
  rw [r.uri]
  by_cases hb : b = a
  · subst hb
    exact self g hg hd st hst own link hown hlink
  · have other : ∀ st' ∈ g.stores, st'.impl ≠ e := by
      intro st' hst' he
      exact hb (Option.some.inj ((inv.stores_addr hg hst').symm.trans (he ▸ ha)))
    rw [r.label _ (other ⟨g.seg, g.impl⟩ List.mem_cons_self)] at hown
    rw [r.label _ (other st (List.mem_cons_of_mem _ hst))] at hlink
    exact named _ _ hg hd st hst own link hown hlink

theorem Inv.linked_label (inv : Inv h m) (hg : m.addrs a = some g) {st : LinkAddr}
    (hst : st ∈ g.links) : ∃ own link, m.label g.impl = some own ∧ m.label st.impl = some link := by
  obtain ⟨own, hown, -⟩ := inv.own_stored hg
  obtain ⟨link, hlink, -⟩ := inv.stored hg (List.mem_cons_of_mem _ hst)
  exact ⟨_, _, label_stored hown, label_stored hlink⟩

theorem LinksNamed.getIdtf {str : ScString} (named : LinksNamed m) (inv : Inv h m)
    (hg : m.addrs a = some g) (hd : g.dead = false)
    (hr : TmpSegment.getIdtf m g.seg g.impl = some (m', str)) :
    LinksNamed m' ∧ ∃ own, m'.label g.impl = some own ∧ own.missingIdtf = false ∧
      own.idtf = str := by
  obtain ⟨el, hel, hela⟩ := inv.own_stored hg
  have r := renames_getIdtf hr
  simp only [TmpSegment.getIdtf, hel, Option.bind_eq_bind, Option.bind_some] at hr
  cases hidtf : el.hasIdtf with
  | true =>
    simp only [hidtf, if_true, Option.some.injEq, Prod.mk.injEq] at hr
    obtain ⟨rfl, rfl⟩ := hr
    exact ⟨named, el.label, label_stored hel, by simpa [Element.hasIdtf, Element.label] using
      hidtf, rfl⟩
  | false =>
    have hnone : g.links = [] := by
      rw [List.eq_nil_iff_forall_not_mem]
      intro st hst
      obtain ⟨own, link, hown, hlink⟩ := inv.linked_label hg hst
      obtain rfl := Option.some.inj ((label_stored hel).symm.trans hown)
      have hmiss := (named _ _ hg hd st hst _ link hown hlink).1
      simp [Element.hasIdtf, Element.label] at hidtf hmiss
      rw [hmiss] at hidtf
      cases hidtf
    simp only [hidtf, Bool.false_eq_true, if_false, Option.bind_eq_some_iff, Option.some.injEq,
      Prod.mk.injEq] at hr
    obtain ⟨m₁, hm₁, el₁, hel₁, rfl, rfl⟩ := hr
    refine ⟨named.relabeled r.relabels inv ((addrOf_stored hel).trans hela) ?_, ?_⟩
    · intro g' hg' _ st hst
      obtain rfl := Option.some.inj (hg.symm.trans hg')
      rw [hnone] at hst
      cases hst
    · obtain ⟨s, -, ed⟩ := generateIdtf_edits hel hidtf hm₁
      rw [ed.elems, if_pos rfl] at hel₁
      obtain rfl := Option.some.inj hel₁
      exact ⟨_, label_stored ((ed.elems _).trans (if_pos rfl)), rfl, rfl⟩

variable {seg : SegId} {idtf : ScString}

theorem LinksNamed.ensureLinkTo {ll : ElemId} (named : LinksNamed m) (inv : Inv h m)
    (hg : m.addrs a = some g) (hd : g.dead = false)
    (hr : Session.ensureLinkTo m seg a = some (m', ll)) : LinksNamed m' := by
  simp only [Session.ensureLinkTo, hg, Option.bind_eq_bind, Option.bind_some] at hr
  split at hr
  · obtain ⟨rfl, -⟩ := Prod.mk.inj (Option.some.inj hr)
    exact named
  · split at hr
    · obtain ⟨rfl, -⟩ := Prod.mk.inj (Option.some.inj hr)
      exact named
    · obtain ⟨⟨m₁, str⟩, hm₁, hr⟩ := Option.bind_eq_some_iff.mp hr
      obtain ⟨named₁, own₁, hown₁, hmiss₁, hstr⟩ := named.getIdtf inv hg hd hm₁
      have r₁ := renames_getIdtf hm₁
      have inv₁ := r₁.inv inv
      have hg₁ : m₁.addrs a = some g := r₁.relabels.addrs ▸ hg
      obtain ⟨rfl, rfl⟩ := Prod.mk.inj (newLink_eq hg₁ hr)
      have ad := adds_linked m₁ a seg ((m₁.segs g.seg).uri ++ [47] ++ str)
      intro b g' hg' hd' st hst own link hown hlink
      obtain ⟨g₀, hg₀, hseg, himpl, -, hdead, -, -, hlinks⟩ := linked_addrs hg'
      have old : ∀ st' ∈ g₀.stores, st'.impl ≠ m₁.nextElem := fun st' hst' =>
        Adds.ne_new inv₁.toAddrInv (inv₁.stores_addr hg₀ hst')
      rw [himpl, ad.label_old (old ⟨g₀.seg, g₀.impl⟩ List.mem_cons_self)] at hown
      rw [ad.uri, hseg]
      have hmem := hlinks.mem_iff.mp hst
      have kept : st ∈ g₀.links → own.missingIdtf = false ∧
          link.idtf = (m₁.segs g₀.seg).uri ++ [47] ++ own.idtf := by
        intro hold
        rw [ad.label_old (old st (List.mem_cons_of_mem _ hold))] at hlink
        exact named₁ _ _ hg₀ (hdead ▸ hd') st hold own link hown hlink
      split at hmem
      · next hb =>
        subst hb
        obtain rfl := Option.some.inj (hg₁.symm.trans hg₀)
        rcases List.mem_cons.mp hmem with rfl | hold
        · have hnew : (linked m₁ b seg ((m₁.segs g.seg).uri ++ [47] ++ str)).elems m₁.nextElem =
              _ := (ad.elems _).trans (if_pos rfl)
          rw [label_stored hnew] at hlink
          obtain rfl := Option.some.inj hlink
          obtain rfl := Option.some.inj (hown₁.symm.trans hown)
          exact ⟨hmiss₁, by rw [hstr]; rfl⟩
        · exact kept hold
      · exact kept hmem

theorem setIdtf_label {e : ElemId} {el : Element} (hel : m.elems e = some el) (hne : idtf ≠ [])
    (hr : TmpSegment.setIdtf m seg e idtf = some (m', rvOk)) :
    ∃ own, m'.label e = some own ∧ own.missingIdtf = false ∧ own.idtf = idtf := by
  obtain ⟨rfl, -, hidtf, hsame⟩ | ⟨-, hrv, -⟩ | ⟨-, -, ed⟩ := setIdtf_cases hel hne hr
  · refine ⟨el.label, label_stored hel, ?_, hsame⟩
    simpa [Element.hasIdtf, Element.label] using hidtf
  · exact absurd hrv (by decide)
  · exact ⟨_, label_stored ((ed.elems _).trans (if_pos rfl)), rfl, rfl⟩

theorem retargetLinks_label {target : ScString} (l : List LinkAddr) :
    ∀ {m : Memory}, Session.retargetLinks m target l = some m' →
      m'.addrs = m.addrs ∧ (∀ j, (m'.segs j).uri = (m.segs j).uri) ∧
      ∀ e, m'.label e = if e ∈ l.map (·.impl) then
        (m.label e).map fun lb => { lb with idtf := target } else m.label e := by
  induction l with
  | nil =>
    intro m hm
    obtain rfl := Option.some.inj hm
    exact ⟨rfl, fun _ => rfl, fun e => (if_neg List.not_mem_nil).symm⟩
  | cons st l ih =>
    intro m hm
    obtain ⟨m₁, hm₁, hm⟩ := Option.bind_eq_some_iff.mp hm
    obtain ⟨-, rfl⟩ := modifyElem_some hm₁
    obtain ⟨haddrs, huri, hlabel⟩ := ih hm
    refine ⟨haddrs, huri, fun e => ?_⟩
    rw [hlabel e]
    have hone : (m.mapElem st.impl fun el => { el with idtf := target }).label e =
        if e = st.impl then (m.label e).map fun lb => { lb with idtf := target }
        else m.label e := by
      by_cases he : e = st.impl
      · cases hel : m.elems e <;> simp [Memory.label, he, he ▸ hel, Element.label]
      · simp [Memory.label, he]
    rw [hone, List.map_cons]
    by_cases he : e = st.impl <;> by_cases hl : e ∈ l.map (·.impl)
    · cases m.label e <;> simp [he]
    · simp [he, he ▸ hl]
    · rw [if_pos hl, if_neg he, if_pos (List.mem_cons_of_mem _ hl)]
    · rw [if_neg hl, if_neg he, if_neg]
      simpa [he] using hl

theorem LinksNamed.setIdtf (named : LinksNamed m) (inv : Inv h m)
    (ok : idtf = [] → ∀ g, ss.access m (some a) = some rvOk → m.addrs a = some g → g.links = [])
    (hr : ss.setIdtf m a idtf = some (m', rv)) : LinksNamed m' := by
  simp only [Session.setIdtf, Option.bind_eq_bind, Option.bind_eq_some_iff] at hr
  obtain ⟨rv₀, haccess, hr⟩ := hr
  split at hr
  · obtain ⟨rfl, -⟩ := Prod.mk.inj (Option.some.inj hr)
    exact named
  · next hrv₀ =>
    obtain rfl : rv₀ = rvOk := by simpa using hrv₀
    obtain ⟨g, hg, hr⟩ := Option.bind_eq_some_iff.mp hr
    obtain ⟨⟨m₁, rv₁⟩, hm₁, hr⟩ := Option.bind_eq_some_iff.mp hr
    dsimp only at hr
    split at hr
    · next hrv₁ =>
      obtain ⟨rfl, -⟩ := Prod.mk.inj (Option.some.inj hr)
      exact setIdtf_refused hm₁ hrv₁ ▸ named
    · next hrv₁ =>
      obtain rfl : rv₁ = rvOk := by simpa using hrv₁
      obtain ⟨m₂, hm₂, hr⟩ := Option.bind_eq_some_iff.mp hr
      obtain ⟨rfl, -⟩ := Prod.mk.inj (Option.some.inj hr)
      obtain ⟨el, hel, hela⟩ := inv.own_stored hg
      have r₁ := renames_setIdtf hm₁
      obtain ⟨haddrs, huri, hlabel⟩ := retargetLinks_label g.links hm₂
      have huri₂ : ∀ j, (m₂.segs j).uri = (m.segs j).uri := fun j =>
        (huri j).trans (r₁.relabels.uri j)
      intro b g' hg' hd' st hst own link hown hlink
      rw [haddrs, r₁.relabels.addrs] at hg'
      rw [huri₂]
      by_cases hb : b = a
      · subst hb
        obtain rfl := Option.some.inj (hg.symm.trans hg')
        have hne : idtf ≠ [] := by
          rintro rfl
          rw [ok rfl g haccess hg] at hst
          cases hst
        have hnot : g.impl ∉ g.links.map (·.impl) := (List.nodup_cons.mp (inv.nodup hg)).1
        obtain ⟨own₁, hown₁, hmiss, hidtf⟩ := setIdtf_label hel hne hm₁
        rw [hlabel, if_neg hnot] at hown
        obtain rfl := Option.some.inj (hown₁.symm.trans hown)
        rw [hlabel, if_pos (List.mem_map_of_mem hst)] at hlink
        obtain ⟨link₀, -, rfl⟩ := Option.map_eq_some_iff.mp hlink
        refine ⟨hmiss, ?_⟩
        rw [hidtf, ← r₁.relabels.uri]
      · have same : ∀ st' ∈ g'.stores, m₂.label st'.impl = m.label st'.impl := by
          intro st' hst'
          have haddr := inv.stores_addr hg' hst'
          have other : ∀ st'' ∈ g.stores, st'.impl ≠ st''.impl := fun st'' hst'' hi =>
            hb (inv.addr_unique hg' hg hst' hst'' hi)
          rw [hlabel, if_neg, r₁.relabels.label _ (other ⟨g.seg, g.impl⟩ List.mem_cons_self)]
          intro hmem
          obtain ⟨st'', hst'', hi⟩ := List.mem_map.mp hmem
          exact other st'' (List.mem_cons_of_mem _ hst'') hi.symm
        rw [same ⟨g'.seg, g'.impl⟩ List.mem_cons_self] at hown
        rw [same st (List.mem_cons_of_mem _ hst)] at hlink
        exact named _ _ hg' hd' st hst own link hown hlink

theorem LinksNamed.lands {arc : ElemId} (named : LinksNamed m) (inv : Inv h m)
    (hg : m.addrs a = some g) (hd : g.dead = false) (lands : Lands s arc a seg m m') :
    LinksNamed m' := by
  obtain ⟨⟨m₁, ll, m₂, hm₁, r, rfl⟩, -⟩ := lands
  exact ((named.ensureLinkTo inv hg hd hm₁).carried r.carriesNames).carried
    (carriesNames_addQnt a 1)

theorem LinksNamed.setStep {arc target : Option Addr} (named : LinksNamed m)
    (step : SetStep h ss w s arc target m m' rv) : LinksNamed m' := by
  cases step with
  | kept same => exact same ▸ named
  | cleared _ _ _ u => exact named.carried u.forgets.carriesNames
  | @attached x t g el m₀ _ _ ready access inv relabels begs ends lands =>
    have named₀ : LinksNamed m₀ := by
      cases s with
      | fin => exact ends rfl ▸ named
      | beg =>
        obtain ⟨gt, et, -, -, -, ⟨-, rfl⟩ | ⟨-, rv, hm₀⟩⟩ := begs rfl
        · exact named
        · exact named.carried (carriesNames_changeType hm₀)
    obtain ⟨gt, hgt, hdt, -⟩ := access_ok.mp access
    exact named₀.lands inv (relabels.addrs ▸ hgt) hdt lands

theorem LinksNamed.eraseIdtf (named : LinksNamed m) (inv : Inv h m)
    (ok : ∀ g, ss.access m (some a) = some rvOk → m.addrs a = some g → g.links = [])
    (hr : ss.eraseIdtf m a = some (m', rv)) : LinksNamed m' ∧ Inv h m' := by
  simp only [Session.eraseIdtf, Option.bind_eq_bind, Option.bind_eq_some_iff] at hr
  obtain ⟨rv₀, haccess, hr⟩ := hr
  split at hr
  · obtain ⟨rfl, -⟩ := Prod.mk.inj (Option.some.inj hr)
    exact ⟨named, inv⟩
  · next hrv₀ =>
    obtain rfl : rv₀ = rvOk := by simpa using hrv₀
    obtain ⟨g, hg, hr⟩ := Option.bind_eq_some_iff.mp hr
    obtain ⟨m₁, hm₁, hr⟩ := Option.bind_eq_some_iff.mp hr
    obtain ⟨rfl, -⟩ := Prod.mk.inj (Option.some.inj hr)
    obtain ⟨el, hel, hela⟩ := inv.own_stored hg
    obtain ⟨m₂, hm₂, r⟩ := renames_eraseIdtf g.seg hel
    obtain rfl := Option.some.inj (hm₂.symm.trans hm₁)
    refine ⟨named.relabeled r.relabels inv ((addrOf_stored hel).trans hela) ?_, r.inv inv⟩
    intro g' hg' _ st hst
    obtain rfl := Option.some.inj (hg.symm.trans hg')
    rw [ok g haccess hg] at hst
    cases hst

theorem LinksNamed.sessionGetIdtf {str : ScString} (named : LinksNamed m) (inv : Inv h m)
    (hr : ss.getIdtf m a = some (m', str)) : LinksNamed m' ∧ Inv h m' := by
  simp only [Session.getIdtf, Option.bind_eq_bind, Option.bind_eq_some_iff] at hr
  obtain ⟨rv₀, haccess, hr⟩ := hr
  split at hr
  · obtain ⟨rfl, -⟩ := Prod.mk.inj (Option.some.inj hr)
    exact ⟨named, inv⟩
  · next hrv₀ =>
    obtain rfl : rv₀ = rvOk := by simpa using hrv₀
    obtain ⟨g, hg, hr⟩ := Option.bind_eq_some_iff.mp hr
    obtain ⟨g', hg', hd', -⟩ := access_ok.mp haccess
    obtain rfl := Option.some.inj (hg.symm.trans hg')
    exact ⟨(named.getIdtf inv hg hd' hr).1, (renames_getIdtf hr).inv inv⟩

/-! ## Runs -/

inductive NamingOp where
  | setIdtf (a : Addr) (idtf : ScString)
  | eraseIdtf (a : Addr)
  | getIdtf (a : Addr)
  | createEl (seg : SegId) (type : ScType)
  | setBeg (arc beg : Option Addr)
  | setEnd (arc fin : Option Addr)
  | eraseEl (a : Option Addr)
  | ref (a : Addr)
  | unref (a : Addr)

def NamingOp.exec (ss : Session) (w : Waits) (fuel : Nat) (op : NamingOp) (st : State) :
    Option State :=
  match op with
  | .setIdtf a idtf => (Op.setIdtf a idtf).exec ss w fuel st
  | .eraseIdtf a => (ss.eraseIdtf st.memory a).map fun p => { st with memory := p.1 }
  | .getIdtf a => (ss.getIdtf st.memory a).map fun p => { st with memory := p.1 }
  | .createEl seg type => (Op.createEl seg type).exec ss w fuel st
  | .setBeg arc beg => (Op.setBeg arc beg).exec ss w fuel st
  | .setEnd arc fin => (Op.setEnd arc fin).exec ss w fuel st
  | .eraseEl a => (Op.eraseEl a).exec ss w fuel st
  | .ref a => (Op.ref a).exec ss w fuel st
  | .unref a => (Op.unref a).exec ss w fuel st

def keepsLinkedNames (ss : Session) (m : Memory) : NamingOp → Prop
  | .eraseIdtf a | .setIdtf a [] =>
      ∀ g, ss.access m (some a) = some rvOk → m.addrs a = some g → g.links = []
  | _ => True

def NamingStep (ok : Session → Memory → NamingOp → Prop) (st st' : State) : Prop :=
  ∃ ss w fuel op, ok ss st.memory op ∧ NamingOp.exec ss w fuel op st = some st'

/-- What is asked for: a link's target is the uri of the segment of its element and the
identifier that `get_idtf` returns. -/
def LinksName (m : Memory) : Prop :=
  ∀ a g, m.addrs a = some g → g.dead = false → ∀ st ∈ g.links, ∃ m' str link,
    systemSession.getIdtf m a = some (m', str) ∧ m.elems st.impl = some link ∧
      link.idtf = (m.segs g.seg).uri ++ [47] ++ str

section Runs

variable {fuel : Nat} {op : NamingOp} {st st' : State}

theorem LinksNamed.exec (inv : StateInv st) (named : LinksNamed st.memory)
    (ok : keepsLinkedNames ss st.memory op) (hr : op.exec ss w fuel st = some st') :
    StateInv st' ∧ LinksNamed st'.memory := by
  have unheld : ∀ n, (clientHolds st.refs).node n = 0 := fun _ => rfl
  have rerefs {m' : Memory} (tallied : Tallied st.memory m') (r : Rerefs st.memory m') :
      LinksNamed m' := named.carried ((r.cascade (K := fun _ => True) tallied).carriesNames inv)
  cases op with
  | setIdtf a idtf =>
    have hr : (Op.setIdtf a idtf).exec ss w fuel st = some st' := hr
    refine ⟨(inv.exec (by exact trivial) hr).1, ?_⟩
    cases Op.ran hr with
    | setIdtf call =>
      refine named.setIdtf inv (fun hnil => ?_) call
      subst hnil
      exact ok
  | eraseIdtf a =>
    obtain ⟨⟨m', rv⟩, hm', rfl⟩ := Option.map_eq_some_iff.mp hr
    obtain ⟨named', inv'⟩ := named.eraseIdtf inv ok hm'
    exact ⟨inv', named'⟩
  | getIdtf a =>
    obtain ⟨⟨m', str⟩, hm', rfl⟩ := Option.map_eq_some_iff.mp hr
    obtain ⟨named', inv'⟩ := named.sessionGetIdtf inv hm'
    exact ⟨inv', named'⟩
  | createEl seg type =>
    have hr : (Op.createEl seg type).exec ss w fuel st = some st' := hr
    refine ⟨(inv.exec (by exact trivial) hr).1, ?_⟩
    cases Op.ran hr with
    | createEl call =>
      rcases createEl_some call with ⟨rfl, -⟩ | ⟨t, rfl, -⟩
      · exact named
      · exact named.carried (carriesNames_created inv seg t)
  | setBeg arc beg =>
    have hr : (Op.setBeg arc beg).exec ss w fuel st = some st' := hr
    refine ⟨(inv.exec (by exact trivial) hr).1, ?_⟩
    cases Op.ran hr with
    | setBeg call => exact named.setStep (Inv.setBeg inv unheld call).2.2
  | setEnd arc fin =>
    have hr : (Op.setEnd arc fin).exec ss w fuel st = some st' := hr
    refine ⟨(inv.exec (by exact trivial) hr).1, ?_⟩
    cases Op.ran hr with
    | setEnd call => exact named.setStep (Inv.setEnd inv unheld call).2.2
  | eraseEl a =>
    have hr : (Op.eraseEl a).exec ss w fuel st = some st' := hr
    refine ⟨(inv.exec (by exact trivial) hr).1, ?_⟩
    cases Op.ran hr with
    | eraseEl call =>
      rcases Inv.eraseEl inv unheld call with ⟨rfl, -⟩ | ⟨b, -, -, -, er⟩
      · exact named
      · exact named.carried (er.cascade.carriesNames inv)
  | ref a =>
    have hr : (Op.ref a).exec ss w fuel st = some st' := hr
    cases Op.ran hr with
    | ref call =>
      obtain ⟨inv', tallied, r⟩ := inv.ref call
      exact ⟨inv', rerefs tallied r⟩
  | unref a =>
    have hr : (Op.unref a).exec ss w fuel st = some st' := hr
    cases Op.ran hr with
    | unref held call =>
      obtain ⟨inv', tallied, r⟩ := inv.unref held call
      exact ⟨inv', rerefs tallied r⟩

theorem LinksNamed.linksName (named : LinksNamed m) (inv : Inv h m) : LinksName m := by
  intro a g hg hd st hst
  obtain ⟨own, hown, -⟩ := inv.own_stored hg
  obtain ⟨link, hlink, -⟩ := inv.stored hg (List.mem_cons_of_mem _ hst)
  obtain ⟨hmiss, hname⟩ := named a g hg hd st hst _ _ (label_stored hown) (label_stored hlink)
  have hidtf : own.hasIdtf = true := by simpa [Element.hasIdtf, Element.label] using hmiss
  have haccess : systemSession.access m (some a) = some rvOk := access_ok.mpr ⟨g, hg, hd, rfl⟩
  refine ⟨m, own.idtf, link, ?_, hlink, hname⟩
  simp [Session.getIdtf, haccess, hg, TmpSegment.getIdtf, hown, hidtf]

/-- In every run that takes no name away from an element with links, links name their element. -/
theorem links_name_of_run (uri tmpPrefix : SegId → ScString) (st : State)
    (run : ReflTransGen (NamingStep keepsLinkedNames) (State.initial uri tmpPrefix) st) :
    LinksName st.memory := by
  have both : StateInv st ∧ LinksNamed st.memory := by
    induction run with
    | refl =>
      refine ⟨(StateInv.initial uri tmpPrefix).1, ?_⟩
      intro a g hg
      cases hg
    | tail _ step ih =>
      obtain ⟨ss, w, fuel, op, ok, hexec⟩ := step
      exact ih.2.exec ih.1 ok hexec
  exact both.2.linksName both.1

def runNaming (fuel : Nat) : List NamingOp → State → Option State
  | [], st => some st
  | op :: ops, st => (op.exec systemSession noWaits fuel st).bind (runNaming fuel ops)

theorem reaches_runNaming {ok : Session → Memory → NamingOp → Prop} (ops : List NamingOp)
    (hok : ∀ op ∈ ops, ∀ m, ok systemSession m op) :
    ∀ {st : State}, runNaming fuel ops st = some st' → ReflTransGen (NamingStep ok) st st' := by
  induction ops with
  | nil =>
    intro st hr
    exact Option.some.inj hr ▸ ReflTransGen.refl
  | cons op ops ih =>
    intro st hr
    obtain ⟨st₁, hst₁, hr⟩ := Option.bind_eq_some_iff.mp hr
    refine ReflTransGen.head ⟨systemSession, noWaits, fuel, op, ?_, hst₁⟩ ?_
    · exact hok op List.mem_cons_self _
    · exact ih (fun op' hop' => hok op' (List.mem_cons_of_mem _ hop')) hr

def renamedOps : List NamingOp :=
  [.createEl 1 .node, .createEl 0 .arc, .setBeg (some 1) (some 0), .setIdtf 0 [97]]

theorem links_name_of_run_renamed :
    ∃ st, runNaming 0 renamedOps (State.initial (fun _ => []) fun _ => []) = some st ∧
      (st.memory.label 2).map (·.idtf) = some [47, 97] ∧ LinksName st.memory := by
  have hrun : ∃ st, runNaming 0 renamedOps (State.initial (fun _ => []) fun _ => []) = some st ∧
      (st.memory.label 2).map (·.idtf) = some [47, 97] := ⟨_, rfl, rfl⟩
  obtain ⟨st, hst, hlabel⟩ := hrun
  refine ⟨st, hst, hlabel, links_name_of_run _ _ st (reaches_runNaming renamedOps ?_ hst)⟩
  intro op hop m
  simp only [renamedOps, List.mem_cons, List.not_mem_nil, or_false] at hop
  rcases hop with rfl | rfl | rfl | rfl <;> exact trivial

def forgottenOps : List NamingOp := renamedOps ++ [.eraseIdtf 0]

theorem links_name_fails : ¬∀ (uri tmpPrefix : SegId → ScString) (st : State),
    ReflTransGen (NamingStep fun _ _ _ => True) (State.initial uri tmpPrefix) st →
      LinksName st.memory := by
  intro claim
  have hrun : ∃ st, runNaming 0 forgottenOps (State.initial (fun _ => []) fun _ => []) = some st ∧
      (∃ g, st.memory.addrs 0 = some g ∧ g.dead = false ∧ ⟨0, 2⟩ ∈ g.links ∧
        (st.memory.segs g.seg).uri = []) ∧
      (st.memory.elems 2).map (·.idtf) = some [47, 97] ∧
      (systemSession.getIdtf st.memory 0).map (fun p => p.2.head?) = some (some 64) := by
    refine ⟨_, rfl, ⟨_, rfl, ?_, ?_, ?_⟩, ?_, ?_⟩
    · rfl
    · exact List.mem_cons_self
    · rfl
    · rfl
    · rfl
  obtain ⟨st, hst, ⟨g, hg, hd, hlinks, huri⟩, hidtf, hhead⟩ := hrun
  obtain ⟨m', str, link, hget, hlink, hname⟩ := claim _ _ st
    (reaches_runNaming forgottenOps (fun _ _ _ => trivial) hst) 0 g hg hd _ hlinks
  rw [hlink] at hidtf
  rw [hget] at hhead
  have hstr : str = [97] := by
    have := hname.symm.trans (Option.some.inj hidtf)
    simpa [huri] using this
  simp [hstr] at hhead

end Runs

end ScCore.Store
