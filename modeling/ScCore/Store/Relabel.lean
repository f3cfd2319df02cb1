import ScCore.Store.Cascade

/-!
# Changes of labels

Identifiers, contents and types are changed without touching the graph.
-/

namespace ScCore.Store

open Memory TmpSegment

/-- Only labels differ, and only at elements in `P`. -/
structure Relabels (P : ElemId → Prop) (m m' : Memory) : Prop where
  graph : m'.graph = m.graph
  qnt : ∀ e s, m'.qnt e s = m.qnt e s
  nodes : m'.nodes = m.nodes
  addrs : m'.addrs = m.addrs
  addrOf : ∀ e, m'.addrOf e = m.addrOf e
  stored : ∀ e, m'.elems e = none ↔ m.elems e = none
  label : ∀ e, ¬P e → m'.label e = m.label e
  nextElem : m'.nextElem = m.nextElem
  nextNode : m'.nextNode = m.nextNode
  nextAddr : m'.nextAddr = m.nextAddr
  uri : ∀ j, (m'.segs j).uri = (m.segs j).uri

def SameTypes (m m' : Memory) : Prop :=
  ∀ e, (m'.label e).map (·.type) = (m.label e).map (·.type)

variable {P Q : ElemId → Prop} {h : Holds} {m m' m'' : Memory}

namespace Relabels

theorem refl (P : ElemId → Prop) (m : Memory) : Relabels P m m :=
  ⟨rfl, fun _ _ => rfl, rfl, rfl, fun _ => rfl, fun _ => Iff.rfl, fun _ _ => rfl, rfl, rfl, rfl,
    fun _ => rfl⟩

theorem trans (r : Relabels P m m') (r' : Relabels P m' m'') : Relabels P m m'' where
  graph := r'.graph.trans r.graph
  qnt e s := (r'.qnt e s).trans (r.qnt e s)
  nodes := r'.nodes.trans r.nodes
  addrs := r'.addrs.trans r.addrs
  addrOf e := (r'.addrOf e).trans (r.addrOf e)
  stored e := (r'.stored e).trans (r.stored e)
  label e he := (r'.label e he).trans (r.label e he)
  nextElem := r'.nextElem.trans r.nextElem
  nextNode := r'.nextNode.trans r.nextNode
  nextAddr := r'.nextAddr.trans r.nextAddr
  uri j := (r'.uri j).trans (r.uri j)

theorem mono (r : Relabels P m m') (hPQ : ∀ e, P e → Q e) : Relabels Q m m' :=
  { r with label := fun e he => r.label e fun hp => he (hPQ e hp) }

theorem modifySeg (P : ElemId → Prop) (m : Memory) (i : SegId) {f : Segment → Segment}
    (hf : ∀ sg, (f sg).uri = sg.uri) : Relabels P m (m.modifySeg i f) := by
  refine ⟨rfl, fun _ _ => rfl, rfl, rfl, fun _ => rfl, fun _ => Iff.rfl, fun _ _ => rfl, rfl, rfl,
    rfl, fun j => ?_⟩
  by_cases hj : j = i <;> simp [Memory.modifySeg, hj, hf]

theorem idtfCounter (P : ElemId → Prop) (m : Memory) (c : Nat) :
    Relabels P m { m with idtfCounter := c } :=
  ⟨rfl, fun _ _ => rfl, rfl, rfl, fun _ => rfl, fun _ => Iff.rfl, fun _ _ => rfl, rfl, rfl, rfl,
    fun _ => rfl⟩

structure OnLabel (f : Element → Element) : Prop where
  arcs : ∀ el, (f el).arcs = el.arcs
  ends : ∀ el, (f el).ends = el.ends
  hint : ∀ el, (f el).hint = el.hint
  qnt : ∀ el, (f el).qnt = el.qnt
  addr : ∀ el, (f el).addr = el.addr

variable {f : Element → Element}

theorem mapElem {e : ElemId} (hP : P e) (hf : OnLabel f) :
    Relabels P m (m.mapElem e f) where
  graph := graph_mapElem hf.arcs hf.ends hf.hint
  qnt := qnt_mapElem hf.qnt
  nodes := rfl
  addrs := rfl
  addrOf x := by
    by_cases hx : x = e
    · cases he : m.elems e <;> simp [Memory.addrOf, Memory.label, hx, he, Element.label, hf.addr]
    · simp [Memory.addrOf, Memory.label, hx]
  stored x := by
    rw [mapElem_elems]
    split <;> simp
  label x hx := by
    have hne : x ≠ e := by
      rintro rfl
      exact hx hP
    simp [Memory.label, hne]
  nextElem := rfl
  nextNode := rfl
  nextAddr := rfl
  uri _ := rfl

theorem modifyElem {e : ElemId} (hP : P e) (hf : OnLabel f) (hm : m.modifyElem e f = some m') :
    Relabels P m m' := by
  obtain ⟨-, rfl⟩ := modifyElem_some hm
  exact mapElem hP hf

section

variable (r : Relabels P m m')
include r

theorem label_isSome {e : ElemId} {l' : Label} (hl' : m'.label e = some l') :
    ∃ l, m.label e = some l := by
  cases he : m.elems e with
  | none => simp [Memory.label, (r.stored e).mpr he] at hl'
  | some el => exact ⟨_, label_stored he⟩

theorem liveAddr (b : Addr) : m'.liveAddr b = m.liveAddr b := by
  rw [Memory.liveAddr, Memory.liveAddr, r.addrs]

theorem graphInv (gi : GraphInv h m) : GraphInv h m' :=
  gi.congr r.graph r.qnt r.nodes r.nextNode

theorem tallied : Tallied m m' :=
  Tallied.of_eq r.addrs r.qnt

theorem addrInv (ai : AddrInv h m) : AddrInv h m' where
  stores_addr := by rw [r.addrs]; intro a g st; rw [r.addrOf]; exact ai.stores_addr
  addr_stores := by rw [r.addrs]; intro e a; rw [r.addrOf]; exact ai.addr_stores
  addressed := by
    intro e el he
    cases ho : m.elems e with
    | none => simp [(r.stored e).mpr ho] at he
    | some o =>
      have := r.addrOf e
      rw [addrOf_stored he, addrOf_stored ho] at this
      exact this ▸ ai.addressed ho
  nodup := by rw [r.addrs]; exact ai.nodup
  not_zombie := by rw [r.addrs]; exact ai.not_zombie
  addr_refs := by rw [r.addrs]; exact ai.addr_refs
  addr_held := by rw [r.addrs]; exact ai.addr_held
  held_addr := by rw [r.addrs]; exact ai.held_addr
  elem_lt := by
    intro e el he
    rw [r.nextElem]
    cases ho : m.elems e with
    | none => simp [(r.stored e).mpr ho] at he
    | some o => exact ai.elem_lt ho
  addr_lt := by rw [r.addrs, r.nextAddr]; exact ai.addr_lt

theorem inv (inv : Inv h m)
    (typed : ∀ {x s e l}, m.graph.target x s = some e → m'.label x = some l → l.type.isConnector =
    true)
    : Inv h m' where
  toGraphInv := r.graphInv inv.toGraphInv
  toAddrInv := r.addrInv inv.toAddrInv
  own := by rw [r.addrs, r.graph]; exact inv.own
  typed := by rw [r.graph]; exact typed
  dead_free := by
    intro e a s he hd
    rw [r.graph]
    exact inv.dead_free s (r.addrOf e ▸ he) (r.liveAddr a ▸ hd)
  held_detached := by
    intro n e s a x t
    rw [r.graph, r.addrOf, r.addrOf]
    exact inv.held_detached

theorem inv_sameTypes (inv : Inv h m) (types : SameTypes m m') : Inv h m' := by
  refine r.inv inv fun {x s e l'} ht hl' => ?_
  obtain ⟨l, hl⟩ := r.label_isSome hl'
  have htype : l'.type = l.type := by simpa [hl, hl'] using types x
  exact htype ▸ inv.typed ht hl

theorem shrinks (gi : GraphInv h m) (types : SameTypes m m') :
    Shrinks m m' where
  listed e s := by
    rw [r.graph, r.nodes]
    exact (gi.filter_stored e s).symm
  node hl := ⟨_, r.nodes ▸ hl, rfl, id⟩
  target ht := r.graph ▸ ht
  label := by
    intro e l' hl'
    obtain ⟨l, hl⟩ := r.label_isSome hl'
    have haddr := r.addrOf e
    simp only [Memory.addrOf, hl, hl', Option.bind_some] at haddr
    exact ⟨l, hl, haddr, by simpa [hl, hl'] using types e⟩
  addr ha := ⟨_, r.addrs ▸ ha, rfl, rfl, rfl, id⟩
  uri := r.uri

theorem keeps {b : Addr} (hb : ∀ e, m.addrOf e = some b → ¬P e) : Keeps m m' b := by
  intro e he
  refine ⟨r.label e (hb e he), fun s => ?_⟩
  rw [r.graph]
  exact ⟨rfl, rfl⟩

end

end Relabels

namespace SameTypes

theorem trans (t : SameTypes m m') (t' : SameTypes m' m'') : SameTypes m m'' :=
  fun e => (t' e).trans (t e)

variable {f : Element → Element}

theorem mapElem (e : ElemId) (hf : ∀ el, (f el).type = el.type) : SameTypes m (m.mapElem e f) := by
  intro x
  by_cases hx : x = e
  · cases he : m.elems e <;> simp [Memory.label, hx, he, Element.label, hf]
  · simp [Memory.label, hx]

theorem modifyElem {e : ElemId} (hf : ∀ el, (f el).type = el.type)
    (hm : m.modifyElem e f = some m') : SameTypes m m' := by
  obtain ⟨-, rfl⟩ := modifyElem_some hm
  exact mapElem e hf

end SameTypes

/-- What the identifier operations do to the elements in `P`. -/
structure Renames (P : ElemId → Prop) (m m' : Memory) : Prop where
  relabels : Relabels P m m'
  types : SameTypes m m'

namespace Renames

theorem trans (r : Renames P m m') (r' : Renames P m' m'') : Renames P m m'' :=
  ⟨r.relabels.trans r'.relabels, r.types.trans r'.types⟩

theorem refl (P : ElemId → Prop) (m : Memory) : Renames P m m :=
  ⟨Relabels.refl _ m, fun _ => rfl⟩

theorem mono (r : Renames P m m') (hPQ : ∀ e, P e → Q e) : Renames Q m m' :=
  ⟨r.relabels.mono hPQ, r.types⟩

theorem modifySeg (i : SegId) {f : Segment → Segment} (hf : ∀ sg, (f sg).uri = sg.uri) :
    Renames P m (m.modifySeg i f) :=
  ⟨Relabels.modifySeg _ m i hf, fun _ => rfl⟩

theorem modifyElem {e : ElemId} {f : Element → Element} (hf : Relabels.OnLabel f)
    (hf' : ∀ el, (f el).type = el.type) (hm : m.modifyElem e f = some m') : Renames (· = e) m m' :=
  ⟨Relabels.modifyElem rfl hf hm, SameTypes.modifyElem hf' hm⟩

theorem inv (r : Renames P m m') (inv : Inv h m) : Inv h m' :=
  r.relabels.inv_sameTypes inv r.types

end Renames

section Identifiers

variable {seg : SegId} {e : ElemId}

theorem onLabel_idtf (f : Element → ScString) (g : Element → Bool) :
    Relabels.OnLabel fun el => { el with idtf := f el, missingIdtf := g el } :=
  ⟨fun _ => rfl, fun _ => rfl, fun _ => rfl, fun _ => rfl, fun _ => rfl⟩

theorem renames_eraseIdtf (seg : SegId) {el : Element} (he : m.elems e = some el) :
    ∃ m', eraseIdtf m seg e = some m' ∧ Renames (· = e) m m' := by
  cases hi : el.hasIdtf with
  | false => exact ⟨m, by simp [eraseIdtf, he, hi], Renames.refl _ m⟩
  | true =>
    have he' : (deregisterIdtf m seg el.idtf).elems e = some el := he
    refine ⟨(deregisterIdtf m seg el.idtf).mapElem e fun el => { el with missingIdtf := true },
      by simp [eraseIdtf, he, hi, modifyElem_eq he'], ?_⟩
    have r : Renames (· = e) m (deregisterIdtf m seg el.idtf) :=
      Renames.modifySeg seg fun _ => rfl
    exact r.trans (Renames.modifyElem (onLabel_idtf (·.idtf) fun _ => true)
      (fun _ => rfl) (modifyElem_eq he'))

variable {idtf : ScString} {rv : Retval}

theorem renames_registerIdtf (hm : registerIdtf m seg idtf e = some m') : Renames P m m' := by
  unfold registerIdtf at hm
  split at hm
  · cases hm
  · obtain rfl := Option.some.inj hm
    exact Renames.modifySeg seg fun _ => rfl

theorem renames_generateIdtf (hm : generateIdtf m seg e = some m') : Renames (· = e) m m' := by
  simp only [generateIdtf, Option.bind_eq_bind, Option.bind_eq_some_iff] at hm
  obtain ⟨m₁, hm₁, hm⟩ := hm
  have r₀ : Renames (· = e) m { m with idtfCounter := m.idtfCounter + 1 } :=
    ⟨Relabels.idtfCounter _ m _, fun _ => rfl⟩
  exact (r₀.trans (renames_registerIdtf hm₁)).trans
    (Renames.modifyElem (onLabel_idtf (fun _ => _) fun _ => false) (fun _ => rfl) hm)

theorem renames_getIdtf {str : ScString} (hm : getIdtf m seg e = some (m', str)) :
    Renames (· = e) m m' := by
  simp only [getIdtf, Option.bind_eq_bind, Option.bind_eq_some_iff] at hm
  obtain ⟨el, -, hm⟩ := hm
  split at hm
  all_goals
    obtain ⟨m₁, hm₁, hm⟩ := Option.bind_eq_some_iff.mp hm
    obtain ⟨el', -, hm⟩ := Option.bind_eq_some_iff.mp hm
    obtain ⟨rfl, -⟩ := Prod.mk.inj (Option.some.inj hm)
  · obtain rfl := Option.some.inj hm₁
    exact Renames.refl _ m
  · exact renames_generateIdtf hm₁

theorem renames_setIdtf (hm : setIdtf m seg e idtf = some (m', rv)) : Renames (· = e) m m' := by
  simp only [setIdtf, Option.bind_eq_bind, Option.bind_eq_some_iff] at hm
  obtain ⟨el, he, hm⟩ := hm
  split at hm
  · obtain ⟨m₁, hm₁, hm⟩ := Option.bind_eq_some_iff.mp hm
    obtain ⟨rfl, -⟩ := Prod.mk.inj (Option.some.inj hm)
    obtain ⟨m₂, hm₂, r⟩ := renames_eraseIdtf seg he
    exact Option.some.inj (hm₂.symm.trans hm₁) ▸ r
  · split at hm
    · obtain ⟨rfl, -⟩ := Prod.mk.inj (Option.some.inj hm)
      exact Renames.refl _ m
    · split at hm
      · obtain ⟨rfl, -⟩ := Prod.mk.inj (Option.some.inj hm)
        exact Renames.refl _ m
      · next m₁ hm₁ =>
        obtain ⟨m₂, hm₂, hm⟩ := Option.bind_eq_some_iff.mp hm
        obtain ⟨rfl, -⟩ := Prod.mk.inj (Option.some.inj hm)
        have r₂ : Renames (· = e) m₁ (if el.hasIdtf = true then deregisterIdtf m₁ seg el.idtf
            else m₁) := by
          split
          · exact Renames.modifySeg seg fun _ => rfl
          · exact Renames.refl _ m₁
        exact ((renames_registerIdtf hm₁).trans r₂).trans
          (Renames.modifyElem (onLabel_idtf (fun _ => idtf) fun _ => false) (fun _ => rfl) hm₂)

theorem renames_retargetLinks {target : ScString} (l : List LinkAddr) :
    ∀ {m : Memory}, Session.retargetLinks m target l = some m' → Renames (fun _ => True) m m' := by
  induction l with
  | nil =>
    intro m hm
    obtain rfl := Option.some.inj hm
    exact Renames.refl _ m
  | cons st l ih =>
    intro m hm
    simp only [Session.retargetLinks, Option.bind_eq_bind, Option.bind_eq_some_iff] at hm
    obtain ⟨m₁, hm₁, hm⟩ := hm
    have r₁ : Renames (· = st.impl) m m₁ := Renames.modifyElem
      (onLabel_idtf (fun _ => target) (·.missingIdtf)) (fun _ => rfl) hm₁
    exact (r₁.mono fun _ _ => trivial).trans (ih hm)

theorem renames_sessionSetIdtf {ss : Session} {a : Addr}
    (hm : ss.setIdtf m a idtf = some (m', rv)) : Renames (fun _ => True) m m' := by
  simp only [Session.setIdtf, Option.bind_eq_bind, Option.bind_eq_some_iff] at hm
  obtain ⟨rv₀, -, hm⟩ := hm
  split at hm
  · obtain ⟨rfl, -⟩ := Prod.mk.inj (Option.some.inj hm)
    exact Renames.refl _ m
  · obtain ⟨g, -, hm⟩ := Option.bind_eq_some_iff.mp hm
    obtain ⟨⟨m₁, rv₁⟩, hm₁, hm⟩ := Option.bind_eq_some_iff.mp hm
    have r₁ := (renames_setIdtf hm₁).mono (Q := fun _ => True) fun _ _ => trivial
    dsimp only at hm
    split at hm
    · obtain ⟨rfl, -⟩ := Prod.mk.inj (Option.some.inj hm)
      exact r₁
    · obtain ⟨m₂, hm₂, hm⟩ := Option.bind_eq_some_iff.mp hm
      obtain ⟨rfl, -⟩ := Prod.mk.inj (Option.some.inj hm)
      exact r₁.trans (renames_retargetLinks g.links hm₂)

end Identifiers

end ScCore.Store
