import ScCore.Store.Filling
import ScCore.Store.Rollback

/-!
# Calls that leave the contents alone

None of the calls that make the graph writes a content. The calls are followed down to the
single writes; of an element they change counters, lists, ends, types and identifiers.
-/

namespace ScCore.Store

open Memory TmpSegment Session

variable {m m' m'' : Memory} {e arc : ElemId} {s : Endpoint} {seg : SegId} {a : Addr}
  {ss : Session} {w : Waits} {fuel : Nat} {rv : Retval} {t : ScType}

structure KeepsContents (m m' : Memory) : Prop where
  nextElem : m.nextElem ≤ m'.nextElem
  cont : ∀ e, e < m.nextElem → (m'.elems e).map (·.cont) = (m.elems e).map (·.cont)

namespace KeepsContents

theorem refl (m : Memory) : KeepsContents m m := ⟨le_refl _, fun _ _ => rfl⟩

theorem trans (k : KeepsContents m m') (k' : KeepsContents m' m'') : KeepsContents m m'' :=
  ⟨k.nextElem.trans k'.nextElem, fun e he =>
    (k'.cont e (he.trans_le k.nextElem)).trans (k.cont e he)⟩

theorem of_elems (elems : m'.elems = m.elems) (next : m'.nextElem = m.nextElem) :
    KeepsContents m m' :=
  ⟨next.ge, fun e _ => by rw [elems]⟩

variable {f : Element → Element} {n : NodeId} {idtf : ScString} {beg fin x : Option Addr}

theorem mapElem (hf : ∀ el, (f el).cont = el.cont) : KeepsContents m (m.mapElem e f) := by
  refine ⟨le_refl _, fun x _ => ?_⟩
  rw [mapElem_elems]
  split
  · rw [Option.map_map]
    congr 1
    funext el
    exact hf el
  · rfl

theorem modifyElem (hf : ∀ el, (f el).cont = el.cont) (hr : m.modifyElem e f = some m') :
    KeepsContents m m' := by
  obtain ⟨-, rfl⟩ := modifyElem_some hr
  exact mapElem hf

theorem modifyNode {f : ElementLink → ElementLink} (hr : m.modifyNode n f = some m') :
    KeepsContents m m' := by
  obtain ⟨l, -, hr⟩ := Option.bind_eq_some_iff.mp hr
  cases hr
  exact of_elems rfl rfl

theorem modifyAddr {f : GlobalAddr → GlobalAddr} (hr : m.modifyAddr a f = some m') :
    KeepsContents m m' := by
  obtain ⟨g, -, hr⟩ := Option.bind_eq_some_iff.mp hr
  cases hr
  exact of_elems rfl rfl

theorem newElem (m : Memory) (el : Element) : KeepsContents m (m.newElem el) := by
  refine ⟨Nat.le_succ _, fun e he => ?_⟩
  rw [Memory.newElem]
  dsimp only
  rw [if_neg he.ne]

theorem removeNode (hr : removeNode m e s n = some m') : KeepsContents m m' := by
  obtain ⟨m₁, hm₁, hr⟩ := Option.bind_eq_some_iff.mp hr
  cases hr
  exact (modifyElem (fun el => by cases s <;> rfl) hm₁).trans (of_elems rfl rfl)

theorem die (hr : ElementLink.die m e s n = some m') : KeepsContents m m' := by
  obtain ⟨l, -, hr⟩ := Option.bind_eq_some_iff.mp hr
  obtain ⟨m₁, hm₁, hr⟩ := Option.bind_eq_some_iff.mp hr
  split at hr
  · exact (modifyNode hm₁).trans (removeNode hr)
  · exact (modifyNode hm₁).trans (modifyNode hr)

theorem attachArc (hr : TmpSegment.attachArc s m e arc = some m') : KeepsContents m m' := by
  obtain ⟨m₁, hm₁, hr⟩ := Option.bind_eq_some_iff.mp hr
  obtain ⟨m₂, hm₂, hr⟩ := Option.bind_eq_some_iff.mp hr
  have node : KeepsContents m₁ (m₁.newNode ⟨arc, 1, false⟩) := of_elems rfl rfl
  exact (modifyElem (fun el => by cases s <;> rfl) hm₁).trans (node.trans
    ((modifyElem (fun el => by cases s <;> rfl) hm₂).trans
      (modifyElem (fun el => by cases s <;> rfl) hr)))

theorem detachArc (hr : TmpSegment.detachArc s m e arc = some m') : KeepsContents m m' := by
  obtain ⟨m₁, hm₁, hr⟩ := Option.bind_eq_some_iff.mp hr
  obtain ⟨el, -, hr⟩ := Option.bind_eq_some_iff.mp hr
  obtain ⟨n, -, hr⟩ := Option.bind_eq_some_iff.mp hr
  exact (modifyElem (fun el => by cases s <;> rfl) hm₁).trans (die hr)

theorem setEndpoint {target : Option ElemId} (hr : setEndpoint s m arc target = some m') :
    KeepsContents m m' := by
  have after {m₁ : Memory} {rest : Memory → Option Memory}
      (hrest : ∀ {m₂}, rest m₂ = some m' → KeepsContents m₂ m')
      (hr : (m₁.modifyElem arc fun a => (a.setEnd s none).setHint s none).bind rest = some m') :
      KeepsContents m₁ m' := by
    obtain ⟨m₂, hm₂, hr⟩ := Option.bind_eq_some_iff.mp hr
    have cleared : KeepsContents m₁ m₂ := modifyElem (fun el => by cases s <;> rfl) hm₂
    exact cleared.trans (hrest hr)
  have attached {m₂ m' : Memory} {t : ElemId} (hr : (TmpSegment.attachArc s m₂ t arc).bind
      (·.modifyElem arc fun a => a.setEnd s (some t)) = some m') : KeepsContents m₂ m' := by
    obtain ⟨m₃, hm₃, hr⟩ := Option.bind_eq_some_iff.mp hr
    exact (attachArc hm₃).trans (modifyElem (fun el => by cases s <;> rfl) hr)
  obtain ⟨el, -, hr⟩ := Option.bind_eq_some_iff.mp hr
  dsimp only at hr
  split at hr
  · obtain ⟨m₁, hm₁, hr⟩ := Option.bind_eq_some_iff.mp hr
    refine (detachArc hm₁).trans (after (fun hr => ?_) hr)
    cases target with
    | none => exact Option.some.inj hr ▸ KeepsContents.refl _
    | some t => exact attached hr
  · refine after (fun hr => ?_) hr
    cases target with
    | none => exact Option.some.inj hr ▸ KeepsContents.refl _
    | some t => exact attached hr

theorem registerIdtf (hr : registerIdtf m seg idtf e = some m') : KeepsContents m m' := by
  rw [TmpSegment.registerIdtf] at hr
  split at hr
  · cases hr
  · cases hr
    exact of_elems rfl rfl

theorem generateIdtf (hr : generateIdtf m seg e = some m') : KeepsContents m m' := by
  obtain ⟨m₁, hm₁, hr⟩ := Option.bind_eq_some_iff.mp hr
  have counted : KeepsContents m { m with idtfCounter := m.idtfCounter + 1 } := of_elems rfl rfl
  exact counted.trans ((registerIdtf hm₁).trans (modifyElem (fun el => by rfl) hr))

theorem getIdtf {str : ScString} (hr : TmpSegment.getIdtf m seg e = some (m', str)) :
    KeepsContents m m' := by
  have after : ∀ {m₁ : Memory}, (do
      let el ← m₁.elems e
      some (m₁, el.idtf)) = some (m', str) → m' = m₁ := by
    intro m₁ hr
    obtain ⟨el, -, hr⟩ := Option.bind_eq_some_iff.mp hr
    exact (Prod.mk.inj (Option.some.inj hr)).1.symm
  obtain ⟨el, -, hr⟩ := Option.bind_eq_some_iff.mp hr
  dsimp only at hr
  split at hr
  · exact after hr ▸ refl m
  · obtain ⟨m₁, hm₁, hr⟩ := Option.bind_eq_some_iff.mp hr
    exact after hr ▸ generateIdtf hm₁

theorem ensureLinkTo {ll : ElemId} (hr : Session.ensureLinkTo m seg a = some (m', ll)) :
    KeepsContents m m' := by
  obtain ⟨g, -, hr⟩ := Option.bind_eq_some_iff.mp hr
  split at hr
  · cases hr
    exact refl m
  · split at hr
    · cases hr
      exact refl m
    · obtain ⟨⟨m₁, str⟩, hm₁, hr⟩ := Option.bind_eq_some_iff.mp hr
      obtain ⟨m₂, hm₂, hr⟩ := Option.bind_eq_some_iff.mp hr
      obtain ⟨m₃, hm₃, hr⟩ := Option.bind_eq_some_iff.mp hr
      cases hr
      have linked : KeepsContents m₁ (createLink m₁ seg ((m₁.segs g.seg).uri ++ [47] ++ str)).1 :=
        (newElem m₁ _).trans (of_elems rfl rfl)
      obtain ⟨el, -, hm₂⟩ := Option.bind_eq_some_iff.mp hm₂
      exact (getIdtf hm₁).trans (linked.trans ((modifyAddr hm₂).trans
        (modifyElem (fun el => by rfl) hm₃)))

theorem linkEnd (hr : Session.linkEnd s m seg arc a = some m') : KeepsContents m m' := by
  obtain ⟨⟨m₁, ll⟩, hm₁, hr⟩ := Option.bind_eq_some_iff.mp hr
  obtain ⟨m₂, hm₂, hr⟩ := Option.bind_eq_some_iff.mp hr
  exact (ensureLinkTo hm₁).trans ((setEndpoint hm₂).trans (modifyAddr hr))

theorem clearEnd {old : Option Addr} (hr : Session.clearEnd s m arc old = some m') :
    KeepsContents m m' := by
  obtain ⟨m₁, hm₁, hr⟩ := Option.bind_eq_some_iff.mp hr
  cases old with
  | none => exact Option.some.inj hr ▸ setEndpoint hm₁
  | some a => exact (setEndpoint hm₁).trans (modifyAddr hr)

theorem changeType (hr : ss.changeType w m a t = some (m', rv)) : KeepsContents m m' := by
  obtain rfl | ⟨g, t', ch⟩ := changeType_some hr
  · exact refl m'
  · rw [ch.memory]
    exact mapElem fun _ => rfl

theorem setBegCore (hr : ss.setBegCore w m a beg = some (m', rv)) : KeepsContents m m' := by
  obtain ⟨g, -, hr⟩ := Option.bind_eq_some_iff.mp hr
  obtain ⟨el, -, hr⟩ := Option.bind_eq_some_iff.mp hr
  obtain ⟨old, -, hr⟩ := Option.bind_eq_some_iff.mp hr
  split at hr
  · cases hr
    exact refl m
  · cases beg with
    | none =>
      obtain ⟨m₁, hm₁, hr⟩ := Option.bind_eq_some_iff.mp hr
      cases hr
      exact clearEnd hm₁
    | some b =>
      have after : ∀ {m₁ : Memory}, (do
          let m ← Session.linkEnd .beg m₁ g.seg g.impl b
          some (m, rvOk)) = some (m', rv) → KeepsContents m₁ m' := by
        intro m₁ hr
        obtain ⟨m₂, hm₂, hr⟩ := Option.bind_eq_some_iff.mp hr
        cases hr
        exact linkEnd hm₂
      obtain ⟨begType, -, hr⟩ := Option.bind_eq_some_iff.mp hr
      split at hr
      · cases hr
        exact refl m
      · dsimp only at hr
        split at hr
        · obtain ⟨⟨m₁, rv₁⟩, hm₁, hr⟩ := Option.bind_eq_some_iff.mp hr
          exact (changeType hm₁).trans (after hr)
        · exact after hr

theorem setEndCore (hr : Session.setEndCore m a fin = some (m', rv)) : KeepsContents m m' := by
  obtain ⟨g, -, hr⟩ := Option.bind_eq_some_iff.mp hr
  obtain ⟨el, -, hr⟩ := Option.bind_eq_some_iff.mp hr
  obtain ⟨old, -, hr⟩ := Option.bind_eq_some_iff.mp hr
  split at hr
  · cases hr
    exact refl m
  · cases fin with
    | none =>
      obtain ⟨m₁, hm₁, hr⟩ := Option.bind_eq_some_iff.mp hr
      cases hr
      exact clearEnd hm₁
    | some e =>
      obtain ⟨m₁, hm₁, hr⟩ := Option.bind_eq_some_iff.mp hr
      cases hr
      exact linkEnd hm₁

theorem setEnds {target : Option Addr} (hr : ss.setEnds w s m x target = some (m', rv)) :
    KeepsContents m m' := by
  cases setEnds_some hr with
  | refused same => exact same ▸ refl m
  | works _ _ _ _ core =>
    cases s with
    | beg => exact setBegCore core
    | fin => exact setEndCore core

theorem setBeg (hr : ss.setBeg w m x beg = some (m', rv)) :
    KeepsContents m m' := setEnds (s := .beg) hr

theorem setEnd (hr : ss.setEnd w m x fin = some (m', rv)) :
    KeepsContents m m' := setEnds (s := .fin) hr

theorem created (m : Memory) (seg : SegId) (t : ScType) : KeepsContents m (created m seg t) :=
  ⟨Nat.le_succ _, fun e he => by rw [(adds_created m seg t).elems, if_neg he.ne]⟩

theorem createEl {r : Option Addr} (hr : ss.createEl m seg t = some (m', r, rv)) :
    KeepsContents m m' := by
  obtain ⟨rfl, -⟩ | ⟨t', rfl, -⟩ := createEl_some hr
  · exact refl m'
  · exact created m seg t'

theorem deregisterIdtf (m : Memory) (seg : SegId) (idtf : ScString) :
    KeepsContents m (deregisterIdtf m seg idtf) := of_elems rfl rfl

theorem eraseIdtf (hr : TmpSegment.eraseIdtf m seg e = some m') : KeepsContents m m' := by
  obtain ⟨el, -, hr⟩ := Option.bind_eq_some_iff.mp hr
  split at hr
  · exact (deregisterIdtf m seg el.idtf).trans (modifyElem (fun el => by rfl) hr)
  · exact Option.some.inj hr ▸ refl m

theorem setIdtf (hr : TmpSegment.setIdtf m seg e idtf = some (m', rv)) : KeepsContents m m' := by
  obtain ⟨el, -, hr⟩ := Option.bind_eq_some_iff.mp hr
  split at hr
  · obtain ⟨m₁, hm₁, hr⟩ := Option.bind_eq_some_iff.mp hr
    cases hr
    exact eraseIdtf hm₁
  · split at hr
    · cases hr
      exact refl m
    · cases hreg : TmpSegment.registerIdtf m seg idtf e with
      | none =>
        rw [hreg] at hr
        cases hr
        exact refl m
      | some m₁ =>
        rw [hreg] at hr
        obtain ⟨m₂, hm₂, hr⟩ := Option.bind_eq_some_iff.mp hr
        cases hr
        refine (registerIdtf hreg).trans (trans ?_ (modifyElem (fun el => by rfl) hm₂))
        split
        · exact deregisterIdtf m₁ seg el.idtf
        · exact refl m₁

theorem retargetLinks {target : ScString} {l : List LinkAddr}
    (hr : Session.retargetLinks m target l = some m') : KeepsContents m m' := by
  induction l generalizing m with
  | nil => exact Option.some.inj hr ▸ refl m
  | cons link l ih =>
    obtain ⟨m₁, hm₁, hr⟩ := Option.bind_eq_some_iff.mp hr
    exact (modifyElem (fun el => by rfl) hm₁).trans (ih hr)

theorem sessionSetIdtf (hr : ss.setIdtf m a idtf = some (m', rv)) : KeepsContents m m' := by
  obtain ⟨rv₁, -, hr⟩ := Option.bind_eq_some_iff.mp hr
  split at hr
  · cases hr
    exact refl m
  · obtain ⟨g, -, hr⟩ := Option.bind_eq_some_iff.mp hr
    obtain ⟨⟨m₁, rv₂⟩, hm₁, hr⟩ := Option.bind_eq_some_iff.mp hr
    dsimp only at hr
    split at hr
    · cases hr
      exact setIdtf hm₁
    · obtain ⟨m₂, hm₂, hr⟩ := Option.bind_eq_some_iff.mp hr
      cases hr
      exact (setIdtf hm₁).trans (retargetLinks hm₂)

theorem sessionGetIdtf {str : ScString} (hr : ss.getIdtf m a = some (m', str)) :
    KeepsContents m m' := by
  obtain ⟨rv₁, -, hr⟩ := Option.bind_eq_some_iff.mp hr
  split at hr
  · cases hr
    exact refl m
  · obtain ⟨g, -, hr⟩ := Option.bind_eq_some_iff.mp hr
    exact getIdtf hr

theorem gen3 {e1 e3 : Option Addr} {x : Addr}
    (hr : ss.gen3 w fuel m e1 seg t e3 = some (m', some x, rvOk)) : KeepsContents m m' := by
  cases gen3_some hr with
  | made _ _ create beg fin => exact (createEl create).trans ((setBeg beg).trans (setEnd fin))

end KeepsContents

def contOf (m : Memory) (a : Addr) : Option Content :=
  (m.addrs a).bind fun g => (m.elems g.impl).map (·.cont)

theorem contOf_eq {h : Holds} (keeps : KeepsContents m m') (inv : Inv h m)
    (persists : Persists m m') {g : GlobalAddr} (hg : m.addrs a = some g) :
    contOf m' a = contOf m a := by
  obtain ⟨g', hg', -, hi, -⟩ := persists.addrs hg
  obtain ⟨el, hel, -⟩ := inv.own_stored hg
  rw [contOf, contOf, hg, hg', Option.bind_some, Option.bind_some, hi,
    keeps.cont g.impl (inv.elem_lt hel)]

end ScCore.Store
