import ScCore.Store.Setting

/-!
# The session calls that set ends

`set_beg` and `set_end` as a whole: the access checks, the early return when
the end is already there, the clearing branch and the attaching branch.
-/

namespace ScCore.Store

open Memory TmpSegment

def repoints (s : Endpoint) (m : Memory) (arc target : Option Addr) : Bool :=
  match arc, target with
  | some x, some t =>
      match (m.addrs x).bind fun g => (m.elems g.impl).bind fun el => el.ends s with
      | some old => m.addrOf old != some t
      | none => false
  | _, _ => false

/-- The address at the end `s` of an arc. -/
def Memory.endOf (m : Memory) (x : Addr) (s : Endpoint) : Option Addr :=
  (m.addrs x).bind fun g => (m.graph.target g.impl s).bind m.addrOf

variable {h : Holds} {m m' : Memory} {x : Addr} {g : GlobalAddr} {s : Endpoint} {ss : Session}
  {w : Waits} {arc target : Option Addr} {rv : Retval}

/-- What a call that sets or clears the end `s` of an arc does. -/
structure SetsEnd (h : Holds) (s : Endpoint) (arc target : Option Addr) (m m' : Memory) :
    Prop where
  inv : Inv h m'
  tallied : repoints s m arc target = false → Tallied m m'
  covered : Covered m → Covered m'
  persists : Persists m m'
  frame : ∀ {x g}, arc = some x → m.addrs x = some g → ∀ t, t ≠ s →
    m'.graph.target g.impl t = m.graph.target g.impl t

/-- `set_end` gets past its checks. -/
def endPasses (ss : Session) (w : Waits) (m : Memory) (arc target : Option Addr) : Prop :=
  ss.accessBoth m arc target = some rvOk ∧
    ∃ x, arc = some x ∧ Session.setEndPre w m x target = some false

/-- `set_beg` gets past its checks. -/
def begPasses (ss : Session) (w : Waits) (m : Memory) (arc target : Option Addr) : Prop :=
  ss.accessBoth m arc target = some rvOk ∧
    (∃ x, arc = some x ∧ Session.setBegPre w m x target = some false) ∧
    ∀ b type, target = some b → ss.getType m b = some type → type.isConnector = false

theorem SetsEnd.refl (inv : Inv h m) : SetsEnd h s arc target m m :=
  ⟨inv, fun _ => Tallied.refl m, id, Persists.refl m, fun _ _ _ _ => rfl⟩

theorem Forgets.persists (f : Forgets x m m') (inv : Inv h m) (inv' : Inv h m') :
    Persists m m' where
  addrs {b g} hb := by
    have haddr : m'.addrOf g.impl = some b :=
      (addrOf_congr (f.label g.impl)).trans (inv.stores_addr hb List.mem_cons_self)
    obtain ⟨g', hg', -⟩ := inv'.addr_stores haddr
    obtain ⟨g₀, hg₀, hs, hi, -⟩ := f.shrinks.addr hg'
    obtain rfl : g = g₀ := by simpa [hb] using hg₀
    have hlive := f.live b
    simp only [Memory.liveAddr, hb, hg'] at hlive
    exact ⟨g', hg', hs, hi, by simpa using hlive⟩
  addrOf he := (addrOf_congr (f.label _)).trans he

theorem Inv.Unends.sets (u : Inv.Unends h s x g m m') (inv : Inv h m) (hg : m.addrs x = some g) :
    SetsEnd h s (some x) none m m' where
  inv := u.inv
  tallied _ := u.tallied
  covered := u.tallied.covered
  persists := u.forgets.persists inv u.inv
  frame := by
    intro x' g' hx hg' t ht
    obtain rfl := Option.some.inj hx
    obtain rfl : g = g' := by simpa [hg] using hg'
    simp [u.target, ht]

variable {t : Addr} {el : Element} {old : Option Addr} {type : ScType}

theorem Sets.setsEnd (st : Sets h s x g m m') (hg : m.addrs x = some g)
    (free : repoints s m (some x) (some t) = false → m.graph.target g.impl s = none) :
    SetsEnd h s (some x) (some t) m m' where
  inv := st.inv
  tallied hr := st.tallied (free hr)
  covered := st.covered
  persists := st.persists
  frame := by
    intro x' g' hx hg' u hu
    obtain rfl := Option.some.inj hx
    obtain rfl : g = g' := by simpa [hg] using hg'
    exact st.target _ _ fun h' => hu h'.2

theorem free_of_not_repoints (hg : m.addrs x = some g) (hel : m.elems g.impl = some el)
    (hold : Session.endAddr m (el.ends s) = some old)
    (hne : ¬((el.ends s).isSome = true ∧ old = some t))
    (hr : repoints s m (some x) (some t) = false) : m.graph.target g.impl s = none := by
  cases hend : el.ends s with
  | none => exact (target_stored hel).trans hend
  | some e =>
    simp only [repoints, hg, hel, hend, Option.bind_some, bne_eq_false_iff_eq] at hr
    obtain ⟨o, ho, hot⟩ := stored_of_addrOf hr
    simp only [hend, Session.endAddr, ho, Option.bind_eq_bind, Option.bind_some,
      Option.some.injEq] at hold
    exact absurd ⟨by simp [hend], hold ▸ hot⟩ hne

structure ArcReady (ss : Session) (m : Memory) (x : Addr) (g : GlobalAddr) (el : Element) :
    Prop where
  addr : m.addrs x = some g
  alive : g.dead = false
  elem : m.elems g.impl = some el
  connector : el.type.isConnector = true

/-- `set_beg` refuses a connector; a begin of an undefined type is told to become a node. -/
def Readies (ss : Session) (w : Waits) (t : Addr) (m m₀ : Memory) : Prop :=
  ∃ gt et, m.addrs t = some gt ∧ m.elems gt.impl = some et ∧ et.type.isConnector = false ∧
    (et.type &&& .undf = 0 ∧ m₀ = m ∨ et.type &&& .undf ≠ 0 ∧ ∃ rv,
      ss.changeType w m t ((et.type &&& ~~~.syntacticMask) ||| .node) = some (m₀, rv))

/-- What `set_beg` and `set_end` can do. -/
inductive SetStep (h : Holds) (ss : Session) (w : Waits) (s : Endpoint)
    (arc target : Option Addr) (m m' : Memory) : Retval → Prop where
  | kept {rv : Retval} (same : m' = m)
      (there : rv = rvOk → ∃ x, arc = some x ∧ m.endOf x s = target) :
      SetStep h ss w s arc target m m' rv
  | cleared {x : Addr} {g : GlobalAddr} (hx : arc = some x) (none : target = none)
      (addr : m.addrs x = some g) (unends : Inv.Unends h s x g m m') :
      SetStep h ss w s arc target m m' rvOk
  | attached {x t : Addr} {g : GlobalAddr} {el : Element} {m₀ : Memory} (hx : arc = some x)
      (ht : target = some t) (ready : ArcReady ss m x g el)
      (access : ss.access m (some t) = some rvOk) (inv : Inv h m₀)
      (relabels : Relabels (fun _ => True) m m₀) (begs : s = .beg → Readies ss w t m m₀)
      (ends : s = .fin → m₀ = m) (lands : Lands s g.impl t g.seg m₀ m') :
      SetStep h ss w s arc target m m' rvOk

theorem bind_addrOf {ll : Option ElemId} (hold : Session.endAddr m ll = some old) :
    ll.bind m.addrOf = old := by
  cases ll with
  | none => exact Option.some.inj hold
  | some e =>
    obtain ⟨o, ho, hold⟩ := Option.bind_eq_some_iff.mp hold
    exact (addrOf_stored ho).trans (Option.some.inj hold)

theorem endOf_eq (hg : m.addrs x = some g) (hel : m.elems g.impl = some el) :
    m.endOf x s = (el.ends s).bind m.addrOf := by
  simp [Memory.endOf, hg, target_stored hel]

theorem Inv.getType_ok (inv : Inv h m) (ok : ss.access m (some x) = some rvOk) {t : ScType}
    (ht : ss.getType m x = some t) :
    ∃ g el, m.addrs x = some g ∧ g.dead = false ∧ m.elems g.impl = some el ∧ el.type = t := by
  obtain ⟨g, hg, hd, hopen⟩ := access_ok.mp ok
  obtain ⟨el, hel, hgt⟩ := inv.getType_eq hg hd hopen
  exact ⟨g, el, hg, hd, hel, Option.some.inj (hgt.symm.trans ht)⟩

theorem accessBoth_ok (ok : ss.accessBoth m arc target = some rvOk) :
    ss.access m arc = some rvOk ∧ ∀ t, target = some t → ss.access m (some t) = some rvOk := by
  simp only [Session.accessBoth, Option.bind_eq_bind, Option.bind_eq_some_iff] at ok
  obtain ⟨rv, hrv, ok⟩ := ok
  split at ok
  · next hne => exact absurd (Option.some.inj ok) hne
  · next hok =>
    obtain rfl : rv = rvOk := by simpa using hok
    refine ⟨hrv, fun t ht => ?_⟩
    subst ht
    exact ok

theorem access_live (ok : ss.access m (some t) = some rvOk) : m.liveAddr t = true := by
  obtain ⟨gt, hgt, hdt, -⟩ := access_ok.mp ok
  exact liveAddr_eq_true.mpr ⟨gt, hgt, hdt⟩

theorem Inv.setEndCore (inv : Inv h m) (unheld : ∀ n, h.node n = 0) (ready : ArcReady ss m x g el)
    (hacc : ∀ t, target = some t → ss.access m (some t) = some rvOk) (w : Waits)
    (hr : Session.setEndCore m x target = some (m', rv)) :
    SetsEnd h .fin (some x) target m m' ∧ SetStep h ss w .fin (some x) target m m' rv := by
  cases target with
  | none =>
    obtain ⟨m₁, hm₁, u⟩ := inv.setEndCore_none ready.addr
    obtain ⟨rfl, rfl⟩ := Prod.mk.inj (Option.some.inj (hm₁.symm.trans hr))
    exact ⟨u.sets inv ready.addr, .cleared rfl rfl ready.addr u⟩
  | some t =>
    simp only [Session.setEndCore, ready.addr, ready.elem, Option.bind_eq_bind, Option.bind_some,
      Option.bind_eq_some_iff] at hr
    obtain ⟨old, hold, hr⟩ := hr
    split at hr
    · next there =>
      obtain ⟨rfl, -⟩ := Prod.mk.inj (Option.some.inj hr)
      refine ⟨SetsEnd.refl inv, .kept rfl fun _ => ⟨x, rfl, ?_⟩⟩
      rw [endOf_eq ready.addr ready.elem, bind_addrOf hold, there.2]
    · next hne =>
      obtain ⟨m₁, hm₁, hr⟩ := Option.bind_eq_some_iff.mp hr
      obtain ⟨rfl, rfl⟩ := Prod.mk.inj (Option.some.inj hr)
      obtain ⟨sets, lands⟩ := inv.linkEnd unheld ready.addr ready.alive (fun l hl => by
        obtain rfl := Option.some.inj ((label_stored ready.elem).symm.trans hl)
        exact ready.connector) (access_live (hacc t rfl)) hm₁
      refine ⟨sets.setsEnd ready.addr (free_of_not_repoints ready.addr ready.elem hold hne), ?_⟩
      exact .attached rfl rfl ready (hacc t rfl) inv (Relabels.refl _ m) (fun h => by cases h)
        (fun _ => rfl) lands

/-- The begin element turns into a node before it is attached to. It has no ends
of its own, and the arc is another element. -/
theorem Inv.becomeNode (inv : Inv h m) (ready : ArcReady ss m x g el) {gt : GlobalAddr}
    {et : Element} (hgt : m.addrs t = some gt) (het : m.elems gt.impl = some et)
    (hconn : et.type.isConnector = false) (hr : ss.changeType w m t type = some (m', rv)) :
    Inv h m' ∧ Relabels (fun _ => True) m m' ∧ ArcReady ss m' x g el := by
  have hno : ∀ s, m.graph.target gt.impl s = none := by
    intro s
    cases ht : m.graph.target gt.impl s with
    | none => rfl
    | some e =>
      have := inv.typed ht (label_stored het)
      rw [show et.label.type = et.type from rfl, hconn] at this
      cases this
  obtain ⟨inv', r⟩ := inv.changeType hr fun {g' t'} ch ⟨s, hs⟩ => by
    obtain rfl := Option.some.inj (hgt.symm.trans ch.addr)
    exact absurd (hno s) hs
  refine ⟨inv', r, r.addrs ▸ ready.addr, ready.alive, ?_, ready.connector⟩
  rcases changeType_some hr with rfl | ⟨g', t', ch⟩
  · exact ready.elem
  · obtain rfl := Option.some.inj (hgt.symm.trans ch.addr)
    have hne : g.impl ≠ gt.impl := by
      intro hi
      have hel := ready.elem
      rw [hi, het] at hel
      have hc := ready.connector
      rw [← Option.some.inj hel, hconn] at hc
      cases hc
    rw [ch.memory, mapElem_elems, if_neg hne]
    exact ready.elem

theorem attachBeg (unheld : ∀ n, h.node n = 0) {m₁ : Memory} (hg : m.addrs x = some g)
    (hlive : m.liveAddr t = true) (inv₁ : Inv h m₁) (r : Relabels (fun _ => True) m m₁)
    (ready : ArcReady ss m₁ x g el) (hr : Session.linkEnd .beg m₁ g.seg g.impl t = some m')
    (free : repoints .beg m (some x) (some t) = false → m.graph.target g.impl .beg = none) :
    SetsEnd h .beg (some x) (some t) m m' ∧ Lands .beg g.impl t g.seg m₁ m' := by
  obtain ⟨st, lands⟩ := inv₁.linkEnd unheld ready.addr ready.alive (fun l hl => by
    obtain rfl := Option.some.inj ((label_stored ready.elem).symm.trans hl)
    exact ready.connector) ((r.liveAddr t).trans hlive) hr
  have sets : Sets h .beg x g m m' := {
    inv := st.inv
    tallied := fun hf => r.tallied.trans (st.tallied (r.graph ▸ hf))
    covered := fun c => st.covered (r.tallied.covered c)
    persists := r.persists.trans st.persists
    target := fun y u hne => r.graph ▸ st.target y u hne }
  exact ⟨sets.setsEnd hg free, lands⟩

theorem setBegCore_passes (hr : ss.setBegCore w m x target = some (m', rv)) :
    m' = m ∨ ∀ b type, target = some b → ss.getType m b = some type →
      type.isConnector = false := by
  simp only [Session.setBegCore, Option.bind_eq_bind, Option.bind_eq_some_iff] at hr
  obtain ⟨g, -, el, -, old, -, hr⟩ := hr
  split at hr
  · exact .inl (Prod.mk.inj (Option.some.inj hr)).1.symm
  · split at hr
    · exact .inr fun b type hb => by cases hb
    · next b =>
      obtain ⟨type, htype, hr⟩ := Option.bind_eq_some_iff.mp hr
      split at hr
      · exact .inl (Prod.mk.inj (Option.some.inj hr)).1.symm
      · next hconn =>
        refine .inr fun b' type' hb' htype' => ?_
        obtain rfl := Option.some.inj hb'
        obtain rfl := Option.some.inj (htype.symm.trans htype')
        simpa using hconn

theorem Inv.setBegCore (inv : Inv h m) (unheld : ∀ n, h.node n = 0) (ready : ArcReady ss m x g el)
    (hacc : ∀ t, target = some t → ss.access m (some t) = some rvOk)
    (hr : ss.setBegCore w m x target = some (m', rv)) :
    SetsEnd h .beg (some x) target m m' ∧ SetStep h ss w .beg (some x) target m m' rv := by
  cases target with
  | none =>
    obtain ⟨m₁, hm₁, u⟩ := inv.setBegCore_none ready.addr ss w
    obtain ⟨rfl, rfl⟩ := Prod.mk.inj (Option.some.inj (hm₁.symm.trans hr))
    exact ⟨u.sets inv ready.addr, .cleared rfl rfl ready.addr u⟩
  | some t =>
    simp only [Session.setBegCore, ready.addr, ready.elem, Option.bind_eq_bind, Option.bind_some,
      Option.bind_eq_some_iff] at hr
    obtain ⟨old, hold, hr⟩ := hr
    split at hr
    · next there =>
      obtain ⟨rfl, -⟩ := Prod.mk.inj (Option.some.inj hr)
      refine ⟨SetsEnd.refl inv, .kept rfl fun _ => ⟨x, rfl, ?_⟩⟩
      rw [endOf_eq ready.addr ready.elem, bind_addrOf hold, there.2]
    · next hne =>
      obtain ⟨type, htype, hr⟩ := Option.bind_eq_some_iff.mp hr
      obtain ⟨gt, et, hgt, hdt, het, rfl⟩ := inv.getType_ok (hacc t rfl) htype
      split at hr
      · obtain ⟨rfl, rfl⟩ := Prod.mk.inj (Option.some.inj hr)
        exact ⟨SetsEnd.refl inv, .kept rfl fun h => absurd h (by decide)⟩
      · next hconn =>
        have hconn : et.type.isConnector = false := by simpa using hconn
        have hlive : m.liveAddr t = true := liveAddr_eq_true.mpr ⟨gt, hgt, hdt⟩
        have free := free_of_not_repoints ready.addr ready.elem hold hne
        split at hr
        · next hundf =>
          obtain ⟨⟨m₁, rv₁⟩, hm₁, hr⟩ := Option.bind_eq_some_iff.mp hr
          obtain ⟨m₂, hm₂, hr⟩ := Option.bind_eq_some_iff.mp hr
          obtain ⟨rfl, rfl⟩ := Prod.mk.inj (Option.some.inj hr)
          obtain ⟨inv₁, r₁, ready₁⟩ := inv.becomeNode ready hgt het hconn hm₁
          obtain ⟨sets, lands⟩ := attachBeg unheld ready.addr hlive inv₁ r₁ ready₁ hm₂ free
          exact ⟨sets, .attached rfl rfl ready (hacc t rfl) inv₁ r₁
            (fun _ => ⟨gt, et, hgt, het, hconn, .inr ⟨hundf, rv₁, hm₁⟩⟩) (fun h => by cases h)
              lands⟩
        · next hundf =>
          obtain ⟨m₂, hm₂, hr⟩ := Option.bind_eq_some_iff.mp hr
          obtain ⟨rfl, rfl⟩ := Prod.mk.inj (Option.some.inj hr)
          obtain ⟨sets, lands⟩ :=
            attachBeg unheld ready.addr hlive inv (Relabels.refl _ m) ready hm₂ free
          exact ⟨sets, .attached rfl rfl ready (hacc t rfl) inv (Relabels.refl _ m)
            (fun _ => ⟨gt, et, hgt, het, hconn, .inl ⟨by simpa using hundf, rfl⟩⟩)
            (fun h => by cases h) lands⟩

theorem Inv.arcReady (inv : Inv h m) (ok : ss.accessBoth m arc target = some rvOk)
    (harc : arc = some x) (htype : ss.getType m x = some type) (hconn : type.isConnector = true) :
    (∃ g el, ArcReady ss m x g el) ∧ ∀ t, target = some t → ss.access m (some t) = some rvOk := by
  obtain ⟨hok, htarget⟩ := accessBoth_ok ok
  obtain ⟨g, el, hg, hd, hel, rfl⟩ := inv.getType_ok (harc ▸ hok) htype
  exact ⟨⟨g, el, hg, hd, hel, hconn⟩, htarget⟩

/-- `set_beg` and `set_end` of the host. -/
def Session.setEnds (ss : Session) (w : Waits) (s : Endpoint) (m : Memory)
    (arc target : Option Addr) : Option (Memory × Retval) :=
  match s with
  | .beg => ss.setBeg w m arc target
  | .fin => ss.setEnd w m arc target

/-- `set_beg_pre` and `set_end_pre`. -/
def setPre (w : Waits) (s : Endpoint) (m : Memory) (arc : Addr) (target : Option Addr) :
    Option Bool :=
  match s with
  | .beg => Session.setBegPre w m arc target
  | .fin => Session.setEndPre w m arc target

/-- `__set_beg` and `__set_end`. -/
def setCore (ss : Session) (w : Waits) (s : Endpoint) (m : Memory) (x : Addr)
    (target : Option Addr) : Option (Memory × Retval) :=
  match s with
  | .beg => ss.setBegCore w m x target
  | .fin => Session.setEndCore m x target

inductive SetCall (ss : Session) (w : Waits) (s : Endpoint) (m : Memory)
    (arc target : Option Addr) (m' : Memory) (rv : Retval) : Prop where
  | refused (same : m' = m) (failed : rv ≠ rvOk)
      (why : ss.accessBoth m arc target ≠ some rvOk ∨ ∃ x, arc = some x ∧
        ((∃ type, ss.getType m x = some type ∧ type.isConnector = false) ∨
          setPre w s m x target = some true))
  | works {x : Addr} {type : ScType} (harc : arc = some x)
      (both : ss.accessBoth m arc target = some rvOk) (htype : ss.getType m x = some type)
      (hconn : type.isConnector = true) (core : setCore ss w s m x target = some (m', rv))
      (pre : setPre w s m x target = some false)

theorem setEnds_eq (ss : Session) (w : Waits) (s : Endpoint) (m : Memory)
    (arc target : Option Addr) : ss.setEnds w s m arc target =
      (ss.accessBoth m arc target).bind fun rv₀ =>
        if rv₀ ≠ rvOk then some (m, rv₀)
        else arc.bind fun x => (ss.getType m x).bind fun type =>
          if !type.isConnector then some (m, rvErrGen)
          else (setPre w s m x target).bind fun refused =>
            if refused then some (m, rvElseGen) else setCore ss w s m x target := by
  cases s <;> rfl

theorem setEnds_some (hr : ss.setEnds w s m arc target = some (m', rv)) :
    SetCall ss w s m arc target m' rv := by
  rw [setEnds_eq] at hr
  obtain ⟨rv₀, both, hr⟩ := Option.bind_eq_some_iff.mp hr
  split at hr
  · next hrv =>
    obtain ⟨rfl, rfl⟩ := Prod.mk.inj (Option.some.inj hr)
    refine .refused rfl hrv (.inl ?_)
    rw [both]
    exact fun ok => hrv (Option.some.inj ok)
  · next hrv =>
    obtain rfl : rv₀ = rvOk := by simpa using hrv
    obtain ⟨x, harc, hr⟩ := Option.bind_eq_some_iff.mp hr
    obtain ⟨type, htype, hr⟩ := Option.bind_eq_some_iff.mp hr
    split at hr
    · next hconn =>
      obtain ⟨rfl, rfl⟩ := Prod.mk.inj (Option.some.inj hr)
      exact .refused rfl (by decide) (.inr ⟨x, harc, .inl ⟨type, htype, by simpa using hconn⟩⟩)
    · next hconn =>
      obtain ⟨refused, pre, hr⟩ := Option.bind_eq_some_iff.mp hr
      cases refused with
      | true =>
        obtain ⟨rfl, rfl⟩ := Prod.mk.inj (Option.some.inj hr)
        exact .refused rfl (by decide) (.inr ⟨x, harc, .inr pre⟩)
      | false => exact .works harc both htype (by simpa using hconn) hr pre

section

variable (inv : Inv h m) (unheld : ∀ n, h.node n = 0)
include inv unheld

theorem Inv.setCore (ready : ArcReady ss m x g el)
    (hacc : ∀ t, target = some t → ss.access m (some t) = some rvOk)
    (hr : setCore ss w s m x target = some (m', rv)) :
    SetsEnd h s (some x) target m m' ∧ SetStep h ss w s (some x) target m m' rv := by
  cases s with
  | beg => exact inv.setBegCore unheld ready hacc hr
  | fin => exact inv.setEndCore unheld ready hacc w hr

theorem Inv.setsEnd (hr : ss.setEnds w s m arc target = some (m', rv)) :
    SetsEnd h s arc target m m' ∧ SetStep h ss w s arc target m m' rv ∧
      (m' = m ∨ ss.accessBoth m arc target = some rvOk ∧ ∃ x, arc = some x ∧
        setPre w s m x target = some false ∧ ScCore.Store.setCore ss w s m x target = some
          (m', rv)) := by
  cases setEnds_some hr with
  | refused same failed =>
    subst same
    exact ⟨SetsEnd.refl inv, .kept rfl fun h => absurd h failed, .inl rfl⟩
  | works harc both htype hconn core pre =>
    subst harc
    obtain ⟨⟨g, el, ready⟩, htarget⟩ := inv.arcReady both rfl htype hconn
    obtain ⟨sets, step⟩ := inv.setCore unheld ready htarget core
    exact ⟨sets, step, .inr ⟨both, _, rfl, pre, core⟩⟩

theorem Inv.setEnd (hr : ss.setEnd w m arc target = some (m', rv)) :
    SetsEnd h .fin arc target m m' ∧ (m' = m ∨ endPasses ss w m arc target) ∧
      SetStep h ss w .fin arc target m m' rv := by
  obtain ⟨sets, step, passes⟩ := @Inv.setsEnd h m m' .fin ss w arc target rv inv unheld hr
  refine ⟨sets, passes.imp_right ?_, step⟩
  rintro ⟨both, x, harc, pre, -⟩
  exact ⟨both, x, harc, pre⟩

theorem Inv.setBeg (hr : ss.setBeg w m arc target = some (m', rv)) :
    SetsEnd h .beg arc target m m' ∧ (m' = m ∨ begPasses ss w m arc target) ∧
      SetStep h ss w .beg arc target m m' rv := by
  obtain ⟨sets, step, passes⟩ := @Inv.setsEnd h m m' .beg ss w arc target rv inv unheld hr
  refine ⟨sets, passes.elim .inl ?_, step⟩
  rintro ⟨both, x, harc, pre, core⟩
  exact (setBegCore_passes core).imp_right fun plain => ⟨both, ⟨x, harc, pre⟩, plain⟩

end

end ScCore.Store
