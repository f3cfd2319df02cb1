import ScCore.Store.Run
import Mathlib.Algebra.Order.Group.Int

/-!
# Connectors begin at no connector

`set_beg` refuses a begin that is a connector, and `verify_type_changing`
refuses to make a connector of a node where arcs begin. The other old types
have no such check.
-/

namespace ScCore

namespace Store

open Memory TmpSegment

def BegsPlain (m : Memory) : Prop :=
  ∀ x e b g l, m.graph.target x .beg = some e → m.addrOf e = some b → m.addrs b = some g →
    m.label g.impl = some l → l.type.isConnector = false

variable {h : Holds} {m m' : Memory} {a : Addr} {g : GlobalAddr} {ss : Session} {w : Waits}
  {rv : Retval} {s : Endpoint}

namespace BegsPlain

theorem shrinks (plain : BegsPlain m) (sh : Shrinks m m') : BegsPlain m' := by
  intro x e b g' l' ht he hb hl'
  obtain ⟨g, hg, -, hi, -⟩ := sh.addr hb
  rw [hi] at hl'
  obtain ⟨l, hl, -, htype⟩ := sh.label hl'
  rw [htype]
  exact plain x e b g l (sh.target ht) (sh.addrOf he) hg hl

theorem renames {P : ElemId → Prop} (plain : BegsPlain m) (inv : Inv h m) (r : Renames P m m') :
    BegsPlain m' :=
  plain.shrinks (r.relabels.shrinks inv.toGraphInv r.types)

theorem created (plain : BegsPlain m) (inv : Inv h m) (seg : SegId) (t : ScType) :
    BegsPlain (created m seg t) := by
  have ad := adds_created m seg t
  intro x e b g l ht he hb hl
  rw [ad.graph inv.toAddrInv] at ht
  obtain ⟨o, b', ho, hob, -⟩ := inv.target_addr ht
  have he₀ : m.addrOf e = some b' := (addrOf_stored ho).trans hob
  rw [ad.addrOf_old (Adds.ne_new inv.toAddrInv he₀)] at he
  obtain ⟨g₀, hg₀, -⟩ := inv.addr_stores he
  have hne : b ≠ m.nextAddr := by
    rintro rfl
    simp [inv.unusedAddr] at hg₀
  rw [created_addrs, if_neg hne] at hb
  have hown := inv.stores_addr hb (List.mem_cons_self : (⟨g.seg, g.impl⟩ : LinkAddr) ∈ g.stores)
  rw [ad.label_old (Adds.ne_new inv.toAddrInv hown)] at hl
  exact plain x e b g l ht he hb hl

theorem unlinks {la : LinkAddr} (plain : BegsPlain m) (u : Unlinks a la m m') : BegsPlain m' := by
  intro x e b g' l ht he hb hl
  obtain ⟨el, hel, hend⟩ := stored_of_target ht
  obtain ⟨g, hg, -, hi, -⟩ := u.addrs_some hb
  obtain ⟨own, hown, rfl⟩ := Option.map_eq_some_iff.mp hl
  rw [hi] at hown
  have ht₀ : m.graph.target x .beg = some e := (target_stored (u.elems_some hel).2).trans hend
  exact plain x e b g _ ht₀ (u.addrOf_some he).2 hg (label_stored (u.elems_some hown).2)

end BegsPlain

theorem Readies.plain {t : Addr} {m₀ : Memory} (inv : Inv h m) (plain : BegsPlain m)
    (readies : Readies ss w t m m₀) : BegsPlain m₀ ∧ ∀ gt l, m₀.addrs t = some gt →
      m₀.label gt.impl = some l → l.type.isConnector = false := by
  obtain ⟨gt, et, hgt, het, hconn, ⟨-, rfl⟩ | ⟨-, rv, hchange⟩⟩ := readies
  · refine ⟨plain, fun gt' l hgt' hl => ?_⟩
    obtain rfl := Option.some.inj (hgt.symm.trans hgt')
    obtain rfl := Option.some.inj ((label_stored het).symm.trans hl)
    exact hconn
  · rcases changeType_some hchange with rfl | ⟨g', t', ch⟩
    · refine ⟨plain, fun gt' l hgt' hl => ?_⟩
      obtain rfl := Option.some.inj (hgt.symm.trans hgt')
      obtain rfl := Option.some.inj ((label_stored het).symm.trans hl)
      exact hconn
    · obtain rfl := Option.some.inj (hgt.symm.trans ch.addr)
      have hplain : t'.isConnector = false :=
        (ScType.isConnector_verify ch.verify).trans (ScType.isConnector_asNode et.type)
      have hlabel : ∀ e l, m₀.label e = some l → l.type.isConnector = false ∧ e = gt.impl ∨
          e ≠ gt.impl ∧ m.label e = some l := by
        intro e l hl
        rw [ch.memory, Memory.label, mapElem_elems] at hl
        split at hl
        · next he =>
          obtain ⟨el, hel, rfl⟩ := Option.map_eq_some_iff.mp hl
          obtain ⟨el₀, -, rfl⟩ := Option.map_eq_some_iff.mp hel
          exact .inl ⟨hplain, he⟩
        · next he => exact .inr ⟨he, hl⟩
      have r : Relabels (fun _ => True) m m₀ := by
        rw [ch.memory]
        exact Relabels.mapElem trivial ⟨fun _ => rfl, fun _ => rfl, fun _ => rfl, fun _ => rfl,
          fun _ => rfl⟩
      constructor
      · intro x e b g l ht he hb hl
        rw [r.graph] at ht
        rw [r.addrOf] at he
        rw [r.addrs] at hb
        rcases hlabel _ _ hl with ⟨hl, -⟩ | ⟨-, hl⟩
        · exact hl
        · exact plain x e b g l ht he hb hl
      · intro gt' l hgt' hl
        rw [r.addrs] at hgt'
        obtain rfl := Option.some.inj (hgt.symm.trans hgt')
        rcases hlabel _ _ hl with ⟨hl, -⟩ | ⟨hne, -⟩
        · exact hl
        · exact absurd rfl hne

theorem BegsPlain.lands {arc : ElemId} {t : Addr} {seg : SegId} (plain : BegsPlain m)
    (inv : Inv h m) {gt : GlobalAddr} (hgt : m.addrs t = some gt)
    (own : s = .beg → ∀ l, m.label gt.impl = some l → l.type.isConnector = false)
    (lands : Lands s arc t seg m m') : BegsPlain m' := by
  have kept : ∀ {b g g' l'}, m.addrs b = some g → m'.addrs b = some g' →
      m'.label g'.impl = some l' → ∃ l, m.label g.impl = some l ∧ l'.type = l.type := by
    intro b g g' l' hb hb' hl'
    obtain ⟨g'', hg'', -, hi, -⟩ := lands.persists.addrs hb
    obtain rfl := Option.some.inj (hb'.symm.trans hg'')
    obtain ⟨own, hown, -⟩ := inv.own_stored hb
    obtain ⟨l'', hl'', htype⟩ := lands.type (label_stored hown)
    rw [hi, hl''] at hl'
    obtain rfl := Option.some.inj hl'
    exact ⟨_, label_stored hown, htype⟩
  intro x e b g' l' ht he hb hl'
  by_cases new : x = arc ∧ Endpoint.beg = s
  · obtain ⟨rfl, rfl⟩ := new
    obtain ⟨ll, hll, hlla⟩ := lands.target
    obtain rfl := Option.some.inj (hll.symm.trans ht)
    obtain rfl := Option.some.inj (hlla.symm.trans he)
    obtain ⟨l, hl, htype⟩ := kept hgt hb hl'
    rw [htype]
    exact own rfl l hl
  · rw [lands.frame x .beg new] at ht
    obtain ⟨o, b', ho, hob, -⟩ := inv.target_addr ht
    have he₀ : m.addrOf e = some b' := (addrOf_stored ho).trans hob
    obtain rfl := Option.some.inj ((lands.persists.addrOf he₀).symm.trans he)
    obtain ⟨g, hg, -⟩ := inv.addr_stores he₀
    obtain ⟨l, hl, htype⟩ := kept hg hb hl'
    rw [htype]
    exact plain x e b' g l ht he₀ hg hl

theorem BegsPlain.setStep {arc target : Option Addr} (plain : BegsPlain m) (inv : Inv h m)
    (step : SetStep h ss w s arc target m m' rv) : BegsPlain m' := by
  cases step with
  | kept same => exact same ▸ plain
  | cleared _ _ _ u => exact plain.shrinks u.forgets.shrinks
  | @attached x t g el m₀ _ _ _ access inv₀ relabels begs ends lands =>
    obtain ⟨gt, hgt, -⟩ := access_ok.mp access
    have hgt₀ : m₀.addrs t = some gt := relabels.addrs ▸ hgt
    cases s with
    | fin =>
      obtain rfl := ends rfl
      apply plain.lands inv hgt ?_ lands
      intro h
      cases h
    | beg =>
      obtain ⟨plain₀, own₀⟩ := (begs rfl).plain inv plain
      exact plain₀.lands inv₀ hgt₀ (fun _ l hl => own₀ gt l hgt₀ hl) lands

theorem Inv.arc_counted (inv : Inv h m) (covered : Covered m) {x e : ElemId}
    (ht : m.graph.target x s = some e) (he : m.addrOf e = some a) (hg : m.addrs a = some g) :
    0 < g.qnt s := by
  have listed : 0 < m.qnt e s := by
    rw [inv.qnt_eq]
    have hx : x ∈ m.graph.arcs e s := (inv.coherent.mem_arcs_iff).mpr ht
    have := List.length_pos_of_mem hx
    omega
  obtain ⟨g', hg', st, hst, rfl⟩ := inv.addr_stores he
  obtain rfl := Option.some.inj (hg.symm.trans hg')
  have nonneg : ∀ q ∈ g.stores.map fun st => m.qnt st.impl s, 0 ≤ q := by
    intro q hq
    obtain ⟨st', -, rfl⟩ := List.mem_map.mp hq
    rw [inv.qnt_eq]
    omega
  have le_sum := List.single_le_sum nonneg _ (List.mem_map_of_mem hst)
  have := covered a g s hg
  omega

/-- A change of type that goes through on an element where arcs begin, to a connector's type,
finds a node that would not stay one. -/
def begsKeepType : Guard := fun ss w op m =>
  match op with
  | .changeType a type =>
      ∀ g el t, ss.access m (some a) = some rvOk → type.verify = some t → m.addrs a = some g →
        m.elems g.impl = some el → w m a .changeTypePre [a] = false →
        (∃ x e, m.graph.target x .beg = some e ∧ m.addrOf e = some a) → t.isConnector = true →
        el.type.syntactic = .node ∧ t.isa .node = false
  | _ => True

theorem BegsPlain.changeType {type : ScType} (plain : BegsPlain m) (inv : Inv h m)
    (covered : Covered m) (ok : begsKeepType ss w (.changeType a type) m)
    (hr : ss.changeType w m a type = some (m', rv)) : BegsPlain m' := by
  rcases changeType_some hr with rfl | ⟨g, t, ch⟩
  · exact plain
  · have r : Relabels (· = g.impl) m m' := by
      rw [ch.memory]
      exact Relabels.mapElem (P := (· = g.impl)) rfl ⟨fun _ => rfl, fun _ => rfl, fun _ => rfl,
        fun _ => rfl, fun _ => rfl⟩
    obtain ⟨el, hel, hela⟩ := inv.own_stored ch.addr
    intro x e b gb l ht he hb hl
    rw [r.graph] at ht
    rw [r.addrOf] at he
    rw [r.addrs] at hb
    by_cases same : gb.impl = g.impl
    · have own : ∀ g : GlobalAddr, (⟨g.seg, g.impl⟩ : LinkAddr) ∈ g.stores := fun _ =>
        List.mem_cons_self
      have hba : b = a := inv.addr_unique hb ch.addr (own gb) (own g) same
      subst hba
      by_contra hconn
      rw [Bool.not_eq_false] at hconn
      have hlabel : l.type = t := by
        have hel' := elems_mapElem (e := g.impl) (fun el => { el with type := t }) hel
        rw [← ch.memory, if_pos rfl] at hel'
        rw [same, label_stored hel'] at hl
        exact (congrArg Label.type (Option.some.inj hl)).symm
      rw [hlabel] at hconn
      obtain ⟨hnode, hisa⟩ :=
        ok g el t ch.access ch.verify ch.addr hel ch.unrefused ⟨x, e, ht, he⟩ hconn
      have hallowed := ch.allowed
      have hundf : ScType.node ≠ .undf := by decide
      simp only [Session.verifyTypeChanging, ch.addr, hel, Option.bind_eq_bind, Option.bind_some,
        hundf, hnode, hisa, if_false, if_true, Bool.false_eq_true, Option.some.injEq,
        beq_iff_eq] at hallowed
      have := inv.arc_counted covered ht he ch.addr
      omega
    · rw [r.label _ same] at hl
      exact plain x e b gb l ht he hb hl

theorem Inv.eraseEl_plain (inv : Inv h m) (unheld : ∀ n, h.node n = 0) (plain : BegsPlain m)
    {fuel : Nat} {a : Option Addr} (hr : ss.eraseEl w fuel m a = some (m', rv)) : BegsPlain m' := by
  rcases inv.eraseEl unheld hr with ⟨rfl, -⟩ | ⟨b, -, -, -, er⟩
  · exact plain
  · exact plain.shrinks er.cascade.shrinks

theorem closed_plain (ss : Session) (w : Waits) (unheld : ∀ n, h.node n = 0) :
    Closed ss w fun m => Inv h m ∧ BegsPlain m where
  createEl := by
    rintro m m' seg t a rv ⟨inv, plain⟩ hr
    rcases createEl_some hr with ⟨rfl, -⟩ | ⟨t, rfl, -⟩
    · exact ⟨inv, plain⟩
    · exact ⟨(inv.created seg t).1, plain.created inv seg t⟩
  setBeg := by
    rintro m m' arc beg rv ⟨inv, plain⟩ hr
    obtain ⟨sets, -, step⟩ := inv.setBeg unheld hr
    exact ⟨sets.inv, plain.setStep inv step⟩
  setEnd := by
    rintro m m' arc fin rv ⟨inv, plain⟩ hr
    obtain ⟨sets, -, step⟩ := inv.setEnd unheld hr
    exact ⟨sets.inv, plain.setStep inv step⟩
  eraseEl := by
    rintro m m' fuel a rv ⟨inv, plain⟩ hr
    exact ⟨(inv.eraseEl_keeps unheld hr).1, inv.eraseEl_plain unheld plain hr⟩

def connectorsKeepType : Guard := fun ss w op m =>
  arcsKeepType ss w op m ∧ begsKeepType ss w op m

section Exec

variable {fuel : Nat} {op : Op} {st st' : State}

theorem BegsPlain.exec (inv : StateInv st) (covered : Covered st.memory)
    (plain : BegsPlain st.memory) (ok : begsKeepType ss w op st.memory)
    (hr : op.exec ss w fuel st = some st') : BegsPlain st'.memory := by
  have unheld : ∀ n, (clientHolds st.refs).node n = 0 := fun _ => rfl
  have closed := closed_plain ss w unheld
  have both : Inv (clientHolds st.refs) st.memory ∧ BegsPlain st.memory := ⟨inv, plain⟩
  cases op.ran hr with
  | createEl call => exact (closed.createEl both call).2
  | setBeg call => exact (closed.setBeg both call).2
  | setEnd call => exact (closed.setEnd both call).2
  | changeType call => exact plain.changeType inv covered ok call
  | setIdtf call => exact plain.renames inv (renames_sessionSetIdtf call)
  | gen3 call => exact (closed.gen3 both call).2
  | gen5 call => exact (closed.gen5 both call).2
  | eraseEl call => exact (closed.eraseEl both call).2
  | eraseLonelyLinkTo call =>
    rcases eraseLonelyLinkTo_some call with rfl | ⟨g, la, el, -, -, -, -, u⟩
    · exact plain
    · exact plain.unlinks u
  | ref call => exact plain.shrinks (inv.ref call).2.2.shrinks
  | unref held call => exact plain.shrinks (inv.unref held call).2.2.shrinks

/-- What is asked for: connectors begin at no connector, and nothing but connectors has ends. -/
structure ConnectorsPlain (m : Memory) : Prop where
  begs : ∀ x g el b gb eb, m.addrs x = some g → g.dead = false → m.elems g.impl = some el →
    el.type.isConnector = true → m.endOf x .beg = some b → m.addrs b = some gb →
    m.elems gb.impl = some eb → eb.type.isConnector = false
  ends : ∀ x g el, m.addrs x = some g → g.dead = false → m.elems g.impl = some el →
    el.type.isConnector = false → ∀ s, el.ends s = none

theorem BegsPlain.connectorsPlain (plain : BegsPlain m) (inv : Inv h m) : ConnectorsPlain m where
  begs := by
    intro x g el b gb eb hg _ _ _ hb hgb heb
    simp only [Memory.endOf, hg, Option.bind_some] at hb
    obtain ⟨e, ht, he⟩ := Option.bind_eq_some_iff.mp hb
    exact plain _ e b gb eb.label ht he hgb (label_stored heb)
  ends := by
    intro x g el hg _ hel hconn s
    cases hend : el.ends s with
    | none => rfl
    | some e =>
      have := inv.typed ((target_stored hel).trans hend) (label_stored hel)
      rw [show el.label.type = el.type from rfl, hconn] at this
      cases this

/-- In every run whose changes of type leave neither ends nor begins behind, connectors
begin at no connector and nothing but connectors has ends. -/
theorem connectors_plain_of_run (uri tmpPrefix : SegId → ScString) (st : State)
    (run : Reaches connectorsKeepType (State.initial uri tmpPrefix) st) :
    ConnectorsPlain st.memory := by
  have all : StateInv st ∧ Covered st.memory ∧ BegsPlain st.memory := by
    apply run.invariant (P := fun st => StateInv st ∧ Covered st.memory ∧ BegsPlain st.memory)
    · refine ⟨(StateInv.initial uri tmpPrefix).1, ?_, ?_⟩
      · intro a g s hg
        cases hg
      · intro x e b g l ht
        cases ht
    · rintro ss w fuel op st₁ st₂ ⟨inv, covered, plain⟩ ⟨okEnds, okBegs⟩ hexec
      obtain ⟨inv', -, covered'⟩ := inv.exec okEnds hexec
      exact ⟨inv', covered' covered, plain.exec inv covered okBegs hexec⟩
  exact all.2.2.connectorsPlain all.1

def begunOps : List Op := [.createEl 0 .node, .createEl 0 .arc, .setBeg (some 1) (some 0)]

theorem connectors_plain_of_run_begun :
    ∃ st st', runOps 0 begunOps (State.initial (fun _ => []) fun _ => []) = some st ∧
      (Op.changeType 0 .arc).exec systemSession noWaits 0 st = some st' ∧
      st'.memory.endOf 1 .beg = some 0 ∧ ConnectorsPlain st'.memory := by
  have hrun : ∃ st st', runOps 0 begunOps (State.initial (fun _ => []) fun _ => []) = some st ∧
      (Op.changeType 0 .arc).exec systemSession noWaits 0 st = some st' ∧
      st'.memory.endOf 1 .beg = some 0 ∧ ∃ g el, st.memory.addrs 0 = some g ∧
        st.memory.elems g.impl = some el ∧ el.type = .node ||| .const := by
    refine ⟨_, _, rfl, rfl, ?_, _, _, rfl, rfl, ?_⟩ <;> rfl
  obtain ⟨st, st', hst, hst', hend, g, el, hg, hel, htype⟩ := hrun
  refine ⟨st, st', hst, hst', hend, connectors_plain_of_run (fun _ => []) (fun _ => []) st' ?_⟩
  refine Reaches.step systemSession noWaits 0 _ (reaches_runOps begunOps ?_ (.refl _) hst) ?_ hst'
  · intro op hop m
    simp only [begunOps, List.mem_cons, List.not_mem_nil, or_false] at hop
    rcases hop with rfl | rfl | rfl <;> exact ⟨trivial, trivial⟩
  · have verified : ScType.verify .arc = some (.arc ||| .const) := by decide
    constructor
    · intro g' el' t _ ht _ _ _ _ hconn
      obtain rfl := Option.some.inj (verified.symm.trans ht)
      cases hconn
    · intro g' el' t _ ht hg' hel' _ _ _
      obtain rfl := Option.some.inj (verified.symm.trans ht)
      obtain rfl := Option.some.inj (hg.symm.trans hg')
      obtain rfl := Option.some.inj (hel.symm.trans hel')
      rw [htype]
      decide

def isGraphOp : Op → Bool
  | .createEl _ _ | .changeType _ _ | .setBeg _ _ | .setEnd _ _ | .gen3 _ _ _ _
  | .gen5 _ _ _ _ _ _ _ | .eraseEl _ => true
  | _ => false

def linkOps : List Op :=
  [.createEl 0 .link, .createEl 0 .arc, .setBeg (some 1) (some 0), .changeType 0 .arc]

theorem connectors_plain_fails : ¬∀ (uri tmpPrefix : SegId → ScString) (st : State),
    Reaches (fun _ _ op _ => isGraphOp op = true) (State.initial uri tmpPrefix) st →
      ConnectorsPlain st.memory := by
  intro claim
  have hrun : ∃ st, runOps 0 linkOps (State.initial (fun _ => []) fun _ => []) = some st ∧
      (∃ g el, st.memory.addrs 1 = some g ∧ g.dead = false ∧ st.memory.elems g.impl = some el ∧
        el.type.isConnector = true) ∧ st.memory.endOf 1 .beg = some 0 ∧
      ∃ g el, st.memory.addrs 0 = some g ∧ st.memory.elems g.impl = some el ∧
        el.type.isConnector = true := by
    refine ⟨_, rfl, ⟨_, _, rfl, ?_, rfl, ?_⟩, ?_, _, _, rfl, rfl, ?_⟩ <;> rfl
  obtain ⟨st, hst, ⟨g, el, hg, hd, hel, hconn⟩, hend, gb, eb, hgb, heb, hbconn⟩ := hrun
  have plain := claim _ _ st (reaches_runOps linkOps
    (fun op hop _ => (by decide : ∀ op ∈ linkOps, isGraphOp op = true) op hop) (.refl _) hst)
  rw [plain.begs 1 g el 0 gb eb hg hd hel hconn hend hgb heb] at hbconn
  cases hbconn

end Exec

end Store

end ScCore
