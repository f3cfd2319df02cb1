import ScCore.Store.LonelyLink

/-!
# Runs of the storage

A run is any sequence of session calls, each by any session and with any waits
attached at the time. Besides the calls clients take and drop references to
addresses.
-/

namespace ScCore.Store

open Memory TmpSegment

inductive Op where
  | createEl (seg : SegId) (type : ScType)
  | setBeg (arc beg : Option Addr)
  | setEnd (arc fin : Option Addr)
  | changeType (a : Addr) (type : ScType)
  | setIdtf (a : Addr) (idtf : ScString)
  | gen3 (e1 : Option Addr) (s2 : SegId) (t2 : ScType) (e3 : Option Addr)
  | gen5 (e1 : Option Addr) (s2 : SegId) (t2 : ScType) (e3 : Option Addr) (s4 : SegId)
      (t4 : ScType) (e5 : Option Addr)
  | eraseEl (a : Option Addr)
  | eraseLonelyLinkTo (seg : SegId) (a : Addr)
  | ref (a : Addr)
  | unref (a : Addr)

structure State where
  memory : Memory
  refs : Addr → Nat

def State.initial (uri tmpPrefix : SegId → ScString) : State :=
    ⟨Memory.empty uri tmpPrefix, fun _ => 0⟩

def Op.exec (ss : Session) (w : Waits) (fuel : Nat) (op : Op) (st : State) : Option State :=
  let m := st.memory
  let keep (m : Option Memory) : Option State := m.map fun m => { st with memory := m }
  match op with
  | .createEl seg type => keep ((ss.createEl m seg type).map (·.1))
  | .setBeg arc beg => keep ((ss.setBeg w m arc beg).map (·.1))
  | .setEnd arc fin => keep ((ss.setEnd w m arc fin).map (·.1))
  | .changeType a type => keep ((ss.changeType w m a type).map (·.1))
  | .setIdtf a idtf => keep ((ss.setIdtf m a idtf).map (·.1))
  | .gen3 e1 s2 t2 e3 => keep ((ss.gen3 w fuel m e1 s2 t2 e3).map (·.1))
  | .gen5 e1 s2 t2 e3 s4 t4 e5 => keep ((ss.gen5 w fuel m e1 s2 t2 e3 s4 t4 e5).map (·.1))
  | .eraseEl a => keep ((ss.eraseEl w fuel m a).map (·.1))
  | .eraseLonelyLinkTo seg a => keep (Session.eraseLonelyLinkTo m seg a)
  | .ref a =>
      (GlobalAddr.ref m a).map fun m =>
        ⟨m, fun b => if b = a then st.refs b + 1 else st.refs b⟩
  | .unref a =>
      if st.refs a = 0 then none
      else
        (GlobalAddr.unref m a).map fun m =>
          ⟨m, fun b => if b = a then st.refs b - 1 else st.refs b⟩

inductive Op.Ran (ss : Session) (w : Waits) (fuel : Nat) (st : State) : Op → State → Prop where
  | createEl {seg : SegId} {type : ScType} {m : Memory} {a : Option Addr} {rv : Retval}
      (call : ss.createEl st.memory seg type = some (m, a, rv)) :
      Ran ss w fuel st (.createEl seg type) { st with memory := m }
  | setBeg {arc beg : Option Addr} {m : Memory} {rv : Retval}
      (call : ss.setBeg w st.memory arc beg = some (m, rv)) :
      Ran ss w fuel st (.setBeg arc beg) { st with memory := m }
  | setEnd {arc fin : Option Addr} {m : Memory} {rv : Retval}
      (call : ss.setEnd w st.memory arc fin = some (m, rv)) :
      Ran ss w fuel st (.setEnd arc fin) { st with memory := m }
  | changeType {a : Addr} {type : ScType} {m : Memory} {rv : Retval}
      (call : ss.changeType w st.memory a type = some (m, rv)) :
      Ran ss w fuel st (.changeType a type) { st with memory := m }
  | setIdtf {a : Addr} {idtf : ScString} {m : Memory} {rv : Retval}
      (call : ss.setIdtf st.memory a idtf = some (m, rv)) :
      Ran ss w fuel st (.setIdtf a idtf) { st with memory := m }
  | gen3 {e1 : Option Addr} {s2 : SegId} {t2 : ScType} {e3 : Option Addr} {m : Memory}
      {r : Option Addr} {rv : Retval}
      (call : ss.gen3 w fuel st.memory e1 s2 t2 e3 = some (m, r, rv)) :
      Ran ss w fuel st (.gen3 e1 s2 t2 e3) { st with memory := m }
  | gen5 {e1 : Option Addr} {s2 : SegId} {t2 : ScType} {e3 : Option Addr} {s4 : SegId}
      {t4 : ScType} {e5 : Option Addr} {m : Memory} {r : Option (Addr × Addr)} {rv : Retval}
      (call : ss.gen5 w fuel st.memory e1 s2 t2 e3 s4 t4 e5 = some (m, r, rv)) :
      Ran ss w fuel st (.gen5 e1 s2 t2 e3 s4 t4 e5) { st with memory := m }
  | eraseEl {a : Option Addr} {m : Memory} {rv : Retval}
      (call : ss.eraseEl w fuel st.memory a = some (m, rv)) :
      Ran ss w fuel st (.eraseEl a) { st with memory := m }
  | eraseLonelyLinkTo {seg : SegId} {a : Addr} {m : Memory}
      (call : Session.eraseLonelyLinkTo st.memory seg a = some m) :
      Ran ss w fuel st (.eraseLonelyLinkTo seg a) { st with memory := m }
  | ref {a : Addr} {m : Memory} (call : GlobalAddr.ref st.memory a = some m) :
      Ran ss w fuel st (.ref a) ⟨m, fun b => if b = a then st.refs b + 1 else st.refs b⟩
  | unref {a : Addr} {m : Memory} (held : st.refs a ≠ 0)
      (call : GlobalAddr.unref st.memory a = some m) :
      Ran ss w fuel st (.unref a) ⟨m, fun b => if b = a then st.refs b - 1 else st.refs b⟩

theorem Op.ran {ss : Session} {w : Waits} {fuel : Nat} {op : Op} {st st' : State}
    (hr : op.exec ss w fuel st = some st') : op.Ran ss w fuel st st' := by
  cases op
  case unref a =>
    rw [Op.exec] at hr
    split at hr
    · cases hr
    · next held =>
      obtain ⟨m, call, rfl⟩ := Option.map_eq_some_iff.mp hr
      exact .unref held call
  all_goals
    simp only [Op.exec, Option.map_map, Option.map_eq_some_iff] at hr
    obtain ⟨result, call, rfl⟩ := hr
  case createEl => exact .createEl call
  case setBeg => exact .setBeg call
  case setEnd => exact .setEnd call
  case changeType => exact .changeType call
  case setIdtf => exact .setIdtf call
  case gen3 => exact .gen3 call
  case gen5 => exact .gen5 call
  case eraseEl => exact .eraseEl call
  case eraseLonelyLinkTo => exact .eraseLonelyLinkTo call
  case ref => exact .ref call

/-- A condition on a call and the memory it finds. -/
abbrev Guard := Session → Waits → Op → Memory → Prop

inductive Reaches (ok : Guard) : State → State → Prop where
  | refl (st : State) : Reaches ok st st
  | step {st st₁ st₂ : State} (ss : Session) (w : Waits) (fuel : Nat) (op : Op) :
      Reaches ok st st₁ → ok ss w op st₁.memory → op.exec ss w fuel st₁ = some st₂ →
      Reaches ok st st₂

variable {ok : Guard}

theorem Reaches.mono {ok' : Guard} (hok : ∀ ss w op m, ok ss w op m → ok' ss w op m)
    {st st' : State} (r : Reaches ok st st') : Reaches ok' st st' := by
  induction r with
  | refl => exact Reaches.refl _
  | step ss w fuel op _ hop hexec ih => exact Reaches.step ss w fuel op ih (hok _ _ _ _ hop) hexec

def runOps (fuel : Nat) : List Op → State → Option State
  | [], st => some st
  | op :: ops, st => (op.exec systemSession noWaits fuel st).bind (runOps fuel ops)

theorem reaches_runOps {fuel : Nat} {st : State} (ops : List Op)
    (hok : ∀ op ∈ ops, ∀ m, ok systemSession noWaits op m) {st₀ st₁ : State}
    (r : Reaches ok st st₀) (hr : runOps fuel ops st₀ = some st₁) : Reaches ok st st₁ := by
  induction ops generalizing st₀ with
  | nil => exact Option.some.inj hr ▸ r
  | cons op ops ih =>
    obtain ⟨st₂, hst₂, hr⟩ := Option.bind_eq_some_iff.mp hr
    refine ih (fun op' hop' => hok op' (List.mem_cons_of_mem _ hop')) ?_ hr
    exact Reaches.step systemSession noWaits fuel op r (hok op List.mem_cons_self _) hst₂

/-- The induction over a run: an invariant that every guarded call keeps. -/
theorem Reaches.invariant {P : State → Prop} {st st' : State} (r : Reaches ok st st')
    (init : P st)
    (keeps : ∀ ss w fuel op st₁ st₂, P st₁ → ok ss w op st₁.memory →
      op.exec ss w fuel st₁ = some st₂ → P st₂) : P st' := by
  induction r with
  | refl => exact init
  | step ss w fuel op _ hop hexec ih => exact keeps ss w fuel op _ _ ih hop hexec

/-- A change of type that goes through on an element with an end, to a type that
is not a connector's, finds exactly one connector bit in the old type. -/
def arcsKeepType : Guard := fun ss w op m =>
  match op with
  | .changeType a type =>
      ∀ g el t, ss.access m (some a) = some rvOk → type.verify = some t → m.addrs a = some g →
        m.elems g.impl = some el → w m a .changeTypePre [a] = false →
        (∃ s, el.ends s ≠ none) → t.isConnector = false →
        el.type.syntactic = .edge ∨ el.type.syntactic = .arc ∨ el.type.syntactic = .arcAccessory
  | _ => True

def isTypeChange : Op → Bool
  | .changeType _ _ => true
  | _ => false

theorem reaches_keeping {fuel : Nat} {ops : List Op} {st st' : State}
    (keeps : ∀ op ∈ ops, isTypeChange op = false) (hr : runOps fuel ops st = some st') :
    Reaches arcsKeepType st st' := by
  refine reaches_runOps ops ?_ (.refl st) hr
  intro op hop m
  have plain := keeps op hop
  cases op with
  | changeType => cases plain
  | _ => trivial

def neverRepoints : Guard := fun ss w op m =>
  match op with
  | .setBeg arc beg => begPasses ss w m arc beg → repoints .beg m arc beg = false
  | .setEnd arc fin => endPasses ss w m arc fin → repoints .fin m arc fin = false
  | _ => True

def clientHolds (refs : Addr → Nat) : Holds := ⟨fun _ => 0, refs⟩

def StateInv (st : State) : Prop := Inv (clientHolds st.refs) st.memory

section Steps

variable {h : Holds} {m m' : Memory} {ss : Session} {w : Waits}

theorem Inv.changeType_guarded (inv : Inv h m) {a : Addr} {type : ScType} {rv : Retval}
    (ok : arcsKeepType ss w (.changeType a type) m)
    (hr : ss.changeType w m a type = some (m', rv)) : Inv h m' ∧ Tallied m m' := by
  obtain ⟨inv', r⟩ := inv.changeType hr fun {g t} ch ⟨s, hs⟩ => by
    obtain ⟨el, hel, -⟩ := inv.own_stored ch.addr
    by_contra hconn
    have hconn : t.isConnector = false := by simpa using hconn
    have hend : el.ends s ≠ none := by rwa [← target_stored hel]
    have hsyn := ok g el t ch.access ch.verify ch.addr hel ch.unrefused ⟨s, hend⟩ hconn
    have hallowed := ch.allowed
    have hundf : el.type.syntactic ≠ .undf := by
      rcases hsyn with hs | hs | hs <;> rw [hs] <;> decide
    have hnode : el.type.syntactic ≠ .node := by
      rcases hsyn with hs | hs | hs <;> rw [hs] <;> decide
    simp only [Session.verifyTypeChanging, ch.addr, hel, Option.bind_eq_bind, Option.bind_some,
      hundf, hnode, hsyn, hconn, if_false, if_true, Bool.false_eq_true, Option.some.injEq,
      Bool.and_eq_true, Option.isNone_iff_eq_none] at hallowed
    cases s with
    | beg => exact hend hallowed.1
    | fin => exact hend hallowed.2
  exact ⟨inv', r.tallied⟩

theorem Inv.eraseEl_keeps (inv : Inv h m) (unheld : ∀ n, h.node n = 0) {fuel : Nat}
    {a : Option Addr} {rv : Retval} (hr : ss.eraseEl w fuel m a = some (m', rv)) :
    Inv h m' ∧ Tallied m m' := by
  rcases inv.eraseEl unheld hr with ⟨rfl, -⟩ | ⟨b, -, -, -, er⟩
  · exact ⟨inv, Tallied.refl _⟩
  · exact ⟨er.inv, er.cascade.tallied⟩

theorem repoints_of_free {x : Addr} {g : GlobalAddr} {s : Endpoint} (hg : m.addrs x = some g)
    (free : m.graph.target g.impl s = none) (target : Option Addr) :
    repoints s m (some x) target = false := by
  cases target with
  | none => rfl
  | some t =>
    have hend : (m.elems g.impl).bind (fun el => el.ends s) = none := free
    simp only [repoints, hg, Option.bind_some, hend]

/-- How `gen3_f_a_f` goes: it is refused, the arc is given up at its begin or at its end, or
it is made. -/
inductive Gen3Call (ss : Session) (w : Waits) (fuel : Nat) (m : Memory) (e1 : Option Addr)
    (s2 : SegId) (t2 : ScType) (e3 : Option Addr) : Memory → Option Addr → Retval → Prop where
  | refused {rv : Retval} (failed : rv ≠ rvOk)
      (why : ss.access m e1 ≠ some rvOk ∨ ss.access m e3 ≠ some rvOk ∨
        ss.createEl m s2 t2 = some (m, none, rv)) :
      Gen3Call ss w fuel m e1 s2 t2 e3 m none rv
  | unbegun {m₁ m₂ m' : Memory} {arc : Addr} {rv rv' : Retval}
      (access₁ : ss.access m e1 = some rvOk) (access₃ : ss.access m e3 = some rvOk)
      (create : ss.createEl m s2 t2 = some (m₁, some arc, rvOk))
      (beg : ss.setBeg w m₁ (some arc) e1 = some (m₂, rv)) (failed : rv ≠ rvOk)
      (erase : ss.eraseEl w fuel m₂ (some arc) = some (m', rv')) :
      Gen3Call ss w fuel m e1 s2 t2 e3 m' none rv
  | unended {m₁ m₂ m₃ m' : Memory} {arc : Addr} {rv rv' : Retval}
      (access₁ : ss.access m e1 = some rvOk) (access₃ : ss.access m e3 = some rvOk)
      (create : ss.createEl m s2 t2 = some (m₁, some arc, rvOk))
      (beg : ss.setBeg w m₁ (some arc) e1 = some (m₂, rvOk))
      (fin : ss.setEnd w m₂ (some arc) e3 = some (m₃, rv)) (failed : rv ≠ rvOk)
      (erase : ss.eraseEl w fuel m₃ (some arc) = some (m', rv')) :
      Gen3Call ss w fuel m e1 s2 t2 e3 m' none rv
  | made {m₁ m₂ m' : Memory} {arc : Addr}
      (access₁ : ss.access m e1 = some rvOk) (access₃ : ss.access m e3 = some rvOk)
      (create : ss.createEl m s2 t2 = some (m₁, some arc, rvOk))
      (beg : ss.setBeg w m₁ (some arc) e1 = some (m₂, rvOk))
      (fin : ss.setEnd w m₂ (some arc) e3 = some (m', rvOk)) :
      Gen3Call ss w fuel m e1 s2 t2 e3 m' (some arc) rvOk

variable {e1 e3 r : Option Addr} {s2 : SegId} {t2 : ScType}

theorem gen3_some {fuel : Nat} {rv : Retval}
    (hr : ss.gen3 w fuel m e1 s2 t2 e3 = some (m', r, rv)) :
    Gen3Call ss w fuel m e1 s2 t2 e3 m' r rv := by
  obtain ⟨rv₁, access₁, hr⟩ := Option.bind_eq_some_iff.mp hr
  split at hr
  · next denied =>
    cases hr
    exact .refused denied (.inl fun ok => denied (Option.some.inj (access₁.symm.trans ok)))
  · next ok₁ =>
    obtain rfl : rv₁ = rvOk := not_not.mp ok₁
    obtain ⟨rv₃, access₃, hr⟩ := Option.bind_eq_some_iff.mp hr
    split at hr
    · next denied =>
      cases hr
      exact .refused denied (.inr (.inl fun ok => denied (Option.some.inj (access₃.symm.trans ok))))
    · next ok₃ =>
      obtain rfl : rv₃ = rvOk := not_not.mp ok₃
      obtain ⟨⟨m₁, a, rv₂⟩, create, hr⟩ := Option.bind_eq_some_iff.mp hr
      dsimp only at hr
      rcases createEl_some create with ⟨rfl, rfl, failed⟩ | ⟨t, rfl, rfl, rfl, -⟩
      · rw [if_pos failed] at hr
        cases hr
        exact .refused failed (.inr (.inr create))
      · rw [if_neg (not_not.mpr rfl)] at hr
        obtain ⟨⟨m₂, rv₄⟩, beg, hr⟩ := Option.bind_eq_some_iff.mp hr
        dsimp only at hr
        split at hr
        · next failed =>
          rw [Option.bind_eq_bind, Option.bind_some, if_pos failed] at hr
          obtain ⟨⟨m₄, rv₆⟩, erase, hr⟩ := Option.bind_eq_some_iff.mp hr
          cases hr
          exact .unbegun access₁ access₃ create beg failed erase
        · next ok₄ =>
          obtain rfl : rv₄ = rvOk := not_not.mp ok₄
          obtain ⟨⟨m₃, rv₅⟩, fin, hr⟩ := Option.bind_eq_some_iff.mp hr
          dsimp only at hr
          split at hr
          · next failed =>
            obtain ⟨⟨m₄, rv₆⟩, erase, hr⟩ := Option.bind_eq_some_iff.mp hr
            cases hr
            exact .unended access₁ access₃ create beg fin failed erase
          · next ok₅ =>
            obtain rfl : rv₅ = rvOk := not_not.mp ok₅
            cases hr
            exact .made access₁ access₃ create beg fin

theorem Inv.begun (inv : Inv h m) (unheld : ∀ n, h.node n = 0) {m₁ m₂ : Memory} {arc : Addr}
    {rv : Retval} (create : ss.createEl m s2 t2 = some (m₁, some arc, rvOk))
    (beg : ss.setBeg w m₁ (some arc) e1 = some (m₂, rv)) :
    Inv h m₂ ∧ Tallied m m₂ ∧
      ∃ g, m₂.addrs arc = some g ∧ m₂.graph.target g.impl .fin = none := by
  rcases createEl_some create with ⟨-, none, -⟩ | ⟨t, rfl, harc, -, -⟩
  · cases none
  · obtain rfl := Option.some.inj harc
    obtain ⟨inv₁, tallied₁⟩ := inv.created s2 t
    have hg₁ : (ScCore.Store.created m s2 t).addrs m.nextAddr =
        some ⟨s2, m.nextElem, [], refcntBarrier, false, false, 0, fun _ => 0⟩ := if_pos rfl
    have free₁ : ∀ s, (ScCore.Store.created m s2 t).graph.target m.nextElem s = none := by
      intro s
      rw [(adds_created m s2 t).graph inv.toAddrInv]
      exact target_missing inv.unused
    obtain ⟨sets, -⟩ := inv₁.setBeg unheld beg
    obtain ⟨g, hg, -, hi, -⟩ := sets.persists.addrs hg₁
    refine ⟨sets.inv, tallied₁.trans (sets.tallied (repoints_of_free hg₁ (free₁ _) e1)), g, hg, ?_⟩
    rw [hi, sets.frame rfl hg₁ .fin (by decide)]
    exact free₁ _

theorem Inv.gen3 (inv : Inv h m) (unheld : ∀ n, h.node n = 0) {fuel : Nat} {rv : Retval}
    (hr : ss.gen3 w fuel m e1 s2 t2 e3 = some (m', r, rv)) : Inv h m' ∧ Tallied m m' := by
  cases gen3_some hr with
  | refused => exact ⟨inv, Tallied.refl _⟩
  | unbegun _ _ create beg _ erase =>
    obtain ⟨inv₂, tallied₂, -⟩ := inv.begun unheld create beg
    obtain ⟨inv', tallied'⟩ := inv₂.eraseEl_keeps unheld erase
    exact ⟨inv', tallied₂.trans tallied'⟩
  | unended _ _ create beg fin _ erase =>
    obtain ⟨inv₂, tallied₂, g, hg, free⟩ := inv.begun unheld create beg
    obtain ⟨sets, -⟩ := inv₂.setEnd unheld fin
    obtain ⟨inv', tallied'⟩ := sets.inv.eraseEl_keeps unheld erase
    exact ⟨inv', (tallied₂.trans (sets.tallied (repoints_of_free hg free e3))).trans tallied'⟩
  | made _ _ create beg fin =>
    obtain ⟨inv₂, tallied₂, g, hg, free⟩ := inv.begun unheld create beg
    obtain ⟨sets, -⟩ := inv₂.setEnd unheld fin
    exact ⟨sets.inv, tallied₂.trans (sets.tallied (repoints_of_free hg free e3))⟩

theorem Inv.gen5 (inv : Inv h m) (unheld : ∀ n, h.node n = 0) {fuel : Nat} {e5 : Option Addr}
    {s4 : SegId} {t4 : ScType} {r : Option (Addr × Addr)} {rv : Retval}
    (hr : ss.gen5 w fuel m e1 s2 t2 e3 s4 t4 e5 = some (m', r, rv)) : Inv h m' ∧ Tallied m m' := by
  simp only [Session.gen5, Option.bind_eq_bind, Option.bind_eq_some_iff] at hr
  obtain ⟨⟨m₁, r₁, rv₁⟩, hm₁, hr⟩ := hr
  obtain ⟨inv₁, tallied₁⟩ := inv.gen3 unheld hm₁
  dsimp only at hr
  split at hr
  · obtain ⟨rfl, -⟩ := Prod.mk.inj (Option.some.inj hr)
    exact ⟨inv₁, tallied₁⟩
  · obtain ⟨⟨m₂, r₂, rv₂⟩, hm₂, hr⟩ := Option.bind_eq_some_iff.mp hr
    obtain ⟨inv₂, tallied₂⟩ := inv₁.gen3 unheld hm₂
    dsimp only at hr
    split at hr
    · obtain ⟨⟨m₃, rv₃⟩, hm₃, hr⟩ := Option.bind_eq_some_iff.mp hr
      obtain ⟨rfl, -⟩ := Prod.mk.inj (Option.some.inj hr)
      obtain ⟨inv₃, tallied₃⟩ := inv₂.eraseEl_keeps unheld hm₃
      exact ⟨inv₃, (tallied₁.trans tallied₂).trans tallied₃⟩
    · obtain ⟨rfl, -⟩ := Prod.mk.inj (Option.some.inj hr)
      exact ⟨inv₂, tallied₁.trans tallied₂⟩

end Steps

/-! ## Properties closed under the simple calls -/

/-- The calls that `gen3_f_a_f` and `gen5_f_a_f_a_f` consist of keep a property. -/
structure Closed (ss : Session) (w : Waits) (P : Memory → Prop) : Prop where
  createEl : ∀ {m m' seg t a rv}, P m → ss.createEl m seg t = some (m', a, rv) → P m'
  setBeg : ∀ {m m' arc beg rv}, P m → ss.setBeg w m arc beg = some (m', rv) → P m'
  setEnd : ∀ {m m' arc fin rv}, P m → ss.setEnd w m arc fin = some (m', rv) → P m'
  eraseEl : ∀ {m m' fuel a rv}, P m → ss.eraseEl w fuel m a = some (m', rv) → P m'

namespace Closed

variable {ss : Session} {w : Waits} {P : Memory → Prop} {m m' : Memory} {fuel : Nat} {rv : Retval}

variable {e1 e3 : Option Addr} {t2 : ScType}

theorem gen3 (c : Closed ss w P) (hm : P m) {r : Option Addr} {s2 : SegId}
    (hr : ss.gen3 w fuel m e1 s2 t2 e3 = some (m', r, rv)) : P m' := by
  cases gen3_some hr with
  | refused => exact hm
  | unbegun _ _ create beg _ erase => exact c.eraseEl (c.setBeg (c.createEl hm create) beg) erase
  | unended _ _ create beg fin _ erase =>
    exact c.eraseEl (c.setEnd (c.setBeg (c.createEl hm create) beg) fin) erase
  | made _ _ create beg fin => exact c.setEnd (c.setBeg (c.createEl hm create) beg) fin

theorem gen5 (c : Closed ss w P) (hm : P m) {e5 : Option Addr} {s2 s4 : SegId} {t4 : ScType}
    {r : Option (Addr × Addr)} (hr : ss.gen5 w fuel m e1 s2 t2 e3 s4 t4 e5 = some (m', r, rv)) :
    P m' := by
  simp only [Session.gen5, Option.bind_eq_bind, Option.bind_eq_some_iff] at hr
  obtain ⟨⟨m₁, r₁, rv₁⟩, hm₁, hr⟩ := hr
  have first := c.gen3 hm hm₁
  dsimp only at hr
  split at hr
  · exact (Prod.mk.inj (Option.some.inj hr)).1 ▸ first
  · obtain ⟨⟨m₂, r₂, rv₂⟩, hm₂, hr⟩ := Option.bind_eq_some_iff.mp hr
    have second := c.gen3 first hm₂
    dsimp only at hr
    split at hr
    · obtain ⟨⟨m₃, rv₃⟩, hm₃, hr⟩ := Option.bind_eq_some_iff.mp hr
      exact (Prod.mk.inj (Option.some.inj hr)).1 ▸ c.eraseEl second hm₃
    · exact (Prod.mk.inj (Option.some.inj hr)).1 ▸ second

end Closed

/-! ## Calls and runs -/

section Exec

variable {ss : Session} {w : Waits} {fuel : Nat} {op : Op} {st st' : State}

theorem clientHolds_ref (refs : Addr → Nat) (a : Addr) :
    (clientHolds refs).holdAddr a = clientHolds fun b => if b = a then refs b + 1 else refs b := by
  simp [clientHolds, Holds.holdAddr]

variable {a : Addr}

theorem clientHolds_unref {refs : Addr → Nat} (ha : refs a ≠ 0) :
    (clientHolds fun b => if b = a then refs b - 1 else refs b).holdAddr a = clientHolds refs := by
  rw [clientHolds_ref]
  congr 1
  funext b
  by_cases hb : b = a
  · subst hb
    simp only [if_true]
    omega
  · simp [hb]

theorem SetsEnd.guarded {h : Holds} {s : Endpoint} {m m' : Memory} {arc target : Option Addr}
    {passes : Prop} (sets : SetsEnd h s arc target m m') (hp : m' = m ∨ passes)
    (ok : passes → repoints s m arc target = false) : Tallied m m' := by
  rcases hp with rfl | hp
  · exact Tallied.refl _
  · exact sets.tallied (ok hp)

theorem StateInv.ref (inv : StateInv st) {m' : Memory}
    (call : GlobalAddr.ref st.memory a = some m') :
    StateInv ⟨m', fun b => if b = a then st.refs b + 1 else st.refs b⟩ ∧ Tallied st.memory m' ∧
      Rerefs st.memory m' := by
  obtain ⟨g, hg⟩ : ∃ g, st.memory.addrs a = some g := by
    cases hg : st.memory.addrs a with
    | none => simp [GlobalAddr.ref, modifyAddr, hg] at call
    | some g => exact ⟨g, rfl⟩
  obtain ⟨m₁, hm₁, inv₁, tallied, r, -⟩ := Inv.refAddr inv hg
  obtain rfl := Option.some.inj (hm₁.symm.trans call)
  rw [clientHolds_ref] at inv₁
  exact ⟨inv₁, tallied, r⟩

theorem StateInv.unref (inv : StateInv st) {m' : Memory} (held : st.refs a ≠ 0)
    (call : GlobalAddr.unref st.memory a = some m') :
    StateInv ⟨m', fun b => if b = a then st.refs b - 1 else st.refs b⟩ ∧ Tallied st.memory m' ∧
      Rerefs st.memory m' := by
  have inv' : Inv ((clientHolds fun b => if b = a then st.refs b - 1 else st.refs b).holdAddr a)
      st.memory := clientHolds_unref held ▸ inv
  obtain ⟨m₁, hm₁, inv₁, tallied, r⟩ := inv'.unrefAddr
  obtain rfl := Option.some.inj (hm₁.symm.trans call)
  exact ⟨inv₁, tallied, r⟩

theorem StateInv.exec (inv : StateInv st) (okType : arcsKeepType ss w op st.memory)
    (hr : op.exec ss w fuel st = some st') :
    StateInv st' ∧ (neverRepoints ss w op st.memory → Tallied st.memory st'.memory) ∧
      (Covered st.memory → Covered st'.memory) := by
  have unheld : ∀ n, (clientHolds st.refs).node n = 0 := fun _ => rfl
  have done : ∀ {m'}, Inv (clientHolds st.refs) m' ∧ Tallied st.memory m' →
      StateInv { st with memory := m' } ∧ (neverRepoints ss w op st.memory →
        Tallied st.memory m') ∧ (Covered st.memory → Covered m') :=
    fun h => ⟨h.1, fun _ => h.2, h.2.covered⟩
  cases op.ran hr with
  | createEl call =>
    refine done ?_
    rcases createEl_some call with ⟨rfl, -⟩ | ⟨t, rfl, -⟩
    · exact ⟨inv, Tallied.refl _⟩
    · exact Inv.created inv _ t
  | setBeg call =>
    obtain ⟨sets, hp, -⟩ := Inv.setBeg inv unheld call
    exact ⟨sets.inv, fun ok => sets.guarded hp ok, sets.covered⟩
  | setEnd call =>
    obtain ⟨sets, hp, -⟩ := Inv.setEnd inv unheld call
    exact ⟨sets.inv, fun ok => sets.guarded hp ok, sets.covered⟩
  | changeType call => exact done (Inv.changeType_guarded inv okType call)
  | setIdtf call =>
    have r := renames_sessionSetIdtf call
    exact done ⟨r.inv inv, r.relabels.tallied⟩
  | gen3 call => exact done (Inv.gen3 inv unheld call)
  | gen5 call => exact done (Inv.gen5 inv unheld call)
  | eraseEl call => exact done (Inv.eraseEl_keeps inv unheld call)
  | eraseLonelyLinkTo call => exact done (Inv.eraseLonelyLinkTo inv unheld call)
  | ref call =>
    obtain ⟨inv', tallied, -⟩ := inv.ref call
    exact ⟨inv', fun _ => tallied, tallied.covered⟩
  | unref held call =>
    obtain ⟨inv', tallied, -⟩ := inv.unref held call
    exact ⟨inv', fun _ => tallied, tallied.covered⟩

theorem Inv.empty (uri tmpPrefix : SegId → ScString) (refs : Addr → Nat)
    (hrefs : ∀ a, refs a = 0) :
    Inv (clientHolds refs) (Memory.empty uri tmpPrefix) ∧ Counted (Memory.empty uri tmpPrefix) := by
  have addrOf : ∀ e a, (Memory.empty uri tmpPrefix).addrOf e ≠ some a := fun _ _ h => by cases h
  constructor
  · exact {
      coherent := {
        listed_target := fun hn => by cases hn
        target_listed := fun ht => by cases ht
        back_none := fun _ => rfl
        nodup := fun _ _ => List.nodup_nil
        owner := fun hn => by cases hn }
      qnt_eq := fun _ _ => rfl
      listed_node := fun hn => by cases hn
      node_refs := fun hn => by cases hn
      node_held := fun hn => by cases hn
      held_node := fun hn => by cases hn
      node_lt := fun hn => by cases hn
      stores_addr := fun ha => by cases ha
      addr_stores := fun he => absurd he (addrOf _ _)
      addressed := fun he => by cases he
      nodup := fun ha => by cases ha
      not_zombie := fun ha => by cases ha
      addr_refs := fun ha => by cases ha
      addr_held := fun ha => by cases ha
      held_addr := fun {a} ha => absurd ha (by simp [clientHolds, hrefs])
      elem_lt := fun he => by cases he
      addr_lt := fun ha => by cases ha
      own := fun ha => by cases ha
      typed := fun ht => by cases ht
      dead_free := fun _ he => absurd he (addrOf _ _)
      held_detached := fun hn => by cases hn }
  · intro a g s ha
    cases ha

theorem StateInv.initial (uri tmpPrefix : SegId → ScString) :
    StateInv (State.initial uri tmpPrefix) ∧ Counted (State.initial uri tmpPrefix).memory :=
  Inv.empty uri tmpPrefix _ fun _ => rfl

theorem StateInv.reaches {uri tmpPrefix : SegId → ScString}
    (r : Reaches arcsKeepType (State.initial uri tmpPrefix) st) : StateInv st :=
  r.invariant (StateInv.initial uri tmpPrefix).1 fun _ _ _ _ _ _ inv ok hexec =>
    (inv.exec ok hexec).1

end Exec

end ScCore.Store
