import ScCore.Store.Erasure

/-!
# Waits that deny an erasure

The walk of `erase_el_pre` asks the elements that are to die, and about the
begins of the arcs among them. Only the first kind of answer counts, and only
if the walk comes to it before it runs into an arc that is incident to itself.
-/

namespace ScCore.Store

open Memory Relation Session

def DeniesDeath (w : Waits) (m : Memory) (b : Addr) : Prop := w m b .diePreReal [b] = true

def DeniesDetach (w : Waits) (m : Memory) (b : Addr) : Prop :=
  (∃ type, systemSession.getType m b = some type ∧ type.isConnector = true) ∧
    (setBegPre w m b none = some true ∨ setEndPre w m b none = some true)

/-- A wait denies what the erasure of `a` would do. -/
def Vetoed (w : Waits) (m : Memory) (a : Addr) : Prop :=
  ∃ b, ReflTransGen (Incident m) a b ∧ (DeniesDeath w m b ∨ DeniesDetach w m b)

/-- Where a wait denies the erasure, `erase_el` says so and changes nothing. -/
def VetoHonoured (ss : Session) (w : Waits) (m : Memory) (a : Addr) : Prop :=
  Vetoed w m a → Converges (fun fuel => ss.eraseEl w fuel m (some a)) (m, rvElseGen)

def Passed (w : Waits) (m : Memory) (a : Addr) : Prop :=
  ∀ b, ReflTransGen (Incident m) a b → ¬DeniesDeath w m b ∧ ¬TransGen (Incident m) b b

inductive MeetsDenial (w : Waits) (m : Memory) : Addr → Prop where
  | own {a : Addr} : DeniesDeath w m a → MeetsDenial w m a
  | arc {a x : Addr} {g : GlobalAddr} {before after : List Addr} : m.addrs a = some g →
      incidentArcs m g.stores = some (before ++ x :: after) → (∀ y ∈ before, Passed w m y) →
      MeetsDenial w m x → MeetsDenial w m a

variable {h : Holds} {m : Memory} {w : Waits} {a : Addr}

theorem anyRefuses_split {ask : Addr → Option Bool} {l : List Addr}
    (hr : anyRefuses ask l = some true) :
    ∃ before x after, l = before ++ x :: after ∧ ask x = some true ∧
      ∀ y ∈ before, ask y = some false := by
  induction l with
  | nil => cases hr
  | cons v l ih =>
    simp only [anyRefuses, Option.bind_eq_bind, Option.bind_eq_some_iff] at hr
    obtain ⟨b, hb, hr⟩ := hr
    cases b with
    | true => exact ⟨[], v, l, rfl, hb, by simp⟩
    | false =>
      obtain ⟨before, x, after, rfl, hx, hbefore⟩ := ih hr
      refine ⟨v :: before, x, after, rfl, hx, ?_⟩
      intro y hy
      rcases List.mem_cons.mp hy with rfl | hy
      · exact hb
      · exact hbefore y hy

theorem anyRefuses_join {ask : Nat → Addr → Option Bool} {before after : List Addr} {x : Addr}
    (agree : ∀ y ∈ before, Converges (fun k => ask k y) false)
    (refuse : Converges (fun k => ask k x) true) :
    Converges (fun k => anyRefuses (ask k) (before ++ x :: after)) true := by
  let rest (after : List Addr) : Bool → Nat → Option Bool := fun b k =>
    if b then some true else anyRefuses (ask k) after
  induction before with
  | nil =>
    have last : Converges (rest after true) true := Converges.const true
    exact refuse.bind last
  | cons v before ih =>
    have later : Converges (rest (before ++ x :: after) false) true :=
      ih fun y hy => agree y (List.mem_cons_of_mem _ hy)
    exact (agree v List.mem_cons_self).bind later

theorem Inv.eraseElPre_succ (inv : Inv h m) {g : GlobalAddr} (hg : m.addrs a = some g)
    {arcs : List Addr} (harcs : incidentArcs m g.stores = some arcs) (k : Nat) :
    eraseElPre w m (k + 1) a =
      if w m a .diePreReal [a] then some true else anyRefuses (eraseElPre w m k) arcs := by
  simp [eraseElPre, hg, inv.askEnds hg, harcs]

section

variable (inv : Inv h m) (unheld : ∀ n, h.node n = 0)
include inv unheld

theorem Inv.passed_of_false {k : Nat} (hr : eraseElPre w m k a = some false) : Passed w m a := by
  have acc := inv.acc_of_eraseElPre unheld hr
  intro b hb
  refine ⟨?_, not_cycle_of_acc (acc_reach acc hb)⟩
  clear acc
  induction k generalizing a with
  | zero => cases hr
  | succ k ih =>
    obtain ⟨g, hg, -⟩ := Option.bind_eq_some_iff.mp hr
    obtain ⟨arcs, harcs, hmem⟩ := inv.incidentArcs_iff unheld hg
    rw [inv.eraseElPre_succ hg harcs] at hr
    split at hr
    · cases hr
    · next calm =>
      rcases ReflTransGen.cases_head hb with rfl | ⟨x, hx, hreach⟩
      · exact calm
      · exact ih (anyRefuses_false hr x ((hmem x).mpr hx)) hreach

theorem Inv.false_of_passed (passed : Passed w m a) (stored : ∃ g, m.addrs a = some g) :
    Converges (fun k => eraseElPre w m k a) false := by
  have acc := inv.acc_iff.mpr fun x hx => (passed x hx).2
  obtain ⟨b, hb⟩ := inv.eraseElPre_returns unheld w acc stored
  cases b with
  | false => exact hb
  | true =>
    obtain ⟨k, hk⟩ := hb.exists_fuel
    exfalso
    clear hb acc
    induction k generalizing a with
    | zero => cases hk
    | succ k ih =>
      obtain ⟨g, hg, -⟩ := Option.bind_eq_some_iff.mp hk
      obtain ⟨arcs, harcs, hmem⟩ := inv.incidentArcs_iff unheld hg
      rw [inv.eraseElPre_succ hg harcs] at hk
      split at hk
      · next denied => exact (passed a ReflTransGen.refl).1 denied
      · obtain ⟨x, hx, hask⟩ := anyRefuses_true hk
        have i := (hmem x).mp hx
        exact ih (fun b hb => passed b (ReflTransGen.head i hb)) (inv.stored_of_incident i) hask

theorem Inv.eraseElPre_true_iff (stored : ∃ g, m.addrs a = some g) :
    Converges (fun k => eraseElPre w m k a) true ↔ MeetsDenial w m a := by
  constructor
  · intro hconv
    obtain ⟨k, hk⟩ := hconv.exists_fuel
    clear hconv
    induction k generalizing a with
    | zero => cases hk
    | succ k ih =>
      obtain ⟨g, hg⟩ := stored
      obtain ⟨arcs, harcs, hmem⟩ := inv.incidentArcs_iff unheld hg
      rw [inv.eraseElPre_succ hg harcs] at hk
      split at hk
      · next denied => exact MeetsDenial.own denied
      · obtain ⟨before, x, after, rfl, hx, hbefore⟩ := anyRefuses_split hk
        apply MeetsDenial.arc hg harcs
        · exact fun y hy => inv.passed_of_false unheld (hbefore y hy)
        · exact ih (inv.stored_of_incident ((hmem x).mp (by simp))) hx
  · intro meets
    induction meets with
    | own denied =>
      obtain ⟨g, hg⟩ := stored
      obtain ⟨arcs, harcs, -⟩ := inv.incidentArcs_iff unheld hg
      apply Converges.of_succ
      simp only [inv.eraseElPre_succ hg harcs, if_pos (show w m _ _ _ = true from denied)]
      exact Converges.const true
    | @arc a x g before after hg harcs passed _ ih =>
      obtain ⟨arcs, harcs', hmem⟩ := inv.incidentArcs_iff unheld hg
      obtain rfl : arcs = before ++ x :: after := Option.some.inj (harcs'.symm.trans harcs)
      apply Converges.of_succ
      simp only [inv.eraseElPre_succ hg harcs]
      split
      · exact Converges.const true
      · apply anyRefuses_join
        · intro y hy
          apply inv.false_of_passed unheld (passed y hy)
          exact inv.stored_of_incident ((hmem y).mp (List.mem_append_left _ hy))
        · exact ih (inv.stored_of_incident ((hmem x).mp (by simp)))

/-- Where no arc is incident to itself the walk meets every denied death. -/
theorem Inv.meetsDenial_of_acyclic (stored : ∃ g, m.addrs a = some g)
    (acyclic : ∀ x, ReflTransGen (Incident m) a x → ¬TransGen (Incident m) x x) {b : Addr}
    (hb : ReflTransGen (Incident m) a b) (denied : DeniesDeath w m b) : MeetsDenial w m a := by
  obtain ⟨r, hr⟩ := inv.eraseElPre_returns unheld w (inv.acc_iff.mpr acyclic) stored
  cases r with
  | true => exact (inv.eraseElPre_true_iff unheld stored).mp hr
  | false =>
    obtain ⟨k, hk⟩ := hr.exists_fuel
    exact absurd denied (inv.passed_of_false unheld hk b hb).1

end

theorem access_ne_else {ss : Session} : ss.access m (some a) ≠ some rvElseGen := by
  intro h
  obtain ⟨g, -, h⟩ := Option.bind_eq_some_iff.mp h
  split at h
  · exact absurd (Option.some.inj h) (by decide)
  · split at h
    · exact absurd (Option.some.inj h) (by decide)
    · exact absurd (Option.some.inj h) (by decide)

theorem eraseEl_denied {ss : Session} (m' : Memory) :
    Converges (fun fuel => ss.eraseEl w fuel m (some a)) (m', rvElseGen) ↔
      m' = m ∧ ss.access m (some a) = some rvOk ∧
        Converges (fun k => eraseElPre w m k a) true := by
  constructor
  · intro hconv
    obtain ⟨k, hk⟩ := hconv.exists_fuel
    by_cases ok : ss.access m (some a) = some rvOk
    · rw [eraseEl_of_access ok] at hk
      obtain ⟨refused, hpre, hr⟩ := Option.bind_eq_some_iff.mp hk
      cases refused with
      | true =>
        obtain ⟨rfl, -⟩ := Prod.mk.inj (Option.some.inj hr)
        exact ⟨rfl, ok, (eraseElPre_mono m a).converges hpre⟩
      | false =>
        obtain ⟨m₁, -, hr⟩ := Option.bind_eq_some_iff.mp hr
        exact absurd (Prod.mk.inj (Option.some.inj hr)).2 (by decide)
    · obtain ⟨rv, hrv, hr⟩ := Option.bind_eq_some_iff.mp hk
      have failed : rv ≠ rvOk := fun h => ok (h ▸ hrv)
      rw [if_pos failed] at hr
      obtain ⟨-, rfl⟩ := Prod.mk.inj (Option.some.inj hr)
      exact absurd hrv access_ne_else
  · rintro ⟨rfl, ok, hpre⟩
    simp only [eraseEl_of_access ok]
    exact hpre.bind (Converges.const _)

/-- A veto is honoured exactly where there is none, or where the element is
accessible and the walk meets a denied death. -/
theorem veto_honoured_iff (uri tmpPrefix : SegId → ScString) (st : State)
    (run : Reaches arcsKeepType (State.initial uri tmpPrefix) st) (ss : Session) (w : Waits)
    (a : Addr) :
    VetoHonoured ss w st.memory a ↔ ¬Vetoed w st.memory a ∨
      (ss.access st.memory (some a) = some rvOk ∧ MeetsDenial w st.memory a) := by
  have inv := StateInv.reaches run
  rw [VetoHonoured, imp_iff_not_or, eraseEl_denied]
  apply or_congr_right
  rw [eq_self_iff_true, true_and]
  apply and_congr_right
  intro ok
  obtain ⟨g, hg, -⟩ := access_ok.mp ok
  exact Inv.eraseElPre_true_iff inv (fun _ => rfl) ⟨g, hg⟩

def watchedOps : List Op := [.createEl 0 .node, .createEl 0 .node, .gen3 (some 0) 0 .arc (some 1)]

def denies (b : Addr) (t : WaitType) : Waits := fun _ b' t' _ => decide (b' = b ∧ t' = t)

theorem veto_honoured_iff_arc :
    ∃ st, runOps 3 watchedOps (State.initial (fun _ => []) fun _ => []) = some st ∧
      VetoHonoured systemSession (denies 2 .diePreReal) st.memory 0 := by
  have hrun : ∃ st g, runOps 3 watchedOps (State.initial (fun _ => []) fun _ => []) = some st ∧
      st.memory.addrs 0 = some g ∧ incidentArcs st.memory g.stores = some [2] ∧
      systemSession.access st.memory (some 0) = some rvOk := by
    refine ⟨_, _, rfl, rfl, ?_, ?_⟩ <;> decide
  obtain ⟨st, g, hst, hg, harcs, ok⟩ := hrun
  have denied : MeetsDenial (denies 2 .diePreReal) st.memory 2 := by
    apply MeetsDenial.own
    simp [DeniesDeath, denies]
  have meets : MeetsDenial (denies 2 .diePreReal) st.memory 0 := by
    have split : incidentArcs st.memory g.stores = some ([] ++ 2 :: []) := harcs
    apply MeetsDenial.arc hg split
    · simp
    · exact denied
  exact ⟨st, hst, (veto_honoured_iff _ _ st (reaches_keeping (by decide) hst) systemSession _ 0).mpr
    (Or.inr ⟨ok, meets⟩)⟩

/-- The end of an arc denies that the arc is detached, and the arc is erased. -/
theorem veto_honoured_fails : ¬∀ (uri tmpPrefix : SegId → ScString) (st : State),
    Reaches arcsKeepType (State.initial uri tmpPrefix) st → ∀ (ss : Session) (w : Waits) (a : Addr),
    ss.access st.memory (some a) = some rvOk → VetoHonoured ss w st.memory a := by
  intro claim
  have hrun : ∃ st m', runOps 3 watchedOps (State.initial (fun _ => []) fun _ => []) = some st ∧
      systemSession.access st.memory (some 2) = some rvOk ∧
      (∃ type, systemSession.getType st.memory 2 = some type ∧ type.isConnector = true) ∧
      setEndPre (denies 1 .detachInputPre) st.memory 2 none = some true ∧
      systemSession.eraseEl (denies 1 .detachInputPre) 3 st.memory (some 2) = some (m', rvOk) := by
    refine ⟨_, _, rfl, by decide, ⟨_, rfl, by decide⟩, by decide, rfl⟩
  obtain ⟨st, m', hst, ok, type, denied, erased⟩ := hrun
  have veto : Vetoed (denies 1 .detachInputPre) st.memory 2 :=
    ⟨2, ReflTransGen.refl, Or.inr ⟨type, Or.inr denied⟩⟩
  have honoured := claim _ _ st (reaches_keeping (by decide) hst) systemSession _ 2 ok veto
  have other := honoured.unique ((eraseEl_mono (some 2)).converges erased)
  exact absurd (Prod.mk.inj other).2 (by decide)

end ScCore.Store
