import ScCore.Lib.Closure
import ScCore.Store.Incidence

/-!
# Erasure is the incidence closure

`erase_el` kills what can be reached over incident arcs and nothing else, and it
returns exactly where no arc that it reaches is incident to itself.
-/

namespace ScCore.Store

open Memory Relation

def Memory.liveElem (m : Memory) (e : ElemId) : Bool :=
  match m.addrOf e with
  | some b => m.liveAddr b
  | none => false

/-- What `erase_el` of the address `a` should do: the addresses that die are the
least set that contains `a` and is closed under incidence, no live arc is left
with a dead end, and every other live element keeps its label (type, idtf,
content, address), its ends, and its incident arcs that are still alive. -/
structure ErasesExactly (a : Addr) (m m' : Memory) : Prop where
  least : IsLeast {S | ClosedFrom (Incident m) a S}
    {b | m.liveAddr b = true ∧ m'.liveAddr b = false}
  ends : ∀ x s e, m'.liveElem x = true → m'.graph.target x s = some e → m'.liveElem e = true
  kept : ∀ e, m'.liveElem e = true → m'.label e = m.label e ∧ ∀ s,
    m'.graph.target e s = m.graph.target e s ∧
      m'.graph.arcs e s = (m.graph.arcs e s).filter m'.liveElem

section

variable {h : Holds} {m m' : Memory} {a : Addr}

theorem liveElem_iff {e : ElemId} :
    m.liveElem e = true ↔ ∃ b, m.addrOf e = some b ∧ m.liveAddr b = true := by
  cases hb : m.addrOf e <;> simp [Memory.liveElem, hb]

theorem Inv.liveElem_target (inv : Inv h m) {x e : ElemId} {s : Endpoint}
    (ht : m.graph.target x s = some e) : m.liveElem x = true ∧ m.liveElem e = true := by
  obtain ⟨o, b, ho, hob, hlive⟩ := inv.target_addr ht
  refine ⟨?_, liveElem_iff.mpr ⟨b, (addrOf_stored ho).trans hob, hlive⟩⟩
  obtain ⟨el, hel, -⟩ := stored_of_target ht
  obtain ⟨c, hc⟩ := inv.addressed hel
  have hxc : m.addrOf x = some c := (addrOf_stored hel).trans hc
  refine liveElem_iff.mpr ⟨c, hxc, ?_⟩
  cases hlive : m.liveAddr c with
  | true => rfl
  | false => simp [(inv.dead_free s hxc hlive).2] at ht

theorem Erased.closed (er : Erased h a m m') (inv : Inv h m) {b x : Addr}
    (hb : m'.liveAddr b = false) (i : Incident m b x) :
    m.liveAddr x = true ∧ m'.liveAddr x = false := by
  obtain ⟨e, arc, s, he, harc, ht⟩ := i
  have hlive : m.liveAddr x = true := by
    obtain ⟨c, hc, hlive⟩ := liveElem_iff.mp (inv.liveElem_target ht).1
    exact Option.some.inj (harc.symm.trans hc) ▸ hlive
  refine ⟨hlive, ?_⟩
  cases hx : m'.liveAddr x with
  | false => rfl
  | true =>
    obtain ⟨-, hkeep⟩ := er.cascade.keeps x hx arc harc
    obtain ⟨c, hc, hclive⟩ := liveElem_iff.mp
      (er.inv.liveElem_target ((hkeep s).1.trans ht)).2
    obtain rfl := Option.some.inj ((er.cascade.shrinks.addrOf hc).symm.trans he)
    rw [hb] at hclive
    cases hclive

theorem filterMap_filter {α β : Type} {f f' : α → Option β} {p : α → Bool} {q : β → Bool}
    (l : List α) (hl : ∀ n ∈ l, ∃ x, f n = some x ∧
      (if p n then f' n else none) = if q x then some x else none) :
    (l.filter p).filterMap f' = (l.filterMap f).filter q := by
  induction l with
  | nil => rfl
  | cons n l ih =>
    have ih := ih fun n' hn' => hl n' (List.mem_cons_of_mem _ hn')
    obtain ⟨x, hx, hstep⟩ := hl n List.mem_cons_self
    cases hp : p n <;> cases hq : q x <;> simp_all

theorem Erased.arcs (er : Erased h a m m') (inv : Inv h m) (unheld : ∀ n, h.node n = 0)
    (e : ElemId) (s : Endpoint) :
    m'.graph.arcs e s = (m.graph.arcs e s).filter m'.liveElem := by
  rw [AdjacencyLists.arcs, AdjacencyLists.arcs, er.cascade.shrinks.listed]
  refine filterMap_filter _ fun n hn => ?_
  obtain ⟨l, x, v, hl, hd, hx, hv, harc, haddr, -⟩ := inv.arc_of_unheld hn (unheld n)
  obtain ⟨ht, hb⟩ := inv.coherent.listed_target hn harc
  refine ⟨l.value, harc, ?_⟩
  cases hlive : m'.liveElem l.value with
  | true =>
    obtain ⟨b, hb', hblive⟩ := liveElem_iff.mp hlive
    obtain rfl := Option.some.inj (haddr.symm.trans (er.cascade.shrinks.addrOf hb'))
    obtain ⟨-, hkeep⟩ := er.cascade.keeps v hblive l.value haddr
    obtain ⟨n', hn', hback, harc'⟩ := er.inv.coherent.target_listed ((hkeep s).1.trans ht)
    obtain rfl : n = n' := Option.some.inj (by rw [← hb, ← (hkeep s).2, hback])
    obtain ⟨l', hl', -⟩ := arc_eq_some.mp harc'
    simp [hl', harc']
  | false =>
    cases hn' : m'.nodes n with
    | none => simp
    | some l' =>
      have hdead : m'.graph.arc n = none := by
        cases harc' : m'.graph.arc n with
        | none => rfl
        | some y =>
          obtain ⟨l₂, hl₂, hd₂, hv₂⟩ := arc_eq_some.mp harc'
          obtain ⟨l₃, hl₃, hv₃, -⟩ := er.cascade.shrinks.node hl₂
          obtain rfl := Option.some.inj (hl.symm.trans hl₃)
          have hmem : n ∈ m'.graph.listed e s := by
            rw [er.cascade.shrinks.listed]
            exact List.mem_filter.mpr ⟨hn, by simp [hl₂]⟩
          have := (er.inv.liveElem_target (er.inv.coherent.listed_target hmem harc').1).1
          rw [← hv₂, hv₃, hlive] at this
          cases this
      simp [hdead]

theorem Erased.exactly (er : Erased h a m m') (inv : Inv h m) (unheld : ∀ n, h.node n = 0)
    (hlive : m.liveAddr a = true) : ErasesExactly a m m' where
  least := by
    have hset : {b | m.liveAddr b = true ∧ m'.liveAddr b = false} =
        {b | ReflTransGen (Incident m) a b} := by
      refine Set.Subset.antisymm (fun b hb => er.cascade.killed b hb.1 hb.2) ?_
      exact ClosedFrom.reach_subset ⟨⟨hlive, er.dead⟩, fun b hb x i => er.closed inv hb.2 i⟩
    rw [hset]
    exact isLeast_reach (Incident m) a
  ends x s e _ ht := (er.inv.liveElem_target ht).2
  kept e he := by
    obtain ⟨b, hb, hblive⟩ := liveElem_iff.mp he
    obtain ⟨hlabel, hkeep⟩ := er.cascade.keeps b hblive e (er.cascade.shrinks.addrOf hb)
    exact ⟨hlabel, fun s => ⟨(hkeep s).1, er.arcs inv unheld e s⟩⟩

theorem Inv.incident_finite (inv : Inv h m) :
    {b | b < m.nextAddr}.Finite ∧ ∀ b x, Incident m b x → x ∈ {b | b < m.nextAddr} := by
  refine ⟨Set.finite_lt_nat _, fun b x i => ?_⟩
  obtain ⟨g, hg⟩ := inv.stored_of_incident i
  exact inv.addr_lt hg

theorem Inv.acc_iff (inv : Inv h m) : Acc (fun x y => Incident m y x) a ↔
    ∀ x, ReflTransGen (Incident m) a x → ¬TransGen (Incident m) x x :=
  acc_iff_acyclic inv.incident_finite.1 inv.incident_finite.2

end

/-- `erase_el` of an accessible element returns and erases exactly. -/
def ErasureCorrect (ss : Session) (w : Waits) (m : Memory) (a : Addr) : Prop :=
  ∃ m', Converges (fun fuel => ss.eraseEl w fuel m (some a)) (m', rvOk) ∧ ErasesExactly a m m'

/-- In a memory whose arcs have stayed connectors and are not incident to
themselves, erasure without refusals is exactly the incidence closure. -/
theorem erasure_of_run (uri tmpPrefix : SegId → ScString) (st : State)
    (run : Reaches arcsKeepType (State.initial uri tmpPrefix) st)
    (acyclic : ∀ x, ¬TransGen (Incident st.memory) x x) (ss : Session) (w : Waits)
    (calm : ∀ m b t params, w m b t params = false) (a : Addr)
    (ok : ss.access st.memory (some a) = some rvOk) : ErasureCorrect ss w st.memory a := by
  have inv := StateInv.reaches run
  have acc := (Inv.acc_iff inv (a := a)).mpr fun x _ => acyclic x
  obtain ⟨m', er, hm'⟩ := Inv.eraseEl_returns inv (fun _ => rfl) (fun b => calm _ b _ _) acc ok
  obtain ⟨g, hg, hd, -⟩ := access_ok.mp ok
  exact ⟨m', hm', er.exactly inv (fun _ => rfl) (liveAddr_eq_true.mpr ⟨g, hg, hd⟩)⟩

def towerOps : List Op :=
  [.createEl 0 .node, .createEl 1 .node, .gen3 (some 0) 0 .arc (some 1),
    .gen3 (some 1) 0 .arc (some 2)]

theorem erasure_of_run_tower :
    ∃ st, runOps 3 towerOps (State.initial (fun _ => []) fun _ => []) = some st ∧
      ErasureCorrect systemSession noWaits st.memory 0 := by
  have hrun : ∃ st, runOps 3 towerOps (State.initial (fun _ => []) fun _ => []) = some st ∧
      st.memory.nextAddr = 4 ∧ (∀ a < 4, systemSession.access st.memory (some a) = some rvOk ∧
        (systemSession.eraseEl noWaits 4 st.memory (some a)).isSome = true) := by
    refine ⟨_, rfl, ?_, ?_⟩ <;> decide
  obtain ⟨st, hst, hnext, hall⟩ := hrun
  have run := reaches_keeping (by decide) hst
  have inv := StateInv.reaches run
  refine ⟨st, hst, erasure_of_run _ _ st run ?_ systemSession noWaits (fun _ _ _ _ => rfl) 0
    (hall 0 (by decide)).1⟩
  intro x cycle
  obtain ⟨y, i, -⟩ := TransGen.head'_iff.mp cycle
  obtain ⟨e, _, _, he, -⟩ := i
  obtain ⟨g, hg, -⟩ := inv.addr_stores he
  obtain ⟨ok, hends⟩ := hall x (hnext ▸ inv.addr_lt hg)
  obtain ⟨r, hr⟩ := Option.isSome_iff_exists.mp hends
  exact not_cycle_of_acc (Inv.acc_of_eraseEl inv (fun _ => rfl) (fun _ => rfl) ok hr) cycle

/-- The erasure of an arc that has become a node leaves its begin's list behind. -/
theorem erasure_fails : ¬∀ (uri tmpPrefix : SegId → ScString) (st : State),
    Reaches (fun _ _ _ _ => True) (State.initial uri tmpPrefix) st →
    (∀ x, ¬TransGen (Incident st.memory) x x) → ∀ (ss : Session) (w : Waits),
    (∀ m b t params, w m b t params = false) → ∀ a : Addr,
    ss.access st.memory (some a) = some rvOk → ErasureCorrect ss w st.memory a := by
  intro claim
  have hrun : ∃ st m', runOps 3 (degradedOps.take 4) (State.initial (fun _ => []) fun _ => []) =
        some st ∧
      systemSession.access st.memory (some 0) = some rvOk ∧
      systemSession.eraseEl noWaits 3 st.memory (some 0) = some (m', rvOk) ∧
      (∀ arc s, st.memory.graph.target arc s = if arc = 0 ∧ s = .beg then some 1 else none) ∧
      (st.memory.addrOf 0 = some 0 ∧ st.memory.addrOf 1 = some 1) ∧
      (m'.liveElem 1 = true ∧ m'.liveElem 0 = false ∧ m'.graph.arcs 1 .beg = [0]) := by
    refine ⟨_, _, rfl, by decide, rfl, ?_, by decide, by decide⟩
    rintro (_ | _ | arc) (_ | _) <;> rfl
  obtain ⟨st, m', hst, ok, herase, htarget, ⟨h0, h1⟩, hlive, hdead, harcs⟩ := hrun
  have incident : ∀ {b x}, Incident st.memory b x → b = 1 ∧ x = 0 := by
    rintro b x ⟨e, arc, s, he, harc, ht⟩
    rw [htarget] at ht
    split at ht
    · next hs =>
      obtain rfl := Option.some.inj ht
      obtain rfl := hs.1
      exact ⟨Option.some.inj (he.symm.trans h1), Option.some.inj (harc.symm.trans h0)⟩
    · cases ht
  have acyclic : ∀ x, ¬TransGen (Incident st.memory) x x := by
    intro x cycle
    obtain ⟨_, ib, -⟩ := TransGen.head'_iff.mp cycle
    obtain ⟨_, -, ie⟩ := TransGen.tail'_iff.mp cycle
    exact absurd ((incident ib).1.symm.trans (incident ie).2) (by decide)
  obtain ⟨m₁, hm₁, exact'⟩ := claim _ _ st (reaches_runOps _ (fun _ _ _ => trivial) (.refl _) hst)
    acyclic systemSession noWaits (fun _ _ _ _ => rfl) 0 ok
  obtain rfl : m₁ = m' :=
    congrArg Prod.fst (hm₁.unique ((eraseEl_mono (some 0)).converges herase))
  have hkept := ((exact'.kept 1 hlive).2 .beg).2
  have : (0 : ElemId) ∈ m₁.graph.arcs 1 .beg := by simp [harcs]
  rw [hkept] at this
  exact absurd (List.mem_filter.mp this).2 (by simp [hdead])

def buildsOnly : Guard := fun _ _ op _ =>
  match op with
  | .createEl _ _ | .setBeg _ _ | .setEnd _ _ => True
  | _ => False

/-- `erase_el` of the address returns. -/
def ErasureEnds (ss : Session) (w : Waits) (m : Memory) (a : Addr) : Prop :=
  ∃ fuel r, ss.eraseEl w fuel m (some a) = some r

theorem StateInv.of_buildsOnly {uri tmpPrefix : SegId → ScString} {st : State}
    (run : Reaches buildsOnly (State.initial uri tmpPrefix) st) : StateInv st :=
  StateInv.reaches (run.mono fun _ _ op _ ok => by cases op <;> trivial)

/-- An erasure returns where it is denied or can reach no arc that is incident to
itself; where no wait refuses it returns nowhere else. -/
theorem erasure_ends_iff (uri tmpPrefix : SegId → ScString) (st : State)
    (run : Reaches buildsOnly (State.initial uri tmpPrefix) st) (ss : Session) (a : Addr)
    (g : GlobalAddr) (stored : st.memory.addrs a = some g) (w : Waits) :
    ((ss.access st.memory (some a) ≠ some rvOk ∨ ∀ x,
        ReflTransGen (Incident st.memory) a x → ¬TransGen (Incident st.memory) x x) →
      ErasureEnds ss w st.memory a) ∧
    ((∀ b, w st.memory b .diePreReal [b] = false) → ErasureEnds ss w st.memory a →
      ss.access st.memory (some a) ≠ some rvOk ∨ ∀ x,
        ReflTransGen (Incident st.memory) a x → ¬TransGen (Incident st.memory) x x) := by
  have inv := StateInv.of_buildsOnly run
  rw [← Inv.acc_iff inv]
  by_cases ok : ss.access st.memory (some a) = some rvOk
  · simp only [ok, ne_eq, not_true_eq_false, false_or]
    exact ⟨fun acc => Inv.eraseEl_ends inv (fun _ => rfl) w acc ok,
      fun calm ⟨_, _, hr⟩ => Inv.acc_of_eraseEl inv (fun _ => rfl) calm ok hr⟩
  · refine ⟨fun _ => ?_, fun _ _ => .inl ok⟩
    obtain ⟨rv, hrv⟩ := access_total ss ⟨g, stored⟩
    have hne : rv ≠ rvOk := fun h => ok (h ▸ hrv)
    exact ⟨0, (st.memory, rv), by simp [Session.eraseEl, hrv, hne]⟩

def stackedOps : List Op :=
  [.createEl 0 .arc, .createEl 0 .arc, .setBeg (some 1) (some 0)]

theorem erasure_ends_iff_stacked :
    ∃ st, runOps 3 stackedOps (State.initial (fun _ => []) fun _ => []) = some st ∧
      ErasureEnds systemSession noWaits st.memory 0 ∧
      ∀ x, ReflTransGen (Incident st.memory) 0 x → ¬TransGen (Incident st.memory) x x := by
  have hrun : ∃ st g, runOps 3 stackedOps (State.initial (fun _ => []) fun _ => []) = some st ∧
      st.memory.addrs 0 = some g ∧ systemSession.access st.memory (some 0) = some rvOk ∧
      (systemSession.eraseEl noWaits 3 st.memory (some 0)).isSome = true := by
    refine ⟨_, _, rfl, rfl, ?_, ?_⟩ <;> decide
  obtain ⟨st, g, hst, hg, ok, hends⟩ := hrun
  have run : Reaches buildsOnly (State.initial (fun _ => []) fun _ => []) st := by
    refine reaches_runOps stackedOps ?_ (.refl _) hst
    intro op hop m
    simp only [stackedOps, List.mem_cons, List.not_mem_nil, or_false] at hop
    rcases hop with rfl | rfl | rfl <;> trivial
  obtain ⟨r, hr⟩ := Option.isSome_iff_exists.mp hends
  have ends : ErasureEnds systemSession noWaits st.memory 0 := ⟨3, r, hr⟩
  refine ⟨st, hst, ends, ?_⟩
  rcases (erasure_ends_iff _ _ st run systemSession 0 g hg noWaits).2 (fun _ => rfl) ends with h | h
  · exact absurd ok h
  · exact h

def loopOps : List Op := [.createEl 0 .arc, .setEnd (some 0) (some 0)]

theorem erasure_ends_fails : ¬∀ (uri tmpPrefix : SegId → ScString) (st : State),
    Reaches buildsOnly (State.initial uri tmpPrefix) st → ∀ (ss : Session) (w : Waits) (a : Addr)
    (g : GlobalAddr), st.memory.addrs a = some g → ErasureEnds ss w st.memory a := by
  intro claim
  have hrun : ∃ st g, runOps 3 loopOps (State.initial (fun _ => []) fun _ => []) = some st ∧
      st.memory.addrs 0 = some g ∧ systemSession.access st.memory (some 0) = some rvOk ∧
      st.memory.addrOf 0 = some 0 ∧ st.memory.graph.target 0 .fin = some 0 := by
    refine ⟨_, _, rfl, rfl, ?_⟩
    decide
  obtain ⟨st, g, hst, hg, ok, haddr, htarget⟩ := hrun
  have run : Reaches buildsOnly (State.initial (fun _ => []) fun _ => []) st := by
    refine reaches_runOps loopOps ?_ (.refl _) hst
    intro op hop m
    simp only [loopOps, List.mem_cons, List.not_mem_nil, or_false] at hop
    rcases hop with rfl | rfl <;> trivial
  obtain ⟨fuel, r, hr⟩ := claim _ _ st run systemSession noWaits 0 g hg
  have acc := Inv.acc_of_eraseEl (StateInv.of_buildsOnly run) (fun _ => rfl) (fun _ => rfl) ok hr
  exact not_cycle_of_acc acc (TransGen.single ⟨0, 0, .fin, haddr, haddr, htarget⟩)

end ScCore.Store
