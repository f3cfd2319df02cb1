import ScCore.Scc.SequenceRuns

/-!
# The branches of an operator, as blocks and in the memory

`set_then`, `set_else` and `set_goto` of `custom_operator`, with a block or with nil. A branch is
stored twice: as a pointer to a block and as a component of the operator's tuple.
-/

namespace ScCore.Scc

inductive Flow where
  | then_
  | else_
  | goto_
  deriving DecidableEq, Repr

namespace Flow

def attr : Flow → Attr
  | then_ => .then_
  | else_ => .else_
  | goto_ => .goto_

/-- The flags that a call checks. -/
def refuses : Flow → OperatorBlocks → Bool
  | then_, o => o.immutableGoto || o.immutableThen
  | else_, o => o.immutableGoto || o.immutableElse
  | goto_, o => o.immutableGoto || o.immutableThen || o.immutableElse

def store : Flow → OperatorBlocks → Option BodyBlock → OperatorBlocks
  | then_, o, b => { o with thenBlk := b }
  | else_, o, b => { o with elseBlk := b }
  | goto_, o, b => { o with gotoBlk := b }

def blk : Flow → OperatorBlocks → Option BodyBlock
  | then_, o => o.thenBlk
  | else_, o => o.elseBlk
  | goto_, o => o.gotoBlk

/-- The components that a call erases besides its own. -/
def others : Flow → List Flow
  | then_ => [goto_]
  | else_ => [goto_]
  | goto_ => [then_, else_]

/-- The components that a call erases, in order. -/
def gone : Flow → List Attr
  | then_ => [.then_, .goto_]
  | else_ => [.else_, .goto_]
  | goto_ => [.then_, .else_, .goto_]

end Flow

namespace Building

variable (st : Building)

/-- `get_then`, `get_else` and `get_goto` of the operator `s`. -/
def getFlow (s : Sign) (k : Flow) : Option BodyBlock := k.blk (st.ops s)

/-- `set_then`, `set_else` and `set_goto` of the operator `s`. -/
def setFlow (n : Nat) (s : Sign) : Flow → Option BodyBlock → Option Building
  | .then_, some b => st.setThen n b (.operator s)
  | .else_, some b => st.setElse n b (.operator s)
  | .goto_, some b => st.setGoto n b (.operator s)
  | k, none =>
      if k.refuses (st.ops s) then some st
      else
        let ops := Function.update st.ops s (k.store (st.ops s) none)
        some ({ st with ops := ops }.setBranchOp s k.gone k.attr none)

/-- Calls on the operator `s`, one after the other. -/
def setFlows (n : Nat) (s : Sign) : List (Flow × Option BodyBlock) → Building → Option Building
  | [], st => some st
  | (k, b) :: calls, st => (st.setFlow n s k b).bind (setFlows n s calls)

/-! ## Agreement -/

/-- The components of the tuple `s` under the attribute of a branch. -/
def flowComponents (s : Sign) (k : Flow) : List Component :=
  st.memory.components.filter fun c => c.tuple = s ∧ c.attr = k.attr

/-- `get_first_scp_op` of the block gives the operator `op` and makes nothing. -/
def BeginsWith (b : BodyBlock) (op : Sign) : Prop :=
  ∃ n, getFirstScpOp n b.front st = some (some op, st)

/-- The tuple has at most one component for each branch, and none for `then` and `else` when it
has one for `goto`. The pointers say which components it has and where they lead. -/
structure FlowAgrees (s : Sign) : Prop where
  one : ∀ k, (st.flowComponents s k).length ≤ 1
  apart : st.flowComponents s .goto_ ≠ [] →
    st.flowComponents s .then_ = [] ∧ st.flowComponents s .else_ = []
  present : ∀ k, (st.getFlow s k).isSome ↔ st.flowComponents s k ≠ []
  begins : ∀ k, ∀ b ∈ st.getFlow s k, ∀ c ∈ st.flowComponents s k, st.BeginsWith b c.el

/-- The call is refused; or no branch that it erases besides its own has a block, and its block, if
there is one, begins with an operator. -/
def FlowMet (n : Nat) (s : Sign) (k : Flow) (b : Option BodyBlock) : Prop :=
  k.refuses (st.ops s) = true ∨
    (∀ k' ∈ k.others, st.getFlow s k' = none) ∧ ∀ blk ∈ b, ∃ op st',
      getFirstScpOp n blk.front st = some (some op, st') ∧ st'.memory.live op = true

/-- Each call meets the condition when its turn comes. -/
def FlowsMet (n : Nat) (s : Sign) : List (Flow × Option BodyBlock) → Building → Prop
  | [], _ => True
  | (k, b) :: calls, st => st.FlowMet n s k b ∧
      ∀ st', st.setFlow n s k b = some st' → FlowsMet n s calls st'

variable {st} {st' : Building} {n : Nat} {s op : Sign} {k k' : Flow} {b : Option BodyBlock}

/-! ## The first operator of a block -/

theorem getFirstScpOp_spec {x : Option Leaf} {op : Option Sign}
    (h : getFirstScpOp n x st = some (op, st')) :
    (st' = st ∨ ∃ l, st.dummyOp l = none ∧ st' = st.createDummy l) ∧
      ∀ later : Building, later.blk = st.blk →
        (∀ l d, st'.dummyOp l = some d → later.dummyOp l = some d) →
        getFirstScpOp n x later = some (op, later) := by
  induction n generalizing x with
  | zero => cases h
  | succ n ih =>
      rcases x with _ | s | l
      · cases h
        exact ⟨.inl rfl, fun _ _ _ => rfl⟩
      · cases h
        exact ⟨.inl rfl, fun _ _ _ => rfl⟩
      · rw [getFirstScpOp] at h
        cases hblk : st.blk l with
        | some b =>
            rw [hblk] at h
            refine ⟨(ih h).1, fun later blk dummyOp => ?_⟩
            rw [getFirstScpOp, blk, hblk]
            exact (ih h).2 later blk dummyOp
        | none =>
            rw [hblk] at h
            cases hdummy : st.dummyOp l with
            | some d =>
                rw [hdummy] at h
                cases h
                refine ⟨.inl rfl, fun later blk dummyOp => ?_⟩
                simp only [getFirstScpOp, blk, hblk, dummyOp l d hdummy]
            | none =>
                rw [hdummy] at h
                cases h
                refine ⟨.inr ⟨l, hdummy, rfl⟩, fun later blk dummyOp => ?_⟩
                simp only [getFirstScpOp, blk, hblk, dummyOp l _ (Function.update_self _ _ _)]

theorem getFirstScpOp_keeps {x : Option Leaf} {op : Option Sign}
    (h : getFirstScpOp n x st = some (op, st')) : st'.ops = st.ops ∧ st'.blk = st.blk ∧
      st'.memory.components = st.memory.components ∧
      (∀ a, st.memory.live a = true → st'.memory.live a = true) ∧
      ∀ l d, st.dummyOp l = some d → st'.dummyOp l = some d := by
  rcases (getFirstScpOp_spec h).1 with rfl | ⟨l, hdummy, rfl⟩
  · exact ⟨rfl, rfl, rfl, fun _ h => h, fun _ _ h => h⟩
  · refine ⟨rfl, rfl, rfl, fun a ha => ?_, fun l' d hd => ?_⟩
    · change Function.update st.memory.live st.memory.next true a = true
      rw [Function.update_apply, ha, ite_self]
    · change Function.update st.dummyOp l _ l' = some d
      rw [Function.update_of_ne, hd]
      rintro rfl
      cases hdummy.symm.trans hd

theorem BeginsWith.mono {b : BodyBlock} (h : st.BeginsWith b op) (blk : st'.blk = st.blk)
    (dummyOp : ∀ l d, st.dummyOp l = some d → st'.dummyOp l = some d) : st'.BeginsWith b op := by
  obtain ⟨n, hn⟩ := h
  exact ⟨n, (getFirstScpOp_spec hn).2 st' blk dummyOp⟩

/-! ## The components -/

theorem filter_eraseP (p : Component → Bool) (cs : List Component) :
    (cs.eraseP p).filter p = (cs.filter p).tail := by
  induction cs with
  | nil => rfl
  | cons c cs ih =>
      cases hp : p c with
      | true => rw [List.eraseP_cons_of_pos hp, List.filter_cons_of_pos hp, List.tail_cons]
      | false =>
          rw [List.eraseP_cons_of_neg (by simp [hp]), List.filter_cons_of_neg (by simp [hp]),
            List.filter_cons_of_neg (by simp [hp]), ih]

theorem filter_eraseP_of_apart {p q : Component → Bool} (apart : ∀ c, p c = true → q c = false)
    (cs : List Component) : (cs.eraseP p).filter q = cs.filter q := by
  induction cs with
  | nil => rfl
  | cons c cs ih =>
      cases hp : p c with
      | true => rw [List.eraseP_cons_of_pos hp, List.filter_cons_of_neg (by simp [apart c hp])]
      | false => rw [List.eraseP_cons_of_neg (by simp [hp]), List.filter_cons, ih, List.filter_cons]

theorem flowComponents_eraseAt (m : BodyMemory) (a a' : Attr) :
    (m.eraseAt s a).components.filter (fun c => c.tuple = s ∧ c.attr = a') =
      if a' = a then (m.components.filter fun c => c.tuple = s ∧ c.attr = a').tail
      else m.components.filter fun c => c.tuple = s ∧ c.attr = a' := by
  split
  · next h =>
      subst h
      exact filter_eraseP _ _
  · next h =>
      refine filter_eraseP_of_apart (fun c hc => ?_) _
      rw [decide_eq_true_eq] at hc
      rw [decide_eq_false_iff_not]
      rintro ⟨-, ha⟩
      exact h (ha.symm.trans hc.2)

/-- Where no attribute has two components, all components of the erased ones are gone. -/
theorem flowComponents_gone (gone : List Attr) (m : BodyMemory) (a : Attr)
    (one : (m.components.filter fun c => c.tuple = s ∧ c.attr = a).length ≤ 1) :
    (gone.foldl (fun m a => m.eraseAt s a) m).components.filter
        (fun c => c.tuple = s ∧ c.attr = a) =
      if a ∈ gone then [] else m.components.filter fun c => c.tuple = s ∧ c.attr = a := by
  induction gone generalizing m with
  | nil => rfl
  | cons a' gone ih =>
      have erased := @flowComponents_eraseAt s m a' a
      rw [List.foldl_cons, ih _ ?_, erased]
      · by_cases h : a = a'
        · have none : (m.components.filter fun c => c.tuple = s ∧ c.attr = a).tail = [] :=
            List.eq_nil_of_length_eq_zero (by rw [List.length_tail]; omega)
          rw [if_pos h, if_pos (List.mem_cons.mpr (.inl h)), none, ite_self]
        · rw [if_neg h]
          simp only [List.mem_cons, h, false_or]
      · rw [erased]
        split
        · rw [List.length_tail]
          omega
        · exact one

theorem live_gone (gone : List Attr) (m : BodyMemory) :
    (gone.foldl (fun m a => m.eraseAt s a) m).live = m.live := by
  induction gone generalizing m with
  | nil => rfl
  | cons a gone ih => exact ih _

theorem live_setBranchOp (gone : List Attr) (a : Attr) (op : Option Sign) :
    (st.setBranchOp s gone a op).memory.live = st.memory.live := by
  cases op with
  | none => exact live_gone gone st.memory
  | some op =>
      change (BodyMemory.addC _ s a op).live = _
      rw [BodyMemory.addC]
      split
      · exact live_gone gone st.memory
      · exact live_gone gone st.memory

/-! ## One call -/

theorem setFlow_eq (free : k.refuses (st.ops s) = false) (starts : ∀ blk ∈ b, ∃ op st',
      getFirstScpOp n blk.front st = some (some op, st') ∧ st'.memory.live op = true)
    (h : st.setFlow n s k b = some st') :
    ∃ (st₁ : Building) (op : Option Sign), st₁.ops = Function.update st.ops s
    (k.store (st.ops s) b) ∧ st₁.blk = st.blk ∧
      st₁.memory.components = st.memory.components ∧
      (∀ a, st.memory.live a = true → st₁.memory.live a = true) ∧
      (∀ l d, st.dummyOp l = some d → st₁.dummyOp l = some d) ∧
      (∀ x ∈ op, st₁.memory.live x = true) ∧ op.isSome = b.isSome ∧
      (∀ blk ∈ b, ∀ x ∈ op, st₁.BeginsWith blk x) ∧ st' = st₁.setBranchOp s k.gone k.attr op := by
  cases b with
  | none =>
      have heq : st.setFlow n s k none = some ({ st with
          ops := Function.update st.ops s (k.store (st.ops s) none) }.setBranchOp s k.gone
            k.attr none) := by
        cases k <;> exact if_neg (Bool.eq_false_iff.mp free)
      rw [heq] at h
      exact ⟨{ st with ops := _ }, none, rfl, rfl, rfl, fun _ h => h, fun _ _ h => h, nofun, rfl,
        nofun,
        (Option.some.inj h).symm⟩
  | some blk =>
      obtain ⟨op, st₁, first, live⟩ := starts blk rfl
      obtain ⟨-, hblk, hcomponents, hlive, hdummy⟩ := getFirstScpOp_keeps first
      obtain ⟨ops, hops⟩ : ∃ ops, ops = Function.update st.ops s (k.store (st.ops s) (some blk)) :=
        ⟨_, rfl⟩
      have first' := @getFirstScpOp_ops st ops n blk.front
      rw [first, Option.map_some] at first'
      have heq : st.setFlow n s k (some blk) =
          some ({ st₁ with ops := ops }.setBranchOp s k.gone k.attr (some op)) := by
        have stored : st.setFlow n s k (some blk) =
            (getFirstScpOp n blk.front { st with ops := ops }).bind fun r =>
              some (r.2.setBranchOp s k.gone k.attr r.1) := by
          rw [hops]
          cases k <;> exact if_neg (Bool.eq_false_iff.mp free)
        rw [stored, first', Option.bind_some]
      rw [heq] at h
      refine ⟨{ st₁ with ops := ops }, some op, hops, hblk, hcomponents, hlive, hdummy, ?_, rfl, ?_,
        (Option.some.inj h).symm⟩
      · rintro _ ⟨⟩
        exact live
      · rintro _ ⟨⟩ _ ⟨⟩
        exact BeginsWith.mono ⟨n, (getFirstScpOp_spec first).2 st₁ hblk fun _ _ h => h⟩ rfl
          fun _ _ h => h

/-- What the runs keep: each branch has a component exactly if it has a block. -/
structure FlowInv (s : Sign) (st : Building) : Prop where
  live : st.memory.live s = true
  bare : ∀ k, st.getFlow s k = none → st.flowComponents s k = []
  held : ∀ k, ∀ b ∈ st.getFlow s k, ∃ op,
    st.flowComponents s k = [⟨s, k.attr, op⟩] ∧ st.BeginsWith b op
  apart : ∀ k ∈ Flow.goto_.others, st.getFlow s .goto_ ≠ none → st.getFlow s k = none

namespace FlowInv

theorem one (inv : FlowInv s st) (k : Flow) : (st.flowComponents s k).length ≤ 1 := by
  cases h : st.getFlow s k with
  | none => rw [inv.bare k h]; exact Nat.zero_le 1
  | some b =>
      obtain ⟨op, hc, -⟩ := inv.held k b h
      rw [hc, List.length_singleton]

theorem agrees (inv : FlowInv s st) : st.FlowAgrees s := by
  have some_of (k : Flow) (h : st.flowComponents s k ≠ []) : st.getFlow s k ≠ none :=
    fun none => h (inv.bare k none)
  refine ⟨inv.one, fun h => ?_, fun k => ⟨fun h => ?_, fun h => ?_⟩, fun k b hb c hc => ?_⟩
  · have free := some_of .goto_ h
    exact ⟨inv.bare _ (inv.apart _ (.head _) free),
      inv.bare _ (inv.apart _ (.tail _ (.head _)) free)⟩
  · obtain ⟨b, hb⟩ := Option.isSome_iff_exists.mp h
    obtain ⟨op, hc, -⟩ := inv.held k b hb
    rw [hc]
    exact List.cons_ne_nil _ _
  · exact Option.isSome_iff_ne_none.mpr (some_of k h)
  · obtain ⟨op, heq, begins⟩ := inv.held k b hb
    rw [heq, List.mem_singleton] at hc
    rwa [hc]

theorem setFlow (inv : FlowInv s st) (met : st.FlowMet n s k b)
    (h : st.setFlow n s k b = some st') : FlowInv s st' := by
  cases refused : k.refuses (st.ops s) with
  | true =>
      have same : st.setFlow n s k b = some st := by
        cases b <;> cases k <;> exact if_pos refused
      rwa [← Option.some.inj (same.symm.trans h)]
  | false =>
      obtain ⟨none, starts⟩ := met.resolve_left (by rw [refused]; exact Bool.false_ne_true)
      obtain ⟨st₁, op, hops, hblk, hcomponents, hlive, hdummy, oplive, hsome, begins, rfl⟩ :=
        setFlow_eq refused starts h
      have get (k' : Flow) : (st₁.setBranchOp s k.gone k.attr op).getFlow s k' =
          if k' = k then b else st.getFlow s k' := by
        change k'.blk (st₁.ops s) = _
        rw [hops, Function.update_self]
        cases k <;> cases k' <;> rfl
      have others (k' : Flow) : k'.attr ∈ k.gone ↔ k' = k ∨ k' ∈ k.others := by
        cases k <;> cases k' <;> decide
      have erased (k' : Flow) := flowComponents_gone (s := s) k.gone st₁.memory k'.attr
        (by rw [hcomponents]; exact inv.one k')
      have attached : (st₁.setBranchOp s k.gone k.attr op).memory.components =
          (k.gone.foldl (fun m a => m.eraseAt s a) st₁.memory).components ++
            (op.map (Component.mk s k.attr)).toList := by
        cases op with
        | none => exact (List.append_nil _).symm
        | some op =>
            refine congrArg BodyMemory.components (if_pos ?_)
            rw [live_gone]
            exact ⟨hlive _ inv.live, oplive op rfl⟩
      have components (k' : Flow) : (st₁.setBranchOp s k.gone k.attr op).flowComponents s k' =
          if k' = k then (op.map (Component.mk s k.attr)).toList
          else if k' ∈ k.others then [] else st.flowComponents s k' := by
        rw [flowComponents, attached, List.filter_append, erased, hcomponents]
        by_cases h : k' = k
        · subst h
          rw [if_pos ((others k').mpr (.inl rfl)), if_pos rfl]
          cases op <;> simp
        · have apart : k.attr ≠ k'.attr := by
            cases k <;> cases k' <;> first | exact absurd rfl h | decide
          rw [if_neg h, if_congr ((others k').trans (or_iff_right h)) rfl rfl]
          cases op <;> simp [apart, flowComponents]
      refine ⟨?_, fun k' hk => ?_, fun k' b' hb => ?_, fun k' hk hgoto => ?_⟩
      · rw [live_setBranchOp]
        exact hlive s inv.live
      · rw [get] at hk
        rw [components]
        by_cases h : k' = k
        · rw [if_pos h] at hk
          rw [hk, Option.isSome_none, Option.isSome_eq_false_iff, Option.isNone_iff_eq_none]
            at hsome
          rw [if_pos h, hsome]
          rfl
        · rw [if_neg h] at hk
          rw [if_neg h, inv.bare k' hk, ite_self]
      · rw [get] at hb
        rw [components]
        by_cases h : k' = k
        · subst h
          rw [if_pos rfl] at hb ⊢
          rw [hb, Option.isSome_some, Option.isSome_iff_exists] at hsome
          obtain ⟨x, hx⟩ := hsome
          rw [hx]
          exact ⟨x, rfl, (begins b' hb x hx).mono rfl fun _ _ h => h⟩
        · rw [if_neg h] at hb
          have kept : k' ∉ k.others := fun hk => by cases (none k' hk).symm.trans hb
          rw [if_neg h, if_neg kept]
          obtain ⟨x, hx, hbegins⟩ := inv.held k' b' hb
          exact ⟨x, hx, hbegins.mono hblk hdummy⟩
      · rw [get] at hgoto ⊢
        cases k with
        | goto_ =>
            rw [if_neg (by rintro rfl; simp [Flow.others] at hk)]
            exact none k' hk
        | _ =>
            rw [if_neg (by decide)] at hgoto
            exact absurd (none .goto_ (.head _)) hgoto

theorem setFlows {calls : List (Flow × Option BodyBlock)} (inv : FlowInv s st)
    (met : FlowsMet n s calls st) (run : setFlows n s calls st = some st') : FlowInv s st' := by
  induction calls generalizing st with
  | nil => rwa [← Option.some.inj run]
  | cons call calls ih =>
      obtain ⟨st₁, h, run⟩ := Option.bind_eq_some_iff.mp run
      exact ih (inv.setFlow met.1 h) (met.2 st₁ h) run

end FlowInv

/-- In every run of calls on a new operator that all meet the condition, the branches in the
memory are those that the pointers say. -/
theorem flows_agree (type : Nat) {calls : List (Flow × Option BodyBlock)}
    (fresh : ∀ c ∈ st.memory.components, c.tuple ≠ st.memory.next)
    (met : FlowsMet n st.memory.next calls (st.createOperator type))
    (run : setFlows n st.memory.next calls (st.createOperator type) = some st') :
    st'.FlowAgrees st.memory.next := by
  have get (k : Flow) : (st.createOperator type).getFlow st.memory.next k = none := by
    change k.blk (Function.update st.ops st.memory.next .new st.memory.next) = _
    rw [Function.update_self]
    cases k <;> rfl
  have start : FlowInv st.memory.next (st.createOperator type) := by
    refine ⟨Function.update_self _ _ _, fun k _ => ?_, fun k b hb => ?_, fun k _ _ => get k⟩
    · refine List.filter_eq_nil_iff.mpr fun c hc => ?_
      rw [decide_eq_true_eq]
      exact fun h => fresh c hc h.1
    · cases (get k).symm.trans hb
  exact (start.setFlows met run).agrees

/-- Three operators, the signs of which are 1 to 3. -/
def threeOperators : Building := ((start.createOperator 0).createOperator 0).createOperator 0

/-- The block of an operator. -/
def blockOf (s : Sign) : Option BodyBlock := some (.leaf (.operator s))

theorem flows_agree_branches : ∃ st', setFlows 1 4 [(.then_, blockOf 2), (.else_, none)]
    (threeOperators.createOperator 0) = some st' ∧ st'.FlowAgrees 4 := by
  refine ⟨_, rfl, @flows_agree threeOperators _ 1 0 [(.then_, blockOf 2), (.else_, none)]
    (fun _ h => nomatch h) ⟨.inr ⟨?_, ?_⟩, ?_⟩ rfl⟩
  · rintro _ (_ | ⟨_, ⟨⟩⟩)
    rfl
  · rintro _ ⟨⟩
    exact ⟨2, _, rfl, rfl⟩
  · rintro _ ⟨⟩
    refine ⟨.inr ⟨?_, nofun⟩, fun _ _ => trivial⟩
    rintro _ (_ | ⟨_, ⟨⟩⟩)
    rfl

/-- `set_next` of an operator with a `then` and an `else` branch sets the `goto` branch. -/
theorem flows_agree_fails : ¬ ∀ (calls : List (Flow × Option BodyBlock)) (st' : Building),
    setFlows 1 4 calls (threeOperators.createOperator 0) = some st' → st'.FlowAgrees 4 := by
  intro agrees
  have h := (agrees [(.then_, blockOf 1), (.else_, blockOf 2), (.goto_, blockOf 3)] _ rfl).present
    .then_
  exact h.mp rfl rfl

end Building

end ScCore.Scc
