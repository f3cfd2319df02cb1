import ScCore.Scp.Variables

/-!
# Cached operands

`scp_fill_opndinfo` and its cache of the operands of operators, which is used when
`cache_scp_operands` is set. What is cached of an operand is never renewed; the operand,
its arc and its value are read again each time.
-/

namespace ScCore.Scp

inductive OpndKeynode where
  | const
  | var
  | metavar
  | pos
  | fuz
  | neg
  | arc
  | node
  | undf
  | permanent
  | temporary
  | set
  | assign
  /-- `pm_numattr[index]`. -/
  | numattr (index : Nat)
  deriving DecidableEq, Repr

inductive OpndNode where
  | keynode (k : OpndKeynode)
  | op (a : Addr)
  deriving DecidableEq, Repr

structure OpndArc where
  arc : Addr
  beg : OpndNode
  fin : Addr
  /-- It is a `SC_A_CONST|SC_POS`. -/
  cpa : Bool
  deriving DecidableEq, Repr

structure OpndMemory where
  /-- In the order in which a search finds them. -/
  arcs : List OpndArc
  /-- `FULL_IDTF`. -/
  fullIdtf : Addr → String

def scArcMain : ScType :=
  ScType.arcAccessory ||| ScType.const ||| ScType.pos ||| ScType.permanent

namespace OpndMemory

variable (m : OpndMemory)

/-- `search_3_f_cpa_f` from a keynode. -/
def search3 (k : OpndKeynode) (el : Addr) : Bool :=
  m.arcs.any fun a => a.beg = .keynode k ∧ a.fin = el ∧ a.cpa

/-- `search_5_f_cpa_a_cpa_f` from an operator: the arc to the operand. -/
def search5 (op : Addr) (index : Nat) : Option OpndArc :=
  m.arcs.find? fun a => a.beg = .op op ∧ a.cpa ∧ m.search3 (.numattr index) a.arc

/-- What `sc_set::unpack` reports for one of the sets. -/
def flag (el : Addr) (k : OpndKeynode) : Bool :=
  m.arcs.any fun a => a.beg = .keynode k ∧ a.fin = el

def getTypeMask (opndArc : Addr) : ScType :=
  [(.const, ScType.const), (.var, ScType.var), (.metavar, ScType.metavar), (.pos, ScType.pos),
    (.fuz, ScType.fuz), (.neg, ScType.neg), (.arc, scArcMain), (.node, ScType.node),
    (.undf, ScType.undf),
    (.permanent, ScType.permanent), (.temporary, ScType.temporary)].foldl
    (fun type (k, mask) => if m.flag opndArc k then type ||| mask else type) 0

end OpndMemory

/-- `scp_opnd_info`, less `pi` and `name`. -/
structure OpndInfo where
  index : Nat := 0
  opndArc : Option Addr := none
  opnd : Option Addr := none
  value : Option Addr := none
  var : Bool := false
  assign : Bool := false
  fixed : Bool := false
  set : Bool := false
  typeMask : ScType := 0
  deriving DecidableEq, Repr

abbrev OpCache := String → Nat → Option OpndInfo

/-- One call of `scp_fill_opndinfo`, with all that it reads besides the cache. -/
structure Execution where
  memory : OpndMemory
  /-- `pi->active_op`. -/
  activeOp : Addr
  /-- The variables of the process. -/
  env : VarEnv
  index : Nat
  cacheScpOperands : Bool

namespace Execution

variable (hash : Addr → Nat) (x : Execution)

/-- `search_opnd`, `search_set_attr` and `search_var`. -/
def searchOpnd : Option OpndInfo := do
  let a ← x.memory.search5 x.activeOp x.index
  let isVar := x.env.vars a.fin
  some
    { index := x.index, opndArc := some a.arc, opnd := some a.fin, var := isVar, fixed := !isVar
      set := x.memory.search3 .set a.arc, typeMask := x.memory.getTypeMask a.arc }

/-- What follows in either case, from whether the operand has `assign_` on. -/
def retrieve (info : OpndInfo) (opnd : Addr) (assign : Bool) : Retval × OpndInfo × VarEnv :=
  if assign then
    let info := { info with value := none, assign := true }
    if info.var then (rvOk, info, x.env.clearVariable hash opnd) else (rvErrGen, info, x.env)
  else if info.var then
    match x.env.getVarValue hash opnd with
    | (some entry, env) => (rvOk, { info with value := some entry.value, fixed := true }, env)
    | (none, env) => (rvOk, info, env)
  else (rvOk, { info with value := some opnd, fixed := true }, x.env)

/-- `scp_fill_opndinfo` when it does not answer from the cache. -/
def fillFresh : Retval × OpndInfo × VarEnv :=
  match x.searchOpnd, x.memory.search5 x.activeOp x.index with
  | some info, some a => x.retrieve hash info a.fin (x.memory.search3 .assign a.arc)
  | _, _ => (rvElseGen, {}, x.env)

/-- `scp_fill_opndinfo` when it answers from the cache. Nothing stands for a search with a null
pointer. -/
def fillCached (cached : OpndInfo) : Option (Retval × OpndInfo × VarEnv) := do
  let a ← x.memory.search5 x.activeOp x.index
  let info := { cached with opnd := some a.fin, opndArc := some a.arc, value := none }
  some (x.retrieve hash info a.fin (cached.assign || x.memory.search3 .assign a.arc))

def cached (c : OpCache) : Option OpndInfo :=
  if x.cacheScpOperands then c (x.memory.fullIdtf x.activeOp) x.index else none

def scpFillOpndinfo (c : OpCache) : Option ((Retval × OpndInfo × VarEnv) × OpCache) :=
  match x.cached c with
  | some cached => do some (← x.fillCached hash cached, c)
  | none =>
      let filled := x.fillFresh hash
      if x.cacheScpOperands ∧ filled.1 = rvOk then
        some (filled, fun idtf index =>
          if idtf = x.memory.fullIdtf x.activeOp ∧ index = x.index then some filled.2.1
          else c idtf index)
      else some (filled, c)

def runAll (hash : Addr → Nat) (history : List Execution) : Option OpCache :=
  history.foldlM (fun c x => do some (← x.scpFillOpndinfo hash c).2) fun _ _ => none

def descriptor (filled : Retval × OpndInfo × VarEnv) :
    Retval × Option Addr × Bool × Bool × Bool × Option Addr × ScType :=
  let (rv, info, _) := filled
  (rv, info.opnd, info.fixed, info.assign, info.var, info.value, info.typeMask)

def Agrees (c : OpCache) : Prop :=
  ∃ filled c', x.scpFillOpndinfo hash c = some (filled, c') ∧
    descriptor filled = descriptor (x.fillFresh hash)

def keeps : Bool :=
  x.cacheScpOperands && (x.memory.search5 x.activeOp x.index).any fun a =>
    !x.memory.search3 .assign a.arc || x.env.vars a.fin

def source (history : List Execution) : Option Execution :=
  history.find? fun x₀ => x₀.keeps ∧
    x₀.memory.fullIdtf x₀.activeOp = x.memory.fullIdtf x.activeOp ∧ x₀.index = x.index

/-- What was cached still holds: the operand is there, with the same type mask; it is a variable
as before; it has `assign_` if it had; and if it was a variable with a value to be read, then it is
now too. -/
@[mk_iff]
structure Lasts (x₀ : Execution) (a₀ a : OpndArc) : Prop where
  mask : x.memory.getTypeMask a.arc = x₀.memory.getTypeMask a₀.arc
  var : x.env.vars a.fin = x₀.env.vars a₀.fin
  assign : x₀.memory.search3 .assign a₀.arc → x.memory.search3 .assign a.arc
  value : x₀.env.vars a₀.fin → ¬ x₀.memory.search3 .assign a₀.arc →
    (x₀.env.getVarValue hash a₀.fin).1 ≠ none →
      ¬ x.memory.search3 .assign a.arc ∧ (x.env.getVarValue hash a.fin).1 ≠ none

def LastsFrom (x₀ : Execution) : Prop :=
  ∃ a₀ a, x₀.memory.search5 x₀.activeOp x₀.index = some a₀ ∧
    x.memory.search5 x.activeOp x.index = some a ∧ x.Lasts hash x₀ a₀ a

variable {hash x} {x₀ : Execution} {a a₀ : OpndArc} {history : List Execution} {c : OpCache}

theorem fillFresh_some (ha : x.memory.search5 x.activeOp x.index = some a) :
    x.fillFresh hash = x.retrieve hash
      { index := x.index, opndArc := some a.arc, opnd := some a.fin, var := x.env.vars a.fin
        fixed := !x.env.vars a.fin, set := x.memory.search3 .set a.arc
        typeMask := x.memory.getTypeMask a.arc } a.fin (x.memory.search3 .assign a.arc) := by
  simp only [fillFresh, searchOpnd, ha, Option.bind_eq_bind, Option.bind_some]

theorem fillFresh_none (ha : x.memory.search5 x.activeOp x.index = none) :
    x.fillFresh hash = (rvElseGen, {}, x.env) := by
  simp only [fillFresh, searchOpnd, ha, Option.bind_eq_bind, Option.bind_none]

theorem retrieve_rv (info : OpndInfo) (opnd : Addr) (assign : Bool) :
    (x.retrieve hash info opnd assign).1 = rvOk ↔ assign = false ∨ info.var = true := by
  cases assign with
  | true => cases hv : info.var <;> simp [retrieve, hv, rvOk, rvErrGen]
  | false =>
    cases hv : info.var with
    | false => simp [retrieve, hv]
    | true =>
      rcases hval : x.env.getVarValue hash opnd with ⟨_ | entry, env⟩ <;>
        simp [retrieve, hv, hval]

theorem keeps_iff : x.keeps = true ↔ x.cacheScpOperands = true ∧ (x.fillFresh hash).1 = rvOk := by
  rw [keeps, Bool.and_eq_true]
  refine and_congr_right fun _ => ?_
  cases ha : x.memory.search5 x.activeOp x.index with
  | none => simp [fillFresh_none ha, rvElseGen, rvOk]
  | some a =>
    rw [fillFresh_some ha, retrieve_rv]
    simp

theorem fill_entry {filled : Retval × OpndInfo × VarEnv} {c' : OpCache}
    (hr : x.scpFillOpndinfo hash c = some (filled, c')) (idtf : String) (index : Nat) :
    c' idtf index = (c idtf index).or
      (if x.keeps ∧ x.memory.fullIdtf x.activeOp = idtf ∧ x.index = index then
        some (x.fillFresh hash).2.1 else none) := by
  rw [scpFillOpndinfo] at hr
  split at hr
  · next e he =>
    obtain ⟨_, -, hr⟩ := Option.bind_eq_some_iff.mp hr
    cases hr
    split
    · next kept =>
      obtain ⟨-, rfl, rfl⟩ := kept
      rw [cached] at he
      split at he
      · rw [he]
        rfl
      · cases he
    · rw [Option.or_none]
  · next none =>
    dsimp only at hr
    split at hr
    · next kept =>
      have keeps : x.keeps = true := keeps_iff.mpr kept
      cases hr
      rw [cached, if_pos kept.1] at none
      dsimp only
      split
      · next key =>
        obtain ⟨rfl, rfl⟩ := key
        rw [none, if_pos ⟨keeps, rfl, rfl⟩, Option.none_or]
      · next other =>
        rw [if_neg fun key => other ⟨key.2.1.symm, key.2.2.symm⟩, Option.or_none]
    · next kept =>
      cases hr
      rw [if_neg fun key => kept (keeps_iff.mp key.1), Option.or_none]

/-- The entry of an operand is what the first execution computed that was to keep it. -/
theorem runAll_entry (run : runAll hash history = some c) (idtf : String) (index : Nat) :
    c idtf index = (history.find? fun x₀ => x₀.keeps ∧
      x₀.memory.fullIdtf x₀.activeOp = idtf ∧ x₀.index = index).map fun x₀ =>
        (x₀.fillFresh hash).2.1 := by
  induction history using List.reverseRecOn generalizing c with
  | nil =>
    cases run
    rfl
  | append_singleton history x ih =>
    rw [runAll, List.foldlM_append] at run
    obtain ⟨before, past, hr⟩ := Option.bind_eq_some_iff.mp run
    simp only [List.foldlM_cons, List.foldlM_nil, Option.bind_eq_bind, Option.pure_def,
      Option.bind_eq_some_iff] at hr
    obtain ⟨_, ⟨⟨filled, c'⟩, hr, hc'⟩, hc⟩ := hr
    cases hc'
    cases hc
    rw [List.find?_append, Option.map_or, ← ih past]
    refine (fill_entry hr idtf index).trans (congrArg _ ?_)
    by_cases kept : x.keeps ∧ x.memory.fullIdtf x.activeOp = idtf ∧ x.index = index
    · simp [kept]
    · simp only [List.find?_cons, kept, List.find?_nil, if_false, decide_false, Option.map_none]

theorem cached_eq (run : runAll hash history = some c) (caching : x.cacheScpOperands = true) :
    x.cached c = (x.source history).map fun x₀ => (x₀.fillFresh hash).2.1 := by
  rw [cached, if_pos caching, runAll_entry run]
  rfl

theorem entry_of_keeps (ha : x₀.memory.search5 x₀.activeOp x₀.index = some a₀)
    (keeps : x₀.keeps = true) :
    let e := (x₀.fillFresh hash).2.1
    e.typeMask = x₀.memory.getTypeMask a₀.arc ∧ e.var = x₀.env.vars a₀.fin ∧
      e.assign = x₀.memory.search3 .assign a₀.arc ∧
      (x₀.memory.search3 .assign a₀.arc = true → x₀.env.vars a₀.fin = true) ∧
      e.fixed = (!x₀.env.vars a₀.fin ||
        !x₀.memory.search3 .assign a₀.arc && (x₀.env.getVarValue hash a₀.fin).1.isSome) := by
  simp only [Execution.keeps, ha, Option.any_some, Bool.and_eq_true, Bool.or_eq_true,
    Bool.not_eq_true'] at keeps
  rw [fillFresh_some ha]
  cases hassign : x₀.memory.search3 .assign a₀.arc with
  | true =>
    have isVar : x₀.env.vars a₀.fin = true := by simpa [hassign] using keeps.2
    simp [retrieve, isVar]
  | false =>
    cases isVar : x₀.env.vars a₀.fin with
    | false => simp [retrieve]
    | true =>
      rcases hval : x₀.env.getVarValue hash a₀.fin with ⟨_ | entry, env⟩ <;>
        simp [retrieve, hval]

theorem descriptor_retrieve (info : OpndInfo) (opnd : Addr) (assign : Bool)
    (hinfo : info.value = none) :
    descriptor (x.retrieve hash info opnd assign) =
      if assign then
        (if info.var then rvOk else rvErrGen, info.opnd, info.fixed, true, info.var, none,
          info.typeMask)
      else if info.var then
        let value := (x.env.getVarValue hash opnd).1.map CacheEntry.value
        (rvOk, info.opnd, info.fixed || value.isSome, info.assign, true, value, info.typeMask)
      else (rvOk, info.opnd, true, info.assign, false, some opnd, info.typeMask) := by
  cases assign with
  | true => cases hv : info.var <;> simp [retrieve, descriptor, hv]
  | false =>
    cases hv : info.var with
    | false => simp [retrieve, descriptor, hv]
    | true =>
      rcases hval : x.env.getVarValue hash opnd with ⟨_ | entry, env⟩ <;>
        simp [retrieve, descriptor, hv, hval, hinfo]

theorem cached_agrees_iff (ha₀ : x₀.memory.search5 x₀.activeOp x₀.index = some a₀)
    (keeps : x₀.keeps = true) (ha : x.memory.search5 x.activeOp x.index = some a) :
    (∃ filled, x.fillCached hash (x₀.fillFresh hash).2.1 = some filled ∧
      descriptor filled = descriptor (x.fillFresh hash)) ↔ x.Lasts hash x₀ a₀ a := by
  obtain ⟨mask, var, assign, assigned, fixed⟩ := @entry_of_keeps hash _ _ ha₀ keeps
  simp only [fillCached, ha, Option.bind_eq_bind, Option.bind_some, Option.some.injEq,
    exists_eq_left', fillFresh_some ha]
  rw [descriptor_retrieve _ _ _ rfl, descriptor_retrieve _ _ _ rfl, lasts_iff]
  dsimp only
  rw [mask, var, assign, fixed]
  clear mask var assign fixed
  generalize x.memory.getTypeMask a.arc = mask, x₀.memory.getTypeMask a₀.arc = mask₀,
    x.memory.search3 .assign a.arc = assign, x₀.memory.search3 .assign a₀.arc = assign₀,
    x.env.vars a.fin = isVar, x₀.env.vars a₀.fin = isVar₀,
    (x.env.getVarValue hash a.fin).1 = value,
    (x₀.env.getVarValue hash a₀.fin).1 = value₀ at assigned ⊢
  -- `fixed` stays set where a value was read once and is not read now
  cases isVar₀ <;> cases isVar <;> cases assign₀ <;> cases assign <;>
    simp [rvOk, rvErrGen, Option.isSome_iff_ne_none, and_comm, @eq_comm _ mask₀] at assigned ⊢

end Execution

open Execution in
/-- A descriptor agrees with a fresh one exactly if it is not answered from the cache or what was
kept still holds. -/
theorem operands_agree_iff {hash : Addr → Nat} {history : List Execution} {c : OpCache}
    (run : runAll hash history = some c) (x : Execution) : x.Agrees hash c ↔
      (x.cacheScpOperands = true → ∀ x₀, x.source history = some x₀ → x.LastsFrom hash x₀) := by
  have fresh (none : x.cached c = none) : x.Agrees hash c := by
    rw [Agrees, scpFillOpndinfo, none]
    dsimp only
    split
    · exact ⟨_, _, rfl, rfl⟩
    · exact ⟨_, _, rfl, rfl⟩
  cases caching : x.cacheScpOperands with
  | false =>
    have none : x.cached c = none := by rw [cached, caching, if_neg Bool.false_ne_true]
    exact iff_of_true (fresh none) nofun
  | true =>
    have entry := cached_eq run caching
    cases hsrc : x.source history with
    | none =>
      rw [hsrc] at entry
      exact iff_of_true (fresh entry) nofun
    | some x₀ =>
      rw [hsrc] at entry
      have keeps : x₀.keeps = true := by
        have found := List.find?_some hsrc
        exact (decide_eq_true_eq.mp found).1
      have there : ∃ a₀, x₀.memory.search5 x₀.activeOp x₀.index = some a₀ := by
        rw [Execution.keeps, Bool.and_eq_true, Option.any_eq_true] at keeps
        exact keeps.2.imp fun a₀ h => h.1
      obtain ⟨a₀, ha₀⟩ := there
      rw [Agrees, scpFillOpndinfo, entry]
      cases ha : x.memory.search5 x.activeOp x.index with
      | none =>
        refine iff_of_false ?_ fun lasts => ?_
        · rintro ⟨filled, c', hr, -⟩
          simp [fillCached, ha] at hr
        · obtain ⟨_, a, -, ha', -⟩ := lasts rfl x₀ rfl
          rw [ha] at ha'
          cases ha'
      | some a =>
        have lasts : x.LastsFrom hash x₀ ↔ x.Lasts hash x₀ a₀ a := by
          simp only [LastsFrom, ha, ha₀, Option.some.injEq]
          simp
        rw [forall_prop_of_true rfl]
        simp only [Option.some.injEq, forall_eq', lasts, ← cached_agrees_iff ha₀ keeps ha]
        simp [Option.bind_eq_some_iff]

def executionOf (value : Option Addr) : Execution where
  memory :=
    { arcs := [⟨2, .op 1, 7, true⟩, ⟨3, .keynode (.numattr 1), 2, true⟩]
      fullIdtf := fun _ => "op" }
  activeOp := 1
  env := match value with
    | none => .new fun a => a = 7
    | some value => (VarEnv.new fun a => a = 7).setVariable id 7 value
  index := 1
  cacheScpOperands := true

/-- With another value the entry still holds. -/
theorem operands_agree_values : ∃ c, Execution.runAll id [executionOf (some 8)] = some c ∧
    (executionOf (some 9)).cached c ≠ none ∧ (executionOf (some 9)).Agrees id c := by
  have run : ∃ c, Execution.runAll id [executionOf (some 8)] = some c ∧
      (executionOf (some 9)).cached c ≠ none := ⟨_, rfl, nofun⟩
  obtain ⟨c, run, answered⟩ := run
  refine ⟨c, run, answered, (operands_agree_iff run _).mpr fun _ x₀ hx₀ => ?_⟩
  cases hx₀
  exact ⟨_, _, rfl, rfl, ⟨rfl, rfl, id, fun _ _ _ => ⟨nofun, nofun⟩⟩⟩

/-- A variable that has lost its value is still reported as fixed. -/
theorem operand_stays_fixed : ∃ c, Execution.runAll id [executionOf (some 8)] = some c ∧
    ¬ (executionOf none).Agrees id c := by
  refine ⟨_, rfl, ?_⟩
  rintro ⟨filled, c', hr, same⟩
  cases hr
  have fixed : true = false := congrArg (fun descr => descr.2.2.1) same
  cases fixed

end ScCore.Scp
