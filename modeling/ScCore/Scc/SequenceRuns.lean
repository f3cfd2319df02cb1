import ScCore.Lib.Fuel
import ScCore.Lib.Related
import ScCore.Scc.SequenceBlock
import Mathlib.Data.List.Chain

/-!
# Control flow of sequences

Each leaf of a sequence has the block of the next leaf as its `GOTO_` block or, for a label, as
its block. So a label stands for the sign of the operator that its blocks lead to, or for its own
placeholder as long as it waits for a block, and every component is at the sign that its leaf
stands for.
-/

namespace ScCore.Scc

open Building Lib

/-- Through the blocks of labels `x` leads to `z`, an operator or a label that waits. -/
inductive Leads (st : Building) : Leaf → Leaf → Prop where
  | operator (s : Sign) : Leads st (.operator s) (.operator s)
  | waiting {l : Nat} (alone : st.blk l = none) : Leads st (.label l) (.label l)
  | placed {l : Nat} {b : BodyBlock} {y z : Leaf} (block : st.blk l = some b)
      (front : b.front = some y) (leads : Leads st y z) : Leads st (.label l) z

variable {st st' : Building} {x y z : Leaf} {b : BodyBlock} {s d : Sign} {l : Nat} {L : Nat → Prop}

namespace Leads

theorem unique {z' : Leaf} (h : Leads st x z) (h' : Leads st x z') : z = z' := by
  induction h with
  | operator s => cases h' with | operator => rfl
  | waiting alone =>
    cases h' with
    | waiting => rfl
    | placed block => cases alone.symm.trans block
  | placed block front _ ih =>
    cases h' with
    | waiting alone => cases alone.symm.trans block
    | placed block' front' leads' =>
      cases block.symm.trans block'
      cases front.symm.trans front'
      exact ih leads'

theorem congr (h : Leads st x z) (same : st'.blk = st.blk) : Leads st' x z := by
  induction h with
  | operator s => exact .operator s
  | waiting alone => exact .waiting (same ▸ alone)
  | placed block front _ ih => exact .placed (same ▸ block) front ih

theorem waits (h : Leads st x (.label l)) : st.blk l = none := by
  obtain ⟨z, hz⟩ : ∃ z, z = Leaf.label l := ⟨_, rfl⟩
  rw [← hz] at h
  induction h with
  | operator s => cases hz
  | waiting alone =>
    cases hz
    exact alone
  | placed _ _ _ ih => exact ih hz

theorem place (same : st'.blk = Function.update st.blk l (some b)) (alone : st.blk l = none)
    (front : b.front = some y) (ahead : Leads st y z) (apart : z ≠ .label l) {x' z' : Leaf}
    (h : Leads st x' z') : Leads st' x' (if z' = .label l then z else z') := by
  have old {k : Nat} (other : k ≠ l) : st'.blk k = st.blk k := by
    rw [same]
    exact Function.update_of_ne other _ _
  -- what does not end at `l` does not pass it
  have keeps {x' z' : Leaf} (h : Leads st x' z') (other : z' ≠ .label l) : Leads st' x' z' := by
    induction h with
    | operator s => exact .operator s
    | waiting alone' => exact .waiting ((old fun h => other (congrArg _ h)).trans alone')
    | @placed k b y z block front _ ih =>
      have other : k ≠ l := by
        rintro rfl
        cases alone.symm.trans block
      exact .placed ((old other).trans block) front (ih ‹_›)
  by_cases ends : z' = .label l
  · subst ends
    rw [if_pos rfl]
    obtain ⟨w, hw⟩ : ∃ w, w = Leaf.label l := ⟨_, rfl⟩
    rw [← hw] at h
    induction h with
    | operator s => cases hw
    | waiting alone' =>
      cases hw
      refine .placed ?_ front (keeps ahead apart)
      rw [same]
      exact Function.update_self _ _ _
    | @placed k b y z block front _ ih =>
      have other : k ≠ l := by
        rintro rfl
        cases alone.symm.trans block
      exact .placed ((old other).trans block) front (ih hw)
  · rw [if_neg ends]
    exact keeps h ends

end Leads

namespace Building

def signOf (st : Building) : Leaf → Option Sign
  | .operator s => some s
  | .label l => st.dummyOp l

/-- The leaf `x` stands for the sign `s`. -/
def Stands (st : Building) (x : Leaf) (s : Sign) : Prop := ∃ z, Leads st x z ∧ st.signOf z = some s

theorem Stands.congr (h : st.Stands x s) (blk : st'.blk = st.blk)
    (dummyOp : st'.dummyOp = st.dummyOp) : st'.Stands x s := by
  obtain ⟨z, leads, sign⟩ := h
  refine ⟨z, leads.congr blk, ?_⟩
  cases z with
  | operator => exact sign
  | label l => exact (congrFun dummyOp l).trans sign

theorem Stands.unique {s' : Sign} (h : st.Stands x s) (h' : st.Stands x s') : s = s' := by
  obtain ⟨z, leads, hs⟩ := h
  obtain ⟨z', leads', hs'⟩ := h'
  obtain rfl := leads.unique leads'
  exact Option.some.inj (hs.symm.trans hs')

/-- What `get_first_scp_op` answers at the end of the way. -/
def ask (st : Building) : Leaf → Sign × Building
  | .operator s => (s, st)
  | .label l =>
      match st.dummyOp l with
      | some d => (d, st)
      | none => (st.memory.next, st.createDummy l)

theorem getFirstScpOp_leads (h : Leads st x z) :
    Converges (fun n => getFirstScpOp n (some x) st) (some (st.ask z).1, (st.ask z).2) := by
  induction h with
  | operator s => exact Converges.of_succ (.const _)
  | @waiting l alone =>
    refine Converges.of_succ ?_
    have same : (fun n => getFirstScpOp (n + 1) (some (.label l)) st) =
        fun _ => some (some (st.ask (.label l)).1, (st.ask (.label l)).2) := by
      funext n
      rw [getFirstScpOp, alone, ask]
      cases st.dummyOp l <;> rfl
    rw [same]
    exact .const _
  | @placed l b y z block front _ ih =>
    refine Converges.of_succ ?_
    have same : (fun n => getFirstScpOp (n + 1) (some (.label l)) st) =
        fun n => getFirstScpOp n (some y) st := by
      funext n
      rw [getFirstScpOp, block]
      dsimp only
      rw [front]
    rw [same]
    exact ih

end Building

/-! ## The invariant -/

structure Entry where
  tuple : Sign
  attr : Attr
  leaf : Leaf

def Entry.refer? (e : Entry) : Option Nat :=
  match e.attr with
  | .refer l => some l
  | _ => none

def Building.Real (L : Nat → Prop) (st : Building) : Leaf → Prop
  | .operator s => (st.memory.types s).isSome
  | .label l => L l

theorem Building.Real.congr (h : st.Real L x) (same : st'.memory.types = st.memory.types) :
    st'.Real L x := by
  cases x with
  | operator s => exact (congrArg Option.isSome (congrFun same s)).trans h
  | label l => exact h

def Building.Lasting (st : Building) (s : Sign) : Prop :=
  st.memory.live s = true ∧ s ∉ st.placeholders

structure Building.Holds (L : Nat → Prop) (st : Building) (e : Entry) (c : Component) : Prop where
  tuple : c.tuple = e.tuple
  attr : c.attr = e.attr
  el : st.Stands e.leaf c.el
  lasting : st.Lasting e.tuple
  real : st.Real L e.leaf

/-- What holds while a body with the labels `L` is built. -/
structure Building.Inv (L : Nat → Prop) (log : List Entry) (st : Building) : Prop where
  fresh : ∀ s, s ∈ st.placeholders ∨ st.memory.live s = true → s < st.memory.next
  program : st.Lasting program
  operators : ∀ s, (st.memory.types s).isSome → st.Lasting s
  plain : ∀ s, st.ops s = { OperatorBlocks.new with gotoBlk := (st.ops s).gotoBlk }
  waiting : ∀ l d, st.dummyOp l = some d →
    L l ∧ st.blk l = none ∧ d ∈ st.placeholders ∧ st.memory.live d = true
  own : ∀ l l' d, st.dummyOp l = some d → st.dummyOp l' = some d → l = l'
  gone : ∀ d ∈ st.placeholders, st.memory.live d = true → ∃ l, st.dummyOp l = some d
  fronts : ∀ x b, st.getGoto x = some b → ∃ y, b.front = some y ∧ st.Real L y
  total : ∀ x, ∃ z, Leads st x z
  components : List.Forall₂ (st.Holds L) log st.memory.components
  gotos : ∀ s y, ⟨s, .goto_, y⟩ ∈ log ↔ ∃ b, (st.ops s).gotoBlk = some b ∧ b.front = some y
  entries : ∀ e ∈ log, e.attr = .goto_ ∨ ∃ l, e.attr = .refer l ∧ e.leaf = .label l

namespace Building.Inv

variable {log : List Entry} (inv : st.Inv L log)
include inv

theorem real_leads (real : st.Real L x) (h : Leads st x z) : st.Real L z := by
  induction h with
  | operator s => exact real
  | waiting alone => exact real
  | @placed l b y z block front _ ih =>
    obtain ⟨y', front', real'⟩ := inv.fronts (.label l) b block
    cases front.symm.trans front'
    exact ih real'

theorem live_of_stands (real : st.Real L x) (h : st.Stands x s) : st.memory.live s = true := by
  obtain ⟨z, leads, hs⟩ := h
  have real' := inv.real_leads real leads
  cases z with
  | operator s' =>
    cases hs
    exact (inv.operators s real').1
  | label l => exact (inv.waiting l s hs).2.2.2

theorem create (real : L l) (alone : st.blk l = none) (none : st.dummyOp l = none) :
    (st.createDummy l).Inv L log := by
  have old {s : Sign} (lt : s < st.memory.next) :
      (st.createDummy l).memory.live s = st.memory.live s :=
    Function.update_of_ne (Nat.ne_of_lt lt) _ _
  have lasting {s : Sign} (h : st.Lasting s) : (st.createDummy l).Lasting s := by
    have lt := inv.fresh s (.inr h.1)
    refine ⟨(old lt).trans h.1, fun mem => ?_⟩
    obtain mem | mem := List.mem_append.mp mem
    · exact h.2 mem
    · exact absurd (List.mem_singleton.mp mem) (Nat.ne_of_lt lt)
  have dummy {k : Nat} {d : Sign} (h : (st.createDummy l).dummyOp k = some d) :
      k = l ∧ d = st.memory.next ∨ k ≠ l ∧ st.dummyOp k = some d := by
    by_cases same : k = l
    · subst same
      have here : some st.memory.next = some d := (Function.update_self k _ _).symm.trans h
      exact .inl ⟨rfl, (Option.some.inj here).symm⟩
    · exact .inr ⟨same, (Function.update_of_ne same _ _).symm.trans h⟩
  have kept {k : Nat} {d : Sign} (h : st.dummyOp k = some d) :
      (st.createDummy l).dummyOp k = some d := by
    refine (Function.update_of_ne ?_ _ _).trans h
    rintro rfl
    cases none.symm.trans h
  have stands {x : Leaf} {s : Sign} (h : st.Stands x s) : (st.createDummy l).Stands x s := by
    obtain ⟨z, leads, hs⟩ := h
    refine ⟨z, leads.congr rfl, ?_⟩
    cases z with
    | operator => exact hs
    | label k => exact kept hs
  refine ⟨?_, lasting inv.program, fun s h => lasting (inv.operators s h), inv.plain, ?_, ?_, ?_,
    inv.fronts, ?_, ?_, inv.gotos, inv.entries⟩
  · rintro s (mem | live)
    · obtain mem | mem := List.mem_append.mp mem
      · exact Nat.lt_succ_of_lt (inv.fresh s (.inl mem))
      · rw [List.mem_singleton.mp mem]
        exact Nat.lt_succ_self _
    · by_cases new : s = st.memory.next
      · rw [new]
        exact Nat.lt_succ_self _
      · have live : st.memory.live s = true := (Function.update_of_ne new _ _).symm.trans live
        exact Nat.lt_succ_of_lt (inv.fresh s (.inr live))
  · intro k d h
    obtain ⟨rfl, rfl⟩ | ⟨-, h⟩ := dummy h
    · exact ⟨real, alone, List.mem_append_right _ (List.mem_singleton.mpr rfl),
        Function.update_self _ _ _⟩
    · obtain ⟨real, alone, mem, live⟩ := inv.waiting k d h
      exact ⟨real, alone, List.mem_append_left _ mem, (old (inv.fresh d (.inl mem))).trans live⟩
  · intro k k' d h h'
    have lt {k : Nat} (h : st.dummyOp k = some d) : d < st.memory.next :=
      inv.fresh d (.inl (inv.waiting k d h).2.2.1)
    obtain ⟨here, new⟩ | ⟨-, h⟩ := dummy h
    · obtain ⟨here', -⟩ | ⟨-, h'⟩ := dummy h'
      · exact here.trans here'.symm
      · exact absurd (new ▸ lt h') (Nat.lt_irrefl _)
    · obtain ⟨-, new⟩ | ⟨-, h'⟩ := dummy h'
      · exact absurd (new ▸ lt h) (Nat.lt_irrefl _)
      · exact inv.own k k' d h h'
  · intro d mem live
    obtain mem | mem := List.mem_append.mp mem
    · obtain ⟨k, h⟩ := inv.gone d mem ((old (inv.fresh d (.inl mem))).symm.trans live)
      exact ⟨k, kept h⟩
    · obtain rfl := List.mem_singleton.mp mem
      exact ⟨l, Function.update_self _ _ _⟩
  · intro x
    obtain ⟨z, leads⟩ := inv.total x
    exact ⟨z, leads.congr rfl⟩
  · exact inv.components.imp fun e c h => ⟨h.tuple, h.attr, stands h.el, lasting h.lasting, h.real⟩

end Building.Inv

structure Building.Asked (st st' : Building) : Prop where
  ops : st'.ops = st.ops
  blk : st'.blk = st.blk
  types : st'.memory.types = st.memory.types
  next : st.memory.next ≤ st'.memory.next
  dummyOp : ∀ l d, st.dummyOp l = some d → st'.dummyOp l = some d

namespace Building

theorem Asked.refl (st : Building) : st.Asked st :=
  ⟨rfl, rfl, rfl, Nat.le_refl _, fun _ _ h => h⟩

theorem Asked.getGoto (asked : st.Asked st') (x : Leaf) : st'.getGoto x = st.getGoto x := by
  cases x with
  | operator s => rw [Building.getGoto, Building.getGoto, asked.ops]
  | label l => rw [Building.getGoto, Building.getGoto, asked.blk]

theorem Inv.ask {log : List Entry} (inv : st.Inv L log) (real : st.Real L x)
    (leads : Leads st x z) : (st.ask z).2.Inv L log ∧ st.Asked (st.ask z).2 ∧
      (st.ask z).2.signOf z = some (st.ask z).1 := by
  cases z with
  | operator s => exact ⟨inv, Asked.refl st, rfl⟩
  | label l =>
    obtain ⟨dummy, hdummy⟩ : ∃ dummy, st.dummyOp l = dummy := ⟨_, rfl⟩
    rw [Building.ask, hdummy]
    cases dummy with
    | some d => exact ⟨inv, Asked.refl st, hdummy⟩
    | none =>
      refine ⟨inv.create (inv.real_leads real leads) leads.waits hdummy,
        ⟨rfl, rfl, rfl, Nat.le_succ _, fun k d h => ?_⟩, Function.update_self _ _ _⟩
      refine (Function.update_of_ne ?_ _ _).trans h
      rintro rfl
      cases hdummy.symm.trans h

theorem Inv.first {log : List Entry} (inv : st.Inv L log) (real : st.Real L x)
    (leads : Leads st x z) : ∃ s st',
      Converges (fun n => getFirstScpOp n (some x) st) (some s, st') ∧ st'.Inv L log ∧
        st.Asked st' ∧ st'.signOf z = some s := by
  obtain ⟨inv', asked, sign⟩ := inv.ask real leads
  exact ⟨_, _, getFirstScpOp_leads leads, inv', asked, sign⟩

theorem getFirstScpOp_ops (ops : Sign → OperatorBlocks) (n : Nat) (x : Option Leaf) :
    getFirstScpOp n x { st with ops := ops } =
      (getFirstScpOp n x st).map fun r => (r.1, { r.2 with ops := ops }) := by
  induction n generalizing x with
  | zero => rfl
  | succ n ih =>
    rcases x with _ | s | l
    · rfl
    · rfl
    · rw [getFirstScpOp, getFirstScpOp]
      cases st.blk l with
      | some b => exact ih b.front
      | none => cases st.dummyOp l <;> rfl

/-- From `st` to `st'` the block of `x` becomes `b`. -/
structure Links (st : Building) (x : Leaf) (b : BodyBlock) (st' : Building) : Prop where
  goto_ : st'.getGoto x = some b
  others : ∀ x', x' ≠ x → st'.getGoto x' = st.getGoto x'
  types : st'.memory.types = st.memory.types
  next : st.memory.next ≤ st'.memory.next

namespace Inv

variable {log : List Entry}

theorem attach {ops : Sign → OperatorBlocks} {e : Entry} {el : Sign} (inv : st.Inv L log)
    (lasting : st.Lasting e.tuple) (real : st.Real L e.leaf) (stands : st.Stands e.leaf el)
    (attr : e.attr = .goto_ ∨ ∃ l, e.attr = .refer l ∧ e.leaf = .label l)
    (plain : ∀ s, ops s = { OperatorBlocks.new with gotoBlk := (ops s).gotoBlk })
    (fronts : ∀ s b, (ops s).gotoBlk = some b → ∃ y, b.front = some y ∧ st.Real L y)
    (gotos : ∀ s y, ⟨s, .goto_, y⟩ ∈ log ++ [e] ↔
      ∃ b, (ops s).gotoBlk = some b ∧ b.front = some y) :
    { st with
      ops := ops,
      memory := { st.memory with
        components := st.memory.components ++ [⟨e.tuple, e.attr, el⟩] } : Building }.Inv L
      (log ++ [e]) := by
  refine ⟨inv.fresh, inv.program, inv.operators, plain, inv.waiting, inv.own, inv.gone, ?_, ?_, ?_,
    gotos, ?_⟩
  · intro x b block
    obtain ⟨y, front, real⟩ : ∃ y, b.front = some y ∧ st.Real L y := by
      cases x with
      | operator s => exact fronts s b block
      | label l => exact inv.fronts (.label l) b block
    exact ⟨y, front, real.congr rfl⟩
  · intro x
    obtain ⟨z, leads⟩ := inv.total x
    exact ⟨z, leads.congr rfl⟩
  · refine List.rel_append (inv.components.imp fun e c h => ?_) (.cons ?_ .nil)
    · exact ⟨h.tuple, h.attr, h.el.congr rfl rfl, h.lasting, h.real.congr rfl⟩
    · exact ⟨rfl, rfl, stands.congr rfl rfl, lasting, real.congr rfl⟩
  · intro e' mem
    obtain mem | mem := List.mem_append.mp mem
    · exact inv.entries e' mem
    · rw [List.mem_singleton.mp mem]
      exact attr

theorem eraseAt_eq (inv : st.Inv L log) {attr : Attr} (none : ∀ y, ⟨s, attr, y⟩ ∉ log) :
    st.memory.eraseAt s attr = st.memory := by
  have absent : ∀ c ∈ st.memory.components, ¬ (c.tuple = s ∧ c.attr = attr) := by
    rintro c mem ⟨tuple, hattr⟩
    obtain ⟨e, mem, holds⟩ := exists_of_mem_right inv.components mem
    refine none e.leaf ?_
    rw [← tuple, ← hattr, holds.tuple, holds.attr]
    exact mem
  rw [BodyMemory.eraseAt,
    List.eraseP_of_forall_not fun c mem h => absent c mem (of_decide_eq_true h)]

theorem addC_eq {m : BodyMemory} {tuple el : Sign} {attr : Attr} (tupleLive : m.live tuple = true)
    (elLive : m.live el = true) :
    m.addC tuple attr el = { m with components := m.components ++ [⟨tuple, attr, el⟩] } :=
  if_pos ⟨tupleLive, elLive⟩

theorem setGoto (inv : st.Inv L log) (real : st.Real L (.operator s))
    (none : (st.ops s).gotoBlk = none) (front : b.front = some y) (real' : st.Real L y) :
    ∃ st', Converges (fun n => st.setGoto n b (.operator s)) st' ∧
      st'.Inv L (log ++ [⟨s, .goto_, y⟩]) ∧ st.Links (.operator s) b st' := by
  obtain ⟨z, leads⟩ := inv.total y
  obtain ⟨el, st₁, asks, inv₁, asked, sign⟩ := inv.first real' leads
  have stands : st₁.Stands y el := ⟨z, leads.congr asked.blk, sign⟩
  obtain ⟨o, ho⟩ : ∃ o, o = { st.ops s with gotoBlk := some b } := ⟨_, rfl⟩
  obtain ⟨ops, hops⟩ : ∃ ops, ops = Function.update st.ops s o := ⟨_, rfl⟩
  have here : ops s = o := by
    rw [hops]
    exact Function.update_self _ _ _
  have there {s' : Sign} (other : s' ≠ s) : ops s' = st.ops s' := by
    rw [hops]
    exact Function.update_of_ne other _ _
  have absent (attr : Attr) (mem : attr ∈ [Attr.then_, .else_, .goto_]) (y : Leaf) :
      ⟨s, attr, y⟩ ∉ log := by
    intro entry
    obtain goto_ | ⟨l, refer, -⟩ := inv.entries _ entry
    · have goto_ : attr = .goto_ := goto_
      rw [goto_] at entry
      obtain ⟨b, block, -⟩ := (inv.gotos s y).mp entry
      cases none.symm.trans block
    · have refer : attr = .refer l := refer
      rw [refer] at mem
      simp at mem
  have erased {attr : Attr} (mem : attr ∈ [Attr.then_, .else_, .goto_]) :
      st₁.memory.eraseAt s attr = st₁.memory := inv₁.eraseAt_eq (absent attr mem)
  have lasting : st₁.Lasting s := inv₁.operators s (real.congr asked.types)
  have result : Converges (fun n => st.setGoto n b (.operator s))
      { st₁ with
        ops := ops,
        memory := { st₁.memory with
          components := st₁.memory.components ++ [⟨s, .goto_, el⟩] } } := by
    have answers := (asks.bind (Converges.const _) : Converges
      (fun n => (getFirstScpOp n (some y) st).bind fun r => some (r.1, { r.2 with ops := ops })) _)
    have same : (fun n => st.setGoto n b (.operator s)) = fun n =>
        ((getFirstScpOp n (some y) st).bind fun r => some (r.1, { r.2 with ops := ops })).bind
          fun r => some (r.2.setBranchOp s [.then_, .else_, .goto_] .goto_ r.1) := by
      funext n
      have free : ((st.ops s).immutableGoto || (st.ops s).immutableThen ||
        (st.ops s).immutableElse) = false := by
        rw [inv.plain s]
        rfl
      rw [Building.setGoto, setBranch, if_neg (by rw [free]; exact Bool.false_ne_true)]
      dsimp only
      rw [← ho, ← hops, front, getFirstScpOp_ops]
      cases getFirstScpOp n (some y) st <;> rfl
    rw [same]
    refine answers.bind ?_
    have stored : Building.setBranchOp { st₁ with ops := ops } s [.then_, .else_, .goto_] .goto_
        (some el) = { st₁ with ops := ops, memory := { st₁.memory with
          components := st₁.memory.components ++ [⟨s, .goto_, el⟩] } } := by
      rw [setBranchOp]
      dsimp only [List.foldl]
      rw [erased (by simp), erased (by simp), erased (by simp)]
      exact congrArg (fun m => { st₁ with ops := ops, memory := m })
        (addC_eq lasting.1 (inv₁.live_of_stands (real'.congr asked.types) stands))
    dsimp only
    rw [stored]
    exact .const _
  refine ⟨_, result, inv₁.attach (e := ⟨s, .goto_, y⟩) lasting (real'.congr asked.types) stands
    (.inl rfl) ?_ ?_ ?_, ⟨?_, ?_, asked.types, asked.next⟩⟩
  · intro s'
    by_cases same : s' = s
    · rw [same, here, ho, inv.plain s]
    · rw [there same]
      exact inv.plain s'
  · intro s' b' block
    by_cases same : s' = s
    · rw [same, here, ho] at block
      cases block
      exact ⟨y, front, real'.congr asked.types⟩
    · rw [there same] at block
      obtain ⟨y', front', real⟩ := inv.fronts (.operator s') b' block
      exact ⟨y', front', real.congr asked.types⟩
  · intro s' y'
    rw [List.mem_append, List.mem_singleton]
    by_cases same : s' = s
    · subst same
      rw [here, ho]
      constructor
      · rintro (mem | new)
        · exact absurd mem (absent .goto_ (by simp) y')
        · cases new
          exact ⟨b, rfl, front⟩
      · rintro ⟨b', block, front'⟩
        cases block
        cases front.symm.trans front'
        exact .inr rfl
    · rw [there same, ← inv.gotos s' y']
      refine ⟨fun h => h.resolve_right fun new => ?_, .inl⟩
      cases new
      exact same rfl
  · rw [getGoto]
    dsimp only
    rw [here, ho]
  · intro x' other
    cases x' with
    | operator s' =>
      rw [getGoto, getGoto]
      dsimp only
      rw [there fun same => other (congrArg _ same)]
    | label l => exact asked.getGoto (.label l)

end Inv

/-- The label `l` is placed: its placeholder `d` is merged into `main`. -/
def placed (st : Building) (l : Nat) (b : BodyBlock) (main d : Sign) : Building where
  ops := st.ops
  blk := Function.update st.blk l (some b)
  dummyOp := Function.update st.dummyOp l none
  placeholders := st.placeholders
  memory := { st.memory with
    live := Function.update st.memory.live d false,
    components := st.memory.components.map fun c =>
      { c with el := if c.el = d then main else c.el } }

namespace Inv

variable {log : List Entry}

section

variable (inv : st.Inv L log) (dummy : st.dummyOp l = some d)
include inv dummy

theorem differs (real : st.Real L x) (other : x ≠ .label l) (h : st.signOf x = some s) : s ≠ d := by
  rintro rfl
  cases x with
  | operator s' =>
    cases h
    exact (inv.operators s real).2 (inv.waiting l s dummy).2.2.1
  | label k => exact other (congrArg Leaf.label (inv.own k l s h dummy))

theorem lasting_ne (h : st.Lasting s) : s ≠ d := by
  rintro rfl
  exact h.2 (inv.waiting l s dummy).2.2.1

theorem mergeElements_eq {main : Sign} (live : st.memory.live main = true) (differ : main ≠ d) :
    st.memory.mergeElements main d = (st.placed l b main d).memory := by
  have dlive := (inv.waiting l d dummy).2.2.2
  have tuple : ∀ c ∈ st.memory.components, c.tuple ≠ d := by
    intro c mem
    obtain ⟨e, -, holds⟩ := exists_of_mem_right inv.components mem
    rw [holds.tuple]
    exact inv.lasting_ne dummy holds.lasting
  have moves : ∀ c ∈ st.memory.components, BodyMemory.Component.moved main d c =
      { c with el := if c.el = d then main else c.el } := by
    intro c mem
    rw [BodyMemory.Component.moved, if_neg (tuple c mem)]
  rw [BodyMemory.mergeElements, if_pos ⟨live, dlive⟩, BodyMemory.eraseEl, if_pos dlive,
    List.map_congr_left moves, placed]
  congr 1
  refine List.filter_eq_self.mpr fun c mem => ?_
  obtain ⟨c, old, rfl⟩ := List.mem_map.mp mem
  refine decide_eq_true ⟨tuple c old, ?_⟩
  dsimp only
  split
  · exact differ
  · assumption

theorem placed (front : b.front = some y) (real : st.Real L y) (ahead : Leads st y z)
    (apart : z ≠ .label l) {main : Sign} (sign : st.signOf z = some main) :
    (st.placed l b main d).Inv L log ∧ st.Links (.label l) b (st.placed l b main d) := by
  obtain ⟨st', hst'⟩ : ∃ st', st' = st.placed l b main d := ⟨_, rfl⟩
  have alone := (inv.waiting l d dummy).2.1
  have blk : st'.blk = Function.update st.blk l (some b) := by
    rw [hst']
    rfl
  have dummy_ne {k : Nat} (other : k ≠ l) : st'.dummyOp k = st.dummyOp k := by
    rw [hst']
    exact Function.update_of_ne other _ _
  have dummy_self : st'.dummyOp l = none := by
    rw [hst']
    exact Function.update_self _ _ _
  have live_ne {s : Sign} (other : s ≠ d) : st'.memory.live s = st.memory.live s := by
    rw [hst']
    exact Function.update_of_ne other _ _
  have live_self : st'.memory.live d = false := by
    rw [hst']
    exact Function.update_self _ _ _
  have ops : st'.ops = st.ops := by
    rw [hst']
    rfl
  have types : st'.memory.types = st.memory.types := by
    rw [hst']
    rfl
  have next : st'.memory.next = st.memory.next := by
    rw [hst']
    rfl
  have placeholders : st'.placeholders = st.placeholders := by
    rw [hst']
    rfl
  have components : st'.memory.components = st.memory.components.map fun c =>
      { c with el := if c.el = d then main else c.el } := by
    rw [hst']
    rfl
  have lasting {s : Sign} (h : st.Lasting s) : st'.Lasting s :=
    ⟨(live_ne (inv.lasting_ne dummy h)).trans h.1, placeholders ▸ h.2⟩
  have goto_ne {x : Leaf} (other : x ≠ .label l) : st'.getGoto x = st.getGoto x := by
    cases x with
    | operator s => rw [getGoto, getGoto, ops]
    | label k =>
      rw [getGoto, getGoto, blk]
      exact Function.update_of_ne (fun same => other (congrArg _ same)) _ _
  have goto_self : st'.getGoto (.label l) = some b := by
    rw [getGoto, blk]
    exact Function.update_self _ _ _
  have place {x w : Leaf} (h : Leads st x w) : Leads st' x (if w = .label l then z else w) :=
    Leads.place blk alone front ahead apart h
  have sign_ne {w : Leaf} (other : w ≠ .label l) : st'.signOf w = st.signOf w := by
    cases w with
    | operator => rfl
    | label k => exact dummy_ne fun same => other (congrArg _ same)
  rw [← hst']
  refine ⟨⟨?_, lasting inv.program, ?_, ?_, ?_, ?_, ?_, ?_, ?_, ?_, ?_, inv.entries⟩,
    goto_self, fun x => goto_ne, types, next.ge⟩
  · rw [placeholders, next]
    rintro s (mem | live)
    · exact inv.fresh s (.inl mem)
    · refine inv.fresh s (.inr ?_)
      rwa [← live_ne]
      rintro rfl
      cases live_self.symm.trans live
  · intro s h
    exact lasting (inv.operators s (types ▸ h))
  · rw [ops]
    exact inv.plain
  · intro k e h
    have other : k ≠ l := by
      rintro rfl
      cases dummy_self.symm.trans h
    rw [dummy_ne other] at h
    obtain ⟨real, alone, mem, live⟩ := inv.waiting k e h
    refine ⟨real, ?_, placeholders ▸ mem, ?_⟩
    · rw [blk]
      exact (Function.update_of_ne other _ _).trans alone
    · rw [live_ne fun same : e = d => other (inv.own k l e h (same ▸ dummy)), live]
  · intro k k' e h h'
    have old {k : Nat} (h : st'.dummyOp k = some e) : st.dummyOp k = some e := by
      rw [← dummy_ne]
      · exact h
      · rintro rfl
        cases dummy_self.symm.trans h
    exact inv.own k k' e (old h) (old h')
  · rw [placeholders]
    intro e mem live
    have other : e ≠ d := by
      rintro rfl
      cases live_self.symm.trans live
    obtain ⟨k, h⟩ := inv.gone e mem ((live_ne other).symm.trans live)
    refine ⟨k, (dummy_ne ?_).trans h⟩
    rintro rfl
    exact other (Option.some.inj (h.symm.trans dummy))
  · intro x b' block
    by_cases same : x = .label l
    · rw [same, goto_self] at block
      cases block
      exact ⟨y, front, real.congr types⟩
    · rw [goto_ne same] at block
      obtain ⟨y', front', real⟩ := inv.fronts x b' block
      exact ⟨y', front', real.congr types⟩
  · intro x
    obtain ⟨w, leads⟩ := inv.total x
    exact ⟨_, place leads⟩
  · rw [components, List.forall₂_map_right_iff]
    refine inv.components.imp fun e c h =>
      ⟨h.tuple, h.attr, ?_, lasting h.lasting, h.real.congr types⟩
    obtain ⟨w, leads, hw⟩ := h.el
    refine ⟨_, place leads, ?_⟩
    dsimp only
    by_cases ends : w = .label l
    · subst ends
      have here : c.el = d := Option.some.inj (hw.symm.trans dummy)
      rw [if_pos rfl, if_pos here, sign_ne apart, sign]
    · have there := inv.differs dummy (inv.real_leads h.real leads) ends hw
      rw [if_neg ends, if_neg there, sign_ne ends, hw]
  · rw [ops]
    exact inv.gotos

end

theorem placeLabel (inv : st.Inv L log) (real : L l) (alone : st.blk l = none)
    (front : b.front = some y) (real' : st.Real L y) (ahead : Leads st y z)
    (apart : z ≠ .label l) : ∃ st', Converges (fun n => st.placeLabel n b l) st' ∧
      st'.Inv L log ∧ st.Links (.label l) b st' := by
  obtain ⟨main, st₁, asks, inv₁, asked, sign⟩ := inv.first real' ahead
  have waits : Leads st₁ (.label l) (.label l) := .waiting ((congrFun asked.blk l).trans alone)
  obtain ⟨d, st₂, asks', inv₂, asked', dummy⟩ := @Inv.first st₁ (.label l) _ L log inv₁ real waits
  have dummy : st₂.dummyOp l = some d := dummy
  have ahead₂ : Leads st₂ y z := (ahead.congr asked.blk).congr asked'.blk
  have real₂ : st₂.Real L y := (real'.congr asked.types).congr asked'.types
  have sign₂ : st₂.signOf z = some main := by
    cases z with
    | operator => exact sign
    | label k => exact asked'.dummyOp k main sign
  have live := inv₂.live_of_stands real₂ ⟨z, ahead₂, sign₂⟩
  have differ := inv₂.differs dummy (inv₂.real_leads real₂ ahead₂) apart sign₂
  obtain ⟨inv₃, links⟩ := inv₂.placed dummy front real₂ ahead₂ apart sign₂
  refine ⟨_, ?_, inv₃, links.goto_, fun x other => ?_, ?_, ?_⟩
  · obtain ⟨merge, same, merged⟩ :
        ∃ merge : Option Sign × Building → Option Sign × Building → BodyMemory,
          ((fun n => st.placeLabel n b l) = fun n =>
            (getFirstScpOp n (some y) st).bind fun r =>
              (getFirstScpOp n (some (.label l)) r.2).bind fun r' =>
                some { r'.2 with
                  blk := Function.update r'.2.blk l (some b),
                  dummyOp := Function.update r'.2.dummyOp l none,
                  memory := (r'.2.dummyOp l).elim (merge r r') (merge r r').eraseEl }) ∧
          ∀ main other t t', merge (some main, t) (some other, t') =
            t'.memory.mergeElements main other := by
      constructor
      constructor
      · funext n
        rw [Building.placeLabel, alone, if_neg (by exact Bool.false_ne_true), front]
        rfl
      · exact fun _ _ _ _ => rfl
    rw [same]
    refine asks.bind (asks'.bind ?_)
    dsimp only
    rw [merged]
    -- the placeholder is dead when it is erased once more
    have gone : (st₂.placed l b main d).memory.live d = false := Function.update_self _ _ _
    rw [inv₂.mergeElements_eq dummy live differ, dummy, Option.elim_some, BodyMemory.eraseEl,
      gone, if_neg Bool.false_ne_true]
    exact .const _
  · rw [links.others x other, asked'.getGoto, asked.getGoto]
  · rw [links.types, asked'.types, asked.types]
  · exact Nat.le_trans (Nat.le_trans asked.next asked'.next) links.next

theorem createOperator (inv : st.Inv L log) (type : Nat) :
    (st.createOperator type).Inv L log := by
  obtain ⟨st', hst'⟩ : ∃ st', st' = st.createOperator type := ⟨_, rfl⟩
  have live_ne {s : Sign} (other : s ≠ st.memory.next) :
      st'.memory.live s = st.memory.live s := by
    rw [hst']
    exact Function.update_of_ne other _ _
  have types_ne {s : Sign} (other : s ≠ st.memory.next) :
      st'.memory.types s = st.memory.types s := by
    rw [hst']
    exact Function.update_of_ne other _ _
  have ops_ne {s : Sign} (other : s ≠ st.memory.next) : st'.ops s = st.ops s := by
    rw [hst']
    exact Function.update_of_ne other _ _
  have ops_self : st'.ops st.memory.next = .new := by
    rw [hst']
    exact Function.update_self _ _ _
  have live_self : st'.memory.live st.memory.next = true := by
    rw [hst']
    exact Function.update_self _ _ _
  have blk : st'.blk = st.blk := by
    rw [hst']
    rfl
  have dummyOp : st'.dummyOp = st.dummyOp := by
    rw [hst']
    rfl
  have placeholders : st'.placeholders = st.placeholders := by
    rw [hst']
    rfl
  have next : st'.memory.next = st.memory.next + 1 := by
    rw [hst']
    rfl
  have components : st'.memory.components = st.memory.components := by
    rw [hst']
    rfl
  have old {s : Sign} (h : s ∈ st.placeholders ∨ st.memory.live s = true) :
      s ≠ st.memory.next := Nat.ne_of_lt (inv.fresh s h)
  have lasting {s : Sign} (h : st.Lasting s) : st'.Lasting s :=
    ⟨(live_ne (old (.inr h.1))).trans h.1, placeholders ▸ h.2⟩
  have real {x : Leaf} (h : st.Real L x) : st'.Real L x := by
    cases x with
    | operator s =>
      have there := types_ne (old (.inr (inv.operators s h).1))
      exact (congrArg Option.isSome there).trans h
    | label l => exact h
  rw [← hst']
  refine ⟨?_, lasting inv.program, ?_, ?_, ?_, ?_, ?_, ?_, ?_, ?_, ?_, inv.entries⟩
  · intro s h
    rw [next]
    by_cases new : s = st.memory.next
    · rw [new]
      exact Nat.lt_succ_self _
    · rw [placeholders, live_ne new] at h
      exact Nat.lt_succ_of_lt (inv.fresh s h)
  · intro s h
    by_cases new : s = st.memory.next
    · refine ⟨new ▸ live_self, ?_⟩
      rw [placeholders]
      exact fun mem => old (.inl mem) new
    · rw [types_ne new] at h
      exact lasting (inv.operators s h)
  · intro s
    by_cases new : s = st.memory.next
    · rw [new, ops_self]
    · rw [ops_ne new]
      exact inv.plain s
  · intro l d h
    rw [dummyOp] at h
    obtain ⟨real, alone, mem, live⟩ := inv.waiting l d h
    refine ⟨real, ?_, placeholders ▸ mem, (live_ne (old (.inl mem))).trans live⟩
    rw [blk, alone]
  · rw [dummyOp]
    exact inv.own
  · rw [placeholders, dummyOp]
    exact fun d mem live => inv.gone d mem ((live_ne (old (.inl mem))).symm.trans live)
  · intro x b block
    obtain ⟨y, front, there⟩ : ∃ y, b.front = some y ∧ st.Real L y := by
      cases x with
      | operator s =>
        rw [getGoto] at block
        by_cases new : s = st.memory.next
        · rw [new, ops_self] at block
          cases block
        · rw [ops_ne new] at block
          exact inv.fronts (.operator s) b block
      | label l =>
        rw [getGoto, blk] at block
        exact inv.fronts (.label l) b block
    exact ⟨y, front, real there⟩
  · intro x
    obtain ⟨z, leads⟩ := inv.total x
    exact ⟨z, leads.congr blk⟩
  · rw [components]
    exact inv.components.imp fun e c h =>
      ⟨h.tuple, h.attr, h.el.congr blk dummyOp, lasting h.lasting, real h.real⟩
  · intro s y
    by_cases new : s = st.memory.next
    · rw [new, ops_self]
      refine iff_of_false (fun mem => ?_) fun ⟨b, block, _⟩ => nomatch block
      obtain ⟨c, -, holds⟩ := exists_of_mem_left inv.components mem
      exact absurd rfl (old (.inr holds.lasting.1))
    · rw [ops_ne new]
      exact inv.gotos s y

theorem referTo (inv : st.Inv L log) (real : L l) : ∃ st',
    Converges (fun n => st.referTo n l) st' ∧
      st'.Inv L (log ++ [⟨Building.program, .refer l, .label l⟩]) ∧ st.Asked st' := by
  obtain ⟨z, leads⟩ := inv.total (.label l)
  obtain ⟨el, st₁, asks, inv₁, asked, sign⟩ := @Inv.first st (.label l) z L log inv real leads
  have stands : st₁.Stands (.label l) el := ⟨z, leads.congr asked.blk, sign⟩
  have live := @live_of_stands st₁ (.label l) el L log inv₁ real stands
  have attached := @attach st₁ L log st₁.ops ⟨Building.program, .refer l, .label l⟩ el inv₁
    inv₁.program real stands (.inr ⟨l, rfl, rfl⟩) inv₁.plain
    (fun s b => inv₁.fronts (.operator s) b) ?_
  · refine ⟨_, asks.bind ?_, attached, asked.ops, asked.blk, asked.types, asked.next,
      asked.dummyOp⟩
    dsimp only
    rw [Option.elim_some, addC_eq inv₁.program.1 live]
    exact .const _
  · intro s y
    rw [List.mem_append, List.mem_singleton, ← inv₁.gotos s y]
    refine ⟨fun h => h.resolve_right fun new => ?_, .inl⟩
    cases new

end Inv

theorem Inv.setNext {log : List Entry} (inv : st.Inv L log) (real : st.Real L x)
    (none : st.getGoto x = none) (front : b.front = some y) (real' : st.Real L y)
    (ahead : Leads st y z) (apart : z ≠ x) : ∃ st' log',
      Converges (fun n => st.setNext n b x) st' ∧ st'.Inv L log' ∧ st.Links x b st' ∧
        log'.filterMap Entry.refer? = log.filterMap Entry.refer? := by
  have same : (fun n => st.setNext n b x) = fun n => st.setGoto n b x := by
    funext n
    have plain : st.getThen x = .none ∧ st.getElse x = .none := by
      cases x with
      | operator s =>
        rw [getThen, getElse, inv.plain s]
        exact ⟨rfl, rfl⟩
      | label => exact ⟨rfl, rfl⟩
    rw [Building.setNext, none, plain.1, plain.2]
    rfl
  rw [same]
  cases x with
  | operator s =>
    obtain ⟨st', result, inv', links⟩ := inv.setGoto real none front real'
    refine ⟨st', _, result, inv', links, ?_⟩
    rw [List.filterMap_append]
    exact List.append_nil _
  | label l =>
    obtain ⟨st', result, inv', links⟩ := inv.placeLabel real none front real' ahead apart
    exact ⟨st', log, result, inv', links, rfl⟩

end Building

end ScCore.Scc
