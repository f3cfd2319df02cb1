import ScCore.Search.Fallback
import Mathlib.Data.List.ReduceOption

/-!
# The fallback iterator runs the nested loops

A command and those behind it yield their solutions and then what the way back
from the command yields, whatever that is. It may rely on the registers that the
commands before it have written, and finds the places of the later ones cleared.
-/

namespace ScCore.Search

variable {V : Type}

/-! ## Registers -/

namespace Registers

variable {nil : V} {regs regs' : Registers V} {outs : List (Option Nat)} {vs : List V} {r : Nat}

theorem set_same (regs : Registers V) (r : Nat) (v : V) : regs.set r v r = v := by
  simp [set]

theorem set_of_ne {r' : Nat} (h : r' ≠ r) (v : V) : regs.set r v r' = regs r' := by
  simp [set, h]

theorem store_of_not_mem (h : r ∉ outs.reduceOption) : regs.store nil outs vs r = regs r := by
  induction outs generalizing regs vs with
  | nil => rfl
  | cons out outs ih =>
    cases out with
    | none =>
      rw [List.reduceOption_cons_of_none] at h
      exact ih h
    | some r' =>
      rw [List.reduceOption_cons_of_some, List.mem_cons, not_or] at h
      exact (ih h.2).trans (set_of_ne h.1 _)

theorem store_congr (h : r ∉ outs.reduceOption → regs r = regs' r) :
    regs.store nil outs vs r = regs'.store nil outs vs r := by
  induction outs generalizing regs regs' vs with
  | nil => exact h (by simp)
  | cons out outs ih =>
    cases out with
    | none =>
      rw [List.reduceOption_cons_of_none] at h
      exact ih h
    | some r' =>
      refine ih fun hr => ?_
      by_cases heq : r = r'
      · rw [heq, set_same, set_same]
      · rw [set_of_ne heq, set_of_ne heq]
        exact h (by simp [heq, hr])

end Registers

theorem PrgItem.args_congr {item : PrgItem} {regs regs' : Registers V} {known : List Nat}
    (hin : ∀ r ∈ item.paramsIn, r ∈ known) (h : ∀ r ∈ known, regs' r = regs r) :
    item.args regs' = item.args regs :=
  List.map_congr_left fun r hr => h r (hin r hr)

theorem store_agree {item : PrgItem} {regs regs' : Registers V} {known : List Nat} {nil : V}
    {vs : List V} (h : ∀ r ∈ known, regs' r = regs r) :
    ∀ r ∈ known ++ item.written,
      regs'.store nil item.targets vs r = regs.store nil item.targets vs r := by
  intro r hr
  refine Registers.store_congr fun hnot => h r ?_
  exact (List.mem_append.mp hr).resolve_right hnot

theorem solutions_congr {world : World V} {ret : PrgItem} {items : List PrgItem}
    {known : List Nat} {regs regs' : Registers V} (scope : Scoped known items)
    (hret : ∀ r ∈ ret.paramsIn, r ∈ knownAfter known items) (h : ∀ r ∈ known, regs' r = regs r) :
    (world.solutions items regs').map ret.args = (world.solutions items regs).map ret.args := by
  induction items generalizing known regs regs' with
  | nil => simp [PrgItem.args_congr hret h]
  | cons item items ih =>
    obtain ⟨-, hin, -, scope⟩ := scope
    simp only [World.solutions_cons, World.solve, PrgItem.args_congr hin h, List.map_flatMap,
      List.flatMap_map]
    refine List.flatMap_congr fun vs _ => ?_
    exact ih scope hret (store_agree h)

namespace FallbackIterator

variable {world : World V} {dec : Deconstruct} {item : PrgItem} {i : Nat}
  {s s' : FallbackIterator V}

/-! ## One round -/

def pending (world : World V) (s : FallbackIterator V) (item : PrgItem) (i : Nat) :
    List (List V) :=
  match item.type with
  | .constr => s.nextIter i (world.iterator item.id (item.args s.registers))
  | .setEach =>
      (s.nextSet i (world.plainSet ((item.args s.registers).headD world.nil))).map fun v => [v]
  | _ => []

theorem pending_fresh (hres : item.resumes) (h : s.current i = none) :
    s.pending world item i = world.choices item (item.args s.registers) := by
  cases htype : item.type with
  | constr => simp [pending, World.choices, htype, nextIter, h]
  | setEach => simp [pending, World.choices, htype, nextSet, h]
  | _ => simp [PrgItem.resumes, htype] at hres

theorem round_nil (hres : item.resumes) (h : s.pending world item i = []) :
    s.round world dec item i = (s.setCurrent i none, backward dec.commands i) := by
  cases htype : item.type with
  | constr =>
    simp only [pending, htype] at h
    simp only [round, htype, h]
  | setEach =>
    simp only [pending, htype, List.map_eq_nil_iff] at h
    simp only [round, htype, h]
  | _ => simp [PrgItem.resumes, htype] at hres

theorem round_cons {vs : List V} {rest : List (List V)} (dec : Deconstruct) (hres : item.resumes)
    (h : s.pending world item i = vs :: rest) :
    ∃ part, s.round world dec item i =
        ({ s.setCurrent i (some part) with
          registers := s.registers.store world.nil item.targets vs }, some (i + 1)) ∧
      ∀ s' : FallbackIterator V, s'.current i = some part → s'.pending world item i = rest := by
  cases htype : item.type with
  | constr =>
    simp only [pending, htype] at h
    refine ⟨.iter (vs :: rest), ?_, fun s' h' => ?_⟩
    · simp only [round, htype, h, PrgItem.targets]
      rfl
    · simp [pending, htype, nextIter, h']
  | setEach =>
    simp only [pending, htype, List.map_eq_cons_iff] at h
    obtain ⟨v, left, hset, rfl, rfl⟩ := h
    refine ⟨.setState left, ?_, fun s' h' => ?_⟩
    · simp only [round, htype, hset, PrgItem.targets]
      rfl
    · simp [pending, htype, nextSet, h']
  | _ => simp [PrgItem.resumes, htype] at hres

theorem round_once (world : World V) (dec : Deconstruct) (s : FallbackIterator V) (i : Nat)
    (hproper : item.Proper) (hres : ¬item.resumes) :
    (world.choices item (item.args s.registers) = [] ∧
      ∃ vs, s.round world dec item i =
        ({ s with registers := s.registers.store world.nil item.targets vs },
          backward dec.commands i)) ∨
    (∃ vs, world.choices item (item.args s.registers) = [vs] ∧
      s.round world dec item i =
        ({ s with registers := s.registers.store world.nil item.targets vs }, some (i + 1))) := by
  cases htype : item.type with
  | filter =>
    cases hf : world.filter item.id (item.args s.registers) with
    | false =>
      refine .inl ⟨by simp [World.choices, htype, hf], [], ?_⟩
      simp [round, htype, hf, PrgItem.targets, Registers.store]
    | true =>
      refine .inr ⟨[], by simp [World.choices, htype, hf], ?_⟩
      simp [round, htype, hf, PrgItem.targets, Registers.store]
  | func =>
    cases hf : (world.func item.id (item.args s.registers)).2 &&
        world.passes (world.func item.id (item.args s.registers)).1 with
    | false =>
      refine .inl ⟨by simp [World.choices, htype, hf],
        [(world.func item.id (item.args s.registers)).1], ?_⟩
      simp [round, htype, hf, PrgItem.targets]
    | true =>
      refine .inr ⟨[(world.func item.id (item.args s.registers)).1],
        by simp [World.choices, htype, hf], ?_⟩
      simp [round, htype, hf, PrgItem.targets]
  | ret => simp [PrgItem.Proper, htype] at hproper
  | _ => simp [PrgItem.resumes, htype] at hres

/-! ## The way back -/

section Backward

variable {commands pre suf : List PrgItem}

theorem backward_append (h : commands = pre ++ item :: suf) :
    backward commands (pre.length + 1) =
      if item.resumes then some pre.length else backward commands pre.length := by
  subst h
  simp [backward]

end Backward

/-! ## What a machine yields from here -/

inductive Remaining (world : World V) (p : Program) :
    Option Nat → FallbackIterator V → List (List V) → Prop where
  | isOver {s : FallbackIterator V} : Remaining world p none s []
  | round {i : Nat} {item : PrgItem} {s : FallbackIterator V} {tuples : List (List V)} :
      p.body[i]? = some item →
      Remaining world p (s.round world p.toDeconstruct item i).2
        (s.round world p.toDeconstruct item i).1 tuples →
      Remaining world p (some i) s tuples
  | value {s : FallbackIterator V} {tuples : List (List V)} :
      Remaining world p (backward p.toDeconstruct.commands p.body.length) s tuples →
      Remaining world p (some p.body.length) s (p.ret.args s.registers :: tuples)

/-- The machine comes back to before command `n`: it has what the commands before
have written, and their places; those of the others are cleared. -/
structure Returns (known : List Nat) (n : Nat) (s s' : FallbackIterator V) : Prop where
  registers : ∀ r ∈ known, s'.registers r = s.registers r
  current : ∀ i < n, s'.current i = s.current i
  cleared : ∀ i, n ≤ i → s'.current i = none

section Forward

variable {p : Program} {known : List Nat} {pre suf : List PrgItem} {rest : List (List V)}

theorem remaining_pending {n : Nat} (hitem : p.body[n]? = some item) (hres : item.resumes)
    (hfresh : ∀ r ∈ item.written, r ∉ known) (f : Registers V → List (List V))
    (hf : ∀ regs regs', (∀ r ∈ known ++ item.written, regs' r = regs r) → f regs' = f regs)
    (forward : ∀ (s₁ : FallbackIterator V) rest, (∀ i, n + 1 ≤ i → s₁.current i = none) →
      (∀ s₂, Returns (known ++ item.written) (n + 1) s₁ s₂ →
        Remaining world p (some n) s₂ rest) →
      Remaining world p (some (n + 1)) s₁ (f s₁.registers ++ rest))
    (back : ∀ s', Returns known n s s' →
      Remaining world p (backward p.toDeconstruct.commands n) s' rest)
    {left : List (List V)} (hregs : ∀ r ∈ known, s'.registers r = s.registers r)
    (hcurrent : ∀ i < n, s'.current i = s.current i)
    (hcleared : ∀ i, n + 1 ≤ i → s'.current i = none)
    (hleft : s'.pending world item n = left) :
    Remaining world p (some n) s'
      ((left.flatMap fun vs => f (s.registers.store world.nil item.targets vs)) ++ rest) := by
  induction left generalizing s' with
  | nil =>
    refine .round hitem ?_
    rw [round_nil hres hleft]
    refine back _ ⟨hregs, fun i hi => ?_, fun i hi => ?_⟩
    · simp [setCurrent, Nat.ne_of_lt hi, hcurrent i hi]
    · by_cases heq : i = n
      · simp [setCurrent, heq]
      · simp [setCurrent, heq, hcleared i (by omega)]
  | cons vs left ih =>
    obtain ⟨part, hround, hnext⟩ := round_cons p.toDeconstruct hres hleft
    have hstore : ∀ r ∈ known ++ item.written,
        s'.registers.store world.nil item.targets vs r =
          s.registers.store world.nil item.targets vs r := store_agree hregs
    refine .round hitem ?_
    rw [hround, List.flatMap_cons, List.append_assoc, ← hf _ _ hstore]
    refine forward _ _ (fun i hi => ?_) fun s₂ returns => ?_
    · simp [setCurrent, show i ≠ n by omega, hcleared i hi]
    · refine ih (fun r hr => ?_) (fun i hi => ?_) returns.cleared (hnext s₂ ?_)
      · have hnot : r ∉ item.targets.reduceOption := fun h => hfresh r h hr
        rw [returns.registers r (List.mem_append_left _ hr)]
        exact (Registers.store_of_not_mem hnot).trans (hregs r hr)
      · rw [returns.current i (by omega)]
        simp [setCurrent, Nat.ne_of_lt hi, hcurrent i hi]
      · rw [returns.current n (by omega)]
        simp [setCurrent]

theorem remaining_forward (hbody : p.body = pre ++ suf) (scope : Scoped known suf)
    (hret : ∀ r ∈ p.ret.paramsIn, r ∈ knownAfter known suf)
    (hcleared : ∀ i, pre.length ≤ i → s.current i = none)
    (back : ∀ s', Returns known pre.length s s' →
      Remaining world p (backward p.toDeconstruct.commands pre.length) s' rest) :
    Remaining world p (some pre.length) s
      ((world.solutions suf s.registers).map p.ret.args ++ rest) := by
  induction suf generalizing pre known s rest with
  | nil =>
    have hlen : pre.length = p.body.length := by rw [hbody, List.append_nil]
    rw [hlen] at hcleared back ⊢
    exact .value (back s ⟨fun _ _ => rfl, fun _ _ => rfl, hcleared⟩)
  | cons item suf ih =>
    obtain ⟨hproper, hin, hfresh, scope⟩ := scope
    have hitem : p.body[pre.length]? = some item := by simp [hbody]
    have hcommands : p.toDeconstruct.commands = pre ++ item :: (suf ++ [p.ret]) := by
      simp [Program.toDeconstruct, hbody]
    have hnext : (pre ++ [item]).length = pre.length + 1 := by simp
    have hback := backward_append hcommands
    have forward : ∀ (s₁ : FallbackIterator V) rest,
        (∀ i, pre.length + 1 ≤ i → s₁.current i = none) →
        (∀ s₂, Returns (known ++ item.written) (pre.length + 1) s₁ s₂ →
          Remaining world p (backward p.toDeconstruct.commands (pre.length + 1)) s₂ rest) →
        Remaining world p (some (pre.length + 1)) s₁
          ((world.solutions suf s₁.registers).map p.ret.args ++ rest) := by
      intro s₁ rest hcleared₁ back₁
      have := @ih s₁ (known ++ item.written) (pre ++ [item]) rest (by rw [hbody]; simp) scope hret
      rw [hnext] at this
      exact this hcleared₁ back₁
    have hsolutions : (world.solutions (item :: suf) s.registers).map p.ret.args =
        (world.choices item (item.args s.registers)).flatMap fun vs =>
          (world.solutions suf (s.registers.store world.nil item.targets vs)).map p.ret.args := by
      rw [World.solutions_cons, World.solve, List.flatMap_map, List.map_flatMap]
    rw [hsolutions]
    by_cases hres : item.resumes
    · rw [if_pos hres] at hback
      rw [hback] at forward
      exact remaining_pending hitem hres hfresh (fun regs => (world.solutions suf regs).map
        p.ret.args)
        (fun _ _ => solutions_congr scope hret) forward back (fun _ _ => rfl) (fun _ _ => rfl)
        (fun i hi => hcleared i (by omega)) (pending_fresh hres (hcleared _ (Nat.le_refl _)))
    · rw [if_neg hres] at hback
      rw [hback] at forward
      have store : ∀ vs, ∀ r ∈ known, s.registers.store world.nil item.targets vs r = s.registers
        r :=
        fun vs r hr => Registers.store_of_not_mem fun h => hfresh r h hr
      rcases round_once world p.toDeconstruct s pre.length hproper hres with ⟨hchoices, vs, hround⟩
        | ⟨vs, hchoices, hround⟩
      · rw [hchoices]
        refine .round hitem ?_
        rw [hround]
        exact back _ ⟨store vs, fun _ _ => rfl, hcleared⟩
      · rw [hchoices, List.flatMap_singleton]
        refine .round hitem ?_
        rw [hround]
        refine forward _ rest (fun i hi => hcleared i (by omega)) fun s₂ returns => ?_
        refine back s₂ ⟨fun r hr => ?_, fun i hi => returns.current i (by omega), fun i hi => ?_⟩
        · rw [returns.registers r (List.mem_append_left _ hr)]
          exact store vs r hr
        · by_cases heq : i = pre.length
          · rw [heq, returns.current _ (Nat.lt_succ_self _)]
            exact hcleared _ (Nat.le_refl _)
          · exact returns.cleared i (by omega)

end Forward

/-! ## The iterator -/

section Iterator

variable {p : Program} {tuples : List (List V)} {next : Option Nat}

theorem round_over : (s.round world dec item i).1.isOver = s.isOver := by
  unfold round
  cases item.type with
  | constr => simp only; split <;> rfl
  | setEach => simp only; split <;> rfl
  | filter => simp only; split <;> rfl
  | _ => simp only; split <;> rfl

theorem getElem?_commands {p : Program} (h : p.body[i]? = some item) :
    p.toDeconstruct.commands[i]? = some item ∧ i < p.toDeconstruct.commands.length - 1 := by
  obtain ⟨hlt, -⟩ := List.getElem?_eq_some_iff.mp h
  simp only [Program.toDeconstruct, List.length_append, List.length_singleton,
    Nat.add_sub_cancel]
  exact ⟨by rw [List.getElem?_append_left hlt, h], hlt⟩

theorem values_eq (hover : s.isOver = false) :
    s.values world p.toDeconstruct = p.ret.args s.registers := by
  have hlast : p.toDeconstruct.commands.getLast? = some p.ret := by simp [Program.toDeconstruct]
  have hvalue : s.value world p.toDeconstruct =
      fun num => (p.ret.args s.registers).getD num world.nil := by
    funext num
    simp [value, hlast, hover]
  refine List.ext_getElem? fun k => ?_
  simp only [values, hlast, hvalue, PrgItem.args, Option.map_some, Option.getD_some,
    List.getElem?_map, List.getD_eq_getElem?_getD]
  by_cases hk : k < p.ret.paramsIn.length
  · simp [List.getElem?_range hk, List.getElem?_eq_getElem hk]
  · simp [Nat.le_of_not_lt hk]

theorem next_of_body (hbody : p.body ≠ []) (hover : s.isOver = false) (fuel : Nat) :
    s.next world p.toDeconstruct fuel =
      loop world p.toDeconstruct fuel (backward p.toDeconstruct.commands p.body.length) s := by
  have hpos : 0 < p.body.length := List.length_pos_iff.mpr hbody
  have hcommands : p.toDeconstruct.commands = p.body ++ p.ret :: [] := rfl
  have hret : ¬p.ret.resumes := by simp [PrgItem.resumes, p.returns]
  have hlen : p.toDeconstruct.commands.length - 1 = p.body.length := by simp [hcommands]
  have hany : p.toDeconstruct.commands[p.body.length]?.any (fun item => item.type ≠ .constr) := by
    simp [hcommands, p.returns]
  rw [FallbackIterator.next, if_neg (by simp [hover]), hlen, nextAt, if_pos ⟨hpos, hany⟩,
    backward_append hcommands, if_neg hret]

/-- What remains is what the iterator yields; with a command before the return it
finds its way back. -/
theorem Remaining.yields (hbody : p.body ≠ []) (h : Remaining world p next s tuples)
    (hover : s.isOver = false) :
    ∃ fuel s', loop world p.toDeconstruct fuel next s = some s' ∧
      Yields world p.toDeconstruct s' tuples := by
  induction h with
  | isOver => exact ⟨0, _, rfl, .isOver rfl⟩
  | round hitem _ ih =>
    obtain ⟨fuel, s', hloop, yields⟩ := ih (round_over.trans hover)
    obtain ⟨hcommand, hlt⟩ := getElem?_commands hitem
    refine ⟨fuel + 1, s', ?_, yields⟩
    simp only [loop, hlt, if_true, hcommand]
    exact hloop
  | @value s tuples _ ih =>
    obtain ⟨fuel, s', hloop, yields⟩ := ih hover
    refine ⟨1, s, by simp [loop, Program.toDeconstruct], ?_⟩
    rw [← values_eq hover]
    exact .next hover ((next_of_body hbody hover fuel).trans hloop) yields

theorem not_yields_of_body (hbody : p.body = []) (hover : s.isOver = false) :
    ¬Yields world p.toDeconstruct s tuples := by
  intro h
  induction h with
  | isOver h => simp [h] at hover
  | @next s s' fuel tuples _ hnext _ ih =>
    have hlen : p.toDeconstruct.commands.length - 1 = 0 := by simp [Program.toDeconstruct, hbody]
    rw [FallbackIterator.next, if_neg (by simp [hover]), hlen, nextAt, if_neg (by simp)] at hnext
    cases fuel with
    | zero => cases hnext
    | succ fuel =>
      simp only [loop, hlen, Nat.lt_irrefl, if_false] at hnext
      cases hnext
      exact ih hover

theorem create_eq (p : Program) (fuel : Nat) (inputs : List V) :
    create world p.toDeconstruct fuel inputs =
      loop world p.toDeconstruct fuel (some 0)
        ⟨false, inputRegisters world.nil p.inputCnt inputs, fun _ => none⟩ := by
  rw [create, nextAt, if_neg (by simp)]
  rfl

theorem over_of_create {inputs : List V} {fuel : Nat} (hbody : p.body = [])
    (h : create world p.toDeconstruct fuel inputs = some s) : s.isOver = false := by
  rw [create_eq] at h
  cases fuel with
  | zero => cases h
  | succ fuel =>
    simp only [loop, Program.toDeconstruct, hbody] at h
    cases h
    rfl

end Iterator

end FallbackIterator

open FallbackIterator

theorem remaining_start (p : Program) (world : World V) (inputs : List V) :
    Remaining world p (some 0)
      ⟨false, inputRegisters world.nil p.inputCnt inputs, fun _ => none⟩
      (world.results p inputs) := by
  have hremaining : Remaining world p (some 0)
      ⟨false, inputRegisters world.nil p.inputCnt inputs, fun _ => none⟩
      (world.results p inputs ++ []) :=
    remaining_forward (List.nil_append p.body).symm p.inScope p.known (fun _ _ => rfl)
      (fun _ _ => .isOver)
  rwa [List.append_nil] at hremaining

theorem runsTo_results (p : Program) (world : World V) (inputs : List V) (hbody : p.body ≠ []) :
    RunsTo world p.toDeconstruct inputs (world.results p inputs) := by
  obtain ⟨fuel, s, hloop, yields⟩ := (remaining_start p world inputs).yields hbody rfl
  exact ⟨fuel, s, (create_eq p fuel inputs).trans hloop, yields⟩

/-- For every program, world and input: the fallback iterator yields the tuples of
the nested loops, in their order, and is over then, exactly when the program has a
command before its return. -/
theorem fallback_runsTo_iff (p : Program) (world : World V) (inputs : List V) :
    RunsTo world p.toDeconstruct inputs (world.results p inputs) ↔ p.body ≠ [] := by
  constructor
  · rintro ⟨fuel, s, hcreate, yields⟩ hbody
    exact not_yields_of_body hbody (over_of_create hbody hcreate) yields
  · exact runsTo_results p world inputs

def identity : Program where
  inputCnt := 1
  regCnt := 0
  body := []
  ret := ⟨.ret, [0], [], "", 0⟩
  inScope := trivial
  returns := rfl
  known := by simp [knownAfter]

def emptyWorld : World Nat where
  nil := 0
  isElement v := v ≥ 4096
  isOpened _ := false
  iterator _ _ := []
  filter _ _ := true
  func _ _ := (0, true)
  plainSet _ := []

/-- It should yield its input once; it yields it for ever. -/
theorem fallback_fails : emptyWorld.results identity [5000] = [[5000]] ∧
    ¬RunsTo emptyWorld identity.toDeconstruct [5000] (emptyWorld.results identity [5000]) := by
  refine ⟨rfl, fun ⟨fuel, s, hcreate, yields⟩ => ?_⟩
  exact not_yields_of_body rfl (over_of_create rfl hcreate) yields

end ScCore.Search
