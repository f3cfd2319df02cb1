import ScCore.Search.Triples

/-!
# The search that does not name an output

The constraint for two joined five-tuples asks for the begin of an arc and does
not say where to store it. Its search is right as long as it does not come to that
command.
-/

namespace ScCore.Search

open Store FallbackIterator

variable {V : Type}

/-- Where `__next` goes on from the command at which the machine was frozen. -/
def resumeAt (dec : Deconstruct) (i : Nat) : Option Nat :=
  if 0 < i ∧ dec.commands[i]?.any fun item => item.type ≠ .constr then
    backward dec.commands (i + 1)
  else some i

theorem nextAt_resumeAt (world : World V) (dec : Deconstruct) (fuel i : Nat)
    (s : FallbackIterator V) :
    nextAt world dec fuel i s = loop world dec fuel (resumeAt dec i) s := by
  rw [nextAt, resumeAt]
  split <;> rfl

inductive Visits (world : World V) (dec : Deconstruct) (inputs : List V) :
    FallbackIterator V → Option Nat → Prop where
  | create : Visits world dec inputs
      ⟨false, inputRegisters world.nil dec.inputCnt inputs, fun _ => none⟩ (resumeAt dec 0)
  | round {s i item} : Visits world dec inputs s (some i) → i < dec.commands.length - 1 →
      dec.commands[i]? = some item →
      Visits world dec inputs (s.round world dec item i).1 (s.round world dec item i).2
  | next {s i} : Visits world dec inputs s (some i) → ¬i < dec.commands.length - 1 →
      Visits world dec inputs s (resumeAt dec (dec.commands.length - 1))

def StoresNowhere (world : World V) (dec : Deconstruct) (inputs : List V) : Prop :=
  ∃ s i item, Visits world dec inputs s (some i) ∧ i < dec.commands.length - 1 ∧
    dec.commands[i]? = some item ∧ item.type = .func ∧ item.paramsOut = []

section Start

variable {world : World V} {dec : Deconstruct} {inputs : List V} {p : Program}
  {rest : List PrgItem} {s : FallbackIterator V} {next : Option Nat} {tuples : List (List V)}

variable {i : Nat} {item : PrgItem}

section

variable (hdec : dec.commands = p.body ++ rest)
include hdec

theorem backward_start (hi : i ≤ p.body.length) :
    backward dec.commands i = backward p.toDeconstruct.commands i := by
  induction i with
  | zero => rfl
  | succ i ih =>
    simp only [backward, hdec, Program.toDeconstruct, List.getElem?_append_left hi] at ih ⊢
    rw [ih (Nat.le_of_succ_le hi)]

theorem round_start (hitem : p.body[i]? = some item) :
    s.round world dec item i = s.round world p.toDeconstruct item i := by
  have hi := (List.getElem?_eq_some_iff.mp hitem).1
  have hback := backward_start hdec (Nat.le_of_lt hi)
  unfold FallbackIterator.round
  rw [hback]

theorem getElem?_start (hitem : p.body[i]? = some item) : dec.commands[i]? = some item := by
  have hi := (List.getElem?_eq_some_iff.mp hitem).1
  rw [hdec, List.getElem?_append_left hi, hitem]

theorem lt_start (hrest : rest ≠ []) (hitem : p.body[i]? = some item) :
    i < dec.commands.length - 1 := by
  have hi := (List.getElem?_eq_some_iff.mp hitem).1
  have hlen := List.length_pos_of_ne_nil hrest
  rw [hdec, List.length_append]
  omega

/-- Where the first commands find nothing, the machine does not get past them. -/
theorem remaining_of_visits (hrest : rest ≠ []) (hcnt : dec.inputCnt = p.inputCnt)
    (nothing : world.results p inputs = []) (h : Visits world dec inputs s next) :
    Remaining world p next s [] := by
  induction h with
  | create =>
    have start := remaining_start p world inputs
    rwa [nothing, ← hcnt] at start
  | @round s i item _ hlt hitem ih =>
    cases ih with
    | round hitem' remaining =>
      cases hitem.symm.trans (getElem?_start hdec hitem')
      rwa [round_start hdec hitem']
  | @next s i _ hnot ih =>
    cases ih with
    | round hitem' _ => exact absurd (lt_start hdec hrest hitem') hnot

theorem loop_of_remaining (hrest : rest ≠ []) (h : Remaining world p next s tuples)
    (nothing : tuples = []) :
    ∃ fuel s', loop world dec fuel next s = some s' ∧ s'.isOver = true := by
  induction h with
  | isOver => exact ⟨0, _, rfl, rfl⟩
  | @round i item s tuples hitem _ ih =>
    obtain ⟨fuel, s', hloop, ended⟩ := ih nothing
    refine ⟨fuel + 1, s', ?_, ended⟩
    simp only [loop, if_pos (lt_start hdec hrest hitem), getElem?_start hdec hitem,
      round_start hdec hitem]
    exact hloop
  | value => cases nothing

theorem runsTo_nil (hrest : rest ≠ []) (hcnt : dec.inputCnt = p.inputCnt)
    (nothing : world.results p inputs = []) : RunsTo world dec inputs [] := by
  have start := remaining_start p world inputs
  obtain ⟨fuel, s, hloop, ended⟩ := loop_of_remaining hdec hrest start nothing
  refine ⟨fuel, s, ?_, .isOver ended⟩
  rw [create, nextAt_resumeAt, hcnt]
  exact hloop

theorem visits_of_remaining (hrest : rest ≠ []) (h : Remaining world p next s tuples)
    (some_tuple : tuples ≠ []) (visits : Visits world dec inputs s next) :
    ∃ s', Visits world dec inputs s' (some p.body.length) := by
  induction h with
  | isOver => exact absurd rfl some_tuple
  | @round i item s tuples hitem _ ih =>
    apply ih some_tuple
    rw [← round_start hdec hitem]
    exact visits.round (lt_start hdec hrest hitem) (getElem?_start hdec hitem)
  | @value s tuples _ _ => exact ⟨s, visits⟩

end

/-- A search whose first commands store in registers, and whose next one does not. -/
theorem storesNowhere_iff (hdec : dec.commands = p.body ++ item :: rest) (hrest : rest ≠ [])
    (hcnt : dec.inputCnt = p.inputCnt)
    (stores : ∀ item ∈ p.body, item.type = .func → item.paramsOut ≠ []) (func : item.type = .func)
    (nowhere : item.paramsOut = []) :
    StoresNowhere world dec inputs ↔ world.results p inputs ≠ [] := by
  constructor
  · rintro ⟨s, i, item', visits, -, hitem', func', nowhere'⟩ nothing
    cases remaining_of_visits hdec (by simp) hcnt nothing visits with
    | round hitem _ =>
      cases hitem'.symm.trans (getElem?_start hdec hitem)
      exact stores _ (List.mem_of_getElem? hitem) func' nowhere'
  · intro something
    have start := remaining_start p world inputs
    obtain ⟨s, visits⟩ := visits_of_remaining hdec (by simp) start something
      (by rw [← hcnt]; exact .create)
    have hlen := List.length_pos_of_ne_nil hrest
    refine ⟨s, _, item, visits, ?_, ?_, func, nowhere⟩
    · rw [hdec, List.length_append, List.length_cons]
      omega
    · rw [hdec, List.getElem?_append_right (Nat.le_refl _), Nat.sub_self]
      rfl

end Start

/-- The commands of `dec_std5_3_aaaafaf` before the one that names no output. -/
def decStd53Start : Program where
  inputCnt := 7
  regCnt := 6
  body := decStd53Aaaafaf.commands.take 6
  ret := ⟨.ret, [12, 9, 8], [], "return", 0⟩
  inScope := by decide
  returns := rfl
  known := by decide

def fiveThreeParams (t0 t1 t2 t3 : ScType) (e4 : Addr) (t5 : ScType) (e6 : Addr) : List Param :=
  [.type t0, .type t1, .type t2, .type t3, .addr (some e4), .type t5, .addr (some e6)]

/-- The tuples of the pattern that can be seen on the way: `e1` is an arc from `e0` to `e2`, `e5`
one from `e2` to `e6`, and `e3` one from `e4` to `e1`. -/
def FiveThree (ss : Session) (m : Memory) (t0 t1 t2 t3 : ScType) (e4 : Addr) (t5 : ScType)
    (e6 : Addr) (t : List Param) : Prop :=
  ∃ e0 e1 e2 e3 e5, t = [e0, e1, e2, e3, e4, e5, e6].map (fun e => Param.addr (some e)) ∧
    Arc m e1 e0 e2 ∧ Arc m e5 e2 e6 ∧ Arc m e3 e4 e1 ∧
    Accepts m t0 e0 ∧ Accepts m t1 e1 ∧ Accepts m t2 e2 ∧ Accepts m t3 e3 ∧ Accepts m t5 e5 ∧
    Seen ss m e6 e5 ∧ InOpened ss m e2 ∧ Seen ss m e2 e1 ∧ InOpened ss m e0 ∧ Seen ss m e1 e3 ∧
    InOpened ss m e4

def EnumeratesFiveThree (lost : Bool) (ss : Session) (m : Memory) (t0 t1 t2 t3 : ScType)
    (e4 : Addr) (t5 : ScType) (e6 : Addr) : Prop :=
  ∃ reg dec, stdRegistry = some reg ∧ reg.program "std5_3_aaaafaf" = some dec ∧
    ¬StoresNowhere (stdWorld lost ss m) dec (fiveThreeParams t0 t1 t2 t3 e4 t5 e6) ∧
    ∃ tuples, (∀ l, RunsTo (stdWorld lost ss m) dec (fiveThreeParams t0 t1 t2 t3 e4 t5 e6) l ↔
        l = tuples) ∧
      tuples.Nodup ∧ ∀ t, t ∈ tuples ↔ FiveThree ss m t0 t1 t2 t3 e4 t5 e6 t

/-- The search comes as far as the arc `e1`: an arc of type `t5` leads from an element of type
`t2` to `e6`, and an arc of type `t1` ends at that element. -/
def Halfway (ss : Session) (m : Memory) (t1 t2 t5 : ScType) (e6 : Addr) : Prop :=
  ∃ e5 e2 e1, Arc m e5 e2 e6 ∧ m.endOf e1 .fin = some e2 ∧ Accepts m t5 e5 ∧ Accepts m t2 e2 ∧
    Accepts m t1 e1 ∧ Seen ss m e6 e5 ∧ InOpened ss m e2 ∧ Seen ss m e2 e1

theorem stdRegistry_fiveThree : (stdRegistry.any fun reg =>
    reg.program "std5_3_aaaafaf" == some decStd53Aaaafaf) = true := by
  decide +kernel

section FiveThree

variable {m : Memory} {ss : Session} {lost : Bool} {t0 t1 t2 t3 t5 : ScType} {e4 e6 : Addr}

theorem World.nested_nil (world : World V) : world.nested [] = world := rfl

theorem results_start_ne_nil (quiet : Quiet m) :
    (stdWorld lost ss m).results decStd53Start (fiveThreeParams t0 t1 t2 t3 e4 t5 e6) ≠ [] ↔
      Halfway ss m t1 t2 t5 e6 := by
  rw [← World.nested_nil (stdWorld lost ss m)]
  constructor
  · intro something
    obtain ⟨t, ht⟩ := List.exists_mem_of_ne_nil _ something
    obtain ⟨regs, ⟨-, h1, h2, -, -, h5, h6, -⟩, holds, -⟩ := begins_of_mem_results rfl ht
    simp only [decStd53Start, decStd53Aaaafaf, List.take_succ_cons, List.take_zero,
      List.forall_mem_cons] at holds
    obtain ⟨arcs, check5, beg, check2, arcs', check1, -⟩ := holds
    obtain ⟨e5, h12, hfin, s5⟩ := (holds_arcs quiet (.inl ⟨rfl, rfl⟩) rfl h6).mp arcs
    obtain ⟨e2, h9, hbeg, o2⟩ := (holds_end quiet (.inl ⟨rfl, rfl⟩) h12).mp beg
    obtain ⟨e1, h8, hfin', s1⟩ := (holds_arcs quiet (.inl ⟨rfl, rfl⟩) rfl h9).mp arcs'
    exact ⟨e5, e2, e1, ⟨hbeg, hfin⟩, hfin',
      (holds_check quiet (quiet.live hfin).2.1 h12 h5).mp check5,
      (holds_check quiet (quiet.live hbeg).1 h9 h2).mp check2,
      (holds_check quiet (quiet.live hfin').2.1 h8 h1).mp check1, s5, o2, s1⟩
  · rintro ⟨e5, e2, e1, arc, hfin, a5, a2, a1, s5, o2, s1⟩
    refine List.ne_nil_of_mem (mem_results_of [Param.addr none, .addr (some e1),
      .addr (some e2), .addr none, .addr none, .addr (some e5)] rfl ?_)
    simp only [decStd53Start, decStd53Aaaafaf, List.take_succ_cons, List.take_zero,
      List.forall_mem_cons]
    refine ⟨?_, ?_, ?_, ?_, ?_, ?_, by simp⟩
    · exact (holds_arcs quiet (.inl ⟨rfl, rfl⟩) rfl rfl).mpr ⟨e5, rfl, arc.2, s5⟩
    · exact (holds_check quiet (quiet.live arc.2).2.1 rfl rfl).mpr a5
    · exact (holds_end quiet (.inl ⟨rfl, rfl⟩) rfl).mpr ⟨e2, rfl, arc.1, o2⟩
    · exact (holds_check quiet (quiet.live arc.1).1 rfl rfl).mpr a2
    · exact (holds_arcs quiet (.inl ⟨rfl, rfl⟩) rfl rfl).mpr ⟨e1, rfl, hfin, s1⟩
    · exact (holds_check quiet (quiet.live hfin).2.1 rfl rfl).mpr a1

theorem FiveThree.halfway {t : List Param} (h : FiveThree ss m t0 t1 t2 t3 e4 t5 e6 t) :
    Halfway ss m t1 t2 t5 e6 := by
  obtain ⟨e0, e1, e2, e3, e5, -, outer, inner, -, -, a1, a2, -, a5, s5, o2, s1, -⟩ := h
  exact ⟨e5, e2, e1, inner, outer.2, a5, a2, a1, s5, o2, s1⟩

theorem stdRegistry_decStd53 {reg : Registry} (hreg : stdRegistry = some reg) :
    reg.program "std5_3_aaaafaf" = some decStd53Aaaafaf := by
  have h := stdRegistry_fiveThree
  rwa [hreg, Option.any_some, beq_iff_eq] at h

end FiveThree

/-- A match of the pattern: arcs from `0` to `1` and back, and one from `0` to the second of
them. -/
def fiveThreeOps : List Op :=
  [.createEl 0 .node, .createEl 0 .node, .gen3 (some 0) 0 .arc (some 1),
    .gen3 (some 1) 0 .arc (some 0), .gen3 (some 0) 0 .arc (some 3)]

end ScCore.Search
