import ScCore.Search.Elements
import ScCore.Search.NestedLoops
import Mathlib.Data.List.TakeWhile

/-!
# The search for five elements

`std5_f_a_a_a_f_iter` looks for the arcs `e2` that begin at `e1` and the arcs
`e4` from `e5` to `e2` by hand; the same constraint has a deconstruct program.
-/

namespace ScCore.Search

open Store

/-- `dec_std5_faaaf`. The registers are the five inputs, then `e2`, `e3`, `e4`, `ce5`. -/
def decStd5Faaaf : Program where
  inputCnt := 5
  regCnt := 4
  body := [
    ⟨.constr, [0], [none, some 5], "all_output", idAllOutput⟩,
    ⟨.filter, [5, 1], [], "check_type", idCheckType⟩,
    ⟨.func, [5], [some 6], "get_end", idGetEnd⟩,
    ⟨.filter, [6, 2], [], "check_type", idCheckType⟩,
    ⟨.constr, [5], [none, some 7], "all_input", idAllInput⟩,
    ⟨.filter, [7, 3], [], "check_type", idCheckType⟩,
    ⟨.func, [7], [some 8], "get_beg", idGetBeg⟩,
    ⟨.filter, [4, 8], [], "equal2", idEqual2⟩]
  ret := ⟨.ret, [0, 5, 6, 7, 4], [], "return", 0⟩
  inScope := by simp [Scoped, PrgItem.Proper, PrgItem.written, PrgItem.targets, List.range_succ]
  returns := rfl
  known := by decide

/-- `std5_f_a_a_a_f_iter`. An iterator over arcs is what it has still to yield,
from its present value on. -/
structure Std5Iter where
  e1 : Addr
  e2 : Option Addr
  e3 : Option Addr
  e4 : Option Addr
  e5 : Addr
  t2 : ScType
  t3 : ScType
  t4 : ScType
  e1Output : List Addr
  e2Input : Option (List Addr)
  isOver : Bool

namespace Std5Iter

/-- `e2_loop`: what is left of the input arcs from the first one that matches. -/
def e2Loop (m : Memory) (t4 : ScType) (e5 : Addr) : List Addr → Option (List Addr)
  | [] => some []
  | e4 :: rest => do
      let g ← m.addrs e4
      let el ← m.elems g.impl
      if !el.type.fits t4 then e2Loop m t4 e5 rest
      else
        match ← Session.endAddr m (el.ends .beg) with
        | none => e2Loop m t4 e5 rest
        | some beg => if beg = e5 then some (e4 :: rest) else e2Loop m t4 e5 rest

variable (ss : Session) (m : Memory)

/-- `e1_loop`, with what is left of the output arcs. -/
def e1Loop (it : Std5Iter) : List Addr → Option Std5Iter
  | [] => some { it with e1Output := [], e2Input := none, isOver := true }
  | e2 :: rest => do
      let g ← m.addrs e2
      let el ← m.elems g.impl
      if !el.type.fits it.t2 then e1Loop it rest
      else
        match ← Session.endAddr m (el.ends .fin) with
        | none => e1Loop it rest
        | some e3 => do
            let g3 ← m.addrs e3
            if !ss.opened g3.seg then e1Loop it rest
            else
              let el3 ← m.elems g3.impl
              if !el3.type.fits it.t3 then e1Loop it rest
              else
                let input ← metaArcs ss .fin m e2
                match ← e2Loop m it.t4 it.e5 input with
                | [] => e1Loop it rest
                | e4 :: input =>
                    some { it with
                      e2 := some e2, e3 := some e3, e4 := some e4
                      e1Output := e2 :: rest, e2Input := some (e4 :: input) }

def create (e1 e5 : Addr) (t2 t3 t4 : ScType) : Option Std5Iter := do
  let output ← metaArcs ss .beg m e1
  e1Loop ss m ⟨e1, none, none, none, e5, t2.extendMask, t3.extendMask, t4.extendMask,
    output, none, false⟩ output

def next (it : Std5Iter) : Option Std5Iter :=
  if it.isOver then some it
  else do
    let input ← it.e2Input
    match ← e2Loop m it.t4 it.e5 input.tail with
    | e4 :: input => some { it with e4 := some e4, e2Input := some (e4 :: input) }
    | [] => e1Loop ss m it it.e1Output.tail

def values (it : Std5Iter) : List Param :=
  [.addr (some it.e1), .addr it.e2, .addr it.e3, .addr it.e4, .addr (some it.e5)]

inductive Yields : Std5Iter → List (List Param) → Prop where
  | isOver {it} : it.isOver = true → Yields it []
  | next {it it' tuples} : it.isOver = false → it.next ss m = some it' → Yields it' tuples →
      Yields it (it.values :: tuples)

def RunsTo (e1 e5 : Addr) (t2 t3 t4 : ScType) (tuples : List (List Param)) : Prop :=
  ∃ it, create ss m e1 e5 t2 t3 t4 = some it ∧ Yields ss m it tuples

/-! ## What the loops look for -/

/-- The element `e3` at the end of a matching `e2`. -/
def third (it : Std5Iter) (e2 : Addr) : Option Addr :=
  if (m.typeOf e2).any fun type => type.fits it.t2 then
    (m.endOf e2 .fin).filter fun e3 =>
      ((m.addrs e3).any fun g => ss.opened g.seg) && (m.typeOf e3).any fun type => type.fits it.t3
  else none

/-- Does the arc `e4` match? -/
def fourth (it : Std5Iter) (e4 : Addr) : Bool :=
  ((m.typeOf e4).any fun type => type.fits it.t4) && m.endOf e4 .beg == some it.e5

def tuple (it : Std5Iter) (e2 e3 e4 : Addr) : List Param :=
  [.addr (some it.e1), .addr (some e2), .addr (some e3), .addr (some e4), .addr (some it.e5)]

/-- The tuples with a given `e2`. -/
def tuplesAt (it : Std5Iter) (e2 : Addr) : List (List Param) :=
  match it.third ss m e2 with
  | none => []
  | some e3 =>
      (((metaArcs ss .fin m e2).getD []).filter (it.fourth m)).map (it.tuple e2 e3)

/-! ## What the loops find -/

variable {ss : Session} {m : Memory} {h : Holds} {it : Std5Iter} {l : List Addr}

theorem e2Loop_eq (inv : Inv h m) (stored : ∀ x ∈ l, ∃ g, m.addrs x = some g) :
    e2Loop m it.t4 it.e5 l = some (l.dropWhile fun e4 => !it.fourth m e4) := by
  induction l with
  | nil => rfl
  | cons e4 l ih =>
    obtain ⟨g, hg⟩ := stored e4 List.mem_cons_self
    obtain ⟨el, hel, htype, hend⟩ := inv.reads hg .beg
    have rest := ih fun x hx => stored x (List.mem_cons_of_mem _ hx)
    simp only [e2Loop, hg, hel, hend, Option.bind_eq_bind, Option.bind_some, rest,
      List.dropWhile_cons, fourth, htype, Option.any_some]
    cases hfits : el.type.fits it.t4 with
    | false => simp
    | true =>
      cases hb : m.endOf e4 .beg with
      | none => simp
      | some b =>
        by_cases heq : b = it.e5
        · simp [heq]
        · simp [heq]

variable (ss it l) in
theorem e1Loop_cons (inv : Inv h m) (unheld : ∀ n, h.node n = 0) {e2 : Addr}
    (stored : ∃ g, m.addrs e2 = some g) :
    ∃ input, metaArcs ss .fin m e2 = some input ∧ (∀ x ∈ input, ∃ g, m.addrs x = some g) ∧
      e1Loop ss m it (e2 :: l) =
        match it.third ss m e2 with
        | none => e1Loop ss m it l
        | some e3 =>
            match input.dropWhile fun e4 => !it.fourth m e4 with
            | [] => e1Loop ss m it l
            | e4 :: input =>
                some { it with
                  e2 := some e2, e3 := some e3, e4 := some e4
                  e1Output := e2 :: l, e2Input := some (e4 :: input) } := by
  obtain ⟨input, hinput, harcs⟩ := inv.metaArcs unheld ss .fin stored
  have hstored : ∀ x ∈ input, ∃ g, m.addrs x = some g := fun x hx => inv.stored_of_arc (harcs x hx)
  refine ⟨input, hinput, hstored, ?_⟩
  obtain ⟨g, hg⟩ := stored
  obtain ⟨el, hel, htype, hend⟩ := inv.reads hg .fin
  simp only [e1Loop, hg, hel, hend, Option.bind_eq_bind, Option.bind_some, third, htype,
    Option.any_some, hinput, e2Loop_eq inv hstored]
  cases hfits : el.type.fits it.t2 with
  | false => simp
  | true =>
    cases he3 : m.endOf e2 .fin with
    | none => simp
    | some e3 =>
      obtain ⟨g3, hg3⟩ := inv.stored_of_endOf he3
      obtain ⟨el3, hel3, htype3, -⟩ := inv.reads hg3 .fin
      simp only [Bool.not_true, Bool.false_eq_true, if_false, hg3, Option.bind_some, hel3,
        if_true, Option.filter_some, Option.any_some, htype3]
      cases hopen : ss.opened g3.seg with
      | false => simp
      | true =>
        cases hfits3 : el3.type.fits it.t3 with
        | false => simp
        | true => simp

theorem filter_of_dropWhile {α : Type} {p : α → Bool} {l l' : List α} {x : α}
    (hdrop : l.dropWhile (fun a => !p a) = x :: l') :
    l.filter p = x :: l'.filter p ∧ l' <:+ l ∧ l'.length < l.length := by
  induction l with
  | nil => cases hdrop
  | cons a l ih =>
    rw [List.dropWhile_cons] at hdrop
    cases ha : p a with
    | true =>
      simp only [ha, Bool.not_true, Bool.false_eq_true, if_false] at hdrop
      obtain ⟨rfl, rfl⟩ := List.cons.inj hdrop
      exact ⟨List.filter_cons_of_pos ha, List.suffix_cons _ _, Nat.lt_succ_self _⟩
    | false =>
      simp only [ha, Bool.not_false, if_true] at hdrop
      obtain ⟨hfilter, suffix, shorter⟩ := ih hdrop
      refine ⟨?_, suffix.trans (List.suffix_cons _ _), Nat.lt_succ_of_lt shorter⟩
      rw [List.filter_cons_of_neg (by simp [ha]), hfilter]

theorem filter_of_dropWhile_nil {α : Type} {p : α → Bool} {l : List α}
    (hdrop : l.dropWhile (fun a => !p a) = []) : l.filter p = [] := by
  rw [List.dropWhile_eq_nil_iff] at hdrop
  rw [List.filter_eq_nil_iff]
  intro a ha
  simpa using hdrop a ha

def found (it : Std5Iter) (e2 e3 e4 : Addr) (output input : List Addr) : Std5Iter :=
  { it with
    e2 := some e2, e3 := some e3, e4 := some e4
    e1Output := e2 :: output, e2Input := some (e4 :: input) }

variable {tuples tuples' : List (List Param)}

/-- From a tuple on, the search yields what is left of the inner loop and then what
the outer loop yields. -/
theorem found_yields (inv : Inv h m) (hover : it.isOver = false) {e2 e3 : Addr}
    (rest : ∀ e4 input, ∃ it', e1Loop ss m (it.found e2 e3 e4 l input) l = some it' ∧
      Yields ss m it' tuples) (n : Nat) :
    ∀ e4 input, input.length ≤ n → (∀ x ∈ input, ∃ g, m.addrs x = some g) →
      Yields ss m (it.found e2 e3 e4 l input)
        (it.tuple e2 e3 e4 :: ((input.filter (it.fourth m)).map (it.tuple e2 e3) ++ tuples)) := by
  induction n with
  | zero =>
    intro e4 input hlen _
    obtain rfl := List.eq_nil_of_length_eq_zero (Nat.le_zero.mp hlen)
    obtain ⟨it', hloop, yields⟩ := rest e4 []
    refine Yields.next hover ?_ yields
    simp [Std5Iter.next, found, hover, e2Loop, ← hloop]
  | succ n ih =>
    intro e4 input hlen stored
    have hdrop : e2Loop m it.t4 it.e5 input = _ := e2Loop_eq inv stored
    cases hd : input.dropWhile (fun e4 => !it.fourth m e4) with
    | nil =>
      obtain ⟨it', hloop, yields⟩ := rest e4 input
      rw [filter_of_dropWhile_nil hd]
      refine Yields.next hover ?_ yields
      rw [hd] at hdrop
      simp [Std5Iter.next, found, hover, hdrop, ← hloop]
    | cons e4' input' =>
      obtain ⟨hfilter, suffix, shorter⟩ := filter_of_dropWhile hd
      rw [hfilter]
      have yields := ih e4' input' (by omega) fun x hx => stored x (suffix.mem hx)
      refine Yields.next hover ?_ yields
      rw [hd] at hdrop
      simp [Std5Iter.next, found, hover, hdrop]

variable (ss it) in
theorem e1Loop_yields (inv : Inv h m) (unheld : ∀ n, h.node n = 0)
    (stored : ∀ x ∈ l, ∃ g, m.addrs x = some g) (hover : it.isOver = false) :
    ∃ it', e1Loop ss m it l = some it' ∧ Yields ss m it' (l.flatMap (it.tuplesAt ss m)) := by
  induction l generalizing it with
  | nil => exact ⟨_, rfl, Yields.isOver rfl⟩
  | cons e2 l ih =>
    obtain ⟨input, hinput, hstored, turn⟩ := e1Loop_cons ss it l inv unheld
      (stored e2 List.mem_cons_self)
    have others : ∀ x ∈ l, ∃ g, m.addrs x = some g :=
      fun x hx => stored x (List.mem_cons_of_mem _ hx)
    rw [turn, List.flatMap_cons, tuplesAt, hinput, Option.getD_some]
    cases it.third ss m e2 with
    | none => exact ih it others hover
    | some e3 =>
      dsimp only
      cases hd : input.dropWhile (fun e4 => !it.fourth m e4) with
      | nil =>
        rw [filter_of_dropWhile_nil hd]
        exact ih it others hover
      | cons e4 input' =>
        obtain ⟨hfilter, suffix, -⟩ := filter_of_dropWhile hd
        rw [hfilter]
        refine ⟨it.found e2 e3 e4 l input', rfl, ?_⟩
        apply found_yields inv hover (n := input'.length)
        · exact fun e4 input => ih _ others hover
        · exact Nat.le_refl _
        · exact fun x hx => hstored x (suffix.mem hx)

variable (ss) in
theorem runsTo (inv : Inv h m) (unheld : ∀ n, h.node n = 0) {e1 : Addr}
    (stored : ∃ g, m.addrs e1 = some g) (e5 : Addr) (t2 t3 t4 : ScType) :
    RunsTo ss m e1 e5 t2 t3 t4 (((metaArcs ss .beg m e1).getD []).flatMap
      (tuplesAt ss m ⟨e1, none, none, none, e5, t2.extendMask, t3.extendMask, t4.extendMask,
        [], none, false⟩)) := by
  obtain ⟨output, houtput, harcs⟩ := inv.metaArcs unheld ss .beg stored
  obtain ⟨it, hloop, yields⟩ := e1Loop_yields ss
    ⟨e1, none, none, none, e5, t2.extendMask, t3.extendMask, t4.extendMask,
      output, none, false⟩ inv unheld (fun x hx => inv.stored_of_arc (harcs x hx)) rfl
  refine ⟨it, ?_, ?_⟩
  · rw [create, houtput, Option.bind_eq_bind, Option.bind_some, hloop]
  · rw [houtput]
    exact yields

theorem Yields.unique (yields : Yields ss m it tuples) (yields' : Yields ss m it tuples') :
    tuples = tuples' := by
  induction yields generalizing tuples' with
  | isOver hover =>
    cases yields' with
    | isOver => rfl
    | next hnot => simp [hover] at hnot
  | next hnot hnext _ ih =>
    cases yields' with
    | isOver hover => simp [hover] at hnot
    | next _ hnext' yields' =>
      obtain rfl := Option.some.inj (hnext.symm.trans hnext')
      rw [ih yields']

theorem RunsTo.unique {e1 e5 : Addr} {t2 t3 t4 : ScType}
    (runs : RunsTo ss m e1 e5 t2 t3 t4 tuples) (runs' : RunsTo ss m e1 e5 t2 t3 t4 tuples') :
    tuples = tuples' := by
  obtain ⟨it, hcreate, yields⟩ := runs
  obtain ⟨it', hcreate', yields'⟩ := runs'
  obtain rfl := Option.some.inj (hcreate.symm.trans hcreate')
  exact yields.unique yields'

end Std5Iter

/-! ## What the program finds -/

section Commands

variable {ss : Session} {m : Memory} {h : Holds} {regs : Registers Param} {x : Addr} {r o id : Nat}

variable {s : Endpoint}

theorem solve_arcs (name : String)
    (hid : ∀ args, (sessionWorld ss m).iterator id args = allArcs ss s m args)
    (hregs : regs r = .addr (some x)) :
    (sessionWorld ss m).solve ⟨.constr, [r], [none, some o], name, id⟩ regs =
      ((metaArcs ss s m x).getD []).map fun arc => regs.set o (.addr (some arc)) := by
  simp [World.solve, World.choices, PrgItem.args, PrgItem.targets, hid, hregs, allArcs,
    Registers.store, Function.comp_def]

theorem solve_check (inv : Inv h m) (live : m.liveAddr x = true) {t : Nat} {mask : ScType}
    (name : String) (hregs : regs r = .addr (some x)) (hmask : regs t = .type mask) :
    (sessionWorld ss m).solve ⟨.filter, [r, t], [], name, idCheckType⟩ regs =
      if (m.typeOf x).any fun type => type.fits mask.extendMask then [regs] else [] := by
  simp only [World.solve, World.choices, PrgItem.args, PrgItem.targets, sessionWorld, List.map_cons,
    List.map_nil, hregs, hmask, filterCheckType, if_true, inv.getType_system live, checkScType]
  split <;> rfl

theorem solve_end (inv : Inv h m) (live : m.liveAddr x = true) (name : String)
    (hid : ∀ args, (sessionWorld ss m).func id args = funcGetEnd s m args)
    (hregs : regs r = .addr (some x)) :
    (sessionWorld ss m).solve ⟨.func, [r], [some o], name, id⟩ regs =
      match (m.endOf x s).filter fun e => (m.addrs e).any fun g => ss.opened g.seg with
      | none => []
      | some e => [regs.set o (.addr (some e))] := by
  have hend : funcGetEnd s m [.addr (some x)] =
      (m.endOf x s).elim (.addr none, false) fun e => (.addr (some e), true) := by
    simp only [funcGetEnd, inv.getEnd_system live]
    cases m.endOf x s <;> rfl
  simp only [World.solve, World.choices, PrgItem.args, PrgItem.targets, List.map_cons,
    List.map_nil, hid, hregs, hend]
  cases he : m.endOf x s with
  | none => simp
  | some e =>
    cases hopen : (m.addrs e).any fun g => ss.opened g.seg with
    | false => simp [World.passes, sessionWorld, hopen, Option.filter_some]
    | true => simp [World.passes, sessionWorld, hopen, Option.filter_some, Registers.store]

theorem solve_equal {t : Nat} (name : String) :
    (sessionWorld ss m).solve ⟨.filter, [r, t], [], name, idEqual2⟩ regs =
      if regs r = regs t then [regs] else [] := by
  have hfilter : (sessionWorld ss m).filter idEqual2 [regs r, regs t] =
      (regs r == regs t) := rfl
  simp only [World.solve, World.choices, PrgItem.args, PrgItem.targets, List.map_cons,
    List.map_nil, hfilter, beq_iff_eq]
  split <;> rfl

end Commands

section Tuples

open Std5Iter

variable {ss : Session} {m : Memory} {h : Holds} {regs : Registers Param} {it : Std5Iter}
  {t2 t3 t4 : ScType} {e2 e3 e4 : Addr}

theorem solutions_fourth (inv : Inv h m) (live : m.liveAddr e4 = true)
    (opened : (m.addrs it.e5).any (fun g => ss.opened g.seg) = true)
    (ht4 : it.t4 = t4.extendMask) (h0 : regs 0 = .addr (some it.e1)) (h3 : regs 3 = .type t4)
    (h4 : regs 4 = .addr (some it.e5)) (h5 : regs 5 = .addr (some e2))
    (h6 : regs 6 = .addr (some e3)) (h7 : regs 7 = .addr (some e4)) :
    ((sessionWorld ss m).solutions (decStd5Faaaf.body.drop 5) regs).map decStd5Faaaf.ret.args =
      if it.fourth m e4 then [it.tuple e2 e3 e4] else [] := by
  have hend : (sessionWorld ss m).solve ⟨.func, [7], [some 8], "get_beg", idGetBeg⟩ regs = _ :=
    solve_end inv live "get_beg" (fun _ => rfl) h7
  simp only [decStd5Faaaf, List.drop_succ_cons, List.drop_zero]
  rw [World.solutions_cons, solve_check inv live "check_type" h7 h3, ← ht4, fourth]
  cases (m.typeOf e4).any fun type => type.fits it.t4 with
  | false => rfl
  | true =>
    rw [if_pos rfl, List.flatMap_singleton, World.solutions_cons, hend, Bool.true_and]
    cases hbeg : m.endOf e4 .beg with
    | none => rfl
    | some b =>
      have hb : (some b == some it.e5) = true ↔ it.e5 = b := by
        rw [beq_iff_eq, Option.some.injEq]
        exact eq_comm
      simp only [Option.filter_some, hb]
      cases hopen : (m.addrs b).any fun g => ss.opened g.seg with
      | false =>
        have hne : it.e5 ≠ b := fun heq => by simp [← heq, opened] at hopen
        rw [if_neg hne]
        rfl
      | true =>
        simp only [if_true, List.flatMap_singleton, World.solutions_cons, solve_equal,
          Registers.set_same, Registers.set_of_ne (show 4 ≠ 8 by decide), h4, Param.addr.injEq,
          Option.some.injEq]
        split
        · simp [PrgItem.args, tuple, Registers.set, h0, h4, h5, h6, h7]
        · rfl

theorem flatMap_ite {α β : Type} (p : α → Bool) (f : α → β) (l : List α) :
    (l.flatMap fun x => if p x then [f x] else []) = (l.filter p).map f := by
  induction l with
  | nil => rfl
  | cons x l ih =>
    rw [List.flatMap_cons, ih, List.filter_cons]
    cases p x <;> rfl

theorem solutions_input (inv : Inv h m) (unheld : ∀ n, h.node n = 0)
    (stored : ∃ g, m.addrs e2 = some g)
    (opened : (m.addrs it.e5).any (fun g => ss.opened g.seg) = true)
    (ht4 : it.t4 = t4.extendMask) (h0 : regs 0 = .addr (some it.e1)) (h3 : regs 3 = .type t4)
    (h4 : regs 4 = .addr (some it.e5)) (h5 : regs 5 = .addr (some e2))
    (h6 : regs 6 = .addr (some e3)) :
    ((sessionWorld ss m).solutions (decStd5Faaaf.body.drop 4) regs).map decStd5Faaaf.ret.args =
      (((metaArcs ss .fin m e2).getD []).filter (it.fourth m)).map (it.tuple e2 e3) := by
  obtain ⟨input, hinput, harcs⟩ := inv.metaArcs unheld ss .fin stored
  have hsolve : (sessionWorld ss m).solve
      ⟨.constr, [5], [none, some 7], "all_input", idAllInput⟩ regs = _ :=
    solve_arcs "all_input" (fun _ => rfl) h5
  have hdrop : decStd5Faaaf.body.drop 4 =
      ⟨.constr, [5], [none, some 7], "all_input", idAllInput⟩ :: decStd5Faaaf.body.drop 5 := rfl
  rw [hdrop, World.solutions_cons, hsolve, hinput, Option.getD_some, List.flatMap_map,
    List.map_flatMap, ← flatMap_ite]
  apply List.flatMap_congr
  intro e4 he4
  obtain ⟨-, -, -, -, -, -, live⟩ := inv.endOf_some (harcs e4 he4)
  apply solutions_fourth inv live opened ht4
  · rw [Registers.set_of_ne (by decide), h0]
  · rw [Registers.set_of_ne (by decide), h3]
  · rw [Registers.set_of_ne (by decide), h4]
  · rw [Registers.set_of_ne (by decide), h5]
  · rw [Registers.set_of_ne (by decide), h6]
  · exact Registers.set_same _ _ _

theorem solutions_output (inv : Inv h m) (unheld : ∀ n, h.node n = 0)
    (live : m.liveAddr e2 = true)
    (opened : (m.addrs it.e5).any (fun g => ss.opened g.seg) = true)
    (ht2 : it.t2 = t2.extendMask) (ht3 : it.t3 = t3.extendMask) (ht4 : it.t4 = t4.extendMask)
    (h0 : regs 0 = .addr (some it.e1)) (h1 : regs 1 = .type t2) (h2 : regs 2 = .type t3)
    (h3 : regs 3 = .type t4) (h4 : regs 4 = .addr (some it.e5))
    (h5 : regs 5 = .addr (some e2)) :
    ((sessionWorld ss m).solutions (decStd5Faaaf.body.drop 1) regs).map decStd5Faaaf.ret.args =
      it.tuplesAt ss m e2 := by
  obtain ⟨g, hg, -⟩ := liveAddr_eq_true.mp live
  have hend : (sessionWorld ss m).solve ⟨.func, [5], [some 6], "get_end", idGetEnd⟩ regs = _ :=
    solve_end inv live "get_end" (fun _ => rfl) h5
  have hdrop : decStd5Faaaf.body.drop 1 =
      ⟨.filter, [5, 1], [], "check_type", idCheckType⟩ ::
        ⟨.func, [5], [some 6], "get_end", idGetEnd⟩ ::
          ⟨.filter, [6, 2], [], "check_type", idCheckType⟩ :: decStd5Faaaf.body.drop 4 := rfl
  rw [hdrop, World.solutions_cons, solve_check inv live "check_type" h5 h1, ← ht2, tuplesAt, third]
  cases (m.typeOf e2).any fun type => type.fits it.t2 with
  | false => rfl
  | true =>
    rw [if_pos rfl, if_pos rfl, List.flatMap_singleton, World.solutions_cons, hend]
    cases he3 : m.endOf e2 .fin with
    | none => rfl
    | some e3 =>
      obtain ⟨-, -, -, -, -, live3, -⟩ := inv.endOf_some he3
      have h5' : regs.set 6 (.addr (some e3)) 5 = .addr (some e2) := by
        rw [Registers.set_of_ne (by decide), h5]
      have h2' : regs.set 6 (.addr (some e3)) 2 = .type t3 := by
        rw [Registers.set_of_ne (by decide), h2]
      simp only [Option.filter_some]
      cases (m.addrs e3).any fun g => ss.opened g.seg with
      | false => rfl
      | true =>
        rw [if_pos rfl, Bool.true_and]
        dsimp only
        rw [List.flatMap_singleton, World.solutions_cons,
          solve_check inv live3 "check_type" (Registers.set_same _ _ _) h2', ← ht3]
        cases (m.typeOf e3).any fun type => type.fits it.t3 with
        | false => rfl
        | true =>
          rw [if_pos rfl, if_pos rfl, List.flatMap_singleton]
          apply solutions_input inv unheld ⟨g, hg⟩ opened ht4
          · rw [Registers.set_of_ne (by decide), h0]
          · rw [Registers.set_of_ne (by decide), h3]
          · rw [Registers.set_of_ne (by decide), h4]
          · exact h5'
          · exact Registers.set_same _ _ _

variable (ss it t2 t3 t4) in
theorem results_decStd5Faaaf (inv : Inv h m) (unheld : ∀ n, h.node n = 0)
    (stored : ∃ g, m.addrs it.e1 = some g)
    (opened : (m.addrs it.e5).any (fun g => ss.opened g.seg) = true)
    (ht2 : it.t2 = t2.extendMask) (ht3 : it.t3 = t3.extendMask) (ht4 : it.t4 = t4.extendMask) :
    (sessionWorld ss m).results decStd5Faaaf
        [.addr (some it.e1), .type t2, .type t3, .type t4, .addr (some it.e5)] =
      ((metaArcs ss .beg m it.e1).getD []).flatMap (it.tuplesAt ss m) := by
  obtain ⟨output, houtput, harcs⟩ := inv.metaArcs unheld ss .beg stored
  have hsolve : (sessionWorld ss m).solve
      ⟨.constr, [0], [none, some 5], "all_output", idAllOutput⟩
      (inputRegisters (sessionWorld ss m).nil 5
        [.addr (some it.e1), .type t2, .type t3, .type t4, .addr (some it.e5)]) = _ :=
    solve_arcs (x := it.e1) "all_output" (fun _ => rfl) rfl
  have hbody : decStd5Faaaf.body =
      ⟨.constr, [0], [none, some 5], "all_output", idAllOutput⟩ :: decStd5Faaaf.body.drop 1 := rfl
  rw [World.results, hbody, World.solutions_cons]
  change List.map _ (List.flatMap _ ((sessionWorld ss m).solve _ (inputRegisters _ 5 _))) = _
  rw [hsolve, houtput, Option.getD_some, List.flatMap_map, List.map_flatMap]
  apply List.flatMap_congr
  intro e2 he2
  obtain ⟨-, -, -, -, -, -, live⟩ := inv.endOf_some (harcs e2 he2)
  exact solutions_output inv unheld live opened ht2 ht3 ht4 rfl rfl rfl rfl rfl
    (Registers.set_same _ _ _)

end Tuples

/-! ## Two ways to search -/

def SearchesAgree (ss : Session) (m : Memory) (e1 e5 : Addr) (t2 t3 t4 : ScType) : Prop :=
  ∃ tuples, (∀ l, Std5Iter.RunsTo ss m e1 e5 t2 t3 t4 l ↔ l = tuples) ∧
    ∀ l, FallbackIterator.RunsTo (sessionWorld ss m) decStd5Faaaf.toDeconstruct
      [.addr (some e1), .type t2, .type t3, .type t4, .addr (some e5)] l ↔ l = tuples

def InOpened (ss : Session) (m : Memory) (a : Addr) : Prop :=
  ∃ g, m.addrs a = some g ∧ ss.opened g.seg = true

/-- The two searches agree in every memory where arcs have kept their types. -/
theorem searches_agree (uri tmpPrefix : SegId → ScString) (st : State)
    (run : Reaches arcsKeepType (State.initial uri tmpPrefix) st) (ss : Session) (e1 e5 : Addr)
    (h1 : InOpened ss st.memory e1) (h5 : InOpened ss st.memory e5) (t2 t3 t4 : ScType) :
    SearchesAgree ss st.memory e1 e5 t2 t3 t4 := by
  have inv := StateInv.reaches run
  obtain ⟨g1, hg1, -⟩ := h1
  obtain ⟨g5, hg5, hopen⟩ := h5
  have byHand := Std5Iter.runsTo ss inv (fun _ => rfl) ⟨g1, hg1⟩ e5 t2 t3 t4
  have results := results_decStd5Faaaf ss
    ⟨e1, none, none, none, e5, t2.extendMask, t3.extendMask, t4.extendMask, [], none, false⟩ t2 t3
      t4
    inv (fun _ => rfl) ⟨g1, hg1⟩ (by simp [hg5, hopen]) rfl rfl rfl
  have byProgram := runsTo_results decStd5Faaaf (sessionWorld ss st.memory)
    [.addr (some e1), .type t2, .type t3, .type t4, .addr (some e5)] (by simp [decStd5Faaaf])
  rw [results] at byProgram
  refine ⟨_, fun l => ⟨fun runs => runs.unique byHand, ?_⟩,
    fun l => ⟨fun runs => runs.unique byProgram, ?_⟩⟩
  · rintro rfl
    exact byHand
  · rintro rfl
    exact byProgram

def relationOps : List Op :=
  [.createEl 0 .node, .gen3 (some 0) 0 .arc (some 0), .gen3 (some 0) 0 .arc (some 1)]

theorem searches_agree_relation :
    ∃ st, runOps 3 relationOps (State.initial (fun _ => []) fun _ => []) = some st ∧
      SearchesAgree systemSession st.memory 0 0 .arc 0 .arc := by
  have hrun : ∃ st g, runOps 3 relationOps (State.initial (fun _ => []) fun _ => []) = some st ∧
      st.memory.addrs 0 = some g := ⟨_, _, rfl, rfl⟩
  obtain ⟨st, g, hst, hg⟩ := hrun
  have run := reaches_keeping (by decide) hst
  exact ⟨st, hst, searches_agree _ _ st run systemSession 0 0 ⟨g, hg, rfl⟩ ⟨g, hg, rfl⟩ .arc 0 .arc⟩

/-- As `relationOps`, but the first arc has two connector bits and becomes a node. -/
def degradedRelationOps : List Op :=
  [.createEl 0 .node, .gen3 (some 0) 0 (.edge ||| .arc) (some 0), .gen3 (some 0) 0 .arc (some 1),
    .changeType 1 .node]

/-- The search by hand goes through the arc that has become a node, the program does not. -/
theorem searches_agree_fails : ¬∀ (uri tmpPrefix : SegId → ScString) (st : State),
    Reaches (fun _ _ _ _ => True) (State.initial uri tmpPrefix) st → ∀ (ss : Session)
    (e1 e5 : Addr), InOpened ss st.memory e1 → InOpened ss st.memory e5 →
    ∀ t2 t3 t4 : ScType, SearchesAgree ss st.memory e1 e5 t2 t3 t4 := by
  intro claim
  have hrun : ∃ st g it, runOps 3 degradedRelationOps (State.initial (fun _ => []) fun _ => []) =
        some st ∧ st.memory.addrs 0 = some g ∧
      Std5Iter.create systemSession st.memory 0 0 0 0 0 = some it ∧ it.isOver = false ∧
      (sessionWorld systemSession st.memory).results decStd5Faaaf
        [.addr (some 0), .type 0, .type 0, .type 0, .addr (some 0)] = [] := by
    refine ⟨_, _, _, rfl, rfl, rfl, ?_, ?_⟩ <;> decide
  obtain ⟨st, g, it, hst, hg, hcreate, hover, results⟩ := hrun
  have run : Reaches (fun _ _ _ _ => True) (State.initial (fun _ => []) fun _ => []) st :=
    reaches_runOps degradedRelationOps (fun _ _ _ => trivial) (.refl _) hst
  obtain ⟨tuples, byHand, byProgram⟩ :=
    claim _ _ st run systemSession 0 0 ⟨g, hg, rfl⟩ ⟨g, hg, rfl⟩ 0 0 0
  have nothing : [] = tuples := by
    apply (byProgram []).mp
    rw [← results]
    exact runsTo_results decStd5Faaaf _ _ (by simp [decStd5Faaaf])
  obtain ⟨it', hcreate', yields⟩ := (byHand tuples).mpr rfl
  obtain rfl := Option.some.inj (hcreate.symm.trans hcreate')
  rw [← nothing] at yields
  cases yields with
  | isOver hover' => simp [hover] at hover'

end ScCore.Search
