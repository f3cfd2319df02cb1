import Mathlib.Data.List.ReduceOption
import ScCore.Lib.Related
import ScCore.Sets.Copying
import ScCore.Store.Gen3

/-!
# Including elements in a set

`sc_set::include`. The overloads that are given a segment hand their arguments to
`include_v`, the others to `include_in_v`, which takes an element and its sets. `is_in` asks
whether an element is in a set.
-/

namespace ScCore.Sets

open ScCore.Store Memory ScCore.Lib ScCore.Search

def memberType (setType : ScType) : ScType :=
  .arcAccessory ||| setType &&& .constancyMask ||| .pos

section Code

variable (ss : Session) (w : Waits) (fuel : Nat)

/-- The loop of `include_v`. -/
def includeEach (seg : SegId) (set : Addr) (type : ScType) :
    List Addr → Memory → Option Memory
  | [], m => some m
  | el :: els, m => do
      let (m, _, _) ← ss.gen3 w fuel m (some set) seg type (some el)
      includeEach seg set type els m

def includeV (seg : SegId) (set : Addr) (els : List Addr) (m : Memory) : Option Memory := do
  let setType ← ss.getType m set
  includeEach ss w fuel seg set (memberType setType) els m

/-- `include_in_v`; `arc` is the arc of the last set before these. -/
def includeInV (seg : SegId) (el : Addr) :
    List Addr → Option Addr → Memory → Option (Memory × Option Addr)
  | [], arc, m => some (m, arc)
  | set :: sets, _, m => do
      let setType ← ss.getType m set
      let (m, arc, _) ← ss.gen3 w fuel m (some set) seg (memberType setType) (some el)
      includeInV seg el sets arc m

/-- `include_in_m` without a segment. -/
def includeInM (el : Addr) (sets : List Addr) (m : Memory) : Option (Memory × Option Addr) := do
  let g ← m.addrs el
  includeInV ss w fuel g.seg el sets none m

/-- The arguments that the overloads of `include` without a segment hand on. Those with six
elements and more leave out the fifth. -/
def handedOn : List Addr → List Addr
  | [el1, el2, el3, el4, _, el6] => [el1, el2, el3, el4, el6]
  | [el1, el2, el3, el4, _, el6, el7] => [el1, el2, el3, el4, el6, el7]
  | [el1, el2, el3, el4, _, el6, el7, el8] => [el1, el2, el3, el4, el6, el7, el8]
  | [el1, el2, el3, el4, _, el6, el7, el8, el9] => [el1, el2, el3, el4, el6, el7, el8, el9]
  | els => els

/-- The two families of overloads of `include`. -/
inductive Overload where
  | withSegment (seg : SegId)
  | withoutSegment

/-- The elements that are passed: the overloads take from one to nine. -/
abbrev Passed := { els : List Addr // 1 ≤ els.length ∧ els.length ≤ 9 }

def Overload.include : Overload → Addr → Passed → Memory → Option Memory
  | .withSegment seg, set, els, m => includeV ss w fuel seg set els m
  | .withoutSegment, set, els, m => (includeInM ss w fuel set (handedOn els) m).map Prod.fst

end Code

/-- There is one new positive arc from the set to each of the elements, and nothing else is
new. -/
def Included (m m' : Memory) (set : Addr) (els : List Addr) : Prop :=
  ∃ arcs : List Addr, arcs.Nodup ∧
    arcs.Forall₂ (fun x el => NewArc m m' x (some set) (some el) ∧
      ∃ t, m'.typeOf x = some t ∧ t.isa .pos = true) els ∧
    ∀ y, m'.liveAddr y = true → m.liveAddr y = false → y ∈ arcs

/-! ## One arc -/

variable {h : Holds} {m m' m₁ : Memory} {ss : Session} {w : Waits} {fuel : Nat} {rv : Retval}
  {seg : SegId} {t : ScType} {b e el set x y : Addr} {r : Option Addr}

structure Positive (t : ScType) : Prop where
  pos : t.isa .pos = true
  defined : t &&& .undf = 0

theorem memberType_verify (t : ScType) :
    ∃ t', (memberType t).verify = some t' ∧ Positive t' := by
  have all : ∀ n : Fin 512, ((memberType (UInt16.ofNat n)).verify.any fun t' =>
      t'.isa .pos && t' &&& .undf == 0) = true := by
    decide +kernel
  have small : (t &&& .constancyMask).toNat < 512 := by
    rw [UInt16.toNat_and]
    exact Nat.lt_of_le_of_lt Nat.and_le_right (by decide)
  have same : memberType (UInt16.ofNat (t &&& .constancyMask).toNat) = memberType t := by
    rw [UInt16.ofNat_toNat, memberType, memberType, UInt16.and_assoc, UInt16.and_self]
  have checked := all ⟨_, small⟩
  rw [same] at checked
  obtain ⟨t', verified, holds⟩ := (Option.any_eq_true _ _).mp checked
  rw [Bool.and_eq_true, beq_iff_eq] at holds
  exact ⟨t', verified, holds.1, holds.2⟩

/-! ## One call after the other -/

inductive Calls (ss : Session) (w : Waits) (fuel : Nat) (seg : SegId) :
    Memory → List (Addr × Addr) → List (Option Addr) → Memory → Prop
  | nil (m : Memory) : Calls ss w fuel seg m [] [] m
  | cons {m m₁ m' : Memory} {b e : Addr} {t : ScType} {r : Option Addr} {rv : Retval}
      {ps : List (Addr × Addr)} {rs : List (Option Addr)}
      (call : ss.gen3 w fuel m (some b) seg (memberType t) (some e) = some (m₁, r, rv))
      (rest : Calls ss w fuel seg m₁ ps rs m') :
      Calls ss w fuel seg m ((b, e) :: ps) (r :: rs) m'

def Member (m m' : Memory) (r : Option Addr) (p : Addr × Addr) : Prop :=
  ∀ x, r = some x → NewArc m m' x (some p.1) (some p.2) ∧
    ∃ t, m'.typeOf x = some t ∧ Positive t

structure Outcome (h : Holds) (m m' : Memory) (ps : List (Addr × Addr))
    (rs : List (Option Addr)) : Prop where
  inv : Inv h m'
  live : ∀ y, m.liveAddr y = true → m'.liveAddr y = true
  ends : ∀ y, m.liveAddr y = true → ∀ s, m'.endOf y s = m.endOf y s
  typeOf : ∀ y t, m.liveAddr y = true → m.typeOf y = some t → t &&& .undf = 0 →
    m'.typeOf y = some t
  made : List.Forall₂ (Member m m') rs ps
  nodup : rs.reduceOption.Nodup
  ended : ∀ y, m'.endOf y .fin ≠ none → m.liveAddr y = true ∨ some y ∈ rs
  born : none ∉ rs → ∀ y, m'.liveAddr y = true → m.liveAddr y = true ∨ some y ∈ rs

variable {ps : List (Addr × Addr)} {rs : List (Option Addr)}

theorem Member.earlier {p : Addr × Addr} (live : ∀ y, m.liveAddr y = true → m₁.liveAddr y = true)
    (member : Member m₁ m' r p) : Member m m' r p := by
  intro x hx
  obtain ⟨arc, type⟩ := member x hx
  refine ⟨⟨?_, arc.live, arc.beg, arc.fin⟩, type⟩
  by_contra old
  have new := arc.new
  rw [live x (by simpa using old)] at new
  cases new

theorem Calls.outcome (calls : Calls ss w fuel seg m ps rs m') (inv : Inv h m)
    (unheld : ∀ n, h.node n = 0) : Outcome h m m' ps rs := by
  induction calls with
  | nil m =>
    refine ⟨inv, fun _ live => live, fun _ _ _ => rfl, fun _ _ _ type _ => type, .nil,
      List.nodup_nil, fun y ended => .inl (inv.live_of_end ended), fun _ y live => .inl live⟩
  | @cons m m₁ m' b e t r rv ps rs call rest ih =>
    have step := inv.gen3_step unheld call
    have after := ih step.inv
    refine ⟨after.inv, fun y live => after.live y (step.live y live), fun y live s => ?_,
      fun y u live type defined => ?_, .cons ?_ ?_, ?_, ?_, ?_⟩
    · rw [after.ends y (step.live y live), step.ends y live]
    · exact after.typeOf y u (step.live y live) (step.typeOf y u live type defined) defined
    · intro x hx
      obtain ⟨arc, type⟩ := step.made x hx
      obtain ⟨t', verified, positive⟩ := memberType_verify t
      refine ⟨⟨arc.new, after.live x arc.live, ?_, ?_⟩, t', ?_, positive⟩
      · rw [after.ends x arc.live, arc.beg]
      · rw [after.ends x arc.live, arc.fin]
      · exact after.typeOf x t' arc.live (type t' verified positive.defined) positive.defined
    · exact after.made.imp fun _ _ member => member.earlier step.live
    · cases r with
      | none => exact after.nodup
      | some x =>
        rw [List.reduceOption_cons_of_some, List.nodup_cons, List.reduceOption_mem_iff]
        refine ⟨fun mem => ?_, after.nodup⟩
        obtain ⟨p, -, member⟩ := exists_of_mem_left after.made mem
        have new := (member x rfl).1.new
        rw [((step.made x rfl).1).live] at new
        cases new
    · intro y ended
      obtain live | mem := after.ended y ended
      · rw [after.ends y live] at ended
        obtain live | same := step.ended y ended
        · exact .inl live
        · exact .inr (same ▸ List.mem_cons_self)
      · exact .inr (List.mem_cons_of_mem _ mem)
    · intro none y live
      obtain ⟨here, there⟩ := not_or.mp (List.mem_cons.not.mp none)
      obtain live | mem := after.born there y live
      · obtain live | same := step.born (Ne.symm here) y live
        · exact .inl live
        · exact .inr (same ▸ List.mem_cons_self)
      · exact .inr (List.mem_cons_of_mem _ mem)

section Passing

variable (ss : Session) (w : Waits) (fuel : Nat)

/-- Every arc that `include_v` makes gets past the checks of `gen3_f_a_f`. -/
def passesEach (seg : SegId) (set : Addr) (type : ScType) : List Addr → Memory → Prop
  | [], _ => True
  | el :: els, m => gen3Passes ss w m (some set) seg type (some el) ∧
      ∀ m₁ r rv, ss.gen3 w fuel m (some set) seg type (some el) = some (m₁, r, rv) →
        passesEach seg set type els m₁

/-- Every arc that `include_in_v` makes gets past the checks of `gen3_f_a_f`. -/
def passesInEach (seg : SegId) (el : Addr) : List Addr → Memory → Prop
  | [], _ => True
  | set :: sets, m => ∀ setType, ss.getType m set = some setType →
      gen3Passes ss w m (some set) seg (memberType setType) (some el) ∧
      ∀ m₁ r rv, ss.gen3 w fuel m (some set) seg (memberType setType) (some el) =
        some (m₁, r, rv) → passesInEach seg el sets m₁

end Passing

variable {els sets : List Addr} {arc arc' : Option Addr}

theorem gen3_none_iff (inv : Inv h m) (unheld : ∀ n, h.node n = 0)
    (hr : ss.gen3 w fuel m (some b) seg t (some e) = some (m', r, rv)) :
    none ≠ r ↔ gen3Passes ss w m (some b) seg t (some e) := by
  rw [← inv.gen3_ok_iff unheld hr]
  cases r with
  | none => exact iff_of_false (fun other => other rfl) (gen3_none hr)
  | some x => exact iff_of_true nofun (gen3_stored hr)

theorem includeEach_calls (inv : Inv h m) (unheld : ∀ n, h.node n = 0)
    (hr : includeEach ss w fuel seg set (memberType t) els m = some m') :
    ∃ rs, Calls ss w fuel seg m (els.map fun el => (set, el)) rs m' ∧
      (none ∉ rs ↔ passesEach ss w fuel seg set (memberType t) els m) := by
  induction els generalizing m with
  | nil =>
    obtain rfl := Option.some.inj hr
    exact ⟨[], .nil m, iff_of_true nofun trivial⟩
  | cons el els ih =>
    obtain ⟨⟨m₁, r, rv⟩, call, hr⟩ := Option.bind_eq_some_iff.mp hr
    obtain ⟨rs, calls, passes⟩ := ih (inv.gen3_step unheld call).inv hr
    refine ⟨r :: rs, .cons call calls, ?_⟩
    rw [List.mem_cons, not_or, passes, passesEach]
    refine and_congr (gen3_none_iff inv unheld call) ⟨fun here m₂ r' rv' call' => ?_, fun all =>
      all m₁ r rv call⟩
    cases call.symm.trans call'
    exact here

theorem includeInV_calls (inv : Inv h m) (unheld : ∀ n, h.node n = 0)
    (hr : includeInV ss w fuel seg el sets arc m = some (m', arc')) :
    ∃ rs, Calls ss w fuel seg m (sets.map fun set => (set, el)) rs m' ∧
      (none ∉ rs ↔ passesInEach ss w fuel seg el sets m) := by
  induction sets generalizing m arc with
  | nil =>
    cases hr
    exact ⟨[], .nil _, iff_of_true nofun trivial⟩
  | cons set sets ih =>
    obtain ⟨setType, type, hr⟩ := Option.bind_eq_some_iff.mp hr
    obtain ⟨⟨m₁, r, rv⟩, call, hr⟩ := Option.bind_eq_some_iff.mp hr
    obtain ⟨rs, calls, passes⟩ := ih (inv.gen3_step unheld call).inv hr
    refine ⟨r :: rs, .cons call calls, ?_⟩
    rw [List.mem_cons, not_or, passes, passesInEach]
    constructor
    · rintro ⟨some, here⟩ setType' type'
      cases type.symm.trans type'
      refine ⟨(gen3_none_iff inv unheld call).mp some, fun m₂ r' rv' call' => ?_⟩
      cases call.symm.trans call'
      exact here
    · intro all
      obtain ⟨some, here⟩ := all setType type
      exact ⟨(gen3_none_iff inv unheld call).mpr some, here m₁ r rv call⟩

/-! ## Which elements are included -/

/-- Where every call made its arc, what the calls were asked for is included. -/
theorem Outcome.included (out : Outcome h m m' (els.map fun el => (set, el)) rs)
    (all : none ∉ rs) : Included m m' set els := by
  have arcs : rs = rs.reduceOption.map some := by
    clear out
    induction rs with
    | nil => rfl
    | cons r rs ih =>
      obtain ⟨here, there⟩ := not_or.mp (List.mem_cons.not.mp all)
      cases r with
      | none => exact absurd rfl here
      | some x => rw [List.reduceOption_cons_of_some, List.map_cons, ← ih there]
  refine ⟨rs.reduceOption, out.nodup, ?_, fun y live new => ?_⟩
  · have made := out.made
    rw [arcs, List.forall₂_map_left_iff, List.forall₂_map_right_iff] at made
    refine made.imp fun x el member => ?_
    obtain ⟨arc, t, type, positive⟩ := member x rfl
    exact ⟨arc, t, type, positive.pos⟩
  · obtain old | mem := out.born all y live
    · rw [new] at old
      cases old
    · exact List.reduceOption_mem_iff.mpr mem

theorem Outcome.of_included (out : Outcome h m m' ps rs) (included : Included m m' set els) :
    els.length ≤ rs.reduceOption.length ∧ ∀ el ∈ els, (set, el) ∈ ps := by
  obtain ⟨arcs, nodup, new, -⟩ := included
  have within : ∀ x ∈ arcs, some x ∈ rs := by
    intro x mem
    obtain ⟨el, -, arc, -⟩ := exists_of_mem_left new mem
    obtain live | mem := out.ended x (by rw [arc.fin]; exact Option.some_ne_none _)
    · rw [arc.new] at live
      cases live
    · exact mem
  constructor
  · rw [← new.length_eq]
    exact (nodup.subperm fun x mem => List.reduceOption_mem_iff.mpr (within x mem)).length_le
  · intro el mem
    obtain ⟨x, hx, arc, -⟩ := exists_of_mem_right new mem
    obtain ⟨p, hp, member⟩ := exists_of_mem_left out.made (within x hx)
    obtain ⟨arc', -⟩ := member x rfl
    have beg : set = p.1 := Option.some.inj (arc.beg.symm.trans arc'.beg)
    have fin : el = p.2 := Option.some.inj (arc.fin.symm.trans arc'.fin)
    rwa [beg, fin]

theorem Outcome.all_made (out : Outcome h m m' ps rs)
    (enough : ps.length ≤ rs.reduceOption.length) : none ∉ rs := by
  intro missing
  have fewer := List.reduceOption_length_lt_iff.mpr missing
  rw [out.made.length_eq] at fewer
  omega

theorem handedOn_length (bound : els.length ≤ 9) :
    (handedOn els).length = if els.length ≤ 5 then els.length else els.length - 1 := by
  rcases els with
      _ | ⟨_, _ | ⟨_, _ | ⟨_, _ | ⟨_, _ | ⟨_, _ | ⟨_, _ | ⟨_, _ | ⟨_, _ | ⟨_, _ | _⟩⟩⟩⟩⟩⟩⟩⟩⟩ <;>
    first | rfl | (simp only [List.length_cons] at bound; omega)

theorem handedOn_short (few : els.length ≤ 5) : handedOn els = els := by
  rcases els with _ | ⟨_, _ | ⟨_, _ | ⟨_, _ | ⟨_, _ | ⟨_, _ | _⟩⟩⟩⟩⟩ <;>
    first | rfl | (simp only [List.length_cons] at few; omega)

/-! ## The overloads -/

/-- When an overload includes what it is given: every arc gets past the checks, and without a
segment no more than five elements are passed, all of them the set itself. -/
def Overload.includesAll (ss : Session) (w : Waits) (fuel : Nat) (m : Memory) (set : Addr)
    (els : List Addr) : Overload → Prop
  | .withSegment seg => ∀ setType, ss.getType m set = some setType →
      passesEach ss w fuel seg set (memberType setType) els m
  | .withoutSegment => (∀ el ∈ els, el = set) ∧ els.length ≤ 5 ∧
      ∀ g, m.addrs set = some g → passesInEach ss w fuel g.seg set els m

def setAndElement : List Op := [.createEl 0 .node, .createEl 0 .node]

section Asking

variable (ss : Session) (m : Memory)

/-- A loop of `is_in`: the first of these arcs that has its end `s` at `e`. -/
def firstArc (s : Endpoint) (e : Addr) : List Addr → Option (Option Addr)
  | [] => some none
  | arc :: arcs => do
      let r ← ss.getEnd s m (some arc)
      if r = some e then some (some arc) else firstArc s e arcs

/-- `is_in`, which goes along the arcs of the set where there are fewer of them. -/
def isIn (el set : Addr) : Option (Option Addr) := do
  let e ← m.addrs el
  let g ← m.addrs set
  if g.qnt .beg < e.qnt .fin then do
    let arcs ← metaArcs ss .beg m set
    firstArc ss m .fin el arcs
  else do
    let arcs ← metaArcs ss .fin m el
    firstArc ss m .beg set arcs

def isInAnyM (el : Addr) : List Addr → Option (Option Addr)
  | [] => some none
  | set :: sets => do
      let arc ← isIn ss m el set
      if arc = none then isInAnyM el sets else some arc

def isInAllM (el : Addr) : List Addr → Option Bool
  | [] => some true
  | set :: sets => do
      let arc ← isIn ss m el set
      if arc = none then some false else isInAllM el sets

/-- An arc from the set to the element, of any type, in an opened segment. -/
def MemberArc (el set x : Addr) : Prop :=
  m.endOf x .beg = some set ∧ m.endOf x .fin = some el ∧ ss.access m (some x) = some rvOk

end Asking

variable {refs : Addr → Nat} {s : Endpoint}

theorem firstArc_eq {arcs : List Addr}
    (answers : ∀ x ∈ arcs, ∃ r, ss.getEnd s m (some x) = some r) :
    firstArc ss m s e arcs =
      some (arcs.find? fun x => decide (ss.getEnd s m (some x) = some (some e))) := by
  induction arcs with
  | nil => rfl
  | cons y arcs ih =>
    obtain ⟨r, hr⟩ := answers y List.mem_cons_self
    have rest := ih fun x hx => answers x (List.mem_cons_of_mem _ hx)
    by_cases found : r = some e
    · simp [firstArc, hr, found]
    · simp [firstArc, hr, found, rest]

/-- A walk along the arcs on the side `s` of `a` finds an arc whose other end is `e`, if there is
one. -/
theorem walk_spec (s s' : Endpoint) (inv : Inv (clientHolds refs) m) (quiet : Quiet m) {a : Addr}
    {g : GlobalAddr} (hg : m.addrs a = some g) (ok : ss.access m (some e) = some rvOk) :
    ∃ arcs r, metaArcs ss s m a = some arcs ∧ firstArc ss m s' e arcs = some r ∧
      (∀ x, r = some x → m.endOf x s = some a ∧ m.endOf x s' = some e ∧
        ss.access m (some x) = some rvOk) ∧
      (r = none → ∀ x, m.endOf x s = some a → m.endOf x s' = some e →
        ss.access m (some x) ≠ some rvOk) := by
  obtain ⟨arcs, harcs⟩ : ∃ arcs, metaArcs ss s m a = some arcs := ⟨_, metaArcs_eq quiet.whole hg ss⟩
  have mem (x : Addr) : x ∈ arcs ↔ m.endOf x s = some a ∧ Seen ss m a x := by
    rw [← mem_metaArcs quiet, harcs, Option.getD_some]
  refine ⟨arcs, _, harcs, firstArc_eq fun x hx => ?_, fun x hx => ?_,
    fun missing x hend hend' okx => ?_⟩
  · obtain ⟨r, hr, -⟩ := getEnd_stored ss s' inv (quiet.live ((mem x).mp hx).1).2.1
    exact ⟨r, hr⟩
  · have found : ss.getEnd s' m (some x) = some (some e) := by simpa using List.find?_some hx
    exact ⟨((mem x).mp (List.mem_of_find?_eq_some hx)).1, getEnd_endOf found⟩
  · obtain ⟨gx, hgx, -, opened⟩ := access_ok.mp okx
    have seen : Seen ss m a x := .inr ⟨gx.seg, by rw [segOf, hgx, Option.map_some], opened⟩
    have passed := List.find?_eq_none.mp missing x ((mem x).mpr ⟨hend, seen⟩)
    exact passed (decide_eq_true (getEnd_some inv okx hend' ok))

/-- It is all the same which of the two lists `is_in` goes along. -/
theorem isIn_spec (inv : Inv (clientHolds refs) m) (quiet : Quiet m)
    (ok : ss.access m (some el) = some rvOk) (ok' : ss.access m (some set) = some rvOk) :
    ∃ r, isIn ss m el set = some r ∧ (∀ x, r = some x → MemberArc ss m el set x) ∧
      (r = none → ∀ x, ¬MemberArc ss m el set x) := by
  obtain ⟨ge, hge, -⟩ := access_ok.mp ok
  obtain ⟨gs, hgs, -⟩ := access_ok.mp ok'
  obtain ⟨outs, r, houts, hr, right, none'⟩ := walk_spec .beg .fin inv quiet hgs ok
  obtain ⟨ins, r', hins, hr', other, none''⟩ := walk_spec .fin .beg inv quiet hge ok'
  simp only [isIn, hge, hgs, houts, hins, Option.bind_eq_bind, Option.bind_some]
  split
  · exact ⟨r, hr, right, fun missing x arc => none' missing x arc.1 arc.2.1 arc.2.2⟩
  · refine ⟨r', hr', fun x hx => ?_, fun missing x arc => none'' missing x arc.2.1 arc.1 arc.2.2⟩
    obtain ⟨fin, beg, okx⟩ := other x hx
    exact ⟨beg, fin, okx⟩

end ScCore.Sets
