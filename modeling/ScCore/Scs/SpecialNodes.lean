import ScCore.Scs.GenericTypes

/-!
# Special nodes

The first nine elements of a text are the nodes `@node`, `@arc` and the others. An arc from one
of them gives its end a type, and is not written.
-/

namespace ScCore.Scs

variable {R : Type}

/-- `types` of `handle_special_nodes`: the type that a special node gives, and the mask of the
types that are compared with it. -/
def specialTypes : List (ElType × ElType) :=
  [(scNode, scGenericTypeMask), (scArc, scGenericTypeMask), (scUndf, scGenericTypeMask),
    (scConst, scConstancyMask), (scVar, scConstancyMask), (scMetavar, scConstancyMask),
    (scPos, scFuzzynessMask), (scNeg, scFuzzynessMask), (scFuz, scFuzzynessMask)]

/-- The calls of `init_special_nodes`. -/
def initSpecialNodes : List ScCall :=
  ["@node", "@arc", "@undf", "@const", "@var", "@metavar", "@pos", "@neg", "@fuz"].map fun id =>
    .addElFull (some id.toUTF8.toList) (scNode ||| scConst) none none

/-- A text, and which of its elements are `hidden`. -/
structure Marked (R : Type) where
  text : ScText R
  hidden : Ref → Bool

namespace Marked

variable (m : Marked R)

/-- What `handle_special_nodes` does for the arc `i`. An arc of a special node that has no end
causes a warning. -/
def handleArc (i : Ref) : Option (Marked R) :=
  match m.text.elems[i]? with
  | none => some m
  | some a =>
      if a.aliasRef.isSome || a.type &&& scArc = 0 then some m
      else match a.beg.bind (specialTypes[·]?), a.fin with
        | some (type, mask), some ref => do
            let e ← m.text.elems[ref]?
            if e.type &&& mask ≠ 0 ∧ e.type &&& mask ≠ type then none
            else some {
              text := m.text.modify ref fun e => { e with type := e.type ||| type }
              hidden := Function.update m.hidden i true }
        | _, _ => some m

/-- One turn of `propagate_hidden`: an arc is hidden with its begin or its end. -/
def hideArc (i : Ref) : Marked R :=
  match m.text.elems[i]? with
  | none => m
  | some a =>
      if m.hidden i || a.type &&& scArc = 0 then m
      else if a.beg.any m.hidden || a.fin.any m.hidden then
        { m with hidden := Function.update m.hidden i true }
      else m

/-- `propagate_hidden`: each round but the last hides one element more. -/
def propagateHidden : Nat → Marked R → Marked R
  | 0, m => m
  | n + 1, m => propagateHidden n ((List.range m.text.elems.length).foldl hideArc m)

end Marked

def ScText.handleSpecialNodes (t : ScText R) : Option (Marked R) := do
  let m ← (List.range t.elems.length).foldlM Marked.handleArc
    ⟨t, fun ref => ScText.isSpecialElement ref⟩
  some (m.propagateHidden t.elems.length)

theorem specialTypes_masks : ∀ p ∈ specialTypes, p.1 &&& p.2 = p.1 ∧ countBits p.1 = 1 ∧
    (p.2 = scConstancyMask ∧ p.1 &&& scFuzzynessMask = 0 ∧ p.1 &&& scGenericTypeMask = 0 ∨
      p.2 = scFuzzynessMask ∧ p.1 &&& scConstancyMask = 0 ∧ p.1 &&& scGenericTypeMask = 0 ∨
      p.2 = scGenericTypeMask ∧ p.1 &&& scConstancyMask = 0 ∧ p.1 &&& scFuzzynessMask = 0) := by
  intro p mem
  simp only [specialTypes, List.mem_cons, List.not_mem_nil, or_false] at mem
  obtain rfl | rfl | rfl | rfl | rfl | rfl | rfl | rfl | rfl := mem <;> decide

theorem or_and (a b m : ElType) : (a ||| b) &&& m = a &&& m ||| b &&& m := by
  rw [BitVec.and_comm, BitVec.and_or_distrib_left, BitVec.and_comm m a, BitVec.and_comm m b]

theorem or_and_same (a m : ElType) : a ||| a &&& m = a := by
  apply BitVec.eq_of_getLsbD_eq
  intro i hi
  rw [BitVec.getLsbD_or, BitVec.getLsbD_and]
  cases a.getLsbD i <;> rfl

theorem fits_special {T type mask : ElType} (special : (type, mask) ∈ specialTypes)
    (fit : fits T = true) (free : T &&& mask = 0) : fits (T ||| type) = true := by
  obtain ⟨own, one, others⟩ := specialTypes_masks _ special
  have here : (T ||| type) &&& mask = type := by
    rw [or_and, free, own]
    exact BitVec.zero_or
  have there {m : ElType} (off : type &&& m = 0) : (T ||| type) &&& m = T &&& m := by
    rw [or_and, off]
    exact BitVec.or_zero
  simp only [fits, Bool.and_eq_true, decide_eq_true_eq] at fit ⊢
  obtain ⟨⟨constancy, fuzzyness⟩, kind⟩ := fit
  obtain ⟨rfl, off, off'⟩ | ⟨rfl, off, off'⟩ | ⟨rfl, off, off'⟩ := others
  · rw [here, there off, there off', one]
    exact ⟨⟨Nat.le_refl 1, fuzzyness⟩, kind⟩
  · rw [here, there off, there off', one]
    exact ⟨⟨constancy, Nat.le_refl 1⟩, kind⟩
  · rw [here, there off, there off', one]
    exact ⟨⟨constancy, fuzzyness⟩, Nat.le_refl 1⟩

variable {m m' : Marked R} {t : ScText R}

theorem Marked.handleArc_some {i : Ref} (step : m.handleArc i = some m') : m' = m ∨
    ∃ a s type mask ref e, m.text.elems[i]? = some a ∧ a.aliasRef = none ∧
      a.type &&& scArc ≠ 0 ∧ a.beg = some s ∧ specialTypes[s]? = some (type, mask) ∧
      a.fin = some ref ∧ m.text.elems[ref]? = some e ∧
      (e.type &&& mask = 0 ∨ e.type &&& mask = type) ∧
      m' = ⟨m.text.modify ref fun e => { e with type := e.type ||| type },
        Function.update m.hidden i true⟩ := by
  rw [handleArc] at step
  split at step
  · exact .inl (Option.some.inj step).symm
  · next a ha =>
    split at step
    · exact .inl (Option.some.inj step).symm
    · next real =>
      split at step
      · next type mask ref special hfin =>
        obtain ⟨e, he, step⟩ := Option.bind_eq_some_iff.mp step
        obtain ⟨s, hbeg, hs⟩ := Option.bind_eq_some_iff.mp special
        split at step
        · cases step
        · next fits =>
          cases step
          rw [Bool.or_eq_true, not_or, Bool.not_eq_true, Option.isSome_eq_false_iff,
            Option.isNone_iff_eq_none, decide_eq_true_iff] at real
          exact .inr ⟨a, s, type, mask, ref, e, ha, real.1, real.2, hbeg, hs, hfin, he,
            by tauto, rfl⟩
      · exact .inl (Option.some.inj step).symm

theorem Marked.handleArc_sorted {i : Ref} (sorted : m.text.Sorted)
    (step : m.handleArc i = some m') : m'.text.Sorted := by
  obtain rfl | ⟨a, s, type, mask, ref, e, -, -, -, -, special, -, he, free, rfl⟩ :=
    handleArc_some step
  · exact sorted
  · refine sorted.modify fun e' he' => ?_
    rw [he] at he'
    cases he'
    have mem := List.mem_of_getElem? special
    refine (sorted ref e he).withType ?_
    obtain free | there := free
    · exact fits_special mem (sorted ref e he).fits free
    · rw [← there, or_and_same]
      exact (sorted ref e he).fits

theorem Marked.length_handleArc {i : Ref} (step : m.handleArc i = some m') :
    m'.text.elems.length = m.text.elems.length := by
  obtain rfl | ⟨_, _, _, _, _, _, -, -, -, -, -, -, -, -, rfl⟩ := handleArc_some step
  · rfl
  · exact ScText.length_modify _ _

theorem Marked.foldlM_handleArc {P : Marked R → Prop}
    (keeps : ∀ m m' i, P m → m.handleArc i = some m' → P m') (l : List Ref) (hm : P m)
    (fold : l.foldlM handleArc m = some m') : P m' := by
  induction l generalizing m with
  | nil =>
    cases fold
    exact hm
  | cons i l ih =>
    rw [List.foldlM_cons] at fold
    obtain ⟨m₁, step, fold⟩ := Option.bind_eq_some_iff.mp fold
    exact ih (keeps m m₁ i hm step) fold

theorem Marked.hideArc_text (m : Marked R) (i : Ref) : (m.hideArc i).text = m.text := by
  rw [hideArc]
  split
  · rfl
  · split
    · rfl
    · split <;> rfl

theorem Marked.propagateHidden_text (n : Nat) (m : Marked R) :
    (m.propagateHidden n).text = m.text := by
  induction n generalizing m with
  | zero => rfl
  | succ n ih =>
    rw [propagateHidden, ih]
    induction List.range m.text.elems.length generalizing m with
    | nil => rfl
    | cons i l ih => rw [List.foldl_cons, ih, hideArc_text]

theorem ScText.Sorted.handleSpecialNodes (sorted : t.Sorted)
    (special : t.handleSpecialNodes = some m) :
    m.text.Sorted ∧ m.text.elems.length = t.elems.length := by
  obtain ⟨m₁, fold, last⟩ := Option.bind_eq_some_iff.mp special
  cases last
  rw [Marked.propagateHidden_text]
  refine Marked.foldlM_handleArc
    (P := fun m => m.text.Sorted ∧ m.text.elems.length = t.elems.length) ?_ _ ⟨sorted, rfl⟩ fold
  rintro m m' i ⟨sorted, length⟩ step
  exact ⟨Marked.handleArc_sorted sorted step, (Marked.length_handleArc step).trans length⟩

end ScCore.Scs
