import ScCore.Scs.Resolve

/-!
# Generic types

An element is a node, an arc, undefined or of no generic type yet, and only arcs have ends. Every
call of a text keeps it so.
-/

namespace ScCore.Scs

variable {R : Type} {a b T : ElType}

def generic (T : ElType) : ElType := T &&& scGenericTypeMask

theorem generic_or (a b : ElType) : generic (a ||| b) = generic a ||| generic b := by
  rw [generic, BitVec.and_comm, BitVec.and_or_distrib_left]
  rw [BitVec.and_comm, BitVec.and_comm scGenericTypeMask]
  rfl

theorem generic_bits (T : ElType) : generic T =
    (if T.getLsbD 0 then scUndf else 0) ||| (if T.getLsbD 1 then scArc else 0) |||
      (if T.getLsbD 2 then scNode else 0) := by
  apply BitVec.eq_of_getLsbD_eq
  intro i hi
  have bit (c : Bool) (x : ElType) : (if c then x else 0).getLsbD i = (c && x.getLsbD i) := by
    cases c
    · exact BitVec.getLsbD_zero
    · rfl
  rw [generic, BitVec.getLsbD_and, BitVec.getLsbD_or, BitVec.getLsbD_or, bit, bit, bit]
  by_cases low : i < 3
  · obtain rfl | rfl | rfl : i = 0 ∨ i = 1 ∨ i = 2 := by omega
    · cases T.getLsbD 0 <;> cases T.getLsbD 1 <;> cases T.getLsbD 2 <;> rfl
    · cases T.getLsbD 0 <;> cases T.getLsbD 1 <;> cases T.getLsbD 2 <;> rfl
    · cases T.getLsbD 0 <;> cases T.getLsbD 1 <;> cases T.getLsbD 2 <;> rfl
  · have high {x : ElType} (hx : x.toNat < 2 ^ 3) : x.getLsbD i = false :=
      Nat.testBit_lt_two_pow (Nat.lt_of_lt_of_le hx (Nat.pow_le_pow_right (by decide) (by omega)))
    rw [high (x := scGenericTypeMask) (by decide), high (x := scUndf) (by decide),
      high (x := scArc) (by decide), high (x := scNode) (by decide), Bool.and_false,
      Bool.and_false, Bool.and_false, Bool.and_false]
    rfl

theorem generic_cases (fit : fits T = true) :
    generic T = 0 ∨ generic T = scUndf ∨ generic T = scArc ∨ generic T = scNode := by
  have count : countBits (generic T) ≤ 1 := of_decide_eq_true (Bool.and_eq_true_iff.mp fit).2
  rw [generic_bits] at count ⊢
  generalize T.getLsbD 0 = undf at count ⊢
  generalize T.getLsbD 1 = arc at count ⊢
  generalize T.getLsbD 2 = node at count ⊢
  revert count
  revert undf arc node
  decide

theorem and_arc (T : ElType) : T &&& scArc = generic T &&& scArc := by
  rw [generic, BitVec.and_assoc]
  rfl

section

variable (fit : fits T = true)
include fit

theorem fits_or (hb : generic b = b) :
    fits (T ||| b) = decide (countBits (generic T ||| b) ≤ 1) := by
  have same {mask : ElType} (off : scGenericTypeMask &&& mask = 0) :
      (T ||| b) &&& mask = T &&& mask := by
    have none : b &&& mask = 0 := by
      rw [← hb, generic, BitVec.and_assoc, off]
      exact BitVec.and_zero
    rw [BitVec.and_comm, BitVec.and_or_distrib_left, BitVec.and_comm mask b, none, BitVec.and_comm]
    exact BitVec.or_zero
  obtain ⟨others, -⟩ := Bool.and_eq_true_iff.mp fit
  have whole : (T ||| b) &&& scGenericTypeMask = generic T ||| b := by
    conv_rhs => rw [← hb]
    exact generic_or T b
  rw [fits, same (by decide), same (by decide), whole, others, Bool.true_and]

theorem fits_arc (free : generic T = 0 ∨ generic T = scArc) :
    fits (T ||| scArc) = true ∧ generic (T ||| scArc) = scArc := by
  rw [fits_or fit rfl, generic_or]
  obtain free | free := free <;> rw [free] <;> exact ⟨by decide, by decide⟩

theorem not_fits_arc (other : generic T = scNode ∨ generic T = scUndf) :
    fits (T ||| scArc) = false := by
  rw [fits_or fit rfl]
  obtain other | other := other <;> rw [other] <;> decide

theorem fits_node (free : generic T = 0 ∨ generic T = scNode) :
    fits (T ||| scNode) = true ∧ generic (T ||| scNode) = scNode := by
  rw [fits_or fit rfl, generic_or]
  obtain free | free := free <;> rw [free] <;> exact ⟨by decide, by decide⟩

theorem not_fits_node (other : generic T = scArc ∨ generic T = scUndf) :
    fits (T ||| scNode) = false := by
  rw [fits_or fit rfl]
  obtain other | other := other <;> rw [other] <;> decide

theorem isArc_iff : T &&& scArc ≠ 0 ↔ generic T = scArc := by
  rw [and_arc]
  obtain h | h | h | h := generic_cases fit <;> rw [h] <;> decide

end

structure ScElement.Sorted (e : ScElement R) : Prop where
  fits : Scs.fits e.type = true
  ends : e.type &&& scArc = 0 → e.beg = none ∧ e.fin = none

def ScText.Sorted (t : ScText R) : Prop :=
  ∀ (x : Ref) (e : ScElement R), t.elems[x]? = some e → e.Sorted

variable {t t' : ScText R} {e : ScElement R}

theorem ScElement.Sorted.congr {e' : ScElement R} (sorted : e.Sorted) (type : e'.type = e.type)
    (beg : e'.beg = e.beg) (fin : e'.fin = e.fin) : e'.Sorted where
  fits := by
    rw [type]
    exact sorted.fits
  ends arc := by
    rw [type] at arc
    rw [beg, fin]
    exact sorted.ends arc

theorem ScElement.Sorted.withType (sorted : e.Sorted) (fit : Scs.fits (e.type ||| T) = true) :
    ({ e with type := e.type ||| T } : ScElement R).Sorted where
  fits := fit
  ends arc := sorted.ends (by_contra fun no => arc_or_left no arc)

namespace ScText.Sorted

theorem new : (ScText.new : ScText R).Sorted := nofun

theorem modify (sorted : t.Sorted) {x : Ref} {f : ScElement R → ScElement R}
    (keeps : ∀ e, t.elems[x]? = some e → (f e).Sorted) : (t.modify x f).Sorted := by
  intro y e he
  rw [getElem?_modify] at he
  split at he
  · next same =>
    subst same
    obtain ⟨e₀, he₀, rfl⟩ := Option.map_eq_some_iff.mp he
    exact keeps e₀ he₀
  · exact sorted y e he

theorem elementIsNode (sorted : t.Sorted) {ref : Option Ref}
    (node : t.elementIsNode ref = some t') : t'.Sorted := by
  cases ref with
  | none =>
    cases node
    exact sorted
  | some ref =>
    obtain ⟨r, -, rfl⟩ := elementIsNode_eq node
    refine sorted.modify fun e he => ?_
    cases merge : mergeTypes e.type scNode with
    | none => exact (sorted r e he).congr (by rw [withType, merge]; rfl) rfl rfl
    | some T =>
      obtain ⟨rfl, fit⟩ := mergeTypes_some merge
      exact ((sorted r e he).withType fit).congr (by rw [withType, merge]; rfl) rfl rfl

variable {left right : Option Ref} {ref target : Ref} {type : ElType} {id : Option Idtf}

section

variable (sorted : t.Sorted)
include sorted

theorem beginIsNode {beg : Option Ref} (node : t.beginIsNode left beg = some t') : t'.Sorted := by
  rw [ScText.beginIsNode] at node
  split at node
  · exact sorted.elementIsNode node
  · cases node
    exact sorted

theorem mergeEl {r : Ref} (merge : t.mergeEl ref type left right = some (t', r)) : t'.Sorted := by
  obtain ⟨e, T, beg, fin, -, he, types, ends, node⟩ := mergeEl_eq merge
  refine (sorted.modify fun e' he' => ?_).beginIsNode node
  rw [he] at he'
  cases he'
  obtain ⟨rfl, fit⟩ := mergeTypes_some types
  refine ⟨fit, fun arc => ?_⟩
  rw [ScElement.mergeEnds, if_neg (not_not.mpr arc)] at ends
  cases ends
  exact (sorted r e he).ends (by_contra fun no => arc_or_left no arc)

theorem addNew (fit : fits type = true) (ends : type &&& scArc = 0 → left = none ∧ right = none) :
    (t.addNew id type left right).Sorted := by
  intro x e he
  rw [Resolved.getElem?_addNew] at he
  split at he
  · cases he
    exact ⟨fit, ends⟩
  · exact sorted x e he

theorem addElFull (fit : fits type = true) (ends : type &&& scArc = 0 → left = none ∧ right = none)
    (add : t.addElFull id type left right = some (t', ref)) : t'.Sorted := by
  rw [ScText.addElFull] at add
  split at add
  · cases add
  · split at add
    · exact sorted.mergeEl add
    · obtain ⟨t₁, node, last⟩ := Option.bind_eq_some_iff.mp add
      cases last
      exact (sorted.addNew fit ends).beginIsNode node

theorem takeContent {e : ScElement R} (take : t.takeContent target e = some t') : t'.Sorted := by
  rw [ScText.takeContent] at take
  split at take
  · cases take
    exact sorted
  · obtain ⟨real, -, take⟩ := Option.bind_eq_some_iff.mp take
    split at take
    · cases take
    · cases take
      exact sorted.modify fun e he => (sorted target e he).congr rfl rfl rfl

theorem joinElements (join : t.joinElements ref target = some t') : t'.Sorted := by
  obtain ⟨e, -, join⟩ := Option.bind_eq_some_iff.mp join
  obtain ⟨⟨t₁, r⟩, merge, take⟩ := Option.bind_eq_some_iff.mp join
  have merged := sorted.mergeEl merge
  have linked : (t₁.modify ref fun e => { e with aliasRef := some target }).Sorted :=
    merged.modify fun e he => (merged ref e he).congr rfl rfl rfl
  exact linked.takeContent take

theorem addAlias {lax : Bool} {id : Idtf} (add : t.addAlias lax id ref = some t') : t'.Sorted := by
  obtain ⟨r, -, add⟩ := Option.bind_eq_some_iff.mp add
  obtain ⟨e, -, add⟩ := Option.bind_eq_some_iff.mp add
  split at add
  · next other _ =>
    rw [ScText.aliasOther] at add
    split at add
    · cases add
      exact sorted
    · split at add
      · cases add
      · obtain ⟨real, -, add⟩ := Option.bind_eq_some_iff.mp add
        split at add
        · cases add
          exact sorted
        · split at add
          · exact sorted.joinElements add
          · exact sorted.joinElements add
  · rw [ScText.aliasNew] at add
    split at add
    · cases add
    · cases add
      split
      · exact sorted.modify fun e he => (sorted r e he).congr rfl rfl rfl
      · exact sorted

theorem addCont {scan : Idtf → Option R} {text : Idtf} {contType : ContType}
    (add : t.addCont scan ref text contType = some t') : t'.Sorted := by
  obtain ⟨r, -, add⟩ := Option.bind_eq_some_iff.mp add
  obtain ⟨e, -, add⟩ := Option.bind_eq_some_iff.mp add
  have typed : (t.modify r fun e => { e with contType := contType }).Sorted :=
    sorted.modify fun e he => (sorted r e he).congr rfl rfl rfl
  cases contType with
  | absent =>
    cases add
    exact typed
  | string | data | file =>
    cases add
    exact typed.modify fun e he => (typed r e he).congr rfl rfl rfl
  | numeric =>
    obtain ⟨x, -, add⟩ := Option.bind_eq_some_iff.mp add
    cases add
    exact typed.modify fun e he => (typed r e he).congr rfl rfl rfl

end

end ScText.Sorted

def ScCall.sorted : ScCall → Bool
  | .addElFull id type left right =>
      fits type && ScCall.arcsOnly (.addElFull id type left right)
  | .addArc _ con _ _ => fits (con &&& scTypeMaskBase ||| scArc)
  | _ => true

theorem ScText.Sorted.exec {scan : Idtf → Option R} {lax : Bool} {call : ScCall} {ev : Event R}
    (sorted : t.Sorted) (run : t.exec scan lax call = some (t', ev)) (ok : call.sorted = true) :
    t'.Sorted := by
  rw [ScText.exec.eq_def] at run
  split at run
  · cases call with
    | addElFull id type left right =>
      obtain ⟨⟨t₁, ref⟩, add, last⟩ := Option.bind_eq_some_iff.mp run
      cases last
      obtain ⟨fit, arcs⟩ := Bool.and_eq_true_iff.mp ok
      refine sorted.addElFull fit (fun arc => ?_) add
      obtain no | yes := Bool.or_eq_true_iff.mp arcs
      · obtain ⟨left, right⟩ := Bool.and_eq_true_iff.mp no
        exact ⟨Option.isNone_iff_eq_none.mp left, Option.isNone_iff_eq_none.mp right⟩
      · exact absurd arc (of_decide_eq_true yes)
    | addArc left con right id =>
      obtain ⟨⟨t₁, ref⟩, add, last⟩ := Option.bind_eq_some_iff.mp run
      cases last
      exact sorted.addElFull ok (fun arc => absurd arc (arc_or_right (by decide))) add
    | addAlias id ref =>
      obtain ⟨t₁, add, last⟩ := Option.bind_eq_some_iff.mp run
      cases last
      exact sorted.addAlias add
    | addCont ref text contType =>
      obtain ⟨t₁, add, last⟩ := Option.bind_eq_some_iff.mp run
      cases last
      exact sorted.addCont add
  · cases run

end ScCore.Scs
