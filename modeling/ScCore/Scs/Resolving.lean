import ScCore.Scs.Nonarcs

/-!
# Pairs that are resolved

A round over the pairs of a text only adds types and ends. A pair that is settled stays so, and of
an error it stays true that some pair is not. It is so as long as the sides of the pairs, and the
ends of these, are real elements, and an arc of a pair begins at a node if at the left side.
-/

namespace ScCore.Scs

variable {R : Type} {a b T : ElType}

/-! ## Growing texts -/

theorem generic_grows {g : ElType} (fit : fits (a ||| b) = true) (ha : generic a = g) (hg : g ≠ 0) :
    generic (a ||| b) = g := by
  have cases := generic_cases fit
  rw [generic_or] at cases ⊢
  have both := generic_cases (fits_of_or fit)
  subst ha
  rw [generic_bits b] at cases ⊢
  generalize b.getLsbD 0 = undf at cases ⊢
  generalize b.getLsbD 1 = arc at cases ⊢
  generalize b.getLsbD 2 = node at cases ⊢
  obtain h | h | h | h := both
  · exact absurd h hg
  all_goals
    rw [h] at cases ⊢
    revert cases
    revert undf arc node
    decide

structure Grows (t t' : ScText R) : Prop where
  links : t'.aliasOf = t.aliasOf
  keeps : ∀ (x : Ref) (e : ScElement R), t.elems[x]? = some e →
    ∃ e' : ScElement R, t'.elems[x]? = some e' ∧
    (∃ T, e'.type = e.type ||| T) ∧ (∀ b, e.beg = some b → e'.beg = some b) ∧
      ∀ b, e.fin = some b → e'.fin = some b

namespace Grows

variable {t t' t'' : ScText R}

theorem refl (t : ScText R) : Grows t t where
  links := rfl
  keeps x e he := by
    refine ⟨e, he, ⟨0, ?_⟩, fun _ h => h, fun _ h => h⟩
    exact BitVec.or_zero.symm

theorem trans (g : Grows t t') (g' : Grows t' t'') : Grows t t'' where
  links := g'.links.trans g.links
  keeps x e he := by
    obtain ⟨e', he', ⟨T, type⟩, beg, fin⟩ := g.keeps x e he
    obtain ⟨e'', he'', ⟨T', type'⟩, beg', fin'⟩ := g'.keeps x e' he'
    refine ⟨e'', he'', ⟨T ||| T', ?_⟩, fun b h => beg' b (beg b h), fun b h => fin' b (fin b h)⟩
    rw [type', type, BitVec.or_assoc]

theorem modify {x : Ref} {f : ScElement R → ScElement R} {e : ScElement R}
    (he : t.elems[x]? = some e) (link : ∀ e, (f e).aliasRef = e.aliasRef)
    (type : (f e).type = e.type ||| T) (beg : ∀ b, e.beg = some b → (f e).beg = some b)
    (fin : ∀ b, e.fin = some b → (f e).fin = some b) : Grows t (t.modify x f) where
  links := ScText.aliasOf_modify link x
  keeps y e₁ he₁ := by
    rw [ScText.getElem?_modify]
    by_cases same : x = y
    · subst same
      rw [he] at he₁
      cases he₁
      rw [if_pos rfl, he]
      exact ⟨f e, rfl, ⟨T, type⟩, beg, fin⟩
    · rw [if_neg same]
      refine ⟨e₁, he₁, ⟨0, ?_⟩, fun _ h => h, fun _ h => h⟩
      exact BitVec.or_zero.symm

theorem generic_eq (g : Grows t t') (sorted : t'.Sorted) {x : Ref} {e e' : ScElement R}
    (he : t.elems[x]? = some e) (he' : t'.elems[x]? = some e') (known : generic e.type ≠ 0) :
    generic e'.type = generic e.type := by
  obtain ⟨e₁, he₁, ⟨T, type⟩, -, -⟩ := g.keeps x e he
  rw [he'] at he₁
  cases he₁
  have fit := (sorted x e' he').fits
  rw [type] at fit ⊢
  exact generic_grows fit rfl known

end Grows

/-! ## Pairs -/

def EndsAt (t : ScText R) (l r : Ref) : Prop :=
  ∃ e : ScElement R, t.elems[l]? = some e ∧ generic e.type = scArc ∧ e.fin = some r

def BeginsAt (t : ScText R) (l r : Ref) : Prop :=
  ∃ f : ScElement R, t.elems[r]? = some f ∧ generic f.type = scArc ∧ f.beg = some l

def Settled (t : ScText R) (pair : Ref × Ref) : Prop :=
  EndsAt t pair.1 pair.2 ∨ BeginsAt t pair.1 pair.2

variable {t t' : ScText R} {pairs : List (Ref × Ref)} {l r : Ref} {e f : ScElement R}

variable {pair : Ref × Ref}

theorem Settled.grows (settled : Settled t pair) (g : Grows t t') (sorted : t'.Sorted) :
    Settled t' pair := by
  have arc : scArc ≠ 0 := by decide
  obtain ⟨e, he, type, fin⟩ | ⟨f, hf, type, beg⟩ := settled
  · obtain ⟨e', he', -, -, fin'⟩ := g.keeps _ e he
    refine .inl ⟨e', he', ?_, fin' _ fin⟩
    rw [g.generic_eq sorted he he' (type ▸ arc), type]
  · obtain ⟨f', hf', -, beg', -⟩ := g.keeps _ f hf
    refine .inr ⟨f', hf', ?_, beg' _ beg⟩
    rw [g.generic_eq sorted hf hf' (type ▸ arc), type]

/-- The sides of the pairs are real elements, the ends of these as well, and an arc of a pair
begins at a node if at the left side. -/
structure Straight (t : ScText R) (pairs : List (Ref × Ref)) : Prop where
  real : ∀ pair ∈ pairs, t.aliasOf pair.1 = none ∧ t.aliasOf pair.2 = none
  ends : ∀ pair ∈ pairs, ∀ (x : Ref) (e : ScElement R) (b : Ref), x = pair.1 ∨ x = pair.2 →
    t.elems[x]? = some e → e.beg = some b ∨ e.fin = some b → t.aliasOf b = none
  nodes : ∀ pair ∈ pairs, ∀ e f : ScElement R, t.elems[pair.1]? = some e →
    t.elems[pair.2]? = some f → f.beg = some pair.1 → generic e.type = scNode

structure Going (pairs : List (Ref × Ref)) (t : ScText R) : Prop where
  sorted : t.Sorted
  inside : ∀ pair ∈ pairs, (∃ e, t.elems[pair.1]? = some e) ∧ ∃ f, t.elems[pair.2]? = some f
  straight : Straight t pairs

namespace Going

theorem node_of_begins (going : Going pairs t) (mem : (l, r) ∈ pairs)
    (begins : BeginsAt t l r) (he : t.elems[l]? = some e) : generic e.type = scNode := by
  obtain ⟨f, hf, -, beg⟩ := begins
  exact going.straight.nodes (l, r) mem e f he hf beg

theorem modify (going : Going pairs t) {x : Ref} {g : ScElement R → ScElement R}
    (he : t.elems[x]? = some e) (sorted : (g e).Sorted)
    (ends : ∀ b, (g e).beg = some b ∨ (g e).fin = some b →
      e.beg = some b ∨ e.fin = some b ∨ t.aliasOf b = none)
    (grows : Grows t (t.modify x g))
    (begins : ∀ l, (l, x) ∈ pairs → (g e).beg = some l → e.beg = some l ∨
      ∃ e : ScElement R, t.elems[l]? = some e ∧ generic e.type = scNode) :
    Going pairs (t.modify x g) := by
  have elems (y : Ref) : (t.modify x g).elems[y]? =
      if x = y then some (g e) else t.elems[y]? := by
    rw [ScText.getElem?_modify]
    by_cases same : x = y
    · subst same
      rw [if_pos rfl, if_pos rfl, he, Option.map_some]
    · rw [if_neg same, if_neg same]
  have sorted' : (t.modify x g).Sorted := going.sorted.modify fun e' he' => by
    rw [he] at he'
    cases he'
    exact sorted
  constructor
  · exact sorted'
  · intro pair mem
    obtain ⟨⟨e₁, h₁⟩, e₂, h₂⟩ := going.inside pair mem
    obtain ⟨e₁', h₁', -⟩ := grows.keeps _ e₁ h₁
    obtain ⟨e₂', h₂', -⟩ := grows.keeps _ e₂ h₂
    exact ⟨⟨e₁', h₁'⟩, e₂', h₂'⟩
  · constructor
    · rw [grows.links]
      exact going.straight.real
    · intro pair mem y e' b side he' hb
      rw [grows.links]
      rw [elems] at he'
      split at he'
      · next same =>
        subst same
        cases he'
        obtain hb | hb | hb := ends b hb
        · exact going.straight.ends pair mem x e b side he (.inl hb)
        · exact going.straight.ends pair mem x e b side he (.inr hb)
        · exact hb
      · exact going.straight.ends pair mem y e' b side he' hb
    · rintro ⟨l, r⟩ mem e' f' he' hf' hbeg
      have node : scNode ≠ 0 := by decide
      obtain ⟨⟨e₁, h₁⟩, -⟩ := going.inside (l, r) mem
      have stays (h : generic e₁.type = scNode) : generic e'.type = scNode := by
        rw [grows.generic_eq sorted' h₁ he' (h ▸ node), h]
      rw [elems] at hf'
      split at hf'
      · next same =>
        subst same
        cases hf'
        obtain old | ⟨e₂, h₂, kind⟩ := begins l mem hbeg
        · exact stays (going.straight.nodes (l, x) mem e₁ e h₁ he old)
        · rw [h₁] at h₂
          cases h₂
          exact stays kind
      · exact stays (going.straight.nodes (l, r) mem e₁ f' h₁ hf' hbeg)

theorem setNode (going : Going pairs t) (he : t.elems[l]? = some e)
    (free : generic e.type = 0 ∨ generic e.type = scNode) :
    Going pairs (t.modify l ScText.withType) ∧ Grows t (t.modify l ScText.withType) ∧
      (ScText.withType e).beg = e.beg ∧ generic (ScText.withType e).type = scNode := by
  have sorted := going.sorted l e he
  obtain ⟨fit, kind⟩ := fits_node sorted.fits free
  have type : (ScText.withType e).type = e.type ||| scNode := by
    rw [ScText.withType, mergeTypes, if_pos fit]
    rfl
  have grows : Grows t (t.modify l ScText.withType) :=
    .modify he (fun _ => rfl) type (fun _ h => h) fun _ h => h
  refine ⟨going.modify he ?_ (fun b h => h.elim .inl fun h => .inr (.inl h)) grows
    fun _ _ h => .inl h, grows, rfl, type ▸ kind⟩
  exact (sorted.withType fit).congr type rfl rfl

theorem setEnd (going : Going pairs t) (mem : (l, r) ∈ pairs) (he : t.elems[l]? = some e)
    (fit : fits (e.type ||| T) = true) (arc : generic (e.type ||| T) = scArc)
    (free : e.fin = none ∨ e.fin = some r) :
    let t' := t.modify l fun e => { e with type := e.type ||| T, fin := some r }
    Going pairs t' ∧ Grows t t' ∧ EndsAt t' l r := by
  have grows : Grows t (t.modify l fun e => { e with type := e.type ||| T, fin := some r }) := by
    refine .modify he (fun _ => rfl) rfl (fun _ h => h) fun b h => ?_
    obtain free | free := free
    · rw [free] at h
      cases h
    · rw [← h, free]
  refine ⟨going.modify he ⟨fit, fun no => ?_⟩ ?_ grows fun _ _ h => .inl h, grows, ?_⟩
  · exact absurd no ((isArc_iff fit).mpr arc)
  · rintro b (h | h)
    · exact .inl h
    · cases h
      exact .inr (.inr (going.straight.real (l, r) mem).2)
  · refine ⟨{ e with type := e.type ||| T, fin := some r }, ?_, arc, rfl⟩
    rw [ScText.getElem?_modify, if_pos rfl, he]
    rfl

theorem setBegin (going : Going pairs t) (mem : (l, r) ∈ pairs) (he : t.elems[l]? = some e)
    (node : generic e.type = scNode) (hf : t.elems[r]? = some f)
    (fit : fits (f.type ||| scArc) = true) (arc : generic (f.type ||| scArc) = scArc)
    (free : f.beg = none ∨ f.beg = some l) :
    let t' := t.modify r fun f => { f with type := f.type ||| scArc, beg := some l }
    Going pairs t' ∧ Grows t t' ∧ BeginsAt t' l r := by
  have grows : Grows t
      (t.modify r fun f => { f with type := f.type ||| scArc, beg := some l }) := by
    refine .modify hf (fun _ => rfl) rfl (fun b h => ?_) fun _ h => h
    obtain free | free := free
    · rw [free] at h
      cases h
    · rw [← h, free]
  refine ⟨going.modify hf ⟨fit, fun no => ?_⟩ ?_ grows ?_, grows, ?_⟩
  · exact absurd no ((isArc_iff fit).mpr arc)
  · rintro b (h | h)
    · cases h
      exact .inr (.inr (going.straight.real (l, r) mem).1)
    · exact .inr (.inl h)
  · intro l' mem' h
    cases h
    exact .inr ⟨e, he, node⟩
  · refine ⟨{ f with type := f.type ||| scArc, beg := some l }, ?_, arc, rfl⟩
    rw [ScText.getElem?_modify, if_pos rfl, hf]
    rfl

end Going

/-! ## Joining real elements -/

namespace ScText

variable {x y : Ref} {F G : ScElement R → ScElement R}

theorem modify_congr (same : ∀ e, t.elems[x]? = some e → F e = G e) :
    t.modify x F = t.modify x G := by
  have elems : t.elems.modify x F = t.elems.modify x G := by
    apply List.ext_getElem?
    intro y
    have left := getElem?_modify (t := t) x y F
    have right := getElem?_modify (t := t) x y G
    rw [modify] at left right
    rw [left, right]
    by_cases hx : x = y
    · subst hx
      rw [if_pos rfl, if_pos rfl]
      cases he : t.elems[x]? with
      | none => rfl
      | some e => rw [Option.map_some, Option.map_some, same e he]
    · rw [if_neg hx, if_neg hx]
  rw [modify, modify, elems]

theorem modify_comm (other : x ≠ y) :
    (t.modify x F).modify y G = (t.modify y G).modify x F := by
  have elems : ((t.modify x F).modify y G).elems = ((t.modify y G).modify x F).elems := by
    apply List.ext_getElem?
    intro z
    rw [getElem?_modify, getElem?_modify, getElem?_modify, getElem?_modify]
    by_cases hx : x = z
    · have hy : y ≠ z := fun hy => other (hx.trans hy.symm)
      rw [if_pos hx, if_neg hy, if_neg hy, if_pos hx]
    · rw [if_neg hx, if_neg hx]
  exact congrArg (fun elems => ({ t with elems := elems } : ScText R)) elems

variable {type : ElType}

section

variable (root : t.aliasOf l = none) (he : t.elems[l]? = some e)
include root he

theorem forceNode_real :
    t.forceNode l = match mergeTypes e.type scNode with
      | none => some (t, false)
      | some T => some (t.modify l fun e => { e with type := T }, true) := by
  have steps : t.forceNode l = (t.getRealElement l).bind fun r => t.elems[r]?.bind fun e =>
      match mergeTypes e.type scNode with
        | none => some (t, false)
        | some T => some (t.modify r fun e => { e with type := T }, true) := rfl
  rw [steps, getRealElement_self root, Option.bind_some, he, Option.bind_some]

theorem elementIsNode_real : t.elementIsNode (some l) = some (t.modify l withType) := by
  have total : ∃ t', t.elementIsNode (some l) = some t' := by
    rw [elementIsNode, getRealElement_self root]
    simp only [bind, Option.bind_some, he]
    cases mergeTypes e.type scNode <;> exact ⟨_, rfl⟩
  obtain ⟨t', node⟩ := total
  obtain ⟨r, real, rfl⟩ := elementIsNode_eq node
  rw [getRealElement_self root] at real
  cases real
  exact node

theorem tryMergeEl_end (fit : fits (e.type ||| type) = true) (arc : (e.type ||| type) &&& scArc ≠ 0)
    (free : e.fin = none ∨ e.fin = some r) :
    t.tryMergeEl l type none (some r) =
      some (t.modify l fun e => { e with type := e.type ||| type, fin := some r }, true) := by
  have merged : mergeEnd e.fin (some r) = some (some r) := by
    obtain free | free := free
    · rw [free]
      rfl
    · rw [free, mergeEnd, if_pos rfl]
  have kept : mergeEnd e.beg none = some e.beg := by
    cases e.beg <;> rfl
  rw [tryMergeEl, getRealElement_self root]
  simp only [bind, Option.bind_some, he, mergeTypes, if_pos fit, if_pos arc, kept, merged]
  rw [Resolved.modify_modify, Resolved.modify_modify]
  refine congrArg (fun t => some (t, true)) (modify_congr fun e' he' => ?_)
  rw [he] at he'
  cases he'
  rfl

end

theorem tryMergeEl_begin (root : t.aliasOf r = none) (hf : t.elems[r]? = some f)
    (root' : t.aliasOf l = none) (he : t.elems[l]? = some e) (other : l ≠ r)
    (fit : fits (f.type ||| scArc) = true) (free : f.beg = none ∨ f.beg = some l) :
    t.tryMergeEl r scArc (some l) none =
      some ((t.modify l withType).modify r fun f =>
        { f with type := f.type ||| scArc, beg := some l }, true) := by
  have merged : mergeEnd f.beg (some l) = some (some l) := by
    obtain free | free := free
    · rw [free]
      rfl
    · rw [free, mergeEnd, if_pos rfl]
  have kept : mergeEnd f.fin none = some f.fin := by
    cases f.fin <;> rfl
  have arc : (f.type ||| scArc) &&& scArc ≠ 0 := arc_or_right (by decide)
  rw [tryMergeEl, getRealElement_self root]
  simp only [bind, Option.bind_some, hf, mergeTypes, if_pos fit, if_pos arc, kept, merged]
  rw [Resolved.modify_modify, Resolved.modify_modify, beginIsNode, Option.isSome_some, if_pos rfl,
    elementIsNode_real (e := e)]
  · rw [Option.bind_some, modify_comm other.symm]
    refine congrArg (fun t => some (t, true)) (modify_congr fun f' hf' => ?_)
    rw [getElem?_modify, if_neg other, hf] at hf'
    cases hf'
    rfl
  · rw [aliasOf_modify]
    · exact root'
    · exact fun _ => rfl
  · rw [getElem?_modify, if_neg other.symm, he]

theorem tryMergeEl_unfit {left right : Option Ref} (root : t.aliasOf x = none)
    (he : t.elems[x]? = some e) (fit : fits (e.type ||| type) = false) :
    t.tryMergeEl x type left right = some (t, false) := by
  rw [tryMergeEl, getRealElement_self root]
  simp only [bind, Option.bind_some, he, mergeTypes, fit, Bool.false_eq_true, if_false]

theorem tryMergeEl_ended {b : Ref} (root : t.aliasOf l = none) (he : t.elems[l]? = some e)
    (fit : fits e.type = true) (arc : e.type &&& scArc ≠ 0) (fin : e.fin = some b) (other : b ≠ r) :
    t.tryMergeEl l 0 none (some r) = some (t, false) := by
  have same : e.type ||| 0 = e.type := BitVec.or_zero
  have kept : mergeEnd e.beg none = some e.beg := by
    cases e.beg <;> rfl
  have refused : mergeEnd e.fin (some r) = none := by
    rw [fin, mergeEnd, if_neg other]
  rw [tryMergeEl, getRealElement_self root]
  simp only [bind, Option.bind_some, he, mergeTypes, same, if_pos fit, if_pos arc, kept, refused]
  rw [Resolved.modify_modify, modify_self]
  intro e' he'
  rw [he] at he'
  cases he'
  rfl

theorem tryMergeEl_begun {b : Ref} (root : t.aliasOf r = none) (hf : t.elems[r]? = some f)
    (fit : fits f.type = true) (arc : generic f.type = scArc) (beg : f.beg = some b)
    (other : b ≠ l) : t.tryMergeEl r scArc (some l) none = some (t, false) := by
  have same : f.type ||| scArc = f.type := by
    rw [← arc]
    exact or_and_same f.type scGenericTypeMask
  have refused : mergeEnd f.beg (some l) = none := by
    rw [beg, mergeEnd, if_neg other]
  rw [tryMergeEl, getRealElement_self root]
  simp only [bind, Option.bind_some, hf, mergeTypes, same, if_pos fit,
    if_pos ((isArc_iff fit).mpr arc), refused]
  rw [modify_self]
  intro f' hf'
  rw [hf] at hf'
  cases hf'
  rfl

end ScText

/-! ## Turns -/

def Fails (pairs : List (Ref × Ref)) (t : ScText R) : Prop :=
  ∀ t', Grows t t' → Going pairs t' → ∃ pair ∈ pairs, ¬Settled t' pair

theorem Fails.grows (fails : Fails pairs t) (g : Grows t t') : Fails pairs t' :=
  fun t'' g' => fails t'' (g.trans g')

def Waits (t : ScText R) (pair : Ref × Ref) : Prop :=
  ∃ e f : ScElement R, t.elems[pair.1]? = some e ∧ t.elems[pair.2]? = some f ∧
    generic e.type = 0 ∧ f.beg = none

def Turned (pairs : List (Ref × Ref)) (pair : Ref × Ref) (t t' : ScText R) : Turn → Prop
  | .waits => t' = t ∧ Waits t pair
  | .drops => t' = t ∧ Fails pairs t
  | .settles ok => if ok then Settled t' pair else Fails pairs t'

namespace Going

theorem fails_undf (mem : (l, r) ∈ pairs) (he : t.elems[l]? = some e)
    (undf : generic e.type = scUndf) : Fails pairs t := by
  intro t' g going'
  obtain ⟨e', he', -⟩ := g.keeps l e he
  have kind : generic e'.type = scUndf := by
    rw [g.generic_eq going'.sorted he he' (by rw [undf]; decide), undf]
  refine ⟨(l, r), mem, ?_⟩
  rintro (⟨e₁, h₁, arc, -⟩ | begins)
  · rw [he'] at h₁
    cases h₁
    rw [kind] at arc
    exact absurd arc (by decide)
  · have node := going'.node_of_begins mem begins he'
    rw [kind] at node
    exact absurd node (by decide)

theorem ends_of_arc (mem : (l, r) ∈ pairs) (going : Going pairs t) (he : t.elems[l]? = some e)
    (arc : generic e.type = scArc) (settled : Settled t (l, r)) : e.fin = some r := by
  obtain ⟨e₁, h₁, -, fin⟩ | begins := settled
  · rw [he] at h₁
    cases h₁
    exact fin
  · have node := going.node_of_begins mem begins he
    rw [arc] at node
    exact absurd node (by decide)

theorem fails_many {r' : Ref} (mem : (l, r) ∈ pairs) (mem' : (l, r') ∈ pairs) (other : r' ≠ r)
    (he : t.elems[l]? = some e) (arc : generic e.type = scArc) : Fails pairs t := by
  intro t' g going'
  obtain ⟨e', he', -⟩ := g.keeps l e he
  have kind : generic e'.type = scArc := by
    rw [g.generic_eq going'.sorted he he' (by rw [arc]; decide), arc]
  by_cases first : Settled t' (l, r)
  · refine ⟨(l, r'), mem', fun second => other ?_⟩
    have fin := going'.ends_of_arc mem he' kind first
    rw [going'.ends_of_arc mem' he' kind second] at fin
    exact Option.some.inj fin
  · exact ⟨(l, r), mem, first⟩

theorem fails_ended {b : Ref} (mem : (l, r) ∈ pairs) (he : t.elems[l]? = some e)
    (arc : generic e.type = scArc) (fin : e.fin = some b) (other : b ≠ r) : Fails pairs t := by
  intro t' g going'
  obtain ⟨e', he', -, -, fin'⟩ := g.keeps l e he
  have kind : generic e'.type = scArc := by
    rw [g.generic_eq going'.sorted he he' (by rw [arc]; decide), arc]
  refine ⟨(l, r), mem, fun settled => other ?_⟩
  have ends := going'.ends_of_arc mem he' kind settled
  rw [fin' b fin] at ends
  exact Option.some.inj ends

section

variable (mem : (l, r) ∈ pairs) (he : t.elems[l]? = some e) (node : generic e.type = scNode)
include mem he node

theorem fails_node (never : ∀ t', Grows t t' → Going pairs t' → ¬BeginsAt t' l r) :
    Fails pairs t := by
  intro t' g going'
  obtain ⟨e', he', -⟩ := g.keeps l e he
  refine ⟨(l, r), mem, ?_⟩
  rintro (⟨e₁, h₁, arc, -⟩ | begins)
  · rw [he'] at h₁
    cases h₁
    rw [g.generic_eq going'.sorted he he' (by rw [node]; decide), node] at arc
    exact absurd arc (by decide)
  · exact never t' g going' begins

theorem fails_node_other (hf : t.elems[r]? = some f)
    (other : generic f.type = scNode ∨ generic f.type = scUndf) : Fails pairs t := by
  refine fails_node mem he node fun t' g going' begins => ?_
  obtain ⟨f', hf', arc, -⟩ := begins
  have known : generic f.type ≠ 0 := by
    obtain other | other := other <;> rw [other] <;> decide
  rw [g.generic_eq going'.sorted hf hf' known] at arc
  obtain other | other := other <;> rw [other] at arc <;> exact absurd arc (by decide)

theorem fails_node_begun {b : Ref} (hf : t.elems[r]? = some f) (beg : f.beg = some b)
    (other : b ≠ l) : Fails pairs t := by
  refine fails_node mem he node fun t' g going' begins => ?_
  obtain ⟨f', hf', -, beg'⟩ := begins
  obtain ⟨f₁, h₁, -, kept, -⟩ := g.keeps r f hf
  rw [hf'] at h₁
  cases h₁
  rw [kept b beg] at beg'
  exact other (Option.some.inj beg')

end

section

variable (going : Going pairs t) (mem : (l, r) ∈ pairs) (he : t.elems[l]? = some e)
include going mem he

theorem turn_arc (arc : generic e.type = scArc) :
    ∃ t' ok, t.tryMergeEl l 0 none (some r) = some (t', ok) ∧
      Going pairs t' ∧ Grows t t' ∧ Turned pairs (l, r) t t' (.settles ok) := by
  have root := (going.straight.real (l, r) mem).1
  have fit := (going.sorted l e he).fits
  have same : e.type ||| 0 = e.type := BitVec.or_zero
  have isArc := (isArc_iff fit).mpr arc
  by_cases free : e.fin = none ∨ e.fin = some r
  · obtain ⟨going', grows, ends⟩ :=
      going.setEnd (T := 0) mem he (same.symm ▸ fit) (same.symm ▸ arc) free
    exact ⟨_, true, ScText.tryMergeEl_end root he (same.symm ▸ fit) (same.symm ▸ isArc) free,
      going', grows, .inl ends⟩
  · rw [not_or] at free
    obtain ⟨b, fin⟩ := Option.ne_none_iff_exists'.mp free.1
    have other : b ≠ r := fun h => free.2 (h ▸ fin)
    exact ⟨t, false, ScText.tryMergeEl_ended root he fit isArc fin other, going, .refl t,
      fails_ended mem he arc fin other⟩

theorem turn_begin (hf : t.elems[r]? = some f) (other : l ≠ r)
    (left : generic e.type = 0 ∨ generic e.type = scNode)
    (right : generic f.type = 0 ∨ generic f.type = scArc) (free : f.beg = none ∨ f.beg = some l) :
    ∃ t', t.tryMergeEl r scArc (some l) none = some (t', true) ∧ Going pairs t' ∧ Grows t t' ∧
      BeginsAt t' l r ∧ t' = (t.modify l ScText.withType).modify r fun f =>
        { f with type := f.type ||| scArc, beg := some l } := by
  obtain ⟨rootL, rootR⟩ := going.straight.real (l, r) mem
  obtain ⟨fit, arc⟩ := fits_arc (going.sorted r f hf).fits right
  obtain ⟨going₁, grows₁, -, node⟩ := going.setNode he left
  have he₁ : (t.modify l ScText.withType).elems[l]? = some (ScText.withType e) := by
    rw [ScText.getElem?_modify, if_pos rfl, he, Option.map_some]
  have hf₁ : (t.modify l ScText.withType).elems[r]? = some f := by
    rw [ScText.getElem?_modify, if_neg other, hf]
  obtain ⟨going₂, grows₂, begins⟩ := going₁.setBegin mem he₁ node hf₁ fit arc free
  exact ⟨_, ScText.tryMergeEl_begin rootR hf rootL he other fit free, going₂,
    grows₁.trans grows₂, begins, rfl⟩

theorem turn_node (hf : t.elems[r]? = some f) (node : generic e.type = scNode) :
    ∃ t' ok, t.tryMergeEl r scArc (some l) none = some (t', ok) ∧
      Going pairs t' ∧ Grows t t' ∧ Turned pairs (l, r) t t' (.settles ok) := by
  have root := (going.straight.real (l, r) mem).2
  have fit := (going.sorted r f hf).fits
  by_cases unfit : generic f.type = scNode ∨ generic f.type = scUndf
  · exact ⟨t, false, ScText.tryMergeEl_unfit root hf (not_fits_arc fit unfit), going, .refl t,
      fails_node_other mem he node hf unfit⟩
  · have right : generic f.type = 0 ∨ generic f.type = scArc := by
      have cases := generic_cases fit
      tauto
    have other : l ≠ r := by
      rintro rfl
      rw [he] at hf
      cases hf
      exact unfit (.inl node)
    by_cases free : f.beg = none ∨ f.beg = some l
    · obtain ⟨t', merge, going', grows, begins, -⟩ :=
        going.turn_begin mem he hf other (.inr node) right free
      exact ⟨t', true, merge, going', grows, .inr begins⟩
    · rw [not_or] at free
      obtain ⟨b, beg⟩ := Option.ne_none_iff_exists'.mp free.1
      have elsewhere : b ≠ l := fun h => free.2 (h ▸ beg)
      have arc : generic f.type = scArc := right.resolve_left fun none => by
        have plain : f.type &&& scArc = 0 := by
          rw [and_arc, none]
          decide
        rw [((going.sorted r f hf).ends plain).1] at beg
        cases beg
      exact ⟨t, false, ScText.tryMergeEl_begun root hf fit arc beg elsewhere, going, .refl t,
        fails_node_begun mem he node hf beg elsewhere⟩

theorem turn_free (free : generic e.type = 0) :
    ∃ t', t.tryMergeEl l scArc none (some r) = some (t', true) ∧
      Going pairs t' ∧ Grows t t' ∧ Settled t' (l, r) := by
  have root := (going.straight.real (l, r) mem).1
  have sorted := going.sorted l e he
  obtain ⟨fit, arc⟩ := fits_arc sorted.fits (.inl free)
  have plain : e.type &&& scArc = 0 := by
    rw [and_arc, free]
    decide
  have fin : e.fin = none ∨ e.fin = some r := .inl (sorted.ends plain).2
  obtain ⟨going', grows, ends⟩ := going.setEnd mem he fit arc fin
  exact ⟨_, ScText.tryMergeEl_end root he fit (arc_or_right (by decide)) fin, going', grows,
    .inl ends⟩

theorem switch_free (hf : t.elems[r]? = some f) (free : e.type &&& scGenericTypeMask = 0) :
    ∃ t' turn,
    t.switchPair l r = .ok (t', turn) ∧ Going pairs t' ∧ Grows t t' ∧
      Turned pairs (l, r) t t' turn ∧ turn ≠ .drops := by
  obtain ⟨t', merge, going', grows, settled⟩ := going.turn_free mem he free
  rw [ScText.switchPair, he, hf]
  simp only [known, bind, Except.bind, free, merge, if_neg (show (0 : ElType) ≠ scArc by decide),
    if_neg (show (0 : ElType) ≠ scNode by decide), if_neg (show (0 : ElType) ≠ scUndf by decide),
    if_true]
  split
  · exact ⟨t', _, rfl, going', grows, settled, nofun⟩
  · split
    · exact ⟨t', _, rfl, going', grows, settled, nofun⟩
    · next other noArc =>
      refine ⟨t, _, rfl, going, .refl t, ⟨rfl, e, f, he, hf, free, ?_⟩, nofun⟩
      -- The right side is of no generic type, or an arc without begin.
      by_cases arc : f.type &&& scGenericTypeMask = scArc
      · rw [not_and, Bool.not_eq_true, Option.isSome_eq_false_iff] at noArc
        exact Option.isNone_iff_eq_none.mp (noArc arc)
      · have none : f.type &&& scGenericTypeMask = 0 := by
          by_contra known
          exact other ⟨arc, known⟩
        have plain : f.type &&& scArc = 0 := by
          rw [and_arc, generic, none]
          decide
        exact ((going.sorted r f hf).ends plain).1

end

theorem switch (going : Going pairs t) (mem : (l, r) ∈ pairs) : ∃ t' turn,
    t.switchPair l r = .ok (t', turn) ∧ Going pairs t' ∧ Grows t t' ∧
      Turned pairs (l, r) t t' turn ∧ turn ≠ .drops := by
  obtain ⟨⟨e, he⟩, f, hf⟩ := going.inside (l, r) mem
  obtain free | undf | arc | node := generic_cases (going.sorted l e he).fits
  · exact going.switch_free mem he hf free
  · refine ⟨t, .settles false, ?_, going, .refl t, fails_undf mem he undf,
      fun same => by cases same⟩
    rw [generic] at undf
    rw [ScText.switchPair, he]
    simp only [known, bind, Except.bind, undf, if_neg (show scUndf ≠ scArc by decide),
      if_neg (show scUndf ≠ scNode by decide), if_true]
  · obtain ⟨t', ok, merge, going', grows, turned⟩ := going.turn_arc mem he arc
    refine ⟨t', .settles ok, ?_, going', grows, turned, fun same => by cases same⟩
    rw [generic] at arc
    rw [ScText.switchPair, he]
    simp only [known, bind, Except.bind, arc, merge, if_true]
  · obtain ⟨t', ok, merge, going', grows, turned⟩ := going.turn_node mem he hf node
    refine ⟨t', .settles ok, ?_, going', grows, turned, fun same => by cases same⟩
    rw [generic] at node
    rw [ScText.switchPair, he]
    simp only [known, bind, Except.bind, node, merge, if_neg (show scNode ≠ scArc by decide),
      if_true]

theorem turn (going : Going pairs t) (mem : (l, r) ∈ pairs) (many : Bool)
    (more : many = true → ∃ r', r' ≠ r ∧ (l, r') ∈ pairs) :
    ∃ t' turn, t.resolvePair many l r = .ok (t', turn) ∧ Going pairs t' ∧ Grows t t' ∧
      Turned pairs (l, r) t t' turn := by
  cases many with
  | false =>
    obtain ⟨t', turn, switch, going', grows, turned, -⟩ := going.switch mem
    exact ⟨t', turn, switch, going', grows, turned⟩
  | true =>
    obtain ⟨⟨e, he⟩, f, hf⟩ := going.inside (l, r) mem
    have root := (going.straight.real (l, r) mem).1
    have fit := (going.sorted l e he).fits
    have force := ScText.forceNode_real root he
    by_cases unfit : generic e.type = scArc ∨ generic e.type = scUndf
    · rw [mergeTypes, not_fits_node fit unfit, if_neg Bool.false_ne_true] at force
      refine ⟨t, .drops, ?_, going, .refl t, rfl, ?_⟩
      · rw [ScText.resolvePair, if_pos rfl, force]
        rfl
      · obtain arc | undf := unfit
        · obtain ⟨r', other, mem'⟩ := more rfl
          exact fails_many mem mem' other he arc
        · exact fails_undf mem he undf
    · have free : generic e.type = 0 ∨ generic e.type = scNode := by
        have cases := generic_cases fit
        tauto
      obtain ⟨going₁, grows₁, -, node⟩ := going.setNode he free
      obtain ⟨t', turn, switch, going', grows, turned, noDrop⟩ := going₁.switch mem
      have he₁ : (t.modify l ScText.withType).elems[l]? = some (ScText.withType e) := by
        rw [ScText.getElem?_modify, if_pos rfl, he, Option.map_some]
      obtain ⟨room, -⟩ := fits_node fit free
      rw [mergeTypes, if_pos room] at force
      have same : (t.modify l fun e' => { e' with type := e.type ||| scNode }) =
          t.modify l ScText.withType := by
        refine ScText.modify_congr fun e' he' => ?_
        rw [he] at he'
        cases he'
        rw [ScText.withType, mergeTypes, if_pos room]
        rfl
      refine ⟨t', turn, ?_, going', grows₁.trans grows, ?_⟩
      · rw [ScText.resolvePair, if_pos rfl, force, ← switch, ← same]
        rfl
      · cases turn with
        | waits =>
          obtain ⟨-, e', f', he', -, none, -⟩ := turned
          rw [he₁] at he'
          cases he'
          rw [node] at none
          exact absurd none (by decide)
        | drops => exact absurd rfl noDrop
        | settles ok => exact turned

/-! ## Rounds -/

def Counts (pairs : List (Ref × Ref)) (count : Ref → Nat) : Prop :=
  ∀ l r, (l, r) ∈ pairs → count l > 1 → ∃ r', r' ≠ r ∧ (l, r') ∈ pairs

structure Rounded (pairs todo : List (Ref × Ref)) (t : ScText R) (round : ScText.Round R) :
    Prop where
  going : Going pairs round.text
  grows : Grows t round.text
  rest : round.rest.Sublist todo
  done : round.errors = 0 → ∀ pair ∈ todo, pair ∈ round.rest ∨ Settled round.text pair
  failed : round.errors ≠ 0 → Fails pairs round.text
  fewer : round.progress = true → round.rest.length < todo.length
  still : round.progress = false → round.text = t ∧ ∀ pair ∈ round.rest, Waits t pair

variable {count : Ref → Nat}

theorem round (counts : Counts pairs count) (going : Going pairs t) (todo : List (Ref × Ref))
    (sub : ∀ pair ∈ todo, pair ∈ pairs) :
    ∃ round, t.resolveRound count todo = .ok round ∧ Rounded pairs todo t round := by
  induction todo generalizing t with
  | nil =>
    refine ⟨_, rfl, going, .refl t, .slnil, nofun, fun no => absurd rfl no, nofun, fun _ => ?_⟩
    exact ⟨rfl, nofun⟩
  | cons pair todo ih =>
    obtain ⟨l, r⟩ := pair
    have mem := sub (l, r) List.mem_cons_self
    obtain ⟨t₁, turn, first, going₁, grows₁, turned⟩ := going.turn mem (decide (count l > 1))
      fun many => counts l r mem (of_decide_eq_true many)
    obtain ⟨last, rounds, rounded⟩ := ih going₁ fun pair h => sub pair (List.mem_cons_of_mem _ h)
    have eq : t.resolveRound count ((l, r) :: todo) = .ok {
        text := last.text
        rest := if turn = .waits then (l, r) :: last.rest else last.rest
        errors := turn.errors + last.errors
        progress := turn.progress || last.progress } := by
      rw [ScText.resolveRound, first]
      simp only [bind, Except.bind, rounds]
    have tail (errors : last.errors = 0) (rest : List (Ref × Ref)) (more : last.rest ⊆ rest)
        (pair : Ref × Ref) (h : pair ∈ todo) : pair ∈ rest ∨ Settled last.text pair :=
      (rounded.done errors pair h).imp_left fun h => more h
    refine ⟨_, eq, ?_⟩
    cases turn with
    | waits =>
      obtain ⟨rfl, waits⟩ := turned
      rw [if_pos rfl]
      refine ⟨rounded.going, rounded.grows, rounded.rest.cons_cons _, ?_, ?_, ?_, ?_⟩
      · intro none pair h
        obtain rfl | h := List.mem_cons.mp h
        · exact .inl List.mem_cons_self
        · exact tail ((Nat.zero_add _).symm.trans none) _ (List.subset_cons_self _ _) pair h
      · exact fun some => rounded.failed fun none => some ((Nat.zero_add _).trans none)
      · exact fun progress => Nat.succ_lt_succ (rounded.fewer progress)
      · intro quiet
        obtain ⟨same, all⟩ := rounded.still quiet
        exact ⟨same, List.forall_mem_cons.mpr ⟨waits, all⟩⟩
    | drops =>
      obtain ⟨rfl, fails⟩ := turned
      rw [if_neg (by decide)]
      refine ⟨rounded.going, rounded.grows, rounded.rest.cons _, ?_, ?_, ?_, ?_⟩
      · intro none
        exact absurd none (by simp [Turn.errors])
      · exact fun _ => fails.grows rounded.grows
      · exact fun progress => Nat.lt_succ_of_lt (rounded.fewer progress)
      · exact fun quiet => rounded.still quiet
    | settles ok =>
      rw [if_neg (by simp)]
      refine ⟨rounded.going, grows₁.trans rounded.grows, rounded.rest.cons _, ?_, ?_, ?_, ?_⟩
      · intro none pair h
        cases ok with
        | false => exact absurd none (by simp [Turn.errors])
        | true =>
          obtain rfl | h := List.mem_cons.mp h
          · exact .inr (Settled.grows turned rounded.grows rounded.going.sorted)
          · exact tail ((Nat.zero_add _).symm.trans none) _ (fun _ h => h) pair h
      · intro some
        cases ok with
        | false => exact Fails.grows turned rounded.grows
        | true => exact rounded.failed fun none => some ((Nat.zero_add _).trans none)
      · exact fun _ => Nat.lt_succ_of_le rounded.rest.length_le
      · nofun

theorem rounds (counts : Counts pairs count) (going : Going pairs t) (todo : List (Ref × Ref))
    (sub : ∀ pair ∈ todo, pair ∈ pairs) {n : Nat} (enough : todo.length < n) :
    ∃ round, t.resolveRounds count n todo = .ok round ∧ Going pairs round.text ∧
      Grows t round.text ∧ round.rest.Sublist todo ∧ round.progress = false ∧
      (round.errors = 0 → ∀ pair ∈ todo, pair ∈ round.rest ∨ Settled round.text pair) ∧
      (round.errors ≠ 0 → Fails pairs round.text) ∧
      ∀ pair ∈ round.rest, Waits round.text pair := by
  induction n generalizing t todo with
  | zero => exact absurd enough (Nat.not_lt_zero _)
  | succ n ih =>
    obtain ⟨first, eq, rounded⟩ := going.round counts todo sub
    rw [ScText.resolveRounds, eq]
    simp only [bind, Except.bind]
    cases progress : first.progress with
    | false =>
      rw [Bool.not_false, Bool.or_true, if_pos rfl]
      obtain ⟨same, waits⟩ := rounded.still progress
      exact ⟨first, rfl, rounded.going, rounded.grows, rounded.rest, progress, rounded.done,
        rounded.failed, same.symm ▸ waits⟩
    | true =>
      have fewer := rounded.fewer progress
      have some : todo.isEmpty = false := by
        cases todo with
        | nil => exact absurd fewer (Nat.not_lt_zero _)
        | cons pair todo => rfl
      rw [some, Bool.not_true, Bool.or_self, if_neg Bool.false_ne_true]
      obtain ⟨last, eq', going', grows, rest, quiet, done, failed, waits⟩ :=
        ih rounded.going first.rest (fun pair h => sub pair (rounded.rest.subset h)) (by omega)
      rw [eq']
      refine ⟨_, rfl, going', rounded.grows.trans grows, rest.trans rounded.rest, quiet, ?_, ?_,
        waits⟩
      · intro none pair h
        obtain ⟨none₁, none₂⟩ := Nat.add_eq_zero_iff.mp none
        obtain h | settled := rounded.done none₁ pair h
        · exact done none₂ pair h
        · exact .inr (settled.grows grows going'.sorted)
      · intro some
        by_cases none₁ : first.errors = 0
        · exact failed fun none₂ => some (Nat.add_eq_zero_iff.mpr ⟨none₁, none₂⟩)
        · exact (rounded.failed none₁).grows grows

end Going

/-! ## Guesses -/

def Quiet (t : ScText R) (pair : Ref × Ref) : Prop :=
  ∃ e f : ScElement R, t.elems[pair.1]? = some e ∧ t.elems[pair.2]? = some f ∧
    (generic e.type = 0 ∨ generic e.type = scNode) ∧ f.beg = none

theorem Quiet.not_settled (quiet : Quiet t pair) : ¬Settled t pair := by
  obtain ⟨e, f, he, hf, kind, beg⟩ := quiet
  rintro (⟨e', he', arc, -⟩ | ⟨f', hf', -, beg'⟩)
  · rw [he] at he'
    cases he'
    obtain kind | kind := kind <;> rw [kind] at arc <;> exact absurd arc (by decide)
  · rw [hf] at hf'
    cases hf'
    rw [beg] at beg'
    cases beg'

theorem Waits.quiet (waits : Waits t pair) : Quiet t pair := by
  obtain ⟨e, f, he, hf, none, beg⟩ := waits
  exact ⟨e, f, he, hf, .inl none, beg⟩

namespace Going

theorem guess (going : Going pairs t) (mem : (l, r) ∈ pairs) (quiet : Quiet t (l, r))
    (hf : t.elems[r]? = some f) (arc : f.type &&& scArc ≠ 0) :
    ∃ t', t.tryMergeEl r scArc (some l) none = some (t', true) ∧ Going pairs t' ∧ Grows t t' ∧
      Settled t' (l, r) ∧ ∀ pair, Quiet t pair → pair.2 ≠ r → Quiet t' pair := by
  obtain ⟨e, f₁, he, hf₁, left, beg⟩ := quiet
  rw [hf] at hf₁
  cases hf₁
  have isArc := (isArc_iff (going.sorted r f hf).fits).mp arc
  have other : l ≠ r := by
    rintro rfl
    rw [he] at hf
    cases hf
    obtain left | left := left <;> rw [left] at isArc <;> exact absurd isArc (by decide)
  obtain ⟨t', merge, going', grows, begins, eq⟩ :=
    going.turn_begin mem he hf other left (.inr isArc) (.inl beg)
  refine ⟨t', merge, going', grows, .inr begins, ?_⟩
  rintro ⟨l', r'⟩ ⟨e', f', he', hf', left', beg'⟩ elsewhere
  obtain ⟨fit, -⟩ := fits_node (going.sorted l e he).fits left
  have hr' : t'.elems[r']? = some (if l = r' then ScText.withType f' else f') := by
    rw [eq, ScText.getElem?_modify, if_neg (Ne.symm elsewhere), ScText.getElem?_modify, hf']
    split <;> rfl
  have noBegin : (if l = r' then ScText.withType f' else f').beg = none := by
    split <;> exact beg'
  by_cases same : l' = r
  · -- The arc is no left side that is quiet.
    subst same
    rw [hf] at he'
    cases he'
    obtain left' | left' := left' <;> rw [left'] at isArc <;> exact absurd isArc (by decide)
  · have hl' : t'.elems[l']? = some (if l = l' then ScText.withType e' else e') := by
      rw [eq, ScText.getElem?_modify, if_neg (Ne.symm same), ScText.getElem?_modify, he']
      split <;> rfl
    refine ⟨_, _, hl', hr', ?_, noBegin⟩
    split
    · next here =>
      subst here
      rw [he] at he'
      cases he'
      obtain ⟨-, -, -, node⟩ := going.setNode he left
      exact .inr node
    · exact left'

theorem guesses (going : Going pairs t) (count : Ref → Nat) (todo left : List (Ref × Ref))
    (sub : ∀ pair ∈ todo, pair ∈ pairs) (nodup : (todo ++ left).Nodup)
    (single : ∀ pair ∈ todo, count pair.2 = 1 → ∀ pair' ∈ todo ++ left, pair'.2 = pair.2 →
      pair' = pair)
    (quiet : ∀ pair ∈ todo ++ left, Quiet t pair) :
    ∃ t' rest, t.guessBegins count todo = .ok (t', rest) ∧ Going pairs t' ∧ Grows t t' ∧
      (∀ pair ∈ todo, pair ∈ rest ∨ Settled t' pair) ∧ rest ⊆ todo ∧
      ∀ pair ∈ rest ++ left, Quiet t' pair := by
  induction todo generalizing t left with
  | nil => exact ⟨t, [], rfl, going, .refl t, nofun, List.Subset.refl _, quiet⟩
  | cons pair todo ih =>
    obtain ⟨l, r⟩ := pair
    have mem := sub (l, r) List.mem_cons_self
    have hquiet := quiet (l, r) (List.mem_append_left _ List.mem_cons_self)
    have ⟨e, f, he, hf, kind, beg⟩ := hquiet
    have subTail (pair : Ref × Ref) (h : pair ∈ todo) : pair ∈ pairs :=
      sub pair (List.mem_cons_of_mem _ h)
    rw [ScText.guessBegins, hf]
    simp only [known, bind, Except.bind]
    by_cases guessed : f.type &&& scArc ≠ 0 ∧ count r = 1
    · rw [if_pos guessed, if_pos (Option.isNone_iff_eq_none.mpr beg)]
      obtain ⟨t₁, merge, going₁, grows₁, settled, others⟩ :=
        going.guess mem hquiet hf guessed.1
      rw [List.cons_append] at nodup
      obtain ⟨absent, nodup⟩ := List.nodup_cons.mp nodup
      obtain ⟨t', rest, eq, going', grows, done, within, quiet'⟩ := ih (t := t₁) going₁ left subTail
        nodup
        (fun pair h one pair' h' => single pair (List.mem_cons_of_mem _ h) one pair'
          (List.mem_cons_of_mem _ h'))
        (fun pair h => others pair (quiet pair (List.mem_cons_of_mem _ h)) fun same => absent
          (single (l, r) List.mem_cons_self guessed.2 pair (List.mem_cons_of_mem _ h) same ▸ h))
      rw [merge]
      refine ⟨t', rest, eq, going', grows₁.trans grows, ?_, fun _ h => List.mem_cons_of_mem _
        (within h), quiet'⟩
      intro pair h
      obtain rfl | h := List.mem_cons.mp h
      · exact .inr (settled.grows grows going'.sorted)
      · exact done pair h
    · rw [if_neg guessed]
      have perm : (todo ++ (l, r) :: left).Perm ((l, r) :: todo ++ left) := List.perm_middle
      obtain ⟨t', rest, eq, going', grows, done, within, quiet'⟩ := ih going ((l, r) :: left)
        subTail (perm.nodup_iff.mpr nodup)
        (fun pair h one pair' h' => single pair (List.mem_cons_of_mem _ h) one pair'
          (perm.mem_iff.mp h'))
        (fun pair h => quiet pair (perm.mem_iff.mp h))
      rw [eq]
      refine ⟨t', (l, r) :: rest, rfl, going', grows, ?_, ?_, ?_⟩
      · intro pair h
        obtain rfl | h := List.mem_cons.mp h
        · exact .inl List.mem_cons_self
        · exact (done pair h).imp_left (List.mem_cons_of_mem _)
      · exact List.cons_subset_cons _ within
      · have perm' : (rest ++ (l, r) :: left).Perm ((l, r) :: rest ++ left) := List.perm_middle
        exact fun pair h => quiet' pair (perm'.mem_iff.mpr h)

end Going

/-! ## All pairs -/

theorem exists_of_countP {α : Type} {P : α → Bool} {l : List α} {a : α} (nodup : l.Nodup)
    (many : l.countP P > 1) : ∃ b ∈ l, b ≠ a ∧ P b = true := by
  rw [List.countP_eq_length_filter] at many
  by_contra none
  have all : ∀ b ∈ l.filter P, b = a := by
    intro b h
    obtain ⟨mem, hb⟩ := List.mem_filter.mp h
    by_contra other
    exact none ⟨b, mem, other, hb⟩
  have distinct := nodup.filter P
  match h : l.filter P with
  | [] => simp [h] at many
  | [b] => simp [h] at many
  | b :: c :: rest =>
    rw [h] at all distinct
    have hb := all b List.mem_cons_self
    have hc := all c (List.mem_cons_of_mem _ List.mem_cons_self)
    refine (List.nodup_cons.mp distinct).1 ?_
    rw [hb, hc]
    exact List.mem_cons_self

theorem eq_of_countP_one {α : Type} {P : α → Bool} {l : List α} {a b : α}
    (one : l.countP P = 1) (ha : a ∈ l) (hpa : P a = true) (hb : b ∈ l) (hpb : P b = true) :
    a = b := by
  rw [List.countP_eq_length_filter] at one
  obtain ⟨c, hc⟩ := List.length_eq_one_iff.mp one
  have hac := List.mem_filter.mpr ⟨ha, hpa⟩
  have hbc := List.mem_filter.mpr ⟨hb, hpb⟩
  rw [hc, List.mem_singleton] at hac hbc
  rw [hac, hbc]

theorem Going.resolve (going : Going pairs t) (nodup : pairs.Nodup) :
    ∃ t' errors, t.resolveNonarcs pairs = .ok (t', errors) ∧ Going pairs t' ∧
      (errors = 0 → ∀ pair ∈ pairs, Settled t' pair) ∧
      (errors ≠ 0 → ∃ pair ∈ pairs, ¬Settled t' pair) := by
  rw [ScText.resolveNonarcs]
  cases hpairs : pairs.isEmpty with
  | true =>
    rw [List.isEmpty_iff] at hpairs
    subst hpairs
    exact ⟨t, 0, rfl, going, nofun, fun no => absurd rfl no⟩
  | false =>
    have counts : Counts pairs fun l => pairs.countP fun pair => pair.1 = l := by
      intro l r _ many
      obtain ⟨⟨l', r'⟩, mem, other, left⟩ := exists_of_countP (a := (l, r)) nodup many
      obtain rfl := of_decide_eq_true left
      exact ⟨r', fun same => other (by rw [same]), mem⟩
    obtain ⟨last, rounds, going₁, -, sub, progress, done, failed, waits⟩ :=
      going.rounds counts pairs (fun _ h => h) (Nat.lt_add_one _)
    have distinct := nodup.sublist sub
    obtain ⟨t', rest, guesses, going', grows, done', within, quiet⟩ :=
      going₁.guesses (fun r => last.rest.countP fun pair => pair.2 = r) last.rest []
        (fun pair h => sub.subset h)
        (by rwa [List.append_nil])
        (fun pair h one pair' h' same => by
          rw [List.append_nil] at h'
          exact eq_of_countP_one one h' (decide_eq_true same) h (decide_eq_true rfl))
        (fun pair h => (waits pair (by rwa [List.append_nil] at h)).quiet)
    rw [if_neg Bool.false_ne_true]
    dsimp only
    rw [rounds]
    simp only [bind, Except.bind, progress, Bool.false_eq_true, if_false, guesses]
    refine ⟨t', _, rfl, going', ?_, ?_⟩
    · intro none pair h
      obtain ⟨none₁, none₂⟩ := Nat.add_eq_zero_iff.mp none
      obtain h | settled := done none₁ pair h
      · obtain h | settled := done' pair h
        · rw [List.length_eq_zero_iff] at none₂
          subst none₂
          cases h
        · exact settled
      · exact settled.grows grows going'.sorted
    · intro some
      by_cases none₁ : last.errors = 0
      · have left : rest ≠ [] := fun none => some (by rw [none₁, none]; rfl)
        obtain ⟨pair, others, hrest⟩ := List.exists_cons_of_ne_nil left
        have mem : pair ∈ rest := hrest ▸ List.mem_cons_self
        refine ⟨pair, sub.subset (within mem), ?_⟩
        exact (quiet pair (List.mem_append_left _ mem)).not_settled
      · exact failed none₁ t' grows going'

end ScCore.Scs
