import ScCore.Scs.Text

/-!
# Elements joined by their names

A declaration that names an element and an alias both connect the identifier with the
element. Along every run the links from aliases to elements are a forest, whose trees are
the classes that these connections make.
-/

namespace ScCore.Scs

variable {R : Type} {h : List (Event R)} {ev : Event R} {t t' : ScText R}

/-- An identifier, or an element. -/
abbrev Item := Idtf ⊕ Ref

def Event.names : Event R → Option (Idtf × Ref)
  | .declared d => d.id.map fun id => (id, d.ref)
  | .aliased id ref => some (id, ref)
  | .gave _ _ => none

def Event.refs : Event R → List Ref
  | .declared d => d.ref :: (d.left.toList ++ d.right.toList)
  | .aliased _ ref => [ref]
  | .gave ref _ => [ref]

inductive Edge (h : List (Event R)) : Item → Item → Prop where
  | names {ev : Event R} {id : Idtf} {ref : Ref} (mem : ev ∈ h)
      (named : ev.names = some (id, ref)) : Edge h (.inl id) (.inr ref)

def Connected (h : List (Event R)) : Item → Item → Prop := Relation.EqvGen (Edge h)

namespace Connected

variable {x y z : Item}

theorem refl (x : Item) : Connected h x x := Relation.EqvGen.refl x

theorem symm (c : Connected h x y) : Connected h y x := Relation.EqvGen.symm _ _ c

theorem trans (c : Connected h x y) (c' : Connected h y z) : Connected h x z :=
  Relation.EqvGen.trans _ _ _ c c'

theorem edge {id : Idtf} {ref : Ref} (mem : ev ∈ h) (named : ev.names = some (id, ref)) :
    Connected h (.inl id) (.inr ref) :=
  Relation.EqvGen.rel _ _ (.names mem named)

theorem weaken (c : Connected h x y) (ev : Event R) : Connected (ev :: h) x y := by
  have sub : Edge h ≤ Edge (ev :: h) := by
    intro x y edge
    cases edge with
    | names mem named => exact .names (List.mem_cons_of_mem ev mem) named
  exact Relation.EqvGen.mono sub x y c

end Connected

namespace ScText

theorem getElem?_modify (ref x : Ref) (f : ScElement R → ScElement R) :
    (t.modify ref f).elems[x]? = if ref = x then t.elems[x]?.map f else t.elems[x]? := by
  rw [modify, List.getElem?_modify]
  by_cases hx : ref = x
  · simp [hx]
  · simp [hx]

@[simp] theorem length_modify (ref : Ref) (f : ScElement R → ScElement R) :
    (t.modify ref f).elems.length = t.elems.length := List.length_modify ..

theorem aliasOf_modify {f : ScElement R → ScElement R}
    (keeps : ∀ e, (f e).aliasRef = e.aliasRef) (ref : Ref) :
    (t.modify ref f).aliasOf = t.aliasOf := by
  funext x
  rw [aliasOf, aliasOf, getElem?_modify]
  by_cases hx : ref = x
  · rw [if_pos hx]
    cases t.elems[x]? with
    | none => rfl
    | some e => exact keeps e
  · rw [if_neg hx]

theorem aliasOf_modify_link {ref target : Ref} (lt : ref < t.elems.length) :
    (t.modify ref fun e => { e with aliasRef := some target }).aliasOf
      = Function.update t.aliasOf ref (some target) := by
  funext x
  rw [aliasOf, getElem?_modify]
  by_cases hx : ref = x
  · subst hx
    rw [if_pos rfl, Function.update_self, List.getElem?_eq_getElem lt]
    rfl
  · rw [if_neg hx, Function.update_of_ne (Ne.symm hx), aliasOf]

theorem lt_of_aliasOf {x y : Ref} (hx : t.aliasOf x = some y) : x < t.elems.length := by
  rw [aliasOf] at hx
  cases he : t.elems[x]? with
  | none =>
    rw [he] at hx
    cases hx
  | some e => exact (List.getElem?_eq_some_iff.mp he).1

def itemReal (t : ScText R) : Item → Option Ref
  | .inl id => (t.idmap id).bind t.getRealElement
  | .inr ref => t.getRealElement ref

end ScText

/-- The links of `t` are a forest, and they join what `h` connects. -/
structure Joined (h : List (Event R)) (t : ScText R) : Prop where
  rooted : ∃ s, Lib.Rooted t.aliasOf s
  target : ∀ x y, t.aliasOf x = some y →
    y < t.elems.length ∧ Connected h (.inr x) (.inr y)
  known : ∀ id ref, t.idmap id = some ref →
    ref < t.elems.length ∧ Connected h (.inl id) (.inr ref)
  named : ∀ ev ∈ h, ∀ id ref, ev.names = some (id, ref) →
    t.itemReal (.inl id) = t.getRealElement ref
  within : ∀ ev ∈ h, ∀ ref ∈ ev.refs, ref < t.elems.length

namespace ScText

open Lib

variable {s : Finset Ref}

theorem card_le (rooted : Rooted t.aliasOf s) : s.card ≤ t.elems.length := by
  have sub : s ⊆ Finset.range t.elems.length := by
    intro x hx
    obtain ⟨y, hy⟩ := Option.isSome_iff_exists.mp ((rooted.linked x).mpr hx)
    exact Finset.mem_range.mpr (lt_of_aliasOf hy)
  have := Finset.card_le_card sub
  rwa [Finset.card_range] at this

theorem getRealElement_eq (rooted : Rooted t.aliasOf s) (x : Ref) :
    t.getRealElement x = climb t.aliasOf (s.card + 1) x := by
  have le := t.card_le rooted
  exact rooted.climb_eq (by omega) x

theorem getRealElement_congr (rooted : Rooted t.aliasOf s) (same : t'.aliasOf = t.aliasOf)
    (x : Ref) : t'.getRealElement x = t.getRealElement x := by
  have rooted' : Rooted t'.aliasOf s := by rwa [same]
  rw [getRealElement_eq rooted, getRealElement_eq rooted', same]

theorem getRealElement_root {x r : Ref} (hr : t.getRealElement x = some r) :
    t.aliasOf r = none := climb_root hr

theorem getRealElement_self {r : Ref} (root : t.aliasOf r = none) :
    t.getRealElement r = some r := climb_self root _

end ScText

namespace Joined

open Lib ScText

theorem new : Joined ([] : List (Event R)) .new where
  rooted := ⟨∅, .empty fun _ => rfl⟩
  target x y hx := by cases hx
  known id ref hid := by cases hid
  named ev mem := by cases mem
  within ev mem := by cases mem

theorem total (joined : Joined h t) (x : Ref) : ∃ r, t.getRealElement x = some r := by
  obtain ⟨s, rooted⟩ := joined.rooted
  rw [getRealElement_eq rooted]
  exact rooted.reach x

variable {r : Ref}

section

variable (joined : Joined h t)
include joined

theorem real_lt {x : Ref} (lt : x < t.elems.length) (hr : t.getRealElement x = some r) :
    r < t.elems.length :=
  climb_induct (P := fun y => y < t.elems.length) (fun x y hx _ => (joined.target x y hx).1) lt hr

theorem real_connected {x : Ref} (hr : t.getRealElement x = some r) :
    Connected h (.inr x) (.inr r) :=
  climb_induct (P := fun y => Connected h (.inr x) (.inr y))
    (fun y z hy c => c.trans (joined.target y z hy).2) (.refl _) hr

theorem item_connected {x : Item} (hr : t.itemReal x = some r) : Connected h x (.inr r) := by
  cases x with
  | inr ref => exact joined.real_connected hr
  | inl id =>
    obtain ⟨ref, hid, hr⟩ := Option.bind_eq_some_iff.mp hr
    exact (joined.known id ref hid).2.trans (joined.real_connected hr)

theorem real_eq {x y : Item} (c : Connected h x y) : t.itemReal x = t.itemReal y := by
  induction c with
  | rel x y edge =>
    cases edge with
    | names mem named => exact joined.named _ mem _ _ named
  | refl x => rfl
  | symm x y c ih => exact ih.symm
  | trans x y z c c' ih ih' => exact ih.trans ih'

/-- Two items that stand for elements stand for the same one when they are connected. -/
theorem real_eq_iff {x y : Item} (hx : (t.itemReal x).isSome) :
    t.itemReal x = t.itemReal y ↔ Connected h x y := by
  constructor
  · intro same
    obtain ⟨r, hr⟩ := Option.isSome_iff_exists.mp hx
    have cx := joined.item_connected hr
    have cy := joined.item_connected (same ▸ hr)
    exact cx.trans cy.symm
  · exact joined.real_eq

theorem real_iff {x : Ref} (root : t.aliasOf r = none) :
    t.getRealElement x = some r ↔ Connected h (.inr x) (.inr r) := by
  constructor
  · exact joined.real_connected
  · intro c
    have same : t.getRealElement x = t.getRealElement r := joined.real_eq c
    rw [same, getRealElement_self root]

theorem grow (same : t'.aliasOf = t.aliasOf) (le : t.elems.length ≤ t'.elems.length)
    (keeps : ∀ id ref, t.idmap id = some ref → t'.idmap id = some ref)
    (fresh : ∀ id ref, t'.idmap id = some ref → t.idmap id = some ref ∨ ref < t'.elems.length ∧
    Connected (ev :: h) (.inl id) (.inr ref))
    (named : ∀ id ref, ev.names = some (id, ref) → t'.itemReal (.inl id) = t'.getRealElement ref)
    (within : ∀ ref ∈ ev.refs, ref < t'.elems.length) : Joined (ev :: h) t' where
  rooted := by
    rw [same]
    exact joined.rooted
  target x y hx := by
    rw [same] at hx
    obtain ⟨lt, c⟩ := joined.target x y hx
    exact ⟨Nat.lt_of_lt_of_le lt le, c.weaken ev⟩
  known id ref hid := by
    rcases fresh id ref hid with old | new
    · obtain ⟨lt, c⟩ := joined.known id ref old
      exact ⟨Nat.lt_of_lt_of_le lt le, c.weaken ev⟩
    · exact new
  named ev' mem id ref hn := by
    rcases List.mem_cons.mp mem with rfl | mem
    · exact named id ref hn
    · have old := joined.named ev' mem id ref hn
      obtain ⟨s, rooted⟩ := joined.rooted
      obtain ⟨r, hr⟩ := joined.total ref
      rw [hr] at old
      obtain ⟨ref', hid, hr'⟩ := Option.bind_eq_some_iff.mp old
      rw [itemReal, keeps id ref' hid, Option.bind_some, getRealElement_congr rooted same,
        getRealElement_congr rooted same, hr, hr']
  within ev' mem ref hr := by
    rcases List.mem_cons.mp mem with rfl | mem
    · exact within ref hr
    · exact Nat.lt_of_lt_of_le (joined.within ev' mem ref hr) le

theorem frame (same : t'.aliasOf = t.aliasOf) (len : t'.elems.length = t.elems.length)
    (idmap : t'.idmap = t.idmap)
    (named : ∀ id ref, ev.names = some (id, ref) → t.itemReal (.inl id) = t.getRealElement ref)
    (within : ∀ ref ∈ ev.refs, ref < t.elems.length) : Joined (ev :: h) t' := by
  obtain ⟨s, rooted⟩ := joined.rooted
  have real : t'.getRealElement = t.getRealElement :=
    funext (getRealElement_congr rooted same)
  apply joined.grow same (Nat.le_of_eq len.symm)
  · intro id ref hid
    rwa [idmap]
  · intro id ref hid
    rw [idmap] at hid
    exact .inl hid
  · intro id ref hn
    rw [itemReal, idmap, real]
    exact named id ref hn
  · rwa [len]

theorem link_real {a b : Ref} (ha : t.aliasOf a = none) (hb : t.aliasOf b = none) (ne : a ≠ b)
    (same : t'.aliasOf = Function.update t.aliasOf a (some b)) :
    (∃ s, Rooted t'.aliasOf s) ∧ ∀ x r, t.getRealElement x = some r →
      t'.getRealElement x = some (if r = a then b else r) := by
  obtain ⟨s, rooted⟩ := joined.rooted
  have rooted' : Rooted t'.aliasOf (insert a s) := by
    rw [same]
    exact rooted.link ha hb ne
  have new : a ∉ s := by
    rw [← rooted.linked, ha]
    exact Bool.false_ne_true
  refine ⟨⟨_, rooted'⟩, ?_⟩
  intro x r hr
  rw [getRealElement_eq rooted] at hr
  rw [getRealElement_eq rooted', same, Finset.card_insert_of_notMem new]
  exact climb_link ha hb ne hr

theorem link {a b : Ref} (ha : t.aliasOf a = none) (hb : t.aliasOf b = none) (ne : a ≠ b)
    (lt : b < t.elems.length) (same : t'.aliasOf = Function.update t.aliasOf a (some b))
    (len : t'.elems.length = t.elems.length) (idmap : t'.idmap = t.idmap)
    (connects : Connected (ev :: h) (.inr a) (.inr b))
    (named : ∀ id ref, ev.names = some (id, ref) → t'.itemReal (.inl id) = t'.getRealElement ref)
    (within : ∀ ref ∈ ev.refs, ref < t.elems.length) : Joined (ev :: h) t' := by
  obtain ⟨rooted, real⟩ := joined.link_real ha hb ne same
  refine ⟨rooted, ?_, ?_, ?_, ?_⟩
  · intro x y hx
    rw [same] at hx
    rw [len]
    by_cases hxa : x = a
    · subst hxa
      rw [Function.update_self] at hx
      cases hx
      exact ⟨lt, connects⟩
    · rw [Function.update_of_ne hxa] at hx
      obtain ⟨hy, c⟩ := joined.target x y hx
      exact ⟨hy, c.weaken ev⟩
  · intro id ref hid
    rw [idmap] at hid
    obtain ⟨hr, c⟩ := joined.known id ref hid
    rw [len]
    exact ⟨hr, c.weaken ev⟩
  · intro ev' mem id ref hn
    rcases List.mem_cons.mp mem with rfl | mem
    · exact named id ref hn
    · have old := joined.named ev' mem id ref hn
      obtain ⟨r, hr⟩ := joined.total ref
      rw [hr] at old
      obtain ⟨ref', hid, hr'⟩ := Option.bind_eq_some_iff.mp old
      rw [itemReal, idmap, hid, Option.bind_some, real ref' r hr', real ref r hr]
  · intro ev' mem ref hr
    rw [len]
    rcases List.mem_cons.mp mem with rfl | mem
    · exact within ref hr
    · exact joined.within ev' mem ref hr

end

end Joined

end ScCore.Scs
