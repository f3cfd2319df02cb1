import ScCore.Scs.Classes

/-!
# Every class under every call

A run keeps the links a forest and every real element at what the members of its class were
declared with.
-/

namespace ScCore.Scs

variable {R : Type} {h : List (Event R)} {ev : Event R} {t t' : ScText R}
  {Begun : Ref → Prop} {d : Declaration}

def Classes (h : List (Event R)) (Begun : Ref → Prop) (t : ScText R) : Prop :=
  ∀ r e, t.elems[r]? = some e → e.aliasRef = none →
    ClassData h Begun (fun m => t.getRealElement m = some r) e

def BegunIn (h : List (Event R)) (l : Ref) : Prop := Declares h fun d => d.left = some l

structure Resolved (h : List (Event R)) (t : ScText R) : Prop where
  joined : Joined h t
  arcs : ArcsOnly h
  classes : Classes h (BegunIn h) t

namespace ScText

theorem aliasOf_of {x : Ref} {e : ScElement R} (he : t.elems[x]? = some e) :
    t.aliasOf x = e.aliasRef := by
  rw [aliasOf, he, Option.bind_some]

theorem lt_of_getElem? {x : Ref} {e : ScElement R} (he : t.elems[x]? = some e) :
    x < t.elems.length := (List.getElem?_eq_some_iff.mp he).1

theorem getRealElement_modify {f : ScElement R → ScElement R}
    (keeps : ∀ e, (f e).aliasRef = e.aliasRef) (ref : Ref) :
    (t.modify ref f).getRealElement = t.getRealElement := by
  funext x
  rw [getRealElement, getRealElement, aliasOf_modify keeps, length_modify]

theorem modify_self {ref : Ref} {f : ScElement R → ScElement R}
    (same : ∀ e, t.elems[ref]? = some e → f e = e) : t.modify ref f = t := by
  have elems : t.elems.modify ref f = t.elems := by
    apply List.ext_getElem?
    intro x
    have get := getElem?_modify (t := t) ref x f
    rw [modify] at get
    rw [get]
    by_cases hx : ref = x
    · subst hx
      rw [if_pos rfl]
      cases he : t.elems[ref]? with
      | none => rfl
      | some e => rw [Option.map_some, same e he]
    · rw [if_neg hx]
  rw [modify, elems]

/-- `element_is_node` on the class of `l`. -/
def withType (e : ScElement R) : ScElement R :=
  { e with type := (mergeTypes e.type scNode).getD e.type }

theorem elementIsNode_eq {l : Ref} (node : t.elementIsNode (some l) = some t') :
    ∃ r, t.getRealElement l = some r ∧ t' = t.modify r withType := by
  obtain ⟨r, hr, node⟩ := Option.bind_eq_some_iff.mp node
  obtain ⟨e, he, node⟩ := Option.bind_eq_some_iff.mp node
  refine ⟨r, hr, ?_⟩
  cases merge : mergeTypes e.type scNode with
  | none =>
    rw [merge] at node
    cases node
    symm
    apply modify_self
    intro e' he'
    rw [he] at he'
    cases he'
    rw [withType, merge]
    rfl
  | some type =>
    rw [merge] at node
    cases node
    have elems : t.elems.modify r (fun e => { e with type := type })
        = t.elems.modify r withType := by
      apply List.ext_getElem?
      intro x
      rw [List.getElem?_modify, List.getElem?_modify]
      by_cases hx : r = x
      · subst hx
        rw [he]
        simp [withType, merge]
      · simp [hx]
    rw [modify, modify, elems]

theorem mergeEl_eq {ref r : Ref} {type : ElType} {left right : Option Ref}
    (merge : t.mergeEl ref type left right = some (t', r)) :
    ∃ e T beg fin, t.getRealElement ref = some r ∧ t.elems[r]? = some e ∧
      mergeTypes e.type type = some T ∧ e.mergeEnds T left right = some (beg, fin) ∧
      (t.modify r fun e => { e with type := T, beg := beg, fin := fin }).beginIsNode left beg
        = some t' := by
  obtain ⟨r', hr, merge⟩ := Option.bind_eq_some_iff.mp merge
  obtain ⟨e, he, merge⟩ := Option.bind_eq_some_iff.mp merge
  obtain ⟨T, hT, merge⟩ := Option.bind_eq_some_iff.mp merge
  obtain ⟨⟨beg, fin⟩, ends, merge⟩ := Option.bind_eq_some_iff.mp merge
  obtain ⟨t₁, node, last⟩ := Option.bind_eq_some_iff.mp merge
  cases last
  exact ⟨e, T, beg, fin, hr, he, hT, ends, node⟩

end ScText

theorem mergeEnd_eq {cur given b : Option Ref} (merge : mergeEnd cur given = some b) (l : Ref) :
    b = some l ↔ cur = some l ∨ given = some l := by
  cases cur with
  | none =>
    cases merge
    simp
  | some c =>
    cases given with
    | none =>
      cases merge
      simp
    | some g =>
      rw [mergeEnd] at merge
      by_cases same : c = g
      · rw [if_pos same] at merge
        cases merge
        simp [same]
      · rw [if_neg same] at merge
        cases merge

theorem mergeEnds_iff {e : ScElement R} {T type : ElType} {left right beg fin : Option Ref}
    (ends : e.mergeEnds T left right = some (beg, fin))
    (merge : mergeTypes e.type type = some T)
    (old : e.beg.isSome ∨ e.fin.isSome → e.type &&& scArc ≠ 0)
    (new : left.isSome ∨ right.isSome → type &&& scArc ≠ 0) :
    (∀ l, beg = some l ↔ e.beg = some l ∨ left = some l) ∧
      ∀ l, fin = some l ↔ e.fin = some l ∨ right = some l := by
  rw [ScElement.mergeEnds] at ends
  by_cases arc : T &&& scArc ≠ 0
  · rw [if_pos arc] at ends
    obtain ⟨beg', hb, ends⟩ := Option.bind_eq_some_iff.mp ends
    obtain ⟨fin', hf, ends⟩ := Option.bind_eq_some_iff.mp ends
    cases ends
    exact ⟨mergeEnd_eq hb, mergeEnd_eq hf⟩
  · rw [if_neg arc] at ends
    cases ends
    obtain ⟨rfl, -⟩ := mergeTypes_some merge
    have noOld : ¬(e.beg.isSome ∨ e.fin.isSome) := fun s => arc (arc_or_left (old s))
    have noNew : ¬(left.isSome ∨ right.isSome) := fun s => arc (arc_or_right (new s))
    simp only [not_or, Option.not_isSome_iff_eq_none] at noOld noNew
    simp [noOld, noNew]

namespace Classes

open ScText

theorem begun (classes : Classes h Begun t) {l : Ref}
    (node : t.elementIsNode (some l) = some t') :
    Classes h (fun x => Begun x ∨ x = l) t' := by
  obtain ⟨r, hr, rfl⟩ := elementIsNode_eq node
  intro x e he real
  rw [getRealElement_modify (f := withType) fun _ => rfl]
  rw [getElem?_modify] at he
  by_cases hx : r = x
  · subst hx
    rw [if_pos rfl] at he
    obtain ⟨e₀, he₀, rfl⟩ := Option.map_eq_some_iff.mp he
    exact ((classes r e₀ he₀ real).begun l).1 hr
  · rw [if_neg hx] at he
    apply ((classes x e he real).begun l).2
    rw [hr]
    exact fun same => hx (Option.some.inj same)

theorem replace {r : Ref} {f : ScElement R → ScElement R}
    (keeps : ∀ e, (f e).aliasRef = e.aliasRef)
    (here : ∀ e, t.elems[r]? = some e → e.aliasRef = none →
      ClassData h Begun (fun m => t.getRealElement m = some r) (f e))
    (others : ∀ x e, x ≠ r → t.elems[x]? = some e → e.aliasRef = none →
      ClassData h Begun (fun m => t.getRealElement m = some x) e) :
    Classes h Begun (t.modify r f) := by
  intro x e he real
  rw [getRealElement_modify keeps]
  rw [getElem?_modify] at he
  by_cases hx : r = x
  · subst hx
    rw [if_pos rfl] at he
    obtain ⟨e₀, he₀, rfl⟩ := Option.map_eq_some_iff.mp he
    rw [keeps] at real
    exact here e₀ he₀ real
  · rw [if_neg hx] at he
    exact others x e (Ne.symm hx) he real

theorem begins (classes : Classes (.declared d :: h) (BegunIn h) t) {beg : Option Ref}
    (node : t.beginIsNode d.left beg = some t') (same : ∀ l, d.left = some l → beg = some l) :
    Classes (.declared d :: h) (BegunIn (.declared d :: h)) t' := by
  have more (P : Ref → Prop) (hP : ∀ x, P x ↔ BegunIn h x ∨ d.left = some x) :
      P = BegunIn (.declared d :: h) := by
    funext x
    rw [BegunIn, declares_cons, or_comm]
    exact propext (hP x)
  rw [beginIsNode] at node
  cases hl : d.left with
  | none =>
    rw [hl] at node
    cases node
    rwa [← more (BegunIn h)]
    simp [hl]
  | some l =>
    rw [hl, if_pos (by rfl), same l hl] at node
    rw [← more fun x => BegunIn h x ∨ x = l]
    · exact classes.begun node
    · simp [hl, eq_comm]

end Classes

/-! ## The calls -/

namespace ScText

structure SameLinks (t t' : ScText R) : Prop where
  aliasOf : t'.aliasOf = t.aliasOf
  length : t'.elems.length = t.elems.length
  idmap : t'.idmap = t.idmap

namespace SameLinks

theorem refl (t : ScText R) : SameLinks t t := ⟨rfl, rfl, rfl⟩

theorem trans {t'' : ScText R} (s : SameLinks t t') (s' : SameLinks t' t'') :
    SameLinks t t'' :=
  ⟨s'.aliasOf.trans s.aliasOf, s'.length.trans s.length, s'.idmap.trans s.idmap⟩

theorem modify {f : ScElement R → ScElement R} (keeps : ∀ e, (f e).aliasRef = e.aliasRef)
    (ref : Ref) : SameLinks t (t.modify ref f) :=
  ⟨aliasOf_modify keeps ref, length_modify ref f, rfl⟩

theorem beginIsNode {left beg : Option Ref} (node : t.beginIsNode left beg = some t') :
    SameLinks t t' := by
  rw [ScText.beginIsNode] at node
  by_cases given : left.isSome
  · rw [if_pos given] at node
    cases beg with
    | none =>
      cases node
      exact .refl t
    | some l =>
      obtain ⟨r, hr, rfl⟩ := elementIsNode_eq node
      exact .modify (f := withType) (fun _ => rfl) r
  · rw [if_neg given] at node
    cases node
    exact .refl t

end SameLinks

end ScText

namespace Resolved

open ScText

theorem new : Resolved ([] : List (Event R)) .new where
  joined := .new
  arcs d mem := by cases mem
  classes r e he := by cases he

theorem arcs_cons (arcs : ArcsOnly h)
    (arc : d.left.isSome ∨ d.right.isSome → d.type &&& scArc ≠ 0) :
    ArcsOnly (.declared d :: h) := by
  intro d' mem ends
  rcases List.mem_cons.mp mem with same | mem
  · cases same
    exact arc ends
  · exact arcs d' mem ends

variable {id text : Idtf} {type : ElType} {left right : Option Ref} {ref : Ref}
  {contType : ContType} {lax : Bool}

theorem declareAgain (resolved : Resolved h t) {r : Ref} (hid : t.idmap id = some ref)
    (merge : t.mergeEl ref type left right = some (t', r))
    (arc : left.isSome ∨ right.isSome → type &&& scArc ≠ 0)
    (within : ∀ x ∈ left.toList ++ right.toList, x < t.elems.length) :
    Resolved (.declared ⟨some id, type, left, right, r⟩ :: h) t' := by
  obtain ⟨joined, arcs, classes⟩ := resolved
  obtain ⟨e, T, beg, fin, hr, he, hT, ends, node⟩ := mergeEl_eq merge
  have root := getRealElement_root hr
  have real := getRealElement_self root
  have data := classes r e he (by rwa [← aliasOf_of he])
  obtain ⟨hb, hf⟩ := mergeEnds_iff ends hT (data.arc arcs) arc
  have links : SameLinks t t' := by
    apply SameLinks.trans _ (.beginIsNode node)
    apply SameLinks.modify
    intro e
    rfl
  refine ⟨?_, arcs_cons arcs arc, ?_⟩
  · apply joined.frame links.aliasOf links.length links.idmap
    · intro id' ref' names
      cases names
      rw [itemReal, hid, Option.bind_some, hr, real]
    · intro x hx
      rcases List.mem_cons.mp hx with rfl | hx
      · exact lt_of_getElem? he
      · exact within x hx
  · have merged : Classes (.declared ⟨some id, type, left, right, r⟩ :: h) (BegunIn h)
        (t.modify r fun e => { e with type := T, beg := beg, fin := fin }) := by
      apply Classes.replace
      · intro e'
        rfl
      · intro e' he' _
        rw [he] at he'
        cases he'
        exact data.declared real hT hb hf rfl
      · intro x e' hx he' hreal
        apply (classes x e' he' hreal).declared_other
        rw [real]
        exact fun same => hx (Option.some.inj same).symm
    exact merged.begins node fun l hl => (hb l).mpr (.inr hl)

theorem length_addNew {id : Option Idtf} :
    (t.addNew id type left right).elems.length = t.elems.length + 1 := List.length_append

theorem idmap_addNew {id : Option Idtf} (id' : Idtf) :
    (t.addNew id type left right).idmap id' =
      if id = some id' then some t.elems.length else t.idmap id' := by
  cases id with
  | none => rfl
  | some id =>
    show Function.update t.idmap id (some t.elems.length) id' = _
    rw [Function.update_apply]
    simp only [Option.some.injEq, eq_comm]

theorem getElem?_addNew {id : Option Idtf} (x : Ref) :
    (t.addNew id type left right).elems[x]? =
      if x = t.elems.length then some ⟨id, type, none, left, right, .absent, [], none, 0⟩
      else t.elems[x]? := by
  show (t.elems ++ [_])[x]? = _
  by_cases hx : x = t.elems.length
  · rw [if_pos hx, hx, List.getElem?_concat_length]
  · rw [if_neg hx]
    rcases Nat.lt_or_ge x t.elems.length with lt | ge
    · rw [List.getElem?_append_left lt]
    · rw [List.getElem?_eq_none ge, List.getElem?_eq_none]
      rw [List.length_append]
      exact Nat.lt_of_le_of_ne ge (Ne.symm hx)

theorem aliasOf_addNew {id : Option Idtf} : (t.addNew id type left right).aliasOf = t.aliasOf := by
  funext x
  rw [aliasOf, aliasOf, getElem?_addNew]
  by_cases hx : x = t.elems.length
  · rw [if_pos hx, hx, List.getElem?_eq_none (Nat.le_refl _)]
    rfl
  · rw [if_neg hx]

theorem aliasOf_length : t.aliasOf t.elems.length = none := by
  rw [aliasOf, List.getElem?_eq_none (Nat.le_refl _)]
  rfl

theorem newData (joined : Joined h t) (id : Option Idtf) (type : ElType)
    (left right : Option Ref) :
    ClassData (.declared ⟨id, type, left, right, t.elems.length⟩ :: h) (BegunIn h)
      (fun m => t.getRealElement m = some t.elems.length)
      (⟨id, type, none, left, right, .absent, [], none, 0⟩ : ScElement R) := by
  have self := getRealElement_self (aliasOf_length (t := t))
  have old {m : Ref} (lt : m < t.elems.length)
      (hr : t.getRealElement m = some t.elems.length) : False :=
    Nat.lt_irrefl _ (joined.real_lt lt hr)
  have only (P : Declaration → Prop) :
      Declares (.declared ⟨id, type, left, right, t.elems.length⟩ :: h)
          (fun d => t.getRealElement d.ref = some t.elems.length ∧ P d)
        ↔ P ⟨id, type, left, right, t.elems.length⟩ := by
    rw [declares_cons]
    constructor
    · rintro (⟨_, p⟩ | ⟨d, mem, hr, _⟩)
      · exact p
      · exact (old (joined.within _ mem d.ref List.mem_cons_self) hr).elim
    · exact fun p => .inl ⟨self, p⟩
  constructor
  · refine ⟨type, false, ?_, ?_, rfl⟩
    · intro i
      rw [only]
    · constructor
      · intro no
        cases no
      · rintro ⟨l, ⟨d, mem, hl⟩, hr⟩
        apply (old (joined.within _ mem l _) hr).elim
        simp [Event.refs, hl]
  · intro l
    rw [only]
  · intro l
    rw [only]
  · intro v
    constructor
    · intro no
      cases no
    · rintro ⟨m, hr, s⟩
      have s : Standing h m v := s
      obtain ⟨content, mem⟩ := Standing.mem s
      exact (old (joined.within (.gave m content) mem m List.mem_cons_self) hr).elim

theorem declareNew (resolved : Resolved h t) {id : Option Idtf} (unknown : t.searchById id = none)
    (node : (t.addNew id type left right).beginIsNode left left = some t')
    (arc : left.isSome ∨ right.isSome → type &&& scArc ≠ 0)
    (within : ∀ x ∈ left.toList ++ right.toList, x < t.elems.length) :
    Resolved (.declared ⟨id, type, left, right, t.elems.length⟩ :: h) t' := by
  obtain ⟨joined, arcs, classes⟩ := resolved
  have links := SameLinks.beginIsNode node
  have same : t'.aliasOf = t.aliasOf := links.aliasOf.trans aliasOf_addNew
  have len : t'.elems.length = t.elems.length + 1 := links.length.trans length_addNew
  obtain ⟨s, rooted⟩ := joined.rooted
  have realNew : (t.addNew id type left right).getRealElement = t.getRealElement :=
    funext (getRealElement_congr rooted aliasOf_addNew)
  refine ⟨?_, arcs_cons arcs arc, ?_⟩
  · apply joined.grow same (by rw [len]; exact Nat.le_succ _)
    · intro id' ref hid
      rw [links.idmap, idmap_addNew, if_neg]
      · exact hid
      · rintro rfl
        rw [searchById, Option.bind_some, hid] at unknown
        cases unknown
    · intro id' ref hid
      rw [links.idmap, idmap_addNew] at hid
      by_cases hx : id = some id'
      · rw [if_pos hx] at hid
        cases hid
        refine .inr ⟨by rw [len]; exact Nat.lt_succ_self _, ?_⟩
        exact .edge List.mem_cons_self (by rw [Event.names, hx, Option.map_some])
      · rw [if_neg hx] at hid
        exact .inl hid
    · intro id' ref names
      obtain ⟨id'', rfl, names⟩ := Option.map_eq_some_iff.mp names
      cases names
      rw [itemReal, links.idmap, idmap_addNew, if_pos rfl, Option.bind_some]
    · intro x hx
      rw [len]
      rcases List.mem_cons.mp hx with rfl | hx
      · exact Nat.lt_succ_self _
      · exact Nat.lt_succ_of_lt (within x hx)
  · have added : Classes (.declared ⟨id, type, left, right, t.elems.length⟩ :: h) (BegunIn h)
        (t.addNew id type left right) := by
      intro x e he real
      rw [realNew]
      rw [getElem?_addNew] at he
      by_cases hx : x = t.elems.length
      · rw [if_pos hx] at he
        cases he
        subst hx
        exact newData joined id type left right
      · rw [if_neg hx] at he
        apply (classes x e he real).declared_other
        rw [getRealElement_self aliasOf_length]
        exact fun same => hx (Option.some.inj same).symm
    exact added.begins node fun _ hl => hl

theorem modify_modify (ref : Ref) (f g : ScElement R → ScElement R) :
    (t.modify ref f).modify ref g = t.modify ref fun e => g (f e) := by
  rw [ScText.modify, ScText.modify, ScText.modify, List.modify_modify_eq]
  rfl

theorem addCont_eq {scan : Idtf → Option R} (add : t.addCont scan ref text contType = some t') :
    ∃ r f, t.getRealElement ref = some r ∧ r < t.elems.length ∧ t' = t.modify r f ∧
      ∀ e, (f e).type = e.type ∧ (f e).beg = e.beg ∧ (f e).fin = e.fin ∧
        (f e).aliasRef = e.aliasRef ∧ (f e).content = contValue contType text (scan text) := by
  obtain ⟨r, hr, add⟩ := Option.bind_eq_some_iff.mp add
  obtain ⟨e, he, add⟩ := Option.bind_eq_some_iff.mp add
  have lt := lt_of_getElem? he
  have texts (given : some ((t.modify r fun e => { e with contType := contType }).modify r
      fun e => { e with str := text }) = some t')
      (isText : ∀ str x y, contValue contType str x = contValue (R := R) contType str y) :
      ∃ r f, t.getRealElement ref = some r ∧ r < t.elems.length ∧ t' = t.modify r f ∧
        ∀ e, (f e).type = e.type ∧ (f e).beg = e.beg ∧ (f e).fin = e.fin ∧
          (f e).aliasRef = e.aliasRef ∧ (f e).content = contValue contType text (scan text) := by
    rw [modify_modify] at given
    cases given
    exact ⟨r, _, hr, lt, rfl, fun e => ⟨rfl, rfl, rfl, rfl, isText _ _ _⟩⟩
  cases contType with
  | absent =>
    cases add
    exact ⟨r, _, hr, lt, rfl, fun e => ⟨rfl, rfl, rfl, rfl, rfl⟩⟩
  | string => exact texts add fun _ _ _ => rfl
  | data => exact texts add fun _ _ _ => rfl
  | file => exact texts add fun _ _ _ => rfl
  | numeric =>
    obtain ⟨x, hx, add⟩ := Option.bind_eq_some_iff.mp add
    rw [modify_modify] at add
    cases add
    exact ⟨r, _, hr, lt, rfl, fun e => ⟨rfl, rfl, rfl, rfl, by rw [hx]; rfl⟩⟩

theorem give (resolved : Resolved h t) {scan : Idtf → Option R}
    (add : t.addCont scan ref text contType = some t') (within : ref < t.elems.length) :
    Resolved (.gave ref (contValue contType text (scan text)) :: h) t' := by
  obtain ⟨joined, arcs, classes⟩ := resolved
  obtain ⟨r, f, hr, lt, rfl, parts⟩ := addCont_eq add
  have keeps (e : ScElement R) : (f e).aliasRef = e.aliasRef := (parts e).2.2.2.1
  have links := SameLinks.modify (t := t) keeps r
  have begun : BegunIn (.gave ref (contValue contType text (scan text)) :: h) = BegunIn h :=
    funext fun _ => propext declares_gave
  refine ⟨?_, ?_, ?_⟩
  · apply joined.frame links.aliasOf links.length links.idmap
    · intro id' ref' names
      cases names
    · intro x hx
      cases List.mem_singleton.mp hx
      exact within
  · intro d mem ends
    rcases List.mem_cons.mp mem with same | mem
    · cases same
    · exact arcs d mem ends
  · rw [begun]
    apply Classes.replace keeps
    · intro e he real
      obtain ⟨type, beg, fin, -, content⟩ := parts e
      apply (classes r e he real).gave type beg fin
      intro v
      rw [content]
      constructor
      · intro hv
        exact ⟨ref, hr, .inl ⟨rfl, hv⟩⟩
      · rintro ⟨m, hm, ⟨rfl, hv⟩ | ⟨apart, -⟩⟩
        · exact hv
        · exact absurd ((joined.real_connected hm).trans (joined.real_connected hr).symm) apart
    · intro x e hx he real
      have data := classes x e he real
      apply data.gave rfl rfl rfl
      intro v
      rw [data.content v]
      constructor
      · rintro ⟨m, hm, s⟩
        refine ⟨m, hm, .inr ⟨?_, s⟩⟩
        intro c
        have same : t.getRealElement m = t.getRealElement ref := joined.real_eq c
        rw [hm, hr] at same
        exact hx (Option.some.inj same)
      · rintro ⟨m, hm, ⟨rfl, -⟩ | ⟨-, s⟩⟩
        · rw [hr] at hm
          exact absurd (Option.some.inj hm).symm hx
        · exact ⟨m, hm, s⟩

theorem takeContent_eq {b : Ref} {e : ScElement R} (take : t.takeContent b e = some t') :
    ∃ f, t' = t.modify b f ∧
      (∀ e, (f e).type = e.type ∧ (f e).beg = e.beg ∧ (f e).fin = e.fin ∧
        (f e).aliasRef = e.aliasRef) ∧
      ∀ e₂, t.elems[b]? = some e₂ →
        ∀ v, (f e₂).content = some v ↔ e₂.content = some v ∨ e.content = some v := by
  rw [takeContent] at take
  by_cases absent : e.contType = .absent
  · rw [if_pos absent] at take
    cases take
    refine ⟨id, (modify_self fun _ _ => rfl).symm, fun _ => ⟨rfl, rfl, rfl, rfl⟩, ?_⟩
    intro e₂ _ v
    have no : e.content = none := contValue_none.mpr absent
    rw [no]
    simp
  · rw [if_neg absent] at take
    obtain ⟨e₂, he₂, take⟩ := Option.bind_eq_some_iff.mp take
    by_cases absent₂ : e₂.contType = .absent
    · rw [if_neg (not_not_intro absent₂)] at take
      cases take
      refine ⟨_, rfl, fun _ => ⟨rfl, rfl, rfl, rfl⟩, ?_⟩
      intro e₃ he₃ v
      rw [he₂] at he₃
      cases he₃
      have no : e₂.content = none := contValue_none.mpr absent₂
      rw [no]
      simp only [ScElement.content, reduceCtorEq, false_or]
    · rw [if_pos absent₂] at take
      cases take

theorem mergeEl_real (resolved : Resolved h t) {a b r : Ref} {e : ScElement R}
    (he : t.elems[a]? = some e) (ha : t.aliasOf a = none) (hb : t.aliasOf b = none)
    (merge : t.mergeEl b e.type e.beg e.fin = some (t', r)) :
    ∃ e₂ T beg fin, t.elems[b]? = some e₂ ∧ mergeTypes e₂.type e.type = some T ∧
      (∀ l, beg = some l ↔ e₂.beg = some l ∨ e.beg = some l) ∧
      (∀ l, fin = some l ↔ e₂.fin = some l ∨ e.fin = some l) ∧
      t' = t.modify b fun e => { e with type := T, beg := beg, fin := fin } := by
  obtain ⟨joined, arcs, classes⟩ := resolved
  obtain ⟨e₂, T, beg, fin, hr, he₂, hT, ends, node⟩ := mergeEl_eq merge
  rw [getRealElement_self hb] at hr
  cases hr
  have data := classes a e he (by rwa [← aliasOf_of he])
  have data₂ := classes b e₂ he₂ (by rwa [← aliasOf_of he₂])
  obtain ⟨hbeg, hfin⟩ := mergeEnds_iff ends hT (data₂.arc arcs) (data.arc arcs)
  refine ⟨e₂, T, beg, fin, he₂, hT, hbeg, hfin, ?_⟩
  cases hl : e.beg with
  | none =>
    rw [hl] at node
    cases node
    rfl
  | some l =>
    rw [hl, (hbeg l).mpr (.inr hl), beginIsNode, if_pos (by rfl)] at node
    obtain ⟨r, hr, rfl⟩ := elementIsNode_eq node
    have real : (t.modify b fun e =>
        { e with type := T, beg := some l, fin := fin }).getRealElement = t.getRealElement := by
      apply getRealElement_modify
      intro e
      rfl
    rw [real] at hr
    have begun : BegunIn h l := by
      obtain ⟨d, mem, _, hd⟩ := (data.beg l).mp hl
      exact ⟨d, mem, hd⟩
    -- an arc begins at the class of `l` already, so that it is a node where it can be
    rw [(hbeg l).mpr (.inr hl)]
    apply modify_self
    intro e' he'
    rw [getElem?_modify] at he'
    have again : (mergeTypes e'.type scNode).getD e'.type = e'.type := by
      by_cases hx : b = r
      · subst hx
        rw [if_pos rfl, he₂] at he'
        cases he'
        exact (data.type.join data₂.type hT).begun_again begun (.inl hr)
      · rw [if_neg hx] at he'
        have data' := classes r e' he' (by rw [← aliasOf_of he', getRealElement_root hr])
        exact data'.type.begun_again begun hr
    rw [withType, again]

theorem join (resolved : Resolved h t) {a b : Ref}
    (join : t.joinElements a b = some t') (ha : t.aliasOf a = none) (hb : t.aliasOf b = none)
    (ne : a ≠ b)
    (ends : t.itemReal (.inl id) = some a ∧ t.getRealElement ref = some b ∨
      t.itemReal (.inl id) = some b ∧ t.getRealElement ref = some a)
    (within : ref < t.elems.length) : Resolved (.aliased id ref :: h) t' := by
  obtain ⟨e, he, join⟩ := Option.bind_eq_some_iff.mp join
  obtain ⟨⟨t₁, r⟩, merge, take⟩ := Option.bind_eq_some_iff.mp join
  obtain ⟨e₂, T, beg, fin, he₂, hT, hbeg, hfin, rfl⟩ := mergeEl_real resolved he ha hb merge
  obtain ⟨f, rfl, keeps, content⟩ := takeContent_eq take
  obtain ⟨joined, arcs, classes⟩ := resolved
  have data := classes a e he (by rwa [← aliasOf_of he])
  have data₂ := classes b e₂ he₂ (by rwa [← aliasOf_of he₂])
  have lt := lt_of_getElem? he
  have lt₂ := lt_of_getElem? he₂
  have begunIn : BegunIn (.aliased id ref :: h) = BegunIn h :=
    funext fun _ => propext declares_aliased
  set merged := t.modify b fun e => { e with type := T, beg := beg, fin := fin } with hmerged
  have get (x : Ref) : ((merged.modify a fun e => { e with aliasRef := some b }).modify b
    f).elems[x]?
      = if b = x then some (f { e₂ with type := T, beg := beg, fin := fin })
        else if a = x then some { e with aliasRef := some b } else t.elems[x]? := by
    rw [getElem?_modify, getElem?_modify, hmerged, getElem?_modify]
    by_cases hx : b = x
    · subst hx
      rw [if_pos rfl, if_pos rfl, if_pos rfl, if_neg ne, he₂]
      rfl
    · rw [if_neg hx, if_neg hx, if_neg hx]
      by_cases hxa : a = x
      · subst hxa
        rw [if_pos rfl, if_pos rfl, he]
        rfl
      · rw [if_neg hxa, if_neg hxa]
  have same : ((merged.modify a fun e => { e with aliasRef := some b }).modify b f).aliasOf
      = Function.update t.aliasOf a (some b) := by
    rw [aliasOf_modify fun e => (keeps e).2.2.2, aliasOf_modify_link]
    · rw [hmerged, aliasOf_modify]
      intro e
      rfl
    · rwa [hmerged, length_modify]
  generalize ht : (merged.modify a fun e => { e with aliasRef := some b }).modify b f = t' at *
  have len : t'.elems.length = t.elems.length := by
    rw [← ht, length_modify, length_modify, hmerged, length_modify]
  have idmap : t'.idmap = t.idmap := by
    rw [← ht]
    rfl
  obtain ⟨-, real⟩ := joined.link_real ha hb ne same
  refine ⟨?_, ?_, ?_⟩
  · apply joined.link ha hb ne lt₂ same len idmap
    · have named : Connected (.aliased id ref :: h) (.inl id) (.inr ref) :=
        .edge List.mem_cons_self rfl
      rcases ends with ⟨hid, hr⟩ | ⟨hid, hr⟩
      · have cid := (joined.item_connected hid).weaken (.aliased id ref)
        have cref := (joined.real_connected hr).weaken (.aliased id ref)
        exact cid.symm.trans (named.trans cref)
      · have cid := (joined.item_connected hid).weaken (.aliased id ref)
        have cref := (joined.real_connected hr).weaken (.aliased id ref)
        exact cref.symm.trans (named.symm.trans cid)
    · intro id' ref' names
      cases names
      rw [itemReal, idmap]
      rcases ends with ⟨hid, hr⟩ | ⟨hid, hr⟩
      · obtain ⟨ref', hid, hr'⟩ := Option.bind_eq_some_iff.mp hid
        rw [hid, Option.bind_some, real ref' a hr', real ref b hr, if_pos rfl,
          if_neg (Ne.symm ne)]
      · obtain ⟨ref', hid, hr'⟩ := Option.bind_eq_some_iff.mp hid
        rw [hid, Option.bind_some, real ref' b hr', real ref a hr, if_pos rfl,
          if_neg (Ne.symm ne)]
    · intro x hx
      cases List.mem_singleton.mp hx
      exact within
  · intro d mem ends
    rcases List.mem_cons.mp mem with hd | mem
    · cases hd
    · exact arcs d mem ends
  · rw [begunIn]
    intro x e' he' root
    rw [get x] at he'
    by_cases hx : b = x
    · subst hx
      rw [if_pos rfl] at he'
      cases he'
      obtain ⟨type, hb', hf', -⟩ := keeps { e₂ with type := T, beg := beg, fin := fin }
      apply ClassData.aliased
      apply ClassData.members (data.join data₂ _ _ _ _)
      · intro m
        obtain ⟨r, hr⟩ := joined.total m
        rw [real m r hr, hr]
        by_cases hra : r = a
        · simp [hra]
        · simp [hra]
      · rw [hT, type]
      · intro l
        rw [hb']
        exact hbeg l
      · intro l
        rw [hf']
        exact hfin l
      · apply content
        rw [getElem?_modify, if_neg ne, hmerged, getElem?_modify, if_pos rfl, he₂]
        rfl
    · rw [if_neg hx] at he'
      by_cases hxa : a = x
      · subst hxa
        rw [if_pos rfl] at he'
        cases he'
        cases root
      · rw [if_neg hxa] at he'
        apply ClassData.aliased
        apply (classes x e' he' root).members
        intro m
        obtain ⟨r, hr⟩ := joined.total m
        rw [real m r hr, hr]
        by_cases hra : r = a
        · simp [hra, hx, hxa]
        · simp [hra]

theorem arcs_aliased (arcs : ArcsOnly h) (id : Idtf) (ref : Ref) :
    ArcsOnly (.aliased id ref :: h) := by
  intro d mem ends
  rcases List.mem_cons.mp mem with hd | mem
  · cases hd
  · exact arcs d mem ends

theorem classes_aliased (classes : Classes h (BegunIn h) t) (id : Idtf) (ref : Ref) :
    Classes (.aliased id ref :: h) (BegunIn (.aliased id ref :: h)) t := by
  have begun : BegunIn (.aliased id ref :: h) = BegunIn h :=
    funext fun _ => propext declares_aliased
  rw [begun]
  intro x e he real
  exact (classes x e he real).aliased id ref

theorem aliasAgain (resolved : Resolved h t) (same : t.itemReal (.inl id) = t.getRealElement ref)
    (within : ref < t.elems.length) : Resolved (.aliased id ref :: h) t := by
  obtain ⟨joined, arcs, classes⟩ := resolved
  refine ⟨?_, arcs_aliased arcs id ref, classes_aliased classes id ref⟩
  apply joined.frame rfl rfl rfl
  · intro id' ref' names
    cases names
    exact same
  · intro x hx
    cases List.mem_singleton.mp hx
    exact within

theorem idmap_createIdPair (id id' : Idtf) (r : Ref) :
    (t.createIdPair id r).idmap id' = if id' = id then some r else t.idmap id' :=
  Function.update_apply ..

section

variable (resolved : Resolved h t)
include resolved

theorem nameNew {r : Ref} (unknown : t.idmap id = none) (hr : t.getRealElement ref = some r)
    (within : ref < t.elems.length) : Resolved (.aliased id ref :: h) (t.createIdPair id r) := by
  obtain ⟨joined, arcs, classes⟩ := resolved
  have real : (t.createIdPair id r).getRealElement = t.getRealElement := rfl
  have same : (t.createIdPair id r).aliasOf = t.aliasOf := rfl
  have now : (t.createIdPair id r).idmap id = some r := by
    rw [idmap_createIdPair, if_pos rfl]
  refine ⟨?_, arcs_aliased arcs id ref, classes_aliased classes id ref⟩
  apply joined.grow same (Nat.le_refl _)
  · intro id' ref' hid
    rw [idmap_createIdPair, if_neg]
    · exact hid
    · rintro rfl
      rw [unknown] at hid
      cases hid
  · intro id' ref' hid
    by_cases hx : id' = id
    · subst hx
      rw [now] at hid
      cases hid
      refine .inr ⟨joined.real_lt within hr, ?_⟩
      have named : Connected (.aliased id' ref :: h) (.inl id') (.inr ref) :=
        .edge List.mem_cons_self rfl
      exact named.trans ((joined.real_connected hr).weaken _)
    · rw [idmap_createIdPair, if_neg hx] at hid
      exact .inl hid
  · intro id' ref' names
    cases names
    rw [itemReal, now, real, Option.bind_some, hr]
    exact getRealElement_self (getRealElement_root hr)
  · intro x hx
    cases List.mem_singleton.mp hx
    exact within

theorem rename (ref : Ref) (id : Option Idtf) :
    Resolved h (t.modify ref fun e => { e with id := id }) := by
  obtain ⟨joined, arcs, classes⟩ := resolved
  have links : SameLinks t (t.modify ref fun e => { e with id := id }) := by
    apply SameLinks.modify
    intro e
    rfl
  have real : (t.modify ref fun e => { e with id := id }).getRealElement = t.getRealElement := by
    apply getRealElement_modify
    intro e
    rfl
  refine ⟨⟨?_, ?_, ?_, ?_, ?_⟩, arcs, ?_⟩
  · rw [links.aliasOf]
    exact joined.rooted
  · rw [links.aliasOf, links.length]
    exact joined.target
  · rw [links.idmap, links.length]
    exact joined.known
  · intro ev mem id' ref' names
    rw [itemReal, links.idmap, real]
    exact joined.named ev mem id' ref' names
  · rw [links.length]
    exact joined.within
  · apply Classes.replace
    · intro e
      rfl
    · intro e he root
      exact (classes ref e he root).congr rfl rfl rfl rfl
    · intro x e _
      exact classes x e

theorem aliasOther {r other : Ref} {e : ScElement R} (add : t.aliasOther r e other = some t')
    (hid : t.itemReal (.inl id) = t.getRealElement other) (hr : t.getRealElement ref = some r)
    (within : ref < t.elems.length) : Resolved (.aliased id ref :: h) t' := by
  have root := getRealElement_root hr
  rw [ScText.aliasOther] at add
  by_cases same : other = r
  · rw [if_pos same] at add
    cases add
    apply resolved.aliasAgain _ within
    rw [hid, same, hr, getRealElement_self root]
  · rw [if_neg same] at add
    by_cases special : isSpecialElement r || isSpecialElement other
    · rw [if_pos special] at add
      cases add
    · rw [if_neg special] at add
      obtain ⟨real, hreal, add⟩ := Option.bind_eq_some_iff.mp add
      have root' := getRealElement_root hreal
      by_cases same' : real = r
      · rw [if_pos same'] at add
        cases add
        apply resolved.aliasAgain _ within
        rw [hid, hreal, same', hr]
      · rw [if_neg same'] at add
        by_cases named : isNamed e
        · rw [if_pos named] at add
          exact resolved.join add root' root same' (.inl ⟨hid.trans hreal, hr⟩) within
        · rw [if_neg named] at add
          exact resolved.join add root root' (Ne.symm same') (.inr ⟨hid.trans hreal, hr⟩) within

theorem aliasNew {r : Ref} {e : ScElement R} (add : t.aliasNew lax id r e = some t')
    (unknown : t.idmap id = none) (hr : t.getRealElement ref = some r)
    (within : ref < t.elems.length) : Resolved (.aliased id ref :: h) t' := by
  rw [ScText.aliasNew] at add
  by_cases constancy : !lax && e.type &&& (scConstancyMask - aliasType id) ≠ 0
  · rw [if_pos constancy] at add
    cases add
  · rw [if_neg constancy] at add
    by_cases unnamed : isUnnamed e
    · rw [if_pos unnamed] at add
      cases add
      have real : (t.modify r fun e => { e with id := some id }).getRealElement
          = t.getRealElement := by
        apply getRealElement_modify
        intro e
        rfl
      apply (resolved.rename r (some id)).nameNew unknown
      · rwa [real]
      · rwa [length_modify]
    · rw [if_neg unnamed] at add
      cases add
      exact resolved.nameNew unknown hr within

theorem addAlias (add : t.addAlias lax id ref = some t') (within : ref < t.elems.length) :
    Resolved (.aliased id ref :: h) t' := by
  obtain ⟨r, hr, add⟩ := Option.bind_eq_some_iff.mp add
  obtain ⟨e, he, add⟩ := Option.bind_eq_some_iff.mp add
  cases hid : t.idmap id with
  | none =>
    have search : t.searchById (some id) = none := hid
    rw [search] at add
    exact resolved.aliasNew add hid hr within
  | some other =>
    have search : t.searchById (some id) = some other := hid
    rw [search] at add
    apply resolved.aliasOther add _ hr within
    rw [itemReal, hid, Option.bind_some]

theorem declare {id : Option Idtf} (add : t.addElFull id type left right = some (t', ref))
    (arc : left.isSome ∨ right.isSome → type &&& scArc ≠ 0)
    (within : ∀ x ∈ left.toList ++ right.toList, x < t.elems.length) :
    Resolved (.declared ⟨id, type, left, right, ref⟩ :: h) t' := by
  rw [addElFull] at add
  by_cases full : t.elems.length = sctextMaxsize
  · rw [if_pos full] at add
    cases add
  · rw [if_neg full] at add
    cases search : t.searchById id with
    | none =>
      rw [search] at add
      obtain ⟨t₁, node, last⟩ := Option.bind_eq_some_iff.mp add
      cases last
      exact resolved.declareNew search node arc within
    | some ref₀ =>
      rw [search] at add
      obtain ⟨id, rfl, hid⟩ := Option.bind_eq_some_iff.mp search
      exact resolved.declareAgain hid add arc within

theorem exec {scan : Idtf → Option R} {call : ScCall} (run : t.exec scan lax call = some (t', ev))
    (arcs : call.arcsOnly = true) : Resolved (ev :: h) t' := by
  rw [ScText.exec.eq_def] at run
  by_cases known : call.refs.all (· < t.elems.length)
  · rw [if_pos known] at run
    have within : ∀ x ∈ call.refs, x < t.elems.length := by
      intro x hx
      exact of_decide_eq_true (List.all_eq_true.mp known x hx)
    cases call with
    | addElFull id type left right =>
      obtain ⟨⟨t₁, ref⟩, add, last⟩ := Option.bind_eq_some_iff.mp run
      cases last
      apply resolved.declare add _ within
      intro ends
      rcases Bool.or_eq_true_iff.mp arcs with no | arc
      · simp only [Bool.and_eq_true, Option.isNone_iff_eq_none] at no
        rw [no.1, no.2] at ends
        simp at ends
      · exact of_decide_eq_true arc
    | addArc left con right id =>
      obtain ⟨⟨t₁, ref⟩, add, last⟩ := Option.bind_eq_some_iff.mp run
      cases last
      apply resolved.declare add _ within
      intro _
      exact arc_or_right (by decide)
    | addAlias id ref =>
      obtain ⟨t₁, add, last⟩ := Option.bind_eq_some_iff.mp run
      cases last
      exact resolved.addAlias add (within ref (List.mem_singleton.mpr rfl))
    | addCont ref text contType =>
      obtain ⟨t₁, add, last⟩ := Option.bind_eq_some_iff.mp run
      cases last
      exact resolved.give add (within ref (List.mem_singleton.mpr rfl))
  · rw [if_neg known] at run
    cases run

theorem run {scan : Idtf → Option R} {calls : List ScCall} {h' : List (Event R)}
    (run : t.run scan lax calls h = some (t', h')) (arcs : ∀ call ∈ calls, call.arcsOnly = true) :
    Resolved h' t' := by
  induction calls generalizing t h with
  | nil =>
    cases run
    exact resolved
  | cons call calls ih =>
    obtain ⟨⟨t₁, ev⟩, step, run⟩ := Option.bind_eq_some_iff.mp run
    apply ih (resolved.exec step (arcs call List.mem_cons_self)) run
    intro call' mem
    exact arcs call' (List.mem_cons_of_mem call mem)

end

end Resolved

end ScCore.Scs
