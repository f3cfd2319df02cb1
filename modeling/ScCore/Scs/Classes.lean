import ScCore.Scs.Aliases

/-!
# What a class of elements has

The real element of a class has the types that its members were declared with, and is a
node as well when an arc begins at one of them and its other types leave room. Its begin
and end are those that its members were declared with, its content is the last one given.
-/

namespace ScCore.Scs

variable {R : Type} {h : List (Event R)} {ev : Event R}

variable {a b : ElType}

theorem countBits_mono (sub : ∀ i, a.getLsbD i = true → b.getLsbD i = true) :
    countBits a ≤ countBits b :=
  List.countP_mono_left fun i _ ha => sub i ha

theorem fits_of_or (fit : fits (a ||| b) = true) : fits a = true := by
  have mono (m : ElType) : countBits (a &&& m) ≤ countBits ((a ||| b) &&& m) := by
    apply countBits_mono
    intro i hi
    rw [BitVec.getLsbD_and, Bool.and_eq_true] at hi
    rw [BitVec.getLsbD_and, BitVec.getLsbD_or, hi.1, hi.2]
    rfl
  simp only [fits, Bool.and_eq_true, decide_eq_true_eq] at fit ⊢
  have constancy := mono scConstancyMask
  have fuzzyness := mono scFuzzynessMask
  have generic := mono scGenericTypeMask
  omega

/-- The type of a class whose members were declared with the types `declared`; `named` when
an arc begins at a member. -/
def classType (declared : ElType) (named : Bool) : ElType :=
  if named && fits (declared ||| scNode) then declared ||| scNode else declared

theorem mergeTypes_some {T : ElType} (merge : mergeTypes a b = some T) :
    T = a ||| b ∧ fits T = true := by
  rw [mergeTypes] at merge
  by_cases fit : fits (a ||| b) = true
  · rw [if_pos fit] at merge
    cases merge
    exact ⟨rfl, fit⟩
  · rw [if_neg fit] at merge
    cases merge

theorem classType_join {D D' T : ElType} {named named' : Bool}
    (merge : mergeTypes (classType D named) (classType D' named') = some T) :
    T = classType (D ||| D') (named || named') := by
  obtain ⟨rfl, fit⟩ := mergeTypes_some merge
  have comm : (D ||| scNode) ||| D' = (D ||| D') ||| scNode := by ac_rfl
  have both : (D ||| scNode) ||| (D' ||| scNode) = (D ||| D') ||| scNode := by
    rw [← BitVec.or_assoc, comm, BitVec.or_assoc, BitVec.or_self]
  have comm' : D ||| (D' ||| scNode) = (D ||| D') ||| scNode := by ac_rfl
  rw [classType, classType] at fit ⊢
  rw [classType]
  by_cases room : (named && fits (D ||| scNode)) = true
  · have hn := (Bool.and_eq_true ..  ▸ room).1
    rw [if_pos room] at fit ⊢
    by_cases room' : (named' && fits (D' ||| scNode)) = true
    · rw [if_pos room', both] at fit ⊢
      rw [hn, Bool.true_or, Bool.true_and, if_pos fit]
    · rw [if_neg room', comm] at fit ⊢
      rw [hn, Bool.true_or, Bool.true_and, if_pos fit]
  · rw [if_neg room] at fit ⊢
    by_cases room' : (named' && fits (D' ||| scNode)) = true
    · have hn := (Bool.and_eq_true ..  ▸ room').1
      rw [if_pos room', comm'] at fit ⊢
      rw [hn, Bool.or_true, Bool.true_and, if_pos fit]
    · rw [if_neg room', if_neg]
      intro all
      obtain ⟨or, fit⟩ := Bool.and_eq_true_iff.mp all
      rcases Bool.or_eq_true_iff.mp or with hn | hn
      · rw [← comm] at fit
        exact room (Bool.and_eq_true_iff.mpr ⟨hn, fits_of_or fit⟩)
      · rw [← comm', BitVec.or_comm] at fit
        exact room' (Bool.and_eq_true_iff.mpr ⟨hn, fits_of_or fit⟩)

theorem classType_name (D : ElType) (named : Bool) :
    (mergeTypes (classType D named) scNode).getD (classType D named) = classType D true := by
  have self : (D ||| scNode) ||| scNode = D ||| scNode := by
    rw [BitVec.or_assoc, BitVec.or_self]
  rw [mergeTypes, classType, classType, Bool.true_and]
  by_cases fit : fits (D ||| scNode) = true
  · cases named with
    | true => simp [fit, self]
    | false => simp [fit]
  · cases named with
    | true => simp [fit]
    | false => simp [fit]

theorem arc_iff (T : ElType) : T &&& scArc ≠ 0 ↔ T.getLsbD 1 = true := by
  have bit : T &&& scArc = if T.getLsbD 1 then scArc else 0 := by
    apply BitVec.eq_of_getLsbD_eq
    intro i hi
    rw [BitVec.getLsbD_and]
    by_cases h1 : i = 1
    · subst h1
      cases T.getLsbD 1 <;> rfl
    · have off : scArc.getLsbD i = false := by
        revert h1
        revert i
        decide
      rw [off, Bool.and_false]
      cases T.getLsbD 1 with
      | true => exact off.symm
      | false => simp
  rw [bit]
  cases T.getLsbD 1 <;> decide

theorem arc_or_left (arc : a &&& scArc ≠ 0) : (a ||| b) &&& scArc ≠ 0 := by
  rw [arc_iff] at arc ⊢
  rw [BitVec.getLsbD_or, arc, Bool.true_or]

theorem arc_or_right (arc : b &&& scArc ≠ 0) : (a ||| b) &&& scArc ≠ 0 := by
  rw [BitVec.or_comm]
  exact arc_or_left arc

/-- A declaration with `P` was made. -/
def Declares (h : List (Event R)) (P : Declaration → Prop) : Prop :=
  ∃ d, .declared d ∈ h ∧ P d

/-- The content `v` was given to `m`, and none to its class since. -/
def Standing : List (Event R) → Ref → ContValue R → Prop
  | [], _, _ => False
  | .gave ref content :: h, m, v =>
      m = ref ∧ content = some v ∨ ¬Connected h (.inr m) (.inr ref) ∧ Standing h m v
  | .declared _ :: h, m, v => Standing h m v
  | .aliased _ _ :: h, m, v => Standing h m v

def ArcsOnly (h : List (Event R)) : Prop :=
  ∀ d, .declared d ∈ h → d.left.isSome ∨ d.right.isSome → d.type &&& scArc ≠ 0

/-- The type of a class is `T`; arcs begin at `Begun`. -/
def TypeData (h : List (Event R)) (Begun Member : Ref → Prop) (T : ElType) : Prop :=
  ∃ D named,
    (∀ i, D.getLsbD i = true ↔ Declares h fun d => Member d.ref ∧ d.type.getLsbD i = true) ∧
      (named = true ↔ ∃ l, Begun l ∧ Member l) ∧ T = classType D named

/-- `e` has what the members of a class were declared with. -/
structure ClassData (h : List (Event R)) (Begun Member : Ref → Prop) (e : ScElement R) :
    Prop where
  type : TypeData h Begun Member e.type
  beg : ∀ l, e.beg = some l ↔ Declares h fun d => Member d.ref ∧ d.left = some l
  fin : ∀ l, e.fin = some l ↔ Declares h fun d => Member d.ref ∧ d.right = some l
  content : ∀ v, e.content = some v ↔ ∃ m, Member m ∧ Standing h m v

variable {P : Declaration → Prop} {d : Declaration}

theorem declares_cons : Declares (.declared d :: h) P ↔ P d ∨ Declares h P := by
  constructor
  · rintro ⟨d', mem, p⟩
    rcases List.mem_cons.mp mem with same | mem
    · cases same
      exact .inl p
    · exact .inr ⟨d', mem, p⟩
  · rintro (p | ⟨d', mem, p⟩)
    · exact ⟨d, List.mem_cons_self, p⟩
    · exact ⟨d', List.mem_cons_of_mem _ mem, p⟩

theorem declares_aliased {id : Idtf} {ref : Ref} :
    Declares (.aliased id ref :: h) P ↔ Declares h P := by
  simp [Declares]

theorem declares_gave {ref : Ref} {content : Option (ContValue R)} :
    Declares (.gave ref content :: h) P ↔ Declares h P := by
  simp [Declares]

theorem declares_or {M M' : Ref → Prop} :
    Declares h (fun d => (M d.ref ∨ M' d.ref) ∧ P d)
      ↔ Declares h (fun d => M d.ref ∧ P d) ∨ Declares h fun d => M' d.ref ∧ P d := by
  constructor
  · rintro ⟨d, mem, m | m, p⟩
    · exact .inl ⟨d, mem, m, p⟩
    · exact .inr ⟨d, mem, m, p⟩
  · rintro (⟨d, mem, m, p⟩ | ⟨d, mem, m, p⟩)
    · exact ⟨d, mem, .inl m, p⟩
    · exact ⟨d, mem, .inr m, p⟩

theorem Standing.mem {m : Ref} {v : ContValue R} (s : Standing h m v) :
    ∃ content, .gave m content ∈ h := by
  induction h with
  | nil => cases s
  | cons ev h ih =>
    have old (s : Standing h m v) : ∃ content, .gave m content ∈ ev :: h := by
      obtain ⟨content, mem⟩ := ih s
      exact ⟨content, List.mem_cons_of_mem ev mem⟩
    cases ev with
    | declared d => exact old s
    | aliased id ref => exact old s
    | gave ref content =>
      rcases s with ⟨rfl, _⟩ | ⟨_, s⟩
      · exact ⟨content, List.mem_cons_self⟩
      · exact old s

theorem contValue_none {contType : ContType} {str : Idtf} {x : Option R} :
    contValue contType str x = none ↔ contType = .absent := by
  cases contType <;> simp [contValue]

namespace TypeData

variable {Begun Member Member' : Ref → Prop} {T T' T'' : ElType}

theorem begun_again (data : TypeData h Begun Member T) {l : Ref} (begun : Begun l)
    (member : Member l) : (mergeTypes T scNode).getD T = T := by
  obtain ⟨D, named, bits, hn, rfl⟩ := data
  have hn := hn.mpr ⟨l, begun, member⟩
  rw [classType_name, hn]

theorem join (data : TypeData h Begun Member T) (data' : TypeData h Begun Member' T')
    (merge : mergeTypes T' T = some T'') :
    TypeData h Begun (fun x => Member' x ∨ Member x) T'' := by
  obtain ⟨D, named, bits, hn, rfl⟩ := data
  obtain ⟨D', named', bits', hn', rfl⟩ := data'
  refine ⟨D' ||| D, named' || named, ?_, ?_, classType_join merge⟩
  · intro i
    rw [BitVec.getLsbD_or, Bool.or_eq_true, declares_or, bits i, bits' i]
  · rw [Bool.or_eq_true, hn, hn']
    constructor
    · rintro (⟨l, hb, hm⟩ | ⟨l, hb, hm⟩)
      · exact ⟨l, hb, .inl hm⟩
      · exact ⟨l, hb, .inr hm⟩
    · rintro ⟨l, hb, hm | hm⟩
      · exact .inl ⟨l, hb, hm⟩
      · exact .inr ⟨l, hb, hm⟩

end TypeData

namespace ClassData

variable {Begun Member Member' : Ref → Prop} {e e' : ScElement R}

section

variable (data : ClassData h Begun Member e)
include data

theorem congr (type : e'.type = e.type) (beg : e'.beg = e.beg) (fin : e'.fin = e.fin)
    (content : e'.content = e.content) : ClassData h Begun Member e' := by
  constructor
  · rw [type]
    exact data.type
  · rw [beg]
    exact data.beg
  · rw [fin]
    exact data.fin
  · rw [content]
    exact data.content

theorem members (same : ∀ x, Member' x ↔ Member x) : ClassData h Begun Member' e := by
  have eq : Member' = Member := funext fun x => propext (same x)
  rwa [eq]

theorem arc (arcs : ArcsOnly h) (ends : e.beg.isSome ∨ e.fin.isSome) : e.type &&& scArc ≠ 0 := by
  have given : Declares h fun d => Member d.ref ∧ d.type.getLsbD 1 = true := by
    rcases ends with ends | ends
    · obtain ⟨l, hl⟩ := Option.isSome_iff_exists.mp ends
      obtain ⟨d, mem, hm, hd⟩ := (data.beg l).mp hl
      exact ⟨d, mem, hm, (arc_iff _).mp (arcs d mem (.inl (hd ▸ rfl)))⟩
    · obtain ⟨l, hl⟩ := Option.isSome_iff_exists.mp ends
      obtain ⟨d, mem, hm, hd⟩ := (data.fin l).mp hl
      exact ⟨d, mem, hm, (arc_iff _).mp (arcs d mem (.inr (hd ▸ rfl)))⟩
  obtain ⟨D, named, bits, -, type⟩ := data.type
  have bit := (arc_iff D).mpr ((bits 1).mpr given)
  rw [type, classType]
  by_cases room : (named && fits (D ||| scNode)) = true
  · rw [if_pos room]
    exact arc_or_left bit
  · rwa [if_neg room]

theorem begun (l : Ref) :
    (Member l → ClassData h (fun x => Begun x ∨ x = l) Member
      { e with type := (mergeTypes e.type scNode).getD e.type }) ∧
    (¬Member l → ClassData h (fun x => Begun x ∨ x = l) Member e) := by
  obtain ⟨D, named, bits, hn, type⟩ := data.type
  constructor
  · intro member
    refine ⟨⟨D, true, bits, ?_, ?_⟩, data.beg, data.fin, data.content⟩
    · exact ⟨fun _ => ⟨l, .inr rfl, member⟩, fun _ => rfl⟩
    · show (mergeTypes e.type scNode).getD e.type = _
      rw [type, classType_name]
  · intro other
    refine ⟨⟨D, named, bits, ?_, type⟩, data.beg, data.fin, data.content⟩
    rw [hn]
    constructor
    · rintro ⟨x, hb, hm⟩
      exact ⟨x, .inl hb, hm⟩
    · rintro ⟨x, hb | rfl, hm⟩
      · exact ⟨x, hb, hm⟩
      · exact absurd hm other

theorem declared_other (other : ¬Member d.ref) : ClassData (.declared d :: h) Begun Member e := by
  have same (P : Declaration → Prop) :
      Declares (.declared d :: h) (fun d => Member d.ref ∧ P d)
        ↔ Declares h fun d => Member d.ref ∧ P d := by
    rw [declares_cons]
    exact ⟨fun o => o.resolve_left fun m => other m.1, .inr⟩
  obtain ⟨D, named, bits, hn, type⟩ := data.type
  constructor
  · exact ⟨D, named, fun i => (bits i).trans (same _).symm, hn, type⟩
  · exact fun l => (data.beg l).trans (same _).symm
  · exact fun l => (data.fin l).trans (same _).symm
  · exact data.content

theorem declared (member : Member d.ref) (merge : mergeTypes e.type d.type = some e'.type)
    (beg : ∀ l, e'.beg = some l ↔ e.beg = some l ∨ d.left = some l)
    (fin : ∀ l, e'.fin = some l ↔ e.fin = some l ∨ d.right = some l)
    (content : e'.content = e.content) : ClassData (.declared d :: h) Begun Member e' := by
  have more (P : Declaration → Prop) :
      Declares (.declared d :: h) (fun d => Member d.ref ∧ P d)
        ↔ (Declares h fun d => Member d.ref ∧ P d) ∨ P d := by
    rw [declares_cons, or_comm]
    exact ⟨Or.imp_right And.right, Or.imp_right fun p => ⟨member, p⟩⟩
  obtain ⟨D, named, bits, hn, type⟩ := data.type
  constructor
  · refine ⟨D ||| d.type, named, ?_, hn, ?_⟩
    · intro i
      rw [BitVec.getLsbD_or, Bool.or_eq_true, more, bits i]
    · have plain : classType d.type false = d.type := rfl
      rw [type, ← plain] at merge
      rw [classType_join merge, Bool.or_false]
  · intro l
    rw [beg l, more, data.beg l]
  · intro l
    rw [fin l, more, data.fin l]
  · intro v
    rw [content]
    exact data.content v

theorem join {e₂ : ScElement R} (data₂ : ClassData h Begun Member' e₂)
    (merge : mergeTypes e₂.type e.type = some e'.type)
    (beg : ∀ l, e'.beg = some l ↔ e₂.beg = some l ∨ e.beg = some l)
    (fin : ∀ l, e'.fin = some l ↔ e₂.fin = some l ∨ e.fin = some l)
    (content : ∀ v, e'.content = some v ↔ e₂.content = some v ∨ e.content = some v) :
    ClassData h Begun (fun x => Member' x ∨ Member x) e' := by
  constructor
  · exact data.type.join data₂.type merge
  · intro l
    rw [beg l, declares_or, data.beg l, data₂.beg l]
  · intro l
    rw [fin l, declares_or, data.fin l, data₂.fin l]
  · intro v
    rw [content v, data.content v, data₂.content v]
    constructor
    · rintro (⟨m, hm, s⟩ | ⟨m, hm, s⟩)
      · exact ⟨m, .inl hm, s⟩
      · exact ⟨m, .inr hm, s⟩
    · rintro ⟨m, hm | hm, s⟩
      · exact .inl ⟨m, hm, s⟩
      · exact .inr ⟨m, hm, s⟩

theorem aliased (id : Idtf) (ref : Ref) : ClassData (.aliased id ref :: h) Begun Member e := by
  obtain ⟨D, named, bits, hn, type⟩ := data.type
  constructor
  · exact ⟨D, named, fun i => (bits i).trans declares_aliased.symm, hn, type⟩
  · exact fun l => (data.beg l).trans declares_aliased.symm
  · exact fun l => (data.fin l).trans declares_aliased.symm
  · exact data.content

theorem gave {ref : Ref} {content : Option (ContValue R)} (type : e'.type = e.type)
    (beg : e'.beg = e.beg) (fin : e'.fin = e.fin)
    (now : ∀ v, e'.content = some v ↔ ∃ m, Member m ∧ Standing (.gave ref content :: h) m v) :
    ClassData (.gave ref content :: h) Begun Member e' := by
  obtain ⟨D, named, bits, hn, type'⟩ := data.type
  constructor
  · exact ⟨D, named, fun i => (bits i).trans declares_gave.symm, hn, type.trans type'⟩
  · intro l
    rw [beg, declares_gave]
    exact data.beg l
  · intro l
    rw [fin, declares_gave]
    exact data.fin l
  · exact now

end

end ClassData

end ScCore.Scs
