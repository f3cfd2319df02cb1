import ScCore.Gen.Systems

/-!
# What calls of the generator do, whether they fail or not

An arc whose begin is a connector is refused and erased again. The types of what was there before
change where an arc begins at something undefined.
-/

namespace ScCore.Gen

namespace Output

def Sound (o : Output) : Prop :=
  ∀ c ∈ o.created, (∀ b, c.beg = some b → b < o.next) ∧ ∀ b, c.fin = some b → b < o.next

/-- The types after an arc was to begin at `a`. -/
def offered (types : Addr → ScType) (a : Addr) : Addr → ScType :=
  if (types a).isConnector then types
  else if types a &&& .undf ≠ 0 then
    Function.update types a (types a &&& ~~~ .syntacticMask ||| .node)
  else types

theorem offered_congr {types types' : Addr → ScType} {n a : Addr}
    (same : ∀ b < n, types b = types' b) (live : a < n) :
    ∀ b < n, offered types a b = offered types' a b := by
  intro b lt
  rw [offered, offered, same a live]
  split
  · exact same b lt
  split
  · by_cases here : b = a
    · rw [here, Function.update_self, Function.update_self]
    · rw [Function.update_of_ne here, Function.update_of_ne here, same b lt]
  · exact same b lt

theorem foldl_offered_congr {types types' : Addr → ScType} {n : Addr} {as : List Addr}
    (same : ∀ b < n, types b = types' b) (live : ∀ a ∈ as, a < n) :
    ∀ b < n, as.foldl offered types b = as.foldl offered types' b := by
  induction as generalizing types types' with
  | nil => exact same
  | cons a as ih =>
    exact ih (offered_congr same (live a List.mem_cons_self))
      fun a' mem => live a' (List.mem_cons_of_mem _ mem)

theorem offered_connector (types : Addr → ScType) (a b : Addr) :
    (offered types a b).isConnector = (types b).isConnector := by
  rw [offered]
  split
  case isTrue => rfl
  case isFalse plain =>
    split
    · by_cases here : b = a
      · rw [here, Function.update_self, Bool.eq_false_iff.mpr plain]
        exact ScType.isConnector_asNode _
      · rw [Function.update_of_ne here]
    · rfl

/-- From `o` to `o'` the elements `block` are created. `types` says what has become of the types
of what was there. -/
structure Outcome (o : Output) (types : Addr → ScType) (block : List Created) (o' : Output) :
    Prop where
  created : o'.created = o.created ++ block
  next : o.next ≤ o'.next
  types : ∀ a < o.next, o'.types a = types a
  sound : o.Sound → o'.Sound

namespace Outcome

variable {o o' o'' : Output} {types types' : Addr → ScType} {block block' : List Created}

theorem refl (o : Output) : o.Outcome o.types [] o :=
  ⟨(List.append_nil _).symm, Nat.le_refl _, fun _ _ => rfl, id⟩

theorem trans (h : o.Outcome types block o') (h' : o'.Outcome types' block' o'')
    (same : ∀ a < o.next, types' a = types'' a) :
    o.Outcome types'' (block ++ block') o'' where
  created := by rw [h'.created, h.created, List.append_assoc]
  next := Nat.le_trans h.next h'.next
  types a lt := (h'.types a (Nat.lt_of_lt_of_le lt h.next)).trans (same a lt)
  sound := fun sound => h'.sound (h.sound sound)

end Outcome

/-! ## New elements -/

theorem create_outcome (o : Output) (seg : SegId) (type : ScType) :
    o.Outcome o.types [⟨o.next, seg, type, none, none⟩] (o.create seg type) where
  created := rfl
  next := Nat.le_succ _
  types a lt := Function.update_of_ne (Nat.ne_of_lt lt) _ _
  sound sound c mem := by
    obtain old | new := List.mem_append.mp mem
    · exact ⟨fun b eq => Nat.lt_succ_of_lt ((sound c old).1 b eq),
        fun b eq => Nat.lt_succ_of_lt ((sound c old).2 b eq)⟩
    · rw [List.mem_singleton.mp new]
      exact ⟨fun _ eq => (nomatch eq), fun _ eq => (nomatch eq)⟩

/-! ## Ends of the last element -/

theorem map_last {old : List Created} {c : Created} (change : Created → Created)
    (fresh : ∀ c' ∈ old, c'.addr ≠ c.addr) :
    (old ++ [c]).map (fun c' => if c'.addr = c.addr then change c' else c') =
      old ++ [change c] := by
  rw [List.map_append, List.map_singleton, if_pos rfl]
  congr 1
  exact (List.map_congr_left fun c' mem => if_neg (fresh c' mem)).trans (List.map_id' _)

variable {o : Output} {old : List Created} {c : Created} {src dst : Addr}

theorem setBeg_last (created : o.created = old ++ [c]) (fresh : ∀ c' ∈ old, c'.addr ≠ c.addr)
    (arc : (o.types c.addr).isConnector = true) :
    (o.setBeg c.addr src).1 = !(o.types src).isConnector ∧
      (o.setBeg c.addr src).2.created = old ++
        [if (o.types src).isConnector then c else { c with beg := some src }] ∧
      (o.setBeg c.addr src).2.types = offered o.types src ∧
      (o.setBeg c.addr src).2.next = o.next := by
  rw [setBeg, offered]
  cases connector : (o.types src).isConnector with
  | true =>
    rw [if_pos (.inr rfl), if_pos rfl, if_pos rfl]
    exact ⟨rfl, created, rfl, rfl⟩
  | false =>
    rw [if_neg (by simp [arc])]
    refine ⟨rfl, ?_, rfl, rfl⟩
    show o.created.map _ = _
    rw [created]
    exact map_last _ fresh

theorem setEnd_last (created : o.created = old ++ [c]) (fresh : ∀ c' ∈ old, c'.addr ≠ c.addr)
    (arc : (o.types c.addr).isConnector = true) :
    (o.setEnd c.addr dst).1 = true ∧
      (o.setEnd c.addr dst).2.created = old ++ [{ c with fin := some dst }] ∧
      (o.setEnd c.addr dst).2.types = o.types ∧ (o.setEnd c.addr dst).2.next = o.next := by
  rw [setEnd, if_pos arc]
  refine ⟨rfl, ?_, rfl, rfl⟩
  show o.created.map _ = _
  rw [created]
  exact map_last _ fresh

structure Ended (o : Output) (c : Created) (src dst : Addr) (o' : Output) : Prop where
  created : o'.created = o.created ++
    [{ c with beg := if (o.types src).isConnector then none else some src, fin := some dst }]
  next : o'.next = o.next + 1
  types : ∀ a < o.next, o'.types a = offered o.types src a

variable {type : ScType}

theorem ended (o : Output) (seg : SegId) (connector : type.isConnector = true)
    (live : src < o.next) (dst : Addr) :
    ((o.create seg type).setBeg o.next src).1 = !(o.types src).isConnector ∧
      (((o.create seg type).setBeg o.next src).2.setEnd o.next dst).1 = true ∧
      o.Ended ⟨o.next, seg, type, none, none⟩ src dst
        (((o.create seg type).setBeg o.next src).2.setEnd o.next dst).2 := by
  have fresh : ∀ c' ∈ o.created, c'.addr ≠ o.next := fun c' mem => Nat.ne_of_lt (o.fresh c' mem)
  have arc : ((o.create seg type).types o.next).isConnector = true := by
    show (Function.update o.types o.next type o.next).isConnector = true
    rw [Function.update_self]
    exact connector
  have same : ∀ a < o.next, (o.create seg type).types a = o.types a :=
    fun a lt => Function.update_of_ne (Nat.ne_of_lt lt) _ _
  obtain ⟨result, created, types, next⟩ := @setBeg_last (o.create seg type) o.created
    ⟨o.next, seg, type, none, none⟩ src rfl fresh arc
  rw [same src live] at result created
  have arc' : (((o.create seg type).setBeg o.next src).2.types o.next).isConnector = true := by
    rw [types, offered_connector]
    exact arc
  have first : ((o.create seg type).setBeg o.next src).2.created = o.created ++
      [⟨o.next, seg, type, if (o.types src).isConnector then none else some src, none⟩] := by
    rw [created]
    congr 2
    cases (o.types src).isConnector <;> rfl
  obtain ⟨result', created', types', next'⟩ := @setEnd_last _ _ _ dst first fresh arc'
  refine ⟨result, result', ⟨created', next'.trans next, fun a lt => ?_⟩⟩
  rw [types', types]
  exact offered_congr same live a lt

theorem Ended.outcome {o' : Output} (h : o.Ended c src dst o') (live : src < o.next)
    (live' : dst < o.next) : o.Outcome (offered o.types src)
      [{ c with beg := if (o.types src).isConnector then none else some src, fin := some dst }]
      o' where
  created := h.created
  next := by rw [h.next]; exact Nat.le_succ _
  types := h.types
  sound sound c' mem := by
    rw [h.created] at mem
    rw [h.next]
    obtain old | new := List.mem_append.mp mem
    · exact ⟨fun b eq => Nat.lt_succ_of_lt ((sound c' old).1 b eq),
        fun b eq => Nat.lt_succ_of_lt ((sound c' old).2 b eq)⟩
    · rw [List.mem_singleton.mp new]
      refine ⟨fun b eq => ?_, fun b eq => ?_⟩
      · dsimp only at eq
        split at eq
        · cases eq
        · cases eq
          exact Nat.lt_succ_of_lt live
      · cases eq
        exact Nat.lt_succ_of_lt live'

theorem erase_outcome (sound : o.Sound) (seg : SegId) (type : ScType) :
    o.Outcome o.types [] ((o.create seg type).fail.eraseEl o.next) where
  created := by
    show (o.created ++ [_]).filter _ = _
    rw [List.filter_append, List.append_nil]
    have keeps : o.created.filter (fun c =>
        c.addr ≠ o.next ∧ c.beg ≠ some o.next ∧ c.fin ≠ some o.next) = o.created := by
      refine List.filter_eq_self.mpr fun c mem => decide_eq_true ⟨Nat.ne_of_lt (o.fresh c mem),
        fun eq => Nat.lt_irrefl _ ((sound c mem).1 _ eq),
        fun eq => Nat.lt_irrefl _ ((sound c mem).2 _ eq)⟩
    rw [keeps]
    simp
  next := Nat.le_succ _
  types := (create_outcome o seg type).types
  sound sound c mem :=
    (create_outcome o seg type).sound sound c (List.mem_of_mem_filter mem)

/-- `gen3_f_a_f` of a connector: the arc, or nothing when it cannot begin there. -/
theorem gen3_outcome {type' : ScType} (sound : o.Sound) (seg : SegId)
    (verified : type.verify = some type') (connector : type'.isConnector = true)
    (live : src < o.next) (live' : dst < o.next) :
    (((o.types src).isConnector = true ∧ (o.gen3 src seg type dst).1 = none ∧
        o.Outcome (offered o.types src) [] (o.gen3 src seg type dst).2) ∨
      ((o.types src).isConnector = false ∧ (o.gen3 src seg type dst).1 = some o.next ∧
        o.next < (o.gen3 src seg type dst).2.next ∧
        o.Outcome (offered o.types src) [⟨o.next, seg, type', some src, some dst⟩]
          (o.gen3 src seg type dst).2)) := by
  obtain ⟨begins, ends, ended⟩ := o.ended seg connector live dst
  rw [gen3, createEl, verified]
  dsimp only
  cases refused : (o.types src).isConnector with
  | true =>
    refine .inl ⟨rfl, ?_⟩
    have set : (o.create seg type').setBeg o.next src = (false, (o.create seg type').fail) := by
      have same : (o.create seg type').types src = o.types src :=
        Function.update_of_ne (Nat.ne_of_lt live) _ _
      rw [setBeg, if_pos (.inr (by rw [same]; exact refused))]
    have stays : offered o.types src = o.types := by rw [offered, if_pos refused]
    rw [set, stays]
    exact ⟨rfl, erase_outcome sound seg type'⟩
  | false =>
    refine .inr ⟨rfl, ?_⟩
    have outcome := ended.outcome live live'
    have next := ended.next
    rw [refused] at begins outcome
    rw [show (o.create seg type').setBeg o.next src =
        (true, ((o.create seg type').setBeg o.next src).2) from Prod.ext begins rfl]
    dsimp only
    rw [show ((o.create seg type').setBeg o.next src).2.setEnd o.next dst =
        (true, (((o.create seg type').setBeg o.next src).2.setEnd o.next dst).2) from
      Prod.ext ends rfl]
    dsimp only
    exact ⟨rfl, by rw [next]; exact Nat.lt_succ_self _, outcome⟩

end Output

/-! ## Arcs -/

namespace Generator

open Output

variable {g g' g'' : Generator} {types types' types'' : Addr → ScType} {block block' : List Created}
  {src dst el : Addr}

/-- Elements are created, and nothing else changes but what waits to be collected. -/
structure Wrote (g : Generator) (types : Addr → ScType) (block : List Created) (g' : Generator) :
    Prop where
  outcome : g.output.Outcome types block g'.output
  top : ∃ tmp, g'.top = { g.top with tmp := tmp }
  below : g'.below = g.below
  fields : g'.fields = g.fields

namespace Wrote

theorem refl (g : Generator) : g.Wrote g.output.types [] g :=
  ⟨.refl _, ⟨_, rfl⟩, rfl, rfl⟩

theorem trans (h : g.Wrote types block g') (h' : g'.Wrote types' block' g'')
    (same : ∀ a < g.output.next, types' a = types'' a) : g.Wrote types'' (block ++ block') g'' where
  outcome := h.outcome.trans h'.outcome same
  top := by
    obtain ⟨tmp, top⟩ := h.top
    obtain ⟨tmp', top'⟩ := h'.top
    exact ⟨tmp', by rw [top', top]⟩
  below := h'.below.trans h.below
  fields := h'.fields.trans h.fields

theorem pushTmp (h : g.Wrote types block g') (a : Addr) :
    g.Wrote types block (g'.pushTmp a) where
  outcome := h.outcome
  top := by
    obtain ⟨tmp, top⟩ := h.top
    exact ⟨tmp ++ [a], by rw [Generator.pushTmp, top]⟩
  below := h.below
  fields := h.fields

theorem pushed (h : (g.pushTmp el).Wrote types block g') : g.Wrote types block g' where
  outcome := h.outcome
  top := h.top
  below := h.below
  fields := h.fields

end Wrote

variable {type type' attrType : ScType} {attr : AttrStruct}

theorem gen3_wrote (sound : g.output.Sound) (seg : SegId) (verified : type.verify = some type')
    (connector : type'.isConnector = true) (live : src < g.output.next)
    (live' : dst < g.output.next) :
    (((g.output.types src).isConnector = true ∧ (g.gen3 src seg type dst).1 = none ∧
        g.Wrote (offered g.output.types src) [] (g.gen3 src seg type dst).2) ∨
      ((g.output.types src).isConnector = false ∧
        (g.gen3 src seg type dst).1 = some g.output.next ∧
        g.output.next < (g.gen3 src seg type dst).2.output.next ∧
        g.Wrote (offered g.output.types src)
          [⟨g.output.next, seg, type', some src, some dst⟩] (g.gen3 src seg type dst).2)) := by
  have arc := g.output.gen3_outcome sound seg verified connector live live'
  rw [gen3]
  generalize g.output.gen3 src seg type dst = r at arc
  obtain ⟨result, o⟩ := r
  obtain ⟨refused, rfl, outcome⟩ | ⟨plain, rfl, next, outcome⟩ := arc
  · exact .inl ⟨refused, rfl, outcome, ⟨_, rfl⟩, rfl, rfl⟩
  · exact .inr ⟨plain, rfl, next, outcome, ⟨_, rfl⟩, rfl, rfl⟩

theorem internalGenArc_bare (none : g.top.attrs = []) (sound : g.output.Sound) (seg : SegId)
    (verified : type.verify = some type') (connector : type'.isConnector = true)
    (live : src < g.output.next) (live' : dst < g.output.next) :
    g.Wrote (offered g.output.types src)
      (if (g.output.types src).isConnector then []
        else [⟨g.output.next, seg, type', some src, some dst⟩])
      (g.internalGenArc src dst type seg).2 := by
  have arc := gen3_wrote sound seg verified connector live live'
  rw [internalGenArc]
  generalize g.gen3 src seg type dst = r at arc
  obtain ⟨result, g'⟩ := r
  obtain ⟨refused, rfl, wrote⟩ | ⟨plain, rfl, -, wrote⟩ := arc
  · rw [if_pos refused]
    exact wrote
  · rw [if_neg (by rw [plain]; exact Bool.false_ne_true)]
    have none' : g'.top.attrs = [] := by
      obtain ⟨tmp, top⟩ := wrote.top
      rw [top]
      exact none
    dsimp only
    rw [none', genAttrs]
    exact wrote.pushTmp _

/-- The arcs of a sentence that no attribute waits for. What cannot begin an arc has none. -/
theorem genSentence_bare (prevEls : List Addr) (none : g.top.attrs = []) (sound : g.output.Sound)
    (verified : g.top.sentArcType.verify = some type') (connector : type'.isConnector = true)
    (live : ∀ prev ∈ prevEls, prev < g.output.next) (live' : el < g.output.next) :
    ∃ block, g.Wrote (prevEls.foldl offered g.output.types) block (genSentence el g prevEls) ∧
      List.Forall₂ (fun prev (c : Created) => c.beg = some prev ∧ c.fin = some el ∧ c.type = type')
        (prevEls.filter fun prev => !(g.output.types prev).isConnector) block := by
  induction prevEls generalizing g with
  | nil => exact ⟨[], .refl g, .nil⟩
  | cons prev prevEls ih =>
    have first := internalGenArc_bare none sound g.top.sentSeg verified connector
      (live prev List.mem_cons_self) live'
    rw [genSentence]
    generalize (g.internalGenArc prev el g.top.sentArcType g.top.sentSeg).2 = g₁ at first ⊢
    obtain ⟨tmp, top⟩ := first.top
    have later (a : Addr) (lt : a < g.output.next) : a < g₁.output.next :=
      Nat.lt_of_lt_of_le lt first.outcome.next
    have others : ∀ p ∈ prevEls, p < g.output.next :=
      fun p mem => live p (List.mem_cons_of_mem _ mem)
    obtain ⟨block, wrote, all⟩ := ih (g := g₁) (by rw [top]; exact none)
      (first.outcome.sound sound) (by rw [top]; exact verified)
      (fun p mem => later p (others p mem)) (later el live')
    refine ⟨_, first.trans wrote (foldl_offered_congr first.outcome.types others), ?_⟩
    have kinds : prevEls.filter (fun p => !(g₁.output.types p).isConnector) =
        prevEls.filter fun p => !(g.output.types p).isConnector := by
      refine List.filter_congr fun p mem => ?_
      rw [first.outcome.types p (others p mem), offered_connector]
    rw [kinds] at all
    cases refused : (g.output.types prev).isConnector with
    | true =>
      rw [if_pos rfl, List.filter_cons_of_neg (by rw [refused]; simp)]
      exact all
    | false =>
      rw [if_neg Bool.false_ne_true, List.filter_cons_of_pos (by rw [refused]; rfl)]
      exact .cons ⟨rfl, rfl, rfl⟩ all

theorem internalGenArc_one (one : g.top.attrs = [attr]) (sound : g.output.Sound) (seg : SegId)
    (verified : type.verify = some type') (connector : type'.isConnector = true)
    (verified' : attr.type.verify = some attrType) (connector' : attrType.isConnector = true)
    (live : src < g.output.next) (live' : dst < g.output.next)
    (attrLive : attr.addr < g.output.next) (plain : (g.output.types src).isConnector = false)
    (attrPlain : (g.output.types attr.addr).isConnector = false) :
    ∃ a, (g.internalGenArc src dst type seg).1 = some g.output.next ∧
      g.Wrote (offered (offered g.output.types src) attr.addr)
        [⟨g.output.next, seg, type', some src, some dst⟩,
          ⟨a, attr.seg, attrType, some attr.addr, some g.output.next⟩]
        (g.internalGenArc src dst type seg).2 := by
  have arc := gen3_wrote sound seg verified connector live live'
  rw [internalGenArc]
  generalize g.gen3 src seg type dst = r at arc
  obtain ⟨result, g₁⟩ := r
  obtain ⟨refused, -⟩ | ⟨-, rfl, next, wrote⟩ := arc
  · rw [plain] at refused
    cases refused
  obtain ⟨tmp, top⟩ := wrote.top
  have one' : g₁.top.attrs = [attr] := by
    rw [top]
    exact one
  have second := gen3_wrote (g := g₁.pushTmp g.output.next) (wrote.outcome.sound sound) attr.seg
    verified' connector' (Nat.lt_of_lt_of_le attrLive wrote.outcome.next) next
  dsimp only
  rw [one', genAttrs]
  generalize (g₁.pushTmp g.output.next).gen3 attr.addr attr.seg attr.type g.output.next = r₂
    at second
  obtain ⟨result₂, g₂⟩ := r₂
  have stays : (g₁.output.types attr.addr).isConnector = false := by
    rw [wrote.outcome.types _ attrLive, offered_connector]
    exact attrPlain
  obtain ⟨refused, -⟩ | ⟨-, rfl, -, wrote₂⟩ := second
  · rw [show ((g₁.pushTmp g.output.next).output.types attr.addr).isConnector = false from stays]
      at refused
    cases refused
  · exact ⟨g₁.output.next, rfl, wrote.trans (wrote₂.pushed.pushTmp _)
      (offered_congr wrote.outcome.types attrLive)⟩

theorem element_inSet {set : Addr} (inside : g.top.set = some set) (prevEls : g.top.prevEls = [])
    (one : g.top.attrs = [attr]) (sound : g.output.Sound)
    (verified : g.fields.setArcType.verify = some type') (connector : type'.isConnector = true)
    (verified' : attr.type.verify = some attrType) (connector' : attrType.isConnector = true)
    (live : set < g.output.next) (live' : el < g.output.next)
    (attrLive : attr.addr < g.output.next) (plain : (g.output.types set).isConnector = false)
    (attrPlain : (g.output.types attr.addr).isConnector = false) :
    ∃ a, g.output.Outcome (offered (offered g.output.types set) attr.addr)
        [⟨g.output.next, g.fields.activeSegment, type', some set, some el⟩,
          ⟨a, attr.seg, attrType, some attr.addr, some g.output.next⟩] (g.element el).output ∧
      (g.element el).below = g.below ∧ (g.element el).fields = g.fields ∧
      (g.element el).top.set = some set ∧ (g.element el).top.prevEls = [] ∧
      (g.element el).top.attrs = [] := by
  obtain ⟨a, result, wrote⟩ := @internalGenArc_one (g.pass el) set el _ _ _ attr one sound
    g.fields.activeSegment verified connector verified' connector' live live' attrLive plain
    attrPlain
  rw [element, prevEls, genSentence, enclose, show (g.pass el).top.set = some set from inside]
  dsimp only
  rw [show (g.pass el).fields = g.fields from rfl]
  generalize (g.pass el).internalGenArc set el g.fields.setArcType g.fields.activeSegment = r at *
  obtain ⟨result', g'⟩ := r
  obtain rfl : result' = some (g.pass el).output.next := result
  obtain ⟨tmp, top⟩ := wrote.top
  refine ⟨a, wrote.outcome, wrote.below, wrote.fields, ?_, ?_, rfl⟩
  · show g'.top.set = _
    rw [top]
    exact inside
  · show g'.top.prevEls = _
    rw [top]
    exact prevEls

end Generator

end ScCore.Gen
