import ScCore.Store.ContentIndex

/-!
# Contents of elements

The part of `tmp_segment.cpp` and of the session that sets, erases and finds contents. Of
an element only its content and the life of its address are modelled. `none` is a run that
stopped: an `SC_ABORT`, or a read through a freed pointer.
-/

namespace ScCore.Store

structure ContentElement where
  seg : SegId
  cont : Content
  contSignature : Option SigPtr
  /-- `is_dead` of the address. -/
  dead : Bool
  /-- The references to the address that have been taken. -/
  refs : Nat
  deriving DecidableEq, Repr

variable {Sig : Type} [DecidableEq Sig]

structure Contents (Sig : Type) where
  elems : ElemId → Option ContentElement
  nextElem : ElemId
  cindex : SegId → ContentIndex Sig

/-- `opened_segments` in the order in which they are walked. -/
structure OpenedSegments where
  segs : List SegId
  nodup : segs.Nodup

namespace Contents

def new : Contents Sig := ⟨fun _ => none, 0, fun _ => .new⟩

variable (md5 : List UInt8 → Sig) (st : Contents Sig) (opened : OpenedSegments)

/-- The element `e` and the index of the segment `s` are changed. -/
def replace (e : ElemId) (el : Option ContentElement) (s : SegId) (ix : ContentIndex Sig) :
    Contents Sig :=
  { st with
    elems := Function.update st.elems e el
    cindex := Function.update st.cindex s ix }

/-- `create_el`, which gives the element an address. -/
def createEl (s : SegId) : Contents Sig :=
  { st with
    elems := Function.update st.elems st.nextElem (some ⟨s, .empty, none, false, 0⟩)
    nextElem := st.nextElem + 1 }

/-- `update_cindex` of an element that has its new content already. -/
def updateCindex (e : ElemId) (el : ContentElement) : Option (Contents Sig) :=
  if el.cont.tcont = .empty then do
    let ix ← (st.cindex el.seg).clear e el.contSignature
    some (st.replace e (some { el with contSignature := none }) el.seg ix)
  else do
    let (ix, sig) ← (st.cindex el.seg).update md5 e el.contSignature el.cont
    some (st.replace e (some { el with contSignature := sig }) el.seg ix)

def access (el : ContentElement) : Bool := !el.dead && decide (el.seg ∈ opened.segs)

/-- `set_content`. An access that fails changes nothing. -/
def setContent (e : ElemId) (c : Content) : Option (Contents Sig) := do
  let el ← st.elems e
  if access opened el then st.updateCindex md5 e { el with cont := c } else some st

def eraseContent (e : ElemId) : Option (Contents Sig) := do
  let el ← st.elems e
  if access opened el then st.updateCindex md5 e { el with cont := .empty } else some st

/-- `tmp_segment::erase_el`. -/
def free (e : ElemId) : Option (Contents Sig) := do
  let el ← st.elems e
  let ix ← (st.cindex el.seg).clear e el.contSignature
  some (st.replace e none el.seg ix)

def retag (e : ElemId) (f : ContentElement → ContentElement) : Contents Sig :=
  { st with elems := Function.update st.elems e ((st.elems e).map f) }

/-- `sc_global_addr::die`. An element that is still referred to stays in its segment. -/
def die (e : ElemId) : Option (Contents Sig) := do
  let el ← st.elems e
  if el.dead then some st
  else if el.refs = 0 then st.free e
  else some (st.retag e fun el => { el with dead := true })

/-- What `__erase_el` does to an element and the arcs of its cascade, in their order. -/
def dieAll : List ElemId → Contents Sig → Option (Contents Sig)
  | [], st => some st
  | e :: es, st => do
      let st ← st.die e
      dieAll es st

/-- `erase_el`; the arcs die before the element. -/
def eraseEl (e : ElemId) (arcs : List ElemId) : Option (Contents Sig) := do
  let el ← st.elems e
  if access opened el then dieAll (arcs ++ [e]) st else some st

def ref (e : ElemId) : Option (Contents Sig) := do
  let _ ← st.elems e
  some (st.retag e fun el => { el with refs := el.refs + 1 })

/-- `sc_global_addr::unref`, of a reference that has been taken. -/
def unref (e : ElemId) : Option (Contents Sig) := do
  let el ← st.elems e
  if el.refs = 0 then none
  else if el.refs = 1 ∧ el.dead then st.free e
  else some (st.retag e fun el => { el with refs := el.refs - 1 })

/-- `find_by_content` over the segments of a list. -/
def findIn (c : Content) : List SegId → Option (List ElemId)
  | [] => some []
  | s :: segs => do
      let found ← (st.cindex s).find md5 c
      let rest ← findIn c segs
      some (found ++ rest)

def findByContent (c : Content) : Option (List ElemId) := st.findIn md5 c opened.segs

end Contents

inductive ContentOp where
  | createEl (s : SegId)
  | setContent (opened : OpenedSegments) (e : ElemId) (c : Content)
  | eraseContent (opened : OpenedSegments) (e : ElemId)
  | eraseEl (opened : OpenedSegments) (e : ElemId) (arcs : List ElemId)
  | ref (e : ElemId)
  | unref (e : ElemId)

def ContentOp.exec (md5 : List UInt8 → Sig) (st : Contents Sig) :
    ContentOp → Option (Contents Sig)
  | createEl s => some (st.createEl s)
  | setContent opened e c => st.setContent md5 opened e c
  | eraseContent opened e => st.eraseContent md5 opened e
  | eraseEl opened e arcs => st.eraseEl opened e arcs
  | ref e => st.ref e
  | unref e => st.unref e

inductive ContentRun (md5 : List UInt8 → Sig) : Contents Sig → Prop
  | init : ContentRun md5 .new
  | step {st st' : Contents Sig} (op : ContentOp) :
      ContentRun md5 st → op.exec md5 st = some st' → ContentRun md5 st'

/-! ## The invariant -/

namespace Contents

def owns (st : Contents Sig) (s : SegId) (e : ElemId) : Option SigPtr :=
  (st.elems e).bind fun el => if el.seg = s then el.contSignature else none

end Contents

def Signed (md5 : List UInt8 → Sig) (ix : ContentIndex Sig) (el : ContentElement) : Prop :=
  match el.contSignature with
  | none => el.cont.tcont = .empty
  | some p => ∃ sig, ContentIndex.calcSignature md5 el.cont = some sig ∧ ix.heap p = some sig

structure ContentInv (md5 : List UInt8 → Sig) (st : Contents Sig) : Prop where
  lists : ∀ s, (st.cindex s).Lists (st.owns s)
  signed : ∀ {e el}, st.elems e = some el → Signed md5 (st.cindex el.seg) el
  fresh : ∀ {e}, st.nextElem ≤ e → st.elems e = none

variable {md5 : List UInt8 → Sig} {st st' : Contents Sig} {e : ElemId} {el : ContentElement}

namespace Contents

section Frames

variable {new : Option ContentElement} {s t : SegId} {ix : ContentIndex Sig} {e' : ElemId}

omit [DecidableEq Sig] in
@[simp] theorem replace_elems_self : (st.replace e new s ix).elems e = new :=
  Function.update_self ..

omit [DecidableEq Sig] in
theorem replace_elems_ne (h : e' ≠ e) : (st.replace e new s ix).elems e' = st.elems e' :=
  Function.update_of_ne h ..

omit [DecidableEq Sig] in
@[simp] theorem replace_cindex_self : (st.replace e new s ix).cindex s = ix :=
  Function.update_self ..

omit [DecidableEq Sig] in
theorem replace_cindex_ne (h : t ≠ s) : (st.replace e new s ix).cindex t = st.cindex t :=
  Function.update_of_ne h ..

omit [DecidableEq Sig] in
@[simp] theorem createEl_elems_self :
    (st.createEl s).elems st.nextElem = some ⟨s, .empty, none, false, 0⟩ :=
  Function.update_self ..

omit [DecidableEq Sig] in
theorem createEl_elems_ne (h : e ≠ st.nextElem) : (st.createEl s).elems e = st.elems e :=
  Function.update_of_ne h ..

end Frames

end Contents

omit [DecidableEq Sig] in
theorem Contents.owns_self (he : st.elems e = some el) : st.owns el.seg e = el.contSignature := by
  rw [owns, he, Option.bind_some, if_pos rfl]

namespace ContentInv

section

variable (inv : ContentInv md5 st)
include inv

theorem replace (he : st.elems e = some el) {new : Option ContentElement} {ix : ContentIndex Sig}
    (seg : ∀ el', new = some el' → el'.seg = el.seg)
    (lists : ix.Lists (Function.update (st.owns el.seg) e (new.bind fun el' => el'.contSignature)))
    (heap : ∀ e' p, e' ≠ e → st.owns el.seg e' = some p → ix.heap p = (st.cindex el.seg).heap p)
    (signed : ∀ el', new = some el' → Signed md5 ix el') :
    ContentInv md5 (st.replace e new el.seg ix) where
  lists s := by
    by_cases hs : s = el.seg
    · have owns : (st.replace e new el.seg ix).owns el.seg =
          Function.update (st.owns el.seg) e (new.bind fun el' => el'.contSignature) := by
        funext e'
        by_cases he' : e' = e
        · subst he'
          rw [Function.update_self, Contents.owns, Contents.replace_elems_self]
          cases hn : new with
          | none => rfl
          | some el' => rw [Option.bind_some, Option.bind_some, if_pos (seg el' hn)]
        · rw [Function.update_of_ne he', Contents.owns, Contents.replace_elems_ne he',
            Contents.owns]
      rw [hs, owns, Contents.replace_cindex_self]
      exact lists
    · have owns : (st.replace e new el.seg ix).owns s = st.owns s := by
        funext e'
        by_cases he' : e' = e
        · subst he'
          rw [Contents.owns, Contents.replace_elems_self, Contents.owns, he, Option.bind_some,
            if_neg (Ne.symm hs)]
          cases hn : new with
          | none => rfl
          | some el' => rw [Option.bind_some, if_neg (seg el' hn ▸ Ne.symm hs)]
        · rw [Contents.owns, Contents.replace_elems_ne he', Contents.owns]
      rw [owns, Contents.replace_cindex_ne hs]
      exact inv.lists s
  signed {e' el'} he' := by
    by_cases hne : e' = e
    · subst hne
      rw [Contents.replace_elems_self] at he'
      rw [seg el' he', Contents.replace_cindex_self]
      exact signed el' he'
    · rw [Contents.replace_elems_ne hne] at he'
      have before := inv.signed he'
      by_cases hs : el'.seg = el.seg
      · rw [hs, Contents.replace_cindex_self]
        rw [hs, Signed] at before
        rw [Signed]
        cases hp : el'.contSignature with
        | none => simpa [hp] using before
        | some p =>
          have own : st.owns el.seg e' = some p := by
            rw [← hs, Contents.owns_self he', hp]
          simpa [hp, heap e' p hne own] using before
      · rw [Contents.replace_cindex_ne hs]
        exact before
  fresh {e'} h := by
    have ne : e' ≠ e := by
      rintro rfl
      rw [inv.fresh h] at he
      cases he
    rw [Contents.replace_elems_ne ne]
    exact inv.fresh h

theorem retag (he : st.elems e = some el) (f : ContentElement → ContentElement)
    (seg : (f el).seg = el.seg) (cont : (f el).cont = el.cont)
    (sig : (f el).contSignature = el.contSignature) : ContentInv md5 (st.retag e f) := by
  have same : st.retag e f = st.replace e (some (f el)) el.seg (st.cindex el.seg) := by
    rw [Contents.retag, Contents.replace, he, Option.map_some, Function.update_eq_self]
  rw [same]
  apply inv.replace he
  · rintro _ ⟨⟩
    exact seg
  · rw [Option.bind_some, sig, ← Contents.owns_self he, Function.update_eq_self]
    exact inv.lists el.seg
  · exact fun _ _ _ _ => rfl
  · rintro _ ⟨⟩
    rw [Signed, cont, sig]
    exact inv.signed he

theorem free (h : st.free e = some st') : ContentInv md5 st' := by
  obtain ⟨el, he, h⟩ := Option.bind_eq_some_iff.mp h
  obtain ⟨ix, hix, h⟩ := Option.bind_eq_some_iff.mp h
  cases h
  obtain ⟨ix', clear, lists, heap⟩ := (inv.lists el.seg).clear e
  rw [Contents.owns_self he, hix] at clear
  cases clear
  apply inv.replace he
  · rintro _ ⟨⟩
  · exact lists
  · exact heap
  · rintro _ ⟨⟩

theorem updateCindex (he : st.elems e = some el) (c : Content)
    (h : st.updateCindex md5 e { el with cont := c } = some st') : ContentInv md5 st' := by
  obtain ⟨ix, clear, lists, heap⟩ := (inv.lists el.seg).clear e
  rw [Contents.owns_self he] at clear
  rw [Contents.updateCindex] at h
  split at h
  · next empty =>
    obtain ⟨ix', hix, h⟩ := Option.bind_eq_some_iff.mp h
    cases h
    rw [clear] at hix
    cases hix
    apply inv.replace he
    · rintro _ ⟨⟩
      rfl
    · exact lists
    · exact heap
    · rintro _ ⟨⟩
      exact empty
  · next notEmpty =>
    obtain ⟨⟨ix', sig'⟩, hix, h⟩ := Option.bind_eq_some_iff.mp h
    cases h
    rw [ContentIndex.update, clear, Option.bind_eq_bind, Option.bind_some,
      if_pos (by simpa [ContentIndex.isIndexedType] using notEmpty)] at hix
    obtain ⟨sig, hsig, hix⟩ := Option.bind_eq_some_iff.mp hix
    cases hix
    obtain ⟨entered, key, kept⟩ := lists.enter (Function.update_self ..) sig
    rw [Function.update_idem] at entered
    apply inv.replace he
    · rintro _ ⟨⟩
      rfl
    · exact entered
    · intro e' p hne own
      rw [kept e' p (by rwa [Function.update_of_ne hne]), heap e' p hne own]
    · rintro _ ⟨⟩
      exact ⟨sig, hsig, key⟩

theorem die (h : st.die e = some st') : ContentInv md5 st' := by
  obtain ⟨el, he, h⟩ := Option.bind_eq_some_iff.mp h
  split at h
  · cases h
    exact inv
  · split at h
    · exact inv.free h
    · cases h
      exact inv.retag he _ rfl rfl rfl

theorem dieAll (es : List ElemId) (h : Contents.dieAll es st = some st') : ContentInv md5 st' := by
  induction es generalizing st with
  | nil =>
    cases h
    exact inv
  | cons e es ih =>
    obtain ⟨st₁, h₁, h⟩ := Option.bind_eq_some_iff.mp h
    exact ih (inv.die h₁) h

theorem createEl (s : SegId) : ContentInv md5 (st.createEl s) := by
  have new := inv.fresh (Nat.le_refl st.nextElem)
  have owns : (st.createEl s).owns = st.owns := by
    funext t e
    by_cases he : e = st.nextElem
    · simp [Contents.owns, Contents.createEl, he, new]
    · simp [Contents.owns, Contents.createEl, he]
  constructor
  · rw [owns]
    exact inv.lists
  · intro e el he
    by_cases hne : e = st.nextElem
    · rw [hne, Contents.createEl_elems_self] at he
      cases he
      rfl
    · rw [Contents.createEl_elems_ne hne] at he
      exact inv.signed he
  · intro e h
    have ne : e ≠ st.nextElem := Nat.ne_of_gt h
    rw [Contents.createEl_elems_ne ne]
    exact inv.fresh (Nat.le_of_succ_le h)

theorem exec {op : ContentOp} (h : op.exec md5 st = some st') : ContentInv md5 st' := by
  cases op with
  | createEl s =>
    cases h
    exact inv.createEl s
  | setContent opened e c =>
    obtain ⟨el, he, h⟩ := Option.bind_eq_some_iff.mp h
    split at h
    · exact inv.updateCindex he c h
    · cases h
      exact inv
  | eraseContent opened e =>
    obtain ⟨el, he, h⟩ := Option.bind_eq_some_iff.mp h
    split at h
    · exact inv.updateCindex he .empty h
    · cases h
      exact inv
  | eraseEl opened e arcs =>
    obtain ⟨el, he, h⟩ := Option.bind_eq_some_iff.mp h
    split at h
    · exact inv.dieAll _ h
    · cases h
      exact inv
  | ref e =>
    obtain ⟨el, he, h⟩ := Option.bind_eq_some_iff.mp h
    cases h
    exact inv.retag he _ rfl rfl rfl
  | unref e =>
    obtain ⟨el, he, h⟩ := Option.bind_eq_some_iff.mp h
    split at h
    · cases h
    · split at h
      · exact inv.free h
      · cases h
        exact inv.retag he _ rfl rfl rfl

end

end ContentInv

theorem ContentRun.inv (run : ContentRun md5 st) : ContentInv md5 st := by
  induction run with
  | init =>
    constructor
    · intro s
      exact ContentIndex.Lists.new
    · intro e el he
      cases he
    · intro e _
      rfl
  | step op _ h ih => exact ih.exec h

/-! ## What is found -/

namespace Contents

/-- The elements whose content has the type and the bytes of `c`, alive and in an opened
segment, are found once each, and nothing else is. -/
def Exact (md5 : List UInt8 → Sig) (st : Contents Sig) (opened : OpenedSegments)
    (c : Content) : Prop :=
  ∃ found, st.findByContent md5 opened c = some found ∧ found.Nodup ∧
    ∀ e, e ∈ found ↔ ∃ el, st.elems e = some el ∧ el.seg ∈ opened.segs ∧ el.dead = false ∧
      el.cont.tcont = c.tcont ∧ el.cont.stored = c.stored

/-- In the opened segments only live elements with contents of its own type have the bytes
of `c`. Nothing that is alive is without content if `c` is, and nothing has content if `c`
is one that has not been loaded yet. -/
def Clean (st : Contents Sig) (opened : OpenedSegments) (c : Content) : Prop :=
  ∀ e el, st.elems e = some el → el.seg ∈ opened.segs →
    match c.tcont with
    | .empty => el.dead = false → el.cont.tcont ≠ .empty
    | .lazy => el.cont.tcont = .empty
    | t => el.cont.tcont ≠ .empty → el.cont.stored = c.stored →
        el.dead = false ∧ el.cont.tcont = t

end Contents

namespace ContentIndex

omit [DecidableEq Sig] in
theorem calcSignature_some {md5 : List UInt8 → Sig} {c : Content} {sig : Sig} :
    calcSignature md5 c = some sig ↔
      c.tcont ≠ .empty ∧ c.tcont ≠ .lazy ∧ md5 c.stored = sig := by
  rw [calcSignature]
  cases c.tcont <;> simp

end ContentIndex

namespace ContentInv

open ContentIndex

variable {s : SegId} {c : Content} {sig : Sig}

section

variable (inv : ContentInv md5 st)
include inv

theorem loaded (he : st.elems e = some el) : el.cont.tcont ≠ .lazy := by
  have signed := inv.signed he
  rw [Signed] at signed
  cases hp : el.contSignature with
  | none =>
    rw [hp] at signed
    rw [signed]
    decide
  | some p =>
    rw [hp] at signed
    obtain ⟨sig, hsig, -⟩ := signed
    exact (calcSignature_some.mp hsig).2.1

theorem mem_lookup {p : SigPtr} {lls : List ElemId}
    (hl : (st.cindex s).index.lookup sig = some (p, lls)) :
    e ∈ lls ↔ ∃ el, st.elems e = some el ∧ el.seg = s ∧
      calcSignature md5 el.cont = some sig := by
  rw [(inv.lists s).listed hl, Contents.owns, Option.bind_eq_some_iff]
  constructor
  · rintro ⟨el, he, own⟩
    split at own
    · next seg =>
      have signed := inv.signed he
      rw [Signed, own] at signed
      obtain ⟨sig', hsig, heap⟩ := signed
      rw [seg, (inv.lists s).heap hl] at heap
      cases heap
      exact ⟨el, he, seg, hsig⟩
    · cases own
  · rintro ⟨el, he, seg, hsig⟩
    refine ⟨el, he, ?_⟩
    have signed := inv.signed he
    rw [if_pos seg]
    rw [Signed] at signed
    cases hp : el.contSignature with
    | none =>
      rw [hp] at signed
      exact absurd signed (calcSignature_some.mp hsig).1
    | some q =>
      rw [hp] at signed
      obtain ⟨sig', hsig', heap⟩ := signed
      rw [hsig] at hsig'
      cases hsig'
      have own : st.owns s e = some q := by rw [← seg, Contents.owns_self he, hp]
      obtain ⟨sig', lls', hl'⟩ := (inv.lists s).owned own
      have heap' := (inv.lists s).heap hl'
      rw [← seg, heap] at heap'
      cases heap'
      rw [hl] at hl'
      cases hl'
      rfl

theorem lookup_isSome (he : st.elems e = some el) (seg : el.seg = s)
    (hsig : calcSignature md5 el.cont = some sig) :
    ∃ p lls, (st.cindex s).index.lookup sig = some (p, lls) := by
  have signed := inv.signed he
  rw [Signed] at signed
  cases hp : el.contSignature with
  | none =>
    rw [hp] at signed
    exact absurd signed (calcSignature_some.mp hsig).1
  | some p =>
    rw [hp] at signed
    obtain ⟨sig', hsig', heap⟩ := signed
    rw [hsig] at hsig'
    cases hsig'
    have own : st.owns s e = some p := by rw [← seg, Contents.owns_self he, hp]
    obtain ⟨sig', lls, hl⟩ := (inv.lists s).owned own
    have heap' := (inv.lists s).heap hl
    rw [← seg, heap] at heap'
    cases heap'
    exact ⟨p, lls, hl⟩

theorem find (s : SegId) (hsig : calcSignature md5 c = some sig) :
    ∃ found, (st.cindex s).find md5 c = some found ∧ found.Nodup ∧
      ∀ e, e ∈ found ↔ ∃ el, st.elems e = some el ∧ el.seg = s ∧
        calcSignature md5 el.cont = some sig := by
  have indexed : isIndexedType c.tcont = true := by
    simpa [isIndexedType] using (calcSignature_some.mp hsig).1
  have nothing (none : (st.cindex s).index.lookup sig = none) (e : ElemId) : e ∈ [] ↔
      ∃ el, st.elems e = some el ∧ el.seg = s ∧ calcSignature md5 el.cont = some sig := by
    constructor
    · intro h
      cases h
    · rintro ⟨el, he, seg, hel⟩
      obtain ⟨p, lls, hl⟩ := inv.lookup_isSome he seg hel
      rw [none] at hl
      cases hl
  rw [ContentIndex.find, if_pos indexed]
  split
  · next empty =>
    have none : (st.cindex s).index.lookup sig = none := by
      rw [AList.lookup, List.isEmpty_iff.mp empty]
      rfl
    exact ⟨[], rfl, List.nodup_nil, nothing none⟩
  · rw [hsig, Option.bind_eq_bind, Option.bind_some]
    cases hl : (st.cindex s).index.lookup sig with
    | none => exact ⟨[], rfl, List.nodup_nil, nothing hl⟩
    | some entry =>
      obtain ⟨p, lls⟩ := entry
      exact ⟨lls, rfl, (inv.lists s).nodup hl, fun e => inv.mem_lookup hl⟩

theorem findIn {segs : List SegId} (nodup : segs.Nodup) (hsig : calcSignature md5 c = some sig) :
    ∃ found, st.findIn md5 c segs = some found ∧ found.Nodup ∧
      ∀ e, e ∈ found ↔ ∃ el, st.elems e = some el ∧ el.seg ∈ segs ∧
        calcSignature md5 el.cont = some sig := by
  induction segs with
  | nil => exact ⟨[], rfl, List.nodup_nil, by simp⟩
  | cons s segs ih =>
    obtain ⟨out, nodup⟩ := List.nodup_cons.mp nodup
    obtain ⟨here, find, nodupHere, memHere⟩ := inv.find s hsig
    obtain ⟨rest, findIn, nodupRest, memRest⟩ := ih nodup
    refine ⟨here ++ rest, ?_, ?_, ?_⟩
    · rw [Contents.findIn, find, Option.bind_eq_bind, Option.bind_some, findIn]
      rfl
    · rw [List.nodup_append]
      refine ⟨nodupHere, nodupRest, ?_⟩
      rintro e he _ he' rfl
      obtain ⟨el, hel, seg, -⟩ := (memHere e).mp he
      obtain ⟨el', hel', seg', -⟩ := (memRest e).mp he'
      rw [hel] at hel'
      cases hel'
      exact out (seg ▸ seg')
    · intro e
      rw [List.mem_append, memHere, memRest]
      simp only [List.mem_cons]
      constructor
      · rintro (⟨el, he, seg, h⟩ | ⟨el, he, seg, h⟩)
        · exact ⟨el, he, .inl seg, h⟩
        · exact ⟨el, he, .inr seg, h⟩
      · rintro ⟨el, he, seg | seg, h⟩
        · exact .inl ⟨el, he, seg, h⟩
        · exact .inr ⟨el, he, seg, h⟩

end

theorem findIn_empty (hc : c.tcont = .empty) (segs : List SegId) :
    st.findIn md5 c segs = some [] := by
  induction segs with
  | nil => rfl
  | cons s segs ih =>
    have find : (st.cindex s).find md5 c = some [] := by
      rw [ContentIndex.find, if_neg (by simp [isIndexedType, hc])]
    rw [Contents.findIn, find, ih]
    rfl

/-- A content that is not loaded can be looked for only while nothing is indexed. -/
theorem findIn_lazy (inv : ContentInv md5 st) (hc : c.tcont = .lazy) (segs : List SegId)
    (found : List ElemId) : st.findIn md5 c segs = some found ↔
      found = [] ∧ ∀ e el, st.elems e = some el → el.seg ∈ segs → el.cont.tcont = .empty := by
  induction segs generalizing found with
  | nil => simp [Contents.findIn, eq_comm]
  | cons s segs ih =>
    have empty_iff : (st.cindex s).index.entries = [] ↔
        ∀ e el, st.elems e = some el → el.seg = s → el.cont.tcont = .empty := by
      constructor
      · intro empty e el he seg
        by_contra h
        have hsig : calcSignature md5 el.cont = some (md5 el.cont.stored) :=
          calcSignature_some.mpr ⟨h, inv.loaded he, rfl⟩
        obtain ⟨p, lls, hl⟩ := inv.lookup_isSome he seg hsig
        rw [AList.lookup, empty] at hl
        cases hl
      · intro none
        cases entries : (st.cindex s).index.entries with
        | nil => rfl
        | cons entry rest =>
          obtain ⟨sig, p, lls⟩ := entry
          have hl : (st.cindex s).index.lookup sig = some (p, lls) := by
            rw [AList.lookup, entries, List.dlookup_cons_eq]
          obtain ⟨e, he⟩ := List.exists_mem_of_ne_nil _ ((inv.lists s).nonempty hl)
          obtain ⟨el, hel, seg, hsig⟩ := (inv.mem_lookup hl).mp he
          exact absurd (none e el hel seg) (calcSignature_some.mp hsig).1
    have find : (st.cindex s).find md5 c =
        if (st.cindex s).index.entries = [] then some [] else none := by
      rw [ContentIndex.find, if_pos (by simp [isIndexedType, hc]), calcSignature, hc]
      simp only [List.isEmpty_iff]
      rfl
    rw [Contents.findIn, find]
    by_cases empty : (st.cindex s).index.entries = []
    · rw [if_pos empty, Option.bind_eq_bind, Option.bind_some, Option.bind_eq_some_iff]
      simp only [List.nil_append, Option.some.injEq]
      rw [empty_iff] at empty
      constructor
      · rintro ⟨rest, hrest, rfl⟩
        obtain ⟨rfl, none⟩ := (ih rest).mp hrest
        refine ⟨rfl, fun e el he seg => ?_⟩
        rcases List.mem_cons.mp seg with seg | seg
        · exact empty e el he seg
        · exact none e el he seg
      · rintro ⟨rfl, none⟩
        exact ⟨[], (ih []).mpr ⟨rfl, fun e el he seg =>
          none e el he (List.mem_cons_of_mem _ seg)⟩, rfl⟩
    · rw [if_neg empty]
      rw [empty_iff] at empty
      constructor
      · intro h
        cases h
      · rintro ⟨-, none⟩
        exact absurd (fun e el he seg => none e el he (List.mem_cons.mpr (.inl seg))) empty

end ContentInv

def OpenedSegments.first : OpenedSegments := ⟨[0], by decide⟩

end ScCore.Store
