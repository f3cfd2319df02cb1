import ScCore.Lib.NameIndex
import ScCore.Store.View

/-!
# The identifier index of a segment

Each segment keeps a map from identifiers to elements beside the identifiers
in the elements. The string of an element whose identifier is erased stays in
the element; it is only marked as missing, and the name may be taken by
another element meanwhile.
-/

namespace ScCore.Store

open Memory TmpSegment Lib Function

def Element.name (el : Element) : Option ScString :=
  if !el.isLink && el.hasIdtf then some el.idtf else none

namespace Memory

def idtfIn (m : Memory) (seg : SegId) (e : ElemId) : Option ScString :=
  if e ∈ (m.segs seg).elements then (m.elems e).bind (·.name) else none

end Memory

theorem Element.name_eq_some {el : Element} {s : ScString} :
    el.name = some s ↔ el.isLink = false ∧ el.hasIdtf = true ∧ el.idtf = s := by
  simp [Element.name, and_assoc]

theorem idtfIn_eq_some {m : Memory} {seg : SegId} {e : ElemId} {s : ScString} :
    m.idtfIn seg e = some s ↔ e ∈ (m.segs seg).elements ∧
      ∃ el, m.elems e = some el ∧ el.isLink = false ∧ el.hasIdtf = true ∧ el.idtf = s := by
  unfold Memory.idtfIn
  split
  · next he => simp [he, Option.bind_eq_some_iff, Element.name_eq_some]
  · next he => simp [he]

structure Segmented (m : Memory) : Prop where
  stored : ∀ {seg e}, e ∈ (m.segs seg).elements → ∃ el, m.elems e = some el
  once : ∀ {seg seg' e}, e ∈ (m.segs seg).elements → e ∈ (m.segs seg').elements → seg = seg'
  nodup : ∀ seg, (m.segs seg).elements.Nodup
  fresh : ∀ {e el}, m.elems e = some el → e < m.nextElem

structure NameInv (m : Memory) : Prop extends Segmented m where
  indexed : ∀ seg, Indexes (m.segs seg).idtfMap (m.idtfIn seg)

theorem NameInv.empty (uri tmpPrefix : SegId → ScString) :
    NameInv (Memory.empty uri tmpPrefix) where
  stored he := absurd he List.not_mem_nil
  once he _ := absurd he List.not_mem_nil
  nodup _ := List.nodup_nil
  fresh he := by cases he
  indexed seg s e := by simp [Memory.empty, Memory.idtfIn]

structure Edits (seg : SegId) (e : ElemId) (el : Element) (index : ScString → Option ElemId)
    (m m' : Memory) : Prop where
  elements : ∀ j, (m'.segs j).elements = (m.segs j).elements
  index : (m'.segs seg).idtfMap = index
  others : ∀ j, j ≠ seg → (m'.segs j).idtfMap = (m.segs j).idtfMap
  elems : ∀ x, m'.elems x = if x = e then some el else m.elems x
  nextElem : m'.nextElem = m.nextElem

namespace Edits

variable {seg : SegId} {e : ElemId} {el : Element} {index : ScString → Option ElemId}
  {m m' : Memory}

theorem segmented (ed : Edits seg e el index m m') (inv : Segmented m)
    (he : e ∈ (m.segs seg).elements) : Segmented m' where
  stored {j x} hx := by
    rw [ed.elements] at hx
    rw [ed.elems]
    split
    · exact ⟨el, rfl⟩
    · exact inv.stored hx
  once hx hx' := by
    rw [ed.elements] at hx hx'
    exact inv.once hx hx'
  nodup j := by
    rw [ed.elements]
    exact inv.nodup j
  fresh {x o} hx := by
    rw [ed.nextElem]
    rw [ed.elems] at hx
    split at hx
    · next h =>
      obtain ⟨o', ho'⟩ := inv.stored he
      exact h ▸ inv.fresh ho'
    · exact inv.fresh hx

theorem idtfIn_self (ed : Edits seg e el index m m') (he : e ∈ (m.segs seg).elements) :
    m'.idtfIn seg = update (m.idtfIn seg) e el.name := by
  funext x
  rw [update_apply, Memory.idtfIn, Memory.idtfIn, ed.elements, ed.elems]
  by_cases hx : x = e
  · subst hx
    simp [he]
  · simp [hx]

theorem idtfIn_other (ed : Edits seg e el index m m') (inv : Segmented m)
    (he : e ∈ (m.segs seg).elements) {j : SegId} (hj : j ≠ seg) : m'.idtfIn j = m.idtfIn j := by
  funext x
  rw [Memory.idtfIn, Memory.idtfIn, ed.elements, ed.elems]
  split
  · next hx =>
    have hne : x ≠ e := by
      rintro rfl
      exact hj (inv.once hx he)
    rw [if_neg hne]
  · rfl

theorem keeps (ed : Edits seg e el index m m') (inv : NameInv m)
    (he : e ∈ (m.segs seg).elements)
    (follows : Indexes index (update (m.idtfIn seg) e el.name)) : NameInv m' where
  toSegmented := ed.segmented inv.toSegmented he
  indexed j := by
    by_cases hj : j = seg
    · subst hj
      rw [ed.index, ed.idtfIn_self he]
      exact follows
    · rw [ed.others j hj, ed.idtfIn_other inv.toSegmented he hj]
      exact inv.indexed j

end Edits

/-! ## Renaming -/

section Naming

variable {m m' : Memory} {seg : SegId} {e : ElemId} {el : Element} {s : ScString}

theorem idtfIn_stored (he : e ∈ (m.segs seg).elements) (hel : m.elems e = some el) :
    m.idtfIn seg e = el.name := by
  simp [Memory.idtfIn, he, hel]

theorem Element.name_of_idtf (hlink : el.isLink = false) (hidtf : el.hasIdtf = true) :
    el.name = some el.idtf := by
  simp [Element.name, hlink, hidtf]

theorem Element.name_of_missing (hidtf : el.hasIdtf = false) : el.name = none := by
  simp [Element.name, hidtf]

theorem Edits.deregister (hel : m.elems e = some el) :
    Edits seg e { el with missingIdtf := true } (update (m.segs seg).idtfMap el.idtf none) m
      ((deregisterIdtf m seg el.idtf).mapElem e fun el => { el with missingIdtf := true }) where
  elements j := by
    simp only [deregisterIdtf, modifySeg, mapElem]
    split <;> simp [*]
  index := by
    funext t
    simp [deregisterIdtf, modifySeg, mapElem, update_apply]
  others j hj := by simp [deregisterIdtf, modifySeg, mapElem, hj]
  elems x := by
    simp only [mapElem, deregisterIdtf, modifySeg]
    split
    · next h => simp [h, hel]
    · rfl
  nextElem := rfl

theorem NameInv.eraseIdtf (inv : NameInv m) (he : e ∈ (m.segs seg).elements)
    (hel : m.elems e = some el) (hlink : el.isLink = false)
    (h : TmpSegment.eraseIdtf m seg e = some m') : NameInv m' := by
  simp only [TmpSegment.eraseIdtf, hel, Option.bind_eq_bind, Option.bind_some] at h
  split at h
  · next hidtf =>
    have hel' : (deregisterIdtf m seg el.idtf).elems e = some el := hel
    rw [modifyElem_eq hel'] at h
    obtain rfl := Option.some.inj h
    apply (Edits.deregister hel).keeps inv he
    rw [show ({ el with missingIdtf := true } : Element).name = none from
      Element.name_of_missing rfl]
    apply (inv.indexed seg).remove
    rw [idtfIn_stored he hel, Element.name_of_idtf hlink hidtf]
  · obtain rfl := Option.some.inj h
    exact inv

def renamed (index : ScString → Option ElemId) (e : ElemId) (el : Element) (s : ScString) :
    ScString → Option ElemId :=
  if el.hasIdtf then update (update index s (some e)) el.idtf none else update index s (some e)

theorem NameInv.renamed (inv : NameInv m) (he : e ∈ (m.segs seg).elements)
    (hel : m.elems e = some el) (hlink : el.isLink = false) (free : (m.segs seg).idtfMap s = none)
    (ed : Edits seg e { el with idtf := s, missingIdtf := false }
      (renamed (m.segs seg).idtfMap e el s) m m') : NameInv m' := by
  have hname : ({ el with idtf := s, missingIdtf := false } : Element).name = some s := by
    simp [Element.name, hlink, Element.hasIdtf]
  apply ed.keeps inv he
  rw [hname, Store.renamed]
  split
  · next hidtf =>
    apply (inv.indexed seg).rename free
    rw [idtfIn_stored he hel, Element.name_of_idtf hlink hidtf]
  · next hidtf =>
    apply (inv.indexed seg).insert free
    rw [idtfIn_stored he hel, Element.name_of_missing (by simpa using hidtf)]

theorem registerIdtf_eq_some {m₁ : Memory} (h : registerIdtf m seg s e = some m₁) :
    (m.segs seg).idtfMap s = none ∧
      m₁ = m.modifySeg seg fun sg => { sg with idtfMap := update sg.idtfMap s (some e) } := by
  unfold registerIdtf at h
  split at h
  · cases h
  · next hfree =>
    refine ⟨by simpa using hfree, ?_⟩
    rw [← Option.some.inj h]
    congr 1
    funext sg
    congr 1
    funext t
    simp [update_apply]

theorem generateIdtf_edits (hel : m.elems e = some el) (hidtf : el.hasIdtf = false)
    (h : generateIdtf m seg e = some m') :
    ∃ s, (m.segs seg).idtfMap s = none ∧
      Edits seg e { el with idtf := s, missingIdtf := false }
        (renamed (m.segs seg).idtfMap e el s) m m' := by
  simp only [generateIdtf, Option.bind_eq_bind, Option.bind_eq_some_iff] at h
  obtain ⟨m₁, hm₁, h⟩ := h
  obtain ⟨hfree, rfl⟩ := registerIdtf_eq_some hm₁
  obtain ⟨-, rfl⟩ := modifyElem_some h
  refine ⟨_, hfree, ?_, ?_, ?_, ?_, rfl⟩
  · intro j
    simp only [modifySeg, mapElem]
    split <;> simp [*]
  · simp [modifySeg, mapElem, renamed, hidtf]
  · intro j hj
    simp [modifySeg, mapElem, hj]
  · intro x
    simp only [mapElem, modifySeg]
    split
    · next hx => simp [hx, hel]
    · rfl

theorem NameInv.getIdtf {str : ScString} (inv : NameInv m) (he : e ∈ (m.segs seg).elements)
    (hel : m.elems e = some el) (hlink : el.isLink = false)
    (h : TmpSegment.getIdtf m seg e = some (m', str)) :
    NameInv m' ∧ m'.idtfIn seg e = some str := by
  simp only [TmpSegment.getIdtf, hel, Option.bind_eq_bind, Option.bind_some] at h
  cases hidtf : el.hasIdtf with
  | true =>
    simp only [hidtf, if_true, Option.some.injEq, Prod.mk.injEq] at h
    obtain ⟨rfl, rfl⟩ := h
    exact ⟨inv, (idtfIn_stored he hel).trans (Element.name_of_idtf hlink hidtf)⟩
  | false =>
    simp only [hidtf, Bool.false_eq_true, if_false, Option.bind_eq_some_iff, Option.some.injEq,
      Prod.mk.injEq] at h
    obtain ⟨m₁, hm₁, el₁, hel₁, rfl, rfl⟩ := h
    obtain ⟨s, free, ed⟩ := generateIdtf_edits hel hidtf hm₁
    have hs : m₁.idtfIn seg e = some s := by
      rw [ed.idtfIn_self he, update_self]
      simp [Element.name, hlink, Element.hasIdtf]
    rw [ed.elems, if_pos rfl] at hel₁
    obtain rfl := Option.some.inj hel₁
    exact ⟨inv.renamed he hel hlink free ed, hs⟩

/-- A refused `set_idtf` has found its name taken by another element; else only the name and the
index are written. -/
theorem setIdtf_cases {rv : Retval} (hel : m.elems e = some el) (hs : s ≠ [])
    (h : TmpSegment.setIdtf m seg e s = some (m', rv)) :
    (m' = m ∧ rv = rvOk ∧ el.hasIdtf = true ∧ el.idtf = s) ∨
    (m' = m ∧ rv = rvErrGen ∧ (el.hasIdtf = true → el.idtf ≠ s) ∧
      ∃ e', (m.segs seg).idtfMap s = some e') ∨
    (rv = rvOk ∧ (m.segs seg).idtfMap s = none ∧
      Edits seg e { el with idtf := s, missingIdtf := false }
        (renamed (m.segs seg).idtfMap e el s) m m') := by
  simp only [TmpSegment.setIdtf, hel, Option.bind_eq_bind, Option.bind_some, if_neg hs] at h
  split at h
  · next hsame =>
    obtain ⟨rfl, rfl⟩ := Prod.mk.inj (Option.some.inj h)
    exact .inl ⟨rfl, rfl, by simpa using hsame⟩
  · next hother =>
    have hother : el.hasIdtf = true → el.idtf ≠ s := by simpa using hother
    split at h
    · next hreg =>
      obtain ⟨rfl, rfl⟩ := Prod.mk.inj (Option.some.inj h)
      refine .inr (.inl ⟨rfl, rfl, hother, ?_⟩)
      unfold registerIdtf at hreg
      split at hreg
      · next htaken => exact Option.isSome_iff_exists.mp htaken
      · cases hreg
    · next m₁ hreg =>
      obtain ⟨free, rfl⟩ := registerIdtf_eq_some hreg
      obtain ⟨m₂, hm₂, h⟩ := Option.bind_eq_some_iff.mp h
      obtain ⟨rfl, rfl⟩ := Prod.mk.inj (Option.some.inj h)
      refine .inr (.inr ⟨rfl, free, ?_⟩)
      obtain ⟨-, rfl⟩ := modifyElem_some hm₂
      constructor
      · intro j
        cases hidtf : el.hasIdtf <;> by_cases hj : j = seg <;>
          simp [deregisterIdtf, modifySeg, mapElem, hj]
      · funext t
        cases hidtf : el.hasIdtf <;>
          simp [deregisterIdtf, modifySeg, mapElem, renamed, hidtf, update_apply]
      · intro j hj
        cases hidtf : el.hasIdtf <;> simp [deregisterIdtf, modifySeg, mapElem, hj]
      · intro x
        simp only [mapElem, deregisterIdtf, modifySeg]
        cases hidtf : el.hasIdtf <;> by_cases hx : x = e <;> simp [hx, hel]
      · cases hidtf : el.hasIdtf <;> rfl

theorem NameInv.setIdtf {rv : Retval} (inv : NameInv m) (he : e ∈ (m.segs seg).elements)
    (hel : m.elems e = some el) (hlink : el.isLink = false)
    (h : TmpSegment.setIdtf m seg e s = some (m', rv)) : NameInv m' := by
  by_cases hs : s = []
  · subst hs
    simp only [TmpSegment.setIdtf, hel, Option.bind_eq_bind, Option.bind_some, if_true,
      Option.bind_eq_some_iff, Option.some.injEq, Prod.mk.injEq] at h
    obtain ⟨m₁, hm₁, rfl, rfl⟩ := h
    exact inv.eraseIdtf he hel hlink hm₁
  · obtain ⟨rfl, -⟩ | ⟨rfl, -⟩ | ⟨-, free, ed⟩ := setIdtf_cases hel hs h
    · exact inv
    · exact inv
    · exact inv.renamed he hel hlink free ed

end Naming

/-! ## Creation and deletion -/

section Storing

variable {m m' : Memory} {seg : SegId} {e : ElemId} {el : Element}

theorem NameInv.join (inv : NameInv m) (hname : el.name = none) {l : List ElemId}
    (hl : l.Perm (m.nextElem :: (m.segs seg).elements)) :
    NameInv ((m.newElem el).modifySeg seg fun sg => { sg with elements := l }) := by
  have hfresh : ∀ j, m.nextElem ∉ (m.segs j).elements := by
    intro j hj
    obtain ⟨o, ho⟩ := inv.stored hj
    exact Nat.lt_irrefl _ (inv.fresh ho)
  have hmem : ∀ j x, x ∈ (((m.newElem el).modifySeg seg fun sg =>
      { sg with elements := l }).segs j).elements ↔
      (x = m.nextElem ∧ j = seg) ∨ x ∈ (m.segs j).elements := by
    intro j x
    by_cases hj : j = seg
    · simp [modifySeg, newElem, hj, hl.mem_iff]
    · simp [modifySeg, newElem, hj]
  constructor
  · constructor
    · intro j x hx
      rcases (hmem j x).mp hx with ⟨rfl, -⟩ | hx
      · exact ⟨el, if_pos rfl⟩
      · obtain ⟨o, ho⟩ := inv.stored hx
        exact ⟨o, (if_neg (Nat.ne_of_lt (inv.fresh ho))).trans ho⟩
    · intro j j' x hx hx'
      rcases (hmem j x).mp hx with ⟨rfl, rfl⟩ | hx
      · rcases (hmem j' _).mp hx' with ⟨-, rfl⟩ | hx'
        · rfl
        · exact absurd hx' (hfresh j')
      · rcases (hmem j' x).mp hx' with ⟨rfl, -⟩ | hx'
        · exact absurd hx (hfresh j)
        · exact inv.once hx hx'
    · intro j
      by_cases hj : j = seg
      · subst hj
        simpa [modifySeg, newElem, hl.nodup_iff] using ⟨hfresh j, inv.nodup j⟩
      · simpa [modifySeg, newElem, hj] using inv.nodup j
    · intro x o hx
      simp only [modifySeg, newElem] at hx ⊢
      split at hx
      · next h => exact h ▸ Nat.lt_succ_self _
      · exact Nat.lt_succ_of_lt (inv.fresh hx)
  · intro j
    have hindex : (((m.newElem el).modifySeg seg fun sg => { sg with elements := l }).segs
        j).idtfMap = (m.segs j).idtfMap := by
      simp only [modifySeg, newElem]
      split <;> simp [*]
    have hnames : ((m.newElem el).modifySeg seg fun sg => { sg with elements := l }).idtfIn j =
        m.idtfIn j := by
      funext x
      by_cases hx : x = m.nextElem
      · subst hx
        simp [Memory.idtfIn, hfresh j, newElem, modifySeg, hname]
      · have hmem' := hmem j x
        simp only [hx, false_and, false_or] at hmem'
        rw [Memory.idtfIn, Memory.idtfIn, if_congr hmem' rfl rfl]
        simp [newElem, modifySeg, hx]
    rw [hindex, hnames]
    exact inv.indexed j

theorem NameInv.genEl (inv : NameInv m) (seg : SegId) (type : ScType) :
    NameInv (TmpSegment.genEl m seg type).1 :=
  inv.join rfl (List.perm_append_singleton _ _)

theorem NameInv.createLink (inv : NameInv m) (seg : SegId) (targetUri : ScString) :
    NameInv (TmpSegment.createLink m seg targetUri).1 :=
  inv.join rfl (List.Perm.refl _)

theorem NameInv.eraseEl (inv : NameInv m) (he : e ∈ (m.segs seg).elements)
    (h : TmpSegment.eraseEl m seg e = some m') : NameInv m' := by
  obtain ⟨el, hel⟩ := inv.stored he
  simp only [TmpSegment.eraseEl, hel, Option.bind_eq_bind, Option.bind_some, Option.some.injEq] at h
  have hseg : ∀ j, (m'.segs j).elements =
      if j = seg then (m.segs seg).elements.erase e else (m.segs j).elements := by
    intro j
    subst h
    by_cases hj : j = seg <;> cases hc : (!el.isLink && el.hasIdtf) <;>
      simp [freeElem, modifySeg, deregisterIdtf, hj]
  have hmem : ∀ j x, x ∈ (m'.segs j).elements ↔ x ≠ e ∧ x ∈ (m.segs j).elements := by
    intro j x
    rw [hseg]
    split
    · next hj => rw [hj, (inv.nodup seg).mem_erase_iff]
    · next hj =>
      constructor
      · intro hx
        refine ⟨?_, hx⟩
        rintro rfl
        exact hj (inv.once hx he)
      · exact And.right
  have helems : ∀ x, m'.elems x = if x = e then none else m.elems x := by
    intro x
    subst h
    cases hc : (!el.isLink && el.hasIdtf) <;> simp [freeElem, modifySeg, deregisterIdtf]
  have hindex : ∀ j, (m'.segs j).idtfMap = if j = seg ∧ el.name.isSome then
      update (m.segs j).idtfMap el.idtf none else (m.segs j).idtfMap := by
    intro j
    subst h
    funext t
    by_cases hj : j = seg <;> cases hc : (!el.isLink && el.hasIdtf) <;>
      simp [freeElem, modifySeg, deregisterIdtf, hj, Element.name, hc, update_apply]
  have hnext : m'.nextElem = m.nextElem := by
    subst h
    cases hc : (!el.isLink && el.hasIdtf) <;> simp [freeElem, modifySeg, deregisterIdtf]
  have hnames : ∀ j, m'.idtfIn j = update (m.idtfIn j) e none := by
    intro j
    funext x
    rw [Memory.idtfIn, if_congr (hmem j x) rfl rfl, helems, update_apply, Memory.idtfIn]
    by_cases hx : x = e <;> simp [hx]
  constructor
  · constructor
    · intro j x hx
      obtain ⟨hne, hx⟩ := (hmem j x).mp hx
      rw [helems, if_neg hne]
      exact inv.stored hx
    · intro j j' x hx hx'
      exact inv.once ((hmem j x).mp hx).2 ((hmem j' x).mp hx').2
    · intro j
      rw [hseg]
      split
      · exact (inv.nodup seg).erase e
      · exact inv.nodup j
    · intro x o hx
      rw [hnext]
      rw [helems] at hx
      split at hx
      · cases hx
      · exact inv.fresh hx
  · intro j
    rw [hnames, hindex]
    split
    · next hj =>
      obtain ⟨rfl, hname⟩ := hj
      obtain ⟨t, ht⟩ := Option.isSome_iff_exists.mp hname
      obtain ⟨-, -, rfl⟩ := Element.name_eq_some.mp ht
      apply (inv.indexed j).remove
      rw [idtfIn_stored he hel, ht]
    · next hj =>
      apply (inv.indexed j).forget
      by_cases hjs : j = seg
      · subst hjs
        rw [idtfIn_stored he hel]
        simpa using hj
      · rw [Memory.idtfIn, if_neg]
        exact fun hx => hjs (inv.once hx he)

end Storing

/-! ## Runs -/

inductive SegmentOp where
  | genEl (type : ScType)
  | createLink (targetUri : ScString)
  | setIdtf (e : ElemId) (idtf : ScString)
  | eraseIdtf (e : ElemId)
  | getIdtf (e : ElemId)
  | findByIdtf (idtf : ScString)
  | eraseEl (e : ElemId)

/-- Whether a pointer is to an element of the segment that is not a link. The
methods that are about identifiers assert that it is not. -/
def Memory.isNamed (m : Memory) (seg : SegId) (e : ElemId) : Bool :=
  decide (e ∈ (m.segs seg).elements) && (m.elems e).any (!·.isLink)

theorem isNamed_iff {m : Memory} {seg : SegId} {e : ElemId} :
    m.isNamed seg e = true ↔
      e ∈ (m.segs seg).elements ∧ ∃ el, m.elems e = some el ∧ el.isLink = false := by
  simp [Memory.isNamed, Option.any_eq_true]

/-- One call; an assertion that fails stops the run. -/
def SegmentOp.exec (seg : SegId) (m : Memory) : SegmentOp → Option Memory
  | genEl type => some (TmpSegment.genEl m seg type).1
  | createLink targetUri => some (TmpSegment.createLink m seg targetUri).1
  | setIdtf e idtf =>
      if m.isNamed seg e then (TmpSegment.setIdtf m seg e idtf).map (·.1) else none
  | eraseIdtf e => if m.isNamed seg e then TmpSegment.eraseIdtf m seg e else none
  | getIdtf e => if m.isNamed seg e then (TmpSegment.getIdtf m seg e).map (·.1) else none
  | findByIdtf _ => some m
  | eraseEl e => if e ∈ (m.segs seg).elements then TmpSegment.eraseEl m seg e else none

def runSegments (ops : List (SegId × SegmentOp)) (m : Memory) : Option Memory :=
  ops.foldlM (fun m op => op.2.exec op.1 m) m

section Runs

variable {m m' : Memory} {seg : SegId}

theorem NameInv.exec (inv : NameInv m) {op : SegmentOp} (h : op.exec seg m = some m') :
    NameInv m' := by
  cases op with
  | genEl type => exact Option.some.inj h ▸ inv.genEl seg type
  | createLink targetUri => exact Option.some.inj h ▸ inv.createLink seg targetUri
  | setIdtf e idtf =>
    simp only [SegmentOp.exec, Option.ite_none_right_eq_some, isNamed_iff, Option.map_eq_some_iff,
      Prod.exists, exists_and_right, exists_eq_right] at h
    obtain ⟨⟨he, el, hel, hlink⟩, rv, h⟩ := h
    exact inv.setIdtf he hel hlink h
  | eraseIdtf e =>
    simp only [SegmentOp.exec, Option.ite_none_right_eq_some, isNamed_iff] at h
    obtain ⟨⟨he, el, hel, hlink⟩, h⟩ := h
    exact inv.eraseIdtf he hel hlink h
  | getIdtf e =>
    simp only [SegmentOp.exec, Option.ite_none_right_eq_some, isNamed_iff, Option.map_eq_some_iff,
      Prod.exists, exists_and_right, exists_eq_right] at h
    obtain ⟨⟨he, el, hel, hlink⟩, str, h⟩ := h
    exact (inv.getIdtf he hel hlink h).1
  | findByIdtf idtf => exact Option.some.inj h ▸ inv
  | eraseEl e =>
    simp only [SegmentOp.exec, Option.ite_none_right_eq_some] at h
    exact inv.eraseEl h.1 h.2

theorem NameInv.run {ops : List (SegId × SegmentOp)} :
    ∀ {m : Memory}, NameInv m → runSegments ops m = some m' → NameInv m' := by
  induction ops with
  | nil => exact fun inv h => Option.some.inj h ▸ inv
  | cons op ops ih =>
    intro m inv h
    obtain ⟨m₁, hm₁, h⟩ := Option.bind_eq_some_iff.mp h
    exact ih (inv.exec hm₁) h

theorem findByIdtf_iff (inv : NameInv m) {s : ScString} {e : ElemId} :
    findByIdtf m seg s = some e ↔ m.isNamed seg e = true ∧ getIdtf m seg e = some (m, s) ∧
      ∃ el, m.elems e = some el ∧ el.hasIdtf = true := by
  rw [findByIdtf, inv.indexed seg s e, idtfIn_eq_some, isNamed_iff]
  constructor
  · rintro ⟨he, el, hel, hlink, hidtf, rfl⟩
    exact ⟨⟨he, el, hel, hlink⟩, by simp [getIdtf, hel, hidtf], el, hel, hidtf⟩
  · rintro ⟨⟨he, el, hel, hlink⟩, hget, el', hel', hidtf⟩
    obtain rfl := Option.some.inj (hel.symm.trans hel')
    refine ⟨he, el, hel, hlink, hidtf, ?_⟩
    simpa [getIdtf, hel, hidtf] using hget

theorem setIdtf_refused {e : ElemId} {s : ScString} {rv : Retval}
    (h : setIdtf m seg e s = some (m', rv)) (hrv : rv ≠ rvOk) : m' = m := by
  by_cases hs : s = []
  · simp only [setIdtf, hs, if_true, Option.bind_eq_bind, Option.bind_eq_some_iff,
      Option.some.injEq, Prod.mk.injEq] at h
    obtain ⟨-, -, -, -, -, rfl⟩ := h
    exact absurd rfl hrv
  · obtain ⟨el, hel, -⟩ := Option.bind_eq_some_iff.mp h
    obtain ⟨rfl, -⟩ | ⟨rfl, -⟩ | ⟨rfl, -⟩ := setIdtf_cases hel hs h
    · rfl
    · rfl
    · exact absurd rfl hrv

/-- The index of a segment holds exactly the identifiers of its stored elements. -/
theorem idtf_index {uri tmpPrefix : SegId → ScString} {ops : List (SegId × SegmentOp)}
    (h : runSegments ops (Memory.empty uri tmpPrefix) = some m) (seg : SegId) :
    (∀ s e, (m.segs seg).idtfMap s = some e ↔ e ∈ (m.segs seg).elements ∧
      ∃ el, m.elems e = some el ∧ el.isLink = false ∧ el.hasIdtf = true ∧ el.idtf = s) ∧
    (∀ s e e', m.idtfIn seg e = some s → m.idtfIn seg e' = some s → e = e') ∧
    (∀ s e, findByIdtf m seg s = some e ↔ m.isNamed seg e = true ∧
      getIdtf m seg e = some (m, s) ∧ ∃ el, m.elems e = some el ∧ el.hasIdtf = true) ∧
    (∀ s e m', m.isNamed seg e = true → getIdtf m seg e = some (m', s) →
      findByIdtf m' seg s = some e) ∧
    (∀ s e m' rv, setIdtf m seg e s = some (m', rv) → rv ≠ rvOk → m' = m) := by
  have inv : NameInv m := (NameInv.empty uri tmpPrefix).run h
  refine ⟨fun s e => (inv.indexed seg s e).trans idtfIn_eq_some, ?_, ?_, ?_, ?_⟩
  · intro s e e' he he'
    exact (inv.indexed seg).unique he he'
  · intro s e
    exact findByIdtf_iff inv
  · intro s e m' hnamed hget
    obtain ⟨he, el, hel, hlink⟩ := isNamed_iff.mp hnamed
    obtain ⟨inv', hname⟩ := inv.getIdtf he hel hlink hget
    exact (inv'.indexed seg s e).mpr hname
  · intro s e m' rv hset hrv
    exact setIdtf_refused hset hrv

def takeover : List (SegId × SegmentOp) :=
  [(0, .genEl 1), (0, .setIdtf 0 [97]), (0, .eraseIdtf 0), (0, .genEl 1), (0, .setIdtf 1 [97]),
    (0, .eraseEl 0)]

theorem idtf_index_takeover :
    ∃ m, runSegments takeover (Memory.empty (fun _ => []) fun _ => []) = some m ∧
      findByIdtf m 0 [97] = some 1 ∧ getIdtf m 0 1 = some (m, [97]) := by
  obtain ⟨m, hm⟩ : ∃ m, runSegments takeover (Memory.empty (fun _ => []) fun _ => []) = some m :=
    ⟨_, rfl⟩
  have found : findByIdtf m 0 [97] = some 1 := Option.some.inj hm ▸ rfl
  exact ⟨m, hm, found, (((idtf_index hm 0).2.2.1 [97] 1).mp found).2.1⟩

end Runs

end ScCore.Store
