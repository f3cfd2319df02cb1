import Mathlib.Data.List.AList
import ScCore.Lib.Bytes
import ScCore.Store.Memory

/-!
# The index of contents

`content_index.cpp`. An entry is keyed by the digest that its pointer leads to and lists
the elements with that digest; an element keeps the pointer.
-/

namespace ScCore.Store

inductive TCont where
  | empty
  | string
  | int
  | real
  | data
  | lazy
  deriving DecidableEq, Repr

namespace Content

/-- `Content::type`. -/
def tcont : Content → TCont
  | empty => .empty
  | string _ => .string
  | int _ => .int
  | real _ => .real
  | data _ => .data
  | lazy _ => .lazy

def stored : Content → List UInt8
  | empty => []
  | string bytes => bytes ++ [0]
  | int i => Lib.toBytes 8 (i % 2 ^ 64).toNat
  | real bits => Lib.toBytes 8 bits.toNat
  | data bytes => bytes
  | lazy uri => uri ++ [0]

end Content

/-- A pointer to a digest, `cont_signature`. -/
abbrev SigPtr := Nat

variable {Sig : Type} [DecidableEq Sig]

structure ContentIndex (Sig : Type) where
  /-- The digests that have been allocated and not been freed. -/
  heap : SigPtr → Option Sig
  fresh : SigPtr
  /-- `index`; the pointer is the key, which is compared by what it leads to. -/
  index : AList fun _ : Sig => SigPtr × List ElemId

namespace ContentIndex

def new : ContentIndex Sig := ⟨fun _ => none, 0, ∅⟩

variable (md5 : List UInt8 → Sig) (ix : ContentIndex Sig)

/-- `calc_signature`. Nothing stands for `SC_ABORT_MESSAGE`. -/
def calcSignature (c : Content) : Option Sig :=
  match c.tcont with
  | .string | .data | .int | .real => some (md5 c.stored)
  | .empty | .lazy => none

def isIndexedType (t : TCont) : Bool := t ≠ .empty

/-- `clear`. Nothing stands for a read through a freed pointer or a failed assertion. -/
def clear (ll : ElemId) : Option SigPtr → Option (ContentIndex Sig)
  | none => some ix
  | some cur => do
      let sig ← ix.heap cur
      let (key, lls) ← ix.index.lookup sig
      let lls := lls.filter fun e => e ≠ ll
      if lls.isEmpty then
        some { ix with index := ix.index.erase sig, heap := Function.update ix.heap cur none }
      else some { ix with index := ix.index.insert sig (key, lls) }

/-- The rest of `update` for the digest `sig`. -/
def enter (ll : ElemId) (sig : Sig) : ContentIndex Sig × SigPtr :=
  match ix.index.lookup sig with
  | some (key, lls) => ({ ix with index := ix.index.insert sig (key, lls ++ [ll]) }, key)
  | none =>
      (⟨Function.update ix.heap ix.fresh (some sig), ix.fresh + 1,
        ix.index.insert sig (ix.fresh, [ll])⟩, ix.fresh)

/-- `update`, with the signature for the new content. -/
def update (ll : ElemId) (cur : Option SigPtr) (c : Content) :
    Option (ContentIndex Sig × Option SigPtr) := do
  let ix ← ix.clear ll cur
  if isIndexedType c.tcont then
    let sig ← calcSignature md5 c
    some ((ix.enter ll sig).1, some (ix.enter ll sig).2)
  else some (ix, none)

def find (c : Content) : Option (List ElemId) :=
  if isIndexedType c.tcont then
    if ix.index.entries.isEmpty then some []
    else do
      let sig ← calcSignature md5 c
      match ix.index.lookup sig with
      | some (_, lls) => some lls
      | none => some []
  else some []

structure Lists (owns : ElemId → Option SigPtr) : Prop where
  heap : ∀ {sig p lls}, ix.index.lookup sig = some (p, lls) → ix.heap p = some sig
  fresh : ∀ {p sig}, ix.heap p = some sig → p < ix.fresh
  nodup : ∀ {sig p lls}, ix.index.lookup sig = some (p, lls) → lls.Nodup
  nonempty : ∀ {sig p lls}, ix.index.lookup sig = some (p, lls) → lls ≠ []
  listed : ∀ {sig p lls e}, ix.index.lookup sig = some (p, lls) → (e ∈ lls ↔ owns e = some p)
  owned : ∀ {e p}, owns e = some p → ∃ sig lls, ix.index.lookup sig = some (p, lls)

variable {ix} {owns : ElemId → Option SigPtr} {ll : ElemId} {sig : Sig}

theorem Lists.new : (new : ContentIndex Sig).Lists fun _ => none where
  heap h := by cases h
  fresh h := by cases h
  nodup h := by cases h
  nonempty h := by cases h
  listed h := by cases h
  owned h := by cases h

variable {p : SigPtr} {lls lls' : List ElemId} {owns' : ElemId → Option SigPtr}

theorem Lists.sig_unique (h : ix.Lists owns) {sig' : Sig}
    (hl : ix.index.lookup sig = some (p, lls)) (hl' : ix.index.lookup sig' = some (p, lls')) :
    sig = sig' :=
  Option.some.inj ((h.heap hl).symm.trans (h.heap hl'))

theorem Lists.put (h : ix.Lists owns) (here : ix.index.lookup sig = some (p, lls))
    (nodup : lls'.Nodup) (nonempty : lls' ≠ []) (mem : ∀ e, e ∈ lls' ↔ owns' e = some p)
    (other : ∀ e q, q ≠ p → (owns' e = some q ↔ owns e = some q)) :
    { ix with index := ix.index.insert sig (p, lls') }.Lists owns' := by
  have lookup : ∀ {sig' q l}, (ix.index.insert sig (p, lls')).lookup sig' = some (q, l) →
      sig' = sig ∧ q = p ∧ l = lls' ∨ sig' ≠ sig ∧ q ≠ p ∧ ix.index.lookup sig' = some (q, l) := by
    intro sig' q l hl
    by_cases hs : sig' = sig
    · rw [hs, AList.lookup_insert] at hl
      cases hl
      exact .inl ⟨hs, rfl, rfl⟩
    · rw [AList.lookup_insert_ne hs] at hl
      refine .inr ⟨hs, ?_, hl⟩
      rintro rfl
      exact hs (h.sig_unique hl here)
  constructor
  · intro sig' q l hl
    rcases lookup hl with ⟨rfl, rfl, rfl⟩ | ⟨-, -, hl⟩
    · exact h.heap here
    · exact h.heap hl
  · exact h.fresh
  · intro sig' q l hl
    rcases lookup hl with ⟨rfl, rfl, rfl⟩ | ⟨-, -, hl⟩
    · exact nodup
    · exact h.nodup hl
  · intro sig' q l hl
    rcases lookup hl with ⟨rfl, rfl, rfl⟩ | ⟨-, -, hl⟩
    · exact nonempty
    · exact h.nonempty hl
  · intro sig' q l e hl
    rcases lookup hl with ⟨rfl, rfl, rfl⟩ | ⟨-, ne, hl⟩
    · exact mem e
    · rw [h.listed hl, other e q ne]
  · intro e q he
    by_cases hq : q = p
    · exact ⟨sig, lls', by rw [hq]; exact AList.lookup_insert ix.index⟩
    · obtain ⟨sig', l, hl⟩ := h.owned ((other e q hq).mp he)
      refine ⟨sig', l, (AList.lookup_insert_ne ?_).trans hl⟩
      rintro rfl
      exact hq (Prod.mk.inj (Option.some.inj (hl.symm.trans here))).1

theorem Lists.drop (h : ix.Lists owns) (here : ix.index.lookup sig = some (p, lls))
    (none : ∀ e, owns' e ≠ some p) (other : ∀ e q, q ≠ p → (owns' e = some q ↔ owns e = some q)) :
    { ix with index := ix.index.erase sig, heap := Function.update ix.heap p .none }.Lists
      owns' := by
  have lookup : ∀ {sig' q l}, (ix.index.erase sig).lookup sig' = some (q, l) →
      q ≠ p ∧ ix.index.lookup sig' = some (q, l) := by
    intro sig' q l hl
    by_cases hs : sig' = sig
    · rw [hs, AList.lookup_erase] at hl
      cases hl
    · rw [AList.lookup_erase_ne hs] at hl
      refine ⟨?_, hl⟩
      rintro rfl
      exact hs (h.sig_unique hl here)
  constructor
  · intro sig' q l hl
    exact (Function.update_of_ne (lookup hl).1 ..).trans (h.heap (lookup hl).2)
  · intro q sig' hq
    by_cases hp : q = p
    · simp [hp] at hq
    · exact h.fresh (by simpa [hp] using hq)
  · intro sig' q l hl
    exact h.nodup (lookup hl).2
  · intro sig' q l hl
    exact h.nonempty (lookup hl).2
  · intro sig' q l e hl
    rw [h.listed (lookup hl).2, other e q (lookup hl).1]
  · intro e q he
    have hq : q ≠ p := fun hq => none e (hq ▸ he)
    obtain ⟨sig', l, hl⟩ := h.owned ((other e q hq).mp he)
    refine ⟨sig', l, (AList.lookup_erase_ne ?_).trans hl⟩
    rintro rfl
    exact hq (Prod.mk.inj (Option.some.inj (hl.symm.trans here))).1

theorem Lists.clear (h : ix.Lists owns) (ll : ElemId) :
    ∃ ix', ix.clear ll (owns ll) = some ix' ∧ ix'.Lists (Function.update owns ll none) ∧
      ∀ e p, e ≠ ll → owns e = some p → ix'.heap p = ix.heap p := by
  cases own : owns ll with
  | none =>
    refine ⟨ix, rfl, ?_, fun _ _ _ _ => rfl⟩
    rwa [← own, Function.update_eq_self]
  | some cur =>
    obtain ⟨sig, lls, here⟩ := h.owned own
    have mem : ∀ e, e ∈ lls.filter (fun e => e ≠ ll) ↔
        Function.update owns ll none e = some cur := by
      intro e
      rw [List.mem_filter, h.listed here]
      by_cases he : e = ll <;> simp [he]
    have other : ∀ e q, q ≠ cur →
        (Function.update owns ll none e = some q ↔ owns e = some q) := by
      intro e q hq
      by_cases he : e = ll
      · simp [he, own, Ne.symm hq]
      · simp [he]
    have step : ix.clear ll (some cur) =
        if (lls.filter fun e => e ≠ ll).isEmpty then
          some { ix with index := ix.index.erase sig, heap := Function.update ix.heap cur none }
        else some { ix with index := ix.index.insert sig (cur, lls.filter fun e => e ≠ ll) } := by
      simp only [ContentIndex.clear, h.heap here, here, Option.bind_eq_bind, Option.bind_some]
    rw [step]
    by_cases empty : (lls.filter fun e => e ≠ ll) = []
    · have gone : ∀ e, Function.update owns ll none e ≠ some cur := by
        intro e he
        rw [← mem, empty] at he
        cases he
      rw [empty, List.isEmpty_nil, if_pos rfl]
      refine ⟨_, rfl, h.drop here gone other, ?_⟩
      intro e p he hp
      refine Function.update_of_ne ?_ ..
      rintro rfl
      exact gone e (by rwa [Function.update_of_ne he])
    · rw [if_neg (by simpa only [List.isEmpty_iff] using empty)]
      exact ⟨_, rfl, h.put here ((h.nodup here).filter _) empty mem other, fun _ _ _ _ => rfl⟩

theorem Lists.enter (h : ix.Lists owns) (free : owns ll = none) (sig : Sig) :
    (ix.enter ll sig).1.Lists (Function.update owns ll (some (ix.enter ll sig).2)) ∧
      (ix.enter ll sig).1.heap (ix.enter ll sig).2 = some sig ∧
      ∀ e p, owns e = some p → (ix.enter ll sig).1.heap p = ix.heap p := by
  rw [ContentIndex.enter]
  cases here : ix.index.lookup sig with
  | some entry =>
    obtain ⟨key, lls⟩ := entry
    refine ⟨?_, h.heap here, fun _ _ _ => rfl⟩
    apply h.put here
    · rw [List.nodup_append]
      refine ⟨h.nodup here, by simp, ?_⟩
      intro e he _ hll heq
      rw [heq, List.mem_singleton.mp hll, h.listed here, free] at he
      cases he
    · simp
    · intro e
      rw [List.mem_append, List.mem_singleton, h.listed here]
      by_cases he : e = ll <;> simp [he]
    · intro e q hq
      by_cases he : e = ll
      · simp [he, free, Ne.symm hq]
      · simp [he]
  | none =>
    have old : ∀ {e p}, owns e = some p → p ≠ ix.fresh := by
      rintro e p hp rfl
      obtain ⟨sig', lls, hl⟩ := h.owned hp
      exact absurd (h.fresh (h.heap hl)) (Nat.lt_irrefl _)
    have lookup : ∀ {sig' q l}, (ix.index.insert sig (ix.fresh, [ll])).lookup sig' = some (q, l) →
        sig' = sig ∧ q = ix.fresh ∧ l = [ll] ∨
          q ≠ ix.fresh ∧ ix.index.lookup sig' = some (q, l) := by
      intro sig' q l hl
      by_cases hs : sig' = sig
      · rw [hs, AList.lookup_insert] at hl
        cases hl
        exact .inl ⟨hs, rfl, rfl⟩
      · rw [AList.lookup_insert_ne hs] at hl
        exact .inr ⟨Nat.ne_of_lt (h.fresh (h.heap hl)), hl⟩
    refine ⟨?_, Function.update_self .., fun e p hp => Function.update_of_ne (old hp) ..⟩
    constructor
    · intro sig' q l hl
      rcases lookup hl with ⟨rfl, rfl, -⟩ | ⟨ne, hl⟩
      · exact Function.update_self ..
      · exact (Function.update_of_ne ne ..).trans (h.heap hl)
    · intro q sig' hq
      by_cases hp : q = ix.fresh
      · rw [hp]
        exact Nat.lt_succ_self _
      · exact Nat.lt_succ_of_lt (h.fresh (by simpa [hp] using hq))
    · intro sig' q l hl
      rcases lookup hl with ⟨-, -, rfl⟩ | ⟨-, hl⟩
      · simp
      · exact h.nodup hl
    · intro sig' q l hl
      rcases lookup hl with ⟨-, -, rfl⟩ | ⟨-, hl⟩
      · simp
      · exact h.nonempty hl
    · intro sig' q l e hl
      rcases lookup hl with ⟨-, rfl, rfl⟩ | ⟨ne, hl⟩
      · by_cases he : e = ll
        · simp [he]
        · simpa [he] using fun he => old he rfl
      · rw [h.listed hl]
        by_cases he : e = ll
        · simp [he, free, Ne.symm ne]
        · simp [he]
    · intro e q he
      by_cases hll : e = ll
      · subst hll
        rw [Function.update_self] at he
        exact ⟨sig, [e], by rw [← Option.some.inj he]; exact AList.lookup_insert ix.index⟩
      · rw [Function.update_of_ne hll] at he
        obtain ⟨sig', l, hl⟩ := h.owned he
        refine ⟨sig', l, (AList.lookup_insert_ne ?_).trans hl⟩
        rintro rfl
        rw [here] at hl
        cases hl

end ContentIndex

end ScCore.Store
