import ScCore.Search.StdWorld
import ScCore.Store.ContentFrame

/-!
# Ordered tuples

`sc_tup::create_ord_m` and `sc_tup::unpack_ord`. The components of an ordered tuple are marked
by the attributes `N1_`, `N2_`, ..., the elements of `pm_numattr`.
-/

namespace ScCore.Sets

open ScCore.Store ScCore.Search Memory

def numattrCnt : Nat := 256

abbrev Numattr := { l : List Addr // l.length = numattrCnt }

/-- What `get_content_const` points to. Nothing may be read through the null pointer that it
returns without access. -/
def contentConst (ss : Session) (m : Memory) (a : Addr) : Option Content := do
  let rv ← ss.access m (some a)
  if rv ≠ rvOk then none
  else
    let g ← m.addrs a
    let el ← m.elems g.impl
    some el.cont

/-- The variables of `unpack_ord` that change: `max_index` is `none` where the source has
`size_t(-1)`. -/
structure OrdState where
  result : List (Option Addr)
  maxIndex : Option Nat

section Code

variable (ss : Session) (m : Memory) (numattr : Numattr)

/-- The index that the content of an attribute stands for, as a `size_t`. -/
def ordIndex (i : Int) : Nat := ((i - 1) % 2 ^ 64).toNat

/-- The index at which `e4`, an arc into a component, puts it, if any, and the attribute.
Reading behind the end of `pm_numattr` is undefined. -/
def indexOf (e4 : Addr) : Option (Option (Nat × Addr)) := do
  match ← ss.getEnd .beg m (some e4) with
  | none => some none
  | some e5 => do
      match ← contentConst ss m e5 with
      | .int i =>
          if ordIndex i < numattrCnt then do
            let attr ← numattr.val[ordIndex i + 1]?
            some (if attr = e5 then some (ordIndex i, e5) else none)
          else some none
      | _ => some none

/-- One round of the inner loop; the error is `Not unique attribute`. Access behind the end of
the result is undefined. -/
def putArc (e2 e4 : Addr) (st : OrdState) : Option (Except Addr OrdState) := do
  match ← indexOf ss m numattr e4 with
  | none => some (.ok st)
  | some (index, e5) => do
      let old ← st.result[index]?
      if old.isSome then some (.error e5)
      else
        let maxIndex := match st.maxIndex with
          | none => index
          | some i => if index > i then index else i
        some (.ok ⟨st.result.set index (some e2), some maxIndex⟩)

def putArcs (e2 : Addr) : List Addr → OrdState → Option (Except Addr OrdState)
  | [], st => some (.ok st)
  | e4 :: rest, st => do
      match ← putArc ss m numattr e2 e4 st with
      | .error attr => some (.error attr)
      | .ok st => putArcs e2 rest st

def isComponent (tupConstancy e2Type : ScType) : Bool :=
  e2Type &&& .pos ≠ 0 && tupConstancy &&& e2Type ≠ 0

def putComponents (tupConstancy : ScType) :
    List Addr → OrdState → Option (Except Addr OrdState)
  | [], st => some (.ok st)
  | e2 :: rest, st => do
      let e2Type ← ss.getType m e2
      if isComponent tupConstancy e2Type then do
        let e4s ← metaArcs ss .fin m e2
        match ← putArcs ss m numattr e2 e4s st with
        | .error attr => some (.error attr)
        | .ok st => putComponents tupConstancy rest st
      else putComponents tupConstancy rest st

/-- `unpack_ord`; what is undefined in the source is `none`. -/
def unpackOrd (tuple : Addr) : Option (Except Addr (List (Option Addr))) := do
  let g ← m.addrs tuple
  let result := List.replicate (g.qnt .beg).toNat none
  let tupType ← ss.getType m tuple
  let e2s ← metaArcs ss .beg m tuple
  match ← putComponents ss m numattr (tupType &&& .constancyMask) e2s ⟨result, none⟩ with
  | .error attr => some (.error attr)
  | .ok st =>
      let size := match st.maxIndex with
        | none => 0
        | some i => i + 1
      some (.ok (if size < st.result.length then st.result.take size else st.result))

end Code

section Code

variable (ss : Session) (w : Waits) (fuel : Nat) (numattr : Numattr) (seg : SegId)
  (tuple : Option Addr)

/-- The loop of `create_ord_m`, with the two arcs of each round, if they are made. -/
def addOrd : List Addr → Nat → Memory → Option (Memory × List (Option (Addr × Addr)))
  | [], _, m => some (m, [])
  | el :: els, index, m => do
      let attr ← numattr.val[index + 1]?
      let (m, arcs, _) ← ss.gen5 w fuel m tuple seg (.arcAccessory ||| .const ||| .pos) (some el)
        seg (.arcAccessory ||| .const ||| .pos) (some attr)
      let (m, rest) ← addOrd els (index + 1) m
      some (m, arcs :: rest)

end Code

/-- `create_ord_m`. -/
def createOrd (ss : Session) (w : Waits) (fuel : Nat) (numattr : Numattr) (seg : SegId)
    (els : List Addr) (m : Memory) :
    Option (Memory × Option Addr × List (Option (Addr × Addr))) := do
  let (m, tuple, _) ← ss.createEl m seg (.node ||| .const)
  let (m, arcs) ← addOrd ss w fuel numattr seg tuple els 0 m
  some (m, tuple, arcs)

/-! ## One loop -/

section Loop

variable (ss : Session) (m : Memory) (numattr : Numattr)

def putAll : List (Addr × Addr) → OrdState → Option (Except Addr OrdState)
  | [], st => some (.ok st)
  | v :: vs, st => do
      match ← putArc ss m numattr v.1 v.2 st with
      | .error attr => some (.error attr)
      | .ok st => putAll vs st

def visits (tupConstancy : ScType) (e2s : List Addr) : List (Addr × Addr) :=
  e2s.flatMap fun e2 =>
    if (ss.getType m e2).any (isComponent tupConstancy) then
      ((metaArcs ss .fin m e2).getD []).map fun e4 => (e2, e4)
    else []

variable {ss m numattr} {st : OrdState} {tupConstancy : ScType} {e2 : Addr}
  {e2s e4s : List Addr} {vs pre : List (Addr × Addr)} {v : Addr × Addr} {size : Nat}

theorem putAll_append (vs ws : List (Addr × Addr)) (st : OrdState) :
    putAll ss m numattr (vs ++ ws) st = (putAll ss m numattr vs st).bind fun r =>
      match r with
      | .error attr => some (.error attr)
      | .ok st => putAll ss m numattr ws st := by
  induction vs generalizing st with
  | nil => rfl
  | cons v vs ih =>
    simp only [List.cons_append, putAll, Option.bind_eq_bind, Option.bind_assoc]
    congr 1
    funext r
    cases r with
    | error attr => rfl
    | ok st => exact ih st

theorem putArcs_eq : putArcs ss m numattr e2 e4s st =
    putAll ss m numattr (e4s.map fun e4 => (e2, e4)) st := by
  induction e4s generalizing st with
  | nil => rfl
  | cons e4 e4s ih =>
    simp only [List.map_cons, putArcs, putAll]
    congr 1
    funext r
    cases r with
    | error attr => rfl
    | ok st => exact ih

theorem putComponents_eq (types : ∀ e2 ∈ e2s, (ss.getType m e2).isSome = true)
    (arcs : ∀ e2 ∈ e2s, (metaArcs ss .fin m e2).isSome = true) :
    putComponents ss m numattr tupConstancy e2s st =
      putAll ss m numattr (visits ss m tupConstancy e2s) st := by
  induction e2s generalizing st with
  | nil => rfl
  | cons e2 e2s ih =>
    have ih : ∀ st, putComponents ss m numattr tupConstancy e2s st =
        putAll ss m numattr (visits ss m tupConstancy e2s) st := fun st =>
      ih (fun e he => types e (List.mem_cons_of_mem _ he))
        fun e he => arcs e (List.mem_cons_of_mem _ he)
    obtain ⟨type, htype⟩ := Option.isSome_iff_exists.mp (types e2 List.mem_cons_self)
    obtain ⟨e4s, he4s⟩ := Option.isSome_iff_exists.mp (arcs e2 List.mem_cons_self)
    rw [visits, List.flatMap_cons, ← visits, putAll_append]
    simp only [putComponents, htype, Option.bind_eq_bind, Option.bind_some, Option.any_some, he4s,
      Option.getD_some]
    split
    · rw [putArcs_eq]
      congr 1
      funext r
      cases r with
      | error attr => rfl
      | ok st => exact ih st
    · exact ih st

def ordOf (ss : Session) (m : Memory) (numattr : Numattr) (v : Addr × Addr) : Option Nat :=
  (indexOf ss m numattr v.2).join.map Prod.fst

/-- The indices of some rounds. -/
abbrev ords (ss : Session) (m : Memory) (numattr : Numattr) (vs : List (Addr × Addr)) : List Nat :=
  vs.filterMap (ordOf ss m numattr)

/-- A round that stays inside `pm_numattr` and inside the result. -/
def Inside (ss : Session) (m : Memory) (numattr : Numattr) (size : Nat) (v : Addr × Addr) : Prop :=
  ∃ o, indexOf ss m numattr v.2 = some o ∧ ∀ index attr, o = some (index, attr) → index < size

structure Filled (ss : Session) (m : Memory) (numattr : Numattr) (size : Nat)
    (pre : List (Addr × Addr)) (st : OrdState) : Prop where
  size : st.result.length = size
  nodup : (ords ss m numattr pre).Nodup
  at_iff : ∀ i x, st.result[i]? = some (some x) ↔
    ∃ v ∈ pre, ordOf ss m numattr v = some i ∧ v.1 = x
  max_mem : ∀ k, st.maxIndex = some k → k ∈ ords ss m numattr pre
  le_max : ∀ i ∈ ords ss m numattr pre, ∃ k, st.maxIndex = some k ∧ i ≤ k

inductive PutStep (ss : Session) (m : Memory) (numattr : Numattr) (size : Nat)
    (pre : List (Addr × Addr)) (v : Addr × Addr) : Option (Except Addr OrdState) → Prop
  | outside (out : ¬Inside ss m numattr size v) : PutStep ss m numattr size pre v none
  | repeats {attr : Addr} (inside : Inside ss m numattr size v)
      (again : ¬(ords ss m numattr (pre ++ [v])).Nodup) :
      PutStep ss m numattr size pre v (some (.error attr))
  | filled {st' : OrdState} (inside : Inside ss m numattr size v)
      (filled : Filled ss m numattr size (pre ++ [v]) st') :
      PutStep ss m numattr size pre v (some (.ok st'))

theorem ords_append_none (none : ordOf ss m numattr v = none) :
    ords ss m numattr (pre ++ [v]) = ords ss m numattr pre := by
  rw [ords, List.filterMap_append, List.filterMap_cons_none none, List.filterMap_nil,
    List.append_nil]

theorem ords_append_some {index : Nat} (ord : ordOf ss m numattr v = some index) :
    ords ss m numattr (pre ++ [v]) = ords ss m numattr pre ++ [index] := by
  rw [ords, List.filterMap_append, List.filterMap_cons_some ord, List.filterMap_nil]

section

variable (filled : Filled ss m numattr size pre st)
include filled

theorem Filled.idle (none : ordOf ss m numattr v = none) :
    Filled ss m numattr size (pre ++ [v]) st := by
  have same : ords ss m numattr (pre ++ [v]) = ords ss m numattr pre := ords_append_none none
  refine ⟨filled.size, same ▸ filled.nodup, fun i x => ?_, same ▸ filled.max_mem,
    same ▸ filled.le_max⟩
  rw [filled.at_iff]
  constructor
  · rintro ⟨u, hu, rest⟩
    exact ⟨u, List.mem_append_left _ hu, rest⟩
  · rintro ⟨u, hu, ord, rest⟩
    obtain hu | hu := List.mem_append.mp hu
    · exact ⟨u, hu, ord, rest⟩
    · rw [List.mem_singleton.mp hu, none] at ord
      cases ord

theorem Filled.put {index top : Nat} (ord : ordOf ss m numattr v = some index)
    (free : st.result[index]? = some none)
    (max : top = index ∧ (∀ k, st.maxIndex = some k → k ≤ index) ∨ st.maxIndex = some top ∧ index ≤
    top) :
    Filled ss m numattr size (pre ++ [v]) ⟨st.result.set index (some v.1), some top⟩ := by
  have more : ords ss m numattr (pre ++ [v]) = ords ss m numattr pre ++ [index] :=
    ords_append_some ord
  have bound : index < st.result.length := (List.getElem?_eq_some_iff.mp free).1
  have fresh : ∀ u ∈ pre, ordOf ss m numattr u ≠ some index := by
    intro u hu same
    have taken := (filled.at_iff index u.1).mpr ⟨u, hu, same, rfl⟩
    rw [free] at taken
    cases taken
  refine ⟨?_, ?_, fun i x => ?_, ?_, ?_⟩
  · rw [List.length_set, filled.size]
  · rw [more, List.nodup_append]
    refine ⟨filled.nodup, List.nodup_singleton _, ?_⟩
    rintro i hi j hj rfl
    obtain ⟨u, hu, same⟩ := List.mem_filterMap.mp hi
    rw [List.mem_singleton.mp hj] at same
    exact fresh u hu same
  · by_cases same : i = index
    · subst same
      rw [List.getElem?_set_self bound]
      constructor
      · intro there
        exact ⟨v, List.mem_append_right _ (List.mem_singleton_self v), ord,
          Option.some.inj (Option.some.inj there)⟩
      · rintro ⟨u, hu, ord', rfl⟩
        obtain hu | hu := List.mem_append.mp hu
        · exact absurd ord' (fresh u hu)
        · rw [List.mem_singleton.mp hu]
    · rw [List.getElem?_set_ne (Ne.symm same), filled.at_iff]
      constructor
      · rintro ⟨u, hu, rest⟩
        exact ⟨u, List.mem_append_left _ hu, rest⟩
      · rintro ⟨u, hu, ord', rest⟩
        obtain hu | hu := List.mem_append.mp hu
        · exact ⟨u, hu, ord', rest⟩
        · rw [List.mem_singleton.mp hu, ord] at ord'
          exact absurd (Option.some.inj ord').symm same
  · intro k hk
    obtain rfl := Option.some.inj hk
    rw [more, List.mem_append, List.mem_singleton]
    obtain ⟨same, -⟩ | ⟨there, -⟩ := max
    · exact .inr same
    · exact .inl (filled.max_mem _ there)
  · intro i hi
    refine ⟨top, rfl, ?_⟩
    rw [more, List.mem_append, List.mem_singleton] at hi
    obtain ⟨rfl, above⟩ | ⟨there, le⟩ := max
    · obtain hi | rfl := hi
      · obtain ⟨k, hk, le⟩ := filled.le_max i hi
        exact le.trans (above k hk)
      · exact le_refl _
    · obtain hi | rfl := hi
      · obtain ⟨k, hk, le'⟩ := filled.le_max i hi
        cases hk.symm.trans there
        exact le'
      · exact le

theorem Filled.putArc : PutStep ss m numattr size pre v (Sets.putArc ss m numattr v.1 v.2 st) := by
  rw [Sets.putArc.eq_def]
  cases hindex : indexOf ss m numattr v.2 with
  | none =>
    refine .outside ?_
    rintro ⟨o, ho, -⟩
    cases hindex.symm.trans ho
  | some o =>
    cases o with
    | none => exact .filled ⟨_, hindex, nofun⟩ (filled.idle (by rw [ordOf, hindex]; rfl))
    | some p =>
      obtain ⟨index, attr⟩ := p
      have ord : ordOf ss m numattr v = some index := by rw [ordOf, hindex]; rfl
      simp only [Option.bind_eq_bind, Option.bind_some]
      cases hold : st.result[index]? with
      | none =>
        refine .outside ?_
        rintro ⟨o, ho, within⟩
        cases hindex.symm.trans ho
        have bound := within index attr rfl
        rw [List.getElem?_eq_none_iff, filled.size] at hold
        omega
      | some old =>
        have bound := (List.getElem?_eq_some_iff.mp hold).1
        have inside : Inside ss m numattr size v := by
          refine ⟨_, hindex, fun index' attr' same => ?_⟩
          cases same
          rwa [← filled.size]
        cases old with
        | some x =>
          refine .repeats inside fun nodup => ?_
          obtain ⟨u, hu, same, -⟩ := (filled.at_iff index x).mp hold
          rw [ords_append_some ord, List.nodup_append] at nodup
          exact nodup.2.2 index (List.mem_filterMap.mpr ⟨u, hu, same⟩) index
            (List.mem_singleton_self _) rfl
        | none =>
          refine .filled inside (filled.put ord hold ?_)
          cases hmax : st.maxIndex with
          | none => exact .inl ⟨rfl, nofun⟩
          | some i =>
            dsimp only
            split
            · rename_i above
              refine .inl ⟨rfl, fun k hk => ?_⟩
              cases hk
              exact above.le
            · rename_i below
              exact .inr ⟨rfl, not_lt.mp below⟩

/-- Cutting the result behind the greatest index takes no component away. -/
theorem Filled.resized {i : Nat} {x : Addr} :
    (if st.maxIndex.elim 0 (· + 1) < st.result.length
      then st.result.take (st.maxIndex.elim 0 (· + 1)) else st.result)[i]? = some (some x) ↔
    st.result[i]? = some (some x) := by
  split
  · rw [List.getElem?_take]
    split
    · exact Iff.rfl
    · rename_i beyond
      refine iff_of_false nofun fun there => beyond ?_
      obtain ⟨v, hv, ord, -⟩ := (filled.at_iff i x).mp there
      obtain ⟨k, hk, le⟩ := filled.le_max i (List.mem_filterMap.mpr ⟨v, hv, ord⟩)
      rw [hk]
      exact Nat.lt_succ_of_le le
  · exact Iff.rfl

theorem Filled.last :
    (if st.maxIndex.elim 0 (· + 1) < st.result.length
      then st.result.take (st.maxIndex.elim 0 (· + 1)) else st.result).getLast? ≠ some none := by
  cases hmax : st.maxIndex with
  | none =>
    rw [Option.elim_none, List.take_zero]
    split
    · nofun
    · rename_i empty
      rw [List.eq_nil_of_length_eq_zero (Nat.eq_zero_of_not_pos empty)]
      nofun
  | some k =>
    obtain ⟨v, hv, ord⟩ := List.mem_filterMap.mp (filled.max_mem k hmax)
    have there := (filled.at_iff k v.1).mpr ⟨v, hv, ord, rfl⟩
    have bound := (List.getElem?_eq_some_iff.mp there).1
    have last : (if k + 1 < st.result.length then st.result.take (k + 1) else st.result).length =
        k + 1 := by
      split
      · rw [List.length_take]
        omega
      · omega
    have same := filled.resized (i := k) (x := v.1)
    rw [hmax, Option.elim_some] at same
    rw [Option.elim_some, List.getLast?_eq_getElem?, last, Nat.add_sub_cancel, same.mpr there]
    nofun

end

/-- No round goes outside before a repeated index stops the loop. -/
def StaysInside (ss : Session) (m : Memory) (numattr : Numattr) (size : Nat)
    (vs : List (Addr × Addr)) : Prop :=
  ∀ before v, before ++ [v] <+: vs → (ords ss m numattr before).Nodup →
    Inside ss m numattr size v

inductive PutRun (ss : Session) (m : Memory) (numattr : Numattr) (size : Nat)
    (vs : List (Addr × Addr)) : Option (Except Addr OrdState) → Prop
  | outside (out : ¬StaysInside ss m numattr size vs) : PutRun ss m numattr size vs none
  | repeats {attr : Addr} (inside : StaysInside ss m numattr size vs)
      (again : ¬(ords ss m numattr vs).Nodup) :
      PutRun ss m numattr size vs (some (.error attr))
  | filled {st' : OrdState} (inside : StaysInside ss m numattr size vs)
      (filled : Filled ss m numattr size vs st') :
      PutRun ss m numattr size vs (some (.ok st'))

theorem ords_starts (starts : pre <+: vs) : ords ss m numattr pre <+: ords ss m numattr vs :=
  starts.filterMap _

theorem Filled.putAll (filled : Filled ss m numattr size pre st)
    (inside : StaysInside ss m numattr size pre) :
    PutRun ss m numattr size (pre ++ vs) (Sets.putAll ss m numattr vs st) := by
  induction vs generalizing pre st with
  | nil =>
    rw [List.append_nil]
    exact .filled inside filled
  | cons v vs ih =>
    have longer : pre ++ v :: vs = pre ++ [v] ++ vs := by rw [List.append_assoc]; rfl
    have starts : pre ++ [v] <+: pre ++ v :: vs := longer ▸ List.prefix_append _ _
    have after : Inside ss m numattr size v → StaysInside ss m numattr size (pre ++ [v]) := by
      intro here before u hu nodup
      obtain same | shorter := List.prefix_concat_iff.mp hu
      · obtain rfl := List.singleton_inj.mp (List.append_inj_right' same rfl)
        exact here
      · exact inside before u shorter nodup
    have step := filled.putArc (v := v)
    rw [Sets.putAll]
    generalize Sets.putArc ss m numattr v.1 v.2 st = r at step
    cases step with
    | outside out => exact .outside fun stays => out (stays pre v starts filled.nodup)
    | repeats here again =>
      refine .repeats (fun before u hu nodup => ?_) fun nodup =>
        again (nodup.sublist (ords_starts starts).sublist)
      obtain shorter | longer := List.prefix_or_prefix_of_prefix hu starts
      · exact after here before u shorter nodup
      · obtain same | longer := List.prefix_concat_iff.mp longer
        · exact after here before u (same ▸ List.prefix_rfl) nodup
        · exact absurd (nodup.sublist (ords_starts longer).sublist) again
    | filled here filled =>
      rw [longer]
      exact ih filled (after here)

end Loop

/-! ## The ordinals of the components -/

section Ordinals

def Numbered (m : Memory) (numattr : Numattr) : Prop :=
  ∀ (k : Nat) a, numattr.val[k]? = some a → contOf m a = some (.int k)

variable (ss : Session) (m : Memory) (numattr : Numattr)

def HasAttr (e4 : Addr) (k : Nat) : Prop :=
  1 ≤ k ∧ ∃ a, numattr.val[k]? = some a ∧ ss.getEnd .beg m (some e4) = some (some a)

def Component (tuple x : Addr) : Prop :=
  m.endOf x .beg = some tuple ∧ Seen ss m tuple x ∧ ∃ tupType type,
    ss.getType m tuple = some tupType ∧ ss.getType m x = some type ∧
    isComponent (tupType &&& .constancyMask) type = true

/-- `e4` marks the component `x` of the tuple with an ordinal. -/
def Ordinal (tuple x e4 : Addr) (k : Nat) : Prop :=
  Component ss m tuple x ∧ m.endOf e4 .fin = some x ∧ Seen ss m x e4 ∧
    HasAttr ss m numattr e4 k

/-- What `unpack_ord` has to give: each component that has an ordinal at its place and nil
elsewhere, up to the last component, or an error where an ordinal is given twice. -/
def Unpacks (tuple : Addr) : Option (Except Addr (List (Option Addr))) → Prop
  | none => False
  | some (.error _) => ∃ x e4 x' e4' k, e4 ≠ e4' ∧ Ordinal ss m numattr tuple x e4 k ∧
      Ordinal ss m numattr tuple x' e4' k
  | some (.ok arcs) =>
      (∀ x e4 x' e4' k, Ordinal ss m numattr tuple x e4 k →
        Ordinal ss m numattr tuple x' e4' k → e4 = e4') ∧
      (∀ i x, arcs[i]? = some (some x) ↔ ∃ e4, Ordinal ss m numattr tuple x e4 (i + 1)) ∧
      arcs.getLast? ≠ some none

def tupleVisits (tuple : Addr) : List (Addr × Addr) :=
  visits ss m ((ss.getType m tuple).getD 0 &&& .constancyMask)
    ((metaArcs ss .beg m tuple).getD [])

/-- The attribute is not read from behind the end of `pm_numattr`, and its ordinal is no
greater than the counter of the tuple. -/
def Harmless (tuple e4 : Addr) : Prop :=
  ∀ a i, ss.getEnd .beg m (some e4) = some (some a) → contOf m a = some (.int i) →
    ordIndex i ≠ numattrCnt - 1 ∧ ∀ g, m.addrs tuple = some g →
      numattr.val[ordIndex i + 1]? = some a → ordIndex i < (g.qnt .beg).toNat

def Unpackable (tuple : Addr) : Prop :=
  ∀ before v, before ++ [v] <+: tupleVisits ss m tuple →
    (before.Pairwise fun u u' => ∀ k, ¬(HasAttr ss m numattr u.2 k ∧ HasAttr ss m numattr u'.2 k)) →
      Harmless ss m numattr tuple v.2

end Ordinals

variable {h : Holds} {ss : Session} {m : Memory} {numattr : Numattr} {tuple x e4 a : Addr}
  {i : Nat} {s : Endpoint}

theorem getEnd_stored (ss : Session) (s : Endpoint) (inv : Inv h m) (live : m.liveAddr x = true) :
    ∃ r, ss.getEnd s m (some x) = some r ∧ ∀ a, r = some a → ss.access m (some a) = some rvOk := by
  obtain ⟨g, hg, hd⟩ := liveAddr_eq_true.mp live
  obtain ⟨el, hel, -, hend⟩ := inv.reads hg s
  by_cases ok : ss.access m (some x) = some rvOk
  · simp only [Session.getEnd, ok, hg, hel, Option.bind_eq_bind, Option.bind_some, ne_eq,
      not_true_eq_false, if_false]
    split
    · exact ⟨none, rfl, fun _ h => by cases h⟩
    · cases hll : el.ends s with
      | none => exact ⟨none, rfl, fun _ h => by cases h⟩
      | some ll =>
        rw [hll] at hend
        simp only [hend, Option.bind_some]
        cases hb : m.endOf x s with
        | none => exact ⟨none, rfl, fun _ h => by cases h⟩
        | some b =>
          obtain ⟨-, -, -, -, -, hlive, -⟩ := inv.endOf_some hb
          obtain ⟨gb, hgb, -⟩ := liveAddr_eq_true.mp hlive
          have hrv : ∃ rv, ss.access m (some b) = some rv := by
            simp only [Session.access, hgb, Option.bind_eq_bind, Option.bind_some]
            split <;> exact ⟨_, rfl⟩
          obtain ⟨rv, hrv⟩ := hrv
          simp only [hrv, Option.bind_some]
          split
          · exact ⟨none, rfl, fun _ h => by cases h⟩
          · rename_i same
            refine ⟨some b, rfl, fun a ha => ?_⟩
            cases ha
            rw [hrv, not_not.mp same]
  · obtain ⟨rv, hrv⟩ : ∃ rv, ss.access m (some x) = some rv := by
      simp only [Session.access, hg, Option.bind_eq_bind, Option.bind_some]
      split <;> exact ⟨_, rfl⟩
    have failed : rv ≠ rvOk := fun same => ok (same ▸ hrv)
    refine ⟨none, ?_, fun _ h => by cases h⟩
    simp [Session.getEnd, hrv, failed]

theorem contentConst_eq (inv : Inv h m) (ok : ss.access m (some a) = some rvOk) :
    contentConst ss m a = contOf m a ∧ (contOf m a).isSome = true := by
  obtain ⟨g, hg, -⟩ := access_ok.mp ok
  obtain ⟨el, hel, -⟩ := inv.own_stored hg
  have cont : contOf m a = some el.cont := by rw [contOf, hg, Option.bind_some, hel]; rfl
  rw [contentConst, ok, cont]
  simp [hg, hel]

theorem ordIndex_succ (small : i < 2 ^ 64) : ordIndex ((i + 1 : Nat) : Int) = i := by
  rw [ordIndex]
  omega

/-- A round goes by the content of the attribute that the arc begins at. -/
theorem indexOf_none (numattr : Numattr) (inv : Inv h m) (live : m.liveAddr e4 = true)
    (other : ∀ a i, ss.getEnd .beg m (some e4) = some (some a) → contOf m a ≠ some (.int i)) :
    indexOf ss m numattr e4 = some none := by
  obtain ⟨r, hr, access⟩ := getEnd_stored ss .beg inv live
  rw [indexOf, hr]
  cases r with
  | none => rfl
  | some a =>
    obtain ⟨same, stored⟩ := contentConst_eq inv (access a rfl)
    obtain ⟨c, hc⟩ := Option.isSome_iff_exists.mp stored
    simp only [Option.bind_eq_bind, Option.bind_some, same, hc]
    cases c with
    | int i => exact absurd hc (other a i hr)
    | _ => rfl

theorem indexOf_int (inv : Inv h m) (live : m.liveAddr e4 = true) {c : Int}
    (hr : ss.getEnd .beg m (some e4) = some (some a)) (hc : contOf m a = some (.int c)) :
    indexOf ss m numattr e4 =
      if ordIndex c < numattrCnt then
        (numattr.val[ordIndex c + 1]?).map fun attr =>
          if attr = a then some (ordIndex c, a) else none
      else some none := by
  obtain ⟨r, hr', access⟩ := getEnd_stored ss .beg inv live
  cases hr.symm.trans hr'
  obtain ⟨same, -⟩ := contentConst_eq inv (access a rfl)
  rw [indexOf, hr]
  simp only [Option.bind_eq_bind, Option.bind_some, same, hc]
  split
  · cases numattr.val[ordIndex c + 1]? <;> rfl
  · rfl

theorem number_lt {k : Nat} (hk : numattr.val[k]? = some a) : k < numattrCnt := by
  rw [← numattr.2]
  exact (List.getElem?_eq_some_iff.mp hk).1

theorem ordOf_iff (inv : Inv h m) (numbered : Numbered m numattr)
    (live : m.liveAddr e4 = true) :
    ordOf ss m numattr (x, e4) = some i ↔ HasAttr ss m numattr e4 (i + 1) := by
  by_cases int : ∃ a c, ss.getEnd .beg m (some e4) = some (some a) ∧ contOf m a = some (.int c)
  · obtain ⟨a, c, hr, hc⟩ := int
    rw [ordOf, indexOf_int inv live hr hc]
    constructor
    · intro ord
      split at ord
      · cases hattr : numattr.val[ordIndex c + 1]? with
        | none =>
          rw [hattr] at ord
          cases ord
        | some attr =>
          simp only [hattr, Option.map_some, Option.join_some] at ord
          split at ord
          · rename_i same
            cases ord
            exact ⟨Nat.succ_pos _, a, same ▸ hattr, hr⟩
          · cases ord
      · cases ord
    · rintro ⟨-, a', hattr, hr'⟩
      cases hr.symm.trans hr'
      have number := (numbered _ a hattr).symm.trans hc
      obtain rfl : ((i + 1 : Nat) : Int) = c := Content.int.inj (Option.some.inj number)
      have bound := number_lt hattr
      have small : i < 2 ^ 64 := by
        rw [numattrCnt] at bound
        omega
      rw [ordIndex_succ small, if_pos (by omega), hattr, Option.map_some, if_pos rfl]
      rfl
  · have none := indexOf_none numattr inv live fun a c hr hc => int ⟨a, c, hr, hc⟩
    rw [ordOf, none]
    refine iff_of_false nofun ?_
    rintro ⟨-, a, hattr, hr⟩
    exact int ⟨a, _, hr, numbered _ a hattr⟩

theorem inside_iff (ss : Session) (numattr : Numattr) (x : Addr) (inv : Inv h m)
    (live : m.liveAddr e4 = true) {g : GlobalAddr}
    (hg : m.addrs tuple = some g) :
    Inside ss m numattr (g.qnt .beg).toNat (x, e4) ↔ Harmless ss m numattr tuple e4 := by
  by_cases int : ∃ a c, ss.getEnd .beg m (some e4) = some (some a) ∧ contOf m a = some (.int c)
  · obtain ⟨a, c, hr, hc⟩ := int
    have harmless : Harmless ss m numattr tuple e4 ↔ ordIndex c ≠ numattrCnt - 1 ∧
        (numattr.val[ordIndex c + 1]? = some a → ordIndex c < (g.qnt .beg).toNat) := by
      constructor
      · intro harmless
        obtain ⟨last, within⟩ := harmless a c hr hc
        exact ⟨last, within g hg⟩
      · rintro ⟨last, within⟩ a' c' hr' hc'
        cases hr.symm.trans hr'
        cases hc.symm.trans hc'
        refine ⟨last, fun g' hg' => ?_⟩
        cases hg.symm.trans hg'
        exact within
    rw [harmless, Inside, indexOf_int inv live hr hc]
    have length : numattr.val.length = 256 := numattr.2
    by_cases below : ordIndex c < numattrCnt
    · rw [if_pos below]
      cases hattr : numattr.val[ordIndex c + 1]? with
      | none =>
        rw [List.getElem?_eq_none_iff, length] at hattr
        refine iff_of_false ?_ fun both => both.1 ?_
        · rintro ⟨o, ho, -⟩
          cases ho
        · rw [numattrCnt] at below ⊢
          omega
      | some attr =>
        have last : ordIndex c ≠ numattrCnt - 1 := by
          have bound := number_lt hattr
          omega
        rw [Option.map_some, and_iff_right last]
        by_cases same : attr = a
        · rw [if_pos same]
          constructor
          · rintro ⟨o, ho, within⟩ -
            cases ho
            exact within _ _ rfl
          · intro within
            refine ⟨_, rfl, fun index attr' h => ?_⟩
            cases h
            exact within (congrArg some same)
        · rw [if_neg same]
          exact iff_of_true ⟨_, rfl, nofun⟩ fun h => absurd (Option.some.inj h) same
    · rw [if_neg below]
      refine iff_of_true ⟨_, rfl, nofun⟩ ⟨?_, fun hattr => ?_⟩
      · rw [numattrCnt] at below ⊢
        omega
      · have bound := number_lt hattr
        omega
  · have none := indexOf_none numattr inv live fun a c hr hc => int ⟨a, c, hr, hc⟩
    exact iff_of_true ⟨_, none, nofun⟩ fun a c hr hc => absurd ⟨a, c, hr, hc⟩ int

/-! ## Unpacking -/

theorem getType_stored (ss : Session) (inv : Inv h m) (stored : ∃ g, m.addrs x = some g) :
    (ss.getType m x).isSome = true := by
  obtain ⟨g, hg⟩ := stored
  obtain ⟨el, hel, -⟩ := inv.own_stored hg
  simp only [Session.getType, Session.access, hg, hel, Option.bind_eq_bind, Option.bind_some]
  split <;> simp only [Option.bind_some] <;> split <;> rfl

theorem mem_tupleVisits (quiet : Quiet m) :
    (x, e4) ∈ tupleVisits ss m tuple ↔
      Component ss m tuple x ∧ m.endOf e4 .fin = some x ∧ Seen ss m x e4 := by
  obtain ⟨h, inv, unheld⟩ := quiet.inv
  simp only [tupleVisits, visits, List.mem_flatMap]
  constructor
  · rintro ⟨x', hx', mem⟩
    split at mem
    · rename_i component
      obtain ⟨e4', he4', same⟩ := List.mem_map.mp mem
      cases same
      obtain ⟨beg, seen⟩ := (mem_metaArcs quiet).mp hx'
      obtain ⟨fin, seen'⟩ := (mem_metaArcs quiet).mp he4'
      obtain ⟨type, htype, component⟩ := (Option.any_eq_true _ _).mp component
      obtain ⟨tupType, htup⟩ := Option.isSome_iff_exists.mp
        (getType_stored ss inv (quiet.live beg).2.2)
      rw [htup] at component
      exact ⟨⟨beg, seen, tupType, type, htup, htype, component⟩, fin, seen'⟩
    · cases mem
  · rintro ⟨⟨beg, seen, tupType, type, htup, htype, component⟩, fin, seen'⟩
    refine ⟨x, (mem_metaArcs quiet).mpr ⟨beg, seen⟩, ?_⟩
    rw [htup, htype, if_pos (by simpa using component)]
    exact List.mem_map.mpr ⟨e4, (mem_metaArcs quiet).mpr ⟨fin, seen'⟩, rfl⟩

theorem nodup_tupleVisits (quiet : Quiet m) : (tupleVisits ss m tuple).Nodup := by
  rw [tupleVisits, visits, List.nodup_flatMap]
  constructor
  · intro x _
    split
    · exact (nodup_metaArcs quiet).map fun _ _ same => (Prod.mk.inj same).2
    · exact List.nodup_nil
  · refine (nodup_metaArcs quiet).imp fun {x y} other v hx hy => ?_
    dsimp only at hx hy
    split at hx
    · obtain ⟨_, -, rfl⟩ := List.mem_map.mp hx
      split at hy
      · obtain ⟨_, -, same⟩ := List.mem_map.mp hy
        exact other (Prod.mk.inj same).1.symm
      · cases hy
    · cases hx

section

variable (quiet : Quiet m) (numbered : Numbered m numattr)
include quiet numbered

theorem ordinal_iff :
    Ordinal ss m numattr tuple x e4 (i + 1) ↔
      (x, e4) ∈ tupleVisits ss m tuple ∧ ordOf ss m numattr (x, e4) = some i := by
  obtain ⟨h, inv, unheld⟩ := quiet.inv
  rw [mem_tupleVisits quiet]
  constructor
  · rintro ⟨component, fin, seen, attr⟩
    exact ⟨⟨component, fin, seen⟩, (ordOf_iff inv numbered (quiet.live fin).2.1).mpr attr⟩
  · rintro ⟨⟨component, fin, seen⟩, ord⟩
    exact ⟨component, fin, seen, (ordOf_iff inv numbered (quiet.live fin).2.1).mp ord⟩

theorem nodup_ords :
    (ords ss m numattr (tupleVisits ss m tuple)).Nodup ↔
      ∀ x e4 x' e4' k, Ordinal ss m numattr tuple x e4 k → Ordinal ss m numattr tuple x' e4' k →
        e4 = e4' := by
  rw [List.Nodup, List.pairwise_filterMap]
  constructor
  · intro pairwise x e4 x' e4' k first second
    obtain ⟨i, rfl⟩ : ∃ i, k = i + 1 := Nat.exists_eq_succ_of_ne_zero (by
      have pos := first.2.2.2.1
      omega)
    obtain ⟨mem, ord⟩ := (ordinal_iff quiet numbered).mp first
    obtain ⟨mem', ord'⟩ := (ordinal_iff quiet numbered).mp second
    by_contra other
    have : Std.Symm fun u v : Addr × Addr => ∀ i, ordOf ss m numattr u = some i →
        ∀ j, ordOf ss m numattr v = some j → i ≠ j :=
      ⟨fun u v h i hi j hj same => h j hj i hi same.symm⟩
    exact pairwise.forall mem mem' (fun same => other (Prod.mk.inj same).2) i ord i ord' rfl
  · intro unique
    refine (nodup_tupleVisits quiet).pairwise_of_forall_ne ?_
    rintro ⟨x, e4⟩ mem ⟨x', e4'⟩ mem' other i ord j ord' rfl
    have first := (ordinal_iff quiet numbered).mpr ⟨mem, ord⟩
    have second := (ordinal_iff quiet numbered).mpr ⟨mem', ord'⟩
    obtain rfl := unique _ _ _ _ _ first second
    obtain rfl : x = x' := Option.some.inj (first.2.1.symm.trans second.2.1)
    exact other rfl

theorem unpackable_iff {g : GlobalAddr} (hg : m.addrs tuple = some g) :
    StaysInside ss m numattr (g.qnt .beg).toNat (tupleVisits ss m tuple) ↔
      Unpackable ss m numattr tuple := by
  obtain ⟨h, inv, unheld⟩ := quiet.inv
  refine forall_congr' fun pre => forall_congr' fun v => forall_congr' fun starts => ?_
  have live : ∀ u ∈ pre ++ [v], m.liveAddr u.2 = true := by
    intro u hu
    obtain ⟨-, fin, -⟩ := (mem_tupleVisits quiet).mp (starts.subset hu)
    exact (quiet.live fin).2.1
  have distinct : (ords ss m numattr pre).Nodup ↔ pre.Pairwise fun u u' =>
      ∀ k, ¬(HasAttr ss m numattr u.2 k ∧ HasAttr ss m numattr u'.2 k) := by
    rw [List.Nodup, List.pairwise_filterMap]
    refine List.Pairwise.iff_of_mem fun {u u'} hu hu' => ?_
    have ordu : ∀ i, ordOf ss m numattr u = some i ↔ _ := fun i =>
      ordOf_iff (x := u.1) inv numbered (live u (List.mem_append_left _ hu))
    have ordu' : ∀ i, ordOf ss m numattr u' = some i ↔ _ := fun i =>
      ordOf_iff (x := u'.1) inv numbered (live u' (List.mem_append_left _ hu'))
    constructor
    · rintro differ k ⟨attr, attr'⟩
      obtain ⟨i, rfl⟩ : ∃ i, k = i + 1 := Nat.exists_eq_succ_of_ne_zero (by
        have pos := attr.1
        omega)
      exact differ i ((ordu i).mpr attr) i ((ordu' i).mpr attr') rfl
    · rintro differ i ord _ ord' rfl
      exact differ (i + 1) ⟨(ordu i).mp ord, (ordu' i).mp ord'⟩
  have inside := inside_iff ss numattr v.1 inv
    (live v (List.mem_append_right _ (List.mem_singleton_self v))) hg
  rw [distinct]
  exact imp_congr_right fun _ => inside

theorem unpackOrd_iff (live : m.liveAddr tuple = true) :
    Unpacks ss m numattr tuple (unpackOrd ss m numattr tuple) ↔
      Unpackable ss m numattr tuple := by
  obtain ⟨h, inv, unheld⟩ := quiet.inv
  obtain ⟨g, hg, -⟩ := liveAddr_eq_true.mp live
  obtain ⟨tupType, htype⟩ := Option.isSome_iff_exists.mp
    (getType_stored ss inv ⟨g, hg⟩)
  obtain ⟨e2s, he2s, ends⟩ := inv.metaArcs unheld ss .beg ⟨g, hg⟩
  have visits : tupleVisits ss m tuple = visits ss m (tupType &&& .constancyMask) e2s := by
    rw [tupleVisits, htype, he2s, Option.getD_some, Option.getD_some]
  have start : Filled ss m numattr (g.qnt .beg).toNat []
      ⟨List.replicate (g.qnt .beg).toNat none, none⟩ := by
    refine ⟨List.length_replicate, List.nodup_nil, fun i x => ?_, nofun, nofun⟩
    rw [List.getElem?_replicate]
    refine iff_of_false ?_ ?_
    · split <;> nofun
    · rintro ⟨v, hv, -⟩
      cases hv
  have run : PutRun ss m numattr (g.qnt .beg).toNat ([] ++ tupleVisits ss m tuple) _ :=
    start.putAll fun pre v starts => absurd (List.prefix_nil.mp starts) (by simp)
  have code : unpackOrd ss m numattr tuple =
      (putAll ss m numattr (tupleVisits ss m tuple)
        ⟨List.replicate (g.qnt .beg).toNat none, none⟩).bind fun r =>
          match r with
          | .error attr => some (.error attr)
          | .ok st => some (.ok (if st.maxIndex.elim 0 (· + 1) < st.result.length
              then st.result.take (st.maxIndex.elim 0 (· + 1)) else st.result)) := by
    have stored : ∀ e2 ∈ e2s, ∃ g, m.addrs e2 = some g := fun e2 he2 =>
      inv.stored_of_arc (ends e2 he2)
    have components : putComponents ss m numattr (tupType &&& .constancyMask) e2s
        ⟨List.replicate (g.qnt .beg).toNat none, none⟩ = putAll ss m numattr _ _ :=
      putComponents_eq (fun e2 he2 => getType_stored ss inv (stored e2 he2)) fun e2 he2 => by
        obtain ⟨e4s, he4s, -⟩ := inv.metaArcs unheld ss .fin (stored e2 he2)
        rw [he4s, Option.isSome_some]
    simp only [unpackOrd, hg, htype, he2s, Option.bind_eq_bind, Option.bind_some, components,
      visits]
    congr 1
    funext r
    cases r with
    | error attr => rfl
    | ok st =>
      obtain ⟨result, maxIndex⟩ := st
      cases maxIndex <;> rfl
  rw [code, ← unpackable_iff quiet numbered hg]
  rw [List.nil_append] at run
  generalize putAll ss m numattr (tupleVisits ss m tuple)
    ⟨List.replicate (g.qnt .beg).toNat none, none⟩ = r at run
  cases run with
  | outside out => exact iff_of_false id out
  | repeats inside again =>
    refine iff_of_true ?_ inside
    rw [nodup_ords quiet numbered] at again
    push Not at again
    obtain ⟨x, e4, x', e4', k, first, second, other⟩ := again
    exact ⟨x, e4, x', e4', k, other, first, second⟩
  | filled inside filled =>
    refine iff_of_true
      ⟨(nodup_ords quiet numbered).mp filled.nodup, fun i x => ?_, filled.last⟩ inside
    rw [filled.resized, filled.at_iff]
    simp only [ordinal_iff quiet numbered]
    constructor
    · rintro ⟨⟨x, e4⟩, mem, ord, rfl⟩
      exact ⟨e4, mem, ord⟩
    · rintro ⟨e4, mem, ord⟩
      exact ⟨(x, e4), mem, ord, rfl⟩

end

end ScCore.Sets
