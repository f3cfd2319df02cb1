import ScCore.Search.Deconstruct
import Mathlib.Data.BitVec

/-!
# Constraints with sets for parameters

`sc_constraint_compile_set_constraint` makes of a constraint another one, some of
whose element parameters are sets. A command that ranges over a set is put before
the first command that reads the parameter, and an extra register stands for the
member in all commands from there on.
-/

namespace ScCore.Search

inductive ParamSpec where
  | type | addr | int | addr0 | set | segment | boolean
  deriving DecidableEq, Repr

/-- `sc_constraint_info`, as far as it is compiled. -/
structure ConstraintInfo where
  inputSpec : List ParamSpec
  deconstruct : Program
  inputs : inputSpec.length = deconstruct.inputCnt
  /-- The registers of a search hold all that is written. -/
  room : ∀ item ∈ deconstruct.body, ∀ r ∈ item.written,
    r < deconstruct.inputCnt + deconstruct.regCnt

structure FilledDeconstruct where
  inputCnt : Nat
  regCnt : Nat
  commandsLen : Nat
  commands : List PrgItem
  deriving DecidableEq, Repr

def FilledDeconstruct.filled (d : FilledDeconstruct) : Option Deconstruct :=
  if d.commands.length = d.commandsLen then some ⟨d.inputCnt, d.regCnt, d.commands⟩ else none

def setPlaces (setParams : BitVec 32) : List Nat := (List.range 32).filter setParams.getLsbD

def setParamsRefused : List ParamSpec → BitVec 32 → Bool
  | [], p => p ≠ 0
  | spec :: specs, p =>
      p ≠ 0 && ((p.getLsbD 0 && spec ≠ .addr) || setParamsRefused specs (p.sshiftRight 1))

/-- `input_spec` of the new constraint. -/
def setInputSpec (specs : List ParamSpec) (setParams : BitVec 32) : List ParamSpec :=
  specs.mapIdx fun i spec => if setParams.getLsbD i then .set else spec

/-- `regmap`: a set parameter is mapped to the next extra register. -/
def regmap (base : Nat) (setParams : BitVec 32) (k : Nat) : Nat :=
  if setParams.getLsbD k then base + (List.range k).countP setParams.getLsbD else k

/-- The commands inserted before a command with these inputs: one for each set
that has not been used yet. The bits that remain are those of the other sets. -/
def setEachBefore (regmap : Nat → Nat) : List Nat → BitVec 32 → List PrgItem × BitVec 32
  | [], p => ([], p)
  | k :: ks, p =>
      if regmap k = k then setEachBefore regmap ks p
      else if !p.getLsbD k then setEachBefore regmap ks p
      else
        let (items, rest) := setEachBefore regmap ks (p &&& ~~~BitVec.twoPow 32 k)
        (⟨.setEach, [k], [some (regmap k)], "", 0⟩ :: items, rest)

def PrgItem.renamed (regmap : Nat → Nat) (item : PrgItem) : PrgItem :=
  { item with paramsIn := item.paramsIn.map regmap }

def compileCommands (regmap : Nat → Nat) : List PrgItem → BitVec 32 → List PrgItem
  | [], _ => []
  | item :: items, p =>
      (setEachBefore regmap item.paramsIn p).1 ++
        item.renamed regmap :: compileCommands regmap items (setEachBefore regmap item.paramsIn p).2

/-- `sc_constraint_compile_set_constraint`: the parameters and the program of the new
constraint. -/
def compileSetConstraint (info : ConstraintInfo) (setParams : BitVec 32) :
    Option (List ParamSpec × FilledDeconstruct) :=
  if setParams = 0 then none
  else if setParamsRefused info.inputSpec setParams then none
  else
    let old := info.deconstruct
    let extra := (setPlaces setParams).length
    some (setInputSpec info.inputSpec setParams,
      { inputCnt := old.inputCnt
        regCnt := old.regCnt + extra
        commandsLen := (old.body ++ [old.ret]).length + extra
        commands := compileCommands (regmap (old.inputCnt + old.regCnt) setParams)
          (old.body ++ [old.ret]) setParams })

section Bits

variable {p : BitVec 32} {k : Nat}

@[simp]
theorem mem_setPlaces : k ∈ setPlaces p ↔ p.getLsbD k = true := by
  simp only [setPlaces, List.mem_filter, List.mem_range, and_iff_right_iff_imp]
  exact BitVec.lt_of_getLsbD

theorem setPlaces_nodup (p : BitVec 32) : (setPlaces p).Nodup := List.nodup_range.filter _

theorem getLsbD_clear (p : BitVec 32) (k j : Nat) :
    (p &&& ~~~BitVec.twoPow 32 k).getLsbD j = (p.getLsbD j && decide (j ≠ k)) := by
  by_cases hj : j < 32
  · by_cases heq : k = j
    · simp [hj, heq]
    · have hne : j ≠ k := fun h => heq h.symm
      simp [hj, hne]
  · have hp : p.getLsbD j = false := BitVec.getLsbD_of_ge p j (by omega)
    simp [hp]

theorem setPlaces_clear (hk : p.getLsbD k = true) :
    (setPlaces p).Perm (k :: setPlaces (p &&& ~~~BitVec.twoPow 32 k)) := by
  have herase : (setPlaces p).erase k = setPlaces (p &&& ~~~BitVec.twoPow 32 k) := by
    rw [(setPlaces_nodup p).erase_eq_filter, setPlaces, setPlaces, List.filter_filter]
    apply List.filter_congr
    intro j _
    rw [getLsbD_clear, Bool.and_comm, bne, beq_eq_decide, decide_not]
  rw [← herase]
  exact List.perm_cons_erase (mem_setPlaces.mpr hk)

/-- Bits are accepted if none of them is the sign and all stand for elements. -/
theorem setParamsRefused_eq_false {specs : List ParamSpec} :
    setParamsRefused specs p = false ↔
      p.msb = false ∧ ∀ k, p.getLsbD k = true → specs[k]? = some .addr := by
  induction specs generalizing p with
  | nil =>
    simp only [setParamsRefused, decide_eq_false_iff_not, not_not, List.getElem?_nil, reduceCtorEq,
      imp_false]
    constructor
    · rintro rfl
      simp
    · rintro ⟨-, hbits⟩
      apply BitVec.eq_of_getLsbD_eq
      intro i _
      simpa using hbits i
  | cons spec specs ih =>
    rw [setParamsRefused]
    by_cases hp : p = 0
    · subst hp
      simp
    · have shifted : ∀ k, p.msb = false →
          (p.sshiftRight 1).getLsbD k = p.getLsbD (k + 1) := by
        intro k hmsb
        rw [BitVec.getLsbD_sshiftRight, hmsb, Nat.add_comm 1 k]
        by_cases hk : 32 ≤ k
        · simp [hk, BitVec.getLsbD_of_ge p (k + 1) (by omega)]
        · by_cases hk' : k + 1 < 32
          · simp [hk, hk']
          · simp [hk, BitVec.getLsbD_of_ge p (k + 1) (by omega)]
      have sign : (p.sshiftRight 1).msb = p.msb := by simp
      simp only [hp, ne_eq, not_false_eq_true, decide_true, Bool.true_and, Bool.or_eq_false_iff,
        Bool.and_eq_false_iff, decide_eq_false_iff_not, not_not, ih, sign]
      constructor
      · rintro ⟨hfirst, hmsb, hrest⟩
        refine ⟨hmsb, fun k hk => ?_⟩
        cases k with
        | zero => simpa using hfirst.resolve_left (by simp [hk])
        | succ k => exact hrest k (by rw [shifted k hmsb, hk])
      · rintro ⟨hmsb, hbits⟩
        refine ⟨?_, hmsb, fun k hk => ?_⟩
        · cases h0 : p.getLsbD 0 with
          | false => exact Or.inl rfl
          | true => exact Or.inr (by simpa using hbits 0 h0)
        · rw [shifted k hmsb] at hk
          exact hbits (k + 1) hk

end Bits

structure RegisterMap (setParams : BitVec 32) (base : Nat) (ρ : Nat → Nat) : Prop where
  below : ∀ {k}, setParams.getLsbD k = true → k < base
  same : ∀ {k}, setParams.getLsbD k = false → ρ k = k
  above : ∀ {k}, setParams.getLsbD k = true → base ≤ ρ k
  inj : ∀ {j k}, setParams.getLsbD j = true → setParams.getLsbD k = true → ρ j = ρ k → j = k

theorem countP_range_lt {q : Nat → Bool} {j k : Nat} (hj : q j = true) (hlt : j < k) :
    (List.range j).countP q < (List.range k).countP q := by
  obtain ⟨d, rfl⟩ := Nat.exists_eq_add_of_lt hlt
  induction d with
  | zero => simp [List.range_succ, hj]
  | succ d ih =>
    rw [show j + (d + 1) + 1 = j + d + 1 + 1 from rfl, List.range_succ, List.countP_append]
    exact Nat.lt_add_right _ (ih (by omega))

theorem registerMap_regmap {setParams : BitVec 32} {base : Nat}
    (below : ∀ k, setParams.getLsbD k = true → k < base) :
    RegisterMap setParams base (regmap base setParams) where
  below hk := below _ hk
  same hk := by simp [regmap, hk]
  above hk := by simp [regmap, hk]
  inj {j k} hj hk heq := by
    simp only [regmap, hj, hk, if_true, Nat.add_left_cancel_iff] at heq
    rcases Nat.lt_trichotomy j k with hlt | heq' | hlt
    · exact absurd heq (Nat.ne_of_lt (countP_range_lt hj hlt))
    · exact heq'
    · exact absurd heq (Nat.ne_of_gt (countP_range_lt hk hlt))

section Compile

variable {setParams p : BitVec 32} {base k : Nat} {ρ : Nat → Nat} {ks : List Nat}

theorem RegisterMap.ne_self (map : RegisterMap setParams base ρ) (hk : setParams.getLsbD k = true) :
    ρ k ≠ k :=
  fun heq => absurd (map.above hk) (by rw [heq]; exact Nat.not_le.mpr (map.below hk))

theorem setEachBefore_cons (map : RegisterMap setParams base ρ)
    (hp : ∀ j, p.getLsbD j = true → setParams.getLsbD j = true) :
    setEachBefore ρ (k :: ks) p =
      if p.getLsbD k then
        (⟨.setEach, [k], [some (ρ k)], "", 0⟩ ::
            (setEachBefore ρ ks (p &&& ~~~BitVec.twoPow 32 k)).1,
          (setEachBefore ρ ks (p &&& ~~~BitVec.twoPow 32 k)).2)
      else setEachBefore ρ ks p := by
  cases hk : p.getLsbD k with
  | false => simp [setEachBefore, hk]
  | true => simp [setEachBefore, hk, map.ne_self (hp k hk)]

theorem bits_clear (hp : ∀ j, p.getLsbD j = true → setParams.getLsbD j = true) :
    ∀ j, (p &&& ~~~BitVec.twoPow 32 k).getLsbD j = true → setParams.getLsbD j = true := by
  intro j hj
  rw [getLsbD_clear, Bool.and_eq_true] at hj
  exact hp j hj.1

variable (ks) in
theorem getLsbD_setEachBefore (map : RegisterMap setParams base ρ)
    (hp : ∀ j, p.getLsbD j = true → setParams.getLsbD j = true) (j : Nat) :
    (setEachBefore ρ ks p).2.getLsbD j = (p.getLsbD j && decide (j ∉ ks)) := by
  induction ks generalizing p with
  | nil => simp [setEachBefore]
  | cons k ks ih =>
    rw [setEachBefore_cons map hp]
    split
    · rw [ih (bits_clear hp), getLsbD_clear, Bool.and_assoc, ← Bool.decide_and]
      simp [List.mem_cons, not_or]
    · next hk =>
      rw [ih hp]
      by_cases heq : j = k
      · simp [heq, hk]
      · simp [heq]

variable (ks) in
theorem length_setEachBefore (map : RegisterMap setParams base ρ)
    (hp : ∀ j, p.getLsbD j = true → setParams.getLsbD j = true) :
    (setEachBefore ρ ks p).1.length + (setPlaces (setEachBefore ρ ks p).2).length =
      (setPlaces p).length := by
  induction ks generalizing p with
  | nil => simp [setEachBefore]
  | cons k ks ih =>
    rw [setEachBefore_cons map hp]
    split
    · next hk =>
      have hrest := ih (bits_clear (k := k) hp)
      rw [(setPlaces_clear hk).length_eq]
      simp only [List.length_cons]
      omega
    · exact ih hp

def remainingSets (ρ : Nat → Nat) : List PrgItem → BitVec 32 → BitVec 32
  | [], p => p
  | item :: items, p => remainingSets ρ items (setEachBefore ρ item.paramsIn p).2

theorem getLsbD_remainingSets (map : RegisterMap setParams base ρ)
    (hp : ∀ j, p.getLsbD j = true → setParams.getLsbD j = true) (items : List PrgItem) (j : Nat) :
    (remainingSets ρ items p).getLsbD j =
      (p.getLsbD j && decide (∀ item ∈ items, j ∉ item.paramsIn)) := by
  induction items generalizing p with
  | nil => simp [remainingSets]
  | cons item items ih =>
    have left := getLsbD_setEachBefore item.paramsIn map hp
    rw [remainingSets, ih fun j hj => ?_, left, Bool.and_assoc, ← Bool.decide_and]
    · simp
    · rw [left, Bool.and_eq_true] at hj
      exact hp j hj.1

theorem length_compileCommands (map : RegisterMap setParams base ρ)
    (hp : ∀ j, p.getLsbD j = true → setParams.getLsbD j = true) (items : List PrgItem) :
    (compileCommands ρ items p).length + (setPlaces (remainingSets ρ items p)).length =
      items.length + (setPlaces p).length := by
  induction items generalizing p with
  | nil => simp [compileCommands, remainingSets]
  | cons item items ih =>
    have left := getLsbD_setEachBefore item.paramsIn map hp
    have hrest := ih (p := (setEachBefore ρ item.paramsIn p).2) fun j hj => by
      rw [left, Bool.and_eq_true] at hj
      exact hp j hj.1
    have heach := length_setEachBefore item.paramsIn map hp
    simp only [compileCommands, remainingSets, List.length_append, List.length_cons]
    omega

theorem compileCommands_append (items items' : List PrgItem) (p : BitVec 32) :
    compileCommands ρ (items ++ items') p =
      compileCommands ρ items p ++ compileCommands ρ items' (remainingSets ρ items p) := by
  induction items generalizing p with
  | nil => rfl
  | cons item items ih => simp [compileCommands, remainingSets, ih]

end Compile

/-- What is known to the new program: besides what the old one knows, the registers
of the sets that have been used. -/
def Knows (setParams : BitVec 32) (ρ : Nat → Nat) (known : List Nat) (p : BitVec 32)
    (known' : List Nat) : Prop :=
  ∀ r, r ∈ known' ↔ r ∈ known ∨
    ∃ k, setParams.getLsbD k = true ∧ p.getLsbD k = false ∧ r = ρ k

section Scope

variable {setParams p : BitVec 32} {base k : Nat} {ρ : Nat → Nat} {ks known known' : List Nat}

theorem Knows.clear (knows : Knows setParams ρ known p known')
    (hset : setParams.getLsbD k = true) :
    Knows setParams ρ known (p &&& ~~~BitVec.twoPow 32 k) (known' ++ [ρ k]) := by
  intro r
  rw [List.mem_append, knows r, List.mem_singleton, or_assoc]
  apply or_congr_right
  constructor
  · rintro (⟨j, hj, hpj, rfl⟩ | rfl)
    · exact ⟨j, hj, by simp [hpj], rfl⟩
    · exact ⟨k, hset, by simp, rfl⟩
  · rintro ⟨j, hj, hpj, rfl⟩
    by_cases heq : j = k
    · exact Or.inr (by rw [heq])
    · refine Or.inl ⟨j, hj, ?_, rfl⟩
      rw [getLsbD_clear] at hpj
      simpa [heq] using hpj

theorem Knows.fresh (map : RegisterMap setParams base ρ) (knows : Knows setParams ρ known p known')
    (bounded : ∀ r ∈ known, r < base) (hset : setParams.getLsbD k = true)
    (hk : p.getLsbD k = true) : ρ k ∉ known' := by
  intro hmem
  rcases (knows _).mp hmem with hmem | ⟨j, hj, hpj, heq⟩
  · exact absurd (bounded _ hmem) (Nat.not_lt.mpr (map.above hset))
  · obtain rfl := map.inj hset hj heq
    simp [hk] at hpj

theorem scoped_setEachBefore (map : RegisterMap setParams base ρ)
    (hp : ∀ j, p.getLsbD j = true → setParams.getLsbD j = true)
    (bounded : ∀ r ∈ known, r < base) (hin : ∀ k ∈ ks, k ∈ known)
    (knows : Knows setParams ρ known p known') :
    Scoped known' (setEachBefore ρ ks p).1 ∧
      Knows setParams ρ known (setEachBefore ρ ks p).2
        (knownAfter known' (setEachBefore ρ ks p).1) := by
  induction ks generalizing p known' with
  | nil => exact ⟨trivial, knows⟩
  | cons k ks ih =>
    have hrest : ∀ j ∈ ks, j ∈ known := fun j hj => hin j (List.mem_cons_of_mem _ hj)
    rw [setEachBefore_cons map hp]
    split
    · next hk =>
      have hset := hp k hk
      obtain ⟨scope, knows'⟩ := ih (bits_clear hp) hrest (knows.clear hset)
      refine ⟨⟨⟨k, ρ k, rfl, rfl⟩, ?_, ?_, scope⟩, knows'⟩
      · intro r hr
        obtain rfl := List.mem_singleton.mp hr
        exact (knows r).mpr (Or.inl (hin r List.mem_cons_self))
      · intro r hr
        obtain rfl := List.mem_singleton.mp hr
        exact knows.fresh map bounded hset hk
    · exact ih hp hrest knows

theorem PrgItem.Proper.renamed {item : PrgItem} (proper : item.Proper) (ρ : Nat → Nat) :
    (item.renamed ρ).Proper := by
  cases htype : item.type with
  | setEach =>
    simp only [PrgItem.Proper, htype] at proper
    obtain ⟨s, r, hin, hout⟩ := proper
    simp only [PrgItem.Proper, PrgItem.renamed, htype]
    exact ⟨ρ s, r, by rw [hin]; rfl, hout⟩
  | func => simpa [PrgItem.Proper, PrgItem.renamed, htype] using proper
  | ret => simp [PrgItem.Proper, htype] at proper
  | _ => simp [PrgItem.Proper, PrgItem.renamed, htype]

theorem Knows.renamed (map : RegisterMap setParams base ρ) (knows : Knows setParams ρ known p
    known')
    (hin : ∀ r ∈ ks, r ∈ known) (used : ∀ r ∈ ks, p.getLsbD r = false) :
    ∀ r ∈ ks.map ρ, r ∈ known' := by
  intro r hr
  obtain ⟨k, hk, rfl⟩ := List.mem_map.mp hr
  cases hset : setParams.getLsbD k with
  | false =>
    rw [map.same hset]
    exact (knows k).mpr (Or.inl (hin k hk))
  | true => exact (knows _).mpr (Or.inr ⟨k, hset, used k hk, rfl⟩)

theorem Knows.written (knows : Knows setParams ρ known p known') (written : List Nat) :
    Knows setParams ρ (known ++ written) p (known' ++ written) := by
  intro r
  rw [List.mem_append, List.mem_append, knows r, or_right_comm]

theorem scoped_compileCommands (map : RegisterMap setParams base ρ) {items : List PrgItem}
    (hp : ∀ j, p.getLsbD j = true → setParams.getLsbD j = true)
    (bounded : ∀ r ∈ known, r < base) (room : ∀ item ∈ items, ∀ r ∈ item.written, r < base)
    (scope : Scoped known items) (knows : Knows setParams ρ known p known') :
    Scoped known' (compileCommands ρ items p) ∧
      Knows setParams ρ (knownAfter known items) (remainingSets ρ items p)
        (knownAfter known' (compileCommands ρ items p)) := by
  induction items generalizing p known known' with
  | nil => exact ⟨trivial, knows⟩
  | cons item items ih =>
    obtain ⟨proper, hin, fresh, scope⟩ := scope
    have left := getLsbD_setEachBefore item.paramsIn map hp
    obtain ⟨before, knows'⟩ := scoped_setEachBefore map hp bounded hin knows
    have hbounded : ∀ r ∈ known ++ item.written, r < base := by
      intro r hr
      rcases List.mem_append.mp hr with hr | hr
      · exact bounded r hr
      · exact room item List.mem_cons_self r hr
    obtain ⟨rest, knows''⟩ := ih (p := (setEachBefore ρ item.paramsIn p).2)
      (fun j hj => hp j (by rw [left, Bool.and_eq_true] at hj; exact hj.1)) hbounded
      (fun item' hitem => room item' (List.mem_cons_of_mem _ hitem)) scope
      (knows'.written item.written)
    rw [compileCommands, scoped_append, knownAfter_append]
    refine ⟨⟨before, proper.renamed ρ, ?_, ?_, rest⟩, knows''⟩
    · apply knows'.renamed map hin
      intro r hr
      rw [left]
      simp [hr]
    · intro r hr hmem
      rcases (knows' r).mp hmem with hmem | ⟨k, hset, -, rfl⟩
      · exact fresh r hr hmem
      · exact absurd (room item List.mem_cons_self _ hr) (Nat.not_lt.mpr (map.above hset))

end Scope

end ScCore.Search
