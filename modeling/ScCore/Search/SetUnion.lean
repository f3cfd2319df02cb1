import ScCore.Search.SetConstraint
import ScCore.Search.Solutions
import Mathlib.Data.Multiset.Bind

/-!
# Sets for parameters mean union

The old program, run for all choices of members before it, finds what the new one
finds, which chooses a member only before it is needed: the loops of the commands
and of the sets they do not read can be exchanged.
-/

namespace ScCore.Search

variable {V β : Type}

/-! ## Loops over sets -/

namespace World

variable (world : World V)

def memberChoices : List Nat → List V → List (List V)
  | [], inputs => [inputs]
  | k :: ks, inputs =>
      (world.plainSet (inputs.getD k world.nil)).flatMap fun v => memberChoices ks (inputs.set k v)

def total (find : Registers V → Multiset β) : List Nat → Registers V → Multiset β
  | [], regs => find regs
  | k :: ks, regs =>
      (world.plainSet (regs k) : Multiset V).bind fun v => total find ks (regs.set k v)

variable {world} {find : Registers V → Multiset β} {ks ks' : List Nat} {regs : Registers V}

theorem set_comm {j k : Nat} (hne : j ≠ k) (v w : V) :
    (regs.set j v).set k w = (regs.set k w).set j v := by
  simp only [Registers.set]
  exact Function.update_comm hne v w regs

theorem total_perm (perm : ks.Perm ks') (nodup : ks.Nodup) :
    world.total find ks regs = world.total find ks' regs := by
  induction perm generalizing regs with
  | nil => rfl
  | cons k _ ih =>
    simp only [total]
    apply Multiset.bind_congr
    intro v _
    exact ih (List.nodup_cons.mp nodup).2
  | swap j k ks =>
    have hne : k ≠ j := fun heq => (List.nodup_cons.mp nodup).1 (by simp [heq])
    simp only [total, Registers.set_of_ne hne, Registers.set_of_ne hne.symm]
    rw [Multiset.bind_bind]
    apply Multiset.bind_congr
    intro v _
    apply Multiset.bind_congr
    intro w _
    rw [set_comm hne]
  | trans perm _ ih ih' => exact (ih nodup).trans (ih' (perm.nodup nodup))

theorem set_store_comm {outs : List (Option Nat)} {k : Nat} (hk : k ∉ outs.reduceOption) (v : V)
    (vs : List V) (nil : V) :
    (regs.set k v).store nil outs vs = (regs.store nil outs vs).set k v := by
  funext r
  by_cases heq : r = k
  · subst heq
    rw [Registers.store_of_not_mem hk, Registers.set_same, Registers.set_same]
  · rw [Registers.set_of_ne heq]
    exact Registers.store_congr fun _ => Registers.set_of_ne heq v

theorem bind_solve (item : PrgItem) (regs : Registers V) (find : Registers V → Multiset β) :
    (world.solve item regs : Multiset _).bind find =
      (world.choices item (item.args regs) : Multiset _).bind fun vs =>
        find (regs.store world.nil item.targets vs) := by
  rw [solve, ← Multiset.map_coe, Multiset.bind_map]

theorem total_solve {item : PrgItem} (hin : ∀ k ∈ ks, k ∉ item.paramsIn)
    (hout : ∀ k ∈ ks, k ∉ item.written) :
    world.total (fun regs => (world.solve item regs : Multiset _).bind find) ks regs =
      (world.solve item regs : Multiset _).bind (world.total find ks) := by
  induction ks generalizing regs with
  | nil => rfl
  | cons k ks ih =>
    have hk' := hout k List.mem_cons_self
    have hargs : ∀ v, item.args (regs.set k v) = item.args regs := by
      intro v
      apply List.map_congr_left
      intro r hr
      apply Registers.set_of_ne
      rintro rfl
      exact hin r List.mem_cons_self hr
    have hset : ∀ vs, regs.store world.nil item.targets vs k = regs k :=
      fun vs => Registers.store_of_not_mem hk'
    have inner : ∀ v,
        world.total (fun regs => (world.solve item regs : Multiset _).bind find) ks (regs.set k v) =
          (world.choices item (item.args regs) : Multiset _).bind fun vs =>
            world.total find ks ((regs.store world.nil item.targets vs).set k v) := by
      intro v
      rw [ih (fun j hj => hin j (List.mem_cons_of_mem _ hj))
        (fun j hj => hout j (List.mem_cons_of_mem _ hj)), bind_solve, hargs]
      simp only [set_store_comm hk']
    rw [total, Multiset.bind_congr fun v _ => inner v, Multiset.bind_bind, bind_solve]
    apply Multiset.bind_congr
    intro vs _
    rw [total, hset]

variable {inputs : List V}

theorem inputRegisters_apply {cnt : Nat} (hlen : inputs.length = cnt) (nil : V) (r : Nat) :
    inputRegisters nil cnt inputs r = inputs.getD r nil := by
  rw [inputRegisters, List.take_of_length_le (Nat.le_of_eq hlen)]

theorem total_inputs {cnt : Nat} (hlen : inputs.length = cnt) (hks : ∀ k ∈ ks, k < cnt) :
    world.total find ks (inputRegisters world.nil cnt inputs) =
      (world.memberChoices ks inputs : Multiset _).bind fun members =>
        find (inputRegisters world.nil cnt members) := by
  induction ks generalizing inputs with
  | nil => simp [total, memberChoices]
  | cons k ks ih =>
    have hk := hks k List.mem_cons_self
    have hset : ∀ v, (inputRegisters world.nil cnt inputs).set k v =
        inputRegisters world.nil cnt (inputs.set k v) := by
      intro v
      funext r
      rw [inputRegisters_apply (by simpa using hlen)]
      by_cases heq : r = k
      · subst heq
        rw [Registers.set_same]
        simp [List.getD_eq_getElem?_getD, hlen, hk]
      · rw [Registers.set_of_ne heq, inputRegisters_apply hlen]
        simp [List.getD_eq_getElem?_getD, Ne.symm heq]
    have hget := inputRegisters_apply hlen world.nil k
    rw [total, hget, memberChoices, ← Multiset.coe_bind, Multiset.bind_assoc]
    apply Multiset.bind_congr
    intro v _
    rw [hset, ih (by simpa using hlen) fun j hj => hks j (List.mem_cons_of_mem _ hj)]

theorem length_of_memberChoices {members : List V} (hm : members ∈ world.memberChoices ks inputs) :
    members.length = inputs.length := by
  induction ks generalizing inputs with
  | nil => rw [List.mem_singleton.mp hm]
  | cons k ks ih =>
    obtain ⟨v, -, hm⟩ := List.mem_flatMap.mp hm
    rw [ih hm, List.length_set]

end World

/-! ## One command after the other -/

/-- Where the new program has what the old one has in register `r`. -/
def place (ρ : Nat → Nat) (p : BitVec 32) (r : Nat) : Nat := if p.getLsbD r then r else ρ r

def Agrees (ρ : Nat → Nat) (known : List Nat) (p : BitVec 32) (old new : Registers V) : Prop :=
  ∀ r ∈ known, old r = new (place ρ p r)

section Simulation

variable {world : World V} {setParams p : BitVec 32} {base k : Nat} {ρ : Nat → Nat}
  {ks known : List Nat} {items : List PrgItem} {item : PrgItem} {old new : Registers V}

theorem Agrees.choose (map : RegisterMap setParams base ρ) (hset : setParams.getLsbD k = true)
    (bounded : ∀ r ∈ known, r < base) (agree : Agrees ρ known p old new) (v : V) :
    Agrees ρ known (p &&& ~~~BitVec.twoPow 32 k) (old.set k v) (new.set (ρ k) v) := by
  intro r hr
  by_cases heq : r = k
  · subst heq
    simp [place, Registers.set_same]
  · have hplace : place ρ (p &&& ~~~BitVec.twoPow 32 k) r = place ρ p r := by
      rw [place, getLsbD_clear]
      simp [heq, place]
    have hne : place ρ p r ≠ ρ k := by
      intro hmeet
      rw [place] at hmeet
      split at hmeet
      · exact absurd (bounded r hr) (Nat.not_lt.mpr (hmeet ▸ map.above hset))
      · cases hsr : setParams.getLsbD r with
        | false =>
          rw [map.same hsr] at hmeet
          exact absurd (bounded r hr) (Nat.not_lt.mpr (hmeet ▸ map.above hset))
        | true => exact heq (map.inj hsr hset hmeet)
    rw [hplace, Registers.set_of_ne heq, Registers.set_of_ne hne, agree r hr]

theorem bind_setEachBefore (map : RegisterMap setParams base ρ)
    (hp : ∀ j, p.getLsbD j = true → setParams.getLsbD j = true)
    (bounded : ∀ r ∈ known, r < base) (hin : ∀ k ∈ ks, k ∈ known)
    {find find' : Registers V → Multiset β}
    (step : ∀ old new, Agrees ρ known (setEachBefore ρ ks p).2 old new →
      find' new = world.total find (setPlaces (setEachBefore ρ ks p).2) old)
    (agree : Agrees ρ known p old new) :
    (world.solutions (setEachBefore ρ ks p).1 new : Multiset _).bind find' =
      world.total find (setPlaces p) old := by
  induction ks generalizing p old new with
  | nil => simpa [setEachBefore] using step old new agree
  | cons k ks ih =>
    have hrest : ∀ j ∈ ks, j ∈ known := fun j hj => hin j (List.mem_cons_of_mem _ hj)
    rw [setEachBefore_cons map hp] at step ⊢
    split at step
    · next hk =>
      have hset := hp k hk
      have hold : old k = new k := by
        rw [agree k (hin k List.mem_cons_self), place, if_pos hk]
      rw [if_pos hk, World.total_perm (setPlaces_clear hk) (setPlaces_nodup p), World.total, hold,
        World.solutions_cons, ← Multiset.coe_bind, Multiset.bind_assoc, World.bind_solve]
      simp only [World.choices, PrgItem.args, List.map_cons, List.map_nil, List.headD_cons,
        ← Multiset.map_coe, Multiset.bind_map]
      apply Multiset.bind_congr
      intro v _
      exact ih (bits_clear hp) hrest step (agree.choose map hset bounded v)
    · next hk =>
      rw [if_neg hk]
      exact ih hp hrest step agree

theorem Agrees.args (agree : Agrees ρ known p old new) (hin : ∀ r ∈ item.paramsIn, r ∈ known)
    (used : ∀ r ∈ item.paramsIn, p.getLsbD r = false) :
    (item.renamed ρ).args new = item.args old := by
  simp only [PrgItem.args, PrgItem.renamed, List.map_map]
  apply List.map_congr_left
  intro r hr
  rw [agree r (hin r hr), place, used r hr]
  rfl

theorem Agrees.store (map : RegisterMap setParams base ρ)
    (hsets : ∀ k, setParams.getLsbD k = true → k ∈ known)
    (fresh : ∀ r ∈ item.written, r ∉ known) (room : ∀ r ∈ item.written, r < base)
    (agree : Agrees ρ known p old new) (nil : V) (vs : List V) :
    Agrees ρ (known ++ item.written) p (old.store nil item.targets vs)
      (new.store nil item.targets vs) := by
  intro r hr
  by_cases hwritten : r ∈ item.written
  · have hset : setParams.getLsbD r = false := by
      cases h : setParams.getLsbD r with
      | false => rfl
      | true => exact absurd (hsets r h) (fresh r hwritten)
    have hplace : place ρ p r = r := by simp [place, map.same hset]
    rw [hplace]
    exact Registers.store_congr fun hnot => absurd hwritten hnot
  · have hknown := (List.mem_append.mp hr).resolve_right hwritten
    have hplace : place ρ p r ∉ item.written := by
      rw [place]
      split
      · exact hwritten
      · cases hset : setParams.getLsbD r with
        | false => rwa [map.same hset]
        | true => exact fun hmem => absurd (room _ hmem) (Nat.not_lt.mpr (map.above hset))
    rw [Registers.store_of_not_mem hwritten, Registers.store_of_not_mem hplace, agree r hknown]

variable (world) in
theorem bind_compileCommands (map : RegisterMap setParams base ρ)
    (hp : ∀ j, p.getLsbD j = true → setParams.getLsbD j = true)
    (hsets : ∀ k, setParams.getLsbD k = true → k ∈ known) (bounded : ∀ r ∈ known, r < base)
    (room : ∀ item ∈ items, ∀ r ∈ item.written, r < base) (scope : Scoped known items)
    {find find' : Registers V → Multiset β}
    (last : ∀ old new, Agrees ρ (knownAfter known items) (remainingSets ρ items p) old new →
      find' new = world.total find (setPlaces (remainingSets ρ items p)) old)
    (agree : Agrees ρ known p old new) :
    (world.solutions (compileCommands ρ items p) new : Multiset _).bind find' =
      world.total (fun regs => (world.solutions items regs : Multiset _).bind find)
        (setPlaces p) old := by
  induction items generalizing known p old new with
  | nil =>
    simp only [compileCommands, World.solutions_nil, Multiset.coe_singleton,
      Multiset.singleton_bind]
    exact last old new agree
  | cons item items ih =>
    obtain ⟨-, hin, fresh, scope⟩ := scope
    have left := getLsbD_setEachBefore item.paramsIn map hp
    have hp' : ∀ j, (setEachBefore ρ item.paramsIn p).2.getLsbD j = true →
        setParams.getLsbD j = true := by
      intro j hj
      rw [left, Bool.and_eq_true] at hj
      exact hp j hj.1
    have unread : ∀ k ∈ setPlaces (setEachBefore ρ item.paramsIn p).2, k ∉ item.paramsIn := by
      intro k hk
      rw [mem_setPlaces, left, Bool.and_eq_true] at hk
      exact of_decide_eq_true hk.2
    have unwritten : ∀ k ∈ setPlaces (setEachBefore ρ item.paramsIn p).2, k ∉ item.written := by
      intro k hk hmem
      exact fresh k hmem (hsets k (hp' k (mem_setPlaces.mp hk)))
    have hroom := room item List.mem_cons_self
    have step : ∀ old new, Agrees ρ known (setEachBefore ρ item.paramsIn p).2 old new →
        (world.solutions (item.renamed ρ ::
          compileCommands ρ items (setEachBefore ρ item.paramsIn p).2) new : Multiset _).bind find'
            =
        world.total (fun regs => (world.solutions (item :: items) regs : Multiset _).bind find)
          (setPlaces (setEachBefore ρ item.paramsIn p).2) old := by
      intro old new agree
      have hargs : (item.renamed ρ).args new = item.args old := by
        apply agree.args hin
        intro r hr
        rw [left]
        simp [hr]
      have outer : (fun regs => (world.solutions (item :: items) regs : Multiset _).bind find) =
          fun regs => (world.solve item regs : Multiset _).bind fun regs =>
            (world.solutions items regs : Multiset _).bind find := by
        funext regs
        rw [World.solutions_cons, ← Multiset.coe_bind, Multiset.bind_assoc]
      have hchoices : world.choices (item.renamed ρ) (item.args old) =
          world.choices item (item.args old) := rfl
      rw [outer, World.total_solve unread unwritten, World.solutions_cons, ← Multiset.coe_bind,
        Multiset.bind_assoc, World.bind_solve, World.bind_solve, hargs, hchoices]
      apply Multiset.bind_congr
      intro vs _
      apply ih hp' (fun k hk => List.mem_append_left _ (hsets k hk))
      · intro r hr
        rcases List.mem_append.mp hr with hr | hr
        · exact bounded r hr
        · exact hroom r hr
      · exact fun item' hitem => room item' (List.mem_cons_of_mem _ hitem)
      · exact scope
      · exact last
      · exact agree.store map hsets fresh hroom world.nil vs
    rw [compileCommands, World.solutions_append, ← Multiset.coe_bind, Multiset.bind_assoc]
    exact bind_setEachBefore map hp bounded hin step agree

end Simulation

/-! ## The new constraint -/

section NewProgram

variable {info : ConstraintInfo} {setParams : BitVec 32}

theorem bounded_inputs (info : ConstraintInfo) :
    ∀ r ∈ List.range info.deconstruct.inputCnt,
      r < info.deconstruct.inputCnt + info.deconstruct.regCnt :=
  fun _ hr => Nat.lt_add_right _ (List.mem_range.mp hr)

/-- `regmap` for a constraint. -/
abbrev ConstraintInfo.regmap (info : ConstraintInfo) (setParams : BitVec 32) : Nat → Nat :=
  Search.regmap (info.deconstruct.inputCnt + info.deconstruct.regCnt) setParams

def OfInputs (info : ConstraintInfo) (setParams : BitVec 32) : Prop :=
  ∀ k, setParams.getLsbD k = true → k < info.deconstruct.inputCnt

theorem OfInputs.map (inputs : OfInputs info setParams) :
    RegisterMap setParams (info.deconstruct.inputCnt + info.deconstruct.regCnt)
      (info.regmap setParams) :=
  registerMap_regmap fun k hk => Nat.lt_add_right _ (inputs k hk)

theorem knows_inputs (info : ConstraintInfo) (setParams : BitVec 32) :
    Knows setParams (info.regmap setParams) (List.range info.deconstruct.inputCnt) setParams
      (List.range info.deconstruct.inputCnt) := by
  intro r
  constructor
  · exact Or.inl
  · rintro (hr | ⟨k, hk, hk', -⟩)
    · exact hr
    · simp [hk] at hk'

/-- The sets that remain before the return. -/
abbrev ConstraintInfo.unused (info : ConstraintInfo) (setParams : BitVec 32) : BitVec 32 :=
  remainingSets (info.regmap setParams) info.deconstruct.body setParams

theorem OfInputs.unused (inputs : OfInputs info setParams) :
    ∀ j, (info.unused setParams).getLsbD j = true → setParams.getLsbD j = true := by
  intro j hj
  rw [getLsbD_remainingSets inputs.map (fun _ h => h), Bool.and_eq_true] at hj
  exact hj.1

theorem knownAfter_bounded (info : ConstraintInfo) :
    ∀ r ∈ knownAfter (List.range info.deconstruct.inputCnt) info.deconstruct.body,
      r < info.deconstruct.inputCnt + info.deconstruct.regCnt := by
  have general : ∀ (items : List PrgItem) (known : List Nat) (base : Nat),
      (∀ r ∈ known, r < base) → (∀ item ∈ items, ∀ r ∈ item.written, r < base) →
      ∀ r ∈ knownAfter known items, r < base := by
    intro items
    induction items with
    | nil => exact fun known base hknown _ => hknown
    | cons item items ih =>
      intro known base hknown room
      apply ih (known ++ item.written) base
      · intro r hr
        rcases List.mem_append.mp hr with hr | hr
        · exact hknown r hr
        · exact room item List.mem_cons_self r hr
      · exact fun item' hitem => room item' (List.mem_cons_of_mem _ hitem)
  exact general _ _ _ (bounded_inputs info) info.room

def ConstraintInfo.setProgram (info : ConstraintInfo) (setParams : BitVec 32)
    (inputs : OfInputs info setParams) : Program where
  inputCnt := info.deconstruct.inputCnt
  regCnt := info.deconstruct.regCnt + (setPlaces setParams).length
  body := compileCommands (info.regmap setParams) info.deconstruct.body setParams ++
    (setEachBefore (info.regmap setParams) info.deconstruct.ret.paramsIn
      (info.unused setParams)).1
  ret := info.deconstruct.ret.renamed (info.regmap setParams)
  inScope := by
    have body := scoped_compileCommands inputs.map (fun _ h => h) (bounded_inputs info) info.room
      info.deconstruct.inScope (knows_inputs info setParams)
    have last := scoped_setEachBefore inputs.map inputs.unused (knownAfter_bounded info)
      info.deconstruct.known body.2
    exact scoped_append.mpr ⟨body.1, last.1⟩
  returns := info.deconstruct.returns
  known := by
    have body := scoped_compileCommands inputs.map (fun _ h => h) (bounded_inputs info) info.room
      info.deconstruct.inScope (knows_inputs info setParams)
    have last := scoped_setEachBefore inputs.map inputs.unused (knownAfter_bounded info)
      info.deconstruct.known body.2
    rw [knownAfter_append]
    apply last.2.renamed inputs.map info.deconstruct.known
    intro r hr
    rw [getLsbD_setEachBefore _ inputs.map inputs.unused]
    simp [hr]

def Program.Reads (p : Program) (k : Nat) : Prop := ∃ item ∈ p.body ++ [p.ret], k ∈ item.paramsIn

theorem setPlaces_last (inputs : OfInputs info setParams)
    (reads : ∀ k, setParams.getLsbD k = true → info.deconstruct.Reads k) :
    setPlaces (setEachBefore (info.regmap setParams) info.deconstruct.ret.paramsIn
      (info.unused setParams)).2 = [] := by
  rw [List.eq_nil_iff_forall_not_mem]
  intro k hk
  rw [mem_setPlaces, getLsbD_setEachBefore _ inputs.map inputs.unused,
    getLsbD_remainingSets inputs.map (fun _ h => h)] at hk
  simp only [Bool.and_eq_true, decide_eq_true_eq] at hk
  obtain ⟨⟨hset, hbody⟩, hret⟩ := hk
  obtain ⟨item, hitem, hin⟩ := reads k hset
  rcases List.mem_append.mp hitem with hitem | hitem
  · exact hbody item hitem hin
  · rw [List.mem_singleton.mp hitem] at hin
    exact hret hin

/-- The results of the new program are those of the old one for all choices of members. -/
theorem results_setProgram (world : World V) (ofInputs : OfInputs info setParams)
    (reads : ∀ k, setParams.getLsbD k = true → info.deconstruct.Reads k) {inputs : List V}
    (hlen : inputs.length = info.deconstruct.inputCnt) :
    (world.results (info.setProgram setParams ofInputs) inputs).Perm
      ((world.memberChoices (setPlaces setParams) inputs).flatMap
        (world.results info.deconstruct)) := by
  have map := ofInputs.map
  let start := inputRegisters world.nil info.deconstruct.inputCnt inputs
  have single : ∀ (item : PrgItem) (l : List (Registers V)),
      ((l.map item.args : List (List V)) : Multiset (List V)) =
        (l : Multiset _).bind fun regs => {item.args regs} := by
    intro item l
    rw [Multiset.bind_singleton, Multiset.map_coe]
  have return' : ∀ old new : Registers V,
      Agrees (info.regmap setParams)
        (knownAfter (List.range info.deconstruct.inputCnt) info.deconstruct.body)
        (setEachBefore (info.regmap setParams) info.deconstruct.ret.paramsIn
          (info.unused setParams)).2 old new →
      ({(info.setProgram setParams ofInputs).ret.args new} : Multiset (List V)) =
        world.total (fun regs => {info.deconstruct.ret.args regs})
          (setPlaces (setEachBefore (info.regmap setParams) info.deconstruct.ret.paramsIn
            (info.unused setParams)).2) old := by
    intro old new agree
    rw [setPlaces_last ofInputs reads, World.total]
    have hargs : (info.setProgram setParams ofInputs).ret.args new =
        info.deconstruct.ret.args old := by
      apply agree.args info.deconstruct.known
      intro r hr
      rw [getLsbD_setEachBefore _ map ofInputs.unused]
      simp [hr]
    rw [hargs]
  have agree : Agrees (info.regmap setParams) (List.range info.deconstruct.inputCnt) setParams
      start start := by
    intro r _
    cases hset : setParams.getLsbD r with
    | false => simp [place, map.same hset]
    | true => simp [place, hset]
  have body := bind_compileCommands world map (fun _ h => h)
    (fun k hk => List.mem_range.mpr (ofInputs k hk)) (bounded_inputs info) info.room
    info.deconstruct.inScope
    (fun old new agree => bind_setEachBefore map ofInputs.unused (knownAfter_bounded info)
      info.deconstruct.known return' agree) agree
  apply Multiset.coe_eq_coe.mp
  calc (world.results (info.setProgram setParams ofInputs) inputs : Multiset (List V))
      = (world.solutions (compileCommands (info.regmap setParams) info.deconstruct.body setParams)
          start : Multiset _).bind fun regs =>
            (world.solutions (setEachBefore (info.regmap setParams) info.deconstruct.ret.paramsIn
              (info.unused setParams)).1 regs : Multiset _).bind fun regs =>
                {(info.setProgram setParams ofInputs).ret.args regs} := by
        rw [World.results, single, ← Multiset.bind_assoc, Multiset.coe_bind,
          ← World.solutions_append]
        rfl
    _ = world.total (fun regs => (world.solutions info.deconstruct.body regs : Multiset _).bind
          fun regs => {info.deconstruct.ret.args regs}) (setPlaces setParams) start := body
    _ = (world.memberChoices (setPlaces setParams) inputs : Multiset _).bind fun members =>
          (world.results info.deconstruct members : Multiset (List V)) := by
        rw [World.total_inputs hlen fun k hk => ofInputs k (mem_setPlaces.mp hk)]
        apply Multiset.bind_congr
        intro members _
        rw [World.results, single]
    _ = _ := Multiset.coe_bind _ _

theorem filled_compileSetConstraint (hne : setParams ≠ 0)
    (addrs : ∀ k, setParams.getLsbD k = true → info.inputSpec[k]? = some .addr)
    (ofInputs : OfInputs info setParams) (dec : Deconstruct) :
    (∃ spec filled, compileSetConstraint info setParams = some (spec, filled) ∧
        filled.filled = some dec) ↔
      setParams.msb = false ∧
        (∀ k, setParams.getLsbD k = true → info.deconstruct.Reads k) ∧
          dec = (info.setProgram setParams ofInputs).toDeconstruct := by
  have map := ofInputs.map
  have hrefused : setParamsRefused info.inputSpec setParams = false ↔ setParams.msb = false := by
    rw [setParamsRefused_eq_false, and_iff_left addrs]
  have hlength := length_compileCommands map (fun _ h => h)
    (info.deconstruct.body ++ [info.deconstruct.ret])
  have hfilled : (compileCommands (info.regmap setParams)
        (info.deconstruct.body ++ [info.deconstruct.ret]) setParams).length =
        (info.deconstruct.body ++ [info.deconstruct.ret]).length + (setPlaces setParams).length ↔
      ∀ k, setParams.getLsbD k = true → info.deconstruct.Reads k := by
    rw [← hlength, eq_comm, Nat.add_eq_left, List.length_eq_zero_iff,
      List.eq_nil_iff_forall_not_mem]
    apply forall_congr'
    intro k
    rw [mem_setPlaces, getLsbD_remainingSets map (fun _ h => h)]
    simp only [Bool.and_eq_true, decide_eq_true_eq, not_and, not_forall, not_not, Program.Reads,
      exists_prop]
  have hcommands : compileCommands (info.regmap setParams)
      (info.deconstruct.body ++ [info.deconstruct.ret]) setParams =
        (info.setProgram setParams ofInputs).body ++
          [(info.setProgram setParams ofInputs).ret] := by
    rw [compileCommands_append]
    simp [ConstraintInfo.setProgram, compileCommands]
  simp only [compileSetConstraint, hne, if_false]
  constructor
  · rintro ⟨spec, filled, hcompile, hdec⟩
    split at hcompile
    · cases hcompile
    · next hok =>
      obtain ⟨-, rfl⟩ := Prod.mk.inj (Option.some.inj hcompile)
      simp only [FilledDeconstruct.filled] at hdec
      split at hdec
      · next hall =>
        refine ⟨hrefused.mp (by simpa using hok), hfilled.mp hall, ?_⟩
        rw [← Option.some.inj hdec, hcommands]
        rfl
      · cases hdec
  · rintro ⟨hmsb, reads, rfl⟩
    simp only [hrefused.mpr hmsb, Bool.false_eq_true, if_false]
    refine ⟨_, _, rfl, ?_⟩
    simp only [FilledDeconstruct.filled]
    rw [if_pos (hfilled.mpr reads), hcommands]
    rfl

end NewProgram

/-- A search by the new program yields what searches by the old one yield for all
choices of members, and the chosen members where the sets are returned. In
particular there is nothing to yield when some set is empty. -/
def YieldsUnion (info : ConstraintInfo) (setParams : BitVec 32) (dec : Deconstruct)
    (world : World V) (inputs : List V) : Prop :=
  ∃ (tuples : List (List V)) (original : List V → List (List V)),
    FallbackIterator.RunsTo world dec inputs tuples ∧
    (∀ members ∈ world.memberChoices (setPlaces setParams) inputs,
      FallbackIterator.RunsTo world info.deconstruct.toDeconstruct members (original members) ∧
      ∀ tuple ∈ original members, ∀ i k : Nat, setParams.getLsbD k = true →
        info.deconstruct.ret.paramsIn[i]? = some k → tuple[i]? = members[k]?) ∧
    tuples.Perm ((world.memberChoices (setPlaces setParams) inputs).flatMap original) ∧
    ((∃ k, setParams.getLsbD k = true ∧ world.plainSet (inputs.getD k world.nil) = []) →
      tuples = [])

def MeansUnion (info : ConstraintInfo) (setParams : BitVec 32) : Prop :=
  ∃ dec, (∃ spec filled, compileSetConstraint info setParams = some (spec, filled) ∧
      filled.filled = some dec) ∧
    ∀ (V : Type) (world : World V) (inputs : List V), inputs.length = info.inputSpec.length →
      YieldsUnion info setParams dec world inputs

theorem results_returned {world : World V} {p : Program} {members tuple : List V} {i k : Nat}
    (hlen : members.length = p.inputCnt) (htuple : tuple ∈ world.results p members)
    (hk : k < p.inputCnt) (hret : p.ret.paramsIn[i]? = some k) : tuple[i]? = members[k]? := by
  obtain ⟨regs, found, rfl⟩ := List.mem_map.mp htuple
  have known := solutions_known p.inScope found k (List.mem_range.mpr hk)
  rw [World.inputRegisters_apply hlen, List.getD_eq_getElem?_getD] at known
  rw [PrgItem.args, List.getElem?_map, hret, Option.map_some, known,
    List.getElem?_eq_getElem (by omega), Option.getD_some]

theorem memberChoices_eq_nil {world : World V} {ks : List Nat} (nodup : ks.Nodup) {inputs : List V}
    {k : Nat} (hk : k ∈ ks) (hempty : world.plainSet (inputs.getD k world.nil) = []) :
    world.memberChoices ks inputs = [] := by
  induction ks generalizing inputs with
  | nil => simp at hk
  | cons j ks ih =>
    obtain ⟨hj, nodup⟩ := List.nodup_cons.mp nodup
    rw [World.memberChoices]
    rcases List.mem_cons.mp hk with rfl | hk
    · rw [hempty]
      rfl
    · rw [List.flatMap_eq_nil_iff]
      intro v _
      have hne : j ≠ k := fun heq => hj (heq ▸ hk)
      apply ih nodup hk
      rwa [List.getD_eq_getElem?_getD, List.getElem?_set_ne hne, ← List.getD_eq_getElem?_getD]

def singletonWorld : World Nat := { emptyWorld with plainSet := fun v => [v] }

theorem memberChoices_singletonWorld (ks : List Nat) (inputs : List Nat) :
    ∃ members, members ∈ singletonWorld.memberChoices ks inputs := by
  induction ks generalizing inputs with
  | nil => exact ⟨inputs, List.mem_singleton_self _⟩
  | cons k ks ih =>
    obtain ⟨members, hm⟩ := ih (inputs.set k (inputs.getD k singletonWorld.nil))
    exact ⟨members, List.mem_flatMap.mpr ⟨_, List.mem_singleton_self _, hm⟩⟩

/-- Sets mean union exactly when there is a command before the return, every set is
used by some command, and no bit is the sign. -/
theorem means_union_iff (info : ConstraintInfo) (setParams : BitVec 32) (hne : setParams ≠ 0)
    (addrs : ∀ k, setParams.getLsbD k = true → info.inputSpec[k]? = some .addr) :
    MeansUnion info setParams ↔
      setParams.msb = false ∧ info.deconstruct.body ≠ [] ∧
        ∀ k, setParams.getLsbD k = true → info.deconstruct.Reads k := by
  have ofInputs : OfInputs info setParams := by
    intro k hk
    obtain ⟨hlt, -⟩ := List.getElem?_eq_some_iff.mp (addrs k hk)
    rwa [← info.inputs]
  constructor
  · rintro ⟨dec, compiled, union⟩
    obtain ⟨hmsb, reads, -⟩ := (filled_compileSetConstraint hne addrs ofInputs dec).mp compiled
    refine ⟨hmsb, fun hbody => ?_, reads⟩
    obtain ⟨members, hm⟩ := memberChoices_singletonWorld (setPlaces setParams)
      (List.replicate info.inputSpec.length 0)
    obtain ⟨_, original, -, runs, -, -⟩ := union Nat singletonWorld
      (List.replicate info.inputSpec.length 0) List.length_replicate
    obtain ⟨⟨fuel, s, hcreate, yields⟩, -⟩ := runs members hm
    exact FallbackIterator.not_yields_of_body hbody
      (FallbackIterator.over_of_create hbody hcreate) yields
  · rintro ⟨hmsb, hbody, reads⟩
    refine ⟨_, (filled_compileSetConstraint hne addrs ofInputs _).mpr ⟨hmsb, reads, rfl⟩, ?_⟩
    intro V world inputs hlen
    rw [info.inputs] at hlen
    have hlong : (info.setProgram setParams ofInputs).body ≠ [] := by
      obtain ⟨item, items, hitems⟩ := List.exists_cons_of_ne_nil hbody
      simp [ConstraintInfo.setProgram, hitems, compileCommands]
    have results := results_setProgram world ofInputs reads hlen
    refine ⟨_, world.results info.deconstruct, runsTo_results _ world inputs hlong, ?_, results, ?_⟩
    · intro members hm
      have hmembers := (World.length_of_memberChoices hm).trans hlen
      refine ⟨runsTo_results _ world members hbody, ?_⟩
      intro tuple htuple i k hk hret
      exact results_returned hmembers htuple (ofInputs k hk) hret
    · rintro ⟨k, hk, hempty⟩
      rw [memberChoices_eq_nil (setPlaces_nodup setParams) (mem_setPlaces.mpr hk) hempty] at results
      exact List.perm_nil.mp results

/-- The output arcs of the first of `cnt` elements; the others are not looked at. -/
def outputOf (cnt : Nat) (hpos : 0 < cnt) : ConstraintInfo where
  inputSpec := List.replicate cnt .addr
  deconstruct := {
    inputCnt := cnt
    regCnt := 1
    body := [⟨.constr, [0], [none, some cnt], "all_output", 12⟩]
    ret := ⟨.ret, [0, cnt], [], "return", 0⟩
    inScope := by simp [Scoped, PrgItem.Proper, PrgItem.written, PrgItem.targets, hpos]
    returns := rfl
    known := by simp [knownAfter, PrgItem.written, PrgItem.targets, hpos] }
  inputs := List.length_replicate
  room := by simp [PrgItem.written, PrgItem.targets]

theorem means_union_iff_outputOf : MeansUnion (outputOf 1 (by decide)) 1 := by
  have first : ∀ k, (1 : BitVec 32).getLsbD k = true → k = 0 := by
    intro k hk
    simpa using hk
  apply (means_union_iff (outputOf 1 (by decide)) 1 (by decide) ?_).mpr
  · refine ⟨by decide, by simp [outputOf], ?_⟩
    intro k hk
    obtain rfl := first k hk
    exact ⟨_, List.mem_cons_self, by simp⟩
  · intro k hk
    obtain rfl := first k hk
    rfl

/-- The second of two elements is not looked at: there is no command that ranges over
the set, and the last place for a command, that of the return, is not filled. -/
theorem means_union_fails : ¬∀ (info : ConstraintInfo) (setParams : BitVec 32), setParams ≠ 0 →
    (∀ k, setParams.getLsbD k = true → info.inputSpec[k]? = some .addr) →
    MeansUnion info setParams := by
  intro claim
  have second : ∀ k < 32, (2 : BitVec 32).getLsbD k = true → k = 1 := by decide
  have short : ∃ c, compileSetConstraint (outputOf 2 (by decide)) 2 = some c ∧
      c.2.filled = none := ⟨_, rfl, by decide⟩
  obtain ⟨dec, ⟨spec, filled, hcompile, hfilled⟩, -⟩ :=
    claim (outputOf 2 (by decide)) 2 (by decide) fun k hk => by
      rw [second k (BitVec.lt_of_getLsbD hk) hk]
      rfl
  obtain ⟨c, hc, hnone⟩ := short
  obtain rfl := Option.some.inj (hc.symm.trans hcompile)
  exact absurd (hnone.symm.trans hfilled) (by simp)

end ScCore.Search
