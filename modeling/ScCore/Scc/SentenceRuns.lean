import ScCore.Scc.Sentences

/-!
# Sentences generate what is written

A sentence is a run over the pairs of its sides. Its blocks are at most as long as what is written,
so they are what is written if together they are the same.
-/

namespace ScCore.Scc.Compiler

open Gen Gen.Generator Gen.Output

variable {cc : Compiler} {c : Connector} {g : Generator} {types types' : Addr → ScType} {n : Nat}

/-- What `scsentence` does with a pair. -/
def step (cc : Compiler) (c : Connector) (p : Ident × Ident) (g : Generator) : Option Generator :=
  match p.1.obj.type.special with
  | some special => convert c special p.1 p.2 g
  | none => (cc.genConnector p.1 c.type p.2 g).map Prod.snd

def runPairs (cc : Compiler) (c : Connector) : List (Ident × Ident) → Generator → Option Generator
  | [], g => some g
  | p :: ps, g => (cc.step c p g).bind (cc.runPairs c ps)

theorem runPairs_append (ps ps' : List (Ident × Ident)) (g : Generator) :
    cc.runPairs c (ps ++ ps') g = (cc.runPairs c ps g).bind (cc.runPairs c ps') := by
  induction ps generalizing g with
  | nil => rfl
  | cons p ps ih =>
    rw [List.cons_append, runPairs, runPairs, Option.bind_assoc]
    congr 1
    funext g'
    exact ih g'

theorem scsentenceTo_eq (source : Ident) (dests : List Ident) (g : Generator) :
    cc.scsentenceTo source c.type dests g =
      cc.runPairs c (dests.map fun dest => (source, dest)) g := by
  induction dests generalizing g with
  | nil => rfl
  | cons dest dests ih =>
    rw [List.map_cons, runPairs, scsentenceTo, step]
    obtain ⟨special, kind⟩ : ∃ special, source.obj.type.special = special := ⟨_, rfl⟩
    rw [kind]
    cases special with
    | none =>
      dsimp only
      rw [← funext ih]
      cases cc.genConnector source c.type dest g <;> rfl
    | some special =>
      dsimp only
      rw [convert, ← funext ih]
      cases isTypeConversion source.obj dest.obj c.type with
      | none => rfl
      | some kind' =>
        rw [dest.attrs_eq]
        dsimp only [Option.bind_eq_bind, Option.bind_some]
        split <;> rfl

theorem scsentence_eq (fromList toList : List Ident) (g : Generator) :
    cc.scsentence c.type toList fromList g = cc.runPairs c (pairs fromList toList) g := by
  induction fromList generalizing g with
  | nil => rfl
  | cons source sources ih =>
    rw [scsentence, pairs, List.flatMap_cons, runPairs_append, scsentenceTo_eq]
    exact congrArg _ (funext ih)

variable {source dest : Ident} {special : SpecialNode} {ps : List (Ident × Ident)}
  {blocks full : List (List Created)} {fromList toList : List Ident}

section

variable (same : ∀ a < n, types a = types' a)
include same

theorem pairFits_congr (live : source.Live n) (live' : dest.Live n) :
    cc.PairFits c types source dest ↔ cc.PairFits c types' source dest := by
  rw [PairFits, PairFits]
  split
  · rfl
  · rw [same _ live.1]
    refine and_congr_right fun _ => forall_congr' fun a => forall_congr' fun mem => ?_
    rw [same _ (live'.2 a mem)]

theorem after_congr (live : source.Live n) (live' : dest.Live n) :
    ∀ a < n, cc.after c types source dest a = cc.after c types' source dest a := by
  have signs (constancy : Constancy) :
      ∀ a ∈ (dest.attrsOf constancy).map LangObject.sign, a < n := by
    intro a mem
    obtain ⟨attr, inside, rfl⟩ := List.mem_map.mp mem
    exact Ident.attrsOf_live live' constancy attr inside
  rw [after, after]
  split
  · exact same
  · exact foldl_offered_congr (foldl_offered_congr (foldl_offered_congr
      (offered_congr same live.1) (signs .const)) (signs .var)) (signs .metavar)

theorem conversionFits_congr (live : dest.Live n) :
    ConversionFits c types special dest ↔ ConversionFits c types' special dest := by
  rw [ConversionFits, ConversionFits, same _ live.1]

theorem converted_congr (live : dest.Live n) :
    ∀ a < n, converted types special dest a = converted types' special dest a := by
  intro a lt
  rw [converted, converted, same _ live.1]
  cases (types' dest.obj.sign &&& ~~~ special.mask ||| special.newType).verify with
  | none => exact same a lt
  | some type =>
    dsimp only
    by_cases here : a = dest.obj.sign
    · rw [here, Function.update_self, Function.update_self]
    · rw [Function.update_of_ne here, Function.update_of_ne here, same a lt]

end

theorem Keynodes.outcome {g' : Generator} (keys : cc.Keynodes g)
    (next : g.output.next ≤ g'.output.next)
    (same : ∀ a < g.output.next, g'.output.types a = g.output.types a) : cc.Keynodes g' where
  live₁ := Nat.lt_of_lt_of_le keys.live₁ next
  live₂ := Nat.lt_of_lt_of_le keys.live₂ next
  node₁ := by rw [same _ keys.live₁]; exact keys.node₁
  node₂ := by rw [same _ keys.live₂]; exact keys.node₂

/-- The blocks of the pairs are the written ones exactly if each pair fits when its turn comes. -/
theorem runPairs_spec (ps : List (Ident × Ident)) (h : AtSentence g) (le : n ≤ g.output.next)
    (same : ∀ a < n, g.output.types a = types a) (keys : cc.Tupled c → cc.Keynodes g)
    (live : ∀ p ∈ ps, p.1.Live n ∧ p.2.Live n) :
    (cc.runPairs c ps g = none ∧ ¬ cc.Fits c types ps) ∨ ∃ g' blocks,
      cc.runPairs c ps g = some g' ∧ AtSentence g' ∧
        g'.output.created = g.output.created ++ List.flatten blocks ∧
        List.Forall₂ (fun p (block : List Created) => block.length ≤ cc.size c p.2)
          (connected ps) blocks ∧
        (cc.Fits c types ps ↔
          List.Forall₂ (fun p block => cc.Connects c p.1 p.2 block) (connected ps) blocks) := by
  induction ps generalizing g types with
  | nil =>
    exact .inr ⟨g, [], rfl, h, (List.append_nil _).symm, .nil, fun _ => .nil, fun _ => trivial⟩
  | cons p ps ih =>
    obtain ⟨source, dest⟩ := p
    obtain ⟨sourceLive, destLive⟩ := live _ List.mem_cons_self
    have rest : ∀ p ∈ ps, p.1.Live n ∧ p.2.Live n :=
      fun p mem => live p (List.mem_cons_of_mem _ mem)
    have grow {i : Ident} (live : i.Live n) : i.Live g.output.next :=
      ⟨Nat.lt_of_lt_of_le live.1 le, fun a mem => Nat.lt_of_lt_of_le (live.2 a mem) le⟩
    rw [runPairs, step, Fits]
    obtain ⟨special, kind⟩ : ∃ special, source.obj.type.special = special := ⟨_, rfl⟩
    rw [kind]
    cases special with
    | some special =>
      dsimp only
      have others : connected ((source, dest) :: ps) = connected ps :=
        List.filter_cons_of_neg (by rw [kind]; exact Bool.false_ne_true)
      rw [others]
      obtain ⟨stops, misfit⟩ | ⟨g₁, run, place, fits, created, next, types₁⟩ :=
        @convert_spec c g h special source dest kind
      · refine .inl ⟨by rw [stops]; rfl, fun all => misfit ?_⟩
        exact (conversionFits_congr same destLive).mpr all.1
      · have untupled : ¬ cc.Tupled c := by
          intro tupled
          obtain ⟨constancy, rfl⟩ := tupled.general
          have main := fits.2.2.1
          revert main
          cases constancy <;> decide
        have first := (conversionFits_congr same destLive).mp fits
        rw [run]
        obtain ⟨stops, misfit⟩ | ⟨g', blocks, run', place', created', short, iff⟩ :=
          @ih g₁ (converted types special dest) place
            (by rw [next]; exact le)
            (fun a lt => by rw [types₁]; exact converted_congr same destLive a lt)
            (fun tupled => absurd tupled untupled) rest
        · exact .inl ⟨stops, fun all => misfit all.2⟩
        · refine .inr ⟨g', blocks, run', place', by rw [created', created], short, ?_⟩
          rw [← iff]
          exact and_iff_right first
    | none =>
      dsimp only
      have others : connected ((source, dest) :: ps) = (source, dest) :: connected ps :=
        List.filter_cons_of_pos (by rw [kind]; rfl)
      rw [others]
      obtain ⟨stops, misfit⟩ | ⟨r, block, run, place, outcome, short, pairIff⟩ :=
        genConnector_spec h keys (grow sourceLive) (grow destLive)
      · refine .inl ⟨by rw [stops]; rfl, fun all => misfit ?_⟩
        exact (pairFits_congr same sourceLive destLive).mpr all.1
      · rw [run]
        obtain ⟨stops, misfit⟩ | ⟨g', blocks, run', place', created', shorts, iff⟩ :=
          ih (g := r.2) place
          (Nat.le_trans le outcome.next)
          (fun a lt => (outcome.types a (Nat.lt_of_lt_of_le lt le)).trans
            (after_congr same sourceLive destLive a lt))
          (fun tupled => (keys tupled).outcome outcome.next fun a lt => by
            rw [outcome.types a lt, after, if_pos tupled]) rest
        · exact .inl ⟨stops, fun all => misfit all.2⟩
        · refine .inr ⟨g', block :: blocks, run', place', ?_, .cons short shorts, ?_⟩
          · rw [created', outcome.created, List.flatten_cons, List.append_assoc]
          · rw [List.forall₂_cons, ← iff, ← pairIff, pairFits_congr same sourceLive destLive]

theorem total_le
    (short : List.Forall₂ (fun p (block : List Created) => block.length ≤ cc.size c p.2) ps blocks)
    (whole : List.Forall₂ (fun p (block : List Created) => block.length = cc.size c p.2) ps full) :
    blocks.flatten.length ≤ full.flatten.length := by
  induction short generalizing full with
  | nil =>
    cases whole
    exact Nat.le_refl _
  | cons le _ ih =>
    obtain _ | ⟨eq, whole⟩ := whole
    rw [List.flatten_cons, List.flatten_cons, List.length_append, List.length_append, eq]
    exact Nat.add_le_add le (ih whole)

theorem blocks_eq
    (short : List.Forall₂ (fun p (block : List Created) => block.length ≤ cc.size c p.2) ps blocks)
    (whole : List.Forall₂ (fun p (block : List Created) => block.length = cc.size c p.2) ps full)
    (same : blocks.flatten = full.flatten) : blocks = full := by
  induction short generalizing full with
  | nil =>
    cases whole
    rfl
  | cons le short ih =>
    obtain _ | ⟨eq, whole⟩ := whole
    rw [List.flatten_cons, List.flatten_cons] at same
    have lengths := congrArg List.length same
    rw [List.length_append, List.length_append, eq] at lengths
    have rest := total_le short whole
    obtain ⟨head, tail⟩ := List.append_inj same (by omega)
    rw [head, ih whole tail]

theorem pairs_live (live : ∀ i ∈ fromList ++ toList, i.Live n) :
    ∀ p ∈ pairs fromList toList, p.1.Live n ∧ p.2.Live n := by
  intro p mem
  obtain ⟨source, left, right⟩ := List.mem_flatMap.mp mem
  obtain ⟨dest, toMem, rfl⟩ := List.mem_map.mp right
  exact ⟨live _ (List.mem_append_left _ left), live _ (List.mem_append_right _ toMem)⟩

/-- A sentence is compiled to exactly what is written if and only if each pair of it fits when its
turn comes. -/
theorem sentence_exact_iff (h : AtSentence g) (keys : cc.Keynodes g)
    {fromList toList : List Ident} (live : ∀ i ∈ fromList ++ toList, i.Live g.output.next) :
    cc.Exact c fromList toList g ↔ cc.Fits c g.output.types (pairs fromList toList) := by
  rw [Exact, scsentence_eq]
  obtain ⟨stops, misfit⟩ | ⟨g', blocks, run, -, created, short, iff⟩ :=
    runPairs_spec (pairs fromList toList) h (Nat.le_refl _) (fun _ _ => rfl) (fun _ => keys)
      (pairs_live live)
  · rw [stops]
    refine iff_of_false ?_ misfit
    rintro ⟨g', none, -⟩
    cases none
  · rw [run, iff]
    constructor
    · rintro ⟨g'', same, full, created', all⟩
      cases same
      have lengths : List.Forall₂ (fun p (block : List Created) => block.length = cc.size c p.2)
          (connected (pairs fromList toList)) full :=
        all.imp fun _ _ connects => connects.length
      rw [created] at created'
      rw [blocks_eq short lengths (List.append_cancel_left created')]
      exact all
    · exact fun all => ⟨g', rfl, blocks, created, all⟩

def sampleCompiler : Compiler := ⟨false, 0, 1⟩

def sampleGenerator : Generator := .new 0 (.start 4 fun _ => .node ||| .const)

theorem sample_keynodes : sampleCompiler.Keynodes sampleGenerator :=
  ⟨by decide, by decide, by decide, by decide⟩

def sampleFrom : List Ident := [⟨[], ⟨.scElement, 2⟩⟩]

def sampleTo : List Ident := [⟨[], ⟨.scElement, 3⟩⟩]

theorem sample_live : ∀ i ∈ sampleFrom ++ sampleTo, i.Live sampleGenerator.output.next := by
  simp [sampleFrom, sampleTo, Ident.Live, sampleGenerator, Generator.new, Output.start]

/-- A constant general arc is a tuple of what is written. -/
theorem sentence_exact_iff_sample :
    sampleCompiler.Exact (.general .const) sampleFrom sampleTo sampleGenerator :=
  (sentence_exact_iff (AtSentence.new _ _ _) sample_keynodes sample_live).mpr
    ⟨⟨rfl, rfl⟩, trivial⟩

/-- The membership arcs of a variable general arc are constant. -/
theorem not_sentence_exact : ¬ ∀ (cc : Compiler) (c : Connector) (fromList toList : List Ident)
    (g : Generator), AtSentence g → cc.Keynodes g →
    (∀ i ∈ fromList ++ toList, i.Live g.output.next) → cc.Exact c fromList toList g := by
  intro all
  obtain ⟨g', run, blocks, created, blocksConnect⟩ := all sampleCompiler (.general .var) sampleFrom
    sampleTo sampleGenerator (AtSentence.new _ _ _) sample_keynodes sample_live
  have made : (sampleCompiler.scsentence (Connector.general .var).type sampleTo sampleFrom
      sampleGenerator).map (fun g => g.output.created.map Created.type) =
      some [.node ||| .var, Constancy.arcType .const, Constancy.arcType .var,
        Constancy.arcType .const, Constancy.arcType .var] := by decide +kernel
  rw [run, Option.map_some, created] at made
  obtain _ | ⟨connects, none⟩ := blocksConnect
  cases none
  rw [Connects, if_pos (by decide)] at connects
  obtain ⟨tuple, arc₁, attr₁, arc₂, attr₂, rfl, -, first, -⟩ := connects
  have types := (List.cons.inj (List.cons.inj (Option.some.inj made)).2).1
  rw [first.type] at types
  revert types
  decide

end ScCore.Scc.Compiler
