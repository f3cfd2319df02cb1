import ScCore.Scc.SequenceRuns
import Mathlib.Data.List.Nodup

/-!
# Sequences in the order of the text

A block has its operators and labels in the order in which they were written, each of them linked
to the next one.
-/

namespace ScCore.Scc

open Building Lib

/-! ## The leaves of a block -/

namespace BodyBlock

mutual

def leaves : BodyBlock → List Leaf
  | leaf x => [x]
  | sequence blocks => leavesOf blocks

def leavesOf : List BodyBlock → List Leaf
  | [] => []
  | b :: blocks => b.leaves ++ leavesOf blocks

end

structure Solid (b : BodyBlock) : Prop where
  some : b.leaves ≠ []
  front : b.front = b.leaves.head?
  back : b.back = b.leaves.getLast?

theorem leavesOf_append (blocks blocks' : List BodyBlock) :
    leavesOf (blocks ++ blocks') = leavesOf blocks ++ leavesOf blocks' := by
  induction blocks with
  | nil => rfl
  | cons b blocks ih => rw [List.cons_append, leavesOf, leavesOf, ih, List.append_assoc]

theorem Solid.leaf (x : Leaf) : Solid (leaf x) :=
  ⟨List.cons_ne_nil _ _, rfl, rfl⟩

variable {blocks : List BodyBlock}

theorem backOf_eq (solid : ∀ b ∈ blocks, b.Solid) : backOf blocks = (leavesOf blocks).getLast? := by
  induction blocks with
  | nil => rfl
  | cons b blocks ih =>
    have here := solid b List.mem_cons_self
    have rest := ih fun b mem => solid b (List.mem_cons_of_mem _ mem)
    cases blocks with
    | nil =>
      rw [backOf, here.back, leavesOf, leavesOf, List.append_nil]
    | cons b' blocks =>
      have some' : leavesOf (b' :: blocks) ≠ [] := by
        rw [leavesOf]
        exact List.append_ne_nil_of_left_ne_nil
          (solid b' (List.mem_cons_of_mem _ List.mem_cons_self)).some _
      have split : leavesOf (b :: b' :: blocks) = b.leaves ++ leavesOf (b' :: blocks) := rfl
      rw [backOf, rest, split, List.getLast?_append_of_ne_nil _ some']

theorem Solid.sequence (solid : ∀ b ∈ blocks, b.Solid) (some : leavesOf blocks ≠ []) :
    Solid (sequence blocks) := by
  refine ⟨some, ?_, backOf_eq solid⟩
  cases blocks with
  | nil => rfl
  | cons b blocks =>
    have here := solid b List.mem_cons_self
    show b.front = (b.leaves ++ leavesOf blocks).head?
    rw [here.front, List.head?_append_of_ne_nil _ here.some]

end BodyBlock

open BodyBlock

/-! ## Linked leaves -/

variable {st st' : Building} {x y z : Leaf} {b : BodyBlock} {s : Sign} {l : Nat} {L : Nat → Prop}
  {log log' : List Entry} {ls : List Leaf}

namespace Building

def Linked (st : Building) : List Leaf → Prop
  | [] => True
  | [x] => st.getGoto x = none
  | x :: y :: ls => (∃ b, st.getGoto x = some b ∧ b.front = some y) ∧ st.Linked (y :: ls)

theorem Linked.congr (linked : st.Linked ls) (same : ∀ x ∈ ls, st'.getGoto x = st.getGoto x) :
    st'.Linked ls := by
  induction ls with
  | nil => trivial
  | cons x ls ih =>
    have here := same x List.mem_cons_self
    cases ls with
    | nil => exact here.trans linked
    | cons y ls =>
      obtain ⟨⟨b, block, front⟩, rest⟩ := linked
      exact ⟨⟨b, here.trans block, front⟩,
        ih rest fun x mem => same x (List.mem_cons_of_mem _ mem)⟩

theorem Linked.last (linked : st.Linked (ls ++ [x])) : st.getGoto x = none := by
  induction ls with
  | nil => exact linked
  | cons u ls ih =>
    cases ls with
    | nil => exact linked.2
    | cons v ls => exact ih linked.2

theorem Linked.leads (linked : st.Linked (x :: ls)) (h : Leads st x z) : z ∈ x :: ls := by
  induction ls generalizing x with
  | nil =>
    cases h with
    | operator | waiting => exact List.mem_cons_self
    | placed block => cases (show st.getGoto _ = none from linked).symm.trans block
  | cons y ls ih =>
    obtain ⟨⟨b, block, front⟩, rest⟩ := linked
    cases h with
    | operator | waiting => exact List.mem_cons_self
    | placed block' front' leads =>
      cases (show st.getGoto _ = some b from block).symm.trans block'
      cases front.symm.trans front'
      exact List.mem_cons_of_mem _ (ih rest leads)

theorem Linked.append {ls' : List Leaf} (linked : st.Linked (ls ++ [x]))
    (linked' : st.Linked (y :: ls')) (links : st.Links x b st') (front : b.front = some y)
    (nodup : (ls ++ [x] ++ y :: ls').Nodup) : st'.Linked (ls ++ [x] ++ y :: ls') := by
  induction ls with
  | nil =>
    refine ⟨⟨b, links.goto_, front⟩, linked'.congr fun u mem => links.others u ?_⟩
    rintro rfl
    exact (List.nodup_cons.mp nodup).1 mem
  | cons u ls ih =>
    obtain ⟨new, rest⟩ := List.nodup_cons.mp nodup
    have other : u ≠ x := by
      rintro rfl
      exact new (List.mem_append_left _ (List.mem_append_right _ List.mem_cons_self))
    cases ls with
    | nil =>
      obtain ⟨⟨c, block, first⟩, linked⟩ := linked
      exact ⟨⟨c, (links.others u other).trans block, first⟩, ih linked rest⟩
    | cons v ls =>
      obtain ⟨⟨c, block, first⟩, linked⟩ := linked
      exact ⟨⟨c, (links.others u other).trans block, first⟩, ih linked rest⟩

/-! ## What is built of items -/

/-- A leaf is a word of the text. Operators are made after `old`. -/
def Reads (old : Sign) (st : Building) : Leaf → Word → Prop
  | .operator s, .operator type => old ≤ s ∧ st.memory.types s = some type
  | .label l, .label k => l = k
  | _, _ => False

/-- Items with the words `text` and the references `refers` have become the leaves `ls`. -/
structure Written (L : Nat → Prop) (st : Building) (log : List Entry) (text : List Word)
    (refers : List Nat) (ls : List Leaf) (st' : Building) (log' : List Entry) : Prop where
  inv : st'.Inv L log'
  linked : st'.Linked ls
  reads : List.Forall₂ (Reads st.memory.next st') ls text
  nodup : ls.Nodup
  others : ∀ x, x ∉ ls → st'.getGoto x = st.getGoto x
  types : ∀ s, s < st.memory.next → st'.memory.types s = st.memory.types s
  next : st.memory.next ≤ st'.memory.next
  refers : log'.filterMap Entry.refer? = log.filterMap Entry.refer? ++ refers

structure Ready (L : Nat → Prop) (st : Building) (text : List Word) : Prop where
  nodup : (text.filterMap Word.label?).Nodup
  real : ∀ l, Word.label l ∈ text → L l
  alone : ∀ l, Word.label l ∈ text → st.blk l = none

namespace Written

variable {text text' : List Word} {refers refers' : List Nat}

theorem label_mem (w : Written L st log text refers ls st' log') (mem : .label l ∈ ls) :
    .label l ∈ text := by
  obtain ⟨word, mem, reads⟩ := exists_of_mem_left w.reads mem
  cases word with
  | operator => exact reads.elim
  | label k =>
    obtain rfl : l = k := reads
    exact mem

theorem operator_mem (w : Written L st log text refers ls st' log') (mem : .operator s ∈ ls) :
    st.memory.next ≤ s ∧ s < st'.memory.next := by
  obtain ⟨word, -, reads⟩ := exists_of_mem_left w.reads mem
  cases word with
  | operator type =>
    obtain ⟨le, type⟩ := reads
    have lasting := w.inv.operators s (by rw [type]; rfl)
    exact ⟨le, w.inv.fresh s (.inr lasting.1)⟩
  | label => exact reads.elim

variable {ls' : List Leaf} {st₀ : Building} {log₀ : List Entry}

theorem disjoint (w : Written L st₀ log₀ text refers ls st log)
    (w' : Written L st log text' refers' ls' st' log')
    (nodup : ((text ++ text').filterMap Word.label?).Nodup) : (ls ++ ls').Nodup := by
  refine List.nodup_append.mpr ⟨w.nodup, w'.nodup, ?_⟩
  rintro x mem y mem' rfl
  cases x with
  | operator s =>
    have before := (w.operator_mem mem).2
    have behind := (w'.operator_mem mem').1
    exact Nat.lt_irrefl _ (Nat.lt_of_lt_of_le before behind)
  | label l =>
    have label {text : List Word} (mem : .label l ∈ text) : l ∈ text.filterMap Word.label? :=
      List.mem_filterMap.mpr ⟨_, mem, rfl⟩
    rw [List.filterMap_append] at nodup
    exact (List.nodup_append.mp nodup).2.2 l (label (w.label_mem mem)) l
      (label (w'.label_mem mem')) rfl

theorem join {st'' : Building} {log'' : List Entry} (w : Written L st₀ log₀ text refers ls st log)
    (w' : Written L st log text' refers' ls' st' log')
    (nodup : ((text ++ text').filterMap Word.label?).Nodup) (inv : st''.Inv L log'')
    (linked : st''.Linked (ls ++ ls'))
    (others : ∀ x, x ∉ ls ++ ls' → st''.getGoto x = st'.getGoto x)
    (types : st''.memory.types = st'.memory.types) (next : st'.memory.next ≤ st''.memory.next)
    (refs : log''.filterMap Entry.refer? = log'.filterMap Entry.refer?) :
    Written L st₀ log₀ (text ++ text') (refers ++ refers') (ls ++ ls') st'' log'' where
  inv := inv
  linked := linked
  reads := by
    refine List.rel_append (w.reads.imp fun x word reads => ?_)
      (w'.reads.imp fun x word reads => ?_)
    · cases x <;> cases word
      · obtain ⟨le, type⟩ := reads
        have lasting := w.inv.operators _ (by rw [type]; rfl)
        have old := w'.types _ (w.inv.fresh _ (.inr lasting.1))
        exact ⟨le, (congrFun types _).trans (old.trans type)⟩
      · exact reads
      · exact reads
      · exact reads
    · cases x <;> cases word
      · exact ⟨Nat.le_trans w.next reads.1, (congrFun types _).trans reads.2⟩
      · exact reads
      · exact reads
      · exact reads
  nodup := w.disjoint w' nodup
  others x new := by
    rw [others x new, w'.others x fun mem => new (List.mem_append_right _ mem),
      w.others x fun mem => new (List.mem_append_left _ mem)]
  types s lt := by
    rw [types, w'.types s (Nat.lt_of_lt_of_le lt w.next), w.types s lt]
  next := Nat.le_trans (Nat.le_trans w.next w'.next) next
  refers := by rw [refs, w'.refers, w.refers, List.append_assoc]

end Written

theorem Ready.after {text text' : List Word} {refers : List Nat}
    (ready : Ready L st (text ++ text')) (w : Written L st log text refers ls st' log') :
    Ready L st' text' where
  nodup := by
    have nodup := ready.nodup
    rw [List.filterMap_append] at nodup
    exact (List.nodup_append.mp nodup).2.1
  real l mem := ready.real l (List.mem_append_right _ mem)
  alone l mem := by
    have label {text : List Word} (mem : .label l ∈ text) : l ∈ text.filterMap Word.label? :=
      List.mem_filterMap.mpr ⟨_, mem, rfl⟩
    have nodup := ready.nodup
    rw [List.filterMap_append] at nodup
    have new : .label l ∉ ls := fun old =>
      (List.nodup_append.mp nodup).2.2 l (label (w.label_mem old)) l (label mem) rfl
    exact (w.others _ new).trans (ready.alone l (List.mem_append_right _ mem))

theorem add_spec {text text' : List Word} {refers refers' : List Nat} {st₀ : Building}
    {log₀ : List Entry} {blocks : List BodyBlock}
    (w : Written L st₀ log₀ text refers (leavesOf blocks) st log)
    (w' : Written L st log text' refers' b.leaves st' log') (solid : ∀ b ∈ blocks, b.Solid)
    (here : b.Solid) (ready : Ready L st₀ (text ++ text')) : ∃ st'' log'',
      Converges (fun n => st'.add n blocks b) (blocks ++ [b], st'') ∧
        Written L st₀ log₀ (text ++ text') (refers ++ refers') (leavesOf (blocks ++ [b])) st''
          log'' := by
  have split : leavesOf (blocks ++ [b]) = leavesOf blocks ++ b.leaves := by
    rw [leavesOf_append, leavesOf, leavesOf, List.append_nil]
  rw [split]
  cases blocks using List.reverseRecOn with
  | nil =>
    exact ⟨st', log', .const _, w.join w' ready.nodup w'.inv w'.linked (fun _ _ => rfl) rfl
      (Nat.le_refl _) rfl⟩
  | append_singleton blocks prevLast =>
    have last := solid prevLast (List.mem_append_right _ (List.mem_singleton.mpr rfl))
    obtain ⟨front', x, hx⟩ : ∃ front' x, prevLast.leaves = front' ++ [x] :=
      ⟨_, _, (List.dropLast_append_getLast last.some).symm⟩
    obtain ⟨y, rest, hy⟩ := List.exists_cons_of_ne_nil here.some
    have front : b.front = some y := by rw [here.front, hy, List.head?_cons]
    have back : prevLast.back = some x := by rw [last.back, hx, List.getLast?_concat]
    have leaves : leavesOf (blocks ++ [prevLast]) = leavesOf blocks ++ front' ++ [x] := by
      rw [leavesOf_append, leavesOf, leavesOf, List.append_nil, hx, List.append_assoc]
    have nodup := w.disjoint w' ready.nodup
    rw [leaves, hy] at nodup ⊢
    rw [leaves] at w
    rw [hy] at w'
    have new : x ∉ y :: rest := fun mem =>
      (List.nodup_append.mp nodup).2.2 x (List.mem_append_right _ (List.mem_singleton.mpr rfl)) x
        mem rfl
    have linked : st'.Linked (leavesOf blocks ++ front' ++ [x]) :=
      w.linked.congr fun u mem => w'.others u fun mem' =>
        (List.nodup_append.mp nodup).2.2 u mem u mem' rfl
    obtain ⟨z, ahead⟩ := w'.inv.total y
    have apart : z ≠ x := by
      rintro rfl
      exact new (w'.linked.leads ahead)
    have label (l : Nat) (mem : .label l ∈ text ++ text') : L l := ready.real l mem
    have realX : st'.Real L x := by
      have mem : x ∈ leavesOf blocks ++ front' ++ [x] :=
        List.mem_append_right _ (List.mem_singleton.mpr rfl)
      cases x with
      | operator s =>
        obtain ⟨word, -, reads⟩ := exists_of_mem_left w.reads mem
        cases word with
        | operator type =>
          have lasting := w.inv.operators s (by rw [reads.2]; rfl)
          have old := w'.types s (w.inv.fresh s (.inr lasting.1))
          exact Option.isSome_iff_exists.mpr ⟨type, old.trans reads.2⟩
        | label => exact reads.elim
      | label l => exact label l (List.mem_append_left _ (w.label_mem mem))
    have realY : st'.Real L y := by
      have mem : y ∈ y :: rest := List.mem_cons_self
      cases y with
      | operator s =>
        obtain ⟨word, -, reads⟩ := exists_of_mem_left w'.reads mem
        cases word with
        | operator type => exact Option.isSome_iff_exists.mpr ⟨type, reads.2⟩
        | label => exact reads.elim
      | label l => exact label l (List.mem_append_right _ (w'.label_mem mem))
    obtain ⟨st'', log'', next, inv, links, refs⟩ :=
      w'.inv.setNext realX linked.last front realY ahead apart
    refine ⟨st'', log'', ?_, w.join w' ready.nodup inv (linked.append w'.linked links front nodup)
      (fun u other => links.others u ?_) links.types links.next refs⟩
    · have same : (fun n => st'.add n (blocks ++ [prevLast]) b) = fun n =>
          (st'.setNext n b x).bind fun st => some (blocks ++ [prevLast] ++ [b], st) := by
        funext n
        rw [add, List.getLast?_concat]
        dsimp only
        rw [back]
        rfl
      rw [same]
      exact next.bind (.const _)
    · rintro rfl
      exact other (List.mem_append_left _ (List.mem_append_right _ (List.mem_singleton.mpr rfl)))

theorem Written.nil (inv : st.Inv L log) : Written L st log [] [] [] st log :=
  ⟨inv, trivial, .nil, List.nodup_nil, fun _ _ => rfl, fun _ _ => rfl, Nat.le_refl _,
    (List.append_nil _).symm⟩

theorem Ready.left {text text' : List Word} (ready : st.Ready L (text ++ text')) :
    st.Ready L text where
  nodup := by
    have nodup := ready.nodup
    rw [List.filterMap_append] at nodup
    exact (List.nodup_append.mp nodup).1
  real l mem := ready.real l (List.mem_append_left _ mem)
  alone l mem := ready.alone l (List.mem_append_left _ mem)

theorem Written.operator (inv : st.Inv L log) (type : Nat) :
    Written L st log [.operator type] [] [.operator st.memory.next] (st.createOperator type)
      log where
  inv := inv.createOperator type
  linked := by
    show (Function.update st.ops st.memory.next .new st.memory.next).gotoBlk = none
    rw [Function.update_self]
    rfl
  reads := .cons ⟨Nat.le_refl _, Function.update_self _ _ _⟩ .nil
  nodup := List.nodup_singleton _
  others x other := by
    cases x with
    | operator s =>
      have other : s ≠ st.memory.next := by
        rintro rfl
        exact other (List.mem_singleton.mpr rfl)
      exact congrArg OperatorBlocks.gotoBlk (Function.update_of_ne other _ _)
    | label => rfl
  types s lt := Function.update_of_ne (Nat.ne_of_lt lt) _ _
  next := Nat.le_succ _
  refers := (List.append_nil _).symm

end Building

namespace Item

mutual

theorem build_spec : ∀ (item : Item) {st : Building} {log : List Entry}, st.Inv L log →
    item.filled = true → st.Ready L item.text → (∀ l ∈ item.refers, L l) → ∃ r st' log',
      Converges (fun n => item.build n st) (r, st') ∧
        Written L st log item.text item.refers (r.elim [] leaves) st' log' ∧
          ∀ b, r = some b → b.Solid
  | operator type, st, log, inv, _, _, _ => by
    refine ⟨some (.leaf (.operator st.memory.next)), st.createOperator type, log, .const _,
      Written.operator inv type, fun b made => ?_⟩
    obtain rfl := Option.some.inj made
    exact .leaf _
  | label l, st, log, inv, _, ready, _ => by
    refine ⟨some (.leaf (.label l)), st, log, .const _, ⟨inv, ?_, .cons rfl .nil,
      List.nodup_singleton _, fun _ _ => rfl, fun _ _ => rfl, Nat.le_refl _,
      (List.append_nil _).symm⟩, fun b made => ?_⟩
    · exact ready.alone l (List.mem_singleton.mpr rfl)
    · obtain rfl := Option.some.inj made
      exact .leaf _
  | refer l, st, log, inv, _, _, refers => by
    obtain ⟨st', result, inv', asked⟩ := inv.referTo (refers l (List.mem_singleton.mpr rfl))
    refine ⟨none, st', _, result.bind (.const _), ⟨inv', trivial, .nil, List.nodup_nil,
      fun x _ => asked.getGoto x, fun s _ => congrFun asked.types s, asked.next, ?_⟩,
      fun b made => nomatch made⟩
    rw [List.filterMap_append]
    rfl
  | sequence items, st, log, inv, filled, ready, refers => by
    obtain ⟨some', filled⟩ := Bool.and_eq_true_iff.mp filled
    obtain ⟨blocks, st', log', result, w, solid⟩ := buildAll_spec items []
      (Written.nil inv) (fun b mem => nomatch mem) filled ready refers
    refine ⟨some (.sequence blocks), st', log', result.bind (.const _), w, fun b made => ?_⟩
    obtain rfl := Option.some.inj made
    refine .sequence solid fun empty => ?_
    have reads := w.reads
    rw [empty, List.forall₂_nil_left_iff, List.nil_append] at reads
    rw [reads] at some'
    cases some'

theorem buildAll_spec : ∀ (items : List Item) (blocks : List BodyBlock) {st₀ st : Building}
    {log₀ log : List Entry} {text : List Word} {refers : List Nat},
    Written L st₀ log₀ text refers (leavesOf blocks) st log → (∀ b ∈ blocks, b.Solid) →
      filledAll items = true → st₀.Ready L (text ++ textOf items) → (∀ l ∈ refersOf items, L l) →
        ∃ blocks' st' log', Converges (fun n => buildAll n items blocks st) (blocks', st') ∧
          Written L st₀ log₀ (text ++ textOf items) (refers ++ refersOf items)
            (leavesOf blocks') st' log' ∧ ∀ b ∈ blocks', b.Solid
  | [], blocks, st₀, st, log₀, log, text, refers, w, solid, _, _, _ => by
    refine ⟨blocks, st, log, .const _, ?_, solid⟩
    rwa [textOf, refersOf, List.append_nil, List.append_nil]
  | item :: items, blocks, st₀, st, log₀, log, text, refers, w, solid, filled, ready, real => by
    obtain ⟨here, filled⟩ := Bool.and_eq_true_iff.mp filled
    have first (l : Nat) (mem : l ∈ item.refers) : L l := real l (List.mem_append_left _ mem)
    have rest (l : Nat) (mem : l ∈ refersOf items) : L l := real l (List.mem_append_right _ mem)
    rw [textOf] at ready
    obtain ⟨r, st₁, log₁, result, w₁, made⟩ :=
      build_spec item w.inv here (ready.after w).left first
    rw [← List.append_assoc] at ready
    rw [textOf, refersOf, ← List.append_assoc, ← List.append_assoc]
    cases r with
    | none =>
      have w₁ : Written L st log item.text item.refers [] st₁ log₁ := w₁
      have linked : st₁.Linked (leavesOf blocks ++ []) := by
        rw [List.append_nil]
        exact w.linked.congr fun x _ => w₁.others x List.not_mem_nil
      have joined := w.join w₁ ready.left.nodup w₁.inv linked (fun _ _ => rfl) rfl (Nat.le_refl _)
        rfl
      rw [List.append_nil] at joined
      obtain ⟨blocks', st', log', result', w', solid'⟩ := buildAll_spec items blocks joined solid
        filled ready rest
      exact ⟨blocks', st', log', result.bind ((Converges.const _).bind result'), w', solid'⟩
    | some b =>
      obtain ⟨st₂, log₂, added, w₂⟩ := add_spec w w₁ solid (made b rfl) ready.left
      have solid' : ∀ c ∈ blocks ++ [b], c.Solid := by
        intro c mem
        obtain mem | mem := List.mem_append.mp mem
        · exact solid c mem
        · rw [List.mem_singleton.mp mem]
          exact made b rfl
      obtain ⟨blocks', st', log', result', w', solid''⟩ := buildAll_spec items _ w₂ solid'
        filled ready rest
      exact ⟨blocks', st', log', result.bind (added.bind result'), w', solid''⟩

end

end Item

/-! ## The compiled body -/

def Leaf.sign? : Leaf → Option Sign
  | .operator s => some s
  | .label _ => none

namespace Building

theorem start_inv (L : Nat → Prop) : Building.start.Inv L [] where
  fresh s h := by
    obtain mem | live := h
    · cases mem
    · obtain rfl := of_decide_eq_true live
      exact Nat.one_pos
  program := ⟨rfl, List.not_mem_nil⟩
  operators s h := nomatch h
  plain _ := rfl
  waiting l d h := nomatch h
  own l l' d h := nomatch h
  gone d mem := nomatch mem
  fronts x b h := by cases x <;> cases h
  total x := by
    cases x with
    | operator s => exact ⟨_, .operator s⟩
    | label l => exact ⟨_, .waiting rfl⟩
  components := .nil
  gotos s y := iff_of_false List.not_mem_nil fun ⟨b, block, _⟩ => nomatch block
  entries e mem := nomatch mem

theorem Inv.at_goto (inv : st.Inv L log) (block : (st.ops s).gotoBlk = some b)
    (front : b.front = some y) : ∃ el, st.memory.at? s .goto_ = some el ∧ st.Stands y el := by
  have entry : ⟨s, .goto_, y⟩ ∈ log := (inv.gotos s y).mpr ⟨b, block, front⟩
  obtain ⟨c, mem, holds⟩ := exists_of_mem_left inv.components entry
  obtain ⟨c', found⟩ : ∃ c', st.memory.components.find?
      (fun c => c.tuple = s ∧ c.attr = .goto_) = some c' := by
    refine Option.ne_none_iff_exists'.mp fun none => ?_
    exact List.find?_eq_none.mp none c mem (decide_eq_true ⟨holds.tuple, holds.attr⟩)
  refine ⟨c'.el, by rw [BodyMemory.at?, found]; rfl, ?_⟩
  obtain ⟨e', mem', holds'⟩ := exists_of_mem_right inv.components (List.mem_of_find?_eq_some found)
  have here := List.find?_some found
  obtain ⟨tuple, attr⟩ := of_decide_eq_true here
  obtain ⟨tuple', attr', leaf⟩ := e'
  obtain rfl : s = tuple' := tuple.symm.trans holds'.tuple
  obtain rfl : Attr.goto_ = attr' := attr.symm.trans holds'.attr
  obtain ⟨b', block', front'⟩ := (inv.gotos s leaf).mp mem'
  cases block.symm.trans block'
  cases front.symm.trans front'
  exact holds'.el

theorem Inv.at_goto_none (inv : st.Inv L log) (none : (st.ops s).gotoBlk = none) :
    st.memory.at? s .goto_ = .none := by
  rw [BodyMemory.at?, Option.map_eq_none_iff, List.find?_eq_none]
  intro c mem found
  obtain ⟨tuple, attr⟩ := of_decide_eq_true found
  obtain ⟨⟨tuple', attr', leaf⟩, mem', holds⟩ := exists_of_mem_right inv.components mem
  obtain rfl : s = tuple' := tuple.symm.trans holds.tuple
  obtain rfl : Attr.goto_ = attr' := attr.symm.trans holds.attr
  obtain ⟨b, block, -⟩ := (inv.gotos s leaf).mp mem'
  cases none.symm.trans block

structure Ended (st : Building) (ls : List Leaf) (text : List Word) : Prop where
  linked : st.Linked ls
  reads : List.Forall₂ (Reads 0 st) ls text
  last : ∃ type, text.getLast? = some (.operator type)

namespace Ended

variable {text : List Word} {word : Word}

theorem tail (ended : st.Ended (x :: y :: ls) text) :
    ∃ word text', text = word :: text' ∧ Reads 0 st x word ∧ st.Ended (y :: ls) text' := by
  obtain ⟨linked, reads, type, last⟩ := ended
  cases reads with
  | @cons _ word _ text' here rest =>
    refine ⟨word, text', rfl, here, linked.2, rest, type, ?_⟩
    cases rest with
    | cons => exact last

theorem single (ended : st.Ended [x] text) :
    ∃ s type, x = .operator s ∧ text = [.operator type] ∧ st.getGoto x = none := by
  obtain ⟨linked, reads, type, last⟩ := ended
  cases reads with
  | @cons _ word _ text' here rest =>
    cases rest
    cases Option.some.inj last
    cases x with
    | operator s => exact ⟨s, type, rfl, rfl, linked⟩
    | label => exact here.elim

theorem placed (ended : st.Ended ls text) (mem : .label l ∈ ls) : st.blk l ≠ none := by
  induction ls generalizing text with
  | nil => cases mem
  | cons x ls ih =>
    cases ls with
    | nil =>
      obtain ⟨s, type, rfl, -⟩ := ended.single
      cases List.mem_singleton.mp mem
    | cons y ls =>
      obtain rfl | mem := List.mem_cons.mp mem
      · obtain ⟨⟨b, block, -⟩, -⟩ := ended.linked
        intro none
        cases (show st.blk l = some b from block).symm.trans none
      · obtain ⟨word, text', -, -, rest⟩ := ended.tail
        exact ih rest mem

theorem path (inv : st.Inv L log) (ended : st.Ended (x :: ls) text) (h : st.Stands x s) :
    st.memory.Path (some s) ((x :: ls).filterMap Leaf.sign?) := by
  induction ls generalizing x text s with
  | nil =>
    obtain ⟨s', type, rfl, -, none⟩ := ended.single
    obtain rfl := h.unique ⟨_, .operator s', rfl⟩
    refine ⟨rfl, ?_⟩
    rw [inv.at_goto_none none]
    trivial
  | cons y ls ih =>
    obtain ⟨word, text', -, -, rest⟩ := ended.tail
    obtain ⟨⟨b, block, front⟩, -⟩ := ended.linked
    cases x with
    | operator s' =>
      obtain rfl := h.unique ⟨_, .operator s', rfl⟩
      obtain ⟨el, next, stands⟩ := inv.at_goto block front
      refine ⟨rfl, ?_⟩
      rw [next]
      exact ih rest stands
    | label l =>
      obtain ⟨z, leads, sign⟩ := h
      refine ih rest ⟨z, ?_, sign⟩
      cases leads with
      | waiting alone => cases (show st.blk l = some b from block).symm.trans alone
      | placed block' front' leads =>
        cases (show st.blk l = some b from block).symm.trans block'
        cases front.symm.trans front'
        exact leads

theorem label (inv : st.Inv L log) (ended : st.Ended ls text) (mem : .label l ∈ text)
    (h : st.Stands (.label l) s) :
    (ls.filterMap Leaf.sign?)[operatorsBefore text l]? = some s := by
  induction ls generalizing text with
  | nil =>
    cases ended.reads
    cases mem
  | cons x ls ih =>
    by_cases here : x = .label l
    · subst here
      have path := path inv ended h
      have first : operatorsBefore text l = 0 := by
        cases ended.reads with
        | @cons _ word _ text' reads =>
          cases word with
          | operator => exact reads.elim
          | label k =>
            obtain rfl : l = k := reads
            rw [operatorsBefore, List.takeWhile_cons_of_neg (by simp)]
            rfl
      rw [first]
      cases signs : (Leaf.label l :: ls).filterMap Leaf.sign? with
      | nil =>
        rw [signs] at path
        exact path.elim
      | cons s' rest =>
        rw [signs] at path
        exact congrArg some path.1.symm
    · cases ls with
      | nil =>
        obtain ⟨s', type, rfl, rfl, -⟩ := ended.single
        cases List.mem_singleton.mp mem
      | cons y ls =>
        obtain ⟨word, text', rfl, reads, rest⟩ := ended.tail
        have other : word ≠ .label l := by
          rintro rfl
          cases x with
          | operator => exact reads
          | label k => exact here (congrArg _ reads)
        have found := ih rest ((List.mem_cons.mp mem).resolve_left other.symm)
        have skips : (word :: text').takeWhile (· ≠ .label l) =
            word :: text'.takeWhile (· ≠ .label l) :=
          List.takeWhile_cons_of_pos (decide_eq_true other)
        rw [operatorsBefore, skips]
        cases x with
        | operator s' =>
          cases word with
          | operator type => exact found
          | label => exact reads.elim
        | label k =>
          cases word with
          | operator => exact reads.elim
          | label => exact found

theorem dead (inv : st.Inv (fun l => .label l ∈ text) log) (ended : st.Ended ls text) :
    ∀ d ∈ st.placeholders, st.memory.live d = false := by
  intro d mem
  by_contra live
  obtain ⟨l, dummy⟩ := inv.gone d mem (by simpa using live)
  obtain ⟨label, alone, -⟩ := inv.waiting l d dummy
  obtain ⟨x, mem, reads⟩ := exists_of_mem_right ended.reads label
  cases x with
  | operator => exact reads
  | label k =>
    obtain rfl : k = l := reads
    exact ended.placed mem alone

theorem types (ended : st.Ended ls text) :
    (ls.filterMap Leaf.sign?).map st.memory.types = (text.filterMap Word.type?).map some := by
  obtain ⟨-, reads, -⟩ := ended
  induction reads with
  | nil => rfl
  | @cons x word ls text here _ ih =>
    cases x with
    | operator s =>
      cases word with
      | operator type =>
        show st.memory.types s :: _ = some type :: _
        rw [here.2, ih]
      | label => exact here.elim
    | label l =>
      cases word with
      | operator => exact here.elim
      | label => exact ih

theorem nodup (nodup : ls.Nodup) : (ls.filterMap Leaf.sign?).Nodup := by
  refine List.Nodup.filterMap ?_ nodup
  intro x x' s mem mem'
  cases x with
  | operator s' =>
    cases x' with
    | operator =>
      cases mem
      cases mem'
      rfl
    | label => cases mem'
  | label => cases mem

theorem references (inv : st.Inv L log) (ended : st.Ended ls text)
    (labels : ∀ l ∈ log.filterMap Entry.refer?, .label l ∈ text) :
    st.memory.references.map (fun r => (r.1, some r.2)) = (log.filterMap Entry.refer?).map
      fun l => (l, (ls.filterMap Leaf.sign?)[operatorsBefore text l]?) := by
  have found {l : Nat} {el : Sign} (mem : .label l ∈ text) (h : st.Stands (.label l) el) :=
    ended.label inv mem h
  have all {log : List Entry} {components : List Component}
      (holds : List.Forall₂ (st.Holds L) log components)
      (entries : ∀ e ∈ log, e.attr = .goto_ ∨ ∃ l, e.attr = .refer l ∧ e.leaf = .label l)
      (labels : ∀ l ∈ log.filterMap Entry.refer?, .label l ∈ text) :
      (components.filterMap BodyMemory.Component.refer?).map (fun r => (r.1, some r.2)) =
        (log.filterMap Entry.refer?).map
          fun l => (l, (ls.filterMap Leaf.sign?)[operatorsBefore text l]?) := by
    induction holds with
    | nil => rfl
    | @cons e c log components here _ ih =>
      have entries' (e : Entry) (mem : e ∈ log) := entries e (List.mem_cons_of_mem _ mem)
      obtain goto_ | ⟨l, refer, leaf⟩ := entries e List.mem_cons_self
      · have none : e.refer? = none := by rw [Entry.refer?, goto_]
        have none' : BodyMemory.Component.refer? c = .none := by
          rw [BodyMemory.Component.refer?, here.attr, goto_]
        rw [List.filterMap_cons_none none] at labels ⊢
        rw [List.filterMap_cons_none none']
        exact ih entries' labels
      · have some' : e.refer? = some l := by rw [Entry.refer?, refer]
        have some'' : BodyMemory.Component.refer? c = some (l, c.el) := by
          rw [BodyMemory.Component.refer?, here.attr, refer]
        rw [List.filterMap_cons_some some'] at labels ⊢
        rw [List.filterMap_cons_some some'', List.map_cons, List.map_cons,
          ih entries' fun l mem => labels l (List.mem_cons_of_mem _ mem),
          found (labels l List.mem_cons_self) (leaf ▸ here.el)]
  exact all inv.components inv.entries labels

end Ended

end Building

/-- With enough fuel a body is compiled, and then control passes through its operators in the
order of the text. -/
theorem body_sequential (body : List Item) (wf : WellFormed body) :
    ∃ st, Converges (fun n => compileBody n body) st ∧ Sequential body st := by
  obtain ⟨text, htext⟩ : ∃ text, text = Item.textOf body := ⟨_, rfl⟩
  have ready : Building.start.Ready (fun l => .label l ∈ text) ([] ++ Item.textOf body) :=
    ⟨wf.labels, fun l mem => htext ▸ mem, fun _ _ => rfl⟩
  obtain ⟨blocks, st, log, result, w, solid⟩ := Item.buildAll_spec body []
    (Written.nil (start_inv fun l => .label l ∈ text)) (fun b mem => nomatch mem) wf.filled ready
    fun l mem => htext ▸ wf.refers l mem
  have inv := w.inv
  rw [List.nil_append, ← htext] at w
  have ended : st.Ended (leavesOf blocks) text :=
    ⟨w.linked, w.reads.imp fun x word reads => by
      cases x <;> cases word
      · exact ⟨Nat.zero_le _, reads.2⟩
      · exact reads
      · exact reads
      · exact reads, htext ▸ wf.last⟩
  obtain ⟨x, ls, leaves⟩ : ∃ x ls, leavesOf blocks = x :: ls := by
    refine List.exists_cons_of_ne_nil fun empty => ?_
    have reads := ended.reads
    obtain ⟨type, last⟩ := ended.last
    rw [empty, List.forall₂_nil_left_iff] at reads
    rw [reads] at last
    cases last
  rw [leaves] at ended w
  -- no label waits, so the first leaf leads to an operator
  obtain ⟨z, ahead⟩ := inv.total x
  obtain ⟨s, rfl⟩ : ∃ s, z = .operator s := by
    cases z with
    | operator s => exact ⟨s, rfl⟩
    | label l => exact absurd ahead.waits (ended.placed (ended.linked.leads ahead))
  have first : st.Stands x s := ⟨_, ahead, rfl⟩
  have live : st.memory.live s = true := by
    obtain ⟨word, -, reads⟩ := exists_of_mem_left ended.reads (ended.linked.leads ahead)
    cases word with
    | operator type => exact (inv.operators s (by rw [reads.2]; rfl)).1
    | label => exact reads.elim
  have front : (BodyBlock.sequence blocks).front = some x := by
    rw [(Solid.sequence solid (by rw [leaves]; exact List.cons_ne_nil _ _)).front]
    exact congrArg List.head? leaves
  obtain ⟨st', hst'⟩ : ∃ st', st' = { st with memory := { st.memory with
      components := st.memory.components ++ [Component.mk Building.program .init_ s] } } := ⟨_, rfl⟩
  have main : Converges (fun n => st.setMainBlock n (.sequence blocks)) st' := by
    have answers := getFirstScpOp_leads ahead
    have same : (fun n => st.setMainBlock n (.sequence blocks)) = fun n =>
        (getFirstScpOp n (some x) st).bind fun r => r.1.bind fun op =>
          some { r.2 with memory := r.2.memory.addC Building.program .init_ op } := by
      funext n
      rw [setMainBlock, front]
      rfl
    rw [same]
    refine answers.bind ?_
    have added := @Inv.addC_eq st.memory Building.program s .init_ inv.program.1 live
    rw [hst', ← added]
    exact .const _
  have goto_ (s : Sign) : st'.memory.at? s .goto_ = st.memory.at? s .goto_ := by
    rw [hst', BodyMemory.at?, BodyMemory.at?, List.find?_append,
      List.find?_cons_of_neg (by simp), List.find?_nil, Option.or_none]
  have init : st'.memory.at? Building.program .init_ = some s := by
    have none : st.memory.components.find?
        (fun c => c.tuple = Building.program ∧ c.attr = .init_) = none := by
      refine List.find?_eq_none.mpr fun c mem found => ?_
      obtain ⟨-, attr⟩ := of_decide_eq_true found
      obtain ⟨e, mem, holds⟩ := exists_of_mem_right inv.components mem
      rw [holds.attr] at attr
      obtain h | ⟨l, h, -⟩ := inv.entries e mem
      · cases attr.symm.trans h
      · cases attr.symm.trans h
    rw [hst', BodyMemory.at?, List.find?_append, none]
    rfl
  have passes (op : Option Sign) (signs : List Sign) (path : st.memory.Path op signs) :
      st'.memory.Path op signs := by
    induction signs generalizing op with
    | nil => cases op <;> exact path
    | cons s' signs ih =>
      cases op with
      | none => exact path
      | some op =>
        refine ⟨path.1, ?_⟩
        rw [goto_]
        exact ih _ path.2
  refine ⟨st', result.bind main, (x :: ls).filterMap Leaf.sign?, Ended.nodup w.nodup, ?_, ?_, ?_,
    ?_⟩
  · rw [hst', ← htext]
    exact ended.types
  · rw [init]
    exact passes _ _ (ended.path inv first)
  · have refers : log.filterMap Entry.refer? = Item.refersOf body := w.refers
    have same : st'.memory.references = st.memory.references := by
      rw [hst', BodyMemory.references, BodyMemory.references, List.filterMap_append]
      exact List.append_nil _
    rw [same, ended.references inv (fun l mem => htext ▸ wf.refers l (refers ▸ mem)), refers,
      ← htext]
  · have dead := ended.dead inv
    rw [hst']
    exact dead

def sampleBody : List Item :=
  [.refer 1, .label 0, .operator 7,
    .sequence [.label 1, .sequence [.label 2], .operator 8], .refer 0]

theorem body_sequential_sample :
    ∃ st, Converges (fun n => compileBody n sampleBody) st ∧ Sequential sampleBody st :=
  body_sequential sampleBody ⟨by decide, by decide, ⟨8, by decide⟩, by decide⟩

end ScCore.Scc
