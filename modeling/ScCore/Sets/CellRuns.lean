import ScCore.Sets.Cells

/-!
# Cells over runs

Cells behave like records in every run in which the next cell given to `create` is the value or
none, and no cell is erased from which one can be reached that is its own next cell.
-/

namespace ScCore.Sets

open ScCore.Store ScCore.Search Memory Relation

/-- What has been stored in the cells, last, and not been erased since. -/
abbrev Cells := Addr → Option (Field → Option Addr)

structure AttrsReady (ss : Session) (attrs : ListAttrs) (m : Memory) : Prop where
  apart : attrs .value ≠ attrs .next
  access : ∀ f, ss.access m (some (attrs f)) = some rvOk
  type : ∀ f, ∃ t, m.typeOf (attrs f) = some t ∧ t.isConnector = false ∧ t &&& .undf = 0

/-- A cell that has been made since `m₀`. -/
structure IsCell (ss : Session) (m₀ m : Memory) (c : Addr) : Prop where
  born : m₀.liveAddr c = false
  access : ss.access m (some c) = some rvOk
  type : m.typeOf c = some (.node ||| .const)
  bare : ∀ s, m.endOf c s = none

/-- What holds between the calls: the cells have the arcs that their fields ask for, and nothing
else has been made. -/
structure CellInv (refs : Addr → Nat) (ss : Session) (attrs : ListAttrs) (m₀ m : Memory)
    (cells : Cells) : Prop where
  start : Inv (clientHolds refs) m₀
  steady : Steady ⟨m, refs⟩
  ready : AttrsReady ss attrs m
  attrOld : ∀ f, m₀.liveAddr (attrs f) = true
  old : ∀ a, m₀.liveAddr a = true → m.liveAddr a = true ∧ ∀ s, m.endOf a s = m₀.endOf a s
  cell : ∀ c cell, cells c = some cell → IsCell ss m₀ m c
  shown : ∀ c cell f e, cells c = some cell → cell f = some e →
    ∃ x y, Marked m c (attrs f) x y e ∧ Shown ss m x y e
  stored : ∀ c cell f x y e, cells c = some cell → Marked m c (attrs f) x y e → cell f = some e
  unique : ∀ c cell f f' x x' y y' e e', cells c = some cell → Marked m c (attrs f) x y e →
    Marked m c (attrs f') x' y' e' → (f = f' ↔ x = x')
  made : ∀ x s e, m₀.liveAddr x = false → m.endOf x s = some e →
    ∃ c cell f, cells c = some cell ∧
      ((∃ y e, Marked m c (attrs f) x y e) ∨ ∃ x' e, Marked m c (attrs f) x' x e)
  order : ∀ x s e, m₀.liveAddr x = false → m.endOf x s = some e → e < x
  nexts : ∀ c cell d, cells c = some cell → cell .next = some d → cells d ≠ none

section Inv

variable {refs : Addr → Nat} {ss : Session} {w : Waits} {attrs : ListAttrs}
  {m₀ m m' : Memory} {cells cells' : Cells} {cell : Field → Option Addr} {f : Field}
  {a c d e x y : Addr} {roots : Addr → Prop} {seg : SegId} {fuel : Nat}

namespace CellInv

variable (inv : CellInv refs ss attrs m₀ m cells)

include inv

theorem graph : Inv (clientHolds refs) m := inv.steady.inv

theorem born_of_end {s : Endpoint} (born : m₀.liveAddr e = false) (hend : m.endOf x s = some e) :
    m₀.liveAddr x = false := by
  by_contra old
  have old : m₀.liveAddr x = true := by simpa using old
  rw [(inv.old x old).2 s] at hend
  obtain ⟨-, -, -, -, -, live, -⟩ := inv.start.endOf_some hend
  rw [born] at live
  cases live

theorem born_of_hangs (born : m₀.liveAddr a = false) (hangs : ReflTransGen (Incident m) a x) :
    m₀.liveAddr x = false := by
  induction hangs with
  | refl => exact born
  | tail _ incident ih =>
    obtain ⟨s, hend⟩ := inv.graph.incident_iff.mp incident
    exact inv.born_of_end ih hend

theorem attr_ne (h : cells c = some cell) : attrs f ≠ c := by
  rintro rfl
  have old := inv.attrOld f
  rw [(inv.cell _ cell h).born] at old
  cases old

theorem attrs_inj {f' : Field} (same : attrs f = attrs f') : f = f' := by
  cases f <;> cases f'
  · rfl
  · exact absurd same inv.ready.apart
  · exact absurd same.symm inv.ready.apart
  · rfl

theorem marked_born (h : cells c = some cell) (marked : Marked m c (attrs f) x y e) :
    m₀.liveAddr x = false ∧ m₀.liveAddr y = false := by
  have born := inv.born_of_end (inv.cell c cell h).born marked.arc.1
  exact ⟨born, inv.born_of_end born marked.mark.2⟩

theorem getField_eq (h : cells c = some cell) (f : Field) :
    getField ss attrs m c f = some (cell f) := by
  obtain ⟨g, hg, -⟩ := access_ok.mp (inv.cell c cell h).access
  obtain ⟨none, missing⟩ | ⟨x, y, e, found, marked⟩ :=
    searchOneshot_eq (quiet_of_steady inv.steady) (k := attrs f) ⟨g, hg⟩
  · rw [getField, none, Option.map_some, Option.map_none, Option.some.injEq, eq_comm]
    cases hf : cell f with
    | none => rfl
    | some e =>
      obtain ⟨x, y, marked, shown⟩ := inv.shown c cell f e h hf
      exact absurd shown (missing x y e marked)
  · rw [getField, found, inv.stored c cell f x y e h marked]
    rfl

theorem stored_live {e : Addr} (h : cells c = some cell) (hf : cell f = some e) :
    m.liveAddr e = true := by
  obtain ⟨x, y, marked, -⟩ := inv.shown c cell f e h hf
  obtain ⟨-, -, -, -, -, live, -⟩ := inv.graph.endOf_some marked.arc.2
  exact live

/-- Everything that hangs at something new was made after it, so it can be erased. -/
theorem acc (born : m₀.liveAddr a = false) : Acc (fun x y => Incident m y x) a := by
  refine acc_of_order inv.graph (P := fun a => m₀.liveAddr a = false)
    (fun a x ha incident => ?_) born
  obtain ⟨s, hend⟩ := inv.graph.incident_iff.mp incident
  have born := inv.born_of_end ha hend
  exact ⟨born, inv.order x s a born hend⟩

theorem mark_ne {c' : Addr} {cell' : Field → Option Addr} {f' : Field} {x' y' e' : Addr}
    (h' : cells c' = some cell') (marked : Marked m c (attrs f) x y e)
    (marked' : Marked m c' (attrs f') x' y' e') : y ≠ x' := by
  rintro rfl
  exact inv.attr_ne h' (Option.some.inj (marked.mark.1.symm.trans marked'.arc.1))

end CellInv

structure Prunes (attrs : ListAttrs) (m₀ m m' : Memory) (roots : Addr → Prop)
    (cells cells' : Cells) : Prop where
  born : ∀ r, roots r → m₀.liveAddr r = false
  root : ∀ r, roots r → (∀ s, m.endOf r s = none) ∨ ∃ c cell f y e, cells c = some cell ∧
    Marked m c (attrs f) r y e ∧ ∀ cell', cells' c = some cell' → cell' f = none
  back : ∀ c cell', cells' c = some cell' → m'.liveAddr c = true ∧ ∃ cell, cells c = some cell ∧
    ∀ f, cell' f = cell f ∨ cell' f = none ∧
      ∀ x y e, Marked m c (attrs f) x y e → m'.liveAddr x = false
  live : ∀ c cell' f e, cells' c = some cell' → cell' f = some e → m'.liveAddr e = true
  forth : ∀ c cell, cells c = some cell → m'.liveAddr c = true → ∃ cell', cells' c = some cell'

namespace CellInv

variable (inv : CellInv refs ss attrs m₀ m cells) (er : Erodes refs roots m m')
  (prunes : Prunes attrs m₀ m m' roots cells cells')

include er

theorem marked_back (marked : Marked m' c (attrs f) x y e) : Marked m c (attrs f) x y e := by
  have inv' : Inv (clientHolds refs) m' := er.steady.inv
  obtain ⟨-, -, -, -, -, -, livex⟩ := inv'.endOf_some marked.arc.1
  obtain ⟨-, -, -, -, -, -, livey⟩ := inv'.endOf_some marked.mark.1
  exact ⟨⟨(er.ends x livex _).symm.trans marked.arc.1, (er.ends x livex _).symm.trans marked.arc.2⟩,
    ⟨(er.ends y livey _).symm.trans marked.mark.1, (er.ends y livey _).symm.trans marked.mark.2⟩⟩

theorem marked_forth (marked : Marked m c (attrs f) x y e) (livex : m'.liveAddr x = true)
    (livey : m'.liveAddr y = true) : Marked m' c (attrs f) x y e :=
  ⟨⟨(er.ends x livex _).trans marked.arc.1, (er.ends x livex _).trans marked.arc.2⟩,
    ⟨(er.ends y livey _).trans marked.mark.1, (er.ends y livey _).trans marked.mark.2⟩⟩

include inv prunes

theorem old_live (old : m₀.liveAddr a = true) : m'.liveAddr a = true := by
  by_contra dead
  obtain ⟨r, root, hangs⟩ := er.killed a (inv.old a old).1 (by simpa using dead)
  rw [inv.born_of_hangs (prunes.born r root) hangs] at old
  cases old

theorem mark_live (marked : Marked m c (attrs f) x y e)
    (livex : m'.liveAddr x = true) : m'.liveAddr y = true := by
  obtain ⟨-, -, -, -, -, -, alive⟩ := inv.graph.endOf_some marked.mark.1
  refine er.survives inv.graph alive (fun root => ?_) fun s z hend => ?_
  · obtain bare | ⟨c', cell', f', y', e', h', marked', -⟩ := prunes.root y root
    · cases (bare .beg).symm.trans marked.mark.1
    · exact inv.mark_ne h' marked marked' rfl
  · cases s with
    | beg =>
      obtain rfl := Option.some.inj (marked.mark.1.symm.trans hend)
      exact inv.old_live er prunes (inv.attrOld f)
    | fin =>
      obtain rfl := Option.some.inj (marked.mark.2.symm.trans hend)
      exact livex

theorem arc_live (h : cells c = some cell) (marked : Marked m c (attrs f) x y e)
    (livec : m'.liveAddr c = true) (livee : m'.liveAddr e = true)
    (kept : ∀ cell', cells' c = some cell' → cell' f ≠ none) : m'.liveAddr x = true := by
  obtain ⟨-, -, -, -, -, -, alive⟩ := inv.graph.endOf_some marked.arc.1
  refine er.survives inv.graph alive (fun root => ?_) fun s z hend => ?_
  · obtain bare | ⟨c', cell₁, f', y', e', h', marked', forgotten⟩ := prunes.root x root
    · cases (bare .beg).symm.trans marked.arc.1
    · obtain rfl := Option.some.inj (marked.arc.1.symm.trans marked'.arc.1)
      obtain rfl := (inv.unique c cell f f' x x y y' e e' h marked marked').mpr rfl
      obtain ⟨cell', h'⟩ := prunes.forth c cell h livec
      exact kept cell' h' (forgotten cell' h')
  · cases s with
    | beg =>
      obtain rfl := Option.some.inj (marked.arc.1.symm.trans hend)
      exact livec
    | fin =>
      obtain rfl := Option.some.inj (marked.arc.2.symm.trans hend)
      exact livee

theorem erode : CellInv refs ss attrs m₀ m' cells' := by
  have inv' : Inv (clientHolds refs) m' := er.steady.inv
  have opened : ∀ z, m'.liveAddr z = true → InOpened ss m z → InOpened ss m' z := by
    rintro z live ⟨g, hg, opened⟩
    obtain ⟨g', hg', -⟩ := liveAddr_eq_true.mp live
    have seg := er.segOf z live
    rw [segOf, segOf, hg, hg', Option.map_some, Option.map_some] at seg
    exact ⟨g', hg', Option.some.inj seg ▸ opened⟩
  have accepts : ∀ z, m'.liveAddr z = true → Accepts m 0 z → Accepts m' 0 z := by
    rintro z live ⟨t, ht, ok⟩
    exact ⟨t, (er.typeOf z live).trans ht, ok⟩
  have same : ∀ {c cell' f e}, cells' c = some cell' → cell' f = some e →
      ∃ cell, cells c = some cell ∧ cell f = some e := by
    intro c cell' f e h' hf
    obtain ⟨-, cell, h, fields⟩ := prunes.back c cell' h'
    obtain same | ⟨none, -⟩ := fields f
    · exact ⟨cell, h, same ▸ hf⟩
    · cases none.symm.trans hf
  refine ⟨inv.start, er.steady, ⟨inv.ready.apart, fun f => ?_, fun f => ?_⟩, inv.attrOld,
    fun a old => ?_, fun c cell' h' => ?_, fun c cell' f e h' hf => ?_,
    fun c cell' f x y e h' marked => ?_, fun c cell' f f' x x' y y' e e' h' marked marked' => ?_,
    fun x s e hx hend => ?_, fun x s e hx hend => ?_, fun c cell' d h' hd => ?_⟩
  · exact er.access (inv.old_live er prunes (inv.attrOld f)) (inv.ready.access f)
  · obtain ⟨t, ht, plain⟩ := inv.ready.type f
    exact ⟨t, (er.typeOf _ (inv.old_live er prunes (inv.attrOld f))).trans ht, plain⟩
  · have live := inv.old_live er prunes old
    exact ⟨live, fun s => (er.ends a live s).trans ((inv.old a old).2 s)⟩
  · obtain ⟨live, cell, h, -⟩ := prunes.back c cell' h'
    have isCell := inv.cell c cell h
    exact ⟨isCell.born, er.access live isCell.access, (er.typeOf c live).trans isCell.type,
      fun s => (er.ends c live s).trans (isCell.bare s)⟩
  · obtain ⟨cell, h, hf'⟩ := same h' hf
    have live := prunes.live c cell' f e h' hf
    obtain ⟨x, y, marked, shown⟩ := inv.shown c cell f e h hf'
    have kept : ∀ cell₁, cells' c = some cell₁ → cell₁ f ≠ none := by
      intro cell₁ h₁
      rw [← Option.some.inj (h'.symm.trans h₁), hf]
      exact Option.some_ne_none _
    have livex := inv.arc_live er prunes h marked (prunes.back c cell' h').1 live kept
    have livey := inv.mark_live er prunes marked livex
    exact ⟨x, y, marked_forth er marked livex livey, opened x livex shown.arc,
      ⟨opened e live shown.fin.1, accepts e live shown.fin.2⟩, opened y livey shown.mark,
      accepts x livex shown.types.1, accepts y livey shown.types.2⟩
  · have before := marked_back er marked
    obtain ⟨-, cell, h, fields⟩ := prunes.back c cell' h'
    obtain same | ⟨-, dead⟩ := fields f
    · rw [same]
      exact inv.stored c cell f x y e h before
    · obtain ⟨-, -, -, -, -, -, live⟩ := inv'.endOf_some marked.arc.1
      rw [dead x y e before] at live
      cases live
  · obtain ⟨-, cell, h, -⟩ := prunes.back c cell' h'
    exact inv.unique c cell f f' x x' y y' e e' h (marked_back er marked)
      (marked_back er marked')
  · obtain ⟨-, -, -, -, -, -, live⟩ := inv'.endOf_some hend
    rw [er.ends x live s] at hend
    obtain ⟨c, cell, f, h, ⟨y, e, marked⟩ | ⟨x', e, marked⟩⟩ := inv.made x s e hx hend
    · have livey := inv.mark_live er prunes marked live
      have marked' := marked_forth er marked live livey
      obtain ⟨-, -, -, -, -, livec, -⟩ := inv'.endOf_some marked'.arc.1
      obtain ⟨cell', h'⟩ := prunes.forth c cell h livec
      exact ⟨c, cell', f, h', .inl ⟨y, e, marked'⟩⟩
    · have mark : m'.endOf x .fin = some x' := (er.ends x live _).trans marked.mark.2
      obtain ⟨-, -, -, -, -, livex, -⟩ := inv'.endOf_some mark
      have marked' := marked_forth er marked livex live
      obtain ⟨-, -, -, -, -, livec, -⟩ := inv'.endOf_some marked'.arc.1
      obtain ⟨cell', h'⟩ := prunes.forth c cell h livec
      exact ⟨c, cell', f, h', .inr ⟨x', e, marked'⟩⟩
  · obtain ⟨-, -, -, -, -, -, live⟩ := inv'.endOf_some hend
    exact inv.order x s e hx ((er.ends x live s).symm.trans hend)
  · obtain ⟨cell, h, hd'⟩ := same h' hd
    obtain ⟨cell₁, h₁⟩ := Option.ne_none_iff_exists'.mp (inv.nexts c cell d h hd')
    obtain ⟨cell₂, h₂⟩ := prunes.forth d cell₁ h₁ (prunes.live c cell' .next d h' hd)
    rw [h₂]
    exact Option.some_ne_none _

end CellInv

def storeField (cells : Cells) (c : Addr) (f : Field) (e : Option Addr) : Cells :=
  Function.update cells c ((cells c).map fun cell => Function.update cell f e)

theorem storeField_some {c' : Addr} {cell' : Field → Option Addr} {v : Option Addr}
    (h : storeField cells c f v c' = some cell') :
    ∃ cell, cells c' = some cell ∧ ∀ f', cell' f' = if c' = c ∧ f' = f then v else cell f' := by
  by_cases same : c' = c
  · subst same
    rw [storeField, Function.update_self] at h
    obtain ⟨cell, hcell, rfl⟩ := Option.map_eq_some_iff.mp h
    refine ⟨cell, hcell, fun f' => ?_⟩
    by_cases hf : f' = f
    · subst hf
      rw [Function.update_self, if_pos ⟨rfl, rfl⟩]
    · rw [Function.update_of_ne hf, if_neg fun both => hf both.2]
  · rw [storeField, Function.update_of_ne same] at h
    exact ⟨cell', h, fun f' => by rw [if_neg fun both => same both.1]⟩

theorem storeField_ne_none {v : Option Addr} (h : cells a ≠ none) :
    storeField cells c f v a ≠ none := by
  by_cases same : a = c
  · subst same
    rw [storeField, Function.update_self]
    simpa using h
  · rwa [storeField, Function.update_of_ne same]

namespace CellInv

section Linked

variable (inv : CellInv refs ss attrs m₀ m cells) (h : cells c = some cell)
  (linked : Linked refs ss seg m m' c (attrs f) e x y)

include linked

theorem marked_keeps {c' k x' y' e' : Addr} (marked : Marked m c' k x' y' e')
    (graph : Inv (clientHolds refs) m) : Marked m' c' k x' y' e' := by
  obtain ⟨-, -, -, -, -, -, livex⟩ := graph.endOf_some marked.arc.1
  obtain ⟨-, -, -, -, -, -, livey⟩ := graph.endOf_some marked.mark.1
  exact ⟨⟨(linked.ends x' livex _).trans marked.arc.1, (linked.ends x' livex _).trans marked.arc.2⟩,
    ⟨(linked.ends y' livey _).trans marked.mark.1, (linked.ends y' livey _).trans marked.mark.2⟩⟩

theorem marked_new : Marked m' c (attrs f) x y e :=
  ⟨⟨linked.arc.beg, linked.arc.fin⟩, linked.mark.beg, linked.mark.fin⟩

include inv h

theorem marked_split {c' : Addr} {cell' : Field → Option Addr} {f' : Field} {x' y' e' : Addr}
    (h' : cells c' = some cell') (marked : Marked m' c' (attrs f') x' y' e') :
    (c' = c ∧ f' = f ∧ x' = x ∧ y' = y ∧ e' = e) ∨ Marked m c' (attrs f') x' y' e' := by
  have inv' : Inv (clientHolds refs) m' := linked.steady.inv
  obtain ⟨-, -, -, -, -, -, livex⟩ := inv'.endOf_some marked.arc.1
  obtain ⟨-, -, -, -, -, -, livey⟩ := inv'.endOf_some marked.mark.1
  have fresh : ∀ z s, m.liveAddr z = true → m'.endOf z s ≠ some x := by
    intro z s live hend
    rw [linked.ends z live s] at hend
    obtain ⟨-, -, -, -, -, there, -⟩ := inv.graph.endOf_some hend
    rw [linked.arc.new] at there
    cases there
  obtain live | rfl | rfl := linked.born x' livex
  · obtain live' | rfl | rfl := linked.born y' livey
    · exact .inr ⟨⟨(linked.ends x' live _).symm.trans marked.arc.1,
        (linked.ends x' live _).symm.trans marked.arc.2⟩,
        (linked.ends y' live' _).symm.trans marked.mark.1,
        (linked.ends y' live' _).symm.trans marked.mark.2⟩
    · exact absurd (Option.some.inj (linked.arc.beg.symm.trans marked.mark.1)).symm
        (inv.attr_ne h)
    · obtain rfl := Option.some.inj (linked.mark.fin.symm.trans marked.mark.2)
      rw [linked.arc.new] at live
      cases live
  · obtain rfl := Option.some.inj (linked.arc.beg.symm.trans marked.arc.1)
    obtain rfl := Option.some.inj (linked.arc.fin.symm.trans marked.arc.2)
    obtain live' | rfl | rfl := linked.born y' livey
    · exact absurd marked.mark.2 (fresh y' .fin live')
    · exact absurd (Option.some.inj (linked.arc.beg.symm.trans marked.mark.1)).symm
        (inv.attr_ne h)
    · have same := Option.some.inj (linked.mark.beg.symm.trans marked.mark.1)
      exact .inl ⟨rfl, (inv.attrs_inj same).symm, rfl, rfl, rfl⟩
  · exact absurd (Option.some.inj (linked.mark.beg.symm.trans marked.arc.1)) (inv.attr_ne h')

theorem linkField (none : ∀ x y e, ¬Marked m c (attrs f) x y e) (opened : ss.opened seg = true)
    (usable : InOpened ss m e ∧ Accepts m 0 e) (live : m.liveAddr e = true)
    (types : Accepts m' 0 x ∧ Accepts m' 0 y) (next : f = .next → cells e ≠ Option.none) :
    CellInv refs ss attrs m₀ m' (storeField cells c f (some e)) := by
  have inv' : Inv (clientHolds refs) m' := linked.steady.inv
  have inOpened : ∀ z, InOpened ss m z → InOpened ss m' z := by
    rintro z ⟨g, hg, opened⟩
    obtain ⟨g', hg', hs, -⟩ := linked.persists.addrs hg
    exact ⟨g', hg', hs ▸ opened⟩
  have typed : ∀ z t, m.typeOf z = some t → (z = c ∨ z = attrs f → t &&& .undf = 0) →
      m'.typeOf z = some t := by
    intro z t ht defined
    refine linked.typeOf z t ht ?_
    by_cases begins : z = c ∨ z = attrs f
    · exact .inr (defined begins)
    · exact .inl (not_or.mp begins)
  have cellType : ∀ z t, m.typeOf z = some t → z = c ∨ z = attrs f → t &&& .undf = 0 := by
    rintro z t ht (rfl | rfl)
    · rw [(inv.cell z cell h).type] at ht
      exact Option.some.inj ht ▸ by decide
    · obtain ⟨t', ht', -, defined⟩ := inv.ready.type f
      exact Option.some.inj (ht'.symm.trans ht) ▸ defined
  have accepts : ∀ z, Accepts m 0 z → Accepts m' 0 z := by
    rintro z ⟨t, ht, ok⟩
    exact ⟨t, typed z t ht (cellType z t ht), ok⟩
  have newOpened : ∀ z, segOf m' z = some seg → InOpened ss m' z := by
    intro z place
    obtain ⟨g, hg, hs⟩ := Option.map_eq_some_iff.mp place
    exact ⟨g, hg, hs ▸ opened⟩
  have shownNew : Shown ss m' x y e := ⟨newOpened x linked.places.1,
    ⟨inOpened e usable.1, accepts e usable.2⟩, newOpened y linked.places.2, types⟩
  have bornNew : m₀.liveAddr x = false ∧ m₀.liveAddr y = false := by
    constructor
    · by_contra old
      have alive := (inv.old x (by simpa using old)).1
      rw [linked.arc.new] at alive
      cases alive
    · by_contra old
      have alive := (inv.old y (by simpa using old)).1
      rw [linked.mark.new] at alive
      cases alive
  have before : ∀ z s b, m'.endOf z s = some b → m.endOf z s = some b ∨
      (z = x ∧ (b = c ∨ b = e)) ∨ (z = y ∧ (b = attrs f ∨ b = x)) := by
    intro z s b hend
    obtain ⟨-, -, -, -, -, -, alive⟩ := inv'.endOf_some hend
    obtain alive | rfl | rfl := linked.born z alive
    · exact .inl ((linked.ends z alive s).symm.trans hend)
    · refine .inr (.inl ⟨rfl, ?_⟩)
      cases s with
      | beg => exact .inl (Option.some.inj (hend.symm.trans linked.arc.beg))
      | fin => exact .inr (Option.some.inj (hend.symm.trans linked.arc.fin))
    · refine .inr (.inr ⟨rfl, ?_⟩)
      cases s with
      | beg => exact .inl (Option.some.inj (hend.symm.trans linked.mark.beg))
      | fin => exact .inr (Option.some.inj (hend.symm.trans linked.mark.fin))
  obtain ⟨cell', h'⟩ : ∃ cell', storeField cells c f (some e) c = some cell' :=
    Option.ne_none_iff_exists'.mp (storeField_ne_none (by rw [h]; nofun))
  refine ⟨inv.start, linked.steady, ⟨inv.ready.apart, fun g => ?_, fun g => ?_⟩, inv.attrOld,
    fun a old => ?_, fun a cell₁ h₁ => ?_, fun a cell₁ g b h₁ hg => ?_,
    fun a cell₁ g x₁ y₁ b h₁ marked => ?_,
    fun a cell₁ g g' x₁ x₂ y₁ y₂ b b' h₁ marked marked' => ?_,
    fun z s b hz hend => ?_, fun z s b hz hend => ?_, fun a cell₁ d h₁ hd => ?_⟩
  · exact linked.persists.access (inv.ready.access g)
  · obtain ⟨t, ht, plain, defined⟩ := inv.ready.type g
    exact ⟨t, typed _ t ht fun _ => defined, plain, defined⟩
  · obtain ⟨there, ends⟩ := inv.old a old
    exact ⟨linked.live a there, fun s => (linked.ends a there s).trans (ends s)⟩
  · obtain ⟨cell₀, h₀, -⟩ := storeField_some h₁
    have isCell := inv.cell a cell₀ h₀
    exact ⟨isCell.born, linked.persists.access isCell.access,
      typed a _ isCell.type fun _ => by decide,
      fun s => (linked.ends a (access_live isCell.access) s).trans (isCell.bare s)⟩
  · obtain ⟨cell₀, h₀, fields⟩ := storeField_some h₁
    rw [fields] at hg
    split at hg
    · next same =>
      obtain ⟨rfl, rfl⟩ := same
      obtain rfl := Option.some.inj hg
      exact ⟨x, y, marked_new linked, shownNew⟩
    · next other =>
      have graph := inv.graph
      obtain ⟨x₁, y₁, marked, shown⟩ := inv.shown a cell₀ g b h₀ hg
      exact ⟨x₁, y₁, marked_keeps linked marked graph, inOpened x₁ shown.arc,
        ⟨inOpened b shown.fin.1, accepts b shown.fin.2⟩, inOpened y₁ shown.mark,
        accepts x₁ shown.types.1, accepts y₁ shown.types.2⟩
  · obtain ⟨cell₀, h₀, fields⟩ := storeField_some h₁
    rw [fields]
    obtain ⟨rfl, rfl, rfl, rfl, rfl⟩ | marked := marked_split inv h linked h₀ marked
    · rw [if_pos ⟨rfl, rfl⟩]
    · rw [if_neg ?_]
      · exact inv.stored a cell₀ g x₁ y₁ b h₀ marked
      · rintro ⟨rfl, rfl⟩
        exact none x₁ y₁ b marked
  · obtain ⟨cell₀, h₀, -⟩ := storeField_some h₁
    have fresh : ∀ {k y₁ b}, ¬Marked m a k x y₁ b := by
      intro k y₁ b marked
      obtain ⟨-, -, -, -, -, -, alive⟩ := inv.graph.endOf_some marked.arc.1
      rw [linked.arc.new] at alive
      cases alive
    obtain ⟨rfl, rfl, rfl, rfl, rfl⟩ | marked := marked_split inv h linked h₀ marked
    · obtain ⟨-, rfl, rfl, -⟩ | marked' := marked_split inv h linked h₀ marked'
      · exact iff_of_true rfl rfl
      · refine iff_of_false ?_ ?_
        · rintro rfl
          exact none _ _ _ marked'
        · rintro rfl
          exact fresh marked'
    · obtain ⟨rfl, rfl, rfl, -⟩ | marked' := marked_split inv h linked h₀ marked'
      · refine iff_of_false ?_ ?_
        · rintro rfl
          exact none _ _ _ marked
        · rintro rfl
          exact fresh marked
      · exact inv.unique a cell₀ g g' x₁ x₂ y₁ y₂ b b' h₀ marked marked'
  · obtain hend | ⟨rfl, -⟩ | ⟨rfl, -⟩ := before z s b hend
    · obtain ⟨a, cell₀, g, h₀, found⟩ := inv.made z s b hz hend
      obtain ⟨cell₁, h₁⟩ : ∃ cell₁, storeField cells c f (some e) a = some cell₁ :=
        Option.ne_none_iff_exists'.mp (storeField_ne_none (by rw [h₀]; nofun))
      refine ⟨a, cell₁, g, h₁, ?_⟩
      obtain ⟨y₁, e₁, marked⟩ | ⟨x₁, e₁, marked⟩ := found
      · exact .inl ⟨y₁, e₁, marked_keeps linked marked inv.graph⟩
      · exact .inr ⟨x₁, e₁, marked_keeps linked marked inv.graph⟩
    · exact ⟨c, cell', f, h', .inl ⟨y, e, marked_new linked⟩⟩
    · exact ⟨c, cell', f, h', .inr ⟨x, e, marked_new linked⟩⟩
  · obtain hend | ⟨rfl, rfl | rfl⟩ | ⟨rfl, rfl | rfl⟩ := before z s b hend
    · exact inv.order z s b hz hend
    · exact (linked.order b (access_live (inv.cell b cell h).access)).1
    · exact (linked.order b live).1
    · exact (linked.order _ (inv.old _ (inv.attrOld f)).1).2
    · exact linked.after
  · obtain ⟨cell₀, h₀, fields⟩ := storeField_some h₁
    rw [fields] at hd
    refine storeField_ne_none ?_
    split at hd
    · next same =>
      obtain rfl := Option.some.inj hd
      exact next same.2.symm
    · exact inv.nexts a cell₀ d h₀ hd

end Linked

end CellInv

/-! ## What erasures do to the record -/

open Classical in
noncomputable def dropGone (gone : Addr → Prop) (cells : Cells) : Cells := fun c =>
  if gone c then none else (cells c).map fun cell f => (cell f).filter fun e => ¬gone e

theorem dropGone_some {gone : Addr → Prop} {cell' : Field → Option Addr} :
    dropGone gone cells c = some cell' ↔ ¬gone c ∧ ∃ cell, cells c = some cell ∧
      ∀ f e, cell' f = some e ↔ cell f = some e ∧ ¬gone e := by
  rw [dropGone]
  split
  · next there => exact iff_of_false nofun fun other => absurd there other.1
  · next other =>
    rw [Option.map_eq_some_iff, and_iff_right other]
    refine exists_congr fun cell => and_congr_right fun _ => ⟨?_, fun fields => ?_⟩
    · rintro rfl f e
      simp [Option.filter_eq_some_iff]
    · funext f
      ext e
      rw [fields]
      simp [Option.filter_eq_some_iff]

namespace CellInv

variable {gone : Addr → Prop} {cells₁ : Cells}

theorem prunes (inv : CellInv refs ss attrs m₀ m cells) (er : Erodes refs roots m m')
    (gone_iff : ∀ b, m.liveAddr b = true → (m'.liveAddr b = false ↔ gone b))
    (back : ∀ a cell₁, cells₁ a = some cell₁ → ∃ cell, cells a = some cell ∧ ∀ g,
      cell₁ g = cell g ∨ cell₁ g = none ∧ ∀ x y e, Marked m a (attrs g) x y e →
        m'.liveAddr x = false)
    (forth : ∀ a cell, cells a = some cell → ∃ cell₁, cells₁ a = some cell₁)
    (root : ∀ r, roots r → (∃ cell, cells r = some cell) ∨ ∃ c cell f y e, cells c = some cell ∧
      Marked m c (attrs f) r y e ∧ ∀ cell₁, cells₁ c = some cell₁ → cell₁ f = none) :
    Prunes attrs m₀ m m' roots cells (dropGone gone cells₁) := by
  have stays : ∀ b, m.liveAddr b = true → ¬gone b → m'.liveAddr b = true := by
    intro b live kept
    by_contra dead
    exact kept ((gone_iff b live).mp (by simpa using dead))
  refine ⟨fun r hr => ?_, fun r hr => ?_, fun a cell' h' => ?_, fun a cell' f e h' hf => ?_,
    fun a cell h live => ?_⟩
  · obtain ⟨cell, h⟩ | ⟨c, cell, f, y, e, h, marked, -⟩ := root r hr
    · exact (inv.cell r cell h).born
    · exact (inv.marked_born h marked).1
  · obtain ⟨cell, h⟩ | ⟨c, cell, f, y, e, h, marked, empty⟩ := root r hr
    · exact .inl (inv.cell r cell h).bare
    · refine .inr ⟨c, cell, f, y, e, h, marked, fun cell' h' => ?_⟩
      obtain ⟨-, cell₁, h₁, fields⟩ := dropGone_some.mp h'
      cases hf : cell' f with
      | none => rfl
      | some e' => cases (empty cell₁ h₁).symm.trans ((fields f e').mp hf).1
  · obtain ⟨kept, cell₁, h₁, fields⟩ := dropGone_some.mp h'
    obtain ⟨cell, h, same⟩ := back a cell₁ h₁
    refine ⟨stays a (access_live (inv.cell a cell h).access) kept, cell, h, fun f => ?_⟩
    cases hf : cell' f with
    | some e =>
      have stored := ((fields f e).mp hf).1
      obtain same | ⟨none, -⟩ := same f
      · exact .inl (stored.symm.trans same)
      · cases none.symm.trans stored
    | none =>
      obtain same | ⟨-, dead⟩ := same f
      · cases hc : cell f with
        | none => exact .inl rfl
        | some e =>
          refine .inr ⟨rfl, fun x y e' marked => ?_⟩
          obtain rfl := Option.some.inj (hc.symm.trans (inv.stored a cell f x y e' h marked))
          have lost : gone e := by
            by_contra kept'
            cases hf.symm.trans ((fields f e).mpr ⟨same.trans hc, kept'⟩)
          have dead := (gone_iff e (inv.stored_live h hc)).mpr lost
          exact er.closed inv.graph dead
            (.single (inv.graph.incident_iff.mpr ⟨.fin, marked.arc.2⟩))
      · exact .inr ⟨rfl, dead⟩
  · obtain ⟨-, cell₁, h₁, fields⟩ := dropGone_some.mp h'
    obtain ⟨stored, kept⟩ := (fields f e).mp hf
    obtain ⟨cell, h, same⟩ := back a cell₁ h₁
    obtain same | ⟨none, -⟩ := same f
    · exact stays e (inv.stored_live h (same ▸ stored)) kept
    · cases none.symm.trans stored
  · obtain ⟨cell₁, h₁⟩ := forth a cell h
    refine Option.ne_none_iff_exists'.mp ?_
    rw [dropGone, if_neg, h₁]
    · nofun
    · intro lost
      have dead := (gone_iff a (access_live (inv.cell a cell h).access)).mpr lost
      rw [live] at dead
      cases dead

/-! ## The setters -/

theorem eraseOld (inv : CellInv refs ss attrs m₀ m cells) (h : cells c = some cell)
    (calm : ∀ m b k ps, w m b k ps = false)
    (hr : eraseOld ss w fuel m c (attrs f) = some m') :
    Erodes refs (fun r => ∃ y e, Marked m c (attrs f) r y e) m m' := by
  obtain ⟨g, hg, -⟩ := access_ok.mp (inv.cell c cell h).access
  obtain ⟨found, hr⟩ : ∃ found, searchOneshot ss m c (attrs f) = some found ∧ _ :=
    Option.bind_eq_some_iff.mp hr
  obtain ⟨none, missing⟩ | ⟨x, y, e, one, marked⟩ :=
    searchOneshot_eq (quiet_of_steady inv.steady) (k := attrs f) ⟨g, hg⟩
  · obtain rfl := Option.some.inj (hr.1.symm.trans none)
    cases hr.2
    refine Erodes.refl inv.steady ?_
    rintro r ⟨y, e, marked⟩
    obtain ⟨x', y', marked', shown⟩ := inv.shown c cell f e h (inv.stored c cell f r y e h marked)
    exact missing x' y' e marked' shown
  · obtain rfl := Option.some.inj (hr.1.symm.trans one)
    obtain ⟨⟨m₁, rv⟩, erase, same⟩ := Option.bind_eq_some_iff.mp hr.2
    obtain rfl := Option.some.inj same
    obtain ⟨x', y', marked', shown⟩ := inv.shown c cell f e h (inv.stored c cell f x y e h marked)
    obtain rfl := (inv.unique c cell f f x x' y y' e e h marked marked').mp rfl
    obtain ⟨-, -, -, -, -, -, live⟩ := inv.graph.endOf_some marked.arc.1
    have access : ss.access m (some x) = some rvOk := by
      obtain ⟨g, hg, opened⟩ := shown.arc
      obtain ⟨g', hg', hd⟩ := liveAddr_eq_true.mp live
      obtain rfl := Option.some.inj (hg.symm.trans hg')
      exact access_ok.mpr ⟨g, hg, hd, opened⟩
    obtain rfl := eraseEl_calm (fun b => calm m b _ _) access erase
    refine (inv.steady.erodes erase).mono fun r => ⟨?_, ?_⟩
    · rintro rfl
      exact ⟨y, e, marked⟩
    · rintro ⟨y₁, e₁, marked₁⟩
      exact (inv.unique c cell f f r x y₁ y e₁ e h marked₁ marked).mp rfl

end CellInv

end Inv

end ScCore.Sets
