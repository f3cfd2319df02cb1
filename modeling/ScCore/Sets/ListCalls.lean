import ScCore.Sets.CellRuns

/-!
# Calls of lists

What `create`, the setters and `erase` do to the memory and to the record of what is stored.
-/

namespace ScCore.Sets

open ScCore.Store ScCore.Search Memory Relation

structure Usable (ss : Session) (m : Memory) (e : Addr) : Prop where
  access : ss.access m (some e) = some rvOk
  type : Accepts m 0 e

def HangsAtField (m : Memory) (c k b : Addr) : Prop :=
  ∃ x, (∃ y e, Marked m c k x y e) ∧ ReflTransGen (Incident m) x b

section

variable {refs : Addr → Nat} {ss : Session} {w : Waits} {attrs : ListAttrs}
  {m₀ m m₁ m' : Memory} {cells : Cells} {cell : Field → Option Addr} {f : Field}
  {a c d e l x y : Addr} {roots : Addr → Prop} {seg : SegId} {fuel : Nat} {rv : Retval}

theorem inOpened_of_access (ok : ss.access m (some e) = some rvOk) : InOpened ss m e := by
  obtain ⟨g, hg, -, opened⟩ := access_ok.mp ok
  exact ⟨g, hg, opened⟩

theorem Usable.live (usable : Usable ss m e) : m.liveAddr e = true := access_live usable.access

theorem Usable.erodes (usable : Usable ss m e) (er : Erodes refs roots m m')
    (live : m'.liveAddr e = true) : Usable ss m' e := by
  obtain ⟨t, ht, ok⟩ := usable.type
  exact ⟨er.access live usable.access, t, (er.typeOf e live).trans ht, ok⟩

namespace CellInv

theorem link (inv : CellInv refs ss attrs m₀ m cells) (h : cells c = some cell)
    (empty : cell f = none) (calm : ∀ m a k ps, w m a k ps = false) (opened : ss.opened seg = true)
    (usable : Usable ss m e) (next : f = .next → cells e ≠ none)
    (hr : Sets.link ss w fuel seg m c (some e) (attrs f) = some (m', rv)) :
    rv = rvOk ∧ CellInv refs ss attrs m₀ m' (storeField cells c f (some e)) ∧
      ∀ b, Usable ss m b → Usable ss m' b := by
  have isCell := inv.cell c cell h
  obtain ⟨⟨m₁, r, rv₁⟩, gen, same⟩ := Option.bind_eq_some_iff.mp hr
  cases same
  have joins : Joins ss m c seg cellArcType (cellArcType ||| .permanent) e :=
    ⟨opened, by decide, by decide, by decide, isCell.access, usable.access, fun t ht =>
      Option.some.inj (isCell.type.symm.trans ht) ▸ by decide⟩
  obtain ⟨t, ht, plain, defined⟩ := inv.ready.type f
  obtain ⟨ok, x, y, -, linked, typex, typey⟩ :=
    Inv.gen5_calm inv.steady calm joins (inv.ready.access f) ht plain defined gen
  have unmarked : ∀ x y e, ¬Marked m c (attrs f) x y e := by
    intro x y e marked
    cases empty.symm.trans (inv.stored c cell f x y e h marked)
  refine ⟨ok, inv.linkField h linked unmarked opened ⟨inOpened_of_access usable.access,
    usable.type⟩ usable.live ⟨⟨_, typex, by decide⟩, ⟨_, typey, by decide⟩⟩ next,
    fun b there => ⟨linked.persists.access there.access, ?_⟩⟩
  obtain ⟨u, hu, fits⟩ := there.type
  refine ⟨u, linked.typeOf b u hu ?_, fits⟩
  by_cases begins : b = c ∨ b = attrs f
  · obtain rfl | rfl := begins
    · exact .inr (Option.some.inj (isCell.type.symm.trans hu) ▸ by decide)
    · exact .inr (Option.some.inj (ht.symm.trans hu) ▸ defined)
  · exact .inl (not_or.mp begins)

theorem created (inv : CellInv refs ss attrs m₀ m cells) {rv : Retval}
    (hr : ss.createEl m seg (.node ||| .const) = some (m', some l, rv)) :
    CellInv refs ss attrs m₀ m' (Function.update cells l (some fun _ => none)) ∧ cells l = none ∧
      (∀ b, Usable ss m b → Usable ss m' b) := by
  have graph := inv.graph
  have steady' : Steady ⟨m', refs⟩ := inv.steady.createEl hr
  have type : m'.typeOf l = some (.node ||| .const) := createEl_type (by decide) hr
  obtain ⟨-, none, -⟩ | ⟨t, rfl, same, rfl, opened⟩ := createEl_some hr
  · cases none
  obtain rfl := Option.some.inj same
  have persists := persists_created graph seg t
  have fresh : ∀ {b}, m.liveAddr b = true → b ≠ m.nextAddr := by
    rintro b live rfl
    rw [graph.unborn] at live
    cases live
  have ends : ∀ {b s}, (created m seg t).endOf b s = m.endOf b s := graph.created_endOf _ _
  have usable : ∀ b, Usable ss m b → Usable ss (created m seg t) b := by
    rintro b ⟨access, u, hu, fits⟩
    exact ⟨persists.access access, u, (graph.created_typeOf (access_live access)).trans hu, fits⟩
  have unused : cells m.nextAddr = none := by
    by_contra used
    obtain ⟨cell, h⟩ := Option.ne_none_iff_exists'.mp used
    exact fresh (access_live (inv.cell _ cell h).access) rfl
  have split : ∀ {a cell'}, Function.update cells m.nextAddr (some fun _ => none) a = some cell' →
      a = m.nextAddr ∧ (∀ f, cell' f = none) ∨ cells a = some cell' := by
    intro a cell' h
    by_cases same : a = m.nextAddr
    · subst same
      rw [Function.update_self] at h
      exact .inl ⟨rfl, fun f => congrFun (Option.some.inj h).symm f⟩
    · rw [Function.update_of_ne same] at h
      exact .inr h
  have keeps : ∀ {a cell'}, cells a = some cell' →
      Function.update cells m.nextAddr (some fun _ => none) a = some cell' := by
    intro a cell' h
    rw [Function.update_of_ne, h]
    exact fresh (access_live (inv.cell a cell' h).access)
  have marked_iff : ∀ {c k x y e}, Marked (ScCore.Store.created m seg t) c k x y e ↔
      Marked m c k x y e := by
    refine ⟨fun ⟨⟨h₁, h₂⟩, h₃, h₄⟩ => ?_, fun ⟨⟨h₁, h₂⟩, h₃, h₄⟩ => ?_⟩
    · rw [ends] at h₁ h₂ h₃ h₄
      exact ⟨⟨h₁, h₂⟩, h₃, h₄⟩
    · exact ⟨⟨ends.trans h₁, ends.trans h₂⟩, ends.trans h₃, ends.trans h₄⟩
  have bare : ∀ {k x y e}, ¬Marked (ScCore.Store.created m seg t) m.nextAddr k x y e := by
    intro k x y e marked
    obtain ⟨-, -, -, -, -, live, -⟩ := graph.endOf_some (marked_iff.mp marked).arc.1
    exact fresh live rfl
  refine ⟨⟨inv.start, steady', ⟨inv.ready.apart, fun f => persists.access (inv.ready.access f),
    fun f => ?_⟩, inv.attrOld, fun a old => ?_, fun a cell' h => ?_, fun a cell' f e h hf => ?_,
    fun a cell' f x y e h marked => ?_, fun a cell' f f' x x' y y' e e' h marked marked' => ?_,
    fun x s e hx hend => ?_, fun x s e hx hend => ?_, fun a cell' d h hd => ?_⟩, unused, usable⟩
  · obtain ⟨u, hu, plain⟩ := inv.ready.type f
    exact ⟨u, (graph.created_typeOf (access_live (inv.ready.access f))).trans hu, plain⟩
  · obtain ⟨live, same⟩ := inv.old a old
    exact ⟨persists.liveAddr live, fun s => ends.trans (same s)⟩
  · obtain ⟨rfl, -⟩ | h := split h
    · refine ⟨?_, created_access opened, type, fun s => ends.trans (graph.endOf_dead graph.unborn)⟩
      by_contra old
      exact fresh (inv.old _ (by simpa using old)).1 rfl
    · have isCell := inv.cell a cell' h
      exact ⟨isCell.born, persists.access isCell.access,
        (graph.created_typeOf (access_live isCell.access)).trans isCell.type,
        fun s => ends.trans (isCell.bare s)⟩
  · obtain ⟨-, none⟩ | h := split h
    · cases (none f).symm.trans hf
    · obtain ⟨x, y, marked, shown⟩ := inv.shown a cell' f e h hf
      have still : ∀ {z}, InOpened ss m z → InOpened ss (ScCore.Store.created m seg t) z := by
        rintro z ⟨g, hg, hopen⟩
        obtain ⟨g', hg', hs, -⟩ := persists.addrs hg
        exact ⟨g', hg', hs ▸ hopen⟩
      have typed : ∀ {z}, m.liveAddr z = true → Accepts m 0 z →
          Accepts (ScCore.Store.created m seg t) 0 z := by
        rintro z live ⟨u, hu, fits⟩
        exact ⟨u, (graph.created_typeOf live).trans hu, fits⟩
      obtain ⟨-, -, -, -, -, livee, livex⟩ := graph.endOf_some marked.arc.2
      obtain ⟨-, -, -, -, -, -, livey⟩ := graph.endOf_some marked.mark.1
      exact ⟨x, y, marked_iff.mpr marked, still shown.arc,
        ⟨still shown.fin.1, typed livee shown.fin.2⟩, still shown.mark,
        typed livex shown.types.1, typed livey shown.types.2⟩
  · obtain ⟨rfl, -⟩ | h := split h
    · exact absurd marked bare
    · exact inv.stored a cell' f x y e h (marked_iff.mp marked)
  · obtain ⟨rfl, -⟩ | h := split h
    · exact absurd marked bare
    · exact inv.unique a cell' f f' x x' y y' e e' h (marked_iff.mp marked)
        (marked_iff.mp marked')
  · obtain ⟨a, cell', f, h, found⟩ := inv.made x s e hx (ends.symm.trans hend)
    refine ⟨a, cell', f, keeps h, found.imp ?_ ?_⟩
    · rintro ⟨y, e, marked⟩
      exact ⟨y, e, marked_iff.mpr marked⟩
    · rintro ⟨x', e, marked⟩
      exact ⟨x', e, marked_iff.mpr marked⟩
  · exact inv.order x s e hx (ends.symm.trans hend)
  · obtain ⟨-, none⟩ | h := split h
    · cases (none .next).symm.trans hd
    · obtain ⟨cell₁, h₁⟩ := Option.ne_none_iff_exists'.mp (inv.nexts a cell' d h hd)
      rw [keeps h₁]
      nofun

theorem emptied (inv : CellInv refs ss attrs m₀ m cells) (h : cells c = some cell)
    (calm : ∀ m a k ps, w m a k ps = false)
    (hr : Sets.eraseOld ss w fuel m c (attrs f) = some m') :
    CellInv refs ss attrs m₀ m'
        (dropGone (HangsAtField m c (attrs f)) (storeField cells c f none)) ∧
      ¬HangsAtField m c (attrs f) c ∧ (∀ b, Usable ss m b → ¬HangsAtField m c (attrs f) b →
        Usable ss m' b) ∧ ∀ b, HangsAtField m c (attrs f) b → m'.liveAddr b = false := by
  have graph := inv.graph
  have er := inv.eraseOld h calm hr
  have gone : ∀ b, HangsAtField m c (attrs f) b ↔
      ∃ r, (∃ y e, Marked m c (attrs f) r y e) ∧ ReflTransGen (Incident m) r b := fun b => Iff.rfl
  have dead_iff : ∀ b, m.liveAddr b = true →
      (m'.liveAddr b = false ↔ HangsAtField m c (attrs f) b) := fun b live =>
    (er.dead_iff graph live).trans (gone b).symm
  have dead : ∀ b, HangsAtField m c (attrs f) b → m'.liveAddr b = false := by
    rintro b ⟨r, root, hangs⟩
    exact er.closed graph (er.dead r root) hangs
  have stays : ¬HangsAtField m c (attrs f) c := by
    rintro ⟨r, ⟨y, e, marked⟩, hangs⟩
    obtain rfl | ⟨z, -, incident⟩ := ReflTransGen.cases_tail hangs
    · cases marked.arc.1.symm.trans ((inv.cell _ cell h).bare .beg)
    · obtain ⟨s, hend⟩ := graph.incident_iff.mp incident
      cases hend.symm.trans ((inv.cell c cell h).bare s)
  refine ⟨inv.erode er (inv.prunes er dead_iff (fun a cell₁ h₁ => ?_) (fun a cell₁ h₁ => ?_)
    fun r root => .inr ?_), stays, fun b usable kept => usable.erodes er ?_, dead⟩
  · obtain ⟨cell₀, h₀, fields⟩ := storeField_some h₁
    refine ⟨cell₀, h₀, fun g => ?_⟩
    rw [fields]
    split
    · next same =>
      obtain ⟨rfl, rfl⟩ := same
      exact .inr ⟨rfl, fun x y e marked => er.dead x ⟨y, e, marked⟩⟩
    · exact .inl rfl
  · exact Option.ne_none_iff_exists'.mp (storeField_ne_none (by rw [h₁]; nofun))
  · obtain ⟨y, e, marked⟩ := root
    refine ⟨c, cell, f, y, e, h, marked, fun cell₁ h₁ => ?_⟩
    obtain ⟨cell₀, -, fields⟩ := storeField_some h₁
    rw [fields, if_pos ⟨rfl, rfl⟩]
  · by_contra there
    exact kept ((dead_iff b usable.live).mp (by simpa using there))

end CellInv

theorem storeField_dropGone {gone : Addr → Prop} {v : Addr} (stays : ¬gone c) (kept : ¬gone v) :
    storeField (dropGone gone (storeField cells c f none)) c f (some v) =
      dropGone gone (storeField cells c f (some v)) := by
  funext a
  by_cases same : a = c
  · subst same
    cases h : cells a with
    | none => simp [storeField, dropGone, h]
    | some cell =>
      simp only [storeField, dropGone, Function.update_self, h, Option.map_some, if_neg stays]
      congr 1
      funext g
      by_cases field : g = f
      · subst field
        simp [Option.filter, kept]
      · simp [field]
  · simp [storeField, dropGone, same]

theorem dropGone_storeField {gone : Addr → Prop} {v : Addr} (lost : gone v) :
    dropGone gone (storeField cells c f (some v)) =
      dropGone gone (storeField cells c f none) := by
  funext a
  by_cases same : a = c
  · subst same
    cases h : cells a with
    | none => simp [storeField, dropGone, h]
    | some cell =>
      simp only [storeField, dropGone, Function.update_self, h, Option.map_some]
      congr 2
      funext g
      by_cases field : g = f
      · subst field
        simp [lost]
      · simp [field]
  · simp [storeField, dropGone, same]

theorem link_refused {e : Option Addr} {k : Addr} (none : ss.access m e ≠ some rvOk)
    (hr : link ss w fuel seg m c e k = some (m', rv)) : m' = m := by
  obtain ⟨⟨m₁, r, rv₁⟩, gen, same⟩ := Option.bind_eq_some_iff.mp hr
  cases same
  have refused : ∀ {m₁ r rv}, ss.gen3 w fuel m (some c) seg cellArcType e = some (m₁, r, rv) →
      m₁ = m ∧ r = Option.none := by
    intro m₁ r rv first
    cases gen3_some first with
    | refused => exact ⟨rfl, rfl⟩
    | unbegun _ access => exact absurd access none
    | unended _ access => exact absurd access none
    | made _ access => exact absurd access none
  obtain ⟨rv₁, -, first, -⟩ | ⟨m₁, x, first, -⟩ := gen5_some gen
  · exact (refused first).1
  · cases (refused first).2

namespace CellInv

section

variable (inv : CellInv refs ss attrs m₀ m cells)
include inv

theorem setField (h : cells c = some cell) (calm : ∀ m a k ps, w m a k ps = false)
    (opened : ss.opened seg = true) (usable : Usable ss m e) (next : f = .next → cells e ≠ none)
    (old : Sets.eraseOld ss w fuel m c (attrs f) = some m₁)
    (hr : Sets.link ss w fuel seg m₁ c (some e) (attrs f) = some (m', rv)) :
    CellInv refs ss attrs m₀ m'
      (dropGone (HangsAtField m c (attrs f)) (storeField cells c f (some e))) := by
  obtain ⟨inv₁, stays, kept, dead⟩ := inv.emptied h calm old
  by_cases gone : HangsAtField m c (attrs f) e
  · have denied : ss.access m₁ (some e) ≠ some rvOk := by
      intro ok
      have live := access_live ok
      rw [dead e gone] at live
      cases live
    rw [link_refused denied hr, dropGone_storeField gone]
    exact inv₁
  · obtain ⟨cell₁, h₁⟩ : ∃ cell₁, storeField cells c f none c = some cell₁ :=
      Option.ne_none_iff_exists'.mp (storeField_ne_none (h ▸ Option.some_ne_none _))
    obtain ⟨cell₂, h₂⟩ : ∃ cell₂, dropGone (HangsAtField m c (attrs f))
        (storeField cells c f none) c = some cell₂ := by
      rw [dropGone, if_neg stays, h₁]
      exact ⟨_, rfl⟩
    obtain ⟨-, cell₃, h₃, fields⟩ := dropGone_some.mp h₂
    obtain ⟨cell₀, -, stored⟩ := storeField_some h₃
    have empty : cell₂ f = none := by
      cases hf : cell₂ f with
      | none => rfl
      | some b =>
        have still := ((fields f b).mp hf).1
        rw [stored, if_pos ⟨rfl, rfl⟩] at still
        cases still
    have next' : f = .next → dropGone (HangsAtField m c (attrs f))
        (storeField cells c f none) e ≠ none := by
      intro hf
      obtain ⟨cell₄, h₄⟩ := Option.ne_none_iff_exists'.mp
        (storeField_ne_none (c := c) (f := f) (v := none) (next hf))
      rw [dropGone, if_neg gone, h₄]
      exact Option.some_ne_none _
    obtain ⟨-, inv', -⟩ := inv₁.link h₂ empty calm opened (kept e usable gone) next' hr
    rwa [storeField_dropGone stays gone] at inv'

theorem usable (h : cells c ≠ none) : Usable ss m c := by
  obtain ⟨cell, h⟩ := Option.ne_none_iff_exists'.mp h
  have isCell := inv.cell c cell h
  exact ⟨isCell.access, _, isCell.type, by decide⟩

theorem setNext (h : cells c = some cell) (calm : ∀ m a k ps, w m a k ps = false)
    (opened : ss.opened seg = true) {next : Option Addr}
    (valid : ∀ e, next = some e → cells e ≠ none)
    (hr : Sets.setNext ss w fuel attrs seg m c next = some (m', rv)) :
    CellInv refs ss attrs m₀ m'
      (dropGone (HangsAtField m c (attrs .next)) (storeField cells c .next next)) := by
  obtain ⟨m₁, old, hr⟩ := Option.bind_eq_some_iff.mp hr
  cases next with
  | some e =>
    exact inv.setField h calm opened (inv.usable (valid e rfl)) (fun _ => valid e rfl) old hr
  | none =>
    rw [link_refused (e := none) nofun hr]
    exact (inv.emptied h calm old).1

theorem setValue (h : cells c = some cell) (calm : ∀ m a k ps, w m a k ps = false)
    (opened : ss.opened seg = true) {val : Option Addr} (valid : ∀ e, val = some e → Usable ss m e)
    (hr : Sets.setValue ss w fuel attrs seg m c val = some (m', rv)) :
    CellInv refs ss attrs m₀ m'
      (dropGone (HangsAtField m c (attrs .value)) (storeField cells c .value val)) := by
  obtain ⟨m₁, old, hr⟩ := Option.bind_eq_some_iff.mp hr
  cases val with
  | some e => exact inv.setField h calm opened (valid e rfl) nofun old hr
  | none =>
    cases hr
    exact (inv.emptied h calm old).1

end

end CellInv

/-- What `create` is given. -/
def newCell (val next : Option Addr) : Field → Option Addr
  | .value => val
  | .next => next

theorem storeField_update {v : Option Addr} :
    storeField (Function.update cells c (some cell)) c f v =
      Function.update cells c (some (Function.update cell f v)) := by
  rw [storeField, Function.update_self, Option.map_some, Function.update_idem]

theorem CellInv.create (inv : CellInv refs ss attrs m₀ m cells)
    (calm : ∀ m a k ps, w m a k ps = false) {val next : Option Addr}
    (usable : ∀ e, val = some e → Usable ss m e) (valid : ∀ e, next = some e → cells e ≠ none)
    (same : next = none ∨ next = val)
    (hr : Sets.create ss w fuel attrs seg val next m = some (m', l)) :
    CellInv refs ss attrs m₀ m' (Function.update cells l (some (newCell val next))) ∧
      cells l = none := by
  obtain ⟨⟨m₁, l', rv⟩, create, hr⟩ := Option.bind_eq_some_iff.mp hr
  obtain ⟨l₁, rfl, calls⟩ := Option.bind_eq_some_iff.mp hr
  dsimp only at calls
  have opened : ss.opened seg = true := by
    obtain ⟨-, none, -⟩ | ⟨t, -, -, -, opened⟩ := createEl_some create
    · cases none
    · exact opened
  obtain ⟨inv₁, unused, keeps⟩ := inv.created create
  have linked : ∀ {m n : Memory} {cell f e}, CellInv refs ss attrs m₀ m
      (Function.update cells l₁ (some cell)) → cell f = none → Usable ss m e →
      (f = .next → e ≠ l₁ ∧ cells e ≠ none) →
      linkOrAbort ss w fuel seg m l₁ (some e) (attrs f) = some n →
      CellInv refs ss attrs m₀ n
          (Function.update cells l₁ (some (Function.update cell f (some e)))) ∧
        ∀ b, Usable ss m b → Usable ss n b := by
    intro m n cell f e inv empty usable next hr
    obtain ⟨⟨n', rv⟩, hr, made⟩ := Option.bind_eq_some_iff.mp hr
    dsimp only at made
    split at made
    · cases made
    · cases made
      obtain ⟨-, inv', keeps⟩ := inv.link (Function.update_self _ _ _) empty calm opened usable
        (fun hf => by rw [Function.update_of_ne (next hf).1]; exact (next hf).2) hr
      rw [storeField_update] at inv'
      exact ⟨inv', keeps⟩
  cases val with
  | none =>
    obtain rfl : next = none := same.elim id id
    cases calls
    refine ⟨?_, unused⟩
    rwa [show newCell none none = fun _ => none from funext fun f => by cases f <;> rfl]
  | some v =>
    obtain ⟨m₂, value, calls⟩ := Option.bind_eq_some_iff.mp calls
    obtain ⟨inv₂, keeps₂⟩ := linked (f := .value) inv₁ rfl (keeps v (usable v rfl)) nofun value
    obtain rfl | rfl := same
    · cases calls
      refine ⟨?_, unused⟩
      rwa [show newCell (some v) none = Function.update (fun _ => none) .value (some v) from
        funext fun f => by cases f <;> rfl]
    · obtain ⟨m₃, nextLink, calls⟩ := Option.bind_eq_some_iff.mp calls
      cases calls
      have other : v ≠ l := by
        rintro rfl
        exact valid v rfl unused
      obtain ⟨inv₃, -⟩ := linked (f := .next) inv₂ rfl (keeps₂ v (keeps v (usable v rfl)))
        (fun _ => ⟨other, valid v rfl⟩) nextLink
      refine ⟨?_, unused⟩
      rwa [show newCell (some v) (some v) = Function.update (Function.update (fun _ => none) .value
        (some v)) .next (some v) from funext fun f => by cases f <;> rfl]

end

end ScCore.Sets
