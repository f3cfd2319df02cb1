import ScCore.Sets.ListCalls

/-!
# Runs of list calls

Every run in which the next cell that `create` is given is the value or none, and in which no cell
is erased from which one can be reached that is its own next cell, keeps the cells as records.
-/

namespace ScCore.Sets

open ScCore.Store ScCore.Search Memory Relation

def Leads (cells : Cells) (c d : Addr) : Prop :=
  ∃ cell, cells c = some cell ∧ cell .next = some d

def HangsAtList (m : Memory) (cells : Cells) (c b : Addr) : Prop :=
  ∃ d, ReflTransGen (Leads cells) c d ∧ ReflTransGen (Incident m) d b

section Erase

variable {refs : Addr → Nat} {ss : Session} {w : Waits} {attrs : ListAttrs}
  {m₀ m m₁ m' : Memory} {cells : Cells} {cell : Field → Option Addr} {f : Field}
  {a c d e x y : Addr} {roots : Addr → Prop} {fuel : Nat} {rv : Retval}

theorem Leads.functional (h : Leads cells c d) (h' : Leads cells c e) : d = e := by
  obtain ⟨cell, hc, hd⟩ := h
  obtain ⟨cell', hc', he⟩ := h'
  obtain rfl := Option.some.inj (hc.symm.trans hc')
  exact Option.some.inj (hd.symm.trans he)

namespace CellInv

section

variable (inv : CellInv refs ss attrs m₀ m cells)
include inv

theorem reached (h : cells c ≠ none) (reach : ReflTransGen (Leads cells) c d) : cells d ≠ none := by
  induction reach with
  | refl => exact h
  | tail _ lead _ =>
    obtain ⟨cell, hc, hd⟩ := lead
    exact inv.nexts _ cell _ hc hd

theorem hangs_cell (h : cells d ≠ none) (hangs : ReflTransGen (Incident m) c d) : c = d := by
  obtain rfl | ⟨z, -, incident⟩ := ReflTransGen.cases_tail hangs
  · rfl
  · obtain ⟨cell, h⟩ := Option.ne_none_iff_exists'.mp h
    obtain ⟨s, hend⟩ := inv.graph.incident_iff.mp incident
    cases hend.symm.trans ((inv.cell d cell h).bare s)

theorem erased {gone : Addr → Prop} (er : Erodes refs roots m m')
    (root : ∀ r, roots r → cells r ≠ none)
    (gone_iff : ∀ b, gone b ↔ ∃ r, roots r ∧ ReflTransGen (Incident m) r b) :
    CellInv refs ss attrs m₀ m' (dropGone gone cells) := by
  refine inv.erode er (inv.prunes er (fun b live => (er.dead_iff inv.graph live).trans
    (gone_iff b).symm) (fun a cell h => ⟨cell, h, fun g => .inl rfl⟩) (fun a cell h => ⟨cell, h⟩)
    fun r hr => .inl (Option.ne_none_iff_exists'.mp (root r hr)))

theorem eraseCell (h : cells c ≠ none) (calm : ∀ m a k ps, w m a k ps = false)
    (hr : ss.eraseEl w fuel m (some c) = some (m₁, rv)) :
    Erodes refs (fun r => r = c) m m₁ ∧
      CellInv refs ss attrs m₀ m₁ (dropGone (ReflTransGen (Incident m) c) cells) := by
  obtain ⟨access, -⟩ := inv.usable h
  obtain rfl := eraseEl_calm (fun b => calm m b _ _) access hr
  have er := inv.steady.erodes hr
  refine ⟨er, inv.erased er (fun r hr => hr ▸ h) fun b => ⟨fun hangs => ⟨c, rfl, hangs⟩, ?_⟩⟩
  rintro ⟨r, rfl, hangs⟩
  exact hangs

theorem leads_dropGone :
    Leads (dropGone (ReflTransGen (Incident m) c) cells) a d ↔
      Leads cells a d ∧ a ≠ c ∧ d ≠ c := by
  constructor
  · rintro ⟨cell', h', hd⟩
    obtain ⟨stays, cell, h, fields⟩ := dropGone_some.mp h'
    obtain ⟨hd, stays'⟩ := (fields .next d).mp hd
    refine ⟨⟨cell, h, hd⟩, ?_, ?_⟩
    · rintro rfl
      exact stays .refl
    · rintro rfl
      exact stays' .refl
  · rintro ⟨⟨cell, h, hd⟩, ne, ne'⟩
    have stays : ∀ {b}, cells b ≠ none → b ≠ c → ¬ReflTransGen (Incident m) c b :=
      fun there ne hangs => ne (inv.hangs_cell there hangs).symm
    have there := stays (by rw [h]; nofun) ne
    obtain ⟨cell', h'⟩ : ∃ cell', dropGone (ReflTransGen (Incident m) c) cells a = some cell' := by
      rw [dropGone, if_neg there, h]
      exact ⟨_, rfl⟩
    obtain ⟨-, cell₁, h₁, fields⟩ := dropGone_some.mp h'
    obtain rfl := Option.some.inj (h.symm.trans h₁)
    exact ⟨cell', h', (fields .next d).mpr ⟨hd, stays (inv.nexts a cell d h hd) ne'⟩⟩

theorem reach_iff (lead : Leads cells c d) (other : d ≠ c) :
    ReflTransGen (Leads cells) c a ↔ a = c ∨
      ReflTransGen (Leads (dropGone (ReflTransGen (Incident m) c) cells)) d a := by
  constructor
  · intro reach
    induction reach with
    | refl => exact .inl rfl
    | @tail y z _ last ih =>
      by_cases back : z = c
      · exact .inl back
      · refine .inr ?_
        obtain rfl | reach := ih
        · rw [last.functional lead]
        · by_cases start : y = c
          · subst start
            rw [last.functional lead]
          · exact reach.tail (inv.leads_dropGone.mpr ⟨last, start, back⟩)
  · rintro (rfl | reach)
    · exact .refl
    · exact .head lead (ReflTransGen.mono (fun _ _ h => (inv.leads_dropGone.mp h).1) _ _ reach)

theorem left (h : cells d ≠ none) (other : d ≠ c) :
    dropGone (ReflTransGen (Incident m) c) cells d ≠ none := by
  obtain ⟨cell, h'⟩ := Option.ne_none_iff_exists'.mp h
  rw [dropGone, if_neg fun hangs => other (inv.hangs_cell h hangs).symm, h']
  exact Option.some_ne_none _

end

variable (ss w attrs) in
theorem erase_again (steady : Steady ⟨m₁, refs⟩) (dead : m₁.liveAddr c = false)
    (held : refs c ≠ 0) : getNext ss attrs m₁ c = some none ∧
      ∀ fuel, ss.eraseEl w fuel m₁ (some c) = some (m₁, rvErrGen) := by
  have graph : Inv (clientHolds refs) m₁ := steady.inv
  obtain ⟨g, hg⟩ := graph.held_addr (Nat.pos_of_ne_zero held)
  have gone : g.dead = true := by
    rw [Memory.liveAddr, hg] at dead
    simpa using dead
  constructor
  · obtain ⟨none, -⟩ | ⟨x, y, e, -, marked⟩ :
        (searchOneshot ss m₁ c (attrs .next) = some none ∧ _) ∨ _ :=
      searchOneshot_eq (quiet_of_steady steady) ⟨g, hg⟩
    · rw [getNext, getField, none]
      rfl
    · obtain ⟨-, -, -, -, -, live, -⟩ := graph.endOf_some marked.arc.1
      rw [dead] at live
      cases live
  · intro fuel
    simp [Session.eraseEl, Session.access, hg, gone, rvErrGen, rvOk]

theorem reach_self (lead : Leads cells c c) : ReflTransGen (Leads cells) c a ↔ a = c := by
  constructor
  · intro reach
    induction reach with
    | refl => rfl
    | tail _ last ih =>
      subst ih
      exact last.functional lead
  · rintro rfl
    exact .refl

theorem erase_erodes (calm : ∀ m a k ps, w m a k ps = false) {n : Nat}
    (inv : CellInv refs ss attrs m₀ m cells) (h : cells c ≠ none)
    (held : ∀ d, ReflTransGen (Leads cells) c d → Leads cells d d → refs d ≠ 0)
    (hr : Sets.erase ss w attrs n m c = some m') :
    Erodes refs (fun r => ReflTransGen (Leads cells) c r) m m' := by
  induction n generalizing m cells c with
  | zero => cases hr
  | succ n ih =>
    obtain ⟨cell, hc⟩ := Option.ne_none_iff_exists'.mp h
    obtain ⟨curr, next, hr'⟩ := Option.bind_eq_some_iff.mp hr
    obtain rfl := Option.some.inj ((inv.getField_eq hc .next).symm.trans next)
    obtain ⟨⟨m₁, rv⟩, first, later⟩ := Option.bind_eq_some_iff.mp hr'
    obtain ⟨er, inv₁⟩ := inv.eraseCell h calm first
    clear hr hr'
    dsimp only at later
    split at later
    · next last =>
      obtain rfl := Option.some.inj later
      refine er.mono fun r => ⟨fun same => same ▸ .refl, fun reach => ?_⟩
      obtain rfl | ⟨z, ⟨cell', hc', hd⟩, -⟩ := ReflTransGen.cases_head reach
      · rfl
      · obtain rfl := Option.some.inj (hc.symm.trans hc')
        cases last.symm.trans hd
    · next d more =>
      have lead : Leads cells c d := ⟨cell, hc, more⟩
      by_cases other : d = c
      · subst other
        have same : m₁ = m' := by
          obtain ⟨none, refused⟩ := erase_again ss w attrs er.steady (er.dead d rfl)
            (held d .refl lead)
          cases n with
          | zero => cases later
          | succ n =>
            simp only [Sets.erase, none, refused] at later
            exact Option.some.inj later
        subst same
        exact er.mono fun r => (reach_self lead).symm
      · have rest := ih inv₁ (inv.left (inv.nexts c cell d hc more) other)
          (fun e reach self => held e ((inv.reach_iff lead other).mpr (.inr reach))
            (inv.leads_dropGone.mp self).1) later
        exact (er.trans rest inv.graph).mono fun r => (inv.reach_iff lead other).symm

theorem erase_returns (calm : ∀ m a k ps, w m a k ps = false) {N k : Nat}
    (inv : CellInv refs ss attrs m₀ m cells) (h : cells c ≠ none)
    (held : ∀ d, ReflTransGen (Leads cells) c d → Leads cells d d → refs d ≠ 0)
    (bound : ∀ a, m.liveAddr a = true → a < N)
    (few : ((Finset.range N).filter fun a => m.liveAddr a = true).card ≤ k) :
    ∃ m', Converges (fun n => Sets.erase ss w attrs n m c) m' := by
  induction k generalizing m cells c with
  | zero =>
    have live := (inv.usable h).live
    have there : c ∈ (Finset.range N).filter fun a => m.liveAddr a = true :=
      Finset.mem_filter.mpr ⟨Finset.mem_range.mpr (bound c live), live⟩
    rw [Finset.card_eq_zero.mp (Nat.le_zero.mp few)] at there
    cases there
  | succ k ih =>
    obtain ⟨cell, hc⟩ := Option.ne_none_iff_exists'.mp h
    have usable := inv.usable h
    obtain ⟨m₁, -, returns⟩ := inv.graph.eraseEl_returns (fun _ => rfl) (w := w)
      (fun b => calm m b _ _) (inv.acc (inv.cell c cell hc).born) usable.access
    obtain ⟨fuel, first⟩ := returns.exists_fuel
    obtain ⟨er, inv₁⟩ := inv.eraseCell h calm first
    have fewer : ((Finset.range N).filter fun a => m₁.liveAddr a = true).card ≤ k := by
      refine Nat.lt_succ_iff.mp (lt_of_lt_of_le (Finset.card_lt_card ?_) few)
      refine Finset.ssubset_iff_of_subset (fun a ha => ?_) |>.mpr ⟨c, ?_, ?_⟩
      · obtain ⟨range, live⟩ := Finset.mem_filter.mp ha
        exact Finset.mem_filter.mpr ⟨range, er.live a live⟩
      · exact Finset.mem_filter.mpr
          ⟨Finset.mem_range.mpr (bound c usable.live), usable.live⟩
      · intro there
        obtain ⟨-, live⟩ := Finset.mem_filter.mp there
        rw [er.dead c rfl] at live
        cases live
    have next : getNext ss attrs m c = some (cell .next) := inv.getField_eq hc .next
    cases more : cell .next with
    | none =>
      refine ⟨m₁, .of_succ ?_⟩
      simp only [Sets.erase, next, more]
      exact returns.bind (Converges.const m₁)
    | some d =>
      have lead : Leads cells c d := ⟨cell, hc, more⟩
      have rest : ∃ m', Converges (fun n => Sets.erase ss w attrs n m₁ d) m' := by
        by_cases other : d = c
        · subst other
          obtain ⟨none, refused⟩ := erase_again ss w attrs er.steady (er.dead d rfl)
            (held d .refl lead)
          refine ⟨m₁, .of_succ ?_⟩
          simp only [Sets.erase, none, refused]
          exact Converges.const m₁
        · exact ih inv₁ (inv.left (inv.nexts c cell d hc more) other)
            (fun e reach self => held e ((inv.reach_iff lead other).mpr (.inr reach))
              (inv.leads_dropGone.mp self).1) (fun a live => bound a (er.live a live)) fewer
      obtain ⟨m', rest⟩ := rest
      refine ⟨m', .of_succ ?_⟩
      simp only [Sets.erase, next, more]
      exact returns.bind rest

theorem getPrev_eq (inv : CellInv refs ss attrs m₀ m cells) {lost : Bool}
    (its : Searches lost ss m) (h : cells d ≠ none) :
    (getPrev ss attrs its d = none ∧ ∀ c, ¬Leads cells c d) ∨
      ∃ c, getPrev ss attrs its d = some c ∧ Leads cells c d := by
  have opened : ∀ e, (Pattern.aafaf 0 0 d 0 (attrs .next)).Given e → InOpened ss m e := by
    intro e he
    simp only [Pattern.Given, Pattern.positions, List.mem_cons, Position.fixed.injEq, reduceCtorEq,
      List.not_mem_nil, or_false, false_or] at he
    obtain rfl | rfl := he
    · exact inOpened_of_access (inv.usable h).access
    · exact inOpened_of_access (inv.ready.access .next)
  have mem : ∀ t, t ∈ its.iterator .std5Aafaf
      [.type 0, .type 0, .addr (some d), .type 0, .addr (some (attrs .next))] ↔ _ := fun t =>
    ((mem_iterator (quiet_of_steady inv.steady) its opened).2 t).trans exists_five
  obtain ⟨cell, hd⟩ := Option.ne_none_iff_exists'.mp h
  have isCell := inv.cell d cell hd
  have leads : ∀ {e1 e2 e4}, Marked m e1 (attrs .next) e2 e4 d → Leads cells e1 d := by
    intro e1 e2 e4 marked
    obtain ⟨c, cell', f, hc, ⟨y, e, own⟩ | ⟨x', e, own⟩⟩ :=
      inv.made e2 .beg e1 (inv.born_of_end isCell.born marked.arc.2) marked.arc.1
    · obtain rfl := Option.some.inj (marked.arc.1.symm.trans own.arc.1)
      exact ⟨cell', hc, inv.stored e1 cell' .next e2 e4 d hc marked⟩
    · obtain rfl := Option.some.inj (marked.arc.2.symm.trans own.mark.2)
      cases own.arc.1.symm.trans (isCell.bare .beg)
  rw [getPrev]
  cases tuples : its.iterator .std5Aafaf
      [.type 0, .type 0, .addr (some d), .type 0, .addr (some (attrs .next))] with
  | nil =>
    refine .inl ⟨rfl, ?_⟩
    rintro c ⟨cell', hc, hnext⟩
    obtain ⟨x, y, marked, shown⟩ := inv.shown c cell' .next d hc hnext
    have usable := inv.usable (c := c) (hc ▸ Option.some_ne_none _)
    have found := (mem _).mpr ⟨c, x, d, y, attrs .next, rfl, marked.arc, marked.mark, usable.type,
      shown.types.1, rfl, shown.types.2, rfl, ?_⟩
    · rw [tuples] at found
      cases found
    · simp only [List.forall_mem_cons, List.not_mem_nil, false_implies, implies_true, and_true]
      exact ⟨inOpened_of_access usable.access, shown.arc, shown.fin.1, shown.mark,
        inOpened_of_access (inv.ready.access .next)⟩
  | cons t rest =>
    obtain ⟨e1, e2, e3, e4, e5, rfl, arc, mark, -, -, rfl, -, rfl, -⟩ :=
      (mem t).mp (tuples ▸ List.mem_cons_self)
    exact .inr ⟨e1, rfl, leads ⟨arc, mark⟩⟩

end CellInv

end Erase

/-! ## Runs -/

inductive ListCall where
  | create (seg : SegId) (val next : Option Addr)
  | setNext (seg : SegId) (list1 : Addr) (list2 : Option Addr)
  | setValue (seg : SegId) (list : Addr) (val : Option Addr)
  | erase (list : Addr)

namespace ListCall

/-- The memory after a call, and the cell that `create` returns. -/
def exec (ss : Session) (w : Waits) (fuel : Nat) (attrs : ListAttrs) (m : Memory) :
    ListCall → Option (Memory × Addr)
  | create seg val next => Sets.create ss w fuel attrs seg val next m
  | setNext seg c next => (Sets.setNext ss w fuel attrs seg m c next).map fun r => (r.1, c)
  | setValue seg c val => (Sets.setValue ss w fuel attrs seg m c val).map fun r => (r.1, c)
  | erase c => (Sets.erase ss w attrs fuel m c).map fun m => (m, c)

def Proper (ss : Session) (m : Memory) (cells : Cells) : ListCall → Prop
  | create _ val next => (∀ e, val = some e → Usable ss m e) ∧ ∀ e, next = some e → cells e ≠ none
  | setNext seg c next =>
      cells c ≠ none ∧ ss.opened seg = true ∧ ∀ e, next = some e → cells e ≠ none
  | setValue seg c val => cells c ≠ none ∧ ss.opened seg = true ∧ ∀ e, val = some e → Usable ss m e
  | erase c => cells c ≠ none

noncomputable def stored (attrs : ListAttrs) (m : Memory) (cells : Cells) (l : Addr) :
    ListCall → Cells
  | create _ val next => Function.update cells l (some (newCell val next))
  | setNext _ c next => dropGone (HangsAtField m c (attrs .next)) (storeField cells c .next next)
  | setValue _ c val => dropGone (HangsAtField m c (attrs .value)) (storeField cells c .value val)
  | erase c => dropGone (HangsAtList m cells c) cells

/-- A new cell is given no other next cell than its value, and nothing is erased from which a cell
can be reached that is its own next cell and that nobody holds. -/
def KeepsRecords (refs : Addr → Nat) (cells : Cells) : ListCall → Prop
  | create _ val next => next = none ∨ next = val
  | erase c => ∀ d, ReflTransGen (Leads cells) c d → Leads cells d d → refs d ≠ 0
  | _ => True

end ListCall

inductive ListRun (ok : Cells → ListCall → Prop) (ss : Session) (w : Waits) (attrs : ListAttrs)
    (m₀ : Memory) : Memory → Cells → Prop where
  | start : ListRun ok ss w attrs m₀ m₀ fun _ => none
  | call {m m' : Memory} {cells : Cells} {l : Addr} (call : ListCall) (fuel : Nat) :
      ListRun ok ss w attrs m₀ m cells → call.Proper ss m cells → ok cells call →
      call.exec ss w fuel attrs m = some (m', l) →
      ListRun ok ss w attrs m₀ m' (call.stored attrs m cells l)

/-- The getters return what is stored, `get_prev` finds a cell that leads to the given one if there
is any, and `erase` erases the cells that can be reached. -/
structure Recorded (ok : Cells → ListCall → Prop) (ss : Session) (w : Waits) (attrs : ListAttrs)
    (m : Memory) (cells : Cells) : Prop where
  value : ∀ c cell, cells c = some cell → getValue ss attrs m c = some (cell .value)
  next : ∀ c cell, cells c = some cell → getNext ss attrs m c = some (cell .next)
  prev : ∀ {lost} (its : Searches lost ss m) d, cells d ≠ none →
    (getPrev ss attrs its d = none ∧ ∀ c, ¬Leads cells c d) ∨
      ∃ c, getPrev ss attrs its d = some c ∧ Leads cells c d
  erase : ∀ c, cells c ≠ none → ok cells (.erase c) →
    ∃ m', Converges (fun fuel => erase ss w attrs fuel m c) m' ∧
      (∀ d, cells d ≠ none → (m'.liveAddr d = false ↔ ReflTransGen (Leads cells) c d)) ∧
      ∀ b, m.liveAddr b = true → (m'.liveAddr b = false ↔ HangsAtList m cells c b)

section Runs

variable {refs : Addr → Nat} {ss : Session} {w : Waits} {attrs : ListAttrs}
  {m₀ m m' : Memory} {cells : Cells} {c l : Addr} {fuel : Nat}

theorem CellInv.empty (steady : Steady ⟨m, refs⟩) (ready : AttrsReady ss attrs m) :
    CellInv refs ss attrs m m fun _ => none where
  start := steady.inv
  steady := steady
  ready := ready
  attrOld f := access_live (ready.access f)
  old _ live := ⟨live, fun _ => rfl⟩
  cell := nofun
  shown := nofun
  stored := nofun
  unique := nofun
  made x s e dead hend := by
    have graph : Inv (clientHolds refs) m := steady.inv
    obtain ⟨-, -, -, -, -, -, live⟩ := graph.endOf_some hend
    rw [dead] at live
    cases live
  order x s e dead hend := by
    have graph : Inv (clientHolds refs) m := steady.inv
    obtain ⟨-, -, -, -, -, -, live⟩ := graph.endOf_some hend
    rw [dead] at live
    cases live
  nexts := nofun

theorem CellInv.call (inv : CellInv refs ss attrs m₀ m cells)
    (calm : ∀ m a k ps, w m a k ps = false) {call : ListCall} (proper : call.Proper ss m cells)
    (ok : call.KeepsRecords refs cells) (hr : call.exec ss w fuel attrs m = some (m', l)) :
    CellInv refs ss attrs m₀ m' (call.stored attrs m cells l) := by
  cases call with
  | create seg val next => exact (inv.create calm proper.1 proper.2 ok hr).1
  | setNext seg c next =>
    obtain ⟨there, opened, valid⟩ := proper
    obtain ⟨cell, h⟩ := Option.ne_none_iff_exists'.mp there
    obtain ⟨⟨m₁, rv⟩, set, same⟩ := Option.map_eq_some_iff.mp hr
    cases same
    exact inv.setNext h calm opened valid set
  | setValue seg c val =>
    obtain ⟨there, opened, valid⟩ := proper
    obtain ⟨cell, h⟩ := Option.ne_none_iff_exists'.mp there
    obtain ⟨⟨m₁, rv⟩, set, same⟩ := Option.map_eq_some_iff.mp hr
    cases same
    exact inv.setValue h calm opened valid set
  | erase c =>
    obtain ⟨m₁, erase, same⟩ := Option.map_eq_some_iff.mp hr
    cases same
    exact inv.erased (inv.erase_erodes calm proper ok erase)
      (fun r reach => inv.reached proper reach) fun b => Iff.rfl

theorem CellInv.run (steady : Steady ⟨m₀, refs⟩) (ready : AttrsReady ss attrs m₀)
    (calm : ∀ m a k ps, w m a k ps = false)
    (run : ListRun (fun cells call => call.KeepsRecords refs cells) ss w attrs m₀ m cells) :
    CellInv refs ss attrs m₀ m cells := by
  induction run with
  | start => exact .empty steady ready
  | call call fuel _ proper ok hr ih => exact ih.call calm proper ok hr

theorem CellInv.recorded (inv : CellInv refs ss attrs m₀ m cells)
    (calm : ∀ m a k ps, w m a k ps = false) :
    Recorded (fun cells call => call.KeepsRecords refs cells) ss w attrs m cells where
  value c cell h := inv.getField_eq h .value
  next c cell h := inv.getField_eq h .next
  prev its d h := inv.getPrev_eq its h
  erase c h held := by
    have bound : ∀ a, m.liveAddr a = true → a < m.nextAddr := by
      intro a live
      obtain ⟨g, hg, -⟩ := liveAddr_eq_true.mp live
      exact inv.graph.addr_lt hg
    obtain ⟨m', returns⟩ := inv.erase_returns calm h held bound le_rfl
    obtain ⟨fuel, hr⟩ := returns.exists_fuel
    have er := inv.erase_erodes calm h held hr
    refine ⟨m', returns, fun d hd => (er.dead_iff inv.graph (inv.usable hd).live).trans ⟨?_, ?_⟩,
      fun b live => er.dead_iff inv.graph live⟩
    · rintro ⟨r, reach, hangs⟩
      exact inv.hangs_cell hd hangs ▸ reach
    · intro reach
      exact ⟨d, reach, .refl⟩

end Runs

/-- Cells behave like records in every run in which every next cell given to `create` is the value,
and no cell is erased that leads to one that is its own next cell and that nobody holds. -/
theorem recorded_of_run (uri tmpPrefix : SegId → ScString) (st : State)
    (start : ReachesFilling arcsKeepType (State.initial uri tmpPrefix) st) (ss : Session)
    (w : Waits) (calm : ∀ m a k ps, w m a k ps = false) (attrs : ListAttrs)
    (ready : AttrsReady ss attrs st.memory) (m : Memory) (cells : Cells)
    (run : ListRun (fun cells call => call.KeepsRecords st.refs cells) ss w attrs st.memory m
      cells) :
    Recorded (fun cells call => call.KeepsRecords st.refs cells) ss w attrs m cells :=
  (CellInv.run start.steady ready calm run).recorded calm

def listOps : List Op := [.createEl 0 .node, .createEl 0 .node, .createEl 0 .node]

def listAttrs : ListAttrs
  | .value => 0
  | .next => 1

def mayLead (ss : Session) (m : Memory) (e : Addr) : Bool :=
  ss.access m (some e) = some rvOk && (m.typeOf e).any fun t => checkScType t 0

theorem usable_of_mayLead {ss : Session} {m : Memory} {e : Addr} (ok : mayLead ss m e = true) :
    Usable ss m e := by
  rw [mayLead, Bool.and_eq_true, decide_eq_true_eq] at ok
  exact ⟨ok.1, (Option.any_eq_true _ _).mp ok.2⟩

def twoStored (val : Addr) : Cells :=
  Function.update (Function.update (fun _ => none) 3 (some (newCell (some 2) none))) 6
    (some (newCell (some val) (some 3)))

theorem two_cells (ok : State → Cells → ListCall → Prop) {val : Addr} (hval : val ∈ [2, 3])
    (first : ∀ st, ok st (fun _ => none) (.create 0 (some 2) none))
    (second : ∀ st cells, ok st cells (.create 0 (some val) (some 3))) :
    ∃ (st : State) (m : Memory),
    runOps 0 listOps (State.initial (fun _ => []) fun _ => []) = some st ∧
      ReachesFilling arcsKeepType (State.initial (fun _ => []) fun _ => []) st ∧
      AttrsReady systemSession listAttrs st.memory ∧
      ListRun (ok st) systemSession noWaits listAttrs st.memory m (twoStored val) ∧
      getNext systemSession listAttrs m 6 = some (some val) := by
  have eval : (runOps 0 listOps (State.initial (fun _ => []) fun _ => [])).any (fun st =>
      [0, 1, 2].all (mayLead systemSession st.memory) &&
      [0, 1].all (fun a => (st.memory.typeOf a).any fun t => !t.isConnector && t &&& .undf = 0) &&
      [2, 3].all fun val =>
        (create systemSession noWaits 0 listAttrs 0 (some 2) none st.memory).any fun p =>
          p.2 = 3 && mayLead systemSession p.1 val &&
          (create systemSession noWaits 0 listAttrs 0 (some val) (some 3) p.1).any fun q =>
            q.2 = 6 && getNext systemSession listAttrs q.1 6 = some (some val)) = true := by
    decide +kernel
  obtain ⟨st, hst, eval⟩ := (Option.any_eq_true _ _).mp eval
  rw [Bool.and_eq_true, Bool.and_eq_true] at eval
  obtain ⟨⟨may, types⟩, calls⟩ := eval
  obtain ⟨⟨m₁, l₁⟩, h₁, eval⟩ := (Option.any_eq_true _ _).mp (List.all_eq_true.mp calls val hval)
  rw [Bool.and_eq_true, Bool.and_eq_true, decide_eq_true_eq] at eval
  obtain ⟨⟨rfl, may'⟩, eval⟩ := eval
  obtain ⟨⟨m₂, l₂⟩, h₂, eval⟩ := (Option.any_eq_true _ _).mp eval
  rw [Bool.and_eq_true, decide_eq_true_eq, decide_eq_true_eq] at eval
  obtain ⟨rfl, next⟩ := eval
  have usable : ∀ a ∈ [0, 1, 2], Usable systemSession st.memory a := fun a ha =>
    usable_of_mayLead (List.all_eq_true.mp may a ha)
  have attr : ∀ f, listAttrs f ∈ [0, 1] := by
    intro f
    cases f <;> decide
  refine ⟨st, m₂, hst, (reaches_keeping (by decide) hst).filling,
    ⟨by decide, fun f => (usable _ (List.mem_append_left [2] (attr f))).access, fun f => ?_⟩, ?_,
    next⟩
  · obtain ⟨t, ht, plain⟩ :=
      (Option.any_eq_true _ _).mp (List.all_eq_true.mp types _ (attr f))
    exact ⟨t, ht, by simpa using plain⟩
  · have one : ListRun (ok st) systemSession noWaits listAttrs st.memory m₁
        (Function.update (fun _ => none) 3 (some (newCell (some 2) none))) :=
      .call (.create 0 (some 2) none) 0 .start
        ⟨fun e he => Option.some.inj he ▸ usable 2 (by decide), nofun⟩ (first st) h₁
    refine .call (.create 0 (some val) (some 3)) 0 one ⟨fun e he => ?_, fun e he => ?_⟩
      (second st _) h₂
    · exact Option.some.inj he ▸ usable_of_mayLead may'
    · obtain rfl := Option.some.inj he
      rw [Function.update_self]
      nofun

theorem recorded_of_run_cells : ∃ (st : State) (m : Memory),
    runOps 0 listOps (State.initial (fun _ => []) fun _ => []) = some st ∧
    Recorded (fun cells call => call.KeepsRecords st.refs cells) systemSession noWaits listAttrs m
      (twoStored 3) := by
  obtain ⟨st, m, hst, start, ready, run, -⟩ := two_cells
    (fun st cells call => call.KeepsRecords st.refs cells) (show 3 ∈ [2, 3] by decide)
    (fun _ => .inl rfl) fun _ _ => .inr rfl
  exact ⟨st, m, hst, recorded_of_run _ _ st start systemSession noWaits (fun _ _ _ _ => rfl)
    listAttrs ready m _ run⟩

/-- A cell leads to its value where it has been given another next cell. -/
theorem recorded_fails : ∃ (st : State) (m : Memory),
    ReachesFilling arcsKeepType (State.initial (fun _ => []) fun _ => []) st ∧
    AttrsReady systemSession listAttrs st.memory ∧
    ListRun (fun _ _ => True) systemSession noWaits listAttrs st.memory m (twoStored 2) ∧
    ¬Recorded (fun _ _ => True) systemSession noWaits listAttrs m (twoStored 2) := by
  obtain ⟨st, m, -, start, ready, run, next⟩ := two_cells (fun _ _ _ => True)
    (show 2 ∈ [2, 3] by decide) (fun _ => trivial) fun _ _ => trivial
  refine ⟨st, m, start, ready, run, fun recorded => ?_⟩
  have stored := recorded.next 6 (newCell (some 2) (some 3))
    (by rw [twoStored, Function.update_self])
  rw [next] at stored
  exact absurd (Option.some.inj (Option.some.inj stored)) (by decide)

end ScCore.Sets
