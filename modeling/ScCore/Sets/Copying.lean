import ScCore.Sets.TupleMaking
import ScCore.Store.Untouched

/-!
# Copying a set of elements

`sc_set::copy` without a callback. The set is ordered by the pointers, that is by the places
that the allocator has given to the addresses.
-/

namespace ScCore.Sets

open ScCore.Store ScCore.Search Memory

/-- `addr2addr_vector`: originals with their copies, null where none could be created. -/
abbrev Copies := List (Addr × Option Addr)

/-- `my_find`: `lower_bound` is the first entry that is not less than the key. -/
def myFind (place : Addr → Nat) (copies : Copies) (key : Addr) : Option Addr :=
  match copies.find? fun p => decide (place key ≤ place p.1) with
  | some p => if p.1 = key then p.2 else none
  | none => none

section Code

variable (ss : Session) (w : Waits) (place : Addr → Nat) (element : Addr)
  (c : Option Addr) (copies : Copies)

/-- The body of the loops over the arcs of an element: the copy of an arc that has been copied
gets the new copy for its end. -/
def patchArc (s : Endpoint) (arc : Addr) (m : Memory) : Option Memory :=
  if place element ≤ place arc then some m
  else
    match myFind place copies arc with
    | none => some m
    | some arcCopy => (ss.setEnds w s m (some arcCopy) c).map (·.1)

/-- One of these loops. Its iterator stands on originals when an end is set, and only copies get
other ends, so it meets the originals that were there at the start. -/
def patchArcs (s : Endpoint) : List Addr → Memory → Option Memory
  | [], m => some m
  | arc :: arcs, m => do
      let m ← patchArc ss w place element c copies s arc m
      patchArcs s arcs m

def copyOfEnd (a : Option Addr) : Option Addr :=
  a.map fun a => if place a ≤ place element then (myFind place copies a).getD a else a

def copyEnds (m : Memory) : Option Memory := do
  let beg ← ss.getEnd .beg m (some element)
  let fin ← ss.getEnd .fin m (some element)
  let (m, _) ← ss.setEnd w m c (copyOfEnd place element copies fin)
  let (m, _) ← ss.setBeg w m c (copyOfEnd place element copies beg)
  some m

/-- `get_content`; without access the content is empty. -/
def getContent (m : Memory) (a : Addr) : Option Content := do
  let rv ← ss.access m (some a)
  if rv ≠ rvOk then some .empty
  else
    let g ← m.addrs a
    let el ← m.elems g.impl
    some el.cont

/-- Identifier and content of the element. Nothing is set through a null pointer. -/
def copyData (m : Memory) : Option Memory := do
  let (m, idtf) ← ss.getIdtf m element
  match c with
  | none => some m
  | some c =>
      let (m, _) ← ss.setIdtf m c idtf
      let cont ← getContent ss m element
      let (m, _) ← ss.setContent m c cont
      some m

end Code

section Code

variable (ss : Session) (w : Waits) (place : Addr → Nat) (target : SegId)

def copyOne (element : Addr) (copies : Copies) (m : Memory) : Option (Memory × Copies) := do
  let type ← ss.getType m element
  let (m, c, _) ← ss.createEl m target type
  let ins ← metaArcs ss .fin m element
  let m ← patchArcs ss w place element c copies .fin ins m
  let outs ← metaArcs ss .beg m element
  let m ← patchArcs ss w place element c copies .beg outs m
  let copies := copies ++ [(element, c)]
  let type ← ss.getType m element
  let m ← if type.isa .connectorMask then copyEnds ss w place element c copies m else some m
  let m ← copyData ss element c m
  some (m, copies)

def copyAll : List Addr → Copies → Memory → Option (Memory × Copies)
  | [], copies, m => some (m, copies)
  | element :: els, copies, m => do
      let (m, copies) ← copyOne ss w place target element copies m
      copyAll els copies m

end Code

/-- `sc_set::copy` of an `addr_set`: its elements in the order of their places. -/
abbrev AddrSet (place : Addr → Nat) :=
  { els : List Addr // els.Pairwise fun a b => place a < place b }

def copySet (ss : Session) (w : Waits) (place : Addr → Nat) (target : SegId) (set : AddrSet place)
    (m : Memory) : Option (Memory × Copies) :=
  copyAll ss w place target set.val [] m

/-! ## Finding a copy -/

section Find

variable {place : Addr → Nat} {copies : Copies} {key x : Addr} {c : Option Addr}

def copyOf (copies : Copies) (key : Addr) : Option Addr :=
  (copies.find? fun p => p.1 = key).bind (·.2)

theorem myFind_eq (sorted : copies.Pairwise fun p q => place p.1 < place q.1) :
    myFind place copies key = copyOf copies key := by
  rw [copyOf]
  induction copies with
  | nil => rfl
  | cons p copies ih =>
    obtain ⟨least, sorted⟩ := List.pairwise_cons.mp sorted
    rw [myFind]
    by_cases same : p.1 = key
    · rw [List.find?_cons_of_pos (by simp [same]), List.find?_cons_of_pos (by simp [same])]
      simp [same]
    · by_cases before : place key ≤ place p.1
      · rw [List.find?_cons_of_pos (by simpa using before),
          List.find?_cons_of_neg (by simpa using same)]
        have missing : copies.find? (fun p => decide (p.1 = key)) = none := by
          rw [List.find?_eq_none]
          intro q hq there
          have later := least q hq
          rw [of_decide_eq_true there] at later
          omega
        rw [missing]
        simp [same]
      · rw [List.find?_cons_of_neg (by simpa using before),
          List.find?_cons_of_neg (by simpa using same), ← ih sorted, myFind]

theorem copyOf_append (fresh : x ∉ copies.map Prod.fst) :
    copyOf (copies ++ [(x, c)]) key = if x = key then c else copyOf copies key := by
  rw [copyOf, copyOf, List.find?_append]
  cases found : copies.find? fun p => decide (p.1 = key) with
  | some p =>
    have same : p.1 = key := by simpa using List.find?_some found
    have other : x ≠ key := by
      rintro rfl
      exact fresh (List.mem_map.mpr ⟨p, List.mem_of_find?_eq_some found, same⟩)
    rw [if_neg other]
    rfl
  | none =>
    rw [Option.none_or]
    by_cases same : x = key
    · simp [same]
    · simp [same]

theorem copyOf_some (h : copyOf copies key = some x) : (key, some x) ∈ copies := by
  obtain ⟨p, hp, hx⟩ := Option.bind_eq_some_iff.mp h
  have same := List.find?_some hp
  have mem := List.mem_of_find?_eq_some hp
  obtain ⟨k, c⟩ := p
  simp only [decide_eq_true_eq] at same hx
  subst same hx
  exact mem

theorem copyOf_of_mem (nodup : (copies.map Prod.fst).Nodup) (mem : (key, c) ∈ copies) :
    copyOf copies key = c := by
  induction copies with
  | nil => cases mem
  | cons p copies ih =>
    obtain ⟨fresh, nodup⟩ := List.nodup_cons.mp nodup
    obtain rfl | mem := List.mem_cons.mp mem
    · simp [copyOf]
    · have other : p.1 ≠ key := by
        rintro rfl
        exact fresh (List.mem_map.mpr ⟨_, mem, rfl⟩)
      rw [copyOf, List.find?_cons_of_neg (by simpa using other)]
      exact ih nodup mem

end Find

/-! ## One round -/

section Round

variable {refs : Addr → Nat} {ss : Session} {w : Waits} {place : Addr → Nat} {target : SegId}
  {element x y : Addr} {c : Option Addr} {copies copies' : Copies} {s u : Endpoint}
  {m m' m₁ m₂ m₃ m₄ : Memory} {τ : Touches} {arcs : List Addr}

structure Round (ss : Session) (w : Waits) (place : Addr → Nat) (target : SegId) (element : Addr)
    (copies : Copies) (m : Memory) (c : Option Addr) (m₁ m₂ m₃ m₄ m' : Memory) : Prop where
  create : ∃ type rv, ss.getType m element = some type ∧
    ss.createEl m target type = some (m₁, c, rv)
  ins : ∃ ins, metaArcs ss .fin m₁ element = some ins ∧
    patchArcs ss w place element c copies .fin ins m₁ = some m₂
  outs : ∃ outs, metaArcs ss .beg m₂ element = some outs ∧
    patchArcs ss w place element c copies .beg outs m₂ = some m₃
  own : ∃ type, ss.getType m₃ element = some type ∧
    (type.isa .connectorMask = true ∧
      copyEnds ss w place element c (copies ++ [(element, c)]) m₃ = some m₄ ∨
      type.isa .connectorMask = false ∧ m₄ = m₃)
  data : copyData ss element c m₄ = some m'

theorem copyOne_some (hr : copyOne ss w place target element copies m = some (m', copies')) :
    ∃ c m₁ m₂ m₃ m₄, copies' = copies ++ [(element, c)] ∧
      Round ss w place target element copies m c m₁ m₂ m₃ m₄ m' := by
  obtain ⟨type, htype, hr⟩ := Option.bind_eq_some_iff.mp hr
  obtain ⟨⟨m₁, c, rv⟩, create, hr⟩ := Option.bind_eq_some_iff.mp hr
  obtain ⟨ins, hins, hr⟩ := Option.bind_eq_some_iff.mp hr
  obtain ⟨m₂, patched, hr⟩ := Option.bind_eq_some_iff.mp hr
  obtain ⟨outs, houts, hr⟩ := Option.bind_eq_some_iff.mp hr
  obtain ⟨m₃, patched', hr⟩ := Option.bind_eq_some_iff.mp hr
  obtain ⟨type', htype', hr⟩ := Option.bind_eq_some_iff.mp hr
  dsimp only at hr
  split at hr
  · next full =>
    obtain ⟨m₄, own, hr⟩ := Option.bind_eq_some_iff.mp hr
    obtain ⟨m₅, data, hr⟩ := Option.bind_eq_some_iff.mp hr
    cases hr
    exact ⟨c, m₁, m₂, m₃, m₄, rfl, ⟨type, rv, htype, create⟩, ⟨ins, hins, patched⟩,
      ⟨outs, houts, patched'⟩, ⟨type', htype', .inl ⟨full, own⟩⟩, data⟩
  · next simple =>
    obtain ⟨m₄, same, hr⟩ := Option.bind_eq_some_iff.mp hr
    obtain rfl := Option.some.inj same
    obtain ⟨m₅, data, hr⟩ := Option.bind_eq_some_iff.mp hr
    cases hr
    exact ⟨c, m₁, m₂, m₃, m₃, rfl, ⟨type, rv, htype, create⟩, ⟨ins, hins, patched⟩,
      ⟨outs, houts, patched'⟩, ⟨type', htype', .inr ⟨by simpa using simple, rfl⟩⟩, data⟩

def Hits (place : Addr → Nat) (element : Addr) (copies : Copies) (arc y : Addr) : Prop :=
  place arc < place element ∧ myFind place copies arc = some y

theorem patchArc_some {arc : Addr}
    (hr : patchArc ss w place element c copies s arc m = some m') :
    (m' = m ∧ ∀ y, ¬Hits place element copies arc y) ∨
      ∃ y rv, Hits place element copies arc y ∧ ss.setEnds w s m (some y) c = some (m', rv) := by
  rw [patchArc] at hr
  split at hr
  · next later =>
    refine .inl ⟨(Option.some.inj hr).symm, fun y hits => ?_⟩
    have before := hits.1
    omega
  · next before =>
    cases found : myFind place copies arc with
    | none =>
      rw [found] at hr
      refine .inl ⟨(Option.some.inj hr).symm, fun y hits => ?_⟩
      cases found.symm.trans hits.2
    | some y =>
      rw [found] at hr
      obtain ⟨⟨m₁, rv⟩, call, rfl⟩ := Option.map_eq_some_iff.mp hr
      exact .inr ⟨y, rv, ⟨not_le.mp before, found⟩, call⟩

structure Patches (refs : Addr → Nat) (τ : Touches) (s : Endpoint) (c : Option Addr)
    (hit : Addr → Prop) (m m' : Memory) : Prop where
  only : TouchesOnly refs τ m m'
  ends : ∀ y u, ¬(u = s ∧ hit y) → m'.endOf y u = m.endOf y u

variable {hit : Addr → Prop} {rv : Retval}

theorem Patches.refl (steady : Steady ⟨m, refs⟩) : Patches refs τ s c hit m m :=
  ⟨TouchesOnly.refl steady, fun _ _ _ => rfl⟩

theorem Patches.trans {hit' : Addr → Prop} (p : Patches refs τ s c hit m m₁)
    (p' : Patches refs τ s c hit' m₁ m') (more : ∀ y, hit' y → hit y) :
    Patches refs τ s c hit m m' :=
  ⟨p.only.trans p'.only, fun y u other =>
    (p'.ends y u fun there => other ⟨there.1, more y there.2⟩).trans (p.ends y u other)⟩

theorem patches_call (steady : Steady ⟨m, refs⟩)
    (call : ss.setEnds w s m (some y) c = some (m', rv)) (there : hit y) (ends : τ.ends y s)
    (begins : s = .beg → ∀ b, c = some b → τ.begins b) : Patches refs τ s c hit m m' := by
  have exactly : TouchesOnly refs ⟨fun y' u => y' = y ∧ u = s, fun _ => True, fun _ => False⟩
      m m' := only_setEnds steady call ⟨rfl, rfl⟩ fun _ _ _ => trivial
  refine ⟨only_setEnds steady call ends begins, fun y' u other => exactly.ends y' u ?_⟩
  rintro ⟨rfl, rfl⟩
  exact other ⟨rfl, there⟩

/-- The copies that a loop leads to. -/
abbrev HitBy (place : Addr → Nat) (element : Addr) (copies : Copies) (arcs : List Addr)
    (y : Addr) : Prop :=
  ∃ arc ∈ arcs, Hits place element copies arc y

theorem patchArcs_patches (steady : Steady ⟨m, refs⟩)
    (ends : ∀ y, HitBy place element copies arcs y → τ.ends y s)
    (begins : s = .beg → (∃ y, HitBy place element copies arcs y) → ∀ b, c = some b → τ.begins b)
    (hr : patchArcs ss w place element c copies s arcs m = some m') :
    Patches refs τ s c (HitBy place element copies arcs) m m' := by
  induction arcs generalizing m with
  | nil =>
    cases hr
    exact Patches.refl steady
  | cons arc arcs ih =>
    obtain ⟨m₁, hm₁, hr⟩ := Option.bind_eq_some_iff.mp hr
    have more : ∀ y, HitBy place element copies arcs y →
        HitBy place element copies (arc :: arcs) y :=
      fun y ⟨arc', mem, hits⟩ => ⟨arc', List.mem_cons_of_mem _ mem, hits⟩
    have rest : Steady ⟨m₁, refs⟩ → Patches refs τ s c (HitBy place element copies arcs) m₁ m' :=
      fun steady₁ => ih steady₁ (fun y there => ends y (more y there))
        (fun hs ⟨y, there⟩ => begins hs ⟨y, more y there⟩) hr
    obtain ⟨rfl, -⟩ | ⟨y, rv, hits, call⟩ := patchArc_some hm₁
    · exact (Patches.refl steady).trans (rest steady) more
    · have there : HitBy place element copies (arc :: arcs) y := ⟨arc, List.mem_cons_self, hits⟩
      have first := patches_call steady call there (ends y there) fun hs => begins hs ⟨y, there⟩
      exact first.trans (rest first.only.steady) more

theorem patchArcs_there (steady : Steady ⟨m, refs⟩)
    (ends : ∀ y, HitBy place element copies arcs y → τ.ends y s)
    (begins : s = .beg → (∃ y, HitBy place element copies arcs y) → ∀ b, c = some b → τ.begins b)
    (works : ∀ m₁ m₂ rv y, Patches refs τ s c (HitBy place element copies arcs) m m₁ →
      HitBy place element copies arcs y → ss.setEnds w s m₁ (some y) c = some (m₂, rv) → rv = rvOk)
    (hr : patchArcs ss w place element c copies s arcs m = some m') :
    ∀ y, HitBy place element copies arcs y → m'.endOf y s = c := by
  induction arcs generalizing m with
  | nil =>
    rintro y ⟨arc, mem, -⟩
    cases mem
  | cons arc arcs ih =>
    rintro y there
    obtain ⟨m₁, hm₁, rest⟩ := Option.bind_eq_some_iff.mp hr
    have more : ∀ y, HitBy place element copies arcs y →
        HitBy place element copies (arc :: arcs) y :=
      fun y ⟨arc', mem, hits⟩ => ⟨arc', List.mem_cons_of_mem _ mem, hits⟩
    have first : Patches refs τ s c (HitBy place element copies (arc :: arcs)) m m₁ := by
      obtain ⟨rfl, -⟩ | ⟨y, rv, hits, call⟩ := patchArc_some hm₁
      · exact Patches.refl steady
      · have there : HitBy place element copies (arc :: arcs) y := ⟨arc, List.mem_cons_self, hits⟩
        exact patches_call steady call there (ends y there) fun hs => begins hs ⟨y, there⟩
    have ends' := fun y there => ends y (more y there)
    have begins' : s = .beg → (∃ y, HitBy place element copies arcs y) → _ :=
      fun hs ⟨y, there⟩ => begins hs ⟨y, more y there⟩
    by_cases later : HitBy place element copies arcs y
    · refine ih first.only.steady ends' begins' (fun m₂ m₃ rv y patches there call => ?_) rest
        y later
      exact works m₂ m₃ rv y (first.trans patches more) (more y there) call
    · -- The call for this arc is the last one.
      obtain ⟨arc', mem, hits⟩ := there
      obtain rfl | mem := List.mem_cons.mp mem
      · have after := patchArcs_patches first.only.steady ends' begins' rest
        rw [after.ends y s fun there => later there.2]
        obtain ⟨-, none⟩ | ⟨y', rv, hits', call⟩ := patchArc_some hm₁
        · exact absurd hits (none y)
        · obtain rfl : y' = y := Option.some.inj (hits'.2.symm.trans hits.2)
          obtain ⟨-, step, -⟩ := Inv.setEnds (h := clientHolds refs) steady.inv (fun _ => rfl) call
          have ok := works m m₁ rv y' (Patches.refl steady) ⟨arc', List.mem_cons_self, hits⟩ call
          obtain ⟨x, hx, end'⟩ := step.there steady.inv ok
          obtain rfl := Option.some.inj hx
          exact end'
      · exact absurd ⟨arc', mem, hits⟩ later

theorem getEnd_endOf (hr : ss.getEnd s m (some x) = some (some y)) :
    m.endOf x s = some y ∧ ss.access m (some x) = some rvOk := by
  obtain ⟨rv, access, hr⟩ := Option.bind_eq_some_iff.mp hr
  split at hr
  · cases hr
  · next ok =>
    obtain ⟨x, same, hr⟩ := Option.bind_eq_some_iff.mp hr
    obtain rfl := Option.some.inj same
    obtain ⟨g, hg, hr⟩ := Option.bind_eq_some_iff.mp hr
    obtain ⟨el, hel, hr⟩ := Option.bind_eq_some_iff.mp hr
    split at hr
    · cases hr
    · rw [not_not.mp ok] at access
      refine ⟨?_, access⟩
      rw [endOf_eq hg hel]
      split at hr
      · cases hr
      · next ll hll =>
        obtain ⟨a, ha, hr⟩ := Option.bind_eq_some_iff.mp hr
        obtain ⟨rv', -, hr⟩ := Option.bind_eq_some_iff.mp hr
        split at hr
        · cases hr
        · rw [hll, bind_addrOf ha]
          exact Option.some.inj hr

theorem setEnds_clears (inv : Inv (clientHolds refs) m)
    (hr : ss.setEnds w s m (some x) none = some (m', rv)) (free : m.endOf x s = none) :
    m'.endOf x s = none := by
  obtain ⟨-, step, -⟩ := inv.setEnds (fun _ => rfl) hr
  by_cases ok : rv = rvOk
  · obtain ⟨x', hx, there⟩ := step.there inv ok
    obtain rfl := Option.some.inj hx
    exact there
  · rw [step.failed ok, free]

theorem setEnds_null {arc' : Option Addr} (hr : ss.setEnds w s m none arc' = some (m', rv)) :
    m' = m := by
  refine setEnds_denied hr ?_
  rintro ok
  cases ok

theorem copyEnds_some (hr : copyEnds ss w place element c copies m = some m') :
    ∃ beg fin m₁ rv₁ rv₂, ss.getEnd .beg m (some element) = some beg ∧
      ss.getEnd .fin m (some element) = some fin ∧
      ss.setEnds w .fin m c (copyOfEnd place element copies fin) = some (m₁, rv₁) ∧
      ss.setEnds w .beg m₁ c (copyOfEnd place element copies beg) = some (m', rv₂) := by
  obtain ⟨beg, hbeg, hr⟩ := Option.bind_eq_some_iff.mp hr
  obtain ⟨fin, hfin, hr⟩ := Option.bind_eq_some_iff.mp hr
  obtain ⟨⟨m₁, rv₁⟩, first, hr⟩ := Option.bind_eq_some_iff.mp hr
  obtain ⟨⟨m₂, rv₂⟩, second, hr⟩ := Option.bind_eq_some_iff.mp hr
  cases hr
  exact ⟨beg, fin, m₁, rv₁, rv₂, hbeg, hfin, first, second⟩

theorem copyEnds_only (steady : Steady ⟨m, refs⟩) (ends : ∀ y u, c = some y → τ.ends y u)
    (begins : ∀ e, ss.getEnd .beg m (some element) = some (some e) → ∀ b,
      copyOfEnd place element copies (some e) = some b → τ.begins b)
    (hr : copyEnds ss w place element c copies m = some m') :
    TouchesOnly refs τ m m' ∧ ∀ y u, c = some y → m.endOf y u = none → m'.endOf y u ≠ none →
      ∃ e, ss.getEnd u m (some element) = some (some e) := by
  obtain ⟨beg, fin, m₁, rv₁, rv₂, hbeg, hfin, first, second⟩ := copyEnds_some hr
  cases c with
  | none =>
    obtain rfl := setEnds_null first
    obtain rfl := setEnds_null second
    exact ⟨TouchesOnly.refl steady, nofun⟩
  | some y =>
    have only₁ : TouchesOnly refs τ m m₁ := only_setEnds steady first (ends y .fin rfl) nofun
    have only₂ : TouchesOnly refs τ m₁ m' := by
      refine only_setEnds only₁.steady second (ends y .beg rfl) fun _ b hb => ?_
      cases beg with
      | none => cases hb
      | some e => exact begins e hbeg b hb
    refine ⟨only₁.trans only₂, ?_⟩
    rintro y' u same free set
    obtain rfl := Option.some.inj same
    have exactly₁ : TouchesOnly refs ⟨fun _ u => u = .fin, fun _ => True, fun _ => False⟩ m m₁ :=
      only_setEnds steady first rfl fun _ _ _ => trivial
    have exactly₂ : TouchesOnly refs ⟨fun _ u => u = .beg, fun _ => True, fun _ => False⟩ m₁ m' :=
      only_setEnds only₁.steady second rfl fun _ _ _ => trivial
    cases u with
    | beg =>
      cases beg with
      | some e => exact ⟨e, hbeg⟩
      | none =>
        rw [← exactly₁.ends y .beg nofun] at free
        exact absurd (setEnds_clears only₁.steady.inv second free) set
    | fin =>
      cases fin with
      | some e => exact ⟨e, hfin⟩
      | none =>
        rw [exactly₂.ends y .fin nofun] at set
        exact absurd (setEnds_clears steady.inv first free) set

theorem copyData_only (steady : Steady ⟨m, refs⟩) (contents : ∀ y, c = some y → τ.contents y)
    (hr : copyData ss element c m = some m') : TouchesOnly refs τ m m' := by
  obtain ⟨⟨m₁, idtf⟩, get, hr⟩ := Option.bind_eq_some_iff.mp hr
  have only₁ : TouchesOnly refs τ m m₁ := only_getIdtf steady get
  cases c with
  | none =>
    cases hr
    exact only₁
  | some y =>
    obtain ⟨⟨m₂, rv₂⟩, set, hr⟩ := Option.bind_eq_some_iff.mp hr
    obtain ⟨cont, -, hr⟩ := Option.bind_eq_some_iff.mp hr
    obtain ⟨⟨m₃, rv₃⟩, fill, hr⟩ := Option.bind_eq_some_iff.mp hr
    cases hr
    have only₂ : TouchesOnly refs τ m₁ m₂ := only_setIdtf only₁.steady set
    exact only₁.trans (only₂.trans (only_setContent only₂.steady fill (contents y rfl)))

end Round

/-! ## The loop over the set -/

section Loop

variable {refs : Addr → Nat} {ss : Session} {w : Waits} {place : Addr → Nat} {target : SegId}
  {element x y : Addr} {c : Option Addr} {copies copies' : Copies} {s u : Endpoint}
  {m₀ m m' : Memory} {els : List Addr}

/-- The type has every bit of the mask, as `sc_isa` asks for. -/
def Full (m : Memory) (x : Addr) : Prop := ∃ t, m.typeOf x = some t ∧ t.isa .connectorMask = true

def Begins (m : Memory) (els : List Addr) (e : Addr) : Prop := ∃ x ∈ els, m.endOf x .beg = some e

/-- The originals are as they were; only the type of an undefined begin may have changed. -/
structure Originals (refs : Addr → Nat) (els : List Addr) (m₀ m : Memory) : Prop where
  start : Steady ⟨m₀, refs⟩
  steady : Steady ⟨m, refs⟩
  persists : Persists m₀ m
  ends : ∀ y g, m₀.addrs y = some g → ∀ s, m.endOf y s = m₀.endOf y s
  types : ∀ y t, m₀.typeOf y = some t →
    t.isConnector = true ∨ t &&& .undf = 0 ∨ ¬Begins m₀ els y → m.typeOf y = some t
  contents : ∀ y g, m₀.addrs y = some g → contOf m y = contOf m₀ y

def roundTouches (m₀ : Memory) (els : List Addr) (copies : Copies) (c : Option Addr)
    (ends : Addr → Prop) : Touches where
  ends y _ := ends y
  begins y := ∃ e, Begins m₀ els e ∧ (y = e ∨ (e, some y) ∈ copies)
  contents y := c = some y

/-- The copies are not among the originals. -/
abbrev New (m₀ : Memory) (copies : Copies) : Prop := ∀ x y, (x, some y) ∈ copies → m₀.addrs y = none

theorem Originals.only (originals : Originals refs els m₀ m) (new : New m₀ copies)
    (last : ∀ y, c = some y → ∃ x, (x, some y) ∈ copies) {ends : Addr → Prop}
    (copied : ∀ y, ends y → ∃ x, (x, some y) ∈ copies)
    (only : TouchesOnly refs (roundTouches m₀ els copies c ends) m m') :
    Originals refs els m₀ m' where
  start := originals.start
  steady := only.steady
  persists := originals.persists.trans only.persists
  ends y g hg s := by
    rw [only.ends y s ?_, originals.ends y g hg s]
    intro touched
    obtain ⟨x, mem⟩ := copied y touched
    cases hg.symm.trans (new x y mem)
  types y t type kept := by
    refine only.types y t (originals.types y t type kept) (kept.imp_right fun kept =>
      kept.imp_right fun other => ?_)
    rintro ⟨e, begins, rfl | mem⟩
    · exact other begins
    · obtain ⟨g, hg⟩ := addrs_of_typeOf type
      cases hg.symm.trans (new e y mem)
  contents y g hg := by
    obtain ⟨g', hg', -⟩ := originals.persists.addrs hg
    rw [only.contents y g' hg' ?_, originals.contents y g hg]
    intro same
    obtain ⟨x, mem⟩ := last y same
    cases hg.symm.trans (new x y mem)

structure Copying (refs : Addr → Nat) (place : Addr → Nat) (els : List Addr) (m₀ m : Memory)
    (copies : Copies) : Prop where
  originals : Originals refs els m₀ m
  new : New m₀ copies
  stored : ∀ x y, (x, some y) ∈ copies → ∃ g, m.addrs y = some g
  inj : ∀ x x' y, (x, some y) ∈ copies → (x', some y) ∈ copies → x = x'
  own : ∀ x y s, (x, some y) ∈ copies → m.endOf y s ≠ none →
    Full m₀ x ∨ ∃ e ∈ copies.map Prod.fst, place x < place e ∧ m₀.endOf x s = some e

structure InOrder (place : Addr → Nat) (m₀ : Memory) (els : List Addr) (copies : Copies)
    (element : Addr) : Prop where
  sorted : copies.Pairwise fun p q => place p.1 < place q.1
  before : ∀ p ∈ copies, place p.1 < place element
  mem : ∀ p ∈ copies, p.1 ∈ els
  element : element ∈ els
  stored : ∀ x ∈ els, ∃ g, m₀.addrs x = some g

theorem InOrder.sorted_append (order : InOrder place m₀ els copies element) (c : Option Addr) :
    (copies ++ [(element, c)]).Pairwise fun p q => place p.1 < place q.1 := by
  rw [List.pairwise_append]
  refine ⟨order.sorted, List.pairwise_singleton _ _, fun p hp q hq => ?_⟩
  rw [List.mem_singleton.mp hq]
  exact order.before p hp

theorem copyOfEnd_some {e b : Addr} (sorted : copies.Pairwise fun p q => place p.1 < place q.1)
    (hb : copyOfEnd place element copies (some e) = some b) : b = e ∨ (e, some b) ∈ copies := by
  rw [copyOfEnd, Option.map_some, Option.some.injEq, myFind_eq sorted] at hb
  split at hb
  · cases found : copyOf copies e with
    | none =>
      rw [found] at hb
      exact .inl hb.symm
    | some t =>
      rw [found] at hb
      exact .inr (hb ▸ copyOf_some found)
  · exact .inl hb.symm

theorem connector_of_end {h : Holds} (inv : Inv h m) (ends : m.endOf x s = some y) :
    ∃ t, m.typeOf x = some t ∧ t.isConnector = true := by
  obtain ⟨g, e, hg, ht, -⟩ := inv.endOf_some ends
  obtain ⟨el, hel, -⟩ := inv.own_stored hg
  refine ⟨el.type, ?_, inv.typed ht (label_stored hel)⟩
  rw [Memory.typeOf, hg, Option.bind_some, hel]
  rfl

variable {m₁ m₂ m₃ m₄ : Memory}

structure Stages (refs : Addr → Nat) (ss : Session) (place : Addr → Nat) (m₀ : Memory)
    (els : List Addr) (element : Addr) (copies : Copies) (c : Option Addr)
    (m m₁ m₂ m₃ m₄ m' : Memory) : Prop where
  made : TouchesOnly refs (roundTouches m₀ els (copies ++ [(element, c)]) c fun _ => False) m m₁
  new : New m₀ (copies ++ [(element, c)])
  free : ∀ y, c = some y → (∀ x, (x, some y) ∉ copies) ∧ (∃ g, m₁.addrs y = some g) ∧
    ∀ s, m₁.endOf y s = none
  ins : ∃ ins, metaArcs ss .fin m₁ element = some ins ∧
    Patches refs (roundTouches m₀ els (copies ++ [(element, c)]) c fun y =>
      ∃ x, (x, some y) ∈ copies) .fin c (HitBy place element copies ins) m₁ m₂
  outs : ∃ outs, metaArcs ss .beg m₂ element = some outs ∧
    Patches refs (roundTouches m₀ els (copies ++ [(element, c)]) c fun y =>
      ∃ x, (x, some y) ∈ copies) .beg c (HitBy place element copies outs) m₂ m₃
  own : TouchesOnly refs (roundTouches m₀ els (copies ++ [(element, c)]) c fun y => c = some y)
    m₃ m₄
  full : ∀ y u, c = some y → m₃.endOf y u = none → m₄.endOf y u ≠ none → Full m₀ element
  data : TouchesOnly refs (roundTouches m₀ els (copies ++ [(element, c)]) c fun _ => False) m₄ m'

theorem hits_original (originals : Originals refs els m₀ m)
    (order : InOrder place m₀ els copies element) {arcs : List Addr}
    (harcs : metaArcs ss s m element = some arcs) (hit : HitBy place element copies arcs y) :
    ∃ x, (x, some y) ∈ copies ∧ m₀.endOf x s = some element ∧ x ∈ arcs := by
  obtain ⟨arc, mem, -, found⟩ := hit
  rw [myFind_eq order.sorted] at found
  have copied := copyOf_some found
  obtain ⟨g, hg⟩ := order.stored arc (order.mem _ copied)
  refine ⟨arc, copied, ?_, mem⟩
  rw [← originals.ends arc g hg]
  have quiet := quiet_of_steady originals.steady
  exact ((mem_metaArcs quiet).mp (by rw [harcs]; exact mem)).1

theorem Copying.stages (copying : Copying refs place els m₀ m copies)
    (order : InOrder place m₀ els copies element)
    (round : Round ss w place target element copies m c m₁ m₂ m₃ m₄ m') :
    Stages refs ss place m₀ els element copies c m m₁ m₂ m₃ m₄ m' := by
  obtain ⟨type, rv, -, create⟩ := round.create
  obtain ⟨ins, hins, patched⟩ := round.ins
  obtain ⟨outs, houts, patched'⟩ := round.outs
  have steady := copying.originals.steady
  have inv : Inv (clientHolds refs) m := steady.inv
  have made : TouchesOnly refs (roundTouches m₀ els (copies ++ [(element, c)]) c fun _ => False)
      m m₁ := only_created steady create
  have fresh : ∀ y, c = some y → m.addrs y = none ∧ (∃ g, m₁.addrs y = some g) ∧
      ∀ s, m₁.endOf y s = none := by
    rintro y rfl
    obtain ⟨-, none, -⟩ | ⟨t, rfl, same, -⟩ := createEl_some create
    · cases none
    · obtain rfl := Option.some.inj same
      refine ⟨inv.unusedAddr, ⟨_, by rw [created_addrs, if_pos rfl]⟩, fun s => ?_⟩
      rw [inv.created_endOf, Memory.endOf, inv.unusedAddr, Option.bind_none]
  have unstored : ∀ y, m.addrs y = none → m₀.addrs y = none := by
    intro y hy
    cases hg : m₀.addrs y with
    | none => rfl
    | some g =>
      obtain ⟨g', hg', -⟩ := copying.originals.persists.addrs hg
      cases hy.symm.trans hg'
  have new : New m₀ (copies ++ [(element, c)]) := by
    intro x y mem
    obtain mem | mem := List.mem_append.mp mem
    · exact copying.new x y mem
    · obtain ⟨-, same⟩ := Prod.mk.inj (List.mem_singleton.mp mem)
      exact unstored y (fresh y same.symm).1
  have last : ∀ y, c = some y → ∃ x, (x, some y) ∈ copies ++ [(element, c)] := fun y hc =>
    ⟨element, List.mem_append_right _ (hc ▸ List.mem_singleton_self _)⟩
  have earlier : ∀ y, (∃ x, (x, some y) ∈ copies) → ∃ x, (x, some y) ∈ copies ++ [(element, c)] :=
    fun _ => Exists.imp fun _ mem => List.mem_append_left _ mem
  have originals₁ := copying.originals.only new last (fun _ none => none.elim) made
  have patches : ∀ {m₁ m₂ s arcs}, Originals refs els m₀ m₁ →
      metaArcs ss s m₁ element = some arcs →
      patchArcs ss w place element c copies s arcs m₁ = some m₂ →
      Patches refs (roundTouches m₀ els (copies ++ [(element, c)]) c fun y =>
        ∃ x, (x, some y) ∈ copies) s c (HitBy place element copies arcs) m₁ m₂ := by
    intro m₁ m₂ s arcs originals harcs patched
    refine patchArcs_patches originals.steady (fun y hit => ?_) (fun hs hit b hb => ?_) patched
    · obtain ⟨x, mem, -⟩ := hits_original originals order harcs hit
      exact ⟨x, mem⟩
    · obtain ⟨y, hit⟩ := hit
      obtain ⟨x, mem, ends, -⟩ := hits_original originals order harcs hit
      subst hs
      exact ⟨element, ⟨x, order.mem _ mem, ends⟩,
        .inr (List.mem_append_right _ (hb ▸ List.mem_singleton_self _))⟩
  have patches₂ := patches originals₁ hins patched
  have originals₂ := originals₁.only new last earlier patches₂.only
  have patches₃ := patches originals₂ houts patched'
  have originals₃ := originals₂.only new last earlier patches₃.only
  obtain ⟨gel, hgel⟩ := order.stored element order.element
  obtain ⟨type', htype', own⟩ := round.own
  have owned : TouchesOnly refs
      (roundTouches m₀ els (copies ++ [(element, c)]) c fun y => c = some y) m₃ m₄ ∧
      ∀ y u, c = some y → m₃.endOf y u = none → m₄.endOf y u ≠ none → Full m₀ element := by
    obtain ⟨isFull, own⟩ | ⟨-, same⟩ := own
    · have begins : ∀ e, ss.getEnd .beg m₃ (some element) = some (some e) → ∀ b,
          copyOfEnd place element (copies ++ [(element, c)]) (some e) = some b →
          (roundTouches m₀ els (copies ++ [(element, c)]) c fun y => c = some y).begins b := by
        intro e he b hb
        have ends := (getEnd_endOf he).1
        rw [originals₃.ends element gel hgel] at ends
        exact ⟨e, ⟨element, order.element, ends⟩, copyOfEnd_some (order.sorted_append c) hb⟩
      obtain ⟨only, reads⟩ := copyEnds_only originals₃.steady (fun y u hc => hc) begins own
      refine ⟨only, fun y u hc free set => ?_⟩
      obtain ⟨e, he⟩ := reads y u hc free set
      obtain ⟨ends, access⟩ := getEnd_endOf he
      rw [originals₃.ends element gel hgel] at ends
      obtain ⟨t, type, connector⟩ := connector_of_end originals₃.start.inv ends
      have type₃ := originals₃.types element t type (.inl connector)
      obtain rfl := Option.some.inj (type₃.symm.trans (access_typeOf access htype'))
      exact ⟨t, type, isFull⟩
    · rw [same]
      exact ⟨TouchesOnly.refl originals₃.steady, fun y u _ free set => absurd free set⟩
  refine ⟨made, new, fun y hc => ⟨fun x mem => ?_, (fresh y hc).2⟩, ⟨ins, hins, patches₂⟩,
    ⟨outs, houts, patches₃⟩, owned.1, owned.2, copyData_only owned.1.steady (fun y hc => hc)
      round.data⟩
  obtain ⟨g, hg⟩ := copying.stored x y mem
  cases (fresh y hc).1.symm.trans hg

theorem Stages.last (_ : Stages refs ss place m₀ els element copies c m m₁ m₂ m₃ m₄ m') :
    ∀ y, c = some y → ∃ x, (x, some y) ∈ copies ++ [(element, c)] := fun _ hc =>
  ⟨element, List.mem_append_right _ (hc ▸ List.mem_singleton_self _)⟩

theorem Stages.originals (stages : Stages refs ss place m₀ els element copies c m m₁ m₂ m₃ m₄ m')
    (originals : Originals refs els m₀ m) : Originals refs els m₀ m₁ ∧ Originals refs els m₀ m₂ ∧
      Originals refs els m₀ m₃ ∧ Originals refs els m₀ m₄ ∧ Originals refs els m₀ m' := by
  have last := stages.last
  have earlier : ∀ y, (∃ x, (x, some y) ∈ copies) → ∃ x, (x, some y) ∈ copies ++ [(element, c)] :=
    fun _ => Exists.imp fun _ mem => List.mem_append_left _ mem
  obtain ⟨ins, -, patches₂⟩ := stages.ins
  obtain ⟨outs, -, patches₃⟩ := stages.outs
  have originals₁ := originals.only stages.new last nofun stages.made
  have originals₂ := originals₁.only stages.new last earlier patches₂.only
  have originals₃ := originals₂.only stages.new last earlier patches₃.only
  have originals₄ := originals₃.only stages.new last last stages.own
  exact ⟨originals₁, originals₂, originals₃, originals₄,
    originals₄.only stages.new last nofun stages.data⟩

theorem Copying.round (copying : Copying refs place els m₀ m copies)
    (order : InOrder place m₀ els copies element)
    (stages : Stages refs ss place m₀ els element copies c m m₁ m₂ m₃ m₄ m') :
    Copying refs place els m₀ m' (copies ++ [(element, c)]) := by
  obtain ⟨originals₁, originals₂, originals₃, originals₄, originals'⟩ :=
    stages.originals copying.originals
  obtain ⟨ins, hins, patches₂⟩ := stages.ins
  obtain ⟨outs, houts, patches₃⟩ := stages.outs
  have persists : Persists m₁ m' := patches₂.only.persists.trans
    (patches₃.only.persists.trans (stages.own.persists.trans stages.data.persists))
  refine ⟨originals', stages.new, fun x y mem => ?_, fun x x' y mem mem' => ?_,
    fun x y s mem set => ?_⟩
  · obtain mem | mem := List.mem_append.mp mem
    · obtain ⟨g, hg⟩ := copying.stored x y mem
      obtain ⟨g', hg', -⟩ := (stages.made.persists.trans persists).addrs hg
      exact ⟨g', hg'⟩
    · obtain ⟨-, same⟩ := Prod.mk.inj (List.mem_singleton.mp mem)
      obtain ⟨-, ⟨g, hg⟩, -⟩ := stages.free y same.symm
      obtain ⟨g', hg', -⟩ := persists.addrs hg
      exact ⟨g', hg'⟩
  · obtain mem | mem := List.mem_append.mp mem
    · obtain mem' | mem' := List.mem_append.mp mem'
      · exact copying.inj x x' y mem mem'
      · obtain ⟨-, same⟩ := Prod.mk.inj (List.mem_singleton.mp mem')
        exact absurd mem ((stages.free y same.symm).1 x)
    · obtain ⟨rfl, same⟩ := Prod.mk.inj (List.mem_singleton.mp mem)
      obtain mem' | mem' := List.mem_append.mp mem'
      · exact absurd mem' ((stages.free y same.symm).1 x')
      · exact (Prod.mk.inj (List.mem_singleton.mp mem')).1.symm
  · rw [stages.data.ends y s id] at set
    obtain mem | mem := List.mem_append.mp mem
    · have other : c ≠ some y := fun hc => (stages.free y hc).1 x mem
      rw [stages.own.ends y s other] at set
      have hit : ∀ {arcs m}, Originals refs els m₀ m → metaArcs ss s m element = some arcs →
          HitBy place element copies arcs y → Full m₀ x ∨
            ∃ e ∈ (copies ++ [(element, c)]).map Prod.fst, place x < place e ∧
              m₀.endOf x s = some e := by
        intro arcs m originals harcs hit
        obtain ⟨x', mem', ends, -⟩ := hits_original originals order harcs hit
        obtain rfl := copying.inj x x' y mem mem'
        exact .inr ⟨element, by simp, order.before _ mem, ends⟩
      by_cases atBeg : s = .beg ∧ HitBy place element copies outs y
      · obtain ⟨rfl, atBeg⟩ := atBeg
        exact hit originals₂ houts atBeg
      · rw [patches₃.ends y s atBeg] at set
        by_cases atFin : s = .fin ∧ HitBy place element copies ins y
        · obtain ⟨rfl, atFin⟩ := atFin
          exact hit originals₁ hins atFin
        · rw [patches₂.ends y s atFin, stages.made.ends y s id] at set
          refine (copying.own x y s mem set).imp_right ?_
          rintro ⟨e, he, rest⟩
          exact ⟨e, by simp [he], rest⟩
    · obtain ⟨rfl, same⟩ := Prod.mk.inj (List.mem_singleton.mp mem)
      obtain ⟨unused, -, free⟩ := stages.free y same.symm
      refine .inl (stages.full y s same.symm ?_ set)
      have miss : ∀ {arcs m s}, Originals refs els m₀ m → metaArcs ss s m x = some arcs →
          ¬HitBy place x copies arcs y := by
        intro arcs m s originals harcs hit
        obtain ⟨x', mem', -⟩ := hits_original originals order harcs hit
        exact unused x' mem'
      rw [patches₃.ends y s fun there => miss originals₂ houts there.2,
        patches₂.ends y s fun there => miss originals₁ hins there.2, free s]

theorem Copying.start (steady : Steady ⟨m₀, refs⟩) : Copying refs place els m₀ m₀ [] where
  originals := ⟨steady, steady, Persists.refl m₀, fun _ _ _ _ => rfl, fun _ _ type _ => type,
    fun _ _ _ => rfl⟩
  new _ _ mem := nomatch mem
  stored _ _ mem := nomatch mem
  inj _ _ _ mem := nomatch mem
  own _ _ _ mem := nomatch mem

theorem copyAll_rule {P : Memory → Copies → Prop} {rest : List Addr}
    (sorted : els.Pairwise fun a b => place a < place b)
    (stored : ∀ x ∈ els, ∃ g, m₀.addrs x = some g)
    (keeps : ∀ {m m₁ m₂ m₃ m₄ m' : Memory} {copies : Copies} {element : Addr} {c : Option Addr},
      Copying refs place els m₀ m copies → InOrder place m₀ els copies element →
      Round ss w place target element copies m c m₁ m₂ m₃ m₄ m' →
      Stages refs ss place m₀ els element copies c m m₁ m₂ m₃ m₄ m' → P m copies →
      P m' (copies ++ [(element, c)]))
    (copying : Copying refs place els m₀ m copies) (all : copies.map Prod.fst ++ rest = els)
    (holds : P m copies) (hr : copyAll ss w place target rest copies m = some (m', copies')) :
    Copying refs place els m₀ m' copies' ∧ copies'.map Prod.fst = els ∧ P m' copies' := by
  induction rest generalizing m copies with
  | nil =>
    cases hr
    exact ⟨copying, by simpa using all, holds⟩
  | cons element rest ih =>
    obtain ⟨⟨m₅, copies₁⟩, one, hr⟩ := Option.bind_eq_some_iff.mp hr
    obtain ⟨c, m₁, m₂, m₃, m₄, rfl, round⟩ := copyOne_some one
    rw [← all, List.pairwise_append] at sorted
    have order : InOrder place m₀ els copies element := by
      refine ⟨(List.pairwise_map (f := Prod.fst)).mp sorted.1, fun p hp => ?_, fun p hp => ?_, ?_,
        stored⟩
      · exact sorted.2.2 p.1 (List.mem_map_of_mem hp) element List.mem_cons_self
      · exact all ▸ List.mem_append_left _ (List.mem_map_of_mem hp)
      · exact all ▸ List.mem_append_right _ List.mem_cons_self
    have stages := copying.stages order round
    refine ih (copying.round order stages) ?_ (keeps copying order round stages holds) hr
    rw [← all, List.map_append, List.append_assoc]
    rfl

end Loop

end ScCore.Sets
