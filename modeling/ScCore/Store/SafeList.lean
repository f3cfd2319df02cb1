import Mathlib.Data.List.Nodup

/-!
# Lists with safe iterators

`safe_list` with its items and iterators. A removed item stays in the ring until no iterator stands
on it.
-/

namespace ScCore.Store

/-- `safe_list`. The items that have not been freed come in the order of the ring. An iterator is
the item that it stands on; nothing stands for `head`. -/
structure SafeList where
  items : List Nat
  refcnt : Nat → Int
  dead : Nat → Bool
  made : Nat
  listRefcnt : Int
  iters : List (Option Nat)

/-- The calls. `insert` is before an item or an iterator, `iterator` is the constructor that gets the
list and an item, as in `end`. The others name their iterators by what they stand on. -/
inductive SafeCall where
  | prepend
  | insert (before : Option Nat)
  | insertAfter (after : Nat)
  | remove (item : Option Nat)
  | begin
  | iterator (ptr : Option Nat)
  | copy (iter : Option Nat)
  | assign (iter source : Option Nat)
  | gotoNext (iter : Option Nat)
  | gotoPrev (iter : Option Nat)
  | destroy (iter : Option Nat)

namespace SafeList

variable (s : SafeList)

/-- `ref_ptr`. Nothing is defined for an item that has been freed. -/
def refPtr : Option Nat → Option SafeList
  | none => some s
  | some x =>
      if x ∈ s.items then some { s with refcnt := Function.update s.refcnt x (s.refcnt x + 1) }
      else none

/-- `unref` of an item. -/
def unref (x : Nat) : Option SafeList :=
  if x ∈ s.items then
    let left := s.refcnt x - 1
    some { s with
      refcnt := Function.update s.refcnt x left
      items := if left = 0 then s.items.erase x else s.items }
  else none

def unrefPtr : Option Nat → Option SafeList
  | none => some s
  | some x => s.unref x

/-- `die` of an item. -/
def die (x : Nat) : Option SafeList :=
  { s with dead := Function.update s.dead x true }.unref x

/-- The items behind `head` or behind an item. -/
def behind (ring : List Nat) : Option Nat → List Nat
  | none => ring
  | some x => (ring.dropWhile (· ≠ x)).tail

/-- The first item of the ring behind `ptr` that is not dead, or `head`. -/
def skipDead (ring : List Nat) (ptr : Option Nat) : Option Nat :=
  (behind ring ptr).find? fun x => !s.dead x

/-- `goto_next` and, along the ring that is read backwards, `goto_prev`. -/
def gotoAlong (ring : List Nat) (ptr : Option Nat) : Option SafeList :=
  let next := s.skipDead ring ptr
  (s.refPtr next).bind fun s' => (s'.unrefPtr ptr).map fun s' =>
    { s' with iters := next :: s.iters.erase ptr }

/-- An item is made and put into the ring. -/
def putItem (before after : List Nat) : SafeList :=
  { s with
    items := before ++ s.made :: after
    refcnt := Function.update s.refcnt s.made 1
    dead := Function.update s.dead s.made false
    made := s.made + 1 }

def exec : SafeCall → Option SafeList
  | .prepend => some (s.putItem [] s.items)
  | .insert none => some (s.putItem s.items [])
  | .insert (some x) =>
      if x ∈ s.items then
        some (s.putItem (s.items.takeWhile (· ≠ x)) (s.items.dropWhile (· ≠ x)))
      else none
  | .insertAfter x =>
      if x ∈ s.items then
        some (s.putItem (s.items.takeWhile (· ≠ x) ++ [x]) (s.items.dropWhile (· ≠ x)).tail)
      else none
  | .remove none => some s
  | .remove (some x) => s.die x
  | .begin => (s.refPtr (s.skipDead s.items none)).map fun s' =>
      { s' with listRefcnt := s.listRefcnt + 1, iters := s.skipDead s.items none :: s.iters }
  | .iterator ptr => (s.refPtr ptr).map fun s' => { s' with iters := ptr :: s.iters }
  | .copy iter =>
      if iter ∈ s.iters then (s.refPtr iter).map fun s' =>
        { s' with listRefcnt := s.listRefcnt + 1, iters := iter :: s.iters }
      else none
  | .assign iter source =>
      if iter ∈ s.iters ∧ source ∈ s.iters then (s.refPtr source).map fun s' =>
        { s' with listRefcnt := s.listRefcnt + 1, iters := source :: s.iters.erase iter }
      else none
  | .gotoNext iter => if iter ∈ s.iters then s.gotoAlong s.items iter else none
  | .gotoPrev iter => if iter ∈ s.iters then s.gotoAlong s.items.reverse iter else none
  | .destroy iter =>
      if iter ∈ s.iters then (s.unrefPtr iter).map fun s' =>
        { s' with listRefcnt := s.listRefcnt - 1, iters := s.iters.erase iter }
      else none

/-- A new list. -/
def empty : SafeList := ⟨[], fun _ => 0, fun _ => false, 0, 1, []⟩

/-- From an iterator one comes over dead items to the next one, or to `head`. -/
def Leads (iter next : Option Nat) : Prop :=
  ∃ before skipped rest, s.items = before ++ iter.toList ++ skipped ++ next.toList ++ rest ∧
    (iter = none → before = []) ∧ (next = none → rest = []) ∧ (∀ x ∈ skipped, s.dead x = true) ∧
      ∀ x ∈ next, s.dead x = false

/-- The counts are right, what is removed is freed exactly when no iterator stands on it, and every
iterator can move on. -/
structure Safe : Prop where
  counts : ∀ x ∈ s.items, s.refcnt x = (if s.dead x then 0 else 1) + s.iters.count (some x)
  list : s.listRefcnt = 1 + s.iters.length
  freed : ∀ x < s.made, x ∉ s.items ↔ s.dead x = true ∧ some x ∉ s.iters
  moves : ∀ iter ∈ s.iters, ∃ next s', s.exec (.gotoNext iter) = some s' ∧ s.Leads iter next ∧
    s'.iters = next :: s.iters.erase iter

/-- No iterator is made as in `end`, none is assigned to, and nothing is removed twice. -/
def Allows : SafeCall → Prop
  | .iterator _ | .assign _ _ => False
  | .remove (some x) => s.dead x = false
  | _ => True

/-- The lists that such calls make of an empty one. -/
inductive Made : SafeList → Prop where
  | empty : Made empty
  | step {s s' : SafeList} {call : SafeCall} :
      Made s → s.Allows call → s.exec call = some s' → Made s'

/-- How often an item is held: once as long as it is not dead, and by each iterator on it. -/
def held (x : Nat) : Nat := (if s.dead x then 0 else 1) + s.iters.count (some x)

/-- The ring has the items that are held, with counts that say how often. -/
structure Counted (h : Nat → Nat) : Prop where
  nodup : s.items.Nodup
  made : ∀ x ∈ s.items, x < s.made
  ring : ∀ x < s.made, x ∈ s.items ↔ 0 < h x
  counts : ∀ x ∈ s.items, s.refcnt x = h x

/-- What the calls keep. -/
structure Inv : Prop where
  counted : s.Counted s.held
  known : ∀ x, some x ∈ s.iters → x < s.made
  list : s.listRefcnt = 1 + s.iters.length

variable {s} {s' : SafeList} {h h' : Nat → Nat} {ptr : Option Nat} {ring : List Nat} {x : Nat}

/-! ## References -/

theorem refPtr_spec (counted : s.Counted h) (known : ∀ x ∈ ptr, x ∈ s.items) :
    ∃ r, s.refPtr ptr = some { s with refcnt := r } ∧
      Counted { s with refcnt := r } fun y => h y + if ptr = some y then 1 else 0 := by
  cases ptr with
  | none => exact ⟨s.refcnt, rfl, counted.nodup, counted.made, counted.ring, counted.counts⟩
  | some x =>
      have hx := known x rfl
      refine ⟨_, if_pos hx, counted.nodup, counted.made, fun y hy => ?_, fun y hy => ?_⟩
      · rw [counted.ring y hy]
        by_cases hyx : x = y
        · subst hyx
          have := (counted.ring x hy).mp hx
          simp [this]
        · simp [hyx]
      · change Function.update s.refcnt x (s.refcnt x + 1) y = _
        rw [Function.update_apply]
        by_cases hyx : y = x
        · subst hyx
          simp [counted.counts y hy]
        · simp [hyx, Ne.symm hyx, counted.counts y hy]

theorem unref_spec (counted : s.Counted h) (hx : x ∈ s.items) : ∃ r i,
    s.unref x = some { s with refcnt := r, items := i } ∧
      Counted { s with refcnt := r, items := i } fun y => h y - if x = y then 1 else 0 := by
  have pos := (counted.ring x (counted.made x hx)).mp hx
  have hcount := counted.counts x hx
  have ring (y : Nat) : (y ∈ if s.refcnt x - 1 = 0 then s.items.erase x else s.items) ↔
      y ∈ s.items ∧ (x = y → h x ≠ 1) := by
    split
    · rw [counted.nodup.mem_erase_iff, and_comm]
      exact and_congr_right fun _ => ⟨fun hyx h => absurd h.symm hyx, fun h hyx => h hyx.symm
        (by omega)⟩
    · exact (and_iff_left fun _ => by omega).symm
  refine ⟨_, _, if_pos hx, ?_, fun y hy => ?_, fun y hy => ?_, fun y hy => ?_⟩
  · dsimp only
    split
    · exact counted.nodup.erase x
    · exact counted.nodup
  · exact counted.made y ((ring y).mp hy).1
  · refine (ring y).trans ?_
    rw [counted.ring y hy]
    split
    · next hxy =>
        subst hxy
        simp only [forall_const]
        omega
    · next hxy => simp [hxy]
  · have hy := ((ring y).mp hy).1
    change Function.update s.refcnt x (s.refcnt x - 1) y = _
    rw [Function.update_apply]
    by_cases hxy : y = x
    · subst hxy
      rw [if_pos rfl, if_pos rfl]
      omega
    · rw [if_neg hxy, if_neg (Ne.symm hxy), Nat.sub_zero, counted.counts y hy]

theorem unrefPtr_spec (counted : s.Counted h) (known : ∀ x ∈ ptr, x ∈ s.items) : ∃ r i,
    s.unrefPtr ptr = some { s with refcnt := r, items := i } ∧
      Counted { s with refcnt := r, items := i } fun y => h y - if ptr = some y then 1 else 0 := by
  cases ptr with
  | none => exact ⟨_, _, rfl, counted.nodup, counted.made, counted.ring, counted.counts⟩
  | some x =>
      obtain ⟨r, i, heq, counted⟩ := unref_spec counted (known x rfl)
      simp only [Option.some.injEq]
      exact ⟨r, i, heq, counted⟩

theorem Counted.congr (counted : s.Counted h) (items : s'.items = s.items)
    (refcnt : s'.refcnt = s.refcnt) (made : s'.made = s.made) (same : ∀ x < s.made, h x = h' x) :
    s'.Counted h' := by
  obtain ⟨hnodup, hmade, hring, hcounts⟩ := counted
  refine ⟨items ▸ hnodup, ?_, ?_, ?_⟩
  · rw [items, made]
    exact hmade
  · rw [items, made]
    exact fun x hx => same x hx ▸ hring x hx
  · rw [items, refcnt]
    exact fun x hx => same x (hmade x hx) ▸ hcounts x hx

theorem behind_spec (known : ∀ x ∈ ptr, x ∈ ring) : ∃ before, ring = before ++ ptr.toList ++
    behind ring ptr ∧ (ptr = none → before = []) := by
  cases ptr with
  | none => exact ⟨[], rfl, fun _ => rfl⟩
  | some x =>
      obtain ⟨before, after, rfl, new⟩ := List.eq_append_cons_of_mem (known x rfl)
      refine ⟨before, ?_, nofun⟩
      rw [behind, List.dropWhile_append_of_pos (fun y hy => ?_), List.dropWhile_cons_of_neg
        (by simp),
        List.tail_cons, Option.toList_some, List.append_assoc, List.singleton_append]
      simpa using fun h : y = x => new (h ▸ hy)

/-! ## One call -/

namespace Inv

theorem known_iter (inv : s.Inv) (iter : ptr ∈ s.iters) : ∀ x ∈ ptr, x ∈ s.items := by
  rintro x rfl
  refine (inv.counted.ring x (inv.known x iter)).mpr ?_
  have := List.count_pos_iff.mpr iter
  rw [held]
  omega

theorem skipDead_mem (known : ∀ x ∈ ptr, x ∈ ring) : ∀ x ∈ s.skipDead ring ptr, x ∈ ring := by
  intro x hx
  obtain ⟨before, hring, -⟩ := behind_spec known
  rw [hring]
  exact List.mem_append_right _ (List.mem_of_find?_eq_some hx)

theorem hold (inv : s.Inv) (known : ∀ x ∈ ptr, x ∈ s.items) : ∃ r, s.refPtr ptr =
    some { s with refcnt := r } ∧
      Inv { s with refcnt := r, listRefcnt := s.listRefcnt + 1, iters := ptr :: s.iters } := by
  obtain ⟨r, heq, counted⟩ := refPtr_spec inv.counted known
  refine ⟨r, heq, counted.congr rfl rfl rfl fun y _ => ?_, fun x hx => ?_, ?_⟩
  · simp only [held, List.count_cons, beq_iff_eq, Nat.add_assoc]
  · rcases List.mem_cons.mp hx with rfl | hx
    · exact inv.counted.made x (known x rfl)
    · exact inv.known x hx
  · have := inv.list
    simp only [List.length_cons]
    omega

theorem release (inv : s.Inv) (iter : ptr ∈ s.iters) : ∃ r i, s.unrefPtr ptr =
    some { s with refcnt := r, items := i } ∧ Inv { s with
      refcnt := r, items := i, listRefcnt := s.listRefcnt - 1, iters := s.iters.erase ptr } := by
  obtain ⟨r, i, heq, counted⟩ := unrefPtr_spec inv.counted (inv.known_iter iter)
  refine ⟨r, i, heq, counted.congr rfl rfl rfl fun y _ => ?_, fun x hx => ?_, ?_⟩
  · simp only [held, List.count_erase, beq_iff_eq]
    have := List.count_pos_iff.mpr iter
    by_cases here : ptr = some y
    · rw [here] at this
      simp only [here, if_pos]
      omega
    · simp only [here, if_false, Nat.sub_zero]
  · exact inv.known x (List.mem_of_mem_erase hx)
  · have := inv.list
    have := List.length_pos_of_mem iter
    simp only [List.length_erase_of_mem iter]
    omega

theorem gotoAlong (inv : s.Inv) (iter : ptr ∈ s.iters) (perm : ∀ x, x ∈ ring ↔ x ∈ s.items) :
    ∃ s', s.gotoAlong ring ptr = some s' ∧ s'.Inv ∧
      s'.iters = s.skipDead ring ptr :: s.iters.erase ptr := by
  have known := inv.known_iter iter
  obtain ⟨next, hnext⟩ : ∃ next, next = s.skipDead ring ptr := ⟨_, rfl⟩
  have found : ∀ x ∈ next, x ∈ s.items := by
    rw [hnext]
    exact fun x hx => (perm x).mp (skipDead_mem (fun x hx => (perm x).mpr (known x hx)) x hx)
  obtain ⟨r, href, counted⟩ := refPtr_spec inv.counted found
  obtain ⟨r', i, hunref, counted⟩ := unrefPtr_spec counted known
  rw [SafeList.gotoAlong, ← hnext]
  refine ⟨{ s with refcnt := r', items := i, iters := next :: s.iters.erase ptr }, ?_,
    ⟨counted.congr rfl rfl rfl fun y _ => ?_, fun x hx => ?_, ?_⟩, rfl⟩
  · rw [href, Option.bind_some, hunref, Option.map_some]
  · simp only [held, List.count_cons, List.count_erase, beq_iff_eq]
    have := List.count_pos_iff.mpr iter
    by_cases here : ptr = some y
    · rw [here] at this
      simp only [here, if_pos]
      omega
    · simp only [here, if_false, Nat.sub_zero, Nat.add_assoc]
  · rcases List.mem_cons.mp hx with hx | hx
    · exact inv.counted.made x (found x hx.symm)
    · exact inv.known x (List.mem_of_mem_erase hx)
  · have := inv.list
    have := List.length_pos_of_mem iter
    simp only [List.length_cons, List.length_erase_of_mem iter]
    omega

theorem putItem (inv : s.Inv) {before after : List Nat} (same : before ++ after = s.items) :
    (s.putItem before after).Inv := by
  obtain ⟨⟨hnodup, hmade, hring, hcounts⟩, hknown, hlist⟩ := inv
  have new : s.made ∉ s.items := fun h => Nat.lt_irrefl _ (hmade _ h)
  have loose : s.iters.count (some s.made) = 0 :=
    List.count_eq_zero.mpr fun h => Nat.lt_irrefl _ (hknown _ h)
  have mem (x : Nat) : x ∈ before ++ s.made :: after ↔ x = s.made ∨ x ∈ s.items := by
    rw [← same]
    simp only [List.mem_append, List.mem_cons]
    tauto
  have held (x : Nat) : (s.putItem before after).held x =
      if x = s.made then 1 else s.held x := by
    change (if Function.update s.dead s.made false x then 0 else 1) + s.iters.count (some x) = _
    rw [Function.update_apply]
    split
    · next h => rw [h, loose]; rfl
    · rfl
  refine ⟨⟨?_, fun x hx => ?_, fun x hx => ?_, fun x hx => ?_⟩, fun x hx => ?_, hlist⟩
  · exact List.nodup_middle.mpr (List.nodup_cons.mpr ⟨same ▸ new, same ▸ hnodup⟩)
  · rcases (mem x).mp hx with rfl | hx
    · exact Nat.lt_succ_self _
    · exact Nat.lt_succ_of_lt (hmade x hx)
  · refine (mem x).trans ?_
    rw [held]
    split
    · next h => simp [h]
    · next h =>
        rw [or_iff_right h]
        exact hring x (Nat.lt_of_le_of_ne (Nat.le_of_lt_succ hx) h)
  · change Function.update s.refcnt s.made 1 x = _
    rw [held, Function.update_apply]
    split
    · rfl
    · next h => exact hcounts x (((mem x).mp hx).resolve_left h)
  · exact Nat.lt_succ_of_lt (hknown x hx)

theorem remove (inv : s.Inv) (alive : s.dead x = false) (h : s.die x = some s') : s'.Inv := by
  have hx : x ∈ s.items := by
    by_contra out
    rw [die, unref, if_neg out] at h
    cases h
  have counted : Counted { s with dead := Function.update s.dead x true } s.held :=
    inv.counted.congr rfl rfl rfl fun _ _ => rfl
  obtain ⟨r, i, heq, counted⟩ := unref_spec counted hx
  obtain rfl := Option.some.inj (heq.symm.trans h)
  refine ⟨counted.congr rfl rfl rfl fun y _ => ?_, inv.known, inv.list⟩
  simp only [held, Function.update_apply]
  by_cases hxy : x = y
  · subst hxy
    simp [alive]
  · simp [hxy, Ne.symm hxy]

theorem exec (inv : s.Inv) {call : SafeCall} (allows : s.Allows call)
    (h : s.exec call = some s') : s'.Inv := by
  have parts (x : Nat) (hx : x ∈ s.items) : ∃ before after, s.items = before ++ x :: after ∧
      s.items.takeWhile (· ≠ x) = before ∧ s.items.dropWhile (· ≠ x) = x :: after := by
    obtain ⟨before, after, heq, new⟩ := List.eq_append_cons_of_mem hx
    have others : ∀ y ∈ before, decide (y ≠ x) = true :=
      fun y hy => decide_eq_true fun h : y = x => new (h ▸ hy)
    refine ⟨before, after, heq, ?_, ?_⟩
    · rw [heq, List.takeWhile_append_of_pos others, List.takeWhile_cons_of_neg (by simp),
        List.append_nil]
    · rw [heq, List.dropWhile_append_of_pos others, List.dropWhile_cons_of_neg (by simp)]
  cases call with
  | prepend =>
      obtain rfl := Option.some.inj h
      exact inv.putItem rfl
  | insert before =>
      cases before with
      | none =>
          obtain rfl := Option.some.inj h
          exact inv.putItem (List.append_nil _)
      | some x =>
          obtain ⟨hx, h⟩ := Option.ite_none_right_eq_some.mp h
          obtain rfl := Option.some.inj h
          exact inv.putItem List.takeWhile_append_dropWhile
  | insertAfter x =>
      obtain ⟨hx, h⟩ := Option.ite_none_right_eq_some.mp h
      obtain rfl := Option.some.inj h
      obtain ⟨before, after, heq, htake, hdrop⟩ := parts x hx
      refine inv.putItem ?_
      rw [htake, hdrop, heq, List.tail_cons, List.append_assoc, List.singleton_append]
  | remove item =>
      cases item with
      | none => rwa [← Option.some.inj h]
      | some x => exact inv.remove allows h
  | begin =>
      obtain ⟨r, heq, inv'⟩ := inv.hold (@skipDead_mem s none _ nofun)
      rw [SafeList.exec, heq] at h
      rwa [← Option.some.inj h]
  | copy iter =>
      obtain ⟨hiter, h⟩ := Option.ite_none_right_eq_some.mp h
      obtain ⟨r, heq, inv'⟩ := inv.hold (inv.known_iter hiter)
      rw [heq] at h
      rwa [← Option.some.inj h]
  | gotoNext iter =>
      obtain ⟨hiter, h⟩ := Option.ite_none_right_eq_some.mp h
      obtain ⟨s'', heq, inv', -⟩ := inv.gotoAlong hiter fun _ => Iff.rfl
      rwa [← Option.some.inj (heq.symm.trans h)]
  | gotoPrev iter =>
      obtain ⟨hiter, h⟩ := Option.ite_none_right_eq_some.mp h
      obtain ⟨s'', heq, inv', -⟩ := inv.gotoAlong hiter fun _ => List.mem_reverse
      rwa [← Option.some.inj (heq.symm.trans h)]
  | destroy iter =>
      obtain ⟨hiter, h⟩ := Option.ite_none_right_eq_some.mp h
      obtain ⟨r, i, heq, inv'⟩ := inv.release hiter
      rw [heq] at h
      rwa [← Option.some.inj h]
  | iterator | assign => cases allows

theorem leads (inv : s.Inv) (iter : ptr ∈ s.iters) : s.Leads ptr (s.skipDead s.items ptr) := by
  obtain ⟨before, hring, hnone⟩ := behind_spec (inv.known_iter iter)
  cases hnext : s.skipDead s.items ptr with
  | none =>
      refine ⟨before, behind s.items ptr, [], ?_, hnone, fun _ => rfl, fun x hx => ?_, nofun⟩
      · simpa using hring
      · simpa using List.find?_eq_none.mp hnext x hx
  | some x =>
      obtain ⟨alive, skipped, rest, heq, dead⟩ := List.find?_eq_some_iff_append.mp hnext
      refine ⟨before, skipped, rest, ?_, hnone, nofun, fun y hy => ?_, ?_⟩
      · rw [heq] at hring
        simpa using hring
      · simpa using dead y hy
      · rintro _ ⟨⟩
        simpa using alive

theorem safe (inv : s.Inv) : s.Safe := by
  refine ⟨fun x hx => ?_, inv.list, fun x hx => ?_, fun iter hiter => ?_⟩
  · rw [inv.counted.counts x hx, held]
    split <;> simp
  · rw [inv.counted.ring x hx, held]
    cases s.dead x <;> simp [List.count_eq_zero]
  · obtain ⟨s', heq, -, hiters⟩ := inv.gotoAlong hiter fun _ => Iff.rfl
    exact ⟨_, s', (if_pos hiter).trans heq, inv.leads hiter, hiters⟩

end Inv

theorem Made.inv (made : s.Made) : s.Inv := by
  induction made with
  | empty =>
      refine ⟨⟨List.nodup_nil, nofun, nofun, nofun⟩, nofun, rfl⟩
  | step _ allows h ih => exact ih.exec allows h

/-- Whatever is done with a list, its counts are right, and its iterators stay valid. -/
theorem list_safe (made : s.Made) : s.Safe := made.inv.safe

/-- An iterator stands on an item while it is removed. -/
theorem list_safe_removed : ∃ s, (empty.exec .prepend).bind (fun s => (s.exec .begin).bind
    fun s => s.exec (.remove (some 0))) = some s ∧ s.items = [0] ∧ s.Safe := by
  have first : Made (empty.putItem [] []) := @Made.step _ _ .prepend .empty trivial rfl
  have second := @Made.step _ _ .begin first trivial rfl
  exact ⟨_, rfl, by decide, list_safe (@Made.step _ _ (.remove (some 0)) second rfl rfl)⟩

/-- `end` makes an iterator that the list does not count. -/
theorem list_safe_fails : ∃ s, empty.exec (.iterator none) = some s ∧ ¬s.Safe :=
  ⟨_, rfl, fun safe => absurd safe.list (by decide)⟩

end SafeList

end ScCore.Store
