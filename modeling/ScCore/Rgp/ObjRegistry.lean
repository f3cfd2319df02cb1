import Mathlib.Data.List.Nodup

/-!
# Ids of objects

The ids of `rgp_obj_registry` are unsigned numbers of 32 bits. A freed id comes back by
lowering `max_id` or through the list of free ids.
-/

namespace ScCore.Rgp

/-- The number of values of `rgp_object_id`. -/
def idRange : Nat := 4294967296

structure UidGenerator where
  maxId : Nat
  freeIds : List Nat

namespace UidGenerator

def getId (g : UidGenerator) : Nat × UidGenerator :=
  match g.freeIds with
  | id :: ids => (id, { g with freeIds := ids })
  | [] => (g.maxId, { g with maxId := (g.maxId + 1) % idRange })

def freeId (g : UidGenerator) (id : Nat) : UidGenerator :=
  if (g.maxId + (idRange - id)) % idRange = 1 then
    { g with maxId := (g.maxId + (idRange - 1)) % idRange }
  else { g with freeIds := g.freeIds ++ [id] }

theorem freeId_eq {g : UidGenerator} {id : Nat} (pos : 1 ≤ id) (lt : id < g.maxId)
    (bound : g.maxId < idRange) :
    g.freeId id = if g.maxId = id + 1 then { g with maxId := id }
      else { g with freeIds := g.freeIds ++ [id] } := by
  unfold idRange at bound
  have diff : (g.maxId + (idRange - id)) % idRange = g.maxId - id := by
    unfold idRange
    omega
  have lowered : (g.maxId + (idRange - 1)) % idRange = g.maxId - 1 := by
    unfold idRange
    omega
  rw [freeId, diff, lowered]
  by_cases top : g.maxId = id + 1
  · rw [if_pos top, if_pos (by omega), top, Nat.add_sub_cancel]
  · rw [if_neg top, if_neg (by omega)]

/-- The ids in use and the free ones, each of which is there once, are the numbers from 1 to
`maxId - 1`. -/
structure Partitions (g : UidGenerator) (used : Nat → Prop) : Prop where
  interval : ∀ id, (1 ≤ id ∧ id < g.maxId) ↔ (used id ∨ id ∈ g.freeIds)
  apart : ∀ id ∈ g.freeIds, ¬used id
  nodup : g.freeIds.Nodup

/-- `maxId` has not wrapped around. -/
def Bounded (g : UidGenerator) : Prop := 1 ≤ g.maxId ∧ g.maxId < idRange

variable {g : UidGenerator} {used used' : Nat → Prop} {id : Nat}

theorem Partitions.congr (h : g.Partitions used) (same : ∀ id, used id ↔ used' id) :
    g.Partitions used' := by
  obtain rfl : used = used' := funext fun id => propext (same id)
  exact h

theorem Partitions.getId (h : g.Partitions used) (bounded : g.Bounded)
    (room : g.freeIds = [] → g.maxId + 1 < idRange) :
    ¬used g.getId.1 ∧ g.getId.2.Bounded ∧
      g.getId.2.Partitions fun id => id = g.getId.1 ∨ used id := by
  obtain ⟨interval, apart, nodup⟩ := h
  obtain ⟨maxId, freeIds⟩ := g
  cases freeIds with
  | cons id ids =>
    rw [List.nodup_cons] at nodup
    refine ⟨apart id List.mem_cons_self, bounded, fun id' => ?_, fun id' free => ?_, nodup.2⟩
    · refine (interval id').trans ?_
      rw [List.mem_cons]
      exact or_left_comm.trans or_assoc.symm
    · rintro (rfl | used)
      · exact nodup.1 free
      · exact apart id' (List.mem_cons_of_mem _ free) used
  | nil =>
    have next : (maxId + 1) % idRange = maxId + 1 := Nat.mod_eq_of_lt (room rfl)
    simp only [UidGenerator.getId, next]
    simp only [List.not_mem_nil, or_false] at interval
    refine ⟨fun used => Nat.lt_irrefl _ ((interval _).mpr used).2,
      ⟨Nat.le_add_left 1 _, room rfl⟩, fun id' => ?_, nofun, List.nodup_nil⟩
    have pos : 1 ≤ maxId := bounded.1
    simp only [← interval, List.not_mem_nil, or_false]
    omega

theorem Partitions.freeId (h : g.Partitions used) (bounded : g.Bounded) (there : used id) :
    (g.freeId id).Bounded ∧ (g.freeId id).Partitions fun id' => id' ≠ id ∧ used id' := by
  obtain ⟨pos, lt⟩ := (h.interval id).mpr (.inl there)
  have kept : id ∉ g.freeIds := fun free => h.apart id free there
  rw [freeId_eq pos lt bounded.2]
  split
  · next top =>
    refine ⟨⟨pos, Nat.lt_trans lt bounded.2⟩, fun id' => ?_,
      fun id' free used => h.apart id' free used.2, h.nodup⟩
    by_cases same : id' = id
    · simp [same, kept]
    · have interval := h.interval id'
      simp only [ne_eq, same, not_false_eq_true, true_and, ← interval]
      omega
  · refine ⟨bounded, fun id' => ?_, fun id' free => ?_, ?_⟩
    · by_cases same : id' = id
      · simp [same, pos, lt]
      · simp [same, h.interval id']
    · rintro ⟨other, used⟩
      rcases List.mem_append.mp free with free | free
      · exact h.apart id' free used
      · exact other (List.mem_singleton.mp free)
    · exact h.nodup.append (List.nodup_singleton _) (List.disjoint_singleton.mpr kept)

end UidGenerator

structure ObjRegistry (Obj : Type) where
  gen : UidGenerator
  obj2uid : Obj → Option Nat
  uid2obj : Nat → Option Obj

inductive RegistryCall (Obj : Type) where
  | get (obj : Option Obj)
  | unregister (obj : Option Obj)

namespace ObjRegistry

variable {Obj : Type} [DecidableEq Obj]

def initial : ObjRegistry Obj := ⟨⟨1, []⟩, fun _ => none, fun _ => none⟩

/-- `get` of an object, which registers it. `insert` leaves an entry as it is. -/
def get (r : ObjRegistry Obj) : Option Obj → Nat × ObjRegistry Obj
  | none => (0, r)
  | some obj =>
      match r.obj2uid obj with
      | some uid => (uid, r)
      | none =>
          let (uid, gen) := r.gen.getId
          (uid, ⟨gen, Function.update r.obj2uid obj (some uid),
            Function.update r.uid2obj uid ((r.uid2obj uid).or (some obj))⟩)

/-- `unregister`; the assertion may fail. -/
def unregister (r : ObjRegistry Obj) : Option Obj → Option (ObjRegistry Obj)
  | none => some r
  | some obj =>
      match r.obj2uid obj with
      | none => some r
      | some uid =>
          if (r.uid2obj uid).isSome then
            some ⟨r.gen.freeId uid, Function.update r.obj2uid obj none,
              Function.update r.uid2obj uid none⟩
          else none

def exec (r : ObjRegistry Obj) : RegistryCall Obj → Option (ObjRegistry Obj)
  | .get obj => some (r.get obj).2
  | .unregister obj => r.unregister obj

def run (r : ObjRegistry Obj) : List (RegistryCall Obj) → Option (ObjRegistry Obj)
  | [] => some r
  | call :: calls => (r.exec call).bind fun r => r.run calls

/-- The maps are inverse, and the generator knows the ids in use. -/
structure Consistent (r : ObjRegistry Obj) : Prop where
  inverse : ∀ obj uid, r.obj2uid obj = some uid ↔ r.uid2obj uid = some obj
  ids : r.gen.Partitions fun uid => (r.uid2obj uid).isSome = true

/-- A new object finds a freed id, or `maxId` can grow. -/
def Room (r : ObjRegistry Obj) : RegistryCall Obj → Prop
  | .get (some obj) => r.obj2uid obj = none → r.gen.freeIds = [] → r.gen.maxId + 1 < idRange
  | _ => True

inductive Reached : ObjRegistry Obj → Prop where
  | initial : Reached initial
  | step {r r' : ObjRegistry Obj} {call : RegistryCall Obj} :
      Reached r → r.Room call → r.exec call = some r' → Reached r'

variable {r r' : ObjRegistry Obj} {obj : Obj} {uid : Nat}

theorem inverse_insert (inverse : ∀ obj uid, r.obj2uid obj = some uid ↔ r.uid2obj uid = some obj)
    (new : r.obj2uid obj = none) (unused : r.uid2obj uid = none) (obj' : Obj) (uid' : Nat) :
    Function.update r.obj2uid obj (some uid) obj' = some uid' ↔
      Function.update r.uid2obj uid ((r.uid2obj uid).or (some obj)) uid' = some obj' := by
  rw [unused, Option.none_or]
  by_cases hobj : obj' = obj
  · rw [hobj, Function.update_self, Option.some.injEq]
    by_cases huid : uid' = uid
    · rw [huid, Function.update_self]
      exact iff_of_true rfl rfl
    · rw [Function.update_of_ne huid, ← inverse, new]
      exact iff_of_false (Ne.symm huid) nofun
  · rw [Function.update_of_ne hobj]
    by_cases huid : uid' = uid
    · rw [huid, Function.update_self, inverse, unused, Option.some.injEq]
      exact iff_of_false nofun (Ne.symm hobj)
    · rw [Function.update_of_ne huid]
      exact inverse _ _

theorem inverse_erase (inverse : ∀ obj uid, r.obj2uid obj = some uid ↔ r.uid2obj uid = some obj)
    (registered : r.obj2uid obj = some uid) (obj' : Obj) (uid' : Nat) :
    Function.update r.obj2uid obj none obj' = some uid' ↔
      Function.update r.uid2obj uid none uid' = some obj' := by
  have used := (inverse _ _).mp registered
  by_cases hobj : obj' = obj
  · rw [hobj, Function.update_self]
    refine iff_of_false nofun fun h => ?_
    by_cases huid : uid' = uid
    · rw [huid, Function.update_self] at h
      cases h
    · rw [Function.update_of_ne huid, ← inverse, registered] at h
      exact huid (Option.some.inj h).symm
  · rw [Function.update_of_ne hobj]
    by_cases huid : uid' = uid
    · rw [huid, Function.update_self, inverse, used, Option.some.injEq]
      exact iff_of_false (Ne.symm hobj) nofun
    · rw [Function.update_of_ne huid]
      exact inverse _ _

theorem Consistent.registers (h : r.Consistent) (bounded : r.gen.Bounded)
    (new : r.obj2uid obj = none) (room : r.gen.freeIds = [] → r.gen.maxId + 1 < idRange) :
    (r.get (some obj)).2.Consistent ∧ (r.get (some obj)).2.gen.Bounded := by
  obtain ⟨unused, bounded, ids⟩ := h.ids.getId bounded room
  rw [Option.not_isSome_iff_eq_none] at unused
  simp only [get, new]
  refine ⟨⟨inverse_insert h.inverse new unused, ids.congr fun uid => ?_⟩, bounded⟩
  by_cases same : uid = r.gen.getId.1
  · simp [same, unused]
  · simp [same]

theorem Consistent.unregisters (h : r.Consistent) (bounded : r.gen.Bounded)
    (registered : r.obj2uid obj = some uid) :
    Consistent ⟨r.gen.freeId uid, Function.update r.obj2uid obj none,
      Function.update r.uid2obj uid none⟩ ∧ (r.gen.freeId uid).Bounded := by
  have used := (h.inverse _ _).mp registered
  obtain ⟨bounded, ids⟩ := h.ids.freeId bounded (Option.isSome_iff_exists.mpr ⟨_, used⟩)
  refine ⟨⟨inverse_erase h.inverse registered, ids.congr fun uid' => ?_⟩, bounded⟩
  by_cases same : uid' = uid
  · simp [same]
  · simp [same]

theorem Consistent.exec (h : r.Consistent) (bounded : r.gen.Bounded) (call : RegistryCall Obj)
    (room : r.Room call) : ∃ r', r.exec call = some r' ∧ r'.Consistent ∧ r'.gen.Bounded := by
  cases call with
  | get obj =>
    refine ⟨_, rfl, ?_⟩
    cases obj with
    | none => exact ⟨h, bounded⟩
    | some obj =>
      cases hobj : r.obj2uid obj with
      | none => exact h.registers bounded hobj (room hobj)
      | some uid =>
        simp only [get, hobj]
        exact ⟨h, bounded⟩
  | unregister obj =>
    cases obj with
    | none => exact ⟨r, rfl, h, bounded⟩
    | some obj =>
      simp only [ObjRegistry.exec, unregister]
      cases hobj : r.obj2uid obj with
      | none => exact ⟨r, rfl, h, bounded⟩
      | some uid =>
        have used := (h.inverse _ _).mp hobj
        exact ⟨_, if_pos (Option.isSome_iff_exists.mpr ⟨_, used⟩), h.unregisters bounded hobj⟩

theorem Reached.consistent (reached : r.Reached) : r.Consistent ∧ r.gen.Bounded := by
  induction reached with
  | initial =>
    refine ⟨⟨fun _ _ => iff_of_false nofun nofun, fun id => ?_, nofun, List.nodup_nil⟩,
      Nat.le_refl 1, ?_⟩
    · exact iff_of_false (fun h => Nat.not_lt_of_le h.1 h.2) (by rintro (h | h) <;> cases h)
    · exact (by decide : 1 < idRange)
  | step _ room hexec ih =>
    obtain ⟨r', h, consistent⟩ := ih.1.exec ih.2 _ room
    cases h.symm.trans hexec
    exact consistent

theorem exec_keeps {call : RegistryCall Obj} (h : r.exec call = some r')
    (registered : r.obj2uid obj = some uid) (other : call ≠ .unregister (some obj)) :
    r'.obj2uid obj = some uid := by
  cases call with
  | get obj' =>
    cases h
    cases obj' with
    | none => exact registered
    | some obj' =>
      cases h' : r.obj2uid obj' with
      | some uid' => simpa only [get, h'] using registered
      | none =>
        have ne : obj ≠ obj' := by
          rintro rfl
          cases registered.symm.trans h'
        simpa only [get, h', Function.update_of_ne ne] using registered
  | unregister obj' =>
    cases obj' with
    | none => exact Option.some.inj h ▸ registered
    | some obj' =>
      have ne : obj ≠ obj' := fun same => other (same ▸ rfl)
      simp only [exec, unregister] at h
      split at h
      · exact Option.some.inj h ▸ registered
      · split at h
        · cases h
          simpa only [Function.update_of_ne ne] using registered
        · cases h

theorem run_gets (n : Nat) (h : n < idRange) : ∃ r : ObjRegistry Nat,
    initial.run ((List.range n).map fun obj => .get (some obj)) = some r ∧
      r.gen = ⟨(n + 1) % idRange, []⟩ ∧
      ∀ obj, r.obj2uid obj = if obj < n then some (obj + 1) else none := by
  have append : ∀ (calls : List (RegistryCall Nat)) (call : RegistryCall Nat) (r : ObjRegistry Nat),
      r.run (calls ++ [call]) = (r.run calls).bind fun r => r.exec call := by
    intro calls call
    induction calls with
    | nil => exact fun r => Option.bind_fun_some _
    | cons c calls ih =>
      intro r
      simp only [List.cons_append, run, Option.bind_assoc]
      exact Option.bind_congr fun r' _ => ih r'
  induction n with
  | zero => exact ⟨_, rfl, rfl, fun obj => rfl⟩
  | succ n ih =>
    obtain ⟨r, hrun, hgen, hobj⟩ := ih (Nat.lt_of_succ_lt h)
    have new : r.obj2uid n = none := by rw [hobj, if_neg (Nat.lt_irrefl n)]
    have uid : (n + 1) % idRange = n + 1 := Nat.mod_eq_of_lt h
    refine ⟨(r.get (some n)).2, ?_, ?_, fun obj => ?_⟩
    · rw [List.range_succ, List.map_append, List.map_singleton, append, hrun, Option.bind_some,
        exec]
    · simp only [get, new, hgen, UidGenerator.getId, uid]
    · simp only [get, new, hgen, UidGenerator.getId, uid]
      by_cases same : obj = n
      · rw [same, Function.update_self, if_pos (Nat.lt_succ_self n)]
      · rw [Function.update_of_ne same, hobj]
        exact if_congr (by omega) rfl rfl

end ObjRegistry

end ScCore.Rgp
