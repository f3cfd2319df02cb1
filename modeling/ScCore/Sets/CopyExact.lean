import ScCore.Sets.Copying
import ScCore.Store.CalmGen

/-!
# When a copy is isomorphic

The copy of a set is isomorphic exactly where every end that an arc of the set has lies in the
set and behind the arc, or the type of the arc has all the bits of the connector mask.
-/

namespace ScCore.Sets

open ScCore.Store ScCore.Search Memory

def copyEnd (copies : Copies) (e : Addr) : Addr := (copyOf copies e).getD e

structure IsCopy (m₀ m : Memory) (els : List Addr) (copies : Copies) : Prop where
  keys : copies.map Prod.fst = els
  made : ∀ x c, (x, c) ∈ copies → ∃ y, c = some y ∧ m₀.addrs y = none ∧ m.liveAddr y = true
  type : ∀ x y, (x, some y) ∈ copies → m.typeOf y = m₀.typeOf x
  content : ∀ x y, (x, some y) ∈ copies → contOf m y = contOf m₀ x
  ends : ∀ x y, (x, some y) ∈ copies → ∀ s, m.endOf y s = (m₀.endOf x s).map (copyEnd copies)
  apart : ∀ x x' y, (x, some y) ∈ copies → (x', some y) ∈ copies → x = x'
  originals : ∀ x g, m₀.addrs x = some g → m.liveAddr x = m₀.liveAddr x ∧
    m.typeOf x = m₀.typeOf x ∧ contOf m x = contOf m₀ x ∧ ∀ s, m.endOf x s = m₀.endOf x s

def Patchable (place : Addr → Nat) (m : Memory) (els : List Addr) : Prop :=
  ∀ x ∈ els, ∀ s e, m.endOf x s = some e → Full m x ∨ e ∈ els ∧ place x < place e

structure Allowed (ss : Session) (w : Waits) (target : SegId) (m : Memory) (els : List Addr) :
    Prop where
  opened : ss.opened target = true
  access : ∀ x ∈ els, ss.access m (some x) = some rvOk
  ends : ∀ x ∈ els, ∀ s e, m.endOf x s = some e → ss.access m (some e) = some rvOk
  verified : ∀ x ∈ els, ∀ t, m.typeOf x = some t → t.verify = some t
  plain : ∀ x ∈ els, ∀ e t, m.endOf x .beg = some e → m.typeOf e = some t →
    t.isConnector = false ∧ t &&& .undf = 0
  calm : ∀ m' a k ps, m.addrs a = none ∨ (∃ x ∈ els, ∃ s, m.endOf x s = some a) →
    w m' a k ps = false

section Necessary

variable {refs : Addr → Nat} {place : Addr → Nat} {m₀ m : Memory} {els : List Addr}
  {copies : Copies}

theorem Copying.patchable (copying : Copying refs place els m₀ m copies)
    (copied : IsCopy m₀ m els copies) : Patchable place m₀ els := by
  intro x hx s e hend
  rw [← copied.keys] at hx
  obtain ⟨⟨x, c⟩, mem, rfl⟩ := List.mem_map.mp hx
  obtain ⟨y, rfl, -⟩ := copied.made x c mem
  have ends := copied.ends x y mem s
  rw [hend, Option.map_some] at ends
  obtain full | ⟨e', he', before, same⟩ := copying.own x y s mem (by rw [ends]; nofun)
  · exact .inl full
  · obtain rfl := Option.some.inj (hend.symm.trans same)
    exact .inr ⟨copied.keys ▸ he', before⟩

end Necessary

section Sufficient

variable {refs : Addr → Nat} {ss : Session} {w : Waits} {place : Addr → Nat} {target : SegId}
  {element x y : Addr} {c : Option Addr} {copies : Copies} {s u : Endpoint}
  {m₀ m m' m₁ m₂ m₃ m₄ : Memory} {els : List Addr}

structure Kept (ss : Session) (m₀ m : Memory) (copies : Copies) : Prop where
  access : ∀ x y, (x, some y) ∈ copies → ss.access m (some y) = some rvOk
  type : ∀ x y, (x, some y) ∈ copies → m.typeOf y = m₀.typeOf x
  comes : ∀ x y s b, (x, some y) ∈ copies → m.endOf y s = some b →
    m₀.endOf x s = some b ∨ m₀.endOf x s ≠ none ∧ m₀.addrs b = none

structure Exact (ss : Session) (m₀ m : Memory) (copies : Copies) : Prop where
  kept : Kept ss m₀ m copies
  made : ∀ x c, (x, c) ∈ copies → ∃ y, c = some y
  content : ∀ x y, (x, some y) ∈ copies → contOf m y = contOf m₀ x
  copied : ∀ x y s e b, (x, some y) ∈ copies → m₀.endOf x s = some e → copyOf copies e = some b →
    m.endOf y s = some b
  stays : ∀ x y s e, (x, some y) ∈ copies → m₀.endOf x s = some e → copyOf copies e = none →
    Full m₀ x → m.endOf y s = some e

theorem isConnector_of_full {t : ScType} (full : t.isa .connectorMask = true) :
    t.isConnector = true := by
  rw [ScType.isa, beq_iff_eq] at full
  rw [ScType.isConnector, full]
  decide

theorem Allowed.types (allowed : Allowed ss w target m₀ els)
    (originals : Originals refs els m₀ m) {t : ScType} (type : m₀.typeOf y = some t) :
    m.typeOf y = some t := by
  refine originals.types y t type ?_
  by_cases begins : Begins m₀ els y
  · obtain ⟨x, hx, ends⟩ := begins
    exact .inr (.inl (allowed.plain x hx y t ends type).2)
  · exact .inr (.inr begins)

structure Fresh (m₀ : Memory) (els : List Addr) (copies : Copies) : Prop where
  new : New m₀ copies
  inj : ∀ x x' y, (x, some y) ∈ copies → (x', some y) ∈ copies → x = x'
  mem : ∀ x c, (x, c) ∈ copies → x ∈ els

theorem Fresh.typeOf (fresh : Fresh m₀ els copies) (allowed : Allowed ss w target m₀ els)
    (start : Inv (clientHolds refs) m₀) (stored : ∀ x ∈ els, ∃ t, m₀.typeOf x = some t)
    {ends : Addr → Prop} (only : TouchesOnly refs (roundTouches m₀ els copies c ends) m m')
    (mem : (x, some y) ∈ copies) (type : m.typeOf y = m₀.typeOf x) :
    m'.typeOf y = m₀.typeOf x := by
  obtain ⟨t, ht⟩ := stored x (fresh.mem x _ mem)
  rw [ht] at type ⊢
  refine only.types y t type (.inr ?_)
  by_cases begins : (roundTouches m₀ els copies c ends).begins y
  · obtain ⟨e, ⟨z, hz, hend⟩, same | mem'⟩ := begins
    · obtain ⟨-, -, -, -, -, live, -⟩ := start.endOf_some hend
      obtain ⟨g, hg, -⟩ := liveAddr_eq_true.mp live
      rw [← same, fresh.new x y mem] at hg
      cases hg
    · obtain rfl := fresh.inj x e y mem mem'
      exact .inl (allowed.plain z hz x t hend ht).2
  · exact .inr begins

theorem typeOf_access {a : Addr} (inv : Inv (clientHolds refs) m)
    (ok : ss.access m (some a) = some rvOk) : ∃ t, m.typeOf a = some t := by
  obtain ⟨g, hg, -⟩ := liveAddr_eq_true.mp (access_live ok)
  obtain ⟨el, hel, -⟩ := inv.own_stored hg
  exact ⟨el.type, by rw [Memory.typeOf, hg, Option.bind_some, hel, Option.map_some]⟩

theorem round_created (allowed : Allowed ss w target m₀ els)
    (originals : Originals refs els m₀ m) (mem : element ∈ els)
    (create : ∃ type rv, ss.getType m element = some type ∧
      ss.createEl m target type = some (m₁, c, rv)) :
    ∃ y, c = some y ∧ ss.access m₁ (some y) = some rvOk ∧ m₁.typeOf y = m₀.typeOf element := by
  obtain ⟨type, rv, htype, create⟩ := create
  obtain ⟨t, ht⟩ := typeOf_access originals.start.inv (allowed.access element mem)
  have access := Persists.access originals.persists (allowed.access element mem)
  obtain rfl : t = type :=
    Option.some.inj ((allowed.types originals ht).symm.trans (access_typeOf access htype))
  rw [createEl_eq allowed.opened (allowed.verified element mem t ht)] at create
  cases create
  have addr : (created m target t).addrs m.nextAddr =
      some ⟨target, m.nextElem, [], refcntBarrier, false, false, 0, fun _ => 0⟩ := by
    rw [created_addrs, if_pos rfl]
  exact ⟨m.nextAddr, rfl, access_ok.mpr ⟨_, addr, rfl, allowed.opened⟩, created_own.trans ht.symm⟩

theorem hit_of_end (originals : Originals refs els m₀ m) (allowed : Allowed ss w target m₀ els)
    (order : InOrder place m₀ els copies element) (nodup : (copies.map Prod.fst).Nodup)
    {arcs : List Addr} (harcs : metaArcs ss s m element = some arcs)
    (mem : (x, some y) ∈ copies) (ends : m₀.endOf x s = some element) :
    HitBy place element copies arcs y := by
  have inSet := order.mem _ mem
  obtain ⟨g, hg⟩ := order.stored x inSet
  have seen : Seen ss m element x := by
    obtain ⟨g', hg', -, opened⟩ :=
      access_ok.mp (Persists.access originals.persists (allowed.access x inSet))
    exact .inr ⟨g'.seg, by rw [segOf, hg', Option.map_some], opened⟩
  have there : x ∈ (metaArcs ss s m element).getD [] :=
    (mem_metaArcs (quiet_of_steady originals.steady)).mpr
      ⟨(originals.ends x g hg s).trans ends, seen⟩
  rw [harcs, Option.getD_some] at there
  exact ⟨x, there, order.before _ mem, (myFind_eq order.sorted).trans (copyOf_of_mem nodup mem)⟩

theorem Kept.calm (kept : Kept ss m₀ m copies) (allowed : Allowed ss w target m₀ els)
    (mem : (x, some y) ∈ copies) (inSet : x ∈ els) {b : Addr} (ends : m.endOf y u = some b)
    (n : Memory) (k : WaitType) (ps : List Addr) : w n b k ps = false := by
  obtain there | ⟨-, new⟩ := kept.comes x y u b mem ends
  · exact allowed.calm n b k ps (.inr ⟨x, inSet, u, there⟩)
  · exact allowed.calm n b k ps (.inl new)

theorem last_mem : (element, some y) ∈ copies ++ [(element, some y)] :=
  List.mem_append_right _ (List.mem_singleton_self _)

structure RoundOf (refs : Addr → Nat) (ss : Session) (w : Waits) (place : Addr → Nat)
    (target : SegId) (m₀ : Memory) (els : List Addr) (element : Addr) (copies : Copies)
    (y : Addr) : Prop where
  allowed : Allowed ss w target m₀ els
  patchable : Patchable place m₀ els
  order : InOrder place m₀ els copies element
  nodup : ((copies ++ [(element, some y)]).map Prod.fst).Nodup
  fresh : Fresh m₀ els (copies ++ [(element, some y)])
  start : Inv (clientHolds refs) m₀

section Facts

variable (rnd : RoundOf refs ss w place target m₀ els element copies y)

include rnd

theorem RoundOf.typed : ∀ x ∈ els, ∃ t, m₀.typeOf x = some t := fun x hx =>
  typeOf_access rnd.start (rnd.allowed.access x hx)

theorem RoundOf.nodup_old : (copies.map Prod.fst).Nodup :=
  (List.nodup_append.mp (List.map_append ▸ rnd.nodup)).1

theorem RoundOf.fresh_key : element ∉ copies.map Prod.fst := by
  intro mem
  obtain ⟨p, hp, same⟩ := List.mem_map.mp mem
  have before := rnd.order.before p hp
  rw [same] at before
  exact lt_irrefl _ before

variable {n n' : Memory}

theorem RoundOf.kept {ends : Addr → Prop}
    (only : TouchesOnly refs (roundTouches m₀ els (copies ++ [(element, some y)]) c ends) n n')
    (kept : Kept ss m₀ n (copies ++ [(element, some y)]))
    (comes : ∀ x z s b, (x, some z) ∈ copies ++ [(element, some y)] → n'.endOf z s = some b →
      n.endOf z s ≠ some b → m₀.endOf x s = some b ∨ m₀.endOf x s ≠ none ∧ m₀.addrs b = none) :
    Kept ss m₀ n' (copies ++ [(element, some y)]) where
  access x z mem := Persists.access only.persists (kept.access x z mem)
  type x z mem :=
    rnd.fresh.typeOf rnd.allowed rnd.start rnd.typed only mem (kept.type x z mem)
  comes x z s b mem ends := by
    by_cases same : n.endOf z s = some b
    · exact kept.comes x z s b mem same
    · exact comes x z s b mem ends same

theorem RoundOf.patched {arcs : List Addr} (originals : Originals refs els m₀ n)
    (kept : Kept ss m₀ n (copies ++ [(element, some y)]))
    (harcs : metaArcs ss s n element = some arcs)
    (patches : Patches refs (roundTouches m₀ els (copies ++ [(element, some y)]) (some y) fun z =>
      ∃ x, (x, some z) ∈ copies) s (some y) (HitBy place element copies arcs) n n')
    (hr : patchArcs ss w place element (some y) copies s arcs n = some n') :
    Kept ss m₀ n' (copies ++ [(element, some y)]) ∧
      ∀ x z, (x, some z) ∈ copies → m₀.endOf x s = some element → n'.endOf z s = some y := by
  have ends : ∀ z, HitBy place element copies arcs z → ∃ x, (x, some z) ∈ copies := by
    intro z hit
    obtain ⟨x, mem, -⟩ := hits_original originals rnd.order harcs hit
    exact ⟨x, mem⟩
  have begins : s = .beg → (∃ z, HitBy place element copies arcs z) → ∀ b, some y = some b →
      (roundTouches m₀ els (copies ++ [(element, some y)]) (some y) fun z =>
        ∃ x, (x, some z) ∈ copies).begins b := by
    rintro rfl ⟨z, hit⟩ b same
    obtain ⟨x, mem, hend, -⟩ := hits_original originals rnd.order harcs hit
    exact ⟨element, ⟨x, rnd.order.mem _ mem, hend⟩, .inr (same ▸ last_mem)⟩
  have there : ∀ z, HitBy place element copies arcs z → n'.endOf z s = some y := by
    refine patchArcs_there originals.steady ends begins (fun n₁ n₂ rv z before hit call => ?_) hr
    obtain ⟨x, mem, hend, -⟩ := hits_original originals rnd.order harcs hit
    have mem' : (x, some z) ∈ copies ++ [(element, some y)] := List.mem_append_left _ mem
    have inSet := rnd.order.mem _ mem
    obtain ⟨t, ht, connector⟩ := connector_of_end rnd.start hend
    have typeOf : ∀ {x z}, (x, some z) ∈ copies ++ [(element, some y)] →
        n₁.typeOf z = m₀.typeOf x := fun mem =>
      rnd.fresh.typeOf rnd.allowed rnd.start rnd.typed before.only mem (kept.type _ _ mem)
    refine setEnds_ok call (Persists.access before.only.persists (kept.access x z mem'))
      (fun type htype => ?_) (setPre_calm fun b hb k ps => ?_) (fun b hb => ?_) ?_
    · rw [typeOf mem', ht] at htype
      exact Option.some.inj htype ▸ connector
    · obtain same | ⟨u, other, hb⟩ | ⟨none, -⟩ := hb
      · exact rnd.allowed.calm n₁ b k ps
          (.inl (rnd.fresh.new element b (Option.some.inj same ▸ last_mem)))
      · rw [before.ends z u fun hit => other hit.1] at hb
        exact kept.calm rnd.allowed mem' inSet hb n₁ k ps
      · cases none
    · obtain rfl := Option.some.inj hb
      exact Persists.access before.only.persists (kept.access element _ last_mem)
    · rintro rfl b type same htype
      obtain rfl := Option.some.inj same
      rw [typeOf last_mem] at htype
      exact (rnd.allowed.plain x inSet element type hend htype).1
  constructor
  · refine rnd.kept patches.only kept fun x z u b mem set other => ?_
    by_cases hit : u = s ∧ HitBy place element copies arcs z
    · obtain ⟨rfl, hit⟩ := hit
      obtain ⟨x', mem', hend, -⟩ := hits_original originals rnd.order harcs hit
      obtain rfl := rnd.fresh.inj x x' z mem (List.mem_append_left _ mem')
      obtain rfl := Option.some.inj ((there z hit).symm.trans set)
      exact .inr ⟨by rw [hend]; nofun, rnd.fresh.new element _ last_mem⟩
    · exact absurd ((patches.ends z u hit).symm.trans set) other
  · intro x z mem hend
    exact there z (hit_of_end originals rnd.allowed rnd.order rnd.nodup_old harcs mem hend)

theorem RoundOf.newEnd {b : Addr} (h : copyOfEnd place element (copies ++ [(element, some y)])
    (m₀.endOf element s) = some b) :
    ∃ e, m₀.endOf element s = some e ∧ (b = e ∨ (e, some b) ∈ copies ++ [(element, some y)]) := by
  cases hend : m₀.endOf element s with
  | none =>
    rw [hend] at h
    cases h
  | some e =>
    rw [hend] at h
    exact ⟨e, rfl, copyOfEnd_some (rnd.order.sorted_append _) h⟩

section

variable (originals : Originals refs els m₀ n) (kept : Kept ss m₀ n (copies ++ [(element, some y)]))
include originals kept

theorem RoundOf.ownEnd {rv : Retval} (full : Full m₀ element) (free : n.endOf y s = none)
    (hr : ss.setEnds w s n (some y) (copyOfEnd place element (copies ++ [(element, some y)])
    (m₀.endOf element s)) = some (n', rv)) :
    Originals refs els m₀ n' ∧ Kept ss m₀ n' (copies ++ [(element, some y)]) ∧
      n'.endOf y s = copyOfEnd place element (copies ++ [(element, some y)])
        (m₀.endOf element s) ∧ ∀ u, u ≠ s → n'.endOf y u = n.endOf y u := by
  have only : TouchesOnly refs (roundTouches m₀ els (copies ++ [(element, some y)]) (some y)
      fun z => z = y) n n' := by
    refine only_setEnds originals.steady hr rfl ?_
    rintro rfl b hb
    obtain ⟨e, hend, there⟩ := rnd.newEnd hb
    exact ⟨e, ⟨element, rnd.order.element, hend⟩, there⟩
  have frame : ∀ z u, ¬(z = y ∧ u = s) → n'.endOf z u = n.endOf z u := by
    have exactly : TouchesOnly refs ⟨fun z u => z = y ∧ u = s, fun _ => True, fun _ => False⟩
        n n' := only_setEnds originals.steady hr ⟨rfl, rfl⟩ fun _ _ _ => trivial
    exact exactly.ends
  obtain ⟨t, type, isFull⟩ := full
  have typeOf : ∀ {x z}, (x, some z) ∈ copies ++ [(element, some y)] →
      n.typeOf z = m₀.typeOf x := fun mem => kept.type _ _ mem
  have ok : rv = rvOk := by
    refine setEnds_ok hr (kept.access element y last_mem) (fun t' htype => ?_)
      (setPre_calm fun b hb k ps => ?_) (fun b hb => ?_) ?_
    · rw [typeOf last_mem, type] at htype
      exact Option.some.inj htype ▸ isConnector_of_full isFull
    · obtain same | ⟨u, -, hb⟩ | ⟨-, set⟩ := hb
      · obtain ⟨e, hend, rfl | mem⟩ := rnd.newEnd same
        · exact rnd.allowed.calm n b k ps (.inr ⟨element, rnd.order.element, s, hend⟩)
        · exact rnd.allowed.calm n b k ps (.inl (rnd.fresh.new e b mem))
      · exact kept.calm rnd.allowed last_mem rnd.order.element hb n k ps
      · cases free.symm.trans set
    · obtain ⟨e, hend, rfl | mem⟩ := rnd.newEnd hb
      · exact Persists.access originals.persists
          (rnd.allowed.ends element rnd.order.element s b hend)
      · exact kept.access e b mem
    · rintro rfl b t' same htype
      obtain ⟨e, hend, there⟩ := rnd.newEnd same
      obtain ⟨te, hte⟩ := typeOf_access rnd.start
        (rnd.allowed.ends element rnd.order.element .beg e hend)
      have plain := rnd.allowed.plain element rnd.order.element e te hend hte
      obtain rfl : te = t' := by
        obtain rfl | mem := there
        · exact Option.some.inj ((rnd.allowed.types originals hte).symm.trans htype)
        · rw [typeOf mem, hte] at htype
          exact Option.some.inj htype
      exact plain.1
  obtain ⟨-, step, -⟩ := Inv.setEnds (h := clientHolds refs) originals.steady.inv (fun _ => rfl) hr
  obtain ⟨y', hy', there⟩ := step.there originals.steady.inv ok
  obtain rfl := Option.some.inj hy'
  have last : ∀ z, some y = some z → ∃ x, (x, some z) ∈ copies ++ [(element, some y)] :=
    fun z same => ⟨element, same ▸ last_mem⟩
  refine ⟨originals.only rnd.fresh.new last (fun z same => last z (congrArg some same.symm)) only,
    rnd.kept only kept fun x z u b mem set other => ?_, there,
    fun u other => frame y u fun same => other same.2⟩
  by_cases this : z = y ∧ u = s
  · obtain ⟨rfl, rfl⟩ := this
    obtain rfl := rnd.fresh.inj x element z mem last_mem
    obtain ⟨e, hend, rfl | mem'⟩ := rnd.newEnd (there.symm.trans set)
    · exact .inl hend
    · exact .inr ⟨by rw [hend]; nofun, rnd.fresh.new e b mem'⟩
  · exact absurd ((frame z u this).symm.trans set) other

theorem RoundOf.ownEnds (full : Full m₀ element) (free : ∀ s, n.endOf y s = none)
    (hr : copyEnds ss w place element (some y) (copies ++ [(element, some y)]) n = some n') :
    Kept ss m₀ n' (copies ++ [(element, some y)]) ∧ ∀ s, n'.endOf y s =
      copyOfEnd place element (copies ++ [(element, some y)]) (m₀.endOf element s) := by
  obtain ⟨beg, fin, n₁, rv₁, rv₂, hbeg, hfin, first, second⟩ := copyEnds_some hr
  obtain ⟨g, hg⟩ := rnd.order.stored element rnd.order.element
  have reads : ∀ s a, ss.getEnd s n (some element) = some a → a = m₀.endOf element s := by
    intro s a get
    rw [← originals.ends element g hg s]
    refine Inv.getEnd (h := clientHolds refs) originals.steady.inv
      (Persists.access originals.persists (rnd.allowed.access element rnd.order.element))
      (fun b hb => ?_) get
    rw [originals.ends element g hg s] at hb
    exact Persists.access originals.persists
      (rnd.allowed.ends element rnd.order.element s b hb)
  obtain rfl := reads .beg beg hbeg
  obtain rfl := reads .fin fin hfin
  obtain ⟨originals₁, kept₁, there₁, frame₁⟩ := rnd.ownEnd originals kept full (free .fin) first
  obtain ⟨-, kept₂, there₂, frame₂⟩ := rnd.ownEnd originals₁ kept₁ full
    ((frame₁ .beg nofun).trans (free .beg)) second
  refine ⟨kept₂, fun s => ?_⟩
  cases s with
  | beg => exact there₂
  | fin => exact (frame₂ .fin nofun).trans there₁

theorem RoundOf.filled (hr : copyData ss element (some y) n = some n') :
    contOf n' y = contOf m₀ element := by
  obtain ⟨⟨n₁, idtf⟩, get, hr⟩ := Option.bind_eq_some_iff.mp hr
  obtain ⟨⟨n₂, rv₂⟩, set, hr⟩ := Option.bind_eq_some_iff.mp hr
  obtain ⟨cont, hcont, hr⟩ := Option.bind_eq_some_iff.mp hr
  obtain ⟨⟨n₃, rv₃⟩, fill, hr⟩ := Option.bind_eq_some_iff.mp hr
  cases hr
  have first : TouchesOnly refs ⟨fun _ _ => False, fun _ => False, fun _ => False⟩ n n₁ :=
    only_getIdtf originals.steady get
  have only := first.trans (only_setIdtf first.steady set)
  have access := Persists.access (originals.persists.trans only.persists)
    (rnd.allowed.access element rnd.order.element)
  have same : contOf n₂ element = some cont := by
    rw [getContent, access] at hcont
    simp only [Option.bind_eq_bind, Option.bind_some, ne_eq, not_true_eq_false, if_false] at hcont
    obtain ⟨g, hg, hcont⟩ := Option.bind_eq_some_iff.mp hcont
    obtain ⟨el, hel, hcont⟩ := Option.bind_eq_some_iff.mp hcont
    rw [contOf, hg, Option.bind_some, hel, Option.map_some, Option.some.inj hcont]
  obtain ⟨g, hg⟩ := rnd.order.stored element rnd.order.element
  obtain ⟨g', hg', -⟩ := originals.persists.addrs hg
  rw [(setContent_some (h := clientHolds refs) only.steady.inv fill).2
    (Persists.access only.persists (kept.access element y last_mem)), ← same,
    only.contents element g' hg' id, originals.contents element g hg]

end

structure Finished (ss : Session) (place : Addr → Nat) (m₀ m m' : Memory) (element : Addr)
    (copies : Copies) (y : Addr) : Prop where
  kept : Kept ss m₀ m' (copies ++ [(element, some y)])
  moved : ∀ x z s, (x, some z) ∈ copies → m₀.endOf x s = some element → m'.endOf z s = some y
  others : ∀ x z s, (x, some z) ∈ copies → m₀.endOf x s ≠ some element →
    m'.endOf z s = m.endOf z s
  own : Full m₀ element → ∀ s, m'.endOf y s =
    copyOfEnd place element (copies ++ [(element, some y)]) (m₀.endOf element s)
  content : contOf m' y = contOf m₀ element
  contents : ∀ x z, (x, some z) ∈ copies → contOf m' z = contOf m z

theorem RoundOf.finished (copying : Copying refs place els m₀ m copies)
    (exact : Exact ss m₀ m copies)
    (round : Round ss w place target element copies m (some y) m₁ m₂ m₃ m₄ m')
    (stages : Stages refs ss place m₀ els element copies (some y) m m₁ m₂ m₃ m₄ m') :
    Finished ss place m₀ m m' element copies y := by
  obtain ⟨originals₁, originals₂, originals₃, originals₄, -⟩ := stages.originals copying.originals
  obtain ⟨y', same, access, type⟩ :=
    round_created rnd.allowed copying.originals rnd.order.element round.create
  obtain rfl := Option.some.inj same
  obtain ⟨unused, -, free⟩ := stages.free y rfl
  have kept₁ : Kept ss m₀ m₁ (copies ++ [(element, some y)]) := by
    refine ⟨fun x z mem => ?_, fun x z mem => ?_, fun x z s b mem ends => ?_⟩
    all_goals obtain mem' | mem' := List.mem_append.mp mem
    · exact Persists.access stages.made.persists (exact.kept.access x z mem')
    · cases List.mem_singleton.mp mem'
      exact access
    · exact rnd.fresh.typeOf rnd.allowed rnd.start rnd.typed stages.made mem
        (exact.kept.type x z mem')
    · cases List.mem_singleton.mp mem'
      exact type
    · exact exact.kept.comes x z s b mem' ((stages.made.ends z s id).symm.trans ends)
    · cases List.mem_singleton.mp mem'
      cases (free s).symm.trans ends
  obtain ⟨ins, hins, patches₂⟩ := stages.ins
  obtain ⟨outs, houts, patches₃⟩ := stages.outs
  obtain ⟨ins', hins', patched₂⟩ := round.ins
  obtain rfl := Option.some.inj (hins.symm.trans hins')
  obtain ⟨outs', houts', patched₃⟩ := round.outs
  obtain rfl := Option.some.inj (houts.symm.trans houts')
  obtain ⟨kept₂, ends₂⟩ := rnd.patched originals₁ kept₁ hins patches₂ patched₂
  obtain ⟨kept₃, begs₃⟩ := rnd.patched originals₂ kept₂ houts patches₃ patched₃
  have free₃ : ∀ s, m₃.endOf y s = none := by
    intro s
    have miss : ∀ {n s arcs}, Originals refs els m₀ n → metaArcs ss s n element = some arcs →
        ¬HitBy place element copies arcs y := by
      intro n s arcs originals harcs hit
      obtain ⟨x, mem, -⟩ := hits_original originals rnd.order harcs hit
      exact unused x mem
    rw [patches₃.ends y s fun hit => miss originals₂ houts hit.2,
      patches₂.ends y s fun hit => miss originals₁ hins hit.2, free s]
  have after : ∀ x z s, (x, some z) ∈ copies → m'.endOf z s = m₃.endOf z s := by
    intro x z s mem
    rw [stages.data.ends z s id, stages.own.ends z s fun same => ?_]
    exact unused x (same ▸ mem)
  have own₄ : Kept ss m₀ m₄ (copies ++ [(element, some y)]) ∧ (Full m₀ element → ∀ s,
      m₄.endOf y s = copyOfEnd place element (copies ++ [(element, some y)])
        (m₀.endOf element s)) := by
    obtain ⟨t, ht, own⟩ := round.own
    have access₃ := Persists.access originals₃.persists
      (rnd.allowed.access element rnd.order.element)
    obtain ⟨t₀, ht₀⟩ := rnd.typed element rnd.order.element
    obtain rfl : t₀ = t := Option.some.inj
      ((rnd.allowed.types originals₃ ht₀).symm.trans (access_typeOf access₃ ht))
    obtain ⟨isFull, own⟩ | ⟨simple, rfl⟩ := own
    · obtain ⟨kept₄, ends₄⟩ := rnd.ownEnds originals₃ kept₃ ⟨t₀, ht₀, isFull⟩ free₃ own
      exact ⟨kept₄, fun _ => ends₄⟩
    · refine ⟨kept₃, fun ⟨t, ht, isFull⟩ => ?_⟩
      rw [Option.some.inj (ht₀.symm.trans ht), isFull] at simple
      cases simple
  obtain ⟨kept₄, own₄⟩ := own₄
  refine ⟨rnd.kept stages.data kept₄ fun x z s b mem set other => ?_, fun x z s mem hend => ?_,
    fun x z s mem other => ?_, fun full s => ?_, rnd.filled originals₄ kept₄ round.data,
    fun x z mem => ?_⟩
  · exact absurd ((stages.data.ends z s id).symm.trans set) other
  · rw [after x z s mem]
    cases s with
    | beg => exact begs₃ x z mem hend
    | fin =>
      rw [patches₃.ends z .fin fun hit => nomatch hit.1]
      exact ends₂ x z mem hend
  · have miss : ∀ {n arcs}, Originals refs els m₀ n → metaArcs ss s n element = some arcs →
        ¬HitBy place element copies arcs z := by
      intro n arcs originals harcs hit
      obtain ⟨x', mem', hend, -⟩ := hits_original originals rnd.order harcs hit
      obtain rfl := rnd.fresh.inj x x' z (List.mem_append_left _ mem) (List.mem_append_left _ mem')
      exact other hend
    have third : m₃.endOf z s = m₂.endOf z s := patches₃.ends z s fun ⟨hs, hit⟩ => by
      subst hs
      exact miss originals₂ houts hit
    have second : m₂.endOf z s = m₁.endOf z s := patches₂.ends z s fun ⟨hs, hit⟩ => by
      subst hs
      exact miss originals₁ hins hit
    rw [after x z s mem, third, second, stages.made.ends z s id]
  · rw [stages.data.ends y s id, own₄ full s]
  · have other : some y ≠ some z := fun same => unused x (same ▸ mem)
    obtain ⟨g, hg⟩ := copying.stored x z mem
    obtain ⟨g₁, hg₁, -⟩ := stages.made.persists.addrs hg
    obtain ⟨g₂, hg₂, -⟩ := patches₂.only.persists.addrs hg₁
    obtain ⟨g₃, hg₃, -⟩ := patches₃.only.persists.addrs hg₂
    obtain ⟨g₄, hg₄, -⟩ := stages.own.persists.addrs hg₃
    rw [stages.data.contents z g₄ hg₄ other, stages.own.contents z g₃ hg₃ other,
      patches₃.only.contents z g₂ hg₂ other, patches₂.only.contents z g₁ hg₁ other,
      stages.made.contents z g hg other]

theorem RoundOf.exact (finished : Finished ss place m₀ m m' element copies y)
    (exact : Exact ss m₀ m copies) : Exact ss m₀ m' (copies ++ [(element, some y)]) := by
  have found : ∀ e, copyOf (copies ++ [(element, some y)]) e =
      if element = e then some y else copyOf copies e := fun e => copyOf_append rnd.fresh_key
  refine ⟨finished.kept, fun x c mem => ?_, fun x z mem => ?_, fun x z s e b mem hend hb => ?_,
    fun x z s e mem hend none full => ?_⟩
  all_goals obtain mem' | mem' := List.mem_append.mp mem
  · exact exact.made x c mem'
  · cases List.mem_singleton.mp mem'
    exact ⟨y, rfl⟩
  · rw [finished.contents x z mem', exact.content x z mem']
  · cases List.mem_singleton.mp mem'
    exact finished.content
  · -- An older copy: its end is the element of the round or has been copied before.
    rw [found] at hb
    split at hb
    · next same =>
      rw [← hb]
      exact finished.moved x z s mem' (same ▸ hend)
    · next other =>
      rw [finished.others x z s mem' fun there => other (Option.some.inj (there.symm.trans hend))]
      exact exact.copied x z s e b mem' hend hb
  · -- The copy of the round: its end does not come later in the set.
    cases List.mem_singleton.mp mem'
    have entry := copyOf_some hb
    have before : place e ≤ place element := by
      obtain entry | entry := List.mem_append.mp entry
      · exact (rnd.order.before _ entry).le
      · cases List.mem_singleton.mp entry
        exact le_refl _
    obtain full | ⟨-, later⟩ := rnd.patchable element rnd.order.element s e hend
    · rw [finished.own full s, hend, copyOfEnd, Option.map_some, if_pos before,
        myFind_eq (rnd.order.sorted_append _), hb, Option.getD_some]
    · omega
  · rw [found] at none
    split at none
    · cases none
    · next other =>
      rw [finished.others x z s mem' fun there => other (Option.some.inj (there.symm.trans hend))]
      exact exact.stays x z s e mem' hend none full
  · cases List.mem_singleton.mp mem'
    rw [finished.own full s, hend, copyOfEnd, Option.map_some,
      myFind_eq (rnd.order.sorted_append _), none, Option.getD_none, ite_self]

end Facts

theorem Exact.start : Exact ss m₀ m₀ [] where
  kept := ⟨nofun, nofun, nofun⟩
  made := nofun
  content := nofun
  copied := nofun
  stays := nofun

/-- Exact copies of a set whose ends can be patched are isomorphic to it. -/
theorem Exact.isCopy (exact : Exact ss m₀ m copies) (copying : Copying refs place els m₀ m copies)
    (keys : copies.map Prod.fst = els) (nodup : els.Nodup) (allowed : Allowed ss w target m₀ els)
    (patchable : Patchable place m₀ els) : IsCopy m₀ m els copies := by
  have made : ∀ x c, (x, c) ∈ copies → ∃ y, c = some y ∧ m₀.addrs y = none ∧
      m.liveAddr y = true := by
    intro x c mem
    obtain ⟨y, rfl⟩ := exact.made x c mem
    exact ⟨y, rfl, copying.new x y mem, access_live (exact.kept.access x y mem)⟩
  refine ⟨keys, made, exact.kept.type, exact.content, fun x y mem s => ?_, copying.inj,
    fun x g hg => ⟨?_, ?_, copying.originals.contents x g hg,
      copying.originals.ends x g hg⟩⟩
  · cases hend : m₀.endOf x s with
    | none =>
      rw [Option.map_none]
      by_contra set
      obtain ⟨b, hb⟩ := Option.ne_none_iff_exists'.mp set
      obtain there | ⟨there, -⟩ := exact.kept.comes x y s b mem hb
      · cases hend.symm.trans there
      · exact there hend
    | some e =>
      rw [Option.map_some, copyEnd]
      cases hb : copyOf copies e with
      | some b => exact exact.copied x y s e b mem hend hb
      | none =>
        have inSet : x ∈ els := keys ▸ List.mem_map_of_mem mem
        obtain full | ⟨there, -⟩ := patchable x inSet s e hend
        · exact exact.stays x y s e mem hend hb full
        · rw [← keys] at there nodup
          obtain ⟨⟨e, c⟩, mem', rfl⟩ := List.mem_map.mp there
          obtain ⟨b, rfl⟩ := exact.made e c mem'
          cases hb.symm.trans (copyOf_of_mem nodup mem')
  · obtain ⟨g', hg', -, -, dead⟩ := copying.originals.persists.addrs hg
    simp only [liveAddr, hg, hg', dead]
  · have start : Inv (clientHolds refs) m₀ := copying.originals.start.inv
    obtain ⟨el, hel, -⟩ := start.own_stored hg
    have type : m₀.typeOf x = some el.type := by
      rw [Memory.typeOf, hg, Option.bind_some, hel, Option.map_some]
    rw [type, allowed.types copying.originals type]

end Sufficient

def linkedOps : List Op :=
  [.createEl 0 .node, .createEl 0 .node, .createEl 0 .arc, .setBeg (some 2) (some 0),
    .setEnd (some 2) (some 1)]

def arcFirst : AddrSet (fun a => 2 - a) := ⟨[2, 1, 0], by decide⟩

def arcLast : AddrSet (fun a => a) := ⟨[0, 1, 2], by decide⟩

def mayCopy (ss : Session) (m : Memory) (x : Addr) : Bool :=
  ss.access m (some x) = some rvOk && (m.typeOf x).any (fun t => t.verify = some t) &&
    [Endpoint.beg, .fin].all fun s => (m.endOf x s).all fun e => ss.access m (some e) = some rvOk &&
      (s = .fin || (m.typeOf e).any fun t => !t.isConnector && t &&& .undf = 0)

theorem allowed_of_mayCopy {ss : Session} {target : SegId} {m : Memory} {els : List Addr}
    (opened : ss.opened target = true) (all : els.all (mayCopy ss m) = true) :
    Allowed ss noWaits target m els := by
  have each : ∀ x ∈ els, ss.access m (some x) = some rvOk ∧
      (m.typeOf x).any (fun t => t.verify = some t) = true ∧ ∀ s e, m.endOf x s = some e →
        ss.access m (some e) = some rvOk ∧ (s = .fin ∨
          (m.typeOf e).any (fun t => !t.isConnector && t &&& .undf = 0) = true) := by
    intro x hx
    have ok := List.all_eq_true.mp all x hx
    simp only [mayCopy, Bool.and_eq_true, decide_eq_true_eq, List.all_cons, List.all_nil,
      Bool.and_true] at ok
    obtain ⟨⟨access, verified⟩, beg, fin⟩ := ok
    refine ⟨access, verified, fun s e hend => ?_⟩
    cases s with
    | beg => simpa [hend] using beg
    | fin => simpa [hend] using fin
  refine ⟨opened, fun x hx => (each x hx).1, fun x hx s e hend => ((each x hx).2.2 s e hend).1,
    fun x hx t type => ?_, fun x hx e t hend type => ?_, fun _ _ _ _ _ => rfl⟩
  · have verified := (each x hx).2.1
    rw [type] at verified
    simpa using verified
  · have plain := ((each x hx).2.2 .beg e hend).2.resolve_left nofun
    rw [type] at plain
    simpa using plain

end ScCore.Sets
