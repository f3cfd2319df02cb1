import ScCore.Sets.Tuples
import ScCore.Store.Survivors

/-!
# Unpacking a tuple that has been made

The tuples that `create_ord_m` makes are unpacked to their components in order.
-/

namespace ScCore.Sets

open ScCore.Store ScCore.Search Memory

/-- The type of the arcs of an ordered tuple. -/
abbrev ordArcType : ScType := .arcAccessory ||| .const ||| .pos

/-- One round of `create_ord_m` in which both arcs are made. -/
structure OrdArc where
  el : Addr
  attr : Addr
  arc : Addr
  mark : Addr

section Rounds

variable {h : Holds} {ss : Session} {w : Waits} {fuel : Nat} {numattr : Numattr} {seg : SegId}
  {m m' m₁ m₂ : Memory} {tuple : Addr} {r : OrdArc} {rs : List OrdArc} {x y a : Addr}

inductive Rounds (ss : Session) (w : Waits) (fuel : Nat) (seg : SegId) (tuple : Addr) :
    Memory → List OrdArc → Memory → Prop
  | nil (m : Memory) : Rounds ss w fuel seg tuple m [] m
  | cons {m m₁ m₂ m' : Memory} {r : OrdArc} {rs : List OrdArc}
      (first : ss.gen3 w fuel m (some tuple) seg ordArcType (some r.el) =
        some (m₁, some r.arc, rvOk))
      (second : ss.gen3 w fuel m₁ (some r.attr) seg ordArcType (some r.arc) =
        some (m₂, some r.mark, rvOk))
      (rest : Rounds ss w fuel seg tuple m₂ rs m') : Rounds ss w fuel seg tuple m (r :: rs) m'

structure Made (h : Holds) (ss : Session) (seg : SegId) (tuple : Addr) (m m' : Memory)
    (rs : List OrdArc) : Prop where
  inv : Inv h m'
  persists : Persists m m'
  contents : KeepsContents m m'
  ends : ∀ y, m.liveAddr y = true → ∀ s, m'.endOf y s = m.endOf y s
  typeOf : ∀ y t, m.liveAddr y = true → m.typeOf y = some t → t &&& .undf = 0 →
    m'.typeOf y = some t
  arc : ∀ r ∈ rs, NewArc m m' r.arc (some tuple) (some r.el) ∧ segOf m' r.arc = some seg ∧
    m'.typeOf r.arc = some (ordArcType ||| .permanent)
  mark : ∀ r ∈ rs, NewArc m m' r.mark (some r.attr) (some r.arc) ∧ segOf m' r.mark = some seg
  access : ∀ r ∈ rs, ss.opened seg = true ∧ ss.access m' (some tuple) = some rvOk ∧
    ss.access m' (some r.attr) = some rvOk
  nodup : (rs.flatMap fun r => [r.arc, r.mark]).Nodup
  born : ∀ y, m'.liveAddr y = true → m.liveAddr y = true ∨ ∃ r ∈ rs, y = r.arc ∨ y = r.mark

theorem Persists.segOf (persists : Persists m m') {s : SegId} (there : Search.segOf m a = some s) :
    Search.segOf m' a = some s := by
  obtain ⟨g, hg, rfl⟩ := Option.map_eq_some_iff.mp there
  obtain ⟨g', hg', hs, -⟩ := persists.addrs hg
  rw [Search.segOf, hg', Option.map_some, hs]

theorem Rounds.made (rounds : Rounds ss w fuel seg tuple m rs m') (inv : Inv h m)
    (unheld : ∀ n, h.node n = 0) : Made h ss seg tuple m m' rs := by
  induction rounds with
  | nil m =>
    exact ⟨inv, Persists.refl m, KeepsContents.refl m, fun _ _ _ => rfl,
      fun _ _ _ type _ => type,
      fun _ hr => absurd hr List.not_mem_nil, fun _ hr => absurd hr List.not_mem_nil,
      fun _ hr => absurd hr List.not_mem_nil, List.nodup_nil, fun y live => .inl live⟩
  | @cons m m₁ m₂ m' r rs first second rest ih =>
    have step₁ := inv.gen3_step unheld first
    obtain ⟨persists₁, opened, tuple₁, g₁, hg₁, seg₁⟩ := inv.gen3_places unheld first
    have step₂ := step₁.inv.gen3_step unheld second
    obtain ⟨persists₂, -, attr₁, g₂, hg₂, seg₂⟩ := step₁.inv.gen3_places unheld second
    have after := ih step₂.inv
    obtain ⟨arc, arcType⟩ := step₁.made r.arc rfl
    obtain ⟨mark, -⟩ := step₂.made r.mark rfl
    have live₂ : ∀ y, m.liveAddr y = true → m₂.liveAddr y = true := fun y live =>
      step₂.live y (step₁.live y live)
    have new : ∀ y, m₂.liveAddr y = false → m.liveAddr y = false := by
      intro y dead
      by_contra live
      rw [live₂ y (by simpa using live)] at dead
      cases dead
    have arcLive := step₂.live _ arc.live
    have type₁ : m₁.typeOf r.arc = some (ordArcType ||| .permanent) :=
      arcType _ (by decide) (by decide)
    have type₂ := step₂.typeOf _ _ arc.live type₁ (by decide)
    refine ⟨after.inv, persists₁.trans (persists₂.trans after.persists),
      (KeepsContents.gen3 first).trans ((KeepsContents.gen3 second).trans after.contents),
      fun y live s => ?_, fun y t live type defined => ?_, ?_, ?_, ?_, ?_, fun y alive => ?_⟩
    · rw [after.ends y (live₂ y live), step₂.ends y (step₁.live y live), step₁.ends y live]
    · exact after.typeOf y t (live₂ y live) (step₂.typeOf y t (step₁.live y live)
        (step₁.typeOf y t live type defined) defined) defined
    · intro r' hr'
      obtain rfl | hr' := List.mem_cons.mp hr'
      · refine ⟨⟨arc.new, ?_, ?_, ?_⟩, ?_, ?_⟩
        · obtain ⟨g, hg, hd⟩ := liveAddr_eq_true.mp arcLive
          obtain ⟨g', hg', -, -, hd'⟩ := after.persists.addrs hg
          exact liveAddr_eq_true.mpr ⟨g', hg', hd'.trans hd⟩
        · rw [after.ends _ arcLive, step₂.ends _ arc.live, arc.beg]
        · rw [after.ends _ arcLive, step₂.ends _ arc.live, arc.fin]
        · refine Persists.segOf after.persists (Persists.segOf persists₂ ?_)
          rw [Search.segOf, hg₁, Option.map_some, seg₁]
        · exact after.typeOf _ _ arcLive type₂ (by decide)
      · obtain ⟨arc', rest'⟩ := after.arc r' hr'
        exact ⟨⟨new _ arc'.new, arc'.live, arc'.beg, arc'.fin⟩, rest'⟩
    · intro r' hr'
      obtain rfl | hr' := List.mem_cons.mp hr'
      · refine ⟨⟨?_, ?_, ?_, ?_⟩, ?_⟩
        · by_contra live
          have dead := mark.new
          rw [step₁.live _ (by simpa using live)] at dead
          cases dead
        · obtain ⟨g, hg, hd⟩ := liveAddr_eq_true.mp mark.live
          obtain ⟨g', hg', -, -, hd'⟩ := after.persists.addrs hg
          exact liveAddr_eq_true.mpr ⟨g', hg', hd'.trans hd⟩
        · rw [after.ends _ mark.live, mark.beg]
        · rw [after.ends _ mark.live, mark.fin]
        · refine Persists.segOf after.persists ?_
          rw [Search.segOf, hg₂, Option.map_some, seg₂]
      · obtain ⟨mark', rest'⟩ := after.mark r' hr'
        exact ⟨⟨new _ mark'.new, mark'.live, mark'.beg, mark'.fin⟩, rest'⟩
    · intro r' hr'
      obtain rfl | hr' := List.mem_cons.mp hr'
      · exact ⟨opened, Persists.access (persists₁.trans (persists₂.trans after.persists)) tuple₁,
          Persists.access after.persists (Persists.access persists₂ attr₁)⟩
      · exact after.access r' hr'
    · have dead : ∀ y ∈ rs.flatMap fun r => [r.arc, r.mark], m₂.liveAddr y = false := by
        intro y hy
        obtain ⟨r', hr', hy⟩ := List.mem_flatMap.mp hy
        obtain rfl | hy := List.mem_cons.mp hy
        · exact (after.arc r' hr').1.new
        · exact List.mem_singleton.mp hy ▸ (after.mark r' hr').1.new
      rw [List.flatMap_cons, List.nodup_append]
      refine ⟨?_, after.nodup, ?_⟩
      · refine List.nodup_cons.mpr ⟨fun same => ?_, List.nodup_singleton _⟩
        have new := mark.new
        rw [← List.mem_singleton.mp same, arc.live] at new
        cases new
      · rintro y hy y' hy' rfl
        have live : m₂.liveAddr y = true := by
          obtain rfl | hy := List.mem_cons.mp hy
          · exact arcLive
          · exact List.mem_singleton.mp hy ▸ mark.live
        cases (dead y hy').symm.trans live
    · obtain live | ⟨r', hr', same⟩ := after.born y alive
      · obtain live | same := step₂.born (fun h => by cases h) y live
        · obtain live | same := step₁.born (fun h => by cases h) y live
          · exact .inl live
          · exact .inr ⟨r, List.mem_cons_self, .inl (Option.some.inj same).symm⟩
        · exact .inr ⟨r, List.mem_cons_self, .inr (Option.some.inj same).symm⟩
      · exact .inr ⟨r', List.mem_cons_of_mem _ hr', same⟩

theorem addOrd_rounds {m m' : Memory} {els : List Addr} {index : Nat}
    {arcs : List (Option (Addr × Addr))}
    (hr : addOrd ss w fuel numattr seg (some tuple) els index m = some (m', arcs))
    (made : none ∉ arcs) : ∃ rs, Rounds ss w fuel seg tuple m rs m' ∧ rs.map OrdArc.el = els ∧
      arcs = rs.map (fun r => some (r.arc, r.mark)) ∧
      ∀ (j : Nat) r, rs[j]? = some r → numattr.val[index + j + 1]? = some r.attr := by
  induction els generalizing m index arcs with
  | nil =>
    cases hr
    exact ⟨[], .nil _, rfl, rfl, nofun⟩
  | cons el els ih =>
    obtain ⟨attr, hattr, hr⟩ := Option.bind_eq_some_iff.mp hr
    obtain ⟨⟨m₁, arcs₁, rv⟩, gen, hr⟩ := Option.bind_eq_some_iff.mp hr
    obtain ⟨⟨m₂, rest⟩, hrest, hr⟩ := Option.bind_eq_some_iff.mp hr
    cases hr
    rw [List.mem_cons, not_or] at made
    obtain ⟨-, -, -, none, -⟩ | ⟨m₀, x, first, second⟩ := gen5_some gen
    · exact absurd none.symm made.1
    · obtain ⟨-, -, -, -, -, none⟩ | ⟨y, second, rfl, -⟩ := second
      · exact absurd none.symm made.1
      · obtain ⟨rs, rounds, rfl, rfl, attrs⟩ := ih hrest made.2
        refine ⟨⟨el, attr, x, y⟩ :: rs, .cons first second rounds, rfl, rfl, fun j r hr => ?_⟩
        cases j with
        | zero =>
          obtain rfl := Option.some.inj hr
          exact hattr
        | succ j =>
          rw [← attrs j r hr]
          congr 1
          omega

theorem Rounds.steady {refs : Addr → Nat} (rounds : Rounds ss w fuel seg tuple m rs m')
    (steady : Steady ⟨m, refs⟩) : Steady ⟨m', refs⟩ := by
  induction rounds with
  | nil => exact steady
  | cons first second _ ih => exact ih ((steady.gen3 first).gen3 second)

end Rounds

/-! ## The tuple that is made -/

section Tuple

variable {refs : Addr → Nat} {ss : Session} {numattr : Numattr} {seg : SegId} {m m' : Memory}
  {tuple x y a : Addr} {r r' : OrdArc} {rs : List OrdArc} {s : Endpoint} {j k : Nat}

structure MadeTuple (refs : Addr → Nat) (ss : Session) (numattr : Numattr) (seg : SegId)
    (tuple : Addr) (m m' : Memory) (rs : List OrdArc) : Prop where
  inv : Inv (clientHolds refs) m
  made : Made (clientHolds refs) ss seg tuple m m' rs
  bare : ∀ y, m.endOf y .beg ≠ some tuple
  parts : ∀ r ∈ rs, m.liveAddr r.el = true
  attrs : ∀ (j : Nat) r, rs[j]? = some r → numattr.val[j + 1]? = some r.attr
  numbers : ∀ (k : Nat) a, numattr.val[k]? = some a → a ≠ tuple
  numbered : Numbered m' numattr
  steady : Steady ⟨m', refs⟩
  live : m'.liveAddr tuple = true
  place : segOf m' tuple = some seg
  type : m'.typeOf tuple = some (.node ||| .const)

theorem length_le_qnt {st : State} (steady : Steady st) {g : GlobalAddr}
    (hg : st.memory.addrs a = some g) {l : List Addr} (nodup : l.Nodup)
    (ends : ∀ x ∈ l, st.memory.endOf x s = some a) : (l.length : Int) ≤ g.qnt s := by
  have whole := (quiet_of_steady steady).whole
  let arcs := fun st' : LinkAddr => arcsOf st.memory (st.memory.graph.listed st'.impl s)
  have within : l ⊆ g.stores.flatMap arcs := by
    intro x hx
    obtain ⟨st', hst', -, mem⟩ := listed_of_end whole hg (ends x hx)
    exact List.mem_flatMap.mpr ⟨st', hst', mem⟩
  have fewer := (nodup.subperm within).length_le
  have each : ∀ st' : LinkAddr, ((arcs st').length : Int) ≤ st.memory.qnt st'.impl s := by
    intro st'
    rw [steady.inv.qnt_eq]
    exact_mod_cast List.length_filterMap_le _ _
  have sum : ((g.stores.map fun st' => (arcs st').length).sum : Int) ≤
      (g.stores.map fun st' => st.memory.qnt st'.impl s).sum := by
    induction g.stores with
    | nil => exact le_refl _
    | cons st' l ih =>
      simp only [List.map_cons, List.sum_cons, Int.natCast_add]
      exact add_le_add (each st') ih
  have covered := steady.covered a g s hg
  rw [List.length_flatMap] at fewer
  have fewer : (l.length : Int) ≤ ((g.stores.map fun st' => (arcs st').length).sum : Int) := by
    exact_mod_cast fewer
  exact fewer.trans (sum.trans covered)

theorem getEnd_some (inv : Inv (clientHolds refs) m) (ok : ss.access m (some x) = some rvOk)
    (hend : m.endOf x s = some a) (oka : ss.access m (some a) = some rvOk) :
    ss.getEnd s m (some x) = some (some a) := by
  obtain ⟨r, hr, -⟩ := getEnd_stored ss s inv (access_live ok)
  have same := inv.getEnd ok (fun b hb => by rwa [← Option.some.inj (hend.symm.trans hb)]) hr
  rw [hr, same, hend]

theorem arcs_sublist (rs : List OrdArc) :
    (rs.map OrdArc.arc).Sublist (rs.flatMap fun r => [r.arc, r.mark]) := by
  induction rs with
  | nil => exact List.Sublist.refl _
  | cons r rs ih => exact (ih.cons r.mark).cons_cons r.arc

section Facts

variable (built : MadeTuple refs ss numattr seg tuple m m' rs)

include built

theorem MadeTuple.accessible (hr : r ∈ rs) (live : m'.liveAddr x = true)
    (place : segOf m' x = some seg) : ss.access m' (some x) = some rvOk := by
  obtain ⟨opened, -⟩ := built.made.access r hr
  obtain ⟨g, hg, hd⟩ := liveAddr_eq_true.mp live
  rw [segOf, hg, Option.map_some] at place
  exact access_ok.mpr ⟨g, hg, hd, Option.some.inj place ▸ opened⟩

theorem MadeTuple.nodup : (rs.map OrdArc.arc).Nodup :=
  built.made.nodup.sublist (arcs_sublist rs)

theorem MadeTuple.arc_inj (hr : r ∈ rs) (hr' : r' ∈ rs) (same : r'.arc = r.arc) : r' = r :=
  List.inj_on_of_nodup_map built.nodup hr' hr same

theorem MadeTuple.component_iff : Component ss m' tuple x ↔ ∃ r ∈ rs, x = r.arc := by
  constructor
  · rintro ⟨beg, -, -⟩
    have live := built.steady.inv.live_of_end (by rw [beg]; nofun)
    obtain old | ⟨r, hr, rfl | rfl⟩ := built.made.born x live
    · rw [built.made.ends x old] at beg
      exact absurd beg (built.bare x)
    · exact ⟨r, hr, rfl⟩
    · obtain ⟨j, hj⟩ := List.mem_iff_getElem?.mp hr
      have attr := (built.made.mark r hr).1.beg.symm.trans beg
      exact absurd (Option.some.inj attr) (built.numbers _ _ (built.attrs j r hj))
  · rintro ⟨r, hr, rfl⟩
    obtain ⟨arc, place, type⟩ := built.made.arc r hr
    obtain ⟨-, root, -⟩ := built.made.access r hr
    have ok := built.accessible hr arc.live place
    have types : ∀ y t, ss.access m' (some y) = some rvOk → m'.typeOf y = some t →
        ss.getType m' y = some t := by
      intro y t ok type
      obtain ⟨g, hg, -⟩ := access_ok.mp ok
      obtain ⟨t', ht'⟩ := Option.isSome_iff_exists.mp
        (getType_stored ss built.steady.inv ⟨g, hg⟩)
      rw [ht', ← type, access_typeOf ok ht']
    exact ⟨arc.beg, .inl (place.trans built.place.symm), _, _, types _ _ root built.type,
      types _ _ ok type, by decide⟩

theorem MadeTuple.fin_iff (hr : r ∈ rs) : m'.endOf y .fin = some r.arc ↔ y = r.mark := by
  obtain ⟨arc, -⟩ := built.made.arc r hr
  constructor
  · intro fin
    have live := built.steady.inv.live_of_end (by rw [fin]; nofun)
    obtain old | ⟨r', hr', rfl | rfl⟩ := built.made.born y live
    · rw [built.made.ends y old] at fin
      obtain ⟨-, -, -, -, -, there, -⟩ := built.inv.endOf_some fin
      exact nomatch arc.new.symm.trans there
    · have el := (built.made.arc r' hr').1.fin.symm.trans fin
      have there := built.parts r' hr'
      rw [Option.some.inj el, arc.new] at there
      cases there
    · have same := (built.made.mark r' hr').1.fin.symm.trans fin
      rw [built.arc_inj hr hr' (Option.some.inj same)]
  · rintro rfl
    exact (built.made.mark r hr).1.fin

theorem MadeTuple.getEnd (hr : r ∈ rs) :
    ss.getEnd .beg m' (some r.mark) = some (some r.attr) := by
  obtain ⟨mark, place⟩ := built.made.mark r hr
  obtain ⟨-, -, attr⟩ := built.made.access r hr
  exact getEnd_some built.steady.inv (built.accessible hr mark.live place) mark.beg attr

theorem MadeTuple.hasAttr_iff (hj : rs[j]? = some r) :
    HasAttr ss m' numattr r.mark k ↔ k = j + 1 := by
  have attr := built.attrs j r hj
  rw [HasAttr, built.getEnd (List.mem_of_getElem? hj)]
  constructor
  · rintro ⟨-, a, ha, same⟩
    cases same
    have number := (built.numbered _ _ ha).symm.trans (built.numbered _ _ attr)
    have number := Content.int.inj (Option.some.inj number)
    omega
  · rintro rfl
    exact ⟨Nat.succ_pos _, r.attr, attr, rfl⟩

theorem MadeTuple.ordinal_iff : Ordinal ss m' numattr tuple x y k ↔
    ∃ j r, rs[j]? = some r ∧ x = r.arc ∧ y = r.mark ∧ k = j + 1 := by
  constructor
  · rintro ⟨component, fin, -, attr⟩
    obtain ⟨r, hr, rfl⟩ := built.component_iff.mp component
    obtain rfl := (built.fin_iff hr).mp fin
    obtain ⟨j, hj⟩ := List.mem_iff_getElem?.mp hr
    exact ⟨j, r, hj, rfl, rfl, (built.hasAttr_iff hj).mp attr⟩
  · rintro ⟨j, r, hj, rfl, rfl, rfl⟩
    have hr := List.mem_of_getElem? hj
    exact ⟨built.component_iff.mpr ⟨r, hr, rfl⟩, (built.fin_iff hr).mpr rfl,
      .inl ((built.made.mark r hr).2.trans (built.made.arc r hr).2.1.symm),
      (built.hasAttr_iff hj).mpr rfl⟩

theorem MadeTuple.unpackable : Unpackable ss m' numattr tuple := by
  rintro before ⟨x, y⟩ starts -
  have mem : (x, y) ∈ tupleVisits ss m' tuple :=
    starts.subset (List.mem_append_right _ (List.mem_singleton_self _))
  obtain ⟨component, fin, -⟩ := (mem_tupleVisits (quiet_of_steady built.steady)).mp mem
  obtain ⟨r, hr, rfl⟩ := built.component_iff.mp component
  obtain rfl := (built.fin_iff hr).mp fin
  obtain ⟨j, hj⟩ := List.mem_iff_getElem?.mp hr
  intro a i hend hcont
  cases (built.getEnd hr).symm.trans hend
  have attr := built.attrs j r hj
  obtain rfl := Content.int.inj (Option.some.inj ((built.numbered _ _ attr).symm.trans hcont))
  have bound := number_lt attr
  have small : j < 2 ^ 64 := by
    rw [numattrCnt] at bound
    omega
  rw [ordIndex_succ small]
  refine ⟨by omega, fun g hg _ => ?_⟩
  have enough := length_le_qnt built.steady hg (s := .beg) built.nodup fun x hx => by
    obtain ⟨r, hr, rfl⟩ := List.mem_map.mp hx
    exact (built.made.arc r hr).1.beg
  have within := (List.getElem?_eq_some_iff.mp hj).1
  rw [List.length_map] at enough
  omega

theorem MadeTuple.unpacked :
    unpackOrd ss m' numattr tuple = some (.ok (rs.map fun r => some r.arc)) := by
  have unpacks := (unpackOrd_iff (quiet_of_steady built.steady) built.numbered built.live).mpr
    built.unpackable
  have unique : ∀ x y x' y' k, Ordinal ss m' numattr tuple x y k →
      Ordinal ss m' numattr tuple x' y' k → x = x' ∧ y = y' := by
    intro x y x' y' k first second
    obtain ⟨j, r, hj, rfl, rfl, rfl⟩ := built.ordinal_iff.mp first
    obtain ⟨j', r', hj', rfl, rfl, same⟩ := built.ordinal_iff.mp second
    obtain rfl := Nat.succ.inj same
    obtain rfl := Option.some.inj (hj.symm.trans hj')
    exact ⟨rfl, rfl⟩
  generalize unpackOrd ss m' numattr tuple = result at unpacks ⊢
  rcases result with _ | _ | arcs
  · exact unpacks.elim
  · obtain ⟨x, y, x', y', k, other, first, second⟩ := unpacks
    exact absurd (unique x y x' y' k first second).2 other
  · obtain ⟨-, at_iff, last⟩ := unpacks
    have there : ∀ (i : Nat) x, arcs[i]? = some (some x) ↔ ∃ r : OrdArc, rs[i]? = some r ∧
        x = r.arc := by
      intro i x
      rw [at_iff]
      constructor
      · rintro ⟨y, ordinal⟩
        obtain ⟨j, r, hj, rfl, -, same⟩ := built.ordinal_iff.mp ordinal
        obtain rfl := Nat.succ.inj same
        exact ⟨r, hj, rfl⟩
      · rintro ⟨r, hi, rfl⟩
        exact ⟨r.mark, built.ordinal_iff.mpr ⟨i, r, hi, rfl, rfl, rfl⟩⟩
    have length : arcs.length ≤ rs.length := by
      rw [List.getLast?_eq_getElem?] at last
      by_contra longer
      have within : arcs.length - 1 < arcs.length := by omega
      obtain ⟨o, ho⟩ : ∃ o, arcs[arcs.length - 1]? = some o :=
        ⟨_, List.getElem?_eq_getElem within⟩
      cases o with
      | none => exact last ho
      | some x =>
        obtain ⟨r, hr, -⟩ := (there _ x).mp ho
        have bound := (List.getElem?_eq_some_iff.mp hr).1
        omega
    congr 2
    refine List.ext_getElem? fun i => ?_
    rw [List.getElem?_map]
    cases hi : rs[i]? with
    | some r => exact (there i _).mpr ⟨r, hi, rfl⟩
    | none =>
      rw [List.getElem?_eq_none_iff] at hi
      exact List.getElem?_eq_none_iff.mpr (length.trans hi)

end Facts

theorem createOrd_built (steady : Steady ⟨m, refs⟩) (numbered : Numbered m numattr)
    {w : Waits} {fuel : Nat} {els : List Addr} {arcs : List (Option (Addr × Addr))}
    (live : ∀ el ∈ els, m.liveAddr el = true)
    (hr : createOrd ss w fuel numattr seg els m = some (m', some tuple, arcs))
    (made : none ∉ arcs) : ∃ m₁ rs, MadeTuple refs ss numattr seg tuple m₁ m' rs ∧
      rs.map OrdArc.el = els ∧ arcs = rs.map fun r => some (r.arc, r.mark) := by
  obtain ⟨⟨m₁, tuple', rv⟩, create, hr⟩ := Option.bind_eq_some_iff.mp hr
  obtain ⟨⟨m₂, arcs'⟩, add, hr⟩ := Option.bind_eq_some_iff.mp hr
  cases hr
  have steady₁ := steady.createEl create
  obtain ⟨-, none, -⟩ | ⟨t, rfl, -, rfl, -⟩ := createEl_some create
  · cases none
  obtain ⟨inv₁, rfl, ends₁, live₁⟩ := Inv.created_arc steady.inv create
  obtain ⟨rs, rounds, rfl, rfl, attrs⟩ := addOrd_rounds add made
  have made' := rounds.made inv₁ fun _ => rfl
  have stored : ∀ b g, m.addrs b = some g → b ≠ m.nextAddr := fun b g hb =>
    Inv.created_new steady.inv hb
  have type : (created m seg t).typeOf m.nextAddr = some (.node ||| .const) :=
    createEl_type (by decide) create
  have tupleLive : (created m seg t).liveAddr m.nextAddr = true := by
    rw [Memory.liveAddr, created_addrs, if_pos rfl]
    rfl
  have numbered' : Numbered m' numattr := by
    intro k a ha
    obtain ⟨g, hg, -⟩ := Option.bind_eq_some_iff.mp (numbered k a ha)
    rw [contOf_eq ((KeepsContents.created m seg t).trans made'.contents) steady.inv
      ((persists_created steady.inv seg t).trans made'.persists) hg, numbered k a ha]
  refine ⟨created m seg t, rs, ⟨inv₁, made', fun y beg => ?_, fun r hr => ?_, fun j r hj => ?_,
    fun k a ha => ?_, numbered', rounds.steady steady₁, made'.persists.liveAddr tupleLive, ?_,
    made'.typeOf _ _ tupleLive type (by decide)⟩, rfl, rfl⟩
  · rw [ends₁] at beg
    obtain ⟨-, -, -, -, -, there, -⟩ := Inv.endOf_some steady.inv beg
    obtain ⟨g, hg, -⟩ := liveAddr_eq_true.mp there
    exact stored _ g hg rfl
  · have el := live _ (List.mem_map_of_mem hr)
    obtain ⟨g, hg, -⟩ := liveAddr_eq_true.mp el
    rw [live₁ _ (stored _ g hg), el]
  · have attr := attrs j r hj
    rwa [Nat.zero_add] at attr
  · obtain ⟨g, hg, -⟩ := Option.bind_eq_some_iff.mp (numbered k a ha)
    exact stored a g hg
  · refine Persists.segOf made'.persists ?_
    rw [Search.segOf, created_addrs, if_pos rfl]
    rfl

end Tuple

/-! ## The claim -/

/-- The loop of `pm_keynodes_init` that creates `pm_numattr`, in an empty memory. -/
def createNumattr : Nat → Option (Memory × List Addr)
  | 0 => some (Memory.empty (fun _ => []) fun _ => [], [])
  | n + 1 => do
      let (m, l) ← createNumattr n
      let (m, a, _) ← systemSession.createEl m 0 (.node ||| .const)
      let a ← a
      let (m, _) ← systemSession.setContent m a (.int n)
      some (m, l ++ [a])

theorem createNumattr_some {n : Nat} {m : Memory} {l : List Addr}
    (hr : createNumattr n = some (m, l)) :
    ReachesFilling arcsKeepType (State.initial (fun _ => []) fun _ => []) ⟨m, fun _ => 0⟩ ∧
      l.length = n := by
  induction n generalizing m l with
  | zero =>
    cases hr
    exact ⟨.refl, rfl⟩
  | succ n ih =>
    obtain ⟨⟨m₁, l₁⟩, hm₁, hr⟩ := Option.bind_eq_some_iff.mp hr
    obtain ⟨⟨m₂, r, rv⟩, create, hr⟩ := Option.bind_eq_some_iff.mp hr
    obtain ⟨a, -, hr⟩ := Option.bind_eq_some_iff.mp hr
    obtain ⟨⟨m₃, rv'⟩, set, hr⟩ := Option.bind_eq_some_iff.mp hr
    obtain ⟨rfl, rfl⟩ := Prod.mk.inj (Option.some.inj hr)
    obtain ⟨run, length⟩ := ih hm₁
    refine ⟨(run.createEl create).setsContent set, ?_⟩
    rw [List.length_append, length]
    rfl

def isNumbered (m : Memory) (l : List Addr) : Bool :=
  (List.range numattrCnt).all fun k => (l[k]?).bind (contOf m) == some (.int k)

theorem numbered_of_isNumbered {m : Memory} {numattr : Numattr}
    (h : isNumbered m numattr.val = true) : Numbered m numattr := by
  intro k a ha
  have here := List.all_eq_true.mp h k (List.mem_range.mpr (number_lt ha))
  rw [ha] at here
  exact eq_of_beq here

def secondOnly : Option (Memory × List Addr) := do
  let (m, l) ← createNumattr numattrCnt
  let (m, tuple, _) ← systemSession.createEl m 0 (.node ||| .const)
  let (m, _, _) ← systemSession.gen5 noWaits 0 m tuple 0 ordArcType (some 0) 0 ordArcType (some 2)
  some (m, l)

end ScCore.Sets
