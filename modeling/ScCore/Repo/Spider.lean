import ScCore.Repo.Segments
import ScCore.Lib.Worklist

/-!
# Opening a segment with its dependencies

`open_segment_spider` takes the segments that wait one by one, opens each and puts in
those to which the targets of its links map. The targets are URIs of elements and are
mapped as they stand, and what has been opened may be put in again.
-/

namespace ScCore.Repo

open Store (SegId)
open Worklist (drain Reached Covers)

/-- The targets of the links of a segment in the order of its link iterator. Nothing stands
for a segment without such an iterator. -/
abbrev Links := SegId → Option (List Uri)

namespace Libsc

variable (st : Libsc) (links : Links) (ptr : SegId → Int) (ss : SessionNo) (complete : Bool)

/-! ## The loop -/

/-- The segments that the targets map to, put into the set of those that wait, which is ordered
by their pointers. The inner nothing stands for giving up. -/
def queue : List SegId → List Uri → Option (Option (List SegId))
  | S, [] => some (some S)
  | S, target :: targets => do
      match ← st.mapUri target with
      | none => if complete then some none else queue S targets
      | some seg =>
          if seg ∈ S then queue S targets
          else queue (S.orderedInsert (fun i j => ptr i ≤ ptr j) seg) targets

/-- One round. Nothing stands for an assertion that fails. -/
def spiderRound (st : Libsc) (s : SegId) (S : List SegId) :
    Libsc × List SegId ⊕ Option (Option SegId × Libsc) :=
  match st.openSeg ss s, links s with
  | some (_, st), some targets =>
      match st.queue ptr complete S targets with
      | none => .inr none
      | some none => .inr (some (none, st))
      | some (some S) => .inl (st, S)
  | _, _ => .inr none

/-- `open_segment_spider`, with fuel for its loop. -/
def openSegmentSpider (fuel : Nat) (uri : Uri) : Option (Option (Option SegId × Libsc)) :=
  match st.mapUri uri with
  | none => some none
  | some none => some (some (none, st))
  | some (some given) =>
      drain (spiderRound links ptr ss complete) (fun st => some (some given, st)) fuel st [given]

/-! ## What is to be opened -/

/-- The segment of the element that a target names, as `resolve_link_target_addr` takes it. -/
def targetSeg (target : Uri) : Option (Option SegId) := do
  let (r, s) ← findRepo target
  st.dirs.mapSegment r (dirname s)

def LinksTo (j i : SegId) : Prop :=
  ∃ targets, links i = some targets ∧ ∃ target ∈ targets, st.targetSeg target = some (some j)

def Unmapped (given : SegId) : Prop :=
  ∃ i, Reached (st.LinksTo links) given i ∧ ∃ targets, links i = some targets ∧
    ∃ target ∈ targets, ∀ j, st.targetSeg target ≠ some (some j)

def openedBy (i : SegId) : Bool := (st.sessions[ss]?).any fun session => session.opened i

/-- The call ends, and opens the segment and those to which links lead; with `complete` set it
fails if one cannot be mapped. -/
def Spiders (uri : Uri) (given : SegId) : Prop :=
  ∃ fuel found st',
    st.openSegmentSpider links ptr ss complete fuel uri = some (some (found, st')) ∧
      (complete ∧ st.Unmapped links given → found = none) ∧
      (¬ (complete ∧ st.Unmapped links given) → found = some given ∧
        ∀ i, st'.openedBy ss i ↔ st.openedBy ss i ∨ Reached (st.LinksTo links) given i)

/-! ## What the loop follows -/

def Refuses (i : SegId) : Prop :=
  ∃ targets, links i = some targets ∧ ∃ target ∈ targets, st.mapUri target = some none

def Follows (j i : SegId) : Prop :=
  (∃ targets, links i = some targets ∧ ∃ target ∈ targets, st.mapUri target = some (some j)) ∧
    ¬ (complete ∧ st.Refuses links i)

def looked (targets : List Uri) : List Uri :=
  if complete then targets.takeWhile fun target => st.mapUri target ≠ some none else targets

def Openable (i : SegId) : Prop :=
  ∃ seg, st.segs i = some seg ∧ (seg.ring0 = true ∨ ∃ a, st.segSign seg = some a)

def Passes (i : SegId) : Prop :=
  st.Openable i ∧ ∃ targets, links i = some targets ∧
    ∀ target ∈ st.looked complete targets, ∃ found, st.mapUri target = some found

/-- No cycle is followed, and no assertion fails. -/
structure Settles (given : SegId) : Prop where
  acc : Acc (st.Follows links complete) given
  passes : ∀ i, Reached (st.Follows links complete) given i → st.Passes links complete i

def SpiderOpens (given i : SegId) : Prop :=
  Reached (st.Follows links complete) given i ∧ ∃ seg, st.segs i = some seg ∧ seg.ring0 = false

def GivesUp (given : SegId) : Prop :=
  complete ∧ ∃ i, Reached (st.Follows links complete) given i ∧ st.Refuses links i

structure Agrees (given : SegId) : Prop where
  settles : st.Settles links complete given
  givesUp : st.GivesUp links complete given ↔ complete ∧ st.Unmapped links given
  opens : ¬ (complete ∧ st.Unmapped links given) →
    ∀ i, st.openedBy ss i ∨ st.SpiderOpens links complete given i ↔
      st.openedBy ss i ∨ Reached (st.LinksTo links) given i

/-! ## The segments that wait -/

section Queue

variable {st links ptr ss complete}
variable {S S' : List SegId} {target : Uri} {targets : List Uri}

theorem looked_cons : st.looked complete (target :: targets) =
    if complete ∧ st.mapUri target = some none then []
    else target :: st.looked complete targets := by
  cases complete with
  | false => simp [looked]
  | true => by_cases unmapped : st.mapUri target = some none <;> simp [looked, unmapped]

theorem queue_some (hq : st.queue ptr complete S targets = some (some S')) :
    (∃ new : List SegId, S'.Perm (new ++ S) ∧
      ∀ j ∈ new, ∃ target ∈ targets, st.mapUri target = some (some j)) ∧
    ∀ target ∈ targets, ∃ found, st.mapUri target = some found ∧
      (found = none → complete = false) ∧ ∀ j, found = some j → j ∈ S' := by
  induction targets generalizing S with
  | nil =>
    cases hq
    exact ⟨⟨[], .refl _, nofun⟩, nofun⟩
  | cons target targets ih =>
    cases hm : st.mapUri target with
    | none => simp [queue, hm] at hq
    | some found =>
      simp only [queue, hm, Option.bind_eq_bind, Option.bind_some] at hq
      cases found with
      | none =>
        have lenient : complete = false := by
          cases complete with
          | false => rfl
          | true => simp at hq
        rw [lenient, if_neg Bool.false_ne_true, ← lenient] at hq
        obtain ⟨⟨new, perm, named⟩, all⟩ := ih hq
        refine ⟨⟨new, perm, fun j hj => ?_⟩, List.forall_mem_cons.mpr ⟨?_, all⟩⟩
        · obtain ⟨target', hmem, hm'⟩ := named j hj
          exact ⟨target', List.mem_cons_of_mem target hmem, hm'⟩
        · exact ⟨none, hm, fun _ => lenient, nofun⟩
      | some seg =>
        -- whether it is put in or waits already, it waits afterwards
        obtain ⟨T, more, hq, permT, hsegT⟩ : ∃ T more,
            st.queue ptr complete T targets = some (some S') ∧ T.Perm (more ++ S) ∧
              seg ∈ T ∧ ∀ j ∈ more, j = seg := by
          dsimp only at hq
          split at hq
          · next waits => exact ⟨S, [], hq, .refl S, waits, nofun⟩
          · exact ⟨_, [seg], hq, List.perm_orderedInsert _ seg S,
              (List.mem_orderedInsert _).mpr (.inl rfl), by simp⟩
        obtain ⟨⟨new, perm, named⟩, all⟩ := ih hq
        refine ⟨⟨new ++ more, ?_, fun j hj => ?_⟩, List.forall_mem_cons.mpr ⟨?_, all⟩⟩
        · rw [List.append_assoc]
          exact perm.trans (permT.append_left new)
        · rcases List.mem_append.mp hj with hj | hj
          · obtain ⟨target', hmem, hm'⟩ := named j hj
            exact ⟨target', List.mem_cons_of_mem target hmem, hm'⟩
          · exact ⟨target, List.mem_cons_self, by rw [hm, hsegT.2 j hj]⟩
        · refine ⟨some seg, hm, nofun, fun j hj => ?_⟩
          rw [← Option.some.inj hj]
          exact perm.mem_iff.mpr (List.mem_append_right new hsegT.1)

theorem queue_givesUp (hq : st.queue ptr complete S targets = some none) :
    complete = true ∧ ∃ target ∈ targets, st.mapUri target = some none := by
  induction targets generalizing S with
  | nil => cases hq
  | cons target targets ih =>
    rw [List.exists_mem_cons_iff]
    cases hm : st.mapUri target with
    | none => simp [queue, hm] at hq
    | some found =>
      simp only [queue, hm, Option.bind_eq_bind, Option.bind_some] at hq
      cases found with
      | none =>
        dsimp only at hq
        split at hq
        · next strict => exact ⟨strict, .inl rfl⟩
        · exact ⟨(ih hq).1, .inr (ih hq).2⟩
      | some seg =>
        dsimp only at hq
        split at hq
        · exact ⟨(ih hq).1, .inr (ih hq).2⟩
        · exact ⟨(ih hq).1, .inr (ih hq).2⟩

theorem queue_isSome : (∃ queued, st.queue ptr complete S targets = some queued) ↔
    ∀ target ∈ st.looked complete targets, ∃ found, st.mapUri target = some found := by
  induction targets generalizing S with
  | nil =>
    refine iff_of_true ⟨_, rfl⟩ ?_
    cases complete <;> simp [looked]
  | cons target targets ih =>
    rw [looked_cons]
    cases hm : st.mapUri target with
    | none => simp [queue, hm]
    | some found =>
      simp only [queue, hm, Option.bind_eq_bind, Option.bind_some, Option.some.injEq]
      cases found with
      | none =>
        cases complete with
        | false => simpa [hm] using ih
        | true => simp
      | some seg =>
        have mapped : ¬ (complete = true ∧ some seg = none) := nofun
        rw [if_neg mapped, List.forall_mem_cons, and_iff_right ⟨_, hm⟩]
        dsimp only
        split
        · exact ih
        · exact ih

theorem queue_sorted (hq : st.queue ptr complete S targets = some (some S'))
    (sorted : S.Pairwise fun i j => ptr i ≤ ptr j) : S'.Pairwise fun i j => ptr i ≤ ptr j := by
  induction targets generalizing S with
  | nil =>
    cases hq
    exact sorted
  | cons target targets ih =>
    cases hm : st.mapUri target with
    | none => simp [queue, hm] at hq
    | some found =>
      simp only [queue, hm, Option.bind_eq_bind, Option.bind_some] at hq
      cases found with
      | none =>
        dsimp only at hq
        split at hq
        · cases hq
        · exact ih hq sorted
      | some seg =>
        dsimp only at hq
        split at hq
        · exact ih hq sorted
        · exact ih hq (sorted.orderedInsert seg S)

end Queue

/-! ## One round -/

section Round

variable {st links ptr ss complete} {st' st'' : Libsc} {i j : SegId} {S S' : List SegId}

structure Steady (ss : SessionNo) (st st' : Libsc) : Prop where
  dirs : st'.dirs = st.dirs
  core : ∀ i, (st'.segs i).map Seg.ring0 = (st.segs i).map Seg.ring0
  signs : ∀ i, (st'.segs i).bind st'.segSign = (st.segs i).bind st.segSign
  session : ∃ session, st'.sessions[ss]? = some session

theorem Steady.mapUri (h : Steady ss st st') (uri : Uri) : st'.mapUri uri = st.mapUri uri := by
  simp only [Libsc.mapUri, h.dirs]

theorem openable_iff : st.Openable i ↔
    (st.segs i).map Seg.ring0 = some true ∨ ∃ a, (st.segs i).bind st.segSign = some a := by
  cases hseg : st.segs i with
  | none => simp [Openable, hseg]
  | some seg => simp [Openable, hseg]

theorem Steady.openable (h : Steady ss st st') : st'.Openable i ↔ st.Openable i := by
  rw [openable_iff, openable_iff, h.core, h.signs]

theorem openSeg_isSome (hs : ∃ session, st.sessions[ss]? = some session) :
    (∃ opened, st.openSeg ss i = some opened) ↔ st.Openable i := by
  obtain ⟨session, hs⟩ := hs
  constructor
  · rintro ⟨⟨rv, st'⟩, hr⟩
    obtain ⟨-, seg, -, hseg, ⟨core, -⟩ | ⟨-, -, sign, hsign, -⟩⟩ := openSeg_some hr
    · exact ⟨seg, hseg, .inl core⟩
    · exact ⟨seg, hseg, .inr ⟨sign, hsign⟩⟩
  · rintro ⟨seg, hseg, ok⟩
    simp only [openSeg, hs, hseg, Option.bind_eq_bind, Option.bind_some]
    split
    · exact ⟨_, rfl⟩
    · next plain =>
      obtain ⟨a, ha⟩ := ok.resolve_left plain
      rw [ha]
      exact ⟨_, rfl⟩

theorem Steady.openSeg (hs : ∃ session, st.sessions[ss]? = some session) {rv : Retval}
    (hr : st.openSeg ss i = some (rv, st')) : Steady ss st st' ∧
      ∀ j, st'.openedBy ss j ↔
        st.openedBy ss j ∨ j = i ∧ (st.segs i).map Seg.ring0 = some false := by
  obtain ⟨session, seg, hs', hseg, ⟨core, rfl⟩ | ⟨plain, -, sign, hsign, rfl⟩⟩ := openSeg_some hr
  · exact ⟨⟨rfl, fun _ => rfl, fun _ => rfl, hs⟩, fun j => by simp [hseg, core]⟩
  · refine ⟨⟨rfl, fun j => ?_, fun j => ?_, ?_⟩, fun j => ?_⟩
    · by_cases hj : j = i
      · subst hj
        simp [hseg]
      · simp [hj]
    · by_cases hj : j = i
      · subst hj
        simp only [Function.update_self, hseg, Option.bind_some, hsign]
        rfl
      · simp only [Function.update_of_ne hj]
        rfl
    · obtain ⟨lt, -⟩ := List.getElem?_eq_some_iff.mp hs'
      exact ⟨_, by rw [List.getElem?_set_self lt]⟩
    · obtain ⟨lt, -⟩ := List.getElem?_eq_some_iff.mp hs'
      by_cases hj : j = i
      · subst hj
        simp [openedBy, List.getElem?_set_self lt, hseg, plain]
      · simp [openedBy, List.getElem?_set_self lt, hs', hj]

theorem Steady.trans (h : Steady ss st st') (h' : Steady ss st' st'') : Steady ss st st'' where
  dirs := h'.dirs.trans h.dirs
  core i := (h'.core i).trans (h.core i)
  signs i := (h'.signs i).trans (h.signs i)
  session := h'.session

theorem Steady.queue (h : Steady ss st st') (S : List SegId) (targets : List Uri) :
    st'.queue ptr complete S targets = st.queue ptr complete S targets := by
  induction targets generalizing S with
  | nil => rfl
  | cons target targets ih => simp only [Libsc.queue, h.mapUri, ih]

theorem round_goesOn (steady : Steady ss st st')
    (hr : st'.spiderRound links ptr ss complete i S = .inl (st'', S')) :
    Steady ss st st'' ∧ st.Passes links complete i ∧ ¬ (complete ∧ st.Refuses links i) ∧
      (∀ j, st''.openedBy ss j ↔
        st'.openedBy ss j ∨ j = i ∧ (st.segs i).map Seg.ring0 = some false) ∧
      (∃ new : List SegId, S'.Perm (new ++ S) ∧ ∀ j ∈ new, st.Follows links complete j i) ∧
      (∀ j, st.Follows links complete j i → j ∈ S') ∧
      ((S.Pairwise fun i j => ptr i ≤ ptr j) → S'.Pairwise fun i j => ptr i ≤ ptr j) := by
  rw [spiderRound] at hr
  split at hr
  · next rv st₁ targets opened hlinks =>
    obtain ⟨steady₁, opens⟩ := Steady.openSeg steady.session opened
    rw [steady₁.queue, steady.queue] at hr
    split at hr
    · cases hr
    · cases hr
    · next S₁ hq =>
      cases hr
      obtain ⟨⟨new, perm, named⟩, all⟩ := queue_some hq
      have accepts : ¬ (complete ∧ st.Refuses links i) := by
        rintro ⟨strict, targets', hlinks', target, hmem, unmapped⟩
        rw [hlinks] at hlinks'
        cases hlinks'
        obtain ⟨found, hm, lenient, -⟩ := all target hmem
        rw [unmapped] at hm
        cases hm
        rw [lenient rfl] at strict
        cases strict
      have passes : st.Passes links complete i := by
        refine ⟨steady.openable.mp ((openSeg_isSome steady.session).mp ⟨_, opened⟩),
          targets, hlinks, queue_isSome.mp ⟨_, hq⟩⟩
      refine ⟨steady.trans steady₁, passes, accepts, fun j => ?_, ⟨new, perm, fun j hj => ?_⟩,
        fun j hj => ?_, queue_sorted hq⟩
      · rw [opens, steady.core]
      · exact ⟨⟨targets, hlinks, named j hj⟩, accepts⟩
      · obtain ⟨⟨targets', hlinks', target, hmem, hm⟩, -⟩ := hj
        rw [hlinks] at hlinks'
        cases hlinks'
        obtain ⟨found, hm', -, waits⟩ := all target hmem
        rw [hm] at hm'
        cases hm'
        exact waits j rfl
  · cases hr

theorem round_stops (steady : Steady ss st st') {res : Option (Option SegId × Libsc)}
    (hr : st'.spiderRound links ptr ss complete i S = .inr res) :
    (¬ st.Passes links complete i ∧ res = none) ∨
      (st.Passes links complete i ∧ complete ∧ st.Refuses links i ∧
        ∃ st'', res = some (none, st'')) := by
  rw [spiderRound] at hr
  split at hr
  · next rv st₁ targets opened hlinks =>
    obtain ⟨steady₁, -⟩ := Steady.openSeg steady.session opened
    rw [steady₁.queue, steady.queue] at hr
    split at hr
    · next hq =>
      cases hr
      refine .inl ⟨?_, rfl⟩
      rintro ⟨-, targets', hlinks', mapped⟩
      rw [hlinks] at hlinks'
      cases hlinks'
      obtain ⟨queued, hq'⟩ := queue_isSome.mpr mapped
      rw [hq] at hq'
      cases hq'
    · next hq =>
      cases hr
      obtain ⟨strict, refused⟩ := queue_givesUp hq
      exact .inr ⟨⟨steady.openable.mp ((openSeg_isSome steady.session).mp ⟨_, opened⟩),
        targets, hlinks, queue_isSome.mp ⟨_, hq⟩⟩, strict, ⟨targets, hlinks, refused⟩, _, rfl⟩
    · cases hr
  · next fails =>
    cases hr
    refine .inl ⟨?_, rfl⟩
    rintro ⟨openable, targets, hlinks, -⟩
    obtain ⟨⟨rv, st₁⟩, opened⟩ :=
      (openSeg_isSome steady.session).mpr (steady.openable.mpr openable)
    exact fails rv st₁ targets opened hlinks

end Round

/-! ## The whole loop -/

section Loop

variable {st links ptr ss complete} {given : SegId}

def spiderFrom (links : Links) (ptr : SegId → Int) (ss : SessionNo) (complete : Bool)
    (given : SegId) (fuel : Nat) (st : Libsc) : Option (Option (Option SegId × Libsc)) :=
  drain (spiderRound links ptr ss complete) (fun st => some (some given, st)) fuel st [given]

theorem openSegmentSpider_eq {uri : Uri} (hg : st.mapUri uri = some (some given)) (fuel : Nat) :
    st.openSegmentSpider links ptr ss complete fuel uri =
      spiderFrom links ptr ss complete given fuel st := by
  rw [openSegmentSpider, hg]
  rfl

theorem Steady.refl (hs : ∃ session, st.sessions[ss]? = some session) : Steady ss st st :=
  ⟨rfl, fun _ => rfl, fun _ => rfl, hs⟩

/-- Without a cycle the loop ends, in whatever order the segments are taken. -/
theorem Settles.ends (h : st.Settles links complete given)
    (hs : ∃ session, st.sessions[ss]? = some session) (ptr : SegId → Int) :
    ∃ fuel res, spiderFrom links ptr ss complete given fuel st = some res := by
  refine Worklist.drain_ends (I := Steady ss st) (r := st.Follows links complete) ?_
    (Steady.refl hs) fun i hi => List.mem_singleton.mp hi ▸ h.acc
  intro s a as s' as' steady hr
  obtain ⟨steady', -, -, -, new, -⟩ := round_goesOn steady hr
  exact ⟨steady', new⟩

/-- What the loop has opened when it is at the segments `S`. -/
def Opening (links : Links) (ss : SessionNo) (complete : Bool) (given : SegId) (st st' : Libsc)
    (S : List SegId) : Prop :=
  Steady ss st st' ∧ ∃ taken : Set SegId, Covers (st.Follows links complete) given taken S ∧
    (∀ i ∈ taken, ¬ (complete ∧ st.Refuses links i)) ∧
    ∀ i, st'.openedBy ss i ↔
      st.openedBy ss i ∨ i ∈ taken ∧ (st.segs i).map Seg.ring0 = some false

def Left (links : Links) (ss : SessionNo) (complete : Bool) (given : SegId) (st : Libsc)
    (res : Option (Option SegId × Libsc)) : Prop :=
  ∃ found st', res = some (found, st') ∧
    ((found = none ∧ st.GivesUp links complete given) ∨
      (found = some given ∧ ¬ st.GivesUp links complete given ∧
        ∀ i, st'.openedBy ss i ↔ st.openedBy ss i ∨ st.SpiderOpens links complete given i))

variable {res : Option (Option SegId × Libsc)} {P : Set SegId}

theorem Settles.left (h : st.Settles links complete given)
    (hs : ∃ session, st.sessions[ss]? = some session) {fuel : Nat}
    (hr : spiderFrom links ptr ss complete given fuel st = some res) :
    Left links ss complete given st res := by
  refine Worklist.drain_rule (I := Opening links ss complete given st)
    (Q := Left links ss complete given st)
    ?_ ?_ ?_ ?_ hr
  · rintro s a as s' as' ⟨steady, taken, covers, accepted, opens⟩ hr
    obtain ⟨steady', -, accepts, opens', ⟨new, perm, follow⟩, puts, -⟩ := round_goesOn steady hr
    refine ⟨steady', insert a taken, covers.next fun j => ?_, ?_, fun i => ?_⟩
    · constructor
      · intro hj
        rcases List.mem_append.mp (perm.mem_iff.mp hj) with hj | hj
        · exact .inr (follow j hj)
        · exact .inl hj
      · rintro (hj | hj)
        · exact perm.mem_iff.mpr (List.mem_append_right new hj)
        · exact puts j hj
    · rintro i (rfl | hi)
      · exact accepts
      · exact accepted i hi
    · rw [opens', opens, Set.mem_insert_iff]
      grind
  · rintro s a as res ⟨steady, taken, covers, -, -⟩ hr
    have reached := covers.reached a (.inr List.mem_cons_self)
    rcases round_stops steady hr with ⟨fails, -⟩ | ⟨-, strict, refused, s', rfl⟩
    · exact absurd (h.passes a reached) fails
    · exact ⟨none, s', rfl, .inl ⟨rfl, strict, a, reached, refused⟩⟩
  · rintro s ⟨-, taken, covers, accepted, opens⟩
    refine ⟨some given, s, rfl, .inr ⟨rfl, ?_, fun i => ?_⟩⟩
    · rintro ⟨strict, i, reached, refused⟩
      exact accepted i (covers.all.mpr reached) ⟨strict, refused⟩
    · rw [opens, covers.all, SpiderOpens, Option.map_eq_some_iff]
  · exact ⟨Steady.refl hs, ∅, Covers.init _ given, nofun, by simp⟩

/-- A segment that is not done with: an assertion fails for it, or another such one follows. -/
def Stuck (links : Links) (complete : Bool) (st : Libsc) (P : Set SegId) : Prop :=
  ∀ i ∈ P, ¬ st.Passes links complete i ∨ ∃ j ∈ P, st.Follows links complete j i

theorem exists_stuck (h : ¬ st.Settles links complete given) :
    ∃ P : Set SegId, given ∈ P ∧ Stuck links complete st P := by
  by_cases acc : Acc (st.Follows links complete) given
  · have fails : ∃ i, Reached (st.Follows links complete) given i ∧
        ¬ st.Passes links complete i := by
      by_contra none
      push Not at none
      exact h ⟨acc, none⟩
    obtain ⟨i, reached, fails⟩ := fails
    refine ⟨{j | Reached (st.Follows links complete) j i}, reached, fun j hj => ?_⟩
    rcases Relation.ReflTransGen.cases_head hj with rfl | ⟨k, follows, hk⟩
    · exact .inl fails
    · exact .inr ⟨k, hk, follows⟩
  · refine ⟨{j | ¬ Acc (st.Follows links complete) j}, acc, fun j hj => .inr ?_⟩
    obtain ⟨k, follows, hk⟩ := Worklist.exists_of_not_acc hj
    exact ⟨k, hk, follows⟩

open Classical in
noncomputable def pointersFirst (P : Set SegId) (i : Nat) : Int :=
  if i ∈ P then -i - 1 else i

theorem pointersFirst_injective (P : Set SegId) : Function.Injective (pointersFirst P) := by
  intro i j same
  simp only [pointersFirst] at same
  split_ifs at same <;> omega

theorem mem_of_pointersFirst_le {i j : SegId} (hj : j ∈ P)
    (le : pointersFirst P i ≤ pointersFirst P j) : i ∈ P := by
  by_contra hi
  simp only [pointersFirst, if_pos hj, if_neg hi] at le
  omega

theorem Stuck.no_result (stuck : Stuck links complete st P) (hg : given ∈ P)
    (hs : ∃ session, st.sessions[ss]? = some session) {fuel : Nat}
    (hr : spiderFrom links (pointersFirst P) ss complete given fuel st = some res) :
    res = none := by
  have first : ∀ {a : SegId} {as : List SegId}, (∃ i ∈ a :: as, i ∈ P) →
      ((a :: as).Pairwise fun i j => pointersFirst P i ≤ pointersFirst P j) → a ∈ P := by
    rintro a as ⟨i, hi, hP⟩ sorted
    rcases List.mem_cons.mp hi with rfl | hi
    · exact hP
    · exact mem_of_pointersFirst_le hP (List.rel_of_pairwise_cons sorted hi)
  refine Worklist.drain_rule (I := fun st' S => Steady ss st st' ∧ (∃ i ∈ S, i ∈ P) ∧
    S.Pairwise fun i j => pointersFirst P i ≤ pointersFirst P j)
    (Q := fun res => res = none) ?_ ?_ ?_ ?_ hr
  · rintro s a as s' as' ⟨steady, waits, sorted⟩ hr
    obtain ⟨steady', passes, -, -, -, puts, sorted'⟩ := round_goesOn steady hr
    obtain ⟨j, hj, follows⟩ := (stuck a (first waits sorted)).resolve_left (not_not_intro passes)
    exact ⟨steady', ⟨j, puts j follows, hj⟩, sorted' sorted.of_cons⟩
  · rintro s a as res ⟨steady, waits, sorted⟩ hr
    rcases round_stops steady hr with ⟨-, rfl⟩ | ⟨passes, strict, refused, -⟩
    · rfl
    · obtain ⟨j, -, -, accepts⟩ :=
        (stuck a (first waits sorted)).resolve_left (not_not_intro passes)
      exact absurd ⟨strict, refused⟩ accepts
  · rintro s ⟨-, ⟨i, hi, -⟩, -⟩
    cases hi
  · exact ⟨Steady.refl hs, ⟨given, List.mem_singleton_self given, hg⟩,
      List.pairwise_singleton _ given⟩

end Loop

end Libsc

/-- `/tmp/a`, which has a link to the element `x` of `/tmp/b`. -/
def linkedSegments : Option Libsc := do
  let (_, st) ← libscInit.login.createSegment none "/tmp/a".toList
  let (_, st) ← st.createSegment none "/tmp/b".toList
  some st

def linkToB : Links := fun i => some (if i = 5 then ["/tmp/b/x".toList] else [])

theorem Libsc.Spiders.at_fuel {st : Libsc} {links : Links} {ptr : SegId → Int} {ss : SessionNo}
    {complete : Bool} {uri : Uri} {given : SegId} {fuel : Nat} {found : Option SegId} {st' : Libsc}
    (h : st.Spiders links ptr ss complete uri given) (hg : st.mapUri uri = some (some given))
    (hr : st.openSegmentSpider links ptr ss complete fuel uri = some (some (found, st')))
    (mapped : ¬ (complete ∧ st.Unmapped links given)) : found = some given ∧
      ∀ i, Reached (st.LinksTo links) given i → st'.openedBy ss i = true := by
  obtain ⟨fuel', found', st₁, hr', -, opens⟩ := h
  rw [openSegmentSpider_eq hg] at hr hr'
  cases Worklist.drain_unique hr hr'
  exact ⟨(opens mapped).1, fun i reached => ((opens mapped).2 i).mpr (.inr reached)⟩

end ScCore.Repo
