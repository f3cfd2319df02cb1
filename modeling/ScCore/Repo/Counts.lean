import ScCore.Repo.Segments
import Mathlib.Algebra.Order.BigOperators.Group.Finset

/-!
# References of sessions

Every session holds one reference to each segment that it has opened and one to
the sign of the segment, as long as nothing is opened a second time and no
session is forked that has something open.
-/

namespace ScCore.Repo

open Store (SegId Addr)

inductive SegCall where
  | login
  | createSegment (ss : Option SessionNo) (uri : Uri)
  | mkdir (uri : Uri)
  | openSegment (ss : SessionNo) (uri : Uri)
  | closeSegment (ss : SessionNo) (i : SegId)
  | closeSegmentUri (ss : SessionNo) (uri : Uri)
  | fork (ss : SessionNo)
  | close (ss : SessionNo)
  deriving DecidableEq, Repr

def Libsc.alive (st : Libsc) (ss : SessionNo) : Bool :=
  (st.sessions[ss]?).any fun session => !session.dead

def SegCall.session : SegCall → Option SessionNo
  | .login | .mkdir _ => none
  | .createSegment ss _ => ss
  | .openSegment ss _ | .closeSegment ss _ | .closeSegmentUri ss _ | .fork ss | .close ss => some ss

def SegCall.call (st : Libsc) : SegCall → Option Libsc
  | .login => some st.login
  | .createSegment ss uri => (st.createSegment ss uri).map Prod.snd
  | .mkdir uri => (st.mkdir uri).map Prod.snd
  | .openSegment ss uri => (st.openSegment ss uri).map Prod.snd
  | .closeSegment ss i => (st.closeSeg ss i).map Prod.snd
  | .closeSegmentUri ss uri => (st.closeSegUri ss uri).map Prod.snd
  | .fork ss => (st.fork ss).map Prod.snd
  | .close ss => st.close ss

/-- Nothing stands for a call that cannot be made or does not return. -/
def SegCall.exec (st : Libsc) (c : SegCall) : Option Libsc :=
  if c.session.all st.alive then c.call st else none

/-! ## What sessions are to hold -/

namespace Libsc

def openers (st : Libsc) (i : SegId) : Nat := st.sessions.countP fun session => session.opened i

def signOpenersOf (st : Libsc) (a : Addr) (i : SegId) : Nat :=
  if (st.segs i).bind Seg.sign = some a then st.openers i else 0

def signOpeners (st : Libsc) (a : Addr) : Nat :=
  ∑ i ∈ Finset.range scMaxSegments, st.signOpenersOf a i

def base (start : Libsc) (i : SegId) : Int := (start.segs i).elim 1 Seg.refcnt

/-- Each session contributes one reference to a segment and one to its sign if it has the
segment open, and none otherwise. -/
structure Balanced (start st : Libsc) : Prop where
  segs : ∀ i seg, st.segs i = some seg → seg.refcnt = start.base i + st.openers i
  signs : ∀ a, st.refs a = start.refs a + st.signOpeners a

structure Start (start : Libsc) : Prop where
  sessions : start.sessions = []
  held : ∀ i seg, start.segs i = some seg → 1 ≤ seg.refcnt ∧ i < scMaxSegments

end Libsc

def SegCall.Clean (st : Libsc) : SegCall → Prop
  | .createSegment (some ss) uri => ∀ i, st.mapUri uri = some (some i) →
      (∀ session, st.sessions[ss]? = some session → session.opened i = false) ∧
        ∀ seg, st.segs i = some seg → seg.ring0 = false
  | .fork ss => ∀ session, st.sessions[ss]? = some session → ∀ i, session.opened i = false
  | _ => True

inductive CleanRun (start : Libsc) : Libsc → Prop where
  | start : CleanRun start start
  | step {st st' : Libsc} {c : SegCall} : CleanRun start st → c.Clean st →
      c.exec st = some st' → CleanRun start st'

namespace Libsc

structure CountInv (start st : Libsc) : Prop extends Balanced start st where
  known : ∀ i, 0 < st.openers i → ∃ seg, st.segs i = some seg ∧ seg.sign ≠ none
  bound : ∀ i seg, st.segs i = some seg → i < scMaxSegments
  kept : ∀ i, start.segs i ≠ none → st.segs i ≠ none
  idle : ∀ session ∈ st.sessions, session.dead = true → ∀ i, session.opened i = false

variable {start st st' : Libsc} {i : SegId} {ss : SessionNo} {session : NormalSession}

theorem signOpeners_congr {a : Addr} (same : ∀ i, st'.signOpenersOf a i = st.signOpenersOf a i) :
    st'.signOpeners a = st.signOpeners a :=
  Finset.sum_congr rfl fun i _ => same i

theorem Start.countInv (h : Start start) : CountInv start start where
  segs i seg hseg := by simp [base, hseg, openers, h.sessions]
  signs a := by simp [signOpeners, signOpenersOf, openers, h.sessions]
  known i hi := by simp [openers, h.sessions] at hi
  bound i seg hseg := (h.held i seg hseg).2
  kept _ h := h
  idle session hs := by simp [h.sessions] at hs

theorem Start.base_pos (h : Start start) (i : SegId) : 1 ≤ start.base i := by
  cases hseg : start.segs i with
  | none => simp [base, hseg]
  | some seg => simpa [base, hseg] using (h.held i seg hseg).1

/-- New segments appear, and nothing else that concerns the references changes. -/
structure Grows (st st' : Libsc) : Prop where
  sessions : st'.sessions = st.sessions
  refs : st'.refs = st.refs
  old : ∀ i seg, st.segs i = some seg → st'.segs i = some seg
  new : ∀ i seg, st.segs i = none → st'.segs i = some seg →
    seg.refcnt = 1 ∧ seg.sign = none ∧ seg.ring0 = false ∧ i < scMaxSegments

theorem Grows.refl (st : Libsc) : Grows st st :=
  ⟨rfl, rfl, fun _ _ h => h, fun _ _ h h' => by rw [h] at h'; cases h'⟩

theorem Grows.trans {st'' : Libsc} (h : Grows st st') (h' : Grows st' st'') : Grows st st'' where
  sessions := h'.sessions.trans h.sessions
  refs := h'.refs.trans h.refs
  old i seg hseg := h'.old i seg (h.old i seg hseg)
  new i seg hnone hseg := by
    cases hmid : st'.segs i with
    | none => exact h'.new i seg hmid hseg
    | some mid =>
      have same := h'.old i mid hmid
      rw [hseg, Option.some.injEq] at same
      exact same ▸ h.new i mid hnone hmid

theorem CountInv.grows (inv : CountInv start st) (h : Grows st st') : CountInv start st' := by
  have openers : ∀ i, st'.openers i = st.openers i := by
    intro i
    rw [Libsc.openers, h.sessions]
    rfl
  have closed : ∀ i, st.segs i = none → st.openers i = 0 := by
    intro i hnone
    by_contra held
    obtain ⟨seg, hseg, -⟩ := inv.known i (Nat.pos_of_ne_zero held)
    rw [hnone] at hseg
    cases hseg
  refine ⟨⟨?_, ?_⟩, ?_, ?_, ?_, ?_⟩
  · intro i seg hseg
    rw [openers]
    cases hold : st.segs i with
    | none =>
      have unknown : start.segs i = none := by
        by_contra known
        exact inv.kept i known hold
      rw [(h.new i seg hold hseg).1, closed i hold]
      simp [base, unknown]
    | some old =>
      have same := h.old i old hold
      rw [hseg, Option.some.injEq] at same
      exact same ▸ inv.segs i old hold
  · intro a
    have same : ∀ i, st'.signOpenersOf a i = st.signOpenersOf a i := by
      intro i
      rw [signOpenersOf, signOpenersOf, openers]
      cases hold : st.segs i with
      | none => simp [closed i hold]
      | some old => rw [h.old i old hold]
    rw [h.refs, inv.signs a, signOpeners_congr same]
  · intro i hi
    rw [openers] at hi
    obtain ⟨seg, hseg, signed⟩ := inv.known i hi
    exact ⟨seg, h.old i seg hseg, signed⟩
  · intro i seg hseg
    cases hold : st.segs i with
    | none => exact (h.new i seg hold hseg).2.2.2
    | some old => exact inv.bound i old hold
  · intro i hi hnone
    obtain ⟨old, hold⟩ := Option.ne_none_iff_exists'.mp (inv.kept i hi)
    rw [h.old i old hold] at hnone
    cases hnone
  · rw [h.sessions]
    exact inv.idle

/-! ## Opening and closing -/

theorem openers_set {sessions : List NormalSession} (hs : sessions[ss]? = some session)
    (session' : NormalSession) (i : SegId) :
    (sessions.set ss session').countP (fun s => s.opened i) +
        (if session.opened i then 1 else 0) =
      sessions.countP (fun s => s.opened i) + (if session'.opened i then 1 else 0) := by
  obtain ⟨hlt, hget⟩ := List.getElem?_eq_some_iff.mp hs
  have held : (if session.opened i then 1 else 0) ≤ sessions.countP fun s => s.opened i := by
    split
    · next opened =>
      exact List.countP_pos_iff.mpr ⟨session, List.mem_of_getElem? hs, opened⟩
    · exact Nat.zero_le _
  rw [List.countP_set hlt, hget]
  omega

theorem sum_range_change {f f' : Nat → Nat} {n i : Nat} (hi : i < n)
    (same : ∀ j, j ≠ i → f' j = f j) :
    ∑ j ∈ Finset.range n, f' j + f i = ∑ j ∈ Finset.range n, f j + f' i := by
  have hmem : i ∈ Finset.range n := Finset.mem_range.mpr hi
  rw [← Finset.add_sum_erase _ f hmem, ← Finset.add_sum_erase _ f' hmem]
  have rest : ∑ j ∈ (Finset.range n).erase i, f' j = ∑ j ∈ (Finset.range n).erase i, f j :=
    Finset.sum_congr rfl fun j hj => same j (Finset.ne_of_mem_erase hj)
  omega

variable {seg : Seg} {sign : Addr} {rv : Retval} {r : RepoId} {s uri : Uri} {found : Option SegId}

section

variable (inv : CountInv start st)
include inv

theorem CountInv.change {session' : NormalSession} {d : Int} (hs : st.sessions[ss]? = some session)
    (hseg : st.segs i = some seg) (others : ∀ j, j ≠ i → session'.opened j = session.opened j)
    (turn : (if session'.opened i then 1 else 0 : Int) = (if session.opened i then 1 else 0) + d)
    (hsign : seg.sign = none ∨ seg.sign = some sign)
    (idle : session'.dead = true → ∀ j, session'.opened j = false) :
    CountInv start
      { st with
        refs := Function.update st.refs sign (st.refs sign + d)
        segs := Function.update st.segs i
          (some { seg with sign := some sign, refcnt := seg.refcnt + d })
        sessions := st.sessions.set ss session' } := by
  generalize hst : ({ st with
    refs := Function.update st.refs sign (st.refs sign + d)
    segs := Function.update st.segs i
      (some { seg with sign := some sign, refcnt := seg.refcnt + d })
    sessions := st.sessions.set ss session' } : Libsc) = st'
  have hsegs : st'.segs = Function.update st.segs i
      (some { seg with sign := some sign, refcnt := seg.refcnt + d }) := by rw [← hst]
  have hrefs : st'.refs = Function.update st.refs sign (st.refs sign + d) := by rw [← hst]
  have hsessions : st'.sessions = st.sessions.set ss session' := by rw [← hst]
  have hcount : ∀ j, st'.openers j + (if session.opened j then 1 else 0) =
      st.openers j + (if session'.opened j then 1 else 0) := by
    intro j
    rw [openers, hsessions]
    exact openers_set hs session' j
  have hother : ∀ j, j ≠ i → st'.openers j = st.openers j := by
    intro j hj
    have count := hcount j
    rw [others j hj] at count
    exact Nat.add_right_cancel count
  have hown : (st'.openers i : Int) = st.openers i + d := by
    have count := hcount i
    split_ifs at count turn <;> omega
  refine ⟨⟨?_, ?_⟩, ?_, ?_, ?_, ?_⟩
  · intro j seg' hseg'
    rw [hsegs] at hseg'
    by_cases same : j = i
    · subst same
      rw [Function.update_self, Option.some.injEq] at hseg'
      subst hseg'
      rw [hown, inv.segs j seg hseg, add_assoc]
    · rw [Function.update_of_ne same] at hseg'
      rw [hother j same]
      exact inv.segs j seg' hseg'
  · intro a
    have away : ∀ j, j ≠ i → st'.signOpenersOf a j = st.signOpenersOf a j := by
      intro j hj
      rw [signOpenersOf, signOpenersOf, hsegs, Function.update_of_ne hj, hother j hj]
    have total := sum_range_change (inv.bound i seg hseg) away
    change st'.signOpeners a + _ = st.signOpeners a + _ at total
    have here : st'.signOpenersOf a i = if sign = a then st'.openers i else 0 := by
      rw [signOpenersOf, hsegs, Function.update_self]
      simp
    have before : st.signOpenersOf a i = if sign = a then st.openers i else 0 := by
      rw [signOpenersOf, hseg]
      rcases hsign with unsigned | signed
      · have unopened : st.openers i = 0 := by
          by_contra held
          obtain ⟨seg', hseg', signed⟩ := inv.known i (Nat.pos_of_ne_zero held)
          rw [hseg, Option.some.injEq] at hseg'
          exact signed (hseg' ▸ unsigned)
        simp [unsigned, unopened]
      · simp [signed]
    rw [here, before] at total
    rw [hrefs]
    by_cases same : a = sign
    · subst same
      rw [Function.update_self, inv.signs a]
      simp only [if_true] at total
      omega
    · rw [Function.update_of_ne same, inv.signs a]
      simp only [Ne.symm same, if_false] at total
      omega
  · intro j hj
    rw [hsegs]
    by_cases same : j = i
    · subst same
      rw [Function.update_self]
      exact ⟨_, rfl, nofun⟩
    · rw [Function.update_of_ne same]
      rw [hother j same] at hj
      exact inv.known j hj
  · intro j seg' hseg'
    rw [hsegs] at hseg'
    by_cases same : j = i
    · subst same
      exact inv.bound j seg hseg
    · rw [Function.update_of_ne same] at hseg'
      exact inv.bound j seg' hseg'
  · intro j hj
    rw [hsegs]
    by_cases same : j = i
    · subst same
      rw [Function.update_self]
      exact nofun
    · rw [Function.update_of_ne same]
      exact inv.kept j hj
  · intro s hmem
    rw [hsessions] at hmem
    rcases List.mem_or_eq_of_mem_set hmem with hmem | rfl
    · exact inv.idle s hmem
    · exact idle

theorem CountInv.opened (hs : st.sessions[ss]? = some session) (hseg : st.segs i = some seg)
    (closed : session.opened i = false) (alive : session.dead = false)
    (hsign : seg.sign = none ∨ seg.sign = some sign) :
    CountInv start
      { st with
        refs := Function.update st.refs sign (st.refs sign + 1)
        segs := Function.update st.segs i
          (some { seg with sign := some sign, refcnt := seg.refcnt + 1 })
        sessions := st.sessions.set ss
          { session with opened := Function.update session.opened i true } } := by
  apply inv.change hs hseg
  · intro j hj
    exact Function.update_of_ne hj _ _
  · simp [closed]
  · exact hsign
  · intro dead
    rw [alive] at dead
    cases dead

theorem CountInv.closed (h : Start start) (hs : st.sessions[ss]? = some session)
    (hseg : st.segs i = some seg) (opened : session.opened i = true)
    (hsign : seg.sign = some sign) :
    CountInv start (unrefSeg
      { st with
        sessions := st.sessions.set ss
          { session with opened := Function.update session.opened i false }
        refs := Function.update st.refs sign (st.refs sign - 1) } i) := by
  have held : 0 < st.openers i :=
    List.countP_pos_iff.mpr ⟨session, List.mem_of_getElem? hs, opened⟩
  have stays : seg.refcnt - 1 ≠ 0 := by
    have count := inv.segs i seg hseg
    have base := h.base_pos i
    omega
  have alive : session.dead = false := by
    by_contra dead
    have idle := inv.idle session (List.mem_of_getElem? hs) (by simpa using dead) i
    rw [opened] at idle
    cases idle
  let session' := { session with opened := Function.update session.opened i false }
  have others : ∀ j, j ≠ i → session'.opened j = session.opened j :=
    fun j hj => Function.update_of_ne hj _ _
  have turn : (if session'.opened i then 1 else 0 : Int) =
      (if session.opened i then 1 else 0) + -1 := by
    simp [session', opened]
  have idle : session'.dead = true → ∀ j, session'.opened j = false := by
    intro dead
    rw [show session'.dead = false from alive] at dead
    cases dead
  have changed := inv.change hs hseg others turn (.inr hsign) idle
  rw [unrefSeg]
  simp only [hseg, stays, if_false]
  rw [← hsign] at changed
  exact changed

theorem CountInv.openSeg (hr : st.openSeg ss i = some (rv, st')) (alive : st.alive ss = true)
    (closed : ∀ session, st.sessions[ss]? = some session → session.opened i = false) :
    CountInv start st' := by
  obtain ⟨session, seg, hs, hseg, ⟨-, rfl⟩ | ⟨-, -, sign, hsign, rfl⟩⟩ := openSeg_some hr
  · exact inv
  · have living : session.dead = false := by simpa [Libsc.alive, hs] using alive
    exact inv.opened hs hseg (closed session hs) living (segSign_some hsign)

theorem CountInv.closeSeg (h : Start start) (hr : st.closeSeg ss i = some (rv, st')) :
    CountInv start st' ∧ ∃ session session', st.sessions[ss]? = some session ∧
      st'.sessions[ss]? = some session' ∧ session'.opened i = false ∧
        ∀ j, session.opened j = false → session'.opened j = false := by
  simp only [Libsc.closeSeg, Option.bind_eq_bind, Option.bind_eq_some_iff] at hr
  obtain ⟨session, hs, hr⟩ := hr
  split at hr
  · next closed =>
    cases hr
    exact ⟨inv, session, session, hs, hs, closed, fun _ h => h⟩
  · next opened =>
    simp only [Option.bind_eq_some_iff] at hr
    obtain ⟨seg, hseg, sign, hsign, hr⟩ := hr
    cases hr
    refine ⟨inv.closed h hs hseg (by simpa using opened) hsign, session,
      { session with opened := Function.update session.opened i false }, hs, ?_, ?_, ?_⟩
    · simp only [unrefSeg, hseg]
      rw [List.getElem?_set_self (List.getElem?_eq_some_iff.mp hs).1]
    · exact Function.update_self i false session.opened
    · intro j hj
      by_cases same : j = i
      · subst same
        exact Function.update_self j false session.opened
      · exact (Function.update_of_ne same _ _).trans hj

end

/-! ## New segments and signs -/

theorem Grows.createDirent {dir created : Bool}
    (hr : st.createDirent r s dir = some (created, st')) : Grows st st' := by
  simp only [Libsc.createDirent, Option.bind_eq_bind, Option.bind_eq_some_iff] at hr
  obtain ⟨found, -, hr⟩ := hr
  split at hr
  · cases hr
    exact .refl st
  · split at hr
    · cases hr
      exact ⟨rfl, rfl, fun _ _ h => h, fun _ _ h h' => by rw [h] at h'; cases h'⟩
    · obtain ⟨i, hi, hr⟩ := Option.bind_eq_some_iff.mp hr
      cases hr
      rw [assign] at hi
      have free : st.segs i = none := by simpa using List.find?_some hi
      have bound := List.mem_range.mp (List.mem_of_find?_eq_some hi)
      refine ⟨rfl, rfl, ?_, ?_⟩
      · intro j seg hseg
        have other : j ≠ i := by
          rintro rfl
          rw [free] at hseg
          cases hseg
        exact (Function.update_of_ne other _ _).trans hseg
      · intro j seg hnone hseg
        by_cases same : j = i
        · subst same
          simp only [Function.update_self, Option.some.injEq] at hseg
          subst hseg
          exact ⟨rfl, rfl, rfl, bound⟩
        · simp only [Function.update_of_ne same] at hseg
          rw [hnone] at hseg
          cases hseg

theorem Grows.repoCreateSegment (hr : st.repoCreateSegment r s = some (rv, st')) :
    Grows st st' := by
  simp only [Libsc.repoCreateSegment, Option.bind_eq_bind, Option.bind_eq_some_iff] at hr
  obtain ⟨found, -, hr⟩ := hr
  split at hr
  · cases hr
    exact .refl st
  · obtain ⟨⟨created, st₁⟩, hcreate, hr⟩ := Option.bind_eq_some_iff.mp hr
    cases hr
    exact Grows.createDirent hcreate

theorem Grows.createSignIn (st : Libsc) (i : SegId) (name : Uri) :
    Grows st (st.createSignIn i name) := by
  rw [Libsc.createSignIn]
  split
  · exact .refl st
  · exact ⟨rfl, rfl, fun _ _ h => h, fun _ _ h h' => by rw [h] at h'; cases h'⟩

theorem Grows.createSign (hr : st.createSign uri = some (rv, st')) : Grows st st' := by
  simp only [Libsc.createSign, Option.bind_eq_bind, Option.bind_eq_some_iff] at hr
  obtain ⟨found, -, hr⟩ := hr
  split at hr
  · cases hr
    exact .refl st
  · cases hr
    split
    · exact (Grows.createSignIn st _ _).trans (.createSignIn _ _ _)
    · exact .createSignIn _ _ _

theorem Grows.mkdir (hr : st.mkdir uri = some (rv, st')) : Grows st st' := by
  simp only [Libsc.mkdir, Option.bind_eq_bind, Option.bind_eq_some_iff] at hr
  obtain ⟨⟨r, s⟩, -, ⟨error, st₁⟩, hdir, hr⟩ := hr
  have first : Grows st st₁ := by
    obtain ⟨⟨created, st₂⟩, hcreate, hdir⟩ := Option.bind_eq_some_iff.mp hdir
    cases hdir
    exact .createDirent hcreate
  split at hr
  · cases hr
    exact first
  · simp only [Option.bind_eq_some_iff] at hr
    obtain ⟨⟨rv₂, st₂⟩, hsign, ⟨r', s'⟩, -, ⟨rv₃, st₃⟩, hseg, ⟨rv₄, st₄⟩, hsign', hr⟩ := hr
    cases hr
    exact ((first.trans (.createSign hsign)).trans (.repoCreateSegment hseg)).trans
      (.createSign hsign')

theorem mapped_of_create (hr : st.repoCreateSegment r s = some (rv, st'))
    (hi : st'.dirs.mapSegment r s = some (some i)) :
    (st.dirs.mapSegment r s = some (some i) ∧ st' = st) ∨ st.segs i = none := by
  simp only [Libsc.repoCreateSegment, Option.bind_eq_bind, Option.bind_eq_some_iff] at hr
  obtain ⟨found, hfound, hr⟩ := hr
  split at hr
  · cases hr
    exact .inl ⟨hi, rfl⟩
  · obtain ⟨⟨created, st₁⟩, hcreate, hr⟩ := Option.bind_eq_some_iff.mp hr
    cases hr
    simp only [Libsc.createDirent, Option.bind_eq_bind, Option.bind_eq_some_iff] at hcreate
    obtain ⟨place, -, hcreate⟩ := hcreate
    split at hcreate
    · cases hcreate
      exact .inl ⟨hi, rfl⟩
    · rw [if_neg Bool.false_ne_true] at hcreate
      obtain ⟨k, hk, hcreate⟩ := Option.bind_eq_some_iff.mp hcreate
      cases hcreate
      rw [assign] at hk
      have free : st.segs k = none := by simpa using List.find?_some hk
      simp only [Dirs.mapSegment, Dirs.findDirent, Option.bind_eq_bind] at hi hfound
      split at hi
      · cases hi
      · next path =>
        rw [if_neg path] at hfound
        simp only [Option.bind_some] at hi hfound
        rcases st.dirs.findFrom_add_seg r.dir [] false s with same | new
        · rw [same, hfound] at hi
          cases hi
        · rw [new] at hi
          cases hi
          exact .inr free

section

variable (inv : CountInv start st)
include inv

theorem CountInv.createSegment {ss : Option SessionNo}
    (hr : st.createSegment ss uri = some (found, st')) (alive : ss.all st.alive = true)
    (clean : (SegCall.createSegment ss uri).Clean st) : CountInv start st' := by
  simp only [Libsc.createSegment, Option.bind_eq_bind, Option.bind_eq_some_iff] at hr
  obtain ⟨⟨r, s⟩, hrepo, ⟨rv, st₁⟩, hcreate, hr⟩ := hr
  have first := Grows.repoCreateSegment hcreate
  split at hr
  · cases hr
    exact inv.grows first
  · obtain ⟨mapped, hmapped, hr⟩ := Option.bind_eq_some_iff.mp hr
    cases mapped with
    | none =>
      cases hr
      exact inv.grows first
    | some i =>
      obtain ⟨⟨rv₂, st₂⟩, hsign, hr⟩ := Option.bind_eq_some_iff.mp hr
      have grown := first.trans (Grows.createSign hsign)
      cases ss with
      | none =>
        cases hr
        exact inv.grows grown
      | some ss =>
        obtain ⟨⟨rv₃, st₃⟩, hopen, hr⟩ := Option.bind_eq_some_iff.mp hr
        -- The segment is new or was there, and the session does not have it open.
        have fresh : (∀ session, st₂.sessions[ss]? = some session → session.opened i = false) ∧
            ∀ seg, st₂.segs i = some seg → seg.ring0 = false := by
          rw [grown.sessions]
          rcases mapped_of_create hcreate hmapped with ⟨was, -⟩ | free
          · have mapped : st.mapUri uri = some (some i) := by
              simpa [mapUri, hrepo] using was
            obtain ⟨closed, plain⟩ := clean i mapped
            refine ⟨closed, fun seg hseg => ?_⟩
            cases hold : st.segs i with
            | none => exact (grown.new i seg hold hseg).2.2.1
            | some old =>
              have same := grown.old i old hold
              rw [hseg, Option.some.injEq] at same
              exact same ▸ plain old hold
          · refine ⟨fun session hs => ?_, fun seg hseg => (grown.new i seg free hseg).2.2.1⟩
            by_contra opened
            have held : 0 < st.openers i := List.countP_pos_iff.mpr
              ⟨session, List.mem_of_getElem? hs, by simpa using opened⟩
            obtain ⟨seg, hseg, -⟩ := inv.known i held
            rw [free] at hseg
            cases hseg
        have living : st₂.alive ss = true := by
          rw [Libsc.alive, grown.sessions]
          exact alive
        have opened := (inv.grows grown).openSeg hopen living fresh.1
        have ok : rv₃ = rvOk := by
          obtain ⟨session, seg, -, hseg, ⟨core, -⟩ | ⟨-, ok, -⟩⟩ := openSeg_some hopen
          · rw [fresh.2 seg hseg] at core
            cases core
          · exact ok
        rw [if_neg (not_not.mpr ok)] at hr
        cases hr
        exact opened

theorem CountInv.openSegment (hr : st.openSegment ss uri = some (found, st'))
    (alive : st.alive ss = true) : CountInv start st' := by
  simp only [Libsc.openSegment, Option.bind_eq_bind, Option.bind_eq_some_iff] at hr
  obtain ⟨session, hs, mapped, -, hr⟩ := hr
  cases mapped with
  | none =>
    cases hr
    exact inv
  | some i =>
    simp only at hr
    split at hr
    · cases hr
      exact inv
    · next closed =>
      obtain ⟨⟨rv, st₁⟩, hopen, hr⟩ := Option.bind_eq_some_iff.mp hr
      cases hr
      refine inv.openSeg hopen alive fun session' hs' => ?_
      rw [hs, Option.some.injEq] at hs'
      exact hs' ▸ by simpa using closed

theorem CountInv.login : CountInv start st.login := by
  have openers : ∀ i, st.login.openers i = st.openers i := by
    intro i
    simp [Libsc.openers, Libsc.login]
  refine ⟨⟨?_, ?_⟩, ?_, inv.bound, inv.kept, ?_⟩
  · intro i seg hseg
    rw [openers]
    exact inv.segs i seg hseg
  · intro a
    have same : ∀ i, st.login.signOpenersOf a i = st.signOpenersOf a i := by
      intro i
      rw [signOpenersOf, signOpenersOf, openers]
      rfl
    rw [signOpeners_congr same]
    exact inv.signs a
  · intro i hi
    rw [openers] at hi
    exact inv.known i hi
  · intro session hs
    rcases List.mem_append.mp hs with hs | hs
    · exact inv.idle session hs
    · rw [List.mem_singleton] at hs
      subst hs
      exact fun _ _ => rfl

theorem CountInv.fork {son : SessionNo} (hr : st.fork ss = some (son, st'))
    (clean : (SegCall.fork ss).Clean st) : CountInv start st' := by
  simp only [Libsc.fork, Option.bind_eq_bind, Option.bind_eq_some_iff] at hr
  obtain ⟨session, hs, st₁, hfold, hr⟩ := hr
  have nothing : forAll session = [] :=
    List.filter_eq_nil_iff.mpr fun i _ => by simp [clean session hs i]
  rw [nothing] at hfold
  cases hfold
  cases hr
  exact inv.login

theorem CountInv.closeAll (h : Start start) {l : List SegId} (hs : st.sessions[ss]? = some session)
    (hr : l.foldlM (fun st i => do let (_, st) ← Libsc.closeSeg st ss i; some st) st = some st') :
    CountInv start st' ∧ ∃ session', st'.sessions[ss]? = some session' ∧
      (∀ i ∈ l, session'.opened i = false) ∧
        ∀ j, session.opened j = false → session'.opened j = false := by
  induction l generalizing st session with
  | nil =>
    cases hr
    exact ⟨inv, session, hs, nofun, fun _ h => h⟩
  | cons i l ih =>
    simp only [List.foldlM_cons, Option.bind_eq_bind, Option.bind_eq_some_iff] at hr
    obtain ⟨st₁, ⟨⟨rv, st₂⟩, hclose, same⟩, hr⟩ := hr
    cases same
    obtain ⟨inv', was, session₁, hs', hs₁, closed, stays⟩ := inv.closeSeg h hclose
    rw [hs, Option.some.injEq] at hs'
    subst hs'
    obtain ⟨inv'', session₂, hs₂, closed', stays'⟩ := ih inv' hs₁ hr
    refine ⟨inv'', session₂, hs₂, ?_, fun j hj => stays' j (stays j hj)⟩
    intro j hj
    rcases List.mem_cons.mp hj with rfl | hj
    · exact stays' j closed
    · exact closed' j hj

theorem CountInv.marked (hs : st.sessions[ss]? = some session)
    (closed : ∀ i, session.opened i = false) :
    CountInv start (st.setSession ss { session with dead := true }) := by
  have openers : ∀ i, (st.setSession ss { session with dead := true }).openers i =
      st.openers i := fun i => Nat.add_right_cancel (openers_set hs _ i)
  refine ⟨⟨?_, ?_⟩, ?_, inv.bound, inv.kept, ?_⟩
  · intro i seg hseg
    rw [openers]
    exact inv.segs i seg hseg
  · intro a
    have same : ∀ i, (st.setSession ss { session with dead := true }).signOpenersOf a i =
        st.signOpenersOf a i := by
      intro i
      rw [signOpenersOf, signOpenersOf, openers]
      rfl
    rw [signOpeners_congr same]
    exact inv.signs a
  · intro i hi
    rw [openers] at hi
    exact inv.known i hi
  · intro session' hmem
    rcases List.mem_or_eq_of_mem_set hmem with hmem | rfl
    · exact inv.idle session' hmem
    · exact fun _ => closed

theorem CountInv.close (h : Start start) (hr : st.close ss = some st') : CountInv start st' := by
  simp only [Libsc.close, Option.bind_eq_bind, Option.bind_eq_some_iff] at hr
  obtain ⟨session, hs, st₁, hfold, session₁, hs₁, hr⟩ := hr
  cases hr
  obtain ⟨inv', session', hs', closed, stays⟩ := inv.closeAll h hs hfold
  rw [hs₁, Option.some.injEq] at hs'
  subst hs'
  apply inv'.marked hs₁
  intro i
  by_cases opened : session.opened i = true
  · have held : 0 < st.openers i :=
      List.countP_pos_iff.mpr ⟨session, List.mem_of_getElem? hs, opened⟩
    obtain ⟨seg, hseg, -⟩ := inv.known i held
    exact closed i (List.mem_filter.mpr ⟨List.mem_range.mpr (inv.bound i seg hseg), opened⟩)
  · exact stays i (by simpa using opened)

/-! ## Runs -/

theorem CountInv.exec (h : Start start) {c : SegCall} (clean : c.Clean st)
    (hr : c.exec st = some st') : CountInv start st' := by
  rw [SegCall.exec] at hr
  split at hr
  · next alive =>
    cases c with
    | login =>
      cases hr
      exact inv.login
    | createSegment ss uri =>
      rw [SegCall.call, Option.map_eq_some_iff] at hr
      obtain ⟨⟨found, st₁⟩, hr, rfl⟩ := hr
      exact inv.createSegment hr alive clean
    | mkdir uri =>
      rw [SegCall.call, Option.map_eq_some_iff] at hr
      obtain ⟨⟨rv, st₁⟩, hr, rfl⟩ := hr
      exact inv.grows (.mkdir hr)
    | openSegment ss uri =>
      rw [SegCall.call, Option.map_eq_some_iff] at hr
      obtain ⟨⟨found, st₁⟩, hr, rfl⟩ := hr
      exact inv.openSegment hr alive
    | closeSegment ss i =>
      rw [SegCall.call, Option.map_eq_some_iff] at hr
      obtain ⟨⟨rv, st₁⟩, hr, rfl⟩ := hr
      exact (inv.closeSeg h hr).1
    | closeSegmentUri ss uri =>
      rw [SegCall.call, Option.map_eq_some_iff] at hr
      obtain ⟨⟨rv, st₁⟩, hr, rfl⟩ := hr
      simp only [Libsc.closeSegUri, Option.bind_eq_bind, Option.bind_eq_some_iff] at hr
      obtain ⟨mapped, -, hr⟩ := hr
      cases mapped with
      | none =>
        cases hr
        exact inv
      | some i => exact (inv.closeSeg h hr).1
    | fork ss =>
      rw [SegCall.call, Option.map_eq_some_iff] at hr
      obtain ⟨⟨son, st₁⟩, hr, rfl⟩ := hr
      exact inv.fork hr clean
    | close ss => exact inv.close h hr
  · cases hr

end

theorem CountInv.of_run (h : Start start) (run : CleanRun start st) : CountInv start st := by
  induction run with
  | start => exact h.countInv
  | step _ clean hr ih => exact ih.exec h clean hr

end Libsc

open Libsc in
/-- In every state the sessions hold one reference for each segment that they have open and
one for its sign, and when all are closed the counts are those of the start again. -/
theorem references_balance {start st : Libsc} (h : Start start) (run : CleanRun start st) :
    Balanced start st ∧ ((∀ session ∈ st.sessions, session.dead = true) →
      (∀ i seg, st.segs i = some seg → seg.refcnt = start.base i) ∧
        (∀ i, start.segs i ≠ none → st.segs i ≠ none) ∧ ∀ a, st.refs a = start.refs a) := by
  have inv := CountInv.of_run h run
  refine ⟨inv.toBalanced, fun closed => ?_⟩
  have idle : ∀ i, st.openers i = 0 := by
    intro i
    apply List.countP_eq_zero.mpr
    intro session hs
    simp [inv.idle session hs (closed session hs) i]
  refine ⟨?_, inv.kept, ?_⟩
  · intro i seg hseg
    rw [inv.segs i seg hseg, idle]
    exact Int.add_zero _
  · intro a
    have none : st.signOpeners a = 0 :=
      Finset.sum_eq_zero fun i _ => by rw [signOpenersOf, idle, ite_self]
    rw [inv.signs a, none]
    exact Int.add_zero _

theorem libscInit_start : Libsc.Start libscInit where
  sessions := rfl
  held i seg hseg := by
    have hmem : (i, seg) ∈ [((0 : SegId), ({ repo := .root, uri := "info".toList } : Seg)),
        (1, { repo := .root, uri := "META".toList }), (2, { repo := .tmp, uri := "META".toList }),
        (3, { repo := .proc, uri := "META".toList }),
        (4, { repo := .proc, uri := "numattrs".toList })] := mem_of_ofTable hseg
    simp only [List.mem_cons, Prod.mk.injEq, List.not_mem_nil, or_false] at hmem
    rcases hmem with ⟨rfl, rfl⟩ | ⟨rfl, rfl⟩ | ⟨rfl, rfl⟩ | ⟨rfl, rfl⟩ | ⟨rfl, rfl⟩ <;>
      exact ⟨by decide, by decide⟩

/-- A session opens `/tmp/META`. -/
theorem references_balance_open : ∃ st, CleanRun libscInit st ∧ st.openers 2 = 1 ∧
    Libsc.Balanced libscInit st := by
  have calls : ∃ st₁, SegCall.login.exec libscInit = some st₁ ∧ ∃ st₂,
      (SegCall.openSegment 0 "/tmp/META".toList).exec st₁ = some st₂ ∧ st₂.openers 2 = 1 :=
    ⟨_, rfl, _, rfl, rfl⟩
  obtain ⟨st₁, login, st₂, opened, openers⟩ := calls
  have first : CleanRun libscInit st₁ := .step (c := .login) .start trivial login
  have run : CleanRun libscInit st₂ :=
    .step (c := .openSegment 0 "/tmp/META".toList) first trivial opened
  exact ⟨st₂, run, openers, (references_balance libscInit_start run).1⟩

/-- After a fork, the sign of the segment keeps a reference when both sessions are closed; and
a session that creates a segment twice has one reference too many to it. -/
theorem references_unbalanced :
    ((([.login, .createSegment (some 0) "/a".toList, .fork 0, .close 0, .close 1] :
        List SegCall).foldlM SegCall.exec libscInit).any fun st =>
          st.sessions.all NormalSession.dead && st.refs 8 != libscInit.refs 8) = true ∧
      ((([.login, .createSegment (some 0) "/a".toList, .createSegment (some 0) "/a".toList] :
        List SegCall).foldlM SegCall.exec libscInit).any fun st =>
          (st.segs 5).any fun seg => seg.refcnt != libscInit.base 5 + st.openers 5) = true := by
  constructor
  · decide +kernel
  · decide +kernel

end ScCore.Repo
