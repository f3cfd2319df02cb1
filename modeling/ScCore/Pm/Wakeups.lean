import ScCore.Pm.WaitQueues

/-!
# Wakeups on waitable sources

A process that sleeps has found every source it watches not ready and is in their queues,
so the wait that makes one of them ready wakes it. `waitable_source::wait_for` is the one
call that sleeps without looking first.
-/

namespace ScCore.Pm

def WaitCall.watched (st : WaitState) : WaitCall → List Source
  | peek s _ => [s]
  | get s _ => [s]
  | waitFor s => [s]
  | selectWait sel => st.sources sel

/-- The queues hold exactly the processes that are inside a call on them, and whoever
sleeps watches nothing that is ready. -/
structure WaitInv (w : Watch) (st : WaitState) : Prop where
  asleep : ∀ {p}, st.sleeping p = true → ∃ c, st.pending p = some c
  queued : ∀ {p s}, p ∈ st.queue s ↔ ∃ c, st.pending p = some c ∧ s ∈ c.watched st
  unready : ∀ {p c s}, st.sleeping p = true → st.pending p = some c → s ∈ c.watched st →
    st.poll w s = false
  busy : ∀ {p sel}, st.pending p = some (.selectWait sel) → st.inSleep sel = true
  sole : ∀ {p q sel}, st.pending p = some (.selectWait sel) →
    st.pending q = some (.selectWait sel) → p = q

variable {w : Watch} {st st' : WaitState} {p q : Agent} {c : WaitCall} {s : Source}

namespace WaitState

/-! ## Frames -/

theorem foldl_awake (l : List Agent) (st : WaitState) :
    l.foldl awake st = { st with sleeping := fun q => st.sleeping q && !decide (q ∈ l) } := by
  induction l generalizing st with
  | nil => simp
  | cons p l ih =>
    rw [List.foldl_cons, ih]
    congr 1
    funext q
    by_cases hq : q = p <;> simp [awake, hq]

theorem foldl_wakeAll (l : List Source) (st : WaitState) :
    l.foldl wakeAll st =
      { st with sleeping := fun q => st.sleeping q && l.all fun s => !decide (q ∈ st.queue s)
        } := by
  induction l generalizing st with
  | nil => simp
  | cons s l ih =>
    rw [List.foldl_cons, ih, wakeAll, foldl_awake]
    congr 1
    funext q
    simp [Bool.and_assoc]

theorem foldl_enqueue (p : Agent) (l : List Source) (st : WaitState) :
    ∃ queue, l.foldl (fun st s => st.enqueue p s) st = { st with queue := queue } ∧
      ∀ q s, q ∈ queue s ↔ q ∈ st.queue s ∨ q = p ∧ s ∈ l := by
  induction l generalizing st with
  | nil => exact ⟨st.queue, rfl, by simp⟩
  | cons t l ih =>
    obtain ⟨queue, eq, mem⟩ := ih (st.enqueue p t)
    refine ⟨queue, eq, ?_⟩
    intro q s
    rw [mem, List.mem_cons]
    by_cases hs : s = t
    · subst hs
      simp only [enqueue, Function.update_self, List.mem_insert_iff]
      tauto
    · simp [enqueue, hs]

theorem foldl_dequeue (p : Agent) (l : List Source) (st : WaitState) :
    ∃ queue, l.foldl (fun st s => st.dequeue p s) st = { st with queue := queue } ∧
      ∀ q s, q ∈ queue s ↔ q ∈ st.queue s ∧ ¬(q = p ∧ s ∈ l) := by
  induction l generalizing st with
  | nil => exact ⟨st.queue, rfl, by simp⟩
  | cons t l ih =>
    obtain ⟨queue, eq, mem⟩ := ih (st.dequeue p t)
    refine ⟨queue, eq, ?_⟩
    intro q s
    rw [mem, List.mem_cons]
    by_cases hs : s = t
    · subst hs
      simp only [dequeue, Function.update_self, List.mem_filter, decide_eq_true_eq]
      tauto
    · simp [dequeue, hs]

theorem mem_enqueue {t : Source} :
    q ∈ (st.enqueue p s).queue t ↔ q ∈ st.queue t ∨ q = p ∧ t = s := by
  by_cases h : t = s
  · subst h
    simp only [enqueue, Function.update_self, List.mem_insert_iff]
    tauto
  · simp [enqueue, h]

theorem mem_dequeue {t : Source} :
    q ∈ (st.dequeue p s).queue t ↔ q ∈ st.queue t ∧ ¬(q = p ∧ t = s) := by
  by_cases h : t = s
  · subst h
    simp only [dequeue, Function.update_self, List.mem_filter, decide_eq_true_eq]
    tauto
  · simp [dequeue, h]

theorem poll_eq_false : st.poll w s = false ↔ st.members (w.element s) = [] := by
  simp [poll]

@[simp] theorem leave_pending_self : (st.leave p).pending p = none :=
  Function.update_self ..

theorem leave_pending_ne (h : q ≠ p) : (st.leave p).pending q = st.pending q :=
  Function.update_of_ne h ..

theorem leave_of_pending (h : st.pending p = none) : st.leave p = st := by
  rw [leave, ← h, Function.update_eq_self]

end WaitState

open WaitState

namespace WaitInv

theorem wake {sleeping : Agent → Bool} (inv : WaitInv w st)
    (h : ∀ p, sleeping p = true → st.sleeping p = true) :
    WaitInv w { st with sleeping := sleeping } where
  asleep hp := inv.asleep (h _ hp)
  queued := inv.queued
  unready hp := inv.unready (h _ hp)
  busy := inv.busy
  sole := inv.sole

theorem eraseMember (inv : WaitInv w st) (e : SetSign) (m : Member) :
    WaitInv w (st.eraseMember e m) where
  asleep := inv.asleep
  queued := inv.queued
  unready {p c s} hp hc hs := by
    have empty := poll_eq_false.mp (inv.unready hp hc hs)
    rw [poll_eq_false, WaitState.eraseMember]
    by_cases he : w.element s = e
    · subst he
      simp [empty]
    · simp [he, empty]
  busy := inv.busy
  sole := inv.sole

theorem addMember (inv : WaitInv w st) (e : SetSign) (m : Member) :
    WaitInv w (st.addMember w e m) := by
  rw [WaitState.addMember, activate, foldl_wakeAll]
  constructor
  · intro p hp
    exact inv.asleep (Bool.and_eq_true_iff.mp hp).1
  · exact inv.queued
  · intro p c s hp hc hs
    obtain ⟨hp, woken⟩ := Bool.and_eq_true_iff.mp hp
    have empty := poll_eq_false.mp (inv.unready hp hc hs)
    rw [poll_eq_false]
    by_cases he : w.element s = e
    · have asleep := List.all_eq_true.mp woken s (he ▸ w.attached s)
      have queued : p ∈ st.queue s := inv.queued.mpr ⟨c, hc, hs⟩
      simp [queued] at asleep
    · simpa [he] using empty
  · exact inv.busy
  · exact inv.sole

theorem enter (inv : WaitInv w (st.leave p))
    (pending : st'.pending = Function.update st.pending p (some c))
    (sleeping : st'.sleeping = Function.update st.sleeping p true)
    (members : st'.members = st.members) (sources : st'.sources = st.sources)
    (queue : ∀ q t, q ∈ st'.queue t ↔ q ∈ st.queue t ∨ q = p ∧ t ∈ c.watched st)
    (inSleep : ∀ sel, st'.inSleep sel = true ↔ st.inSleep sel = true ∨ c = .selectWait sel)
    (unready : ∀ t ∈ c.watched st, st.poll w t = false)
    (sole : ∀ sel, c = .selectWait sel → st.inSleep sel = false) : WaitInv w st' := by
  have poll : ∀ t, st'.poll w t = st.poll w t := fun t => by rw [WaitState.poll, members]; rfl
  have watched : ∀ d : WaitCall, d.watched st' = d.watched st := by
    intro d
    cases d <;> simp only [WaitCall.watched, sources]
  have self : st'.pending p = some c := by rw [pending, Function.update_self]
  have other : ∀ {q}, q ≠ p → st'.pending q = (st.leave p).pending q := by
    intro q h
    rw [pending, leave_pending_ne h, Function.update_of_ne h]
  constructor
  · intro q hq
    by_cases h : q = p
    · exact ⟨c, h ▸ self⟩
    · rw [sleeping, Function.update_of_ne h] at hq
      rw [other h]
      exact inv.asleep hq
  · intro q t
    have before := inv.queued (p := q) (s := t)
    rw [queue]
    by_cases h : q = p
    · subst h
      have out : q ∉ st.queue t := fun hq => by simpa [leave] using before.mp hq
      simp [self, out, watched]
    · rw [other h]
      simp only [watched, h, false_and, or_false]
      exact before
  · intro q d t hq hd ht
    rw [poll]
    by_cases h : q = p
    · subst h
      obtain rfl : c = d := Option.some.inj (self.symm.trans hd)
      exact unready t (watched c ▸ ht)
    · rw [sleeping, Function.update_of_ne h] at hq
      exact inv.unready hq (other h ▸ hd) (watched d ▸ ht)
  · intro q sel hq
    rw [inSleep]
    by_cases h : q = p
    · subst h
      exact .inr (Option.some.inj (self.symm.trans hq))
    · exact .inl (inv.busy (other h ▸ hq))
  · intro q r sel hq hr
    -- whoever else is in the select would have kept it busy
    have self_or : ∀ {q}, st'.pending q = some (.selectWait sel) → c = .selectWait sel → q = p := by
      intro q hq hc
      by_contra h
      exact absurd (inv.busy (other h ▸ hq)) (by rw [leave, sole sel hc]; decide)
    by_cases hc : c = .selectWait sel
    · rw [self_or hq hc, self_or hr hc]
    · have ne : ∀ {q}, st'.pending q = some (.selectWait sel) → q ≠ p := by
        rintro q hq rfl
        exact hc (Option.some.inj (self.symm.trans hq))
      exact inv.sole (other (ne hq) ▸ hq) (other (ne hr) ▸ hr)

theorem exit (inv : WaitInv w st) (awake : st.sleeping p = false) (was : st.pending p = some c)
    (pending : st'.pending = Function.update st.pending p none)
    (sleeping : st'.sleeping = st.sleeping)
    (members : st'.members = st.members) (sources : st'.sources = st.sources)
    (queue : ∀ q t, q ∈ st'.queue t ↔ q ∈ st.queue t ∧ ¬(q = p ∧ t ∈ c.watched st))
    (inSleep : ∀ sel, c ≠ .selectWait sel → st'.inSleep sel = st.inSleep sel) :
    WaitInv w st' := by
  have poll : ∀ t, st'.poll w t = st.poll w t := fun t => by rw [WaitState.poll, members]; rfl
  have watched : ∀ d : WaitCall, d.watched st' = d.watched st := by
    intro d
    cases d <;> simp only [WaitCall.watched, sources]
  have self : st'.pending p = none := by rw [pending, Function.update_self]
  have other : ∀ {q}, q ≠ p → st'.pending q = st.pending q := by
    intro q h
    rw [pending, Function.update_of_ne h]
  have ne : ∀ {q d}, st'.pending q = some d → q ≠ p := by
    rintro q d hq rfl
    rw [self] at hq
    cases hq
  constructor
  · intro q hq
    rw [sleeping] at hq
    by_cases h : q = p
    · rw [h, awake] at hq
      cases hq
    · rw [other h]
      exact inv.asleep hq
  · intro q t
    have before := inv.queued (p := q) (s := t)
    rw [queue, before]
    by_cases h : q = p
    · subst h
      simp [self, was]
    · simp only [other h, watched, h, false_and, not_false_eq_true, and_true]
  · intro q d t hq hd ht
    rw [poll]
    exact inv.unready (sleeping ▸ hq) (other (ne hd) ▸ hd) (watched d ▸ ht)
  · intro q sel hq
    have hq' := other (ne hq) ▸ hq
    rw [inSleep]
    · exact inv.busy hq'
    · rintro rfl
      exact ne hq (inv.sole hq' was)
  · intro q r sel hq hr
    exact inv.sole (other (ne hq) ▸ hq) (other (ne hr) ▸ hr)

theorem again (inv : WaitInv w st) (was : st.pending p = some c)
    (unready : ∀ t ∈ c.watched st, st.poll w t = false) :
    WaitInv w { st with sleeping := Function.update st.sleeping p true } where
  asleep {q} hq := by
    by_cases h : q = p
    · exact ⟨c, h ▸ was⟩
    · exact inv.asleep (by simpa [h] using hq)
  queued := inv.queued
  unready {q d t} hq hd ht := by
    by_cases h : q = p
    · subst h
      obtain rfl : c = d := Option.some.inj (was.symm.trans hd)
      exact unready t ht
    · exact inv.unready (by simpa [h] using hq) hd ht
  busy := inv.busy
  sole := inv.sole

theorem sleepOn (inv : WaitInv w (st.leave p)) (watched : c.watched st = [s])
    (notSelect : ∀ sel, c ≠ .selectWait sel) (unready : st.poll w s = false) :
    WaitInv w (st.sleepOn p c s) := by
  apply inv.enter (c := c)
  · rfl
  · rfl
  · rfl
  · rfl
  · intro q t
    rw [watched, List.mem_singleton]
    exact mem_enqueue
  · intro sel
    simp only [notSelect sel, or_false]
    rfl
  · intro t ht
    rw [watched, List.mem_singleton] at ht
    rw [ht, unready]
  · intro sel h
    exact absurd h (notSelect sel)

end WaitInv

/-! ## Steps -/

/-- What a call is owed when it comes back: the process is in no queue, a member that is
returned is in the set, and a source that is returned or was waited for is ready. -/
def WaitEnd.Kept (w : Watch) (st : WaitState) (p : Agent) (c : WaitCall) (st' : WaitState)
    (e : WaitEnd) : Prop :=
  e ≠ .asleep → (∀ s, p ∉ st'.queue s) ∧
    (∀ x, e = .member (some x) → ∀ s ∈ c.watched st, ∃ m ∈ st.members (w.element s), m.elem = x) ∧
    (∀ s, e = .source (some s) → s ∈ c.watched st ∧ st'.poll w s = true) ∧
    (e = .waited → ∀ s ∈ c.watched st, st'.poll w s = true)

namespace WaitInv

theorem not_queued (inv : WaitInv w st) (out : st.pending p = none) (s : Source) :
    p ∉ st.queue s := by
  intro h
  obtain ⟨c, hc, -⟩ := inv.queued.mp h
  rw [out] at hc
  cases hc

theorem peekAgain (inv : WaitInv w (st.leave p)) {nonblocking erase : Bool}
    (watched : ∀ st, c.watched st = [s]) (notSelect : ∀ sel, c ≠ .selectWait sel) :
    WaitInv w (st.peekAgain w p c s nonblocking erase).2 ∧
      (st.peekAgain w p c s nonblocking erase).1.Kept w st p c
        (st.peekAgain w p c s nonblocking erase).2 := by
  have out : ∀ t, p ∉ st.queue t :=
    inv.not_queued leave_pending_self
  rw [WaitState.peekAgain]
  cases members : st.members (w.element s) with
  | nil =>
    cases nonblocking with
    | false =>
      constructor
      · exact inv.sleepOn (watched st) notSelect (poll_eq_false.mpr members)
      · exact fun h => absurd rfl h
    | true =>
      refine ⟨inv, fun _ => ⟨out, ?_, ?_, ?_⟩⟩
      · intro x hx
        cases hx
      · intro t ht
        cases ht
      · intro h
        cases h
  | cons m ms =>
    refine ⟨?_, fun _ => ⟨?_, ?_, ?_, ?_⟩⟩
    · cases erase with
      | false => exact inv
      | true => exact inv.eraseMember (w.element s) m
    · intro t
      cases erase <;> exact out t
    · intro x hx t ht
      rw [watched, List.mem_singleton] at ht
      cases hx
      exact ⟨m, by rw [ht, members]; exact List.mem_cons_self, rfl⟩
    · intro t ht
      cases ht
    · intro h
      cases h

theorem dequeue (inv : WaitInv w st) (awake : st.sleeping p = false)
    (was : st.pending p = some c) (watched : c.watched st = [s]) :
    WaitInv w ((st.dequeue p s).leave p) := by
  apply inv.exit awake was
  · rfl
  · rfl
  · rfl
  · rfl
  · intro q t
    rw [watched, List.mem_singleton]
    exact mem_dequeue
  · intro sel _
    rfl

theorem start (inv : WaitInv w st) (out : st.pending p = none)
    (heeds : ∀ s, c = .waitFor s → st.poll w s = false) :
    WaitInv w (st.start w p c).2 ∧ (st.start w p c).1.Kept w st p c (st.start w p c).2 := by
  have left : WaitInv w (st.leave p) := by rwa [leave_of_pending out]
  cases c with
  | peek s nonblocking => exact left.peekAgain (fun _ => rfl) (by simp)
  | get s nonblocking => exact left.peekAgain (fun _ => rfl) (by simp)
  | waitFor s =>
    constructor
    · exact left.sleepOn rfl (by simp) (heeds s rfl)
    · exact fun h => absurd rfl h
  | selectWait sel =>
    have stays : ∀ e, e = .busy ∨ e = .source none →
        WaitInv w st ∧ WaitEnd.Kept w st p (.selectWait sel) st e := by
      intro e he
      refine ⟨inv, fun _ => ⟨inv.not_queued out, ?_, ?_, ?_⟩⟩ <;> rcases he with rfl | rfl <;> simp
    rw [WaitState.start]
    split
    · exact stays _ (.inl rfl)
    · next free =>
      split
      · exact stays _ (.inr rfl)
      · split
        · exact stays _ (.inr rfl)
        · next unready =>
          obtain ⟨queue, eq, mem⟩ := foldl_enqueue p (st.sources sel) st
          refine ⟨?_, fun h => absurd rfl h⟩
          rw [eq]
          apply left.enter (c := .selectWait sel)
          · rfl
          · rfl
          · rfl
          · rfl
          · exact mem
          · intro sel'
            show Function.update st.inSleep sel true sel' = true ↔ _
            by_cases h : sel' = sel
            · simp [h]
            · simp [h, Ne.symm h]
          · intro t ht
            rw [List.any_eq_true] at unready
            exact Bool.not_eq_true _ ▸ fun ready => unready ⟨t, ht, ready⟩
          · intro sel' h
            cases h
            exact Bool.not_eq_true _ ▸ free

theorem resume (inv : WaitInv w st) (awake : st.sleeping p = false)
    (was : st.pending p = some c) :
    WaitInv w (st.resume w p c).2 ∧ (st.resume w p c).1.Kept w st p c (st.resume w p c).2 := by
  cases c with
  | peek s nonblocking =>
    exact (inv.dequeue awake was rfl).peekAgain (fun _ => rfl) (by simp)
  | get s nonblocking =>
    exact (inv.dequeue awake was rfl).peekAgain (fun _ => rfl) (by simp)
  | waitFor s =>
    have left := inv.dequeue (s := s) awake was rfl
    simp only [WaitState.resume]
    split
    · next ready =>
      refine ⟨left, fun _ => ⟨left.not_queued leave_pending_self, ?_, ?_, ?_⟩⟩
      · intro x hx
        cases hx
      · intro t ht
        cases ht
      · intro _ t ht
        rw [List.mem_singleton.mp ht]
        exact ready
    · next unready =>
      constructor
      · exact left.sleepOn rfl (by simp) (Bool.not_eq_true _ ▸ unready)
      · exact fun h => absurd rfl h
  | selectWait sel =>
    have busy := inv.busy was
    simp only [WaitState.resume]
    cases found : (st.sources sel).find? (st.poll w) with
    | none =>
      rw [List.find?_eq_none] at found
      have unready : ∀ t ∈ WaitCall.watched st (.selectWait sel), st.poll w t = false :=
        fun t ht => Bool.not_eq_true _ ▸ found t ht
      have same : ((st.setInSleep sel false).setInSleep sel true).sleep p (.selectWait sel) =
          { st with sleeping := Function.update st.sleeping p true } := by
        simp only [setInSleep, WaitState.sleep, Function.update_idem, ← busy, ← was,
          Function.update_eq_self]
      have again := inv.again was unready
      rw [← same] at again
      have none : ((st.setInSleep sel false).sources sel).find?
          ((st.setInSleep sel false).poll w) = none := List.find?_eq_none.mpr found
      rw [none]
      exact ⟨again, fun h => absurd rfl h⟩
    | some s =>
      obtain ⟨queue, eq, mem⟩ := foldl_dequeue p (st.sources sel) (st.setInSleep sel false)
      have some : ((st.setInSleep sel false).sources sel).find?
          ((st.setInSleep sel false).poll w) = some s := found
      rw [some]
      have left : WaitInv w (({ st.setInSleep sel false with queue := queue } : WaitState).leave
        p) := by
        apply inv.exit awake was
        · rfl
        · rfl
        · rfl
        · rfl
        · exact mem
        · intro sel' h
          exact Function.update_of_ne (fun h' : sel' = sel => h (by rw [h'])) ..
      show WaitInv w (((st.sources sel).foldl (fun st s => st.dequeue p s)
        (st.setInSleep sel false)).leave p) ∧ WaitEnd.Kept w st p _ (((st.sources sel).foldl
          (fun st s => st.dequeue p s) (st.setInSleep sel false)).leave p) _
      rw [eq]
      refine ⟨left, fun _ => ⟨left.not_queued leave_pending_self, ?_, ?_, ?_⟩⟩
      · intro x hx
        cases hx
      · intro t ht
        cases ht
        exact ⟨List.mem_of_find?_eq_some found, List.find?_some found⟩
      · intro h
        cases h

theorem addSource (inv : WaitInv w st) (sel : Select) (s : Source) :
    WaitInv w (st.addSource sel s).2 := by
  rw [WaitState.addSource]
  split
  · exact inv
  · next free =>
    have watched : ∀ {q d}, st.pending q = some d →
        d.watched { st with sources := Function.update st.sources sel (st.sources sel ++ [s]) } =
          d.watched st := by
      intro q d hd
      cases d with
      | selectWait sel' =>
        have ne : sel' ≠ sel := by
          rintro rfl
          exact free (inv.busy hd)
        exact Function.update_of_ne ne ..
      | _ => rfl
    exact {
      asleep := inv.asleep
      queued := fun {q t} => by
        rw [inv.queued]
        constructor
        · rintro ⟨d, hd, ht⟩
          exact ⟨d, hd, watched hd ▸ ht⟩
        · rintro ⟨d, hd, ht⟩
          exact ⟨d, hd, watched hd ▸ ht⟩
      unready := fun hq hd ht => inv.unready hq hd (watched hd ▸ ht)
      busy := inv.busy
      sole := inv.sole }

end WaitInv

/-! ## Runs -/

/-- `wait_for` is called on sources only that are not ready. -/
def WaitOp.Heeds (w : Watch) (st : WaitState) (op : WaitOp) : Prop :=
  ∀ p s, op = .call p (.waitFor s) → st.poll w s = false

structure WaitState.Initial (st : WaitState) : Prop where
  pending : ∀ p, st.pending p = none
  sleeping : ∀ p, st.sleeping p = false
  queue : ∀ s, st.queue s = []

/-- The states of the runs in which `wait_for` is never called on a ready source. -/
inductive WaitRun (w : Watch) : WaitState → Prop
  | init {st : WaitState} : st.Initial → WaitRun w st
  | step {st e st'} (op : WaitOp) : WaitRun w st → op.Heeds w st → st.step w op = some (e, st') →
      WaitRun w st'

theorem WaitInv.init (h : st.Initial) : WaitInv w st where
  asleep {p} hp := by simp [h.sleeping p] at hp
  queued {p s} := by simp [h.queue s, h.pending p]
  unready {p c s} hp := by simp [h.sleeping p] at hp
  busy {p sel} hp := by simp [h.pending p] at hp
  sole {p q sel} hp := by simp [h.pending p] at hp

theorem WaitInv.step {op : WaitOp} {e : WaitEnd} (inv : WaitInv w st) (heeds : op.Heeds w st)
    (h : st.step w op = some (e, st')) :
    WaitInv w st' ∧ (∀ p c, op = .call p c → e.Kept w st p c st') ∧
      ∀ p c, op = .resume p → st.pending p = some c → e.Kept w st p c st' := by
  cases op with
  | add p el m =>
    rw [WaitState.step] at h
    split at h
    · cases h
    · cases h
      exact ⟨inv.addMember el m, by simp, by simp⟩
  | addSource p sel s =>
    rw [WaitState.step] at h
    split at h
    · cases h
    · have inv := inv.addSource sel s
      rw [Option.some.inj h] at inv
      exact ⟨inv, by simp, by simp⟩
  | call p c =>
    rw [WaitState.step] at h
    split at h
    · cases h
    · next out =>
      rw [Option.not_isSome_iff_eq_none] at out
      obtain ⟨inv, kept⟩ := inv.start (c := c) out fun s hs => heeds p s (by rw [hs])
      rw [Option.some.inj h] at inv kept
      refine ⟨inv, ?_, by simp⟩
      intro q d hd
      cases hd
      exact kept
  | resume p =>
    rw [WaitState.step] at h
    split at h
    · cases h
    · next awake =>
      obtain ⟨c, was, eq⟩ := Option.map_eq_some_iff.mp h
      obtain ⟨inv, kept⟩ := inv.resume (Bool.not_eq_true _ ▸ awake) was
      rw [eq] at inv kept
      refine ⟨inv, by simp, ?_⟩
      intro q d hq hd
      cases hq
      obtain rfl : c = d := Option.some.inj (was.symm.trans hd)
      exact kept
  | awake p =>
    cases h
    refine ⟨inv.wake ?_, by simp, by simp⟩
    intro q hq
    by_cases hp : q = p
    · simp [hp] at hq
    · simpa [hp] using hq

theorem WaitRun.inv (run : WaitRun w st) : WaitInv w st := by
  induction run with
  | init h => exact .init h
  | step _ _ heeds h ih => exact (ih.step heeds h).1

/-- In every run in which `wait_for` is never called on a ready source, no process sleeps
on a source that is ready, and every call that comes back has kept what it is owed. -/
theorem no_lost_wakeup (run : WaitRun w st) :
    (∀ p c s, st.sleeping p = true → st.pending p = some c → s ∈ c.watched st →
      st.poll w s = false) ∧
    ∀ op e st', op.Heeds w st → st.step w op = some (e, st') →
      (∀ p c, op = .call p c → e.Kept w st p c st') ∧
      ∀ p c, op = .resume p → st.pending p = some c → e.Kept w st p c st' :=
  ⟨fun _ _ _ => run.inv.unready, fun _ _ _ heeds h => (run.inv.step heeds h).2⟩

def Watch.each : Watch := ⟨fun s => s, fun e => [e], fun _ => List.mem_singleton_self _⟩

def WaitState.idle (members : SetSign → List Member) : WaitState :=
  ⟨members, fun _ => [], fun _ => [], fun _ => false, fun _ => none, fun _ => false⟩

theorem WaitState.idle_initial (members : SetSign → List Member) : (idle members).Initial :=
  ⟨fun _ => rfl, fun _ => rfl, fun _ => rfl⟩

/-- Process 1 sleeps in `peek` until process 2 adds a member. -/
theorem no_lost_wakeup_peek :
    ∃ st, WaitRun .each st ∧ st.pending 1 = some (.peek 0 false) ∧ st.poll .each 0 = true ∧
      (∀ p c s, st.sleeping p = true → st.pending p = some c → s ∈ c.watched st →
        st.poll .each s = false) := by
  have start : WaitRun .each (.idle fun _ => []) := .init (WaitState.idle_initial _)
  have asleep := WaitRun.step (.call 1 (.peek 0 false)) start (by intro _ _ h; cases h) rfl
  have woken := WaitRun.step (.add 2 0 ⟨5, 6⟩) asleep (by intro _ _ h; cases h) rfl
  exact ⟨_, woken, rfl, rfl, (no_lost_wakeup woken).1⟩

/-- `wait_for` on a set that has a member already. -/
theorem lost_wakeup :
    ∃ members st, members = (fun _ : SetSign => [(⟨5, 6⟩ : Member)]) ∧
      (WaitState.idle members).step .each (.call 1 (.waitFor 0)) = some (.asleep, st) ∧
      st.sleeping 1 = true ∧ st.pending 1 = some (.waitFor 0) ∧
      st.poll .each 0 = true :=
  ⟨_, _, rfl, rfl, rfl, rfl, rfl⟩

end ScCore.Pm
