import ScCore.Pm.Scheduler

/-!
# Every agent has one place

What the lists, the flags and the memory say of an agent is that it is idle, scheduled
in one class, or asleep. The operations move one agent from a place to another.
-/

namespace ScCore.Pm

inductive Place where
  | idle
  | scheduled (c : SchedClass)
  | asleep (c : SchedClass)
  deriving DecidableEq, Repr

namespace Place

def schedClass : Place → Option SchedClass
  | scheduled c => some c
  | _ => none

def sleepClass : Place → Option SchedClass
  | asleep c => some c
  | _ => none

@[simp]
theorem schedClass_idle : idle.schedClass = none := rfl

@[simp]
theorem schedClass_scheduled (c : SchedClass) : (scheduled c).schedClass = some c := rfl

@[simp]
theorem schedClass_asleep (c : SchedClass) : (asleep c).schedClass = none := rfl

@[simp]
theorem sleepClass_idle : idle.sleepClass = none := rfl

@[simp]
theorem sleepClass_scheduled (c : SchedClass) : (scheduled c).sleepClass = none := rfl

@[simp]
theorem sleepClass_asleep (c : SchedClass) : (asleep c).sleepClass = some c := rfl

end Place

variable {activity : Agent → Bool} {s s' : Sched} {a b : Agent} {w : Place} {c : SchedClass}

structure At (s : Sched) (a : Agent) (w : Place) : Prop where
  added : s.added a = w.schedClass.isSome
  queued : ∀ c, (s.queue c).count a = if w.schedClass = some c then 1 else 0
  arcs : s.memory.arcs.filter (fun arc => arc.2 = a) = w.schedClass.toList.map (·, a)
  sleeping : s.memory.sleeping.filter (fun t => t.1 = a) = w.sleepClass.toList.map (a, ·)

/-- Nothing that concerns an agent has changed. -/
structure SameFor (a : Agent) (s s' : Sched) : Prop where
  added : s'.added a = s.added a
  queued : ∀ c, (s'.queue c).count a = (s.queue c).count a
  arcs : s'.memory.arcs.filter (fun arc => arc.2 = a) = s.memory.arcs.filter fun arc => arc.2 = a
  sleeping : s'.memory.sleeping.filter (fun t => t.1 = a) =
    s.memory.sleeping.filter fun t => t.1 = a

theorem At.same (h : At s a w) (same : SameFor a s s') : At s' a w where
  added := same.added.trans h.added
  queued c := (same.queued c).trans (h.queued c)
  arcs := same.arcs.trans h.arcs
  sleeping := same.sleeping.trans h.sleeping

namespace At

theorem mem_queue (h : At s a w) : a ∈ s.queue c ↔ w.schedClass = some c := by
  rw [← List.count_pos_iff, h.queued c]
  split
  · next heq => exact iff_of_true Nat.one_pos heq
  · next hne => exact iff_of_false (Nat.lt_irrefl 0) hne

theorem getSchedClass (h : At s a w) : s.getSchedClass a = w.schedClass := by
  rw [Sched.getSchedClass, ← List.head?_filter, h.arcs]
  cases w.schedClass <;> rfl

theorem findSleeping (h : At s a w) :
    (s.memory.sleeping.find? fun t => t.1 = a) = w.sleepClass.map (a, ·) := by
  rw [← List.head?_filter, h.sleeping]
  cases w.sleepClass <;> rfl

end At

/-! ## Moving agents -/

/-- The state after the agent has got an arc and a place in a list. -/
abbrev Sched.push (s : Sched) (a : Agent) (c : SchedClass) : Sched :=
  { s with
    memory := { s.memory with arcs := s.memory.arcs ++ [(c, a)] }
    queue := Function.update s.queue c (s.queue c ++ [a])
    added := Function.update s.added a true }

/-- The state after the agent has been removed from its list, with its flag. -/
abbrev Sched.pull (s : Sched) (a : Agent) (c : SchedClass) : Sched :=
  { s with
    memory := { s.memory with arcs := s.memory.arcs.erase (c, a) }
    queue := Function.update s.queue c ((s.queue c).filter fun b => b ≠ a) }

theorem At.push (h : At s a w) (hw : w.schedClass = none) :
    (s.push a c).added a = true ∧
    (∀ d, ((s.push a c).queue d).count a = if some c = some d then 1 else 0) ∧
    (s.push a c).memory.arcs.filter (fun arc => arc.2 = a) = [(c, a)] := by
  refine ⟨Function.update_self _ _ _, fun d => ?_, by simp [List.filter_append, h.arcs, hw]⟩
  have old := h.queued d
  rw [hw] at old
  by_cases heq : d = c
  · subst heq
    simp [old]
  · simp [old, heq, Ne.symm heq]

theorem At.push_idle (h : At s a .idle) : At (s.push a c) a (.scheduled c) := by
  obtain ⟨added, queued, arcs⟩ := h.push (c := c) rfl
  exact ⟨added, queued, arcs, h.sleeping⟩

theorem SameFor.push (hne : b ≠ a) : SameFor b s (s.push a c) where
  added := Function.update_of_ne hne _ _
  queued d := by
    by_cases heq : d = c
    · subst heq
      simp [hne.symm]
    · simp [heq]
  arcs := by simp [List.filter_append, hne.symm]
  sleeping := rfl

theorem At.schedRemoveAgent (h : At s a w) :
    s.schedRemoveAgent a = some (w.schedClass, w.schedClass.elim s (s.pull a)) := by
  rw [Sched.schedRemoveAgent, h.added, h.getSchedClass]
  cases w.schedClass <;> rfl

theorem notMem_pull (h : At s a (.scheduled c)) (d : SchedClass) : a ∉ (s.pull a c).queue d := by
  by_cases heq : d = c
  · subst heq
    simp
  · intro hmem
    simp only [Function.update_of_ne heq] at hmem
    exact heq (Option.some.inj (h.mem_queue.mp hmem)).symm

theorem filter_erase_of_false {α : Type} [BEq α] [LawfulBEq α] {p : α → Bool} {x : α}
    (h : p x = false) (l : List α) : (l.erase x).filter p = l.filter p := by
  rw [← List.erase_filter]
  apply List.erase_of_not_mem
  simp [h]

theorem SameFor.pull (hne : b ≠ a) : SameFor b s (s.pull a c) where
  added := rfl
  queued d := by
    by_cases heq : d = c
    · subst heq
      simp [List.count_filter, hne]
    · simp [heq]
  arcs := filter_erase_of_false (by simpa using hne.symm) _
  sleeping := rfl

/-- The state after the agent has been put to sleep. -/
abbrev Sched.sleep (s : Sched) (a : Agent) (c : SchedClass) : Sched :=
  { s.pull a c with
    memory := { (s.pull a c).memory with
      sleeping := (s.pull a c).memory.sleeping ++ [(a, c)] }
    added := Function.update s.added a false }

theorem At.sleep (h : At s a (.scheduled c)) : At (s.sleep a c) a (.asleep c) where
  added := Function.update_self _ _ _
  queued d := List.count_eq_zero.mpr (notMem_pull h d)
  arcs := by
    change (s.memory.arcs.erase (c, a)).filter _ = _
    rw [← List.erase_filter, h.arcs]
    simp
  sleeping := by
    change (s.memory.sleeping ++ [(a, c)]).filter _ = _
    rw [List.filter_append, h.sleeping]
    simp

theorem SameFor.sleep (hne : b ≠ a) : SameFor b s (s.sleep a c) where
  added := Function.update_of_ne hne _ _
  queued := (SameFor.pull hne).queued
  arcs := (SameFor.pull hne).arcs
  sleeping := by
    change (s.memory.sleeping ++ [(a, c)]).filter _ = _
    simp [List.filter_append, hne.symm]

/-- The state after the agent has been woken up. -/
abbrev Sched.wake (s : Sched) (a : Agent) (c : SchedClass) : Sched :=
  { s.push a c with
    memory := { (s.push a c).memory with sleeping := s.memory.sleeping.erase (a, c) } }

theorem At.wake (h : At s a (.asleep c)) : At (s.wake a c) a (.scheduled c) := by
  obtain ⟨added, queued, arcs⟩ := h.push (c := c) rfl
  refine ⟨added, queued, arcs, ?_⟩
  change (s.memory.sleeping.erase (a, c)).filter _ = _
  rw [← List.erase_filter, h.sleeping]
  simp

theorem SameFor.wake (hne : b ≠ a) : SameFor b s (s.wake a c) where
  added := Function.update_of_ne hne _ _
  queued := (SameFor.push (c := c) hne).queued
  arcs := (SameFor.push (c := c) hne).arcs
  sleeping := filter_erase_of_false (by simpa using hne.symm) _

theorem SameFor.nextTurn (b : Agent) (s : Sched) : SameFor b s s.nextTurn :=
  ⟨rfl, fun _ => rfl, rfl, rfl⟩

theorem SameFor.trans {s'' : Sched} (h : SameFor b s s') (h' : SameFor b s' s'') :
    SameFor b s s'' where
  added := h'.added.trans h.added
  queued c := (h'.queued c).trans (h.queued c)
  arcs := h'.arcs.trans h.arcs
  sleeping := h'.sleeping.trans h.sleeping

theorem SameFor.quant (b : Agent) (h : s.quant = some s') : SameFor b s s' := by
  rw [Sched.quant] at h
  split at h
  · cases h
  · next agent rest hqueue =>
    cases h
    refine ⟨rfl, fun c => ?_, rfl, rfl⟩
    by_cases heq : c = s.turn
    · subst heq
      simp [hqueue, List.count_append, List.count_cons]
    · simp [heq]

theorem SameFor.mainTurn (b : Agent) (s : Sched) : SameFor b s s.mainTurn := by
  rw [Sched.mainTurn]
  cases h : s.nextTurn.quant with
  | none => exact SameFor.nextTurn b s
  | some s' => exact (SameFor.nextTurn b s).trans (SameFor.quant b h)

theorem SameFor.doStep (b : Agent) (s : Sched) : SameFor b s s.doStep := by
  have first := SameFor.nextTurn b s
  rw [Sched.doStep]
  cases h : s.nextTurn.quant with
  | some s' => exact first.trans (SameFor.quant b h)
  | none =>
    have second := first.trans (SameFor.nextTurn b s.nextTurn)
    cases h' : s.nextTurn.nextTurn.quant with
    | some s' => exact second.trans (SameFor.quant b h')
    | none => exact second.trans (SameFor.mainTurn b _)

/-! ## Steps -/

theorem At.addAgent (h : At s a w) (activity : Agent → Bool) (schedClass : Option SchedClass)
    (gen3 : Bool) :
    (∃ ok, s.addAgent activity a schedClass gen3 = (ok, s) ∧
      (ok = true → w.schedClass ≠ none) ∧
      (w.schedClass = none → activity a = false ∨ schedClass = none ∨ gen3 = false)) ∨
    ∃ c, s.addAgent activity a schedClass gen3 = (true, s.push a c) ∧ activity a = true ∧
      w.schedClass = none ∧ schedClass = some c ∧ gen3 = true := by
  unfold Sched.addAgent
  rw [h.added, h.getSchedClass]
  cases hact : activity a with
  | false => exact .inl ⟨false, rfl, nofun, fun _ => .inl rfl⟩
  | true =>
    cases hw : w.schedClass with
    | some c => exact .inl ⟨true, rfl, fun _ => by simp, nofun⟩
    | none =>
      cases schedClass with
      | none => exact .inl ⟨false, rfl, nofun, fun _ => .inr (.inl rfl)⟩
      | some c =>
        cases gen3 with
        | false => exact .inl ⟨false, rfl, nofun, fun _ => .inr (.inr rfl)⟩
        | true => exact .inr ⟨c, rfl, rfl, rfl, rfl, rfl⟩

structure SchedInv (activity : Agent → Bool) (s : Sched) : Prop where
  placed : ∀ a, ∃ w, At s a w
  active : ∀ a, s.added a = true → activity a = true

namespace SchedInv

theorem init : SchedInv activity Sched.init where
  placed _ := ⟨.idle, rfl, fun _ => rfl, rfl, rfl⟩
  active _ h := Bool.noConfusion h

theorem same (inv : SchedInv activity s) (same : ∀ a, SameFor a s s') : SchedInv activity s' where
  placed a := by
    obtain ⟨w, h⟩ := inv.placed a
    exact ⟨w, h.same (same a)⟩
  active a h := inv.active a ((same a).added ▸ h)

theorem move (inv : SchedInv activity s) (h : At s' a w) (others : ∀ b, b ≠ a → SameFor b s s')
    (active : s'.added a = true → activity a = true) : SchedInv activity s' where
  placed b := by
    by_cases heq : b = a
    · exact ⟨w, heq ▸ h⟩
    · obtain ⟨w', h'⟩ := inv.placed b
      exact ⟨w', h'.same (others b heq)⟩
  active b hadded := by
    by_cases heq : b = a
    · exact heq ▸ active (heq ▸ hadded)
    · exact inv.active b ((others b heq).added ▸ hadded)

end SchedInv

/-- An agent that sleeps is not added, none is removed, one that is put to sleep goes to
sleep if it is scheduled, and one whose activation fails is in the list no more. -/
def SchedOp.Keeps (activity : Agent → Bool) (s : Sched) : SchedOp → Prop
  | .add agent schedClass gen3 => (∃ t ∈ s.memory.sleeping, t.1 = agent) →
      activity agent = false ∨ schedClass = none ∨ gen3 = false
  | .remove agent => s.added agent = false
  | .putToSleep agent createEl gen3 gen5Agent gen5Class => s.added agent = true →
      createEl = true ∧ gen3 = true ∧ gen5Agent = true ∧ gen5Class = true
  | .activated error => error = true →
      ∀ agent, s.activations.head? = some agent → agent ∉ s.queue s.turn
  | _ => True

theorem At.sleepClass_none_of_forall (h : At s a w) (hnone : ¬∃ t ∈ s.memory.sleeping, t.1 = a) :
    w.sleepClass = none := by
  have hfind := h.findSleeping
  rw [List.find?_eq_none.mpr fun t ht => by simpa using fun heq => hnone ⟨t, ht, heq⟩] at hfind
  cases hw : w.sleepClass with
  | none => rfl
  | some c =>
    rw [hw] at hfind
    cases hfind

theorem At.unscheduled_of_mem (h : At s a w) {t : Agent × SchedClass} (ht : t ∈ s.memory.sleeping)
    (hta : t.1 = a) : w.schedClass = none := by
  have hmem : t ∈ s.memory.sleeping.filter fun t => t.1 = a :=
    List.mem_filter.mpr ⟨ht, decide_eq_true hta⟩
  rw [h.sleeping] at hmem
  cases w with
  | idle => rfl
  | scheduled c => cases hmem
  | asleep c => rfl

theorem At.scheduled_of_added (h : At s a w) (hadded : s.added a = true) :
    ∃ c, w = .scheduled c := by
  rw [h.added] at hadded
  cases w with
  | idle => cases hadded
  | scheduled c => exact ⟨c, rfl⟩
  | asleep c => cases hadded

theorem Place.eq_idle (hsched : w.schedClass = none) (hsleep : w.sleepClass = none) :
    w = .idle := by
  cases w with
  | idle => rfl
  | scheduled c => cases hsched
  | asleep c => cases hsleep

theorem SchedInv.exec (inv : SchedInv activity s) {op : SchedOp} (keeps : op.Keeps activity s)
    (h : op.exec activity s = some s') : SchedInv activity s' := by
  cases op with
  | add a schedClass gen3 =>
    cases h
    obtain ⟨w, hat⟩ := inv.placed a
    obtain ⟨ok, heq, -⟩ | ⟨c, heq, hact, hw, rfl, rfl⟩ := hat.addAgent activity schedClass gen3
    · rw [heq]
      exact inv
    · rw [heq]
      have hsleep : w.sleepClass = none := by
        apply hat.sleepClass_none_of_forall
        intro hasleep
        rcases keeps hasleep with h | h | h
        · exact absurd (hact.symm.trans h) (by decide)
        · cases h
        · cases h
      have hidle := Place.eq_idle hw hsleep
      subst hidle
      exact inv.move hat.push_idle (fun b hne => SameFor.push hne) fun _ => hact
  | remove a =>
    have hadded : s.added a = false := keeps
    simp only [SchedOp.exec, Sched.removeAgent] at h
    split at h
    · cases h
    · rw [Sched.schedRemoveAgent, hadded] at h
      cases h
      exact inv
  | putToSleep a createEl gen3 gen5Agent gen5Class =>
    obtain ⟨w, hat⟩ := inv.placed a
    cases hact : activity a with
    | false =>
      simp only [SchedOp.exec, Sched.putToSleep, hact] at h
      cases h
    | true =>
      simp only [SchedOp.exec, Sched.putToSleep, hact, hat.schedRemoveAgent] at h
      cases hw : w.schedClass with
      | none =>
        rw [hw] at h
        cases h
        exact inv
      | some c =>
        obtain rfl : w = .scheduled c := by
          cases w <;> cases hw
          rfl
        obtain ⟨rfl, rfl, rfl, rfl⟩ := keeps hat.added
        cases h
        exact inv.move hat.sleep (fun b hne => SameFor.sleep hne) fun _ => hact
  | wakeup a gen3 hooked =>
    cases h
    obtain ⟨w, hat⟩ := inv.placed a
    cases hw : w.sleepClass with
    | none =>
      have hfind := hat.findSleeping
      rw [hw] at hfind
      simp only [Sched.wakeup, hfind, Option.map_none]
      exact inv
    | some c =>
      obtain rfl : w = .asleep c := by
        cases w <;> cases hw
        rfl
      have hfind := hat.findSleeping
      simp only [Sched.wakeup, hfind, Place.sleepClass_asleep, Option.map_some]
      obtain ⟨ok, heq, hok, -⟩ | ⟨d, heq, hact, -, hd, -⟩ := hat.addAgent activity (some c) gen3
      · rw [heq]
        cases ok with
        | false => exact inv
        | true => exact absurd rfl (hok rfl)
      · rw [heq]
        cases hd
        exact inv.move hat.wake (fun b hne => SameFor.wake hne) fun _ => hact
  | mainTurn =>
    cases h
    exact inv.same fun b => SameFor.mainTurn b s
  | doStep =>
    cases h
    exact inv.same fun b => SameFor.doStep b s
  | activated error =>
    simp only [SchedOp.exec, Sched.activated] at h
    split at h
    · cases h
    · next agent rest hactivations =>
      cases h
      cases error with
      | false => exact inv.same fun b => ⟨rfl, fun _ => rfl, rfl, rfl⟩
      | true =>
        have hnot := keeps rfl agent (by rw [hactivations]; rfl)
        have hsame : (s.queue s.turn).filter (fun a => a ≠ agent) = s.queue s.turn := by
          apply List.filter_eq_self.mpr
          intro b hb
          simpa using fun heq : b = agent => hnot (heq ▸ hb)
        rw [hsame, Function.update_eq_self]
        exact inv.same fun b => ⟨rfl, fun _ => rfl, rfl, rfl⟩

/-! ## Runs -/

structure Consistent (s : Sched) (a : Agent) : Prop where
  listed : s.added a = true → ∃ c, ∀ d, (s.queue d).count a = if d = c then 1 else 0
  unlisted : s.added a = false → ∀ c, a ∉ s.queue c
  arc : ∀ c, a ∈ s.queue c → s.memory.arcs.filter (fun arc => arc.2 = a) = [(c, a)]
  noArc : (∀ c, a ∉ s.queue c) → s.memory.arcs.filter (fun arc => arc.2 = a) = []
  awake : ∀ c, a ∈ s.queue c → ∀ t ∈ s.memory.sleeping, t.1 ≠ a

theorem At.consistent (h : At s a w) : Consistent s a := by
  cases hw : w.schedClass with
  | none =>
    have nowhere : ∀ c, a ∉ s.queue c := fun c hmem => by
      rw [h.mem_queue, hw] at hmem
      cases hmem
    constructor
    · intro hadded
      rw [h.added, hw] at hadded
      cases hadded
    · exact fun _ => nowhere
    · exact fun c hmem => absurd hmem (nowhere c)
    · intro _
      rw [h.arcs, hw]
      rfl
    · exact fun c hmem => absurd hmem (nowhere c)
  | some c =>
    obtain rfl : w = .scheduled c := by
      cases w <;> cases hw
      rfl
    have only : ∀ d, a ∈ s.queue d → d = c := fun d hd =>
      (Option.some.inj (h.mem_queue.mp hd)).symm
    constructor
    · intro _
      refine ⟨c, fun d => ?_⟩
      rw [h.queued d]
      simp only [Place.schedClass_scheduled, Option.some.injEq, eq_comm]
    · intro hadded
      rw [h.added] at hadded
      cases hadded
    · intro d hd
      obtain rfl := only d hd
      exact h.arcs
    · intro hnone
      exact absurd (h.mem_queue.mpr rfl) (hnone c)
    · intro d _ t ht heq
      have hmem : t ∈ s.memory.sleeping.filter fun t => t.1 = a :=
        List.mem_filter.mpr ⟨ht, decide_eq_true heq⟩
      rw [h.sleeping] at hmem
      cases hmem

theorem Consistent.not_of_lost (hadded : s.added a = true) (hlost : ∀ c, a ∉ s.queue c) :
    ¬Consistent s a := by
  intro h
  obtain ⟨c, hc⟩ := h.listed hadded
  have hcount := hc c
  rw [if_pos rfl, List.count_eq_zero.mpr (hlost c)] at hcount
  cases hcount

/-- An operation that does not keep the places spoils the bookkeeping at once. -/
theorem SchedInv.spoilt (inv : SchedInv activity s) {op : SchedOp}
    (h : op.exec activity s = some s') (spoils : ¬op.Keeps activity s) :
    ∃ a, activity a = true ∧ ¬Consistent s' a := by
  cases op with
  | add a schedClass gen3 =>
    cases h
    simp only [SchedOp.Keeps, Classical.not_imp, not_or] at spoils
    obtain ⟨⟨t, ht, hta⟩, hact, hclass, hgen⟩ := spoils
    obtain ⟨w, hat⟩ := inv.placed a
    obtain ⟨ok, -, -, hfail⟩ | ⟨c, heq, hact', -⟩ := hat.addAgent activity schedClass gen3
    · rcases hfail (hat.unscheduled_of_mem ht hta) with h | h | h
      · exact absurd h hact
      · exact absurd h hclass
      · exact absurd h hgen
    · rw [heq]
      refine ⟨a, hact', fun consistent => consistent.awake c ?_ t ht hta⟩
      simp
  | remove a =>
    have hadded : s.added a = true := by simpa [SchedOp.Keeps] using spoils
    have hact := inv.active a hadded
    obtain ⟨w, hat⟩ := inv.placed a
    obtain ⟨c, rfl⟩ := hat.scheduled_of_added hadded
    simp only [SchedOp.exec, Sched.removeAgent, hact, hat.schedRemoveAgent] at h
    cases h
    exact ⟨a, hact, Consistent.not_of_lost hadded (notMem_pull hat)⟩
  | putToSleep a createEl gen3 gen5Agent gen5Class =>
    simp only [SchedOp.Keeps, Classical.not_imp] at spoils
    obtain ⟨hadded, hfails⟩ := spoils
    have hact := inv.active a hadded
    obtain ⟨w, hat⟩ := inv.placed a
    obtain ⟨c, rfl⟩ := hat.scheduled_of_added hadded
    have hcalls : (!createEl || !gen3 || !gen5Agent || !gen5Class) = true := by
      by_contra hnone
      simp only [Bool.or_eq_true, Bool.not_eq_true', not_or, Bool.not_eq_false] at hnone
      exact hfails ⟨hnone.1.1.1, hnone.1.1.2, hnone.1.2, hnone.2⟩
    simp only [SchedOp.exec, Sched.putToSleep, hact, hat.schedRemoveAgent, hcalls] at h
    cases h
    exact ⟨a, hact, Consistent.not_of_lost hadded (notMem_pull hat)⟩
  | wakeup a gen3 hooked => exact absurd trivial spoils
  | mainTurn => exact absurd trivial spoils
  | doStep => exact absurd trivial spoils
  | activated error =>
    simp only [SchedOp.Keeps, Classical.not_imp, not_forall, not_not] at spoils
    obtain ⟨rfl, a, hhead, hmem⟩ := spoils
    obtain ⟨w, hat⟩ := inv.placed a
    obtain rfl : w = .scheduled s.turn := by
      have hclass := hat.mem_queue.mp hmem
      cases w <;> cases hclass
      rfl
    obtain ⟨rest, hactivations⟩ := List.head?_eq_some_iff.mp hhead
    simp only [SchedOp.exec, Sched.activated, hactivations] at h
    cases h
    exact ⟨a, inv.active a hat.added, Consistent.not_of_lost hat.added (notMem_pull hat)⟩

inductive SchedRun (activity : Agent → Bool) (ok : Sched → SchedOp → Prop) : Sched → Prop where
  | init : SchedRun activity ok Sched.init
  | step {s s' : Sched} (op : SchedOp) : SchedRun activity ok s → ok s op →
      op.exec activity s = some s' → SchedRun activity ok s'

theorem SchedRun.inv (run : SchedRun activity (fun s op => op.Keeps activity s) s) :
    SchedInv activity s := by
  induction run with
  | init => exact SchedInv.init
  | step op _ keeps hexec ih => exact ih.exec keeps hexec

/-- As long as every operation keeps the places the bookkeeping is consistent, and the
first one that does not spoils it. -/
theorem scheduler_consistent (activity : Agent → Bool) (s : Sched)
    (run : SchedRun activity (fun s op => op.Keeps activity s) s) :
    (∀ a, activity a = true → Consistent s a) ∧
      ∀ (op : SchedOp) (s' : Sched), op.exec activity s = some s' →
        ((∀ a, activity a = true → Consistent s' a) ↔ op.Keeps activity s) := by
  have consistent : ∀ {s}, SchedInv activity s → ∀ a, Consistent s a := by
    intro s inv a
    obtain ⟨w, h⟩ := inv.placed a
    exact h.consistent
  refine ⟨fun a _ => consistent run.inv a, fun op s' hexec => ⟨fun all => ?_, fun keeps => ?_⟩⟩
  · by_contra spoils
    obtain ⟨a, hact, hnot⟩ := run.inv.spoilt hexec spoils
    exact hnot (all a hact)
  · exact fun a _ => consistent (run.inv.exec keeps hexec) a

/-- An agent is added, runs, is put to sleep and is woken up. -/
theorem scheduler_consistent_woken : ∃ s, s.added 1 = true ∧ Consistent s 1 := by
  have added : SchedRun (fun _ => true) (fun s op => op.Keeps (fun _ => true) s) _ :=
    .step (.add 1 (some .normal) true) .init nofun rfl
  have stepped := SchedRun.step .doStep added trivial rfl
  have slept := SchedRun.step (.putToSleep 1 true true true true) stepped
    (fun _ => ⟨rfl, rfl, rfl, rfl⟩) rfl
  have woken := SchedRun.step (.wakeup 1 true false) slept trivial rfl
  exact ⟨_, rfl, (scheduler_consistent _ _ woken).1 1 rfl⟩

/-- An agent is removed and its flag is not. -/
theorem scheduler_consistent_fails : ¬∀ (activity : Agent → Bool) (s : Sched),
    SchedRun activity (fun _ _ => True) s → ∀ a, activity a = true → Consistent s a := by
  intro claim
  have added : SchedRun (fun _ => true) (fun _ _ => True) _ :=
    .step (.add 1 (some .normal) true) .init trivial rfl
  have removed := SchedRun.step (.remove 1) added trivial rfl
  obtain ⟨c, hcount⟩ := (claim _ _ removed 1 rfl).listed rfl
  have hone := hcount c
  rw [if_pos rfl] at hone
  revert hone
  cases c <;> decide

end ScCore.Pm
