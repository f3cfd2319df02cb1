import Mathlib.Data.List.Basic
import ScCore.Scp.Process

/-!
# A father that sleeps on its children

`scp_sleep_on_child` against `finalize_process` and its hook. A tuple under
`WAITING_FOR_` goes only with the child it names, so the tuples for `ALL_CHILDS` stay and
are found first from then on.
-/

namespace ScCore.Scp

/-- The sign of a child process. -/
abbrev Child := Nat
/-- The set that `descr` names, with an arc to the process. -/
abbrev Descr := Nat

/-- What a tuple under `WAITING_FOR_` leads to. -/
inductive Awaited where
  | allChilds
  | child (c : Child)
  deriving DecidableEq, Repr

structure Father where
  /-- `PROCESS_STATE_SLEEP`, and asleep in the scheduler. -/
  asleep : Bool
  /-- The components under `WAITING_FOR_`, the oldest first. -/
  waitingFor : List Awaited
  /-- The processes with the father under `FATHER_`. -/
  children : List Child
  descr : Descr → List Child
  /-- What the father has been put to sleep on last, if it has not been woken since. -/
  target : Option Awaited

namespace Father

variable (f : Father)

/-- `gen5_f_a_f_a_f` and `scp_set_state`. -/
def sleepOn (t : Awaited) : Father :=
  { f with waitingFor := f.waitingFor ++ [t], asleep := true, target := some t }

/-- `scp_sleep_on_child`; nothing stands for `ALL_CHILDS`. -/
def sleepOnChild : Option Descr → Father
  | none => f.sleepOn .allChilds
  | some d =>
      match f.descr d with
      -- if there is no child it is assumed to be dead
      | [] => f
      | c :: _ => f.sleepOn (.child c)

/-- `scp_set_state` and `pm_sched_wakeup`. -/
def wakeup : Father := { f with asleep := false, target := none }

/-- `child_death_hook::activate`. The son is still among the children. -/
def childDeathHook (son : Child) : Father :=
  if !f.asleep then f
  else match f.waitingFor.head? with
    | none => f
    | some waitingOn =>
        if waitingOn = .allChilds ∧ f.children.length < 2 then f.wakeup
        else if waitingOn ≠ .child son then f
        else f.wakeup

/-- `erase_el` of a process: the arcs to it go as well. -/
def eraseChild (son : Child) : Father :=
  { f with
    children := f.children.filter fun c => c ≠ son
    waitingFor := f.waitingFor.filter fun t => t ≠ .child son
    descr := fun d => (f.descr d).filter fun c => c ≠ son }

/-- `finalize_process` of a child. -/
def finalize (son : Child) : Father := (f.childDeathHook son).eraseChild son

/-- `scp_create_process` with the father, and `gen3` of its sign into `descr`. -/
def createChild (son : Child) (d : Descr) : Father :=
  { f with
    children := f.children ++ [son]
    descr := Function.update f.descr d (f.descr d ++ [son]) }

end Father

inductive FatherOp where
  | sleepOnChild (operand : Option Descr)
  | createChild (son : Child) (d : Descr)
  | finalize (son : Child)
  deriving DecidableEq, Repr

def Father.step (f : Father) : FatherOp → Option Father
  | .sleepOnChild operand => if f.asleep then none else some (f.sleepOnChild operand)
  | .createChild son d =>
      if f.asleep ∨ son ∈ f.children then none else some (f.createChild son d)
  | .finalize son => if son ∈ f.children then some (f.finalize son) else none

/-! ## What a sleeping father is owed -/

def Awaited.Unfinished (f : Father) : Awaited → Prop
  | allChilds => f.children ≠ []
  | child c => c ∈ f.children

def Father.Awakened (f : Father) : Prop :=
  f.asleep = true → ∃ t, f.target = some t ∧ t.Unfinished f

/-- Whoever is woken by the end of `son` has waited for it, or for all and it was the last. -/
def Father.RightlyWoken (f : Father) (op : FatherOp) (f' : Father) : Prop :=
  ∀ son, op = .finalize son → f.asleep = true → f'.asleep = false →
    f.target = some (.child son) ∨ f.target = some .allChilds ∧ f'.children = []

def Father.Sound (f : Father) : List FatherOp → Prop
  | [] => f.Awakened
  | op :: ops => f.Awakened ∧
      ∀ f', f.step op = some f' → f.RightlyWoken op f' ∧ f'.Sound ops

/-- The father waits for all only if there is someone to wait for, and the child that it
waits for does not end with others left while a tuple for `ALL_CHILDS` is still there. -/
def FatherOp.Heeds (f : Father) : FatherOp → Prop
  | sleepOnChild none => f.children ≠ []
  | sleepOnChild (some _) => True
  | createChild _ _ => True
  | finalize son =>
      ¬(f.target = some (.child son) ∧ .allChilds ∈ f.waitingFor ∧ 2 ≤ f.children.length)

def Father.Heeded (f : Father) : List FatherOp → Prop
  | [] => True
  | op :: ops => ∀ f', f.step op = some f' → op.Heeds f ∧ f'.Heeded ops

/-! ## The invariant -/

/-- The tuples that are left are for `ALL_CHILDS`, but for the one of the child that the
father waits for, which is the newest. -/
structure FatherInv (f : Father) : Prop where
  tuples : ∃ old, (∀ t ∈ old, t = Awaited.allChilds) ∧
    f.waitingFor = old ++ (f.target.elim [] fun t => [t])
  described : ∀ {d c}, c ∈ f.descr d → c ∈ f.children
  nodup : f.children.Nodup
  asleep : f.asleep = f.target.isSome
  awakened : f.Awakened

variable {f f' : Father}

namespace FatherInv

variable {t : Awaited} {son : Child}

section

variable (inv : FatherInv f)
include inv

theorem head (target : f.target = some t) :
    f.waitingFor.head? = some .allChilds ∨
      f.waitingFor.head? = some t ∧ .allChilds ∉ f.waitingFor := by
  obtain ⟨old, all, eq⟩ := inv.tuples
  rw [target, Option.elim_some] at eq
  rw [eq]
  cases old with
  | nil =>
    by_cases h : t = .allChilds
    · exact .inl (by rw [h]; rfl)
    · exact .inr ⟨rfl, by simpa using Ne.symm h⟩
  | cons u old =>
    rw [all u List.mem_cons_self]
    exact .inl rfl

theorem sleepOn (awake : f.asleep = false) (unfinished : t.Unfinished f) :
    FatherInv (f.sleepOn t) where
  tuples := by
    obtain ⟨old, all, eq⟩ := inv.tuples
    have none : f.target = none := by
      rw [← Option.not_isSome_iff_eq_none, ← inv.asleep, awake]
      decide
    rw [none, Option.elim_none, List.append_nil] at eq
    exact ⟨old, all, by rw [← eq]; rfl⟩
  described := inv.described
  nodup := inv.nodup
  asleep := rfl
  awakened _ := by
    refine ⟨t, rfl, ?_⟩
    cases t <;> exact unfinished

theorem createChild (awake : f.asleep = false) (fresh : son ∉ f.children) (d : Descr) :
    FatherInv (f.createChild son d) where
  tuples := inv.tuples
  described {d' c} hc := by
    by_cases hd : d' = d
    · subst hd
      simp only [Father.createChild, Function.update_self, List.mem_append,
        List.mem_singleton] at hc ⊢
      exact hc.imp_left inv.described
    · simp only [Father.createChild, Function.update_of_ne hd] at hc
      exact List.mem_append_left _ (inv.described hc)
  nodup := by
    rw [Father.createChild, List.nodup_append]
    refine ⟨inv.nodup, by simp, ?_⟩
    rintro c hc _ h rfl
    exact fresh (List.mem_singleton.mp h ▸ hc)
  asleep := inv.asleep
  awakened h := by
    rw [show (f.createChild son d).asleep = f.asleep from rfl, awake] at h
    cases h

theorem eraseChild
    (others : ∀ t, f.target = some t → t ≠ .child son ∧ (t = .allChilds → 2 ≤ f.children.length)) :
    FatherInv (f.eraseChild son) where
  tuples := by
    obtain ⟨old, all, eq⟩ := inv.tuples
    refine ⟨old, all, ?_⟩
    have keep : ∀ t ∈ f.waitingFor, t ≠ .child son := by
      intro t ht
      rw [eq, List.mem_append] at ht
      rcases ht with ht | ht
      · rw [all t ht]
        exact fun h => Awaited.noConfusion h
      · cases target : f.target with
        | none => simp [target] at ht
        | some u =>
          obtain rfl : t = u := by simpa [target] using ht
          exact (others t target).1
    show f.waitingFor.filter _ = _
    rw [List.filter_eq_self.mpr fun t ht => decide_eq_true (keep t ht), eq]
    rfl
  described {d c} hc := by
    rw [Father.eraseChild, List.mem_filter] at hc
    exact List.mem_filter.mpr ⟨inv.described hc.1, hc.2⟩
  nodup := inv.nodup.filter _
  asleep := inv.asleep
  awakened h := by
    obtain ⟨t, target, unfinished⟩ := inv.awakened h
    refine ⟨t, target, ?_⟩
    obtain ⟨ne, two⟩ := others t target
    cases t with
    | child c =>
      apply List.mem_filter.mpr
      exact ⟨unfinished, decide_eq_true fun h => ne (by rw [h])⟩
    | allChilds =>
      intro empty
      have only : ∀ c ∈ f.children, c = son := by
        simpa [Father.eraseChild, List.filter_eq_nil_iff] using empty
      have := two rfl
      match children : f.children with
      | a :: b :: _ =>
        have nodup := inv.nodup
        rw [children] at nodup only
        have ha := only a List.mem_cons_self
        have hb := only b (List.mem_cons_of_mem _ List.mem_cons_self)
        simp [ha, hb] at nodup
      | [] | [_] => simp [children] at this

theorem wakeup (target : ∀ t, f.target = some t → t = .child son ∨ t = .allChilds) :
    FatherInv (f.wakeup.eraseChild son) where
  tuples := by
    obtain ⟨old, all, eq⟩ := inv.tuples
    refine ⟨f.waitingFor.filter fun t => t ≠ .child son, ?_, (List.append_nil _).symm⟩
    intro t ht
    obtain ⟨mem, ne⟩ := List.mem_filter.mp ht
    rw [eq, List.mem_append] at mem
    rcases mem with mem | mem
    · exact all t mem
    · cases was : f.target with
      | none => simp [was] at mem
      | some u =>
        obtain rfl : t = u := by simpa [was] using mem
        exact (target t was).resolve_left (of_decide_eq_true ne)
  described {d c} hc := by
    rw [Father.eraseChild, List.mem_filter] at hc
    exact List.mem_filter.mpr ⟨inv.described hc.1, hc.2⟩
  nodup := inv.nodup.filter _
  asleep := rfl
  awakened h := by cases h

theorem finalize (mem : son ∈ f.children) :
    f.RightlyWoken (.finalize son) (f.finalize son) ∧
      ((FatherOp.finalize son).Heeds f → FatherInv (f.finalize son)) ∧
      ((f.finalize son).Awakened → (FatherOp.finalize son).Heeds f) := by
  have gone : son ∉ ((f.eraseChild son).children) := by simp [Father.eraseChild]
  cases target : f.target with
  | none =>
    have awake : f.asleep = false := by rw [inv.asleep, target]; rfl
    have same : f.finalize son = f.eraseChild son := by
      simp [Father.finalize, Father.childDeathHook, awake]
    rw [same]
    refine ⟨?_, fun _ => inv.eraseChild (by simp [target]), ?_⟩
    · intro _ _ h
      rw [awake] at h
      cases h
    · rintro - ⟨h, -⟩
      rw [target] at h
      cases h
  | some t =>
    have asleep : f.asleep = true := by rw [inv.asleep, target]; rfl
    obtain ⟨t', ht', unfinished⟩ := inv.awakened asleep
    obtain rfl : t = t' := Option.some.inj (target.symm.trans ht')
    -- the three ways through the hook
    have woken (h : f.childDeathHook son = f.wakeup)
        (right : t = .child son ∨ t = .allChilds ∧ f.children.length < 2)
        (heeds : (FatherOp.finalize son).Heeds f) :
        f.RightlyWoken (.finalize son) (f.finalize son) ∧
          ((FatherOp.finalize son).Heeds f → FatherInv (f.finalize son)) ∧
          ((f.finalize son).Awakened → (FatherOp.finalize son).Heeds f) := by
      rw [Father.finalize, h]
      refine ⟨?_, fun _ => inv.wakeup ?_, fun _ => heeds⟩
      · intro son' hson _ _
        cases hson
        rw [target]
        refine right.imp (fun h => by rw [h]) fun ⟨h, short⟩ => ⟨by rw [h], ?_⟩
        match children : f.children with
        | [c] =>
          obtain rfl : son = c := by simpa [children] using mem
          simp [Father.eraseChild, Father.wakeup, children]
        | [] => simp [children] at mem
        | _ :: _ :: _ => exact absurd (children ▸ short) (by simp)
      · intro u hu
        obtain rfl : t = u := Option.some.inj (target.symm.trans hu)
        exact right.imp_right And.left
    have slept (h : f.childDeathHook son = f)
        (heeds : (FatherOp.finalize son).Heeds f ↔ t ≠ .child son)
        (two : t = .allChilds → 2 ≤ f.children.length) :
        f.RightlyWoken (.finalize son) (f.finalize son) ∧
          ((FatherOp.finalize son).Heeds f → FatherInv (f.finalize son)) ∧
          ((f.finalize son).Awakened → (FatherOp.finalize son).Heeds f) := by
      rw [Father.finalize, h]
      refine ⟨?_, fun ok => inv.eraseChild ?_, fun awakened => heeds.mpr ?_⟩
      · intro _ _ _ awake
        rw [show (f.eraseChild son).asleep = f.asleep from rfl, asleep] at awake
        cases awake
      · intro u hu
        obtain rfl : t = u := Option.some.inj (target.symm.trans hu)
        exact ⟨heeds.mp ok, two⟩
      · rintro rfl
        obtain ⟨u, hu, unfinished⟩ := awakened asleep
        obtain rfl : Awaited.child son = u := Option.some.inj (target.symm.trans hu)
        exact gone unfinished
    have hook : f.childDeathHook son = match f.waitingFor.head? with
        | none => f
        | some waitingOn =>
            if waitingOn = .allChilds ∧ f.children.length < 2 then f.wakeup
            else if waitingOn ≠ .child son then f
            else f.wakeup := by
      rw [Father.childDeathHook, asleep]
      rfl
    rcases inv.head target with first | ⟨first, fresh⟩
    · have all : Awaited.allChilds ∈ f.waitingFor := List.mem_of_mem_head? first
      by_cases short : f.children.length < 2
      · apply woken
        · simp [hook, first, short]
        · cases t with
          | allChilds => exact .inr ⟨rfl, short⟩
          | child c =>
            match children : f.children with
            | [a] =>
              have hc : c ∈ f.children := unfinished
              rw [children, List.mem_singleton] at hc mem
              exact .inl (by rw [hc, mem])
            | [] => simp [children] at mem
            | _ :: _ :: _ => exact absurd (children ▸ short) (by simp)
        · rintro ⟨-, -, two⟩
          omega
      · apply slept
        · simp [hook, first, short]
        · simp [FatherOp.Heeds, target, all, Nat.not_lt.mp short]
        · exact fun _ => Nat.not_lt.mp short
    · have heeds : (FatherOp.finalize son).Heeds f := fun h => fresh h.2.1
      cases t with
      | allChilds => exact absurd (List.mem_of_mem_head? first) fresh
      | child c =>
        by_cases hc : c = son
        · apply woken _ (.inl (by rw [hc])) heeds
          simp [hook, first, hc]
        · apply slept
          · simp [hook, first, hc]
          · simp [heeds, hc]
          · intro h
            cases h

theorem step {op : FatherOp} (h : f.step op = some f') :
    f.RightlyWoken op f' ∧ (op.Heeds f → FatherInv f') ∧ (f'.Awakened → op.Heeds f) := by
  cases op with
  | sleepOnChild operand =>
    rw [Father.step] at h
    split at h
    · cases h
    · next awake =>
      have awake := Bool.not_eq_true _ ▸ awake
      cases h
      refine ⟨fun _ h => by (cases h), ?_, ?_⟩
      · intro heeds
        cases operand with
        | none => exact inv.sleepOn awake heeds
        | some d =>
          cases members : f.descr d with
          | nil => simpa [Father.sleepOnChild, members] using inv
          | cons c rest =>
            have mem : c ∈ f.children := inv.described (members ▸ List.mem_cons_self)
            simpa [Father.sleepOnChild, members] using inv.sleepOn (t := .child c) awake mem
      · intro awakened
        cases operand with
        | some d => trivial
        | none =>
          obtain ⟨t, target, unfinished⟩ := awakened rfl
          cases target
          exact unfinished
  | createChild son d =>
    rw [Father.step] at h
    split at h
    · cases h
    · next free =>
      rw [not_or] at free
      cases h
      refine ⟨fun _ h => by (cases h), ?_, fun _ => trivial⟩
      exact fun _ => inv.createChild (Bool.not_eq_true _ ▸ free.1) free.2 d
  | finalize son =>
    rw [Father.step] at h
    split at h
    · next mem =>
      cases h
      exact inv.finalize mem
    · cases h

end

end FatherInv

def Father.new : Father := ⟨false, [], [], fun _ => [], none⟩

theorem FatherInv.new : FatherInv .new where
  tuples := ⟨[], by simp, rfl⟩
  described h := by cases h
  nodup := List.nodup_nil
  asleep := rfl
  awakened h := by cases h

theorem FatherInv.sound_iff (inv : FatherInv f) (ops : List FatherOp) :
    f.Sound ops ↔ f.Heeded ops := by
  induction ops generalizing f with
  | nil => exact ⟨fun _ => trivial, fun _ => inv.awakened⟩
  | cons op ops ih =>
    constructor
    · rintro ⟨-, sound⟩ f' h
      obtain ⟨-, keeps, needs⟩ := inv.step h
      have sound := (sound f' h).2
      have awakened : f'.Awakened := by
        cases ops with
        | nil => exact sound
        | cons _ _ => exact sound.1
      exact ⟨needs awakened, (ih (keeps (needs awakened))).mp sound⟩
    · intro heeded
      refine ⟨inv.awakened, ?_⟩
      intro f' h
      obtain ⟨right, keeps, -⟩ := inv.step h
      obtain ⟨heeds, rest⟩ := heeded f' h
      exact ⟨right, (ih (keeps heeds)).mpr rest⟩

/-- Over any run the father is never left asleep and is woken only rightly, exactly if
every step of the run heeds. -/
theorem father_sound_iff (ops : List FatherOp) :
    Father.new.Sound ops ↔ Father.new.Heeded ops :=
  FatherInv.new.sound_iff ops

/-- The father waits for all its children, of which it has none. -/
theorem father_sound_fails : ¬Father.new.Sound [.sleepOnChild none] := by
  rintro ⟨-, sound⟩
  obtain ⟨t, target, unfinished⟩ := (sound _ rfl).2 rfl
  cases target
  exact unfinished rfl

end ScCore.Scp
