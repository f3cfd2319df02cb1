import Mathlib.Logic.Hydra
import Mathlib.Tactic.Abel

/-!
# Worklists

A loop that takes the items of a list one by one, each of which may put others into
the list or stop the loop. It ends if no item leads to others without end, whatever
the order in which the items are taken, and it has then taken what can be reached.
-/

namespace ScCore.Worklist

open Relation

variable {σ α ρ : Type*}

/-- The loop, with fuel. `take` handles an item beside the others in the list, and either
goes on or stops with a result. -/
def drain (take : σ → α → List α → σ × List α ⊕ ρ) (done : σ → ρ) : Nat → σ → List α → Option ρ
  | 0, _, _ => none
  | _ + 1, s, [] => some (done s)
  | n + 1, s, a :: as =>
      match take s a as with
      | .inl (s', as') => drain take done n s' as'
      | .inr res => some res

variable {take : σ → α → List α → σ × List α ⊕ ρ} {done : σ → ρ} {r : α → α → Prop}

theorem drain_rule {I : σ → List α → Prop} {Q : ρ → Prop}
    (goesOn : ∀ {s a as s' as'}, I s (a :: as) → take s a as = .inl (s', as') → I s' as')
    (stops : ∀ {s a as res}, I s (a :: as) → take s a as = .inr res → Q res)
    (ends : ∀ {s}, I s [] → Q (done s)) {n : Nat} {s : σ} {as : List α} {res : ρ}
    (inv : I s as) (hr : drain take done n s as = some res) : Q res := by
  induction n generalizing s as with
  | zero => cases hr
  | succ n ih =>
    cases as with
    | nil =>
      cases hr
      exact ends inv
    | cons a as =>
      rw [drain] at hr
      cases taken : take s a as with
      | inl next =>
        rw [taken] at hr
        exact ih (goesOn inv taken) hr
      | inr res' =>
        rw [taken] at hr
        cases hr
        exact stops inv taken

theorem drain_unique {n m : Nat} {s : σ} {as : List α} {res res' : ρ}
    (hn : drain take done n s as = some res) (hm : drain take done m s as = some res') :
    res = res' := by
  induction n generalizing m s as with
  | zero => cases hn
  | succ n ih =>
    cases m with
    | zero => cases hm
    | succ m =>
      cases as with
      | nil =>
        cases hn
        exact Option.some.inj hm
      | cons a as =>
        rw [drain] at hn hm
        cases taken : take s a as with
        | inl next =>
          rw [taken] at hn hm
          exact ih hn hm
        | inr stopped =>
          rw [taken] at hn hm
          exact Option.some.inj (hn.symm.trans hm)

/-- One leads to the other, and from there no way goes on without end. -/
def Below (r : α → α → Prop) (b a : α) : Prop := r b a ∧ Acc r a

theorem not_refl_of_acc {a : α} (h : Acc r a) : ¬ r a a := by
  induction h with
  | intro a _ ih => exact fun loop => ih a loop loop

instance : Std.Irrefl (Below r) := ⟨fun _ h => not_refl_of_acc h.2 h.1⟩

theorem Below.acc {a : α} (h : Acc r a) : Acc (Below r) a :=
  Subrelation.accessible (fun below => below.1) h

/-- The loop ends if every item that is taken only puts in items to which it leads, and no
item leads to others without end. -/
theorem drain_ends {I : σ → Prop}
    (goesOn : ∀ {s a as s' as'}, I s → take s a as = .inl (s', as') →
      I s' ∧ ∃ new : List α, as'.Perm (new ++ as) ∧ ∀ b ∈ new, r b a)
    {s : σ} {as : List α} (inv : I s) (settled : ∀ a ∈ as, Acc r a) :
    ∃ n res, drain take done n s as = some res := by
  have acc : Acc (CutExpand (Below r)) (as : Multiset α) :=
    acc_of_singleton fun a ha => (Below.acc (settled a (Multiset.mem_coe.mp ha))).cutExpand
  generalize hm : (as : Multiset α) = m at acc
  induction acc generalizing s as with
  | intro m _ ih =>
    cases as with
    | nil => exact ⟨1, done s, rfl⟩
    | cons a as =>
      cases taken : take s a as with
      | inr res => exact ⟨1, res, by rw [drain, taken]⟩
      | inl next =>
        obtain ⟨s', as'⟩ := next
        obtain ⟨inv', new, perm, below⟩ := goesOn inv taken
        have settledA : Acc r a := settled a List.mem_cons_self
        have cut : CutExpand (Below r) (as' : Multiset α) m := by
          refine ⟨new, a, fun b hb => ⟨below b hb, settledA⟩, ?_⟩
          rw [← hm, Multiset.coe_eq_coe.mpr perm, ← Multiset.coe_add, ← Multiset.cons_coe,
            ← Multiset.singleton_add]
          abel
        have settled' : ∀ b ∈ as', Acc r b := by
          intro b hb
          rcases List.mem_append.mp (perm.mem_iff.mp hb) with isNew | old
          · exact settledA.inv (below b isNew)
          · exact settled b (List.mem_cons_of_mem a old)
        obtain ⟨n, res, hr⟩ := ih _ cut inv' settled' rfl
        exact ⟨n + 1, res, by rw [drain, taken]; exact hr⟩

/-- What can be reached from an item. -/
def Reached (r : α → α → Prop) (start a : α) : Prop := ReflTransGen (fun a b => r b a) start a

/-- The items that have been taken and those in the list are what has been reached so far. -/
structure Covers (r : α → α → Prop) (a₀ : α) (taken : Set α) (as : List α) : Prop where
  start : a₀ ∈ taken ∨ a₀ ∈ as
  closed : ∀ a ∈ taken, ∀ b, r b a → b ∈ taken ∨ b ∈ as
  reached : ∀ a, a ∈ taken ∨ a ∈ as → Reached r a₀ a

namespace Covers

variable {a₀ a : α} {taken : Set α} {as as' : List α}

theorem init (r : α → α → Prop) (a₀ : α) : Covers r a₀ ∅ [a₀] where
  start := .inr (List.mem_singleton_self a₀)
  closed := nofun
  reached a ha := by
    rcases ha with ha | ha
    · exact ha.elim
    · rw [List.mem_singleton.mp ha]
      exact .refl

theorem next (h : Covers r a₀ taken (a :: as)) (new : ∀ b, b ∈ as' ↔ b ∈ as ∨ r b a) :
    Covers r a₀ (insert a taken) as' where
  start := by
    rcases h.start with done | waits
    · exact .inl (.inr done)
    · rcases List.mem_cons.mp waits with rfl | waits
      · exact .inl (.inl rfl)
      · exact .inr ((new a₀).mpr (.inl waits))
  closed := by
    rintro x (rfl | hx) b hb
    · exact .inr ((new b).mpr (.inr hb))
    · rcases h.closed x hx b hb with done | waits
      · exact .inl (.inr done)
      · rcases List.mem_cons.mp waits with rfl | waits
        · exact .inl (.inl rfl)
        · exact .inr ((new b).mpr (.inl waits))
  reached := by
    have here : Reached r a₀ a := h.reached a (.inr List.mem_cons_self)
    rintro b ((rfl | hb) | hb)
    · exact here
    · exact h.reached b (.inl hb)
    · rcases (new b).mp hb with waits | leads
      · exact h.reached b (.inr (List.mem_cons_of_mem a waits))
      · exact here.tail leads

theorem all (h : Covers r a₀ taken []) : a ∈ taken ↔ Reached r a₀ a := by
  refine ⟨fun ha => h.reached a (.inl ha), fun ha => ?_⟩
  induction ha with
  | refl => exact h.start.resolve_right List.not_mem_nil
  | tail _ leads ih => exact (h.closed _ ih _ leads).resolve_right List.not_mem_nil

end Covers

theorem exists_of_not_acc {a : α} (h : ¬ Acc r a) : ∃ b, r b a ∧ ¬ Acc r b := by
  by_contra none
  push Not at none
  exact h (.intro a none)

end ScCore.Worklist
