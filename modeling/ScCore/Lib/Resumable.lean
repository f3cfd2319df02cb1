import ScCore.Lib.Fuel

/-!
# Resumable readers

A reader takes turns on a buffer. A turn either leaves a new state and a shorter
buffer for the next turn, or it stops with a result, which may say that more
input is needed. A reader is resumable when a buffer that arrives in two parts
gives what it gives as a whole. There may be states in which the reader asks for
input that it does not use; it is not resumable from these.
-/

universe u v w

/-- What one turn leaves: a state, the rest of the buffer and, if it stops, a result. -/
inductive Turn (σ : Type u) (β : Type v) (ρ : Type w) where
  | next (s : σ) (rest : List β)
  | stop (s : σ) (rest : List β) (r : ρ)

namespace Turn

variable {σ : Type u} {β : Type v} {ρ : Type w}

/-- Turns until one stops. -/
def run (turn : σ → List β → Turn σ β ρ) : Nat → σ → List β → Option (σ × List β × ρ)
  | 0, _, _ => none
  | fuel + 1, s, bs =>
      match turn s bs with
      | .next s rest => run turn fuel s rest
      | .stop s rest r => some (s, rest, r)

variable {turn : σ → List β → Turn σ β ρ} {s s' : σ} {bs rest more : List β} {r : ρ}

theorem run_mono (turn : σ → List β → Turn σ β ρ) (s : σ) (bs : List β) :
    FuelMono fun k => run turn k s bs := by
  intro k
  induction k generalizing s bs with
  | zero => intro x hx; cases hx
  | succ k ih =>
    intro x hx
    simp only [run] at hx ⊢
    cases h : turn s bs with
    | next s' rest =>
      rw [h] at hx
      exact ih s' rest x hx
    | stop s' rest r => rwa [h] at hx

/-- A measure that every turn but the last lowers bounds the fuel. -/
theorem run_total (μ : σ → List β → Nat)
    (lower : ∀ s bs s' rest, turn s bs = .next s' rest → μ s' rest < μ s bs) :
    ∀ {k : Nat} {s : σ} {bs : List β}, μ s bs < k → ∃ x, run turn k s bs = some x := by
  intro k
  induction k with
  | zero => intro s bs hk; omega
  | succ k ih =>
    intro s bs hk
    simp only [run]
    cases h : turn s bs with
    | next s' rest => exact ih (by have := lower s bs s' rest h; omega)
    | stop s' rest r => exact ⟨_, rfl⟩

/-- The same turn on a longer buffer that leaves the additional input alone. -/
def push (more : List β) : Turn σ β ρ → Turn σ β ρ
  | .next s rest => .next s (rest ++ more)
  | .stop s rest r => .stop s (rest ++ more) r

/-- The turn does not wait for more input, or is stuck with it. -/
def Settled (needs : ρ → Prop) (stuck : σ → Prop) : Turn σ β ρ → Prop
  | .next _ _ => True
  | .stop s _ r => ¬needs r ∨ stuck s

/-- `needs` are the results that ask for more input, `stuck` the states in which
the reader does so without using it. -/
structure Resumable (turn : σ → List β → Turn σ β ρ) (needs : ρ → Prop) (stuck : σ → Prop) :
    Prop where
  settled : ∀ {s bs}, (turn s bs).Settled needs stuck →
    ∀ more, turn s (bs ++ more) = (turn s bs).push more
  resume : ∀ {s bs s' rest r}, turn s bs = .stop s' rest r → needs r → ¬stuck s' →
    ∀ more, turn s (bs ++ more) = turn s' (rest ++ more)

namespace Resumable

variable {needs : ρ → Prop} {stuck : σ → Prop}

section

variable (res : Resumable turn needs stuck)
include res

theorem next (h : turn s bs = .next s' rest) (more : List β) :
    turn s (bs ++ more) = .next s' (rest ++ more) := by
  rw [res.settled (by rw [h]; trivial), h]
  rfl

theorem stop (h : turn s bs = .stop s' rest r) (done : ¬needs r ∨ stuck s') (more : List β) :
    turn s (bs ++ more) = .stop s' (rest ++ more) r := by
  rw [res.settled (by rw [h]; exact done), h]
  rfl

theorem run_stop {k : Nat} :
    ∀ {s bs}, run turn k s bs = some (s', rest, r) → ¬needs r ∨ stuck s' →
      ∀ more, run turn k s (bs ++ more) = some (s', rest ++ more, r) := by
  induction k with
  | zero => intro s bs h; cases h
  | succ k ih =>
    intro s bs h done more
    simp only [run] at h ⊢
    cases ht : turn s bs with
    | next s₁ rest₁ =>
      rw [ht] at h
      rw [res.next ht]
      exact ih h done more
    | stop s₁ rest₁ r₁ =>
      rw [ht] at h
      obtain ⟨rfl, rfl, rfl⟩ : s₁ = s' ∧ rest₁ = rest ∧ r₁ = r := by simpa using h
      rw [res.stop ht done]

theorem run_resume {j k : Nat} {x : σ × List β × ρ} :
    ∀ {s bs}, run turn k s bs = some (s', rest, r) → needs r → ¬stuck s' →
      run turn j s' (rest ++ more) = some x → run turn (k + j) s (bs ++ more) = some x := by
  induction k with
  | zero => intro s bs h; cases h
  | succ k ih =>
    intro s bs h need free hx
    rw [Nat.succ_add]
    simp only [run] at h ⊢
    cases ht : turn s bs with
    | next s₁ rest₁ =>
      rw [ht] at h
      rw [res.next ht]
      exact ih h need free hx
    | stop s₁ rest₁ r₁ =>
      rw [ht] at h
      obtain ⟨rfl, rfl, rfl⟩ : s₁ = s' ∧ rest₁ = rest ∧ r₁ = r := by simpa using h
      rw [res.resume ht need free]
      have hx' : run turn (k + j + 1) s₁ (rest₁ ++ more) = some x :=
        (run_mono turn _ _).le hx (by omega)
      exact hx'

end

end Resumable

end Turn
