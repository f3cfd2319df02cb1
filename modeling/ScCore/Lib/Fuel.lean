import Mathlib.Tactic.Common

/-!
# Runs with fuel

A recursion that need not end is written with a fuel argument, and `none` says
that it was cut off. It converges to a result when from some amount of fuel on
it returns that result; it is monotone when more fuel never changes a result.
-/

universe u v

/-- From some amount of fuel on the run returns `r`. -/
def Converges {α : Type u} (f : Nat → Option α) (r : α) : Prop :=
  ∃ N, ∀ n, N ≤ n → f n = some r

/-- More fuel never changes a result. -/
def FuelMono {α : Type u} (f : Nat → Option α) : Prop :=
  ∀ n r, f n = some r → f (n + 1) = some r

namespace Converges

variable {α : Type u} {β : Type v} {f : Nat → Option α} {r r' : α}

theorem const (r : α) : Converges (fun _ => some r) r := ⟨0, fun _ _ => rfl⟩

theorem unique (h : Converges f r) (h' : Converges f r') : r = r' := by
  obtain ⟨N, hN⟩ := h
  obtain ⟨N', hN'⟩ := h'
  have := hN (max N N') (Nat.le_max_left _ _)
  rw [hN' _ (Nat.le_max_right _ _)] at this
  exact (Option.some.inj this).symm

theorem exists_fuel (h : Converges f r) : ∃ n, f n = some r := by
  obtain ⟨N, hN⟩ := h
  exact ⟨N, hN N (Nat.le_refl N)⟩

theorem bind {g : α → Nat → Option β} {y : β} (h : Converges f r) (h' : Converges (g r) y) :
    Converges (fun n => (f n).bind fun x => g x n) y := by
  obtain ⟨N, hN⟩ := h
  obtain ⟨N', hN'⟩ := h'
  refine ⟨max N N', fun n hn => ?_⟩
  show (f n).bind (fun x => g x n) = some y
  rw [hN n (by omega), Option.bind_some, hN' n (by omega)]

theorem shift (h : Converges f r) (j : Nat) : Converges (fun n => f (n + j)) r := by
  obtain ⟨N, hN⟩ := h
  exact ⟨N, fun n hn => hN _ (by omega)⟩

theorem of_succ (h : Converges (fun n => f (n + 1)) r) : Converges f r := by
  obtain ⟨N, hN⟩ := h
  refine ⟨N + 1, fun n hn => ?_⟩
  obtain ⟨k, rfl⟩ : ∃ k, n = k + 1 := ⟨n - 1, by omega⟩
  exact hN k (by omega)

end Converges

namespace FuelMono

variable {α : Type u} {f : Nat → Option α} {r r' : α}

theorem le (mono : FuelMono f) {n k : Nat} (hn : f n = some r) (hk : n ≤ k) : f k = some r := by
  induction hk with
  | refl => exact hn
  | step _ ih => exact mono _ _ ih

theorem converges (mono : FuelMono f) {n : Nat} (hn : f n = some r) : Converges f r :=
  ⟨n, fun _ hk => mono.le hn hk⟩

theorem unique (mono : FuelMono f) {n k : Nat} (hn : f n = some r) (hk : f k = some r') : r = r' :=
  (mono.converges hn).unique (mono.converges hk)

end FuelMono
