import ScCore.Scp.VariableStore

/-!
# Reading of variables

A value that is read can push another one out of the cache, which is then found in memory
again, unless the counter of these replacements has come round to zero.
-/

namespace ScCore.Scp

variable {hash : Addr → Nat} {e e' e₁ : VarEnv} {s : Values} {x : Addr}

theorem getValue_cases (hash : Addr → Nat) (e : VarEnv) (x : Addr) :
    (e.getValue hash x).2 = e ∨ e.replaces ≠ 0 ∧ ∃ t ∈ e.tuples, t.var = x ∧
      (e.getValue hash x).2 = e.put hash x t.entry := by
  cases hlookup : e.cache.lookup hash x with
  | some entry => exact .inl (by simp only [VarEnv.getValue, hlookup])
  | none =>
    by_cases hzero : e.replaces = 0
    · exact .inl (by simp only [VarEnv.getValue, hlookup, if_pos hzero])
    · cases hsearch : e.search x with
      | none => exact .inl (by simp only [VarEnv.getValue, hlookup, if_neg hzero, hsearch])
      | some entry =>
        obtain ⟨t, hfind, rfl⟩ := Option.map_eq_some_iff.mp hsearch
        obtain rfl : t.var = x := by simpa using List.find?_some hfind
        refine .inr ⟨hzero, t, List.mem_of_find?_eq_some hfind, rfl, ?_⟩
        simp only [VarEnv.getValue, hlookup, if_neg hzero, hsearch]

theorem getValue_of_zero (zero : e.replaces = 0) : (e.getValue hash x).2 = e := by
  rcases getValue_cases hash e x with h | ⟨hne, -⟩
  · exact h
  · exact absurd zero hne

theorem Synced.read (sync : Sync hash e s)
    (room : (e.getValue hash x).2.replaces = 0 → e.replaces = 0) :
    Sync hash (e.getValue hash x).2 s := by
  rcases getValue_cases hash e x with h | ⟨hne, t, ht, rfl, h⟩
  · rwa [h]
  · rw [h] at room ⊢
    apply (sync.loosen _).put _ (sync.entryOf ht)
    intro hcol hzero
    apply hne
    apply room
    rw [VarEnv.put]
    dsimp only
    rw [hcol, if_pos rfl, hzero]

inductive Reads (hash : Addr → Nat) (e : VarEnv) : VarEnv → Prop where
  | refl : Reads hash e e
  | step {e₁ : VarEnv} (x : Addr) : Reads hash e e₁ → Reads hash e (e₁.getValue hash x).2

namespace Reads

theorem trans (h : Reads hash e e₁) (h' : Reads hash e₁ e') : Reads hash e e' := by
  induction h' with
  | refl => exact h
  | step x _ ih => exact .step x ih

theorem same (h : Reads hash e e') : SameTuples e e' := by
  induction h with
  | refl => exact ⟨rfl, rfl, rfl⟩
  | @step e₁ x _ ih =>
    rcases getValue_cases hash e₁ x with h | ⟨-, t, -, -, h⟩
    · rwa [h]
    · rw [h]
      exact ⟨ih.tuples, ih.fresh, ih.vars⟩

theorem of_zero (h : Reads hash e e') (zero : e.replaces = 0) : e' = e := by
  induction h with
  | refl => rfl
  | step x _ ih => rw [ih, getValue_of_zero zero]

theorem sync (h : Reads hash e e') (sync : Sync hash e s)
    (room : e'.replaces = 0 → e.replaces = 0) : Sync hash e' s := by
  by_cases hzero : e.replaces = 0
  · rwa [h.of_zero hzero]
  · induction h with
    | refl => exact sync
    | @step e₁ x _ ih =>
      have hne : (e₁.getValue hash x).2.replaces ≠ 0 := fun h => hzero (room h)
      have hne₁ : e₁.replaces ≠ 0 := by
        intro h
        rw [getValue_of_zero h] at hne
        exact hne h
      apply (ih fun h => absurd h hne₁).read
      exact fun h => absurd h hne

theorem lost (sync : Sync hash e s) (vars : ∀ y, e.vars y = true) (nonzero : e.replaces ≠ 0)
    (zero : (e.getValue hash x).2.replaces = 0) :
    ∃ y, s y ≠ none ∧ (((e.getValue hash x).2).getValue hash y).1 = none := by
  rcases getValue_cases hash e x with h | ⟨-, t, ht, rfl, h⟩
  · rw [h] at zero
    exact absurd zero nonzero
  · rw [h] at zero ⊢
    cases hcol : e.cache.collides hash t.var with
    | false =>
      rw [VarEnv.put, hcol, if_neg Bool.false_ne_true] at zero
      exact absurd zero nonzero
    | true =>
      obtain ⟨⟨y, entry⟩, hslot, hne⟩ := (Option.any_eq_true _ _).mp hcol
      have hne : y ≠ t.var := of_decide_eq_true hne
      obtain ⟨hhash, hentry⟩ := sync.cached _ _ _ hslot
      obtain ⟨t', ht', rfl, -⟩ := (hentry not_false).tuple (vars y)
      refine ⟨t'.var, ?_, ?_⟩
      · rw [sync.value_of_mem ht' (vars _)]
        simp
      · have hmiss : (e.put hash t.var t.entry).cache.lookup hash t'.var = none := by
          simp [VarEnv.put, DirectMapped.put, DirectMapped.lookup, hhash, hne.symm]
        simp only [VarEnv.getValue, hmiss, if_pos zero]

theorem getValue_eq (sync : Sync hash e s) (vars : ∀ y, e.vars y = true) (x : Addr) :
    (e.getValue hash x).1.map (·.value) = s x := by
  rw [← sync.getVarValue_eq (vars x), VarEnv.getVarValue, if_pos (vars x)]

theorem values_iff (h : Reads hash e e') (sync : Sync hash e s) (vars : ∀ y, e.vars y = true) :
    (∀ x, (e'.getValue hash x).1.map (·.value) = (e.getValue hash x).1.map (·.value)) ↔
      (e'.replaces = 0 → e.replaces = 0) := by
  constructor
  · intro values zero
    by_contra hne
    induction h with
    | refl => exact hne zero
    | @step e₁ x h ih =>
      have vars₁ : ∀ y, e₁.vars y = true := by rwa [h.same.vars]
      by_cases hzero₁ : e₁.replaces = 0
      · rw [getValue_of_zero hzero₁] at values
        exact ih values hzero₁
      · obtain ⟨y, hy, hlost⟩ := lost (h.sync sync fun h => absurd h hzero₁) vars₁ hzero₁ zero
        apply hy
        rw [← getValue_eq sync vars, ← values y, hlost]
        rfl
  · intro room x
    have vars' : ∀ y, e'.vars y = true := by rwa [h.same.vars]
    rw [getValue_eq (h.sync sync room) vars', getValue_eq sync vars]

end Reads

end ScCore.Scp
