import ScCore.Scp.Variables

/-!
# Variables are a store

The cache and the tuples agree with the values last assigned: every entry is that of
the variable's only tuple, and as long as no entry has been replaced there is an
entry for every tuple, so that a miss means that there is no value.
-/

namespace ScCore.Scp

variable {hash : Addr → Nat} {e e' : VarEnv} {s : Values} {x y value : Addr} {entry : CacheEntry}

/-- What an entry says of the tuples. That of an address that is no variable any more
may be out of date, but it names no tuple of another one. -/
structure EntryOf (e : VarEnv) (x : Addr) (entry : CacheEntry) : Prop where
  tuple : e.vars x = true → ∃ t ∈ e.tuples, t.var = x ∧ t.entry = entry
  alone : ∀ t ∈ e.tuples, t.conn = entry.conn → t.var = x
  old : entry.conn < e.fresh

structure SameTuples (e e' : VarEnv) : Prop where
  tuples : e'.tuples = e.tuples
  fresh : e'.fresh = e.fresh
  vars : e'.vars = e.vars

theorem EntryOf.same (h : EntryOf e x entry) (same : SameTuples e e') : EntryOf e' x entry where
  tuple := by rw [same.tuples, same.vars]; exact h.tuple
  alone := by rw [same.tuples]; exact h.alone
  old := by rw [same.fresh]; exact h.old

/-- An environment holds the values; of a stale variable the cache knows nothing yet. -/
structure Synced (hash : Addr → Nat) (stale : Addr → Prop) (e : VarEnv) (s : Values) : Prop where
  stored : ∀ x, e.vars x = true → (e.tuples.filter fun t => t.var = x).map (·.value) = (s x).toList
  conns : (e.tuples.map (·.conn)).Nodup
  arcs : (e.tuples.map (·.valueArc)).Nodup
  old : ∀ t ∈ e.tuples, t.conn < e.fresh ∧ t.valueArc < e.fresh
  cached : e.cache.Sound hash fun x entry => ¬stale x → EntryOf e x entry
  seen : e.replaces = 0 → ∀ t ∈ e.tuples, e.vars t.var = true → ¬stale t.var →
    e.cache.lookup hash t.var ≠ none

/-- An environment holds the values, and the cache agrees. -/
abbrev Sync (hash : Addr → Nat) (e : VarEnv) (s : Values) : Prop :=
  Synced hash (fun _ => False) e s

namespace Synced

variable {stale : Addr → Prop}

variable {t : VarTuple}

theorem value_of_mem (sync : Synced hash stale e s) (ht : t ∈ e.tuples)
    (hvar : e.vars t.var = true) : s t.var = some t.value := by
  have hmem : t.value ∈ (s t.var).toList := by
    rw [← sync.stored t.var hvar]
    exact List.mem_map_of_mem (List.mem_filter.mpr ⟨ht, decide_eq_true rfl⟩)
  simpa using hmem

theorem none_of_forall (sync : Synced hash stale e s) (hvar : e.vars x = true)
    (hnone : ∀ t ∈ e.tuples, t.var ≠ x) : s x = none := by
  have hnil : e.tuples.filter (fun t => t.var = x) = [] := by
    rw [List.filter_eq_nil_iff]
    intro t ht
    simpa using hnone t ht
  have hstored := sync.stored x hvar
  rw [hnil] at hstored
  cases hs : s x with
  | none => rfl
  | some v => simp [hs] at hstored

theorem filter_eq (sync : Synced hash stale e s) (ht : t ∈ e.tuples) (hvar : e.vars t.var = true) :
    e.tuples.filter (fun t' => t'.var = t.var) = [t] := by
  have hstored := sync.stored t.var hvar
  rw [sync.value_of_mem ht hvar, Option.toList_some, List.map_eq_singleton_iff] at hstored
  obtain ⟨t', hfilter, -⟩ := hstored
  have hmem : t ∈ e.tuples.filter (fun t' => t'.var = t.var) :=
    List.mem_filter.mpr ⟨ht, decide_eq_true rfl⟩
  rw [hfilter, List.mem_singleton] at hmem
  rw [hfilter, hmem]

theorem entryOf (sync : Synced hash stale e s) (ht : t ∈ e.tuples) :
    EntryOf e t.var t.entry where
  tuple _ := ⟨t, ht, rfl, rfl⟩
  alone t' ht' hconn := by rw [List.inj_on_of_nodup_map sync.conns ht' ht hconn]
  old := (sync.old t ht).1

theorem put (sync : Synced hash (· = x) e s)
    (room : e.cache.collides hash x = true → e.replaces + 1 ≠ 0) (new : EntryOf e x entry) : Sync
    hash (e.put hash x entry) s where
  stored := sync.stored
  conns := sync.conns
  arcs := sync.arcs
  old := sync.old
  cached := sync.cached.put (fun _ _ hne h _ => (h hne).same ⟨rfl, rfl, rfl⟩)
    fun _ => new.same ⟨rfl, rfl, rfl⟩
  seen := by
    intro hzero t ht hvar _
    simp only [VarEnv.put] at hzero ⊢
    cases hcol : e.cache.collides hash x with
    | true =>
      rw [hcol, if_pos rfl] at hzero
      exact absurd hzero (room hcol)
    | false =>
      rw [hcol, if_neg (by decide)] at hzero
      by_cases heq : t.var = x
      · rw [heq, DirectMapped.lookup_put_self]
        simp
      · rw [DirectMapped.lookup_put_of_ne hcol heq]
        exact sync.seen hzero t ht hvar heq

section

variable (sync : Sync hash e s)
include sync

theorem loosen (stale : Addr → Prop) : Synced hash stale e s where
  stored := sync.stored
  conns := sync.conns
  arcs := sync.arcs
  old := sync.old
  cached := sync.cached.mono fun _ _ h _ => h not_false
  seen hzero t ht hvar _ := sync.seen hzero t ht hvar not_false

theorem getValue (x : Addr) :
    (e.replaces + 1 ≠ 0 → Sync hash (e.getValue hash x).2 s) ∧ SameTuples e (e.getValue hash x).2 ∧
      match (e.getValue hash x).1 with
      | some entry => EntryOf e x entry ∧ (e.getValue hash x).2.cache.lookup hash x = some entry
      | none => (e.vars x = true → ∀ t ∈ e.tuples, t.var ≠ x) ∧ (e.getValue hash x).2 = e := by
  have same : SameTuples e e := ⟨rfl, rfl, rfl⟩
  cases hlookup : e.cache.lookup hash x with
  | some entry =>
    have hget : e.getValue hash x = (some entry, e) := by simp only [VarEnv.getValue, hlookup]
    rw [hget]
    exact ⟨fun _ => sync, same, sync.cached.lookup hlookup not_false, hlookup⟩
  | none =>
    by_cases hzero : e.replaces = 0
    · have hget : e.getValue hash x = (none, e) := by
        simp only [VarEnv.getValue, hlookup, if_pos hzero]
      rw [hget]
      refine ⟨fun _ => sync, same, fun hvar t ht heq => ?_, rfl⟩
      exact sync.seen hzero t ht (heq ▸ hvar) not_false (heq ▸ hlookup)
    · cases hsearch : e.search x with
      | none =>
        have hget : e.getValue hash x = (none, e) := by
          simp only [VarEnv.getValue, hlookup, if_neg hzero, hsearch]
        rw [hget]
        refine ⟨fun _ => sync, same, fun _ t ht heq => ?_, rfl⟩
        rw [VarEnv.search, Option.map_eq_none_iff, List.find?_eq_none] at hsearch
        exact hsearch t ht (decide_eq_true heq)
      | some entry =>
        have hget : e.getValue hash x = (some entry, e.put hash x entry) := by
          simp only [VarEnv.getValue, hlookup, if_neg hzero, hsearch]
        rw [hget]
        obtain ⟨t, hfind, rfl⟩ := Option.map_eq_some_iff.mp hsearch
        obtain rfl : t.var = x := by simpa using List.find?_some hfind
        have new := sync.entryOf (List.mem_of_find?_eq_some hfind)
        exact ⟨fun room => (sync.loosen _).put (fun _ => room) new, ⟨rfl, rfl, rfl⟩, new,
          DirectMapped.lookup_put_self⟩

theorem getVarValue_eq (hvar : e.vars x = true) : (e.getVarValue hash x).1.map (·.value) = s x := by
  obtain ⟨-, -, found⟩ := sync.getValue x
  rw [VarEnv.getVarValue, if_pos hvar]
  cases hget : (e.getValue hash x).1 with
  | some entry =>
    rw [hget] at found
    obtain ⟨t, ht, rfl, rfl⟩ := found.1.tuple hvar
    rw [sync.value_of_mem ht hvar]
    rfl
  | none =>
    rw [hget] at found
    rw [sync.none_of_forall hvar (found.1 hvar)]
    rfl

theorem assign_of_none (h : e.vars x = true → s x = none) :
    Sync hash e (s.assign x none) where
  stored := by
    intro y hy
    rw [sync.stored y hy]
    by_cases heq : y = x
    · subst heq
      simp [Values.assign, h hy]
    · simp [Values.assign, heq]
  conns := sync.conns
  arcs := sync.arcs
  old := sync.old
  cached := sync.cached
  seen := sync.seen

theorem addVariable (room : e.replaces + 1 ≠ 0) (free : e.vars x = true → ∀ t ∈ e.tuples, t.var ≠ x)
    (value : Addr) : Sync hash (e.addVariable hash x value) (s.assign x (some value)) := by
  have conns : ∀ t ∈ e.tuples, t.conn ≠ e.fresh := fun t ht => Nat.ne_of_lt (sync.old t ht).1
  have grown : Synced hash (· = x)
      { e with tuples := e.tuples ++ [⟨e.fresh, x, e.fresh + 1, value⟩], fresh := e.fresh + 2 }
      (s.assign x (some value)) := by
    constructor
    · intro y hy
      rw [List.filter_append, List.map_append]
      by_cases heq : y = x
      · subst heq
        have hnil : e.tuples.filter (fun t => t.var = y) = [] := by
          rw [List.filter_eq_nil_iff]
          exact fun t ht => by simpa using free hy t ht
        simp [Values.assign, hnil]
      · simp [Values.assign, heq, Ne.symm heq, sync.stored y hy]
    · rw [List.map_append, List.nodup_append]
      refine ⟨sync.conns, by simp, ?_⟩
      simp only [List.mem_map, List.mem_singleton, List.map_cons, List.map_nil]
      rintro _ ⟨t, ht, rfl⟩ _ rfl
      exact conns t ht
    · rw [List.map_append, List.nodup_append]
      refine ⟨sync.arcs, by simp, ?_⟩
      simp only [List.mem_map, List.mem_singleton, List.map_cons, List.map_nil]
      rintro _ ⟨t, ht, rfl⟩ _ rfl
      exact Nat.ne_of_lt (Nat.lt_succ_of_lt (sync.old t ht).2)
    · intro t ht
      rcases List.mem_append.mp ht with ht | ht
      · obtain ⟨hconn, harc⟩ := sync.old t ht
        exact ⟨Nat.lt_add_right 2 hconn, Nat.lt_add_right 2 harc⟩
      · rw [List.mem_singleton.mp ht]
        exact ⟨Nat.lt_add_of_pos_right (by decide), Nat.lt_succ_self _⟩
    · refine sync.cached.mono fun y entry h _ => ?_
      have h := h not_false
      refine ⟨fun hy => ?_, fun t ht hconn => ?_, Nat.lt_add_right 2 h.old⟩
      · obtain ⟨t, ht, hvar, hentry⟩ := h.tuple hy
        exact ⟨t, List.mem_append_left _ ht, hvar, hentry⟩
      · rcases List.mem_append.mp ht with ht | ht
        · exact h.alone t ht hconn
        · rw [List.mem_singleton.mp ht] at hconn
          exact absurd hconn.symm (Nat.ne_of_lt h.old)
    · intro hzero t ht hvar hne
      rcases List.mem_append.mp ht with ht | ht
      · exact sync.seen hzero t ht hvar not_false
      · rw [List.mem_singleton.mp ht] at hne
        exact absurd rfl hne
  apply grown.put fun _ => room
  exact grown.entryOf (t := ⟨e.fresh, x, e.fresh + 1, value⟩) (by simp)

theorem setEnd (room : e.cache.collides hash t.var = true → e.replaces + 1 ≠ 0) (ht : t ∈ e.tuples)
    (hvar : e.vars t.var = true) (value : Addr) :
    Sync hash ((e.setEnd t.valueArc value).put hash t.var ⟨value, t.conn, t.valueArc⟩)
      (s.assign t.var (some value)) := by
  let f : VarTuple → VarTuple := fun t' =>
    if t'.valueArc = t.valueArc then { t' with value := value } else t'
  have hself : f t = { t with value := value } := if_pos rfl
  have hother : ∀ t' ∈ e.tuples, t'.var ≠ t.var → f t' = t' := by
    intro t' ht' hne
    apply if_neg
    intro heq
    exact hne (by rw [List.inj_on_of_nodup_map sync.arcs ht' ht heq])
  have hfvar : ∀ t', (f t').var = t'.var := by
    intro t'
    simp only [f]
    split <;> rfl
  have hfconn : ∀ t', (f t').conn = t'.conn := by
    intro t'
    simp only [f]
    split <;> rfl
  have hfarc : ∀ t', (f t').valueArc = t'.valueArc := by
    intro t'
    simp only [f]
    split <;> rfl
  have hfilter : ∀ y, (e.tuples.map f).filter (fun t' => t'.var = y) =
      (e.tuples.filter fun t' => t'.var = y).map f := by
    intro y
    rw [List.filter_map]
    congr 1
    apply List.filter_congr
    intro t' _
    simp [hfvar]
  have changed : Synced hash (· = t.var) (e.setEnd t.valueArc value)
      (s.assign t.var (some value)) := by
    constructor
    · intro y hy
      change ((e.tuples.map f).filter fun t' => t'.var = y).map (·.value) = _
      rw [hfilter]
      by_cases heq : y = t.var
      · subst heq
        simp [sync.filter_eq ht hvar, hself, Values.assign]
      · have hsame : (e.tuples.filter fun t' => t'.var = y).map f =
            (e.tuples.filter fun t' => t'.var = y).map id := by
          apply List.map_congr_left
          intro t' ht'
          obtain ⟨ht', hy'⟩ := List.mem_filter.mp ht'
          exact hother t' ht' fun h => heq ((of_decide_eq_true hy').symm.trans h)
        rw [hsame, List.map_id, sync.stored y hy]
        simp [Values.assign, heq]
    · have hmap : (e.tuples.map f).map (·.conn) = e.tuples.map (·.conn) := by
        simp only [List.map_map, Function.comp_def, hfconn]
      exact hmap ▸ sync.conns
    · have hmap : (e.tuples.map f).map (·.valueArc) = e.tuples.map (·.valueArc) := by
        simp only [List.map_map, Function.comp_def, hfarc]
      exact hmap ▸ sync.arcs
    · intro t' ht'
      obtain ⟨t₀, ht₀, rfl⟩ := List.mem_map.mp ht'
      have hold := sync.old t₀ ht₀
      rwa [← hfconn t₀, ← hfarc t₀] at hold
    · refine sync.cached.mono fun y entry h hne => ?_
      have h := h not_false
      refine ⟨fun hy => ?_, fun t' ht' hconn => ?_, h.old⟩
      · obtain ⟨t', ht', rfl, hentry⟩ := h.tuple hy
        have hsame := hother t' ht' hne
        exact ⟨t', hsame ▸ List.mem_map_of_mem ht', rfl, hentry⟩
      · obtain ⟨t₀, ht₀, rfl⟩ := List.mem_map.mp ht'
        rw [hfvar]
        exact h.alone t₀ ht₀ ((hfconn t₀).symm.trans hconn)
    · intro hzero t' ht' hvar' hne
      obtain ⟨t₀, ht₀, rfl⟩ := List.mem_map.mp ht'
      rw [hfvar] at hvar' ⊢
      exact sync.seen hzero t₀ ht₀ hvar' not_false
  have hmem : f t ∈ (e.setEnd t.valueArc value).tuples := List.mem_map_of_mem ht
  have new := changed.entryOf hmem
  rw [hself] at new
  exact changed.put room new

theorem clear (named : EntryOf e x entry) :
    Sync hash { e with
      cache := e.cache.clear hash x
      tuples := e.tuples.filter fun t => t.conn ≠ entry.conn } (s.assign x none) := by
  have keeps : ∀ t ∈ e.tuples, t.var ≠ x → t ∈ e.tuples.filter fun t => t.conn ≠ entry.conn := by
    intro t ht hne
    apply List.mem_filter.mpr
    exact ⟨ht, decide_eq_true fun hconn => hne (named.alone t ht hconn)⟩
  constructor
  · intro y hy
    rw [List.filter_comm]
    by_cases heq : y = x
    · subst heq
      obtain ⟨t, ht, rfl, rfl⟩ := named.tuple hy
      rw [sync.filter_eq ht hy]
      simp [Values.assign, VarTuple.entry]
    · rw [List.filter_eq_self.mpr]
      · simp [Values.assign, heq, sync.stored y hy]
      · intro t ht
        obtain ⟨ht, hvar⟩ := List.mem_filter.mp ht
        have hvar : t.var = y := of_decide_eq_true hvar
        exact (List.mem_filter.mp (keeps t ht (hvar ▸ heq))).2
  · exact sync.conns.sublist (List.filter_sublist.map _)
  · exact sync.arcs.sublist (List.filter_sublist.map _)
  · exact fun t ht => sync.old t (List.mem_of_mem_filter ht)
  · refine sync.cached.clear fun y entry' hne h _ => ?_
    have h := h not_false
    refine ⟨fun hy => ?_, fun t ht => h.alone t (List.mem_of_mem_filter ht), h.old⟩
    obtain ⟨t, ht, rfl, hentry⟩ := h.tuple hy
    exact ⟨t, keeps t ht hne, rfl, hentry⟩
  · intro hzero t ht hvar _
    have hmem := List.mem_of_mem_filter ht
    have hne : t.var ≠ x := by
      rintro rfl
      obtain ⟨t', ht', hvar', rfl⟩ := named.tuple hvar
      have hone := sync.filter_eq hmem hvar
      have hin : t' ∈ e.tuples.filter fun t' => t'.var = t.var :=
        List.mem_filter.mpr ⟨ht', decide_eq_true hvar'⟩
      rw [hone, List.mem_singleton] at hin
      subst hin
      simpa [VarTuple.entry] using (List.mem_filter.mp ht).2
    change (e.cache.clear hash x).lookup hash t.var ≠ none
    rw [DirectMapped.lookup_clear_of_ne hne]
    exact sync.seen hzero t hmem hvar not_false

theorem forget (value : Addr) (gone : Addr → Bool) :
    Sync hash { e with
      cache := e.cache.drop fun entry => entry.value = value
      tuples := e.tuples.filter fun t => t.value ≠ value ∧ !gone t.var
      vars := fun b => !gone b && e.vars b } (s.forget value) := by
  constructor
  · intro y hy
    simp only [Bool.and_eq_true, Bool.not_eq_true'] at hy
    have hsplit : (e.tuples.filter fun t => t.value ≠ value ∧ !gone t.var).filter
        (fun t => t.var = y) = (e.tuples.filter fun t => t.var = y).filter
          fun t => t.value ≠ value := by
      rw [List.filter_filter, List.filter_filter]
      apply List.filter_congr
      intro t _
      by_cases heq : t.var = y
      · simp [heq, hy.1]
      · simp [heq]
    have hvalues : ∀ l : List VarTuple, (l.filter fun t => t.value ≠ value).map (·.value) =
        (l.map (·.value)).filter fun v => v ≠ value := fun l => by
      rw [List.filter_map]
      rfl
    rw [hsplit, hvalues, sync.stored y hy.2, Values.forget]
    cases s y with
    | none => rfl
    | some v => by_cases hv : v = value <;> simp [Option.filter_some, hv]
  · exact sync.conns.sublist (List.filter_sublist.map _)
  · exact sync.arcs.sublist (List.filter_sublist.map _)
  · exact fun t ht => sync.old t (List.mem_of_mem_filter ht)
  · refine sync.cached.drop (fun entry => entry.value = value) fun y entry hkeep h _ => ?_
    have h := h not_false
    refine ⟨fun hy => ?_, fun t ht => h.alone t (List.mem_of_mem_filter ht), h.old⟩
    simp only [Bool.and_eq_true, Bool.not_eq_true'] at hy
    obtain ⟨t, ht, rfl, rfl⟩ := h.tuple hy.2
    have hkeep : t.value ≠ value := of_decide_eq_false hkeep
    exact ⟨t, List.mem_filter.mpr ⟨ht, by simp [hkeep, hy.1]⟩, rfl, rfl⟩
  · intro hzero t ht hvar _
    simp only [Bool.and_eq_true] at hvar
    obtain ⟨ht, hkept⟩ := List.mem_filter.mp ht
    have hseen := sync.seen hzero t ht hvar.2 not_false
    obtain ⟨entry, hentry⟩ := Option.ne_none_iff_exists'.mp hseen
    obtain ⟨t', ht', hvar', rfl⟩ := (sync.cached.lookup hentry not_false).tuple hvar.2
    have hone := sync.filter_eq ht hvar.2
    have hin : t' ∈ e.tuples.filter fun t' => t'.var = t.var :=
      List.mem_filter.mpr ⟨ht', decide_eq_true hvar'⟩
    rw [hone, List.mem_singleton] at hin
    subst hin
    have hvalue : t'.value ≠ value := (of_decide_eq_true hkept).1
    change (e.cache.drop fun entry => entry.value = value).lookup hash t'.var ≠ none
    rw [DirectMapped.lookup_drop, hentry]
    simp [Option.filter_some, VarTuple.entry, hvalue]

end

end Synced

/-! ## Runs -/

/-- When an operation keeps the values: one that adds a tuple finds none, a value that
is cleared is in no entry of the cache, and the counter does not come back to zero. -/
def VarOp.Kept (e : VarEnv) (op : VarOp) : Prop :=
  e.replaces + 1 ≠ 0 ∧
    match op with
    | .add var _ | .returnValue var (some _) => ∀ t ∈ e.tuples, t.var ≠ var
    | .clearThisValue value => ∀ i entry, e.cache.slots i = some entry → entry.2.value ≠ value
    | _ => True

namespace Synced

theorem setVariable (sync : Sync hash e s) (room : e.replaces + 1 ≠ 0) (x value : Addr) :
    Sync hash (e.setVariable hash x value) (s.assign x (some value)) := by
  rw [VarEnv.setVariable, VarEnv.getVarValue]
  by_cases hvar : e.vars x = true
  · obtain ⟨sync', same, found⟩ := sync.getValue x
    rw [if_pos hvar]
    cases hget : e.getValue hash x with
    | mk r e₁ =>
      rw [hget] at sync' same found
      have sync' := sync' room
      cases r with
      | none =>
        obtain ⟨free, hsame⟩ := found
        have hsame : e₁ = e := hsame
        subst hsame
        exact sync.addVariable room free value
      | some entry =>
        obtain ⟨entryOf, hlookup⟩ := found
        obtain ⟨t, ht, rfl, rfl⟩ := entryOf.tuple hvar
        have hcol := DirectMapped.collides_of_lookup hlookup
        apply sync'.setEnd (fun h => absurd (hcol.symm.trans h) (by decide))
        · rw [same.tuples]
          exact ht
        · rw [same.vars]
          exact hvar
  · rw [if_neg hvar]
    exact sync.addVariable room (fun h => absurd h hvar) value

theorem clearThis (sync : Sync hash e s)
    (unseen : ∀ i entry, e.cache.slots i = some entry → entry.2.value ≠ value) :
    Sync hash (e.clearThisValueVariables value) (s.forget value) := by
  have hdrop : (e.cache.drop fun entry => entry.value = value) = e.cache := by
    apply DirectMapped.drop_of_forall
    exact fun i entry h => decide_eq_false (unseen i entry h)
  have forgotten := sync.forget value fun _ => false
  rw [hdrop] at forgotten
  simpa [VarEnv.clearThisValueVariables] using forgotten

theorem erase (sync : Sync hash e s) (a : Addr) : Sync hash (e.erase a) (s.forget a) := by
  simpa [VarEnv.erase] using sync.forget a fun b => decide (b = a)

theorem clearVariable (sync : Sync hash e s) (room : e.replaces + 1 ≠ 0) (x : Addr) :
    Sync hash (e.clearVariable hash x) (s.assign x none) := by
  obtain ⟨sync', same, found⟩ := sync.getValue x
  rw [VarEnv.clearVariable]
  cases hget : e.getValue hash x with
  | mk r e₁ =>
    rw [hget] at sync' same found
    have sync' := sync' room
    cases r with
    | none =>
      exact sync'.assign_of_none fun hvar => by
        rw [found.2] at hvar
        exact sync.none_of_forall hvar (found.1 hvar)
    | some entry => exact sync'.clear (found.1.same same)

theorem exec (sync : Sync hash e s) {op : VarOp} (kept : op.Kept e)
    (hexec : op.exec hash e = some e') : Sync hash e' (op.apply s) := by
  obtain ⟨room, kept⟩ := kept
  cases op with
  | get x =>
    cases hexec
    obtain ⟨sync', -⟩ := sync.getValue x
    rw [VarEnv.getVarValue]
    split
    · exact sync' room
    · exact sync
  | set x value =>
    cases hexec
    exact sync.setVariable room x value
  | add x value =>
    cases hexec
    exact sync.addVariable room (fun _ => kept) value
  | clear x =>
    cases hexec
    exact sync.clearVariable room x
  | clearThisValue value =>
    cases hexec
    exact sync.clearThis kept
  | erase a =>
    cases hexec
    exact sync.erase a
  | returnValue x value =>
    cases value with
    | none =>
      cases hexec
      exact sync.clearVariable room x
    | some value =>
      have added := sync.addVariable room (fun _ => kept) value
      have hlookup : (e.addVariable hash x value).cache.lookup hash x = some _ :=
        DirectMapped.lookup_put_self
      simp only [VarOp.exec, VarEnv.returnValue, VarEnv.getValue, hlookup] at hexec
      cases hexec
      exact added
  | returnToFather x value =>
    cases value with
    | none =>
      cases hexec
      exact sync.clearVariable room x
    | some value =>
      have set := sync.setVariable room x value
      have hlookup : ∃ entry, (e.setVariable hash x value).cache.lookup hash x = some entry := by
        rw [VarEnv.setVariable]
        split <;> exact ⟨_, DirectMapped.lookup_put_self⟩
      obtain ⟨entry, hlookup⟩ := hlookup
      simp only [VarOp.exec, VarEnv.returnToFather, VarEnv.getVarValue, VarEnv.getValue,
        hlookup] at hexec
      split at hexec
      · cases hexec
      · next h =>
        split at h
        · cases h
          cases hexec
          exact set
        · cases h

theorem new (hash : Addr → Nat) (vars : Addr → Bool) :
    Sync hash (VarEnv.new vars) fun _ => none where
  stored _ _ := rfl
  conns := List.nodup_nil
  arcs := List.nodup_nil
  old := by simp [VarEnv.new]
  cached := DirectMapped.Sound.empty
  seen := by simp [VarEnv.new]

end Synced

inductive VarRun (hash : Addr → Nat) (vars : Addr → Bool) (ok : VarEnv → VarOp → Prop) :
    VarEnv → Values → Prop where
  | new : VarRun hash vars ok (VarEnv.new vars) fun _ => none
  | step {e e' : VarEnv} {s : Values} (op : VarOp) : VarRun hash vars ok e s → ok e op → op.exec
    hash e = some e' →
      VarRun hash vars ok e' (op.apply s)

theorem VarRun.sync {vars : Addr → Bool}
    (run : VarRun hash vars (fun e op => op.Kept e) e s) : Sync hash e s := by
  induction run with
  | new => exact Synced.new hash vars
  | step op _ kept hexec ih => exact ih.exec kept hexec

/-- After every run whose operations keep the values, `get_var_value` of a variable
answers with the value last assigned. -/
theorem variables_store (hash : Addr → Nat) (vars : Addr → Bool) (e : VarEnv) (s : Values)
    (run : VarRun hash vars (fun e op => op.Kept e) e s) (x : Addr) (hvar : e.vars x = true) :
    (e.getVarValue hash x).1.map (·.value) = s x :=
  run.sync.getVarValue_eq hvar

/-- `hash_fn` of addresses that lie one after the other. -/
def slotOf (a : Addr) : Nat := a % 4096

/-- Two variables with one slot: the first one's value is found again in memory. -/
theorem variables_store_colliding : ∃ e, e.vars 1 = true ∧
    VarRun slotOf (fun _ => true) (fun e op => op.Kept e) e
      ((VarOp.set 4097 6).apply ((VarOp.set 1 5).apply fun _ => none)) ∧
    (e.getVarValue slotOf 1).1.map (·.value) = some 5 := by
  have first : VarRun slotOf (fun _ => true) (fun e op => op.Kept e) _ _ :=
    VarRun.step (.set 1 5) VarRun.new ⟨by decide, trivial⟩ rfl
  have second := VarRun.step (.set 4097 6) first ⟨by decide, trivial⟩ rfl
  exact ⟨_, rfl, second, variables_store slotOf _ _ _ second 1 rfl⟩

/-- A value is cleared and the cache still has it. -/
theorem variables_store_fails : ¬∀ (hash : Addr → Nat) (vars : Addr → Bool) (e : VarEnv)
    (s : Values), VarRun hash vars (fun _ _ => True) e s → ∀ x, e.vars x = true →
    (e.getVarValue hash x).1.map (·.value) = s x := by
  intro claim
  have set : VarRun slotOf (fun _ => true) (fun _ _ => True) _ _ :=
    VarRun.step (.set 1 5) VarRun.new trivial rfl
  have cleared := VarRun.step (.clearThisValue 5) set trivial rfl
  exact absurd (claim _ _ _ _ cleared 1 rfl) (by decide)

end ScCore.Scp
