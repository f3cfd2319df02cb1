import ScCore.Scp.FailedCall

/-!
# The caller after a call that fails

Its context, every arc that was there and every value of a variable are as before exactly
when no parameter has been set for a program without an operator and the counter of the
cache has not come round.
-/

namespace ScCore.Scp

variable {hash : Addr → Nat} {texts : ProgramTexts} {opened : Addr → Bool}
  {process v₀ : Addr} {m₀ m m' : ArcMemory} {e e' : VarEnv} {t : Transacted} {s : Values}

def ArcMemory.valueOf (hash : Addr → Nat) (m : ArcMemory) (varValue x : Addr) : Option Addr :=
  (m.env varValue).bind fun e => (e.getValue hash x).1.map (·.value)

/-- What a failed call is to leave as it was: the program, the active operator, the
environment, the binding and the stack of the process, with all arcs, so that the contexts on
the stack, the environments and the bindings have the tuples that they had, and the values of
all variables. -/
structure CallerKept (hash : Addr → Nat) (process : Addr) (m m' : ArcMemory) : Prop where
  context : ContextArcs.fetchContext m' process = ContextArcs.fetchContext m process
  arcs : m'.links.filter (fun l => l.beg < m.fresh) = m.links
  values : ∀ v < m.fresh, ∀ x, m'.valueOf hash v x = m.valueOf hash v x

section Arcs

variable (arcs : m'.links.filter (fun l => l.beg < m.fresh) = m.links)

include arcs

theorem filter_old {beg : Addr} (hbeg : beg < m.fresh) (p : Link → Bool)
    (hp : ∀ l, p l = true → l.beg = beg) : m'.links.filter p = m.links.filter p := by
  rw [← arcs, List.filter_filter]
  apply List.filter_congr
  intro l _
  cases h : p l with
  | false => rfl
  | true => simp [hp l h, hbeg]

theorem tupAt_old {tuple : Addr} (htuple : tuple < m.fresh) (attr : Attribute) :
    m'.tupAt tuple attr = m.tupAt tuple attr := by
  rw [ArcMemory.tupAt, ArcMemory.tupAt, ← List.head?_filter, ← List.head?_filter]
  congr 1
  apply filter_old arcs htuple
  exact fun l hl => (of_decide_eq_true hl).1

theorem tuples_old (old : ∀ l ∈ m.links, l.fin < m.fresh) {v : Addr} (hv : v < m.fresh) :
    m'.tuples v = m.tuples v := by
  have same : SameEnv v m m' := by
    constructor
    · rw [ArcMemory.members, ArcMemory.members, filter_old arcs hv]
      exact fun l hl => of_decide_eq_true hl
    · intro tuple htuple attr _
      apply filter_old arcs htuple
      exact fun l hl => (of_decide_eq_true hl).1
  apply same.tuples
  intro conn hconn
  obtain ⟨l, hl, rfl⟩ := List.mem_map.mp hconn
  exact old l (List.mem_filter.mp hl).1

end Arcs

theorem CallerKept.intro (there : process < m.fresh)
    (arcs : m'.links.filter (fun l => l.beg < m.fresh) = m.links)
    (values : ∀ v < m.fresh, ∀ x, m'.valueOf hash v x = m.valueOf hash v x) :
    CallerKept hash process m m' where
  context := fetchContext_congr fun attr _ => tupAt_old arcs there attr
  arcs := arcs
  values := values

theorem valueOf_congr {v x : Addr} (cache : m'.caches v = m.caches v)
    (tuples : m'.tuples v = m.tuples v) : m'.valueOf hash v x = m.valueOf hash v x := by
  rw [ArcMemory.valueOf, ArcMemory.valueOf, ArcMemory.env, ArcMemory.env, cache, tuples]
  cases m.caches v with
  | none => rfl
  | some c =>
    rw [Option.map_some, Option.map_some, Option.bind_some, Option.bind_some]
    rw [getValue_fresh ⟨c.data, c.replaces, m.tuples v, m.fresh, fun _ => true⟩ m'.fresh x]

theorem Reads.oldValues {n₀ : Addr} (h : Reads hash e e') (tuples : ∀ t ∈ e.tuples, t.value < n₀)
    (old : OldValues n₀ ⟨e.cache, e.replaces⟩) : OldValues n₀ ⟨e'.cache, e'.replaces⟩ := by
  induction h with
  | refl => exact old
  | @step e₁ x h ih =>
    rcases getValue_cases hash e₁ x with heq | ⟨-, t, ht, -, heq⟩
    · rwa [heq]
    · rw [heq]
      intro i y entry hslot
      change Function.update e₁.cache.slots (hash x) (some (x, t.entry)) i = _ at hslot
      by_cases hi : i = hash x
      · rw [hi, Function.update_self] at hslot
        cases hslot
        exact tuples t (h.same.tuples ▸ ht)
      · rw [Function.update_of_ne hi] at hslot
        exact ih i y entry hslot

theorem tuples_values {v : Addr} (old : ∀ l ∈ m.links, l.fin < m.fresh) :
    ∀ t ∈ m.tuples v, t.value < m.fresh := by
  intro t ht
  rw [ArcMemory.tuples_eq] at ht
  obtain ⟨conn, -, ht⟩ := List.mem_flatMap.mp ht
  obtain ⟨var, -, ht⟩ := List.mem_flatMap.mp ht
  obtain ⟨value, hvalue, ht⟩ := List.mem_flatMap.mp ht
  rw [List.mem_singleton.mp ht]
  exact old value (List.mem_filter.mp hvalue).1

namespace Taking

variable (standing : ProcessStanding hash texts process m₀)

include standing

theorem rollback_arcs (taking : Taking v₀ m₀ e t) :
    t.rollback.links.filter (fun l => l.beg < m₀.fresh) = m₀.links ∧
      (∀ c, t.memory.caches v₀ = some c → OldValues m₀.fresh c → t.rollback.caches v₀ = some c) ∧
      ∀ v < m₀.fresh, v ≠ v₀ → t.rollback.caches v = m₀.caches v := by
  obtain ⟨new, hnew, hdies⟩ := taking.restored
  have old : OldEnds m₀.fresh (m₀.links ++ new) := by
    intro l hl hlt
    rcases List.mem_append.mp hl with hl | hl
    · exact (standing.old l hl).2
    · exact absurd hlt (Nat.not_lt_of_le (hdies l hl).1)
  have erased : ErasedNew m₀.fresh t.genedElems.reverse
      { t.memory with links := restoreEnds t.origEnd t.memory.links } t.rollback := by
    rw [rollback_eq]
    apply ErasedNew.eraseAll
    · exact fun a ha => (taking.gened a (List.mem_reverse.mp ha)).1
    · change OldEnds _ (restoreEnds _ _)
      rwa [hnew]
  refine ⟨?_, erased.caches v₀, ?_⟩
  swap
  · intro v hv hne
    have held := taking.caches v hv hne
    cases hc : m₀.caches v with
    | none => exact erased.uncached v (held.trans hc)
    | some c => exact erased.caches v c (held.trans hc) (standing.cached v c hc)
  have sides : ∀ l ∈ t.rollback.links, (l.beg < m₀.fresh ↔ l.arc < m₀.fresh) := by
    intro l hl
    obtain ⟨hmem, -, hfin⟩ := erased.links l hl
    change l ∈ restoreEnds _ _ at hmem
    rw [hnew] at hmem
    constructor
    · intro hbeg
      rcases List.mem_append.mp hmem with hl | hl
      · exact (standing.old l hl).1
      · exact absurd (List.mem_reverse.mpr ((hdies l hl).2 hbeg)) hfin
    · exact fun harc => (old l hmem harc).1
  calc t.rollback.links.filter (fun l => l.beg < m₀.fresh)
      = t.rollback.links.filter (fun l => l.arc < m₀.fresh) := by
        apply List.filter_congr
        intro l hl
        exact decide_eq_decide.mpr (sides l hl)
    _ = (m₀.links ++ new).filter (fun l => l.arc < m₀.fresh) := by
        rw [erased.old]
        change (restoreEnds _ _).filter _ = _
        rw [hnew]
    _ = m₀.links := by
        have gone : new.filter (fun l => l.arc < m₀.fresh) = [] := by
          rw [List.filter_eq_nil_iff]
          intro l hl h
          exact Nat.not_lt_of_le (hdies l hl).1 (of_decide_eq_true h)
        rw [List.filter_append, gone, List.append_nil, List.filter_eq_self]
        exact fun l hl => decide_eq_true (standing.old l hl).1

/-- A rollback leaves the caller with the values that the reads have left. -/
theorem kept_iff (taking : Taking v₀ m₀ e' t) (hv₀ : v₀ < m₀.fresh) (henv : m₀.env v₀ = some e)
    (sync : Sync hash e s) (reads : Reads hash e e') :
    CallerKept hash process m₀ t.rollback ↔ (e'.replaces = 0 → e.replaces = 0) := by
  obtain ⟨arcs, cached, caches⟩ := taking.rollback_arcs standing
  have fins : ∀ l ∈ m₀.links, l.fin < m₀.fresh := fun l hl => (standing.old l hl).2.2
  obtain ⟨c, hc, rfl⟩ := Option.map_eq_some_iff.mp henv
  have vars : ∀ y, (⟨c.data, c.replaces, m₀.tuples v₀, m₀.fresh, fun _ => true⟩ : VarEnv).vars y =
      true := fun _ => rfl
  -- The environment of the caller after the rollback.
  have after : t.rollback.env v₀ = some { e' with fresh := t.rollback.fresh } := by
    have held := cached _ taking.cache
      (reads.oldValues (tuples_values fins) (standing.cached v₀ c hc))
    have same := reads.same
    rw [ArcMemory.env, held, Option.map_some, tuples_old arcs fins hv₀]
    rw [same.tuples, same.vars]
  have value : ∀ x, t.rollback.valueOf hash v₀ x = (e'.getValue hash x).1.map (·.value) := by
    intro x
    rw [ArcMemory.valueOf, after, Option.bind_some, getValue_fresh]
  have before : ∀ x, m₀.valueOf hash v₀ x = (VarEnv.getValue hash
      ⟨c.data, c.replaces, m₀.tuples v₀, m₀.fresh, fun _ => true⟩ x).1.map (·.value) := by
    intro x
    rw [ArcMemory.valueOf, henv, Option.bind_some]
  rw [← reads.values_iff sync vars]
  constructor
  · intro kept x
    rw [← value, ← before]
    exact kept.values v₀ hv₀ x
  · intro same
    apply CallerKept.intro standing.there arcs
    intro v hv x
    by_cases heq : v = v₀
    · rw [heq, value, before]
      exact same x
    · apply valueOf_congr (caches v hv heq) (tuples_old arcs fins hv)

end Taking

/-- A call in which nothing is left behind where it fails: the program has an operator, or no
value of an input parameter is taken before; and the reads of the values that are passed do
not bring the counter of the cache round to zero. -/
def LeavesNothing (hash : Addr → Nat) (texts : ProgramTexts) (opened : Addr → Bool)
    (process prg : Addr) (prms : List (Option Addr)) (m : ArcMemory) : Prop :=
  ∀ c e passed, texts.isProgram prg = true →
    (m.tupAt prg .constSegments ≠ none ∨ texts.consts prg ≠ none) →
    ContextArcs.fetchContext m process = some c → m.env c.varValue = some e →
    matchPrms texts prg prms = some (.ok passed) →
    (texts.initOp prg ≠ none ∨
      takesInput hash texts opened ⟨c.prg, c.varValue, prg⟩ e passed = false) ∧
    ((readPrms hash texts opened ⟨c.prg, c.varValue, prg⟩ e passed).replaces = 0 → e.replaces = 0)

theorem ProcessStanding.start (standing : ProcessStanding hash texts process m)
    (henv : m.env v₀ = some e) : Taking v₀ m e (.start m) where
  restored := ⟨[], (List.append_nil _).symm, by simp⟩
  grown := Nat.le_refl _
  nodup := standing.arcs
  arcs l hl := (standing.old l hl).1
  log := by simp [Transacted.start]
  gened := by simp [Transacted.start]
  present l hl := ⟨l, hl, rfl, rfl, rfl⟩
  env := ⟨rfl, fun _ _ _ _ => rfl⟩
  cache := by
    obtain ⟨c, hc, rfl⟩ := Option.map_eq_some_iff.mp henv
    exact hc
  caches _ _ _ := rfl

theorem CallerKept.setError (standing : ProcessStanding hash texts process m) (error : ScpError) :
    CallerKept hash process m (m.setError error) := by
  apply CallerKept.intro standing.there
  · exact List.filter_eq_self.mpr fun l hl => decide_eq_true (standing.old l hl).2.1
  · exact fun v _ x => valueOf_congr rfl rfl

theorem prepare_none {prg : Addr} (h : (prepareProgramConstSegs texts prg t).1 = none) :
    t.memory.tupAt prg .constSegments = none ∧ texts.consts prg = none ∧
      (prepareProgramConstSegs texts prg t).2 = t.setError (.noConstants prg) := by
  rw [prepareProgramConstSegs] at h ⊢
  split at h
  · cases h
  · next hnone =>
    split at h
    · next hconsts => exact ⟨hnone, hconsts, rfl⟩
    · cases h

theorem prepare_some {prg a : Addr} (h : (prepareProgramConstSegs texts prg t).1 = some a) :
    t.memory.tupAt prg .constSegments ≠ none ∨ texts.consts prg ≠ none := by
  rw [prepareProgramConstSegs] at h
  split at h
  · next hsome => exact .inl (by simp [hsome])
  · split at h
    · cases h
    · next hconsts => exact .inr (by simp [hconsts])

theorem ProcessStanding.callerEnv (standing : ProcessStanding hash texts process m)
    (henv : m.env v₀ = some e) : CallerEnv v₀ m e := by
  obtain ⟨c, hc, rfl⟩ := Option.map_eq_some_iff.mp henv
  refine ⟨rfl, rfl, ?_⟩
  intro conn hconn
  obtain ⟨l, hl, rfl⟩ := List.mem_map.mp hconn
  exact (standing.old l (List.mem_filter.mp hl).1).2.2

theorem SetInCaller.not_kept (standing : ProcessStanding hash texts process m) {l : Link}
    (set : SetInCaller v₀ m l t) (hv₀ : v₀ < m.fresh) (error : ScpError) :
    ¬CallerKept hash process m (t.setError error).rollback := by
  intro kept
  have set' : SetInCaller v₀ m l (t.setError error) := { set with }
  have hmem : l ∈ m.links := by
    rw [← kept.arcs]
    exact List.mem_filter.mpr ⟨set'.rollback, decide_eq_true (set.beg ▸ hv₀)⟩
  exact Nat.not_lt_of_le set.new (standing.old l hmem).1

/-- A failed call leaves the caller as it was exactly when it leaves nothing behind. -/
theorem failed_call_iff (hash : Addr → Nat) (texts : ProgramTexts) (opened : Addr → Bool)
    (process prg : Addr) (prms : List (Option Addr)) (m m' : ArcMemory)
    (standing : ProcessStanding hash texts process m)
    (failed : scpCallProgram hash texts opened process prg prms m = some (false, m')) :
    CallerKept hash process m m' ↔ LeavesNothing hash texts opened process prg prms m := by
  rw [scpCallProgram] at failed
  cases hprg : texts.isProgram prg with
  | false =>
    rw [hprg] at failed
    cases failed
    refine ⟨fun _ c e passed h => ?_, fun _ => CallerKept.setError standing _⟩
    exact absurd (hprg.symm.trans h) Bool.false_ne_true
  | true =>
    simp only [hprg, Bool.not_true, Bool.false_eq_true, if_false] at failed
    cases hprepare : prepareProgramConstSegs texts prg (.start m) with
    | mk segs t =>
      rw [hprepare] at failed
      cases segs with
      | none =>
        cases failed
        obtain ⟨hnone, hconsts, ht⟩ := prepare_none (congrArg Prod.fst hprepare)
        rw [hprepare] at ht
        subst ht
        refine ⟨fun _ c e passed _ h => ?_, fun _ => CallerKept.setError standing _⟩
        rcases h with h | h
        · exact absurd hnone h
        · exact absurd hconsts h
      | some segs =>
        have constants := prepare_some (congrArg Prod.fst hprepare)
        obtain ⟨c, hfetch, failed⟩ := Option.bind_eq_some_iff.mp failed
        obtain ⟨⟨vv, ob, t₁⟩, hpush, failed⟩ := Option.bind_eq_some_iff.mp failed
        obtain ⟨⟨error, t₂⟩, hprms, failed⟩ := Option.bind_eq_some_iff.mp failed
        have same : ContextArcs.fetchContext t.memory process =
            ContextArcs.fetchContext m process := by
          apply fetchContext_congr
          intro attr hattr
          have prepared : (prepareProgramConstSegs texts prg (.start m)).2.memory.tupAt process
            attr =
              m.tupAt process attr := tupAt_prepare prg process hattr (.start m)
          rwa [hprepare] at prepared
        rw [same] at hfetch
        have fetched := standing.fetched hfetch
        obtain ⟨-, -, hnotPrg, node, e, s, henv, sync⟩ := standing.environment c hfetch
        have prepared : Taking c.varValue m e t := by
          have notEnv : prg ≠ c.varValue := fun h =>
            absurd (hprg.symm.trans (h ▸ hnotPrg)) (by decide)
          have prepared : Taking c.varValue m e (prepareProgramConstSegs texts prg (.start m)).2 :=
            (standing.start henv).prepare fetched.old notEnv
          rwa [hprepare] at prepared
        obtain ⟨pushed, hout, hinit⟩ := prepared.pushAndSwitch fetched hpush
        have caller := standing.callerEnv henv
        obtain ⟨matched, hmatch, hprms⟩ := Option.bind_eq_some_iff.mp hprms
        cases matched with
        | error error₁ =>
          cases hprms
          cases failed
          refine ⟨fun _ c e passed _ _ _ _ h => ?_, fun _ => ?_⟩
          · cases hmatch.symm.trans h
          · exact ((pushed.setError error₁).kept_iff standing fetched.old henv sync .refl).mpr id
        | ok passed =>
          cases error with
          | none => cases failed
          | some error =>
            cases failed
            have unique : LeavesNothing hash texts opened process prg prms m ↔
                (texts.initOp prg ≠ none ∨
                  takesInput hash texts opened ⟨c.prg, c.varValue, prg⟩ e passed = false) ∧
                ((readPrms hash texts opened ⟨c.prg, c.varValue, prg⟩ e passed).replaces = 0 →
                  e.replaces = 0) := by
              constructor
              · exact fun h => h c e passed hprg constants hfetch henv hmatch
              · intro h c' e' passed' _ _ hfetch' henv' hmatch'
                cases hfetch.symm.trans hfetch'
                cases henv.symm.trans henv'
                cases hmatch.symm.trans hmatch'
                exact h
            rw [unique]
            by_cases safe : texts.initOp prg ≠ none ∨
                takesInput hash texts opened ⟨c.prg, c.varValue, prg⟩ e passed = false
            · have apart : m.fresh ≤ vv ∨
                  takesInput hash texts opened ⟨c.prg, c.varValue, prg⟩ e passed = false := by
                rcases hinit with ⟨hnone, -⟩ | ⟨-, hnew⟩
                · exact .inr (safe.resolve_left fun h => h hnone)
                · exact .inl hnew
              have processed := Taking.processPrms fetched.old (by rfl) hout passed 0 e t₁ _ pushed
                caller apart hprms
              rw [(processed.setError error).kept_iff standing fetched.old henv sync
                (readPrms_reads passed e)]
              exact ⟨fun h => ⟨safe, h⟩, fun h => h.2⟩
            · obtain ⟨hnone, htakes⟩ := not_or.mp safe
              rw [not_not] at hnone
              rw [Bool.not_eq_false] at htakes
              have hvv : vv = c.varValue := by
                rcases hinit with ⟨-, h⟩ | ⟨h, -⟩
                · exact h
                · exact absurd hnone h
              obtain ⟨l, set⟩ := Taking.processPrms_sets fetched.old node (by rfl) hout hvv passed 0
                t₁ _ pushed caller htakes hprms
              refine ⟨fun kept => ?_, fun h => absurd h.1 safe⟩
              exact absurd kept (set.not_kept standing fetched.old error)

def oneProcess : ArcMemory where
  links := [⟨10, 0, 1, some .program⟩, ⟨11, 0, 2, some .varValue⟩, ⟨12, 0, 3, some .active⟩]
  caches v := if v = 2 then some ⟨DirectMapped.empty, 0⟩ else none
  error := none
  fresh := 20

def twoPrograms (initOp : Addr → Option Addr) : ProgramTexts where
  isProgram a := a == 1 || a == 5
  consts _ := some []
  initOp := initOp
  prms a := if a = 5 then some [⟨[1], 6, true, false⟩, ⟨[2], 7, false, true⟩] else none
  vars _ _ := false

theorem oneProcess_standing (initOp : Addr → Option Addr) :
    ProcessStanding slotOf (twoPrograms initOp) 0 oneProcess where
  old := by decide
  arcs := by decide
  there := by decide
  cached := by
    intro v c hc i x entry hslot
    by_cases hv : v = 2
    · simp only [oneProcess, hv, if_true] at hc
      cases hc
      cases hslot
    · simp [oneProcess, hv] at hc
  environment := by
    intro c hc
    cases hc
    refine ⟨by decide, by decide, rfl, by decide, _, fun _ => none, rfl, ?_⟩
    constructor
    · exact fun _ _ => rfl
    · exact List.nodup_nil
    · exact List.nodup_nil
    · exact fun t ht => absurd ht List.not_mem_nil
    · exact DirectMapped.Sound.empty
    · exact fun _ t ht => absurd ht List.not_mem_nil

/-- The output parameter is no variable: the call is taken back. -/
theorem failed_call_iff_output : ∃ m', scpCallProgram slotOf (twoPrograms fun _ => some 3)
      (fun _ => true) 0 5 [some 8, some 9] oneProcess = some (false, m') ∧
    CallerKept slotOf 0 oneProcess m' := by
  have hrun : ∃ m', scpCallProgram slotOf (twoPrograms fun _ => some 3) (fun _ => true) 0 5
      [some 8, some 9] oneProcess = some (false, m') := ⟨_, rfl⟩
  obtain ⟨m', hrun⟩ := hrun
  refine ⟨m', hrun, ?_⟩
  rw [failed_call_iff slotOf _ _ 0 5 _ oneProcess m' (oneProcess_standing _) hrun]
  intro c e passed _ _ hc he hmatch
  cases hc
  cases he
  cases hmatch
  exact ⟨.inl nofun, fun _ => rfl⟩

/-- A program without an operator is called, and the value of its input parameter stays in
the environment of the caller. -/
theorem failed_call_fails : ¬∀ (hash : Addr → Nat) (texts : ProgramTexts) (opened : Addr → Bool)
    (process prg : Addr) (prms : List (Option Addr)) (m m' : ArcMemory),
    ProcessStanding hash texts process m →
    scpCallProgram hash texts opened process prg prms m = some (false, m') →
    CallerKept hash process m m' := by
  intro claim
  have kept := claim slotOf (twoPrograms fun _ => none) (fun _ => true) 0 5 [some 8, some 9]
    oneProcess _ (oneProcess_standing _) rfl
  exact absurd kept.arcs (by decide)

end ScCore.Scp
