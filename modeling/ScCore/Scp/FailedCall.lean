import ScCore.Scp.Reading
import ScCore.Scp.TakenBack

/-!
# Calls that fail

The transaction of `scp_call_program` takes back all that the call has done to the memory
of the caller, except that the parameters of a program without an operator are set in the
environment of the caller itself, by a session that logs nothing.
-/

namespace ScCore.Scp

variable {hash : Addr → Nat} {texts : ProgramTexts} {opened : Addr → Bool}
  {process v₀ : Addr} {m₀ m m' : ArcMemory} {e e' : VarEnv} {t t' : Transacted}

namespace ArcMemory

variable (m)

def members (rel : Addr) : List Addr := (m.links.filter fun l => l.beg = rel).map (·.fin)

def components (tuple : Addr) (attr : Attribute) : List Link :=
  m.links.filter fun l => l.beg = tuple ∧ l.attr = some attr

theorem tuples_eq (varValue : Addr) : m.tuples varValue = (m.members varValue).flatMap fun conn =>
    (m.components conn .n1).flatMap fun var => (m.components conn .n2).flatMap fun value =>
      [⟨conn, var.fin, value.arc, value.fin⟩] := by
  rw [members, List.flatMap_map]
  rfl

end ArcMemory

structure SameEnv (v : Addr) (m₀ m : ArcMemory) : Prop where
  members : m.members v = m₀.members v
  components : ∀ tuple < m₀.fresh, ∀ attr, attr = .n1 ∨ attr = .n2 →
    m.components tuple attr = m₀.components tuple attr

theorem SameEnv.tuples (same : SameEnv v₀ m₀ m) (old : ∀ conn ∈ m₀.members v₀, conn < m₀.fresh) :
    m.tuples v₀ = m₀.tuples v₀ := by
  rw [ArcMemory.tuples_eq, ArcMemory.tuples_eq, same.members]
  apply List.flatMap_congr
  intro conn hconn
  rw [same.components conn (old conn hconn) _ (.inl rfl),
    same.components conn (old conn hconn) _ (.inr rfl)]

/-- A call that is under way and has touched nothing of the caller's that will not be taken
back; `e` is the environment of the caller. -/
structure Taking (v₀ : Addr) (m₀ : ArcMemory) (e : VarEnv) (t : Transacted) : Prop where
  restored : ∃ new, restoreEnds t.origEnd t.memory.links = m₀.links ++ new ∧
    ∀ l ∈ new, m₀.fresh ≤ l.arc ∧ (l.beg < m₀.fresh → l.fin ∈ t.genedElems)
  grown : m₀.fresh ≤ t.memory.fresh
  nodup : (t.memory.links.map (·.arc)).Nodup
  arcs : ∀ l ∈ t.memory.links, l.arc < t.memory.fresh
  log : ∀ entry ∈ t.origEnd, entry.1 < m₀.fresh
  gened : ∀ a ∈ t.genedElems, m₀.fresh ≤ a ∧ a < t.memory.fresh
  present : ∀ l ∈ m₀.links, ∃ l' ∈ t.memory.links,
    l'.arc = l.arc ∧ l'.beg = l.beg ∧ l'.attr = l.attr
  env : SameEnv v₀ m₀ t.memory
  cache : t.memory.caches v₀ = some ⟨e.cache, e.replaces⟩
  caches : ∀ v < m₀.fresh, v ≠ v₀ → t.memory.caches v = m₀.caches v

def ComponentArc (v₀ : Addr) (m₀ : ArcMemory) (arc : Addr) : Prop :=
  ∃ l ∈ m₀.links, l.arc = arc ∧ arc < m₀.fresh ∧ l.beg ≠ v₀ ∧ l.attr ≠ some .n1 ∧ l.attr ≠ some .n2

namespace Taking

section

variable (taking : Taking v₀ m₀ e t)
include taking

theorem createEl : Taking v₀ m₀ e t.createEl.2 where
  restored := by
    obtain ⟨new, hnew, hdies⟩ := taking.restored
    refine ⟨new, hnew, fun l hl => ⟨(hdies l hl).1, fun hbeg => ?_⟩⟩
    exact List.mem_append_left _ ((hdies l hl).2 hbeg)
  grown := Nat.le_succ_of_le taking.grown
  nodup := taking.nodup
  arcs l hl := Nat.lt_succ_of_lt (taking.arcs l hl)
  log := taking.log
  gened := by
    intro a ha
    rcases List.mem_append.mp ha with ha | ha
    · exact ⟨(taking.gened a ha).1, Nat.lt_succ_of_lt (taking.gened a ha).2⟩
    · rw [List.mem_singleton.mp ha]
      exact ⟨taking.grown, Nat.lt_succ_self _⟩
  present := taking.present
  env := ⟨taking.env.members, taking.env.components⟩
  cache := taking.cache
  caches := taking.caches

theorem hostCreateEl :
    Taking v₀ m₀ e { t with memory := t.memory.createEl.2 } where
  restored := taking.restored
  grown := Nat.le_succ_of_le taking.grown
  nodup := taking.nodup
  arcs l hl := Nat.lt_succ_of_lt (taking.arcs l hl)
  log := taking.log
  gened a ha := ⟨(taking.gened a ha).1, Nat.lt_succ_of_lt (taking.gened a ha).2⟩
  present := taking.present
  env := ⟨taking.env.members, taking.env.components⟩
  cache := taking.cache
  caches := taking.caches

theorem gen (beg fin : Addr) (attr : Option Attribute) (dies : beg < m₀.fresh → fin ∈ t.genedElems)
    (hbeg : beg ≠ v₀) (plain : m₀.fresh ≤ beg ∨ attr ≠ some .n1 ∧ attr ≠ some .n2) :
    Taking v₀ m₀ e (t.gen beg fin attr).2 := by
  let l : Link := ⟨t.memory.fresh, beg, fin, attr⟩
  constructor
  · obtain ⟨new, hnew, hdies⟩ := taking.restored
    refine ⟨new ++ [l], ?_, ?_⟩
    · rw [← List.append_assoc, ← hnew]
      apply restoreEnds_new
      intro entry hentry
      exact (Nat.lt_of_lt_of_le (taking.log entry hentry) taking.grown).ne
    · intro l' hl'
      rcases List.mem_append.mp hl' with hl' | hl'
      · exact hdies l' hl'
      · rw [List.mem_singleton.mp hl']
        exact ⟨taking.grown, dies⟩
  · exact Nat.le_succ_of_le taking.grown
  · change ((t.memory.links ++ [l]).map (·.arc)).Nodup
    rw [List.map_append, List.nodup_append]
    refine ⟨taking.nodup, List.nodup_singleton _, ?_⟩
    intro a ha b hb
    obtain ⟨l', hl', rfl⟩ := List.mem_map.mp ha
    rw [List.mem_singleton.mp hb]
    exact (taking.arcs l' hl').ne
  · intro l' hl'
    rcases List.mem_append.mp hl' with hl' | hl'
    · exact Nat.lt_succ_of_lt (taking.arcs l' hl')
    · rw [List.mem_singleton.mp hl']
      exact Nat.lt_succ_self _
  · exact taking.log
  · exact fun a ha => ⟨(taking.gened a ha).1, Nat.lt_succ_of_lt (taking.gened a ha).2⟩
  · intro l' hl'
    obtain ⟨l'', hmem, hsame⟩ := taking.present l' hl'
    exact ⟨l'', List.mem_append_left _ hmem, hsame⟩
  · constructor
    · rw [← taking.env.members]
      change ((t.memory.links ++ [l]).filter _).map _ = (t.memory.links.filter _).map _
      rw [List.filter_append, List.filter_singleton]
      simp [l, hbeg]
    · intro tuple htuple a ha
      rw [← taking.env.components tuple htuple a ha]
      change (t.memory.links ++ [l]).filter _ = t.memory.links.filter _
      have other : ¬(beg = tuple ∧ attr = some a) := by
        rintro ⟨rfl, rfl⟩
        rcases plain with h | ⟨h1, h2⟩
        · exact Nat.not_lt_of_le h htuple
        · rcases ha with rfl | rfl
          · exact h1 rfl
          · exact h2 rfl
      rw [List.filter_append, List.filter_singleton]
      simp [l, other]
  · exact taking.cache
  · exact taking.caches

theorem caching (caches : Addr → Option ScpCache) (cache : caches v₀ = some ⟨e'.cache, e'.replaces⟩)
    (other : ∀ v < m₀.fresh, v ≠ v₀ → caches v = t.memory.caches v) :
    Taking v₀ m₀ e' { t with memory := { t.memory with caches := caches } } :=
  { taking with
    cache := cache
    env := ⟨taking.env.members, taking.env.components⟩
    caches := fun v hv hne => (other v hv hne).trans (taking.caches v hv hne) }

theorem setError (error : ScpError) : Taking v₀ m₀ e (t.setError error) :=
  { taking with env := ⟨taking.env.members, taking.env.components⟩ }

theorem setEnd {arc fin : Addr} (h : t.setEnd arc fin = some t')
    (component : ComponentArc v₀ m₀ arc) : Taking v₀ m₀ e t' := by
  obtain ⟨old, hold, ht'⟩ := Option.bind_eq_some_iff.mp h
  cases ht'
  obtain ⟨l₀, hl₀, rfl, hlt, hbeg, h1, h2⟩ := component
  -- There is one arc with the address, which is still of the same tuple.
  have alone : ∀ l ∈ t.memory.links, l.arc = l₀.arc → l.beg = l₀.beg ∧ l.attr = l₀.attr := by
    intro l hl harc
    obtain ⟨l', hl', harc', hsame⟩ := taking.present l₀ hl₀
    rwa [List.inj_on_of_nodup_map taking.nodup hl hl' (harc.trans harc'.symm)]
  have same : setEnds t.memory.links l₀.arc old = t.memory.links := by
    apply setEnds_self
    intro l hl harc
    obtain ⟨l', hfind, rfl⟩ := Option.map_eq_some_iff.mp hold
    have harc' : l'.arc = l₀.arc := by simpa using List.find?_some hfind
    have hl' := List.mem_of_find?_eq_some hfind
    rw [List.inj_on_of_nodup_map taking.nodup hl hl' (harc.trans harc'.symm)]
  have memory : (t.memory.setEnd l₀.arc fin).links = setEnds t.memory.links l₀.arc fin := rfl
  constructor
  · obtain ⟨new, hnew, hdies⟩ := taking.restored
    refine ⟨new, ?_, hdies⟩
    rw [restoreEnds_append, memory, setEnds_setEnds, same, hnew]
  · exact taking.grown
  · rw [memory, arcs_setEnds]
    exact taking.nodup
  · intro l hl
    obtain ⟨l', hl', rfl⟩ := mem_setEnds.mp hl
    have hlt' := taking.arcs l' hl'
    split
    · exact hlt'
    · exact hlt'
  · intro entry hentry
    rcases List.mem_append.mp hentry with hentry | hentry
    · exact taking.log entry hentry
    · rw [List.mem_singleton.mp hentry]
      exact hlt
  · exact taking.gened
  · intro l hl
    obtain ⟨l', hl', hsame⟩ := taking.present l hl
    refine ⟨_, mem_setEnds.mpr ⟨l', hl', rfl⟩, ?_⟩
    split
    · exact hsame
    · exact hsame
  · constructor
    · rw [← taking.env.members, ArcMemory.members, memory, filter_setEnds]
      · rfl
      · intro l hl harc
        have hne : l.beg ≠ v₀ := (alone l hl harc).1.trans_ne hbeg
        exact ⟨decide_eq_false hne, decide_eq_false hne⟩
    · intro tuple htuple attr hattr
      rw [← taking.env.components tuple htuple attr hattr, ArcMemory.components, memory,
        filter_setEnds]
      · rfl
      · intro l hl harc
        have hne : l.attr ≠ some attr := by
          rw [(alone l hl harc).2]
          rcases hattr with rfl | rfl
          · exact h1
          · exact h2
        exact ⟨decide_eq_false fun h => hne h.2, decide_eq_false fun h => hne h.2⟩
  · exact taking.cache
  · exact taking.caches

theorem genNew (beg fin : Addr) (attr : Option Attribute) (new : m₀.fresh ≤ beg)
    (hv₀ : v₀ < m₀.fresh) : Taking v₀ m₀ e (t.gen beg fin attr).2 := by
  apply taking.gen
  · exact fun h => absurd h (Nat.not_lt_of_le new)
  · exact (Nat.lt_of_lt_of_le hv₀ new).ne'
  · exact .inl new

theorem addOrdTuple (rel v1 v2 : Addr) (hrel : rel ≠ v₀) (hv₀ : v₀ < m₀.fresh) :
    Taking v₀ m₀ e (t.addOrdTuple rel v1 v2) := by
  have inSet := taking.createEl.gen rel t.memory.fresh none
    (fun _ => List.mem_append_right _ (List.mem_singleton_self _)) hrel (.inr ⟨nofun, nofun⟩)
  have first := inSet.genNew t.memory.fresh v1 (some .n1) taking.grown hv₀
  exact first.genNew t.memory.fresh v2 (some .n2) taking.grown hv₀

theorem hostAddOrdTuple (rel v1 v2 : Addr) (hrel : m₀.fresh ≤ rel) (hv₀ : v₀ < m₀.fresh) :
    Taking v₀ m₀ e { t with memory := (t.memory.addOrdTuple rel v1 v2).2.2 } := by
  have inSet := taking.hostCreateEl.genNew rel t.memory.fresh none hrel hv₀
  have first := inSet.genNew t.memory.fresh v1 (some .n1) taking.grown hv₀
  exact first.genNew t.memory.fresh v2 (some .n2) taking.grown hv₀

end

end Taking

/-! ## The push -/

/-- A process between two steps: what its arcs lead to is there, its environment is a
relation of its own, and the cache of it agrees with its tuples. -/
structure ProcessStanding (hash : Addr → Nat) (texts : ProgramTexts) (process : Addr)
    (m : ArcMemory) : Prop where
  old : ∀ l ∈ m.links, l.arc < m.fresh ∧ l.beg < m.fresh ∧ l.fin < m.fresh
  arcs : (m.links.map (·.arc)).Nodup
  there : process < m.fresh
  cached : ∀ v c, m.caches v = some c → OldValues m.fresh c
  environment : ∀ c, ContextArcs.fetchContext m process = some c →
    c.varValue ≠ process ∧ c.outBinding ≠ some c.varValue ∧ texts.isProgram c.varValue = false ∧
      (∀ l ∈ m.links, l.arc ≠ c.varValue) ∧ ∃ e s, m.env c.varValue = some e ∧ Sync hash e s

theorem tupAt_spec {tuple : Addr} {attr : Attribute} {l : Link} (h : m.tupAt tuple attr = some l) :
    l ∈ m.links ∧ l.beg = tuple ∧ l.attr = some attr := by
  have hp := List.find?_some h
  exact ⟨List.mem_of_find?_eq_some h, (of_decide_eq_true hp).1, (of_decide_eq_true hp).2⟩

structure Fetched (process v₀ : Addr) (m₀ : ArcMemory) (c : ContextArcs) : Prop where
  other : process ≠ v₀
  old : v₀ < m₀.fresh
  varValue : c.varValue = v₀
  prgArc : ComponentArc v₀ m₀ c.prgArc
  varValueArc : ComponentArc v₀ m₀ c.varValueArc
  activeOpArc : ComponentArc v₀ m₀ c.activeOpArc
  outBindingArc : ∀ arc, c.outBindingArc = some arc → ComponentArc v₀ m₀ arc
  prevCtx : ∀ l, c.prevCtx = some l → ComponentArc v₀ m₀ l.arc
  outBinding : c.outBinding ≠ some v₀

theorem ProcessStanding.fetched (standing : ProcessStanding hash texts process m₀) {c : ContextArcs}
    (h : ContextArcs.fetchContext m₀ process = some c) : Fetched process c.varValue m₀ c := by
  obtain ⟨hprocess, hbinding, -⟩ := standing.environment c h
  have component : ∀ {attr l}, m₀.tupAt process attr = some l → attr ≠ .n1 → attr ≠ .n2 →
      ComponentArc c.varValue m₀ l.arc := by
    intro attr l hl h1 h2
    obtain ⟨hmem, rfl, hattr⟩ := tupAt_spec hl
    refine ⟨l, hmem, rfl, (standing.old l hmem).1, hprocess.symm, ?_, ?_⟩
    · rw [hattr]
      exact fun h => h1 (Option.some.inj h)
    · rw [hattr]
      exact fun h => h2 (Option.some.inj h)
  obtain ⟨prg, hprg, h⟩ := Option.bind_eq_some_iff.mp h
  obtain ⟨varValue, hvarValue, h⟩ := Option.bind_eq_some_iff.mp h
  obtain ⟨active, hactive, h⟩ := Option.bind_eq_some_iff.mp h
  cases h
  constructor
  · exact hprocess.symm
  · exact (standing.old _ (tupAt_spec hvarValue).1).2.2
  · rfl
  · exact component hprg nofun nofun
  · exact component hvarValue nofun nofun
  · exact component hactive nofun nofun
  · intro arc harc
    obtain ⟨l, hl, rfl⟩ := Option.map_eq_some_iff.mp harc
    exact component hl nofun nofun
  · exact fun l hl => component hl nofun nofun
  · exact hbinding

namespace Taking

variable {c : ContextArcs}

section

variable (taking : Taking v₀ m₀ e t)
include taking

theorem createContext (fetched : Fetched process v₀ m₀ c) :
    Taking v₀ m₀ e (c.createContext t).2.2 ∧ (c.createContext t).2.1 ≠ v₀ := by
  have prg := taking.createEl.genNew t.memory.fresh c.prg (some .program) taking.grown fetched.old
  have varValue := prg.genNew t.memory.fresh c.varValue (some .varValue) taking.grown fetched.old
  have active := varValue.genNew t.memory.fresh c.activeOp (some .active) taking.grown fetched.old
  cases hbinding : c.outBinding with
  | some binding =>
    simp only [ContextArcs.createContext, ContextArcs.ensureBinding, hbinding]
    refine ⟨active.genNew _ _ _ taking.grown fetched.old, ?_⟩
    exact fun heq => fetched.outBinding (hbinding.trans (congrArg some heq))
  | none =>
    simp only [ContextArcs.createContext, ContextArcs.ensureBinding, hbinding]
    refine ⟨active.createEl.genNew _ _ _ taking.grown fetched.old, ?_⟩
    exact (Nat.lt_of_lt_of_le fetched.old active.grown).ne'

theorem createList (hv₀ : v₀ < m₀.fresh) (val : Addr) :
    Taking v₀ m₀ e (ContextArcs.createList val t).2 ∧
      m₀.fresh ≤ (ContextArcs.createList val t).1 ∧
      (ContextArcs.createList val t).1 ∈ (ContextArcs.createList val t).2.genedElems := by
  refine ⟨taking.createEl.genNew _ _ _ taking.grown hv₀, taking.grown, ?_⟩
  exact List.mem_append_right _ (List.mem_singleton_self _)

theorem linkStack (fetched : Fetched process v₀ m₀ c) {ctxList : Addr} (new : m₀.fresh ≤ ctxList)
    (gened : ctxList ∈ t.genedElems) (h : c.linkStack process ctxList t = some t') :
    Taking v₀ m₀ e t' := by
  rw [ContextArcs.linkStack] at h
  cases hprev : c.prevCtx with
  | none =>
    rw [hprev] at h
    cases h
    exact taking.gen _ _ _ (fun _ => gened) fetched.other (.inr ⟨nofun, nofun⟩)
  | some prev =>
    rw [hprev] at h
    exact (taking.genNew _ _ _ new fetched.old).setEnd h (fetched.prevCtx prev hprev)

theorem bindOutput (fetched : Fetched process v₀ m₀ c) {outBinding : Addr}
    (gened : outBinding ∈ t.genedElems) (h : c.bindOutput process outBinding t = some t') :
    Taking v₀ m₀ e t' := by
  rw [ContextArcs.bindOutput] at h
  cases harc : c.outBindingArc with
  | none =>
    rw [harc] at h
    cases h
    exact taking.gen _ _ _ (fun _ => gened) fetched.other (.inr ⟨nofun, nofun⟩)
  | some arc =>
    rw [harc] at h
    exact taking.setEnd h (fetched.outBindingArc arc harc)

theorem createVarValue (hv₀ : v₀ < m₀.fresh) : Taking v₀ m₀ e (ContextArcs.createVarValue t).2 := by
  have other : ∀ v < m₀.fresh, Function.update t.createEl.2.memory.caches t.memory.fresh
      (some ⟨DirectMapped.empty, 0⟩) v = t.memory.caches v := fun v hv =>
    Function.update_of_ne (Nat.lt_of_lt_of_le hv taking.grown).ne _ _
  exact taking.createEl.caching _ ((other v₀ hv₀).trans taking.cache) fun v hv _ => other v hv

theorem enter (fetched : Fetched process v₀ m₀ c) {initOp vv ob : Addr}
    (h : c.enter process initOp t = some (vv, ob, t')) :
    Taking v₀ m₀ e t' ∧ m₀.fresh ≤ vv ∧ ob ≠ v₀ := by
  obtain ⟨t₁, h₁, h⟩ := Option.bind_eq_some_iff.mp h
  obtain ⟨t₂, h₂, h⟩ := Option.bind_eq_some_iff.mp h
  obtain ⟨t₃, h₃, h⟩ := Option.bind_eq_some_iff.mp h
  cases h
  have active := taking.setEnd h₁ fetched.activeOpArc
  have switched := (active.createVarValue fetched.old).setEnd h₂ fetched.varValueArc
  have created := switched.createEl
  refine ⟨created.bindOutput fetched (List.mem_append_right _ (List.mem_singleton_self _)) h₃,
    active.grown, (Nat.lt_of_lt_of_le fetched.old switched.grown).ne'⟩

theorem pushAndSwitch (fetched : Fetched process v₀ m₀ c) {prg vv ob : Addr}
    (h : c.pushAndSwitch texts process prg t = some (vv, ob, t')) :
    Taking v₀ m₀ e t' ∧ ob ≠ v₀ ∧
      (texts.initOp prg = none ∧ vv = v₀ ∨ texts.initOp prg ≠ none ∧ m₀.fresh ≤ vv) := by
  obtain ⟨t₁, h₁, h⟩ := Option.bind_eq_some_iff.mp h
  obtain ⟨t₂, h₂, h⟩ := Option.bind_eq_some_iff.mp h
  obtain ⟨contextTaking, hbinding⟩ := taking.createContext fetched
  obtain ⟨listTaking, hnew, hgened⟩ := contextTaking.createList fetched.old (c.createContext t).1
  have pushed := (listTaking.linkStack fetched hnew hgened h₁).setEnd h₂ fetched.prgArc
  cases hinit : texts.initOp prg with
  | none =>
    simp only [hinit] at h
    cases h
    exact ⟨pushed.setError _, hbinding, .inl ⟨rfl, fetched.varValue⟩⟩
  | some initOp =>
    simp only [hinit] at h
    obtain ⟨entered, hnew, hout⟩ := pushed.enter fetched h
    exact ⟨entered, hout, .inr ⟨nofun, hnew⟩⟩

theorem prepare (hv₀ : v₀ < m₀.fresh) {prg : Addr} (hprg : prg ≠ v₀) :
    Taking v₀ m₀ e (prepareProgramConstSegs texts prg t).2 := by
  rw [prepareProgramConstSegs]
  split
  · exact taking
  · split
    · exact taking.setError _
    · next segs _ =>
      have created := taking.createEl.gen prg t.memory.fresh (some .constSegments)
        (fun _ => List.mem_append_right _ (List.mem_singleton_self _)) hprg (.inr ⟨nofun, nofun⟩)
      have included : ∀ (segs : List Addr) (t' : Transacted), Taking v₀ m₀ e t' →
          Taking v₀ m₀ e (segs.foldl (includeSeg t.memory.fresh) t') := by
        intro segs
        induction segs with
        | nil => exact fun t' h => h
        | cons seg segs ih =>
          intro t' h
          apply ih
          rw [includeSeg]
          split
          · exact h
          · exact h.genNew _ _ _ taking.grown hv₀
      exact included segs _ created

end

end Taking

theorem tupAt_prepare (prg tuple : Addr) {attr : Attribute} (hattr : attr ≠ .constSegments)
    (t : Transacted) :
    (prepareProgramConstSegs texts prg t).2.memory.tupAt tuple attr = t.memory.tupAt tuple
    attr := by
  have appended : ∀ (t : Transacted) (beg fin : Addr) (a : Option Attribute), a ≠ some attr →
      (t.gen beg fin a).2.memory.tupAt tuple attr = t.memory.tupAt tuple attr := by
    intro t beg fin a ha
    change (t.memory.links ++ [_]).find? _ = _
    rw [List.find?_append, ArcMemory.tupAt]
    simp [ha]
  have included : ∀ (constSegs : Addr) (segs : List Addr) (t : Transacted),
      (segs.foldl (includeSeg constSegs) t).memory.tupAt tuple attr = t.memory.tupAt tuple
        attr := by
    intro constSegs segs
    induction segs with
    | nil => exact fun t => rfl
    | cons seg segs ih =>
      intro t
      rw [List.foldl_cons, ih, includeSeg]
      split
      · rfl
      · exact appended t _ _ _ nofun
  rw [prepareProgramConstSegs]
  split
  · rfl
  · split
    · rfl
    · refine (included _ _ _).trans (appended t.createEl.2 _ _ _ ?_)
      exact fun h => hattr (Option.some.inj h).symm

theorem fetchContext_congr (h : ∀ attr, attr ≠ .constSegments →
    m'.tupAt process attr = m.tupAt process attr) :
    ContextArcs.fetchContext m' process = ContextArcs.fetchContext m process := by
  rw [ContextArcs.fetchContext, ContextArcs.fetchContext, h .program nofun, h .varValue nofun,
    h .active nofun, h .outputPrmBinding nofun, h .processStack nofun]

/-! ## The parameters -/

section Parameters

variable (hash texts opened) (k : Caller)

def passedOf (e : VarEnv) (passedPrm : Addr) : Option Addr × VarEnv :=
  if texts.vars k.callerPrg passedPrm then
    ((e.getValue hash passedPrm).1.map (·.value), (e.getValue hash passedPrm).2)
  else (some passedPrm, e)

def outputFits (called : PrmArc) (passedPrm : Addr) : Bool :=
  !called.output || texts.vars k.callerPrg passedPrm

def takesInput (e : VarEnv) : List (Option PrmArc × Option Addr) → Bool
  | [] => false
  | (none, _) :: _ => false
  | (some _, none) :: rest => takesInput e rest
  | (some called, some passedPrm) :: rest =>
      if !outputFits texts k called passedPrm then false
      else if called.input then (passedOf hash texts k e passedPrm).1.any opened
      else takesInput e rest

def turnOf (e : VarEnv) (called : PrmArc) (passedPrm : Addr) : Bool × VarEnv :=
  if !outputFits texts k called passedPrm then (false, e)
  else if called.input then
    ((passedOf hash texts k e passedPrm).1.any opened, (passedOf hash texts k e passedPrm).2)
  else (true, e)

def readPrms : VarEnv → List (Option PrmArc × Option Addr) → VarEnv
  | e, [] => e
  | e, (none, _) :: _ => e
  | e, (some _, none) :: rest => readPrms e rest
  | e, (some called, some passedPrm) :: rest =>
      if (turnOf hash texts opened k e called passedPrm).1
      then readPrms (turnOf hash texts opened k e called passedPrm).2 rest
      else (turnOf hash texts opened k e called passedPrm).2

end Parameters

variable {k : Caller} {p : ScpParamsProcessor}

theorem passedOf_reads (e : VarEnv) (passedPrm : Addr) :
    Reads hash e (passedOf hash texts k e passedPrm).2 := by
  rw [passedOf]
  split
  · exact .step passedPrm .refl
  · exact .refl

theorem turnOf_reads (e : VarEnv) (called : PrmArc) (passedPrm : Addr) :
    Reads hash e (turnOf hash texts opened k e called passedPrm).2 := by
  rw [turnOf]
  split
  · exact .refl
  · split
    · exact passedOf_reads e passedPrm
    · exact .refl

theorem readPrms_reads (prms : List (Option PrmArc × Option Addr)) :
    ∀ e : VarEnv, Reads hash e (readPrms hash texts opened k e prms) := by
  induction prms with
  | nil => exact fun e => .refl
  | cons prm prms ih =>
    intro e
    obtain ⟨called, passedPrm⟩ := prm
    cases called with
    | none => exact .refl
    | some called =>
      cases passedPrm with
      | none => exact ih e
      | some passedPrm =>
        rw [readPrms]
        split
        · exact (turnOf_reads e called passedPrm).trans (ih _)
        · exact turnOf_reads e called passedPrm

variable {called : PrmArc} {passedPrm : Addr} {index : Nat}

theorem takesInput_turn {prms : List (Option PrmArc × Option Addr)}
    (h : takesInput hash texts opened k e ((some called, some passedPrm) :: prms) = false)
    (ok : (turnOf hash texts opened k e called passedPrm).1 = true) :
    takesInput hash texts opened k (turnOf hash texts opened k e called passedPrm).2 prms =
    false := by
  rw [takesInput] at h
  rw [turnOf] at ok ⊢
  cases hfits : outputFits texts k called passedPrm with
  | false =>
    rw [hfits] at ok
    cases ok
  | true =>
    rw [hfits] at h ok
    simp only [Bool.not_true, Bool.false_eq_true, if_false] at h ok ⊢
    cases hinput : called.input with
    | false =>
      rw [hinput] at h
      exact h
    | true =>
      rw [hinput, if_pos rfl] at h ok
      exact absurd (h.symm.trans ok) (by decide)

structure CallerEnv (v₀ : Addr) (m₀ : ArcMemory) (e : VarEnv) : Prop where
  tuples : e.tuples = m₀.tuples v₀
  vars : e.vars = fun _ => true
  old : ∀ conn ∈ m₀.members v₀, conn < m₀.fresh

theorem CallerEnv.reads (caller : CallerEnv v₀ m₀ e) (h : Reads hash e e') :
    CallerEnv v₀ m₀ e' :=
  ⟨h.same.tuples.trans caller.tuples, h.same.vars.trans caller.vars, caller.old⟩

theorem getValue_fresh (e : VarEnv) (n x : Addr) :
    ({ e with fresh := n } : VarEnv).getValue hash x =
      ((e.getValue hash x).1, { (e.getValue hash x).2 with fresh := n }) := by
  simp only [VarEnv.getValue, VarEnv.search]
  split
  · rfl
  · split
    · rfl
    · split
      · rfl
      · rfl

theorem turnOutput_error :
    (k.turnOutput texts p index called passedPrm t).1.isNone =
      outputFits texts k called passedPrm := by
  rw [Caller.turnOutput, outputFits]
  cases called.output with
  | false => rfl
  | true => cases texts.vars k.callerPrg passedPrm <;> rfl

theorem turn_cases {error : Option ScpError}
    (h : k.turn hash texts opened p index called passedPrm t = some (error, t')) :
    ∃ t₁, t₁ = (k.turnOutput texts p index called passedPrm t).2 ∧
      ((outputFits texts k called passedPrm = false ∧ error.isNone = false ∧ t' = t₁) ∨
      outputFits texts k called passedPrm = true ∧
        ((called.input = false ∧ error.isNone = true ∧ t' = t₁) ∨
        called.input = true ∧ ∃ value t₂, k.passedValue hash texts passedPrm t₁ = some (value, t₂) ∧
          error.isNone = value.any opened ∧ ((value.any opened = false ∧ t' = t₂) ∨
          value.any opened = true ∧ ∃ var x m,
            t₂.memory.setVariable hash p.calledVarValue var x = some m ∧
              t' = { t₂ with memory := m }))) := by
  rw [Caller.turn] at h
  have fits : (k.turnOutput texts p index called passedPrm t).1.isNone = _ := turnOutput_error
  rw [← fits]
  generalize k.turnOutput texts p index called passedPrm t = turned at h
  obtain ⟨error₁ | error₁, t₁⟩ := turned
  · refine ⟨t₁, rfl, .inr ⟨rfl, ?_⟩⟩
    dsimp only at h
    rw [Caller.turnInput] at h
    cases hinput : called.input with
    | false =>
      rw [hinput] at h
      cases h
      exact .inl ⟨rfl, rfl, rfl⟩
    | true =>
      rw [hinput, if_pos rfl] at h
      obtain ⟨⟨value, t₂⟩, hpassed, h⟩ := Option.bind_eq_some_iff.mp h
      refine .inr ⟨rfl, value, t₂, hpassed, ?_⟩
      cases value with
      | none =>
        cases h
        exact ⟨rfl, .inl ⟨rfl, rfl⟩⟩
      | some value =>
        rw [Option.any_some]
        cases hopened : opened value with
        | false =>
          simp only [hopened, Bool.false_eq_true, if_false] at h
          cases h
          exact ⟨rfl, .inl ⟨rfl, rfl⟩⟩
        | true =>
          simp only [hopened, if_true] at h
          obtain ⟨t₃, hset, h⟩ := Option.map_eq_some_iff.mp h
          cases h
          obtain ⟨m, hm, hset⟩ := Option.bind_eq_some_iff.mp hset
          cases hset
          exact ⟨rfl, .inr ⟨rfl, _, _, m, hm, rfl⟩⟩
  · cases h
    exact ⟨t', rfl, .inl ⟨rfl, rfl, rfl⟩⟩

namespace Taking

theorem env_eq (taking : Taking v₀ m₀ e t) (caller : CallerEnv v₀ m₀ e) :
    t.memory.env v₀ = some { e with fresh := t.memory.fresh } := by
  rw [ArcMemory.env, taking.cache, Option.map_some, taking.env.tuples caller.old, ← caller.tuples,
    ← caller.vars]

variable {passedPrm : Addr}

theorem passedValue (taking : Taking v₀ m₀ e t) (caller : CallerEnv v₀ m₀ e)
    (hk : k.callerVarValue = v₀) {value : Option Addr}
    (h : k.passedValue hash texts passedPrm t = some (value, t')) :
    value = (passedOf hash texts k e passedPrm).1 ∧
      Taking v₀ m₀ (passedOf hash texts k e passedPrm).2 t' := by
  rw [Caller.passedValue] at h
  rw [passedOf]
  split at h
  · next hvar =>
    rw [if_pos hvar]
    obtain ⟨⟨value', m⟩, hget, h⟩ := Option.bind_eq_some_iff.mp h
    cases h
    rw [hk, ArcMemory.getVarValue, taking.env_eq caller, Option.bind_eq_bind, Option.bind_some,
      getValue_fresh] at hget
    cases hget
    refine ⟨rfl, taking.caching _ (Function.update_self _ _ _) ?_⟩
    exact fun v _ hne => Function.update_of_ne hne _ _
  · next hvar =>
    rw [if_neg hvar]
    cases h
    exact ⟨rfl, taking⟩

theorem turnOutput (taking : Taking v₀ m₀ e t) (hv₀ : v₀ < m₀.fresh) (hout : p.outBinding ≠ v₀)
    (index : Nat) (called : PrmArc) (passedPrm : Addr) :
    Taking v₀ m₀ e (k.turnOutput texts p index called passedPrm t).2 := by
  rw [Caller.turnOutput]
  split
  · split
    · exact taking.addOrdTuple _ _ _ hout hv₀
    · exact taking
  · exact taking

theorem setVariable (taking : Taking v₀ m₀ e t) (hv₀ : v₀ < m₀.fresh) {vv var value : Addr}
    (hvv : m₀.fresh ≤ vv) (h : t.memory.setVariable hash vv var value = some m) :
    Taking v₀ m₀ e { t with memory := m } := by
  have added := taking.hostAddOrdTuple vv var value hvv hv₀
  obtain ⟨e₁, -, h⟩ := Option.bind_eq_some_iff.mp h
  cases h
  have other : ∀ v < m₀.fresh, v ≠ vv := fun v hv => (Nat.lt_of_lt_of_le hv hvv).ne
  apply added.caching
  · exact (Function.update_of_ne (other v₀ hv₀) _ _).trans added.cache
  · exact fun v hv _ => Function.update_of_ne (other v hv) _ _

theorem turn (taking : Taking v₀ m₀ e t) (caller : CallerEnv v₀ m₀ e) (hv₀ : v₀ < m₀.fresh)
    (hk : k.callerVarValue = v₀) (hout : p.outBinding ≠ v₀) {index : Nat} {called : PrmArc}
    {error : Option ScpError}
    (safe : m₀.fresh ≤ p.calledVarValue ∨ outputFits texts k called passedPrm = false ∨
      called.input = false ∨ (passedOf hash texts k e passedPrm).1.any opened = false)
    (h : k.turn hash texts opened p index called passedPrm t = some (error, t')) :
    error.isNone = (turnOf hash texts opened k e called passedPrm).1 ∧
      Taking v₀ m₀ (turnOf hash texts opened k e called passedPrm).2 t' := by
  obtain ⟨t₁, ht₁, cases⟩ := turn_cases h
  have output : Taking v₀ m₀ e t₁ := ht₁ ▸ taking.turnOutput hv₀ hout index called passedPrm
  rw [turnOf]
  obtain ⟨fits, herror, rfl⟩ | ⟨fits, ⟨hinput, herror, rfl⟩ |
    ⟨hinput, value, t₂, hpassed, herror, cases⟩⟩ := cases
  · rw [fits]
    exact ⟨herror, output⟩
  · rw [fits, hinput]
    exact ⟨herror, output⟩
  · obtain ⟨hvalue, read⟩ := output.passedValue caller hk hpassed
    rw [fits, hinput]
    rw [Bool.not_true, if_neg Bool.false_ne_true, if_pos rfl, ← hvalue]
    refine ⟨herror, ?_⟩
    obtain ⟨-, rfl⟩ | ⟨hopened, var, x, m, hm, rfl⟩ := cases
    · exact read
    · have hnew : m₀.fresh ≤ p.calledVarValue := by
        rcases safe with h | h | h | h
        · exact h
        · exact absurd (fits.symm.trans h) (by decide)
        · exact absurd (hinput.symm.trans h) (by decide)
        · rw [← hvalue, hopened] at h
          exact absurd h (by decide)
      exact read.setVariable hv₀ hnew hm

theorem processPrms (hv₀ : v₀ < m₀.fresh) (hk : k.callerVarValue = v₀) (hout : p.outBinding ≠ v₀)
    (prms : List (Option PrmArc × Option Addr)) :
    ∀ (index : Nat) (e : VarEnv) (t : Transacted) (error : Option ScpError), Taking v₀ m₀ e t →
      CallerEnv v₀ m₀ e →
      m₀.fresh ≤ p.calledVarValue ∨ takesInput hash texts opened k e prms = false →
      k.processPrms hash texts opened p index prms t = some (error, t') →
      Taking v₀ m₀ (readPrms hash texts opened k e prms) t' := by
  induction prms with
  | nil =>
    intro index e t error taking _ _ h
    cases h
    exact taking
  | cons prm prms ih =>
    intro index e t error taking caller safe h
    obtain ⟨called, passedPrm⟩ := prm
    cases called with
    | none => cases h
    | some called =>
      cases passedPrm with
      | none => exact ih _ e t error taking caller safe h
      | some passedPrm =>
        obtain ⟨⟨error₁, t₁⟩, hturn, h⟩ := Option.bind_eq_some_iff.mp h
        have safeTurn : m₀.fresh ≤ p.calledVarValue ∨ outputFits texts k called passedPrm = false ∨
            called.input = false ∨ (passedOf hash texts k e passedPrm).1.any opened = false := by
          rcases safe with h | h
          · exact .inl h
          · rw [takesInput] at h
            cases hfits : outputFits texts k called passedPrm with
            | false => exact .inr (.inl rfl)
            | true =>
              cases hinput : called.input with
              | false => exact .inr (.inr (.inl rfl))
              | true =>
                rw [hfits, hinput] at h
                exact .inr (.inr (.inr h))
        obtain ⟨herror, turned⟩ := taking.turn caller hv₀ hk hout safeTurn hturn
        rw [readPrms, ← herror]
        cases error₁ with
        | some error₁ =>
          cases h
          exact turned
        | none =>
          rw [Option.isNone_none, if_pos rfl]
          apply ih _ _ t₁ error turned (caller.reads (turnOf_reads e called passedPrm)) _ h
          exact safe.imp_right fun h => takesInput_turn h herror.symm

end Taking

/-! ## Variables of the caller that are set -/

structure Grows (t t' : Transacted) : Prop where
  log : t'.origEnd = t.origEnd
  fresh : t.memory.fresh ≤ t'.memory.fresh
  gened : ∀ a ∈ t'.genedElems, a ∈ t.genedElems ∨ t.memory.fresh ≤ a
  links : ∃ new, t'.memory.links = t.memory.links ++ new ∧
    (∀ l ∈ new, t.memory.fresh ≤ l.arc ∧ l.arc < t'.memory.fresh) ∧ (new.map (·.arc)).Nodup

namespace Grows

theorem refl (t : Transacted) : Grows t t :=
  ⟨rfl, Nat.le_refl _, fun _ => .inl, [], (List.append_nil _).symm, by simp, List.nodup_nil⟩

theorem trans {t'' : Transacted} (h : Grows t t') (h' : Grows t' t'') : Grows t t'' := by
  obtain ⟨new, hnew, harcs, hnodup⟩ := h.links
  obtain ⟨new', hnew', harcs', hnodup'⟩ := h'.links
  refine ⟨h'.log.trans h.log, h.fresh.trans h'.fresh, ?_, new ++ new', ?_, ?_, ?_⟩
  · intro a ha
    rcases h'.gened a ha with ha | ha
    · exact h.gened a ha
    · exact .inr (h.fresh.trans ha)
  · rw [hnew', hnew, List.append_assoc]
  · intro l hl
    rcases List.mem_append.mp hl with hl | hl
    · exact ⟨(harcs l hl).1, Nat.lt_of_lt_of_le (harcs l hl).2 h'.fresh⟩
    · exact ⟨h.fresh.trans (harcs' l hl).1, (harcs' l hl).2⟩
  · rw [List.map_append, List.nodup_append]
    refine ⟨hnodup, hnodup', ?_⟩
    intro a ha b hb
    obtain ⟨l, hl, rfl⟩ := List.mem_map.mp ha
    obtain ⟨l', hl', rfl⟩ := List.mem_map.mp hb
    exact (Nat.lt_of_lt_of_le (harcs l hl).2 (harcs' l' hl').1).ne

theorem createEl (t : Transacted) : Grows t t.createEl.2 := by
  refine ⟨rfl, Nat.le_succ _, ?_, [], (List.append_nil _).symm, by simp, List.nodup_nil⟩
  intro a ha
  rcases List.mem_append.mp ha with ha | ha
  · exact .inl ha
  · exact .inr (List.mem_singleton.mp ha).ge

theorem hostCreateEl (t : Transacted) : Grows t { t with memory := t.memory.createEl.2 } :=
  ⟨rfl, Nat.le_succ _, fun _ => .inl, [], (List.append_nil _).symm, by simp, List.nodup_nil⟩

theorem gen (t : Transacted) (beg fin : Addr) (attr : Option Attribute) :
    Grows t (t.gen beg fin attr).2 := by
  refine ⟨rfl, Nat.le_succ _, fun _ => .inl, [⟨t.memory.fresh, beg, fin, attr⟩], rfl, ?_,
    List.nodup_singleton _⟩
  intro l hl
  rw [List.mem_singleton.mp hl]
  exact ⟨Nat.le_refl _, Nat.lt_succ_self _⟩

theorem caching (t : Transacted) (caches : Addr → Option ScpCache) :
    Grows t { t with memory := { t.memory with caches := caches } } :=
  ⟨rfl, Nat.le_refl _, fun _ => .inl, [], (List.append_nil _).symm, by simp, List.nodup_nil⟩

theorem addOrdTuple (t : Transacted) (rel v1 v2 : Addr) : Grows t (t.addOrdTuple rel v1 v2) :=
  (createEl t).trans ((gen _ _ _ _).trans ((gen _ _ _ _).trans (gen _ _ _ _)))

theorem setVariable {vv var value : Addr} (h : t.memory.setVariable hash vv var value = some m) :
    Grows t { t with memory := m } := by
  obtain ⟨e₁, -, h⟩ := Option.bind_eq_some_iff.mp h
  cases h
  have added : Grows t { t with memory := (t.memory.addOrdTuple vv var value).2.2 } :=
    (hostCreateEl t).trans ((gen _ _ _ _).trans ((gen _ _ _ _).trans (gen _ _ _ _)))
  exact added.trans (caching _ _)

variable {passedPrm : Addr}

theorem passedValue {value : Option Addr}
    (h : k.passedValue hash texts passedPrm t = some (value, t')) : Grows t t' := by
  rw [Caller.passedValue] at h
  split at h
  · obtain ⟨⟨value', m⟩, hget, h⟩ := Option.bind_eq_some_iff.mp h
    cases h
    obtain ⟨e₁, -, hget⟩ := Option.bind_eq_some_iff.mp hget
    cases hget
    exact caching t _
  · cases h
    exact refl t

theorem turnOutput (index : Nat) (called : PrmArc) (passedPrm : Addr) :
    Grows t (k.turnOutput texts p index called passedPrm t).2 := by
  rw [Caller.turnOutput]
  split
  · split
    · exact addOrdTuple t _ _ _
    · exact refl t
  · exact refl t

theorem turn {index : Nat} {called : PrmArc} {error : Option ScpError}
    (h : k.turn hash texts opened p index called passedPrm t = some (error, t')) : Grows t t' := by
  obtain ⟨t₁, ht₁, cases⟩ := turn_cases h
  have output : Grows t t₁ := ht₁ ▸ turnOutput index called passedPrm
  obtain ⟨-, -, rfl⟩ | ⟨-, ⟨-, -, rfl⟩ | ⟨-, value, t₂, hpassed, -, cases⟩⟩ := cases
  · exact output
  · exact output
  · have read := output.trans (passedValue hpassed)
    obtain ⟨-, rfl⟩ | ⟨-, var, x, m, hm, rfl⟩ := cases
    · exact read
    · exact read.trans (setVariable hm)

theorem processPrms (prms : List (Option PrmArc × Option Addr)) :
    ∀ (index : Nat) (t : Transacted) (error : Option ScpError),
      k.processPrms hash texts opened p index prms t = some (error, t') → Grows t t' := by
  induction prms with
  | nil =>
    intro index t error h
    cases h
    exact refl _
  | cons prm prms ih =>
    intro index t error h
    obtain ⟨called, passedPrm⟩ := prm
    cases called with
    | none => cases h
    | some called =>
      cases passedPrm with
      | none => exact ih _ t error h
      | some passedPrm =>
        obtain ⟨⟨error₁, t₁⟩, hturn, h⟩ := Option.bind_eq_some_iff.mp h
        cases error₁ with
        | some error₁ =>
          cases h
          exact turn hturn
        | none => exact (turn hturn).trans (ih _ t₁ error h)

end Grows

structure SetInCaller (v₀ : Addr) (m₀ : ArcMemory) (l : Link) (t : Transacted) : Prop where
  mem : l ∈ t.memory.links
  beg : l.beg = v₀
  new : m₀.fresh ≤ l.arc
  alive : l.beg ∉ t.genedElems ∧ l.fin ∉ t.genedElems ∧ l.arc ∉ t.genedElems
  nodup : (t.memory.links.map (·.arc)).Nodup
  nodes : ∀ l' ∈ t.memory.links, l'.arc ≠ l.beg ∧ l'.arc ≠ l.fin
  unlogged : ∀ entry ∈ t.origEnd, entry.1 ≠ l.arc
  handedOut : l.beg < t.memory.fresh ∧ l.fin < t.memory.fresh ∧
    ∀ l' ∈ t.memory.links, l'.arc < t.memory.fresh

namespace SetInCaller

variable {l : Link}

theorem grows (set : SetInCaller v₀ m₀ l t) (h : Grows t t') : SetInCaller v₀ m₀ l t' := by
  obtain ⟨new, hnew, harcs, hnodup⟩ := h.links
  obtain ⟨hbeg, hfin, hlinks⟩ := set.handedOut
  have stays : ∀ a, a ∉ t.genedElems → a < t.memory.fresh → a ∉ t'.genedElems := by
    intro a ha hlt hmem
    rcases h.gened a hmem with h | h
    · exact ha h
    · exact Nat.not_lt_of_le h hlt
  constructor
  · rw [hnew]
    exact List.mem_append_left _ set.mem
  · exact set.beg
  · exact set.new
  · exact ⟨stays _ set.alive.1 hbeg, stays _ set.alive.2.1 hfin,
      stays _ set.alive.2.2 (hlinks l set.mem)⟩
  · rw [hnew, List.map_append, List.nodup_append]
    refine ⟨set.nodup, hnodup, ?_⟩
    intro a ha b hb
    obtain ⟨l₁, hl₁, rfl⟩ := List.mem_map.mp ha
    obtain ⟨l₂, hl₂, rfl⟩ := List.mem_map.mp hb
    exact (Nat.lt_of_lt_of_le (hlinks l₁ hl₁) (harcs l₂ hl₂).1).ne
  · intro l' hl'
    rw [hnew] at hl'
    rcases List.mem_append.mp hl' with hl' | hl'
    · exact set.nodes l' hl'
    · have hle := (harcs l' hl').1
      exact ⟨(Nat.lt_of_lt_of_le hbeg hle).ne', (Nat.lt_of_lt_of_le hfin hle).ne'⟩
  · rw [h.log]
    exact set.unlogged
  · refine ⟨Nat.lt_of_lt_of_le hbeg h.fresh, Nat.lt_of_lt_of_le hfin h.fresh, ?_⟩
    intro l' hl'
    rw [hnew] at hl'
    rcases List.mem_append.mp hl' with hl' | hl'
    · exact Nat.lt_of_lt_of_le (hlinks l' hl') h.fresh
    · exact (harcs l' hl').2

theorem rollback (set : SetInCaller v₀ m₀ l t) : l ∈ t.rollback.links := by
  have arcs : ∀ l' ∈ restoreEnds t.origEnd t.memory.links, ∃ l'' ∈ t.memory.links,
      l''.arc = l'.arc := by
    intro l' hl'
    have hmem := List.mem_map_of_mem (f := (·.arc)) hl'
    rw [arcs_restoreEnds] at hmem
    exact List.mem_map.mp hmem
  have restored := mem_restoreEnds set.mem set.unlogged
  rw [rollback_eq]
  apply mem_eraseAll
  · exact fun h => set.alive.1 (List.mem_reverse.mp h)
  · exact fun h => set.alive.2.1 (List.mem_reverse.mp h)
  · exact fun h => set.alive.2.2 (List.mem_reverse.mp h)
  · exact restored
  · intro l' hl' harc
    have hnodup : ((restoreEnds t.origEnd t.memory.links).map (·.arc)).Nodup := by
      rw [arcs_restoreEnds]
      exact set.nodup
    exact List.inj_on_of_nodup_map hnodup hl' restored harc
  · intro l' hl'
    obtain ⟨l'', hl'', harc⟩ := arcs l' hl'
    rw [← harc]
    exact set.nodes l'' hl''

end SetInCaller

namespace Taking

theorem arc_ne (taking : Taking v₀ m₀ e t) (hv₀ : v₀ < m₀.fresh)
    (node : ∀ l ∈ m₀.links, l.arc ≠ v₀) : ∀ l ∈ t.memory.links, l.arc ≠ v₀ := by
  intro l hl
  obtain ⟨new, hnew, hdies⟩ := taking.restored
  have hmem := List.mem_map_of_mem (f := (·.arc)) hl
  rw [← arcs_restoreEnds t.origEnd, hnew] at hmem
  obtain ⟨l', hl', harc⟩ := List.mem_map.mp hmem
  rw [← harc]
  rcases List.mem_append.mp hl' with hl' | hl'
  · exact node l' hl'
  · exact (Nat.lt_of_lt_of_le hv₀ (hdies l' hl').1).ne'

theorem setInCaller (taking : Taking v₀ m₀ e t) (hv₀ : v₀ < m₀.fresh)
    (node : ∀ l ∈ m₀.links, l.arc ≠ v₀) {var value : Addr}
    (h : t.memory.setVariable hash v₀ var value = some m) :
    ∃ l, SetInCaller v₀ m₀ l { t with memory := m } := by
  obtain ⟨e₁, -, h⟩ := Option.bind_eq_some_iff.mp h
  cases h
  let l : Link := ⟨t.memory.fresh + 1, v₀, t.memory.fresh, none⟩
  let t₁ := (Transacted.gen { t with memory := t.memory.createEl.2 } v₀ t.memory.fresh none).2
  have hlt : v₀ < t.memory.fresh := Nat.lt_of_lt_of_le hv₀ taking.grown
  have handedOut : ∀ l' ∈ t.memory.links ++ [l], l'.arc < t.memory.fresh ∨ l' = l := by
    intro l' hl'
    rcases List.mem_append.mp hl' with hl' | hl'
    · exact .inl (taking.arcs l' hl')
    · exact .inr (List.mem_singleton.mp hl')
  have added : SetInCaller v₀ m₀ l t₁ := by
    constructor
    · exact List.mem_append_right _ (List.mem_singleton_self _)
    · rfl
    · exact Nat.le_succ_of_le taking.grown
    · refine ⟨fun h => ?_, fun h => ?_, fun h => ?_⟩
      · exact Nat.not_lt_of_le (taking.gened _ h).1 hv₀
      · exact Nat.lt_irrefl _ (taking.gened _ h).2
      · exact Nat.not_succ_lt_self (taking.gened _ h).2
    · change ((t.memory.links ++ [l]).map (·.arc)).Nodup
      rw [List.map_append, List.nodup_append]
      refine ⟨taking.nodup, List.nodup_singleton _, ?_⟩
      intro a ha b hb
      obtain ⟨l', hl', rfl⟩ := List.mem_map.mp ha
      rw [List.mem_singleton.mp hb]
      exact (Nat.lt_succ_of_lt (taking.arcs l' hl')).ne
    · intro l' hl'
      rcases List.mem_append.mp hl' with hl' | hl'
      · exact ⟨taking.arc_ne hv₀ node l' hl', (taking.arcs l' hl').ne⟩
      · rw [List.mem_singleton.mp hl']
        exact ⟨(Nat.lt_succ_of_lt hlt).ne', Nat.succ_ne_self _⟩
    · intro entry hentry
      have hlog := Nat.lt_of_lt_of_le (taking.log entry hentry) taking.grown
      exact (Nat.lt_succ_of_lt hlog).ne
    · refine ⟨Nat.lt_succ_of_lt (Nat.lt_succ_of_lt hlt), Nat.lt_succ_of_lt (Nat.lt_succ_self _), ?_⟩
      intro l' hl'
      rcases handedOut l' hl' with hl' | rfl
      · exact Nat.lt_succ_of_lt (Nat.lt_succ_of_lt hl')
      · exact Nat.lt_succ_self _
  have grown := (Grows.gen t₁ t.memory.fresh var (some .n1)).trans
    (Grows.gen _ t.memory.fresh value (some .n2))
  exact ⟨l, added.grows (grown.trans (Grows.caching _ _))⟩

theorem turn_sets (taking : Taking v₀ m₀ e t) (caller : CallerEnv v₀ m₀ e) (hv₀ : v₀ < m₀.fresh)
    (node : ∀ l ∈ m₀.links, l.arc ≠ v₀) (hk : k.callerVarValue = v₀) (hout : p.outBinding ≠ v₀)
    (hcalled : p.calledVarValue = v₀) {index : Nat} {called : PrmArc} {passedPrm : Addr}
    {error : Option ScpError} (fits : outputFits texts k called passedPrm = true)
    (input : called.input = true)
    (takes : (passedOf hash texts k e passedPrm).1.any opened = true)
    (h : k.turn hash texts opened p index called passedPrm t = some (error, t')) :
    ∃ l, SetInCaller v₀ m₀ l t' := by
  obtain ⟨t₁, ht₁, cases⟩ := turn_cases h
  have output : Taking v₀ m₀ e t₁ := ht₁ ▸ taking.turnOutput hv₀ hout index called passedPrm
  obtain ⟨refused, -⟩ | ⟨-, ⟨none, -⟩ | ⟨-, value, t₂, hpassed, -, cases⟩⟩ := cases
  · cases fits.symm.trans refused
  · cases input.symm.trans none
  · obtain ⟨hvalue, read⟩ := output.passedValue caller hk hpassed
    rw [← hvalue] at takes
    obtain ⟨closed, -⟩ | ⟨-, var, x, m, hm, rfl⟩ := cases
    · cases takes.symm.trans closed
    · rw [hcalled] at hm
      exact read.setInCaller hv₀ node hm

theorem processPrms_sets (hv₀ : v₀ < m₀.fresh) (node : ∀ l ∈ m₀.links, l.arc ≠ v₀)
    (hk : k.callerVarValue = v₀) (hout : p.outBinding ≠ v₀) (hcalled : p.calledVarValue = v₀)
    (prms : List (Option PrmArc × Option Addr)) :
    ∀ (index : Nat) (t : Transacted) (error : Option ScpError), Taking v₀ m₀ e t →
      CallerEnv v₀ m₀ e → takesInput hash texts opened k e prms = true →
      k.processPrms hash texts opened p index prms t = some (error, t') →
      ∃ l, SetInCaller v₀ m₀ l t' := by
  induction prms with
  | nil => exact fun index t error _ _ takes _ => absurd takes Bool.false_ne_true
  | cons prm prms ih =>
    intro index t error taking caller takes h
    obtain ⟨called, passedPrm⟩ := prm
    cases called with
    | none => cases h
    | some called =>
      cases passedPrm with
      | none => exact ih _ t error taking caller takes h
      | some passedPrm =>
        obtain ⟨⟨error₁, t₁⟩, hturn, h⟩ := Option.bind_eq_some_iff.mp h
        rw [takesInput] at takes
        cases hfits : outputFits texts k called passedPrm with
        | false =>
          rw [hfits] at takes
          cases takes
        | true =>
          simp only [hfits, Bool.not_true, Bool.false_eq_true, if_false] at takes
          cases hinput : called.input with
          | true =>
            rw [hinput, if_pos rfl] at takes
            obtain ⟨l, set⟩ := taking.turn_sets caller hv₀ node hk hout hcalled hfits hinput takes
              hturn
            cases error₁ with
            | some error₁ =>
              cases h
              exact ⟨l, set⟩
            | none => exact ⟨l, set.grows (Grows.processPrms prms _ t₁ error h)⟩
          | false =>
            obtain ⟨herror, turned⟩ :=
              taking.turn caller hv₀ hk hout (.inr (.inr (.inl hinput))) hturn
            have same : turnOf hash texts opened k e called passedPrm = (true, e) := by
              rw [turnOf, hfits, hinput]
              rfl
            rw [same] at herror turned
            rw [Option.isNone_iff_eq_none] at herror
            subst herror
            rw [hinput] at takes
            exact ih _ t₁ error turned caller takes h

end Taking

end ScCore.Scp
