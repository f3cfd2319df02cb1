import ScCore.Scp.Contexts
import ScCore.Scp.VariableStore
import ScCore.Lib.Brackets

/-!
# Calls and returns nest

The earlier contexts of a process are a stack of frames. What happens between a call
and its return leaves the frames alone, but for values that die, so that the return
finds the context of the call again.
-/

namespace ScCore.Scp

variable {hash : Addr → Nat} {programs : Programs} {m m' : ProcessMemory}

/-! ## Returning values -/

namespace VarEnv

variable {e e' : VarEnv} {x : Addr}

def valueOf (hash : Addr → Nat) (e : VarEnv) (x : Addr) : Option Addr :=
  (e.getVarValue hash x).1.map (·.value)

def eraseAll (e : VarEnv) (gone : List Addr) : VarEnv := gone.foldl VarEnv.erase e

theorem replaces_put (e : VarEnv) (x : Addr) (entry : CacheEntry) :
    (e.put hash x entry).replaces.toNat ≤ e.replaces.toNat + 1 := by
  simp only [put]
  split
  · rw [BitVec.toNat_add]
    exact Nat.mod_le _ _
  · exact Nat.le_succ _

variable (hash) in
theorem getValue_grows (e : VarEnv) (x : Addr) :
    (e.getValue hash x).2.vars = e.vars ∧
      (e.getValue hash x).2.replaces.toNat ≤ e.replaces.toNat + 1 := by
  rw [getValue]
  split
  · exact ⟨rfl, Nat.le_succ _⟩
  · split
    · exact ⟨rfl, Nat.le_succ _⟩
    · split
      · exact ⟨rfl, Nat.le_succ _⟩
      · exact ⟨rfl, e.replaces_put x _⟩

theorem returnValue_grows {value : Option Addr} (h : e.returnValue hash x value = some e') :
    e'.vars = e.vars ∧ e'.replaces.toNat ≤ e.replaces.toNat + 1 := by
  cases value with
  | none =>
    cases h
    obtain ⟨vars, replaces⟩ := e.getValue_grows hash x
    rw [clearVariable]
    cases hget : e.getValue hash x with
    | mk r e₁ =>
      rw [hget] at vars replaces
      cases r with
      | none => exact ⟨vars, replaces⟩
      | some entry => exact ⟨vars, replaces⟩
  | some value =>
    have hlookup : (e.addVariable hash x value).cache.lookup hash x = some _ :=
      DirectMapped.lookup_put_self
    simp only [returnValue, getValue, hlookup] at h
    cases h
    exact ⟨rfl, replaces_put _ _ _⟩

end VarEnv

def VarEnv.Room (e : VarEnv) (n : Nat) : Prop := e.replaces.toNat + n < 2 ^ 32

namespace Synced

variable {e : VarEnv} {s : Values} {x : Addr}

theorem search_eq (sync : Sync hash e s) (hvar : e.vars x = true) :
    (e.search x).map (·.value) = s x := by
  cases hsearch : e.search x with
  | none =>
    rw [VarEnv.search, Option.map_eq_none_iff, List.find?_eq_none] at hsearch
    rw [sync.none_of_forall hvar fun t ht heq => hsearch t ht (decide_eq_true heq)]
    rfl
  | some entry =>
    obtain ⟨t, hfind, rfl⟩ := Option.map_eq_some_iff.mp hsearch
    obtain rfl : t.var = x := by simpa using List.find?_some hfind
    rw [sync.value_of_mem (List.mem_of_find?_eq_some hfind) hvar]
    rfl

theorem free (sync : Sync hash e s) (hvar : e.vars x = true) (h : s x = none) :
    ∀ t ∈ e.tuples, t.var ≠ x := by
  rintro t ht rfl
  rw [sync.value_of_mem ht hvar] at h
  cases h

theorem eraseAll (sync : Sync hash e s) (gone : List Addr) :
    Sync hash (e.eraseAll gone) (gone.foldl Values.forget s) := by
  induction gone generalizing e s with
  | nil => exact sync
  | cons a gone ih => exact ih (sync.erase a)

end Synced

def outputs (callee : Values) (conns : List (Addr × Addr)) (caller : Values) : Values :=
  conns.foldl (fun s conn => s.assign conn.1 (callee conn.2)) caller

variable {callee caller : Values} {conns : List (Addr × Addr)}

theorem outputs_of_notMem {x : Addr} (h : ∀ conn ∈ conns, conn.1 ≠ x) :
    outputs callee conns caller x = caller x := by
  induction conns generalizing caller with
  | nil => rfl
  | cons conn conns ih =>
    refine (ih fun conn' hmem => h conn' (List.mem_cons_of_mem _ hmem)).trans ?_
    exact Function.update_of_ne (h conn List.mem_cons_self).symm _ _

theorem outputs_of_mem (distinct : (conns.map Prod.fst).Nodup) {conn : Addr × Addr}
    (h : conn ∈ conns) : outputs callee conns caller conn.1 = callee conn.2 := by
  induction conns generalizing caller with
  | nil => cases h
  | cons conn' conns ih =>
    rw [List.map_cons, List.nodup_cons] at distinct
    rcases List.mem_cons.mp h with rfl | h
    · have kept : outputs callee conns (caller.assign conn.1 (callee conn.2)) conn.1 =
          caller.assign conn.1 (callee conn.2) conn.1 := by
        apply outputs_of_notMem
        intro other hmem heq
        exact distinct.1 (heq ▸ List.mem_map_of_mem hmem)
      exact kept.trans (Function.update_self _ _ _)
    · exact ih distinct.2 h

/-- When the values of a callee can be returned: the variables that get them are
different variables of the caller, those that get one have none yet, and the counters
do not come back to zero. -/
structure OutputsKept (callee caller : VarEnv) (conns : List (Addr × Addr)) : Prop where
  distinct : (conns.map Prod.fst).Nodup
  vars : ∀ conn ∈ conns, caller.vars conn.1 = true ∧ callee.vars conn.2 = true
  free : ∀ conn ∈ conns, callee.search conn.2 ≠ none → caller.search conn.1 = none
  calleeRoom : callee.Room conns.length
  callerRoom : caller.Room conns.length

theorem VarEnv.Room.succ_ne_zero {e : VarEnv} {n : Nat} (room : e.Room (n + 1)) :
    e.replaces + 1 ≠ 0 := by
  intro h
  rw [VarEnv.Room] at room
  bv_omega

theorem VarEnv.Room.of_le {e e' : VarEnv} {n : Nat} (room : e.Room (n + 1))
    (h : e'.replaces.toNat ≤ e.replaces.toNat + 1) : e'.Room n := by
  rw [VarEnv.Room] at *
  omega

namespace ProcessMemory

theorem setEnv_setEnv {v w : Addr} (hne : v ≠ w) (m : ProcessMemory) (a b c d : VarEnv) :
    (((m.setEnv v a).setEnv w b).setEnv v c).setEnv w d = (m.setEnv v c).setEnv w d := by
  simp only [setEnv, ProcessMemory.mk.injEq, true_and, and_true]
  rw [Function.update_comm hne, Function.update_idem, Function.update_comm hne.symm,
    Function.update_idem]

theorem returnValues_sync {v w : Addr} (hne : v ≠ w) {callee caller : VarEnv} {s t : Values}
    {conns : List (Addr × Addr)} (hcallee : m.envs v = some callee)
    (hcaller : m.envs w = some caller) (calleeSync : Sync hash callee s)
    (callerSync : Sync hash caller t) (distinct : (conns.map Prod.fst).Nodup)
    (vars : ∀ conn ∈ conns, caller.vars conn.1 = true)
    (calleeVars : ∀ conn ∈ conns, callee.vars conn.2 = true)
    (free : ∀ conn ∈ conns, s conn.2 ≠ none → t conn.1 = none)
    (calleeRoom : callee.Room conns.length) (callerRoom : caller.Room conns.length) :
    ∃ callee' caller', m.returnValues hash v w conns = some ((m.setEnv v callee').setEnv w caller')
    ∧
      Sync hash caller' (outputs s conns t) ∧ caller'.vars = caller.vars := by
  induction conns generalizing m callee caller t with
  | nil =>
    refine ⟨callee, caller, ?_, callerSync, rfl⟩
    have same : (m.setEnv v callee).setEnv w caller = m := by
      simp only [setEnv]
      rw [← hcallee, Function.update_eq_self, ← hcaller, Function.update_eq_self]
    rw [same]
    rfl
  | cons conn conns ih =>
    rw [List.map_cons, List.nodup_cons] at distinct
    have found : ((callee.getValue hash conn.2).1.map (·.value)) = s conn.2 := by
      have h := calleeSync.getVarValue_eq (calleeVars conn List.mem_cons_self)
      rwa [VarEnv.getVarValue, if_pos (calleeVars conn List.mem_cons_self)] at h
    obtain ⟨calleeSync', -, -⟩ := calleeSync.getValue conn.2
    obtain ⟨calleeVars', calleeGrows⟩ := callee.getValue_grows hash conn.2
    obtain ⟨caller', hreturn, callerSync'⟩ : ∃ caller',
        caller.returnValue hash conn.1 (s conn.2) = some caller' ∧
          Sync hash caller' (t.assign conn.1 (s conn.2)) := by
      have room := callerRoom.succ_ne_zero
      cases hvalue : s conn.2 with
      | none => exact ⟨_, rfl, callerSync.clearVariable room conn.1⟩
      | some value =>
        have hfree := callerSync.free (vars conn List.mem_cons_self)
          (free conn List.mem_cons_self (by rw [hvalue]; simp))
        have hlookup : (caller.addVariable hash conn.1 value).cache.lookup hash conn.1 = some _ :=
          DirectMapped.lookup_put_self
        refine ⟨caller.addVariable hash conn.1 value, ?_,
          callerSync.addVariable room (fun _ => hfree) value⟩
        simp only [VarEnv.returnValue, VarEnv.getValue, hlookup]
    obtain ⟨callerVars', callerGrows⟩ := VarEnv.returnValue_grows hreturn
    have hcallee' : ((m.setEnv v (callee.getValue hash conn.2).2).setEnv w caller').envs v =
        some (callee.getValue hash conn.2).2 := by
      simp [setEnv, Function.update_of_ne hne]
    have hcaller' : ((m.setEnv v (callee.getValue hash conn.2).2).setEnv w caller').envs w =
        some caller' := by
      simp [setEnv]
    obtain ⟨callee₂, caller₂, hrest, hsync, hvars⟩ := ih hcallee' hcaller'
      (calleeSync' calleeRoom.succ_ne_zero) callerSync' distinct.2
      (fun conn' hmem => by rw [callerVars']; exact vars conn' (List.mem_cons_of_mem _ hmem))
      (fun conn' hmem => by
        rw [calleeVars']
        exact calleeVars conn' (List.mem_cons_of_mem _ hmem))
      (fun conn' hmem hvalue => by
        have hother : conn'.1 ≠ conn.1 := fun heq =>
          distinct.1 (heq ▸ List.mem_map_of_mem hmem)
        rw [Values.assign, Function.update_of_ne hother]
        exact free conn' (List.mem_cons_of_mem _ hmem) hvalue)
      (calleeRoom.of_le calleeGrows) (callerRoom.of_le callerGrows)
    refine ⟨callee₂, caller₂, ?_, hsync, hvars.trans callerVars'⟩
    rw [setEnv_setEnv hne] at hrest
    rw [← hrest, returnValues]
    have hprev : (m.setEnv v (callee.getValue hash conn.2).2).envs w = some caller := by
      rw [setEnv]
      exact (Function.update_of_ne hne.symm _ _).trans hcaller
    simp only [hcallee, Option.bind_eq_bind, Option.bind_some, hprev, found, hreturn]

end ProcessMemory

/-! ## Frames -/

structure Frame where
  list : Addr
  program : Addr
  varValue : Addr
  active : Addr
  binding : Addr
  deriving DecidableEq, Repr

def Frame.context (f : Frame) : Context := ⟨f.program, f.varValue, f.active, some f.binding⟩

inductive Stacked (m : ProcessMemory) : Option Addr → List Frame → Prop where
  | nil : Stacked m none []
  | cons {f : Frame} {fs : List Frame} {ctx : Addr} {next : Option Addr} :
      m.lists f.list = some ⟨ctx, next⟩ → m.contexts ctx = some f.context →
      Stacked m next fs → Stacked m (some f.list) (f :: fs)

namespace Stacked

variable {top : Option Addr} {fs : List Frame}

theorem top_eq (h : Stacked m top fs) : top = fs.head?.map (·.list) := by
  cases h with
  | nil => rfl
  | cons _ _ _ => rfl

theorem uncons {f : Frame} (h : Stacked m top (f :: fs)) :
    ∃ ctx next, top = some f.list ∧ m.lists f.list = some ⟨ctx, next⟩ ∧
      m.contexts ctx = some f.context ∧ Stacked m next fs := by
  cases h with
  | cons hlist hctx hrest => exact ⟨_, _, rfl, hlist, hctx, hrest⟩

theorem unique {fs' : List Frame} (h : Stacked m top fs) (h' : Stacked m top fs') : fs = fs' := by
  induction h generalizing fs' with
  | nil =>
    cases fs' with
    | nil => rfl
    | cons f fs' =>
      obtain ⟨_, _, htop, _⟩ := h'.uncons
      cases htop
  | @cons f fs ctx next hlist hctx _ ih =>
    cases fs' with
    | nil => exact absurd h'.top_eq (by simp)
    | cons f' fs' =>
      obtain ⟨ctx', next', htop, hlist', hctx', hrest⟩ := h'.uncons
      have hplace : f.list = f'.list := Option.some.inj htop
      rw [← hplace] at hlist'
      cases hlist.symm.trans hlist'
      have hcontext : f.context = f'.context := Option.some.inj (hctx.symm.trans hctx')
      obtain ⟨list, program, varValue, active, binding⟩ := f
      obtain ⟨list', program', varValue', active', binding'⟩ := f'
      simp only [Frame.context, Context.mk.injEq, Option.some.injEq] at hcontext hplace
      obtain ⟨rfl, rfl, rfl, rfl⟩ := hcontext
      subst hplace
      rw [ih hrest]

theorem mono (h : Stacked m top fs) (lists : ∀ f ∈ fs, m'.lists f.list = m.lists f.list)
    (contexts : ∀ a c, m.contexts a = some c → m'.contexts a = some c) : Stacked m' top fs := by
  induction h with
  | nil => exact nil
  | @cons f fs ctx next hlist hctx _ ih =>
    apply cons _ (contexts _ _ hctx) (ih fun g hg => lists g (List.mem_cons_of_mem _ hg))
    exact (lists f List.mem_cons_self).trans hlist

theorem lists_ne_none (h : Stacked m top fs) : ∀ f ∈ fs, m.lists f.list ≠ none := by
  induction h with
  | nil => exact fun _ hmem => absurd hmem List.not_mem_nil
  | cons hlist _ _ ih =>
    intro g hg
    rcases List.mem_cons.mp hg with rfl | hg
    · rw [hlist]
      simp
    · exact ih g hg

end Stacked

/-- Nothing is at the addresses that have not been handed out. -/
structure ProcessMemory.Unused (m : ProcessMemory) (a : Addr) : Prop where
  lists : m.lists a = none
  contexts : m.contexts a = none
  envs : m.envs a = none
  bindings : m.bindings a = none

def ProcessMemory.inUse (m : ProcessMemory) (fs : List Frame) : List Addr :=
  m.process.outputPrmBinding.toList ++ fs.map (·.binding)

structure Calls (hash : Addr → Nat) (m : ProcessMemory) (fs : List Frame) : Prop where
  stack : Stacked m m.processStack fs
  lists : (fs.map (·.list)).Nodup
  envs : (m.process.varValue :: fs.map (·.varValue)).Nodup
  bindings : (m.inUse fs).Nodup
  synced : ∀ v ∈ m.process.varValue :: fs.map (·.varValue),
    ∃ e s, m.envs v = some e ∧ Sync hash e s
  bound : ∀ b ∈ m.inUse fs, m.bindings b ≠ none
  called : fs ≠ [] → m.process.outputPrmBinding ≠ none
  unused : ∀ a, m.fresh ≤ a → m.Unused a

structure Level (fs : List Frame) (gone : List Addr) (m m' : ProcessMemory) : Prop where
  program : m'.process.program = m.process.program
  varValue : m'.process.varValue = m.process.varValue
  binding : ∀ b, m.process.outputPrmBinding = some b → m'.process.outputPrmBinding = some b
  bindings : ∀ f ∈ fs, m'.bindings f.binding = m.bindings f.binding
  envs : ∀ f ∈ fs, ∀ e, m.envs f.varValue = some e → m'.envs f.varValue = some (e.eraseAll gone)

/-! ## Calls -/

/-- What a call does: a frame for the context that was current, and nothing that was
there is lost. -/
structure Pushed (m : ProcessMemory) (f : Frame) (m' : ProcessMemory) : Prop where
  program : f.program = m.process.program
  varValue : f.varValue = m.process.varValue
  active : f.active = m.process.active
  binding : ∀ b, m.process.outputPrmBinding = some b → f.binding = b
  created : m.process.outputPrmBinding = none →
    m.bindings f.binding = none ∧ m'.bindings f.binding = some []
  envs : ∀ v e, m.envs v = some e → m'.envs v = some e
  bindings : ∀ b conns, m.bindings b = some conns → m'.bindings b = some conns

/-- What `ensureBinding` leaves behind, after `create_el` for the context. -/
structure Ensured (m : ProcessMemory) (binding : Addr) (m' : ProcessMemory) : Prop where
  lists : m'.lists = m.lists
  contexts : m'.contexts = m.contexts
  envs : m'.envs = m.envs
  grown : m.fresh + 1 ≤ m'.fresh
  same : ∀ b, m.process.outputPrmBinding = some b → binding = b
  created : m.process.outputPrmBinding = none →
    m.fresh ≤ binding ∧ m'.bindings binding = some []
  bindings : ∀ b conns, m.bindings b = some conns → m'.bindings b = some conns
  unused : ∀ a, m'.fresh ≤ a → m'.bindings a = none

theorem Ensured.intro (unused : ∀ a, m.fresh ≤ a → m.Unused a) :
    Ensured m (m.fetchContext.ensureBinding { m with fresh := m.fresh + 1 }).1
      (m.fetchContext.ensureBinding { m with fresh := m.fresh + 1 }).2 := by
  cases hbinding : m.process.outputPrmBinding with
  | some b =>
    simp only [ContextStack.ensureBinding, ProcessMemory.fetchContext, hbinding]
    refine ⟨rfl, rfl, rfl, Nat.le_refl _, ?_, ?_, fun _ _ h => h, ?_⟩
    · intro b' h
      exact Option.some.inj (hbinding.symm.trans h)
    · intro h
      exact absurd (hbinding.symm.trans h) (by simp)
    · intro a ha
      exact (unused a (Nat.le_of_succ_le ha)).bindings
  | none =>
    simp only [ContextStack.ensureBinding, ProcessMemory.fetchContext, hbinding,
      ProcessMemory.createBinding]
    refine ⟨rfl, rfl, rfl, Nat.le_succ _, ?_, ?_, ?_, ?_⟩
    · intro b h
      exact absurd (hbinding.symm.trans h) (by simp)
    · intro _
      exact ⟨Nat.le_succ _, Function.update_self _ _ _⟩
    · intro b conns h
      refine (Function.update_of_ne ?_ _ _).trans h
      rintro rfl
      rw [(unused _ (Nat.le_succ _)).bindings] at h
      cases h
    · intro a ha
      refine (Function.update_of_ne (Nat.ne_of_gt ha) _ _).trans ?_
      exact (unused a (Nat.le_of_succ_le (Nat.le_of_succ_le ha))).bindings

theorem ProcessMemory.call_true {prg : Addr} (h : m.call programs prg = (true, m')) :
    ∃ initOp binding m₁, m.fetchContext.ensureBinding { m with fresh := m.fresh + 1 } =
    (binding, m₁) ∧
      m' = {
        process := ⟨prg, m₁.fresh + 1, initOp, some (m₁.fresh + 2)⟩
        processStack := some m₁.fresh
        lists := Function.update m₁.lists m₁.fresh (some ⟨m.fresh, m.processStack⟩)
        contexts := Function.update m₁.contexts m.fresh
          (some ⟨m.process.program, m.process.varValue, m.process.active, some binding⟩)
        envs := Function.update m₁.envs (m₁.fresh + 1) (some (VarEnv.new (programs.vars prg)))
        bindings := Function.update m₁.bindings (m₁.fresh + 2) (some [])
        fresh := m₁.fresh + 3 } := by
  cases hensure : m.fetchContext.ensureBinding { m with fresh := m.fresh + 1 } with
  | mk binding m₁ =>
    cases hinit : programs.initOp prg with
    | none =>
      simp only [call, ContextStack.pushAndSwitch, ContextStack.createContext, hensure, hinit] at h
      exact absurd (congrArg Prod.fst h) Bool.false_ne_true
    | some initOp =>
      simp only [call, ContextStack.pushAndSwitch, ContextStack.createContext, hensure, hinit] at h
      exact ⟨initOp, binding, m₁, rfl, (congrArg Prod.snd h).symm⟩

namespace Calls

variable {fs : List Frame} {f : Frame}

theorem lt_fresh (calls : Calls hash m fs) {a : Addr} (h : ¬m.Unused a) : a < m.fresh := by
  apply Nat.lt_of_not_le
  intro hle
  exact h (calls.unused a hle)

theorem call (calls : Calls hash m fs) {prg : Addr} (h : m.call programs prg = (true, m')) :
    ∃ f, Pushed m f m' ∧ Calls hash m' (f :: fs) := by
  obtain ⟨initOp, binding, m₁, hensure, rfl⟩ := ProcessMemory.call_true h
  have ensured : Ensured m binding m₁ := by
    have ensured := Ensured.intro calls.unused
    rwa [hensure] at ensured
  have bound_lt : ∀ b, m.bindings b ≠ none → b < m.fresh := fun b hb =>
    calls.lt_fresh fun h => hb h.bindings
  have list_lt : ∀ g ∈ fs, g.list < m.fresh := fun g hg =>
    calls.lt_fresh fun h => calls.stack.lists_ne_none g hg h.lists
  have env_lt : ∀ v ∈ m.process.varValue :: fs.map (·.varValue), v < m.fresh := fun v hv =>
    calls.lt_fresh fun h => by
      obtain ⟨e, _, he, _⟩ := calls.synced v hv
      rw [h.envs] at he
      cases he
  have lt₁ : m.fresh < m₁.fresh := ensured.grown
  have lt₂ : m.fresh < m₁.fresh + 1 := Nat.lt_succ_of_lt lt₁
  have lt₃ : m.fresh < m₁.fresh + 2 := Nat.lt_succ_of_lt lt₂
  have old_bindings : ∀ b, m.bindings b ≠ none → m₁.bindings b ≠ none := fun b hb => by
    obtain ⟨conns, hconns⟩ := Option.ne_none_iff_exists'.mp hb
    rw [ensured.bindings b conns hconns]
    simp
  have binding_bound : m₁.bindings binding ≠ none := by
    cases hb : m.process.outputPrmBinding with
    | some b =>
      rw [ensured.same b hb]
      exact old_bindings b (calls.bound b (by simp [ProcessMemory.inUse, hb]))
    | none =>
      rw [(ensured.created hb).2]
      simp
  have binding_new : binding ∉ fs.map (·.binding) := by
    intro hmem
    cases hb : m.process.outputPrmBinding with
    | some b =>
      have hnodup := calls.bindings
      rw [ProcessMemory.inUse, hb] at hnodup
      exact (List.nodup_cons.mp hnodup).1 (ensured.same b hb ▸ hmem)
    | none =>
      have hlt := bound_lt binding (calls.bound binding (List.mem_append_right _ hmem))
      exact absurd (ensured.created hb).1 (Nat.not_le_of_gt hlt)
  have binding_lt : ∀ b, m₁.bindings b ≠ none → b < m₁.fresh := fun b hb => by
    apply Nat.lt_of_not_le
    intro hle
    exact hb (ensured.unused b hle)
  have frames_bound : ∀ b ∈ fs.map (·.binding), m₁.bindings b ≠ none := fun b hb =>
    old_bindings b (calls.bound b (List.mem_append_right _ hb))
  refine ⟨⟨m₁.fresh, m.process.program, m.process.varValue, m.process.active, binding⟩, ?_, ?_⟩
  · constructor
    · rfl
    · rfl
    · rfl
    · exact ensured.same
    · intro hb
      refine ⟨(calls.unused _ (ensured.created hb).1).bindings, ?_⟩
      refine (Function.update_of_ne ?_ _ _).trans (ensured.created hb).2
      exact Nat.ne_of_lt (Nat.lt_add_right 2 (binding_lt _ binding_bound))
    · intro v e he
      refine (Function.update_of_ne ?_ _ _).trans (ensured.envs ▸ he)
      rintro rfl
      rw [(calls.unused _ lt₂.le).envs] at he
      cases he
    · intro b conns hconns
      refine (Function.update_of_ne ?_ _ _).trans (ensured.bindings b conns hconns)
      rintro rfl
      rw [(calls.unused _ lt₃.le).bindings] at hconns
      cases hconns
  · constructor
    · refine Stacked.cons (f := ⟨m₁.fresh, _, _, _, _⟩) (Function.update_self _ _ _)
        (Function.update_self _ _ _) ?_
      · apply calls.stack.mono
        · intro g hg
          refine (Function.update_of_ne ?_ _ _).trans (congrFun ensured.lists _)
          exact ((list_lt g hg).trans lt₁).ne
        · intro a c ha
          refine (Function.update_of_ne ?_ _ _).trans ((congrFun ensured.contexts _).trans ha)
          rintro rfl
          rw [(calls.unused _ (Nat.le_refl _)).contexts] at ha
          cases ha
    · rw [List.map_cons, List.nodup_cons]
      refine ⟨fun hmem => ?_, calls.lists⟩
      obtain ⟨g, hg, heq⟩ := List.mem_map.mp hmem
      exact absurd heq ((list_lt g hg).trans lt₁).ne
    · rw [List.map_cons, List.nodup_cons]
      refine ⟨fun hmem => ?_, calls.envs⟩
      exact lt_irrefl _ ((env_lt _ hmem).trans lt₂)
    · have fresh_new : m₁.fresh + 2 ∉ binding :: fs.map (·.binding) := by
        intro hmem
        have hbound : m₁.bindings (m₁.fresh + 2) ≠ none := by
          rcases List.mem_cons.mp hmem with heq | hmem
          · exact heq ▸ binding_bound
          · exact frames_bound _ hmem
        exact Nat.not_lt.mpr (Nat.le_add_right _ 2) (binding_lt _ hbound)
      exact List.nodup_cons.mpr ⟨fresh_new, List.nodup_cons.mpr
        ⟨binding_new, (List.nodup_append.mp calls.bindings).2.1⟩⟩
    · intro v hv
      rcases List.mem_cons.mp hv with rfl | hv
      · exact ⟨_, _, Function.update_self _ _ _, Synced.new hash _⟩
      · obtain ⟨e, s, he, hsync⟩ := calls.synced v hv
        refine ⟨e, s, (Function.update_of_ne ?_ _ _).trans (ensured.envs ▸ he), hsync⟩
        exact ((env_lt v hv).trans lt₂).ne
    · intro b hb
      rcases List.mem_cons.mp hb with rfl | hb
      · simp
      · have hbound : m₁.bindings b ≠ none := by
          rcases List.mem_cons.mp hb with rfl | hb
          · exact binding_bound
          · exact frames_bound b hb
        have hlt := binding_lt b hbound
        change Function.update m₁.bindings (m₁.fresh + 2) (some []) b ≠ none
        rwa [Function.update_of_ne (Nat.ne_of_lt (Nat.lt_add_right 2 hlt))]
    · exact fun _ => by simp
    · intro a ha
      have ha₂ : m₁.fresh + 2 < a := ha
      have ha₁ : m₁.fresh + 1 < a := Nat.lt_of_succ_lt ha₂
      have ha₀ : m₁.fresh < a := Nat.lt_of_succ_lt ha₁
      have old := calls.unused a (lt₁.trans ha₀).le
      constructor
      · exact (Function.update_of_ne ha₀.ne' _ _).trans ((congrFun ensured.lists a).trans old.lists)
      · exact (Function.update_of_ne (lt₁.trans ha₀).ne' _ _).trans
          ((congrFun ensured.contexts a).trans old.contexts)
      · exact (Function.update_of_ne ha₁.ne' _ _).trans ((congrFun ensured.envs a).trans old.envs)
      · exact (Function.update_of_ne ha₂.ne' _ _).trans (ensured.unused a ha₀.le)

end Calls

/-! ## Operations and returns -/

def ProcessOp.Kept (m : ProcessMemory) : ProcessOp → Prop
  | .var op => (∀ a, op ≠ .erase a) ∧ ∀ e, m.envs m.process.varValue = some e → op.Kept e
  | _ => True

def ProcessMemory.PopKept (m : ProcessMemory) : Prop :=
  ∀ cell context callee caller b conns, m.processStack.bind m.lists = some cell →
    m.contexts cell.value = some context → m.envs m.process.varValue = some callee →
    m.envs context.varValue = some caller → m.process.outputPrmBinding = some b →
    m.bindings b = some conns → OutputsKept callee caller conns

structure Popped (hash : Addr → Nat) (m : ProcessMemory) (f : Frame) (m' : ProcessMemory) :
    Prop where
  process : m'.process = f.context
  bindings : ∀ b, m.process.outputPrmBinding ≠ some b → m'.bindings b = m.bindings b
  envs : ∀ v, v ≠ m.process.varValue → v ≠ f.varValue → m'.envs v = m.envs v
  outputs : ∀ callee caller s t b conns, m.envs m.process.varValue = some callee →
    m.envs f.varValue = some caller → Sync hash callee s → Sync hash caller t →
    m.process.outputPrmBinding = some b → m.bindings b = some conns →
    OutputsKept callee caller conns ∧ ∃ caller', m'.envs f.varValue = some caller' ∧
      Sync hash caller' (outputs s conns t) ∧ caller'.vars = caller.vars

namespace Calls

variable {fs : List Frame} {f : Frame}

theorem varValue_ne (calls : Calls hash m fs) (hf : f ∈ fs) : f.varValue ≠ m.process.varValue := by
  intro heq
  exact (List.nodup_cons.mp calls.envs).1 (heq ▸ List.mem_map_of_mem hf)

theorem binding_ne (calls : Calls hash m fs) (hf : f ∈ fs) :
    m.process.outputPrmBinding ≠ some f.binding := by
  intro heq
  have hnodup := calls.bindings
  rw [ProcessMemory.inUse, heq] at hnodup
  exact (List.nodup_cons.mp hnodup).1 (List.mem_map_of_mem hf)

variable (m') in
theorem same (calls : Calls hash m fs) (varValue : m'.process.varValue = m.process.varValue)
    (binding : m'.process.outputPrmBinding = m.process.outputPrmBinding)
    (processStack : m'.processStack = m.processStack) (lists : m'.lists = m.lists)
    (contexts : m'.contexts = m.contexts) (fresh : m'.fresh = m.fresh)
    (synced : ∀ v ∈ m.process.varValue :: fs.map (·.varValue),
      ∃ e s, m'.envs v = some e ∧ Sync hash e s)
    (envs : ∀ a, m.envs a = none → m'.envs a = none)
    (bindings : ∀ a, m.bindings a = none ↔ m'.bindings a = none) : Calls hash m' fs where
  stack := by
    rw [processStack]
    exact calls.stack.mono (fun _ _ => by rw [lists]) fun _ _ h => by rw [contexts, h]
  lists := calls.lists
  envs := by
    rw [varValue]
    exact calls.envs
  bindings := by
    rw [ProcessMemory.inUse, binding]
    exact calls.bindings
  synced := by
    rw [varValue]
    exact synced
  bound := by
    rw [ProcessMemory.inUse, binding]
    intro b hb hnone
    exact calls.bound b hb ((bindings b).mpr hnone)
  called := by
    rw [binding]
    exact calls.called
  unused a ha := by
    rw [fresh] at ha
    obtain ⟨hlists, hcontexts, henvs, hbindings⟩ := calls.unused a ha
    exact ⟨by rw [lists, hlists], by rw [contexts, hcontexts], envs a henvs,
      (bindings a).mp hbindings⟩

theorem exec (calls : Calls hash m fs) {op : ProcessOp} (kept : op.Kept m)
    (h : op.exec hash m = some m') : Calls hash m' fs ∧ Level fs op.gone m m' := by
  cases op with
  | setNextOp op =>
    cases h
    refine ⟨calls.same _ rfl rfl rfl rfl rfl rfl calls.synced (fun _ h => h) fun _ => Iff.rfl, ?_⟩
    exact ⟨rfl, rfl, fun _ h => h, fun _ _ => rfl, fun _ _ _ h => h⟩
  | var op =>
    simp only [ProcessOp.exec, Option.bind_eq_bind, Option.bind_eq_some_iff] at h
    obtain ⟨e, he, e', hexec, h⟩ := h
    cases h
    obtain ⟨e₀, s, he₀, hsync⟩ := calls.synced _ List.mem_cons_self
    cases he.symm.trans he₀
    have others : ∀ f ∈ fs, (m.setEnv m.process.varValue e').envs f.varValue =
        m.envs f.varValue := fun f hf => Function.update_of_ne (calls.varValue_ne hf) _ _
    constructor
    · refine calls.same _ rfl rfl rfl rfl rfl rfl ?_ ?_ fun _ => Iff.rfl
      · intro v hv
        rcases List.mem_cons.mp hv with rfl | hmem
        · exact ⟨e', _, Function.update_self _ _ _, hsync.exec (kept.2 e he) hexec⟩
        · obtain ⟨f, hf, rfl⟩ := List.mem_map.mp hmem
          obtain ⟨e₁, s₁, he₁, hsync₁⟩ := calls.synced _ hv
          exact ⟨e₁, s₁, (others f hf).trans he₁, hsync₁⟩
      · intro a ha
        refine (Function.update_of_ne ?_ _ _).trans ha
        rintro rfl
        cases he.symm.trans ha
    · refine ⟨rfl, rfl, fun _ h => h, fun _ _ => rfl, ?_⟩
      intro f hf e₁ he₁
      exact (others f hf).trans he₁
  | bind callerVar prm =>
    simp only [ProcessOp.exec, Option.bind_eq_bind, Option.bind_eq_some_iff] at h
    obtain ⟨b, hb, conns, hconns, h⟩ := h
    cases h
    constructor
    · refine calls.same _ rfl rfl rfl rfl rfl rfl calls.synced (fun _ h => h) ?_
      intro a
      by_cases heq : a = b
      · subst heq
        simp [hconns]
      · simp [heq]
    · refine ⟨rfl, rfl, fun _ h => h, fun f hf => ?_, fun _ _ _ h => h⟩
      apply Function.update_of_ne
      rintro rfl
      exact calls.binding_ne hf hb
  | erase a =>
    cases h
    constructor
    · refine calls.same _ rfl rfl rfl rfl rfl rfl ?_ ?_ fun _ => Iff.rfl
      · intro v hv
        obtain ⟨e, s, he, hsync⟩ := calls.synced v hv
        exact ⟨e.erase a, _, by simp [he], hsync.erase a⟩
      · intro v hv
        simp [hv]
    · refine ⟨rfl, rfl, fun _ h => h, fun _ _ => rfl, ?_⟩
      intro f _ e he
      simp [he, ProcessOp.gone, VarEnv.eraseAll]

theorem processReturn (calls : Calls hash m (f :: fs)) (kept : m.PopKept) :
    ∃ m', m.processReturn hash = some m' ∧ Popped hash m f m' ∧ Calls hash m' fs := by
  obtain ⟨callee, s, hcallee, calleeSync⟩ := calls.synced _ List.mem_cons_self
  obtain ⟨caller, t, hcaller, callerSync⟩ := calls.synced f.varValue (by simp)
  obtain ⟨b, hb⟩ := Option.ne_none_iff_exists'.mp (calls.called (List.cons_ne_nil _ _))
  obtain ⟨conns, hconns⟩ := Option.ne_none_iff_exists'.mp
    (calls.bound b (by simp [ProcessMemory.inUse, hb]))
  obtain ⟨ctx, next, htop, hlist, hctx, hrest⟩ := calls.stack.uncons
  have hne : m.process.varValue ≠ f.varValue := (calls.varValue_ne List.mem_cons_self).symm
  have allowed := kept ⟨ctx, next⟩ f.context callee caller b conns
    (by rw [htop, Option.bind_some, hlist]) hctx hcallee hcaller hb hconns
  have returned : ∀ {s t}, Sync hash callee s → Sync hash caller t →
      ∃ callee' caller', m.returnValues hash m.process.varValue f.varValue conns =
        some ((m.setEnv m.process.varValue callee').setEnv f.varValue caller') ∧
      Sync hash caller' (outputs s conns t) ∧ caller'.vars = caller.vars := by
    intro s t calleeSync callerSync
    apply ProcessMemory.returnValues_sync hne hcallee hcaller calleeSync callerSync
      allowed.distinct (fun conn h => (allowed.vars conn h).1)
      (fun conn h => (allowed.vars conn h).2) _ allowed.calleeRoom allowed.callerRoom
    intro conn hmem hvalue
    have hfree := allowed.free conn hmem fun hsearch => hvalue (by
      rw [← calleeSync.search_eq (allowed.vars conn hmem).2, hsearch]
      rfl)
    rw [← callerSync.search_eq (allowed.vars conn hmem).1, hfree]
    rfl
  obtain ⟨callee', caller', hreturn, callerSync', -⟩ := returned calleeSync callerSync
  have heq : m.processReturn hash = some { m with
      process := f.context
      envs := Function.update (Function.update (Function.update m.envs m.process.varValue
        (some callee')) f.varValue (some caller')) m.process.varValue none
      bindings := Function.update m.bindings b none
      processStack := next
      lists := Function.update m.lists f.list none } := by
    have hbinding : f.context.outputPrmBinding = some f.binding := rfl
    have hvarValue : f.context.varValue = f.varValue := rfl
    simp only [ProcessMemory.processReturn, ContextStack.popAndSwitch,
      ProcessMemory.fetchContext, htop, hlist, hctx, hbinding, hb, hconns, hvarValue, hreturn,
      Option.bind_eq_bind, Option.bind_some, ProcessMemory.setEnv]
    rfl
  have callerKept : ∀ caller', Function.update (Function.update (Function.update m.envs
      m.process.varValue (some callee')) f.varValue (some caller')) m.process.varValue none
      f.varValue = some caller' := by
    intro caller'
    rw [Function.update_of_ne hne.symm, Function.update_self]
  have othersKept : ∀ v, v ≠ m.process.varValue → v ≠ f.varValue →
      Function.update (Function.update (Function.update m.envs m.process.varValue
        (some callee')) f.varValue (some caller')) m.process.varValue none v = m.envs v := by
    intro v hv hv'
    rw [Function.update_of_ne hv, Function.update_of_ne hv', Function.update_of_ne hv]
  refine ⟨_, heq, ?_, ?_⟩
  · refine ⟨rfl, fun b' hb' => ?_, othersKept, ?_⟩
    · apply Function.update_of_ne
      rintro rfl
      exact hb' hb
    · intro callee₁ caller₁ s₁ t₁ b₁ conns₁ hcallee₁ hcaller₁ hs ht hb₁ hconns₁
      cases hcallee.symm.trans hcallee₁
      cases hcaller.symm.trans hcaller₁
      cases hb.symm.trans hb₁
      cases hconns.symm.trans hconns₁
      obtain ⟨callee₂, caller₂, hreturn₂, hsync, hvars⟩ := returned hs ht
      obtain ⟨rfl⟩ : caller' = caller₂ := by
        have h := congrArg (fun m : ProcessMemory => m.envs f.varValue)
          (Option.some.inj (hreturn.symm.trans hreturn₂))
        simpa [ProcessMemory.setEnv] using h
      exact ⟨allowed, caller', callerKept caller', hsync, hvars⟩
  · have frame_ne : ∀ g ∈ fs, g.list ≠ f.list := fun g hg heq =>
      (List.nodup_cons.mp calls.lists).1 (List.mem_map.mpr ⟨g, hg, heq⟩)
    have hbindings := calls.bindings
    rw [ProcessMemory.inUse, hb] at hbindings
    obtain ⟨hnot, hbindings⟩ := List.nodup_cons.mp hbindings
    constructor
    · apply hrest.mono
      · exact fun g hg => Function.update_of_ne (frame_ne g hg) _ _
      · exact fun _ _ h => h
    · exact (List.nodup_cons.mp calls.lists).2
    · exact (List.nodup_cons.mp calls.envs).2
    · exact hbindings
    · intro v hv
      by_cases heq : v = f.varValue
      · subst heq
        exact ⟨caller', _, callerKept caller', callerSync'⟩
      · have hmem : v ∈ m.process.varValue :: (f :: fs).map (·.varValue) :=
          List.mem_cons_of_mem _ hv
        obtain ⟨e, s, he, hsync⟩ := calls.synced v hmem
        have hv' : v ≠ m.process.varValue := by
          rintro rfl
          exact (List.nodup_cons.mp calls.envs).1 hv
        exact ⟨e, s, (othersKept v hv' heq).trans he, hsync⟩
    · intro b' hb'
      have hmem : b' ∈ (f :: fs).map (·.binding) := hb'
      have hb'' : b' ≠ b := by
        rintro rfl
        exact hnot hmem
      have hold := calls.bound b' (List.mem_append_right _ hmem)
      change Function.update m.bindings b none b' ≠ none
      rwa [Function.update_of_ne hb'']
    · intro _
      simp [Frame.context]
    · intro a ha
      have old := calls.unused a ha
      constructor
      · by_cases heq : a = f.list
        · rw [heq]
          exact Function.update_self _ _ _
        · exact (Function.update_of_ne heq _ _).trans old.lists
      · exact old.contexts
      · have hv : a ≠ m.process.varValue := by
          rintro rfl
          cases hcallee.symm.trans old.envs
        have hv' : a ≠ f.varValue := by
          rintro rfl
          cases hcaller.symm.trans old.envs
        exact (othersKept a hv hv').trans old.envs
      · by_cases heq : a = b
        · rw [heq]
          exact Function.update_self _ _ _
        · exact (Function.update_of_ne heq _ _).trans old.bindings

end Calls

/-! ## Runs -/

namespace Level

variable {fs : List Frame} {f : Frame} {gone gone' : List Addr} {m₁ m₂ m₃ : ProcessMemory}

theorem refl (m : ProcessMemory) : Level fs [] m m :=
  ⟨rfl, rfl, fun _ h => h, fun _ _ => rfl, fun _ _ _ h => h⟩

theorem trans (h : Level fs gone m m₁) (h' : Level fs gone' m₁ m₂) :
    Level fs (gone ++ gone') m m₂ where
  program := h'.program.trans h.program
  varValue := h'.varValue.trans h.varValue
  binding b hb := h'.binding b (h.binding b hb)
  bindings f hf := (h'.bindings f hf).trans (h.bindings f hf)
  envs f hf e he := by
    rw [VarEnv.eraseAll, List.foldl_append]
    exact h'.envs f hf _ (h.envs f hf e he)

theorem nested (calls : Calls hash m fs) (pushed : Pushed m f m₁)
    (inner : Level (f :: fs) gone m₁ m₂) (calls₂ : Calls hash m₂ (f :: fs))
    (popped : Popped hash m₂ f m₃) : Level fs gone m m₃ where
  program := by rw [popped.process, ← pushed.program, Frame.context]
  varValue := by rw [popped.process, ← pushed.varValue, Frame.context]
  binding b hb := by rw [popped.process, ← pushed.binding b hb, Frame.context]
  bindings g hg := by
    obtain ⟨conns, hconns⟩ := Option.ne_none_iff_exists'.mp
      (calls.bound g.binding (List.mem_append_right _ (List.mem_map_of_mem hg)))
    have hmem : g ∈ f :: fs := List.mem_cons_of_mem _ hg
    rw [popped.bindings _ (calls₂.binding_ne hmem), inner.bindings g hmem, hconns]
    exact pushed.bindings _ _ hconns
  envs g hg e he := by
    have hmem : g ∈ f :: fs := List.mem_cons_of_mem _ hg
    have hne : g.varValue ≠ f.varValue := by
      rw [pushed.varValue]
      exact calls.varValue_ne hg
    rw [popped.envs _ (calls₂.varValue_ne hmem) hne]
    exact inner.envs g hmem e (pushed.envs _ _ he)

end Level

def Acts (hash : Addr → Nat) (m : ProcessMemory) (gone : List Addr) (m' : ProcessMemory) : Prop :=
  ∃ op : ProcessOp, op.Kept m ∧ op.exec hash m = some m' ∧ op.gone = gone

def Called (programs : Programs) (m m' : ProcessMemory) : Prop :=
  ∃ prg, m.call programs prg = (true, m')

def Returned (hash : Addr → Nat) (m m' : ProcessMemory) : Prop :=
  m.PopKept ∧ m.processReturn hash = some m'

/-- Runs in which every call returns. -/
abbrev Nested (hash : Addr → Nat) (programs : Programs) :
    ProcessMemory → List Addr → ProcessMemory → Prop :=
  Bracketed (Acts hash) (Called programs) (Returned hash)

theorem Nested.level {gone : List Addr} (nested : Nested hash programs m gone m') :
    ∀ fs, Calls hash m fs → Calls hash m' fs ∧ Level fs gone m m' := by
  apply nested.lift
  · exact fun m fs calls => ⟨calls, Level.refl m⟩
  · intro m m₁ m₂ k l h h' fs calls
    obtain ⟨calls₁, level⟩ := h fs calls
    obtain ⟨calls₂, level'⟩ := h' fs calls₁
    exact ⟨calls₂, level.trans level'⟩
  · rintro m m' _ ⟨op, kept, hexec, rfl⟩ fs calls
    exact calls.exec kept hexec
  · rintro m m₁ m₂ m₃ l ⟨prg, hcall⟩ inner ⟨kept, hreturn⟩ fs calls
    obtain ⟨f, pushed, calls₁⟩ := calls.call hcall
    obtain ⟨calls₂, level⟩ := inner (f :: fs) calls₁
    obtain ⟨m₃', hreturn', popped, calls₃⟩ := calls₂.processReturn kept
    cases hreturn.symm.trans hreturn'
    exact ⟨calls₃, Level.nested calls pushed level calls₂ popped⟩

inductive Reached (hash : Addr → Nat) (programs : Programs) : ProcessMemory → Prop where
  | start (prg initOp : Addr) (binding : Option (List (Addr × Addr))) :
      Reached hash programs (ProcessMemory.start programs prg initOp binding)
  | act {m m' : ProcessMemory} {gone : List Addr} : Reached hash programs m → Acts hash m gone m' →
      Reached hash programs m'
  | call {m m' : ProcessMemory} : Reached hash programs m → Called programs m m' →
      Reached hash programs m'
  | processReturn {m m' : ProcessMemory} : Reached hash programs m → Returned hash m m' →
      Reached hash programs m'

theorem Calls.start (prg initOp : Addr) (binding : Option (List (Addr × Addr))) :
    Calls hash (ProcessMemory.start programs prg initOp binding) [] := by
  constructor
  · exact Stacked.nil
  · exact List.nodup_nil
  · exact List.nodup_singleton _
  · cases binding <;> simp [ProcessMemory.inUse, ProcessMemory.start]
  · intro v hv
    rw [List.map_nil, List.mem_singleton] at hv
    subst hv
    exact ⟨VarEnv.new (programs.vars prg), _, rfl, Synced.new hash _⟩
  · cases binding <;> simp [ProcessMemory.inUse, ProcessMemory.start]
  · exact fun h => absurd rfl h
  · intro a ha
    change 2 ≤ a at ha
    have h1 : 1 < a := ha
    have h0 : a ≠ 0 := (Nat.zero_lt_of_lt h1).ne'
    constructor
    · rfl
    · rfl
    · simp [ProcessMemory.start, h0]
    · simp [ProcessMemory.start, h1.ne']

theorem Reached.calls (reached : Reached hash programs m) : ∃ fs, Calls hash m fs := by
  induction reached with
  | start prg initOp binding => exact ⟨[], Calls.start prg initOp binding⟩
  | act _ h ih =>
    obtain ⟨fs, calls⟩ := ih
    obtain ⟨op, kept, hexec, -⟩ := h
    exact ⟨fs, (calls.exec kept hexec).1⟩
  | call _ h ih =>
    obtain ⟨fs, calls⟩ := ih
    obtain ⟨prg, hcall⟩ := h
    obtain ⟨f, -, calls'⟩ := calls.call hcall
    exact ⟨f :: fs, calls'⟩
  | processReturn _ h ih =>
    obtain ⟨fs, calls⟩ := ih
    obtain ⟨kept, hreturn⟩ := h
    cases fs with
    | nil =>
      have htop := calls.stack.top_eq
      simp [ProcessMemory.processReturn, ContextStack.popAndSwitch, ProcessMemory.fetchContext,
        htop] at hreturn
    | cons f fs =>
      obtain ⟨m', hreturn', -, calls'⟩ := calls.processReturn kept
      cases hreturn.symm.trans hreturn'
      exact ⟨fs, calls'⟩

/-- What the return from `m₂` restores of the state `m` before the call, elements having
died in between. A process without a binding has an empty one then. -/
structure Restored (hash : Addr → Nat) (m : ProcessMemory) (gone : List Addr)
    (m₂ m₃ : ProcessMemory) : Prop where
  program : m₃.process.program = m.process.program
  active : m₃.process.active = m.process.active
  varValue : m₃.process.varValue = m.process.varValue
  binding : ∀ b, m.process.outputPrmBinding = some b →
    m₃.process.outputPrmBinding = some b ∧ m₃.bindings b = m.bindings b
  created : m.process.outputPrmBinding = none →
    ∃ b, m₃.process.outputPrmBinding = some b ∧ m.bindings b = none ∧ m₃.bindings b = some []
  processStack : m₃.processStack = m.processStack
  below : ∀ fs, Stacked m m.processStack fs → Stacked m₃ m₃.processStack fs ∧
    ∀ f ∈ fs, m₃.bindings f.binding = m.bindings f.binding ∧
      ∀ e, m.envs f.varValue = some e → m₃.envs f.varValue = some (e.eraseAll gone)
  outputs : ∃ caller callee caller' b conns, m.envs m.process.varValue = some caller ∧
    m₂.envs m₂.process.varValue = some callee ∧ m₃.envs m₃.process.varValue = some caller' ∧
    m₂.process.outputPrmBinding = some b ∧ m₂.bindings b = some conns ∧
    (∀ conn ∈ conns, caller'.valueOf hash conn.1 = callee.valueOf hash conn.2) ∧
    ∀ x, caller'.vars x = true → (∀ conn ∈ conns, conn.1 ≠ x) →
      caller'.valueOf hash x = (caller.eraseAll gone).valueOf hash x

theorem Calls.restored {fs : List Frame} {f : Frame} {gone : List Addr}
    {m₁ m₂ m₃ : ProcessMemory} (calls : Calls hash m fs) (pushed : Pushed m f m₁)
    (inner : Level (f :: fs) gone m₁ m₂) (calls₂ : Calls hash m₂ (f :: fs))
    (popped : Popped hash m₂ f m₃) (calls₃ : Calls hash m₃ fs) : Restored hash m gone m₂ m₃ := by
  have level := Level.nested calls pushed inner calls₂ popped
  have hmem : f ∈ f :: fs := List.mem_cons_self
  have frameBinding : m₃.bindings f.binding = m₁.bindings f.binding := by
    rw [popped.bindings _ (calls₂.binding_ne hmem), inner.bindings f hmem]
  constructor
  · exact level.program
  · rw [popped.process, ← pushed.active, Frame.context]
  · exact level.varValue
  · intro b hb
    refine ⟨level.binding b hb, ?_⟩
    have hbound := calls.bound b (by simp [ProcessMemory.inUse, hb])
    obtain ⟨conns, hconns⟩ := Option.ne_none_iff_exists'.mp hbound
    rw [hconns, ← pushed.bindings b conns hconns, ← pushed.binding b hb, frameBinding]
  · intro hnone
    obtain ⟨hold, hempty⟩ := pushed.created hnone
    refine ⟨f.binding, ?_, hold, frameBinding.trans hempty⟩
    rw [popped.process, Frame.context]
  · rw [calls₃.stack.top_eq, calls.stack.top_eq]
  · intro fs' hfs'
    rw [hfs'.unique calls.stack]
    exact ⟨calls₃.stack, fun g hg => ⟨level.bindings g hg, level.envs g hg⟩⟩
  · obtain ⟨caller, t, hcaller, callerSync⟩ := calls.synced _ List.mem_cons_self
    obtain ⟨callee, s, hcallee, calleeSync⟩ := calls₂.synced _ List.mem_cons_self
    obtain ⟨b, hb⟩ := Option.ne_none_iff_exists'.mp (calls₂.called (List.cons_ne_nil _ _))
    obtain ⟨conns, hconns⟩ := Option.ne_none_iff_exists'.mp
      (calls₂.bound b (by simp [ProcessMemory.inUse, hb]))
    have hbefore : m₂.envs f.varValue = some (caller.eraseAll gone) := by
      apply inner.envs f hmem
      rw [pushed.varValue]
      exact pushed.envs _ _ hcaller
    have erasedSync := callerSync.eraseAll gone
    obtain ⟨allowed, caller', hcaller', sync', hvars⟩ :=
      popped.outputs callee _ s _ b conns hcallee hbefore calleeSync erasedSync hb hconns
    refine ⟨caller, callee, caller', b, conns, hcaller, hcallee, ?_, hb, hconns, ?_, ?_⟩
    · rw [level.varValue, ← pushed.varValue]
      exact hcaller'
    · intro conn hconn
      obtain ⟨hvar, hparam⟩ := allowed.vars conn hconn
      rw [VarEnv.valueOf, sync'.getVarValue_eq (hvars ▸ hvar), outputs_of_mem allowed.distinct
        hconn,
        VarEnv.valueOf, calleeSync.getVarValue_eq hparam]
    · intro x hvar hother
      rw [VarEnv.valueOf, sync'.getVarValue_eq hvar, outputs_of_notMem hother, VarEnv.valueOf,
        erasedSync.getVarValue_eq (hvars ▸ hvar)]

def somePrograms : Programs := ⟨fun prg => some (prg + 1), fun _ a => a == 100 || a == 200⟩

end ScCore.Scp
