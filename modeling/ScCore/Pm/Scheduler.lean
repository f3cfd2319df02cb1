import Mathlib.Data.List.Basic

/-!
# The scheduler

The bookkeeping of `pm_sched.cpp`: an agent is in a list of the scheduler, its activity
has a flag, and the memory has an arc to it from a scheduling class or a tuple of
`SLEEPING`. Only the memory can be rolled back.
-/

namespace ScCore.Pm

/-- `sc_addr` of an agent. -/
abbrev Agent := Nat

inductive SchedClass where
  | kernel
  | system
  | normal
  deriving DecidableEq, Repr

structure SchedMemory where
  /-- From the scheduling classes to the agents. -/
  arcs : List (SchedClass × Agent)
  /-- The tuples of `SLEEPING` under `N1_` and `N2_`. -/
  sleeping : List (Agent × SchedClass)
  deriving Repr

structure Sched where
  memory : SchedMemory
  /-- `SUBSCHED_KERNEL`, `SUBSCHED_SYSTEM` and `SUBSCHED_NORMAL`. -/
  queue : SchedClass → List Agent
  turn : SchedClass
  /-- `activity->sched_added`. -/
  added : Agent → Bool
  /-- The agents whose activation has not returned yet, the innermost first. -/
  activations : List Agent

namespace Sched

def init : Sched := ⟨⟨[], []⟩, fun _ => [], .normal, fun _ => false, []⟩

variable (activity : Agent → Bool) (s : Sched) (agent : Agent)

def getSchedClass : Option SchedClass :=
  (s.memory.arcs.find? fun arc => arc.2 = agent).map Prod.fst

/-- `pm_sched_add_agent`, and whether it returns `RV_OK`. Nothing stands for a class
that is none of the three; `gen3` is whether the arc can be created. -/
def addAgent (schedClass : Option SchedClass) (gen3 : Bool) : Bool × Sched :=
  if !activity agent then (false, s)
  else if s.added agent then (true, s)
  else if (s.getSchedClass agent).isSome then (false, s)
  else match schedClass with
    | none => (false, s)
    | some c =>
        if !gen3 then (false, s)
        else (true, { s with
          memory := { s.memory with arcs := s.memory.arcs ++ [(c, agent)] }
          queue := Function.update s.queue c (s.queue c ++ [agent])
          added := Function.update s.added agent true })

/-- `sched_remove_agent`: the class, if it succeeds. Nothing stands for `SC_ABORT`. -/
def schedRemoveAgent : Option (Option SchedClass × Sched) :=
  if !s.added agent then some (none, s)
  else (s.getSchedClass agent).map fun c =>
    (some c, { s with
      memory := { s.memory with arcs := s.memory.arcs.erase (c, agent) }
      queue := Function.update s.queue c ((s.queue c).filter fun a => a ≠ agent) })

/-- `rollback` of a transaction that was begun in `s₀`. -/
def rollback (s₀ : Sched) : Sched := { s with memory := s₀.memory }

/-- `pm_sched_remove_agent`. Nothing stands for an assertion that fails. -/
def removeAgent : Option (Bool × Sched) :=
  if !activity agent then none
  else match s.schedRemoveAgent agent with
    | none => none
    | some (none, s') => some (false, s'.rollback s)
    | some (some _, s') => some (true, s')

/-- `pm_sched_put_to_sleep`. The last four say whether the tuple and its arcs can be
created. -/
def putToSleep (createEl gen3 gen5Agent gen5Class : Bool) : Option (Bool × Sched) :=
  if !activity agent then none
  else match s.schedRemoveAgent agent with
    | none => none
    | some (none, s') => some (false, s'.rollback s)
    | some (some c, s') =>
        if !createEl || !gen3 || !gen5Agent || !gen5Class then some (false, s'.rollback s)
        else some (true, { s' with
          memory := { s'.memory with sleeping := s'.memory.sleeping ++ [(agent, c)] }
          added := Function.update s'.added agent false })

/-- `pm_sched_wakeup`. An agent that does not sleep has its hooks activated; `hooked` is
whether one of them succeeds. -/
def wakeup (gen3 hooked : Bool) : Bool × Sched :=
  match s.memory.sleeping.find? fun t => t.1 = agent with
  | none => (hooked, s)
  | some t =>
      match s.addAgent activity agent (some t.2) gen3 with
      | (false, s') => (false, s')
      | (true, s') => (true, { s' with
          memory := { s'.memory with sleeping := s'.memory.sleeping.erase t } })

/-- `turn = get_next_turn(*turn)`. -/
def nextTurn : Sched :=
  { s with turn := match s.turn with
      | .kernel => .system
      | .system => .normal
      | .normal => .kernel }

/-- `sched_queue_get`, after which the agent is pushed back and activated. -/
def quant : Option Sched :=
  match s.queue s.turn with
  | [] => none
  | agent :: rest => some { s with
      queue := Function.update s.queue s.turn (rest ++ [agent])
      activations := agent :: s.activations }

/-- One turn of `pm_sched_main` up to the activation. -/
def mainTurn : Sched := s.nextTurn.quant.getD s.nextTurn

/-- `pm_sched_do_step` up to the activation. -/
def doStep : Sched :=
  s.nextTurn.quant.getD (s.nextTurn.nextTurn.quant.getD s.nextTurn.nextTurn.mainTurn)

/-- What follows `activate_agent`, which has failed or not. -/
def activated (error : Bool) : Option Sched :=
  match s.activations with
  | [] => none
  | agent :: rest => some { s with
      queue := if error then
          Function.update s.queue s.turn ((s.queue s.turn).filter fun a => a ≠ agent)
        else s.queue
      activations := rest }

end Sched

inductive SchedOp where
  | add (agent : Agent) (schedClass : Option SchedClass) (gen3 : Bool)
  | remove (agent : Agent)
  | putToSleep (agent : Agent) (createEl gen3 gen5Agent gen5Class : Bool)
  | wakeup (agent : Agent) (gen3 hooked : Bool)
  | mainTurn
  | doStep
  | activated (error : Bool)
  deriving DecidableEq, Repr

/-- The agents of which `activity` is true have one. -/
def SchedOp.exec (activity : Agent → Bool) (s : Sched) : SchedOp → Option Sched
  | .add agent schedClass gen3 => some (s.addAgent activity agent schedClass gen3).2
  | .remove agent => (s.removeAgent activity agent).map Prod.snd
  | .putToSleep agent createEl gen3 gen5Agent gen5Class =>
      (s.putToSleep activity agent createEl gen3 gen5Agent gen5Class).map Prod.snd
  | .wakeup agent gen3 hooked => some (s.wakeup activity agent gen3 hooked).2
  | .mainTurn => some s.mainTurn
  | .doStep => some s.doStep
  | .activated error => s.activated error

end ScCore.Pm
