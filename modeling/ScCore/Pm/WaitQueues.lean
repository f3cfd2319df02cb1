import ScCore.Pm.Scheduler

/-!
# Wait queues

`pm_wait.cpp`. A process gives up control only in `pm_process::sleep`, so a call is a
chain of sections: the one that `start` runs, and one for each time the process resumes.
-/

namespace ScCore.Pm

/-- A `waitable_set`. -/
abbrev Source := Nat
/-- The sign of a watched set. -/
abbrev SetSign := Nat
/-- A `pm_select`. -/
abbrev Select := Nat

structure Member where
  arc : Nat
  elem : Nat
  deriving DecidableEq, Repr

/-- The `waitable_set`s: the set each one watches, and the waits that are attached to a
set. The constructor attaches the object to its own set. -/
structure Watch where
  element : Source → SetSign
  waits : SetSign → List Source
  attached : ∀ s, s ∈ waits (element s)

inductive WaitCall where
  | peek (s : Source) (nonblocking : Bool)
  | get (s : Source) (nonblocking : Bool)
  | waitFor (s : Source)
  | selectWait (sel : Select)
  deriving DecidableEq, Repr

inductive WaitEnd where
  | asleep
  /-- `peek` and `get` return; nothing stands for `0`. -/
  | member (e : Option Nat)
  | waited
  /-- `pm_select::wait` returns; nothing stands for `0`. -/
  | source (s : Option Source)
  /-- `busy_exception`. -/
  | busy
  deriving DecidableEq, Repr

structure WaitState where
  members : SetSign → List Member
  /-- `wait_queue.entries`. -/
  queue : Source → List Agent
  /-- `sources` of a `pm_select`. -/
  sources : Select → List Source
  inSleep : Select → Bool
  /-- The call that the process has not returned from. -/
  pending : Agent → Option WaitCall
  /-- The process is asleep and no wakeup has come. -/
  sleeping : Agent → Bool

namespace WaitState

variable (w : Watch) (st : WaitState)

def poll (s : Source) : Bool := !(st.members (w.element s)).isEmpty

/-- `pm_wait_queue::add`. -/
def enqueue (p : Agent) (s : Source) : WaitState :=
  { st with queue := Function.update st.queue s ((st.queue s).insert p) }

/-- `pm_wait_queue::remove`. -/
def dequeue (p : Agent) (s : Source) : WaitState :=
  { st with queue := Function.update st.queue s ((st.queue s).filter fun q => q ≠ p) }

def awake (p : Agent) : WaitState :=
  { st with sleeping := Function.update st.sleeping p false }

def wakeAll (s : Source) : WaitState := (st.queue s).foldl awake st

/-- `waitable_set::activate` of every wait of the set. -/
def activate (e : SetSign) : WaitState := (w.waits e).foldl wakeAll st

def addMember (e : SetSign) (m : Member) : WaitState :=
  activate w { st with members := Function.update st.members e (st.members e ++ [m]) } e

/-- `session->erase_el(arc)`. -/
def eraseMember (e : SetSign) (m : Member) : WaitState :=
  { st with members := Function.update st.members e ((st.members e).erase m) }

/-- `pm_process::sleep` inside the call `c`. -/
def sleep (p : Agent) (c : WaitCall) : WaitState :=
  { st with
    pending := Function.update st.pending p (some c)
    sleeping := Function.update st.sleeping p true }

def leave (p : Agent) : WaitState :=
  { st with pending := Function.update st.pending p none }

/-- `pm_wait_queue::sleep_on` up to its `sleep`. -/
def sleepOn (p : Agent) (c : WaitCall) (s : Source) : WaitState := (st.enqueue p s).sleep p c

/-- From the label `again_` of `waitable_set::peek`; `get` erases the arc it is given. -/
def peekAgain (p : Agent) (c : WaitCall) (s : Source) (nonblocking erase : Bool) :
    WaitEnd × WaitState :=
  match st.members (w.element s) with
  | m :: _ =>
      (.member (some m.elem),
        (if erase then st.eraseMember (w.element s) m else st).leave p)
  | [] => if nonblocking then (.member none, st.leave p) else (.asleep, st.sleepOn p c s)

def setInSleep (sel : Select) (b : Bool) : WaitState :=
  { st with inSleep := Function.update st.inSleep sel b }

def start (p : Agent) : WaitCall → WaitEnd × WaitState
  | .peek s nonblocking => st.peekAgain w p (.peek s nonblocking) s nonblocking false
  | .get s nonblocking => st.peekAgain w p (.get s nonblocking) s nonblocking true
  | .waitFor s => (.asleep, st.sleepOn p (.waitFor s) s)
  | .selectWait sel =>
      if st.inSleep sel then (.busy, st)
      else if (st.sources sel).isEmpty then (.source none, st)
      else if (st.sources sel).any (st.poll w) then (.source none, st)
      else (.asleep, (((st.sources sel).foldl (fun st s => st.enqueue p s) st).setInSleep sel
        true).sleep p (.selectWait sel))

/-- The section of a call after its `sleep`. -/
def resume (p : Agent) : WaitCall → WaitEnd × WaitState
  | .peek s nonblocking =>
      (st.dequeue p s).peekAgain w p (.peek s nonblocking) s nonblocking false
  | .get s nonblocking => (st.dequeue p s).peekAgain w p (.get s nonblocking) s nonblocking true
  | .waitFor s =>
      let st := st.dequeue p s
      if st.poll w s then (.waited, st.leave p) else (.asleep, st.sleepOn p (.waitFor s) s)
  | .selectWait sel =>
      let st := st.setInSleep sel false
      match (st.sources sel).find? (st.poll w) with
      | none => (.asleep, (st.setInSleep sel true).sleep p (.selectWait sel))
      | some s =>
          (.source (some s), ((st.sources sel).foldl (fun st s => st.dequeue p s) st).leave p)

def addSource (sel : Select) (s : Source) : WaitEnd × WaitState :=
  if st.inSleep sel then (.busy, st)
  else (.waited, { st with sources := Function.update st.sources sel (st.sources sel ++ [s]) })

end WaitState

/-- What a process does between two switches, and `awake` called by anyone else. -/
inductive WaitOp where
  | add (p : Agent) (e : SetSign) (m : Member)
  | addSource (p : Agent) (sel : Select) (s : Source)
  | call (p : Agent) (c : WaitCall)
  | resume (p : Agent)
  | awake (p : Agent)
  deriving DecidableEq, Repr

def WaitState.step (w : Watch) (st : WaitState) : WaitOp → Option (WaitEnd × WaitState)
  | .add p e m => if (st.pending p).isSome then none else some (.waited, st.addMember w e m)
  | .addSource p sel s => if (st.pending p).isSome then none else some (st.addSource sel s)
  | .call p c => if (st.pending p).isSome then none else some (st.start w p c)
  | .resume p =>
      if st.sleeping p then none else (st.pending p).map fun c => st.resume w p c
  | .awake p => some (.waited, st.awake p)

end ScCore.Pm
