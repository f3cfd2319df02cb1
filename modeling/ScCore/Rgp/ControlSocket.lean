import ScCore.Rgp.Discipline
import ScCore.Rgp.Handlers

/-!
# The control socket with its handlers

What a chunk of bytes does to a connection whose requests are handled by the
entries of `request_dispatch_table`, and which chunks make it reach outside its
tables. Every request that is executed has been read from its first byte, so its
arguments are as many as the table of the commands admits.
-/

namespace ScCore.Rgp

variable {W Obj Rep : Type}

/-- What becomes of a connection when a chunk has arrived. It goes on, or a
`bad_any_cast` has left `handle_data_readed` and nothing more is read from it, or
something was used that is not there. -/
inductive Reception (W Obj Rep : Type) where
  | goesOn (c : Connection (Env W) Obj Rep)
  | stalled (c : Connection (Env W) Obj Rep)
  | fault

namespace Command

def isPrintable (request : Command Obj) : Bool :=
  request.args.all fun arg => arg.type ≠ .scConstraint || arg.constraint?.isSome

def handler? (H : Host W Obj Rep) (request : Command Obj) : Option (Handler W Obj Rep) :=
  request.id.bind fun id => (requestDispatchTable H)[id.number]?

end Command

namespace Connection

def settle (c : Connection (Env W) Obj Rep) : Reception W Obj Rep :=
  if c.closed && c.world.workSession.isNone then .fault else .goesOn c

def conclude (c : Connection (Env W) Obj Rep) : Except Halt Rep → Reception W Obj Rep
  | .ok reply => settle { c with request := none, log := c.log ++ [.replied (.ok reply)] }
  | .error (.error code) => (c.catchError code).settle
  | .error .badCast => .stalled c
  | .error .fault => .fault

variable (H : Host W Obj Rep)

/-- The log line and `executing_response`. -/
def execute (c : Connection (Env W) Obj Rep) (request : Command Obj) : Reception W Obj Rep :=
  if request.isPrintable then
    match request.handler? H with
    | none => .fault
    | some h =>
        let (env, result) := h.call H c.world request.args
        conclude ⟨env, c.requestBuf, some request, c.closed || h.closes,
          c.log ++ [.executed request]⟩ result
  else .fault

/-- The request after the bytes of a chunk, the bytes that are left, and how the
reader has stopped. A request that is read already is not read again. -/
def decode (c : Connection (Env W) Obj Rep) (chunk : List Byte) :
    Option (Command Obj × List Byte × ReadResult) :=
  let request := c.request.getD Command.new
  if request.isReaded then some (request, c.requestBuf ++ chunk, .done)
  else request.read (H.getObj c.world.world) (c.requestBuf ++ chunk)

def decoded (c : Connection (Env W) Obj Rep) (request : Command Obj) (buf : List Byte)
    (r : ReadResult) : Reception W Obj Rep :=
  let c := { c with requestBuf := buf, request := some request }
  match r with
  | .error code => .goesOn (c.catchError code)
  | .crash => .fault
  | _ => if request.isReaded then c.execute H request else .goesOn c

/-- `handle_data_readed`; a closed connection is gone. -/
def arrive (c : Connection (Env W) Obj Rep) (chunk : List Byte) : Reception W Obj Rep :=
  if chunk.isEmpty || c.closed then .goesOn c
  else
    match c.decode H chunk with
    | none => .fault
    | some (request, buf, r) => c.decoded H request buf r

end Connection

namespace Param

variable {dead : Obj → Bool} {params : List Param} {args : List (Arg Obj)}

theorem obstacle_ne_fault (dead : Obj → Bool) (p : Param) (arg : Arg Obj) :
    p.obstacle dead arg ≠ some .fault := by
  unfold obstacle
  split
  · simp
  · split <;> simp

theorem takeArgs_fault : takeArgs dead params args = some .fault ↔
    args.length < params.length ∧ ∀ x ∈ params.zip args, x.1.obstacle dead x.2 = none := by
  induction params generalizing args with
  | nil => simp [takeArgs]
  | cons p params ih =>
    cases args with
    | nil => simp [takeArgs]
    | cons arg args =>
      simp only [takeArgs, List.zip_cons_cons, List.forall_mem_cons, List.length_cons]
      cases h : p.obstacle dead arg with
      | none => simp [ih]
      | some halt =>
        have : halt ≠ .fault := fun hf => obstacle_ne_fault dead p arg (hf ▸ h)
        simpa using this

theorem takeArgs_enough (h : params.length ≤ args.length) :
    takeArgs dead params args ≠ some .fault := by
  intro hf
  have := (takeArgs_fault.mp hf).1
  omega

end Param

section Table

open Param

variable (H : Host W Obj Rep)

def handlerOf : CommandT → Option (Handler W Obj Rep)
  | .login => some (handlerLogin H)
  | .close => some (handlerClose H)
  | .createSegment => some (handlerCreateSegment H)
  | .openSegment => some (handlerOpenSegment H)
  | .getIdtf => some (handlerGetIdtf H)
  | .setIdtf => some (handlerSetIdtf H)
  | .eraseIdtf => some (handlerEraseIdtf H)
  | .findByIdtf => some (handlerFindByIdtf H)
  | .createEl => some (handlerCreateEl H)
  | .gen3FAF => some (handlerGen3FAF H)
  | .gen5FAFAF => some (handlerGen5FAFAF H)
  | .eraseEl => some (handlerEraseEl H)
  | .mergeEl => some (handlerMergeEl H)
  | .setElBegin => some (handlerSetElBegin H)
  | .setElEnd => some (handlerSetElEnd H)
  | .getElBegin => some (handlerGetElBegin H)
  | .getElEnd => some (handlerGetElEnd H)
  | .getElType => some (handlerGetElType H)
  | .changeElType => some (handlerChangeElType H)
  | .getElContent => some (handlerGetElContent H)
  | .setElContent => some (handlerSetElContent H)
  | .createIterator => some (handlerCreateIterator H)
  | .nextIterator => some (handlerNextIterator H)
  | .eraseIterator => some (handlerEraseIterator H)
  | .attachWait => some (handlerAttachWait H)
  | .detachWait => some (handlerDetachWait H)
  | .reimplement => some (handlerReimplement H)
  | .activate => some (handlerActivate H)
  | .getSegInfo => some (handlerGetSegInfo H)
  | .getElInfo => some (handlerGetElInfo H)
  | .activateWait => none
  | .repReturn => none

theorem requestDispatchTable_number (id : CommandT) :
    (requestDispatchTable H)[id.number]? = handlerOf H id := by
  cases id <;> rfl

theorem handlerOf_eq_none (id : CommandT) : handlerOf H id = none ↔ id.dispatched = false := by
  cases id <;> simp [handlerOf, CommandT.dispatched]

variable {H}
variable {h : Handler W Obj Rep} {id : CommandT}

theorem closes_eq (hid : handlerOf H id = some h) : h.closes = decide (id = .close) := by
  cases id <;> cases hid <;> rfl

theorem answers_ne_fault (H : Host W Obj Rep) (id : CommandT) (env : Env W)
    (args : List (Arg Obj)) : (answers H id env args).2 ≠ .error .fault := by
  simp only [answers]
  cases (H.answer id env.workSession args env.world).2 <;> simp [Except.mapError]

theorem body_cases (hid : handlerOf H id = some h) :
    h.body = answers H id ∨ id = .login ∨ id = .close ∨ id = .nextIterator ∨ id = .attachWait := by
  cases id <;> cases hid <;> first | exact .inl rfl | simp

theorem body_ne_fault (hid : handlerOf H id = some h) (env : Env W) (args : List (Arg Obj)) :
    (h.body env args).2 ≠ .error .fault := by
  rcases body_cases hid with hbody | rfl | rfl | rfl | rfl
  · rw [hbody]
    exact answers_ne_fault H id env args
  · cases hid
    simp [handlerLogin]
  · cases hid
    simp [handlerClose]
  · cases hid
    simp only [handlerNextIterator]
    split
    · simp
    · split
      · split
        · exact answers_ne_fault H _ _ args
        · simp
      · simp
  · cases hid
    simp only [handlerAttachWait]
    split
    · exact answers_ne_fault H _ env args
    · simp

end Table

end ScCore.Rgp
