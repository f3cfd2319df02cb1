import ScCore.Rgp.Connection
import ScCore.Rgp.Write

/-!
# Request handlers

The handlers of `request_dispatch_table`: the arguments that each one takes, in
the order in which it takes them, whether it then works with the session, and
what it leaves. What the session calls do is a parameter.
-/

namespace ScCore.Rgp

inductive WorkSession where
  | system | normal
  deriving DecidableEq, Repr

/-- What the handlers of a connection work on: the memory with the registry, and
`work_session_`, which is not initialised before a login. -/
structure Env (W : Type) where
  world : W
  workSession : Option WorkSession

/-- How a handler ends without a reply: by an `rgp_error`, by the `bad_any_cast` of
an argument of another type, or by a use of what is not there. -/
inductive Halt where
  | error (code : Retval)
  | badCast
  | fault
  deriving DecidableEq, Repr

/-- What the handlers call: the registry, the `dead` flags of segments and sc-addrs,
`sc_iterator::next`, the calls of the session with the reply that is made of their
results, and a reply that holds a return value only. -/
structure Host (W Obj Rep : Type) where
  getObj : W → GetObj Obj
  dead : W → Obj → Bool
  next : Obj → W → W × Retval
  answer : CommandT → Option WorkSession → List (Arg Obj) → W → W × Except Retval Rep
  retval : Retval → Rep

namespace Arg

variable {Obj : Type}

def type : Arg Obj → ArgType
  | int type _ _ => type
  | object type _ => type
  | string _ => .scString
  | content _ => .scContent

/-- `is_nil`; a dead segment or sc-addr is nil as well. -/
def isNil (dead : Obj → Bool) : Arg Obj → Bool
  | object type (some (some obj)) => (type = .scSegment || type = .scAddr) && dead obj
  | object _ _ => true
  | _ => false

def number : Arg Obj → Int
  | int _ _ (some v) => v
  | _ => 0

def obj? : Arg Obj → Option Obj
  | object _ (some obj) => obj
  | _ => none

end Arg

/-- How a handler asks for an argument: its type, and whether by `value_not_nil`. -/
structure Param where
  type : ArgType
  notNil : Bool

namespace Param

def value (type : ArgType) : Param := ⟨type, false⟩

def valueNotNil (type : ArgType) : Param := ⟨type, true⟩

/-- `any_cast` to the type that is asked for; `sc_retval` is `sc_int`. -/
def casts (p : Param) (type : ArgType) : Bool :=
  type = p.type || (p.type = .scInt32 && type = .scRetval)

variable {Obj : Type}

def obstacle (dead : Obj → Bool) (p : Param) (arg : Arg Obj) : Option Halt :=
  if p.notNil && arg.isNil dead then some (.error rvErrGen)
  else if p.casts arg.type then none
  else some .badCast

def takeArgs (dead : Obj → Bool) : List Param → List (Arg Obj) → Option Halt
  | [], _ => none
  | _ :: _, [] => some .fault
  | p :: params, arg :: args => (p.obstacle dead arg).or (takeArgs dead params args)

end Param

/-- A handler: the arguments it takes, whether it uses the session after that, what
it does then, and whether it closes the connection. -/
structure Handler (W Obj Rep : Type) where
  params : List (Arg Obj) → List Param
  usesSession : List (Arg Obj) → Bool
  body : Env W → List (Arg Obj) → Env W × Except Halt Rep
  closes : Bool

open Param

section

variable {W Obj Rep : Type}

def Handler.call (H : Host W Obj Rep) (h : Handler W Obj Rep) (env : Env W)
    (args : List (Arg Obj)) : Env W × Except Halt Rep :=
  match takeArgs (H.dead env.world) (h.params args) args with
  | some halt => (env, .error halt)
  | none =>
      if h.usesSession args && env.workSession.isNone then (env, .error .fault)
      else h.body env args

variable (H : Host W Obj Rep)

def answers (id : CommandT) (env : Env W) (args : List (Arg Obj)) : Env W × Except Halt Rep :=
  let (world, result) := H.answer id env.workSession args env.world
  ({ env with world := world }, result.mapError .error)

/-- A handler that takes `params` and calls the session. -/
def sessionHandler (id : CommandT) (params : List Param) : Handler W Obj Rep :=
  ⟨fun _ => params, fun _ => true, answers H id, false⟩

/-- A handler that takes `params` and does without the session. -/
def plainHandler (id : CommandT) (params : List Param) : Handler W Obj Rep :=
  ⟨fun _ => params, fun _ => false, answers H id, false⟩

def handlerLogin : Handler W Obj Rep where
  params _ := [value .scBoolean]
  usesSession _ := false
  body env args :=
    let isSystem := args.head?.any fun arg => arg.number ≠ 0
    ({ env with workSession := some (if isSystem then .system else .normal) }, .ok (H.retval rvOk))
  closes := false

def handlerClose : Handler W Obj Rep where
  params _ := []
  usesSession _ := false
  body env _ := (env, .ok (H.retval rvOk))
  closes := true

def handlerCreateSegment : Handler W Obj Rep := sessionHandler H .createSegment [value .scString]

def handlerOpenSegment : Handler W Obj Rep := sessionHandler H .openSegment [value .scString]

def handlerGetIdtf : Handler W Obj Rep := sessionHandler H .getIdtf [valueNotNil .scAddr]

def handlerSetIdtf : Handler W Obj Rep :=
  sessionHandler H .setIdtf [valueNotNil .scAddr, value .scString]

def handlerEraseIdtf : Handler W Obj Rep := sessionHandler H .eraseIdtf [valueNotNil .scAddr]

def handlerFindByIdtf : Handler W Obj Rep :=
  sessionHandler H .findByIdtf [value .scString, valueNotNil .scSegment]

def handlerCreateEl : Handler W Obj Rep :=
  sessionHandler H .createEl [valueNotNil .scSegment, value .scType]

def handlerGen3FAF : Handler W Obj Rep :=
  sessionHandler H .gen3FAF
    [valueNotNil .scAddr, valueNotNil .scSegment, value .scType, valueNotNil .scAddr]

def handlerGen5FAFAF : Handler W Obj Rep :=
  sessionHandler H .gen5FAFAF
    [valueNotNil .scAddr, valueNotNil .scSegment, value .scType, valueNotNil .scAddr,
      valueNotNil .scSegment, value .scType, valueNotNil .scAddr]

def handlerEraseEl : Handler W Obj Rep := sessionHandler H .eraseEl [valueNotNil .scAddr]

def handlerMergeEl : Handler W Obj Rep :=
  sessionHandler H .mergeEl [valueNotNil .scAddr, valueNotNil .scAddr]

def handlerSetElBegin : Handler W Obj Rep :=
  sessionHandler H .setElBegin [valueNotNil .scAddr, valueNotNil .scAddr]

def handlerSetElEnd : Handler W Obj Rep :=
  sessionHandler H .setElEnd [valueNotNil .scAddr, valueNotNil .scAddr]

def handlerGetElBegin : Handler W Obj Rep := sessionHandler H .getElBegin [valueNotNil .scAddr]

def handlerGetElEnd : Handler W Obj Rep := sessionHandler H .getElEnd [valueNotNil .scAddr]

def handlerGetElType : Handler W Obj Rep := sessionHandler H .getElType [valueNotNil .scAddr]

def handlerChangeElType : Handler W Obj Rep :=
  sessionHandler H .changeElType [valueNotNil .scAddr, value .scType]

def handlerGetElContent : Handler W Obj Rep := sessionHandler H .getElContent [valueNotNil .scAddr]

def handlerSetElContent : Handler W Obj Rep :=
  sessionHandler H .setElContent [valueNotNil .scAddr, valueNotNil .scContent]

/-- The parameter of a constraint: `SC_PD_TYPE`, `SC_PD_ADDR`, `SC_PD_SEGMENT` or
`SC_PD_BOOLEAN`; the constraints of the table have no others. -/
def pdType : Param := value .scType
def pdAddr : Param := valueNotNil .scAddr
def pdSegment : Param := valueNotNil .scSegment
def pdBoolean : Param := value .scBoolean

/-- `rgp_constraint_infos` with the parameters of the constraints. `RGP_CONSTR_UNKNOWN`
has an entry, but stands for no constraint. -/
def constraintInfos : List (Option (List Param)) :=
  [none, some [pdAddr], some [pdAddr], some [pdAddr, pdType, pdType],
    some [pdAddr, pdType, pdAddr], some [pdType, pdType, pdAddr],
    some [pdAddr, pdType, pdType, pdType, pdType], some [pdAddr, pdType, pdType, pdType, pdAddr],
    some [pdAddr, pdType, pdAddr, pdType, pdType], some [pdAddr, pdType, pdAddr, pdType, pdAddr],
    some [pdType, pdType, pdType, pdType, pdAddr], some [pdType, pdType, pdAddr, pdType, pdType],
    some [pdType, pdType, pdAddr, pdType, pdAddr], some [pdAddr, pdType, pdType, pdType, pdAddr],
    some [pdSegment, pdBoolean],
    some [pdAddr, pdType, pdType, pdType, pdAddr, pdType, pdType, pdType, pdAddr, pdType, pdAddr],
    some [pdAddr, pdType, pdType, pdType, pdAddr, pdType, pdAddr, pdType, pdAddr, pdType, pdAddr]]

def Arg.constraint? (arg : Arg Obj) : Option (List Param) :=
  constraintInfos[arg.number.toNat]?.join

def handlerCreateIterator : Handler W Obj Rep where
  params args := value .scConstraint :: (args.head?.bind Arg.constraint?).getD []
  usesSession _ := true
  body := answers H .createIterator
  closes := false

/-- `fill_need_sc_iterator_values`. -/
def isNeedValues (args : List (Arg Obj)) : Bool :=
  args.all fun arg => (value .scInt32).casts arg.type

def handlerNextIterator : Handler W Obj Rep where
  params _ := [valueNotNil .scIterator]
  usesSession _ := false
  body env args :=
    match args.head?.bind Arg.obj? with
    -- it was taken as an iterator that is not nil
    | none => (env, .error .badCast)
    | some it =>
        let (world, rv) := H.next it env.world
        let env := { env with world := world }
        if rv = rvOk then
          if isNeedValues args.tail then answers H .nextIterator env args
          else (env, .error .badCast)
        else (env, .ok (H.retval rv))
  closes := false

def handlerEraseIterator : Handler W Obj Rep :=
  plainHandler H .eraseIterator [valueNotNil .scIterator]

def handlerReimplement : Handler W Obj Rep := sessionHandler H .reimplement [valueNotNil .scAddr]

def waitParam : ArgType → Option Param
  | .scAddr => some (valueNotNil .scAddr)
  | .scSegment => some (valueNotNil .scSegment)
  | .scType => some (value .scType)
  | _ => none

def waitParams : List (Arg Obj) → List Param
  | [] => []
  | arg :: args =>
      match waitParam arg.type with
      | some p => p :: waitParams args
      | none => []

def isWaitParams (args : List (Arg Obj)) : Bool := args.all fun arg => (waitParam arg.type).isSome

def handlerAttachWait : Handler W Obj Rep where
  params args := value .scWaitType :: waitParams args.tail
  usesSession args := isWaitParams args.tail
  body env args :=
    if isWaitParams args.tail then answers H .attachWait env args
    else (env, .ok (H.retval rvErrGen))
  closes := false

def handlerDetachWait : Handler W Obj Rep := sessionHandler H .detachWait [valueNotNil .scWait]

def handlerActivate : Handler W Obj Rep where
  params args := valueNotNil .scAddr :: args.tail.map fun _ => value .scAddr
  usesSession _ := true
  body := answers H .activate
  closes := false

def handlerGetSegInfo : Handler W Obj Rep := plainHandler H .getSegInfo [valueNotNil .scSegment]

def handlerGetElInfo : Handler W Obj Rep := plainHandler H .getElInfo [valueNotNil .scAddr]

/-- `request_dispatch_table`; the position of an entry is the number of its command. -/
def requestDispatchTable : List (Handler W Obj Rep) :=
  [handlerLogin H, handlerClose H, handlerCreateSegment H, handlerOpenSegment H,
    handlerGetIdtf H, handlerSetIdtf H, handlerEraseIdtf H, handlerFindByIdtf H,
    handlerCreateEl H, handlerGen3FAF H, handlerGen5FAFAF H, handlerEraseEl H, handlerMergeEl H,
    handlerSetElBegin H, handlerSetElEnd H, handlerGetElBegin H, handlerGetElEnd H,
    handlerGetElType H, handlerChangeElType H, handlerGetElContent H, handlerSetElContent H,
    handlerCreateIterator H, handlerNextIterator H, handlerEraseIterator H,
    handlerAttachWait H, handlerDetachWait H, handlerReimplement H, handlerActivate H,
    handlerGetSegInfo H, handlerGetElInfo H]

end

end ScCore.Rgp
