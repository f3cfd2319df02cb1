import ScCore.Tgf.Map

/-!
# Commands of TGF

How the writer turns user objects into indices of commands and the reader turns them
back, as in `tgf.c`, `tgfout.c` and `tgfin.c`. The stream is the list of the commands
of which it has the bytes, and of an argument there is what the union has in it.
-/

namespace ScCore.Tgf

inductive ArgType where
  | int32
  | int64
  | float
  | data
  | sctype
  | int16
  | string
  | lazyData
  | argLast
  | userid
  | none
  deriving DecidableEq, Repr

inductive CmdType where
  | nop
  | genel
  | declareSegment
  | switchToSegment
  | setbeg
  | setend
  | findbyidtf
  | endofstream
  deriving DecidableEq, Repr

inductive TgfErr where
  | invargs
  | opnotsupp
  | io
  | clnt
  | cmdfail
  deriving DecidableEq, Repr

/-- `tgf_argument`: the type, and the pointer `a_userid`. -/
structure Argument where
  type : ArgType
  aUserid : Ptr
  deriving DecidableEq, Repr

namespace Argument

/-- `a_int32`, which is the lower half of `a_userid`. -/
def aInt32 (arg : Argument) : BitVec 32 := arg.aUserid.setWidth 32

/-- The assignments of `TGF_INT32` to the type and of a number to `a_int32`. -/
def setInt32 (arg : Argument) (id : BitVec 32) : Argument :=
  ⟨.int32, arg.aUserid.extractLsb' 32 32 ++ id⟩

end Argument

structure Command where
  type : CmdType
  args : List Argument
  deriving DecidableEq, Repr

/-- The row of `known_cmds`: the least and the greatest number of arguments, and their
types. -/
def knownCmds : CmdType → Nat × Nat × List ArgType
  | .genel => (2, 3, [.string, .sctype, .none])
  | .setbeg => (2, 2, [.userid, .userid])
  | .setend => (2, 2, [.userid, .userid])
  | .findbyidtf => (1, 1, [.string])
  | .declareSegment => (1, 1, [.string])
  | .switchToSegment => (1, 1, [.userid])
  | .endofstream => (0, 0, [])
  | .nop => (0, 0, [])

def ArgType.accepts (expected actual : ArgType) : Bool :=
  (expected = .userid && actual = .int32) || expected = .none || actual = expected

/-- `tgf_command_check`: the types of the row, or nothing for `E_TGF_INVARGS`. -/
def commandCheck (cmd : Command) : Option (List ArgType) :=
  let (min, max, row) := knownCmds cmd.type
  if cmd.args.length < min || max < cmd.args.length then none
  else if (cmd.args.zip row).all fun p => p.2.accepts p.1.type then some row
  else none

def translateArgs (f : Argument → ArgType → Except TgfErr Argument) :
    List Argument → List ArgType → Except TgfErr (List Argument)
  | arg :: args, expected :: row => do
      let arg ← f arg expected
      let args ← translateArgs f args row
      return arg :: args
  | args, _ => return args

def translateCommand (f : Argument → ArgType → Except TgfErr Argument) (cmd : Command) :
    Except TgfErr Command := do
  match commandCheck cmd with
  | none => throw .invargs
  | some row =>
      let args ← translateArgs f cmd.args row
      return { cmd with args := args }

def translateOutArg (map : MapNode) (arg : Argument) (expected : ArgType) :
    Except TgfErr Argument :=
  if expected ≠ .userid then .ok arg
  else if arg.type ≠ .userid then .error .clnt
  else if arg.aInt32 = -1 then .ok { arg with type := .int32 }
  else match tgfMapOutLookup map arg.aUserid with
    | none => .error .clnt
    | some id => .ok (arg.setInt32 id)

def translateOut (map : MapNode) : Command → Except TgfErr Command :=
  translateCommand (translateOutArg map)

def translateInArg (map : MapNode) (arg : Argument) (expected : ArgType) :
    Except TgfErr Argument :=
  if expected ≠ .userid then .ok arg
  else if arg.aInt32 = -1 then .ok arg
  else match tgfMapInLookup map arg.aInt32 with
    | none => .error .cmdfail
    | some id => .ok ⟨.userid, id⟩

def translateIn (map : MapNode) : Command → Except TgfErr Command :=
  translateCommand (translateInArg map)

structure StreamOut where
  hash : MapNode
  cmdIndex : BitVec 32
  lastErr : Option TgfErr
  /-- The commands that are in the stream. -/
  written : List Command

/-- The error of `update_crc_argument`. -/
def updateCrcArgument (arg : Argument) : Option TgfErr :=
  match arg.type with
  | .int32 | .int16 | .sctype | .float | .data | .string | .lazyData => none
  | .int64 => some .opnotsupp
  | .argLast | .userid | .none => some .invargs

namespace StreamOut

def new : StreamOut := ⟨.nil, 0, none, []⟩

/-- `tgf_write_translated_command`; `io` is whether its bytes can be written. -/
def writeTranslatedCommand (s : StreamOut) (cmd : Command) (io : Bool) :
    Option TgfErr × StreamOut :=
  match cmd.args.findSome? updateCrcArgument with
  | some err => (some err, { s with lastErr := some err })
  | none =>
      if io then (none, { s with written := s.written ++ [cmd] })
      else (some .io, { s with lastErr := some .io })

def addObject (s : StreamOut) (clId : Ptr) : Option (Nat × MapNode) :=
  if clId = 0 then some (1, s.hash) else tgfMapOutAdd s.hash clId s.cmdIndex

/-- `tgf_write_command`: the error, if there is one. Nothing at all stands for a null
pointer that is followed. -/
def writeCommand (s : StreamOut) (cmd : Command) (clId : Ptr) (io : Bool) :
    Option (Option TgfErr × StreamOut) :=
  match s.lastErr with
  | some err => some (some err, s)
  | none =>
      match s.addObject clId with
      | none => none
      | some (0, _) => some (some .clnt, s)
      | some (_, hash) =>
          let s := { s with hash := hash, cmdIndex := s.cmdIndex + 1 }
          match translateOut hash cmd with
          | .error err => some (some err, { s with lastErr := some err })
          | .ok cmd => some (s.writeTranslatedCommand cmd io)

end StreamOut

/-- What `tgf_stream_in_process_command` uses of the stream. -/
structure ClientIn where
  hash : MapNode
  cmdIndex : BitVec 32

namespace ClientIn

def new : ClientIn := ⟨.nil, 0⟩

/-- `tgf_stream_in_process_command` of a command that `tgf_read_command` reads: the error
that comes before the callback, or the command that the callback gets. The callback fails
or does not, and has a user object for the command. -/
def processCommand (s : ClientIn) (cmd : Command) (cb : Bool × Ptr) :
    Option (Except TgfErr Command × ClientIn) :=
  let s := { s with cmdIndex := s.cmdIndex + 1 }
  match translateIn s.hash cmd with
  | .error err => some (.error err, s)
  | .ok cmd =>
      if cb.1 then some (.ok cmd, s)
      else if cb.2 = 0 then some (.ok cmd, s)
      else match tgfMapInAdd s.hash (s.cmdIndex - 1) cb.2 with
        | none => none
        | some (0, _) => some (.ok cmd, s)
        | some (_, hash) => some (.ok cmd, { s with hash := hash })

end ClientIn

end ScCore.Tgf
