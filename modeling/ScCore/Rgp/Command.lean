import ScCore.Lib.Resumable
import ScCore.Types

/-!
# RGP commands

The tables of `rgp.cpp` and the readers of `rgp_command.cpp`. A command and each
of its arguments are read by a state machine that may stop between any two bytes
and go on with the next ones.
-/

namespace ScCore.Rgp

open Turn

abbrev Byte := UInt8

inductive CommandT where
  | login | close | createSegment | openSegment | getIdtf | setIdtf | eraseIdtf | findByIdtf
  | createEl | gen3FAF | gen5FAFAF | eraseEl | mergeEl | setElBegin | setElEnd | getElBegin
  | getElEnd | getElType | changeElType | getElContent | setElContent | createIterator
  | nextIterator | eraseIterator | attachWait | detachWait | reimplement | activate | getSegInfo
  | getElInfo | activateWait | repReturn
  deriving DecidableEq, Repr

namespace CommandT

def all : List CommandT :=
  [login, close, createSegment, openSegment, getIdtf, setIdtf, eraseIdtf, findByIdtf, createEl,
    gen3FAF, gen5FAFAF, eraseEl, mergeEl, setElBegin, setElEnd, getElBegin, getElEnd, getElType,
    changeElType, getElContent, setElContent, createIterator, nextIterator, eraseIterator,
    attachWait, detachWait, reimplement, activate, getSegInfo, getElInfo, activateWait, repReturn]

def ofByte (b : Byte) : Option CommandT := all[b.toNat]?

/-- The commands of `request_dispatch_table`; it ends before the other two. -/
def dispatched (id : CommandT) : Bool := id ≠ activateWait && id ≠ repReturn

end CommandT

/-- `rgp_command_info`: the number of arguments and, where more may follow, how
many. The name and the expected types are not looked at when a command is read. -/
structure CommandInfo where
  argsCount : Nat
  maxRestCount : Option (Option Nat)

/-- `rgp_command_infos`. -/
def commandInfo : CommandT → CommandInfo
  | .login => ⟨1, none⟩
  | .close => ⟨0, none⟩
  | .createSegment => ⟨1, none⟩
  | .openSegment => ⟨1, none⟩
  | .getIdtf => ⟨1, none⟩
  | .setIdtf => ⟨2, none⟩
  | .eraseIdtf => ⟨1, none⟩
  | .findByIdtf => ⟨2, none⟩
  | .createEl => ⟨2, none⟩
  | .gen3FAF => ⟨4, none⟩
  | .gen5FAFAF => ⟨7, none⟩
  | .eraseEl => ⟨1, none⟩
  | .mergeEl => ⟨2, none⟩
  | .setElBegin => ⟨2, none⟩
  | .setElEnd => ⟨2, none⟩
  | .getElBegin => ⟨1, none⟩
  | .getElEnd => ⟨1, none⟩
  | .getElType => ⟨1, none⟩
  | .changeElType => ⟨2, none⟩
  | .getElContent => ⟨1, none⟩
  | .setElContent => ⟨2, none⟩
  | .createIterator => ⟨1, some (some 11)⟩
  | .nextIterator => ⟨1, some (some 5)⟩
  | .eraseIterator => ⟨1, none⟩
  | .attachWait => ⟨1, some (some 3)⟩
  | .detachWait => ⟨1, none⟩
  | .reimplement => ⟨1, none⟩
  | .activate => ⟨4, none⟩
  | .getSegInfo => ⟨1, none⟩
  | .getElInfo => ⟨1, none⟩
  | .activateWait => ⟨2, some (some 3)⟩
  | .repReturn => ⟨1, some none⟩

def CommandInfo.admits (info : CommandInfo) (count : Nat) : Bool :=
  count = info.argsCount ||
    match info.maxRestCount with
    | none => false
    | some none => true
    | some (some rest) => count ≤ info.argsCount + rest

/-- `rgp_command_arg_t`. -/
inductive ArgType where
  | unknown | scType | scSegment | scAddr | scIterator | scContent | scActivity | scWaitType
  | scWait | scRetval | scConstraint | scInt16 | scInt32 | scBoolean | scString
  deriving DecidableEq, Repr

namespace ArgType

def all : List ArgType :=
  [unknown, scType, scSegment, scAddr, scIterator, scContent, scActivity, scWaitType, scWait,
    scRetval, scConstraint, scInt16, scInt32, scBoolean, scString]

end ArgType

def rvRgpErrGen : Retval := -1000
def rvRgpErrCmd : Retval := rvRgpErrGen - 1
def rvRgpErrArgCnt : Retval := rvRgpErrCmd - 1
def rvRgpErrType : Retval := rvRgpErrArgCnt - 1

/-- What a reader returns: how many bytes it needs at least, nothing, the code of
a thrown `rgp_error`, or a call through a null pointer. -/
inductive ReadResult where
  | need (demand : Nat)
  | done
  | error (code : Retval)
  | crash
  deriving DecidableEq, Repr

def ReadResult.needs : ReadResult → Prop
  | need _ => True
  | _ => False

def bigEndian (bs : List Byte) : Nat := bs.foldl (fun n b => n * 256 + b.toNat) 0

/-- `read_int` of `n` bytes, where they are available. -/
def takeInt (n : Nat) (bs : List Byte) : Option (Nat × List Byte) :=
  if bs.length < n then none else some (bigEndian (bs.take n), bs.drop n)

/-- The value of `n` in two's complement with `w` bytes. -/
def toSigned (w n : Nat) : Int := if n < 2 ^ (8 * w - 1) then n else n - 2 ^ (8 * w)

/-- `sc_string_command_arg`: the size, once it is read, and the characters so far. -/
structure StringArg where
  size : Option Nat
  chars : List Byte

namespace StringArg

def empty : StringArg := ⟨none, []⟩

/-- Read as many of the `n` characters as possible. -/
def readChars (n : Nat) (chars bs : List Byte) : StringArg × List Byte × ReadResult :=
  let missing := n - chars.length
  (⟨some n, chars ++ bs.take missing⟩, bs.drop missing,
    if missing ≤ bs.length then .done else .need (missing - bs.length))

def read (a : StringArg) (bs : List Byte) : StringArg × List Byte × ReadResult :=
  match a.size with
  | some n => readChars n a.chars bs
  | none =>
      match takeInt 4 bs with
      | none => (a, bs, .need 4)
      | some (n, rest) => readChars n [] rest

end StringArg

/-- `sc_content_command_arg`: the type number, once it is read, and the nested argument. -/
structure ContentArg where
  type : Option Nat
  str : StringArg
  int : Option Int

namespace ContentArg

def empty : ContentArg := ⟨none, StringArg.empty, none⟩

/-- The switch on the content type; `demand` is what the variable holds before it.
The numbers are those of `TCont`; real and binary contents are not supported. -/
def readData (a : ContentArg) (type : Nat) (demand : ReadResult) (bs : List Byte) :
    ContentArg × List Byte × ReadResult :=
  match type with
  | 0 => (a, bs, .done)
  | 1 =>
      let (str, rest, r) := a.str.read bs
      ({ a with str := str }, rest, r)
  | 2 =>
      match takeInt 4 bs with
      | none => (a, bs, .need 4)
      | some (n, rest) => ({ a with int := some (toSigned 4 n) }, rest, .done)
  | 3 => (a, bs, .error rvErrGen)
  | 4 => (a, bs, .error rvErrGen)
  | _ => (a, bs, demand)

def read (a : ContentArg) (bs : List Byte) : ContentArg × List Byte × ReadResult :=
  match a.type with
  | some type => a.readData type .done bs
  | none =>
      match takeInt 2 bs with
      | none => (a, bs, .need 2)
      | some (type, rest) => { a with type := some type }.readData type (.need 2) rest

end ContentArg

/-- `rgp_command_arg`, with the value as far as it is read. An object is looked up
when its id is read; 0 stands for none. -/
inductive Arg (Obj : Type) where
  | int (type : ArgType) (width : Nat) (value : Option Int)
  | object (type : ArgType) (value : Option (Option Obj))
  | string (value : StringArg)
  | content (value : ContentArg)

/-- `static_cast` of the value read to the type of the argument. -/
def castInt (type : ArgType) (n : Nat) : Int :=
  match type with
  | .scType => n % 65536
  | .scRetval => toSigned 2 n
  | .scInt16 => toSigned 2 n
  | .scInt32 => toSigned 4 n
  | .scBoolean => if n = 0 then 0 else 1
  | _ => n

/-- `command_arg_prototypes`; the entry of `RGP_ARG_UNKNOWN` is null. -/
def argPrototype {Obj : Type} : ArgType → Option (Arg Obj)
  | .unknown => none
  | .scType => some (.int .scType 4 none)
  | .scSegment => some (.object .scSegment none)
  | .scAddr => some (.object .scAddr none)
  | .scIterator => some (.object .scIterator none)
  | .scContent => some (.content ContentArg.empty)
  | .scActivity => some (.object .scActivity none)
  | .scWaitType => some (.int .scWaitType 2 none)
  | .scWait => some (.object .scWait none)
  | .scRetval => some (.int .scRetval 2 none)
  | .scConstraint => some (.int .scConstraint 2 none)
  | .scInt16 => some (.int .scInt16 2 none)
  | .scInt32 => some (.int .scInt32 4 none)
  | .scBoolean => some (.int .scBoolean 1 none)
  | .scString => some (.string StringArg.empty)

/-- The registry lookup of an object of a type. -/
abbrev GetObj (Obj : Type) := ArgType → Nat → Option Obj

def Arg.read {Obj : Type} (getObj : GetObj Obj) (bs : List Byte) :
    Arg Obj → Arg Obj × List Byte × ReadResult
  | .int type width value =>
      match takeInt width bs with
      | none => (.int type width value, bs, .need width)
      | some (n, rest) => (.int type width (some (castInt type n)), rest, .done)
  | .object type value =>
      match takeInt 4 bs with
      | none => (.object type value, bs, .need 4)
      | some (id, rest) => (.object type (some (getObj type id)), rest, .done)
  | .string value =>
      let (value, rest, r) := value.read bs
      (.string value, rest, r)
  | .content value =>
      let (value, rest, r) := value.read bs
      (.content value, rest, r)

/-- `read_state_t`. -/
inductive ReadingState where
  | readCmdId | readArgCount | readArgType | readArg | readed
  deriving DecidableEq, Repr

/-- `rgp_command`. The id is `none` while no known one is read, and `back` is the
last of the arguments while it is being read. -/
structure Command (Obj : Type) where
  readingState : ReadingState
  id : Option CommandT
  argsCount : Nat
  args : List (Arg Obj)
  back : Option (Arg Obj)

namespace Command

variable {Obj : Type}

def new : Command Obj := ⟨.readCmdId, none, 0, [], none⟩

def isReaded (c : Command Obj) : Bool := c.readingState = .readed

def readCount (c : Command Obj) (id : CommandT) (count : Nat) (rest : List Byte) :
    Turn (Command Obj) Byte ReadResult :=
  let info := commandInfo id
  let c := { c with argsCount := count }
  if info.admits count then
    if info.argsCount = 0 ∧ info.maxRestCount = none then
      .next { c with readingState := .readed } rest
    else .next { c with readingState := .readArgType } rest
  else .stop c rest (.error rvRgpErrArgCnt)

def readType (c : Command Obj) (number : Nat) (rest : List Byte) :
    Turn (Command Obj) Byte ReadResult :=
  match ArgType.all[number]? with
  | none => .stop c rest (.error rvRgpErrType)
  | some type =>
      match argPrototype type with
      | none => .stop c rest .crash
      | some arg => .next { c with readingState := .readArg, back := some arg } rest

def readBack (c : Command Obj) (arg : Arg Obj) (rest : List Byte) (r : ReadResult) :
    Turn (Command Obj) Byte ReadResult :=
  match r with
  | .done =>
      let c := { c with args := c.args ++ [arg], back := none }
      if c.args.length = c.argsCount then .next { c with readingState := .readed } rest
      else .next { c with readingState := .readArgType } rest
  | r => .stop { c with back := some arg } rest r

/-- One round of the loop of `rgp_command::read`. -/
def turn (getObj : GetObj Obj) (c : Command Obj) (bs : List Byte) :
    Turn (Command Obj) Byte ReadResult :=
  match c.readingState with
  | .readCmdId =>
      match bs with
      | [] => .stop c bs (.need 1)
      | b :: rest =>
          match CommandT.ofByte b with
          | some id => .next { c with readingState := .readArgCount, id := some id } rest
          | none => .stop { c with id := none } rest (.error rvRgpErrCmd)
  | .readArgCount =>
      match bs, c.id with
      | [], _ => .stop c bs (.need 1)
      | b :: rest, some id => c.readCount id b.toNat rest
      | _ :: rest, none => .stop c rest .crash
  | .readArgType =>
      match takeInt 2 bs with
      | none => .stop c bs (.need 2)
      | some (number, rest) => c.readType number rest
  | .readArg =>
      match c.back with
      | some arg =>
          let (arg, rest, r) := arg.read getObj bs
          c.readBack arg rest r
      | none => .stop c bs .crash
  | .readed => .stop c bs .done

/-- `rgp_command::read`: the command, the bytes that are left, and the result. -/
def read (getObj : GetObj Obj) (c : Command Obj) (bs : List Byte) :
    Option (Command Obj × List Byte × ReadResult) :=
  run (turn getObj) (2 * bs.length + 2) c bs

end Command

end ScCore.Rgp
