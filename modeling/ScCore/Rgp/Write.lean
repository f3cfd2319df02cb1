import ScCore.Rgp.Command

/-!
# Writing RGP commands

The values that a command carries and the bytes that `rgp_command::write` makes
of them.
-/

namespace ScCore.Rgp

/-- `write_int` with `w` bytes, the highest first. -/
def intBytes : Nat → Int → List Byte
  | 0, _ => []
  | w + 1, v => UInt8.ofNat (v / 256 ^ w % 256).toNat :: intBytes w v

/-- A `Content` that can be sent. -/
inductive ContentValue where
  | empty
  | string (chars : List Byte)
  | integer (i : Int)
  deriving DecidableEq, Repr

inductive ArgValue (Obj : Type) where
  | int (type : ArgType) (v : Int)
  | object (type : ArgType) (obj : Option Obj)
  | string (chars : List Byte)
  | content (c : ContentValue)
  deriving DecidableEq, Repr

def CommandT.number (id : CommandT) : Nat := CommandT.all.idxOf id

namespace ArgType

def number (type : ArgType) : Nat := ArgType.all.idxOf type

/-- The `Size` of an `int_command_arg`. -/
def size : ArgType → Nat
  | .scType => 4
  | .scInt32 => 4
  | .scBoolean => 1
  | _ => 2

end ArgType

/-- The id of an object in the registry, which is 0 for none. -/
abbrev GetUid (Obj : Type) := ArgType → Obj → Nat

namespace ContentValue

/-- The number of `TCont` and the data. A string is written without its last zero. -/
def bytes : ContentValue → List Byte
  | empty => intBytes 2 0
  | string chars => intBytes 2 1 ++ intBytes 4 chars.length ++ chars
  | integer i => intBytes 2 2 ++ intBytes 4 i

end ContentValue

namespace ArgValue

variable {Obj : Type}

def type : ArgValue Obj → ArgType
  | int type _ => type
  | object type _ => type
  | string _ => .scString
  | content _ => .scContent

/-- `rgp_command_arg::write`. -/
def bytes (getUid : GetUid Obj) : ArgValue Obj → List Byte
  | int type v => intBytes type.size v
  | object type obj => intBytes 4 ((obj.map (getUid type)).getD 0)
  | string chars => intBytes 4 chars.length ++ chars
  | content c => c.bytes

end ArgValue

/-- A command as it is built by `operator<<`. -/
structure Message (Obj : Type) where
  id : CommandT
  args : List (ArgValue Obj)

/-- `rgp_command::write`. -/
def Message.bytes {Obj : Type} (getUid : GetUid Obj) (m : Message Obj) : List Byte :=
  intBytes 1 m.id.number ++ intBytes 1 m.args.length ++
    m.args.flatMap fun a => intBytes 2 a.type.number ++ a.bytes getUid

def ContentArg.value? (a : ContentArg) : Option ContentValue :=
  match a.type with
  | some 0 => some .empty
  | some 1 => some (.string a.str.chars)
  | some 2 => a.int.map .integer
  | _ => none

def Arg.value? {Obj : Type} : Arg Obj → Option (ArgValue Obj)
  | .int type _ v => v.map (.int type)
  | .object type obj => obj.map (.object type)
  | .string a => some (.string a.chars)
  | .content a => a.value?.map .content

/-- Successive calls of `rgp_command::read`, each on what the last one has left and
the next chunk. -/
def Command.feed {Obj : Type} (getObj : GetObj Obj) :
    Command Obj × List Byte × ReadResult → List (List Byte) →
      Option (Command Obj × List Byte × ReadResult)
  | state, [] => some state
  | (c, buf, _), chunk :: chunks => (c.read getObj (buf ++ chunk)).bind fun state =>
      feed getObj state chunks

/-- The values of the type that the source stores for an integer argument. -/
def ArgType.holds (type : ArgType) (v : Int) : Prop :=
  match type with
  | .scType | .scWaitType | .scConstraint => 0 ≤ v ∧ v < 2 ^ 16
  | .scRetval | .scInt32 => -2 ^ 31 ≤ v ∧ v < 2 ^ 31
  | .scInt16 => -2 ^ 15 ≤ v ∧ v < 2 ^ 15
  | .scBoolean => v = 0 ∨ v = 1
  | _ => False

/-- The types of `object_command_arg`. -/
def ArgType.isObject (type : ArgType) : Bool :=
  type = .scSegment || type = .scAddr || type = .scIterator || type = .scActivity || type = .scWait

/-- A value that an argument can have: an integer of the type that is stored, none or
an object that is registered, any string, or a content. -/
def ArgValue.Valid {Obj : Type} (getObj : GetObj Obj) (getUid : GetUid Obj) :
    ArgValue Obj → Prop
  | .int type v => type.holds v
  | .object type obj => type.isObject = true ∧ (obj.map (getUid type)).getD 0 < 2 ^ 32 ∧
      getObj type ((obj.map (getUid type)).getD 0) = obj
  | .string _ => True
  | .content (.string chars) => chars.length + 1 < 2 ^ 32
  | .content _ => True

def ArgValue.Fits {Obj : Type} : ArgValue Obj → Prop
  | .int .scRetval v => -2 ^ 15 ≤ v ∧ v < 2 ^ 15
  | .string chars => chars.length < 2 ^ 32
  | .content (.integer i) => -2 ^ 31 ≤ i ∧ i < 2 ^ 31
  | _ => True

end ScCore.Rgp
