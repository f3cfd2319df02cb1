import ScCore.Tgf.StreamIn

/-!
# Commands of an input stream

`tgf_read_argument` and `tgf_read_command` over the buffered input. An argument has the type
that is in the memory before it is read, and a value only when it is read completely.
-/

namespace ScCore.Tgf

open Lib

def ArgType.code : ArgType → Nat
  | .int32 => 0
  | .int64 => 1
  | .float => 2
  | .data => 3
  | .sctype => 4
  | .int16 => 5
  | .string => 6
  | .lazyData => 7
  | .argLast => 8
  | .userid => 254
  | .none => 255

/-- The types that `tgf_read_argument` has a case for. -/
def ArgType.ofCode : Nat → Option ArgType
  | 0 => some .int32
  | 1 => some .int64
  | 2 => some .float
  | 3 => some .data
  | 4 => some .sctype
  | 5 => some .int16
  | 6 => some .string
  | 7 => some .lazyData
  | _ => Option.none

/-- The commands up to `TGF_CMD_LAST`. -/
def CmdType.ofCode : Nat → Option CmdType
  | 0 => some .nop
  | 1 => some .genel
  | 2 => some .declareSegment
  | 3 => some .switchToSegment
  | 4 => some .setbeg
  | 5 => some .setend
  | 6 => some .findbyidtf
  | 7 => some .endofstream
  | _ => none

/-- What is in the union of a `tgf_argument`. -/
inductive ArgValue where
  | int32 (aInt32 : BitVec 32)
  | float (aFloat : BitVec 64)
  | data (aData : List UInt8)
  | sctype (aSctype : UInt8)
  | int16 (aInt16 : BitVec 16)
  | string (aString : List UInt8)
  | lazyData (aString : List UInt8)
  deriving DecidableEq

/-- A `tgf_argument` of the reader. -/
structure ArgumentIn where
  type : Nat
  value : Option ArgValue
  deriving DecidableEq

/-- A `tgf_command` of the reader. -/
structure CommandIn where
  type : CmdType
  arguments : List ArgumentIn
  deriving DecidableEq

/-- What `tgf_allocator_alloc` gives for a command. -/
structure Allocation where
  /-- Whether there is memory for the command and its arguments. -/
  command : Bool
  /-- The types that are in the memory of the arguments. -/
  types : Nat → Nat
  /-- Whether there is memory for so many bytes of an argument. -/
  block : Nat → Int → Bool

/-- The types of the arguments that `tgf_command_check` lets pass. -/
def ArgType.acceptsCode (expected : ArgType) (code : Nat) : Bool :=
  (expected = .userid && code = ArgType.int32.code) || expected = .none || code = expected.code

/-- `tgf_command_check` of a command of the reader. -/
def checkIn (cmd : CommandIn) : Bool :=
  let (min, max, row) := knownCmds cmd.type
  min ≤ cmd.arguments.length && cmd.arguments.length ≤ max &&
    (cmd.arguments.zip row).all fun p => p.2.acceptsCode p.1.type

namespace StreamIn

def setValue {α : Type} (arg : ArgumentIn) (f : α → ArgValue) :
    Option (Except Int α × StreamIn) → Option ((Int × ArgumentIn) × StreamIn)
  | none => none
  | some (.error rv, s) => some ((rv, arg), s)
  | some (.ok a, s) => some ((0, { arg with value := some (f a) }), s)

/-- `tgf_read_data`, and `tgf_read_string` with a byte more in the memory. -/
def readBlock (alloc : Int → Bool) (extra : Int) (s : StreamIn) :
    Option (Except Int (List UInt8) × StreamIn) :=
  match s.readInt32 with
  | none => none
  | some (.error rv, s) => some (.error rv, s)
  | some (.ok datasize, s) =>
      let datasize := (BitVec.ofNat 32 datasize).toInt
      if alloc (datasize + extra) then s.read datasize else some (.error eTgfNomem, s)

def readData (alloc : Int → Bool) (s : StreamIn) := s.readBlock alloc 0

def readString (alloc : Int → Bool) (s : StreamIn) := s.readBlock alloc 1

/-- The `switch` of `tgf_read_argument`. -/
def readValue (alloc : Int → Bool) (arg : ArgumentIn) (s : StreamIn) :
    Option ((Int × ArgumentIn) × StreamIn) :=
  match ArgType.ofCode arg.type with
  | some .int32 => setValue arg (fun n => .int32 (.ofNat 32 n)) s.readInt32
  | some .int64 => some ((eTgfOpnotsupp, arg), s)
  | some .float => setValue arg (fun bytes => .float (.ofNat 64 (s.convert bytes)))
      (s.read 8)
  | some .string => setValue arg .string (s.readString alloc)
  | some .data => setValue arg .data (s.readData alloc)
  | some .sctype => setValue arg .sctype s.readByte
  | some .int16 => setValue arg (fun n => .int16 (.ofNat 16 n)) s.readInt16
  | some .lazyData => setValue arg .lazyData (s.readString alloc)
  | _ => some ((eTgfInvtype, arg), s)

def readArgument (alloc : Int → Bool) (arg : ArgumentIn) (s : StreamIn) :
    Option ((Int × ArgumentIn) × StreamIn) :=
  match s.readAlign4 with
  | none => none
  | some (.error rv, s) => some ((rv, arg), s)
  | some (.ok type, s) => s.readValue alloc { arg with type := s.convert type }

def unread (mem : Allocation) (i cnt : Nat) : List ArgumentIn :=
  (List.range' i cnt).map fun i => ⟨mem.types i, none⟩

/-- The loop of `__tgf_read_command`. -/
def readArguments (mem : Allocation) : Nat → Nat → StreamIn → Option (List ArgumentIn × StreamIn)
  | _, 0, s => some ([], s)
  | i, cnt + 1, s =>
      match s.readArgument (mem.block i) ⟨mem.types i, none⟩ with
      | none => none
      | some ((rv, arg), s) =>
          if rv < 0 then some (arg :: unread mem (i + 1) cnt, s)
          else (readArguments mem (i + 1) cnt s).map fun r => (arg :: r.1, r.2)

def readChecksum (s : StreamIn) : Option StreamIn :=
  if s.checksum then s.readByte.map (·.2) else some s

/-- The end of `__tgf_read_command`. -/
def endCommand (s : StreamIn) : StreamIn :=
  let s := { s with cmdIndex := s.cmdIndex + 1 }
  if s.lastErr < 0 then s
  else if s.crc ≠ 0 ∧ s.checksum then s.setLastErr eTgfInvcrc
  else s

/-- `__tgf_read_command`. -/
def readCommandArguments (mem : Allocation) (argCnt : Nat) (s : StreamIn) :
    Option (List ArgumentIn × StreamIn) :=
  match readArguments mem 0 argCnt (s.setLastErr 0) with
  | none => none
  | some (args, s) => s.readChecksum.map fun s => (args, s.endCommand)

/-- `tgf_read_command_hdr`: the type and the number of arguments. -/
def readCommandHdr (s : StreamIn) : Option (Except Int (CmdType × Nat) × StreamIn) :=
  match { s with crc := 0 }.readAlign4 with
  | none => none
  | some (.error rv, s) => some (.error rv, s)
  | some (.ok hdr, s) =>
      match CmdType.ofCode (s.convert (hdr.take 2)) with
      | none => some (.error eTgfOpnotsupp, s)
      | some type => some (.ok (type, s.convert (hdr.drop 2)), s)

/-- `tgf_read_command`: the error, or the command. -/
def readCommand (mem : Allocation) (s : StreamIn) : Option (Except Int CommandIn × StreamIn) :=
  match s.readCommandHdr with
  | none => none
  | some (.error rv, s) => some (.error rv, s)
  | some (.ok (type, argCnt), s) =>
      if ¬ mem.command then some (.error eTgfNomem, s)
      else match s.readCommandArguments mem argCnt with
        | none => none
        | some (args, s) =>
            if s.lastErr < 0 then some (.error s.lastErr, s)
            else if checkIn ⟨type, args⟩ then some (.ok ⟨type, args⟩, s)
            else some (.error eTgfInvargs, s)

end StreamIn

theorem ArgType.acceptsCode_code (expected actual : ArgType) :
    expected.acceptsCode actual.code = expected.accepts actual := by
  cases expected <;> cases actual <;> rfl

theorem all_acceptsCode (row : List ArgType) (args : List Argument) (values : List ArgumentIn)
    (h : values.map (·.type) = args.map (·.type.code)) :
    ((values.zip row).all fun p => p.2.acceptsCode p.1.type) =
      (args.zip row).all fun p => p.2.accepts p.1.type := by
  induction row generalizing args values with
  | nil => simp
  | cons expected row ih =>
    cases args with
    | nil =>
      rw [List.map_eq_nil_iff.mp h]
      rfl
    | cons arg args =>
      cases values with
      | nil => cases h
      | cons value values =>
        injection h with hcode hrest
        have hcode : value.type = arg.type.code := hcode
        rw [List.zip_cons_cons, List.zip_cons_cons, List.all_cons, List.all_cons,
          ih args values hrest, hcode, ArgType.acceptsCode_code]

/-- The check of the reader is the one of the commands that go to the client. -/
theorem checkIn_eq (type : CmdType) {args : List Argument} {values : List ArgumentIn}
    (h : values.map (·.type) = args.map (·.type.code)) :
    checkIn ⟨type, values⟩ = (commandCheck ⟨type, args⟩).isSome := by
  have hlength : values.length = args.length := by simpa using congrArg List.length h
  simp only [checkIn, commandCheck]
  generalize knownCmds type = known
  obtain ⟨min, max, row⟩ := known
  simp only [all_acceptsCode row args values h, hlength]
  grind

end ScCore.Tgf
