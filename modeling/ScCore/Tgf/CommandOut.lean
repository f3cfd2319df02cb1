import ScCore.Tgf.Buffering

/-!
# Commands of an output stream

`tgf_write_command` over the buffered output: the objects of the user become numbers, the
checksum is taken of the command, and its header, its arguments and the checksum are written.
-/

namespace ScCore.Tgf

open Lib

def eTgfClnt : Int := -12

/-- A `tgf_argument` of the writer, as far as its type uses it. Of a string there are the bytes
before its zero, or it is a null pointer. -/
inductive ArgOut where
  | int32 (aInt32 : BitVec 32)
  | int64
  | float (aFloat : BitVec 64)
  | data (aData : Block)
  | sctype (aSctype : UInt8)
  | int16 (aInt16 : BitVec 32)
  | string (aString : Option Block)
  | lazyData (aString : Option Block)
  | argLast
  | userid (aUserid : Ptr)
  | none
  deriving DecidableEq

namespace ArgOut

def type : ArgOut → ArgType
  | int32 _ => .int32
  | int64 => .int64
  | float _ => .float
  | data _ => .data
  | sctype _ => .sctype
  | int16 _ => .int16
  | string _ => .string
  | lazyData _ => .lazyData
  | argLast => .argLast
  | userid _ => .userid
  | none => .none

def updateCrcBlock (crc : UInt8) (bytes : List UInt8) : UInt8 :=
  xorFrom (xorFrom crc (toBytes 4 (BitVec.ofInt 32 (WriteStream.intLen bytes)).toNat)) bytes

/-- `update_crc_argument`. -/
def updateCrc (crc : UInt8) (arg : ArgOut) : Except Int UInt8 :=
  let crc := xorFrom crc (toBytes 4 arg.type.code)
  match arg with
  | int32 aInt32 => .ok (xorFrom crc (toBytes 4 aInt32.toNat))
  | int16 aInt16 => .ok (xorFrom crc ((toBytes 4 aInt16.toNat).take 2))
  | sctype aSctype => .ok (crc ^^^ aSctype)
  | int64 => .error eTgfOpnotsupp
  | float aFloat => .ok (xorFrom crc (toBytes 8 aFloat.toNat))
  | data aData => .ok (updateCrcBlock crc aData.1)
  | string (some aString) | lazyData (some aString) => .ok (updateCrcBlock crc aString.1)
  | string Option.none | lazyData Option.none => .ok crc
  | argLast | userid _ | none => .error eTgfInvargs

def chars : Option Block → List UInt8
  | some aString => aString.1
  | Option.none => []

def value : ArgOut → Option ArgValue
  | int32 aInt32 => some (.int32 aInt32)
  | float aFloat => some (.float aFloat)
  | data aData => some (.data aData.1)
  | sctype aSctype => some (.sctype aSctype)
  | int16 aInt16 => some (.int16 (aInt16.setWidth 16))
  | string aString => some (.string (chars aString))
  | lazyData aString => some (.lazyData (chars aString))
  | int64 | argLast | userid _ | none => Option.none

end ArgOut

/-- A `tgf_command` of the writer. -/
structure CommandOut where
  type : CmdType
  args : List ArgOut
  deriving DecidableEq

/-- `tgf_command_check`: the types of the row. -/
def CommandOut.check (cmd : CommandOut) : Option (List ArgType) :=
  commandCheck ⟨cmd.type, cmd.args.map fun arg => ⟨arg.type, 0⟩⟩

/-- The turn of `tgf_command_translate_out` for an argument. -/
def ArgOut.translate (map : MapNode) (expected : ArgType) (arg : ArgOut) : Except Int ArgOut :=
  if expected ≠ .userid then .ok arg
  else match arg with
    | .userid aUserid =>
        if aUserid.setWidth 32 = (-1 : BitVec 32) then .ok (.int32 (aUserid.setWidth 32))
        else match tgfMapOutLookup map aUserid with
          | Option.none => .error eTgfClnt
          | some id => .ok (.int32 id)
    | _ => .error eTgfClnt

/-- The loop of `tgf_command_translate_out`. -/
def translateOutArgs (map : MapNode) : List ArgOut → List ArgType → Except Int (List ArgOut)
  | arg :: args, expected :: row => do
      let arg ← arg.translate map expected
      let args ← translateOutArgs map args row
      return arg :: args
  | args, _ => return args

def CommandOut.translateOut (map : MapNode) (cmd : CommandOut) : Except Int (List ArgOut) :=
  match cmd.check with
  | none => .error eTgfInvargs
  | some row => translateOutArgs map cmd.args row

namespace WriteStream

/-- The `switch` of `tgf_write_argument`. -/
def writeValue (s : WriteStream) : ArgOut → Option (Int × WriteStream)
  | .int32 aInt32 => s.writeInt32 aInt32
  | .sctype aSctype => s.writeByte aSctype
  | .int16 aInt16 => s.writeInt16 (aInt16.setWidth 16)
  | .int64 => some (eTgfOpnotsupp, s)
  | .float aFloat => s.writeAllign4 (toBytes 8 aFloat.toNat)
  | .string aString | .lazyData aString => s.writeString (ArgOut.chars aString)
  | .data aData => s.writeData aData.1
  | .argLast | .userid _ | .none => some (eTgfInval, s)

def writeArgument (s : WriteStream) (arg : ArgOut) : Option (Int × WriteStream) :=
  if ArgType.argLast.code < arg.type.code then some (eTgfInvargs, s)
  else match s.allign4 with
    | none => none
    | some s => match s.writeInt32 (.ofNat 32 arg.type.code) with
      | none => none
      | some (rv, s) =>
          if rv < 0 then some (rv, s) else s.writeValue arg

def updateCrcArguments (crc : UInt8) : List ArgOut → Except Int UInt8
  | [] => .ok crc
  | arg :: args =>
      match arg.updateCrc crc with
      | .error rv => .error rv
      | .ok crc => updateCrcArguments crc args

def writeArguments (s : WriteStream) : List ArgOut → Option (Int × WriteStream)
  | [] => some (0, s)
  | arg :: args =>
      match s.writeArgument arg with
      | none => none
      | some (rv, s) => if rv < 0 then some (rv, s) else writeArguments s args

/-- The four bytes of a `tgf_command_header`. -/
def header (type : CmdType) (argCnt : Nat) : List UInt8 :=
  toBytes 2 type.code ++ toBytes 2 argCnt

def writeCommandHdr (s : WriteStream) (hdr : List UInt8) : Option (Int × WriteStream) :=
  (s.writeAllign4 hdr).map fun r => if r.1 < 0 then (r.1, r.2.setLastErr r.1) else (0, r.2)

/-- `tgf_write_translated_command`. What comes of the byte of the checksum is not looked at. -/
def writeTranslatedCommand (s : WriteStream) (cmd : CommandOut) : Option (Int × WriteStream) :=
  let hdr := header cmd.type cmd.args.length
  match updateCrcArguments (xorFrom 0 hdr) cmd.args with
  | .error rv => some (rv, s.setLastErr rv)
  | .ok crc => match s.writeCommandHdr hdr with
    | none => none
    | some (rv, s) =>
        if rv < 0 then some (rv, s)
        else match s.writeArguments cmd.args with
          | none => none
          | some (rv, s) =>
              if rv < 0 then some (rv, s) else (s.writeByte crc).map fun r => (0, r.2)

def addObject (s : WriteStream) (clId : Ptr) : Option (Nat × MapNode) :=
  if clId = 0 then some (1, s.hash) else tgfMapOutAdd s.hash clId s.cmdIndex

def writeCommand (s : WriteStream) (cmd : CommandOut) (clId : Ptr) : Option (Int × WriteStream) :=
  if s.lastErr < 0 then some (s.lastErr, s)
  else match s.addObject clId with
    | none => none
    | some (0, _) => some (eTgfClnt, s)
    | some (_, hash) =>
        let s := { s with hash := hash, cmdIndex := s.cmdIndex + 1 }
        match cmd.translateOut hash with
        | .error rv => some (rv, s.setLastErr rv)
        | .ok args => s.writeTranslatedCommand ⟨cmd.type, args⟩

/-- `tgf_stream_out_new` with `tgf_stream_out_custom` or `tgf_stream_out_buf`. -/
def fresh (sink : Sink) : WriteStream :=
  { sink := sink, blocks := [], text := [], lastErr := 0, hash := .nil, cmdIndex := 0 }

/-- The bytes of `TGF_HEADER_INITIALIZER` for a stream without compression: the signature, the
version, the byte order, the checksums, and the length of the identifier. -/
def headerBytes (idSize : Nat) : List UInt8 :=
  [84, 71, 70, 0, 3, 1, 0, 0, 0, 1, 0, 0, UInt8.ofNat idSize]

/-- `tgf_stream_out_start` without compression. -/
def start (s : WriteStream) (tgfId : Block) : Option (Int × WriteStream) :=
  let idLen := min tgfId.1.length 255
  let s := { s with cmdIndex := 0 }
  match s.write (headerBytes idLen) 13 with
  | none => none
  | some (rv, s) =>
      if rv < 0 then some (rv, s.setLastErr rv)
      else (s.write (tgfId.1.take idLen) idLen).map fun r =>
        if r.1 < 0 then (r.1, r.2.setLastErr r.1) else r

inductive Written : WriteStream → Prop where
  | start {sink : Sink} {tgfId : Block} {r : Int × WriteStream} :
      (fresh sink).start tgfId = some r → Written r.2
  | command {s : WriteStream} {cmd : CommandOut} {clId : Ptr} {r : Int × WriteStream} :
      Written s → s.writeCommand cmd clId = some r → Written r.2

end WriteStream

def argumentBytes (pos : Nat) (v : ArgValue) : List UInt8 :=
  List.replicate (padAt pos) 0 ++ v.encodeArgument false

def argumentsBytes : Nat → List ArgValue → List UInt8
  | _, [] => []
  | pos, v :: vs =>
      argumentBytes pos v ++ argumentsBytes (pos + (argumentBytes pos v).length) vs

def payloadBytes (values : List ArgValue) : List UInt8 :=
  values.flatMap (ArgValue.encodeArgument false)

def commandSum (type : CmdType) (values : List ArgValue) : UInt8 :=
  xorFrom 0 (WriteStream.header type values.length ++ payloadBytes values)

def openBytes (pos : Nat) (type : CmdType) (values : List ArgValue) : List UInt8 :=
  List.replicate (padAt pos) 0 ++ WriteStream.header type values.length ++
    argumentsBytes (pos + padAt pos + 4) values

def commandBytes (pos : Nat) (type : CmdType) (values : List ArgValue) : List UInt8 :=
  openBytes pos type values ++ [commandSum type values]

@[simp]
theorem length_header (type : CmdType) (argCnt : Nat) :
    (WriteStream.header type argCnt).length = 4 := by
  simp [WriteStream.header]

theorem argumentsAt_argumentsBytes {pos : Nat} {values : List ArgValue}
    (fits : ∀ v ∈ values, v.Fits) :
    ArgumentsAt false pos values (argumentsBytes pos values) (payloadBytes values) := by
  induction values generalizing pos with
  | nil => exact .nil
  | cons v vs ih =>
    have pads : (List.replicate (padAt pos) (0 : UInt8)).length = padAt pos := List.length_replicate
    have rest : ArgumentsAt false (pos + (argumentBytes pos v).length) vs
        (argumentsBytes (pos + (argumentBytes pos v).length) vs) (payloadBytes vs) :=
      ih fun w hw => fits w (List.mem_cons_of_mem v hw)
    rw [argumentBytes, List.length_append, ← Nat.add_assoc] at rest
    rw [argumentsBytes, argumentBytes, List.length_append, ← Nat.add_assoc]
    exact .cons pads (fits v List.mem_cons_self) rest

theorem argumentsBytes_append (pos : Nat) (vs ws : List ArgValue) :
    argumentsBytes pos (vs ++ ws) =
      argumentsBytes pos vs ++ argumentsBytes (pos + (argumentsBytes pos vs).length) ws := by
  induction vs generalizing pos with
  | nil => rfl
  | cons v vs ih =>
    rw [List.cons_append, argumentsBytes, ih, argumentsBytes, List.append_assoc,
      List.length_append, Nat.add_assoc]

namespace ArgOut

variable {arg : ArgOut} {v : ArgValue}

theorem fits_of_value (h : arg.value = some v) : v.Fits := by
  have short (aString : Option Block) : (chars aString).length < 2 ^ 31 := by
    cases aString with
    | none => exact Nat.two_pow_pos 31
    | some aString => exact aString.2
  cases arg with
  | string aString | lazyData aString =>
    cases h
    exact short aString
  | data aData =>
    cases h
    exact aData.2
  | int32 | float | sctype | int16 =>
    cases h
    trivial
  | int64 | argLast | userid | none => cases h

theorem type_of_value (h : arg.value = some v) : v.type = arg.type := by
  cases arg <;> cases h <;> rfl

theorem xorFrom_zeros (sum : UInt8) (n : Nat) : xorFrom sum (List.replicate n 0) = sum := by
  induction n with
  | zero => rfl
  | succ n ih =>
    rw [List.replicate_succ, ← List.singleton_append, xorFrom_append]
    show xorFrom (sum ^^^ 0) _ = sum
    rw [UInt8.xor_zero, ih]

theorem toBytes_mod (len n : Nat) : toBytes len (n % 256 ^ len) = toBytes len n := by
  induction len generalizing n with
  | zero => rfl
  | succ len ih =>
    have low : n % 256 ^ (len + 1) % 256 = n % 256 :=
      Nat.mod_mod_of_dvd n (Dvd.intro_left _ (pow_succ 256 len).symm)
    have high : n % 256 ^ (len + 1) / 256 = n / 256 % 256 ^ len := by
      rw [pow_succ', Nat.mod_mul_right_div_self]
    have first : UInt8.ofNat (n % 256 ^ (len + 1)) = UInt8.ofNat n := by
      apply UInt8.toNat_inj.mp
      rw [UInt8.toNat_ofNat', UInt8.toNat_ofNat']
      exact low
    rw [toBytes, toBytes, first, high, ih]

theorem updateCrc_eq (h : arg.value = some v) (crc : UInt8) :
    arg.updateCrc crc = .ok (xorFrom crc (v.encodeArgument false)) := by
  have block (crc : UInt8) (aString : Block) :
      updateCrcBlock crc aString.1 = xorFrom crc (toBytes 4 aString.1.length ++ aString.1) := by
    rw [updateCrcBlock, WriteStream.toNat_intLen aString.2, xorFrom_append]
  have string (aString : Option Block) (crc : UInt8) :
      (match aString with
        | some aString => updateCrcBlock crc aString.1
        | Option.none => crc) =
        xorFrom crc (toBytes 4 (chars aString).length ++ chars aString) := by
    cases aString with
    | none => exact (xorFrom_zeros crc 4).symm
    | some aString => exact block crc aString
  rw [ArgValue.encodeArgument, xorFrom_append, type_of_value h]
  cases arg with
  | int32 | float | sctype =>
    cases h
    rfl
  | int16 aInt16 =>
    cases h
    have low : (toBytes 4 aInt16.toNat).take 2 =
        toBytes 2 (aInt16.setWidth 16 : BitVec 16).toNat := by
      rw [BitVec.toNat_setWidth]
      exact (toBytes_mod 2 aInt16.toNat).symm
    rw [updateCrc, low]
    rfl
  | data aData =>
    cases h
    rw [updateCrc, block]
    rfl
  | string aString =>
    cases h
    have both := string aString (xorFrom crc (toBytes 4 ArgType.string.code))
    cases aString with
    | none => exact congrArg Except.ok both
    | some aString => exact congrArg Except.ok both
  | lazyData aString =>
    cases h
    have both := string aString (xorFrom crc (toBytes 4 ArgType.lazyData.code))
    cases aString with
    | none => exact congrArg Except.ok both
    | some aString => exact congrArg Except.ok both
  | int64 | argLast | userid | none => cases h

theorem updateCrc_none (h : arg.value = Option.none) (crc : UInt8) :
    ∃ rv, arg.updateCrc crc = .error rv ∧ rv < 0 := by
  cases arg with
  | int32 | float | data | sctype | int16 | string | lazyData => cases h
  | int64 => exact ⟨eTgfOpnotsupp, rfl, by decide⟩
  | argLast | userid | none => exact ⟨eTgfInvargs, rfl, by decide⟩

end ArgOut

end ScCore.Tgf
