import ScCore.Tgf.Reads

/-!
# What is decoded

The bytes of arguments and commands, and how an argument can be given up without an error. An
argument that is read is one whose bytes the stream has, or there is an error, or it is given up
in one of these ways.
-/

namespace ScCore.Tgf

open Lib

/-! ## Bytes of arguments -/

def wordBytes (conv : Bool) (len n : Nat) : List UInt8 := swapBytes conv (toBytes len n)

@[simp]
theorem length_wordBytes (conv : Bool) (len n : Nat) : (wordBytes conv len n).length = len := by
  rw [wordBytes, length_swapBytes, length_toBytes]

theorem wordBytes_ofBytes (conv : Bool) (word : List UInt8) :
    wordBytes conv word.length (ofBytes (swapBytes conv word)) = word := by
  have h := toBytes_ofBytes (swapBytes conv word)
  rw [length_swapBytes] at h
  rw [wordBytes, h, swapBytes_swapBytes]

namespace ArgValue

def type : ArgValue → ArgType
  | int32 _ => .int32
  | float _ => .float
  | data _ => .data
  | sctype _ => .sctype
  | int16 _ => .int16
  | string _ => .string
  | lazyData _ => .lazyData

def encode (conv : Bool) : ArgValue → List UInt8
  | int32 aInt32 => wordBytes conv 4 aInt32.toNat
  | float aFloat => wordBytes conv 8 aFloat.toNat
  | data bytes | string bytes | lazyData bytes => wordBytes conv 4 bytes.length ++ bytes
  | sctype aSctype => [aSctype]
  | int16 aInt16 => wordBytes conv 2 aInt16.toNat

def Fits : ArgValue → Prop
  | data bytes | string bytes | lazyData bytes => bytes.length < 2 ^ 31
  | _ => True

def Allocated (alloc : Int → Bool) : ArgValue → Prop
  | data bytes => alloc bytes.length
  | string bytes | lazyData bytes => alloc (bytes.length + 1)
  | _ => True

def encodeArgument (conv : Bool) (v : ArgValue) : List UInt8 :=
  wordBytes conv 4 v.type.code ++ v.encode conv

def argument (v : ArgValue) : ArgumentIn := ⟨v.type.code, some v⟩

end ArgValue

variable {n : Nat}

theorem ArgType.code_of_ofCode {type : ArgType} (h : ArgType.ofCode n = some type) :
    type.code = n := by
  unfold ArgType.ofCode at h
  split at h <;> cases h <;> rfl

theorem ArgType.ofCode_eq_none (hcodes : ∀ type, ArgType.ofCode n = some type →
    type = .argLast ∨ type = .userid ∨ type = .none) : ArgType.ofCode n = Option.none := by
  cases h : ArgType.ofCode n with
  | none => rfl
  | some type =>
    obtain rfl := ArgType.code_of_ofCode h
    rcases hcodes type h with rfl | rfl | rfl <;> cases h

def padAt (offset : Nat) : Nat := (4 - offset % 4) % 4

inductive ArgumentsAt (conv : Bool) :
    Nat → List ArgValue → List UInt8 → List UInt8 → Prop where
  | nil {offset : Nat} : ArgumentsAt conv offset [] [] []
  | cons {offset : Nat} {padding bytes payload : List UInt8} {v : ArgValue} {vs : List ArgValue} :
      padding.length = padAt offset → v.Fits →
      ArgumentsAt conv (offset + padding.length + (v.encodeArgument conv).length) vs bytes payload →
      ArgumentsAt conv offset (v :: vs) (padding ++ v.encodeArgument conv ++ bytes)
        (v.encodeArgument conv ++ payload)

def CmdType.code : CmdType → Nat
  | .nop => 0
  | .genel => 1
  | .declareSegment => 2
  | .switchToSegment => 3
  | .setbeg => 4
  | .setend => 5
  | .findbyidtf => 6
  | .endofstream => 7

theorem CmdType.code_of_ofCode {type : CmdType} (h : CmdType.ofCode n = some type) :
    type.code = n := by
  unfold CmdType.ofCode at h
  split at h <;> cases h <;> rfl

/-- The bytes of a command from an offset on: every argument is there with its type and its
value, and the checksum, if there is one, is the sum of all the words. -/
def CommandAt (conv checksum : Bool) (offset : Nat) (cmd : CommandIn) (bytes : List UInt8) : Prop :=
  ∃ padding hdr values body payload,
    padding.length = padAt offset ∧
    hdr = wordBytes conv 2 cmd.type.code ++ wordBytes conv 2 cmd.arguments.length ∧
    cmd.arguments = values.map ArgValue.argument ∧
    ArgumentsAt conv (offset + padding.length + 4) values body payload ∧
    bytes = padding ++ hdr ++ body ++ (if checksum then [xorFrom 0 (hdr ++ payload)] else [])

/-! ## Arguments that are given up -/

def blockExtra : ArgType → Option Int
  | .string => some 1
  | .lazyData => some 1
  | .data => some 0
  | _ => none

/-- The number that a word of the stream has as `int`. -/
def sizeOf32 (conv : Bool) (word : List UInt8) : Int :=
  (BitVec.ofNat 32 (ofBytes (swapBytes conv word))).toInt

inductive ValueSilent (alloc : Int → Bool) (conv : Bool) (type : Nat) :
    List UInt8 → List UInt8 → Prop where
  | type {left : List UInt8} : ArgType.ofCode type = none ∨ ArgType.ofCode type = some .int64 →
      ValueSilent alloc conv type [] left
  | float {taken : List UInt8} : ArgType.ofCode type = some .float → taken.length < 8 →
      ValueSilent alloc conv type taken []
  | memory {argType : ArgType} {extra : Int} {size left : List UInt8} :
      ArgType.ofCode type = some argType → blockExtra argType = some extra → size.length = 4 →
      alloc (sizeOf32 conv size + extra) = false → ValueSilent alloc conv type size left
  | cut {argType : ArgType} {extra : Int} {size taken : List UInt8} :
      ArgType.ofCode type = some argType → blockExtra argType = some extra → size.length = 4 →
      alloc (sizeOf32 conv size + extra) →
      (taken.length < sizeOf32 conv size ∨ sizeOf32 conv size < 0 ∧ taken = []) →
      ValueSilent alloc conv type (size ++ taken) []
  | int16 {left : List UInt8} : ArgType.ofCode type = some .int16 → 0 < left.length →
      left.length ≤ 2 → ValueSilent alloc conv type [] left

/-- An argument is given up without an error: its type, if that is read, and the bytes that are
skipped, taken and left. -/
inductive Silent (alloc : Int → Bool) (conv : Bool) (offset : Nat) :
    Option Nat → List UInt8 → List UInt8 → List UInt8 → Prop where
  | before {left : List UInt8} : left.length < 4 → Silent alloc conv offset none [] [] left
  | behind {skipped left : List UInt8} : skipped.length = padAt offset → left.length < 4 →
      Silent alloc conv offset none skipped [] left
  | value {skipped word taken left : List UInt8} : skipped.length = padAt offset →
      word.length = 4 → ValueSilent alloc conv (ofBytes (swapBytes conv word)) taken left →
      Silent alloc conv offset (some (ofBytes (swapBytes conv word))) skipped (word ++ taken) left

namespace StreamIn

/-! ## One argument -/

variable {width i cnt : Nat} {res : Int × ArgumentIn} {args : List ArgumentIn}

theorem wordBytes_convert (s : StreamIn) {word : List UInt8} {len : Nat}
    (hlength : word.length = len) (hwidth : 256 ^ len = 2 ^ width) :
    wordBytes s.conv len (BitVec.ofNat width (s.convert word)).toNat = word := by
  have hlt := ofBytes_lt (swapBytes s.conv word)
  rw [length_swapBytes, hlength, hwidth] at hlt
  rw [BitVec.toNat_ofNat, convert, Nat.mod_eq_of_lt hlt, ← hlength, wordBytes_ofBytes]

inductive ValueOutcome (alloc : Int → Bool) (arg : ArgumentIn) (s : StreamIn) :
    Int × ArgumentIn → StreamIn → Prop where
  | read {v : ArgValue} {s' : StreamIn} : arg.type = v.type.code → v.Fits → v.Allocated alloc →
      s'.lastErr = s.lastErr → Moved s [] (v.encode s.conv) [] s' →
      ValueOutcome alloc arg s (0, { arg with value := some v }) s'
  | error {rv : Int} {s' : StreamIn} : rv < 0 → s'.lastErr < 0 →
      ValueOutcome alloc arg s (rv, arg) s'
  | silent {rv : Int} {taken : List UInt8} (lost : List UInt8) {s' : StreamIn} :
      ValueSilent alloc s.conv arg.type taken (s'.pending ++ lost) → Moved s [] taken lost s' →
      (rv < 0 ∧ s'.lastErr = s.lastErr ∨
        0 < rv ∧ 0 ≤ s'.lastErr ∧ taken = [] ∧ s'.pending.length < 4) →
      ValueOutcome alloc arg s (rv, arg) s'

variable {s s' : StreamIn} {alloc : Int → Bool} {arg : ArgumentIn}

variable (alloc arg) in
theorem WordRead.outcome {len : Nat} {least : Int} {r : Except Int Nat}
    {f : BitVec width → ArgValue} (h : WordRead len least s r s')
    (hwidth : 256 ^ len = 2 ^ width) (htype : ∀ n, arg.type = (f n).type.code)
    (hfits : ∀ n, (f n).Fits ∧ (f n).Allocated alloc)
    (hencode : ∀ n, (f n).encode s.conv = wordBytes s.conv len n.toNat)
    (hpartly : 0 < s.pending.length → s.pending.length ≤ least →
      ValueSilent alloc s.conv arg.type [] s.pending) (hleast : least < 4) :
    ∃ res, setValue arg (fun n => f (.ofNat width n)) (some (r, s')) = some (res, s') ∧
      ValueOutcome alloc arg s res s' := by
  cases h with
  | @ok bs _ hlength hlast hmoved =>
    refine ⟨_, rfl, ValueOutcome.read (htype _) (hfits _).1 (hfits _).2 hlast ?_⟩
    rw [hencode, s.wordBytes_convert hlength hwidth]
    exact hmoved
  | error hrv hlast hmoved heof =>
    exact ⟨_, rfl, ValueOutcome.error hrv (by rw [hlast]; exact hrv)⟩
  | partly hpos hle hrv hlast _ hmoved =>
    refine ⟨_, rfl, ValueOutcome.silent [] ?_ hmoved (Or.inr ⟨hpos, ?_, rfl, ?_⟩)⟩
    · rw [List.append_nil, hmoved.pending_eq]
      exact hpartly (by omega) (by omega)
    · rw [hlast]
      exact hpos.le
    · rw [hmoved.pending_eq]
      omega

variable (alloc arg) in
theorem ByteRead.outcome {r : Except Int UInt8} (h : ByteRead s r s')
    (htype : arg.type = ArgType.sctype.code) :
    ∃ res, setValue arg .sctype (some (r, s')) = some (res, s') ∧ ValueOutcome alloc arg s res
    s' := by
  cases h with
  | ok hlast hmoved =>
    exact ⟨_, rfl, ValueOutcome.read (v := .sctype _) htype trivial trivial hlast hmoved⟩
  | error hrv hlast => exact ⟨_, rfl, ValueOutcome.error hrv (by rw [hlast]; exact hrv)⟩

theorem read_float_outcome (htype : ArgType.ofCode arg.type = some .float)
    (h : setValue arg (fun bytes => .float (.ofNat 64 (s.convert bytes))) (s.read 8) =
      some (res, s')) : ValueOutcome alloc arg s res s' := by
  rcases s.read_spec 8 with ⟨hneg, _⟩ | ⟨r, s'', hread, hblock⟩
  · omega
  rw [hread] at h
  cases hblock with
  | @ok bs _ hlength hlast hmoved =>
    cases h
    have hcode : arg.type = ArgType.float.code := (ArgType.code_of_ofCode htype).symm
    refine ValueOutcome.read hcode trivial trivial hlast ?_
    rw [ArgValue.encode, s.wordBytes_convert (by omega) (by norm_num)]
    exact hmoved
  | @error rv bs _ hrv hshort hpending hlast hmoved =>
    cases h
    refine ValueOutcome.silent [] ?_ hmoved (Or.inl ⟨hrv, hlast⟩)
    rw [hpending]
    rcases hshort with hshort | ⟨hneg, _⟩
    · exact ValueSilent.float htype (by omega)
    · omega

theorem readBlock_outcome {argType : ArgType} {extra : Int} {f : List UInt8 → ArgValue}
    (htype : ArgType.ofCode arg.type = some argType) (hextra : blockExtra argType = some extra)
    (hf : ∀ bs, (f bs).type = argType ∧ ((f bs).Fits ↔ bs.length < 2 ^ 31) ∧
      ((f bs).Allocated alloc ↔ alloc (bs.length + extra)) ∧
      ∀ conv, (f bs).encode conv = wordBytes conv 4 bs.length ++ bs)
        (h : setValue arg f (s.readBlock alloc extra) = some (res, s')) :
    ValueOutcome alloc arg s res s' := by
  obtain ⟨r, s₁, hword, hread⟩ := s.readInt32_spec
  rw [readBlock, hword] at h
  cases hread with
  | error hrv hlast =>
    cases h
    exact ValueOutcome.error hrv (by rw [hlast]; exact hrv)
  | partly hpos hle => omega
  | @ok size _ hsize hlast hmoved =>
    simp only at h
    have hconv : (BitVec.ofNat 32 (s.convert size)).toInt = sizeOf32 s.conv size := rfl
    rw [hconv] at h
    split at h
    case isFalse halloc =>
      cases h
      refine ValueOutcome.silent [] ?_ hmoved (Or.inl ⟨by decide, hlast⟩)
      exact ValueSilent.memory htype hextra hsize (Bool.eq_false_iff.mpr halloc)
    case isTrue halloc =>
      rcases s₁.read_spec (sizeOf32 s.conv size) with ⟨_, _, hnone⟩ | ⟨r, s₂, hread, hblock⟩
      · rw [hnone] at h
        cases h
      rw [hread] at h
      cases hblock with
      | @ok bs _ hlength hlast' hmoved' =>
        cases h
        obtain ⟨hft, hfits, halloc', hencode⟩ := hf bs
        have hlt : bs.length < 2 ^ 31 := by
          have hbound := (BitVec.ofNat 32 (ofBytes (swapBytes s.conv size))).toInt_lt
          rw [sizeOf32] at hlength
          omega
        refine ValueOutcome.read ?_ (hfits.mpr hlt) ?_ (hlast'.trans hlast) ?_
        · rw [hft, ArgType.code_of_ofCode htype]
        · rw [halloc', hlength]
          exact halloc
        · have hsizebytes : wordBytes s.conv 4 bs.length = size := by
            have hnat : (BitVec.ofNat 32 (s.convert size)).toNat = bs.length := by
              have hint := hlength
              rw [← hconv, BitVec.toInt_eq_toNat_of_lt] at hint
              · omega
              · rw [BitVec.toInt_eq_toNat_cond] at hint
                split at hint
                · omega
                · have := (BitVec.ofNat 32 (s.convert size)).isLt
                  omega
            rw [← hnat]
            exact s.wordBytes_convert hsize (by norm_num)
          rw [hencode, hsizebytes]
          exact hmoved.take hmoved'
      | @error rv bs _ hrv hshort hpending hlast' hmoved' =>
        cases h
        refine ValueOutcome.silent [] ?_ (hmoved.take hmoved')
          (Or.inl ⟨hrv, hlast'.trans hlast⟩)
        rw [hpending]
        exact ValueSilent.cut htype hextra hsize halloc hshort

theorem readValue_outcome (h : s.readValue alloc arg = some (res, s')) :
    ValueOutcome alloc arg s res s' := by
  have hblock (f : List UInt8 → ArgValue) (hf : f = .string ∨ f = .lazyData) (bs : List UInt8) :
      ((f bs).Fits ↔ bs.length < 2 ^ 31) ∧ ((f bs).Allocated alloc ↔ alloc (bs.length + 1)) ∧
        ∀ conv, (f bs).encode conv = wordBytes conv 4 bs.length ++ bs := by
    rcases hf with rfl | rfl <;> exact ⟨Iff.rfl, Iff.rfl, fun _ => rfl⟩
  rw [readValue] at h
  split at h
  case h_1 htype =>
    obtain ⟨r, s₁, hword, hread⟩ := s.readInt32_spec
    obtain ⟨res', hset, hout⟩ := hread.outcome alloc arg (f := .int32)
      (by norm_num) (fun _ => (ArgType.code_of_ofCode htype).symm) (fun _ => ⟨trivial, trivial⟩)
      (fun _ => rfl) (fun _ hle => by omega) (by decide)
    rw [hword, hset] at h
    cases h
    exact hout
  case h_2 htype =>
    cases h
    exact ValueOutcome.silent [] (ValueSilent.type (Or.inr htype)) (Moved.refl s)
      (Or.inl ⟨by decide, rfl⟩)
  case h_3 htype => exact read_float_outcome htype h
  case h_4 htype =>
    exact readBlock_outcome htype rfl (fun bs => ⟨rfl, hblock _ (Or.inl rfl) bs⟩) h
  case h_5 htype =>
    refine readBlock_outcome htype rfl (fun bs => ⟨rfl, Iff.rfl, ?_, fun _ => rfl⟩) h
    rw [add_zero]
    rfl
  case h_6 htype =>
    obtain ⟨r, s₁, hbyte, hread⟩ := s.readByte_spec
    obtain ⟨res', hset, hout⟩ := hread.outcome alloc arg
      (ArgType.code_of_ofCode htype).symm
    rw [hbyte, hset] at h
    cases h
    exact hout
  case h_7 htype =>
    obtain ⟨r, s₁, hword, hread⟩ := s.readInt16_spec
    obtain ⟨res', hset, hout⟩ := hread.outcome alloc arg (f := .int16)
      (by norm_num) (fun _ => (ArgType.code_of_ofCode htype).symm) (fun _ => ⟨trivial, trivial⟩)
      (fun _ => rfl) (fun hpos hle => ValueSilent.int16 htype hpos (by omega)) (by decide)
    rw [hword, hset] at h
    cases h
    exact hout
  case h_8 htype =>
    exact readBlock_outcome htype rfl (fun bs => ⟨rfl, hblock _ (Or.inr rfl) bs⟩) h
  case h_9 =>
    cases h
    refine ValueOutcome.silent [] (ValueSilent.type (Or.inl ?_)) (Moved.refl s)
      (Or.inl ⟨by decide, rfl⟩)
    apply ArgType.ofCode_eq_none
    intro type htype
    cases type <;> simp_all

inductive ArgumentOutcome (alloc : Int → Bool) (s : StreamIn) :
    Int × ArgumentIn → StreamIn → Prop where
  | read {padding : List UInt8} {v : ArgValue} {s' : StreamIn} : padding.length = padAt s.offset →
      v.Fits → v.Allocated alloc → s'.lastErr = s.lastErr →
      Moved s padding (v.encodeArgument s.conv) [] s' → ArgumentOutcome alloc s (0, v.argument) s'
  | error {rv : Int} {arg : ArgumentIn} {s' : StreamIn} : rv < 0 → s'.lastErr < 0 →
      ArgumentOutcome alloc s (rv, arg) s'
  | silent {rv : Int} {arg : ArgumentIn} {type : Option Nat} {skipped taken : List UInt8}
      (lost : List UInt8) {s' : StreamIn} :
      Silent alloc s.conv s.offset type skipped taken (s'.pending ++ lost) →
      Moved s skipped taken lost s' → arg.value = none → type.toList <+: [arg.type] →
      (rv < 0 ∧ s'.lastErr = s.lastErr ∨
        0 < rv ∧ 0 ≤ s'.lastErr ∧ s'.pending.length < 4 ∧ s'.offset % 4 = 0) →
      ArgumentOutcome alloc s (rv, arg) s'

theorem readArgument_outcome {type : Nat} (h : s.readArgument alloc ⟨type, none⟩ = some (res, s')) :
    ArgumentOutcome alloc s res s' := by
  rw [readArgument] at h
  rcases s.readAlign4_spec with ⟨_, _, hnone⟩ | ⟨r, s₁, hread, halign⟩
  · rw [hnone] at h
    cases h
  rw [hread] at h
  cases halign with
  | behind hrv hskipped hshort hlast hmoved =>
    cases h
    refine ArgumentOutcome.silent _ (Silent.behind hskipped ?_) hmoved rfl (List.nil_prefix)
      (Or.inl ⟨hrv, hlast⟩)
    have hlength := congrArg List.length hmoved.pending
    simp only [List.length_append, List.length_nil] at hlength ⊢
    omega
  | before hrv hshort hlast hmoved =>
    cases h
    refine ArgumentOutcome.silent _ (Silent.before ?_) hmoved rfl (List.nil_prefix)
      (Or.inl ⟨hrv, hlast⟩)
    have hlength := congrArg List.length hmoved.pending
    simp only [List.length_append, List.length_nil] at hlength ⊢
    omega
  | @ok padding word _ hskipped hword hlast hmoved =>
    have hconv : s₁.convert word = ofBytes (swapBytes s.conv word) := by
      rw [convert, hmoved.conv]
    cases readValue_outcome h with
    | @read v _ htype hfits halloc hlast' hmoved' =>
      have hcode : wordBytes s.conv 4 v.type.code = word := by
        rw [← htype, hconv, ← hword, wordBytes_ofBytes]
      have harg : (⟨s₁.convert word, some v⟩ : ArgumentIn) = v.argument :=
        congrArg (ArgumentIn.mk · (some v)) htype
      rw [harg]
      refine ArgumentOutcome.read hskipped hfits halloc (hlast'.trans hlast) ?_
      rw [ArgValue.encodeArgument, hcode, ← hmoved.conv]
      exact hmoved.take hmoved'
    | error hrv hneg => exact ArgumentOutcome.error hrv hneg
    | silent lost hsilent hmoved' hrv =>
      rw [hmoved.conv, hconv] at hsilent
      refine ArgumentOutcome.silent lost (Silent.value hskipped hword hsilent)
        (hmoved.take hmoved') rfl ?_ ?_
      · rw [hconv]
        exact List.prefix_rfl
      · rcases hrv with ⟨hrv, hlast'⟩ | ⟨hrv, hlast', rfl, hlength⟩
        · exact Or.inl ⟨hrv, hlast'.trans hlast⟩
        · refine Or.inr ⟨hrv, hlast', hlength, ?_⟩
          rw [hmoved'.offset, hmoved.offset, hskipped, hword, pad]
          simp only [List.length_nil]
          omega

/-! ## The arguments -/

inductive ArgumentsOutcome (mem : Allocation) (i cnt : Nat) (s : StreamIn) :
    List ArgumentIn → StreamIn → Prop where
  | read {values : List ArgValue} {body payload : List UInt8} {s' : StreamIn} :
      values.length = cnt → ArgumentsAt s.conv s.offset values body payload →
      s.pending = body ++ s'.pending → s'.crc = xorFrom s.crc payload →
      s'.conv = s.conv → s'.checksum = s.checksum → s'.lastErr = s.lastErr →
      ArgumentsOutcome mem i cnt s (values.map ArgValue.argument) s'
  | error {args : List ArgumentIn} {s' : StreamIn} : s'.lastErr < 0 →
      ArgumentsOutcome mem i cnt s args s'
  | silent {values : List ArgValue} {body payload : List UInt8} {type : Option Nat}
      {skipped taken left : List UInt8} {args : List ArgumentIn} {s' : StreamIn} :
      ArgumentsAt s.conv s.offset values body payload →
      (∀ (k : Nat) (v : ArgValue), values[k]? = some v → v.Allocated (mem.block (i + k))) →
      Silent (mem.block (i + values.length)) s.conv (s.offset + body.length) type skipped taken
        left →
      s.pending = body ++ skipped ++ taken ++ left → s'.pending <+: left →
      s'.crc = xorFrom s.crc (payload ++ taken) → s'.checksum = s.checksum →
      values.length < cnt → args.length = cnt →
      values.map (·.type.code) ++ type.toList <+: args.map (·.type) →
      ArgumentsOutcome mem i cnt s args s'

theorem length_unread (mem : Allocation) (i cnt : Nat) : (unread mem i cnt).length = cnt := by
  rw [unread, List.length_map, List.length_range']

theorem readArguments_short (mem : Allocation) (hshort : s.pending.length < 4)
    (hoffset : s.offset % 4 = 0) (h : readArguments mem i cnt s = some (args, s')) :
    args.length = cnt ∧ s'.pending <+: s.pending ∧ s'.crc = s.crc ∧ s'.checksum = s.checksum := by
  cases cnt with
  | zero =>
    cases h
    exact ⟨rfl, List.prefix_rfl, rfl, rfl⟩
  | succ cnt =>
    have hpad : s.pad = 0 := by
      rw [pad, hoffset]
    rw [readArguments, readArgument] at h
    rcases s.readAlign4_spec with ⟨_, hlt, _⟩ | ⟨r, s₁, hread, halign⟩
    · omega
    rw [hread] at h
    cases halign with
    | ok hskipped hbs _ hmoved =>
      have hlength := congrArg List.length hmoved.pending
      simp only [List.length_append] at hlength
      omega
    | @behind rv skipped lost _ hrv hskipped _ _ hmoved =>
      obtain rfl : skipped = [] := List.length_eq_zero_iff.mp (hskipped.trans hpad)
      simp only [if_pos hrv] at h
      cases h
      refine ⟨by rw [List.length_cons, length_unread], ?_, hmoved.crc, hmoved.checksum⟩
      exact ⟨lost, by simpa using hmoved.pending.symm⟩
    | @before rv lost _ hrv _ _ hmoved =>
      simp only [if_pos hrv] at h
      cases h
      refine ⟨by rw [List.length_cons, length_unread], ?_, hmoved.crc, hmoved.checksum⟩
      exact ⟨lost, by simpa using hmoved.pending.symm⟩

theorem ArgumentsOutcome.cons {mem : Allocation} {s₁ : StreamIn} {padding : List UInt8}
    {v : ArgValue} (hpadding : padding.length = padAt s.offset) (hfits : v.Fits)
    (halloc : v.Allocated (mem.block i)) (hlast : s₁.lastErr = s.lastErr)
    (hmoved : Moved s padding (v.encodeArgument s.conv) [] s₁)
    (h : ArgumentsOutcome mem (i + 1) cnt s₁ args s') :
    ArgumentsOutcome mem i (cnt + 1) s (v.argument :: args) s' := by
  have hpending : s.pending = padding ++ v.encodeArgument s.conv ++ s₁.pending := by
    simpa using hmoved.pending
  cases h with
  | @read values body payload _ hcnt hargs hrest hcrc hconv hchecksum hlast' =>
    rw [hmoved.conv, hmoved.offset] at hargs
    have hcnt' : (v :: values).length = cnt + 1 := by rw [List.length_cons, hcnt]
    refine ArgumentsOutcome.read hcnt' (ArgumentsAt.cons hpadding hfits hargs)
      ?_ ?_ (hconv.trans hmoved.conv) (hchecksum.trans hmoved.checksum) (hlast'.trans hlast)
    · rw [hpending, hrest]
      simp
    · rw [hcrc, hmoved.crc, xorFrom_append]
  | error hneg => exact ArgumentsOutcome.error hneg
  | @silent values body payload type skipped taken left _ _ hargs halloc' hsilent hrest hleft hcrc
      hchecksum hlt hlength htypes =>
    rw [hmoved.conv, hmoved.offset] at hargs
    have hargs' := ArgumentsAt.cons hpadding hfits hargs
    have hsilent' : Silent (mem.block (i + (v :: values).length)) s.conv
        (s.offset + (padding ++ v.encodeArgument s.conv ++ body).length) type skipped taken
          left := by
      rw [hmoved.conv, hmoved.offset] at hsilent
      have hblock : i + 1 + values.length = i + (v :: values).length := by
        rw [List.length_cons]
        omega
      have hoffset : s.offset + padding.length + (v.encodeArgument s.conv).length + body.length =
          s.offset + (padding ++ v.encodeArgument s.conv ++ body).length := by
        simp only [List.length_append]
        omega
      rwa [hblock, hoffset] at hsilent
    refine ArgumentsOutcome.silent hargs' ?_ hsilent' ?_ hleft ?_
      (hchecksum.trans hmoved.checksum) ?_ ?_ ?_
    · intro k w hw
      cases k with
      | zero =>
        cases hw
        exact halloc
      | succ k =>
        have hk := halloc' k w hw
        rwa [Nat.add_right_comm, Nat.add_assoc] at hk
    · rw [hpending, hrest]
      simp
    · rw [hcrc, hmoved.crc, List.append_assoc, xorFrom_append s.crc]
    · rw [List.length_cons]
      omega
    · rw [List.length_cons, hlength]
    · exact List.cons_prefix_cons.mpr ⟨rfl, htypes⟩

theorem readArguments_outcome (mem : Allocation) (h : readArguments mem i cnt s = some (args, s')) :
    ArgumentsOutcome mem i cnt s args s' := by
  induction cnt generalizing i s args with
  | zero =>
    cases h
    have hnil : ([] : List ArgValue).length = 0 := rfl
    exact ArgumentsOutcome.read hnil ArgumentsAt.nil rfl rfl rfl rfl rfl
  | succ cnt ih =>
    rw [readArguments] at h
    cases hread : s.readArgument (mem.block i) ⟨mem.types i, none⟩ with
    | none =>
      rw [hread] at h
      cases h
    | some res =>
      obtain ⟨⟨rv, arg⟩, s₁⟩ := res
      rw [hread] at h
      simp only at h
      cases readArgument_outcome hread with
      | read hpadding hfits halloc hlast hmoved =>
        rw [if_neg (by decide)] at h
        cases hrest : readArguments mem (i + 1) cnt s₁ with
        | none =>
          rw [hrest] at h
          cases h
        | some rest =>
          rw [hrest] at h
          cases h
          exact (ih hrest).cons hpadding hfits halloc hlast hmoved
      | error hrv hneg =>
        rw [if_pos hrv] at h
        cases h
        exact ArgumentsOutcome.error hneg
      | @silent _ _ type skipped taken lost _ hsilent hmoved hvalue htype hrv =>
        have hpending : s.pending = [] ++ skipped ++ taken ++ (s₁.pending ++ lost) := by
          simpa using hmoved.pending
        have htypes (rest : List ArgumentIn) :
            [].map (fun v : ArgValue => v.type.code) ++ type.toList <+:
              (arg :: rest).map (·.type) :=
          htype.trans ⟨rest.map (·.type), rfl⟩
        rcases hrv with ⟨hrv, _⟩ | ⟨hrv, _, hshort, hoffset⟩
        · rw [if_pos hrv] at h
          cases h
          refine ArgumentsOutcome.silent ArgumentsAt.nil nofun hsilent hpending
            (List.prefix_append _ _) hmoved.crc hmoved.checksum (Nat.succ_pos _) ?_ (htypes _)
          rw [List.length_cons, length_unread]
        · rw [if_neg (by omega)] at h
          cases hrest : readArguments mem (i + 1) cnt s₁ with
          | none =>
            rw [hrest] at h
            cases h
          | some rest =>
            rw [hrest] at h
            cases h
            obtain ⟨hlength, hleft, hcrc, hchecksum⟩ := readArguments_short mem hshort hoffset hrest
            refine ArgumentsOutcome.silent ArgumentsAt.nil nofun hsilent hpending
              (hleft.trans (List.prefix_append _ _)) (hcrc.trans hmoved.crc)
              (hchecksum.trans hmoved.checksum) (Nat.succ_pos _) ?_ (htypes _)
            rw [List.length_cons, hlength]

end StreamIn

end ScCore.Tgf
