import ScCore.Tgf.ReadBack

/-!
# Checksum of a command

What `tgf_write_command` leaves in a stream when it answers with no error: the whole command with
its checksum, or, where the sink has refused a byte, a command that is cut off.
-/

namespace ScCore.Tgf

open Lib Output

/-- The values of arguments. -/
abbrev ValuesOf (args : List ArgOut) (values : List ArgValue) : Prop :=
  List.Forall₂ (fun arg v => arg.value = some v) args values

def DataLast (values : List ArgValue) : Prop :=
  ∀ (before after : List ArgValue) (v : ArgValue), values = before ++ v :: after →
    v.type = .data → after = []

theorem DataLast.tail {v : ArgValue} {values : List ArgValue} (h : DataLast (v :: values)) :
    DataLast values := by
  intro before after w hw
  exact h (v :: before) after w (by rw [hw, List.cons_append])

namespace WriteStream

variable {s s' : WriteStream} {arg : ArgOut} {v : ArgValue}

structure Lost (s : WriteStream) (front : List UInt8) (v : ArgValue) (r : Int × WriteStream) :
    Prop where
  answer : r.1 = 0
  data : v.type = .data
  lastErr : r.2.lastErr < 0
  refused : s.toOutput.putAll (front ++ v.encode false) = none
  sent : r.2.sent = s.sent ++ front
  fits : r.2.Fits
  keeps : Keeps s r.2
  stuck : r.2.Stuck

theorem Lost.after {front₁ front₂ : List UInt8} {r : Int × WriteStream}
    (put : s.toOutput.putAll front₁ = some s'.toOutput) (keeps : Keeps s s')
    (h : Lost s' front₂ v r) : Lost s (front₁ ++ front₂) v r where
  answer := h.answer
  data := h.data
  lastErr := h.lastErr
  refused := by
    rw [List.append_assoc, putAll_append, put, Option.bind_some, h.refused]
  sent := by
    rw [h.sent, putAll_sent put, List.append_assoc]
  fits := h.fits
  keeps := keeps.trans h.keeps
  stuck := h.stuck

def typeBytes (pos : Nat) (type : ArgType) : List UInt8 :=
  List.replicate (padAt pos) 0 ++ toBytes 4 type.code

theorem argumentBytes_eq (pos : Nat) (v : ArgValue) :
    argumentBytes pos v = typeBytes pos v.type ++ v.encode false := by
  rw [argumentBytes, ArgValue.encodeArgument, ← List.append_assoc]
  rfl

theorem writeValue_spec (fits : s.Fits) (aligned : s.text.length % 4 = 0)
    (h : arg.value = some v) :
    ∃ r, s.writeValue arg = some r ∧ (Outcome s (v.encode false) r ∨ Lost s [] v r) := by
  have block (str : List UInt8) (short : str.length < 2 ^ 31) :=
    writeString_spec fits aligned short
  cases arg with
  | int32 aInt32 =>
    cases h
    obtain ⟨r, hr, hout, -, -⟩ := writeInt32_spec fits aligned aInt32
    exact ⟨r, hr, .inl hout⟩
  | float aFloat =>
    cases h
    have words : 4 ∣ (toBytes 8 aFloat.toNat).length := by
      rw [length_toBytes]
      decide
    obtain ⟨r, hr, hout⟩ := writeAllign4_spec fits words
    have nopad : padAt s.text.length = 0 := by rw [padAt, aligned]
    rw [nopad, List.replicate_zero, List.nil_append] at hout
    exact ⟨r, hr, .inl hout⟩
  | data aData =>
    cases h
    obtain ⟨r, hr, hout | ⟨hzero, rv, hout, hneg, hsent, hstuck⟩⟩ :=
      writeData_spec fits aligned aData.2
    · exact ⟨r, hr, .inl hout⟩
    · refine ⟨r, hr, .inr ?_⟩
      cases hout with
      | written hrv => exact absurd hneg (not_lt.mpr hrv)
      | refused _ hlast hput _ hfits hkeeps =>
        refine ⟨hzero, rfl, hlast, ?_, by rw [hsent, List.append_nil], hfits, hkeeps, hstuck⟩
        show s.toOutput.putAll (toBytes 4 aData.1.length ++ aData.1) = none
        rw [putAll_append, hput, Option.bind_none]
  | sctype aSctype =>
    cases h
    obtain ⟨r, hr, hout, -, -⟩ := writeWord_spec [aSctype] fits (Nat.mod_one _) (by simp)
    exact ⟨r, hr, .inl hout⟩
  | int16 aInt16 =>
    cases h
    have length : (toBytes 2 (aInt16.setWidth 16 : BitVec 16).toNat).length = 2 :=
      length_toBytes ..
    obtain ⟨r, hr, hout, -, -⟩ :=
      writeWord_spec (toBytes 2 (aInt16.setWidth 16 : BitVec 16).toNat) fits
        (by rw [length]; omega) (by rw [length]; decide)
    exact ⟨r, hr, .inl hout⟩
  | string aString | lazyData aString =>
    cases h
    have short : (ArgValue.string (ArgOut.chars aString)).Fits :=
      ArgOut.fits_of_value (rfl : (ArgOut.string aString).value = _)
    obtain ⟨r, hr, hout⟩ := block _ short
    exact ⟨r, hr, .inl hout⟩
  | int64 | argLast | userid | none => cases h

theorem code_le_argLast (h : arg.value = some v) : arg.type.code ≤ ArgType.argLast.code := by
  cases arg with
  | int32 | float | data | sctype | int16 | string | lazyData => simp [ArgOut.type, ArgType.code]
  | int64 | argLast | userid | none => cases h

theorem writeArgument_spec (fits : s.Fits) (phased : s.Phased) (h : arg.value = some v) :
    ∃ r, s.writeArgument arg = some r ∧ (Outcome s (argumentBytes s.sent.length v) r ∨
      Lost s (typeBytes s.sent.length v.type) v r) := by
  have pads : padAt s.sent.length = padAt s.text.length := by
    rw [Phased] at phased
    rw [padAt, padAt, phased]
  obtain ⟨s₁, hs₁, hput₁, hlast₁, hkeeps₁, haligned₁⟩ := allign4_spec fits
  rw [← pads] at hput₁
  obtain ⟨⟨rv, s₂⟩, hs₂, hout₂, -⟩ :=
    writeInt32_spec (fits.putAll hput₁) haligned₁ (.ofNat 32 arg.type.code)
  have code : (BitVec.ofNat 32 arg.type.code).toNat = v.type.code := by
    have lt := arg.type.code_lt
    rw [ArgOut.type_of_value h, BitVec.toNat_ofNat]
    omega
  rw [code] at hout₂
  have hout := hout₂.after hput₁ (fun h => hlast₁ ▸ h) hkeeps₁
  rw [writeArgument, if_neg (not_lt.mpr (code_le_argLast h)), hs₁]
  dsimp only
  rw [hs₂]
  dsimp only
  rw [argumentBytes_eq]
  by_cases hneg : rv < 0
  · rw [if_pos hneg]
    refine ⟨_, rfl, .inl ?_⟩
    cases hout with
    | written hrv => exact absurd hneg (not_lt.mpr hrv)
    | refused hrv hlast hput hsent hfits hkeeps =>
      refine .refused hrv hlast ?_ hsent hfits hkeeps
      rw [putAll_append, typeBytes, hput, Option.bind_none]
  · rw [if_neg hneg]
    cases hout with
    | refused hrv => exact absurd hrv hneg
    | written hrv hput hlast hkeeps =>
      have aligned₂ : s₂.text.length % 4 = 0 := by
        have phased₂ := phased.putAll fits hput
        have length := congrArg List.length (putAll_sent hput)
        rw [Phased] at phased phased₂
        rw [← phased₂, length, List.length_append, List.length_append, List.length_replicate,
          length_toBytes, padAt]
        omega
      obtain ⟨r, hr, hvalue | hlost⟩ := writeValue_spec (fits.putAll hput) aligned₂ h
      · exact ⟨r, hr, .inl (hvalue.after hput hlast hkeeps)⟩
      · have := hlost.after hput hkeeps
        rw [List.append_nil] at this
        exact ⟨r, hr, .inr this⟩

/-! ## Arguments -/

variable {args : List ArgOut} {crc : UInt8}

theorem updateCrcArguments_ok {sum : UInt8} (h : updateCrcArguments crc args = .ok sum) :
    ∃ values, ValuesOf args values ∧ sum = xorFrom crc (payloadBytes values) := by
  induction args generalizing crc with
  | nil =>
    cases h
    exact ⟨[], .nil, rfl⟩
  | cons arg args ih =>
    rw [updateCrcArguments] at h
    cases hvalue : arg.value with
    | none =>
      obtain ⟨rv, hrv, -⟩ := ArgOut.updateCrc_none hvalue crc
      rw [hrv] at h
      cases h
    | some v =>
      rw [ArgOut.updateCrc_eq hvalue] at h
      obtain ⟨values, hvalues, hsum⟩ := ih h
      refine ⟨v :: values, .cons hvalue hvalues, ?_⟩
      rw [hsum, payloadBytes, payloadBytes, List.flatMap_cons, xorFrom_append]

theorem updateCrcArguments_error {rv : Int} (h : updateCrcArguments crc args = .error rv) :
    rv < 0 := by
  induction args generalizing crc with
  | nil => cases h
  | cons arg args ih =>
    rw [updateCrcArguments] at h
    cases hvalue : arg.value with
    | none =>
      obtain ⟨rv', hrv', hneg⟩ := ArgOut.updateCrc_none hvalue crc
      rw [hrv'] at h
      cases h
      exact hneg
    | some v =>
      rw [ArgOut.updateCrc_eq hvalue] at h
      exact ih h

theorem writeArguments_spec {values : List ArgValue} (fits : s.Fits) (phased : s.Phased)
    (h : ValuesOf args values) (last : DataLast values) :
    ∃ r, s.writeArguments args = some r ∧
      (Outcome s (argumentsBytes s.sent.length values) r ∨
        ∃ before v, values = before ++ [v] ∧
          Lost s (argumentsBytes s.sent.length before ++
            typeBytes (s.sent.length + (argumentsBytes s.sent.length before).length) v.type)
            v r) := by
  induction h generalizing s with
  | nil => exact ⟨(0, s), rfl, .inl (.written le_rfl rfl id (.refl s))⟩
  | @cons arg v args values hvalue hvalues ih =>
    obtain ⟨⟨rv, s₁⟩, hr₁, hout | hlost⟩ := writeArgument_spec fits phased hvalue
    · rw [writeArguments, hr₁]
      dsimp only
      cases hout with
      | refused hrv hlast hput hsent hfits hkeeps =>
        rw [if_pos hrv]
        refine ⟨_, rfl, .inl (.refused hrv hlast ?_ hsent hfits hkeeps)⟩
        rw [argumentsBytes, putAll_append, hput, Option.bind_none]
      | written hrv hput hlast hkeeps =>
        rw [if_neg (not_lt.mpr hrv)]
        have position : s.sent.length + (argumentBytes s.sent.length v).length =
            s₁.sent.length := by
          rw [putAll_sent hput, List.length_append]
        obtain ⟨r, hr, hout | ⟨before, w, rfl, hlost⟩⟩ :=
          ih (fits.putAll hput) (phased.putAll fits hput) last.tail
        · refine ⟨r, hr, .inl ?_⟩
          rw [argumentsBytes, position]
          exact hout.after hput hlast hkeeps
        · refine ⟨r, hr, .inr ⟨v :: before, w, rfl, ?_⟩⟩
          have := hlost.after hput hkeeps
          rwa [argumentsBytes, position, List.length_append, ← Nat.add_assoc, position,
            List.append_assoc]
    · obtain rfl := last [] values v rfl hlost.data
      cases hvalues
      rw [writeArguments, hr₁]
      have zero : rv = 0 := hlost.answer
      dsimp only
      rw [if_neg (by omega), writeArguments]
      refine ⟨_, rfl, .inr ⟨[], v, rfl, ?_⟩⟩
      exact { hlost with answer := rfl }

/-! ## Commands -/

theorem writeCommandHdr_spec (fits : s.Fits) {hdr : List UInt8} (length : hdr.length = 4) :
    ∃ r, s.writeCommandHdr hdr = some r ∧
      Outcome s (List.replicate (padAt s.text.length) 0 ++ hdr) r := by
  have words : 4 ∣ hdr.length := by rw [length]
  obtain ⟨⟨rv, s'⟩, hr, hout⟩ := writeAllign4_spec fits words
  rw [writeCommandHdr, hr, Option.map_some]
  cases hout with
  | written hrv hput hlast hkeeps =>
    simp only [if_neg (not_lt.mpr hrv)]
    exact ⟨_, rfl, .written le_rfl hput hlast hkeeps⟩
  | refused hrv hlast hput hsent hfits hkeeps =>
    simp only [if_pos hrv]
    exact ⟨_, rfl, .refused hrv hrv hput hsent hfits ⟨hkeeps.hash, hkeeps.cmdIndex, hkeeps.sink⟩⟩

/-- The checksum behind data whose length was refused. It may be taken again. -/
theorem writeByte_stuck (fits : s.Fits) (stuck : s.Stuck) (hneg : s.lastErr < 0) (b : UInt8) :
    ∃ r, s.writeByte b = some r ∧ r.2.lastErr < 0 ∧
      (r.2.sent = s.sent ∨ r.2.sent = s.sent ++ [b]) := by
  cases hsink : s.sink with
  | memory size aligned =>
    have full : s.room = 0 := by
      rw [Stuck, hsink] at stuck
      exact stuck
    obtain ⟨s', -, hturn, -⟩ | ⟨rv, s', hflush, -, hlast, -, hsent, -⟩ :=
      flushThen_full fits full fun s => (s.store [b]).map fun s => (0, s)
    · rw [turn, hsink] at hturn
      cases hturn
    · have short : s.room < [b].length := by
        rw [full]
        exact Nat.one_pos
      exact ⟨_, by rw [writeByte, writeWord, if_pos short, hflush], hlast, .inl hsent⟩
  | custom writeFn =>
    have empty : s.text = [] := by
      rw [Stuck, hsink] at stuck
      exact stuck
    have size : s.sink.size = tgfWriteBufsize := by rw [hsink, Sink.size]
    have room : ¬ s.room < [b].length := by
      rw [room, size, empty]
      simp [tgfWriteBufsize]
    have fit : s.text.length + [b].length ≤ s.sink.size := by
      rw [size, empty]
      simp [tgfWriteBufsize]
    obtain ⟨s', hstore, hput, hlast, -⟩ := store_room fit
    refine ⟨(0, s'), ?_, hlast ▸ hneg, .inr (putAll_sent hput)⟩
    rw [writeByte, writeWord, if_neg room]
    dsimp only
    rw [hstore, Option.map_some]

end WriteStream

/-- What a call of `tgf_write_command` that answers with no error leaves in the stream: the whole
command, or what may go on as another one with arguments of the same types. -/
inductive Ended (s : WriteStream) (type : CmdType) (values : List ArgValue) (s' : WriteStream) :
    Prop where
  | whole : s.toOutput.putAll (commandBytes s.sent.length type values) = some s'.toOutput →
      0 ≤ s'.lastErr → Ended s type values s'
  | cut {values' : List ArgValue} {missing : List UInt8} :
      s.toOutput.putAll (commandBytes s.sent.length type values) = none → s'.lastErr < 0 →
      missing ≠ [] → values'.map ArgValue.type = values.map ArgValue.type →
      (∀ v ∈ values', v.Fits) →
      s'.sent ++ missing = s.sent ++ commandBytes s.sent.length type values' →
      Ended s type values s'

namespace WriteStream

variable {s : WriteStream}

theorem fits_of_values {args : List ArgOut} {values : List ArgValue} (h : ValuesOf args values) :
    ∀ v ∈ values, v.Fits := by
  induction h with
  | nil => exact fun _ hv => absurd hv List.not_mem_nil
  | cons hvalue _ ih =>
    intro w hw
    obtain rfl | hw := List.mem_cons.mp hw
    · exact ArgOut.fits_of_value hvalue
    · exact ih w hw

theorem openBytes_data (pos : Nat) (type : CmdType) (before : List ArgValue) (v : ArgValue) :
    openBytes pos type (before ++ [v]) =
      List.replicate (padAt pos) 0 ++ header type (before.length + 1) ++
        (argumentsBytes (pos + padAt pos + 4) before ++
          typeBytes (pos + padAt pos + 4 +
            (argumentsBytes (pos + padAt pos + 4) before).length) v.type) ++ v.encode false := by
  rw [openBytes, argumentsBytes_append, argumentsBytes, argumentsBytes, List.append_nil,
    argumentBytes_eq, List.length_append, List.length_singleton]
  simp only [List.append_assoc]

theorem sum_length (sum : UInt8) :
    toBytes 4 (List.replicate sum.toNat (0 : UInt8)).length = sum :: [0, 0, 0] := by
  have lt := sum.toNat_lt
  have first : UInt8.ofNat sum.toNat = sum := UInt8.ofNat_toNat
  have high : sum.toNat / 256 = 0 := Nat.div_eq_of_lt lt
  rw [List.length_replicate]
  simp [toBytes, high]

/-- Data whose length is refused, with or without the byte of the checksum behind. -/
theorem ended_of_lost {type : CmdType} {before : List ArgValue} {v : ArgValue}
    {r : Int × WriteStream} {sum : UInt8} {s' : WriteStream}
    (fits : ∀ w ∈ before ++ [v], w.Fits)
    (lost : Lost s (List.replicate (padAt s.sent.length) 0 ++ header type (before.length + 1) ++
      (argumentsBytes (s.sent.length + padAt s.sent.length + 4) before ++
        typeBytes (s.sent.length + padAt s.sent.length + 4 +
          (argumentsBytes (s.sent.length + padAt s.sent.length + 4) before).length) v.type)) v r)
    (lastErr : s'.lastErr < 0) (sent : s'.sent = r.2.sent ∨ s'.sent = r.2.sent ++ [sum]) :
    Ended s type (before ++ [v]) s' := by
  have refused : s.toOutput.putAll (commandBytes s.sent.length type (before ++ [v])) = none := by
    rw [commandBytes, openBytes_data, putAll_append, lost.refused, Option.bind_none]
  obtain hsent | hsent := sent
  · have missing : v.encode false ++ [commandSum type (before ++ [v])] ≠ [] :=
      List.append_ne_nil_of_right_ne_nil _ (List.cons_ne_nil _ [])
    refine .cut refused lastErr missing rfl fits ?_
    rw [hsent, lost.sent, commandBytes, openBytes_data]
    simp only [List.append_assoc]
  · obtain ⟨zeros, hzeros⟩ : ∃ zeros, zeros = List.replicate sum.toNat (0 : UInt8) := ⟨_, rfl⟩
    have length := sum_length sum
    rw [← hzeros] at length
    have bytes : (ArgValue.data zeros).encode false = sum :: [0, 0, 0] ++ zeros := by
      rw [← length]
      rfl
    have type_eq : (ArgValue.data zeros).type = v.type := lost.data.symm
    have missing : [0, 0, 0] ++ zeros ++ [commandSum type (before ++ [.data zeros])] ≠ [] :=
      List.append_ne_nil_of_right_ne_nil _ (List.cons_ne_nil _ [])
    have types : (before ++ [ArgValue.data zeros]).map ArgValue.type =
        (before ++ [v]).map ArgValue.type := by
      rw [List.map_append, List.map_append, List.map_singleton, List.map_singleton, type_eq]
    refine .cut refused lastErr missing types ?_ ?_
    · intro w hw
      obtain hw | hw := List.mem_append.mp hw
      · exact fits w (List.mem_append_left _ hw)
      · obtain rfl := List.mem_singleton.mp hw
        show zeros.length < 2 ^ 31
        have lt := sum.toNat_lt
        rw [hzeros, List.length_replicate]
        omega
    · rw [hsent, lost.sent, commandBytes, openBytes_data, bytes, type_eq]
      simp only [List.append_assoc, List.cons_append, List.nil_append]

theorem writeTranslatedCommand_spec (fits : s.Fits) (phased : s.Phased) (noErr : 0 ≤ s.lastErr)
    (cmd : CommandOut) (last : ∀ values, ValuesOf cmd.args values → DataLast values) :
    ∃ r, s.writeTranslatedCommand cmd = some r ∧ (r.1 < 0 ∧ r.2.lastErr < 0 ∨
      0 ≤ r.1 ∧ ∃ values, ValuesOf cmd.args values ∧ Ended s cmd.type values r.2) := by
  rw [writeTranslatedCommand]
  cases hsum : updateCrcArguments (xorFrom 0 (header cmd.type cmd.args.length)) cmd.args with
  | error rv =>
    have hneg := updateCrcArguments_error hsum
    exact ⟨_, rfl, .inl ⟨hneg, hneg⟩⟩
  | ok sum =>
    obtain ⟨values, hvalues, rfl⟩ := updateCrcArguments_ok hsum
    have sum_eq : xorFrom (xorFrom 0 (header cmd.type cmd.args.length)) (payloadBytes values) =
        commandSum cmd.type values := by
      rw [commandSum, xorFrom_append, hvalues.length_eq]
    rw [sum_eq]
    dsimp only
    have pads : padAt s.sent.length = padAt s.text.length := by
      rw [Phased] at phased
      rw [padAt, padAt, phased]
    obtain ⟨⟨rv, s₁⟩, hr₁, hout₁⟩ :=
      writeCommandHdr_spec fits (length_header cmd.type cmd.args.length)
    rw [hr₁]
    dsimp only
    rw [← pads, hvalues.length_eq] at hout₁
    cases hout₁ with
    | refused hrv hlast =>
      rw [if_pos hrv]
      exact ⟨_, rfl, .inl ⟨hrv, hlast⟩⟩
    | written hrv hput₁ hlast₁ hkeeps₁ =>
      rw [if_neg (not_lt.mpr hrv)]
      have sent₁ := putAll_sent hput₁
      have position : s₁.sent.length = s.sent.length + padAt s.sent.length + 4 := by
        rw [sent₁, List.length_append, List.length_append, List.length_replicate,
          length_header, Nat.add_assoc]
      have fits₁ := fits.putAll hput₁
      obtain ⟨⟨rv₂, s₂⟩, hr₂, hout₂ | ⟨before, v, rfl, hlost⟩⟩ :=
        writeArguments_spec fits₁ (phased.putAll fits hput₁) hvalues (last values hvalues)
      · rw [hr₂]
        dsimp only
        rw [position] at hout₂
        have hout := hout₂.after hput₁ hlast₁ hkeeps₁
        cases hout with
        | refused hrv₂ hlast₂ =>
          rw [if_pos hrv₂]
          exact ⟨_, rfl, .inl ⟨hrv₂, hlast₂⟩⟩
        | written hrv₂ hput₂ hlast₂ hkeeps₂ =>
          rw [if_neg (not_lt.mpr hrv₂)]
          obtain ⟨⟨rv₃, s₃⟩, hr₃, hout₃, hsent₃, -⟩ :=
            writeWord_spec [commandSum cmd.type values] (fits.putAll hput₂) (Nat.mod_one _)
              (by simp)
          rw [writeByte, hr₃, Option.map_some]
          refine ⟨_, rfl, .inr ⟨le_rfl, values, hvalues, ?_⟩⟩
          have all := hout₃.after hput₂ hlast₂ hkeeps₂
          cases all with
          | written _ hput₃ hlast₃ => exact .whole hput₃ (hlast₃ noErr)
          | refused hrv₃ hlast₃ hput₃ =>
            refine .cut hput₃ hlast₃ (List.cons_ne_nil (commandSum cmd.type values) []) rfl
              (fits_of_values hvalues) ?_
            rw [(hsent₃ hrv₃).1, putAll_sent hput₂, commandBytes, List.append_assoc]
            rfl
      · rw [hr₂]
        have zero : rv₂ = 0 := hlost.answer
        dsimp only
        rw [if_neg (by omega)]
        obtain ⟨r₃, hr₃, hlast₃, hsent₃⟩ := writeByte_stuck hlost.fits hlost.stuck hlost.lastErr
          (commandSum cmd.type (before ++ [v]))
        rw [hr₃, Option.map_some]
        refine ⟨_, rfl, .inr ⟨le_rfl, _, hvalues, ?_⟩⟩
        rw [position] at hlost
        have lost := hlost.after hput₁ hkeeps₁
        rw [List.length_append, List.length_singleton] at lost
        exact ended_of_lost (fits_of_values hvalues) lost hlast₃ hsent₃

end WriteStream

/-! ## Types of arguments -/

theorem checkIn_congr {type : CmdType} {values values' : List ArgValue}
    (h : values'.map ArgValue.type = values.map ArgValue.type) :
    checkIn ⟨type, values'.map ArgValue.argument⟩ =
      checkIn ⟨type, values.map ArgValue.argument⟩ := by
  have codes (vs : List ArgValue) : (vs.map ArgValue.argument).map (·.type) =
      (vs.map ArgValue.type).map ArgType.code := by
    simp only [List.map_map]
    rfl
  rw [← checkIn_types, codes, h, ← codes, checkIn_types]

theorem length_of_checkIn {cmd : CommandIn} (h : checkIn cmd = true) :
    cmd.arguments.length ≤ 3 := by
  obtain ⟨type, args⟩ := cmd
  have bound : args.length ≤ (knownCmds type).2.1 := by
    simp only [checkIn, Bool.and_eq_true, decide_eq_true_eq] at h
    exact h.1.2
  cases type <;> exact bound.trans (by decide)

theorem dataLast_of_checkIn {type : CmdType} {values : List ArgValue}
    (h : checkIn ⟨type, values.map ArgValue.argument⟩ = true) : DataLast values := by
  intro before after v hvalues hdata
  have length := length_of_checkIn h
  subst hvalues
  have code : v.argument.type = 3 := by
    show v.type.code = 3
    rw [hdata]
    rfl
  cases after with
  | nil => rfl
  | cons w after =>
    rw [List.length_map, List.length_append, List.length_cons, List.length_cons] at length
    match before, length with
    | [], _ =>
      cases type <;> simp [checkIn, knownCmds, ArgType.acceptsCode, code, ArgType.code] at h
    | [a], _ =>
      cases type <;> simp [checkIn, knownCmds, ArgType.acceptsCode, code, ArgType.code] at h
    | a :: b :: rest, length =>
      simp only [List.length_cons] at length
      omega

theorem translate_eq (map : MapNode) (expected : ArgType) (arg : ArgOut) :
    expected ≠ .userid ∧ arg.translate map expected = .ok arg ∨
      expected = .userid ∧ (arg.translate map expected = .error eTgfClnt ∨
        ∃ i, arg.translate map expected = .ok (.int32 i)) := by
  by_cases huserid : expected = .userid
  · refine .inr ⟨huserid, ?_⟩
    unfold ArgOut.translate
    rw [if_neg (not_not.mpr huserid)]
    cases arg with
    | userid aUserid =>
      dsimp only
      split
      · exact .inr ⟨_, rfl⟩
      · cases tgfMapOutLookup map aUserid with
        | none => exact .inl rfl
        | some id => exact .inr ⟨id, rfl⟩
    | _ => exact .inl rfl
  · refine .inl ⟨huserid, ?_⟩
    unfold ArgOut.translate
    rw [if_pos huserid]

variable {map : MapNode} {args : List ArgOut} {row : List ArgType} {cmd : CommandOut}

theorem translateOutArgs_accepts {args' : List ArgOut}
    (h : translateOutArgs map args row = .ok args')
    (accepts : (args.zip row).all fun p => p.2.accepts p.1.type) :
    args'.length = args.length ∧ (args'.zip row).all fun p => p.2.accepts p.1.type := by
  induction args generalizing row args' with
  | nil => cases row <;> cases h <;> exact ⟨rfl, rfl⟩
  | cons arg args ih =>
    cases row with
    | nil =>
      cases h
      exact ⟨rfl, rfl⟩
    | cons expected row =>
      rw [List.zip_cons_cons, List.all_cons, Bool.and_eq_true] at accepts
      rw [translateOutArgs] at h
      obtain ⟨arg', harg, accepts'⟩ : ∃ arg', arg.translate map expected = .ok arg' ∧
          expected.accepts arg'.type := by
        obtain ⟨-, harg⟩ | ⟨rfl, harg | ⟨i, harg⟩⟩ := translate_eq map expected arg
        · exact ⟨arg, harg, accepts.1⟩
        · rw [harg] at h
          cases h
        · exact ⟨.int32 i, harg, rfl⟩
      cases hargs : translateOutArgs map args row with
      | error rv =>
        rw [harg, hargs] at h
        cases h
      | ok rest =>
        rw [harg, hargs] at h
        obtain rfl := (Except.ok.inj h).symm
        obtain ⟨length, all⟩ := ih hargs accepts.2
        refine ⟨congrArg (· + 1) length, ?_⟩
        rw [List.zip_cons_cons, List.all_cons, all, Bool.and_true]
        exact accepts'

theorem translateOutArgs_error {rv : Int} (h : translateOutArgs map args row = .error rv) :
    rv = eTgfClnt := by
  induction args generalizing row with
  | nil => cases row <;> cases h
  | cons arg args ih =>
    cases row with
    | nil => cases h
    | cons expected row =>
      rw [translateOutArgs] at h
      cases hargs : translateOutArgs map args row with
      | error rv' =>
        obtain ⟨-, harg⟩ | ⟨-, harg | ⟨i, harg⟩⟩ := translate_eq map expected arg
        all_goals
          rw [harg, hargs] at h
          cases h
        · exact ih hargs
        · rfl
        · exact ih hargs
      | ok rest =>
        obtain ⟨-, harg⟩ | ⟨-, harg | ⟨i, harg⟩⟩ := translate_eq map expected arg
        all_goals
          rw [harg, hargs] at h
          cases h
        rfl

theorem translateOut_error {rv : Int} (h : cmd.translateOut map = .error rv) : rv < 0 := by
  rw [CommandOut.translateOut] at h
  cases hcheck : cmd.check with
  | none =>
    rw [hcheck] at h
    cases h
    decide
  | some row =>
    rw [hcheck] at h
    rw [translateOutArgs_error h]
    decide

theorem types_of_values {values : List ArgValue} (h : ValuesOf args values) :
    values.map ArgValue.type = args.map ArgOut.type := by
  induction h with
  | nil => rfl
  | cons hvalue _ ih => rw [List.map_cons, List.map_cons, ih, ArgOut.type_of_value hvalue]

theorem checkIn_of_translateOut {values : List ArgValue} (h : cmd.translateOut map = .ok args)
    (hvalues : ValuesOf args values) : checkIn ⟨cmd.type, values.map ArgValue.argument⟩ = true := by
  have types : (values.map ArgValue.argument).map (·.type) =
      (args.map fun arg => (⟨arg.type, 0⟩ : Argument)).map (·.type.code) := by
    have codes := congrArg (List.map ArgType.code) (types_of_values hvalues)
    rw [List.map_map, List.map_map] at codes ⊢
    exact codes
  have zip (args : List ArgOut) (row : List ArgType) :
      ((args.map fun arg => (⟨arg.type, 0⟩ : Argument)).zip row).all
        (fun p => p.2.accepts p.1.type) = (args.zip row).all fun p => p.2.accepts p.1.type := by
    rw [List.zip_map_left, List.all_map]
    rfl
  rw [checkIn_eq cmd.type types]
  rw [CommandOut.translateOut, CommandOut.check] at h
  cases hcheck : commandCheck ⟨cmd.type, cmd.args.map fun arg => ⟨arg.type, 0⟩⟩ with
  | none =>
    rw [hcheck] at h
    cases h
  | some row =>
    rw [hcheck] at h
    unfold commandCheck at hcheck ⊢
    generalize knownCmds cmd.type = known at hcheck ⊢
    obtain ⟨least, most, row'⟩ := known
    dsimp only at hcheck ⊢
    rw [List.length_map, zip] at hcheck
    split at hcheck
    · cases hcheck
    · rename_i bounds
      split at hcheck
      · cases hcheck
        obtain ⟨length, accepts⟩ := translateOutArgs_accepts h ‹_›
        rw [List.length_map, zip, length, if_neg bounds, if_pos accepts]
        rfl
      · cases hcheck

/-! ## Payloads -/

namespace ArgValue

def lengthBytes : ArgValue → List UInt8
  | data bytes | string bytes | lazyData bytes => toBytes 4 bytes.length
  | int32 _ | float _ | sctype _ | int16 _ => []

def payload : ArgValue → List UInt8
  | int32 aInt32 => toBytes 4 aInt32.toNat
  | float aFloat => toBytes 8 aFloat.toNat
  | data bytes | string bytes | lazyData bytes => bytes
  | sctype aSctype => [aSctype]
  | int16 aInt16 => toBytes 2 aInt16.toNat

theorem encode_payload (v : ArgValue) : v.encode false = v.lengthBytes ++ v.payload := by
  cases v <;> rfl

variable {bytes : List UInt8}

theorem toBytes_ofNat {len width : Nat} (hwidth : 256 ^ len = 2 ^ width)
    (length : bytes.length = len) :
    toBytes len (BitVec.ofNat width (ofBytes bytes)).toNat = bytes := by
  have lt := ofBytes_lt bytes
  rw [length, hwidth] at lt
  rw [BitVec.toNat_ofNat, Nat.mod_eq_of_lt lt, ← length, toBytes_ofBytes]

theorem exists_payload (v : ArgValue) (length : bytes.length = v.payload.length) :
    ∃ v' : ArgValue, v'.type = v.type ∧ v'.lengthBytes = v.lengthBytes ∧ v'.payload = bytes ∧
      (v.Fits → v'.Fits) := by
  cases v with
  | int32 aInt32 =>
    rw [payload, length_toBytes] at length
    exact ⟨.int32 (.ofNat 32 (ofBytes bytes)), rfl, rfl, toBytes_ofNat (by norm_num) length, id⟩
  | float aFloat =>
    rw [payload, length_toBytes] at length
    exact ⟨.float (.ofNat 64 (ofBytes bytes)), rfl, rfl, toBytes_ofNat (by norm_num) length, id⟩
  | int16 aInt16 =>
    rw [payload, length_toBytes] at length
    exact ⟨.int16 (.ofNat 16 (ofBytes bytes)), rfl, rfl, toBytes_ofNat (by norm_num) length, id⟩
  | sctype aSctype =>
    obtain ⟨b, rfl⟩ := List.length_eq_one_iff.mp length
    exact ⟨.sctype b, rfl, rfl, rfl, id⟩
  | data bytes' =>
    exact ⟨.data bytes, rfl, congrArg (toBytes 4) length, rfl, fun h => length.trans_lt h⟩
  | string bytes' =>
    exact ⟨.string bytes, rfl, congrArg (toBytes 4) length, rfl, fun h => length.trans_lt h⟩
  | lazyData bytes' =>
    exact ⟨.lazyData bytes, rfl, congrArg (toBytes 4) length, rfl, fun h => length.trans_lt h⟩

end ArgValue

def frontBytes (pos : Nat) (type : CmdType) (argCnt : Nat) (before : List ArgValue)
    (v : ArgValue) : List UInt8 :=
  let args := argumentsBytes (pos + padAt pos + 4) before
  List.replicate (padAt pos) 0 ++ WriteStream.header type argCnt ++ args ++
    WriteStream.typeBytes (pos + padAt pos + 4 + args.length) v.type ++ v.lengthBytes

def PayloadAt (pos : Nat) (type : CmdType) (values : List ArgValue)
    (front payload : List UInt8) : Prop :=
  ∃ before v after, values = before ++ v :: after ∧
    front = frontBytes pos type values.length before v ∧ payload = v.payload

theorem openBytes_payload (pos : Nat) (type : CmdType) (before : List ArgValue) (v : ArgValue)
    (after : List ArgValue) : openBytes pos type (before ++ v :: after) =
      frontBytes pos type (before ++ v :: after).length before v ++ v.payload ++
        argumentsBytes (pos + padAt pos + 4 +
          (argumentsBytes (pos + padAt pos + 4) before).length +
          (WriteStream.typeBytes (pos + padAt pos + 4 +
            (argumentsBytes (pos + padAt pos + 4) before).length) v.type).length +
          v.lengthBytes.length + v.payload.length) after := by
  rw [openBytes, argumentsBytes_append, argumentsBytes, WriteStream.argumentBytes_eq,
    ArgValue.encode_payload, frontBytes]
  simp only [List.append_assoc, List.length_append, Nat.add_assoc]

/-- Another payload changes nothing else of the bytes, and of the sum what it changes itself. -/
theorem openBytes_flip {pos : Nat} {type : CmdType} {values : List ArgValue}
    {front payload payload' back : List UInt8} (h : PayloadAt pos type values front payload)
    (hbytes : openBytes pos type values = front ++ payload ++ back)
    (flips : FlipsBit payload payload') :
    ∃ values', values'.map ArgValue.type = values.map ArgValue.type ∧
      ((∀ v ∈ values, v.Fits) → ∀ v ∈ values', v.Fits) ∧
      openBytes pos type values' = front ++ payload' ++ back ∧
      commandSum type values' ≠ commandSum type values := by
  obtain ⟨before, v, after, rfl, rfl, rfl⟩ := h
  obtain ⟨v', htype, hlength, rfl, hfits⟩ := v.exists_payload flips.length_eq
  have front_eq : frontBytes pos type (before ++ v :: after).length before v =
      frontBytes pos type (before ++ v' :: after).length before v' := by
    rw [frontBytes, frontBytes, htype, hlength, List.length_append, List.length_append]
    rfl
  refine ⟨before ++ v' :: after, ?_, ?_, ?_, ?_⟩
  · rw [List.map_append, List.map_append, List.map_cons, List.map_cons, htype]
  · intro fits w hw
    obtain hw | hw := List.mem_append.mp hw
    · exact fits w (List.mem_append_left _ hw)
    · obtain rfl | hw := List.mem_cons.mp hw
      · exact hfits (fits v (List.mem_append_right _ List.mem_cons_self))
      · exact fits w (List.mem_append_right _ (List.mem_cons_of_mem _ hw))
  · rw [openBytes_payload] at hbytes ⊢
    rw [← List.append_cancel_left hbytes, htype, hlength, flips.length_eq, front_eq]
  · have value : FlipsBit (v.encodeArgument false) (v'.encodeArgument false) := by
      rw [ArgValue.encodeArgument, ArgValue.encodeArgument, htype, ArgValue.encode_payload,
        ArgValue.encode_payload, hlength]
      exact (flips.append_left _).append_left _
    have payloads : FlipsBit (payloadBytes (before ++ v :: after))
        (payloadBytes (before ++ v' :: after)) := by
      simp only [payloadBytes, List.flatMap_append, List.flatMap_cons]
      exact (value.append_right _).append_left _
    have cnt : (before ++ v' :: after).length = (before ++ v :: after).length := by
      rw [List.length_append, List.length_append]
      rfl
    rw [commandSum, commandSum, cnt]
    exact (payloads.append_left _).xorFrom_ne 0

/-! ## Closed commands -/

/-- The bytes that are added to a stream are a command that every reader accepts with a sum of
zero, unless a bit of a payload is turned. -/
structure Closes (s s' : WriteStream) (type : CmdType) (values : List ArgValue) : Prop where
  closed : ∃ added, s'.sent = s.sent ++ added ∧
    ∀ (mem : Allocation) (r : StreamIn) (more : List UInt8), mem.Enough →
      r.Reads s.sent.length (added ++ more) →
      ∃ r', r.readCommand mem = some (.ok ⟨type, values.map ArgValue.argument⟩, r') ∧
        r'.crc = 0 ∧ r'.pending = more
  guarded : ∀ front payload payload' back, s'.sent = s.sent ++ (front ++ payload ++ back) →
    PayloadAt s.sent.length type values front payload → FlipsBit payload payload' →
    ∀ (mem : Allocation) (r : StreamIn) (more : List UInt8), mem.Enough →
      r.Reads s.sent.length (front ++ payload' ++ back ++ more) →
      ∃ r', r.readCommand mem = some (.error eTgfInvcrc, r')

section

variable {s s' : WriteStream} {type : CmdType} {values : List ArgValue}

theorem closes_of_whole (fits : ∀ v ∈ values, v.Fits)
    (checked : checkIn ⟨type, values.map ArgValue.argument⟩ = true)
    (sent : s'.sent = s.sent ++ commandBytes s.sent.length type values) :
    Closes s s' type values := by
  have short {values' : List ArgValue}
      (checked : checkIn ⟨type, values'.map ArgValue.argument⟩ = true) :
      values'.length < 256 ^ 2 := by
    have length := length_of_checkIn checked
    rw [List.length_map] at length
    omega
  constructor
  · refine ⟨_, sent, fun mem r more enough reads => ?_⟩
    rw [commandBytes, List.append_assoc, List.singleton_append] at reads
    obtain ⟨r', hr', hcrc, hpending⟩ := StreamIn.readCommand_reads reads (short checked) fits enough
    rw [UInt8.xor_self] at hr' hcrc
    refine ⟨r', ?_, hcrc, hpending⟩
    rw [hr', readAnswer, if_neg (not_not.mpr rfl), if_pos checked]
  · intro front payload payload' back hsent payloadAt flips mem r more enough reads
    have bytes : openBytes s.sent.length type values ++ [commandSum type values] =
        front ++ payload ++ back := List.append_cancel_left (sent.symm.trans hsent)
    obtain ⟨back', rest⟩ : ∃ back', openBytes s.sent.length type values =
        front ++ payload ++ back' := by
      obtain ⟨before, v, after, rfl, rfl, rfl⟩ := payloadAt
      exact ⟨_, openBytes_payload ..⟩
    have last : back = back' ++ [commandSum type values] := by
      rw [rest, List.append_assoc] at bytes
      exact (List.append_cancel_left bytes).symm
    obtain ⟨values', types, fits', openBytes_eq, sum_ne⟩ := openBytes_flip payloadAt rest flips
    have checked' : checkIn ⟨type, values'.map ArgValue.argument⟩ = true :=
      (checkIn_congr types).trans checked
    have all : front ++ payload' ++ back ++ more = openBytes s.sent.length type values' ++
        commandSum type values :: more := by
      rw [openBytes_eq, last]
      simp only [List.append_assoc, List.singleton_append]
    rw [all] at reads
    obtain ⟨r', hr', -, -⟩ :=
      StreamIn.readCommand_reads reads (short checked') (fits' fits) enough
    refine ⟨r', ?_⟩
    rw [hr', readAnswer, if_pos]
    intro zero
    exact sum_ne (UInt8.xor_eq_zero_iff.mp zero)

theorem not_closes_of_missing {values' : List ArgValue} {missing : List UInt8}
    (fits : ∀ v ∈ values', v.Fits)
    (checked : checkIn ⟨type, values'.map ArgValue.argument⟩ = true) (nonempty : missing ≠ [])
    (sent : s'.sent ++ missing = s.sent ++ commandBytes s.sent.length type values') :
    ¬ Closes s s' type values := by
  rintro ⟨⟨added, hadded, reads⟩, -⟩
  have bytes : added ++ missing = commandBytes s.sent.length type values' := by
    rw [hadded, List.append_assoc] at sent
    exact List.append_cancel_left sent
  have length := length_of_checkIn checked
  rw [List.length_map] at length
  obtain ⟨r, hr⟩ : ∃ r : StreamIn, r.Reads s.sent.length (added ++ missing) :=
    ⟨⟨added ++ missing, s.sent.length, none, false, true, 0, 0, 0⟩,
      List.append_nil _, rfl, rfl, rfl, rfl⟩
  have enough : (⟨true, fun _ => 0, fun _ _ => true⟩ : Allocation).Enough :=
    ⟨rfl, fun _ _ _ => rfl⟩
  obtain ⟨r', hr', -, hpending⟩ := reads _ r missing enough hr
  rw [bytes, commandBytes] at hr
  obtain ⟨r'', hr'', -, hpending'⟩ := StreamIn.readCommand_reads hr (by omega) fits enough
  rw [hr'] at hr''
  obtain ⟨-, rfl⟩ := Prod.mk.inj (Option.some.inj hr'')
  exact nonempty (hpending.symm.trans hpending')

theorem Ended.closes_iff (h : Ended s type values s') (fits : ∀ v ∈ values, v.Fits)
    (checked : checkIn ⟨type, values.map ArgValue.argument⟩ = true) :
    Closes s s' type values ↔
      (s.toOutput.putAll (commandBytes s.sent.length type values)).isSome := by
  cases h with
  | whole hput =>
    rw [hput]
    exact ⟨fun _ => rfl, fun _ => closes_of_whole fits checked (putAll_sent hput)⟩
  | cut hput _ nonempty types fits' sent =>
    rw [hput]
    refine ⟨fun closes => ?_, nofun⟩
    exact absurd closes (not_closes_of_missing fits' ((checkIn_congr types).trans checked)
      nonempty sent)

end

/-! ## Streams that are written -/

namespace WriteStream

variable {s : WriteStream}

def Ready (s : WriteStream) : Prop := 0 ≤ s.lastErr → s.Fits ∧ s.Phased

variable {r : Int × WriteStream}

theorem Outcome.ready {bytes : List UInt8} (h : Outcome s bytes r) (fits : s.Fits)
    (phased : s.Phased) : r.2.Ready := by
  cases h with
  | written _ hput => exact fun _ => ⟨fits.putAll hput, phased.putAll fits hput⟩
  | refused _ hlast => exact fun h => absurd hlast (not_lt.mpr h)

theorem start_ready {sink : Sink} {tgfId : Block} (h : (fresh sink).start tgfId = some r) :
    r.2.Ready := by
  have refused {rv : Int} (hneg : rv < 0) (s : WriteStream) : (s.setLastErr rv).Ready :=
    fun h => absurd hneg (not_lt.mpr h)
  have fits : (fresh sink).Fits := ⟨Nat.zero_le _, fun _ h => by cases h⟩
  obtain ⟨⟨rv, s₁⟩, hr₁, hout₁⟩ := write_spec (s := { fresh sink with cmdIndex := 0 }) fits
    (headerBytes (min tgfId.1.length 255))
  have hr₁ : ({ fresh sink with cmdIndex := 0 } : WriteStream).write
      (headerBytes (min tgfId.1.length 255)) 13 = some (rv, s₁) := hr₁
  rw [start] at h
  rw [hr₁] at h
  dsimp only at h
  cases hout₁ with
  | refused hrv =>
    rw [if_pos hrv] at h
    cases h
    exact refused hrv s₁
  | written hrv hput =>
    rw [if_neg (not_lt.mpr hrv)] at h
    have fits₁ := fits.putAll hput
    have phased₁ : s₁.Phased := Phased.putAll (o := (fresh sink).toOutput) rfl fits hput
    have length : ((tgfId.1.take (min tgfId.1.length 255)).length : Int) =
        (min tgfId.1.length 255 : Nat) := by
      rw [List.length_take]
      omega
    obtain ⟨⟨rv₂, s₂⟩, hr₂, hout₂⟩ := write_spec fits₁ (tgfId.1.take (min tgfId.1.length 255))
    rw [length] at hr₂
    rw [hr₂, Option.map_some] at h
    cases h
    dsimp only
    split
    · exact refused ‹_› s₂
    · exact hout₂.ready fits₁ phased₁

theorem ready_of_ended {type : CmdType} {values : List ArgValue} {s' : WriteStream}
    (h : Ended s type values s') (fits : s.Fits) (phased : s.Phased) : s'.Ready := by
  cases h with
  | whole hput => exact fun _ => ⟨fits.putAll hput, phased.putAll fits hput⟩
  | cut _ hlast => exact fun h => absurd hlast (not_lt.mpr h)

theorem writeCommand_spec (ready : s.Ready) {cmd : CommandOut} {clId : Ptr}
    (h : s.writeCommand cmd clId = some r) :
    r.1 < 0 ∧ r.2.Ready ∨ ∃ hash id args values, s.addObject clId = some (id, hash) ∧
      cmd.translateOut hash = .ok args ∧ ValuesOf args values ∧ Ended s cmd.type values r.2 ∧
      r.2.Ready := by
  rw [writeCommand] at h
  split at h
  · rename_i hneg
    cases h
    exact .inl ⟨hneg, fun h => absurd hneg (not_lt.mpr h)⟩
  · rename_i hlast
    have noErr := not_lt.mp hlast
    obtain ⟨fits, phased⟩ := ready noErr
    split at h
    · cases h
    · cases h
      exact .inl ⟨Int.negSucc_lt_zero 11, ready⟩
    · rename_i id hash _ hadd
      dsimp only at h
      split at h
      · rename_i rv herror
        cases h
        have hneg := translateOut_error herror
        exact .inl ⟨hneg, fun h => absurd hneg (not_lt.mpr h)⟩
      · rename_i args hargs
        obtain ⟨s₁, hs₁⟩ : ∃ s₁ : WriteStream,
          s₁ = { s with hash := hash, cmdIndex := s.cmdIndex + 1 } := ⟨_, rfl⟩
        rw [← hs₁] at h
        have output : s₁.toOutput = s.toOutput := hs₁ ▸ rfl
        have noErr₁ : 0 ≤ s₁.lastErr := hs₁ ▸ noErr
        obtain ⟨r', hr', ⟨hneg, hlast'⟩ | ⟨-, values, hvalues, ended⟩⟩ :=
          writeTranslatedCommand_spec (output ▸ fits) (output ▸ phased) noErr₁ ⟨cmd.type, args⟩
            fun values hvalues => dataLast_of_checkIn (checkIn_of_translateOut hargs hvalues)
        all_goals
          obtain rfl := Option.some.inj (hr'.symm.trans h)
        · exact .inl ⟨hneg, fun h => absurd hlast' (not_lt.mpr h)⟩
        · have ended' : Ended s cmd.type values r'.2 := by
            cases ended with
            | whole hput hlast' => exact .whole (output ▸ hput) hlast'
            | cut hput hlast' nonempty types fits' sent =>
              rw [output] at hput sent
              exact .cut hput hlast' nonempty types fits' sent
          exact .inr ⟨hash, id, args, values, hadd, hargs, hvalues, ended',
            ready_of_ended ended' fits phased⟩

theorem Written.ready (h : Written s) : s.Ready := by
  induction h with
  | start hstart => exact start_ready hstart
  | command _ hcommand ih =>
    obtain ⟨-, ready⟩ | ⟨-, -, -, -, -, -, -, -, ready⟩ := writeCommand_spec ih hcommand
    · exact ready
    · exact ready

end WriteStream

def inBuffer (size : Nat) (aligned : size % 4 = 0) : WriteStream :=
  { WriteStream.fresh (.memory size aligned) with text := WriteStream.headerBytes 0 }

end ScCore.Tgf
