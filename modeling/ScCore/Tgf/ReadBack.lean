import ScCore.Tgf.Chunks
import ScCore.Tgf.CommandOut
import ScCore.Tgf.Delivery

/-!
# Reading of what was written

A command whose bytes are still to come is read, whatever the chunks are in which they come, and
the sum that the reader is left with tells whether its last byte is the checksum of the others.
-/

namespace ScCore.Tgf

open Lib

namespace StreamIn

variable {s : StreamIn} {more : List UInt8}

theorem valueClear_text {v : ArgValue} {type : Nat} (htype : v.type.code = type)
    (hfd : s.fd = none) (h : s.text = v.encode false ++ more) (hmore : more ≠ []) :
    s.ValueClear type := by
  intro hint16
  right
  have pending : s.pending = v.encode false ++ more := by
    rw [pending_eq, hfd, h]
    exact List.append_nil _
  have length := List.length_pos_iff.mpr hmore
  subst htype
  cases v with
  | int16 x =>
    rw [pending, ArgValue.encode, List.length_append, length_wordBytes]
    omega
  | int32 | float | data | sctype | string | lazyData => cases hint16

theorem argumentsClear_text (mem : Allocation) {values : List ArgValue}
    {body payload : List UInt8} {offset i : Nat}
    (hat : ArgumentsAt false offset values body payload) (hconv : s.conv = false)
    (hoffset : s.offset = offset) (hfd : s.fd = none) (h : s.text = body ++ more)
    (hmore : more ≠ []) (halloc : ∀ (k : Nat) (v : ArgValue), v.Allocated (mem.block k)) :
    ArgumentsClear mem i values.length s := by
  induction hat generalizing s i with
  | nil => trivial
  | @cons offset padding bytes payload v vs hpadding hfits hat ih =>
    have htext : s.text = padding ++ v.encodeArgument s.conv ++ (bytes ++ more) := by
      rw [h, hconv, List.append_assoc]
    have hpad : padding.length = s.pad := by
      rw [hpadding, pad, padAt, hoffset]
    have code : v.type.code < 256 ^ 4 := v.type.code_lt.trans (by decide)
    have rest : bytes ++ more ≠ [] := List.append_ne_nil_of_right_ne_nil bytes hmore
    refine ⟨⟨.inr ?_, ?_⟩, ?_⟩
    · rw [pending_eq, hfd, htext, ← hpad, ArgValue.encodeArgument]
      simp only [List.length_append, length_wordBytes]
      omega
    · intro word s' hword
      have split : s.text = padding ++ wordBytes s.conv 4 v.type.code ++
          (v.encode s.conv ++ (bytes ++ more)) := by
        rw [htext, ArgValue.encodeArgument]
        simp only [List.append_assoc]
      rw [readAlign4_text split hpad (length_wordBytes ..)] at hword
      cases hword
      refine valueClear_text (v := v) ?_ hfd (hconv ▸ rfl) rest
      exact (convert_wordBytes (s := s) code).symm
    · intro rv arg s' hread _
      rw [readArgument_text htext hpad hfits (halloc i v)] at hread
      cases hread
      exact ih hconv (by rw [past, hoffset, hconv]) hfd rfl

theorem endCommand_read (hlast : s.lastErr = 0) (hchecksum : s.checksum = true) :
    s.endCommand.crc = s.crc ∧ s.endCommand.lastErr = if s.crc ≠ 0 then eTgfInvcrc else 0 := by
  have past : ¬ s.lastErr < 0 := by
    rw [hlast]
    exact lt_irrefl 0
  rw [endCommand]
  simp only [hchecksum, and_true]
  rw [if_neg past]
  by_cases hsum : s.crc ≠ 0
  · rw [if_pos hsum, if_pos hsum]
    exact ⟨rfl, rfl⟩
  · rw [if_neg hsum, if_neg hsum]
    exact ⟨rfl, hlast⟩

theorem ofCode_code (type : CmdType) : CmdType.ofCode type.code = some type := by
  cases type <;> rfl

theorem cmdType_code_lt (type : CmdType) : type.code < 256 ^ 2 := by
  cases type <;> decide

theorem readCommandHdr_text {type : CmdType} {argCnt : Nat} {padding : List UInt8}
    (hconv : s.conv = false) (h : s.text = padding ++ WriteStream.header type argCnt ++ more)
    (hpadding : padding.length = s.pad) (hcnt : argCnt < 256 ^ 2) :
    s.readCommandHdr = some (.ok (type, argCnt),
      { s with crc := 0 }.past padding (WriteStream.header type argCnt) more) := by
  have cmdType : (WriteStream.header type argCnt).take 2 = wordBytes false 2 type.code :=
    List.take_left' (length_toBytes ..)
  have cnt : (WriteStream.header type argCnt).drop 2 = wordBytes false 2 argCnt :=
    List.drop_left' (length_toBytes ..)
  have text : ({ s with crc := 0 } : StreamIn).text =
      padding ++ WriteStream.header type argCnt ++ more := h
  have conv (word : List UInt8) :
      ({ s with crc := 0 }.past padding (WriteStream.header type argCnt) more).convert word =
        s.convert word := rfl
  rw [readCommandHdr, readAlign4_text text hpadding (length_header ..)]
  simp only [conv, cmdType, cnt, ← hconv]
  rw [convert_wordBytes (cmdType_code_lt type), convert_wordBytes hcnt, ofCode_code]

end StreamIn

def Allocation.Enough (mem : Allocation) : Prop :=
  mem.command = true ∧ ∀ (i : Nat) (size : Int), 0 ≤ size → mem.block i size = true

theorem Allocation.Enough.allocated {mem : Allocation} (h : mem.Enough) (k : Nat)
    (v : ArgValue) : v.Allocated (mem.block k) := by
  cases v with
  | data bytes => exact h.2 k _ (Int.natCast_nonneg _)
  | string bytes | lazyData bytes =>
    apply h.2 k
    omega
  | int32 | float | sctype | int16 => trivial

/-- A reader at a position of a stream that the writer has begun: the byte order is its own, and
there are checksums. The bytes may come in any chunks. -/
structure StreamIn.Reads (r : StreamIn) (pos : Nat) (bytes : List UInt8) : Prop where
  pending : r.pending = bytes
  offset : r.offset = pos
  conv : r.conv = false
  checksum : r.checksum = true
  whole : r.broken = false

/-- What `tgf_read_command` answers, by the sum that it is left with. -/
def readAnswer (type : CmdType) (values : List ArgValue) (sum : UInt8) : Except Int CommandIn :=
  if sum ≠ 0 then .error eTgfInvcrc
  else if checkIn ⟨type, values.map ArgValue.argument⟩ then
    .ok ⟨type, values.map ArgValue.argument⟩
  else .error eTgfInvargs

namespace StreamIn

variable {s : StreamIn} {pos : Nat} {type : CmdType} {values : List ArgValue} {b : UInt8}
  {more : List UInt8} {mem : Allocation}

theorem Reads.endCommand {bytes : List UInt8} (h : s.Reads pos bytes) :
    s.endCommand.Reads pos bytes := by
  have same (s' : StreamIn) (pending : s'.pending = s.pending) (offset : s'.offset = s.offset)
      (conv : s'.conv = s.conv) (checksum : s'.checksum = s.checksum)
      (broken : s'.broken = s.broken) : s'.Reads pos bytes :=
    ⟨pending.trans h.pending, offset.trans h.offset, conv.trans h.conv, checksum.trans h.checksum,
      broken.trans h.whole⟩
  rw [StreamIn.endCommand]
  dsimp only
  split
  · exact same _ rfl rfl rfl rfl rfl
  · split
    · exact same _ rfl rfl rfl rfl rfl
    · exact same _ rfl rfl rfl rfl rfl

theorem openBytes_cons (pos : Nat) (type : CmdType) (values : List ArgValue) (b : UInt8)
    (more : List UInt8) : openBytes pos type values ++ b :: more =
      List.replicate (padAt pos) 0 ++ WriteStream.header type values.length ++
        (argumentsBytes (pos + padAt pos + 4) values ++ b :: more) := by
  rw [openBytes, List.append_assoc (_ ++ _)]

theorem readCommand_text (hreads : s.Reads pos (openBytes pos type values ++ b :: more))
    (hfd : s.fd = none) (hcnt : values.length < 256 ^ 2) (hfits : ∀ v ∈ values, v.Fits)
    (hmem : mem.Enough) :
    s.CommandClear mem ∧ ∃ s', s.readCommand mem =
      some (readAnswer type values (commandSum type values ^^^ b), s') ∧
      s'.crc = commandSum type values ^^^ b ∧
      s'.Reads (pos + (openBytes pos type values).length + 1) more := by
  have text : s.text = openBytes pos type values ++ b :: more := by
    rw [← hreads.pending, pending_eq, hfd]
    exact (List.append_nil _).symm
  rw [openBytes_cons] at text
  have padding : (List.replicate (padAt pos) (0 : UInt8)).length = s.pad := by
    rw [List.length_replicate, pad, hreads.offset, padAt]
  have hdr := readCommandHdr_text hreads.conv text padding hcnt
  obtain ⟨s₁, hs₁⟩ : ∃ s₁, s₁ = (({ s with crc := 0 } : StreamIn).past
      (List.replicate (padAt pos) 0) (WriteStream.header type values.length)
      (argumentsBytes (pos + padAt pos + 4) values ++ b :: more)).setLastErr 0 := ⟨_, rfl⟩
  have hat : ArgumentsAt false (pos + padAt pos + 4) values
      (argumentsBytes (pos + padAt pos + 4) values) (payloadBytes values) :=
    argumentsAt_argumentsBytes hfits
  have conv₁ : s₁.conv = false := hs₁ ▸ hreads.conv
  have fd₁ : s₁.fd = none := hs₁ ▸ hfd
  have text₁ : s₁.text = argumentsBytes (pos + padAt pos + 4) values ++ b :: more := hs₁ ▸ rfl
  have offset₁ : s₁.offset = pos + padAt pos + 4 := by
    rw [hs₁, ← hreads.offset]
    show s.offset + (List.replicate (padAt s.offset) (0 : UInt8)).length +
      (WriteStream.header type values.length).length = _
    rw [List.length_replicate, length_header]
  have clear := argumentsClear_text mem (i := 0) hat conv₁ offset₁ fd₁ text₁
    (List.cons_ne_nil b more) hmem.allocated
  refine ⟨⟨.inr ?_, ?_⟩, ?_⟩
  · rw [pending_eq, hfd, text, ← padding]
    simp only [List.length_append, length_header]
    omega
  · intro type' argCnt s' hread _
    rw [hdr] at hread
    cases hread
    exact hs₁ ▸ clear
  · have args := readArguments_text mem (i := 0) 0 hat conv₁ offset₁ text₁
      fun k v _ => hmem.allocated (0 + k) v
    rw [readArguments, Option.map_some, List.append_nil, Nat.add_zero] at args
    obtain ⟨s₂, hs₂⟩ : ∃ s₂, s₂ = s₁.behind (argumentsBytes (pos + padAt pos + 4) values)
      (payloadBytes values) (b :: more) := ⟨_, rfl⟩
    have checksum : s₂.checksum = true := by
      rw [hs₂, hs₁]
      exact hreads.checksum
    have text₂ : s₂.text = b :: more := by
      rw [hs₂]
      rfl
    have byte := readByte_text text₂
    have crc : (s₂.past [] [b] more).crc = commandSum type values ^^^ b := by
      rw [hs₂, hs₁, commandSum, xorFrom_append]
      rfl
    have lastErr : (s₂.past [] [b] more).lastErr = 0 := by
      rw [hs₂, hs₁]
      rfl
    obtain ⟨hcrc, hlast⟩ := endCommand_read lastErr (hs₂ ▸ checksum)
    have fd₂ : s₂.fd = none := by
      rw [hs₂]
      exact fd₁
    refine ⟨(s₂.past [] [b] more).endCommand, ?_, hcrc.trans crc,
      Reads.endCommand ⟨?_, ?_, ?_, checksum, ?_⟩⟩
    · rw [readCommand, hdr]
      simp only
      rw [if_neg (not_not.mpr hmem.1), readCommandArguments, ← hs₁, args, ← hs₂]
      simp only
      rw [readChecksum, if_pos checksum, byte]
      simp only [Option.map_some]
      rw [hlast, crc, readAnswer]
      by_cases hsum : commandSum type values ^^^ b ≠ 0
      · rw [if_pos hsum, if_pos hsum, if_pos (by decide)]
      · rw [if_neg hsum, if_neg hsum, if_neg (lt_irrefl 0)]
        split <;> rfl
    · rw [pending_eq]
      show more ++ s₂.fd.elim [] Source.bytes = more
      rw [fd₂]
      exact List.append_nil more
    · rw [openBytes, List.length_append, List.length_append, List.length_replicate, length_header,
        hs₂]
      show s₁.offset + _ + 0 + 1 = _
      rw [offset₁]
      omega
    · rw [hs₂]
      exact conv₁
    · show s₂.broken = false
      rw [broken, fd₂]

theorem readCommand_next (hreads : s.Reads pos (openBytes pos type values ++ b :: more))
    (hcnt : values.length < 256 ^ 2) (hfits : ∀ v ∈ values, v.Fits) (hmem : mem.Enough) :
    ∃ s', s.readCommand mem =
      some (readAnswer type values (commandSum type values ^^^ b), s') ∧
      s'.crc = commandSum type values ^^^ b ∧
      s'.Reads (pos + (openBytes pos type values).length + 1) more := by
  have alike := alike_oneBuffer hreads.whole
  have once : s.oneBuffer.Reads pos (openBytes pos type values ++ b :: more) :=
    ⟨alike.pending ▸ hreads.pending, hreads.offset, hreads.conv, hreads.checksum, rfl⟩
  obtain ⟨clear, f', hf', hcrc, next⟩ := readCommand_text once rfl hcnt hfits hmem
  obtain ⟨-, hnone⟩ | ⟨answer, s', f'', hs', hf'', halike⟩ :=
    (readCommand_agree mem alike clear).elim
  · rw [hf'] at hnone
    cases hnone
  · rw [hf'] at hf''
    cases hf''
    exact ⟨s', hs', halike.crc.trans hcrc, halike.pending.trans next.pending,
      halike.offset.trans next.offset, halike.conv.trans next.conv,
      halike.checksum.trans next.checksum, halike.whole⟩

theorem readCommand_reads (hreads : s.Reads pos (openBytes pos type values ++ b :: more))
    (hcnt : values.length < 256 ^ 2) (hfits : ∀ v ∈ values, v.Fits) (hmem : mem.Enough) :
    ∃ s', s.readCommand mem =
      some (readAnswer type values (commandSum type values ^^^ b), s') ∧
      s'.crc = commandSum type values ^^^ b ∧ s'.pending = more := by
  obtain ⟨s', hread, hcrc, next⟩ := readCommand_next hreads hcnt hfits hmem
  exact ⟨s', hread, hcrc, next.pending⟩

end StreamIn

end ScCore.Tgf
