import ScCore.Tgf.Checksum

/-!
# Streams are read back

`tgf_stream_in_start` and `tgf_stream_out_finish`: what a writer has handed to `write_fn` when it
has finished is read back as its commands, in whatever chunks it comes.
-/

namespace ScCore.Tgf

open Lib

def eTgfInvhdr : Int := -2

def eTgfVer : Int := -6

def eTgfFeature : Int := -16

/-- `tgf_header`, with the bytes of `compression` as they stand. -/
structure Header where
  signature : List UInt8
  minorVer : UInt8
  majorVer : UInt8
  endianness : UInt8
  compression : List UInt8
  checksum : UInt8
  idSize : UInt8

def Header.ofBytes (bytes : List UInt8) : Header :=
  ⟨bytes.take 3, bytes.getD 3 0, bytes.getD 4 0, bytes.getD 5 0, (bytes.drop 6).take 2,
    bytes.getD 9 0, bytes.getD 12 0⟩

namespace StreamIn

/-- `tgf_stream_in_new` with `tgf_stream_in_custom`. -/
def custom (src : Source) : StreamIn := ⟨[], 0, some src, false, false, 0, 0, 0⟩

/-- `tgf_stream_in_start` without zlib. The answer is `tgf_id`. -/
def start (alloc : Bool) (s : StreamIn) : Option (Except Int (List UInt8) × StreamIn) :=
  match s.read 13 with
  | none => none
  | some (.error rv, s) => some (.error rv, s)
  | some (.ok bytes, s) =>
      let hdr := Header.ofBytes bytes
      let s := { s with conv := false, checksum := hdr.checksum ≠ 0 }
      if hdr.signature ≠ [84, 71, 70] then some (.error eTgfInvhdr, s)
      else if hdr.majorVer ≠ 3 ∨ hdr.minorVer ≠ 1 ∧ hdr.minorVer ≠ 0 then some (.error eTgfVer, s)
      else if ¬ alloc then some (.error eTgfNomem, s)
      else match s.read hdr.idSize.toNat with
        | none => none
        | some (.error rv, s) => some (.error rv, s)
        | some (.ok id, s) =>
            let s := { s with conv := hdr.endianness ≠ 1, cmdIndex := 0 }
            if hdr.compression ≠ [0, 0] then some (.error eTgfFeature, s.setLastErr eTgfFeature)
            else some (.ok id, s.setLastErr 0)

variable {s : StreamIn} {more : List UInt8} {pos : Nat}

theorem read_pending {bytes : List UInt8} (whole : s.broken = false)
    (h : s.pending = bytes ++ more) :
    ∃ s', s.read bytes.length = some (.ok bytes, s') ∧ s'.pending = more ∧
      s'.offset = s.offset + bytes.length ∧ s'.checksum = s.checksum ∧ s'.broken = false := by
  have text : s.oneBuffer.text = bytes ++ more := h
  obtain ⟨-, hnone⟩ | ⟨answer, s', f, hs, hf, alike⟩ :=
    (read_agree (alike_oneBuffer whole) bytes.length).elim
  · cases (read_text text).symm.trans hnone
  · cases (read_text text).symm.trans hf
    exact ⟨s', hs, alike.pending.trans (List.append_nil _), alike.offset, alike.checksum,
      alike.whole⟩

theorem start_reads {id : List UInt8} (short : id.length < 256) (whole : s.broken = false)
    (offset : s.offset = 0) (h : s.pending = WriteStream.headerBytes id.length ++ id ++ more) :
    ∃ s', s.start true = some (.ok id, s') ∧ s'.Reads (13 + id.length) more := by
  rw [List.append_assoc] at h
  obtain ⟨s₁, hread, pending, offset₁, -, whole₁⟩ := read_pending whole h
  obtain ⟨s₂, hread', pending', offset₂, checksum, whole₂⟩ :=
    read_pending (s := { s₁ with conv := false, checksum := true }) whole₁ pending
  have size : (UInt8.ofNat id.length).toNat = id.length := UInt8.toNat_ofNat_of_lt' short
  have first : s.read 13 = some (.ok (WriteStream.headerBytes id.length), s₁) := hread
  have last : ({ s₁ with conv := false, checksum := decide ((1 : UInt8) ≠ 0) } : StreamIn).read
      (UInt8.ofNat id.length).toNat = some (.ok id, s₂) := by
    rw [size]
    exact hread'
  have hdr : Header.ofBytes (WriteStream.headerBytes id.length) =
      ⟨[84, 71, 70], 0, 3, 1, [0, 0], 1, UInt8.ofNat id.length⟩ := rfl
  refine ⟨{ s₂ with conv := false, cmdIndex := 0, lastErr := 0 }, ?_, pending', ?_, rfl, checksum,
    whole₂⟩
  · rw [start, first]
    dsimp only
    rw [hdr]
    dsimp only
    rw [if_neg (not_not.mpr rfl), if_neg (by decide), if_neg (by decide), last]
    dsimp only
    rw [if_neg (not_not.mpr rfl)]
    rfl
  · have position : s₁.offset = 13 := by
      rw [offset₁, offset]
      rfl
    exact offset₂.trans (congrArg (· + id.length) position)

theorem Reads.ended (reads : s.Reads pos []) (mem : Allocation) :
    ∃ s', s.readCommand mem = some (.error eTgfEof, s') := by
  have text : s.oneBuffer.text = [] := reads.pending
  obtain ⟨f₀, hdr⟩ : ∃ f₀, s.oneBuffer.readCommandHdr = some (.error eTgfEof, f₀) := by
    have short : ({ s.oneBuffer with crc := 0 } : StreamIn).text.length <
        ({ s.oneBuffer with crc := 0 } : StreamIn).pad + 4 := by
      show s.oneBuffer.text.length < _
      rw [text]
      exact Nat.succ_pos _
    exact ⟨_, by rw [readCommandHdr, readAlign4_cut rfl short]⟩
  have clear : s.oneBuffer.CommandClear mem :=
    ⟨.inl (congrArg List.length ((List.append_nil _).trans text)),
      fun _ _ _ h => by cases hdr.symm.trans h⟩
  have once : s.oneBuffer.readCommand mem = some (.error eTgfEof, f₀) := by rw [readCommand, hdr]
  obtain ⟨-, hnone⟩ | ⟨answer, s', f, hs, hf, -⟩ :=
    (readCommand_agree mem (alike_oneBuffer reads.whole) clear).elim
  · cases once.symm.trans hnone
  · cases once.symm.trans hf
    exact ⟨s', hs⟩

end StreamIn

/-- From `pos` on the bytes are read as the commands, whatever stands behind them. -/
def Feeds (pos : Nat) (bytes : List UInt8) (cmds : List CommandIn) : Prop :=
  ∀ (mem : Nat → Allocation) (s : StreamIn) (more : List UInt8), (∀ k, (mem k).Enough) →
    s.Reads pos (bytes ++ more) → ∃ (mem' : Nat → Allocation) (s' : StreamIn),
      (∀ k, (mem' k).Enough) ∧ s'.Reads (pos + bytes.length) more ∧
      ∀ n, s.readCommands mem (cmds.length + n) =
        cmds.map (fun cmd => some (.ok cmd)) ++ s'.readCommands mem' n

section

variable {pos : Nat} {bytes : List UInt8} {cmds : List CommandIn} {type : CmdType}
  {values : List ArgValue}

theorem Feeds.nil (pos : Nat) : Feeds pos [] [] := fun mem s _ enough reads =>
  ⟨mem, s, enough, reads, fun n => by rw [List.length_nil, Nat.zero_add]; rfl⟩

theorem Feeds.concat (feeds : Feeds pos bytes cmds) (fits : ∀ v ∈ values, v.Fits)
    (checked : checkIn ⟨type, values.map ArgValue.argument⟩ = true) :
    Feeds pos (bytes ++ commandBytes (pos + bytes.length) type values)
      (cmds ++ [⟨type, values.map ArgValue.argument⟩]) := by
  intro mem s more enough reads
  rw [List.append_assoc] at reads
  obtain ⟨mem₁, s₁, enough₁, reads₁, run₁⟩ := feeds mem s _ enough reads
  rw [commandBytes, List.append_assoc, List.singleton_append] at reads₁
  have short := length_of_checkIn checked
  rw [List.length_map] at short
  obtain ⟨s₂, read, -, reads₂⟩ :=
    StreamIn.readCommand_next reads₁ (by omega) fits (enough₁ 0)
  rw [UInt8.xor_self, readAnswer, if_neg (not_not.mpr rfl), if_pos checked] at read
  refine ⟨fun k => mem₁ (k + 1), s₂, fun k => enough₁ (k + 1), ?_, fun n => ?_⟩
  · rw [List.length_append, commandBytes, List.length_append, List.length_singleton,
      ← Nat.add_assoc, ← Nat.add_assoc]
    exact reads₂
  · rw [List.length_append, List.length_singleton, Nat.add_assoc, Nat.add_comm 1 n, run₁,
      StreamIn.readCommands, read, List.map_append, List.append_assoc]
    rfl

end

namespace WriteStream

/-- `tgf_stream_out_finish` without zlib. -/
def finish (s : WriteStream) : Option (Int × WriteStream) :=
  (s.writeCommand ⟨.endofstream, []⟩ 0).map fun r =>
    let r := if 0 ≤ r.1 then r.2.flush else r
    (r.1, r.2.setLastErr r.1)

/-- The streams that `tgf_stream_out_start` has begun, with the commands that
`tgf_write_command` has accepted as a reader is to see them. -/
inductive Carries (sink : Sink) (tgfId : Block) : WriteStream → List CommandIn → Prop where
  | start {r : Int × WriteStream} : (fresh sink).start tgfId = some r → 0 ≤ r.1 →
      Carries sink tgfId r.2 []
  | command {s : WriteStream} {cmds : List CommandIn} {cmd : CommandOut} {clId : Ptr}
      {r : Int × WriteStream} {id : Nat} {hash : MapNode} {args : List ArgOut}
      {values : List ArgValue} : Carries sink tgfId s cmds →
      s.writeCommand cmd clId = some r → 0 ≤ r.1 → s.addObject clId = some (id, hash) →
      cmd.translateOut hash = .ok args → ValuesOf args values →
      Carries sink tgfId r.2 (cmds ++ [⟨cmd.type, values.map ArgValue.argument⟩])

/-- A stream of which the reader gets the identifier and the commands. -/
structure Sends (sink : Sink) (id : List UInt8) (s : WriteStream) (cmds : List CommandIn) :
    Prop where
  written : s.Written
  sink : s.sink = sink
  sent : ∃ body, s.sent = headerBytes id.length ++ id ++ body ∧ Feeds (13 + id.length) body cmds

variable {sink : Sink} {tgfId : Block} {id : List UInt8} {s : WriteStream}
  {cmds : List CommandIn} {r : Int × WriteStream}

theorem start_sends (h : (fresh sink).start tgfId = some r) (ok : 0 ≤ r.1) :
    Sends sink (tgfId.1.take 255) r.2 [] := by
  have fits : (fresh sink).Fits := ⟨Nat.zero_le _, fun _ h => by cases h⟩
  have size : (tgfId.1.take 255).length = min tgfId.1.length 255 := by
    rw [List.length_take, min_comm]
  have cut : tgfId.1.take (min tgfId.1.length 255) = tgfId.1.take 255 := by
    rw [min_comm, ← List.take_eq_take_min]
  obtain ⟨⟨rv, s₁⟩, hr₁, hout₁⟩ := write_spec (s := { fresh sink with cmdIndex := 0 }) fits
    (headerBytes (min tgfId.1.length 255))
  have begun : ({ fresh sink with cmdIndex := 0 } : WriteStream).write
      (headerBytes (min tgfId.1.length 255)) 13 = some (rv, s₁) := hr₁
  have all := h
  rw [start, begun] at h
  dsimp only at h
  cases hout₁ with
  | refused hrv =>
    rw [if_pos hrv] at h
    cases h
    exact absurd hrv (not_lt.mpr ok)
  | written hrv hput _ keeps =>
    rw [if_neg (not_lt.mpr hrv), cut] at h
    obtain ⟨⟨rv₂, s₂⟩, hr₂, hout₂⟩ := write_spec (fits.putAll hput) (tgfId.1.take 255)
    rw [size] at hr₂
    rw [hr₂, Option.map_some] at h
    cases h
    dsimp only at ok ⊢
    cases hout₂ with
    | refused hrv₂ =>
      rw [if_pos hrv₂] at ok
      exact absurd hrv₂ (not_lt.mpr ok)
    | written hrv₂ hput₂ _ keeps₂ =>
      rw [if_neg (not_lt.mpr hrv₂)] at all ⊢
      refine ⟨.start all, keeps₂.sink.trans keeps.sink, [], ?_, .nil _⟩
      rw [Output.putAll_sent hput₂, Output.putAll_sent hput, size, List.append_nil]
      rfl

theorem Sends.command (takes : sink.Takes) (sends : Sends sink id s cmds) {cmd : CommandOut}
    {clId : Ptr} (h : s.writeCommand cmd clId = some r) (ok : 0 ≤ r.1) :
    ∃ n hash args values, s.addObject clId = some (n, hash) ∧ cmd.translateOut hash = .ok args ∧
      ValuesOf args values ∧
      Sends sink id r.2 (cmds ++ [⟨cmd.type, values.map ArgValue.argument⟩]) := by
  obtain ⟨hneg, -⟩ | ⟨hash, n, args, values, hadd, hargs, hvalues, ended, -⟩ :=
    writeCommand_spec sends.written.ready h
  · exact absurd hneg (not_lt.mpr ok)
  obtain ⟨o, hput⟩ := Output.putAll_takes (o := s.toOutput) (sends.sink ▸ takes)
    (commandBytes s.sent.length cmd.type values)
  cases ended with
  | cut none => cases none.symm.trans hput
  | whole all =>
    obtain ⟨body, sent, feeds⟩ := sends.sent
    have position : s.sent.length = 13 + id.length + body.length := by
      rw [sent, List.length_append, List.length_append]
      rfl
    refine ⟨n, hash, args, values, hadd, hargs, hvalues, .command sends.written h,
      (Output.putAll_sink all).trans sends.sink, _, ?_,
      feeds.concat (fits_of_values hvalues) (checkIn_of_translateOut hargs hvalues)⟩
    rw [Output.putAll_sent all, position, sent, List.append_assoc]

theorem Carries.sends (takes : sink.Takes) (carries : Carries sink tgfId s cmds) :
    Sends sink (tgfId.1.take 255) s cmds := by
  induction carries with
  | start h ok => exact start_sends h ok
  | command _ h ok hadd hargs hvalues ih =>
    obtain ⟨n', hash', args', values', hadd', hargs', hvalues', sends⟩ := ih.command takes h ok
    cases hadd.symm.trans hadd'
    cases hargs.symm.trans hargs'
    obtain rfl : _ = values' := List.right_unique_forall₂' (fun _ _ _ h h' =>
      Option.some.inj (h.symm.trans h')) hvalues hvalues'
    exact sends

theorem flush_flat {writeFn : List (List UInt8) → Int} (h : s.sink = .custom writeFn) :
    s.flush.2.blocks.flatten = s.sent := by
  rw [flush, h, Output.sent, List.flatten_append, List.flatten_singleton]

end WriteStream

/-- A `write_fn` that takes everything. -/
def takeAll : Sink := .custom fun blocks => (blocks.getLastD []).length

end ScCore.Tgf
