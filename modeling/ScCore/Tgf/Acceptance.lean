import ScCore.Tgf.Decoding

/-!
# Commands that are accepted

A command that `tgf_read_command` returns is in the bytes of the stream with all its arguments
and the right checksum, unless one of its arguments is given up without an error and the checks
behind it pass.
-/

namespace ScCore.Tgf

open Lib

structure Slip (mem : Allocation) (conv checksum : Bool) (offset : Nat) (bytes : List UInt8) where
  padding : List UInt8
  hdr : List UInt8
  /-- The arguments before it. -/
  values : List ArgValue
  body : List UInt8
  payload : List UInt8
  /-- Its type, if it is read, and its bytes. -/
  argType : Option Nat
  skipped : List UInt8
  taken : List UInt8
  left : List UInt8
  type : CmdType
  /-- The types in the memory of the arguments. -/
  types : List Nat
  pad : padding.length = padAt offset
  header : hdr.length = 4
  cmdType : CmdType.ofCode (ofBytes (swapBytes conv (hdr.take 2))) = some type
  argCnt : types.length = ofBytes (swapBytes conv (hdr.drop 2))
  stream : bytes = padding ++ hdr ++ body ++ skipped ++ taken ++ left
  before : ArgumentsAt conv (offset + padding.length + 4) values body payload
  allocated : ∀ (k : Nat) (v : ArgValue), values[k]? = some v → v.Allocated (mem.block k)
  announced : values.length < types.length
  silent : Silent (mem.block values.length) conv (offset + padding.length + 4 + body.length)
    argType skipped taken left
  /-- The byte that is taken for the checksum is the sum of what is read. -/
  sum : checksum → left.head? = some (xorFrom 0 (hdr ++ payload ++ taken))
  known : values.map (·.type.code) ++ argType.toList <+: types
  checked : checkIn ⟨type, types.map (⟨·, none⟩)⟩

theorem checkIn_types (type : CmdType) (args : List ArgumentIn) :
    checkIn ⟨type, (args.map (·.type)).map (⟨·, none⟩)⟩ = checkIn ⟨type, args⟩ := by
  simp only [checkIn, List.length_map]
  congr 1
  generalize (knownCmds type).2.2 = row
  induction args generalizing row with
  | nil => rfl
  | cons arg args ih =>
    cases row with
    | nil => rfl
    | cons expected row => simp only [List.map_cons, List.zip_cons_cons, List.all_cons, ih row]

theorem wordBytes_header (conv : Bool) {hdr : List UInt8} (h : hdr.length = 4) :
    wordBytes conv 2 (ofBytes (swapBytes conv (hdr.take 2))) ++
      wordBytes conv 2 (ofBytes (swapBytes conv (hdr.drop 2))) = hdr := by
  have htake : wordBytes conv 2 (ofBytes (swapBytes conv (hdr.take 2))) = hdr.take 2 := by
    have hword := wordBytes_ofBytes conv (hdr.take 2)
    rwa [List.length_take, h] at hword
  have hdrop : wordBytes conv 2 (ofBytes (swapBytes conv (hdr.drop 2))) = hdr.drop 2 := by
    have hword := wordBytes_ofBytes conv (hdr.drop 2)
    rwa [List.length_drop, h] at hword
  rw [htake, hdrop, List.take_append_drop]

namespace StreamIn

variable {s s' : StreamIn}

theorem readCommandArguments_ok (mem : Allocation) {argCnt : Nat} {args : List ArgumentIn}
    (h : s.readCommandArguments mem argCnt = some (args, s')) (hok : ¬ s'.lastErr < 0) :
    ∃ s₁, readArguments mem 0 argCnt (s.setLastErr 0) = some (args, s₁) ∧ ¬ s₁.lastErr < 0 ∧
      s₁.pending = (if s₁.checksum then [s₁.crc] else []) ++ s'.pending := by
  rw [readCommandArguments] at h
  cases hread : readArguments mem 0 argCnt (s.setLastErr 0) with
  | none =>
    rw [hread] at h
    cases h
  | some res =>
    obtain ⟨args₁, s₁⟩ := res
    rw [hread] at h
    simp only [readChecksum] at h
    have hend (t : StreamIn) : t.endCommand.pending = t.pending := by
      simp only [endCommand]
      split
      · rfl
      · split <;> rfl
    have hneg (t : StreamIn) (ht : t.lastErr < 0) : t.endCommand.lastErr < 0 := by
      simp only [endCommand, if_pos ht]
      exact ht
    by_cases hchecksum : s₁.checksum = true
    · rw [if_pos hchecksum] at h
      obtain ⟨r, s₂, hbyte, hbyteread⟩ := s₁.readByte_spec
      rw [hbyte] at h
      cases h
      cases hbyteread with
      | error hrv hlast =>
        exact absurd (hneg s₂ (by rw [hlast]; exact hrv)) hok
      | @ok b _ hlast hmoved =>
        have hlast₁ : ¬ s₁.lastErr < 0 := by
          rw [← hlast]
          exact fun hlt => hok (hneg s₂ hlt)
        have hcrc : s₂.crc = 0 := by
          by_contra hne
          apply hok
          simp only [endCommand]
          rw [if_neg (hlast ▸ hlast₁), if_pos ⟨hne, hmoved.checksum.trans hchecksum⟩]
          change eTgfInvcrc < 0
          decide
        rw [hmoved.crc, xorFrom_singleton_eq_zero] at hcrc
        refine ⟨s₁, rfl, hlast₁, ?_⟩
        rw [if_pos hchecksum, hend, ← hcrc]
        simpa using hmoved.pending
    · rw [if_neg hchecksum] at h
      cases h
      refine ⟨s₁, rfl, fun hlt => hok (hneg s₁ hlt), ?_⟩
      rw [if_neg hchecksum, hend]
      rfl

theorem readCommand_sound (mem : Allocation) {cmd : CommandIn}
    (h : s.readCommand mem = some (.ok cmd, s')) :
    (∃ bytes, CommandAt s.conv s.checksum s.offset cmd bytes ∧ s.pending = bytes ++ s'.pending) ∨
      mem.command ∧ Nonempty (Slip mem s.conv s.checksum s.offset s.pending) := by
  rw [readCommand, readCommandHdr] at h
  rcases { s with crc := 0 }.readAlign4_spec with ⟨_, _, hnone⟩ | ⟨r, s₁, hread, halign⟩
  · rw [hnone] at h
    cases h
  rw [hread] at h
  cases halign with
  | behind => cases h
  | before => cases h
  | @ok padding hdr _ hpadding hhdr _ hmoved =>
    have hconv (word : List UInt8) : s₁.convert word = ofBytes (swapBytes s.conv word) := by
      rw [convert, hmoved.conv]
    have hpending : s.pending = padding ++ hdr ++ s₁.pending := by
      have hbytes := hmoved.pending
      rw [List.append_nil] at hbytes
      exact hbytes
    have hcrc : s₁.crc = xorFrom 0 hdr := hmoved.crc
    simp only [hconv] at h
    cases htype : CmdType.ofCode (ofBytes (swapBytes s.conv (hdr.take 2))) with
    | none =>
      simp only [htype] at h
      cases h
    | some type =>
      simp only [htype] at h
      split at h
      case isTrue => cases h
      case isFalse hmem =>
      have hmem : mem.command = true := not_not.mp hmem
      cases hbody : s₁.readCommandArguments mem (ofBytes (swapBytes s.conv (hdr.drop 2))) with
      | none =>
        rw [hbody] at h
        cases h
      | some res =>
        obtain ⟨args, s₃⟩ := res
        rw [hbody] at h
        simp only at h
        split at h
        case isTrue => cases h
        case isFalse hlast =>
        split at h
        case isFalse => cases h
        case isTrue hchecked =>
        cases h
        obtain ⟨s₂, hargs, hlast₂, hrest⟩ := readCommandArguments_ok mem hbody hlast
        cases readArguments_outcome mem hargs with
        | error hneg => exact absurd hneg hlast₂
        | @read values body payload _ hcnt hat hbytes hsum _ hchecksum _ =>
          have hat : ArgumentsAt s₁.conv s₁.offset values body payload := hat
          rw [hmoved.conv, hmoved.offset, hhdr] at hat
          have hbytes : s₁.pending = body ++ s₂.pending := hbytes
          have hsum : s₂.crc = xorFrom s₁.crc payload := hsum
          have hchecksum : s₂.checksum = s₁.checksum := hchecksum
          refine Or.inl ⟨_, ⟨padding, hdr, values, body, payload, hpadding, ?_, rfl, hat, rfl⟩, ?_⟩
          · rw [List.length_map, hcnt, CmdType.code_of_ofCode htype, wordBytes_header s.conv hhdr]
          · rw [hpending, hbytes, hrest, hchecksum, hmoved.checksum, hsum, hcrc, xorFrom_append]
            simp only [List.append_assoc]
        | @silent values body payload argType skipped taken left _ _ hat halloc hsilent hbytes hleft
            hsum hchecksum hlt hlength htypes =>
          have hat : ArgumentsAt s₁.conv s₁.offset values body payload := hat
          rw [hmoved.conv, hmoved.offset, hhdr] at hat
          have hsilent : Silent (mem.block (0 + values.length)) s₁.conv (s₁.offset + body.length)
            argType skipped taken left := hsilent
          rw [hmoved.conv, hmoved.offset, hhdr, Nat.zero_add] at hsilent
          have hbytes : s₁.pending = body ++ skipped ++ taken ++ left := hbytes
          have hsum : s₂.crc = xorFrom s₁.crc (payload ++ taken) := hsum
          have hchecksum : s₂.checksum = s₁.checksum := hchecksum
          refine Or.inr ⟨hmem, ⟨⟨padding, hdr, values, body, payload, argType, skipped, taken, left,
            type, args.map (·.type), hpadding, hhdr, htype, ?_, ?_, hat, ?_, ?_, hsilent, ?_,
            htypes, ?_⟩⟩⟩
          · rw [List.length_map, hlength]
          · rw [hpending, hbytes]
            simp only [List.append_assoc]
          · intro k v hv
            have hk := halloc k v hv
            rwa [Nat.zero_add] at hk
          · rw [List.length_map, hlength]
            exact hlt
          · intro hon
            rw [hchecksum, hmoved.checksum, if_pos hon] at hrest
            obtain ⟨more, hmore⟩ := hleft
            rw [← hmore, hrest, hsum, hcrc, ← xorFrom_append, ← List.append_assoc hdr]
            rfl
          · rw [checkIn_types]
            exact hchecked

end StreamIn

end ScCore.Tgf
