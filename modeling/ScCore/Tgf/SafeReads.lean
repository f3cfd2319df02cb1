import ScCore.Tgf.Malformed

/-!
# Safe reading of commands

When every length that is passed is fine for all deliveries of the bytes of a command, and every
answer is an error or a command that is in the bytes.
-/

namespace ScCore.Tgf

open Lib

def Answers (conv checksum : Bool) (offset : Nat) (bytes : List UInt8) :
    Except Int CommandIn × StreamIn → Prop
  | (.error rv, _) => rv < 0
  | (.ok cmd, s) =>
      ∃ read, CommandAt conv checksum offset cmd read ∧ bytes = read ++ s.pending

/-- `tgf_read_command` passes only lengths that are fine, and comes to an end with an answer. -/
def StreamIn.ReadsSafely (mem : Allocation) (first : Bool) (a : TgfAllocator) (s : StreamIn) :
    Prop :=
  AllFine (s.readCommandLengths mem first a) ∧
    ∃ r, s.readCommand mem = some r ∧ Answers s.conv s.checksum s.offset s.pending r

namespace StreamIn

variable {s s' : StreamIn} {mem : Allocation} {a : TgfAllocator}

theorem readCommand_error {rv : Int} (read : s.readCommand mem = some (.error rv, s')) :
    rv < 0 := by
  rw [readCommand, readCommandHdr] at read
  obtain ⟨-, -, stopped⟩ | ⟨r, s₁, align, how⟩ := { s with crc := 0 }.readAlign4_spec
  · rw [stopped] at read
    cases read
  rw [align] at read
  cases how with
  | behind neg | before neg =>
    cases read
    exact neg
  | ok =>
    dsimp only at read
    split at read
    · cases read
    · next hdr =>
      split at hdr
      · cases hdr
        cases read
        decide
      · cases hdr
    · split at read
      · cases read
        decide
      · split at read
        · cases read
        · split at read
          · next neg =>
            cases read
            exact neg
          · split at read
            · cases read
            · cases read
              decide

variable {type : CmdType} {argCnt : Nat}

theorem readCommandHdr_at {padding hdr more : List UInt8} (text : s.text = padding ++ hdr ++ more)
    (hpadding : padding.length = padAt s.offset) (hhdr : hdr.length = 4)
    (htype : CmdType.ofCode (ofBytes (swapBytes s.conv (hdr.take 2))) = some type)
    (hcnt : ofBytes (swapBytes s.conv (hdr.drop 2)) = argCnt) :
    s.readCommandHdr =
      some (.ok (type, argCnt), { s with crc := 0 }.past padding hdr more) := by
  have align : { s with crc := 0 }.readAlign4 =
      some (.ok hdr, { s with crc := 0 }.past padding hdr more) :=
    readAlign4_text text hpadding hhdr
  have conv (word : List UInt8) : ({ s with crc := 0 }.past padding hdr more).convert word =
      ofBytes (swapBytes s.conv word) := rfl
  rw [readCommandHdr, align]
  dsimp only
  rw [conv, conv, htype, hcnt]

theorem readCommandLengths_hdr {first : Bool}
    (hdr : s.readCommandHdr = some (.ok (type, argCnt), s'))
    (fine : AllFine (s.readCommandLengths mem first a)) :
    AllFine (a.alloc (mem.command || first) sizeofCommand).1 ∧
      ((mem.command || first) = true →
        AllFine ((a.alloc true sizeofCommand).2.alloc mem.command (sizeofArgument * argCnt)).1 ∧
          (mem.command = true → AllFine (readArgumentsLengths mem 0 argCnt
            ((a.alloc true sizeofCommand).2.alloc true (sizeofArgument * argCnt)).2
            (s'.setLastErr 0)))) := by
  rw [readCommandLengths, hdr] at fine
  obtain ⟨-, fine⟩ := allFine_append.mp fine
  obtain ⟨command, fine⟩ := allFine_append.mp fine
  refine ⟨command, fun ok => ?_⟩
  rw [if_neg (not_not.mpr ok), ok] at fine
  obtain ⟨arguments, fine⟩ := allFine_append.mp fine
  refine ⟨arguments, fun hmem => ?_⟩
  rw [if_neg (not_not.mpr hmem), hmem] at fine
  exact (allFine_append.mp fine).1

end StreamIn

open StreamIn in
theorem BadCommand.delivered {mem : Allocation} {a : TgfAllocator} {conv : Bool} {offset : Nat}
    {bytes : List UInt8} (checksum : Bool) (bad : BadCommand mem a conv offset bytes) :
    ∃ (first : Bool) (types : Nat → Nat) (s : StreamIn), s.pending = bytes ∧ s.offset = offset ∧
      s.conv = conv ∧ s.checksum = checksum ∧
      ¬ s.ReadsSafely { mem with types := types } first a := by
  cases bad with
  | pad hne short =>
    obtain ⟨s, hs⟩ : ∃ s : StreamIn,
        s = ⟨[], offset, some ⟨[⟨bytes, hne⟩], false⟩, conv, checksum, 0, 0, 0⟩ := ⟨_, rfl⟩
    refine ⟨true, mem.types, s, by simp [hs, pending, Source.bytes], by rw [hs], by rw [hs],
      by rw [hs], ?_⟩
    rintro ⟨-, r, read, -⟩
    have cut : { s with crc := 0 }.readAlign4 = none :=
      readAlign4_cut_pad hne (by rw [hs]) (by rw [hs]) (by rw [hs]; exact short)
    rw [readCommand, readCommandHdr, cut] at read
    cases read
  | @command padding hdr left type hpadding hhdr htype wrong =>
    obtain ⟨s, hs⟩ : ∃ s : StreamIn,
        s = ⟨padding ++ hdr ++ left, offset, none, conv, checksum, 0, 0, 0⟩ := ⟨_, rfl⟩
    refine ⟨true, mem.types, s, by simp [hs, pending], by rw [hs], by rw [hs], by rw [hs], ?_⟩
    rintro ⟨fine, -⟩
    have text : s.text = padding ++ hdr ++ left := by rw [hs]
    have header := readCommandHdr_at text (by rw [hs]; exact hpadding) hhdr
      (by rw [hs]; exact htype) rfl
    have command := (readCommandLengths_hdr header fine).1
    rw [Bool.or_true] at command
    exact wrong command
  | @arguments padding hdr left type argCnt hpadding hhdr htype hcnt wrong =>
    obtain ⟨s, hs⟩ : ∃ s : StreamIn,
        s = ⟨padding ++ hdr ++ left, offset, none, conv, checksum, 0, 0, 0⟩ := ⟨_, rfl⟩
    refine ⟨true, mem.types, s, by simp [hs, pending], by rw [hs], by rw [hs], by rw [hs], ?_⟩
    rintro ⟨fine, -⟩
    have text : s.text = padding ++ hdr ++ left := by rw [hs]
    have cnt : ofBytes (swapBytes s.conv (hdr.drop 2)) = argCnt := by
      rw [hs]
      exact hcnt
    have header := readCommandHdr_at text (by rw [hs]; exact hpadding) hhdr
      (by rw [hs]; exact htype) cnt
    exact wrong ((readCommandLengths_hdr header fine).2 (Bool.or_true _)).1
  | @item padding hdr body payload left type argCnt values hmem hpadding hhdr htype hcnt hat all lt
      item =>
    obtain ⟨cnt, hlt⟩ := Nat.exists_eq_add_of_lt lt
    obtain ⟨text, fd, bytes, delivered⟩ := BadItem.delivered mem cnt item
    obtain ⟨s, hs⟩ : ∃ s : StreamIn,
        s = ⟨padding ++ hdr ++ (body ++ text), offset, fd, conv, checksum, 0, 0, 0⟩ := ⟨_, rfl⟩
    obtain ⟨s₁, hs₁⟩ : ∃ s₁, s₁ = { s with crc := 0 }.past padding hdr (body ++ text) := ⟨_, rfl⟩
    obtain ⟨s₂, hs₂⟩ : ∃ s₂, s₂ = (s₁.setLastErr 0).behind body payload text := ⟨_, rfl⟩
    refine ⟨true, mem.types, s, ?_, by rw [hs], by rw [hs], by rw [hs], ?_⟩
    · rw [pending_eq, hs, ← bytes]
      simp only [List.append_assoc]
    rintro ⟨fine, r, read, -⟩
    have htext : s.text = padding ++ hdr ++ (body ++ text) := by rw [hs]
    have header : s.readCommandHdr = some (.ok (type, argCnt), s₁) := hs₁ ▸
      readCommandHdr_at htext (by rw [hs]; exact hpadding) hhdr (by rw [hs]; exact htype)
        (by rw [hs]; exact hcnt)
    have fine := ((readCommandLengths_hdr header fine).2 (Bool.or_true _)).2 hmem
    have conv₁ : (s₁.setLastErr 0).conv = conv := by rw [hs₁, hs]; rfl
    have offset₁ : (s₁.setLastErr 0).offset = offset + padding.length + 4 := by
      rw [hs₁, hs, ← hhdr]
      rfl
    have text₁ : (s₁.setLastErr 0).text = body ++ text := by rw [hs₁]; rfl
    have all' (k : Nat) (v : ArgValue) (hv : values[k]? = some v) :
        v.Allocated (mem.block (0 + k)) := by
      rw [Nat.zero_add]
      exact all k v hv
    have total : argCnt = values.length + (cnt + 1) := by omega
    have before := readArguments_text mem (i := 0) (cnt + 1) hat conv₁ offset₁ text₁ all'
    obtain ⟨lengths, behind⟩ := readArgumentsLengths_text
      (a := ((a.alloc true sizeofCommand).2.alloc true (sizeofArgument * argCnt)).2) mem (i := 0)
      (cnt + 1) hat conv₁ offset₁ text₁ all'
    rw [← total, ← hs₂, Nat.zero_add] at before behind
    obtain stopped | wrong := delivered mem.types s₂ (by rw [hs₂]; rfl) (by rw [hs₂, hs₁, hs]; rfl)
      (by rw [hs₂]; exact conv₁) (by rw [hs₂]; exact congrArg (· + body.length) offset₁)
    · have stopped : readArguments mem values.length (cnt + 1) s₂ = none := stopped
      rw [stopped, Option.map_none] at before
      have none : s₁.readCommandArguments mem argCnt = none := by rw [readCommandArguments, before]
      rw [readCommand, header] at read
      dsimp only at read
      rw [if_neg (not_not.mpr hmem), none] at read
      cases read
    · rw [behind] at fine
      exact wrong (allFine_append.mp fine).2

theorem BadCommand.forget {mem : Allocation} {types : Nat → Nat} {a : TgfAllocator} {conv : Bool}
    {offset : Nat} {bytes : List UInt8}
    (bad : BadCommand { mem with types := types } a conv offset bytes) :
    BadCommand mem a conv offset bytes := by
  cases bad with
  | pad hne short => exact .pad hne short
  | command hpadding hhdr htype wrong => exact .command hpadding hhdr htype wrong
  | arguments hpadding hhdr htype hcnt wrong => exact .arguments hpadding hhdr htype hcnt wrong
  | item hmem hpadding hhdr htype hcnt hat all lt item =>
    exact .item hmem hpadding hhdr htype hcnt hat all lt item

/-- However the bytes of a command are delivered, all lengths are fine and the answer is an error
or the command exactly when no argument is malformed in one of these ways, and none can be given
up in a command that passes the checks. -/
theorem reads_safely_iff (mem : Allocation) (a : TgfAllocator) (conv checksum : Bool)
    (offset : Nat) (bytes : List UInt8) :
    (∀ (first : Bool) (types : Nat → Nat) (s : StreamIn), s.pending = bytes → s.offset = offset →
      s.conv = conv → s.checksum = checksum →
      s.ReadsSafely { mem with types := types } first a) ↔
    ¬ BadCommand mem a conv offset bytes ∧
      ¬ (mem.command ∧ Nonempty (Slip mem conv checksum offset bytes)) := by
  constructor
  · intro safe
    constructor
    · intro bad
      obtain ⟨first, types, s, hbytes, hoffset, hconv, hchecksum, unsafely⟩ :=
        bad.delivered checksum
      exact unsafely (safe first types s hbytes hoffset hconv hchecksum)
    · rintro ⟨hmem, ⟨slip⟩⟩
      obtain ⟨types, s, s', cmd, hbytes, hoffset, hconv, hchecksum, read, arg, harg, value⟩ :=
        slip.accepted hmem
      obtain ⟨-, r, read', answers⟩ := safe true types s hbytes hoffset hconv hchecksum
      rw [read] at read'
      cases read'
      obtain ⟨_, ⟨_, _, values, _, _, _, _, args, _⟩, _⟩ := answers
      rw [args] at harg
      obtain ⟨v, _, rfl⟩ := List.mem_map.mp harg
      cases value
  · rintro ⟨good, whole⟩ first types s rfl rfl rfl rfl
    have bad : ¬ (s.readCommand { mem with types := types } = none ∨
        ¬ AllFine (s.readCommandLengths { mem with types := types } first a)) :=
      fun bad => good (StreamIn.readCommand_bad bad).forget
    obtain ⟨read, fine⟩ := not_or.mp bad
    rw [not_not] at fine
    obtain ⟨⟨r, s'⟩, read⟩ := Option.ne_none_iff_exists'.mp read
    refine ⟨fine, (r, s'), read, ?_⟩
    cases r with
    | error rv => exact StreamIn.readCommand_error read
    | ok cmd =>
      obtain sound | ⟨hcommand, ⟨slip⟩⟩ := StreamIn.readCommand_sound _ read
      · exact sound
      · exact absurd ⟨hcommand, ⟨{ slip with }⟩⟩ whole

/-- A string of length `-1` is copied. -/
theorem not_reads_safely : ¬ ∀ (mem : Allocation) (first : Bool) (a : TgfAllocator)
    (s : StreamIn), s.ReadsSafely mem first a := by
  intro safe
  have fine := (safe ⟨true, fun _ => 0, fun _ _ => true⟩ true ⟨16384, none, 0⟩
    ⟨[2, 0, 1, 0, 6, 0, 0, 0, 255, 255, 255, 255, 97], 0, none, false, false, 0, 0, 0⟩).1
  have copied : (⟨-1, 0⟩ : Passed).Fine := fine _ (by decide)
  exact absurd copied (by decide)

end ScCore.Tgf
