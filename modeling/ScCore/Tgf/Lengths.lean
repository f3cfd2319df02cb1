import ScCore.Tgf.Allocator

/-!
# Lengths that the reader passes

For each function of the buffered input and of the commands the lengths that it passes to a copy,
a skip or an allocation, in their order.
-/

namespace ScCore.Tgf

open Lib

namespace StreamIn

/-- The rest of the buffer behind `n` bytes of text. -/
def bufferRoom (allign n : Nat) : Int := (tgfReadBufsize : Int) - n - allign

/-- The loop of `tgf_fill_buffer`. -/
def fillMoreLengths : Nat → Source → Nat → List UInt8 → List Passed
  | 0, _, _, _ => []
  | turns + 1, src, allign, text =>
      if 4 ≤ text.length then []
      else
        let room := bufferRoom allign text.length
        ⟨room, room⟩ :: match src.read (tgfReadBufsize - text.length - allign) with
          | (none, _) => []
          | (some [], _) => []
          | (some bytes, src) => fillMoreLengths turns src allign (text ++ bytes)

/-- `tgf_fill_buffer`. The rest of the text is copied to the begin of the buffer. -/
def fillBufferLengths (s : StreamIn) : List Passed :=
  match s.fd with
  | none => []
  | some src =>
      if 4 ≤ s.text.length then []
      else
        let room := bufferRoom (s.offset % 4) s.text.length
        ⟨s.text.length, bufferRoom (s.offset % 4) 0⟩ :: ⟨room, room⟩ ::
          match src.read (tgfReadBufsize - s.text.length - s.offset % 4) with
          | (none, _) => []
          | (some [], _) => []
          | (some bytes, src) => fillMoreLengths 3 src (s.offset % 4) (s.text ++ bytes)

/-- The loop of `tgf_read`, where `buf` has room for `room` bytes more. -/
def readLoopLengths : Nat → StreamIn → Int → Int → List Passed
  | 0, _, _, _ => []
  | turns + 1, s, size, room =>
      if s.text ≠ [] ∧ size < 0 then [⟨size, room⟩]
      else
        let t := min s.text.length size.toNat
        let rest := s.take t
        (if s.text = [] then [] else [⟨t, room⟩]) ++ if size = t then []
          else match rest.fd with
            | none => []
            | some src =>
                let free := bufferRoom (rest.offset % 4) 0
                ⟨free, free⟩ :: match src.read (tgfReadBufsize - rest.offset % 4) with
                  | (none, _) => []
                  | (some [], _) => []
                  | (some bytes, src) =>
                      readLoopLengths turns { rest with text := bytes, fd := some src } (size - t)
                        (room - t)

/-- `tgf_read` to a place with `room` bytes. -/
def readLengths (s : StreamIn) (size room : Int) : List Passed :=
  if size = 0 then [] else readLoopLengths (size.toNat + 2) s size room

/-- The loop of `tgf_read_align4`, which skips the pad and copies a word. -/
def readAlign4LoopLengths : Nat → StreamIn → List Passed
  | 0, _ => []
  | turns + 1, s =>
      if s.pad + 4 ≤ s.text.length then [⟨s.pad, s.text.length⟩, ⟨4, 4⟩]
      else
        let filled := if s.pad < s.text.length then s.advance s.pad else s
        (if s.pad < s.text.length then [⟨s.pad, s.text.length⟩] else []) ++
          filled.fillBufferLengths ++ match filled.fillBuffer with
            | none => []
            | some (t, s) =>
                if t < 0 then []
                else ⟨s.pad, s.text.length⟩ :: if s.text.length < s.pad then []
                  else readAlign4LoopLengths turns (s.advance s.pad)

/-- `tgf_read_align4` of one word. -/
def readAlign4Lengths (s : StreamIn) : List Passed := readAlign4LoopLengths 3 s

/-- `tgf_read_byte`. -/
def readByteLengths (s : StreamIn) : List Passed :=
  if s.text ≠ [] then [] else s.fillBufferLengths

/-- The loop of `tgf_read_int32` and `tgf_read_int16`. -/
def readWordLoopLengths (len : Nat) (least : Int) : Nat → StreamIn → List Passed
  | 0, _ => []
  | turns + 1, s =>
      if len ≤ s.text.length then []
      else s.fillBufferLengths ++ match s.fillBuffer with
        | none => []
        | some (rv, s) => if rv ≤ least then [] else readWordLoopLengths len least turns s

/-- `tgf_read_int32`. -/
def readInt32Lengths (s : StreamIn) : List Passed := readWordLoopLengths 4 (-1) 3 s

/-- `tgf_read_int16`. -/
def readInt16Lengths (s : StreamIn) : List Passed := readWordLoopLengths 2 2 3 s

/-- `tgf_read_data` and `tgf_read_string`, with the allocator behind them. -/
def readBlockLengths (ok : Int → Bool) (extra : Int) (a : TgfAllocator) (s : StreamIn) :
    List Passed × TgfAllocator :=
  match s.readInt32 with
  | none => (s.readInt32Lengths, a)
  | some (.error _, _) => (s.readInt32Lengths, a)
  | some (.ok datasize, s') =>
      let datasize := (BitVec.ofNat 32 datasize).toInt
      let ok := ok (datasize + extra)
      let (lengths, a) := a.block ok extra datasize
      (s.readInt32Lengths ++ lengths ++
        if ok then s'.readLengths datasize (datasize + extra) else [], a)

/-- The `switch` of `tgf_read_argument`. -/
def readValueLengths (ok : Int → Bool) (type : Nat) (a : TgfAllocator) (s : StreamIn) :
    List Passed × TgfAllocator :=
  match ArgType.ofCode type with
  | some .int32 => (s.readInt32Lengths, a)
  | some .float => (s.readLengths 8 8, a)
  | some .string => s.readBlockLengths ok 1 a
  | some .data => s.readBlockLengths ok 0 a
  | some .sctype => (s.readByteLengths, a)
  | some .int16 => (s.readInt16Lengths, a)
  | some .lazyData => s.readBlockLengths ok 1 a
  | _ => ([], a)

/-- `tgf_read_argument`. -/
def readArgumentLengths (ok : Int → Bool) (a : TgfAllocator) (s : StreamIn) :
    List Passed × TgfAllocator :=
  match s.readAlign4 with
  | none => (s.readAlign4Lengths, a)
  | some (.error _, _) => (s.readAlign4Lengths, a)
  | some (.ok type, s') =>
      let (lengths, a) := s'.readValueLengths ok (s'.convert type) a
      (s.readAlign4Lengths ++ lengths, a)

/-- The loop of `__tgf_read_command`. -/
def readArgumentsLengths (mem : Allocation) :
    Nat → Nat → TgfAllocator → StreamIn → List Passed
  | _, 0, _, _ => []
  | i, cnt + 1, a, s =>
      let (lengths, a) := s.readArgumentLengths (mem.block i) a
      lengths ++ match s.readArgument (mem.block i) ⟨mem.types i, none⟩ with
        | none => []
        | some ((rv, _), s) => if rv < 0 then [] else readArgumentsLengths mem (i + 1) cnt a s

def readChecksumLengths (s : StreamIn) : List Passed :=
  if s.checksum then s.readByteLengths else []

/-- `tgf_read_command`; `first` is whether there is memory for the command at least. -/
def readCommandLengths (mem : Allocation) (first : Bool) (a : TgfAllocator) (s : StreamIn) :
    List Passed :=
  { s with crc := 0 }.readAlign4Lengths ++ match s.readCommandHdr with
    | none => []
    | some (.error _, _) => []
    | some (.ok (_, argCnt), s) =>
        let (lengths, a) := a.alloc (mem.command || first) sizeofCommand
        lengths ++ if ¬ (mem.command || first) then []
          else
            let (lengths, a) := a.alloc mem.command (sizeofArgument * argCnt)
            lengths ++ if ¬ mem.command then []
              else readArgumentsLengths mem 0 argCnt a (s.setLastErr 0) ++
                match readArguments mem 0 argCnt (s.setLastErr 0) with
                | none => []
                | some (_, s) => s.readChecksumLengths

variable {s s' : StreamIn}

theorem bufferRoom_nonneg {allign n : Nat} (ha : allign < 4) (hn : n < 4) :
    0 ≤ bufferRoom allign n := by
  rw [bufferRoom, tgfReadBufsize]
  omega

theorem fillMoreLengths_fine (turns : Nat) {allign : Nat} (text : List UInt8) (src : Source)
    (ha : allign < 4) : AllFine (fillMoreLengths turns src allign text) := by
  induction turns generalizing src text with
  | zero => exact allFine_nil
  | succ turns ih =>
    rw [fillMoreLengths]
    split
    · exact allFine_nil
    · refine allFine_cons.mpr ⟨fine_self (bufferRoom_nonneg ha (by omega)), ?_⟩
      split
      · exact allFine_nil
      · exact allFine_nil
      · exact ih _ _

theorem fillBufferLengths_fine (s : StreamIn) : AllFine s.fillBufferLengths := by
  have ha : s.offset % 4 < 4 := Nat.mod_lt _ (by decide)
  rw [fillBufferLengths]
  split
  · exact allFine_nil
  · split
    · exact allFine_nil
    · refine allFine_cons.mpr ⟨⟨Int.natCast_nonneg _, ?_⟩, allFine_cons.mpr ⟨?_, ?_⟩⟩
      · dsimp only [bufferRoom, tgfReadBufsize]
        omega
      · exact fine_self (bufferRoom_nonneg ha (by omega))
      · split
        · exact allFine_nil
        · exact allFine_nil
        · exact fillMoreLengths_fine _ _ _ ha

theorem readLoopLengths_fine (turns : Nat) (s : StreamIn) {size room : Int} (hsize : 0 ≤ size)
    (hroom : size ≤ room) : AllFine (readLoopLengths turns s size room) := by
  induction turns generalizing s size room with
  | zero => exact allFine_nil
  | succ turns ih =>
    rw [readLoopLengths, if_neg (by omega)]
    refine allFine_append.mpr ⟨?_, ?_⟩
    · split
      · exact allFine_nil
      · exact allFine_cons.mpr ⟨⟨Int.natCast_nonneg _, by dsimp only; omega⟩, allFine_nil⟩
    split
    · exact allFine_nil
    · split
      · exact allFine_nil
      · refine allFine_cons.mpr ⟨fine_self (bufferRoom_nonneg (Nat.mod_lt _ (by decide))
          (by decide)), ?_⟩
        split
        · exact allFine_nil
        · exact allFine_nil
        · exact ih _ (by omega) (by omega)

theorem readLengths_fine (s : StreamIn) {size room : Int} (hsize : 0 ≤ size)
    (hroom : size ≤ room) : AllFine (s.readLengths size room) := by
  rw [readLengths]
  split
  · exact allFine_nil
  · exact readLoopLengths_fine _ s hsize hroom

theorem readByteLengths_fine (s : StreamIn) : AllFine s.readByteLengths := by
  rw [readByteLengths]
  split
  · exact allFine_nil
  · exact s.fillBufferLengths_fine

theorem readWordLoopLengths_fine (len : Nat) (least : Int) (turns : Nat) (s : StreamIn) :
    AllFine (readWordLoopLengths len least turns s) := by
  induction turns generalizing s with
  | zero => exact allFine_nil
  | succ turns ih =>
    rw [readWordLoopLengths]
    split
    · exact allFine_nil
    · refine allFine_append.mpr ⟨s.fillBufferLengths_fine, ?_⟩
      split
      · exact allFine_nil
      · split
        · exact allFine_nil
        · exact ih _

theorem readChecksumLengths_fine (s : StreamIn) : AllFine s.readChecksumLengths := by
  rw [readChecksumLengths]
  split
  · exact s.readByteLengths_fine
  · exact allFine_nil

/-- Only a pad that is longer than the text is not fine, and nothing is read then. -/
theorem readAlign4LoopLengths_fine (turns : Nat) {r : Except Int (List UInt8) × StreamIn}
    (h : readAlign4Loop turns s = some r) : AllFine (readAlign4LoopLengths turns s) := by
  induction turns generalizing s with
  | zero => cases h
  | succ turns ih =>
    have skip {s : StreamIn} (le : s.pad ≤ s.text.length) :
        (⟨s.pad, s.text.length⟩ : Passed).Fine :=
      ⟨Int.natCast_nonneg _, Int.ofNat_le.mpr le⟩
    rw [readAlign4Loop] at h
    rw [readAlign4LoopLengths]
    split at h
    · next room =>
      rw [if_pos room]
      exact allFine_cons.mpr ⟨skip (by omega),
        allFine_cons.mpr ⟨fine_self (by decide), allFine_nil⟩⟩
    · next short =>
      rw [if_neg short]
      refine allFine_append.mpr ⟨allFine_append.mpr ⟨?_, fillBufferLengths_fine _⟩, ?_⟩
      · split
        · next lt => exact allFine_cons.mpr ⟨skip lt.le, allFine_nil⟩
        · exact allFine_nil
      · obtain ⟨filled, fill⟩ : ∃ filled,
            StreamIn.fillBuffer (if s.pad < s.text.length then s.advance s.pad else s) = filled :=
          ⟨_, rfl⟩
        rw [fill] at h ⊢
        cases filled with
        | none => cases h
        | some next =>
          obtain ⟨t, s'⟩ := next
          dsimp only at h ⊢
          split at h
          · next failed =>
            rw [if_pos failed]
            exact allFine_nil
          · next filled =>
            rw [if_neg filled]
            split at h
            · cases h
            · next le =>
              rw [if_neg le]
              exact allFine_cons.mpr ⟨skip (not_lt.mp le), ih h⟩

end StreamIn

end ScCore.Tgf
