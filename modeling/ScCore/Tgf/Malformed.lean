import ScCore.Tgf.Delivery
import ScCore.Tgf.Lengths

/-!
# Malformed commands

What the bytes of a command are when the reader passes a length that is not fine, or does not come
to an end: a pad that is cut off, or a block whose size is negative, too large, or for which the
allocator has no room on its page.
-/

namespace ScCore.Tgf

open Lib

inductive BadItem (ok : Int → Bool) (a : TgfAllocator) (conv : Bool) (offset : Nat) :
    List UInt8 → Prop where
  | pad {left : List UInt8} : left ≠ [] → left.length < padAt offset → BadItem ok a conv offset left
  | block {argType : ArgType} {extra : Int} {skipped word size left : List UInt8} :
      skipped.length = padAt offset → word.length = 4 →
      ArgType.ofCode (ofBytes (swapBytes conv word)) = some argType →
      blockExtra argType = some extra → size.length = 4 →
      ¬ AllFine (a.block (ok (sizeOf32 conv size + extra)) extra (sizeOf32 conv size)).1 →
      BadItem ok a conv offset (skipped ++ word ++ (size ++ left))

inductive BadCommand (mem : Allocation) (a : TgfAllocator) (conv : Bool) (offset : Nat) :
    List UInt8 → Prop where
  | pad {left : List UInt8} : left ≠ [] → left.length < padAt offset →
      BadCommand mem a conv offset left
  | command {padding hdr left : List UInt8} {type : CmdType} : padding.length = padAt offset →
      hdr.length = 4 → CmdType.ofCode (ofBytes (swapBytes conv (hdr.take 2))) = some type →
      ¬ AllFine (a.alloc true sizeofCommand).1 →
      BadCommand mem a conv offset (padding ++ hdr ++ left)
  | arguments {padding hdr left : List UInt8} {type : CmdType} {argCnt : Nat} :
      padding.length = padAt offset → hdr.length = 4 →
      CmdType.ofCode (ofBytes (swapBytes conv (hdr.take 2))) = some type →
      ofBytes (swapBytes conv (hdr.drop 2)) = argCnt →
      ¬ AllFine ((a.alloc true sizeofCommand).2.alloc mem.command (sizeofArgument * argCnt)).1 →
      BadCommand mem a conv offset (padding ++ hdr ++ left)
  | item {padding hdr body payload left : List UInt8} {type : CmdType} {argCnt : Nat}
      {values : List ArgValue} : mem.command → padding.length = padAt offset → hdr.length = 4 →
      CmdType.ofCode (ofBytes (swapBytes conv (hdr.take 2))) = some type →
      ofBytes (swapBytes conv (hdr.drop 2)) = argCnt →
      ArgumentsAt conv (offset + padding.length + 4) values body payload →
      (∀ (k : Nat) (v : ArgValue), values[k]? = some v → v.Allocated (mem.block k)) →
      values.length < argCnt →
      BadItem (mem.block values.length)
        (values.foldl TgfAllocator.after
          ((a.alloc true sizeofCommand).2.alloc true (sizeofArgument * argCnt)).2)
        conv (offset + padding.length + 4 + body.length) left →
      BadCommand mem a conv offset (padding ++ hdr ++ body ++ left)

namespace StreamIn

variable {s s' : StreamIn} {ok : Int → Bool} {a : TgfAllocator} {mem : Allocation}

/-! ## What the bytes are when a length is not fine -/

/-- A block that is read to the end, or given up, was asked for with lengths that are fine. -/
theorem readBlock_bad {extra : Int}
    (bad : s.readBlock ok extra = none ∨ ¬ AllFine (s.readBlockLengths ok extra a).1) :
    ∃ size left, s.pending = size ++ left ∧ size.length = 4 ∧
      ¬ AllFine (a.block (ok (sizeOf32 s.conv size + extra)) extra (sizeOf32 s.conv size)).1 := by
  have word : AllFine s.readInt32Lengths := readWordLoopLengths_fine _ _ _ s
  obtain ⟨r, s₁, hword, hread⟩ := s.readInt32_spec
  rw [readBlock, readBlockLengths, hword] at bad
  cases hread with
  | error | partly =>
    obtain bad | bad := bad
    · cases bad
    · exact absurd word bad
  | @ok size _ hlength _ hmoved =>
    refine ⟨size, s₁.pending, by simpa using hmoved.pending, hlength, fun fine => ?_⟩
    dsimp only at bad
    change (if ok (sizeOf32 s.conv size + extra) then s₁.read (sizeOf32 s.conv size)
      else _) = none ∨ ¬ AllFine (s.readInt32Lengths ++
        (a.block (ok (sizeOf32 s.conv size + extra)) extra (sizeOf32 s.conv size)).1 ++
        if ok (sizeOf32 s.conv size + extra) then
          s₁.readLengths (sizeOf32 s.conv size) (sizeOf32 s.conv size + extra) else []) at bad
    split at bad
    · next hok =>
      rw [hok] at fine
      obtain ⟨nonneg, le⟩ := TgfAllocator.block_copy fine
      obtain bad | bad := bad
      · obtain ⟨neg, _⟩ | ⟨r, s', read, _⟩ := s₁.read_spec (sizeOf32 s.conv size)
        · omega
        · rw [read] at bad
          cases bad
      · rw [hok] at bad
        exact bad (allFine_append.mpr ⟨allFine_append.mpr ⟨word, fine⟩,
          s₁.readLengths_fine nonneg le⟩)
    · obtain bad | bad := bad
      · cases bad
      · exact bad (allFine_append.mpr ⟨allFine_append.mpr ⟨word, fine⟩, allFine_nil⟩)

variable {arg arg' : ArgumentIn} {rv : Int} {v : ArgValue} {i offset : Nat} {left : List UInt8}
  {conv : Bool}

theorem setValue_eq_none {α : Type} {f : α → ArgValue} {r : Option (Except Int α × StreamIn)} :
    setValue arg f r = none ↔ r = none := by
  match r with
  | none => exact ⟨fun _ => rfl, fun _ => rfl⟩
  | some (.error _, _) => exact ⟨nofun, nofun⟩
  | some (.ok _, _) => exact ⟨nofun, nofun⟩

theorem readValue_bad
    (bad : s.readValue ok arg = none ∨ ¬ AllFine (s.readValueLengths ok arg.type a).1) :
    ∃ argType extra size left, ArgType.ofCode arg.type = some argType ∧
      blockExtra argType = some extra ∧ s.pending = size ++ left ∧ size.length = 4 ∧
      ¬ AllFine (a.block (ok (sizeOf32 s.conv size + extra)) extra (sizeOf32 s.conv size)).1 := by
  have never {α : Type} {f : α → ArgValue} {r : Option (Except Int α × StreamIn)}
      {lengths : List Passed} (some : r ≠ none) (fine : AllFine lengths) :
      ¬ (setValue arg f r = none ∨ ¬ AllFine lengths) :=
    fun bad => bad.elim (fun none => some (setValue_eq_none.mp none)) fun bad => bad fine
  have block {argType : ArgType} {extra : Int} {f : List UInt8 → ArgValue}
      (type : ArgType.ofCode arg.type = some argType) (hextra : blockExtra argType = some extra)
      (bad : setValue arg f (s.readBlock ok extra) = none ∨
        ¬ AllFine (s.readBlockLengths ok extra a).1) :
      ∃ argType extra size left, ArgType.ofCode arg.type = some argType ∧
        blockExtra argType = some extra ∧ s.pending = size ++ left ∧ size.length = 4 ∧
        ¬ AllFine (a.block (ok (sizeOf32 s.conv size + extra)) extra (sizeOf32 s.conv size)).1 := by
    obtain ⟨size, left, bytes⟩ := readBlock_bad (bad.imp_left setValue_eq_none.mp)
    exact ⟨argType, extra, size, left, type, hextra, bytes⟩
  have nothing {r : (Int × ArgumentIn) × StreamIn} : ¬ (some r = none ∨ ¬ AllFine []) :=
    fun bad => bad.elim (Option.some_ne_none _) fun bad => bad allFine_nil
  obtain ⟨code, type⟩ : ∃ code, ArgType.ofCode arg.type = code := ⟨_, rfl⟩
  rw [readValue, readValueLengths, type] at bad
  cases code with
  | none => exact absurd bad nothing
  | some argType =>
    cases argType with
    | int32 =>
      obtain ⟨r, s₁, read, -⟩ := s.readInt32_spec
      exact absurd bad (never (read ▸ Option.some_ne_none _) (readWordLoopLengths_fine _ _ _ s))
    | float =>
      have fine : AllFine (s.readLengths 8 8) := s.readLengths_fine (by decide) (by decide)
      refine absurd bad (never ?_ fine)
      obtain ⟨neg, -⟩ | ⟨r, s₁, read, -⟩ := s.read_spec 8
      · omega
      · rw [read]
        exact Option.some_ne_none _
    | sctype =>
      obtain ⟨r, s₁, read, -⟩ := s.readByte_spec
      exact absurd bad (never (read ▸ Option.some_ne_none _) s.readByteLengths_fine)
    | int16 =>
      obtain ⟨r, s₁, read, -⟩ := s.readInt16_spec
      exact absurd bad (never (read ▸ Option.some_ne_none _) (readWordLoopLengths_fine _ _ _ s))
    | string => exact block type rfl bad
    | data => exact block type rfl bad
    | lazyData => exact block type rfl bad
    | int64 | argLast | userid | none => exact absurd bad nothing

theorem readAlign4Lengths_fine {r : Except Int (List UInt8) × StreamIn}
    (read : s.readAlign4 = some r) : AllFine s.readAlign4Lengths :=
  readAlign4LoopLengths_fine 3 read

theorem padAt_offset (s : StreamIn) : s.pad = padAt s.offset := rfl

theorem readArgument_bad
    (bad : s.readArgument ok arg = none ∨ ¬ AllFine (s.readArgumentLengths ok a).1) :
    BadItem ok a s.conv s.offset s.pending := by
  obtain ⟨pos, short, -⟩ | ⟨r, s₁, read, align⟩ := s.readAlign4_spec
  · exact .pad (List.length_pos_iff.mp pos) short
  have fine := readAlign4Lengths_fine read
  rw [readArgument, readArgumentLengths, read] at bad
  cases align with
  | behind | before =>
    obtain bad | bad := bad
    · cases bad
    · exact absurd fine bad
  | @ok padding word _ hpadding hword _ hmoved =>
    have value : s₁.readValue ok { arg with type := s₁.convert word } = none ∨
        ¬ AllFine (s₁.readValueLengths ok (s₁.convert word) a).1 :=
      bad.imp_right fun bad fine' => bad (allFine_append.mpr ⟨fine, fine'⟩)
    obtain ⟨argType, extra, size, left, type, hextra, bytes, hsize, wrong⟩ := readValue_bad value
    have pending : s.pending = padding ++ word ++ s₁.pending := by simpa using hmoved.pending
    rw [pending, bytes]
    rw [hmoved.conv] at wrong
    refine .block hpadding hword ?_ hextra hsize wrong
    rw [← hmoved.conv]
    exact type

/-! ## The allocator behind an argument -/

theorem setValue_value {α : Type} {f : α → ArgValue} {r : Option (Except Int α × StreamIn)}
    (new : arg.value = none) (read : setValue arg f r = some ((rv, arg'), s'))
    (value : arg'.value = some v) : ∃ x, r = some (.ok x, s') ∧ v = f x := by
  match r with
  | none => cases read
  | some (.error _, _) =>
    cases read
    rw [new] at value
    cases value
  | some (.ok x, s₁) =>
    cases read
    cases value
    exact ⟨x, rfl, rfl⟩

theorem readBlock_after {extra : Int} {bytes : List UInt8}
    (read : s.readBlock ok extra = some (.ok bytes, s')) :
    (s.readBlockLengths ok extra a).2 = (a.block true extra bytes.length).2 := by
  obtain ⟨size, word⟩ : ∃ size, s.readInt32 = size := ⟨_, rfl⟩
  rw [readBlock, word] at read
  rw [readBlockLengths, word]
  rcases size with _ | ⟨err | datasize, s₁⟩
  · cases read
  · cases read
  · dsimp only at read ⊢
    split at read
    · next hok =>
      rw [hok]
      obtain ⟨-, -, none⟩ | ⟨r, s₂, done, block⟩ := s₁.read_spec (BitVec.ofNat 32 datasize).toInt
      · rw [none] at read
        cases read
      · rw [done] at read
        cases read
        cases block with
        | ok length => rw [length]
    · cases read

theorem readValue_after (new : arg.value = none)
    (read : s.readValue ok arg = some ((rv, arg'), s')) (value : arg'.value = some v) :
    (s.readValueLengths ok arg.type a).2 = a.after v := by
  obtain ⟨code, type⟩ : ∃ code, ArgType.ofCode arg.type = code := ⟨_, rfl⟩
  rw [readValue, type] at read
  rw [readValueLengths, type]
  have nothing {err : Int} : some ((err, arg), s) ≠ some ((rv, arg'), s') := by
    intro same
    cases same
    rw [new] at value
    cases value
  cases code with
  | none => exact absurd read nothing
  | some argType =>
    cases argType with
    | int32 | float | sctype | int16 =>
      obtain ⟨x, -, rfl⟩ := setValue_value new read value
      rfl
    | string | data | lazyData =>
      obtain ⟨x, read, rfl⟩ := setValue_value new read value
      exact readBlock_after read
    | int64 | argLast | userid | none => exact absurd read nothing

theorem readArgument_after {type : Nat}
    (read : s.readArgument ok ⟨type, none⟩ = some ((rv, arg), s')) (value : arg.value = some v) :
    (s.readArgumentLengths ok a).2 = a.after v := by
  obtain ⟨aligned, align⟩ : ∃ aligned, s.readAlign4 = aligned := ⟨_, rfl⟩
  rw [readArgument, align] at read
  rw [readArgumentLengths, align]
  rcases aligned with _ | ⟨err | word, s₁⟩
  · cases read
  · cases read
    cases value
  · have new : (⟨s₁.convert word, none⟩ : ArgumentIn).value = none := rfl
    exact readValue_after new read value

/-! ## The arguments -/

theorem readArguments_short_fine (mem : Allocation) {cnt : Nat} (short : s.pending.length < 4)
    (aligned : s.offset % 4 = 0) :
    readArguments mem i cnt s ≠ none ∧ AllFine (readArgumentsLengths mem i cnt a s) := by
  have pad : s.pad = 0 := by rw [StreamIn.pad, aligned]
  cases cnt with
  | zero => exact ⟨Option.some_ne_none _, allFine_nil⟩
  | succ cnt =>
    obtain ⟨-, lt, -⟩ | ⟨r, s₁, read, align⟩ := s.readAlign4_spec
    · omega
    have fine := readAlign4Lengths_fine read
    have failed {rv : Int} (neg : rv < 0) (same : r = .error rv) :
        readArguments mem i (cnt + 1) s ≠ none ∧
          AllFine (readArgumentsLengths mem i (cnt + 1) a s) := by
      rw [same] at read
      rw [readArguments, readArgumentsLengths, readArgument, readArgumentLengths, read]
      dsimp only
      rw [if_pos neg, if_pos neg]
      exact ⟨Option.some_ne_none _, allFine_append.mpr ⟨fine, allFine_nil⟩⟩
    cases align with
    | behind neg => exact failed neg rfl
    | before neg => exact failed neg rfl
    | ok hskipped hbs _ hmoved =>
      have length := congrArg List.length hmoved.pending
      simp only [List.length_append] at length
      omega

/-- Arguments for which a length is passed that is not fine, or whose reading does not end, begin
with values and go on with such an argument. -/
theorem readArguments_bad (mem : Allocation) {cnt : Nat}
    (bad : readArguments mem i cnt s = none ∨ ¬ AllFine (readArgumentsLengths mem i cnt a s)) :
    ∃ values body payload left, ArgumentsAt s.conv s.offset values body payload ∧
      (∀ (k : Nat) (v : ArgValue), values[k]? = some v → v.Allocated (mem.block (i + k))) ∧
      s.pending = body ++ left ∧ values.length < cnt ∧
      BadItem (mem.block (i + values.length)) (values.foldl TgfAllocator.after a) s.conv
        (s.offset + body.length) left := by
  induction cnt generalizing i s a with
  | zero =>
    obtain bad | bad := bad
    · cases bad
    · exact absurd allFine_nil bad
  | succ cnt ih =>
    by_cases here : s.readArgument (mem.block i) ⟨mem.types i, none⟩ = none ∨
        ¬ AllFine (s.readArgumentLengths (mem.block i) a).1
    · exact ⟨[], [], [], s.pending, .nil, nofun, rfl, Nat.succ_pos _, readArgument_bad here⟩
    · obtain ⟨some, fine⟩ := not_or.mp here
      rw [not_not] at fine
      obtain ⟨⟨⟨rv, arg⟩, s₁⟩, read⟩ := Option.ne_none_iff_exists'.mp some
      rw [readArguments, readArgumentsLengths, read] at bad
      dsimp only at bad
      have stop (neg : rv < 0) : False := by
        rw [if_pos neg, if_pos neg] at bad
        obtain bad | bad := bad
        · cases bad
        · exact bad (allFine_append.mpr ⟨fine, allFine_nil⟩)
      have rest (pos : ¬ rv < 0) : readArguments mem (i + 1) cnt s₁ = none ∨
          ¬ AllFine (readArgumentsLengths mem (i + 1) cnt
            (s.readArgumentLengths (mem.block i) a).2 s₁) := by
        rw [if_neg pos, if_neg pos] at bad
        exact bad.imp Option.map_eq_none_iff.mp
          fun bad fine' => bad (allFine_append.mpr ⟨fine, fine'⟩)
      cases readArgument_outcome read with
      | @read padding v _ hpadding hfits halloc _ hmoved =>
        have after : (s.readArgumentLengths (mem.block i) a).2 = a.after v :=
          readArgument_after read rfl
        have rest := rest (by decide)
        rw [after] at rest
        obtain ⟨values, body, payload, left, hat, hall, hbytes, hlt, item⟩ := ih rest
        rw [hmoved.conv, hmoved.offset] at hat item
        have pending : s.pending = padding ++ v.encodeArgument s.conv ++ s₁.pending := by
          simpa using hmoved.pending
        refine ⟨v :: values, _, _, left, .cons hpadding hfits hat, ?_, ?_, ?_, ?_⟩
        · intro k w hw
          cases k with
          | zero =>
            cases hw
            exact halloc
          | succ k =>
            have hk := hall k w hw
            rwa [Nat.add_right_comm, Nat.add_assoc] at hk
        · rw [pending, hbytes, ← List.append_assoc]
        · rw [List.length_cons]
          omega
        · have offset : s.offset + padding.length + (v.encodeArgument s.conv).length +
              body.length = s.offset + (padding ++ v.encodeArgument s.conv ++ body).length := by
            simp only [List.length_append]
            omega
          rw [offset, Nat.add_right_comm, Nat.add_assoc] at item
          exact item
      | error neg => exact (stop neg).elim
      | silent _ _ _ _ _ how =>
        obtain ⟨neg, -⟩ | ⟨pos, -, short, aligned⟩ := how
        · exact (stop neg).elim
        · obtain bad | bad := rest (by omega)
          · exact absurd bad (readArguments_short_fine (a := a) mem short aligned).1
          · exact absurd (readArguments_short_fine mem short aligned).2 bad

/-! ## A delivery in which a length is not fine -/

theorem fillBuffer_rest (hne : left ≠ []) (text : s.text = [])
    (fd : s.fd = some ⟨[⟨left, hne⟩], false⟩) (length : left.length < 4) :
    s.fillBuffer = some ((left.length : Int), { s with text := left, fd := some ⟨[], false⟩ }) := by
  obtain ⟨c, cs, rfl⟩ := List.exists_cons_of_ne_nil hne
  have zero : s.text.length = 0 := by
    rw [text]
    rfl
  have first : (⟨[⟨c :: cs, hne⟩], false⟩ : Source).read
      (tgfReadBufsize - s.text.length - s.offset % 4) = (some (c :: cs), ⟨[], false⟩) := by
    rw [Source.read, tgfReadBufsize]
    simp only
    rw [dif_neg (by omega)]
  have more : fillMore 3 ⟨[], false⟩ (s.offset % 4) (s.text ++ c :: cs) =
      (some (c :: cs), ⟨[], false⟩) := by
    rw [text, List.nil_append, fillMore, if_neg (by omega)]
    rfl
  rw [fillBuffer, fd]
  simp only
  rw [if_neg (by omega), first]
  simp only
  rw [more]

theorem readAlign4_cut_pad (hne : left ≠ []) (text : s.text = [])
    (fd : s.fd = some ⟨[⟨left, hne⟩], false⟩) (short : left.length < s.pad) :
    s.readAlign4 = none := by
  have lt := s.pad_lt
  have zero : s.text.length = 0 := by
    rw [text]
    rfl
  rw [readAlign4, readAlign4Loop, if_neg (by omega), if_neg (by omega),
    fillBuffer_rest hne text fd (by omega)]
  dsimp only
  rw [if_neg (by omega)]
  exact if_pos short

/-- The lengths of arguments that are in the buffer come before those of the others. -/
theorem readArgumentsLengths_text (mem : Allocation) {values : List ArgValue}
    {body payload more : List UInt8} (cnt : Nat)
    (hat : ArgumentsAt conv offset values body payload) (hconv : s.conv = conv)
    (hoffset : s.offset = offset) (text : s.text = body ++ more)
    (all : ∀ (k : Nat) (v : ArgValue), values[k]? = some v → v.Allocated (mem.block (i + k))) :
    ∃ lengths, readArgumentsLengths mem i (values.length + cnt) a s =
      lengths ++ readArgumentsLengths mem (i + values.length) cnt
        (values.foldl TgfAllocator.after a) (s.behind body payload more) := by
  induction hat generalizing s a i with
  | nil =>
    have self : s.behind [] [] more = s := by
      rw [behind, ← show s.text = more from text]
      rfl
    refine ⟨[], ?_⟩
    rw [self, List.length_nil, Nat.zero_add, Nat.add_zero]
    rfl
  | @cons offset padding bytes payload v vs hpadding hfits hat ih =>
    subst hconv
    have text' : s.text = padding ++ v.encodeArgument s.conv ++ (bytes ++ more) := by
      rw [text]
      simp only [List.append_assoc]
    have hpad : padding.length = s.pad := by
      rw [hpadding, pad, padAt, hoffset]
    have rest (k : Nat) (w : ArgValue) (hw : vs[k]? = some w) :
        w.Allocated (mem.block (i + 1 + k)) := by
      rw [Nat.add_right_comm, Nat.add_assoc]
      exact all (k + 1) w hw
    have read : s.readArgument (mem.block (i + 0)) ⟨mem.types i, none⟩ = _ :=
      readArgument_text text' hpad hfits (all 0 v rfl)
    obtain ⟨lengths, hlengths⟩ := ih (s := s.past padding (v.encodeArgument s.conv) (bytes ++ more))
      (a := a.after v) (i := i + 1) rfl (by rw [past, hoffset]) rfl rest
    refine ⟨(s.readArgumentLengths (mem.block i) a).1 ++ lengths, ?_⟩
    rw [List.length_cons, Nat.add_right_comm, readArgumentsLengths]
    rw [Nat.add_zero] at read
    rw [read]
    dsimp only
    rw [if_neg (by decide), readArgument_after read rfl, hlengths, past_behind,
      Nat.add_right_comm i 1, ← List.append_assoc]
    rfl

theorem BadItem.delivered (mem : Allocation) (cnt : Nat)
    (item : BadItem (mem.block i) a conv offset left) :
    ∃ (text : List UInt8) (fd : Option Source), text ++ fd.elim [] Source.bytes = left ∧
      ∀ (types : Nat → Nat) (s : StreamIn), s.text = text → s.fd = fd → s.conv = conv →
        s.offset = offset → readArguments { mem with types := types } i (cnt + 1) s = none ∨
          ¬ AllFine (readArgumentsLengths { mem with types := types } i (cnt + 1) a s) := by
  cases item with
  | pad hne short =>
    refine ⟨[], some ⟨[⟨left, hne⟩], false⟩, by simp [Source.bytes], ?_⟩
    intro types s text fd _ hoffset
    have cut := readAlign4_cut_pad hne text fd (by rw [padAt_offset, hoffset]; exact short)
    refine .inl ?_
    rw [readArguments, readArgument, cut]
  | @block argType extra skipped word size left hskipped hword type hextra hsize wrong =>
    refine ⟨skipped ++ word ++ (size ++ left), none, by simp, ?_⟩
    intro types s text _ hconv hoffset
    subst hconv
    have hs : skipped.length = s.pad := by rw [padAt_offset, hoffset, hskipped]
    have align := readAlign4_text text hs hword
    have read : (s.past skipped word (size ++ left)).readInt32 =
        some (.ok ((s.past skipped word (size ++ left)).convert size),
          (s.past skipped word (size ++ left)).past [] size left) := by
      rw [readInt32, readWord_text (-1) 2 rfl hsize]
    refine .inr fun fine => wrong ?_
    rw [readArgumentsLengths] at fine
    have fine : AllFine (s.readArgumentLengths (mem.block i) a).1 := (allFine_append.mp fine).1
    rw [readArgumentLengths, align] at fine
    have fine := (allFine_append.mp fine).2
    have block : AllFine ((s.past skipped word (size ++ left)).readBlockLengths (mem.block i)
        extra a).1 := by
      have type : ArgType.ofCode ((s.past skipped word (size ++ left)).convert word) =
        some argType := type
      rw [readValueLengths, type] at fine
      cases argType <;> cases hextra <;> exact fine
    rw [readBlockLengths, read] at block
    exact (allFine_append.mp (allFine_append.mp block).1).2

end StreamIn

/-! ## Commands -/

theorem TgfAllocator.alloc_fine {a : TgfAllocator} {len : Int} (ok : Bool)
    (fine : AllFine (a.alloc true len).1) : AllFine (a.alloc ok len).1 := by
  cases ok with
  | true => exact fine
  | false =>
    have page (a : TgfAllocator) (fine : AllFine (a.addPage true len).1) :
        AllFine (a.addPage false len).1 := by
      obtain ⟨size, fine⟩ := allFine_cons.mp fine
      exact allFine_cons.mpr ⟨size, allFine_cons.mpr ⟨(allFine_cons.mp fine).1, allFine_nil⟩⟩
    rw [alloc] at fine ⊢
    cases hpage : a.page with
    | none =>
      rw [hpage] at fine
      exact page a fine
    | some size =>
      rw [hpage] at fine
      dsimp only at fine ⊢
      split at fine
      · next lt =>
        rw [if_pos lt]
        exact page _ fine
      · next le =>
        rw [if_neg le]
        exact allFine_cons.mpr ⟨(allFine_cons.mp fine).1, allFine_nil⟩

namespace StreamIn

variable {s : StreamIn} {a : TgfAllocator}

theorem readCommandArguments_none {mem : Allocation} {argCnt : Nat}
    (none : s.readCommandArguments mem argCnt = none) :
    readArguments mem 0 argCnt (s.setLastErr 0) = .none := by
  rw [readCommandArguments] at none
  split at none
  · next read => exact read
  · rw [Option.map_eq_none_iff, readChecksum] at none
    split at none
    · next s₁ _ _ =>
      obtain ⟨r, s₂, read, -⟩ := s₁.readByte_spec
      rw [read] at none
      cases none
    · cases none

/-- A command for which a length is passed that is not fine, or whose reading does not end. -/
theorem readCommand_bad {mem : Allocation} {first : Bool}
    (bad : s.readCommand mem = none ∨ ¬ AllFine (s.readCommandLengths mem first a)) :
    BadCommand mem a s.conv s.offset s.pending := by
  obtain ⟨pos, short, -⟩ | ⟨r, s₁, read, align⟩ := { s with crc := 0 }.readAlign4_spec
  · exact .pad (List.length_pos_iff.mp pos) short
  have fine := readAlign4Lengths_fine read
  rw [readCommand, readCommandLengths, readCommandHdr, read] at bad
  cases align with
  | behind | before =>
    obtain bad | bad := bad
    · cases bad
    · exact absurd (allFine_append.mpr ⟨fine, allFine_nil⟩) bad
  | @ok padding hdr _ hpadding hhdr _ hmoved =>
    have conv (word : List UInt8) : s₁.convert word = ofBytes (swapBytes s.conv word) := by
      rw [convert, hmoved.conv]
    have pending : s.pending = padding ++ hdr ++ s₁.pending := by
      have bytes := hmoved.pending
      rw [List.append_nil] at bytes
      exact bytes
    dsimp only at bad
    rw [conv, conv] at bad
    cases type : CmdType.ofCode (ofBytes (swapBytes s.conv (hdr.take 2))) with
    | none =>
      rw [type] at bad
      obtain bad | bad := bad
      · cases bad
      · exact absurd (allFine_append.mpr ⟨fine, allFine_nil⟩) bad
    | some cmdType =>
      rw [type] at bad
      obtain ⟨argCnt, hcnt⟩ : ∃ argCnt, ofBytes (swapBytes s.conv (hdr.drop 2)) = argCnt := ⟨_, rfl⟩
      dsimp only at bad
      rw [hcnt] at bad
      by_cases command : AllFine (a.alloc true sizeofCommand).1
      case neg =>
        rw [pending]
        exact .command hpadding hhdr type command
      by_cases arguments :
        AllFine ((a.alloc true sizeofCommand).2.alloc mem.command (sizeofArgument * argCnt)).1
      case neg =>
        rw [pending]
        exact .arguments hpadding hhdr type hcnt arguments
      by_cases hmem : mem.command = true
      case neg =>
        rw [if_pos hmem, if_pos hmem] at bad
        obtain bad | bad := bad
        · cases bad
        · refine absurd (allFine_append.mpr ⟨fine, allFine_append.mpr
            ⟨TgfAllocator.alloc_fine _ command, ?_⟩⟩) bad
          split
          · exact allFine_nil
          · next ok =>
            rw [not_not] at ok
            rw [ok]
            exact allFine_append.mpr ⟨arguments, allFine_nil⟩
      · rw [hmem] at arguments bad
        simp only [Bool.true_or, not_true_eq_false, if_false] at bad
        have args : readArguments mem 0 argCnt (s₁.setLastErr 0) = none ∨
            ¬ AllFine (readArgumentsLengths mem 0 argCnt
              ((a.alloc true sizeofCommand).2.alloc true (sizeofArgument * argCnt)).2
              (s₁.setLastErr 0)) := by
          refine bad.imp (fun none => ?_) fun wrong fine' => wrong ?_
          · split at none
            · next stopped => exact readCommandArguments_none stopped
            · split at none
              · cases none
              · split at none <;> cases none
          · refine allFine_append.mpr ⟨fine, allFine_append.mpr ⟨command,
              allFine_append.mpr ⟨arguments, allFine_append.mpr ⟨fine', ?_⟩⟩⟩⟩
            split
            · exact allFine_nil
            · exact readChecksumLengths_fine _
        obtain ⟨values, body, payload, left, hat, all, bytes, lt, item⟩ :=
          readArguments_bad mem args
        have hat : ArgumentsAt s₁.conv s₁.offset values body payload := hat
        have item : BadItem (mem.block (0 + values.length)) (values.foldl TgfAllocator.after
            ((a.alloc true sizeofCommand).2.alloc true (sizeofArgument * argCnt)).2) s₁.conv
            (s₁.offset + body.length) left := item
        have bytes : s₁.pending = body ++ left := bytes
        rw [hmoved.conv, hmoved.offset, hhdr] at hat item
        rw [Nat.zero_add] at item
        rw [pending, bytes, ← List.append_assoc]
        refine .item hmem hpadding hhdr type hcnt hat (fun k v hv => ?_) lt item
        have hk := all k v hv
        rwa [Nat.zero_add] at hk

end StreamIn

end ScCore.Tgf
