import Mathlib.Data.List.GetD
import ScCore.Tgf.Acceptance

/-!
# Deliveries of a command

Arguments whose bytes are in the buffer are read from it. An argument that can be given up is
given up when its bytes are delivered in the right way.
-/

namespace ScCore.Tgf

open Lib

theorem ArgType.code_lt (type : ArgType) : type.code < 256 := by
  cases type <;> decide

namespace StreamIn

def past (s : StreamIn) (skipped taken more : List UInt8) : StreamIn :=
  { s with text := more, offset := s.offset + skipped.length + taken.length,
           crc := xorFrom s.crc taken }

theorem past_past (s : StreamIn) (skipped taken taken' more more' : List UInt8) :
    (s.past skipped taken more).past [] taken' more' = s.past skipped (taken ++ taken') more' := by
  simp only [past, xorFrom_append, List.length_append, List.length_nil]
  congr 1
  omega

/-! ## What is in the buffer -/

variable {s : StreamIn} {more : List UInt8}

variable {bs padding word skipped : List UInt8} {alloc : Int → Bool} {extra : Int}
  {arg : ArgumentIn} {v : ArgValue} {conv : Bool}

theorem take_text (h : s.text = bs ++ more) : s.take bs.length = s.past [] bs more := by
  rw [take, advance, past, h, List.drop_left, List.take_left]
  rfl

theorem readAlign4_text (h : s.text = padding ++ word ++ more) (hpadding : padding.length = s.pad)
    (hword : word.length = 4) : s.readAlign4 = some (.ok word, s.past padding word more) := by
  have hroom : s.pad + 4 ≤ s.text.length := by
    rw [h, ← hpadding, ← hword]
    simp only [List.length_append]
    omega
  have htext : (s.advance s.pad).text = word ++ more := by
    change s.text.drop s.pad = word ++ more
    rw [h, ← hpadding, List.append_assoc, List.drop_left]
  rw [readAlign4, readAlign4Loop, if_pos hroom]
  simp only
  rw [← hword, take_text htext, htext, List.take_left, past, past, advance, ← hpadding]
  rfl

theorem readWord_text {len : Nat} (least : Int) (turns : Nat) (h : s.text = word ++ more)
    (hword : word.length = len) :
    readWordLoop len least (turns + 1) s = some (.ok (s.convert word), s.past [] word more) := by
  have hroom : len ≤ s.text.length := by
    rw [h, List.length_append]
    omega
  rw [readWordLoop, if_pos hroom, ← hword, take_text h, h, List.take_left]

theorem readByte_text {b : UInt8} (h : s.text = b :: more) :
    s.readByte = some (.ok b, s.past [] [b] more) := by
  have hne : s.text ≠ [] := by
    rw [h]
    exact List.cons_ne_nil b more
  have htext : s.text = [b] ++ more := h
  rw [readByte, if_pos hne, nextByte, h, ← take_text htext]
  rfl

theorem past_nil (h : s.text = more) : s.past [] [] more = s := by
  rw [past, ← h]
  rfl

theorem read_text (h : s.text = bs ++ more) :
    s.read bs.length = some (.ok bs, s.past [] bs more) := by
  cases bs with
  | nil =>
    have htext : s.text = more := h
    rw [past_nil htext, read, List.length_nil, Nat.cast_zero, if_pos rfl]
  | cons b bs =>
    have hsize : ((b :: bs).length : Int) ≠ 0 := by
      rw [List.length_cons]
      omega
    have hmin : min s.text.length ((b :: bs).length : Int).toNat = (b :: bs).length := by
      rw [h, List.length_append, Int.toNat_natCast]
      omega
    rw [read, if_neg hsize, readLoop, if_neg (by omega), hmin]
    simp only [if_true, List.nil_append]
    rw [take_text h, h, List.take_left]

theorem convert_wordBytes {len n : Nat} (h : n < 256 ^ len) :
    s.convert (wordBytes s.conv len n) = n := by
  rw [convert, wordBytes, swapBytes_swapBytes, ofBytes_toBytes h]

theorem readBlock_text (h : s.text = wordBytes s.conv 4 bs.length ++ bs ++ more)
    (hfits : bs.length < 2 ^ 31) (halloc : alloc (bs.length + extra)) : s.readBlock alloc extra =
      some (.ok bs, s.past [] (wordBytes s.conv 4 bs.length ++ bs) more) := by
  rw [List.append_assoc] at h
  have hsize : (BitVec.ofNat 32 bs.length).toInt = bs.length := by
    have hnat : (BitVec.ofNat 32 bs.length).toNat = bs.length := by
      rw [BitVec.toNat_ofNat]
      omega
    rw [BitVec.toInt_eq_toNat_of_lt (by omega), hnat]
  rw [readBlock, readInt32, readWord_text (-1) 2 h (length_wordBytes _ _ _)]
  simp only
  rw [convert_wordBytes (by omega), hsize, if_pos halloc, read_text rfl, past_past]

theorem readValue_text (h : s.text = v.encode s.conv ++ more) (htype : arg.type = v.type.code)
    (hfits : v.Fits) (halloc : v.Allocated alloc) : s.readValue alloc arg =
      some ((0, { arg with value := some v }), s.past [] (v.encode s.conv) more) := by
  have hword (len width n : Nat) (hlen : 256 ^ len = 2 ^ width) (x : BitVec width)
      (hx : x.toNat = n) : BitVec.ofNat width (s.convert (wordBytes s.conv len n)) = x := by
    have hlt : n < 256 ^ len := by
      rw [hlen, ← hx]
      exact x.isLt
    rw [convert_wordBytes hlt, ← hx, BitVec.ofNat_toNat, BitVec.setWidth_eq]
  obtain ⟨type, value⟩ := arg
  obtain rfl : type = v.type.code := htype
  cases v with
  | int32 x =>
    have h : s.text = wordBytes s.conv 4 x.toNat ++ more := h
    change setValue _ (fun n => .int32 (.ofNat 32 n)) s.readInt32 = _
    rw [readInt32, readWord_text (-1) 2 h (length_wordBytes _ _ _), setValue,
      hword 4 32 _ (by norm_num) x rfl]
    rfl
  | float x =>
    have h : s.text = wordBytes s.conv 8 x.toNat ++ more := h
    have hlength : ((wordBytes s.conv 8 x.toNat).length : Int) = 8 := by
      rw [length_wordBytes]
      rfl
    change setValue _ (fun bytes => .float (.ofNat 64 (s.convert bytes))) (s.read 8) = _
    rw [← hlength, read_text h, setValue, hword 8 64 _ (by norm_num) x rfl]
    rfl
  | data bs =>
    have halloc : alloc (bs.length + 0) := by
      rw [add_zero]
      exact halloc
    change setValue _ ArgValue.data (s.readBlock alloc 0) = _
    rw [readBlock_text h hfits halloc]
    rfl
  | sctype b =>
    change setValue _ ArgValue.sctype s.readByte = _
    rw [readByte_text h]
    rfl
  | int16 x =>
    have h : s.text = wordBytes s.conv 2 x.toNat ++ more := h
    change setValue _ (fun n => .int16 (.ofNat 16 n)) s.readInt16 = _
    rw [readInt16, readWord_text 2 2 h (length_wordBytes _ _ _), setValue,
      hword 2 16 _ (by norm_num) x rfl]
    rfl
  | string bs =>
    change setValue _ ArgValue.string (s.readBlock alloc 1) = _
    rw [readBlock_text h hfits halloc]
    rfl
  | lazyData bs =>
    change setValue _ ArgValue.lazyData (s.readBlock alloc 1) = _
    rw [readBlock_text h hfits halloc]
    rfl

theorem readArgument_text (h : s.text = padding ++ v.encodeArgument s.conv ++ more)
    (hpadding : padding.length = s.pad) (hfits : v.Fits) (halloc : v.Allocated alloc) :
    s.readArgument alloc arg =
      some ((0, v.argument), s.past padding (v.encodeArgument s.conv) more) := by
  have hcode : v.type.code < 256 ^ 4 := v.type.code_lt.trans (by decide)
  rw [ArgValue.encodeArgument, ← List.append_assoc, List.append_assoc _ (v.encode s.conv)] at h
  have hconv : (s.past padding (wordBytes s.conv 4 v.type.code) (v.encode s.conv ++ more)).convert
      (wordBytes s.conv 4 v.type.code) = v.type.code :=
    convert_wordBytes (s := s) hcode
  rw [readArgument, readAlign4_text h hpadding (length_wordBytes _ _ _)]
  simp only [hconv]
  rw [readValue_text rfl rfl hfits halloc, past_past]
  rfl

def behind (s : StreamIn) (body payload more : List UInt8) : StreamIn :=
  { s with text := more, offset := s.offset + body.length, crc := xorFrom s.crc payload }

theorem past_behind (s : StreamIn) (padding taken bytes payload more more' : List UInt8) :
    (s.past padding taken more).behind bytes payload more' =
      s.behind (padding ++ taken ++ bytes) (taken ++ payload) more' := by
  simp only [past, behind, xorFrom_append, List.length_append]
  congr 1
  omega

theorem readArguments_text (mem : Allocation) {values : List ArgValue} {body payload : List UInt8}
    {offset i : Nat} (cnt : Nat) (hat : ArgumentsAt conv offset values body payload)
    (hconv : s.conv = conv) (hoffset : s.offset = offset) (h : s.text = body ++ more)
    (halloc : ∀ (k : Nat) (v : ArgValue), values[k]? = some v → v.Allocated (mem.block (i + k))) :
    readArguments mem i (values.length + cnt) s =
      (readArguments mem (i + values.length) cnt (s.behind body payload more)).map
        fun r => (values.map ArgValue.argument ++ r.1, r.2) := by
  induction hat generalizing s i with
  | nil =>
    have htext : s.text = more := h
    have hself : s.behind [] [] more = s := by
      rw [behind, ← htext]
      rfl
    rw [List.length_nil, Nat.zero_add, Nat.add_zero, hself]
    cases readArguments mem i cnt s <;> rfl
  | @cons offset padding bytes payload v vs hpadding hfits hat ih =>
    subst hconv
    have htext : s.text = padding ++ v.encodeArgument s.conv ++ (bytes ++ more) := by
      rw [h]
      simp only [List.append_assoc]
    have hpad : padding.length = s.pad := by
      rw [hpadding, pad, padAt, hoffset]
    have hv : v.Allocated (mem.block i) := halloc 0 v rfl
    have hrest (k : Nat) (w : ArgValue) (hw : vs[k]? = some w) :
        w.Allocated (mem.block (i + 1 + k)) := by
      rw [Nat.add_right_comm, Nat.add_assoc]
      exact halloc (k + 1) w hw
    have hnext := ih (s := s.past padding (v.encodeArgument s.conv) (bytes ++ more)) (i := i + 1)
      rfl (by rw [past, hoffset]) rfl hrest
    rw [List.length_cons, Nat.add_right_comm, readArguments,
      readArgument_text htext hpad hfits hv]
    simp only
    rw [if_neg (by decide), hnext, past_behind, Nat.add_right_comm i 1, Nat.add_assoc i vs.length 1]
    cases readArguments mem (i + (vs.length + 1)) cnt _ <;> rfl

/-! ## What is cut off -/

theorem fillBuffer_none (h : s.fd = none) : s.fillBuffer = some (eTgfEof, s) := by
  rw [fillBuffer, h]

theorem readAlign4_cut (h : s.fd = none) (hshort : s.text.length < s.pad + 4) :
    s.readAlign4 =
      some (.error eTgfEof, if s.pad < s.text.length then s.advance s.pad else s) := by
  have hfd : (if s.pad < s.text.length then s.advance s.pad else s).fd = none := by
    split
    · exact h
    · exact h
  rw [readAlign4, readAlign4Loop, if_neg (not_le.mpr hshort), fillBuffer_none hfd]
  rfl

theorem readAlign4_broken {b : UInt8} {chunk : Chunk} (htext : s.text = [b])
    (hfd : s.fd = some ⟨[chunk], true⟩) (hpad : 0 < s.pad) (hchunk : chunk.1.length ≤ 2) :
    s.readAlign4 = some (.error eTgfIo, { s with fd := some ⟨[], true⟩ }) := by
  have hlength : s.text.length = 1 := by
    rw [htext]
    rfl
  obtain ⟨chunk, hne⟩ := chunk
  obtain ⟨c, cs, rfl⟩ := List.exists_cons_of_ne_nil hne
  have hchunk : (c :: cs).length ≤ 2 := hchunk
  have hfirst : (⟨[⟨c :: cs, hne⟩], true⟩ : Source).read
      (tgfReadBufsize - s.text.length - s.offset % 4) = (some (c :: cs), ⟨[], true⟩) := by
    rw [Source.read, tgfReadBufsize]
    simp only
    rw [dif_neg (by omega)]
  have hmore : fillMore 3 ⟨[], true⟩ (s.offset % 4) (s.text ++ c :: cs) = (none, ⟨[], true⟩) := by
    have hshort : ¬ 4 ≤ (s.text ++ c :: cs).length := by
      rw [List.length_append]
      omega
    rw [fillMore, if_neg hshort]
    rfl
  have hfill : s.fillBuffer = some (eTgfIo, { s with fd := some ⟨[], true⟩ }) := by
    rw [fillBuffer, hfd]
    simp only
    rw [if_neg (by omega), hfirst]
    simp only
    rw [hmore]
  rw [readAlign4, readAlign4Loop, if_neg (by omega), if_neg (by omega), hfill]
  rfl

theorem read_cut {taken : List UInt8} {size : Int} (h : s.fd = none) (htext : s.text = taken)
    (hshort : taken.length < size ∨ size < 0 ∧ taken = []) :
    s.read size = some (.error eTgfEof, s.past [] taken []) := by
  subst htext
  have hsize : size ≠ 0 := by omega
  have hneg : ¬ (s.text ≠ [] ∧ size < 0) := by
    rintro ⟨hne, hlt⟩
    rcases hshort with hshort | ⟨_, hnil⟩
    · omega
    · exact hne hnil
  have hmin : min s.text.length size.toNat = s.text.length := by
    rcases hshort with hshort | ⟨_, hnil⟩
    · omega
    · rw [hnil]
      exact Nat.zero_min _
  have htake : s.take s.text.length = s.past [] s.text [] := take_text (List.append_nil _).symm
  rw [read, if_neg hsize, readLoop, if_neg hneg, hmin]
  simp only
  rw [if_neg (by omega), htake]
  simp only [past, h]

theorem readInt16_cut {left : List UInt8} (hne : left ≠ []) (htext : s.text = [])
    (hfd : s.fd = some ⟨[⟨left, hne⟩], false⟩) (hlength : left.length ≤ 2) :
    s.readInt16 = some (.error left.length,
      { s with text := left, fd := some ⟨[], false⟩, lastErr := left.length }) := by
  obtain ⟨c, cs, rfl⟩ := List.exists_cons_of_ne_nil hne
  have hzero : s.text.length = 0 := by
    rw [htext]
    rfl
  have hfirst : (⟨[⟨c :: cs, hne⟩], false⟩ : Source).read
      (tgfReadBufsize - s.text.length - s.offset % 4) = (some (c :: cs), ⟨[], false⟩) := by
    rw [Source.read, tgfReadBufsize]
    simp only
    rw [dif_neg (by omega)]
  have hmore : fillMore 3 ⟨[], false⟩ (s.offset % 4) (s.text ++ c :: cs) =
      (some (c :: cs), ⟨[], false⟩) := by
    rw [htext, List.nil_append, fillMore, if_neg (by omega)]
    rfl
  have hfill : s.fillBuffer =
      some (((c :: cs).length : Int), { s with text := c :: cs, fd := some ⟨[], false⟩ }) := by
    rw [fillBuffer, hfd]
    simp only
    rw [if_neg (by omega), hfirst]
    simp only
    rw [hmore]
  rw [readInt16, readWordLoop, if_neg (by omega), hfill]
  simp only
  rw [if_pos (by omega)]
  rfl

/-! ## What is given up -/

def GivesUp (mem : Allocation) (i cnt : Nat) (s : StreamIn) (argType : Option Nat)
    (taken : List UInt8) (next : Option UInt8) : Prop :=
  ∃ args s', readArguments mem i (cnt + 1) s = some (args, s') ∧
    args.map (·.type) = argType.getD (mem.types i) :: (List.range' (i + 1) cnt).map mem.types ∧
    (∃ arg ∈ args, arg.value = none) ∧ 0 ≤ s'.lastErr ∧ s'.checksum = s.checksum ∧
    s'.crc = xorFrom s.crc taken ∧ (s.checksum → s'.text.head? = next)

variable {mem : Allocation} {i cnt : Nat} {argType : Option Nat} {taken left : List UInt8}
  {s' : StreamIn}

theorem givesUp_of_error {rv : Int}
    (h : s.readArgument (mem.block i) ⟨mem.types i, none⟩ = some ((rv, arg), s')) (hrv : rv < 0)
    (htype : arg.type = argType.getD (mem.types i)) (hvalue : arg.value = none)
    (hlast : 0 ≤ s'.lastErr) (hchecksum : s'.checksum = s.checksum)
    (hcrc : s'.crc = xorFrom s.crc taken) (hnext : s.checksum → s'.text.head? = left.head?) :
    GivesUp mem i cnt s argType taken left.head? := by
  refine ⟨arg :: unread mem (i + 1) cnt, s', ?_, ?_, ⟨arg, List.mem_cons_self, hvalue⟩, hlast,
    hchecksum, hcrc, hnext⟩
  · rw [readArguments, h]
    simp only
    rw [if_pos hrv]
  · rw [List.map_cons, htype, unread, List.map_map]
    rfl

theorem givesUp_of_align {rv : Int} (h : s.readAlign4 = some (.error rv, s')) (hrv : rv < 0)
    (hlast : 0 ≤ s'.lastErr) (hchecksum : s'.checksum = s.checksum) (hcrc : s'.crc = s.crc)
    (hnext : s.checksum → s'.text.head? = left.head?) :
    GivesUp mem i cnt s none [] left.head? := by
  have hread : s.readArgument (mem.block i) ⟨mem.types i, none⟩ =
      some ((rv, ⟨mem.types i, none⟩), s') := by
    rw [readArgument, h]
  exact givesUp_of_error hread hrv rfl rfl hlast hchecksum hcrc hnext

theorem readArguments_rest (h : s.fd = some ⟨[], false⟩) (hshort : s.text.length < 4)
    (hoffset : s.offset % 4 = 0) :
    readArguments mem i cnt s = some (unread mem i cnt, s) := by
  have hpad : s.pad = 0 := by
    rw [pad, hoffset]
  have hfill : s.fillBuffer = some (eTgfEof, s) := by
    have hself : { s with fd := some ⟨[], false⟩ } = s := by rw [← h]
    rw [fillBuffer, h]
    simp only
    rw [if_neg (by omega)]
    simp only [Source.read, Bool.false_eq_true, if_false, hself]
  cases cnt with
  | zero => rfl
  | succ cnt =>
    rw [readArguments, readArgument, readAlign4, readAlign4Loop, if_neg (by omega),
      advance_pad_eq hpad, ite_self, hfill]
    rfl

variable (s) in
theorem readValue_block (alloc : Int → Bool) (arg : ArgumentIn) {type : ArgType}
    (htype : ArgType.ofCode arg.type = some type) (hextra : blockExtra type = some extra) :
    ∃ f, s.readValue alloc arg = setValue arg f (s.readBlock alloc extra) := by
  rw [readValue, htype]
  cases type <;> cases hextra <;> exact ⟨_, rfl⟩

theorem readArgument_word (h : s.text = padding ++ word ++ more)
    (hpadding : padding.length = s.pad) (hword : word.length = 4) : s.readArgument alloc arg =
      (s.past padding word more).readValue alloc
        { arg with type := ofBytes (swapBytes s.conv word) } := by
  rw [readArgument, readAlign4_text h hpadding hword]
  rfl

theorem readBlock_size {size : List UInt8} (h : s.text = size ++ more) (hsize : size.length = 4) :
    s.readBlock alloc extra = if alloc (sizeOf32 s.conv size + extra) then
      (s.past [] size more).read (sizeOf32 s.conv size)
    else some (.error eTgfNomem, s.past [] size more) := by
  rw [readBlock, readInt32, readWord_text (-1) 2 h hsize]
  rfl

theorem ValueSilent.delivered {type : Nat} (h : ValueSilent (mem.block i) s.conv type taken left)
    (hint16 : ArgType.ofCode type ≠ some .int16) (htext : s.text = taken ++ left)
    (hfd : s.fd = none) : ∃ rv s', rv < 0 ∧ s'.lastErr = s.lastErr ∧ s'.checksum = s.checksum ∧
      s'.crc = xorFrom s.crc taken ∧ s'.text = left ∧
      s.readValue (mem.block i) ⟨type, none⟩ = some ((rv, ⟨type, none⟩), s') := by
  cases h with
  | type htype =>
    rcases htype with htype | htype
    · refine ⟨eTgfInvtype, s, by decide, rfl, rfl, rfl, htext, ?_⟩
      rw [readValue, htype]
    · refine ⟨eTgfOpnotsupp, s, by decide, rfl, rfl, rfl, htext, ?_⟩
      rw [readValue, htype]
  | float htype hshort =>
    rw [List.append_nil] at htext
    refine ⟨eTgfEof, s.past [] taken [], by decide, rfl, rfl, rfl, rfl, ?_⟩
    rw [readValue, htype]
    simp only
    rw [read_cut hfd htext (Or.inl (by omega)), setValue]
  | memory htype hextra hsize halloc =>
    obtain ⟨f, hread⟩ := s.readValue_block (mem.block i) ⟨type, none⟩ htype hextra
    refine ⟨eTgfNomem, s.past [] taken left, by decide, rfl, rfl, rfl, rfl, ?_⟩
    rw [hread, readBlock_size htext hsize, halloc, if_neg Bool.false_ne_true, setValue]
  | @cut argType extra size taken htype hextra hsize halloc hshort =>
    obtain ⟨f, hread⟩ := s.readValue_block (mem.block i) ⟨type, none⟩ htype hextra
    rw [List.append_nil] at htext
    refine ⟨eTgfEof, (s.past [] size taken).past [] taken [], by decide, rfl, rfl, ?_, rfl, ?_⟩
    · rw [past_past]
      rfl
    · have hcut := read_cut (s := s.past [] size taken) hfd rfl hshort
      rw [hread, readBlock_size htext hsize, if_pos halloc, hcut, setValue]
      rfl
  | int16 htype => exact absurd htype hint16

theorem pending_eq (s : StreamIn) : s.pending = s.text ++ s.fd.elim [] Source.bytes := by
  rw [pending]
  cases s.fd <;> rfl

theorem givesUp_int16 (hne : left ≠ []) (hskipped : skipped.length = s.pad)
    (hword : word.length = 4)
    (htype : ArgType.ofCode (ofBytes (swapBytes s.conv word)) = some .int16)
    (hlength : left.length ≤ 2) (htext : s.text = skipped ++ word)
    (hfd : s.fd = some ⟨[⟨left, hne⟩], false⟩) :
    GivesUp mem i cnt s (some (ofBytes (swapBytes s.conv word))) word left.head? := by
  obtain ⟨s₁, hs₁⟩ : ∃ s₁, s₁ = s.past skipped word [] := ⟨_, rfl⟩
  obtain ⟨s₂, hs₂⟩ : ∃ s₂ : StreamIn, s₂ =
      { s₁ with text := left, fd := some ⟨[], false⟩, lastErr := left.length } := ⟨_, rfl⟩
  have htext₁ : s₁.text = [] := by rw [hs₁]; rfl
  have hfd₁ : s₁.fd = some ⟨[⟨left, hne⟩], false⟩ := by rw [hs₁]; exact hfd
  have hread : s.readArgument (mem.block i) ⟨mem.types i, none⟩ =
      some (((left.length : Int), ⟨ofBytes (swapBytes s.conv word), none⟩), s₂) := by
    rw [readArgument_word (by rw [htext, List.append_nil]) hskipped hword, ← hs₁, readValue, htype]
    simp only
    rw [readInt16_cut hne htext₁ hfd₁ hlength, setValue, hs₂]
  have hrest : readArguments mem (i + 1) cnt s₂ = some (unread mem (i + 1) cnt, s₂) := by
    apply readArguments_rest
    · rw [hs₂]
    · rw [hs₂]
      exact lt_of_le_of_lt hlength (by decide)
    · rw [hs₂, hs₁]
      simp only [past]
      rw [hskipped, hword, pad]
      omega
  refine ⟨⟨ofBytes (swapBytes s.conv word), none⟩ :: unread mem (i + 1) cnt, s₂, ?_, ?_,
    ⟨_, List.mem_cons_self, rfl⟩, ?_, ?_, ?_, ?_⟩
  · rw [readArguments, hread]
    simp only
    rw [if_neg (by omega), hrest]
    rfl
  · rw [List.map_cons, unread, List.map_map]
    rfl
  · rw [hs₂]
    exact Int.natCast_nonneg _
  · rw [hs₂, hs₁]
    rfl
  · rw [hs₂, hs₁]
    rfl
  · rw [hs₂]
    exact fun _ => rfl

theorem ValueSilent.of_int16 {type : Nat} (h : ValueSilent alloc conv type taken left)
    (htype : ArgType.ofCode type = some .int16) : taken = [] ∧ left ≠ [] ∧ left.length ≤ 2 := by
  cases h with
  | type hnone =>
    rw [htype] at hnone
    rcases hnone with hnone | hnone <;> cases hnone
  | float hfloat =>
    rw [htype] at hfloat
    cases hfloat
  | memory hblock hextra =>
    rw [htype] at hblock
    cases hblock
    cases hextra
  | cut hblock hextra =>
    rw [htype] at hblock
    cases hblock
    cases hextra
  | int16 _ hpos hle => exact ⟨rfl, List.length_pos_iff.mp hpos, hle⟩

variable (cnt) in
theorem Silent.delivered {checksum : Bool} {offset : Nat}
    (h : Silent (mem.block i) conv offset argType skipped taken left)
    (hleft : checksum = true → left ≠ []) :
    ∃ (text : List UInt8) (fd : Option Source),
      text ++ fd.elim [] Source.bytes = skipped ++ taken ++ left ∧
      ∀ (s : StreamIn), s.text = text → s.fd = fd → s.conv = conv → s.offset = offset →
        s.checksum = checksum → 0 ≤ s.lastErr → GivesUp mem i cnt s argType taken left.head? := by
  cases h with
  | before hshort =>
    by_cases hpad : padAt offset = 0 ∨ left.length ≤ padAt offset
    · refine ⟨left, none, by simp, ?_⟩
      intro s htext hfd _ hoffset _ hlast
      have hs : s.pad = padAt offset := by rw [pad, padAt, hoffset]
      have hself : (if s.pad < s.text.length then s.advance s.pad else s) = s := by
        split
        case isTrue hlt =>
          apply advance_pad_eq
          rw [htext] at hlt
          omega
        case isFalse => rfl
      have hread := readAlign4_cut hfd (by rw [htext]; omega)
      rw [hself] at hread
      exact givesUp_of_align hread (by decide) hlast rfl rfl fun _ => by rw [htext]
    · -- the file breaks behind the first byte
      obtain ⟨hpos, hlt⟩ := not_or.mp hpad
      obtain ⟨b, rest, rfl⟩ := List.exists_cons_of_length_pos (by omega : 0 < left.length)
      rw [List.length_cons] at hshort hlt
      have hrest : rest ≠ [] := by
        rw [← List.length_pos_iff]
        omega
      refine ⟨[b], some ⟨[⟨rest, hrest⟩], true⟩, by simp [Source.bytes], ?_⟩
      intro s htext hfd _ hoffset _ hlast
      have hs : s.pad = padAt offset := by rw [pad, padAt, hoffset]
      have hread := readAlign4_broken htext hfd (by omega) (by change rest.length ≤ 2; omega)
      refine givesUp_of_align hread (by decide) hlast rfl rfl fun _ => ?_
      change s.text.head? = (b :: rest).head?
      rw [htext]
      rfl
  | behind hskipped hshort =>
    refine ⟨skipped ++ left, none, by simp, ?_⟩
    intro s htext hfd _ hoffset hchecksum hlast
    have hs : s.pad = skipped.length := by rw [pad, hskipped, padAt, hoffset]
    have hlength : s.text.length = skipped.length + left.length := by
      rw [htext, List.length_append]
    have hread := readAlign4_cut hfd (by omega)
    by_cases hnil : left = []
    · rw [if_neg (by rw [hlength, hnil, hs]; simp)] at hread
      refine givesUp_of_align hread (by decide) hlast rfl rfl fun hon => ?_
      exact absurd hnil (hleft (hchecksum ▸ hon))
    · have hpos := List.length_pos_iff.mpr hnil
      rw [if_pos (by omega)] at hread
      refine givesUp_of_align hread (by decide) hlast rfl rfl fun _ => ?_
      change (s.text.drop s.pad).head? = left.head?
      rw [htext, hs, List.drop_left]
  | @value skipped word taken left hskipped hword hvalue =>
    by_cases htype : ArgType.ofCode (ofBytes (swapBytes conv word)) = some .int16
    · obtain ⟨rfl, hne, hle⟩ := ValueSilent.of_int16 hvalue htype
      refine ⟨skipped ++ word, some ⟨[⟨left, hne⟩], false⟩, by simp [Source.bytes], ?_⟩
      intro s htext hfd hconv hoffset _ _
      subst hconv
      have hs : skipped.length = s.pad := by rw [pad, hskipped, padAt, hoffset]
      rw [List.append_nil]
      exact givesUp_int16 hne hs hword htype hle htext hfd
    · refine ⟨skipped ++ word ++ (taken ++ left), none, by simp, ?_⟩
      intro s htext hfd hconv hoffset _ hlast
      subst hconv
      have hs : skipped.length = s.pad := by rw [pad, hskipped, padAt, hoffset]
      obtain ⟨rv, s₁, hrv, hlast₁, hchecksum, hcrc, htext₁, hread⟩ :=
        ValueSilent.delivered (s := s.past skipped word (taken ++ left)) hvalue htype rfl hfd
      have harg : s.readArgument (mem.block i) ⟨mem.types i, none⟩ =
          some ((rv, ⟨ofBytes (swapBytes s.conv word), none⟩), s₁) := by
        rw [readArgument_word htext hs hword]
        exact hread
      refine givesUp_of_error harg hrv rfl rfl (hlast₁ ▸ hlast) hchecksum ?_ fun _ => by rw [htext₁]
      rw [hcrc, xorFrom_append]
      rfl

end StreamIn

theorem map_getD_range' (l : List Nat) (k n : Nat) (h : l.length = k + n) :
    (List.range' k n).map (fun i => l.getD i 0) = l.drop k := by
  apply List.ext_getElem
  · rw [List.length_map, List.length_range', List.length_drop, h]
    omega
  · intro i hi _
    rw [List.length_map, List.length_range'] at hi
    rw [List.getElem_map, List.getElem_range', List.getElem_drop, Nat.one_mul,
      List.getD_eq_getElem _ _ (by omega)]

variable {conv checksum : Bool} {offset : Nat} {bytes : List UInt8}

theorem Slip.types_eq {mem : Allocation} (slip : Slip mem conv checksum offset bytes) {cnt : Nat}
    (hcnt : slip.types.length = slip.values.length + (cnt + 1)) :
    slip.values.map (·.type.code) ++
      slip.argType.getD (slip.types.getD slip.values.length 0) ::
        (List.range' (slip.values.length + 1) cnt).map (fun k => slip.types.getD k 0) =
      slip.types := by
  obtain ⟨rest, hrest⟩ := slip.known
  have hlength : (slip.values.map (·.type.code)).length = slip.values.length := List.length_map _
  have hlt : slip.values.length < slip.types.length := by omega
  have htake : slip.types.take slip.values.length = slip.values.map (·.type.code) := by
    rw [← hrest, ← hlength, List.append_assoc, List.take_left]
  have hat : slip.argType.getD (slip.types.getD slip.values.length 0) =
      slip.types[slip.values.length] := by
    cases htype : slip.argType with
    | none => exact List.getD_eq_getElem _ _ hlt
    | some t =>
      have hget : slip.types[slip.values.length]? = some t := by
        rw [← hrest, htype, ← hlength]
        simp
      rw [List.getElem?_eq_getElem hlt] at hget
      exact (Option.some.inj hget).symm
  rw [hat, map_getD_range' slip.types _ cnt (by omega), ← List.drop_eq_getElem_cons hlt, ← htake,
    List.take_append_drop]

theorem StreamIn.endCommand_ok {s : StreamIn} (hlast : 0 ≤ s.lastErr)
    (h : s.checksum → s.text.head? = some s.crc) :
    ∃ s', s.readChecksum = some s' ∧ ¬ s'.endCommand.lastErr < 0 := by
  have hend (t : StreamIn) (ht : 0 ≤ t.lastErr) (hcrc : t.checksum → t.crc = 0) :
      ¬ t.endCommand.lastErr < 0 := by
    have hok : ¬ (t.crc ≠ 0 ∧ t.checksum) := fun hbad => hbad.1 (hcrc hbad.2)
    simp only [endCommand]
    rw [if_neg (not_lt.mpr ht), if_neg hok]
    exact not_lt.mpr ht
  by_cases hchecksum : s.checksum = true
  · obtain ⟨more, htext⟩ := List.head?_eq_some_iff.mp (h hchecksum)
    refine ⟨s.past [] [s.crc] more, ?_, hend _ hlast fun _ => ?_⟩
    · rw [readChecksum, if_pos hchecksum, readByte_text htext]
      rfl
    · exact xorFrom_singleton_eq_zero.mpr rfl
  · refine ⟨s, ?_, hend s hlast fun hon => absurd hon hchecksum⟩
    rw [readChecksum, if_neg hchecksum]

theorem Slip.accepted {mem : Allocation} (hmem : mem.command)
    (slip : Slip mem conv checksum offset bytes) :
    ∃ (types : Nat → Nat) (s s' : StreamIn) (cmd : CommandIn), s.pending = bytes ∧
      s.offset = offset ∧ s.conv = conv ∧ s.checksum = checksum ∧
      s.readCommand { mem with types := types } = some (.ok cmd, s') ∧
      ∃ arg ∈ cmd.arguments, arg.value = none := by
  obtain ⟨mem', hmem'⟩ :
      ∃ mem', mem' = { mem with types := fun k => slip.types.getD k 0 } := ⟨_, rfl⟩
  obtain ⟨cnt, hcnt⟩ := Nat.exists_eq_add_of_lt slip.announced
  have hleft : checksum = true → slip.left ≠ [] := by
    intro hon hnil
    have hsum := slip.sum hon
    rw [hnil] at hsum
    cases hsum
  have hsilent : Silent (mem'.block slip.values.length) conv
      (offset + slip.padding.length + 4 + slip.body.length) slip.argType slip.skipped slip.taken
      slip.left := hmem' ▸ slip.silent
  obtain ⟨text, fd, hbytes, hdelivered⟩ := StreamIn.Silent.delivered cnt hsilent hleft
  obtain ⟨s, hs⟩ : ∃ s : StreamIn, s =
      ⟨slip.padding ++ slip.hdr ++ (slip.body ++ text), offset, fd, conv, checksum, 0, 0, 0⟩ :=
    ⟨_, rfl⟩
  obtain ⟨s₁, hs₁⟩ : ∃ s₁, s₁ = s.past slip.padding slip.hdr (slip.body ++ text) := ⟨_, rfl⟩
  -- the header, and the arguments before
  have hhdr : s.readCommandHdr = some (.ok (slip.type, slip.types.length), s₁) := by
    have hpad : slip.padding.length = ({ s with crc := 0 } : StreamIn).pad := by
      rw [slip.pad, hs]
      rfl
    have htext : ({ s with crc := 0 } : StreamIn).text =
        slip.padding ++ slip.hdr ++ (slip.body ++ text) := by rw [hs]
    have hstate : ({ s with crc := 0 } : StreamIn).past slip.padding slip.hdr
        (slip.body ++ text) = s₁ := by
      rw [hs₁, hs]
    have hconv (word : List UInt8) : s₁.convert word = ofBytes (swapBytes conv word) := by
      rw [hs₁, hs]
      rfl
    rw [StreamIn.readCommandHdr, StreamIn.readAlign4_text htext hpad slip.header, hstate]
    simp only [hconv, slip.cmdType, slip.argCnt]
  obtain ⟨s₂, hs₂⟩ : ∃ s₂, s₂ = (s₁.setLastErr 0).behind slip.body slip.payload text := ⟨_, rfl⟩
  have hoffset : s₂.offset = offset + slip.padding.length + 4 + slip.body.length := by
    rw [hs₂, hs₁, hs, ← slip.header]
    rfl
  have hsum : s₂.crc = xorFrom 0 (slip.hdr ++ slip.payload) := by
    rw [hs₂, hs₁, hs, xorFrom_append]
    rfl
  obtain ⟨args, s₃, hread, htypes, hlost, hlast, hchecksum, hcrc, hnext⟩ := hdelivered s₂
    (by rw [hs₂]; rfl) (by rw [hs₂, hs₁, hs]; rfl) (by rw [hs₂, hs₁, hs]; rfl) hoffset
    (by rw [hs₂, hs₁, hs]; rfl) (by rw [hs₂]; exact le_rfl)
  have hon : s₂.checksum = checksum := by
    rw [hs₂, hs₁, hs]
    rfl
  have hargs : StreamIn.readArguments mem' 0 slip.types.length (s₁.setLastErr 0) =
      some (slip.values.map ArgValue.argument ++ args, s₃) := by
    have hall (k : Nat) (v : ArgValue) (hv : slip.values[k]? = some v) :
        v.Allocated (mem'.block (0 + k)) := by
      rw [Nat.zero_add, hmem']
      exact slip.allocated k v hv
    have hat : ArgumentsAt conv (offset + slip.padding.length + slip.hdr.length) slip.values
        slip.body slip.payload := slip.header ▸ slip.before
    have htext : (s₁.setLastErr 0).text = slip.body ++ text := by
      rw [hs₁]
      rfl
    have hprefix := StreamIn.readArguments_text mem' (i := 0) (cnt + 1) hat
      (by rw [hs₁, hs]; rfl) (by rw [hs₁, hs]; rfl) htext hall
    rw [← hs₂, Nat.zero_add, hread] at hprefix
    rw [hcnt, Nat.add_assoc, hprefix]
    rfl
  obtain ⟨s₄, hsum₄, hok⟩ := StreamIn.endCommand_ok hlast (by
    intro h
    rw [hnext (hchecksum ▸ h), slip.sum (by rw [← hon, ← hchecksum]; exact h), hcrc, hsum,
      xorFrom_append _ (slip.hdr ++ slip.payload)])
  have hchecked : checkIn ⟨slip.type, slip.values.map ArgValue.argument ++ args⟩ = true := by
    have htypes' : (slip.values.map ArgValue.argument ++ args).map (·.type) = slip.types := by
      rw [List.map_append, List.map_map, htypes, hmem']
      exact slip.types_eq (by omega)
    rw [← checkIn_types, htypes']
    exact slip.checked
  refine ⟨fun k => slip.types.getD k 0, s, s₄.endCommand, ⟨slip.type, slip.values.map
    ArgValue.argument ++ args⟩,
    ?_, by rw [hs], by rw [hs], by rw [hs], ?_, ?_⟩
  · rw [StreamIn.pending_eq, slip.stream, hs]
    simp only [List.append_assoc] at hbytes ⊢
    rw [hbytes]
  · rw [← hmem', StreamIn.readCommand, hhdr]
    have hcommand : mem'.command = true := by
      rw [hmem']
      exact hmem
    simp only
    rw [if_neg (not_not.mpr hcommand), StreamIn.readCommandArguments, hargs]
    simp only
    rw [hsum₄]
    simp only [Option.map_some]
    rw [if_neg hok, if_pos hchecked]
  · obtain ⟨arg, harg, hvalue⟩ := hlost
    exact ⟨arg, List.mem_append_right _ harg, hvalue⟩

/-- All the commands that a stream gives are in its bytes with all their arguments and the right
checksum, however the bytes come into the buffer, exactly when no argument of a command that
passes the checks can be given up. -/
theorem accepted_iff (mem : Allocation) (conv checksum : Bool) (offset : Nat)
    (bytes : List UInt8) :
    (∀ (types : Nat → Nat) (s s' : StreamIn) (cmd : CommandIn), s.pending = bytes →
      s.offset = offset → s.conv = conv → s.checksum = checksum →
      s.readCommand { mem with types := types } = some (.ok cmd, s') →
      ∃ read, CommandAt conv checksum offset cmd read ∧ bytes = read ++ s'.pending) ↔
    ¬ (mem.command ∧ Nonempty (Slip mem conv checksum offset bytes)) := by
  constructor
  · rintro hsound ⟨hmem, ⟨slip⟩⟩
    obtain ⟨types, s, s', cmd, hbytes, hoffset, hconv, hchecksum, hread, arg, harg, hvalue⟩ :=
      slip.accepted hmem
    obtain ⟨read, ⟨_, _, values, _, _, _, _, hargs, _⟩, _⟩ :=
      hsound types s s' cmd hbytes hoffset hconv hchecksum hread
    rw [hargs] at harg
    obtain ⟨v, _, rfl⟩ := List.mem_map.mp harg
    cases hvalue
  · rintro hslip types s s' cmd rfl rfl rfl rfl hread
    rcases StreamIn.readCommand_sound _ hread with hsound | ⟨hmem, ⟨slip⟩⟩
    · exact hsound
    · exact absurd ⟨hmem, ⟨{ slip with }⟩⟩ hslip

/-- A third argument of a type that there is not passes for read. -/
theorem accepted_fails :
    ¬ ∀ (mem : Allocation) (s s' : StreamIn) (cmd : CommandIn),
      s.readCommand mem = some (.ok cmd, s') →
      ∃ read, CommandAt s.conv s.checksum s.offset cmd read ∧ s.pending = read ++ s'.pending := by
  intro h
  obtain ⟨read, ⟨_, _, values, _, _, _, _, hargs, _⟩, _⟩ :=
    h ⟨true, fun _ => 0, fun _ _ => true⟩
      ⟨[1, 0, 3, 0, 6, 0, 0, 0, 0, 0, 0, 0, 4, 0, 0, 0, 2, 0, 0, 0, 9, 0, 0, 0, 11], 0, none, false,
        true, 0, 0, 0⟩ _ _ rfl
  have hlost : (⟨9, none⟩ : ArgumentIn) ∈ values.map ArgValue.argument := by
    rw [← hargs]
    exact List.mem_of_getElem? (i := 2) rfl
  obtain ⟨v, _, hv⟩ := List.mem_map.mp hlost
  cases congrArg ArgumentIn.value hv

end ScCore.Tgf
