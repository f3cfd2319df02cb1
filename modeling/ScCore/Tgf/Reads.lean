import ScCore.Tgf.Refill

/-!
# What the functions of the buffered input read

For each function its answers: the bytes that it takes when it succeeds, and how many there
are to come when it fails.
-/

namespace ScCore.Tgf

open Lib

namespace StreamIn

theorem text_length_le_pending (s : StreamIn) : s.text.length ≤ s.pending.length := by
  rw [pending, List.length_append]
  exact Nat.le_add_right _ _

variable {s s' s'' : StreamIn} {len : Nat} {least : Int}

theorem Moved.pending_eq (h : Moved s [] [] [] s') : s'.pending = s.pending := by
  simpa using h.pending.symm

theorem Filled.exhausted {rv : Int} (h : Filled s rv s') (hpending : s.pending = s.text)
    (hbroken : s.broken = false) : rv = eTgfEof ∧ s' = s := by
  cases h with
  | error _ _ _ _ _ heof => exact heof hbroken
  | more _ hlt _ _ hmoved =>
    have hle := s'.text_length_le_pending
    rw [hmoved.pending_eq, hpending] at hle
    omega

/-- The answers of `tgf_read_byte`. -/
inductive ByteRead (s : StreamIn) : Except Int UInt8 → StreamIn → Prop where
  | ok {b : UInt8} {s' : StreamIn} : s'.lastErr = s.lastErr → Moved s [] [b] [] s' →
      ByteRead s (.ok b) s'
  | error {rv : Int} {lost : List UInt8} {s' : StreamIn} : rv < 0 → s'.lastErr = rv →
      Moved s [] [] lost s' → s'.pending = [] →
      (s.broken = false → rv = eTgfEof) → ByteRead s (.error rv) s'

theorem nextByte_spec (s : StreamIn) (h : 0 < s.text.length) :
    ∃ b s', s.nextByte = some (.ok b, s') ∧ s'.lastErr = s.lastErr ∧ Moved s [] [b] [] s' := by
  obtain ⟨b, bs, htext⟩ := List.exists_cons_of_length_pos h
  have hmoved := s.moved_take (n := 1) h
  rw [htext] at hmoved
  exact ⟨b, s.take 1, by simp only [nextByte, htext], rfl, hmoved⟩

theorem readByte_spec (s : StreamIn) : ∃ r s', s.readByte = some (r, s') ∧ ByteRead s r s' := by
  rw [readByte]
  by_cases htext : s.text ≠ []
  · rw [if_pos htext]
    obtain ⟨b, s', hread, hlast, hmoved⟩ := s.nextByte_spec (List.length_pos_iff.mpr htext)
    exact ⟨_, _, hread, ByteRead.ok hlast hmoved⟩
  · rw [if_neg htext]
    have htext : s.text = [] := not_not.mp htext
    obtain ⟨rv, s', hfill, hfilled⟩ := s.fillBuffer_filled (by rw [htext]; decide)
    rw [hfill]
    cases hfilled with
    | error hrv _ hpending _ hmoved heof =>
      refine ⟨_, s'.setLastErr rv, ?_, ByteRead.error hrv rfl (hmoved.setLastErr rv)
        (hpending.trans htext) ?_⟩
      · simp only
        rw [if_pos (by omega)]
      · exact fun hbroken => (heof hbroken).1
    | more hrv hlt _ hlast hmoved =>
      have hpos : 0 < s'.text.length := by omega
      obtain ⟨b, s'', hread, hlast', hmoved'⟩ := s'.nextByte_spec hpos
      refine ⟨_, s'', ?_, ByteRead.ok (hlast'.trans hlast) (hmoved.skip hmoved')⟩
      simp only
      rw [if_neg (by omega), hread]

/-- The answers of `tgf_read_int32` and `tgf_read_int16`. -/
inductive WordRead (len : Nat) (least : Int) (s : StreamIn) : Except Int Nat → StreamIn → Prop where
  | ok {bs : List UInt8} {s' : StreamIn} : bs.length = len → s'.lastErr = s.lastErr →
      Moved s [] bs [] s' → WordRead len least s (.ok (s.convert bs)) s'
  | error {rv : Int} {lost : List UInt8} {s' : StreamIn} : rv < 0 → s'.lastErr = rv →
      Moved s [] [] lost s' → (s.broken = false → rv = eTgfEof ∧ s.pending.length < len) →
      WordRead len least s (.error rv) s'
  | partly {rv : Int} {s' : StreamIn} : 0 < rv → rv ≤ least → rv = s.pending.length →
      s'.lastErr = rv → s.broken = false → Moved s [] [] [] s' → WordRead len least s (.error rv) s'

theorem readWordLoop_ok (least : Int) (turns : Nat) (h : len ≤ s.text.length) :
    ∃ r s', readWordLoop len least (turns + 1) s = some (r, s') ∧ WordRead len least s r s' := by
  refine ⟨_, s.take len, by rw [readWordLoop, if_pos h], WordRead.ok ?_ rfl (s.moved_take h)⟩
  rw [List.length_take, min_eq_left h]

theorem WordRead.of_filled {r : Except Int Nat} (hlast : s'.lastErr = s.lastErr)
    (hmoved : Moved s [] [] [] s') (h : WordRead len least s' r s'') :
    WordRead len least s r s'' := by
  cases h with
  | ok hlength hlast' hmoved' =>
    rw [convert, hmoved.conv]
    exact WordRead.ok hlength (hlast'.trans hlast) (hmoved.skip hmoved')
  | error hrv hlast' hmoved' heof =>
    refine WordRead.error hrv hlast' (hmoved.skip hmoved') ?_
    rw [← hmoved.broken, ← hmoved.pending_eq]
    exact heof
  | partly hpos hle hlength hlast' hbroken hmoved' =>
    refine WordRead.partly hpos hle ?_ hlast' (hmoved.broken ▸ hbroken) (hmoved.skip hmoved')
    rw [← hmoved.pending_eq]
    exact hlength

theorem readWordLoop_spec (hlen : len ≤ 4) (hleast : -1 ≤ least) (hlong : least < 4)
    (s : StreamIn) (turns : Nat) :
    ∃ r s', readWordLoop len least (turns + 3) s = some (r, s') ∧ WordRead len least s r s' := by
  by_cases h : len ≤ s.text.length
  · exact readWordLoop_ok least _ h
  · rw [readWordLoop, if_neg h]
    obtain ⟨rv, s', hfill, hfilled⟩ := s.fillBuffer_filled (by omega)
    rw [hfill]
    cases hfilled with
    | error hrv _ hpending _ hmoved heof =>
      refine ⟨_, s'.setLastErr rv, ?_, WordRead.error hrv rfl (hmoved.setLastErr rv) ?_⟩
      · simp only
        rw [if_pos (by omega)]
      · intro hbroken
        obtain ⟨hrv, rfl⟩ := heof hbroken
        rw [hpending]
        exact ⟨hrv, by omega⟩
    | more hrv hlt hshort hlast hmoved =>
      simp only
      by_cases hle : rv ≤ least
      · obtain ⟨hpending, hbroken⟩ := hshort (by omega)
        refine ⟨_, s'.setLastErr rv, by rw [if_pos hle],
          WordRead.partly (by omega) hle ?_ rfl hbroken (hmoved.setLastErr rv)⟩
        rw [hrv, ← hmoved.pending_eq, hpending]
      · rw [if_neg hle]
        by_cases h' : len ≤ s'.text.length
        · obtain ⟨r, s'', hread, hword⟩ := readWordLoop_ok least (turns + 1) h'
          exact ⟨r, s'', hread, hword.of_filled hlast hmoved⟩
        · obtain ⟨hpending, hbroken⟩ := hshort (by omega)
          rw [readWordLoop, if_neg h']
          obtain ⟨rv', s'', hfill', hfilled'⟩ := s'.fillBuffer_filled (by omega)
          obtain ⟨rfl, rfl⟩ := hfilled'.exhausted hpending (hmoved.broken.trans hbroken)
          rw [hfill']
          have heof : eTgfEof < 0 := by decide
          refine ⟨.error eTgfEof, s''.setLastErr eTgfEof, ?_,
            WordRead.error heof rfl (hmoved.setLastErr eTgfEof) ?_⟩
          · simp only
            rw [if_pos (le_trans (by decide) hleast)]
          · rw [← hmoved.pending_eq, hpending]
            exact fun _ => ⟨rfl, by omega⟩

theorem readInt32_spec (s : StreamIn) :
    ∃ r s', s.readInt32 = some (r, s') ∧ WordRead 4 (-1) s r s' :=
  readWordLoop_spec le_rfl le_rfl (by decide) s 0

theorem readInt16_spec (s : StreamIn) :
    ∃ r s', s.readInt16 = some (r, s') ∧ WordRead 2 2 s r s' :=
  readWordLoop_spec (by decide) (by decide) (by decide) s 0

/-- The answers of `tgf_read`. -/
inductive BlockRead (size : Int) (s : StreamIn) : Except Int (List UInt8) → StreamIn → Prop where
  | ok {bs : List UInt8} {s' : StreamIn} : bs.length = size → s'.lastErr = s.lastErr →
      Moved s [] bs [] s' → BlockRead size s (.ok bs) s'
  | error {rv : Int} {bs : List UInt8} {s' : StreamIn} : rv < 0 →
      (bs.length < size ∨ size < 0 ∧ bs = []) → s'.pending = [] → s'.lastErr = s.lastErr →
      Moved s [] bs [] s' → (s.broken = false → rv = eTgfEof) → BlockRead size s (.error rv) s'

theorem BlockRead.copied {size : Int} {r : Except Int (List UInt8)} {copied : List UInt8}
    (hcopied : copied.length ≤ size ∨ copied = []) (hlast : s'.lastErr = s.lastErr)
    (hmoved : Moved s [] copied [] s') (h : BlockRead (size - copied.length) s' r s'') :
    BlockRead size s (r.map (copied ++ ·)) s'' := by
  cases h with
  | @ok bs _ hlength hlast' hmoved' =>
    refine BlockRead.ok ?_ (hlast'.trans hlast) (hmoved.take hmoved')
    rw [List.length_append]
    omega
  | @error rv bs _ hrv hshort hpending hlast' hmoved' heof =>
    refine BlockRead.error hrv ?_ hpending (hlast'.trans hlast) (hmoved.take hmoved') ?_
    · rw [List.length_append]
      rcases hshort with hshort | ⟨hneg, rfl⟩
      · exact Or.inl (by omega)
      · rcases hcopied with hcopied | rfl
        · omega
        · exact Or.inr ⟨by simpa using hneg, rfl⟩
    · rw [← hmoved.broken]
      exact heof

theorem readLoop_spec (turns : Nat) (s : StreamIn) {size : Int} (buf : List UInt8)
    (hsize : size ≠ 0) (hturns : size.toNat + (if s.text = [] then 2 else 1) ≤ turns) :
    (size < 0 ∧ s.pending ≠ [] ∧ readLoop turns s size buf = none) ∨
      ∃ r s', readLoop turns s size buf = some (r.map (buf ++ ·), s') ∧ BlockRead size s r s' := by
  induction turns generalizing s size buf with
  | zero => split at hturns <;> omega
  | succ turns ih =>
    rw [readLoop]
    by_cases hneg : s.text ≠ [] ∧ size < 0
    · refine Or.inl ⟨hneg.2, ?_, if_pos hneg⟩
      intro hpending
      exact hneg.1 (List.append_eq_nil_iff.mp hpending).1
    · rw [if_neg hneg]
      obtain ⟨t, ht⟩ : ∃ t, t = min s.text.length size.toNat := ⟨_, rfl⟩
      rw [← ht]
      have hle : t ≤ s.text.length := by omega
      have hlength : (s.text.take t).length = t := by rw [List.length_take, min_eq_left hle]
      have hmoved := s.moved_take hle
      by_cases heq : size = t
      · simp only [if_pos heq]
        exact Or.inr ⟨.ok (s.text.take t), s.take t, rfl, BlockRead.ok (by omega) rfl hmoved⟩
      · simp only [if_neg heq]
        -- a part of what is asked for is what there is of the text
        have hall : t = s.text.length := by
          rcases not_and_or.mp hneg with htext | hpos
          · rw [not_not.mp htext] at hle ⊢
            simpa using hle
          · omega
        have hshort : (s.text.take t).length < size ∨ size < 0 ∧ s.text.take t = [] := by
          rcases not_and_or.mp hneg with htext | hpos
          · rw [not_not.mp htext] at hall ⊢
            subst hall
            simp only [List.length_nil, List.take_nil, Nat.cast_zero, and_true]
            omega
          · omega
        have hempty : (s.take t).text = [] := by
          change s.text.drop t = []
          rw [hall, List.drop_length]
        cases hfd : (s.take t).fd with
        | none =>
          refine Or.inr ⟨.error eTgfEof, s.take t, rfl, ?_⟩
          refine BlockRead.error (by decide) hshort ?_ rfl hmoved fun _ => rfl
          rw [pending, hempty, hfd, List.append_nil]
        | some src =>
          have hroom : 0 < tgfReadBufsize - (s.take t).offset % 4 := by
            rw [tgfReadBufsize]
            omega
          rcases src.read_spec hroom with ⟨hend, hread⟩ | ⟨b, bs, rest, hread, hbytes, hrest⟩
          · have hpending : (s.take t).pending = [] := by
              rw [pending, hempty, hfd]
              exact hend
            have hbroken : s.broken = src.broken := by
              rw [← hmoved.broken, broken, hfd]
            simp only [hread]
            cases hsrc : src.broken with
            | true =>
              have hself : { s.take t with fd := some src } = s.take t := by rw [← hfd]
              refine Or.inr ⟨.error eTgfIo, s.take t, ?_, ?_⟩
              · simp only [if_true, hself]
                rfl
              · refine BlockRead.error (by decide) hshort hpending rfl hmoved ?_
                rw [hbroken, hsrc]
                exact Bool.noConfusion
            | false =>
              refine Or.inr ⟨.error eTgfEof, { s.take t with fd := none }, rfl, ?_⟩
              refine BlockRead.error (by decide) hshort ?_ rfl ?_ fun _ => rfl
              · rw [pending, hempty]
                rfl
              · refine { hmoved with pending := ?_, broken := hsrc.symm.trans hbroken.symm }
                rw [hmoved.pending, hpending, pending, hempty]
                rfl
          · have hrefill : Moved (s.take t) [] [] []
                { s.take t with text := b :: bs, fd := some rest } := by
              apply moved_refill hfd hrest
              · rw [hempty, hbytes]
                simp
              · exact fun _ => rfl
            have hmoved' := hmoved.take hrefill
            rw [List.append_nil] at hmoved'
            have hturns' : (size - t).toNat + (if b :: bs = [] then 2 else 1) ≤ turns := by
              rw [if_neg (List.cons_ne_nil _ _)]
              split at hturns
              case isTrue => omega
              case isFalse htext =>
                have hpos := List.length_pos_iff.mpr htext
                omega
            simp only [hread]
            rcases ih { s.take t with text := b :: bs, fd := some rest } (buf ++ s.text.take t)
                (sub_ne_zero.mpr heq) hturns' with ⟨hlt, _, hnone⟩ | ⟨r, s', hloop, hblock⟩
            · refine Or.inl ⟨by omega, ?_, hnone⟩
              rw [hmoved'.pending]
              simp [pending]
            · refine Or.inr ⟨r.map (s.text.take t ++ ·), s', ?_, ?_⟩
              · rw [hloop]
                cases r with
                | ok bytes => simp [Except.map]
                | error rv => rfl
              · refine BlockRead.copied (hshort.imp le_of_lt And.right) ?_ hmoved' ?_
                · rfl
                · rw [hlength]
                  exact hblock

theorem read_spec (s : StreamIn) (size : Int) :
    (size < 0 ∧ s.pending ≠ [] ∧ s.read size = none) ∨
      ∃ r s', s.read size = some (r, s') ∧ BlockRead size s r s' := by
  rw [read]
  split
  case isTrue h =>
    subst h
    exact Or.inr ⟨_, s, rfl, BlockRead.ok rfl rfl (Moved.refl s)⟩
  case isFalse h =>
    rcases readLoop_spec (size.toNat + 2) s [] h (by split <;> omega) with
      hnone | ⟨r, s', hread, hblock⟩
    · exact Or.inl hnone
    · refine Or.inr ⟨r, s', hread.trans ?_, hblock⟩
      cases r <;> rfl

theorem pad_lt (s : StreamIn) : s.pad < 4 := Nat.mod_lt _ (by decide)

theorem pad_advance_pad (s : StreamIn) : (s.advance s.pad).pad = 0 := by
  change (4 - (s.offset + (4 - s.offset % 4) % 4) % 4) % 4 = 0
  omega

theorem pad_congr (h : s'.offset = s.offset) : s'.pad = s.pad := by
  rw [pad, pad, h]

/-- The answers of `tgf_read_align4`. A word that is cut off is missed behind the pad, or
before it. -/
inductive AlignRead (s : StreamIn) : Except Int (List UInt8) → StreamIn → Prop where
  | ok {skipped bs : List UInt8} {s' : StreamIn} : skipped.length = s.pad → bs.length = 4 →
      s'.lastErr = s.lastErr → Moved s skipped bs [] s' → AlignRead s (.ok bs) s'
  | behind {rv : Int} {skipped lost : List UInt8} {s' : StreamIn} : rv < 0 →
      skipped.length = s.pad → s.pending.length < s.pad + 4 → s'.lastErr = s.lastErr →
      Moved s skipped [] lost s' → (s.broken = false → rv = eTgfEof) → AlignRead s (.error rv) s'
  | before {rv : Int} {lost : List UInt8} {s' : StreamIn} : rv < 0 → s.pending.length < 4 →
      s'.lastErr = s.lastErr → Moved s [] [] lost s' →
      (s.broken = false → rv = eTgfEof ∧ s.pending.length ≤ s.pad) → AlignRead s (.error rv) s'

theorem AlignRead.skip {skipped : List UInt8} {r : Except Int (List UInt8)}
    (hmoved : Moved s skipped [] [] s') (hskipped : skipped.length = s.pad)
    (hlast : s'.lastErr = s.lastErr) (hpad : s'.pad = 0) (h : AlignRead s' r s'') :
    AlignRead s r s'' := by
  have hlength : s.pending.length = s.pad + s'.pending.length := by
    rw [hmoved.pending]
    simp [hskipped]
  cases h with
  | ok hskip hbs hlast' hmoved' =>
    refine AlignRead.ok ?_ hbs (hlast'.trans hlast) (hmoved.skip hmoved')
    rw [List.length_append]
    omega
  | behind hrv hskip hshort hlast' hmoved' heof =>
    refine AlignRead.behind hrv ?_ (by omega) (hlast'.trans hlast) (hmoved.skip hmoved') ?_
    · rw [List.length_append]
      omega
    · rw [← hmoved.broken]
      exact heof
  | before hrv hshort hlast' hmoved' heof =>
    refine AlignRead.behind hrv ?_ (by omega) (hlast'.trans hlast) (hmoved.skip hmoved') ?_
    · simpa using hskipped
    · rw [← hmoved.broken]
      exact fun hbroken => (heof hbroken).1

theorem readAlign4Loop_ok (turns : Nat) (h : s.pad + 4 ≤ s.text.length) :
    ∃ r s', readAlign4Loop (turns + 1) s = some (r, s') ∧ AlignRead s r s' := by
  have hlength : 4 ≤ (s.advance s.pad).text.length := by
    change 4 ≤ (s.text.drop s.pad).length
    rw [List.length_drop]
    omega
  refine ⟨.ok ((s.advance s.pad).text.take 4), (s.advance s.pad).take 4, ?_, ?_⟩
  · rw [readAlign4Loop, if_pos h]
  · have hskipped : (s.text.take s.pad).length = s.pad := by
      rw [List.length_take]
      omega
    refine AlignRead.ok hskipped ?_ rfl ?_
    · rw [List.length_take]
      omega
    · have hmoved := s.moved_advance (n := s.pad) (by omega)
      simpa using hmoved.skip ((s.advance s.pad).moved_take hlength)

theorem advance_pad_eq (hpad : s.pad = 0) : s.advance s.pad = s := by
  rw [hpad]
  rfl

theorem readAlign4Loop_aligned (turns : Nat) (hpad : s.pad = 0) :
    ∃ r s', readAlign4Loop (turns + 2) s = some (r, s') ∧ AlignRead s r s' := by
  have hnil : ([] : List UInt8).length = s.pad := hpad.symm
  by_cases h : s.pad + 4 ≤ s.text.length
  · exact readAlign4Loop_ok _ h
  · rw [readAlign4Loop, if_neg h, advance_pad_eq hpad, ite_self]
    obtain ⟨rv, s', hfill, hfilled⟩ := s.fillBuffer_filled (by omega)
    rw [hfill]
    cases hfilled with
    | error hrv hlt _ hlast hmoved heof =>
      refine ⟨.error rv, s', ?_, AlignRead.behind hrv hnil (by omega) hlast hmoved ?_⟩
      · simp only [if_pos hrv]
      · exact fun hbroken => (heof hbroken).1
    | more hrv _ hshort hlast hmoved =>
      have hpad' : s'.pad = 0 := (pad_congr hmoved.offset).trans hpad
      simp only [if_neg (by omega : ¬ rv < 0), if_neg (by omega : ¬ s'.text.length < s'.pad),
        advance_pad_eq hpad']
      by_cases h' : s'.pad + 4 ≤ s'.text.length
      · obtain ⟨r, s'', hread, halign⟩ := readAlign4Loop_ok turns h'
        exact ⟨r, s'', hread, halign.skip hmoved hnil hlast hpad'⟩
      · obtain ⟨hpending, hbroken⟩ := hshort (by omega)
        rw [readAlign4Loop, if_neg h', advance_pad_eq hpad', ite_self]
        obtain ⟨rv', s'', hfill', hfilled'⟩ := s'.fillBuffer_filled (by omega)
        obtain ⟨rfl, rfl⟩ := hfilled'.exhausted hpending (hmoved.broken.trans hbroken)
        rw [hfill']
        have heof : eTgfEof < 0 := by decide
        refine ⟨.error eTgfEof, s'', ?_, AlignRead.behind heof hnil ?_ hlast hmoved ?_⟩
        · simp only [if_pos heof]
        · rw [← hmoved.pending_eq, hpending]
          omega
        · exact fun _ => rfl

theorem readAlign4_spec (s : StreamIn) :
    (0 < s.pending.length ∧ s.pending.length < s.pad ∧ s.readAlign4 = none) ∨
      ∃ r s', s.readAlign4 = some (r, s') ∧ AlignRead s r s' := by
  have hpad := s.pad_lt
  by_cases h : s.pad + 4 ≤ s.text.length
  · exact Or.inr (readAlign4Loop_ok 2 h)
  · by_cases hin : s.pad < s.text.length
    · -- the pad is skipped before the buffer is filled
      have hmoved := s.moved_advance hin.le
      have hpad' := s.pad_advance_pad
      have hlength : (s.text.take s.pad).length = s.pad := by
        rw [List.length_take, min_eq_left hin.le]
      have hagain : s.readAlign4 = (s.advance s.pad).readAlign4 := by
        have htext : (s.advance s.pad).text.length = s.text.length - s.pad := List.length_drop
        rw [readAlign4, readAlign4, readAlign4Loop, readAlign4Loop, if_neg h, if_pos hin,
          if_neg (by omega), advance_pad_eq hpad', ite_self]
      obtain ⟨r, s', hread, halign⟩ := readAlign4Loop_aligned 1 hpad'
      exact Or.inr ⟨r, s', hagain.trans hread, halign.skip hmoved hlength rfl hpad'⟩
    · rw [readAlign4, readAlign4Loop, if_neg h, if_neg hin]
      obtain ⟨rv, s', hfill, hfilled⟩ := s.fillBuffer_filled (by omega)
      rw [hfill]
      cases hfilled with
      | error hrv hlt hpending hlast hmoved heof =>
        refine Or.inr ⟨.error rv, s', ?_, AlignRead.before hrv hlt hlast hmoved ?_⟩
        · simp only [if_pos hrv]
        · intro hbroken
          obtain ⟨hrv, rfl⟩ := heof hbroken
          rw [hpending]
          exact ⟨hrv, by omega⟩
      | more hrv hlt hshort hlast hmoved =>
        have hpad' : s'.pad = s.pad := pad_congr hmoved.offset
        simp only [if_neg (by omega : ¬ rv < 0)]
        by_cases hover : s'.text.length < s'.pad
        · obtain ⟨hpending, _⟩ := hshort (by omega)
          rw [if_pos hover, ← hmoved.pending_eq, hpending]
          exact Or.inl ⟨by omega, by omega, rfl⟩
        · have hmoved' := hmoved.skip (s'.moved_advance (not_lt.mp hover))
          have hlength : ([] ++ s'.text.take s'.pad).length = s.pad := by
            rw [List.nil_append, List.length_take, min_eq_left (not_lt.mp hover), hpad']
          rw [if_neg hover]
          obtain ⟨r, s'', hread, halign⟩ := readAlign4Loop_aligned 0 s'.pad_advance_pad
          exact Or.inr ⟨r, s'', hread, halign.skip hmoved' hlength hlast s'.pad_advance_pad⟩

end StreamIn

end ScCore.Tgf
