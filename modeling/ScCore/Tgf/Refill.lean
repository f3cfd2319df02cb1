import ScCore.Tgf.CommandIn

/-!
# What the buffered input does to a stream

Each function of the buffered input skips some bytes that are to come, takes some, and may
lose some when the file breaks. How they came into the buffer is left out.
-/

namespace ScCore.Tgf

open Lib

namespace Source

theorem read_spec (src : Source) {size : Nat} (hsize : 0 < size) :
    (src.bytes = [] ∧ src.read size = (if src.broken then none else some [], src)) ∨
      ∃ b bs rest, src.read size = (some (b :: bs), rest) ∧
        src.bytes = b :: bs ++ rest.bytes ∧ rest.broken = src.broken := by
  obtain ⟨chunks, broken⟩ := src
  cases chunks with
  | nil => exact Or.inl ⟨rfl, rfl⟩
  | cons chunk chunks =>
    apply Or.inr
    obtain ⟨chunk, hchunk⟩ := chunk
    obtain ⟨b, bs, rfl⟩ := List.exists_cons_of_ne_nil hchunk
    by_cases h : size < (b :: bs).length
    · obtain ⟨size, rfl⟩ := Nat.exists_eq_add_one.mpr hsize
      have hdrop : (b :: bs).drop (size + 1) ≠ [] := by
        rw [← List.length_pos_iff, List.length_drop]
        omega
      refine ⟨b, bs.take size, ⟨⟨_, hdrop⟩ :: chunks, broken⟩, ?_, ?_, rfl⟩
      · simp only [read, dif_pos h, List.take_succ_cons]
      · simp [bytes, ← List.append_assoc]
    · exact ⟨b, bs, ⟨chunks, broken⟩, by simp only [read, dif_neg h], rfl, rfl⟩

end Source

namespace StreamIn

def pending (s : StreamIn) : List UInt8 :=
  s.text ++ match s.fd with
    | none => []
    | some src => src.bytes

def broken (s : StreamIn) : Bool :=
  match s.fd with
  | none => false
  | some src => src.broken

/-- `s'` comes from `s` by skipping some bytes, taking some into the checksum, and losing
some at the end. -/
structure Moved (s : StreamIn) (skipped taken lost : List UInt8) (s' : StreamIn) : Prop where
  pending : s.pending = skipped ++ taken ++ s'.pending ++ lost
  offset : s'.offset = s.offset + skipped.length + taken.length
  crc : s'.crc = xorFrom s.crc taken
  conv : s'.conv = s.conv
  checksum : s'.checksum = s.checksum
  cmdIndex : s'.cmdIndex = s.cmdIndex
  broken : s'.broken = s.broken
  kept : s.broken = false → lost = []

namespace Moved

theorem refl (s : StreamIn) : Moved s [] [] [] s :=
  ⟨by simp, rfl, rfl, rfl, rfl, rfl, rfl, fun _ => rfl⟩

variable {s s' s'' : StreamIn} {skipped skipped' taken taken' lost : List UInt8}

theorem skip (h : Moved s skipped [] [] s') (h' : Moved s' skipped' taken lost s'') :
    Moved s (skipped ++ skipped') taken lost s'' where
  pending := by
    rw [h.pending, h'.pending]
    simp
  offset := by
    rw [h'.offset, h.offset]
    simp
    omega
  crc := by rw [h'.crc, h.crc, xorFrom_nil]
  conv := h'.conv.trans h.conv
  checksum := h'.checksum.trans h.checksum
  cmdIndex := h'.cmdIndex.trans h.cmdIndex
  broken := h'.broken.trans h.broken
  kept hs := h'.kept (h.broken.trans hs)

theorem take (h : Moved s skipped taken [] s') (h' : Moved s' [] taken' lost s'') :
    Moved s skipped (taken ++ taken') lost s'' where
  pending := by
    rw [h.pending, h'.pending]
    simp
  offset := by
    rw [h'.offset, h.offset]
    simp
    omega
  crc := by rw [h'.crc, h.crc, xorFrom_append]
  conv := h'.conv.trans h.conv
  checksum := h'.checksum.trans h.checksum
  cmdIndex := h'.cmdIndex.trans h.cmdIndex
  broken := h'.broken.trans h.broken
  kept hs := h'.kept (h.broken.trans hs)

theorem setLastErr (h : Moved s skipped taken lost s') (err : Int) :
    Moved s skipped taken lost (s'.setLastErr err) := { h with }

end Moved

theorem moved_advance (s : StreamIn) {n : Nat} (h : n ≤ s.text.length) :
    Moved s (s.text.take n) [] [] (s.advance n) where
  pending := by simp [pending, advance, ← List.append_assoc]
  offset := by simp [advance, h]
  crc := rfl
  conv := rfl
  checksum := rfl
  cmdIndex := rfl
  broken := rfl
  kept _ := rfl

theorem moved_take (s : StreamIn) {n : Nat} (h : n ≤ s.text.length) :
    Moved s [] (s.text.take n) [] (s.take n) where
  pending := by simp [pending, take, advance, ← List.append_assoc]
  offset := by simp [take, advance, h]
  crc := rfl
  conv := rfl
  checksum := rfl
  cmdIndex := rfl
  broken := rfl
  kept _ := rfl

theorem fillMore_spec (turns : Nat) {allign : Nat} (text : List UInt8) (src : Source)
    (ha : allign < 4) (hturns : 4 ≤ text.length + turns) :
    (∃ src', fillMore turns src allign text = (none, src') ∧ src.broken ∧ src'.broken ∧
        src'.bytes = [] ∧ (text ++ src.bytes).length < 4) ∨
      ∃ text' src', fillMore turns src allign text = (some text', src') ∧
        src'.broken = src.broken ∧ text.length ≤ text'.length ∧
        text' ++ src'.bytes = text ++ src.bytes ∧
        (text'.length < 4 → src'.bytes = [] ∧ src.broken = false) := by
  induction turns generalizing src text with
  | zero => exact Or.inr ⟨text, src, rfl, rfl, le_rfl, rfl, by omega⟩
  | succ turns ih =>
    rw [fillMore]
    split
    case isTrue h => exact Or.inr ⟨text, src, rfl, rfl, le_rfl, rfl, by omega⟩
    case isFalse h =>
      have hsize : 0 < tgfReadBufsize - text.length - allign := by
        rw [tgfReadBufsize]
        omega
      rcases src.read_spec hsize with ⟨hend, hread⟩ | ⟨b, bs, rest, hread, hbytes, hbroken⟩
      · cases hsrc : src.broken with
        | true =>
          refine Or.inl ⟨src, ?_, rfl, hsrc, hend, by rw [hend, List.append_nil]; omega⟩
          rw [hread, hsrc]
          rfl
        | false =>
          refine Or.inr ⟨text, src, ?_, hsrc, le_rfl, rfl, fun _ => ⟨hend, rfl⟩⟩
          rw [hread, hsrc]
          rfl
      · rw [hread]
        have hlength : (text ++ b :: bs).length = text.length + bs.length + 1 := by
          rw [List.length_append, List.length_cons]
          omega
        rcases ih (text ++ b :: bs) rest (by omega) with
          ⟨src', hmore, hrest, hsrc', hend, hlt⟩ | ⟨text', src', hmore, hsrc', hle, hkeep, hshort⟩
        · refine Or.inl ⟨src', hmore, hbroken ▸ hrest, hsrc', hend, ?_⟩
          rwa [hbytes, ← List.append_assoc]
        · refine Or.inr ⟨text', src', hmore, hsrc'.trans hbroken, by omega, ?_, hbroken ▸ hshort⟩
          rw [hkeep, hbytes, List.append_assoc]

/-- What `tgf_fill_buffer` gives for a text that is too short for a word. -/
inductive Filled (s : StreamIn) : Int → StreamIn → Prop where
  | error {rv : Int} {lost : List UInt8} {s' : StreamIn} : rv < 0 → s.pending.length < 4 →
      s'.pending = s.text → s'.lastErr = s.lastErr → Moved s [] [] lost s' →
      (s.broken = false → rv = eTgfEof ∧ s' = s) → Filled s rv s'
  | more {rv : Int} {s' : StreamIn} : rv = s'.text.length → s.text.length < s'.text.length →
      (s'.text.length < 4 → s'.pending = s'.text ∧ s.broken = false) →
      s'.lastErr = s.lastErr → Moved s [] [] [] s' → Filled s rv s'

theorem Filled.eof {s : StreamIn} (hlt : s.text.length < 4) (h : s.pending = s.text) :
    s.broken = false → Filled s eTgfEof s := by
  intro _
  exact Filled.error (by decide) (h ▸ hlt) h rfl (Moved.refl s) fun _ => ⟨rfl, rfl⟩

theorem Filled.io {s s' : StreamIn} {lost : List UInt8} (hlt : s.pending.length < 4)
    (hbroken : s.broken) (hpending : s'.pending = s.text) (hlast : s'.lastErr = s.lastErr)
    (hmoved : Moved s [] [] lost s') : Filled s eTgfIo s' := by
  refine Filled.error (by decide) hlt hpending hlast hmoved ?_
  rw [hbroken]
  exact nofun

theorem moved_refill {s : StreamIn} {src src' : Source} {text lost : List UInt8}
    (hfd : s.fd = some src) (hbroken : src'.broken = src.broken)
    (hbytes : s.text ++ src.bytes = text ++ src'.bytes ++ lost)
    (hlost : src.broken = false → lost = []) :
    Moved s [] [] lost { s with text := text, fd := some src' } where
  pending := by
    rw [pending, hfd]
    exact hbytes
  offset := rfl
  crc := rfl
  conv := rfl
  checksum := rfl
  cmdIndex := rfl
  broken := by
    rw [broken, broken, hfd]
    exact hbroken
  kept := by
    rw [broken, hfd]
    exact hlost

theorem fillBuffer_filled (s : StreamIn) (h : s.text.length < 4) :
    ∃ rv s', s.fillBuffer = some (rv, s') ∧ Filled s rv s' := by
  cases hfd : s.fd with
  | none =>
    refine ⟨eTgfEof, s, by simp only [fillBuffer, hfd], Filled.eof h ?_ ?_⟩
    · rw [pending, hfd, List.append_nil]
    · rw [broken, hfd]
  | some src =>
    have hself : { s with fd := some src } = s := by rw [← hfd]
    have ha : s.offset % 4 < 4 := Nat.mod_lt _ (by decide)
    have hsize : 0 < tgfReadBufsize - s.text.length - s.offset % 4 := by
      rw [tgfReadBufsize]
      omega
    have hpending : s.pending = s.text ++ src.bytes := by rw [pending, hfd]
    have hbroken : s.broken = src.broken := by rw [broken, hfd]
    simp only [fillBuffer, hfd, if_neg (not_le.mpr h)]
    rcases src.read_spec hsize with ⟨hend, hread⟩ | ⟨b, bs, rest, hread, hbytes, hrest⟩
    · rw [hend, List.append_nil] at hpending
      rw [hread]
      cases hsrc : src.broken with
      | true =>
        refine ⟨_, s, ?_, Filled.io (hpending ▸ h) (hbroken.trans hsrc) hpending rfl (Moved.refl s)⟩
        simp only [if_pos, hself]
      | false =>
        refine ⟨_, s, ?_, Filled.eof h hpending (hbroken.trans hsrc)⟩
        simp only [Bool.false_eq_true, if_false, hself]
    · have hlength : (s.text ++ b :: bs).length = s.text.length + bs.length + 1 := by
        rw [List.length_append, List.length_cons]
        omega
      rw [hread]
      rcases fillMore_spec 3 (s.text ++ b :: bs) rest ha (by omega) with
        ⟨src', hmore, hb, hsrc', hend, hlt⟩ | ⟨text', src', hmore, hsrc', hle, hkeep, hshort⟩
      · have hsrc : src.broken = true := by rw [← hrest, hb]
        have hmoved : Moved s [] [] src.bytes { s with text := s.text, fd := some src' } := by
          apply moved_refill hfd (hsrc'.trans hsrc.symm)
          · rw [hend, List.append_nil]
          · rw [hsrc]
            exact nofun
        simp only [hmore]
        refine ⟨_, _, rfl, Filled.io ?_ (hbroken.trans hsrc) ?_ rfl hmoved⟩
        · rwa [hpending, hbytes, ← List.append_assoc]
        · change s.text ++ src'.bytes = s.text
          rw [hend, List.append_nil]
      · have hmoved : Moved s [] [] [] { s with text := text', fd := some src' } := by
          apply moved_refill hfd (hsrc'.trans hrest)
          · rw [List.append_nil, hkeep, hbytes, List.append_assoc]
          · exact fun _ => rfl
        simp only [hmore]
        refine ⟨_, _, rfl, Filled.more rfl ?_ ?_ rfl hmoved⟩
        · change s.text.length < text'.length
          omega
        · intro hlt
          obtain ⟨hnil, hb⟩ := hshort hlt
          refine ⟨?_, ?_⟩
          · change text' ++ src'.bytes = text'
            rw [hnil, List.append_nil]
          · rw [hbroken, ← hrest, hb]

end StreamIn

end ScCore.Tgf
