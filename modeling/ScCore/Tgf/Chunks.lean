import ScCore.Tgf.Reads

/-!
# Reading in chunks

Commands are the same however their bytes come into the buffer, as long as the stream does
not end within a pad, or within the two bytes of a `TGF_INT16`.
-/

namespace ScCore.Tgf

open Lib

namespace StreamIn

structure Alike (s f : StreamIn) : Prop where
  pending : s.pending = f.pending
  offset : s.offset = f.offset
  conv : s.conv = f.conv
  checksum : s.checksum = f.checksum
  crc : s.crc = f.crc
  cmdIndex : s.cmdIndex = f.cmdIndex
  lastErr : s.lastErr = f.lastErr
  whole : s.broken = false
  whole' : f.broken = false

inductive Agree {α : Type} : Option (α × StreamIn) → Option (α × StreamIn) → Prop where
  | aborted : Agree none none
  | answered {a : α} {s f : StreamIn} : Alike s f → Agree (some (a, s)) (some (a, f))

theorem Agree.elim {α : Type} {x y : Option (α × StreamIn)} (h : Agree x y) :
    (x = none ∧ y = none) ∨
      ∃ a s f, x = some (a, s) ∧ y = some (a, f) ∧ Alike s f := by
  cases h with
  | aborted => exact Or.inl ⟨rfl, rfl⟩
  | answered halike => exact Or.inr ⟨_, _, _, rfl, rfl, halike⟩

def oneBuffer (s : StreamIn) : StreamIn := { s with text := s.pending, fd := none }

theorem alike_oneBuffer {s : StreamIn} (hs : s.broken = false) : Alike s s.oneBuffer where
  pending := (List.append_nil _).symm
  offset := rfl
  conv := rfl
  checksum := rfl
  crc := rfl
  cmdIndex := rfl
  lastErr := rfl
  whole := hs
  whole' := rfl

namespace Alike

variable {s f s' f' : StreamIn} {skipped taken lost skipped' taken' lost' : List UInt8}

theorem pad (h : Alike s f) : s.pad = f.pad := pad_congr h.offset

theorem convert (h : Alike s f) (word : List UInt8) : s.convert word = f.convert word := by
  rw [StreamIn.convert, StreamIn.convert, h.conv]

theorem setLastErr (h : Alike s f) (err : Int) : Alike (s.setLastErr err) (f.setLastErr err) :=
  { h with lastErr := rfl }

theorem moved (h : Alike s f) (hs : Moved s skipped taken lost s')
    (hf : Moved f skipped' taken' lost' f') (hskipped : skipped.length = skipped'.length)
    (htaken : taken.length = taken'.length) (hlast : s'.lastErr = f'.lastErr) :
    taken = taken' ∧ Alike s' f' := by
  obtain rfl : lost = [] := hs.kept h.whole
  obtain rfl : lost' = [] := hf.kept h.whole'
  have hbytes : skipped ++ taken ++ s'.pending = skipped' ++ taken' ++ f'.pending := by
    simpa using hs.pending.symm.trans (h.pending.trans hf.pending)
  obtain ⟨hboth, hrest⟩ := List.append_inj hbytes (by simp [hskipped, htaken])
  obtain ⟨rfl, rfl⟩ := List.append_inj hboth hskipped
  refine ⟨rfl, hrest, ?_, ?_, ?_, ?_, ?_, hlast, ?_, ?_⟩
  · rw [hs.offset, hf.offset, h.offset]
  · rw [hs.conv, hf.conv, h.conv]
  · rw [hs.checksum, hf.checksum, h.checksum]
  · rw [hs.crc, hf.crc, h.crc]
  · rw [hs.cmdIndex, hf.cmdIndex, h.cmdIndex]
  · rw [hs.broken, h.whole]
  · rw [hf.broken, h.whole']

theorem length_pending (hs : Moved s skipped taken lost s') (h : s.broken = false) :
    s.pending.length = skipped.length + taken.length + s'.pending.length := by
  obtain rfl := hs.kept h
  rw [hs.pending]
  simp
  omega

end Alike

/-! ## Buffered input -/

variable {s f : StreamIn}

theorem readByte_agree (h : Alike s f) : Agree s.readByte f.readByte := by
  obtain ⟨r, s', hs, hsread⟩ := s.readByte_spec
  obtain ⟨r', f', hf, hfread⟩ := f.readByte_spec
  rw [hs, hf]
  have hlength := congrArg List.length h.pending
  cases hsread with
  | ok hlast hmoved =>
    cases hfread with
    | ok hlast' hmoved' =>
      obtain ⟨hb, halike⟩ := h.moved hmoved hmoved' rfl rfl (by rw [hlast, hlast', h.lastErr])
      cases hb
      exact Agree.answered halike
    | error _ _ hmoved' hpending' _ =>
      have hsome := Alike.length_pending hmoved h.whole
      have hnone := Alike.length_pending hmoved' h.whole'
      simp only [List.length_nil, List.length_cons, hpending'] at hsome hnone
      omega
  | error _ hlast hmoved hpending heof =>
    cases hfread with
    | ok _ hmoved' =>
      have hnone := Alike.length_pending hmoved h.whole
      have hsome := Alike.length_pending hmoved' h.whole'
      simp only [List.length_nil, List.length_cons, hpending] at hsome hnone
      omega
    | error _ hlast' hmoved' _ heof' =>
      obtain rfl := heof h.whole
      obtain rfl := heof' h.whole'
      exact Agree.answered (h.moved hmoved hmoved' rfl rfl (by rw [hlast, hlast'])).2

/-- The two streams do not end before the last byte of a word that some chunks do have. -/
theorem readWord_agree {len : Nat} {least : Int} {r r' : Except Int Nat} {s' f' : StreamIn}
    (h : Alike s f) (hclear : f.pending.length = 0 ∨ least < f.pending.length)
    (hsread : WordRead len least s r s') (hfread : WordRead len least f r' f') :
    Agree (some (r, s')) (some (r', f')) := by
  have hlength := congrArg List.length h.pending
  cases hsread with
  | ok hbs hlast hmoved =>
    cases hfread with
    | ok hbs' hlast' hmoved' =>
      obtain ⟨rfl, halike⟩ := h.moved hmoved hmoved' rfl (by rw [hbs, hbs'])
        (by rw [hlast, hlast', h.lastErr])
      rw [h.convert]
      exact Agree.answered halike
    | error _ _ _ heof =>
      have hsome := Alike.length_pending hmoved h.whole
      obtain ⟨_, hshort⟩ := heof h.whole'
      simp only [List.length_nil] at hsome
      omega
    | partly hpos hle hrv => omega
  | error _ hlast hmoved heof =>
    obtain ⟨rfl, hshort⟩ := heof h.whole
    cases hfread with
    | ok hbs' _ hmoved' =>
      have hsome := Alike.length_pending hmoved' h.whole'
      simp only [List.length_nil] at hsome
      omega
    | error _ hlast' hmoved' heof' =>
      obtain ⟨rfl, _⟩ := heof' h.whole'
      exact Agree.answered (h.moved hmoved hmoved' rfl rfl (by rw [hlast, hlast'])).2
    | partly hpos hle hrv => omega
  | partly hpos hle hrv => omega

theorem readInt32_agree (h : Alike s f) : Agree s.readInt32 f.readInt32 := by
  obtain ⟨r, s', hs, hsread⟩ := s.readInt32_spec
  obtain ⟨r', f', hf, hfread⟩ := f.readInt32_spec
  rw [hs, hf]
  exact readWord_agree h (by omega) hsread hfread

theorem readInt16_agree (h : Alike s f) (hclear : f.pending.length = 0 ∨ 2 < f.pending.length) :
    Agree s.readInt16 f.readInt16 := by
  obtain ⟨r, s', hs, hsread⟩ := s.readInt16_spec
  obtain ⟨r', f', hf, hfread⟩ := f.readInt16_spec
  rw [hs, hf]
  exact readWord_agree h (by omega) hsread hfread

theorem BlockRead.length_le {size : Int} {r : Except Int (List UInt8)} {s' : StreamIn}
    (h : BlockRead size s r s') (hs : s.broken = false) : 0 ≤ size ∨ s.pending = [] := by
  cases h with
  | ok hbs => exact Or.inl (by omega)
  | error _ hshort hpending _ hmoved =>
    rcases hshort with hshort | ⟨_, rfl⟩
    · exact Or.inl (by omega)
    · apply Or.inr
      have hlength := Alike.length_pending hmoved hs
      rw [hpending] at hlength
      exact List.length_eq_zero_iff.mp hlength

theorem read_agree (h : Alike s f) (size : Int) : Agree (s.read size) (f.read size) := by
  have hlength := congrArg List.length h.pending
  rcases s.read_spec size with ⟨hneg, hne, hs⟩ | ⟨r, s', hs, hsread⟩
  · rcases f.read_spec size with ⟨_, _, hf⟩ | ⟨r', f', hf, hfread⟩
    · rw [hs, hf]
      exact Agree.aborted
    · rcases hfread.length_le h.whole' with hpos | hnil
      · omega
      · exact absurd (h.pending.trans hnil) hne
  · rcases f.read_spec size with ⟨hneg, hne, hf⟩ | ⟨r', f', hf, hfread⟩
    · rcases hsread.length_le h.whole with hpos | hnil
      · omega
      · exact absurd (h.pending.symm.trans hnil) hne
    · rw [hs, hf]
      cases hsread with
      | ok hbs hlast hmoved =>
        have hsome := Alike.length_pending hmoved h.whole
        cases hfread with
        | ok hbs' hlast' hmoved' =>
          obtain ⟨rfl, halike⟩ := h.moved hmoved hmoved' rfl (by omega)
            (by rw [hlast, hlast', h.lastErr])
          exact Agree.answered halike
        | error _ hshort hpending' _ hmoved' =>
          have hnone := Alike.length_pending hmoved' h.whole'
          simp only [List.length_nil, hpending'] at hsome hnone
          omega
      | error _ hshort hpending hlast hmoved heof =>
        have hnone := Alike.length_pending hmoved h.whole
        cases hfread with
        | ok hbs' _ hmoved' =>
          have hsome := Alike.length_pending hmoved' h.whole'
          simp only [List.length_nil, hpending] at hsome hnone
          omega
        | error _ hshort' hpending' hlast' hmoved' heof' =>
          have hnone' := Alike.length_pending hmoved' h.whole'
          simp only [List.length_nil, hpending, hpending'] at hnone hnone'
          obtain rfl := heof h.whole
          obtain rfl := heof' h.whole'
          exact Agree.answered (h.moved hmoved hmoved' rfl (by omega)
            (by rw [hlast, hlast', h.lastErr])).2

theorem readAlign4_agree (h : Alike s f) (hclear : f.pending.length = 0 ∨ f.pad <
    f.pending.length) :
    Agree s.readAlign4 f.readAlign4 := by
  have hlength := congrArg List.length h.pending
  have hpad := h.pad
  rcases s.readAlign4_spec with ⟨hpos, hlt, _⟩ | ⟨r, s', hs, hsread⟩
  · omega
  rcases f.readAlign4_spec with ⟨hpos, hlt, _⟩ | ⟨r', f', hf, hfread⟩
  · omega
  rw [hs, hf]
  cases hsread with
  | ok hskipped hbs hlast hmoved =>
    have hsome := Alike.length_pending hmoved h.whole
    cases hfread with
    | ok hskipped' hbs' hlast' hmoved' =>
      obtain ⟨rfl, halike⟩ := h.moved hmoved hmoved' (by omega) (by omega)
        (by rw [hlast, hlast', h.lastErr])
      exact Agree.answered halike
    | behind _ _ hshort => omega
    | before _ hshort _ _ heof =>
      obtain ⟨_, hle⟩ := heof h.whole'
      omega
  | behind _ hskipped hshort hlast hmoved heof =>
    have hnone := Alike.length_pending hmoved h.whole
    obtain rfl := heof h.whole
    cases hfread with
    | ok _ _ _ hmoved' =>
      have hsome := Alike.length_pending hmoved' h.whole'
      omega
    | behind _ hskipped' _ hlast' hmoved' heof' =>
      obtain rfl := heof' h.whole'
      exact Agree.answered (h.moved hmoved hmoved' (by omega) rfl
        (by rw [hlast, hlast', h.lastErr])).2
    | before _ _ hlast' hmoved' heof' =>
      obtain ⟨rfl, hle⟩ := heof' h.whole'
      refine Agree.answered (h.moved hmoved hmoved' ?_ rfl (by rw [hlast, hlast', h.lastErr])).2
      rw [List.length_nil]
      omega
  | before _ _ hlast hmoved heof =>
    obtain ⟨rfl, hle⟩ := heof h.whole
    cases hfread with
    | ok hskipped' hbs' _ hmoved' =>
      have hsome := Alike.length_pending hmoved' h.whole'
      omega
    | behind _ hskipped' _ hlast' hmoved' heof' =>
      have hnone := Alike.length_pending hmoved' h.whole'
      obtain rfl := heof' h.whole'
      refine Agree.answered (h.moved hmoved hmoved' ?_ rfl (by rw [hlast, hlast', h.lastErr])).2
      rw [List.length_nil]
      omega
    | before _ _ hlast' hmoved' heof' =>
      obtain ⟨rfl, _⟩ := heof' h.whole'
      exact Agree.answered (h.moved hmoved hmoved' rfl rfl (by rw [hlast, hlast', h.lastErr])).2

/-! ## Arguments -/

theorem Agree.setValue {α : Type} {x y : Option (Except Int α × StreamIn)} {arg : ArgumentIn}
    {g k : α → ArgValue} (h : Agree x y) (hgk : g = k) :
    Agree (setValue arg g x) (setValue arg k y) := by
  subst hgk
  cases h with
  | aborted => exact Agree.aborted
  | @answered a _ _ halike =>
    cases a with
    | error rv => exact Agree.answered halike
    | ok a => exact Agree.answered halike

theorem readBlock_agree (h : Alike s f) (alloc : Int → Bool) (extra : Int) :
    Agree (s.readBlock alloc extra) (f.readBlock alloc extra) := by
  rw [readBlock, readBlock]
  rcases (readInt32_agree h).elim with ⟨hs, hf⟩ | ⟨a, s', f', hs, hf, halike⟩
  · rw [hs, hf]
    exact Agree.aborted
  · rw [hs, hf]
    cases a with
    | error rv => exact Agree.answered halike
    | ok datasize =>
      simp only
      split
      · exact read_agree halike _
      · exact Agree.answered halike

/-- The stream does not end within the two bytes of a `TGF_INT16`. -/
def ValueClear (s : StreamIn) (type : Nat) : Prop :=
  ArgType.ofCode type = some .int16 → s.pending.length = 0 ∨ 2 < s.pending.length

theorem readValue_agree (h : Alike s f) (alloc : Int → Bool) (arg : ArgumentIn)
    (hclear : f.ValueClear arg.type) : Agree (s.readValue alloc arg) (f.readValue alloc arg) := by
  rw [readValue, readValue]
  split
  case h_1 => exact (readInt32_agree h).setValue rfl
  case h_2 => exact Agree.answered h
  case h_3 =>
    apply (read_agree h 8).setValue
    funext bytes
    rw [h.convert]
  case h_4 => exact (readBlock_agree h alloc 1).setValue rfl
  case h_5 => exact (readBlock_agree h alloc 0).setValue rfl
  case h_6 => exact (readByte_agree h).setValue rfl
  case h_7 htype => exact (readInt16_agree h (hclear htype)).setValue rfl
  case h_8 => exact (readBlock_agree h alloc 1).setValue rfl
  case h_9 => exact Agree.answered h

def WordClear (s : StreamIn) : Prop := s.pending.length = 0 ∨ s.pad < s.pending.length

instance (s : StreamIn) : Decidable s.WordClear := inferInstanceAs (Decidable (_ ∨ _))

def ArgumentClear (s : StreamIn) : Prop :=
  s.WordClear ∧ ∀ type s', s.readAlign4 = some (.ok type, s') → s'.ValueClear (s'.convert type)

theorem readArgument_agree (h : Alike s f) (alloc : Int → Bool) (arg : ArgumentIn)
    (hclear : f.ArgumentClear) : Agree (s.readArgument alloc arg) (f.readArgument alloc arg) := by
  obtain ⟨hword, hvalue⟩ := hclear
  rw [readArgument, readArgument]
  rcases (readAlign4_agree h hword).elim with ⟨hs, hf⟩ | ⟨a, s', f', hs, hf, halike⟩
  · rw [hs, hf]
    exact Agree.aborted
  · rw [hs, hf]
    cases a with
    | error rv => exact Agree.answered halike
    | ok type =>
      simp only
      rw [halike.convert]
      exact readValue_agree halike alloc _ (hvalue type f' hf)

def ArgumentsClear (mem : Allocation) : Nat → Nat → StreamIn → Prop
  | _, 0, _ => True
  | i, cnt + 1, s => s.ArgumentClear ∧
      ∀ rv arg s', s.readArgument (mem.block i) ⟨mem.types i, none⟩ = some ((rv, arg), s') →
        0 ≤ rv → ArgumentsClear mem (i + 1) cnt s'

theorem readArguments_agree (mem : Allocation) {i cnt : Nat} (h : Alike s f)
    (hclear : ArgumentsClear mem i cnt f) :
    Agree (readArguments mem i cnt s) (readArguments mem i cnt f) := by
  induction cnt generalizing i s f with
  | zero => exact Agree.answered h
  | succ cnt ih =>
    obtain ⟨hfirst, hrest⟩ := hclear
    rw [readArguments, readArguments]
    rcases (readArgument_agree h (mem.block i) ⟨mem.types i, none⟩ hfirst).elim with
      ⟨hs, hf⟩ | ⟨⟨rv, arg⟩, s', f', hs, hf, halike⟩
    · rw [hs, hf]
      exact Agree.aborted
    · rw [hs, hf]
      simp only
      split
      case isTrue => exact Agree.answered halike
      case isFalse hrv =>
        rcases (ih halike (hrest rv arg f' hf (not_lt.mp hrv))).elim with
          ⟨hs', hf'⟩ | ⟨args, s'', f'', hs', hf', halike'⟩
        · rw [hs', hf']
          exact Agree.aborted
        · rw [hs', hf']
          exact Agree.answered halike'

/-! ## Commands -/

theorem readChecksum_agree (h : Alike s f) :
    (s.readChecksum = none ∧ f.readChecksum = none) ∨
      ∃ s' f', s.readChecksum = some s' ∧ f.readChecksum = some f' ∧ Alike s' f' := by
  rw [readChecksum, readChecksum, h.checksum]
  split
  · rcases (readByte_agree h).elim with ⟨hs, hf⟩ | ⟨a, s', f', hs, hf, halike⟩
    · exact Or.inl ⟨by rw [hs]; rfl, by rw [hf]; rfl⟩
    · exact Or.inr ⟨s', f', by rw [hs]; rfl, by rw [hf]; rfl, halike⟩
  · exact Or.inr ⟨s, f, rfl, rfl, h⟩

theorem Alike.endCommand (h : Alike s f) : Alike s.endCommand f.endCommand := by
  have hnext : Alike { s with cmdIndex := s.cmdIndex + 1 } { f with cmdIndex := f.cmdIndex + 1 } :=
    { h with cmdIndex := by rw [h.cmdIndex] }
  have hlast : s.lastErr < 0 ↔ f.lastErr < 0 := by rw [h.lastErr]
  have hcrc : (s.crc ≠ 0 ∧ s.checksum) ↔ (f.crc ≠ 0 ∧ f.checksum) := by rw [h.crc, h.checksum]
  simp only [StreamIn.endCommand]
  by_cases hfail : f.lastErr < 0
  · rw [if_pos hfail, if_pos (hlast.mpr hfail)]
    exact hnext
  · rw [if_neg hfail, if_neg (mt hlast.mp hfail)]
    by_cases hsum : f.crc ≠ 0 ∧ f.checksum
    · rw [if_pos hsum, if_pos (hcrc.mpr hsum)]
      exact hnext.setLastErr eTgfInvcrc
    · rw [if_neg hsum, if_neg (mt hcrc.mp hsum)]
      exact hnext

theorem readCommandArguments_agree (mem : Allocation) {argCnt : Nat} (h : Alike s f)
    (hclear : ArgumentsClear mem 0 argCnt (f.setLastErr 0)) :
    Agree (s.readCommandArguments mem argCnt) (f.readCommandArguments mem argCnt) := by
  rw [readCommandArguments, readCommandArguments]
  rcases (readArguments_agree mem (h.setLastErr 0) hclear).elim with
    ⟨hs, hf⟩ | ⟨args, s', f', hs, hf, halike⟩
  · rw [hs, hf]
    exact Agree.aborted
  · rw [hs, hf]
    simp only
    rcases readChecksum_agree halike with ⟨hs', hf'⟩ | ⟨s'', f'', hs', hf', halike'⟩
    · rw [hs', hf']
      exact Agree.aborted
    · rw [hs', hf']
      exact Agree.answered halike'.endCommand

def CommandClear (mem : Allocation) (s : StreamIn) : Prop :=
  s.WordClear ∧ ∀ type argCnt s', s.readCommandHdr = some (.ok (type, argCnt), s') →
    mem.command → ArgumentsClear mem 0 argCnt (s'.setLastErr 0)

theorem readCommandHdr_agree (h : Alike s f) (hclear : f.WordClear) :
    Agree s.readCommandHdr f.readCommandHdr := by
  have hzero : Alike { s with crc := 0 } { f with crc := 0 } := { h with crc := rfl }
  rw [readCommandHdr, readCommandHdr]
  rcases (readAlign4_agree hzero hclear).elim with ⟨hs, hf⟩ | ⟨a, s', f', hs, hf, halike⟩
  · rw [hs, hf]
    exact Agree.aborted
  · rw [hs, hf]
    cases a with
    | error rv => exact Agree.answered halike
    | ok hdr =>
      simp only
      rw [halike.convert, halike.convert]
      split
      · exact Agree.answered halike
      · exact Agree.answered halike

theorem readCommand_agree (mem : Allocation) (h : Alike s f) (hclear : f.CommandClear mem) :
    Agree (s.readCommand mem) (f.readCommand mem) := by
  obtain ⟨hword, hargs⟩ := hclear
  rw [readCommand, readCommand]
  rcases (readCommandHdr_agree h hword).elim with ⟨hs, hf⟩ | ⟨a, s', f', hs, hf, halike⟩
  · rw [hs, hf]
    exact Agree.aborted
  rw [hs, hf]
  cases a with
  | error rv => exact Agree.answered halike
  | ok hdr =>
    obtain ⟨type, argCnt⟩ := hdr
    simp only
    by_cases hmem : mem.command = true
    · rw [if_neg (not_not.mpr hmem), if_neg (not_not.mpr hmem)]
      rcases (readCommandArguments_agree mem halike (hargs type argCnt f' hf hmem)).elim with
        ⟨hs', hf'⟩ | ⟨args, s'', f'', hs', hf', halike'⟩
      · rw [hs', hf']
        exact Agree.aborted
      · rw [hs', hf']
        simp only
        rw [halike'.lastErr]
        split
        · exact Agree.answered halike'
        · split
          · exact Agree.answered halike'
          · exact Agree.answered halike'
    · rw [if_pos hmem, if_pos hmem]
      exact Agree.answered halike

/-! ## Runs -/

/-- What calls of `tgf_read_command` give, one after the other. After nothing there is no
other call. -/
def readCommands : (Nat → Allocation) → Nat → StreamIn → List (Option (Except Int CommandIn))
  | _, 0, _ => []
  | mem, n + 1, s =>
      match s.readCommand (mem 0) with
      | none => [none]
      | some (answer, s) => some answer :: readCommands (fun k => mem (k + 1)) n s

def RunClear : (Nat → Allocation) → Nat → StreamIn → Prop
  | _, 0, _ => True
  | mem, n + 1, s => s.CommandClear (mem 0) ∧
      ∀ answer s', s.readCommand (mem 0) = some (answer, s') →
        RunClear (fun k => mem (k + 1)) n s'

theorem readCommands_alike {mem : Nat → Allocation} {n : Nat} (h : Alike s f)
    (hclear : RunClear mem n f) : readCommands mem n s = readCommands mem n f := by
  induction n generalizing mem s f with
  | zero => rfl
  | succ n ih =>
    obtain ⟨hfirst, hrest⟩ := hclear
    rw [readCommands, readCommands]
    rcases (readCommand_agree (mem 0) h hfirst).elim with
      ⟨hs, hf⟩ | ⟨answer, s', f', hs, hf, halike⟩
    · rw [hs, hf]
    · rw [hs, hf]
      simp only
      rw [ih halike (hrest answer f' hf)]

end StreamIn

/-- A run gives what it gives with all its bytes in one buffer, when there the stream does not
end within a pad or within a `TGF_INT16`. -/
theorem chunks_agree (mem : Nat → Allocation) (n : Nat) (s : StreamIn) (hs : s.broken = false)
    (hclear : StreamIn.RunClear mem n s.oneBuffer) :
    s.readCommands mem n = s.oneBuffer.readCommands mem n :=
  StreamIn.readCommands_alike (StreamIn.alike_oneBuffer hs) hclear

/-- A string in three chunks. -/
theorem chunks_agree_string :
    StreamIn.readCommands (fun _ => ⟨true, fun _ => 0, fun _ _ => true⟩) 1
        ⟨[], 0, some ⟨[⟨[6, 0, 1], nofun⟩, ⟨[0, 6, 0, 0, 0, 1], nofun⟩, ⟨[0, 0, 0, 65], nofun⟩],
          false⟩, false, false, 0, 0, 0⟩ =
      StreamIn.readCommands (fun _ => ⟨true, fun _ => 0, fun _ _ => true⟩) 1
        ⟨[6, 0, 1, 0, 6, 0, 0, 0, 1, 0, 0, 0, 65], 0, none, false, false, 0, 0, 0⟩ := by
  apply chunks_agree _ 1 _ rfl
  refine ⟨⟨by decide, ?_⟩, ?_⟩
  · rintro type argCnt s' hread -
    cases hread
    refine ⟨⟨by decide, ?_⟩, ?_⟩
    · intro type s' hread
      cases hread
      exact nofun
    · intro rv arg s' hread _
      cases hread
      trivial
  · intros
    trivial

/-- The two bytes of a `TGF_INT16` come in a chunk of their own at the end of the stream, and
the argument is not read. -/
theorem chunks_agree_fails :
    ¬ ∀ (mem : Nat → Allocation) (n : Nat) (s : StreamIn), s.broken = false →
      s.readCommands mem n = s.oneBuffer.readCommands mem n := by
  intro h
  have hsame := h (fun _ => ⟨true, fun _ => 0, fun _ _ => true⟩) 1
    ⟨[], 0, some ⟨[⟨[1, 0, 3, 0, 6, 0, 0, 0, 0, 0, 0, 0, 4, 0, 0, 0, 2, 0, 0, 0, 5, 0, 0, 0],
      nofun⟩,
      ⟨[7, 0], nofun⟩], false⟩, false, false, 0, 0, 0⟩ rfl
  cases hsame

end ScCore.Tgf
