import ScCore.Tgf.WriteStream
import ScCore.Tgf.Decoding

/-!
# Buffering of the output

What the writer makes of a buffer, a byte after the other: a full one is handed over before the
next byte is stored. The functions of the writer agree with this as long as words stand at
multiples of their lengths.
-/

namespace ScCore.Tgf

open Lib

namespace Output

def sent (o : Output) : List UInt8 := o.blocks.flatten ++ o.text

def put (o : Output) (b : UInt8) : Option Output :=
  if o.text.length < o.sink.size then some { o with text := o.text ++ [b] }
  else match o.sink with
    | .memory _ _ => none
    | .custom writeFn =>
        if writeFn (o.blocks ++ [o.text]) < o.text.length then none
        else some { o with blocks := o.blocks ++ [o.text], text := [b] }

def putAll (o : Output) (bytes : List UInt8) : Option Output := bytes.foldlM put o

structure Fits (o : Output) : Prop where
  text : o.text.length ≤ o.sink.size
  blocks : ∀ block ∈ o.blocks, block.length ≤ o.sink.size

def Phased (o : Output) : Prop := o.sent.length % 4 = o.text.length % 4

variable {o o' : Output} {b : UInt8} {bytes bytes' : List UInt8}

@[simp]
theorem putAll_nil (o : Output) : o.putAll [] = some o := rfl

@[simp]
theorem putAll_cons (o : Output) (b : UInt8) (bytes : List UInt8) :
    o.putAll (b :: bytes) = (o.put b).bind fun o => o.putAll bytes := List.foldlM_cons

theorem putAll_append (o : Output) (bytes bytes' : List UInt8) :
    o.putAll (bytes ++ bytes') = (o.putAll bytes).bind fun o => o.putAll bytes' :=
  List.foldlM_append

theorem put_room (b : UInt8) (h : o.text.length < o.sink.size) :
    o.put b = some { o with text := o.text ++ [b] } := if_pos h

theorem putAll_room (h : o.text.length + bytes.length ≤ o.sink.size) :
    o.putAll bytes = some { o with text := o.text ++ bytes } := by
  induction bytes generalizing o with
  | nil => simp
  | cons b bytes ih =>
    rw [List.length_cons] at h
    have rest : ({ o with text := o.text ++ [b] } : Output).putAll bytes =
        some { o with text := o.text ++ [b] ++ bytes } := ih (by
      show (o.text ++ [b]).length + bytes.length ≤ o.sink.size
      rw [List.length_append, List.length_singleton]
      omega)
    rw [putAll_cons, put_room b (by omega), Option.bind_some, rest, List.append_assoc,
      List.singleton_append]

theorem put_sink (h : o.put b = some o') : o'.sink = o.sink := by
  unfold put at h
  split at h
  · cases h
    rfl
  · split at h
    · cases h
    · split at h <;> cases h
      rfl

theorem put_sent (h : o.put b = some o') : o'.sent = o.sent ++ [b] := by
  unfold put at h
  split at h
  · cases h
    simp [sent]
  · split at h
    · cases h
    · split at h <;> cases h
      simp [sent]

theorem Fits.put (hf : o.Fits) (h : o.put b = some o') : o'.Fits := by
  have hsink := put_sink h
  unfold Output.put at h
  split at h
  · cases h
    refine ⟨?_, hf.blocks⟩
    show (o.text ++ [b]).length ≤ o.sink.size
    rw [List.length_append, List.length_singleton]
    omega
  · split at h
    · cases h
    · rename_i writeFn hcustom
      split at h <;> cases h
      constructor
      · show 1 ≤ o.sink.size
        rw [hcustom]
        simp [Sink.size, tgfWriteBufsize]
      · intro block hblock
        rw [List.mem_append, List.mem_singleton] at hblock
        obtain hblock | rfl := hblock
        · exact hf.blocks block hblock
        · exact hf.text

theorem Phased.put (hp : o.Phased) (hf : o.Fits) (h : o.put b = some o') : o'.Phased := by
  rw [Phased, put_sent h, List.length_append, List.length_singleton]
  rw [Phased] at hp
  unfold Output.put at h
  split at h
  · cases h
    show _ = (o.text ++ [b]).length % 4
    rw [List.length_append, List.length_singleton]
    omega
  · have full : o.text.length = o.sink.size := by
      have := hf.text
      omega
    have aligned := o.sink.size_mod
    split at h
    · cases h
    · split at h <;> cases h
      show _ = 1 % 4
      omega

theorem putAll_sink (h : o.putAll bytes = some o') : o'.sink = o.sink := by
  induction bytes generalizing o with
  | nil =>
    cases h
    rfl
  | cons b bytes ih =>
    obtain ⟨o₁, hput, hrest⟩ := Option.bind_eq_some_iff.mp (putAll_cons o b bytes ▸ h)
    exact (ih hrest).trans (put_sink hput)

theorem putAll_sent (h : o.putAll bytes = some o') : o'.sent = o.sent ++ bytes := by
  induction bytes generalizing o with
  | nil =>
    cases h
    rw [List.append_nil]
  | cons b bytes ih =>
    obtain ⟨o₁, hput, hrest⟩ := Option.bind_eq_some_iff.mp (putAll_cons o b bytes ▸ h)
    rw [ih hrest, put_sent hput, List.append_assoc, List.singleton_append]

theorem Fits.putAll (hf : o.Fits) (h : o.putAll bytes = some o') : o'.Fits := by
  induction bytes generalizing o with
  | nil =>
    cases h
    exact hf
  | cons b bytes ih =>
    obtain ⟨o₁, hput, hrest⟩ := Option.bind_eq_some_iff.mp (putAll_cons o b bytes ▸ h)
    exact ih (hf.put hput) hrest

theorem Phased.putAll (hp : o.Phased) (hf : o.Fits) (h : o.putAll bytes = some o') :
    o'.Phased := by
  induction bytes generalizing o with
  | nil =>
    cases h
    exact hp
  | cons b bytes ih =>
    obtain ⟨o₁, hput, hrest⟩ := Option.bind_eq_some_iff.mp (putAll_cons o b bytes ▸ h)
    exact ih (hp.put hf hput) (hf.put hput) hrest

def turn (o : Output) : Option Output :=
  match o.sink with
  | .memory _ _ => none
  | .custom writeFn =>
      if writeFn (o.blocks ++ [o.text]) < o.text.length then none
      else some { o with blocks := o.blocks ++ [o.text], text := [] }

theorem putAll_full (full : o.sink.size ≤ o.text.length) (nonempty : bytes ≠ []) :
    o.putAll bytes = o.turn.bind fun o => o.putAll bytes := by
  obtain ⟨b, bytes, rfl⟩ := List.exists_cons_of_ne_nil nonempty
  have first : o.put b = o.turn.bind fun o => o.put b := by
    rw [put, if_neg (by omega), turn]
    cases hsink : o.sink with
    | memory => rfl
    | custom writeFn =>
      dsimp only
      split
      · rfl
      · rw [Option.bind_some, put_room]
        · rw [List.nil_append]
        · simp [Sink.size, tgfWriteBufsize]
  rw [putAll_cons, first, Option.bind_assoc]
  rfl

structure Turned (o o' : Output) : Prop where
  text : o'.text = []
  sink : o'.sink = o.sink
  sent : o'.sent = o.sent
  room : 4 ≤ o'.sink.size

theorem turned_of_turn (h : o.turn = some o') : Turned o o' := by
  unfold turn at h
  split at h
  · cases h
  · rename_i writeFn hsink
    split at h <;> cases h
    refine ⟨rfl, rfl, by simp [sent], ?_⟩
    show 4 ≤ o.sink.size
    rw [hsink]
    simp [Sink.size, tgfWriteBufsize]

theorem Fits.turn (hf : o.Fits) (h : o.turn = some o') : o'.Fits := by
  unfold Output.turn at h
  split at h
  · cases h
  · split at h <;> cases h
    refine ⟨Nat.zero_le _, fun block hblock => ?_⟩
    rw [List.mem_append, List.mem_singleton] at hblock
    obtain hblock | rfl := hblock
    · exact hf.blocks block hblock
    · exact hf.text

end Output

namespace WriteStream

open Output

structure Keeps (s s' : WriteStream) : Prop where
  hash : s'.hash = s.hash
  cmdIndex : s'.cmdIndex = s.cmdIndex
  sink : s'.sink = s.sink

namespace Keeps

theorem refl (s : WriteStream) : Keeps s s := ⟨rfl, rfl, rfl⟩

variable {s s' s'' : WriteStream}

theorem trans (h : Keeps s s') (h' : Keeps s' s'') : Keeps s s'' :=
  ⟨h'.hash.trans h.hash, h'.cmdIndex.trans h.cmdIndex, h'.sink.trans h.sink⟩

end Keeps

inductive Outcome (s : WriteStream) (bytes : List UInt8) : Int × WriteStream → Prop where
  | written {rv : Int} {s' : WriteStream} : 0 ≤ rv →
      s.toOutput.putAll bytes = some s'.toOutput → (0 ≤ s.lastErr → 0 ≤ s'.lastErr) → Keeps s s' →
      Outcome s bytes (rv, s')
  | refused {rv : Int} {s' : WriteStream} : rv < 0 → s'.lastErr < 0 →
      s.toOutput.putAll bytes = none → s.sent <+: s'.sent → s'.Fits → Keeps s s' →
      Outcome s bytes (rv, s')

variable {s s' : WriteStream} {bytes : List UInt8}

def Stuck (s : WriteStream) : Prop :=
  match s.sink with
  | .memory _ _ => s.room = 0
  | .custom _ => s.text = []

theorem flush_full (fits : s.Fits) (full : s.room = 0) :
    ∃ rv s', s.flush = (rv, s') ∧ Keeps s s' ∧
      (0 < rv ∧ s.turn = some s'.toOutput ∧ 0 ≤ s'.lastErr ∨
        rv ≤ 0 ∧ s.turn = none ∧ s'.sent = s.sent ∧ s'.Fits ∧ s'.Stuck) := by
  have length : s.text.length = s.sink.size := by
    have := fits.text
    rw [room] at full
    omega
  cases hsink : s.sink with
  | memory size aligned =>
    refine ⟨0, s, by rw [flush, hsink], .refl s, .inr ⟨le_rfl, ?_, rfl, fits, ?_⟩⟩
    · rw [turn, hsink]
    · rw [Stuck, hsink]
      exact full
  | custom writeFn =>
    have pos : 0 < s.text.length := by
      rw [length, hsink]
      simp [Sink.size, tgfWriteBufsize]
    rw [flush, hsink]
    refine ⟨_, _, rfl, ⟨rfl, rfl, hsink.symm⟩, ?_⟩
    by_cases refused : writeFn (s.blocks ++ [s.text]) < s.text.length
    · right
      refine ⟨?_, ?_, ?_, ⟨Nat.zero_le _, fun block hblock => ?_⟩, ?_⟩
      · rw [if_pos refused]
        decide
      · simp [turn, hsink, refused]
      · simp [sent]
      · rw [List.mem_append, List.mem_singleton] at hblock
        rw [← hsink]
        obtain hblock | rfl := hblock
        · exact fits.blocks block hblock
        · exact length.le
      · simp [Stuck]
    · left
      rw [if_neg refused]
      refine ⟨by omega, ?_, ?_⟩
      · simp [turn, hsink, refused]
      · show 0 ≤ writeFn (s.blocks ++ [s.text])
        omega

theorem flushThen_full (fits : s.Fits) (full : s.room = 0)
    (next : WriteStream → Option (Int × WriteStream)) :
    (∃ s', s.flushThen next = next s' ∧ s.turn = some s'.toOutput ∧ 0 ≤ s'.lastErr ∧
        Keeps s s') ∨
      ∃ rv s', s.flushThen next = some (rv, s') ∧ rv < 0 ∧ s'.lastErr < 0 ∧ s.turn = none ∧
        s'.sent = s.sent ∧ s'.Fits ∧ Keeps s s' ∧ s'.Stuck := by
  obtain ⟨rv, s', hflush, keeps, ⟨hrv, hturn, hlast⟩ | ⟨hrv, hturn, hsent, hfits, hstuck⟩⟩ :=
    flush_full fits full
  · refine .inl ⟨s', ?_, hturn, hlast, keeps⟩
    simp [flushThen, streamFlush, hflush, hrv.not_gt, hrv.ne']
  · right
    have nospc : eTgfNospc < 0 := by decide
    have still (err : Int) : (s'.setLastErr err).Stuck := hstuck
    by_cases hzero : rv = 0
    · refine ⟨eTgfNospc, s'.setLastErr eTgfNospc, ?_, nospc, nospc, hturn, hsent, hfits,
        ⟨keeps.hash, keeps.cmdIndex, keeps.sink⟩, still _⟩
      simp [flushThen, streamFlush, hflush, hzero, eTgfNospc]
    · have hneg : rv < 0 := lt_of_le_of_ne hrv hzero
      refine ⟨rv, s'.setLastErr rv, ?_, hneg, hneg, hturn, hsent, hfits,
        ⟨keeps.hash, keeps.cmdIndex, keeps.sink⟩, still _⟩
      simp [flushThen, streamFlush, hflush, hneg]

theorem store_room (h : s.text.length + bytes.length ≤ s.sink.size) :
    ∃ s', s.store bytes = some s' ∧ s.toOutput.putAll bytes = some s'.toOutput ∧
      s'.lastErr = s.lastErr ∧ Keeps s s' ∧ s'.text = s.text ++ bytes :=
  ⟨{ s with text := s.text ++ bytes }, if_pos h, putAll_room h, rfl, ⟨rfl, rfl, rfl⟩, rfl⟩

variable {r : Int × WriteStream} {turns : Nat} {buf str : List UInt8}

theorem Outcome.of_turn (full : s.room = 0) (turn : s.turn = some s'.toOutput)
    (lastErr : 0 ≤ s'.lastErr) (keeps : Keeps s s') (nonempty : bytes ≠ [])
    (h : Outcome s' bytes r) : Outcome s bytes r := by
  have bytes_eq := putAll_full (Nat.sub_eq_zero_iff_le.mp full) nonempty
  rw [turn, Option.bind_some] at bytes_eq
  cases h with
  | written hrv hput hlast hkeeps =>
    exact .written hrv (bytes_eq.trans hput) (fun _ => hlast lastErr) (keeps.trans hkeeps)
  | refused hrv hlast hput hsent hfits hkeeps =>
    exact .refused hrv hlast (bytes_eq.trans hput) ((turned_of_turn turn).sent ▸ hsent) hfits
      (keeps.trans hkeeps)

theorem Outcome.after {bytes₁ bytes₂ : List UInt8}
    (put : s.toOutput.putAll bytes₁ = some s'.toOutput) (lastErr : 0 ≤ s.lastErr → 0 ≤ s'.lastErr)
    (keeps : Keeps s s') (h : Outcome s' bytes₂ r) : Outcome s (bytes₁ ++ bytes₂) r := by
  have both : s.toOutput.putAll (bytes₁ ++ bytes₂) = s'.toOutput.putAll bytes₂ := by
    rw [putAll_append, put, Option.bind_some]
  cases h with
  | written hrv hput hlast hkeeps =>
    exact .written hrv (both.trans hput) (hlast ∘ lastErr) (keeps.trans hkeeps)
  | refused hrv hlast hput hsent hfits hkeeps =>
    refine .refused hrv hlast (both.trans hput) (List.IsPrefix.trans ?_ hsent) hfits
      (keeps.trans hkeeps)
    rw [putAll_sent put]
    exact List.prefix_append ..

theorem writeWord_spec (word : List UInt8) (fits : s.Fits)
    (aligned : s.text.length % word.length = 0) (even : word.length ∣ 4) :
    ∃ r, s.writeWord word = some r ∧ Outcome s word r ∧
      (r.1 < 0 → r.2.sent = s.sent ∧ r.2.Stuck) ∧ (0 ≤ r.1 → r.1 = 0) := by
  have pos : 0 < word.length := Nat.pos_of_dvd_of_pos even (by decide)
  have nonempty : word ≠ [] := List.ne_nil_of_length_pos pos
  have whole : word.length ∣ s.sink.size - s.text.length :=
    Nat.dvd_sub (even.trans (Nat.dvd_of_mod_eq_zero s.sink.size_mod))
      (Nat.dvd_of_mod_eq_zero aligned)
  have stored (t : WriteStream) (h : t.text.length + word.length ≤ t.sink.size) :
      ∃ r, (t.store word).map (fun t => ((0 : Int), t)) = some r ∧ Outcome t word r ∧
        (r.1 < 0 → r.2.sent = t.sent ∧ r.2.Stuck) ∧ (0 ≤ r.1 → r.1 = 0) := by
    obtain ⟨t', hstore, hput, hlast, hkeeps, -⟩ := store_room h
    rw [hstore]
    refine ⟨(0, t'), rfl, .written le_rfl hput (fun h => hlast ▸ h) hkeeps, ?_, fun _ => rfl⟩
    intro h
    cases h
  rw [writeWord]
  dsimp only
  split
  · rename_i short
    -- the room is a multiple of the length of the word
    have full : s.room = 0 := Nat.eq_zero_of_dvd_of_lt whole short
    obtain ⟨s', hflush, hturn, hlast, hkeeps⟩ | ⟨rv, s', hflush, hrv, hlast, hturn, hsent, hfits,
      hkeeps, hstuck⟩ := flushThen_full fits full (fun s => (s.store word).map fun s => (0, s))
    · have turned := turned_of_turn hturn
      have room : s'.text.length + word.length ≤ s'.sink.size := by
        rw [turned.text, List.length_nil, Nat.zero_add]
        exact (Nat.le_of_dvd (by decide) even).trans turned.room
      obtain ⟨r, hr, hout, hneg, hzero⟩ := stored s' room
      exact ⟨r, hflush.trans hr, hout.of_turn full hturn hlast hkeeps nonempty,
        fun h => ⟨(hneg h).1.trans turned.sent, (hneg h).2⟩, hzero⟩
    · refine ⟨(rv, s'), hflush, .refused hrv hlast ?_ ?_ hfits hkeeps, fun _ => ⟨hsent, hstuck⟩, ?_⟩
      · rw [putAll_full (Nat.sub_eq_zero_iff_le.mp full) nonempty, hturn, Option.bind_none]
      · rw [hsent]
      · intro h
        omega
  · exact stored s (by rw [room] at *; omega)

theorem writeLoop_spec (fits : s.Fits) (nonempty : buf ≠ [])
    (enough : buf.length + (if s.room = 0 then 2 else 1) ≤ turns) :
    ∃ r, writeLoop turns s buf buf.length = some r ∧ Outcome s buf r := by
  induction turns generalizing s buf with
  | zero =>
    split at enough <;> omega
  | succ turns ih =>
    have pos : 0 < buf.length := List.length_pos_iff.mpr nonempty
    rw [writeLoop, if_neg (by omega), Int.toNat_natCast]
    obtain ⟨t, ht⟩ : ∃ t, t = min s.room buf.length := ⟨_, rfl⟩
    have taken : (buf.take t).length = t := by
      rw [List.length_take]
      omega
    obtain ⟨s₁, hs₁⟩ : ∃ s₁, s₁ = { s with text := s.text ++ buf.take t } := ⟨_, rfl⟩
    have room : s.text.length + (buf.take t).length ≤ s.sink.size := by
      have := fits.text
      rw [WriteStream.room] at ht
      omega
    have put₁ : s.toOutput.putAll (buf.take t) = some s₁.toOutput := by
      rw [putAll_room room, hs₁]
    have keeps₁ : Keeps s s₁ := by
      rw [hs₁]
      exact ⟨rfl, rfl, rfl⟩
    have last₁ : s₁.lastErr = s.lastErr := by rw [hs₁]
    have parts : buf.take t ++ buf.drop t = buf := List.take_append_drop t buf
    dsimp only
    rw [← ht, ← hs₁]
    by_cases done : t = buf.length
    · rw [if_pos (by omega)]
      rw [done, List.take_length] at put₁
      exact ⟨_, rfl, .written (by omega) put₁ (fun h => last₁ ▸ h) keeps₁⟩
    · have left : buf.drop t ≠ [] := by
        rw [← List.length_pos_iff, List.length_drop]
        omega
      have full : s₁.room = 0 := by
        rw [hs₁]
        show s.sink.size - (s.text ++ buf.take t).length = 0
        rw [WriteStream.room] at ht
        rw [List.length_append, taken]
        omega
      have whole : s₁.sink.size ≤ s₁.text.length := Nat.sub_eq_zero_iff_le.mp full
      have size_eq : (buf.length : Int) - t = (buf.drop t).length := by
        rw [List.length_drop]
        omega
      have fits₁ : s₁.Fits := fits.putAll put₁
      have after {r : Int × WriteStream} (h : Outcome s₁ (buf.drop t) r) : Outcome s buf r := by
        have both := h.after put₁ (fun h => last₁ ▸ h) keeps₁
        rwa [parts] at both
      have refused {s₂ : WriteStream} (rv : Int) (hrv : rv < 0) (hturn : s₁.turn = none)
          (sent : s₂.sent = s₁.sent) (fits₂ : s₂.Fits) (keeps₂ : Keeps s₁ s₂) :
          Outcome s₁ (buf.drop t) (rv, s₂.setLastErr rv) := by
        refine .refused hrv hrv ?_ ?_ fits₂ ⟨keeps₂.hash, keeps₂.cmdIndex, keeps₂.sink⟩
        · rw [putAll_full whole left, hturn, Option.bind_none]
        · show s₁.sent <+: s₂.sent
          rw [sent]
      rw [if_neg (by omega), size_eq]
      cases hsink : s.sink with
      | memory size aligned =>
        have hturn : s₁.turn = none := by rw [turn, keeps₁.sink, hsink]
        exact ⟨_, rfl, after (refused eTgfNospc (by decide) hturn rfl fits₁ (.refl s₁))⟩
      | custom writeFn =>
        obtain ⟨rv, s₂, hflush, keeps₂, ⟨hrv, hturn, hlast⟩ | ⟨hrv, hturn, hsent, hfits, -⟩⟩ :=
          flush_full fits₁ full
        · have turned := turned_of_turn hturn
          have more : s₂.room ≠ 0 := by
            rw [WriteStream.room, turned.text, List.length_nil]
            have := turned.room
            omega
          obtain ⟨r, hr, hout⟩ := ih (fits₁.turn hturn) left (by
            rw [if_neg more, List.length_drop]
            split at enough <;> omega)
          refine ⟨r, ?_, after (hout.of_turn full hturn hlast keeps₂ left)⟩
          simp only [hflush, if_pos hrv, hr]
        · refine ⟨_, ?_, after (refused eTgfIo (by decide) hturn hsent hfits keeps₂)⟩
          simp only [hflush, if_neg (not_lt.mpr hrv)]

theorem write_spec (fits : s.Fits) (buf : List UInt8) :
    ∃ r, s.write buf buf.length = some r ∧ Outcome s buf r := by
  rw [write]
  split
  · rename_i zero
    have empty : buf = [] := List.length_eq_zero_iff.mp (Int.natCast_eq_zero.mp zero)
    rw [empty]
    exact ⟨_, rfl, .written le_rfl rfl (fun _ => le_rfl) ⟨rfl, rfl, rfl⟩⟩
  · rename_i pos
    have nonempty : buf ≠ [] := by
      rintro rfl
      exact pos rfl
    rw [Int.toNat_natCast]
    exact writeLoop_spec fits nonempty (by split <;> omega)

theorem allign4_spec (fits : s.Fits) :
    ∃ s', s.allign4 = some s' ∧
      s.toOutput.putAll (List.replicate (padAt s.text.length) 0) = some s'.toOutput ∧
      s'.lastErr = s.lastErr ∧ Keeps s s' ∧ s'.text.length % 4 = 0 := by
  have room : s.text.length +
      (List.replicate ((4 - s.text.length % 4) % 4) (0 : UInt8)).length ≤ s.sink.size := by
    have text := fits.text
    have aligned := s.sink.size_mod
    rw [List.length_replicate]
    omega
  obtain ⟨s', hstore, hput, hlast, hkeeps, htext⟩ := store_room room
  refine ⟨s', hstore, hput, hlast, hkeeps, ?_⟩
  rw [htext, List.length_append, List.length_replicate]
  omega

theorem allign4Loop_spec (fits : s.Fits) (aligned : s.text.length % 4 = 0)
    (words : 4 ∣ buf.length) (nonempty : buf ≠ []) (enough : buf.length / 4 ≤ turns) :
    ∃ r, allign4Loop turns s buf = some r ∧ Outcome s buf r := by
  induction turns generalizing s buf with
  | zero =>
    have pos : 0 < buf.length := List.length_pos_iff.mpr nonempty
    omega
  | succ turns ih =>
    have pos : 0 < buf.length := List.length_pos_iff.mpr nonempty
    obtain ⟨copy, hcopy, loop⟩ : ∃ copy : WriteStream → Option (Int × WriteStream),
        (∀ n t t', n = min (t.room / 4) (buf.length / 4) → t.store (buf.take (4 * n)) = some t' →
          copy t = if (buf.drop (4 * n)).length / 4 = 0 then some (0, t')
            else allign4Loop turns t' (buf.drop (4 * n))) ∧
        allign4Loop (turns + 1) s buf = if s.room = 0 then s.flushThen copy else copy s := by
      constructor
      constructor
      rotate_left
      · rw [allign4Loop]
      · intro n t t' hn hstore
        subst hn
        dsimp only
        rw [hstore]
    -- with room for a word some words are stored
    have copied (t : WriteStream) (fits : t.Fits) (aligned : t.text.length % 4 = 0)
        (more : t.room ≠ 0) : ∃ r, copy t = some r ∧ Outcome t buf r := by
      obtain ⟨n, hn⟩ : ∃ n, n = min (t.room / 4) (buf.length / 4) := ⟨_, rfl⟩
      have mod := t.sink.size_mod
      have bound := fits.text
      have copy_eq := hcopy n t
      rw [room] at more hn copy_eq
      have length : (buf.take (4 * n)).length = 4 * n := by
        rw [List.length_take]
        omega
      have inside : t.text.length + (buf.take (4 * n)).length ≤ t.sink.size := by omega
      obtain ⟨t', hstore, hput, hlast, hkeeps, htext⟩ := store_room inside
      have aligned' : t'.text.length % 4 = 0 := by
        rw [htext, List.length_append, length]
        omega
      have parts : buf.take (4 * n) ++ buf.drop (4 * n) = buf := List.take_append_drop _ _
      rw [copy_eq t' hn hstore]
      split
      · rename_i done
        have all : buf.drop (4 * n) = [] := by
          rw [← List.length_eq_zero_iff]
          rw [List.length_drop] at done ⊢
          omega
        rw [all, List.append_nil] at parts
        rw [parts] at hput
        exact ⟨_, rfl, .written le_rfl hput (fun h => hlast ▸ h) hkeeps⟩
      · rename_i left
        have rest : (buf.drop (4 * n)).length = buf.length - 4 * n := List.length_drop
        have more_left : buf.drop (4 * n) ≠ [] := by
          rw [← List.length_pos_iff]
          omega
        obtain ⟨r, hr, hout⟩ := ih (fits.putAll hput) aligned' (by omega) more_left (by omega)
        have both := hout.after hput (fun h => hlast ▸ h) hkeeps
        rw [parts] at both
        exact ⟨r, hr, both⟩
    rw [loop]
    split
    · rename_i full
      obtain ⟨s', hflush, hturn, hlast, hkeeps⟩ | ⟨rv, s', hflush, hrv, hlast, hturn, hsent, hfits,
        hkeeps, -⟩ := flushThen_full fits full copy
      · have turned := turned_of_turn hturn
        have whole := Nat.sub_eq_zero_iff_le.mp full
        obtain ⟨r, hr, hout⟩ := copied s' (fits.turn hturn) (by rw [turned.text]; rfl) (by
          rw [room, turned.text, List.length_nil]
          have := turned.room
          omega)
        exact ⟨r, hflush.trans hr, hout.of_turn full hturn hlast hkeeps nonempty⟩
      · refine ⟨(rv, s'), hflush, .refused hrv hlast ?_ (by rw [hsent]) hfits hkeeps⟩
        rw [putAll_full (Nat.sub_eq_zero_iff_le.mp full) nonempty, hturn, Option.bind_none]
    · exact copied s fits aligned ‹_›

theorem writeAllign4_spec (fits : s.Fits) (words : 4 ∣ buf.length) :
    ∃ r, s.writeAllign4 buf = some r ∧
      Outcome s (List.replicate (padAt s.text.length) 0 ++ buf) r := by
  obtain ⟨s', hpad, hput, hlast, hkeeps, haligned⟩ := allign4_spec fits
  rw [writeAllign4, hpad]
  dsimp only
  split
  · have empty : buf = [] := by
      rw [← List.length_eq_zero_iff]
      omega
    rw [empty, List.append_nil]
    exact ⟨_, rfl, .written le_rfl hput (fun h => hlast ▸ h) hkeeps⟩
  · have nonempty : buf ≠ [] := by
      rintro rfl
      simp at *
    obtain ⟨r, hr, hout⟩ :=
      allign4Loop_spec (fits.putAll hput) haligned words nonempty le_rfl
    exact ⟨r, hr, hout.after hput (fun h => hlast ▸ h) hkeeps⟩

theorem intLen_eq (short : str.length < 2 ^ 31) : intLen str = str.length :=
  Int.bmod_eq_of_le (by omega) (by omega)

theorem toNat_intLen (short : str.length < 2 ^ 31) :
    (BitVec.ofInt 32 (intLen str)).toNat = str.length := by
  rw [intLen_eq short, BitVec.ofInt_natCast, BitVec.toNat_ofNat]
  exact Nat.mod_eq_of_lt (by omega)

theorem writeInt32_spec (fits : s.Fits) (aligned : s.text.length % 4 = 0) (i : BitVec 32) :
    ∃ r, s.writeInt32 i = some r ∧ Outcome s (toBytes 4 i.toNat) r ∧
      (r.1 < 0 → r.2.sent = s.sent ∧ r.2.Stuck) ∧ (0 ≤ r.1 → r.1 = 0) := by
  have length : (toBytes 4 i.toNat).length = 4 := length_toBytes ..
  exact writeWord_spec _ fits (by rwa [length]) (by rw [length])

theorem writeString_spec (fits : s.Fits) (aligned : s.text.length % 4 = 0)
    (short : str.length < 2 ^ 31) :
    ∃ r, s.writeString str = some r ∧ Outcome s (toBytes 4 str.length ++ str) r := by
  obtain ⟨⟨rv, s'⟩, hlen, hout, -⟩ := writeInt32_spec fits aligned (.ofInt 32 (intLen str))
  rw [toNat_intLen short] at hout
  rw [writeString, hlen]
  cases hout with
  | written hrv hput hlast hkeeps =>
    obtain ⟨r, hr, hout⟩ := write_spec (fits.putAll hput) str
    refine ⟨r, ?_, hout.after hput hlast hkeeps⟩
    simp only [if_neg (not_lt.mpr hrv), intLen_eq short, hr]
  | refused hrv hlast hput hsent hfits hkeeps =>
    refine ⟨(rv, s'.setLastErr rv), ?_, .refused hrv hrv ?_ hsent hfits
      ⟨hkeeps.hash, hkeeps.cmdIndex, hkeeps.sink⟩⟩
    · simp only [if_pos hrv]
    · rw [putAll_append, hput, Option.bind_none]

theorem writeData_spec (fits : s.Fits) (aligned : s.text.length % 4 = 0)
    (short : str.length < 2 ^ 31) :
    ∃ r, s.writeData str = some r ∧ (Outcome s (toBytes 4 str.length ++ str) r ∨
      r.1 = 0 ∧ ∃ rv, Outcome s (toBytes 4 str.length) (rv, r.2) ∧ rv < 0 ∧
        r.2.sent = s.sent ∧ r.2.Stuck) := by
  obtain ⟨⟨rv, s'⟩, hlen, hout, hrefused, -⟩ :=
    writeInt32_spec fits aligned (.ofInt 32 (intLen str))
  rw [toNat_intLen short] at hout
  rw [writeData, hlen]
  by_cases hneg : rv < 0
  · refine ⟨(0, s'), ?_, .inr ⟨rfl, rv, hout, hneg, hrefused hneg⟩⟩
    simp only [if_pos hneg]
  · cases hout with
    | written hrv hput hlast hkeeps =>
      obtain ⟨r, hr, hout⟩ := write_spec (fits.putAll hput) str
      refine ⟨r, ?_, .inl (hout.after hput hlast hkeeps)⟩
      simp only [if_neg hneg, intLen_eq short, hr]
    | refused hrv => exact absurd hrv hneg

/-! ## Words anywhere -/

theorem flushThen_ends (fits : s.Fits) (next : WriteStream → Option (Int × WriteStream)) :
    (∃ s', s.flushThen next = next s' ∧ s'.Fits ∧ s'.text = [] ∧ 4 ≤ s'.sink.size ∧
        Keeps s s') ∨
      ∃ r, s.flushThen next = some r ∧ r.2.Fits ∧ Keeps s r.2 := by
  have err (rv : Int) {s' : WriteStream} (hfits : s'.Fits) (hkeeps : Keeps s s') :
      (s'.setLastErr rv).Fits ∧ Keeps s (s'.setLastErr rv) :=
    ⟨hfits, hkeeps.hash, hkeeps.cmdIndex, hkeeps.sink⟩
  have nospc : eTgfNospc < 0 := by decide
  cases hsink : s.sink with
  | memory size aligned =>
    have flush_eq : s.flush = (0, s) := by rw [flush, hsink]
    refine .inr ⟨(eTgfNospc, s.setLastErr eTgfNospc), ?_, err _ fits (.refl s)⟩
    simp [flushThen, streamFlush, flush_eq, eTgfNospc]
  | custom writeFn =>
    obtain ⟨rv, s', flush_eq, hfits, hkeeps, htext⟩ : ∃ rv s', s.flush = (rv, s') ∧ s'.Fits ∧
        Keeps s s' ∧ s'.text = [] := by
      rw [flush, hsink]
      refine ⟨_, _, rfl, ⟨Nat.zero_le _, fun block hblock => ?_⟩, ⟨rfl, rfl, hsink.symm⟩, rfl⟩
      rw [List.mem_append, List.mem_singleton] at hblock
      rw [← hsink]
      obtain hblock | rfl := hblock
      · exact fits.blocks block hblock
      · exact fits.text
    by_cases hneg : rv < 0
    · refine .inr ⟨(rv, s'.setLastErr rv), ?_, err _ hfits hkeeps⟩
      simp [flushThen, streamFlush, flush_eq, hneg]
    · by_cases hzero : rv = 0
      · refine .inr ⟨(eTgfNospc, s'.setLastErr eTgfNospc), ?_, err _ hfits hkeeps⟩
        simp [flushThen, streamFlush, flush_eq, hzero, eTgfNospc]
      · refine .inl ⟨s', ?_, hfits, htext, ?_, hkeeps⟩
        · simp [flushThen, streamFlush, flush_eq, hneg, hzero]
        · rw [hkeeps.sink, hsink]
          simp [Sink.size, tgfWriteBufsize]

theorem writeWord_ends (word : List UInt8) (fits : s.Fits) (short : word.length ≤ 4) :
    ∃ r, s.writeWord word = some r ∧ r.2.Fits ∧ Keeps s r.2 := by
  have stored (t : WriteStream) (fits : t.Fits)
      (h : t.text.length + word.length ≤ t.sink.size) :
      ∃ r, (t.store word).map (fun t => ((0 : Int), t)) = some r ∧ r.2.Fits ∧ Keeps t r.2 := by
    obtain ⟨t', hstore, hput, hlast, hkeeps, -⟩ := store_room h
    rw [hstore]
    exact ⟨_, rfl, fits.putAll hput, hkeeps⟩
  rw [writeWord]
  dsimp only
  split
  · obtain ⟨s', hflush, hfits, htext, hsize, hkeeps⟩ | ⟨r, hflush, hfits, hkeeps⟩ :=
      flushThen_ends fits (fun s => (s.store word).map fun s => (0, s))
    · obtain ⟨r, hr, hfits', hkeeps'⟩ := stored s' hfits (by
        rw [htext, List.length_nil]
        omega)
      exact ⟨r, hflush.trans hr, hfits', hkeeps.trans hkeeps'⟩
    · exact ⟨r, hflush, hfits, hkeeps⟩
  · have text := fits.text
    exact stored s fits (by rw [room] at *; omega)

theorem Outcome.ends (fits : s.Fits) (h : Outcome s bytes r) : r.2.Fits ∧ Keeps s r.2 := by
  cases h with
  | written _ hput _ hkeeps => exact ⟨fits.putAll hput, hkeeps⟩
  | refused _ _ _ _ hfits hkeeps => exact ⟨hfits, hkeeps⟩

theorem writeString_ends (fits : s.Fits) (short : str.length < 2 ^ 31) :
    ∃ r, s.writeString str = some r ∧ r.2.Fits ∧ Keeps s r.2 := by
  obtain ⟨⟨rv, s'⟩, hlen, hfits, hkeeps⟩ := writeWord_ends
    (toBytes 4 (BitVec.ofInt 32 (intLen str)).toNat) fits (length_toBytes ..).le
  obtain ⟨r, hr, hout⟩ := write_spec hfits str
  rw [writeString, writeInt32, hlen]
  dsimp only
  split
  · exact ⟨_, rfl, hfits, hkeeps.hash, hkeeps.cmdIndex, hkeeps.sink⟩
  · obtain ⟨hfits', hkeeps'⟩ := hout.ends hfits
    exact ⟨r, intLen_eq short ▸ hr, hfits', hkeeps.trans hkeeps'⟩

theorem writeData_ends (fits : s.Fits) (short : str.length < 2 ^ 31) :
    ∃ r, s.writeData str = some r ∧ r.2.Fits ∧ Keeps s r.2 := by
  obtain ⟨⟨rv, s'⟩, hlen, hfits, hkeeps⟩ := writeWord_ends
    (toBytes 4 (BitVec.ofInt 32 (intLen str)).toNat) fits (length_toBytes ..).le
  obtain ⟨r, hr, hout⟩ := write_spec hfits str
  rw [writeData, writeInt32, hlen]
  dsimp only
  split
  · exact ⟨_, rfl, hfits, hkeeps⟩
  · obtain ⟨hfits', hkeeps'⟩ := hout.ends hfits
    exact ⟨r, intLen_eq short ▸ hr, hfits', hkeeps.trans hkeeps'⟩

end WriteStream

/-! ## Sequences of writes -/

/-- Bytes whose number is an `int`. -/
abbrev Block := { bytes : List UInt8 // bytes.length < 2 ^ 31 }

inductive StreamCall where
  | write (buf : Block)
  | allign4
  | writeAllign4 (words : List (BitVec 32))
  | byte (b : UInt8)
  | int16 (sh : BitVec 16)
  | int32 (i : BitVec 32)
  | string (str : Block)
  | data (str : Block)

namespace StreamCall

def wordsBytes (words : List (BitVec 32)) : List UInt8 := words.flatMap (toBytes 4 ·.toNat)

def exec (s : WriteStream) : StreamCall → Option (Int × WriteStream)
  | write buf => s.write buf.1 buf.1.length
  | allign4 => s.allign4.map fun s => (0, s)
  | writeAllign4 words => s.writeAllign4 (wordsBytes words)
  | byte b => s.writeByte b
  | int16 sh => s.writeInt16 sh
  | int32 i => s.writeInt32 i
  | string str => s.writeString str.1
  | data str => s.writeData str.1

def encode (pos : Nat) : StreamCall → List UInt8
  | write buf => buf.1
  | allign4 => List.replicate (padAt pos) 0
  | writeAllign4 words => List.replicate (padAt pos) 0 ++ wordsBytes words
  | byte b => [b]
  | int16 sh => toBytes 2 sh.toNat
  | int32 i => toBytes 4 i.toNat
  | string str => toBytes 4 str.1.length ++ str.1
  | data str => toBytes 4 str.1.length ++ str.1

def Placed (pos : Nat) : StreamCall → Prop
  | int16 _ => pos % 2 = 0
  | int32 _ => pos % 4 = 0
  | string _ => pos % 4 = 0
  | data _ => pos % 4 = 0
  | _ => True

def encodeAll : Nat → List StreamCall → List UInt8
  | _, [] => []
  | pos, call :: calls => call.encode pos ++ encodeAll (pos + (call.encode pos).length) calls

def PlacedAll : Nat → List StreamCall → Prop
  | _, [] => True
  | pos, call :: calls => call.Placed pos ∧ PlacedAll (pos + (call.encode pos).length) calls

def run (s : WriteStream) : List StreamCall → Option WriteStream
  | [] => some s
  | call :: calls => (call.exec s).bind fun r => run r.2 calls

theorem length_wordsBytes (words : List (BitVec 32)) : 4 ∣ (wordsBytes words).length := by
  induction words with
  | nil => exact Nat.dvd_zero 4
  | cons word words ih =>
    rw [wordsBytes] at ih ⊢
    rw [List.flatMap_cons, List.length_append, length_toBytes]
    omega

variable {s : WriteStream}

theorem exec_ends (fits : s.Fits) (call : StreamCall) :
    ∃ r, call.exec s = some r ∧ r.2.Fits ∧ WriteStream.Keeps s r.2 := by
  cases call with
  | write buf =>
    obtain ⟨r, hr, hout⟩ := WriteStream.write_spec fits buf.1
    exact ⟨r, hr, hout.ends fits⟩
  | allign4 =>
    obtain ⟨s', hs', hput, -, hkeeps, -⟩ := WriteStream.allign4_spec fits
    exact ⟨(0, s'), by rw [exec, hs', Option.map_some], fits.putAll hput, hkeeps⟩
  | writeAllign4 words =>
    obtain ⟨r, hr, hout⟩ := WriteStream.writeAllign4_spec fits (length_wordsBytes words)
    exact ⟨r, hr, hout.ends fits⟩
  | byte b => exact WriteStream.writeWord_ends _ fits (by simp)
  | int16 sh => exact WriteStream.writeWord_ends _ fits (by simp)
  | int32 i => exact WriteStream.writeWord_ends _ fits (by simp)
  | string str => exact WriteStream.writeString_ends fits str.2
  | data str => exact WriteStream.writeData_ends fits str.2

theorem run_ends (fits : s.Fits) (calls : List StreamCall) :
    ∃ s', run s calls = some s' ∧ s'.Fits ∧ WriteStream.Keeps s s' := by
  induction calls generalizing s with
  | nil => exact ⟨s, rfl, fits, .refl s⟩
  | cons call calls ih =>
    obtain ⟨r, hr, hfits, hkeeps⟩ := exec_ends fits call
    obtain ⟨s', hs', hfits', hkeeps'⟩ := ih hfits
    exact ⟨s', by rw [run, hr, Option.bind_some, hs'], hfits', hkeeps.trans hkeeps'⟩

theorem exec_spec (fits : s.Fits) (phased : s.Phased) {call : StreamCall}
    (placed : call.Placed s.sent.length) :
    ∃ r, call.exec s = some r ∧ (s.toOutput.putAll (call.encode s.sent.length) = none ∨
      s.toOutput.putAll (call.encode s.sent.length) = some r.2.toOutput) := by
  have of_outcome {bytes : List UInt8} {r : Int × WriteStream}
      (h : WriteStream.Outcome s bytes r) :
      s.toOutput.putAll bytes = none ∨ s.toOutput.putAll bytes = some r.2.toOutput := by
    cases h with
    | written _ hput _ _ => exact .inr hput
    | refused _ _ hput _ _ _ => exact .inl hput
  have pads : padAt s.sent.length = padAt s.text.length := by
    rw [Output.Phased] at phased
    rw [padAt, padAt, phased]
  cases call with
  | write buf =>
    obtain ⟨r, hr, hout⟩ := WriteStream.write_spec fits buf.1
    exact ⟨r, hr, of_outcome hout⟩
  | allign4 =>
    obtain ⟨s', hs', hput, -, -, -⟩ := WriteStream.allign4_spec fits
    exact ⟨(0, s'), by rw [exec, hs', Option.map_some], .inr (by rw [encode, pads, hput])⟩
  | writeAllign4 words =>
    obtain ⟨r, hr, hout⟩ := WriteStream.writeAllign4_spec fits (length_wordsBytes words)
    exact ⟨r, hr, by rw [encode, pads]; exact of_outcome hout⟩
  | byte b =>
    obtain ⟨r, hr, hout, -, -⟩ := WriteStream.writeWord_spec [b] fits (Nat.mod_one _)
      (by simp)
    exact ⟨r, hr, of_outcome hout⟩
  | int16 sh =>
    have length : (toBytes 2 sh.toNat).length = 2 := length_toBytes ..
    have even : s.text.length % 2 = 0 := by
      rw [Placed] at placed
      rw [Output.Phased] at phased
      omega
    obtain ⟨r, hr, hout, -, -⟩ := WriteStream.writeWord_spec _ fits
      (by rwa [length]) (by rw [length]; decide)
    exact ⟨r, hr, of_outcome hout⟩
  | int32 i =>
    obtain ⟨r, hr, hout, -, -⟩ := WriteStream.writeInt32_spec fits (phased ▸ placed) i
    exact ⟨r, hr, of_outcome hout⟩
  | string str =>
    obtain ⟨r, hr, hout⟩ := WriteStream.writeString_spec fits (phased ▸ placed) str.2
    exact ⟨r, hr, of_outcome hout⟩
  | data str =>
    obtain ⟨r, hr, hout | ⟨-, rv, hout, hneg, -⟩⟩ :=
      WriteStream.writeData_spec fits (phased ▸ placed) str.2
    · exact ⟨r, hr, of_outcome hout⟩
    · refine ⟨r, hr, .inl ?_⟩
      cases hout with
      | written hrv => exact absurd hneg (not_lt.mpr hrv)
      | refused _ _ hput _ _ _ => rw [encode, Output.putAll_append, hput, Option.bind_none]

end StreamCall

/-- `write_fn` takes every block as it is. -/
def Sink.Takes : Sink → Prop
  | .memory _ _ => False
  | .custom writeFn =>
      ∀ (blocks : List (List UInt8)) (block : List UInt8),
        block.length ≤ writeFn (blocks ++ [block])

theorem Output.putAll_takes {o : Output} (takes : o.sink.Takes) (bytes : List UInt8) :
    ∃ o', o.putAll bytes = some o' := by
  induction bytes generalizing o with
  | nil => exact ⟨o, rfl⟩
  | cons b bytes ih =>
    obtain ⟨o₁, hput⟩ : ∃ o₁, o.put b = some o₁ := by
      rw [put]
      split
      · exact ⟨_, rfl⟩
      · cases hsink : o.sink with
        | memory => exact (hsink ▸ takes : Sink.Takes (.memory ..)).elim
        | custom writeFn =>
          have taken := (hsink ▸ takes : Sink.Takes (.custom writeFn)) o.blocks o.text
          dsimp only
          rw [if_neg (not_lt.mpr taken)]
          exact ⟨_, rfl⟩
    obtain ⟨o', hrest⟩ := ih (o := o₁) (by rwa [put_sink hput])
    exact ⟨o', by rw [putAll_cons, hput, Option.bind_some, hrest]⟩

namespace StreamCall

theorem run_sent {s : WriteStream} (takes : s.sink.Takes) (fits : s.Fits) (phased : s.Phased)
    {calls : List StreamCall} (placed : PlacedAll s.sent.length calls) :
    ∃ s', run s calls = some s' ∧ s'.sent = s.sent ++ encodeAll s.sent.length calls := by
  induction calls generalizing s with
  | nil => exact ⟨s, rfl, (List.append_nil _).symm⟩
  | cons call calls ih =>
    obtain ⟨first, rest⟩ := placed
    obtain ⟨o, hput⟩ := Output.putAll_takes takes (call.encode s.sent.length)
    obtain ⟨r, hr, hnone | hput⟩ := exec_spec fits phased first
    · rw [hput] at hnone
      cases hnone
    · have sent := Output.putAll_sent hput
      have position : r.2.sent.length = s.sent.length + (call.encode s.sent.length).length := by
        rw [sent, List.length_append]
      rw [← position] at rest
      obtain ⟨s', hs', hsent'⟩ := ih (by rwa [Output.putAll_sink hput]) (fits.putAll hput)
        (phased.putAll fits hput) rest
      refine ⟨s', by rw [run, hr, Option.bind_some, hs'], ?_⟩
      rw [hsent', sent, encodeAll, List.append_assoc, List.length_append]

end StreamCall

namespace WriteStream

/-- `tgf_stream_out_new` with `tgf_stream_out_custom`. -/
def new (writeFn : List (List UInt8) → Int) : WriteStream :=
  { sink := .custom writeFn, blocks := [], text := [], lastErr := 0, hash := .nil, cmdIndex := 0 }

theorem new_fits (writeFn : List (List UInt8) → Int) : (new writeFn).Fits :=
  ⟨Nat.zero_le _, fun _ h => by cases h⟩

end WriteStream

/-- Every sequence of writes ends without a byte behind the buffer. If `write_fn` takes every
block and words stand at multiples of their lengths, the blocks up to the last flush are the
bytes of the calls, where pads depend on the position in the stream only. -/
theorem buffering (writeFn : List (List UInt8) → Int) (calls : List StreamCall) :
    ∃ s, StreamCall.run (.new writeFn) calls = some s ∧
      (∀ block ∈ s.flush.2.blocks, block.length ≤ tgfWriteBufsize) ∧
      ((Sink.custom writeFn).Takes → StreamCall.PlacedAll 0 calls →
        s.flush.2.blocks.flatten = StreamCall.encodeAll 0 calls) := by
  obtain ⟨s, hs, hfits, hkeeps⟩ := StreamCall.run_ends (WriteStream.new_fits writeFn) calls
  have hsink : s.sink = .custom writeFn := hkeeps.sink
  have flushed : s.flush.2.blocks = s.blocks ++ [s.text] := by
    rw [WriteStream.flush, hsink]
  refine ⟨s, hs, ?_, ?_⟩
  · rw [flushed]
    intro block hblock
    have size : s.sink.size = tgfWriteBufsize := by rw [hsink, Sink.size]
    rw [List.mem_append, List.mem_singleton] at hblock
    rw [← size]
    obtain hblock | rfl := hblock
    · exact hfits.blocks block hblock
    · exact hfits.text
  · intro takes placed
    obtain ⟨s', hs', hsent⟩ := StreamCall.run_sent (s := .new writeFn) takes
      (WriteStream.new_fits writeFn) rfl placed
    obtain rfl := Option.some.inj (hs.symm.trans hs')
    rw [flushed, List.flatten_append, List.flatten_singleton]
    exact hsent

/-- A block, a word and a byte. -/
theorem buffering_word : ∃ s, StreamCall.run (.new fun blocks => (blocks.getLastD []).length)
      [.write ⟨[1, 2, 3, 4], by decide⟩, .int32 5, .byte 6] = some s ∧
    s.flush.2.blocks.flatten = [1, 2, 3, 4, 5, 0, 0, 0, 6] := by
  obtain ⟨s, hs, -, hflat⟩ := buffering (fun blocks => (blocks.getLastD []).length)
    [.write ⟨[1, 2, 3, 4], by decide⟩, .int32 5, .byte 6]
  refine ⟨s, hs, hflat ?_ ⟨trivial, rfl, trivial, trivial⟩⟩
  intro blocks block
  simp

theorem WriteStream.write_room {s : WriteStream} {buf : List UInt8} (nonempty : buf ≠ [])
    (h : s.text.length + buf.length ≤ s.sink.size) :
    ∃ rv, s.write buf buf.length = some (rv, { s with text := s.text ++ buf }) := by
  have pos := List.length_pos_iff.mpr nonempty
  have all : min s.room ((buf.length : Nat) : Int).toNat = buf.length := by
    rw [room, Int.toNat_natCast]
    omega
  refine ⟨buf.length, ?_⟩
  rw [write, if_neg (by omega), writeLoop, if_neg (by omega)]
  dsimp only
  rw [all, if_pos ⟨pos, by omega⟩, List.take_length]

/-- A word that stands two bytes before the end of the buffer is written behind a flush, and
the next pad depends on it. -/
theorem not_buffering : ¬ ∀ (writeFn : List (List UInt8) → Int) (calls : List StreamCall),
    (Sink.custom writeFn).Takes → ∃ s, StreamCall.run (.new writeFn) calls = some s ∧
      s.flush.2.blocks.flatten = StreamCall.encodeAll 0 calls := by
  intro h
  obtain ⟨buf, hbuf⟩ : ∃ buf : List UInt8, buf.length = 65534 :=
    ⟨List.replicate 65534 0, List.length_replicate⟩
  have takes : (Sink.custom fun blocks => (blocks.getLastD []).length).Takes := by
    intro blocks block
    simp
  obtain ⟨s, hs, hflat⟩ := h _ [.write ⟨buf, by omega⟩, .int32 0, .allign4] takes
  have nonempty : buf ≠ [] := by
    rw [← List.length_pos_iff]
    omega
  obtain ⟨rv, hwrite⟩ := WriteStream.write_room
    (s := .new fun blocks => (blocks.getLastD []).length) nonempty (by
      rw [WriteStream.new, Sink.size, tgfWriteBufsize, List.length_nil]
      omega)
  have flushed : s.blocks = [buf] ∧ s.text = [0, 0, 0, 0] ∧
      ∃ writeFn, s.sink = .custom writeFn := by
    rw [StreamCall.run, StreamCall.exec, hwrite, Option.bind_some] at hs
    simp [StreamCall.run, StreamCall.exec, WriteStream.new, WriteStream.writeInt32,
      WriteStream.writeWord, WriteStream.room, WriteStream.flushThen, WriteStream.streamFlush,
      WriteStream.flush, WriteStream.store, WriteStream.allign4, Sink.size, tgfWriteBufsize, hbuf,
      toBytes] at hs
    rw [← hs]
    simp
  obtain ⟨hblocks, htext, writeFn, hsink⟩ := flushed
  have lengths := congrArg List.length hflat
  simp [WriteStream.flush, hsink, hblocks, htext, StreamCall.encodeAll, StreamCall.encode, padAt,
    hbuf] at lengths

end ScCore.Tgf
