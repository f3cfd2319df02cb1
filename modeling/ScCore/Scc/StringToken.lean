import Mathlib.Data.List.Range

/-!
# String literals

`process_string_token` of `scps_lexer.cpp`, which decodes a literal in its own memory, and the
pieces that the characters of a literal are.
-/

namespace ScCore.Scc

/-! ## Decoding in place -/

/-- The memory from `tok->chars` on, the two pointers into it, and what they have done: where `in`
has passed, and where was written while `in` stood where. -/
structure StringScan where
  chars : Nat → UInt8
  out : Nat
  inp : Nat
  consumed : List Nat
  written : List (Nat × Nat)

namespace StringScan

variable (s : StringScan)

/-- `*out++ = c`. -/
def put (c : UInt8) : StringScan :=
  { s with chars := Function.update s.chars s.out c, out := s.out + 1,
           written := s.written ++ [(s.out, s.inp)] }

/-- `++in`. -/
def pass : StringScan := { s with inp := s.inp + 1, consumed := s.consumed ++ [s.inp] }

/-- `*in`. -/
def current : UInt8 := s.chars s.inp

/-- `*out++ = *in++`. -/
def copy : StringScan := (s.put s.current).pass

/-- `*in++ = c`. -/
def overwrite (c : UInt8) : StringScan :=
  { s with chars := Function.update s.chars s.inp c, written := s.written ++ [(s.inp, s.inp)] }.pass

/-- The bytes before `out`. -/
def text : List UInt8 := (List.range s.out).map s.chars

end StringScan

def escaped (c : UInt8) : UInt8 :=
  if c = 110 then 10 else if c = 114 then 13 else if c = 116 then 9 else c

/-- The loop of `process_string_token`. -/
def scanLoop : Nat → StringScan → StringScan
  | 0, s => s
  | l + 1, s =>
      if s.current = 10 then
        let s := s.pass
        scanLoop l (if s.current = 13 then s.copy else s)
      else if s.current = 13 then
        let s := s.copy
        scanLoop l (if s.current = 10 then s.copy else s)
      else if s.current = 9 then scanLoop l s.copy
      else if s.current ≠ 92 then scanLoop l s.copy
      else
        let s := s.pass
        match l with
        | 0 => s.overwrite 92
        | l + 1 => scanLoop l (s.put (escaped s.current)).pass

/-- `*out = 0`. -/
def StringScan.terminate (s : StringScan) : StringScan :=
  { s with chars := Function.update s.chars s.out 0, written := s.written ++ [(s.out, s.inp)] }

/-- `process_string_token` of a token of `len` characters. -/
def processStringToken (chars : Nat → UInt8) (len : Nat) : StringScan :=
  (scanLoop (len - 4) ⟨chars, 0, 2, [], []⟩).terminate

/-! ## Pieces -/

inductive Piece where
  | char (c : UInt8)
  /-- A line end of two characters. -/
  | lineEnd (c d : UInt8)
  | escape (c : UInt8)
  /-- A backslash with nothing behind it. -/
  | backslash
  deriving DecidableEq

def isLineEnd (c d : UInt8) : Bool := (c = 10 && d = 13) || (c = 13 && d = 10)

def pieces : List UInt8 → List Piece
  | [] => []
  | [c] => if c = 92 then [.backslash] else [.char c]
  | c :: d :: r =>
      if c = 92 then .escape d :: pieces r
      else if isLineEnd c d then .lineEnd c d :: pieces r
      else .char c :: pieces (d :: r)

def plainChar (keep : Bool) (c : UInt8) : List UInt8 := if c = 10 ∧ keep = false then [] else [c]

def Piece.decode (keep : Bool) : Piece → List UInt8
  | char c => plainChar keep c
  | lineEnd c d => plainChar keep c ++ plainChar keep d
  | escape c => [escaped c]
  | backslash => [92]

def decodeString (keep : Bool) (content : List UInt8) : List UInt8 :=
  (pieces content).flatMap (Piece.decode keep)

def Piece.Sound (keep : Bool) : Piece → Prop
  | char c => c = 10 → keep = false
  | escape _ => True
  | _ => False

/-! ## What a scan decodes -/

namespace StringScan

theorem text_terminate (s : StringScan) : s.terminate.text = s.text := by
  apply List.map_congr_left
  intro i hi
  exact Function.update_of_ne (Nat.ne_of_lt (List.mem_range.mp hi)) _ _

/-- From `s` to `s'` the scan has passed `n` characters once each, and appended `bytes`. -/
structure Decodes (s : StringScan) (n : Nat) (bytes : List UInt8) (s' : StringScan) : Prop where
  inp : s'.inp = s.inp + n
  consumed : s'.consumed = s.consumed ++ List.range' s.inp n
  behind : s'.out + 2 ≤ s'.inp
  text : s'.text = s.text ++ bytes
  memory : ∀ i, s'.inp ≤ i → s'.chars i = s.chars i
  written : ∀ w ∈ s'.written, w ∈ s.written ∨ w.1 ≤ w.2

variable {s s' s'' : StringScan}

variable {bytes content : List UInt8}

theorem Decodes.trans {n n' : Nat} {bytes' : List UInt8} (h : s.Decodes n bytes s')
    (h' : s'.Decodes n' bytes' s'') : s.Decodes (n + n') (bytes ++ bytes') s'' where
  inp := by
    rw [h'.inp, h.inp]
    omega
  consumed := by
    rw [h'.consumed, h.consumed, h.inp, List.append_assoc, List.range'_append_1]
  behind := h'.behind
  text := by rw [h'.text, h.text, List.append_assoc]
  memory i hi := by
    have le : s'.inp ≤ i := by
      have := h'.inp
      omega
    rw [h'.memory i hi, h.memory i le]
  written w hw := (h'.written w hw).elim (h.written w) .inr

theorem text_put (c : UInt8) : (s.put c).text = s.text ++ [c] := by
  rw [text, put, List.range_succ, List.map_append, text]
  congr 1
  · apply List.map_congr_left
    intro i hi
    exact Function.update_of_ne (Nat.ne_of_lt (List.mem_range.mp hi)) _ _
  · simp

theorem decodes_nil (behind : s.out + 2 ≤ s.inp) : s.Decodes 0 [] s :=
  ⟨rfl, (List.append_nil _).symm, behind, (List.append_nil _).symm, fun _ _ => rfl, fun _ => .inl⟩

theorem decodes_pass (behind : s.out + 2 ≤ s.inp) : s.Decodes 1 [] s.pass :=
  ⟨rfl, rfl, Nat.le_succ_of_le behind, (List.append_nil _).symm, fun _ _ => rfl, fun _ => .inl⟩

theorem decodes_put (c : UInt8) (behind : s.out + 2 ≤ s.inp) : s.Decodes 1 [c] (s.put c).pass where
  inp := rfl
  consumed := rfl
  behind := Nat.succ_le_succ behind
  text := text_put c
  memory i hi := by
    have gt : s.inp + 1 ≤ i := hi
    exact Function.update_of_ne (by omega) _ _
  written w hw := by
    obtain old | new := List.mem_append.mp hw
    · exact .inl old
    · obtain rfl := List.mem_singleton.mp new
      exact .inr (by dsimp only; omega)

/-- What is to come at `in`. -/
def Holds (s : StringScan) (content : List UInt8) : Prop :=
  ∀ i c, content[i]? = some c → s.chars (s.inp + i) = c

theorem Holds.current {c : UInt8} (holds : s.Holds (c :: content)) : s.current = c := holds 0 c rfl

theorem Holds.after {n : Nat} (holds : s.Holds content) (h : s.Decodes n bytes s') :
    s'.Holds (content.drop n) := by
  intro i c hc
  rw [h.memory _ (Nat.le_add_right _ _), h.inp, Nat.add_assoc]
  rw [List.getElem?_drop] at hc
  exact holds _ _ hc

end StringScan

open StringScan

/-! ## Sound pieces -/

variable {s : StringScan}

variable {rest : List UInt8}

theorem scanLoop_char (keep : Bool) {c d : UInt8} (l : Nat) (behind : s.out + 2 ≤ s.inp)
    (holds : s.Holds (c :: d :: rest)) (slash : c ≠ 92) (alone : ¬ isLineEnd c d)
    (sound : c = 10 → keep = false) :
    ∃ s', scanLoop (l + 1) s = scanLoop l s' ∧ s.Decodes 1 (plainChar keep c) s' := by
  have current := holds.current
  have copied (other : c ≠ 10) : s.Decodes 1 (plainChar keep c) s.copy := by
    rw [plainChar, if_neg fun feed => other feed.1, ← current]
    exact decodes_put s.current behind
  have next {bytes : List UInt8} {s' : StringScan} (h : s.Decodes 1 bytes s') : s'.current = d :=
    (holds.after h).current
  rw [scanLoop, current]
  by_cases feed : c = 10
  · have passed := decodes_pass behind
    have other : s.pass.current ≠ 13 := by
      rw [next passed]
      rintro rfl
      exact alone (by rw [feed]; decide)
    refine ⟨s.pass, ?_, ?_⟩
    · rw [if_pos feed]
      dsimp only
      rw [if_neg other]
    · rw [plainChar, if_pos ⟨feed, sound feed⟩]
      exact passed
  · refine ⟨s.copy, ?_, copied feed⟩
    rw [if_neg feed]
    by_cases ret : c = 13
    · have other : s.copy.current ≠ 10 := by
        rw [next (copied feed)]
        rintro rfl
        exact alone (by rw [ret]; decide)
      rw [if_pos ret]
      dsimp only
      rw [if_neg other]
    · rw [if_neg ret, if_pos slash, ite_self]

theorem scanLoop_escape {d : UInt8} (l : Nat) (behind : s.out + 2 ≤ s.inp)
    (holds : s.Holds (92 :: d :: rest)) :
    ∃ s', scanLoop (l + 2) s = scanLoop l s' ∧ s.Decodes 2 [escaped d] s' := by
  have passed := decodes_pass behind
  have next : s.pass.current = d := (holds.after passed).current
  refine ⟨(s.pass.put (escaped d)).pass, ?_, passed.trans (decodes_put _ passed.behind)⟩
  rw [scanLoop, holds.current]
  dsimp only
  rw [next]
  rfl

theorem scanLoop_sound {keep : Bool} (content : List UInt8)
    (sound : ∀ p ∈ pieces content, p.Sound keep) (behind : s.out + 2 ≤ s.inp)
    (holds : s.Holds (content ++ [34])) :
    s.Decodes content.length (decodeString keep content) (scanLoop content.length s) := by
  induction content using pieces.induct generalizing s with
  | case1 => exact decodes_nil behind
  | case2 =>
    have bad := sound .backslash (by decide)
    exact bad.elim
  | case3 c slash =>
    rw [pieces, if_neg slash] at sound
    have alone : ¬ isLineEnd c 34 := by
      rw [isLineEnd]
      simp
    obtain ⟨s', loop, decodes⟩ := scanLoop_char keep 0 behind holds slash alone
      (sound _ (List.mem_singleton.mpr rfl))
    have decoded : decodeString keep [c] = plainChar keep c := by
      rw [decodeString, pieces, if_neg slash]
      exact List.append_nil _
    rw [decoded]
    exact loop ▸ decodes
  | case4 d r ih =>
    rw [pieces, if_pos rfl] at sound
    obtain ⟨s', loop, decodes⟩ := scanLoop_escape r.length behind holds
    have rest := ih (fun p mem => sound p (List.mem_cons_of_mem _ mem)) decodes.behind
      (holds.after decodes)
    have decoded : decodeString keep (92 :: d :: r) = [escaped d] ++ decodeString keep r := by
      rw [decodeString, pieces, if_pos rfl]
      rfl
    have length : (92 :: d :: r).length = 2 + r.length := by
      rw [List.length_cons, List.length_cons]
      omega
    rw [decoded, length, Nat.add_comm, loop, Nat.add_comm]
    exact decodes.trans rest
  | case5 c d r slash ends ih =>
    rw [pieces, if_neg slash, if_pos ends] at sound
    exact (sound (.lineEnd c d) List.mem_cons_self).elim
  | case6 c d r slash alone ih =>
    rw [pieces, if_neg slash, if_neg alone] at sound
    obtain ⟨s', loop, decodes⟩ := scanLoop_char keep (d :: r).length behind holds slash
      alone (sound _ List.mem_cons_self)
    have rest := ih (fun p mem => sound p (List.mem_cons_of_mem _ mem)) decodes.behind
      (holds.after decodes)
    have decoded : decodeString keep (c :: d :: r) =
        plainChar keep c ++ decodeString keep (d :: r) := by
      rw [decodeString, pieces, if_neg slash, if_neg alone]
      rfl
    have length : (c :: d :: r).length = 1 + (d :: r).length := by
      rw [List.length_cons]
      omega
    rw [decoded, length, Nat.add_comm, loop, Nat.add_comm]
    exact decodes.trans rest

/-! ## Other pieces -/

theorem scanLoop_length (l : Nat) (s : StringScan) :
    s.consumed.length + l ≤ (scanLoop l s).consumed.length := by
  have passed (s : StringScan) : s.pass.consumed.length = s.consumed.length + 1 := by
    rw [StringScan.pass, List.length_append, List.length_singleton]
  have copied (s : StringScan) : s.copy.consumed.length = s.consumed.length + 1 := passed _
  induction l, s using scanLoop.induct with
  | case1 s => exact le_rfl
  | case2 l s feed s' ih =>
    rw [scanLoop, if_pos feed]
    refine Nat.le_trans ?_ ih
    have here := passed s
    have there := copied s.pass
    dsimp only [s']
    split <;> omega
  | case3 l s feed ret s' ih =>
    rw [scanLoop, if_neg feed, if_pos ret]
    refine Nat.le_trans ?_ ih
    have here := copied s
    have there := copied s.copy
    dsimp only [s']
    split <;> omega
  | case4 l s feed ret tab ih =>
    rw [scanLoop, if_neg feed, if_neg ret, if_pos tab]
    have here := copied s
    omega
  | case5 l s feed ret tab slash ih =>
    rw [scanLoop, if_neg feed, if_neg ret, if_neg tab, if_pos slash]
    have here := copied s
    omega
  | case6 s feed ret tab slash =>
    rw [scanLoop, if_neg feed, if_neg ret, if_neg tab, if_neg slash]
    have here := passed s
    have there : (s.pass.overwrite 92).consumed.length = s.pass.consumed.length + 1 := passed _
    dsimp only
    omega
  | case7 s feed ret tab slash s' l ih =>
    rw [scanLoop, if_neg feed, if_neg ret, if_neg tab, if_neg slash]
    have here := passed s
    have there := passed (s'.put (escaped s'.current))
    have same : (s'.put (escaped s'.current)).consumed = s.pass.consumed := rfl
    rw [same] at there
    refine Nat.le_trans ?_ ih
    omega

/-- A line end of two characters, or a backslash with nothing behind it. -/
def Piece.Odd : Piece → Prop
  | lineEnd _ _ | backslash => True
  | _ => False

theorem StringScan.Decodes.further {n l : Nat} {bytes : List UInt8} {s' : StringScan}
    (decodes : s.Decodes n bytes s')
    (more : s'.consumed.length + l < (scanLoop l s').consumed.length) :
    s.consumed.length + (n + l) < (scanLoop l s').consumed.length := by
  rw [decodes.consumed, List.length_append, List.length_range'] at more
  omega

theorem scanLoop_overshoots (content : List UInt8) (odd : ∃ p ∈ pieces content, p.Odd)
    (behind : s.out + 2 ≤ s.inp) (holds : s.Holds (content ++ [34])) :
    s.consumed.length + content.length < (scanLoop content.length s).consumed.length := by
  induction content using pieces.induct generalizing s with
  | case1 =>
    obtain ⟨p, mem, -⟩ := odd
    cases mem
  | case2 =>
    rw [List.length_singleton, scanLoop, holds.current]
    show s.consumed.length + 1 < ((s.consumed ++ [s.inp]) ++ [s.pass.inp]).length
    rw [List.length_append, List.length_append]
    exact Nat.lt_succ_self _
  | case3 c slash =>
    obtain ⟨p, mem, odd⟩ := odd
    rw [pieces, if_neg slash, List.mem_singleton] at mem
    subst mem
    exact odd.elim
  | case4 d r ih =>
    rw [pieces, if_pos rfl] at odd
    obtain ⟨s', loop, decodes⟩ := scanLoop_escape r.length behind holds
    have rest : ∃ p ∈ pieces r, p.Odd := by
      obtain ⟨p, mem, odd⟩ := odd
      obtain rfl | mem := List.mem_cons.mp mem
      · exact odd.elim
      · exact ⟨p, mem, odd⟩
    have length : (92 :: d :: r).length = 2 + r.length := by
      rw [List.length_cons, List.length_cons]
      omega
    have more := decodes.further (ih rest decodes.behind (holds.after decodes))
    rwa [← loop, Nat.add_comm r.length, ← length] at more
  | case5 c d r slash ends ih =>
    -- the whole line end is passed, and one character is counted down
    obtain ⟨l, length⟩ : ∃ l, (d :: r).length = l := ⟨_, rfl⟩
    have more : s.consumed.length + 2 + l ≤ (scanLoop (l + 1) s).consumed.length := by
      have two {s' : StringScan} (passed : s'.consumed.length = s.consumed.length + 2) :
          s.consumed.length + 2 + l ≤ (scanLoop l s').consumed.length :=
        passed ▸ scanLoop_length _ _
      have current := holds.current
      have copied (s : StringScan) : s.copy.consumed.length = s.consumed.length + 1 := by
        show (s.consumed ++ [s.inp]).length = _
        rw [List.length_append, List.length_singleton]
      have passed : s.pass.consumed.length = s.consumed.length + 1 := by
        rw [StringScan.pass, List.length_append, List.length_singleton]
      rw [scanLoop, current]
      rw [isLineEnd] at ends
      obtain feed | ret := Bool.or_eq_true_iff.mp ends
      · obtain ⟨feed, ret⟩ := Bool.and_eq_true_iff.mp feed
        have next : s.pass.current = d := (holds.after (decodes_pass behind)).current
        rw [if_pos (of_decide_eq_true feed)]
        dsimp only
        rw [next, if_pos (of_decide_eq_true ret)]
        exact two (by rw [copied, passed])
      · obtain ⟨ret, feed⟩ := Bool.and_eq_true_iff.mp ret
        have ret : c = 13 := of_decide_eq_true ret
        have next : s.copy.current = d := (holds.after (decodes_put s.current behind)).current
        rw [if_neg (by rw [ret]; decide), if_pos ret]
        dsimp only
        rw [next, if_pos (of_decide_eq_true feed)]
        exact two (by rw [copied, copied])
    rw [List.length_cons, length]
    omega
  | case6 c d r slash alone ih =>
    rw [pieces, if_neg slash, if_neg alone] at odd
    obtain ⟨s', loop, decodes⟩ := scanLoop_char false (d :: r).length behind holds slash alone
      fun _ => rfl
    have rest : ∃ p ∈ pieces (d :: r), p.Odd := by
      obtain ⟨p, mem, odd⟩ := odd
      obtain rfl | mem := List.mem_cons.mp mem
      · exact odd.elim
      · exact ⟨p, mem, odd⟩
    have length : (c :: d :: r).length = 1 + (d :: r).length := by
      rw [List.length_cons]
      omega
    have more := decodes.further (ih rest decodes.behind (holds.after decodes))
    rwa [← loop, Nat.add_comm (d :: r).length, ← length] at more

/-! ## Tokens -/

/-- A `STRING` token: the characters between its delimiters, with the delimiters. -/
def stringToken (content : List UInt8) : List UInt8 := 47 :: 34 :: (content ++ [34, 47])

/-- Each character between the delimiters is passed once and none after them, nothing is written
before it is read, and the text is the concatenation of what the characters stand for. -/
def StringScan.Exact (keep : Bool) (content : List UInt8) (s : StringScan) : Prop :=
  s.consumed = List.range' 2 content.length ∧ (∀ w ∈ s.written, w.1 ≤ w.2) ∧
    s.text = decodeString keep content

theorem memory_of (text : List UInt8) (i : Nat) (c : UInt8) (hc : text[i]? = some c) :
    text.getD i 0 = c := by
  rw [List.getD_eq_getElem?_getD, hc]
  rfl

theorem length_decode_lt {ps : List Piece} (feed : .char 10 ∈ ps) :
    (ps.flatMap (Piece.decode false)).length < (ps.flatMap (Piece.decode true)).length := by
  have plain (c : UInt8) : (plainChar false c).length ≤ (plainChar true c).length := by
    have kept : plainChar true c = [c] := if_neg fun h => nomatch h.2
    rw [kept, plainChar]
    split
    · exact Nat.zero_le _
    · exact le_rfl
  have piece (p : Piece) : (p.decode false).length ≤ (p.decode true).length := by
    cases p with
    | char c => exact plain c
    | lineEnd c d =>
      rw [Piece.decode, Piece.decode, List.length_append, List.length_append]
      exact Nat.add_le_add (plain c) (plain d)
    | escape | backslash => exact le_rfl
  have all (ps : List Piece) :
      (ps.flatMap (Piece.decode false)).length ≤ (ps.flatMap (Piece.decode true)).length := by
    induction ps with
    | nil => exact le_rfl
    | cons p ps ih =>
      rw [List.flatMap_cons, List.flatMap_cons, List.length_append, List.length_append]
      exact Nat.add_le_add (piece p) ih
  obtain ⟨before, behind, rfl⟩ := List.append_of_mem feed
  have here : ((Piece.char 10).decode false).length < ((Piece.char 10).decode true).length := by
    decide
  have := all before
  have := all behind
  simp only [List.flatMap_append, List.flatMap_cons, List.length_append]
  omega

theorem Piece.not_sound {keep : Bool} {p : Piece} (h : ¬ p.Sound keep) :
    p.Odd ∨ p = .char 10 ∧ keep = true := by
  cases p with
  | char c =>
    obtain ⟨feed, kept⟩ := not_forall.mp h
    exact .inr ⟨congrArg Piece.char feed, Bool.not_eq_false _ ▸ kept⟩
  | escape c => exact absurd trivial h
  | lineEnd | backslash => exact .inl trivial

/-- A token is decoded exactly when none of its pieces is a line end of two characters or a
backslash at the end; and when line feeds are to be kept, when there is none. -/
theorem string_exact_iff (keep : Bool) (content : List UInt8) :
    (∀ chars : Nat → UInt8, (∀ i c, (stringToken content)[i]? = some c → chars i = c) →
      (processStringToken chars (stringToken content).length).Exact keep content) ↔
    ∀ p ∈ pieces content, p.Sound keep := by
  have length : (stringToken content).length - 4 = content.length := by
    rw [stringToken, List.length_cons, List.length_cons, List.length_append]
    rfl
  have start {chars : Nat → UInt8}
      (token : ∀ i c, (stringToken content)[i]? = some c → chars i = c) :
      StringScan.Holds ⟨chars, 0, 2, [], []⟩ (content ++ [34]) := by
    intro i c hc
    refine token (2 + i) c ?_
    have token : stringToken content = [47, 34] ++ ((content ++ [34]) ++ [47]) := by
      simp [stringToken]
    rw [token, List.getElem?_append_right (by simp), List.getElem?_append_left]
    · simpa using hc
    · have lt := (List.getElem?_eq_some_iff.mp hc).1
      simpa using lt
  constructor
  · intro exact p mem
    by_contra unsound
    obtain ⟨chars, token⟩ : ∃ chars : Nat → UInt8,
        ∀ i c, (stringToken content)[i]? = some c → chars i = c := ⟨_, memory_of _⟩
    obtain ⟨consumed, -, text⟩ := exact chars token
    rw [processStringToken, length] at consumed text
    by_cases odd : ∃ p ∈ pieces content, p.Odd
    · have further := scanLoop_overshoots content odd (le_refl 2) (start token)
      have passed : (scanLoop content.length ⟨chars, 0, 2, [], []⟩).consumed =
        List.range' 2 content.length := consumed
      rw [passed, List.length_range', List.length_nil, Nat.zero_add] at further
      exact absurd further (lt_irrefl _)
    · have sound (q : Piece) (hq : q ∈ pieces content) : q.Sound false := by
        by_contra unsound
        obtain here | ⟨-, kept⟩ := Piece.not_sound unsound
        · exact odd ⟨q, hq, here⟩
        · cases kept
      have decodes := scanLoop_sound content sound (le_refl 2) (start token)
      obtain here | ⟨rfl, rfl⟩ := Piece.not_sound unsound
      · exact odd ⟨p, mem, here⟩
      · have longer := length_decode_lt mem
        rw [text_terminate, decodes.text] at text
        exact absurd (congrArg List.length text) (Nat.ne_of_lt longer)
  · intro sound chars token
    rw [processStringToken, length]
    have decodes := scanLoop_sound content sound (le_refl 2) (start token)
    refine ⟨decodes.consumed, fun w hw => ?_, (text_terminate _).trans decodes.text⟩
    obtain old | new := List.mem_append.mp hw
    · exact (decodes.written w old).elim (fun none => nomatch none) id
    · obtain rfl := List.mem_singleton.mp new
      have behind := decodes.behind
      dsimp only
      omega

/-- Behind a line end of two characters the closing quote is decoded as well. -/
theorem not_string_exact : ∃ (content : List UInt8) (chars : Nat → UInt8), 34 ∉ content ∧
    (∀ i c, (stringToken content)[i]? = some c → chars i = c) ∧ ∀ keep,
      ¬ (processStringToken chars (stringToken content).length).Exact keep content :=
  ⟨[13, 10], _, by decide, memory_of _, fun _ exact => absurd exact.1 (by decide)⟩

end ScCore.Scc
