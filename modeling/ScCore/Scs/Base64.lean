import ScCore.Lib.Base64
import Mathlib.Data.Nat.Bitwise

/-!
# Contents in base64

`unpack_base64` of `parser_func.c`: groups of four characters with white space between
them, where `=` is a digit and each of the last two characters decides for itself whether
there is a byte. There is memory for what is decoded.
-/

namespace ScCore.Scs

open Lib Base64

/-- `isspace`: the blank, and the characters from `\t` to `\r`. -/
def isspace (c : UInt8) : Bool := c == 32 || (9 ≤ c && c ≤ 13)

def base64Table : List Nat :=
  [ 128, 128, 128, 128, 128, 128, 128, 128,
    128, 128, 128, 128, 128, 128, 128, 128,
    128, 128, 128, 128, 128, 128, 128, 128,
    128, 128, 128, 128, 128, 128, 128, 128,
    128, 128, 128, 128, 128, 128, 128, 128,
    128, 128, 128, 62,  128, 128, 128, 63,
    52,  53,  54,  55,  56,  57,  58,  59,
    60,  61,  128, 128, 128, 0,   128, 128,
    128, 0,   1,   2,   3,   4,   5,   6,
    7,   8,   9,   10,  11,  12,  13,  14,
    15,  16,  17,  18,  19,  20,  21,  22,
    23,  24,  25,  128, 128, 128, 128, 128,
    128, 26,  27,  28,  29,  30,  31,  32,
    33,  34,  35,  36,  37,  38,  39,  40,
    41,  42,  43,  44,  45,  46,  47,  48,
    49,  50,  51,  128, 128, 128, 128, 128 ] ++ List.replicate 128 128

inductive Group where
  /-- There are no more characters before the first one. -/
  | out
  | err
  | full (chars : List UInt8) (num : Nat) (input : List UInt8)
  deriving DecidableEq

/-- The loop over the characters of a group. The four digits are bits of their own in
`num`, and none of its 32 bits is lost. -/
def readGroup (chars : List UInt8) (num : Nat) : List UInt8 → Group
  | [] => if chars.length = 0 then .out else .err
  | c :: input =>
      if isspace c then readGroup chars num input
      else
        let digit := base64Table.getD c.toNat 128
        if digit &&& 0x80 ≠ 0 then .err
        else
          let num := num ||| digit <<< (18 - 6 * chars.length)
          let chars := chars ++ [c]
          if chars.length = 4 then .full chars num input else readGroup chars num input

def groupBytes (chars : List UInt8) (num : Nat) : List UInt8 :=
  UInt8.ofNat (num >>> 16) ::
    ((if chars[2]? ≠ some pad then [UInt8.ofNat (num >>> 8)] else []) ++
      if chars[3]? ≠ some pad then [UInt8.ofNat num] else [])

def unpackLoop : Nat → List UInt8 → Option (List UInt8)
  | _, [] => some []
  | 0, _ => none
  | turns + 1, input =>
      match readGroup [] 0 input with
      | .out => some []
      | .err => none
      | .full chars num input => (unpackLoop turns input).map (groupBytes chars num ++ ·)

/-- `unpack_base64`: the bytes, or nothing for an error. -/
def unpackBase64 (input : List UInt8) : Option (List UInt8) := unpackLoop input.length input

def unspaced (input : List UInt8) : List UInt8 := input.filter (!isspace ·)

/-! ## White space -/

def Group.unspaced : Group → Group
  | .full chars num input => .full chars num (Scs.unspaced input)
  | group => group

theorem readGroup_unspaced (chars : List UInt8) (num : Nat) (input : List UInt8) :
    (readGroup chars num input).unspaced = (readGroup chars num (unspaced input)).unspaced := by
  induction input generalizing chars num with
  | nil => rfl
  | cons c input ih =>
    by_cases space : isspace c
    · have skipped : unspaced (c :: input) = unspaced input := by
        rw [unspaced, List.filter_cons_of_neg (by simp [space]), unspaced]
      rw [readGroup, if_pos space, skipped]
      exact ih chars num
    · have kept : unspaced (c :: input) = c :: unspaced input := by
        rw [unspaced, List.filter_cons_of_pos (by simp [space]), unspaced]
      have twice : unspaced (unspaced input) = unspaced input := by simp [unspaced]
      rw [kept, readGroup, readGroup, if_neg space, if_neg space]
      dsimp only
      split
      · rfl
      · split
        · rw [Group.unspaced, Group.unspaced, twice]
        · exact ih ..

variable {chars input text bytes : List UInt8} {num n : Nat} {c : UInt8}

theorem length_of_readGroup {chars' input' : List UInt8} {num' : Nat}
    (h : readGroup chars num input = .full chars' num' input') : input'.length < input.length := by
  induction input generalizing chars num with
  | nil =>
    rw [readGroup] at h
    split at h <;> cases h
  | cons c input ih =>
    rw [List.length_cons]
    rw [readGroup] at h
    dsimp only at h
    split at h
    · exact (ih h).trans (Nat.lt_succ_self _)
    · split at h
      · cases h
      · split at h
        · cases h
          exact Nat.lt_succ_self _
        · exact (ih h).trans (Nat.lt_succ_self _)

/-! ## Groups -/

/-- What the table has for a character: the bit of an error, or a digit. -/
theorem base64Table_getD (c : UInt8) :
    base64Table.getD c.toNat 128 = (if c = pad then 0 else (value c).getD 128) := by
  have all : ∀ n < 256, base64Table.getD n 128 =
      if UInt8.ofNat n = pad then 0 else (value (.ofNat n)).getD 128 := by decide +kernel
  have this := all c.toNat c.toNat_lt
  rwa [UInt8.ofNat_toNat] at this

def digitOf (c : UInt8) : Option Nat := if c = pad then some 0 else value c

theorem digitOf_of_value (h : value c = some n) : digitOf c = some n := by
  rw [digitOf, if_neg (ne_pad_of_value h), h]

theorem digitOf_lt (h : digitOf c = some n) : n < 64 := by
  rw [digitOf] at h
  split at h
  · cases h
    decide
  · exact value_lt h

theorem getD_of_digitOf (h : digitOf c = some n) : base64Table.getD c.toNat 128 = n := by
  rw [base64Table_getD]
  rw [digitOf] at h
  split at h
  · rw [if_pos ‹_›]
    exact Option.some.inj h
  · rw [if_neg ‹_›, h, Option.getD_some]

theorem getD_of_digitOf_none (h : digitOf c = none) : base64Table.getD c.toNat 128 = 128 := by
  rw [base64Table_getD]
  rw [digitOf] at h
  split at h
  · cases h
  · rw [if_neg ‹_›, h, Option.getD_none]

theorem readGroup_digit (input : List UInt8) (hspace : isspace c = false)
    (hc : digitOf c = some n) :
    readGroup chars num (c :: input) =
      if (chars ++ [c]).length = 4 then
        .full (chars ++ [c]) (num ||| n <<< (18 - 6 * chars.length)) input
      else readGroup (chars ++ [c]) (num ||| n <<< (18 - 6 * chars.length)) input := by
  have hbit : n &&& 0x80 = 0 := by
    have all : ∀ n < 64, n &&& 0x80 = 0 := by decide
    exact all n (digitOf_lt hc)
  rw [readGroup]
  simp only [hspace, getD_of_digitOf hc, hbit, ne_eq, not_true_eq_false, if_false,
    Bool.false_eq_true]

theorem readGroup_stray (input : List UInt8) (hspace : isspace c = false) (hc : digitOf c = none) :
    readGroup chars num (c :: input) = .err := by
  rw [readGroup]
  simp only [hspace, getD_of_digitOf_none hc, Bool.false_eq_true, if_false]
  rfl

def groupNum (a b c d : Nat) : Nat := ((a * 64 + b) * 64 + c) * 64 + d

theorem or_digit (num : Nat) (h : n < 64) (shift : Nat) :
    num <<< (shift + 6) ||| n <<< shift = (num * 64 + n) <<< shift := by
  rw [Nat.add_comm shift 6, Nat.shiftLeft_add, ← Nat.shiftLeft_or_distrib,
    ← Nat.shiftLeft_add_eq_or_of_lt (i := 6) h, Nat.shiftLeft_eq num 6]

theorem readGroup_four {a b d : UInt8} {na nb nc nd : Nat} (text : List UInt8)
    (hspace : ∀ x ∈ [a, b, c, d], isspace x = false) (ha : digitOf a = some na)
    (hb : digitOf b = some nb) (hc : digitOf c = some nc) (hd : digitOf d = some nd) :
    readGroup [] 0 (a :: b :: c :: d :: text) =
      .full [a, b, c, d] (groupNum na nb nc nd) text := by
  have hnum : (((0 ||| na <<< 18) ||| nb <<< 12) ||| nc <<< 6) ||| nd <<< 0 =
      groupNum na nb nc nd := by
    rw [Nat.zero_or, or_digit na (digitOf_lt hb) 12, or_digit _ (digitOf_lt hc) 6,
      or_digit _ (digitOf_lt hd) 0, Nat.shiftLeft_zero, groupNum]
  rw [readGroup_digit _ (hspace a (by simp)) ha, if_neg (by simp),
    readGroup_digit _ (hspace b (by simp)) hb, if_neg (by simp),
    readGroup_digit _ (hspace c (by simp)) hc, if_neg (by simp),
    readGroup_digit _ (hspace d (by simp)) hd, if_pos (by simp), ← hnum]
  rfl

theorem groupBytes_eq {a b d : UInt8} {na nb nc nd : Nat} (hc : nc < 64) (hd : nd < 64) :
    groupBytes [a, b, c, d] (groupNum na nb nc nd) =
      firstByte na nb :: ((if c ≠ pad then [secondByte nb nc] else []) ++
        if d ≠ pad then [thirdByte nc nd] else []) := by
  have first : UInt8.ofNat (groupNum na nb nc nd >>> 16) = firstByte na nb := by
    apply UInt8.toNat_inj.mp
    rw [firstByte, UInt8.toNat_ofNat', UInt8.toNat_ofNat', Nat.shiftRight_eq_div_pow, groupNum]
    omega
  have second : UInt8.ofNat (groupNum na nb nc nd >>> 8) = secondByte nb nc := by
    apply UInt8.toNat_inj.mp
    rw [secondByte, UInt8.toNat_ofNat', UInt8.toNat_ofNat', Nat.shiftRight_eq_div_pow, groupNum]
    omega
  have third : UInt8.ofNat (groupNum na nb nc nd) = thirdByte nc nd := by
    apply UInt8.toNat_inj.mp
    rw [thirdByte, UInt8.toNat_ofNat', UInt8.toNat_ofNat', groupNum]
    omega
  rw [groupBytes, first, second, third]
  simp

def unpackGroups : List UInt8 → Option (List UInt8)
  | [] => some []
  | a :: b :: c :: d :: text =>
      (digitOf a).bind fun na => (digitOf b).bind fun nb =>
        (digitOf c).bind fun nc => (digitOf d).bind fun nd =>
          (unpackGroups text).map fun bytes =>
            firstByte na nb :: ((if c ≠ pad then [secondByte nb nc] else []) ++
              if d ≠ pad then [thirdByte nc nd] else []) ++ bytes
  | _ => none

theorem readGroup_err (chars : List UInt8) (num : Nat) (hspace : ∀ c ∈ text, isspace c = false)
    (h : ∃ c ∈ text.take (4 - chars.length), digitOf c = none) :
    readGroup chars num text = .err := by
  induction text generalizing chars num with
  | nil =>
    obtain ⟨c, hmem, -⟩ := h
    rw [List.take_nil] at hmem
    cases hmem
  | cons c text ih =>
    cases hc : digitOf c with
    | none => exact readGroup_stray text (hspace c List.mem_cons_self) hc
    | some n =>
      obtain ⟨c', hmem, hc'⟩ := h
      obtain ⟨room, hroom⟩ : ∃ room, 4 - chars.length = room + 1 := by
        cases hlen : 4 - chars.length with
        | zero =>
          rw [hlen, List.take_zero] at hmem
          cases hmem
        | succ room => exact ⟨room, rfl⟩
      rw [hroom, List.take_succ_cons, List.mem_cons] at hmem
      obtain rfl | hmem := hmem
      · rw [hc] at hc'
        cases hc'
      · have hlen : (chars ++ [c]).length = chars.length + 1 := List.length_append
        have hrest : 4 - (chars ++ [c]).length = room := by omega
        have more : (chars ++ [c]).length ≠ 4 := by
          intro full
          rw [← hrest, full, Nat.sub_self, List.take_zero] at hmem
          cases hmem
        rw [readGroup_digit text (hspace c List.mem_cons_self) hc, if_neg more]
        exact ih _ _ (fun x hx => hspace x (List.mem_cons_of_mem _ hx))
          ⟨c', by rwa [hrest], hc'⟩

theorem readGroup_short (chars : List UInt8) (num : Nat) (hspace : ∀ c ∈ text, isspace c = false)
    (begun : chars ++ text ≠ []) (short : (chars ++ text).length < 4) :
    readGroup chars num text = .err := by
  induction text generalizing chars num with
  | nil =>
    rw [List.append_nil] at begun
    rw [readGroup, if_neg (by rwa [List.length_eq_zero_iff])]
  | cons c text ih =>
    have hspace' : ∀ x ∈ text, isspace x = false :=
      fun x hx => hspace x (List.mem_cons_of_mem _ hx)
    cases hc : digitOf c with
    | none => exact readGroup_stray text (hspace c List.mem_cons_self) hc
    | some n =>
      have split : chars ++ c :: text = (chars ++ [c]) ++ text := by simp
      rw [split] at begun short
      have more : (chars ++ [c]).length ≠ 4 := by
        rw [List.length_append] at short
        omega
      rw [readGroup_digit text (hspace c List.mem_cons_self) hc, if_neg more]
      exact ih _ _ hspace' begun short

theorem isspace_of_mem_unspaced : ∀ c ∈ unspaced input, isspace c = false := by
  intro c hc
  rw [unspaced, List.mem_filter] at hc
  simpa using hc.2

theorem readGroup_input (input : List UInt8) :
    match unspaced input with
    | [] => readGroup [] 0 input = .out
    | a :: b :: c :: d :: text =>
        match digitOf a, digitOf b, digitOf c, digitOf d with
        | some na, some nb, some nc, some nd =>
            ∃ rest, unspaced rest = text ∧
              readGroup [] 0 input = .full [a, b, c, d] (groupNum na nb nc nd) rest
        | _, _, _, _ => readGroup [] 0 input = .err
    | _ => readGroup [] 0 input = .err := by
  have same := readGroup_unspaced [] 0 input
  have hspace : ∀ c ∈ unspaced input, isspace c = false := isspace_of_mem_unspaced
  have out : (readGroup [] 0 input).unspaced = .out → readGroup [] 0 input = .out := by
    cases readGroup [] 0 input <;> simp [Group.unspaced]
  have err : (readGroup [] 0 input).unspaced = .err → readGroup [] 0 input = .err := by
    cases readGroup [] 0 input <;> simp [Group.unspaced]
  have full : ∀ chars num text,
      (readGroup [] 0 input).unspaced = .full chars num text →
        ∃ rest, unspaced rest = text ∧ readGroup [] 0 input = .full chars num rest := by
    intro chars num text h
    cases hgroup : readGroup [] 0 input with
    | out => simp [hgroup, Group.unspaced] at h
    | err => simp [hgroup, Group.unspaced] at h
    | full chars' num' rest =>
      simp only [hgroup, Group.unspaced, Group.full.injEq] at h
      obtain ⟨rfl, rfl, rfl⟩ := h
      exact ⟨rest, rfl, rfl⟩
  generalize hinput : unspaced input = text at same hspace
  have twice : unspaced text = text := by rw [← hinput]; simp [unspaced]
  have short : text ≠ [] → text.length < 4 → readGroup [] 0 input = .err := by
    intro hne hlen
    apply err
    rw [same, readGroup_short [] 0 hspace hne hlen]
    rfl
  split
  · exact out same
  · rename_i a b c d text
    have stray : (∃ x ∈ [a, b, c, d], digitOf x = none) → readGroup [] 0 input = .err := by
      intro h
      apply err
      rw [same, readGroup_err [] 0 hspace h]
      rfl
    split
    · rename_i na nb nc nd ha hb hc hd
      apply full
      have four : ∀ x ∈ [a, b, c, d], isspace x = false := by
        intro x hx
        apply hspace
        simp only [List.mem_cons, List.not_mem_nil, or_false] at hx ⊢
        tauto
      rw [same, readGroup_four text four ha hb hc hd, Group.unspaced]
      have tail : unspaced text = text := by
        simp only [unspaced, List.filter_eq_self] at twice ⊢
        intro x hx
        exact twice x (by simp [hx])
      rw [tail]
    · rename_i hall
      apply stray
      by_contra none
      push Not at none
      obtain ⟨na, ha⟩ := Option.ne_none_iff_exists'.mp (none a (by simp))
      obtain ⟨nb, hb⟩ := Option.ne_none_iff_exists'.mp (none b (by simp))
      obtain ⟨nc, hc⟩ := Option.ne_none_iff_exists'.mp (none c (by simp))
      obtain ⟨nd, hd⟩ := Option.ne_none_iff_exists'.mp (none d (by simp))
      exact hall na nb nc nd ha hb hc hd
  · rename_i hnil hfour
    apply short
    · exact hnil
    · match text with
      | [] | [_] | [_, _] | [_, _, _] => simp
      | a :: b :: c :: d :: text => exact absurd rfl (hfour a b c d text)

theorem unpackLoop_eq {turns : Nat} (enough : input.length ≤ turns) :
    unpackLoop turns input = unpackGroups (unspaced input) := by
  induction turns generalizing input with
  | zero =>
    obtain rfl := List.length_eq_zero_iff.mp (Nat.le_zero.mp enough)
    rfl
  | succ turns ih =>
    cases input with
    | nil => rfl
    | cons c input =>
      rw [unpackLoop.eq_3 _ _ (by simp)]
      have group := readGroup_input (c :: input)
      generalize unspaced (c :: input) = text at group ⊢
      split at group
      · rw [group]
        rfl
      · rename_i x y z w text
        rw [unpackGroups]
        split at group
        · rename_i nx ny nz nw hx hy hz hw
          obtain ⟨rest, rfl, group⟩ := group
          have fewer := length_of_readGroup group
          rw [group]
          dsimp only
          rw [ih (by omega), hx, hy, hz, hw]
          simp only [Option.bind_some, groupBytes_eq (digitOf_lt hz) (digitOf_lt hw)]
        · rename_i hall
          rw [group]
          dsimp only
          symm
          rw [Option.eq_none_iff_forall_ne_some]
          intro bytes h
          obtain ⟨nx, hx, h⟩ := Option.bind_eq_some_iff.mp h
          obtain ⟨ny, hy, h⟩ := Option.bind_eq_some_iff.mp h
          obtain ⟨nz, hz, h⟩ := Option.bind_eq_some_iff.mp h
          obtain ⟨nw, hw, -⟩ := Option.bind_eq_some_iff.mp h
          exact hall nx ny nz nw hx hy hz hw
      · rename_i hnil hfour
        rw [group]
        match text with
        | [] => exact absurd rfl hnil
        | [_] | [_, _] | [_, _, _] => rfl
        | a :: b :: c :: d :: text => exact absurd rfl (hfour a b c d text)

theorem unpackBase64_eq (input : List UInt8) :
    unpackBase64 input = unpackGroups (unspaced input) := unpackLoop_eq le_rfl

/-! ## Padding -/

theorem unpackGroups_of_decode (h : decode text = some bytes) : unpackGroups text = some bytes := by
  induction text using decode.induct generalizing bytes with
  | case1 => exact h
  | case2 a b c d text ih =>
    rw [decode] at h
    obtain ⟨na, ha, h⟩ := Option.bind_eq_some_iff.mp h
    obtain ⟨nb, hb, hrest⟩ := Option.bind_eq_some_iff.mp h
    clear h
    rw [unpackGroups, digitOf_of_value ha, digitOf_of_value hb, Option.bind_some, Option.bind_some]
    have padding : digitOf pad = some 0 := rfl
    split at hrest
    next hpads =>
      obtain ⟨rfl, rfl, rfl⟩ := hpads
      rw [padding]
      exact hrest
    next =>
      obtain ⟨nc, hc, hlast⟩ := Option.bind_eq_some_iff.mp hrest
      clear hrest
      rw [digitOf_of_value hc, Option.bind_some, if_pos (ne_pad_of_value hc)]
      split at hlast
      next hpad =>
        obtain ⟨rfl, rfl⟩ := hpad
        rw [padding]
        exact hlast
      next =>
        obtain ⟨nd, hd, hmore⟩ := Option.bind_eq_some_iff.mp hlast
        obtain ⟨rest, hrest, rfl⟩ := Option.map_eq_some_iff.mp hmore
        rw [digitOf_of_value hd, Option.bind_some, if_pos (ne_pad_of_value hd), ih hrest]
        rfl
  | case3 text hnil hfour =>
    rw [decode.eq_def] at h
    grind

theorem decode_of_unpackGroups (hlast : PadsLast text) (h : unpackGroups text = some bytes) :
    decode text = some bytes := by
  induction text using unpackGroups.induct generalizing bytes with
  | case1 => exact h
  | case2 a b c d text ih =>
    have value_of {x : UInt8} {n : Nat} (hx : digitOf x = some n) (hne : x ≠ pad) :
        value x = some n := by rwa [digitOf, if_neg hne] at hx
    obtain ⟨na, ha, h⟩ := Option.bind_eq_some_iff.mp h
    obtain ⟨nb, hb, h⟩ := Option.bind_eq_some_iff.mp h
    obtain ⟨nc, hc, h⟩ := Option.bind_eq_some_iff.mp h
    obtain ⟨nd, hd, h⟩ := Option.bind_eq_some_iff.mp h
    obtain ⟨rest, hrest, rfl⟩ := Option.map_eq_some_iff.mp h
    obtain ⟨nea, hlast⟩ := hlast.of_cons (by simp)
    obtain ⟨neb, hlast⟩ := hlast.of_cons (by simp)
    rw [decode, value_of ha nea, value_of hb neb, Option.bind_some, Option.bind_some]
    cases text with
    | nil =>
      cases hrest
      by_cases padc : c = pad
      · have padd := hlast.pair padc
        rw [if_pos ⟨rfl, padc, padd⟩, if_neg (not_not.mpr padc), if_neg (not_not.mpr padd)]
        rfl
      · rw [if_neg (fun h => padc h.2.1), value_of hc padc, Option.bind_some, if_pos padc]
        by_cases padd : d = pad
        · rw [if_pos ⟨rfl, padd⟩, if_neg (not_not.mpr padd)]
          rfl
        · rw [if_neg (fun h => padd h.2), value_of hd padd, if_pos padd]
          rfl
    | cons e text =>
      -- behind the group there are four characters at least
      have long : 2 ≤ (e :: text).length := by
        cases text with
        | nil => cases hrest
        | cons => simp
      obtain ⟨nec, hlast⟩ := hlast.of_cons (by rw [List.length_cons]; omega)
      obtain ⟨ned, hlast⟩ := hlast.of_cons long
      rw [if_neg (by simp), value_of hc nec, Option.bind_some, if_neg (by simp),
        value_of hd ned, Option.bind_some, ih hlast hrest, if_pos nec, if_pos ned]
      rfl
  | case3 text hnil hfour =>
    rw [unpackGroups.eq_def] at h
    grind

theorem unpackGroups_isSome_iff (text : List UInt8) :
    (unpackGroups text).isSome ↔ 4 ∣ text.length ∧ ∀ c ∈ text, c = pad ∨ (value c).isSome := by
  have digit_iff (c : UInt8) : (digitOf c).isSome ↔ c = pad ∨ (value c).isSome := by
    rw [digitOf]
    split <;> simp [*]
  induction text using unpackGroups.induct with
  | case1 => simp [unpackGroups]
  | case2 a b c d text ih =>
    have length : 4 ∣ (a :: b :: c :: d :: text).length ↔ 4 ∣ text.length := by
      simp only [List.length_cons]
      omega
    rw [length]
    simp only [List.forall_mem_cons, ← digit_iff] at ih ⊢
    rw [unpackGroups]
    cases ha : digitOf a <;> cases hb : digitOf b <;> cases hc : digitOf c <;>
      cases hd : digitOf d <;> simp_all
  | case3 text hnil hfour =>
    match text with
    | [] => exact absurd rfl hnil
    | [_] | [_, _] | [_, _, _] => simp [unpackGroups]
    | a :: b :: c :: d :: text => exact absurd rfl (hfour a b c d text)

/-- Exactly the inputs where padding stands at the end, and those that are refused for
something else, are decoded as the encoding is: what is encoded, with white space anywhere,
is given back, and what is accepted is a valid encoding. -/
theorem unpackBase64_exact_iff (input : List UInt8) :
    ((∀ bytes, unspaced input = encode bytes → unpackBase64 input = some bytes) ∧
      ∀ bytes, unpackBase64 input = some bytes →
        PadsLast (unspaced input) ∧ decode (unspaced input) = some bytes) ↔
      PadsLast (unspaced input) ∨ ¬ 4 ∣ (unspaced input).length ∨
        ∃ c ∈ unspaced input, c ≠ pad ∧ value c = none := by
  rw [unpackBase64_eq]
  constructor
  · rintro ⟨-, valid⟩
    by_contra refused
    push Not at refused
    obtain ⟨misplaced, length, digits⟩ := refused
    have accepted : (unpackGroups (unspaced input)).isSome := by
      rw [unpackGroups_isSome_iff]
      refine ⟨length, fun c hc => ?_⟩
      rw [Option.isSome_iff_ne_none, or_iff_not_imp_left]
      exact digits c hc
    obtain ⟨bytes, hbytes⟩ := Option.isSome_iff_exists.mp accepted
    exact misplaced (valid bytes hbytes).1
  · intro condition
    have whole : ∀ bytes, unspaced input = encode bytes →
        unpackGroups (unspaced input) = some bytes := by
      intro bytes hinput
      rw [hinput]
      exact unpackGroups_of_decode (decode_encode bytes)
    refine ⟨whole, fun bytes hbytes => ?_⟩
    obtain ⟨length, digits⟩ :=
      (unpackGroups_isSome_iff _).mp (Option.isSome_iff_exists.mpr ⟨bytes, hbytes⟩)
    obtain last | short | ⟨c, hc, hne, hnone⟩ := condition
    · exact ⟨last, decode_of_unpackGroups last hbytes⟩
    · exact absurd length short
    · obtain hpad | hsome := digits c hc
      · exact absurd hpad hne
      · rw [hnone] at hsome
        cases hsome

/-- `A=BC` is accepted, with padding in the second place. -/
theorem unpackBase64_misplaced :
    ¬ ∀ input bytes : List UInt8, unpackBase64 input = some bytes →
      PadsLast (unspaced input) ∧ decode (unspaced input) = some bytes := by
  intro h
  have accepted := (h [65, 61, 66, 67] [0, 0, 66] (by decide +kernel)).2
  exact absurd accepted (by decide +kernel)

end ScCore.Scs
