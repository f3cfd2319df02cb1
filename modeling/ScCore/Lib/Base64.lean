import Mathlib.Data.List.Basic

/-!
# Base64

The standard alphabet, the encoding of bytes with padding, and the decoding of a text that
is padded.
-/

namespace ScCore.Lib.Base64

/-- `=`. -/
def pad : UInt8 := 61

/-- The character of a digit. -/
def digit (n : Nat) : UInt8 :=
  if n < 26 then .ofNat (n + 65)
  else if n < 52 then .ofNat (n + 71)
  else if n < 62 then .ofNat (n - 4)
  else if n = 62 then 43
  else 47

/-- The digit of a character of the alphabet. -/
def value (c : UInt8) : Option Nat :=
  if 65 ≤ c.toNat ∧ c.toNat ≤ 90 then some (c.toNat - 65)
  else if 97 ≤ c.toNat ∧ c.toNat ≤ 122 then some (c.toNat - 71)
  else if 48 ≤ c.toNat ∧ c.toNat ≤ 57 then some (c.toNat + 4)
  else if c.toNat = 43 then some 62
  else if c.toNat = 47 then some 63
  else none

/-! ## Groups

A group of four digits has three bytes. -/

def firstByte (a b : Nat) : UInt8 := .ofNat (a * 4 + b / 16)

def secondByte (b c : Nat) : UInt8 := .ofNat (b % 16 * 16 + c / 4)

def thirdByte (c d : Nat) : UInt8 := .ofNat (c % 4 * 64 + d)

def encode : List UInt8 → List UInt8
  | [] => []
  | [x] => [digit (x.toNat / 4), digit (x.toNat % 4 * 16), pad, pad]
  | [x, y] =>
      [digit (x.toNat / 4), digit (x.toNat % 4 * 16 + y.toNat / 16),
        digit (y.toNat % 16 * 4), pad]
  | x :: y :: z :: bytes =>
      digit (x.toNat / 4) :: digit (x.toNat % 4 * 16 + y.toNat / 16) ::
        digit (y.toNat % 16 * 4 + z.toNat / 64) :: digit (z.toNat % 64) :: encode bytes

/-- The last group may have one or two characters of padding at its end. -/
def decode : List UInt8 → Option (List UInt8)
  | [] => some []
  | a :: b :: c :: d :: text =>
      (value a).bind fun a => (value b).bind fun b =>
        if text = [] ∧ c = pad ∧ d = pad then some [firstByte a b]
        else (value c).bind fun c =>
          if text = [] ∧ d = pad then some [firstByte a b, secondByte b c]
          else (value d).bind fun d => (decode text).map fun bytes =>
            firstByte a b :: secondByte b c :: thirdByte c d :: bytes
  | _ => none

/-- Padding stands nowhere but in the last place or in the last two. -/
def PadsLast (text : List UInt8) : Prop :=
  ∃ body tail, text = body ++ tail ∧ pad ∉ body ∧ (tail = [] ∨ tail = [pad] ∨ tail = [pad, pad])

variable {n : Nat}

theorem value_digit (h : n < 64) : value (digit n) = some n := by
  have all : ∀ n < 64, value (digit n) = some n := by decide
  exact all n h

theorem value_lt {c : UInt8} (h : value c = some n) : n < 64 := by
  unfold value at h
  grind

theorem value_pad : value pad = none := rfl

theorem ne_pad_of_value {c : UInt8} (h : value c = some n) : c ≠ pad := by
  intro hc
  rw [hc, value_pad] at h
  cases h

theorem digit_ne_pad (h : n < 64) : digit n ≠ pad := ne_pad_of_value (value_digit h)

theorem firstByte_eq (x : UInt8) {b : Nat} (h : b < 16) :
    firstByte (x.toNat / 4) (x.toNat % 4 * 16 + b) = x := by
  apply UInt8.toNat_inj.mp
  rw [firstByte, UInt8.toNat_ofNat']
  have hx : x.toNat < 256 := x.toNat_lt
  omega

theorem secondByte_eq (x y : UInt8) {c : Nat} (h : c < 4) :
    secondByte (x.toNat % 4 * 16 + y.toNat / 16) (y.toNat % 16 * 4 + c) = y := by
  apply UInt8.toNat_inj.mp
  rw [secondByte, UInt8.toNat_ofNat']
  have hy : y.toNat < 256 := y.toNat_lt
  omega

theorem thirdByte_eq (y z : UInt8) :
    thirdByte (y.toNat % 16 * 4 + z.toNat / 64) (z.toNat % 64) = z := by
  apply UInt8.toNat_inj.mp
  rw [thirdByte, UInt8.toNat_ofNat']
  have hz : z.toNat < 256 := z.toNat_lt
  omega

theorem decode_encode (bytes : List UInt8) : decode (encode bytes) = some bytes := by
  induction bytes using encode.induct with
  | case1 => rfl
  | case2 x =>
    have hx : x.toNat < 256 := x.toNat_lt
    have first := firstByte_eq x (b := 0) (by omega)
    simp only [Nat.add_zero] at first
    simp only [encode, decode, value_digit (n := x.toNat / 4) (by omega),
      value_digit (n := x.toNat % 4 * 16) (by omega), Option.bind_some, and_self, if_true, first]
  | case3 x y =>
    have hx : x.toNat < 256 := x.toNat_lt
    have hy : y.toNat < 256 := y.toNat_lt
    have second := secondByte_eq x y (c := 0) (by omega)
    simp only [Nat.add_zero] at second
    have third : digit (y.toNat % 16 * 4) ≠ pad := digit_ne_pad (by omega)
    simp only [encode, decode, value_digit (n := x.toNat / 4) (by omega),
      value_digit (n := x.toNat % 4 * 16 + y.toNat / 16) (by omega),
      value_digit (n := y.toNat % 16 * 4) (by omega), Option.bind_some, third, false_and,
      and_false, if_false, and_self, if_true, firstByte_eq x (b := y.toNat / 16) (by omega),
      second]
  | case4 x y z bytes ih =>
    have hx : x.toNat < 256 := x.toNat_lt
    have hy : y.toNat < 256 := y.toNat_lt
    have hz : z.toNat < 256 := z.toNat_lt
    have fourth : digit (z.toNat % 64) ≠ pad := digit_ne_pad (by omega)
    simp only [encode, decode, value_digit (n := x.toNat / 4) (by omega),
      value_digit (n := x.toNat % 4 * 16 + y.toNat / 16) (by omega),
      value_digit (n := y.toNat % 16 * 4 + z.toNat / 64) (by omega),
      value_digit (n := z.toNat % 64) (by omega), Option.bind_some, fourth, and_false,
      if_false, firstByte_eq x (b := y.toNat / 16) (by omega),
      secondByte_eq x y (c := z.toNat / 64) (by omega), thirdByte_eq, ih, Option.map_some]

namespace PadsLast

variable {c : UInt8} {text : List UInt8}

theorem of_cons (h : PadsLast (c :: text)) (long : 2 ≤ text.length) : c ≠ pad ∧ PadsLast text := by
  obtain ⟨body, tail, heq, hbody, htail⟩ := h
  cases body with
  | nil =>
    have short : tail.length ≤ 2 := by obtain rfl | rfl | rfl := htail <;> decide
    have hlen := congrArg List.length heq
    rw [List.nil_append, List.length_cons] at hlen
    omega
  | cons c' body =>
    rw [List.cons_append] at heq
    injection heq with hc htext
    rw [List.mem_cons, not_or] at hbody
    exact ⟨fun hp => hbody.1 (by rw [← hc, hp]), body, tail, htext, hbody.2, htail⟩

theorem pair {d : UInt8} (h : PadsLast [c, d]) (hc : c = pad) : d = pad := by
  obtain ⟨body, tail, heq, hbody, htail⟩ := h
  cases body with
  | nil =>
    rw [List.nil_append] at heq
    obtain rfl | rfl | rfl := htail <;> simp at heq
    exact heq.2
  | cons c' body =>
    rw [List.cons_append] at heq
    injection heq with hc' _
    rw [List.mem_cons, not_or] at hbody
    exact absurd (hc.symm.trans hc') hbody.1

end PadsLast

end ScCore.Lib.Base64
