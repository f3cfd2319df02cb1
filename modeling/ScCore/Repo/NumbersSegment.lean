import ScCore.Lib.Decimals

/-!
# Segment of numbers

`numbers_segment`, whose elements are made when they are looked for: an identifier is a number
between a prefix and a suffix.
-/

namespace ScCore.Repo

open Lib

/-- `numbers_segment`. An element is the place of its number in the order of their creation. -/
structure NumbersSegment where
  pre : List UInt8
  suf : List UInt8
  nums : List Int
  deriving DecidableEq

/-- A difference of two sizes; one that wraps is larger than every size. -/
def sizeSub (m n : Nat) : Option Nat := if n ≤ m then some (m - n) else none

def sizeofBuf : Nat := 33

def isBlank (c : UInt8) : Bool := c = 32 ∨ 9 ≤ c ∧ c ≤ 13

/-- The least `int`. -/
def intMin : Int := -2 ^ 31

/-- The greatest `int`. -/
def intMax : Int := 2 ^ 31 - 1

/-- `istr >> num`. The number is nearest to what stands there; it is `unread` when there is none. -/
def readInt (unread : Int) (bytes : List UInt8) : Int :=
  match readSigned (bytes.dropWhile isBlank) with
  | none => unread
  | some n => max intMin (min intMax n)

namespace NumbersSegment

variable (seg : NumbersSegment)

/-- `num2element`: the element of a number, which is made if there is none. -/
def element (num : Int) : Nat × NumbersSegment :=
  match seg.nums.idxOf? num with
  | some el => (el, seg)
  | none => (seg.nums.length, { seg with nums := seg.nums ++ [num] })

/-- `find_by_idtf`. The part of `buf` before the number is never written, it holds `junk`. Nothing
at all is for `std::out_of_range` and for a write outside of `buf`. -/
def findByIdtf (junk : Nat → UInt8) (unread : Int) (idtf : List UInt8) :
    Option (Option Nat × NumbersSegment) :=
  if idtf.take seg.pre.length ≠ seg.pre then some (none, seg)
  else match sizeSub idtf.length seg.suf.length with
    | none => none
    | some suffixStart =>
        if (idtf.drop suffixStart).take seg.suf.length ≠ seg.suf then some (none, seg)
        else match sizeSub suffixStart seg.pre.length with
          | none => some (none, seg)
          | some size =>
              if sizeofBuf ≤ size then some (none, seg)
              else if sizeofBuf ≤ suffixStart then none
              else
                let buf := (List.range seg.pre.length).map junk ++
                  (idtf.drop seg.pre.length).take size
                let (el, seg) := seg.element (readInt unread (buf.takeWhile (· ≠ 0)))
                some (some el, seg)

def getIdtf (el : Nat) : Option (List UInt8) := seg.nums[el]?.map decimal

/-- A call of `find_by_idtf`. -/
def Finds (seg seg' : NumbersSegment) : Prop :=
  ∃ junk unread idtf r, seg.findByIdtf junk unread idtf = some (r, seg')

def Later : NumbersSegment → NumbersSegment → Prop := Relation.ReflTransGen Finds

def Names (idtf : List UInt8) : Prop := ∃ n : Int, idtf = seg.pre ++ decimal n ++ seg.suf

/-- `find_by_idtf` gives an element for the names only, and its identifier is the name. -/
def Exact (junk : Nat → UInt8) (unread : Int) (idtf : List UInt8) : Prop :=
  ∃ r seg', seg.findByIdtf junk unread idtf = some (r, seg') ∧ (r.isSome ↔ seg.Names idtf) ∧
    ∀ el, r = some el → seg'.getIdtf el = some idtf

/-- The strings that `find_by_idtf` gets right. -/
def Right (pre suf idtf : List UInt8) : Prop :=
  ¬ pre <+: idtf ∨ suf.length ≤ idtf.length ∧
    (¬ suf <:+ idtf ∨ idtf.length < pre.length + suf.length ∨
      (∃ middle, idtf = pre ++ middle ++ suf ∧ sizeofBuf ≤ middle.length ∧
        ∀ n, middle ≠ decimal n) ∨
      pre = [] ∧ suf = [] ∧ ∃ n, intMin ≤ n ∧ n ≤ intMax ∧ idtf = decimal n)

def Separate (idtf idtf' : List UInt8) : Prop :=
  seg.Names idtf → seg.Names idtf' → idtf ≠ idtf' → ∀ junk unread el seg₁,
    seg.findByIdtf junk unread idtf = some (some el, seg₁) → ∀ seg₂, Later seg₁ seg₂ →
      ∀ junk' unread' el' seg₃,
        seg₂.findByIdtf junk' unread' idtf' = some (some el', seg₃) → el' ≠ el

theorem element_spec (num : Int) :
    ∃ more, (seg.element num).2 = { seg with nums := seg.nums ++ more } ∧
      (seg.element num).2.nums[(seg.element num).1]? = some num := by
  rw [element]
  split
  · next el found =>
    obtain ⟨lt, here, -⟩ := List.idxOf?_eq_some_iff.mp found
    refine ⟨[], by rw [List.append_nil], ?_⟩
    rw [List.getElem?_eq_getElem lt]
    exact congrArg some (by simpa using here)
  · exact ⟨[num], rfl, by simp⟩

variable {seg} {seg' : NumbersSegment} {junk : Nat → UInt8} {unread : Int} {idtf : List UInt8}

theorem findByIdtf_spec {r : Option Nat} (h : seg.findByIdtf junk unread idtf = some (r, seg')) :
    r = none ∧ seg' = seg ∨ ∃ num, r = some (seg.element num).1 ∧ seg' = (seg.element num).2 := by
  rw [findByIdtf] at h
  split at h
  · cases h
    exact .inl ⟨rfl, rfl⟩
  · split at h
    · cases h
    · split at h
      · cases h
        exact .inl ⟨rfl, rfl⟩
      · split at h
        · cases h
          exact .inl ⟨rfl, rfl⟩
        · split at h
          · cases h
            exact .inl ⟨rfl, rfl⟩
          · split at h
            · cases h
            · cases h
              exact .inr ⟨_, rfl, rfl⟩

theorem Later.more (h : Later seg seg') :
    ∃ more, seg' = { seg with nums := seg.nums ++ more } := by
  induction h with
  | refl => exact ⟨[], by rw [List.append_nil]⟩
  | tail _ finds ih =>
    obtain ⟨more, rfl⟩ := ih
    obtain ⟨junk, unread, idtf, r, finds⟩ := finds
    obtain ⟨-, rfl⟩ | ⟨num, -, rfl⟩ := findByIdtf_spec finds
    · exact ⟨more, rfl⟩
    · obtain ⟨last, made, -⟩ := element_spec { seg with nums := seg.nums ++ more } num
      exact ⟨more ++ last, by rw [made, List.append_assoc]⟩

theorem findByIdtf_between (middle : List UInt8) :
    seg.findByIdtf junk unread (seg.pre ++ middle ++ seg.suf) =
      if sizeofBuf ≤ middle.length then some (none, seg)
      else if sizeofBuf ≤ seg.pre.length + middle.length then none
      else
        let buf := (List.range seg.pre.length).map junk ++ middle
        let found := seg.element (readInt unread (buf.takeWhile (· ≠ 0)))
        some (some found.1, found.2) := by
  have start : sizeSub (seg.pre ++ middle ++ seg.suf).length seg.suf.length =
      some (seg.pre ++ middle).length := by
    rw [sizeSub, List.length_append, if_pos (Nat.le_add_left _ _), Nat.add_sub_cancel]
  have size : sizeSub (seg.pre ++ middle).length seg.pre.length = some middle.length := by
    rw [sizeSub, List.length_append, if_pos (Nat.le_add_right _ _), Nat.add_sub_cancel_left]
  rw [findByIdtf, if_neg (by simp), start]
  dsimp only
  rw [if_neg (by simp), size]
  dsimp only
  rw [List.append_assoc, List.drop_left, List.take_left, List.length_append]

theorem findByIdtf_no_prefix (h : ¬ seg.pre <+: idtf) :
    seg.findByIdtf junk unread idtf = some (none, seg) :=
  if_pos fun same => h (List.prefix_iff_eq_take.mpr same.symm)

theorem findByIdtf_no_suffix (le : seg.suf.length ≤ idtf.length) (h : ¬ seg.suf <:+ idtf) :
    seg.findByIdtf junk unread idtf = some (none, seg) := by
  have other : (idtf.drop (idtf.length - seg.suf.length)).take seg.suf.length ≠ seg.suf := by
    intro same
    rw [List.take_of_length_le (by rw [List.length_drop]; omega)] at same
    exact h (List.suffix_iff_eq_drop.mpr same.symm)
  rw [findByIdtf]
  split
  · rfl
  · rw [sizeSub, if_pos le]
    exact if_pos other

theorem findByIdtf_overlap (le : seg.suf.length ≤ idtf.length)
    (lt : idtf.length < seg.pre.length + seg.suf.length) :
    seg.findByIdtf junk unread idtf = some (none, seg) := by
  have size : sizeSub (idtf.length - seg.suf.length) seg.pre.length = none := if_neg (by omega)
  rw [findByIdtf, sizeSub, if_pos le]
  split
  · rfl
  · dsimp only
    split
    · rfl
    · rw [size]

theorem findByIdtf_short (pre : seg.pre <+: idtf) (lt : idtf.length < seg.suf.length) :
    seg.findByIdtf junk unread idtf = none := by
  rw [findByIdtf, if_neg (not_not.mpr (List.prefix_iff_eq_take.mp pre).symm), sizeSub,
    if_neg (by omega)]

theorem between_of (pre : seg.pre <+: idtf) (suf : seg.suf <:+ idtf)
    (le : seg.pre.length + seg.suf.length ≤ idtf.length) :
    ∃ middle, idtf = seg.pre ++ middle ++ seg.suf := by
  obtain ⟨rest, rfl⟩ := pre
  obtain ⟨middle, rfl⟩ : seg.suf <:+ rest :=
    List.suffix_of_suffix_length_le suf (List.suffix_append _ _) (by
      rw [List.length_append] at le
      omega)
  exact ⟨middle, (List.append_assoc _ _ _).symm⟩

theorem names_between {middle : List UInt8} :
    seg.Names (seg.pre ++ middle ++ seg.suf) ↔ ∃ n, middle = decimal n := by
  refine exists_congr fun n => ?_
  rw [List.append_left_inj, List.append_right_inj]

theorem readInt_decimal (n : Int) :
    readInt unread ((decimal n).takeWhile (· ≠ 0)) = max intMin (min intMax n) := by
  have byte {c : UInt8} (mem : c ∈ decimal n) : isDigit c = true ∨ c = 45 := mem_decimal mem
  have whole : (decimal n).takeWhile (· ≠ 0) = decimal n := by
    refine List.takeWhile_eq_self_iff.mpr fun c mem => ?_
    obtain digit | rfl := byte mem
    · refine decide_eq_true fun zero => ?_
      rw [zero] at digit
      cases digit
    · decide
  obtain ⟨c, rest, hc⟩ := List.exists_cons_of_ne_nil (decimal_ne_nil n)
  have first : isBlank c = false := by
    obtain digit | rfl := byte (hc ▸ List.mem_cons_self)
    · rw [isDigit, decide_eq_true_eq, UInt8.le_iff_toNat_le, UInt8.le_iff_toNat_le] at digit
      have low : 48 ≤ c.toNat := digit.1
      rw [isBlank, decide_eq_false_iff_not, UInt8.le_iff_toNat_le, UInt8.le_iff_toNat_le]
      rintro (blank | ⟨-, high⟩)
      · rw [blank] at low
        exact absurd low (by decide)
      · have high : c.toNat ≤ 13 := high
        omega
    · decide
  have begins : (decimal n).dropWhile isBlank = decimal n := by
    rw [hc, List.dropWhile_cons_of_neg (by rw [first]; decide)]
  rw [readInt, whole, begins, readSigned_decimal]

variable {n : Int} {suf : List UInt8}

theorem clamp_eq_of_decimal (same : decimal (max intMin (min intMax n)) = decimal n ++ suf) :
    suf = [] ∧ intMin ≤ n ∧ n ≤ intMax := by
  have low : intMin < 0 := by decide
  have high : 0 < intMax := by decide
  have longer : (decimal (max intMin (min intMax n))).length ≤ (decimal n).length :=
    length_decimal_mono (by omega) (by omega)
  rw [same, List.length_append] at longer
  obtain rfl : suf = [] := List.length_eq_zero_iff.mp (by omega)
  rw [List.append_nil] at same
  have within := decimal_injective same
  exact ⟨rfl, by omega, by omega⟩

theorem length_decimal_int (low : intMin ≤ n) (high : n ≤ intMax) :
    (decimal n).length < sizeofBuf := by
  have small : n.natAbs < 10 ^ 10 := by
    have low : -2 ^ 31 ≤ n := low
    have high : n ≤ 2 ^ 31 - 1 := high
    omega
  exact Nat.lt_of_le_of_lt (length_decimal_le (by decide) small) (by decide)

theorem findByIdtf_int (pre : seg.pre = []) (suf : seg.suf = []) (low : intMin ≤ n)
    (high : n ≤ intMax) :
    seg.findByIdtf junk unread (decimal n) =
      some (some (seg.element n).1, (seg.element n).2) := by
  have short := length_decimal_int low high
  have number : max intMin (min intMax n) = n := by omega
  have found := @findByIdtf_between seg junk unread (decimal n)
  rw [pre, suf, List.nil_append, List.append_nil] at found
  rw [found, if_neg (by omega), if_neg (by rw [List.length_nil]; omega)]
  dsimp only
  rw [List.length_nil, List.range_zero, List.map_nil, List.nil_append, readInt_decimal, number]

theorem Right.found (right : Right seg.pre seg.suf idtf) :
    (¬ seg.Names idtf ∧ ∀ junk unread, seg.findByIdtf junk unread idtf = some (none, seg)) ∨
      seg.Names idtf ∧ ∃ n, idtf = decimal n ∧ ∀ {later : NumbersSegment}, later.pre = seg.pre →
        later.suf = seg.suf → ∀ junk unread, later.findByIdtf junk unread idtf =
          some (some (later.element n).1, (later.element n).2) := by
  obtain other | ⟨le, other | lt | ⟨middle, rfl, long, other⟩ | ⟨pre, suf, n, low, high, rfl⟩⟩ :=
    right
  · refine .inl ⟨?_, fun _ _ => findByIdtf_no_prefix other⟩
    rintro ⟨n, rfl⟩
    exact other ⟨_, (List.append_assoc _ _ _).symm⟩
  · refine .inl ⟨?_, fun _ _ => findByIdtf_no_suffix le other⟩
    rintro ⟨n, rfl⟩
    exact other (List.suffix_append _ _)
  · refine .inl ⟨?_, fun _ _ => findByIdtf_overlap le lt⟩
    rintro ⟨n, rfl⟩
    rw [List.length_append, List.length_append] at lt
    omega
  · refine .inl ⟨?_, fun junk unread => ?_⟩
    · rw [names_between]
      exact fun ⟨n, same⟩ => other n same
    · rw [findByIdtf_between, if_pos long]
  · refine .inr ⟨⟨n, ?_⟩, n, rfl, fun same same' junk unread => ?_⟩
    · rw [pre, suf, List.nil_append, List.append_nil]
    · exact findByIdtf_int (same.trans pre) (same'.trans suf) low high

theorem Right.exact (right : Right seg.pre seg.suf idtf) : seg.Exact junk unread idtf := by
  obtain ⟨other, none⟩ | ⟨name, n, rfl, found⟩ := right.found
  · exact ⟨.none, seg, none junk unread, iff_of_false Bool.false_ne_true other,
      fun _ found => nomatch found⟩
  · obtain ⟨-, -, here⟩ := seg.element_spec n
    refine ⟨_, _, found rfl rfl junk unread, iff_of_true rfl name, fun el same => ?_⟩
    cases same
    rw [getIdtf, here]
    rfl

theorem Right.separate {idtf' : List UInt8} (right : Right seg.pre seg.suf idtf)
    (right' : Right seg.pre seg.suf idtf') : seg.Separate idtf idtf' := by
  intro name name' other junk unread el seg₁ found seg₂ later junk' unread' el' seg₃ found' same
  obtain ⟨none, -⟩ | ⟨-, n, rfl, number⟩ := right.found
  · exact none name
  obtain ⟨none, -⟩ | ⟨-, n', rfl, number'⟩ := right'.found
  · exact none name'
  rw [number rfl rfl] at found
  cases found
  obtain ⟨made, hmade, here⟩ := seg.element_spec n
  obtain ⟨more, hmore⟩ := later.more
  rw [number' (by rw [hmore, hmade]) (by rw [hmore, hmade])] at found'
  cases found'
  obtain ⟨last, hlast, here'⟩ := seg₂.element_spec n'
  -- the number of the first element stays where it is
  have kept : (seg₂.element n').2.nums[(seg.element n).1]? = some n := by
    obtain ⟨lt, -⟩ := List.getElem?_eq_some_iff.mp here
    rw [hlast, hmore]
    dsimp only
    rw [List.append_assoc, List.getElem?_append_left lt, here]
  rw [same, kept] at here'
  exact other (congrArg decimal (Option.some.inj here'))

theorem readInt_junk (n : Nat) (bytes : List UInt8) :
    readInt unread (((List.range (n + 1)).map (fun _ => 120) ++ bytes).takeWhile (· ≠ 0)) =
      unread := by
  rw [List.range_succ_eq_map, List.map_cons, List.cons_append, List.takeWhile_cons_of_pos rfl,
    readInt, List.dropWhile_cons_of_neg (by decide)]
  rfl

theorem right_of_exact {pre : List UInt8}
    (exact : ∀ junk unread, NumbersSegment.Exact ⟨pre, suf, []⟩ junk unread idtf) :
    Right pre suf idtf := by
  by_cases hpre : pre <+: idtf
  case neg => exact .inl hpre
  refine .inr ?_
  have le : suf.length ≤ idtf.length := by
    by_contra lt
    obtain ⟨r, seg', found, -⟩ := exact (fun _ => 0) 0
    rw [findByIdtf_short hpre (not_le.mp lt)] at found
    cases found
  refine ⟨le, ?_⟩
  by_cases hsuf : suf <:+ idtf
  case neg => exact .inl hsuf
  by_cases room : pre.length + suf.length ≤ idtf.length
  case neg => exact .inr (.inl (not_le.mp room))
  refine .inr (.inr ?_)
  obtain ⟨middle, rfl⟩ := @between_of ⟨pre, suf, []⟩ _ hpre hsuf room
  by_cases long : sizeofBuf ≤ middle.length
  · refine .inl ⟨middle, rfl, long, fun n same => ?_⟩
    obtain ⟨r, seg', found, isSome, -⟩ := exact (fun _ => 0) 0
    rw [findByIdtf_between, if_pos long] at found
    cases found
    exact Bool.false_ne_true (isSome.mpr (names_between.mpr ⟨n, same⟩))
  · refine .inr ?_
    -- the buffer begins with an `x` where it is not written
    obtain ⟨r, seg', found, isSome, idtfOf⟩ := exact (fun _ => 120) 0
    rw [findByIdtf_between, if_neg long] at found
    split at found
    · cases found
    · cases found
      obtain ⟨n, rfl⟩ := names_between.mp (isSome.mp rfl)
      have printed := idtfOf _ rfl
      obtain ⟨-, -, here⟩ := NumbersSegment.element_spec ⟨pre, suf, []⟩
        (readInt 0 (((List.range pre.length).map (fun _ => 120) ++ decimal n).takeWhile (· ≠ 0)))
      rw [getIdtf, here, Option.map_some] at printed
      have printed := Option.some.inj printed
      cases pre with
      | nil =>
        rw [List.length_nil, List.range_zero, List.map_nil, List.nil_append, readInt_decimal]
          at printed
        obtain ⟨rfl, low, high⟩ := clamp_eq_of_decimal printed
        exact ⟨rfl, rfl, n, low, high, List.append_nil _⟩
      | cons c pre =>
        rw [List.length_cons, readInt_junk] at printed
        have length := congrArg List.length printed
        have pos := List.length_pos_iff.mpr (decimal_ne_nil n)
        rw [List.length_append, List.length_append, List.length_cons] at length
        have one : (decimal 0).length = 1 := rfl
        omega

/-- What is looked for is right exactly when the segment has no prefix and no suffix and it is the
numeral of an `int`, or when it is refused as no name of an element. -/
theorem numbers_bijective_iff (pre suf idtf idtf' : List UInt8) :
    (∀ seg, Later ⟨pre, suf, []⟩ seg → (∀ junk unread, seg.Exact junk unread idtf ∧
      seg.Exact junk unread idtf') ∧ seg.Separate idtf idtf') ↔
      Right pre suf idtf ∧ Right pre suf idtf' := by
  constructor
  · intro all
    have exact := (all _ .refl).1
    exact ⟨right_of_exact fun junk unread => (exact junk unread).1,
      right_of_exact fun junk unread => (exact junk unread).2⟩
  · rintro ⟨right, right'⟩ seg later
    obtain ⟨more, rfl⟩ := later.more
    exact ⟨fun junk unread => ⟨Right.exact right, Right.exact right'⟩, Right.separate right right'⟩

/-- The identifier of an element that is found by its name need not be the name. -/
theorem not_numbers_bijective : ∃ seg : NumbersSegment, ∃ idtf, seg.Names idtf ∧
    ∀ junk unread, ¬ seg.Exact junk unread idtf := by
  refine ⟨⟨[], [95], []⟩, [49, 95], ⟨1, ?_⟩, fun junk unread exact => ?_⟩
  · rw [decimal, naturalDigits]
    decide
  · obtain ⟨r, seg', found, -, idtfOf⟩ := exact
    have one : NumbersSegment.findByIdtf ⟨[], [95], []⟩ junk unread [49, 95] =
      some (some 0, ⟨[], [95], [1]⟩) := rfl
    rw [one] at found
    cases found
    have printed : decimal 1 = [49, 95] := Option.some.inj (idtfOf 0 rfl)
    rw [decimal, naturalDigits] at printed
    exact absurd printed (by decide)

end NumbersSegment

end ScCore.Repo
