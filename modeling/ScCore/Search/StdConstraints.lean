import ScCore.Search.Inlining
import ScCore.Search.Std5

/-!
# The standard constraints

The programs of `std_constraints.cpp.in` by which triples and five-tuples of
elements are searched, with members of sets in some places or without, and their
registration.
-/

namespace ScCore.Search

/-! ## Programs that are checked by evaluation -/

def PrgItem.isProper (item : PrgItem) : Bool :=
  match item.type, item.paramsIn, item.paramsOut with
  | .constr, _, _ | .filter, _, _ => true
  | .func, _, [some _] => true
  | .setEach, [_], [some _] => true
  | _, _, _ => false

theorem PrgItem.isProper_iff {item : PrgItem} : item.isProper = true ↔ item.Proper := by
  obtain ⟨type, ins, outs, name, id⟩ := item
  cases type with
  | constr => simp [isProper, Proper]
  | filter => simp [isProper, Proper]
  | ret => simp [isProper, Proper]
  | func =>
    simp only [isProper, Proper]
    split <;> simp_all
  | setEach =>
    simp only [isProper, Proper]
    split <;> simp_all

instance PrgItem.decidableProper (item : PrgItem) : Decidable item.Proper :=
  decidable_of_iff (item.isProper = true) PrgItem.isProper_iff

instance decidableScoped : ∀ (known : List Nat) (items : List PrgItem),
    Decidable (Scoped known items)
  | _, [] => inferInstanceAs (Decidable True)
  | known, item :: items =>
      have := decidableScoped (known ++ item.written) items
      inferInstanceAs (Decidable (item.Proper ∧ (∀ r ∈ item.paramsIn, r ∈ known) ∧
        (∀ r ∈ item.written, r ∉ known) ∧ Scoped (known ++ item.written) items))

instance Program.decidableFits (p : Program) : Decidable p.Fits :=
  inferInstanceAs (Decidable (∀ item ∈ p.body, ∀ r ∈ item.paramsOut.reduceOption,
    r < p.inputCnt + p.regCnt))

instance decidableTidy (par : PrgItem) (inputCnt : Nat) (ret : PrgItem) :
    Decidable (Tidy par inputCnt ret) :=
  decidable_of_iff (par.paramsIn.length = inputCnt ∧ par.paramsOut.length ≤ ret.paramsIn.length ∧
      (∀ c ∈ takes ret.paramsIn par.paramsOut, inputCnt ≤ c.1) ∧
      ((takes ret.paramsIn par.paramsOut).map Prod.fst).Nodup ∧ par.paramsOut.reduceOption.Nodup)
    ⟨fun ⟨inputs, outputs, own, once, apart⟩ => ⟨inputs, outputs, own, once, apart⟩,
      fun tidy => ⟨tidy.inputs, tidy.outputs, tidy.own, tidy.once, tidy.apart⟩⟩

/-! ## The programs -/

def idGetCpa : Nat := 2
def idIsInSet : Nat := 8
def idArcTypeInput : Nat := 13
def idArcTypeOutput : Nat := 14
def idStd3Faa : Nat := 15
def idStd3Faf : Nat := 16
def idStd3Aaf : Nat := 17
def idStd5Faaaa : Nat := 18
def idStd5Faaaf : Nat := 19
def idStd5Fafaa : Nat := 20
def idStd5Fafaf : Nat := 21
def idStd5Aaaaf : Nat := 22
def idStd5Aafaa : Nat := 23
def idStd5Aafaf : Nat := 24
def idStd53Aaaafaf : Nat := 25
def idStdInSet : Nat := 26
def idStdSely3P1 : Nat := 27
def idStdSely3U1p2 : Nat := 28
def idStdSely3U1u2p3 : Nat := 29
def idStdSely5P1 : Nat := 30
def idStdSely5U1p2 : Nat := 31
def idStdSely5U1u2p3 : Nat := 32
def idStdSely5U1u2u3p4 : Nat := 33
def idStdSely5U1u2u3u4p5 : Nat := 34

def decArcTypeInput : Program where
  inputCnt := 2
  regCnt := 1
  body := [
    ⟨.constr, [1], [none, some 2], "all_input", idAllInput⟩,
    ⟨.filter, [2, 0], [], "check_type", idCheckType⟩]
  ret := ⟨.ret, [2, 1], [], "return", 0⟩
  inScope := by decide
  returns := rfl
  known := by decide

def decArcTypeOutput : Program where
  inputCnt := 2
  regCnt := 1
  body := [
    ⟨.constr, [0], [none, some 2], "all_output", idAllOutput⟩,
    ⟨.filter, [2, 1], [], "check_type", idCheckType⟩]
  ret := ⟨.ret, [0, 2], [], "return", 0⟩
  inScope := by decide
  returns := rfl
  known := by decide

def decStd3Faa : Program where
  inputCnt := 3
  regCnt := 2
  body := [
    ⟨.constr, [0, 1], [none, some 3], "arc_type_output", idArcTypeOutput⟩,
    ⟨.func, [3], [some 4], "get_end", idGetEnd⟩,
    ⟨.filter, [4, 2], [], "check_type", idCheckType⟩]
  ret := ⟨.ret, [0, 3, 4], [], "return", 0⟩
  inScope := by decide
  returns := rfl
  known := by decide

def decStd3Faf : Program where
  inputCnt := 3
  regCnt := 2
  body := [
    ⟨.constr, [2], [none, some 3], "all_input", idAllInput⟩,
    ⟨.func, [3], [some 4], "get_beg", idGetBeg⟩,
    ⟨.filter, [0, 4], [], "equal2", idEqual2⟩,
    ⟨.filter, [3, 1], [], "check_type", idCheckType⟩]
  ret := ⟨.ret, [0, 3, 2], [], "return", 0⟩
  inScope := by decide
  returns := rfl
  known := by decide

def decStd3Aaf : Program where
  inputCnt := 3
  regCnt := 2
  body := [
    ⟨.constr, [1, 2], [some 4], "arc_type_input", idArcTypeInput⟩,
    ⟨.func, [4], [some 3], "get_beg", idGetBeg⟩,
    ⟨.filter, [3, 0], [], "check_type", idCheckType⟩]
  ret := ⟨.ret, [3, 4, 2], [], "return", 0⟩
  inScope := by decide
  returns := rfl
  known := by decide

def decStd5Faaaa : Program where
  inputCnt := 5
  regCnt := 4
  body := [
    ⟨.constr, [0, 1, 2], [none, some 5, some 6], "std3_faa", idStd3Faa⟩,
    ⟨.constr, [4, 3, 5], [some 8, some 7], "std3_aaf", idStd3Aaf⟩]
  ret := ⟨.ret, [0, 5, 6, 7, 8], [], "return", 0⟩
  inScope := by decide
  returns := rfl
  known := by decide

def decStd5Fafaa : Program where
  inputCnt := 5
  regCnt := 3
  body := [
    ⟨.constr, [0, 1, 2], [none, some 5], "std3_faf", idStd3Faf⟩,
    ⟨.constr, [4, 3, 5], [some 7, some 6], "std3_aaf", idStd3Aaf⟩]
  ret := ⟨.ret, [0, 5, 2, 6, 7], [], "return", 0⟩
  inScope := by decide
  returns := rfl
  known := by decide

def decStd5Fafaf : Program where
  inputCnt := 5
  regCnt := 2
  body := [
    ⟨.constr, [0, 1, 2], [none, some 5], "std3_faf", idStd3Faf⟩,
    ⟨.constr, [4, 3, 5], [none, some 6], "std3_faf", idStd3Faf⟩]
  ret := ⟨.ret, [0, 5, 2, 6, 4], [], "return", 0⟩
  inScope := by decide
  returns := rfl
  known := by decide

def decStd5Aaaaf : Program where
  inputCnt := 5
  regCnt := 4
  body := [
    ⟨.constr, [4, 3, 1], [none, some 8, some 6], "std3_faa", idStd3Faa⟩,
    ⟨.func, [6], [some 5], "get_beg", idGetBeg⟩,
    ⟨.filter, [5, 0], [], "check_type", idCheckType⟩,
    ⟨.func, [6], [some 7], "get_end", idGetEnd⟩,
    ⟨.filter, [7, 2], [], "check_type", idCheckType⟩]
  ret := ⟨.ret, [5, 6, 7, 8, 4], [], "return", 0⟩
  inScope := by decide
  returns := rfl
  known := by decide

def decStd5Aafaa : Program where
  inputCnt := 5
  regCnt := 4
  body := [
    ⟨.constr, [0, 1, 2], [some 5, some 6], "std3_aaf", idStd3Aaf⟩,
    ⟨.constr, [4, 3, 6], [some 8, some 7], "std3_aaf", idStd3Aaf⟩]
  ret := ⟨.ret, [5, 6, 2, 7, 8], [], "return", 0⟩
  inScope := by decide
  returns := rfl
  known := by decide

def decStd5Aafaf : Program where
  inputCnt := 5
  regCnt := 4
  body := [
    ⟨.constr, [0, 1, 2], [some 5, some 6], "std3_aaf", idStd3Aaf⟩,
    ⟨.constr, [4, 3, 6], [none, some 8], "std3_faf", idStd3Faf⟩]
  ret := ⟨.ret, [5, 6, 2, 8, 4], [], "return", 0⟩
  inScope := by decide
  returns := rfl
  known := by decide

/-- `dec_std5_3_aaaafaf`. The fourth function names its output among the inputs. -/
def decStd53Aaaafaf : Deconstruct where
  inputCnt := 7
  regCnt := 6
  commands := [
    ⟨.constr, [6], [none, some 12], "all_input", idAllInput⟩,
    ⟨.filter, [12, 5], [], "check_type", idCheckType⟩,
    ⟨.func, [12], [some 9], "get_beg", idGetBeg⟩,
    ⟨.filter, [9, 2], [], "check_type", idCheckType⟩,
    ⟨.constr, [9], [none, some 8], "all_input", idAllInput⟩,
    ⟨.filter, [8, 1], [], "check_type", idCheckType⟩,
    ⟨.func, [8, 7], [], "get_beg", idGetBeg⟩,
    ⟨.filter, [7, 0], [], "check_type", idCheckType⟩,
    ⟨.constr, [8], [none, some 10], "all_input", idAllInput⟩,
    ⟨.func, [10], [some 11], "get_beg", idGetBeg⟩,
    ⟨.filter, [11, 4], [], "equal2", idEqual2⟩,
    ⟨.filter, [10, 3], [], "check_type", idCheckType⟩,
    ⟨.ret, [7, 8, 9, 10, 4, 12, 6], [], "return", 0⟩]

def decStdInSet : Program where
  inputCnt := 2
  regCnt := 2
  body := [
    ⟨.func, [], [some 3], "get_cpa", idGetCpa⟩,
    ⟨.constr, [0, 3, 1], [none, none, some 2], "std3_faa", idStd3Faa⟩]
  ret := ⟨.ret, [2], [], "return", 0⟩
  inScope := by decide
  returns := rfl
  known := by decide

def decStdSely3P1 : Program where
  inputCnt := 6
  regCnt := 3
  body := [
    ⟨.constr, [0, 1], [some 6], "std_in_set", idStdInSet⟩,
    ⟨.constr, [6, 3, 5], [none, some 7, some 8], "std3_faa", idStd3Faa⟩,
    ⟨.filter, [2, 7], [], "is_in_set", idIsInSet⟩,
    ⟨.filter, [4, 8], [], "is_in_set", idIsInSet⟩]
  ret := ⟨.ret, [6, 7, 8], [], "return", 0⟩
  inScope := by decide
  returns := rfl
  known := by decide

def decStdSely3U1p2 : Program where
  inputCnt := 5
  regCnt := 3
  body := [
    ⟨.constr, [1, 2], [some 6], "std_in_set", idStdInSet⟩,
    ⟨.func, [6], [some 5], "get_beg", idGetBeg⟩,
    ⟨.filter, [5, 0], [], "check_type", idCheckType⟩,
    ⟨.func, [6], [some 7], "get_end", idGetEnd⟩,
    ⟨.filter, [7, 4], [], "check_type", idCheckType⟩,
    ⟨.filter, [3, 7], [], "is_in_set", idIsInSet⟩]
  ret := ⟨.ret, [5, 6, 7], [], "return", 0⟩
  inScope := by decide
  returns := rfl
  known := by decide

def decStdSely3U1u2p3 : Program where
  inputCnt := 4
  regCnt := 3
  body := [
    ⟨.constr, [2, 3], [some 6], "std_in_set", idStdInSet⟩,
    ⟨.constr, [0, 1, 6], [some 4, some 5], "std3_aaf", idStd3Aaf⟩]
  ret := ⟨.ret, [4, 5, 6], [], "return", 0⟩
  inScope := by decide
  returns := rfl
  known := by decide

def decStdSely5P1 : Program where
  inputCnt := 10
  regCnt := 5
  body := [
    ⟨.constr, [0, 1], [some 10], "std_in_set", idStdInSet⟩,
    ⟨.constr, [10, 3, 5, 7, 9], [none, some 11, some 12, some 13, some 14], "std5_faaaa", idStd5Faaaa⟩,
    ⟨.filter, [6, 13], [], "is_in_set", idIsInSet⟩,
    ⟨.filter, [2, 11], [], "is_in_set", idIsInSet⟩,
    ⟨.filter, [4, 12], [], "is_in_set", idIsInSet⟩,
    ⟨.filter, [8, 14], [], "is_in_set", idIsInSet⟩]
  ret := ⟨.ret, [10, 11, 12, 13, 14], [], "return", 0⟩
  inScope := by decide
  returns := rfl
  known := by decide

def decStdSely5U1p2 : Program where
  inputCnt := 9
  regCnt := 5
  body := [
    ⟨.constr, [1, 2], [some 10], "std_in_set", idStdInSet⟩,
    ⟨.func, [10], [some 9], "get_beg", idGetBeg⟩,
    ⟨.filter, [9, 0], [], "check_type", idCheckType⟩,
    ⟨.func, [10], [some 11], "get_end", idGetEnd⟩,
    ⟨.filter, [11, 4], [], "check_type", idCheckType⟩,
    ⟨.filter, [3, 11], [], "is_in_set", idIsInSet⟩,
    ⟨.constr, [8, 6, 10], [some 13, some 12], "std3_aaf", idStd3Aaf⟩,
    ⟨.filter, [5, 12], [], "is_in_set", idIsInSet⟩,
    ⟨.filter, [13, 7], [], "is_in_set", idIsInSet⟩]
  ret := ⟨.ret, [9, 10, 11, 12, 13], [], "return", 0⟩
  inScope := by decide
  returns := rfl
  known := by decide

def decStdSely5U1u2p3 : Program where
  inputCnt := 8
  regCnt := 5
  body := [
    ⟨.constr, [2, 3], [some 10], "std_in_set", idStdInSet⟩,
    ⟨.constr, [0, 1, 10], [some 8, some 9], "std3_aaf", idStd3Aaf⟩,
    ⟨.constr, [7, 5, 9], [some 12, some 11], "std3_aaf", idStd3Aaf⟩,
    ⟨.filter, [4, 11], [], "is_in_set", idIsInSet⟩,
    ⟨.filter, [6, 12], [], "is_in_set", idIsInSet⟩]
  ret := ⟨.ret, [8, 9, 10, 11, 12], [], "return", 0⟩
  inScope := by decide
  returns := rfl
  known := by decide

def decStdSely5U1u2u3p4 : Program where
  inputCnt := 7
  regCnt := 5
  body := [
    ⟨.constr, [3, 4], [some 10], "std_in_set", idStdInSet⟩,
    ⟨.func, [10], [some 11], "get_beg", idGetBeg⟩,
    ⟨.filter, [11, 6], [], "check_type", idCheckType⟩,
    ⟨.filter, [5, 11], [], "is_in_set", idIsInSet⟩,
    ⟨.func, [10], [some 8], "get_end", idGetEnd⟩,
    ⟨.filter, [8, 1], [], "check_type", idCheckType⟩,
    ⟨.func, [8], [some 7], "get_beg", idGetBeg⟩,
    ⟨.func, [8], [some 9], "get_end", idGetEnd⟩,
    ⟨.filter, [7, 0], [], "check_type", idCheckType⟩,
    ⟨.filter, [9, 2], [], "check_type", idCheckType⟩]
  ret := ⟨.ret, [7, 8, 9, 10, 11], [], "return", 0⟩
  inScope := by decide
  returns := rfl
  known := by decide

def decStdSely5U1u2u3u4p5 : Program where
  inputCnt := 6
  regCnt := 5
  body := [
    ⟨.constr, [4, 5], [some 10], "std_in_set", idStdInSet⟩,
    ⟨.constr, [0, 1, 2, 3, 10], [some 6, some 7, some 8, some 9], "std5_aaaaf", idStd5Aaaaf⟩]
  ret := ⟨.ret, [6, 7, 8, 9, 10], [], "return", 0⟩
  inScope := by decide
  returns := rfl
  known := by decide

/-! ## The registry -/

inductive StdConstraint where
  | arcTypeInput | arcTypeOutput | std3Faa | std3Faf | std3Aaf | std5Faaaa | std5Faaaf
    | std5Fafaa | std5Fafaf | std5Aaaaf | std5Aafaa | std5Aafaf | stdInSet | stdSely3P1
    | stdSely3U1p2 | stdSely3U1u2p3 | stdSely5P1 | stdSely5U1p2 | stdSely5U1u2p3
    | stdSely5U1u2u3p4 | stdSely5U1u2u3u4p5
  deriving DecidableEq, Repr

namespace StdConstraint

def name : StdConstraint → String
  | arcTypeInput => "arc_type_input"
  | arcTypeOutput => "arc_type_output"
  | std3Faa => "std3_faa"
  | std3Faf => "std3_faf"
  | std3Aaf => "std3_aaf"
  | std5Faaaa => "std5_faaaa"
  | std5Faaaf => "std5_faaaf"
  | std5Fafaa => "std5_fafaa"
  | std5Fafaf => "std5_fafaf"
  | std5Aaaaf => "std5_aaaaf"
  | std5Aafaa => "std5_aafaa"
  | std5Aafaf => "std5_aafaf"
  | stdInSet => "std_in_set"
  | stdSely3P1 => "std_sely3_p1"
  | stdSely3U1p2 => "std_sely3_u1p2"
  | stdSely3U1u2p3 => "std_sely3_u1u2p3"
  | stdSely5P1 => "std_sely5_p1"
  | stdSely5U1p2 => "std_sely5_u1p2"
  | stdSely5U1u2p3 => "std_sely5_u1u2p3"
  | stdSely5U1u2u3p4 => "std_sely5_u1u2u3p4"
  | stdSely5U1u2u3u4p5 => "std_sely5_u1u2u3u4p5"

def id : StdConstraint → Nat
  | arcTypeInput => idArcTypeInput
  | arcTypeOutput => idArcTypeOutput
  | std3Faa => idStd3Faa
  | std3Faf => idStd3Faf
  | std3Aaf => idStd3Aaf
  | std5Faaaa => idStd5Faaaa
  | std5Faaaf => idStd5Faaaf
  | std5Fafaa => idStd5Fafaa
  | std5Fafaf => idStd5Fafaf
  | std5Aaaaf => idStd5Aaaaf
  | std5Aafaa => idStd5Aafaa
  | std5Aafaf => idStd5Aafaf
  | stdInSet => idStdInSet
  | stdSely3P1 => idStdSely3P1
  | stdSely3U1p2 => idStdSely3U1p2
  | stdSely3U1u2p3 => idStdSely3U1u2p3
  | stdSely5P1 => idStdSely5P1
  | stdSely5U1p2 => idStdSely5U1p2
  | stdSely5U1u2p3 => idStdSely5U1u2p3
  | stdSely5U1u2u3p4 => idStdSely5U1u2u3p4
  | stdSely5U1u2u3u4p5 => idStdSely5U1u2u3u4p5

def source : StdConstraint → Program
  | arcTypeInput => decArcTypeInput
  | arcTypeOutput => decArcTypeOutput
  | std3Faa => decStd3Faa
  | std3Faf => decStd3Faf
  | std3Aaf => decStd3Aaf
  | std5Faaaa => decStd5Faaaa
  | std5Faaaf => decStd5Faaaf
  | std5Fafaa => decStd5Fafaa
  | std5Fafaf => decStd5Fafaf
  | std5Aaaaf => decStd5Aaaaf
  | std5Aafaa => decStd5Aafaa
  | std5Aafaf => decStd5Aafaf
  | stdInSet => decStdInSet
  | stdSely3P1 => decStdSely3P1
  | stdSely3U1p2 => decStdSely3U1p2
  | stdSely3U1u2p3 => decStdSely3U1u2p3
  | stdSely5P1 => decStdSely5P1
  | stdSely5U1p2 => decStdSely5U1p2
  | stdSely5U1u2p3 => decStdSely5U1u2p3
  | stdSely5U1u2u3p4 => decStdSely5U1u2u3p4
  | stdSely5U1u2u3u4p5 => decStdSely5U1u2u3u4p5

def all : List StdConstraint :=
  [arcTypeInput, arcTypeOutput, std3Faa, std3Faf, std3Aaf, std5Faaaa, std5Faaaf, std5Fafaa,
    std5Fafaf, std5Aaaaf, std5Aafaa, std5Aafaf, stdInSet, stdSely3P1, stdSely3U1p2,
    stdSely3U1u2p3, stdSely5P1, stdSely5U1p2, stdSely5U1u2p3, stdSely5U1u2u3p4,
    stdSely5U1u2u3u4p5]

end StdConstraint

def baseRegistry : Registry :=
  [.func "get_beg", .func "get_end", .func "get_cpa", .func "get_cna", .func "get_0",
    .filter "check_type", .filter "equal2", .filter "equal_with_d", .filter "is_in_set",
    .filter "not_in_set", .filter "differ", .constr "all_input" none, .constr "all_output" none]

/-- The constraints in the order of `__init_std_constraints`. Those for other patterns, which
none of these asks for, are left out. -/
def stdDeconstructs : List (String × Deconstruct) :=
  [StdConstraint.arcTypeInput, .arcTypeOutput, .std3Faa, .std3Faf, .std3Aaf, .std5Faaaa, .std5Faaaf,
    .std5Fafaa, .std5Fafaf, .std5Aaaaf, .std5Aafaa, .std5Aafaf].map
      (fun c => (c.name, c.source.toDeconstruct)) ++
    ("std5_3_aaaafaf", decStd53Aaaafaf) ::
      [StdConstraint.stdInSet, .stdSely3P1, .stdSely3U1p2, .stdSely3U1u2p3, .stdSely5P1,
        .stdSely5U1p2, .stdSely5U1u2p3, .stdSely5U1u2u3p4, .stdSely5U1u2u3u4p5].map
          fun c => (c.name, c.source.toDeconstruct)

/-- The registry after `__init_std_constraints`. -/
def stdRegistry : Option Registry :=
  stdDeconstructs.foldlM (fun reg (name, dec) => reg.register name (some dec)) baseRegistry

/-! ## What the registered programs find -/

theorem StdConstraint.calls (c : StdConstraint) : ∀ item ∈ c.source.body,
    if item.inlines then ∃ c' ∈ all, c'.id = item.id ∧ c'.id < c.id ∧
      Tidy item c'.source.inputCnt c'.source.ret
    else item.type = .constr → item.id = idAllInput ∨ item.id = idAllOutput := by
  cases c <;> decide

theorem StdConstraint.mem_all (c : StdConstraint) : c ∈ all := by
  cases c <;> decide

theorem StdConstraint.fits (c : StdConstraint) : c.source.Fits ∧ c.source.body ≠ [] := by
  cases c <;> decide

def Registry.has (reg : Registry) (c : StdConstraint) : Bool :=
  reg.findHolderIdByName c.name == some c.id && (reg.deconstruct c.id).isSome &&
    reg.deconstruct c.id == inlineDeconstruct reg c.source.toDeconstruct

theorem stdRegistry_has : (stdRegistry.any fun reg => StdConstraint.all.all reg.has &&
    reg.deconstruct idAllInput == none && reg.deconstruct idAllOutput == none) = true := by
  decide +kernel

/-- The registered program of a constraint finds what its source says, where the commands of
the source run the iterators of the registry. -/
structure Means (reg : Registry) (c : StdConstraint) (q : Program) : Prop where
  program : reg.program c.name = some q.toDeconstruct
  deconstruct : reg.deconstruct c.id = some q.toDeconstruct
  flat : q.Flat
  fits : q.Fits
  body : q.body ≠ []
  inputCnt : q.inputCnt = c.source.inputCnt
  ret : q.ret = c.source.ret
  results : ∀ (V : Type) (world : World V) (inputs : List V),
    world.results q inputs = (world.nested reg).results c.source inputs

section Means

variable {reg : Registry}

theorem stdRegistry_some : ∃ reg, stdRegistry = some reg :=
  Option.isSome_iff_exists.mp (Option.isSome_of_any stdRegistry_has)

theorem has_of_stdRegistry (hreg : stdRegistry = some reg) :
    (∀ c, reg.has c = true) ∧ reg.deconstruct idAllInput = none ∧
      reg.deconstruct idAllOutput = none := by
  have h := stdRegistry_has
  rw [hreg, Option.any_some] at h
  simp only [Bool.and_eq_true, List.all_eq_true, beq_iff_eq] at h
  exact ⟨fun c => h.1.1 c c.mem_all, h.1.2, h.2⟩

theorem means_of_lt (hreg : stdRegistry = some reg) (n : Nat) :
    ∀ c : StdConstraint, c.id < n → ∃ q, Means reg c q := by
  obtain ⟨has, input, output⟩ := has_of_stdRegistry hreg
  induction n with
  | zero => exact fun c h => absurd h (Nat.not_lt_zero _)
  | succ n ih =>
    intro c hlt
    have hc := has c
    simp only [Registry.has, Bool.and_eq_true, beq_iff_eq, Option.isSome_iff_exists] at hc
    obtain ⟨⟨name, d, hd⟩, inlined⟩ := hc
    have calls : ∀ item ∈ c.source.body, Calls reg item := by
      intro item hitem
      have call := c.calls item hitem
      unfold Calls
      split at call
      · next hinl =>
        rw [if_pos hinl]
        obtain ⟨c', -, hid, hlt', tidy⟩ := call
        obtain ⟨q, means⟩ := ih c' (by omega)
        refine ⟨q, hid ▸ means.deconstruct, means.flat, means.fits, means.body, ?_⟩
        rwa [means.inputCnt, means.ret]
      · next hinl =>
        rw [if_neg hinl]
        intro htype
        rcases call htype with h | h
        · rw [h, input]
        · rw [h, output]
    obtain ⟨q, rfl, flat, fits, body, inputCnt, ret, results⟩ :=
      inlineDeconstruct_results c.fits.1 calls (inlined.symm.trans hd)
    refine ⟨q, ?_, hd, flat, fits, ?_, inputCnt, ret, results⟩
    · rw [Registry.program, name, Option.bind_some, hd]
    · exact fun h => c.fits.2 (body.mp h)

theorem means (hreg : stdRegistry = some reg) (c : StdConstraint) : ∃ q, Means reg c q :=
  means_of_lt hreg (c.id + 1) c (Nat.lt_succ_self _)

theorem nested_iterator {V : Type} (hreg : stdRegistry = some reg) (world : World V)
    (c : StdConstraint) (args : List V) :
    (world.nested reg).iterator c.id args = (world.nested reg).results c.source args := by
  obtain ⟨q, means⟩ := means hreg c
  simp only [World.nested, means.deconstruct, World.tuples_program]
  exact means.results V world args

end Means

end ScCore.Search
