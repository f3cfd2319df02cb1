import ScCore.Lib.OrderedMap
import Mathlib.Order.Nat

/-!
# Patterns with parameters

`prepare_pattern` of the operators `sys_search` and `sys_gen`: the pairs of parameters and results
are read, the pattern is copied, and the keys of the results are rewritten. Addresses are ordered as
pointers are, and 0 is the null pointer.
-/

namespace ScCore.Scp.Prepare

abbrev Addr := Nat

abbrev SegId := Nat

abbrev AddrMap := OrderedMap Addr Addr

structure Info where
  isVariable : Addr → Bool
  varValue : Addr → Addr

structure Entry where
  first : Addr
  second : Addr
  set : Bool
  fixed : Bool
  deriving DecidableEq

/-- The maps and sets of `pattern` that pairs are read into. -/
structure PairsRead where
  map : AddrMap
  varsWithSet : List Addr
  fixedEls : List Addr

def readEntry (info : Info) (isParamParse : Bool) (e : Entry) : Addr × Addr :=
  (if info.isVariable e.first then info.varValue e.first else e.first,
    if isParamParse ∧ info.isVariable e.second then info.varValue e.second else e.second)

/-- `parse_pair`. The errors are only reported. -/
def parsePair (info : Info) (isParamParse : Bool) : List Entry → PairsRead → PairsRead
  | [], read => read
  | e :: es, read =>
      let pair := readEntry info isParamParse e
      parsePair info isParamParse es
        { map := read.map.insert pair.1 pair.2,
          varsWithSet := if ¬ isParamParse ∧ e.set then read.varsWithSet.insert pair.2
            else read.varsWithSet,
          fixedEls := if ¬ isParamParse ∧ e.fixed then read.fixedEls.insert pair.2
            else read.fixedEls }

/-- `context_copy_pattern`. -/
structure CopyContext where
  newPattern : Addr
  original2copy : AddrMap
  copy2original : AddrMap

/-- `sc_set::copy` with `cb_copy_pattern`, which notes each copy. -/
def copyEls (copy : Addr → Addr) (newPattern : Addr) (els : List Addr) : CopyContext :=
  els.foldl (fun context el =>
    { context with
      original2copy := context.original2copy.insert el (copy el),
      copy2original := context.copy2original.insert (copy el) el }) ⟨newPattern, .empty, .empty⟩

/-- The loop over the parameters; nothing is for an error. -/
def substituteParams : List (Addr × Addr) → AddrMap → Option AddrMap
  | [], original2copy => some original2copy
  | (param, val) :: params, original2copy =>
      match original2copy.find param with
      | none => none
      | some _ => substituteParams params ((original2copy.erase param).insert param val)

inductive Scan where
  | finished
  | missing
  | nullKey
  | found (resultParam copy resultOut : Addr)

def scan (original2copy : AddrMap) (seg : Addr → SegId) (segment : SegId) :
    List (Addr × Addr) → Scan
  | [] => .finished
  | (resultParam, resultOut) :: results =>
      match original2copy.find resultParam with
      | some copy => .found resultParam copy resultOut
      | none =>
          if resultParam = 0 then .nullKey
          else if segment ≠ seg resultParam then .missing
          else scan original2copy seg segment results

/-- What `prepare_pattern` returns. It may also read through the null pointer. -/
inductive Prepared (α : Type) where
  | ok (a : α)
  | error
  | crash

def substituteResults (original2copy : AddrMap) (seg : Addr → SegId) (segment : SegId) :
    Nat → AddrMap → Option (Prepared AddrMap)
  | 0, _ => none
  | fuel + 1, mapResult =>
      match scan original2copy seg segment mapResult.entries with
      | .finished => some (.ok mapResult)
      | .missing => some .error
      | .nullKey => some .crash
      | .found resultParam copy resultOut =>
          substituteResults original2copy seg segment fuel
            ((mapResult.erase resultParam).insert copy resultOut)

/-- What `prepare_pattern` finds: the process, the elements of the pattern with their kinds and
segments, the sets of pairs, and what `create_unique_segment` and `create_el` will give. -/
structure Input where
  info : Info
  patternSign : Addr
  members : List Addr
  isVar : Addr → Bool
  seg : Addr → SegId
  results : Option (List Entry)
  params : Option (List Entry)
  segment : SegId
  newPattern : Addr
  copy : Addr → Addr

namespace Input

variable (x : Input)

def varEls : List Addr := x.members.filter x.isVar

def constEls : List Addr := x.members.filter fun el => !x.isVar el

end Input

/-- The fields of `pattern` that `prepare_pattern` fills. -/
structure PatternContext where
  patternSign : Addr
  varEls : List Addr
  constEls : List Addr
  varsWithSet : List Addr
  fixedEls : List Addr
  mapParam : AddrMap
  mapResult : AddrMap
  segment : Option SegId
  original2copy : AddrMap
  copy2original : AddrMap

def preparePattern (fuel : Nat) (x : Input) : Option (Prepared PatternContext) :=
  let results : PairsRead := parsePair x.info false (x.results.getD []) ⟨.empty, [], []⟩
  match x.params with
  | none =>
      some (.ok ⟨x.patternSign, x.varEls, x.constEls, results.varsWithSet, results.fixedEls, .empty,
        results.map, none, .empty, .empty⟩)
  | some es =>
      let params : PairsRead :=
        parsePair x.info true es ⟨.empty, results.varsWithSet, results.fixedEls⟩
      let context := copyEls x.copy x.newPattern x.varEls
      match substituteParams params.map.entries context.original2copy with
      | none => some .error
      | some original2copy =>
          match substituteResults original2copy x.seg x.segment fuel results.map with
          | none => none
          | some .error => some .error
          | some .crash => some .crash
          | some (.ok mapResult) =>
              some (.ok ⟨context.newPattern, x.varEls, x.constEls, params.varsWithSet,
                params.fixedEls, params.map, mapResult, some x.segment, original2copy,
                context.copy2original⟩)

end ScCore.Scp.Prepare
