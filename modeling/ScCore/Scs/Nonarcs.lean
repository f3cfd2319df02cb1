import ScCore.Scs.SpecialNodes

/-!
# Connectors that are no arcs

`x >- y` says that `x` is an arc that ends at `y`, or that `y` is an arc that begins at `x`. The
pairs are recorded while a text is read, and resolved afterwards.
-/

namespace ScCore.Scs

variable {R : Type}

def nonarcsMax : Nat := 16384

def conDirMask : ElType := 0x200
def conDirLeft : ElType := 0

/-- A text with its `nonarcs`, the left and the right one of each pair. -/
structure NonarcText (R : Type) where
  text : ScText R
  nonarcs : List (Ref × Ref)

namespace NonarcText

variable (t : NonarcText R)

/-- `add_nonarc_con`. The sides of a connector to the left are recorded as they are given. -/
def addNonarcCon (left : Ref) (con : ElType) (right : Ref) : Option (NonarcText R) := do
  let l ← t.text.getRealElement left
  let r ← t.text.getRealElement right
  let pair := if con &&& conDirMask = conDirLeft then (right, left) else (l, r)
  if t.nonarcs.length ≥ nonarcsMax then none
  else if pair ∈ t.nonarcs then some t
  else some { t with nonarcs := t.nonarcs ++ [pair] }

end NonarcText

namespace ScText

variable (t : ScText R)

/-- `element_is_node`, with whether it fails. -/
def forceNode (ref : Ref) : Option (ScText R × Bool) := do
  let r ← t.getRealElement ref
  let e ← t.elems[r]?
  match mergeTypes e.type scNode with
  | none => some (t, false)
  | some type => some (t.modify r fun e => { e with type := type }, true)

/-- `merge_el`, with whether it fails: what it has done by then stays. -/
def tryMergeEl (ref : Ref) (type : ElType) (left right : Option Ref) :
    Option (ScText R × Bool) := do
  let ref ← t.getRealElement ref
  let e ← t.elems[ref]?
  match mergeTypes e.type type with
  | none => some (t, false)
  | some type =>
      let t := t.modify ref fun e => { e with type := type }
      if type &&& scArc ≠ 0 then
        match mergeEnd e.beg left with
        | none => some (t, false)
        | some beg =>
            let t := t.modify ref fun e => { e with beg := beg }
            match mergeEnd e.fin right with
            | none => some (t, false)
            | some fin => do
                let t := t.modify ref fun e => { e with fin := fin }
                some (← t.beginIsNode left beg, true)
      else some (← t.beginIsNode left e.beg, true)

end ScText

/-- How `resolve_nonarcs` goes wrong. -/
inductive Stop where
  /-- `abort`. -/
  | aborts
  /-- An element that the text does not have. -/
  | unknown
  /-- It does not end. -/
  | endless
  deriving DecidableEq, Repr

def known {α : Type} : Option α → Except Stop α
  | some a => .ok a
  | none => .error .unknown

/-- What becomes of a pair in its turn. Pairs that are done have the left side `-1`. -/
inductive Turn where
  | waits
  /-- An error, with `res_flag` as it was. -/
  | drops
  /-- Done, with an error or without. -/
  | settles (ok : Bool)
  deriving DecidableEq, Repr

def Turn.errors : Turn → Nat
  | .waits => 0
  | .drops => 1
  | .settles ok => if ok then 0 else 1

/-- `res_flag`. -/
def Turn.progress : Turn → Bool
  | .settles _ => true
  | _ => false

namespace ScText

def switchPair (t : ScText R) (l r : Ref) : Except Stop (ScText R × Turn) := do
  let e ← known t.elems[l]?
  if e.type &&& scGenericTypeMask = scArc then
    let (t, ok) ← known (t.tryMergeEl l 0 none (some r))
    .ok (t, .settles ok)
  else if e.type &&& scGenericTypeMask = scNode then
    let (t, ok) ← known (t.tryMergeEl r scArc (some l) none)
    .ok (t, .settles ok)
  else if e.type &&& scGenericTypeMask = scUndf then .ok (t, .settles false)
  else
    -- The left side is of no generic type yet.
    let f ← known t.elems[r]?
    if f.type &&& scGenericTypeMask ≠ scArc ∧ f.type &&& scGenericTypeMask ≠ 0 then
      let (t, ok) ← known (t.tryMergeEl l scArc none (some r))
      .ok (t, .settles ok)
    else if f.type &&& scGenericTypeMask = scArc ∧ f.beg.isSome then
      let (t, ok) ← known (t.tryMergeEl l scArc none (some r))
      if ok then .ok (t, .settles true) else .error .aborts
    else .ok (t, .waits)

/-- The turn of a pair; `many` when other pairs have the same left side. -/
def resolvePair (t : ScText R) (many : Bool) (l r : Ref) : Except Stop (ScText R × Turn) :=
  if many then do
    let (t, node) ← known (t.forceNode l)
    if node then t.switchPair l r else .ok (t, .drops)
  else t.switchPair l r

/-- What a round over the pairs leaves: the text, the pairs that still wait, the errors, and
`res_flag`. -/
structure Round (R : Type) where
  text : ScText R
  rest : List (Ref × Ref)
  errors : Nat
  progress : Bool

/-- A round; `count` are the `leftcounts`. -/
def resolveRound (count : Ref → Nat) : List (Ref × Ref) → ScText R → Except Stop (Round R)
  | [], t => .ok ⟨t, [], 0, false⟩
  | (l, r) :: pairs, t => do
      let (t, turn) ← t.resolvePair (decide (count l > 1)) l r
      let round ← resolveRound count pairs t
      .ok {
        text := round.text
        rest := if turn = .waits then (l, r) :: round.rest else round.rest
        errors := turn.errors + round.errors
        progress := turn.progress || round.progress }

def resolveRounds (count : Ref → Nat) : Nat → List (Ref × Ref) → ScText R → Except Stop (Round R)
  | 0, _, _ => .error .endless
  | n + 1, pairs, t => do
      let round ← t.resolveRound count pairs
      if pairs.isEmpty || !round.progress then .ok round
      else
        let last ← resolveRounds count n round.rest round.text
        .ok { last with errors := round.errors + last.errors }

def guessBegins (count : Ref → Nat) :
    List (Ref × Ref) → ScText R → Except Stop (ScText R × List (Ref × Ref))
  | [], t => .ok (t, [])
  | (l, r) :: pairs, t => do
      let f ← known t.elems[r]?
      if f.type &&& scArc ≠ 0 ∧ count r = 1 then
        if f.beg.isNone then
          let (t, ok) ← known (t.tryMergeEl r scArc (some l) none)
          if ok then guessBegins count pairs t else .error .aborts
        else guessBegins count pairs t
      else do
        let (t, rest) ← guessBegins count pairs t
        .ok (t, (l, r) :: rest)

/-- `resolve_nonarcs`: the text, and the errors. A round with `res_flag` takes a pair away. -/
def resolveNonarcs (t : ScText R) (pairs : List (Ref × Ref)) : Except Stop (ScText R × Nat) :=
  if pairs.isEmpty then .ok (t, 0)
  else do
    let left l := pairs.countP fun pair => pair.1 = l
    let round ← t.resolveRounds left (pairs.length + 1) pairs
    if round.progress then .ok (round.text, round.errors)
    else
      let right r := round.rest.countP fun pair => pair.2 = r
      let (t, rest) ← round.text.guessBegins right round.rest
      .ok (t, round.errors + rest.length)

end ScText

end ScCore.Scs
