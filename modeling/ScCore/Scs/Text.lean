import ScCore.Lib.Forest

/-!
# The elements of an SCs text

`sctext.c`, as far as elements are declared, joined and given contents. `none` is a call
that fails, or one about an element that does not exist.
-/

namespace ScCore.Scs

abbrev Ref := Nat
abbrev Idtf := List UInt8
/-- `sc_type` of the tool. -/
abbrev ElType := BitVec 32

def scMetavar : ElType := 0x100
def scConst : ElType := 0x80
def scVar : ElType := 0x40
def scConstancyMask : ElType := scConst ||| scVar ||| scMetavar
def scPos : ElType := 0x20
def scNeg : ElType := 0x10
def scFuz : ElType := 0x08
def scFuzzynessMask : ElType := scPos ||| scNeg ||| scFuz
def scTypeMaskBase : ElType := scConstancyMask ||| scFuzzynessMask
def scNode : ElType := 0x04
def scArc : ElType := 0x02
def scUndf : ElType := 0x01
def scGenericTypeMask : ElType := scNode ||| scArc ||| scUndf

def sctextMaxsize : Nat := 65536 * 2

/-- `CONT_NONE` and the others. -/
inductive ContType where
  | absent
  | string
  | numeric
  | data
  | file
  deriving DecidableEq, Repr

/-- `scelement`; `aliasRef` is its `alias` and `fin` its `end`, and nothing is `-1`. The
numbers that `sscanf` reads are of any type. -/
structure ScElement (R : Type) where
  id : Option Idtf
  type : ElType
  aliasRef : Option Ref
  beg : Option Ref
  fin : Option Ref
  contType : ContType
  str : Idtf
  real : Option R
  datalen : Nat

variable {R : Type}

structure ScText (R : Type) where
  /-- `sctext` up to `sctext_size`. -/
  elems : List (ScElement R)
  idmap : Idtf → Option Ref

/-- `count_bits`, the Hamming weight. -/
def countBits (a : ElType) : Nat := (List.range 32).countP fun i => a.getLsbD i

def fits (t : ElType) : Bool :=
  decide (countBits (t &&& scConstancyMask) ≤ 1) && decide (countBits (t &&& scFuzzynessMask) ≤ 1)
    && decide (countBits (t &&& scGenericTypeMask) ≤ 1)

def mergeTypes (type patch : ElType) : Option ElType :=
  if fits (type ||| patch) then some (type ||| patch) else none

/-- `beg` or `end` of an arc that is given `left` or `right`. -/
def mergeEnd (cur given : Option Ref) : Option (Option Ref) :=
  match cur, given with
  | none, given => some given
  | some b, none => some (some b)
  | some b, some g => if b = g then some (some b) else none

/-- The ends of an element of type `type` that is given `left` and `right`. -/
def ScElement.mergeEnds (e : ScElement R) (type : ElType) (left right : Option Ref) :
    Option (Option Ref × Option Ref) :=
  if type &&& scArc ≠ 0 then do
    let beg ← mergeEnd e.beg left
    let fin ← mergeEnd e.fin right
    some (beg, fin)
  else some (e.beg, e.fin)

namespace ScText

def new : ScText R := ⟨[], fun _ => none⟩

variable (t : ScText R)

def aliasOf (ref : Ref) : Option Ref := t.elems[ref]?.bind ScElement.aliasRef

/-- `get_real_element`; a path without a cycle is no longer than the text. -/
def getRealElement (ref : Ref) : Option Ref := Lib.climb t.aliasOf (t.elems.length + 1) ref

def modify (ref : Ref) (f : ScElement R → ScElement R) : ScText R :=
  { t with elems := t.elems.modify ref f }

/-- `element_is_node`, whose failure every caller drops. -/
def elementIsNode : Option Ref → Option (ScText R)
  | none => some t
  | some ref => do
      let r ← t.getRealElement ref
      let e ← t.elems[r]?
      match mergeTypes e.type scNode with
      | none => some t
      | some type => some (t.modify r fun e => { e with type := type })

/-- `if (left != -1) element_is_node(beg)`. -/
def beginIsNode (left beg : Option Ref) : Option (ScText R) :=
  if left.isSome then t.elementIsNode beg else some t

def mergeEl (ref : Ref) (type : ElType) (left right : Option Ref) : Option (ScText R × Ref) := do
  let ref ← t.getRealElement ref
  let e ← t.elems[ref]?
  let type ← mergeTypes e.type type
  let (beg, fin) ← e.mergeEnds type left right
  let t := t.modify ref fun e => { e with type := type, beg := beg, fin := fin }
  let t ← t.beginIsNode left beg
  some (t, ref)

def searchById (id : Option Idtf) : Option Ref := id.bind t.idmap

def createIdPair (id : Idtf) (ref : Ref) : ScText R :=
  { t with idmap := Function.update t.idmap id (some ref) }

def addNew (id : Option Idtf) (type : ElType) (left right : Option Ref) : ScText R where
  elems := t.elems ++ [⟨id, type, none, left, right, .absent, [], none, 0⟩]
  idmap :=
    match id with
    | some id => (t.createIdPair id t.elems.length).idmap
    | none => t.idmap

def addElFull (id : Option Idtf) (type : ElType) (left right : Option Ref) :
    Option (ScText R × Ref) :=
  if t.elems.length = sctextMaxsize then none
  else match t.searchById id with
    | some ref => t.mergeEl ref type left right
    | none => do
        let ref := t.elems.length
        let t := t.addNew id type left right
        let t ← t.beginIsNode left left
        some (t, ref)

def addArc (left : Option Ref) (con : ElType) (right : Option Ref) (id : Option Idtf) :
    Option (ScText R × Ref) :=
  t.addElFull id (con &&& scTypeMaskBase ||| scArc) left right

def isSpecialElement (ref : Ref) : Bool := ref < 9

/-- `sctext[ref].id && sctext[ref].id[0] && sctext[ref].id[0] != '$'`. -/
def isNamed (e : ScElement R) : Bool :=
  match e.id with
  | some (c :: _) => c ≠ 36
  | _ => false

def aliasType : Idtf → ElType
  | 95 :: 95 :: _ => scMetavar
  | 36 :: 95 :: 95 :: _ => scMetavar
  | 95 :: _ => scVar
  | 36 :: 95 :: _ => scVar
  | _ => scConst

/-- The content of `e` goes to `target`, which must not have one. -/
def takeContent (target : Ref) (e : ScElement R) : Option (ScText R) :=
  if e.contType = .absent then some t
  else do
    let real ← t.elems[target]?
    if real.contType ≠ .absent then none
    else some (t.modify target fun r =>
      { r with contType := e.contType, str := e.str, real := e.real, datalen := e.datalen })

/-- The element `ref` becomes an alias of `target`; both are real. -/
def joinElements (ref target : Ref) : Option (ScText R) := do
  let e ← t.elems[ref]?
  let (t, _) ← t.mergeEl target e.type e.beg e.fin
  (t.modify ref fun e => { e with aliasRef := some target }).takeContent target e

/-- `!sctext[ref].id || sctext[ref].id[0] == '$'`. -/
def isUnnamed (e : ScElement R) : Bool :=
  match e.id with
  | none => true
  | some (c :: _) => c = 36
  | some [] => false

/-- `add_alias` of the real element `ref`, when `id` is the identifier of `other`. -/
def aliasOther (ref : Ref) (e : ScElement R) (other : Ref) : Option (ScText R) :=
  if other = ref then some t
  else if isSpecialElement ref || isSpecialElement other then none
  else do
    let other ← t.getRealElement other
    if other = ref then some t
    else if isNamed e then t.joinElements other ref
    else t.joinElements ref other

/-- `add_alias` of the real element `ref`, when `id` is new; `lax` is
`do_not_complain_constancy`. -/
def aliasNew (lax : Bool) (id : Idtf) (ref : Ref) (e : ScElement R) : Option (ScText R) :=
  if !lax && e.type &&& (scConstancyMask - aliasType id) ≠ 0 then none
  else
    let t := if isUnnamed e then t.modify ref fun e => { e with id := some id } else t
    some (t.createIdPair id ref)

def addAlias (lax : Bool) (id : Idtf) (ref : Ref) : Option (ScText R) := do
  let ref ← t.getRealElement ref
  let e ← t.elems[ref]?
  match t.searchById (some id) with
  | some other => t.aliasOther ref e other
  | none => t.aliasNew lax id ref e

/-- `add_cont`; `scan` is what `sscanf` reads, if anything. -/
def addCont (scan : Idtf → Option R) (ref : Ref) (text : Idtf) (contType : ContType) :
    Option (ScText R) := do
  let ref ← t.getRealElement ref
  let _ ← t.elems[ref]?
  let t := t.modify ref fun e => { e with contType := contType }
  match contType with
  | .absent => some t
  | .string | .data | .file => some (t.modify ref fun e => { e with str := text })
  | .numeric => do
      let x ← scan text
      some (t.modify ref fun e => { e with real := some x })

end ScText

inductive ContValue (R : Type) where
  | text (contType : ContType) (str : Idtf)
  | number (x : Option R)

def contValue (contType : ContType) (str : Idtf) (x : Option R) : Option (ContValue R) :=
  match contType with
  | .absent => none
  | .numeric => some (.number x)
  | .string | .data | .file => some (.text contType str)

def ScElement.content (e : ScElement R) : Option (ContValue R) :=
  contValue e.contType e.str e.real

inductive ScCall where
  | addElFull (id : Option Idtf) (type : ElType) (left right : Option Ref)
  | addArc (left : Option Ref) (con : ElType) (right : Option Ref) (id : Option Idtf)
  | addAlias (id : Idtf) (ref : Ref)
  | addCont (ref : Ref) (text : Idtf) (contType : ContType)
  deriving DecidableEq, Repr

/-- An element is declared, and `ref` is returned for it. -/
structure Declaration where
  id : Option Idtf
  type : ElType
  left : Option Ref
  right : Option Ref
  ref : Ref

inductive Event (R : Type) where
  | declared (d : Declaration)
  | aliased (id : Idtf) (ref : Ref)
  | gave (ref : Ref) (content : Option (ContValue R))

namespace ScCall

def refs : ScCall → List Ref
  | .addElFull _ _ left right => left.toList ++ right.toList
  | .addArc left _ right _ => left.toList ++ right.toList
  | .addAlias _ ref => [ref]
  | .addCont ref _ _ => [ref]

def arcsOnly : ScCall → Bool
  | .addElFull _ type left right =>
      (left.isNone && right.isNone) || decide (type &&& scArc ≠ 0)
  | _ => true

end ScCall

namespace ScText

def exec (scan : Idtf → Option R) (lax : Bool) (t : ScText R) (call : ScCall) :
    Option (ScText R × Event R) :=
  if call.refs.all (· < t.elems.length) then
    match call with
    | .addElFull id type left right => do
        let (t, ref) ← t.addElFull id type left right
        some (t, .declared ⟨id, type, left, right, ref⟩)
    | .addArc left con right id => do
        let (t, ref) ← t.addArc left con right id
        some (t, .declared ⟨id, con &&& scTypeMaskBase ||| scArc, left, right, ref⟩)
    | .addAlias id ref => do
        let t ← t.addAlias lax id ref
        some (t, .aliased id ref)
    | .addCont ref text contType => do
        let t ← t.addCont scan ref text contType
        some (t, .gave ref (contValue contType text (scan text)))
  else none

def run (scan : Idtf → Option R) (lax : Bool) :
    List ScCall → ScText R → List (Event R) → Option (ScText R × List (Event R))
  | [], t, h => some (t, h)
  | call :: calls, t, h => do
      let (t, event) ← t.exec scan lax call
      t.run scan lax calls (event :: h)

end ScText

end ScCore.Scs
