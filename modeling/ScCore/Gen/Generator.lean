import ScCore.Types
import Mathlib.Data.List.Basic

/-!
# Generator

`sc_generator` over a session: sentences, sets and systems that nest. Elements are counted in the
order of their creation; a name that is given instead of an element is created or found before.
-/

namespace ScCore.Gen

abbrev Addr := Nat

abbrev SegId := Nat

structure Created where
  addr : Addr
  seg : SegId
  type : ScType
  beg : Option Addr
  fin : Option Addr
  deriving DecidableEq

/-- What the generator does to the memory. `failed` says that an operation has failed. -/
structure Output where
  next : Addr
  types : Addr → ScType
  created : List Created
  failed : Bool
  fresh : ∀ c ∈ created, c.addr < next

namespace Output

variable (o : Output)

def start (next : Addr) (types : Addr → ScType) : Output :=
  ⟨next, types, [], false, fun _ mem => nomatch mem⟩

def fail : Output := { o with failed := true }

def create (seg : SegId) (type : ScType) : Output where
  next := o.next + 1
  types := Function.update o.types o.next type
  created := o.created ++ [⟨o.next, seg, type, none, none⟩]
  failed := o.failed
  fresh := by
    intro c mem
    obtain mem | mem := List.mem_append.mp mem
    · exact Nat.lt_succ_of_lt (o.fresh c mem)
    · rw [List.mem_singleton.mp mem]
      exact Nat.lt_succ_self _

/-- `create_el`, which verifies the type. -/
def createEl (seg : SegId) (type : ScType) : Option Addr × Output :=
  match type.verify with
  | none => (none, o.fail)
  | some type => (some o.next, o.create seg type)

def modify (arc : Addr) (change : Created → Created)
    (same : ∀ c, (change c).addr = c.addr) : Output :=
  { o with
    created := o.created.map fun c => if c.addr = arc then change c else c,
    fresh := by
      intro c mem
      obtain ⟨c, old, rfl⟩ := List.mem_map.mp mem
      have lt := o.fresh c old
      split
      · rwa [same]
      · exact lt }

/-- The begin of an arc; what is undefined becomes a node. -/
def putBeg (arc beg : Addr) : Output :=
  { o.modify arc (fun c => { c with beg := some beg }) fun _ => rfl with
    types :=
      if o.types beg &&& .undf ≠ 0 then
        Function.update o.types beg (o.types beg &&& ~~~ .syntacticMask ||| .node)
      else o.types }

/-- `set_beg`. No arc begins at a connector. -/
def setBeg (arc beg : Addr) : Bool × Output :=
  if ¬ (o.types arc).isConnector ∨ (o.types beg).isConnector then (false, o.fail)
  else (true, o.putBeg arc beg)

def putEnd (arc fin : Addr) : Output :=
  o.modify arc (fun c => { c with fin := some fin }) fun _ => rfl

def setEnd (arc fin : Addr) : Bool × Output :=
  if (o.types arc).isConnector then (true, o.putEnd arc fin) else (false, o.fail)

/-- `erase_el`, with the arcs at the element. -/
def eraseEl (a : Addr) : Output :=
  { o with
    created := o.created.filter fun c => c.addr ≠ a ∧ c.beg ≠ some a ∧ c.fin ≠ some a,
    fresh := fun c mem => o.fresh c (List.mem_of_mem_filter mem) }

/-- `sc_generator::gen3_f_a_f`; nothing is for an error. -/
def gen3 (src : Addr) (seg : SegId) (type : ScType) (dst : Addr) : Option Addr × Output :=
  match o.createEl seg type with
  | (none, o) => (none, o)
  | (some arc, o) =>
      match o.setBeg arc src with
      | (false, o) => (none, o.eraseEl arc)
      | (true, o) =>
          match o.setEnd arc dst with
          | (false, o) => (none, o.eraseEl arc)
          | (true, o) => (some arc, o)

end Output

structure AttrStruct where
  addr : Addr
  type : ScType
  seg : SegId
  deriving DecidableEq

/-- `real_gen_state`. The order of `system_set` is not that of the addresses. -/
structure RealGenState where
  elements : List Addr
  attrs : List AttrStruct
  prevEls : List Addr
  set : Option Addr
  sentArcType : ScType
  sentSeg : SegId
  sysSign : Option Addr
  systemSet : List Addr
  systemSegment : SegId
  systemArcType : ScType
  tmp : List Addr
  deriving DecidableEq

/-- `real_gen_state()`. -/
def RealGenState.new : RealGenState :=
  { elements := [], attrs := [], prevEls := [], set := none, sentArcType := 0, sentSeg := 0,
    sysSign := none, systemSet := [], systemSegment := 0, systemArcType := 0, tmp := [] }

structure Fields where
  activeSegment : SegId
  arcType : ScType
  elementType : ScType
  setArcType : ScType
  systemArcType : ScType
  attrArcType : ScType
  deriving DecidableEq

/-- `SC_A_CONST|SC_POS`. -/
def constPos : ScType := .arcAccessory ||| .const ||| .pos

def Fields.new (seg : SegId) : Fields :=
  ⟨seg, constPos, .node ||| .const, constPos, constPos, constPos⟩

/-- `sc_generator`, with the last state apart from those below it. `log` is what was passed to it
and what it has generated. -/
structure Generator where
  fields : Fields
  top : RealGenState
  below : List RealGenState
  output : Output
  log : List Addr

namespace Generator

variable (g : Generator)

def new (seg : SegId) (output : Output) : Generator := ⟨.new seg, .new, [], output, []⟩

/-- `gen3_f_a_f` that leaves the arc in the log. -/
def gen3 (src : Addr) (seg : SegId) (type : ScType) (dst : Addr) : Option Addr × Generator :=
  match g.output.gen3 src seg type dst with
  | (none, output) => (none, { g with output := output })
  | (some arc, output) => (some arc, { g with output := output, log := g.log ++ [arc] })

/-- `st.tmp.push_back`. -/
def pushTmp (a : Addr) : Generator := { g with top := { g.top with tmp := g.top.tmp ++ [a] } }

/-- The loop of `internal_gen_arc` over the attributes. -/
def genAttrs (arc : Addr) : List AttrStruct → Generator → Option Addr × Generator
  | [], g => (some arc, g)
  | attr :: attrs, g =>
      match g.gen3 attr.addr attr.seg attr.type arc with
      | (none, g) => (none, { g with output := g.output.eraseEl arc })
      | (some arc4, g) => genAttrs arc attrs (g.pushTmp arc4)

def internalGenArc (src dst : Addr) (type : ScType) (seg : SegId) : Option Addr × Generator :=
  match g.gen3 src seg type dst with
  | (none, g) => (none, g)
  | (some arc, g) => genAttrs arc g.top.attrs (g.pushTmp arc)

def genSentence (el : Addr) (g : Generator) : List Addr → Generator
  | [] => g
  | prev :: prevEls =>
      genSentence el (g.internalGenArc prev el g.top.sentArcType g.top.sentSeg).2 prevEls

/-- The end of `__element`. -/
def collect (el : Addr) : Generator :=
  { g with top := { g.top with
      systemSet := if g.top.sysSign.isSome then
          g.top.tmp.foldl (fun set a => set.insert a) g.top.systemSet else g.top.systemSet,
      tmp := [], attrs := [], elements := g.top.elements ++ [el] } }

def enclose (el : Addr) : Generator :=
  match g.top.set with
  | none => g.collect el
  | some set =>
      match g.internalGenArc set el g.fields.setArcType g.fields.activeSegment with
      | (none, g) => g
      | (some _, g) => g.collect el

/-- `st.tmp.push_back` of what is passed. -/
def pass (el : Addr) : Generator := { g.pushTmp el with log := g.log ++ [el] }

def element (el : Addr) : Generator := (genSentence el (g.pass el) g.top.prevEls).enclose el

def attr (el : Addr) : Generator :=
  let str : AttrStruct := ⟨el, g.fields.attrArcType, g.fields.activeSegment⟩
  { g with
    log := g.log ++ [el],
    top := { g.top with
      attrs := g.top.attrs ++ [str],
      systemSet := if g.top.sysSign.isSome then g.top.systemSet.insert el else g.top.systemSet } }

def arc : Generator :=
  { g with top := { g.top with
      prevEls := g.top.elements, elements := [], sentArcType := g.fields.arcType,
      sentSeg := g.fields.activeSegment } }

def finish : Generator := { g with top := { g.top with prevEls := [], elements := [] } }

def enterSet (set : Addr) : Generator :=
  let g := g.element set
  { g with
    top := { RealGenState.new with
      sysSign := g.top.sysSign, systemSet := g.top.systemSet, set := some set },
    below := { g.top with systemSet := [] } :: g.below }

/-- `leave_set`. Without a state below, nothing happens. -/
def leaveSet : Generator :=
  match g.below with
  | [] => g
  | old :: below =>
      { g with
        top := if g.top.sysSign.isSome then { old with systemSet := g.top.systemSet } else old,
        below := below }

def enterSystem (sign : Addr) : Generator :=
  let g := g.element sign
  { g with
    top := { RealGenState.new with
      sysSign := some sign, systemSegment := g.fields.activeSegment,
      systemArcType := g.fields.systemArcType },
    below := g.top :: g.below }

def genMembers (sign : Addr) (seg : SegId) (type : ScType) (nested : Bool) :
    List Addr → Generator → RealGenState → Generator × RealGenState
  | [], g, old => (g, old)
  | a :: as, g, old =>
      match g.gen3 sign seg type a with
      | (none, g) =>
          -- the address of no arc is inserted all the same; it stands for no element
          genMembers sign seg type nested as g
            (if nested then { old with systemSet := old.systemSet.insert a } else old)
      | (some arc, g) =>
          genMembers sign seg type nested as g
            (if nested then { old with systemSet := (old.systemSet.insert arc).insert a } else old)

def leaveSystem : Generator :=
  match g.below, g.top.sysSign with
  | old :: below, some sign =>
      let r := genMembers sign g.top.systemSegment g.top.systemArcType old.sysSign.isSome
        g.top.systemSet { g with below := below } old
      { r.1 with top := r.2 }
  | _, _ => g

end Generator

inductive Call where
  /-- An element is created, for a name or by somebody else. -/
  | create (seg : SegId) (type : ScType)
  | configure (fields : Fields)
  | element (el : Addr)
  | attr (el : Addr)
  | arc
  | finish
  /-- `enter_set`, calls and `leave_set`. -/
  | set (sign : Addr) (calls : List Call)
  /-- `enter_system`, calls and `leave_system`. -/
  | system (sign : Addr) (calls : List Call)

namespace Call

mutual

def run : Call → Generator → Generator
  | create seg type, g => { g with output := (g.output.createEl seg type).2 }
  | configure fields, g => { g with fields := fields }
  | element el, g => g.element el
  | attr el, g => g.attr el
  | arc, g => g.arc
  | finish, g => g.finish
  | set sign calls, g => (runAll calls (g.enterSet sign)).leaveSet
  | system sign calls, g => (runAll calls (g.enterSystem sign)).leaveSystem

def runAll : List Call → Generator → Generator
  | [], g => g
  | c :: cs, g => runAll cs (c.run g)

end

end Call

end ScCore.Gen
