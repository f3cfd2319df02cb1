import Mathlib.Algebra.Group.Nat.Defs
import Mathlib.Algebra.Ring.Int.Defs
import Mathlib.Tactic.Common

/-!
# Types and return codes of the sc-memory

The property masks of `sc_types.h`, the default-filling check that `create_el`
and `change_type` run on a type, and the return codes of the session calls.
-/

namespace ScCore

/-- `sc_type`, a 16-bit mask of properties. -/
abbrev ScType := UInt16

namespace ScType

def empty : ScType := 0
def undf : ScType := 0x01
def node : ScType := 0x02
def edge : ScType := 0x04
def arc : ScType := 0x08
def arcAccessory : ScType := 0x10
def link : ScType := 0x20
def syntacticMask : ScType := undf ||| node ||| edge ||| arc ||| arcAccessory ||| link
def connectorMask : ScType := edge ||| arc ||| arcAccessory
def const : ScType := 0x40
def var : ScType := 0x80
def metavar : ScType := 0x100
def constancyMask : ScType := const ||| var ||| metavar
def fuz : ScType := 0x200
def pos : ScType := 0x400
def neg : ScType := 0x800
def fuzzynessMask : ScType := fuz ||| pos ||| neg
def permanent : ScType := 0x1000
def temporary : ScType := 0x2000
def permanencyMask : ScType := permanent ||| temporary

/-- `sc_isa`: every bit of `super` is set in `t`. -/
def isa (t super : ScType) : Bool := t &&& super == super

/-- `sc_type_add_default`: add `d` when no property of `mask` is present. -/
def addDefault (t mask d : ScType) : ScType := if t &&& mask ≠ 0 then t else t ||| d

/-- The syntactic part, the discriminant of the switch in `verify_type_changing`. -/
def syntactic (t : ScType) : ScType := t &&& syntacticMask

def isConnector (t : ScType) : Bool := t &&& connectorMask ≠ 0

/-- `verify_type`: fill in the defaults. `none` stands for the `SC_EMPTY` that
reports fuzzyness or permanency on something other than an access arc. -/
def verify (t : ScType) : Option ScType :=
  let t := addDefault t constancyMask const
  let t := addDefault t syntacticMask undf
  if isa t arcAccessory then
    let t := addDefault t fuzzynessMask fuz
    some (addDefault t permanencyMask permanent)
  else if t &&& fuzzynessMask ≠ 0 ∨ t &&& permanencyMask ≠ 0 then none
  else some t

theorem isConnector_syntactic (t : ScType) : isConnector t = isConnector (syntactic t) := by
  have mask : connectorMask = syntacticMask &&& connectorMask := by decide
  rw [isConnector, isConnector, syntactic, UInt16.and_assoc, ← mask]

theorem or_and_mask (t d mask : ScType) : (t ||| d) &&& mask = t &&& mask ||| d &&& mask := by
  apply UInt16.toBitVec_inj.mp
  ext i
  simp [Bool.and_or_distrib_right]

theorem isConnector_or {t d : ScType} (hd : d &&& connectorMask = 0) :
    (t ||| d).isConnector = t.isConnector := by
  rw [isConnector, isConnector, or_and_mask, hd, UInt16.or_zero]

theorem isConnector_addDefault {t mask d : ScType} (hd : d &&& connectorMask = 0) :
    (addDefault t mask d).isConnector = t.isConnector := by
  unfold addDefault
  split
  · rfl
  · exact isConnector_or hd

theorem isConnector_verify {t t' : ScType} (h : t.verify = some t') :
    t'.isConnector = t.isConnector := by
  simp only [verify] at h
  have common : (addDefault (addDefault t constancyMask const) syntacticMask undf).isConnector =
      t.isConnector := by
    rw [isConnector_addDefault (by decide), isConnector_addDefault (by decide)]
  split at h
  · obtain rfl := Option.some.inj h
    rw [isConnector_addDefault (by decide), isConnector_addDefault (by decide), common]
  · split at h
    · cases h
    · obtain rfl := Option.some.inj h
      exact common

theorem isConnector_asNode (t : ScType) :
    ((t &&& ~~~syntacticMask) ||| node).isConnector = false := by
  have mask : ~~~syntacticMask &&& connectorMask = 0 := by decide
  rw [isConnector_or (by decide), isConnector, UInt16.and_assoc, mask]
  simp

end ScType

abbrev Retval := Int

def rvOk : Retval := 0
def rvErrGen : Retval := -1
def rvElseGen : Retval := 1

def Retval.isErr (rv : Retval) : Bool := rv < 0

/-- `sc_string`, a string of bytes. -/
abbrev ScString := List UInt8

end ScCore
