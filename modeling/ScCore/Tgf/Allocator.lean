import ScCore.Tgf.Decoding

/-!
# Allocator of the reader

`tgfalloc.c` on a host of 64 bits: blocks are cut from the current page, and a block that does not
fit gets a new page. Besides the blocks stand the lengths that are passed on the way.
-/

namespace ScCore.Tgf

structure Passed where
  len : Int
  room : Int
  deriving DecidableEq

def Passed.Fine (p : Passed) : Prop := 0 ≤ p.len ∧ p.len ≤ p.room

instance (p : Passed) : Decidable p.Fine := inferInstanceAs (Decidable (_ ∧ _))

def AllFine (lengths : List Passed) : Prop := ∀ p ∈ lengths, p.Fine

theorem allFine_nil : AllFine [] := nofun

theorem allFine_cons {p : Passed} {lengths : List Passed} :
    AllFine (p :: lengths) ↔ p.Fine ∧ AllFine lengths := List.forall_mem_cons

theorem allFine_append {lengths lengths' : List Passed} :
    AllFine (lengths ++ lengths') ↔ AllFine lengths ∧ AllFine lengths' := List.forall_mem_append

theorem fine_self {n : Int} (h : 0 ≤ n) : (⟨n, n⟩ : Passed).Fine := ⟨h, le_rfl⟩

/-- `sizeof(tgf_page)`. -/
def sizeofPage : BitVec 32 := 16

/-- `sizeof(tgf_command)`. -/
def sizeofCommand : Int := 16

/-- `sizeof(tgf_argument)`. -/
def sizeofArgument : Int := 16

structure TgfAllocator where
  chunkSize : BitVec 32
  /-- The size of `current_page`, if there is one. -/
  page : Option (BitVec 64)
  freeOffs : BitVec 32
  deriving DecidableEq

namespace TgfAllocator

def allign (size : BitVec 64) : BitVec 32 :=
  if 16 ≤ size.toNat then 15 else if 8 ≤ size.toNat then 7 else 3

/-- `(n + allign) & ~allign`. -/
def allignUp (n allign : BitVec 32) : BitVec 32 := (n + allign) &&& ~~~allign

variable (a : TgfAllocator)

/-- A block of `size` bytes is cut from the current page at `offs`. -/
def cut (page : BitVec 64) (offs : BitVec 32) (size : BitVec 64) : TgfAllocator :=
  { a with page := some page, freeOffs := offs + size.setWidth 32 }

/-- The size of the page for a block that is put at `allignment`. -/
def newPage (size : BitVec 64) (allignment : BitVec 32) : BitVec 64 :=
  if size + allignment.setWidth 64 < a.chunkSize.setWidth 64 then a.chunkSize.setWidth 64
  else size + allignment.setWidth 64

/-- The part of `tgf_allocator_alloc` behind `__add_page`. The length that `alloc_a4k` gets is an
`int`. -/
def addPage (ok : Bool) (len : Int) : List Passed × TgfAllocator :=
  let size := BitVec.ofInt 64 len
  let allignment := allignUp sizeofPage (allign size)
  let page := a.newPage size allignment
  let count := (page.setWidth 32).toInt
  if ok then ([⟨len, len⟩, ⟨count, count⟩, ⟨len, page.toNat - allignment.toNat⟩],
    a.cut page allignment size)
  else ([⟨len, len⟩, ⟨count, count⟩], a)

/-- `tgf_allocator_alloc`, which succeeds when `ok`. -/
def alloc (ok : Bool) (len : Int) : List Passed × TgfAllocator :=
  let size := BitVec.ofInt 64 len
  match a.page with
  | none => a.addPage ok len
  | some page =>
      let offs := allignUp a.freeOffs (allign size)
      if page - offs.setWidth 64 < size then { a with freeOffs := offs }.addPage ok len
      else if ok then ([⟨len, len⟩, ⟨len, page.toNat - offs.toNat⟩], a.cut page offs size)
      else ([⟨len, len⟩], { a with freeOffs := offs })

/-- What `tgf_read_data` and `tgf_read_string` pass for `datasize`: the length of the block, and
what is copied into it. -/
def block (ok : Bool) (extra datasize : Int) : List Passed × TgfAllocator :=
  let (lengths, a) := a.alloc ok ((datasize + extra).bmod (2 ^ 32))
  (lengths ++ if ok then [⟨datasize, datasize + extra⟩] else [], a)

def after : ArgValue → TgfAllocator
  | .data bytes => (a.block true 0 bytes.length).2
  | .string bytes | .lazyData bytes => (a.block true 1 bytes.length).2
  | _ => a

variable {a}

theorem block_copy {extra datasize : Int} (fine : AllFine (a.block true extra datasize).1) :
    0 ≤ datasize ∧ datasize ≤ datasize + extra :=
  (allFine_append.mp fine).2 _ (List.mem_singleton.mpr rfl)

end TgfAllocator

end ScCore.Tgf
