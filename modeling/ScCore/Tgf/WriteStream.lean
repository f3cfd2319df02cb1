import ScCore.Tgf.StreamIn

/-!
# Output stream of TGF

The writer of `tgfout.c`, down to the bytes: the buffer, the blocks of it that are handed to
`write_fn`, and the functions that write bytes, words and strings. The host has its lowest
byte first, and a buffer begins at an address that is a multiple of four.

Nothing at all stands for a byte that is stored behind the buffer, for bytes that are copied
with a negative size, and for a loop that does not end.
-/

namespace ScCore.Tgf

open Lib

def tgfWriteBufsize : Nat := 65536

def eTgfNospc : Int := -7

def eTgfInval : Int := -11

inductive Sink where
  /-- The buffer of `tgf_stream_out_buf`, where `fd` is `-1`. -/
  | memory (size : Nat) (aligned : size % 4 = 0)
  /-- A `write_fn`, with its answer to the last of the blocks that it is handed. -/
  | custom (writeFn : List (List UInt8) → Int)

namespace Sink

def size : Sink → Nat
  | memory size _ => size
  | custom _ => tgfWriteBufsize

theorem size_mod (sink : Sink) : sink.size % 4 = 0 := by
  cases sink with
  | memory size aligned => exact aligned
  | custom => simp [size, tgfWriteBufsize]

end Sink

structure Output where
  sink : Sink
  /-- The blocks that `write_fn` is handed. -/
  blocks : List (List UInt8)
  /-- The bytes from `buffer` to `text`. -/
  text : List UInt8

/-- `tgf_stream_out`. -/
structure WriteStream extends Output where
  lastErr : Int
  hash : MapNode
  cmdIndex : BitVec 32

namespace WriteStream

/-- `text_end - text`. -/
def room (s : WriteStream) : Nat := s.sink.size - s.text.length

def setLastErr (s : WriteStream) (err : Int) : WriteStream := { s with lastErr := err }

/-- Bytes are stored at `text`, and it moves on. -/
def store (s : WriteStream) (bytes : List UInt8) : Option WriteStream :=
  if s.text.length + bytes.length ≤ s.sink.size then some { s with text := s.text ++ bytes }
  else none

def flush (s : WriteStream) : Int × WriteStream :=
  match s.sink with
  | .memory _ _ => (0, s)
  | .custom writeFn =>
      let rv := writeFn (s.blocks ++ [s.text])
      let rv := if rv < s.text.length then eTgfNospc else rv
      (rv, { s with blocks := s.blocks ++ [s.text], text := [], lastErr := rv })

def streamFlush (s : WriteStream) : Int × WriteStream :=
  let (rv, s) := s.flush
  if rv < 0 then (rv, s)
  else if rv = 0 then (eTgfNospc, s)
  else (0, s)

/-- `STREAM_FLUSH`, which returns for an error, and what follows it. -/
def flushThen (s : WriteStream) (next : WriteStream → Option (Int × WriteStream)) :
    Option (Int × WriteStream) :=
  let (rv, s) := s.streamFlush
  if rv < 0 then some (rv, s.setLastErr rv) else next s

/-- The loop of `tgf_write`. Every turn but the first one stores a byte at least. -/
def writeLoop : Nat → WriteStream → List UInt8 → Int → Option (Int × WriteStream)
  | 0, _, _, _ => none
  | turns + 1, s, buf, size =>
      if 0 < s.room ∧ size < 0 then none
      else
        let t := min s.room size.toNat
        let s := { s with text := s.text ++ buf.take t }
        let buf := buf.drop t
        let size := size - t
        if 0 < t ∧ size = 0 then some (t, s)
        else match s.sink with
          | .memory _ _ => some (eTgfNospc, s.setLastErr eTgfNospc)
          | .custom _ =>
              let (rv, s) := s.flush
              if 0 < rv then writeLoop turns s buf size
              else some (eTgfIo, s.setLastErr eTgfIo)

/-- `tgf_write`. Of the number of bytes that are written only the sign is used. -/
def write (s : WriteStream) (buf : List UInt8) (size : Int) : Option (Int × WriteStream) :=
  if size = 0 then some (0, s.setLastErr 0) else writeLoop (size.toNat + 2) s buf size

/-- `tgf_allign4_write`. -/
def allign4 (s : WriteStream) : Option WriteStream :=
  s.store (List.replicate ((4 - s.text.length % 4) % 4) 0)

/-- The loop of `tgf_write_allign4`, where every turn stores a word at least. -/
def allign4Loop : Nat → WriteStream → List UInt8 → Option (Int × WriteStream)
  | 0, _, _ => none
  | turns + 1, s, buf =>
      let copy (s : WriteStream) : Option (Int × WriteStream) :=
        let rv := min (s.room / 4) (buf.length / 4)
        match s.store (buf.take (4 * rv)) with
        | none => none
        | some s =>
            let buf := buf.drop (4 * rv)
            if buf.length / 4 = 0 then some (0, s) else allign4Loop turns s buf
      if s.room = 0 then s.flushThen copy else copy s

/-- `tgf_write_allign4` of the words that are in the buffer. -/
def writeAllign4 (s : WriteStream) (buf : List UInt8) : Option (Int × WriteStream) :=
  match s.allign4 with
  | none => none
  | some s => if buf.length / 4 = 0 then some (0, s) else allign4Loop (buf.length / 4) s buf

def writeWord (s : WriteStream) (word : List UInt8) : Option (Int × WriteStream) :=
  let put (s : WriteStream) := (s.store word).map fun s => (0, s)
  if s.room < word.length then s.flushThen put else put s

/-- `tgf_write_byte`, and `tgf_write_sctype`. -/
def writeByte (s : WriteStream) (b : UInt8) : Option (Int × WriteStream) := s.writeWord [b]

def writeInt16 (s : WriteStream) (sh : BitVec 16) : Option (Int × WriteStream) :=
  s.writeWord (toBytes 2 sh.toNat)

def writeInt32 (s : WriteStream) (i : BitVec 32) : Option (Int × WriteStream) :=
  s.writeWord (toBytes 4 i.toNat)

/-- The length of a string as `int`. -/
def intLen (str : List UInt8) : Int := Int.bmod str.length (2 ^ 32)

/-- `tgf_write_string`, of a string up to its zero. For a null pointer it is empty. -/
def writeString (s : WriteStream) (str : List UInt8) : Option (Int × WriteStream) :=
  match s.writeInt32 (.ofInt 32 (intLen str)) with
  | none => none
  | some (rv, s) => if rv < 0 then some (rv, s.setLastErr rv) else s.write str (intLen str)

/-- `tgf_write_data` of as many bytes as `data_len` says. An error of the length is not given
back. -/
def writeData (s : WriteStream) (str : List UInt8) : Option (Int × WriteStream) :=
  match s.writeInt32 (.ofInt 32 (intLen str)) with
  | none => none
  | some (rv, s) => if rv < 0 then some (0, s) else s.write str (intLen str)

end WriteStream

end ScCore.Tgf
