import ScCore.Lib.Bytes
import ScCore.Tgf.Commands

/-!
# Input stream of TGF

The reader of `tgfin.c`, down to the bytes: the buffer that is filled by the calls of
`read_fn`, the words that are aligned by their offset in the stream, and the commands that
are read of them. The host has its lowest byte first.
-/

namespace ScCore.Tgf

open Lib

def tgfReadBufsize : Nat := 16384

def eTgfInvtype : Int := -1

def eTgfInvcrc : Int := -3

def eTgfInvargs : Int := -4

def eTgfEof : Int := -5

def eTgfOpnotsupp : Int := -8

def eTgfIo : Int := -9

def eTgfNomem : Int := -10

/-- The bytes that a call of `read_fn` gives. -/
abbrev Chunk := { bytes : List UInt8 // bytes ≠ [] }

/-- What `read_fn` gives: the chunks one after the other, and then either the end of the
file or errors. -/
structure Source where
  chunks : List Chunk
  broken : Bool
  deriving DecidableEq

namespace Source

/-- A call of `read_fn` with room for `size` bytes. A negative result is nothing, and at
the end of the file there are no bytes. -/
def read (src : Source) (size : Nat) : Option (List UInt8) × Source :=
  match src.chunks with
  | [] => (if src.broken then none else some [], src)
  | chunk :: chunks =>
      if h : size < chunk.1.length then
        (some (chunk.1.take size),
          { src with chunks := ⟨chunk.1.drop size, by simp; omega⟩ :: chunks })
      else (some chunk.1, { src with chunks := chunks })

def bytes (src : Source) : List UInt8 := src.chunks.flatMap (·.1)

end Source

/-- `tgf_stream_in`, as far as reading of commands uses it. -/
structure StreamIn where
  /-- The bytes from `text` to `text_end`. -/
  text : List UInt8
  /-- The offset of `text` in the stream. Its address is the same modulo four. -/
  offset : Nat
  /-- Nothing is for `-1`. -/
  fd : Option Source
  /-- Whether there are `conv16` and `conv32`. -/
  conv : Bool
  checksum : Bool
  crc : UInt8
  cmdIndex : BitVec 32
  lastErr : Int
  deriving DecidableEq

namespace StreamIn

def convert (s : StreamIn) (word : List UInt8) : Nat := ofBytes (swapBytes s.conv word)

/-- `text` moves on. -/
def advance (s : StreamIn) (n : Nat) : StreamIn :=
  { s with text := s.text.drop n, offset := s.offset + n }

def take (s : StreamIn) (n : Nat) : StreamIn :=
  { s.advance n with crc := xorFrom s.crc (s.text.take n) }

def pad (s : StreamIn) : Nat := (4 - s.offset % 4) % 4

def setLastErr (s : StreamIn) (err : Int) : StreamIn := { s with lastErr := err }

/-! ## Buffered input

The functions give the error code, or what they read. Nothing at all is for an assertion
that fails, and for bytes that are copied with a negative size. -/

/-- The loop of `tgf_fill_buffer`. Every turn but the last one gives a byte at least. -/
def fillMore : Nat → Source → Nat → List UInt8 → Option (List UInt8) × Source
  | 0, src, _, text => (some text, src)
  | turns + 1, src, allign, text =>
      if 4 ≤ text.length then (some text, src)
      else match src.read (tgfReadBufsize - text.length - allign) with
        | (none, src) => (none, src)
        | (some [], src) => (some text, src)
        | (some bytes, src) => fillMore turns src allign (text ++ bytes)

def fillBuffer (s : StreamIn) : Option (Int × StreamIn) :=
  match s.fd with
  | none => some (eTgfEof, s)
  | some src =>
      if 4 ≤ s.text.length then none
      else match src.read (tgfReadBufsize - s.text.length - s.offset % 4) with
        | (none, src) => some (eTgfIo, { s with fd := some src })
        | (some [], src) => some (eTgfEof, { s with fd := some src })
        | (some bytes, src) =>
            match fillMore 3 src (s.offset % 4) (s.text ++ bytes) with
            | (none, src) => some (eTgfIo, { s with fd := some src })
            | (some text, src) => some (text.length, { s with text := text, fd := some src })

/-- The loop of `tgf_read`, with what is copied already. -/
def readLoop : Nat → StreamIn → Int → List UInt8 →
    Option (Except Int (List UInt8) × StreamIn)
  | 0, _, _, _ => none
  | turns + 1, s, size, buf =>
      if s.text ≠ [] ∧ size < 0 then none
      else
        let t := min s.text.length size.toNat
        let buf := buf ++ s.text.take t
        let s := s.take t
        if size = t then some (.ok buf, s)
        else match s.fd with
          | none => some (.error eTgfEof, s)
          | some src =>
              match src.read (tgfReadBufsize - s.offset % 4) with
              | (none, src) => some (.error eTgfIo, { s with fd := some src })
              | (some [], _) => some (.error eTgfEof, { s with fd := none })
              | (some bytes, src) =>
                  readLoop turns { s with text := bytes, fd := some src } (size - t) buf

/-- `tgf_read`. Every turn but the first one copies a byte at least. -/
def read (s : StreamIn) (size : Int) : Option (Except Int (List UInt8) × StreamIn) :=
  if size = 0 then some (.ok [], s) else readLoop (size.toNat + 2) s size []

/-- The loop of `tgf_read_align4`, up to the word. A pad that is longer than the text moves
`text` behind `text_end`, and the assertion of the next `tgf_fill_buffer` fails. -/
def readAlign4Loop : Nat → StreamIn → Option (Except Int (List UInt8) × StreamIn)
  | 0, _ => none
  | turns + 1, s =>
      if s.pad + 4 ≤ s.text.length then
        let s := s.advance s.pad
        some (.ok (s.text.take 4), s.take 4)
      else
        match (if s.pad < s.text.length then s.advance s.pad else s).fillBuffer with
        | none => none
        | some (t, s) =>
            if t < 0 then some (.error t, s)
            else if s.text.length < s.pad then none
            else readAlign4Loop turns (s.advance s.pad)

/-- `tgf_read_align4` of one word. After two turns there is the word, or the end of the
file. -/
def readAlign4 (s : StreamIn) : Option (Except Int (List UInt8) × StreamIn) :=
  readAlign4Loop 3 s

/-- The byte at `text`. -/
def nextByte (s : StreamIn) : Option (Except Int UInt8 × StreamIn) :=
  match s.text with
  | [] => none
  | ch :: _ => some (.ok ch, s.take 1)

def readByte (s : StreamIn) : Option (Except Int UInt8 × StreamIn) :=
  if s.text ≠ [] then s.nextByte
  else match s.fillBuffer with
    | none => none
    | some (ch, s) => if ch ≤ 0 then some (.error ch, s.setLastErr ch) else s.nextByte

/-- The loop of `tgf_read_int32` and `tgf_read_int16`: a word of `len` bytes, where a
`tgf_fill_buffer` that gives at most `least` is an error. -/
def readWordLoop (len : Nat) (least : Int) :
    Nat → StreamIn → Option (Except Int Nat × StreamIn)
  | 0, _ => none
  | turns + 1, s =>
      if len ≤ s.text.length then some (.ok (s.convert (s.text.take len)), s.take len)
      else match s.fillBuffer with
        | none => none
        | some (rv, s) =>
            if rv ≤ least then some (.error rv, s.setLastErr rv)
            else readWordLoop len least turns s

def readInt32 (s : StreamIn) : Option (Except Int Nat × StreamIn) := readWordLoop 4 (-1) 3 s

def readInt16 (s : StreamIn) : Option (Except Int Nat × StreamIn) := readWordLoop 2 2 3 s

end StreamIn

end ScCore.Tgf
