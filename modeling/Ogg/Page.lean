import Ogg.Bytes

/-!
# Pages

An Ogg bitstream is a sequence of pages. A page has a header of `headerSize`
bytes, a table of lacing values that says how its body is cut into segments, and
the body:

| offset | bytes | field |
|--------|-------|-------|
| 0      | 4     | capture pattern `OggS` |
| 4      | 1     | structure version |
| 5      | 1     | flags |
| 6      | 8     | granule position |
| 14     | 4     | serial number of the logical stream |
| 18     | 4     | sequence number of the page in its stream |
| 22     | 4     | checksum of the page with these four bytes zero |
| 26     | 1     | number `n` of lacing values |
| 27     | n     | lacing values |
| 27+n   | Σ     | body |

All numbers are little-endian.
-/

namespace Ogg

/-- The four bytes every page begins with, `OggS`. -/
def capturePattern : Bytes := [0x4f, 0x67, 0x67, 0x53]

/-- The bytes of a page before its lacing values. -/
def headerSize : Nat := 27

/-- The bytes of the largest page: 255 lacing values of 255. -/
def maxPageSize : Nat := headerSize + 255 + 255 * 255

/-- The lacing value that says "the packet goes on in the next segment". -/
def continueLacing : UInt8 := 255

/-- The byte of flags in a page header. -/
structure Flags where
  /-- The flags as they are written. -/
  bits : UInt8
  deriving DecidableEq, Repr

namespace Flags

/-- The first packet of the page goes on from the page before. -/
def continued (f : Flags) : Bool := f.bits &&& 1 != 0

/-- The page begins its logical stream. -/
def bos (f : Flags) : Bool := f.bits &&& 2 != 0

/-- The page ends its logical stream. -/
def eos (f : Flags) : Bool := f.bits &&& 4 != 0

end Flags

/-- What a page says about its body. -/
structure Header where
  /-- The structure version; only `0` is defined. -/
  version : UInt8
  /-- How the page sits in its stream. -/
  flags : Flags
  /-- A position in time, read by the codec. -/
  granule : UInt64
  /-- The logical stream the page belongs to. -/
  serial : UInt32
  /-- The number of the page within its logical stream. -/
  sequence : UInt32
  /-- The checksum written on the page. -/
  checksum : UInt32
  /-- The lacing values: the lengths of the body's segments. -/
  lacing : Bytes
  deriving DecidableEq, Repr

/-- A page. -/
structure Page where
  /-- What stands before the body. -/
  header : Header
  /-- The segments, one after another. -/
  body : Bytes
  deriving DecidableEq, Repr

/-- The length of the body that lacing values describe. -/
def lacingSum : Bytes → Nat
  | [] => 0
  | lacing :: rest => lacing.toNat + lacingSum rest

/-- The length of the body by the lacing values. -/
def Header.bodyLength (h : Header) : Nat := lacingSum h.lacing

/-- The length of the header with its lacing values. -/
def Header.encodedLength (h : Header) : Nat := headerSize + h.lacing.length

namespace Page

/-- The length of the page as it is written. -/
def size (p : Page) : Nat := p.header.encodedLength + p.body.length

/-- The logical stream of the page. -/
def serial (p : Page) : UInt32 := p.header.serial

/-- The number of the page in its stream. -/
def sequence (p : Page) : UInt32 := p.header.sequence

/-- The granule position on the page. -/
def granule (p : Page) : UInt64 := p.header.granule

/-- The first packet of the page goes on from the page before. -/
def continued (p : Page) : Bool := p.header.flags.continued

/-- The page begins its logical stream. -/
def bos (p : Page) : Bool := p.header.flags.bos

/-- The page ends its logical stream. -/
def eos (p : Page) : Bool := p.header.flags.eos

/-- The page is whole: its body is as long as its lacing values say. -/
def Whole (p : Page) : Prop := p.body.length = p.header.bodyLength

/-- A page is never shorter than a header. -/
theorem headerSize_le_size (p : Page) : headerSize ≤ p.size := by
  simp only [size, Header.encodedLength]
  omega

theorem size_pos (p : Page) : 0 < p.size :=
  Nat.lt_of_lt_of_le (by decide) p.headerSize_le_size

end Page

end Ogg
