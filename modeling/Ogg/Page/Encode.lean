import Ogg.Checksum
import Ogg.Page

/-!
# Writing a page

`Page.encode` is the written form of a page, its stored checksum as it stands;
`Page.sealed` is the page of given fields with the checksum that its bytes have.
-/

namespace Ogg

namespace Header

/-- The fields of a header before the checksum. -/
def encodeStart (h : Header) : Bytes :=
  capturePattern ++ [h.version, h.flags.bits] ++ Bytes.toLE 8 h.granule.toNat
    ++ Bytes.toLE 4 h.serial.toNat ++ Bytes.toLE 4 h.sequence.toNat

/-- The number of lacing values, and the lacing values. -/
def encodeLacing (h : Header) : Bytes := UInt8.ofNat h.lacing.length :: h.lacing

end Header

namespace Page

/-- The bytes of a page around a checksum field. -/
def encodeAround (p : Page) (field : Bytes) : Bytes :=
  p.header.encodeStart ++ field ++ p.header.encodeLacing ++ p.body

/-- The written form of a page. -/
def encode (p : Page) : Bytes := p.encodeAround (Bytes.toLE 4 p.header.checksum.toNat)

/-- The checksum that a page should carry: that of its bytes with the field zero. -/
def sumOf (p : Page) : UInt32 := Checksum.ofBytes (p.encodeAround [0, 0, 0, 0])

/-- The page with the checksum that it should carry. -/
def withSum (p : Page) : Page := { p with header := { p.header with checksum := p.sumOf } }

/-- The page of the given fields, of the one defined version, with its checksum. -/
def sealed (flags : Flags) (serial sequence : UInt32) (granule : UInt64) (lacing body : Bytes) : Page :=
  withSum ⟨⟨0, flags, granule, serial, sequence, 0, lacing⟩, body⟩

end Page

end Ogg
