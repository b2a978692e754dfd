import Ogg.Bytes

/-!
# Codecs

The first packet of a logical stream identifies its codec by the bytes it begins
with. `Signature.table` lists those bytes in order; the first entry that matches
decides. Each entry also says what becomes of such a stream. A packet that no
entry claims is reported by its first few bytes.
-/

namespace Ogg

/-- What a logical stream carries. -/
inductive Codec where
  /-- Annodex, an annotated bitstream. -/
  | annodex
  /-- The data of an annotated bitstream. -/
  | anxData
  /-- FLAC, whose packets begin with `0x7f` and `FLAC`. -/
  | flacLegacy
  /-- FLAC, whose packets begin with `fLaC`. -/
  | flac
  /-- Plain samples. -/
  | pcm
  /-- Speex speech. -/
  | speex
  /-- Vorbis audio. -/
  | vorbis
  deriving DecidableEq, Repr

/-- What becomes of a stream whose codec is known. -/
inductive Route where
  /-- Its buffered bytes and packets are handed to the codec's opener. -/
  | handoff
  /-- The source is rewound and the codec's opener reads it afresh. -/
  | reprobe
  /-- It is refused. -/
  | refused (reason : String)
  deriving DecidableEq, Repr

/-- How a codec is recognised. -/
structure Signature where
  /-- The codec. -/
  codec : Codec
  /-- The bytes that its first packet begins with. -/
  magic : Bytes
  /-- The name shown for it. -/
  name : String
  /-- What becomes of its streams. -/
  route : Route
  deriving DecidableEq, Repr

/-- Whether a packet begins with the bytes of a signature. -/
def Signature.matches (s : Signature) (packet : Bytes) : Bool := s.magic.isPrefixOf packet

namespace Codec

/-- Why containers of annotations are refused. -/
def unknownData : String := "unknown data type"

/-- The signature of a codec. -/
def signature : Codec → Signature
  | annodex => ⟨annodex, [0x41, 0x6e, 0x6e, 0x6f, 0x64, 0x65, 0x78], "Annodex", .refused unknownData⟩
  | anxData => ⟨anxData, [0x41, 0x6e, 0x78, 0x44, 0x61, 0x74, 0x61], "AnxData", .refused unknownData⟩
  | flacLegacy => ⟨flacLegacy, [0x7f, 0x46, 0x4c, 0x41, 0x43], "Flac1", .reprobe⟩
  | flac => ⟨flac, [0x66, 0x4c, 0x61, 0x43], "Flac0", .reprobe⟩
  | pcm => ⟨pcm, [0x50, 0x43, 0x4d, 0x20, 0x20, 0x20, 0x20, 0x20], "PCM", .refused "not supported yet"⟩
  | speex => ⟨speex, [0x53, 0x70, 0x65, 0x65, 0x78], "Speex", .handoff⟩
  | vorbis => ⟨vorbis, [0x01, 0x76, 0x6f, 0x72, 0x62, 0x69, 0x73], "Vorbis", .handoff⟩

/-- The name shown for a codec. -/
def name (c : Codec) : String := c.signature.name

/-- What becomes of a codec's streams. -/
def route (c : Codec) : Route := c.signature.route

/-- The word for a codec in structured output. -/
def tag : Codec → String
  | annodex => "Annodex"
  | anxData => "AnxData"
  | flacLegacy => "FlacLegacy"
  | flac => "Flac"
  | pcm => "Pcm"
  | speex => "Speex"
  | vorbis => "Vorbis"

/-- The codecs, in the order in which their signatures are tried. -/
def all : List Codec := [annodex, anxData, flacLegacy, flac, pcm, speex, vorbis]

/-- The codec of a structured output's word. -/
def ofTag? (s : String) : Option Codec := all.find? fun c => c.tag == s

/-- The codec that a user means by a name, in letters of either case. Only ASCII
letters have a case here: no other letter's lower case occurs in a name. -/
def ofName? (s : String) : Option Codec :=
  match s.toLower with
  | "annodex" => some annodex
  | "anxdata" => some anxData
  | "flac1" => some flacLegacy
  | "flaclegacy" => some flacLegacy
  | "flac0" => some flac
  | "flac" => some flac
  | "pcm" => some pcm
  | "speex" => some speex
  | "vorbis" => some vorbis
  | _ => none

end Codec

/-- The signatures in the order in which they are tried. -/
def Signature.table : List Signature := Codec.all.map Codec.signature

/-! ### Packets that no signature claims -/

/-- The first bytes of a packet, as they are shown. -/
structure Dump where
  /-- At most `Dump.maxBytes` bytes. -/
  head : Bytes
  deriving DecidableEq, Repr

namespace Dump

/-- How many bytes are shown. -/
def maxBytes : Nat := 8

/-- The dump of a packet. -/
def ofPacket (packet : Bytes) : Dump := ⟨packet.take maxBytes⟩

/-- A byte as a character: itself from the space to the tilde, a point otherwise. -/
def printableChar (b : UInt8) : Char := if 0x20 ≤ b && b ≤ 0x7e then Char.ofUInt8 b else '.'

/-- The bytes as characters. -/
def printable (d : Dump) : String := String.ofList (d.head.map printableChar)

/-- The bytes as hexadecimal pairs, a space between two. -/
def hex (d : Dump) : String := String.intercalate " " (d.head.map Bytes.hexPair)

/-- A dump as it stands in messages. -/
def display (d : Dump) : String := s!"'{d.printable}'  {d.hex}"

end Dump

/-! ### Classification -/

/-- What a first packet says about its stream. -/
inductive Classification where
  /-- It carries a known codec. -/
  | known (signature : Signature)
  /-- No signature matches. -/
  | unknown (dump : Dump)
  deriving DecidableEq, Repr

/-- Classifies a packet by an ordered list of signatures: the first match decides. -/
def classifyWith (table : List Signature) (packet : Bytes) : Classification :=
  match table.find? (·.matches packet) with
  | some s => .known s
  | none => .unknown (Dump.ofPacket packet)

/-- Classifies a packet. -/
def classify (packet : Bytes) : Classification := classifyWith Signature.table packet

/-- The codec that a classification names. -/
def Classification.codec : Classification → Option Codec
  | known s => some s.codec
  | unknown _ => none

end Ogg
