import Ogg.Codec
import Ogg.Json
import Ogg.Percent

/-!
# Scan reports

What a scan of a whole bitstream finds: every page in order, a summary of every
logical stream by serial number, how many bytes belong to no page, and how sound
the bitstream is on the whole.
-/

namespace Ogg

/-- The words for a dump in structured output. -/
def Dump.toJson (d : Dump) : Json := .object [("printable", .text d.printable), ("hex", .text d.hex)]

namespace Scan

/-- A page as the scan found it. -/
structure Entry where
  /-- Where the page begins. -/
  offset : Nat
  /-- The logical stream. -/
  serial : UInt32
  /-- The number of the page in its stream. -/
  sequence : UInt32
  /-- The flags as they are written. -/
  flags : UInt8
  /-- The granule position. -/
  granule : UInt64
  /-- The number of segments. -/
  segments : Nat
  /-- The length of the body. -/
  bodyLength : Nat
  deriving DecidableEq, Repr

/-- What a scan finds about one logical stream. -/
structure Summary where
  /-- The serial number. -/
  serial : UInt32
  /-- Where the first page of the stream begins. -/
  firstOffset : Nat
  /-- The number of pages. -/
  pages : Nat := 0
  /-- The number of packets. -/
  packets : Nat := 0
  /-- A page begins the stream. -/
  bos : Bool := false
  /-- A page ends the stream. -/
  eos : Bool := false
  /-- The number of pages that do not follow on the one before. -/
  gaps : Nat := 0
  /-- The codec of the identification packet, if there is one that is known. -/
  codec : Option Codec := none
  /-- The beginning of an identification packet that no codec claims. -/
  unknown : Option Dump := none
  deriving DecidableEq, Repr

/-- The number of gaps in all streams. -/
def gapsIn : List Summary → Nat
  | [] => 0
  | s :: rest => s.gaps + gapsIn rest

/-- How sound a bitstream is. -/
inductive Quality where
  /-- Every byte belongs to a page, and every page follows on the one before. -/
  | clean
  /-- There are pages, and something is wrong with them or between them. -/
  | damaged
  /-- There is no page. -/
  | unsynchronized
  deriving DecidableEq, Repr

/-- The word for a quality. -/
def Quality.name : Quality → String
  | clean => "Clean"
  | damaged => "Damaged"
  | unsynchronized => "Unsynchronized"

/-- What a scan finds. -/
structure Report where
  /-- The number of bytes. -/
  scanned : Nat
  /-- The number of pages. -/
  pages : Nat
  /-- The number of spurious candidates. -/
  rejected : Nat
  /-- The number of bytes that belong to no page. -/
  skipped : Nat
  /-- The number of bytes of a page that the input ends in. -/
  trailing : Nat
  /-- The pages, in order. -/
  log : List Entry := []
  /-- The logical streams, by serial number. -/
  streams : List Summary := []
  /-- How sound the bitstream is. -/
  quality : Quality
  deriving DecidableEq, Repr

namespace Report

/-- How many bytes in a hundred belong to pages. -/
def syncShare (r : Report) : Float := Percent.share (r.scanned - r.skipped - r.trailing) r.scanned

/-- A report in one line. -/
def summary (r : Report) : String :=
  s!"{r.quality.name} scan: {r.pages} page(s) in {r.streams.length} stream(s), {r.rejected} rejected, " ++
  s!"{r.skipped + r.trailing} byte(s) skipped, {Percent.text r.syncShare}% of {r.scanned} byte(s) in sync"

end Report

/-- A page entry in structured output. -/
def Entry.toJson (e : Entry) : Json :=
  .object [
    ("offset", .number e.offset),
    ("serial", .number e.serial.toNat),
    ("sequence", .number e.sequence.toNat),
    ("flags", .number e.flags.toNat),
    ("granule_position", .number e.granule.toNat),
    ("segments", .number e.segments),
    ("body_len", .number e.bodyLength)]

/-- A stream summary in structured output. -/
def Summary.toJson (s : Summary) : Json :=
  .object [
    ("serial", .number s.serial.toNat),
    ("first_offset", .number s.firstOffset),
    ("pages", .number s.pages),
    ("packets", .number s.packets),
    ("bos", .bool s.bos),
    ("eos", .bool s.eos),
    ("sequence_gaps", .number s.gaps),
    ("codec", Json.ofOption (fun c => .text c.tag) s.codec),
    ("unknown", Json.ofOption Dump.toJson s.unknown)]

/-- A report in structured output. -/
def Report.toJson (r : Report) : Json :=
  .object [
    ("bytes_scanned", .number r.scanned),
    ("pages", .number r.pages),
    ("rejected", .number r.rejected),
    ("bytes_skipped", .number r.skipped),
    ("trailing_bytes", .number r.trailing),
    ("page_log", .array (r.log.map Entry.toJson)),
    ("streams", .array (r.streams.map Summary.toJson)),
    ("quality", .text r.quality.name)]

end Scan

end Ogg
