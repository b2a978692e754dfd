import Ogg.Codec
import Ogg.Device
import Ogg.Scan.Report

/-!
# What a probe comes to

A probe that fails says why: `Failure` has one constructor for each cause, and
`Failure.message` its words. `Finding` is the summary of a probe that reports
show, one for every outcome.
-/

namespace Ogg

/-- Why a bitstream cannot be classified. -/
inductive Malformation where
  /-- Its first page does not begin a logical stream. -/
  | firstPageNotBeginning
  /-- Capture patterns occur, but no page. -/
  | noPage
  /-- The first packet goes on past the bytes that may be read. -/
  | packetTooLong
  deriving DecidableEq, Repr

/-- A malformation in words. -/
def Malformation.message : Malformation → String
  | firstPageNotBeginning => "first page is not a beginning-of-stream page"
  | noPage => "input does not appear to be an Ogg bitstream"
  | packetTooLong => "initial header packet is not complete within the probe budget"

namespace Probe

/-- Why a stream could not be opened. -/
inductive Failure where
  /-- The source cannot be moved to where it must be read from. -/
  | notSeekable (cause : IoError)
  /-- The bitstream is damaged at its beginning. -/
  | malformed (cause : Malformation)
  /-- The codec is known and refused. -/
  | unsupported (codec : Codec) (reason : String)
  /-- The codec is not known. -/
  | unknownCodec (dump : Dump)
  /-- The codec's opener failed. -/
  | opener (codec : Codec) (reason : String)
  /-- The source cannot be read. -/
  | io (cause : IoError)
  deriving DecidableEq, Repr

namespace Failure

/-- A failure in words. -/
def message : Failure → String
  | notSeekable cause => s!"Source cannot seek to the start of the stream: {cause.message}"
  | malformed cause => s!"Malformed Ogg stream: {cause.message}"
  | unsupported codec reason => s!"Ogg/{codec.name} data: {reason}"
  | unknownCodec dump => s!"Ogg bitstream contains an unknown data type: {dump.display}"
  | opener codec reason => s!"{codec.name} opener failed: {reason}"
  | io cause => s!"IO error: {cause.message}"

/-- The stream was classified, and there is nothing to be done with it. -/
def isUnsupported : Failure → Bool
  | unsupported _ _ => true
  | unknownCodec _ => true
  | _ => false

end Failure

/-- A probe in short. -/
inductive Finding where
  /-- The codec is known and can be opened. -/
  | classified (codec : Codec)
  /-- The codec is known and refused. -/
  | unsupported (codec : Codec)
  /-- The codec is not known. -/
  | unknown (dump : Dump)
  /-- The bitstream is damaged at its beginning. -/
  | malformed (cause : Malformation)
  /-- The source cannot be moved to its beginning. -/
  | notSeekable
  /-- The bytes are no Ogg bitstream. -/
  | foreign
  /-- The source cannot be read, or the opener failed. -/
  | failed (message : String)
  deriving DecidableEq, Repr

namespace Finding

/-- A failure in short. -/
def ofFailure : Failure → Finding
  | .notSeekable _ => notSeekable
  | .malformed cause => malformed cause
  | .unsupported codec _ => unsupported codec
  | .unknownCodec dump => unknown dump
  | .opener codec reason => failed (Failure.opener codec reason).message
  | .io cause => failed (Failure.io cause).message

/-- The outcome of a probe in short. -/
def ofOutcome : Except Failure (Option Codec) → Finding
  | .ok (some codec) => classified codec
  | .ok none => foreign
  | .error failure => ofFailure failure

/-- Something is wrong. That the bytes are no Ogg bitstream is not. -/
def isError : Finding → Bool
  | classified _ => false
  | foreign => false
  | _ => true

/-- A finding in words. -/
def display : Finding → String
  | classified codec => s!"Ogg/{codec.name}"
  | unsupported codec => s!"Ogg/{codec.name} (unsupported)"
  | unknown dump => s!"Ogg, unknown data type {dump.display}"
  | malformed cause => s!"malformed Ogg: {cause.message}"
  | notSeekable => "source not seekable"
  | foreign => "not an Ogg bitstream"
  | failed message => s!"error: {message}"

/-- A finding in structured output. -/
def toJson : Finding → Json
  | classified codec => .object [("result", .text "classified"), ("detail", .text codec.tag)]
  | unsupported codec => .object [("result", .text "unsupported"), ("detail", .text codec.tag)]
  | unknown dump => .object [("result", .text "unknown"), ("detail", dump.toJson)]
  | malformed cause => .object [("result", .text "malformed"), ("detail", .text cause.message)]
  | notSeekable => .object [("result", .text "not_seekable")]
  | foreign => .object [("result", .text "insufficient_data")]
  | failed message => .object [("result", .text "failed"), ("detail", .text message)]

end Finding

end Probe

end Ogg
