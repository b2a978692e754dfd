import Ogg.Config
import Ogg.Probe.Finding
import Ogg.Probe.Handoff

/-!
# Probing a source

A probe reads the beginning of a source, as many bytes as its budget allows, and
decides from them whether the source is an Ogg bitstream and which codec its
first logical stream carries:

* the first page must begin a logical stream, and the first packet of that stream
  must end within the bytes read; that packet names the codec;
* without a page, the bytes are no Ogg bitstream if the source ended before the
  budget was used, or if no capture pattern occurs; otherwise they are malformed.

A stream that was classified is dispatched to its codec's opener. Vorbis and Speex
streams are handed over with all that was read. The FLAC mappings are read afresh:
the source goes back to where the probe found it.

The bytes read before by someone else are used instead of seeking back, if the
source stands right behind them.
-/

namespace Ogg.Probe

/-- How far a controller has come, and how its last operation ended. -/
inductive Phase where
  /-- Nothing was read, or the source could not be read. -/
  | start
  /-- The beginning of the source was read; if it stays so, it is no Ogg bitstream. -/
  | buffering
  /-- The first page was found. -/
  | pageAcquired
  /-- The codec is known and can be opened. -/
  | classified
  /-- An opener was called. -/
  | dispatched
  /-- The source could not be moved. -/
  | notSeekable
  /-- The bitstream is damaged at its beginning. -/
  | malformed
  /-- The codec is refused or not known. -/
  | unsupported
  deriving DecidableEq, Repr

/-- The last operation failed for good. -/
def Phase.isTerminalFailure : Phase → Bool
  | notSeekable => true
  | malformed => true
  | unsupported => true
  | _ => false

/-- A stream whose codec is known. -/
structure Probed where
  /-- The codec. -/
  codec : Codec
  /-- The serial number of the stream. -/
  serial : UInt32
  /-- The packet that names the codec. -/
  firstPacket : Packet
  deriving DecidableEq, Repr

/-- Probes sources, one after another. -/
structure Controller where
  /-- The settings. -/
  config : Config := {}
  /-- The bytes read and not used up. -/
  framer : Framer := {}
  /-- The logical stream that is classified. -/
  tracker : Tracker := {}
  /-- How far it has come. -/
  phase : Phase := .start
  /-- Where the source stood when the last probe began. -/
  origin : Nat := 0
  deriving DecidableEq, Repr

namespace Controller

/-- A controller that has come to a phase. -/
def enter (c : Controller) (phase : Phase) : Controller := { c with phase }

/-- Forgets all that was read; the storage stays. -/
def reset (c : Controller) : Controller :=
  { c with
    framer := { buffer := c.framer.buffer.reset, mode := { resync := c.framer.mode.resync } }
    tracker := {}
    phase := .start }

/-- A malformed bitstream. -/
def fail {α : Type} (c : Controller) (cause : Malformation) : Except Failure α × Controller :=
  (.error (.malformed cause), c.enter .malformed)

/-! ### Reading -/

/-- Reads until the budget is used. The answer is whether the source ended before. -/
def topUp (c : Controller) (s : Source) : Except Failure Bool × Controller × Source :=
  let budget := c.config.effectiveBudget
  let wanted := budget - c.framer.live.length
  match s.readFull wanted with
  | (bytes, some fault, s) =>
    let framer := { c.framer with buffer := (c.framer.buffer.reserve wanted).fill bytes }
    (.error (.io fault), { c with framer }, s)
  | (bytes, none, s) =>
    let framer := (c.framer.reserve wanted).receive bytes
    let short := decide (framer.live.length < budget)
    let framer := if short then framer.finish else framer
    (.ok short, { c with framer, phase := .buffering }, s)

/-- Whether the bytes read before can be used: the source stands right behind them. -/
def reuses (c : Controller) (s : Source) (position : Nat) : Bool :=
  c.config.reuseSniffed && !s.sniffed.isEmpty && position == s.sniffed.length

/-- Reads the beginning of a source. -/
def fill (c : Controller) (s : Source) : Except Failure Bool × Controller × Source :=
  match s.position with
  | .error e => (.error (.io e), c, s)
  | .ok position =>
    let c := { c with origin := position }
    if c.reuses s position then topUp { c with framer := c.framer.append s.sniffed } s
    else
      match s.seek 0 with
      | .error e => (.error (.notSeekable e), c.enter .notSeekable, s)
      | .ok s => topUp c s

/-! ### Deciding -/

/-- The first page. There is none in a source that is no Ogg bitstream. -/
def firstPage (c : Controller) (short : Bool) : Except Failure (Option Page) × Controller :=
  match c.framer.next with
  | (.page page, framer) => (.ok (some page), { c with framer, phase := .pageAcquired })
  | (_, framer) =>
    let c := { c with framer }
    if short then (.ok none, c)
    else if framer.stats.sawCapture || framer.atCapture then c.fail .noPage
    else (.ok none, c)

/-- The first packet of the stream, from the bytes that were read. -/
def firstPacket (c : Controller) : Except Failure Packet × Controller :=
  match c.tracker.firstPacket with
  | (some packet, tracker) => (.ok packet, { c with tracker })
  | (none, tracker) =>
    match _h : c.framer.next with
    | (.page page, framer) => firstPacket { c with framer, tracker := (tracker.ingest page).2 }
    | (_, framer) => { c with framer, tracker }.fail .packetTooLong
termination_by c.framer.live.length
decreasing_by exact Framer.next_page_live_lt _h

/-- What becomes of a stream, by its first packet. -/
def verdict (c : Controller) (serial : UInt32) (packet : Packet) :
    Except Failure (Option Probed) × Controller :=
  match classify packet.data with
  | .unknown dump => (.error (.unknownCodec dump), c.enter .unsupported)
  | .known signature =>
    match signature.route with
    | .refused reason => (.error (.unsupported signature.codec reason), c.enter .unsupported)
    | _ => (.ok (some ⟨signature.codec, serial, packet⟩), c.enter .classified)

/-- Decides what the bytes that were read are. -/
def conclude (c : Controller) (short : Bool) : Except Failure (Option Probed) × Controller :=
  match c.firstPage short with
  | (.error e, c) => (.error e, c)
  | (.ok none, c) => (.ok none, c)
  | (.ok (some page), c) =>
    if !page.bos then c.fail .firstPageNotBeginning
    else
      match firstPacket { c with tracker := ((Tracker.bind page.serial).ingest page).2 } with
      | (.error e, c) => (.error e, c)
      | (.ok packet, c) => c.verdict page.serial packet

/-- Probes a source: the stream if it can be opened, nothing if the source is no Ogg
bitstream. -/
def probe (c : Controller) (s : Source) : Except Failure (Option Probed) × Controller × Source :=
  match c.reset.fill s with
  | (.error e, c, s) => (.error e, c, s)
  | (.ok short, c, s) =>
    let (outcome, c) := c.conclude short
    (outcome, c, s)

/-! ### Dispatching -/

/-- What an opener did, as the outcome of a dispatch. -/
def opened {α : Type} (codec : Codec) (opening : Opening α) : Except Failure α :=
  opening.1.mapError (Failure.opener codec)

/-- Hands a stream with all that was read to an opener, and keeps nothing. -/
def handOver {α : Type} (c : Controller) (s : Source) (p : Probed) (opener : Handoff → Opening α) :
    Except Failure α × Controller × Source :=
  let opening := opener ⟨s, c.framer, c.tracker, p.codec, p.serial, p.firstPacket⟩
  (opened p.codec opening, { c with framer := {}, tracker := {}, phase := .dispatched }, opening.2)

/-- Takes the source back to where the probe found it and lets an opener read it afresh. -/
def rewind {α : Type} (c : Controller) (s : Source) (codec : Codec)
    (opener : Codec → Source → Opening α) : Except Failure α × Controller × Source :=
  match s.seek c.origin with
  | .error e => (.error (.notSeekable e), c.reset.enter .notSeekable, s)
  | .ok s =>
    let opening := opener codec s
    (opened codec opening, c.reset.enter .dispatched, opening.2)

/-- Why a codec without an opener would be refused. -/
def noOpener : String := "no opener for this codec"

/-- Gives a stream to its codec's opener. -/
def dispatch {α : Type} (c : Controller) (s : Source) (p : Probed) (openers : Openers α) :
    Except Failure α × Controller × Source :=
  match p.codec.route, p.codec with
  | .handoff, .vorbis => c.handOver s p openers.vorbis
  | .handoff, .speex => c.handOver s p openers.speex
  | .reprobe, .flac => c.rewind s p.codec openers.flac
  | .reprobe, .flacLegacy => c.rewind s p.codec openers.flac
  | .refused reason, _ => (.error (.unsupported p.codec reason), c.enter .unsupported, s)
  | _, _ => (.error (.unsupported p.codec noOpener), c.enter .unsupported, s)

/-- Every codec whose streams are not refused has an opener, so what becomes of a stream is what the
route of its codec says. -/
theorem dispatch_eq {α : Type} (c : Controller) (s : Source) (p : Probed) (openers : Openers α) :
    c.dispatch s p openers =
      match p.codec.route with
      | .refused reason => (.error (.unsupported p.codec reason), c.enter .unsupported, s)
      | .reprobe => c.rewind s p.codec openers.flac
      | .handoff => c.handOver s p (if p.codec = .vorbis then openers.vorbis else openers.speex) := by
  obtain ⟨codec, serial, packet⟩ := p
  cases codec <;> rfl

end Controller

/-- Probes a source and gives the stream to its codec's opener; nothing if the source is
no Ogg bitstream. -/
def openStream {α : Type} (config : Config) (s : Source) (openers : Openers α) :
    Except Failure (Option α) × Source :=
  match Controller.probe { config } s with
  | (.error e, _, s) => (.error e, s)
  | (.ok none, _, s) => (.ok none, s)
  | (.ok (some probed), c, s) =>
    let (outcome, _, s) := c.dispatch s probed openers
    (outcome.map some, s)

end Ogg.Probe
