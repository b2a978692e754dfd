import Ogg.Device
import Ogg.Framer
import Ogg.Scan.Report
import Ogg.Stream

/-!
# Scanning a bitstream

A scan reads a device to its end, chunk by chunk, and reports on every page. It
goes on past damage: spurious candidates and torn pages are passed over, and what
is passed over is counted. Each page is also given to a tracker of its own
logical stream, which counts packets and gaps and finds the codec.
-/

namespace Ogg.Scan

/-! ### One logical stream -/

/-- A logical stream during a scan. -/
structure Strand where
  /-- The packets of the stream. -/
  tracker : Tracker
  /-- What was found so far. -/
  summary : Summary
  /-- No identification packet is to be expected any more: it has been seen, or the
  stream did not begin with its first page. -/
  identified : Bool
  deriving DecidableEq, Repr

namespace Strand

/-- A logical stream before its first page, which is given. -/
def start (offset : Nat) (page : Page) : Strand where
  tracker := Tracker.bind page.serial
  summary := { serial := page.serial, firstOffset := offset }
  identified := !page.bos

/-- The summary with what its identification packet says. -/
def identify (s : Summary) (packet : Packet) : Summary :=
  match classify packet.data with
  | .known signature => { s with codec := some signature.codec }
  | .unknown dump => { s with unknown := some dump }

/-- The summary with one more packet. -/
def countPacket (s : Summary) : Summary := { s with packets := s.packets + 1 }

/-- Gives a page to the tracker, and takes note of what the page says of itself. -/
def note (s : Strand) (page : Page) : Strand :=
  { s with
    tracker := (s.tracker.ingest page).2
    summary :=
      { s.summary with
        pages := s.summary.pages + 1
        bos := s.summary.bos || page.bos
        eos := s.summary.eos || page.eos } }

/-- Asks for the identification packet as long as it is expected, and counts it. -/
def seekIdentity (s : Strand) : Strand :=
  if s.identified then s
  else
    match s.tracker.firstPacket with
    | (none, tracker) => { s with tracker }
    | (some packet, tracker) =>
      { tracker, summary := identify (countPacket s.summary) packet, identified := true }

/-- Asks for packets until there are none, and counts each of them. -/
def tally (s : Strand) : Strand :=
  match _h : s.tracker.nextPacket with
  | (none, tracker) => { s with tracker }
  | (some _, tracker) => tally { s with tracker, summary := countPacket s.summary }
termination_by s.tracker.ready.length
decreasing_by exact Tracker.length_ready_nextPacket _h

/-- Copies the gaps of the stream into the summary. -/
def copyGaps (s : Strand) : Strand :=
  { s with summary := { s.summary with gaps := (s.tracker.stream.map (·.gaps)).getD s.summary.gaps } }

/-- Takes the next page of the stream. Packets are counted in two places: the identification
packet where it is looked at, and all others once none is expected any more. -/
def feed (s : Strand) (page : Page) : Strand :=
  let s := (s.note page).seekIdentity
  (if s.identified then s.tally else s).copyGaps

end Strand

/-- Gives a page to its logical stream, among streams in the order of their serial numbers. -/
def feedStrands (offset : Nat) (page : Page) : List Strand → List Strand
  | [] => [(Strand.start offset page).feed page]
  | s :: rest =>
    if page.serial < s.summary.serial then (Strand.start offset page).feed page :: s :: rest
    else if page.serial = s.summary.serial then s.feed page :: rest
    else s :: feedStrands offset page rest

/-! ### The whole bitstream -/

/-- A scan in progress. -/
structure Scanner where
  /-- The bytes read and not yet used up. -/
  framer : Framer
  /-- The number of bytes read. -/
  scanned : Nat := 0
  /-- The pages found, in order. -/
  log : List Entry := []
  /-- The logical streams, by serial number. -/
  strands : List Strand := []
  /-- The number of bytes of a page that the input ends in. -/
  trailing : Nat := 0
  deriving DecidableEq, Repr

/-- A page as it is logged. -/
def Entry.ofPage (offset : Nat) (page : Page) : Entry where
  offset := offset
  serial := page.serial
  sequence := page.sequence
  flags := page.header.flags.bits
  granule := page.granule
  segments := page.header.lacing.length
  bodyLength := page.body.length

/-- The bytes read at a time: enough for a header. Storage for a chunk is asked for at once, so a
chunk is taken to fit in the memory of the machine, with a page of the largest size. -/
def chunkSize (wanted : Nat) : Nat := max wanted headerSize

namespace Scanner

/-- A scan before its first read, with room for a chunk behind the largest page. -/
def start (chunk : Nat) : Scanner where
  framer := { buffer := Buffer.withCapacity (chunk + maxPageSize), mode := { resync := true } }

/-- Takes note of a page. -/
def record (s : Scanner) (found : Nat × Page) : Scanner :=
  { s with
    log := s.log ++ [Entry.ofPage found.1 found.2]
    strands := feedStrands found.1 found.2 s.strands }

/-- Takes note of all pages in the bytes read so far. -/
def settle (s : Scanner) : Scanner :=
  let (pages, last, framer) := s.framer.drain
  let s := pages.foldl record { s with framer }
  match last with
  | .torn buffered => { s with trailing := buffered }
  | _ => s

/-- Makes room for a chunk. -/
def reserve (s : Scanner) (chunk : Nat) : Scanner := { s with framer := s.framer.reserve chunk }

/-- Takes the bytes of a read into the room made for them. -/
def receive (s : Scanner) (bytes : Bytes) : Scanner :=
  { s with framer := s.framer.receive bytes, scanned := s.scanned + bytes.length }

/-- Takes the end of the input. -/
def finish (s : Scanner) : Scanner := { s with framer := s.framer.finish }

/-- How sound a bitstream is, by what was found. -/
def quality (pages skipped trailing gaps : Nat) : Quality :=
  if pages = 0 then .unsynchronized
  else if skipped = 0 ∧ trailing = 0 ∧ gaps = 0 then .clean
  else .damaged

/-- What was found. The bytes of a torn page were passed over like others; they are
counted once, as trailing. -/
def report (s : Scanner) : Report :=
  let skipped := s.framer.stats.skipped - s.trailing
  let streams := s.strands.map (·.summary)
  { scanned := s.scanned
    pages := s.framer.stats.pages
    rejected := s.framer.stats.rejected
    skipped
    trailing := s.trailing
    log := s.log
    streams
    quality := quality s.framer.stats.pages skipped s.trailing (gapsIn streams) }

/-- Reads a device to its end. `progress` holds the number of bytes read after each
read, the latest first. -/
def run (chunk : Nat) (progress : List Nat) (s : Scanner) (d : Device) : List Nat × Except IoError Scanner :=
  match _h : d.readSome chunk with
  | (.error e, _) => (progress.reverse, .error e)
  | (.ok [], _) => ((s.scanned :: progress).reverse, .ok ((s.reserve chunk).finish.settle))
  | (.ok (b :: bytes), e) =>
    let s := ((s.reserve chunk).receive (b :: bytes)).settle
    run chunk (s.scanned :: progress) s e
termination_by d.remaining
decreasing_by
  have := Device.remaining_readSome _h
  simp only [List.length_cons] at this
  omega

end Scanner

/-- What a scan comes to. -/
structure Outcome where
  /-- The number of bytes read, after each read. -/
  progress : List Nat
  /-- What was found, or why the device could not be read. -/
  report : Except IoError Report

/-- Scans a device to its end. Damage is reported and fails nothing; only a device
that cannot be read does. -/
def scan (d : Device) (wanted : Nat) : Outcome :=
  let chunk := chunkSize wanted
  let (progress, result) := (Scanner.start chunk).run chunk [] d
  ⟨progress, result.map Scanner.report⟩

/-- The bytes read at a time when nothing else is said. -/
def defaultChunk : Nat := 64 * 1024

end Ogg.Scan
