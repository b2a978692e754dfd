import Ogg.Codec
import Ogg.Framer
import Ogg.Source
import Ogg.Stream

/-!
# Handing a stream to its opener

A codec's opener takes over where the probe stopped: it has the source, the bytes
that were read and not used, the tracker with the packets after the first, and
the first packet. `Handoff.draw` is an opener's reading loop: it gives all packets of
the stream after the first, reading as many bytes at a time as it likes.
-/

namespace Ogg.Probe

/-- What a codec's opener takes over. -/
structure Handoff where
  /-- The source, after the last byte that was read. -/
  source : Source
  /-- The bytes that were read and are not used up. -/
  framer : Framer
  /-- The stream, and its packets after the first. -/
  tracker : Tracker
  /-- The codec. -/
  codec : Codec
  /-- The serial number of the stream. -/
  serial : UInt32
  /-- The identification packet. -/
  firstPacket : Packet

/-- What an opener does: it succeeds or says why not, and leaves the source somewhere. -/
abbrev Opening (α : Type) := Except String α × Source

/-- The openers of the codecs that can be opened. -/
structure Openers (α : Type) where
  /-- Opens a Vorbis stream. -/
  vorbis : Handoff → Opening α
  /-- Opens a Speex stream. -/
  speex : Handoff → Opening α
  /-- Opens a FLAC stream, from where the probe found the source. -/
  flac : Codec → Source → Opening α

/-- The rest of a stream. -/
structure Rest where
  /-- Its packets, in order. -/
  packets : List Packet
  /-- The bytes after the last page. -/
  framer : Framer
  /-- The stream at its end. -/
  tracker : Tracker

/-- How the reading of a stream ended. -/
inductive Ending where
  /-- The input ended behind a page, or behind bytes that begin none. -/
  | finished
  /-- The input ended inside a page, with so many bytes from its beginning on. -/
  | torn (buffered : Nat)
  /-- The source cannot be read. -/
  | unreadable (cause : IoError)
  deriving DecidableEq, Repr

/-- What was read of a stream: the rest of it up to where the reading ended, why it
ended, and the source after it. -/
structure Drawn where
  /-- The rest of the stream. -/
  rest : Rest
  /-- Why the reading ended. -/
  ending : Ending
  /-- The source. -/
  source : Source

/-- Reads a stream to its end, the `n`-th time `chunks n` bytes; `reads` is the number of
times so far, and `got` holds the packets so far, the latest first. A page torn by the
end of the input, or a source that cannot be read, ends it too. -/
def drawFrom (chunks : Nat → Nat) (reads : Nat) (got : List Packet) (f : Framer) (t : Tracker) (s : Source) :
    Drawn :=
  let packets := t.takeAll.1.reverse ++ got
  let t := t.takeAll.2
  match _h : f.next with
  | (.page page, g) => drawFrom chunks reads packets g (t.ingest page).2 s
  | (.torn buffered, g) => ⟨⟨packets.reverse, g, t⟩, .torn buffered, s⟩
  | (.starved, g) =>
    if _e : g.mode.ended then ⟨⟨packets.reverse, g, t⟩, .finished, s⟩
    else
      let chunk := chunks reads
      match _h' : s.readFull chunk with
      | (_, some fault, u) => ⟨⟨packets.reverse, g, t⟩, .unreadable fault, u⟩
      | ([], none, u) => drawFrom chunks (reads + 1) packets (g.reserve chunk).finish t u
      | (b :: bytes, none, u) => drawFrom chunks (reads + 1) packets ((g.reserve chunk).receive (b :: bytes)) t u
termination_by (s.remaining + (if f.mode.ended then 0 else 1), f.live.length)
decreasing_by
  · have hmode : g.mode = f.mode := by rw [← f.mode_next, _h]
    rw [hmode]
    exact Prod.Lex.right _ (Framer.next_page_live_lt _h)
  · have hmode : g.mode = f.mode := by rw [← f.mode_next, _h]
    have hread := s.remaining_readFull chunk
    rw [_h'] at hread
    simp only [List.length_nil] at hread
    rw [hmode] at _e
    apply Prod.Lex.left
    simp only [Framer.finish, _e, if_true, Bool.false_eq_true, if_false]
    omega
  · have hmode : g.mode = f.mode := by rw [← f.mode_next, _h]
    have hread := s.remaining_readFull chunk
    rw [_h'] at hread
    simp only [List.length_cons] at hread
    apply Prod.Lex.left
    simp only [Framer.receive, Framer.reserve, hmode]
    omega

namespace Handoff

/-- The stream after its first packet, read to its end, `chunks n` bytes the `n`-th time. -/
def draw (h : Handoff) (chunks : Nat → Nat) : Drawn := drawFrom chunks 0 [] h.framer h.tracker h.source

/-- The packets of a stream after the first, read to its end, `chunk` bytes at a time. It
fails in words if a page is torn or the source cannot be read. -/
def collect (h : Handoff) (chunk : Nat) : Opening Rest :=
  let drawn := h.draw fun _ => chunk
  (match drawn.ending with
    | .finished => .ok drawn.rest
    | .torn buffered => .error (tornMessage buffered)
    | .unreadable cause => .error cause.message,
    drawn.source)

end Handoff

end Ogg.Probe
