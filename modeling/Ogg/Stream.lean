import Ogg.Packet

/-!
# Logical streams

The pages of one serial number form a logical stream, and a stream is a sequence
of packets. `Assembly.ingest` takes the pages one by one, segment by segment, and puts
the packets that end on each into a queue. Pages may be lost, repeated or out of
order: a packet is given out only if its segments come from pages with successive
numbers, each but the first of them marked as continued.

`Tracker` follows the one stream it is bound to, passes over the pages of others,
and keeps the packets until they are asked for.
-/

namespace Ogg

/-- What is known of a logical stream after some of its pages. -/
structure LogicalStream where
  /-- The serial number of its pages. -/
  serial : UInt32
  /-- The number of the latest page. -/
  lastSequence : Option UInt32 := none
  /-- The bytes of the packet that has begun and not ended. -/
  openPacket : Option Bytes := none
  /-- A page that begins the stream has been seen. -/
  bos : Bool := false
  /-- A page that ends the stream has been seen. -/
  eos : Bool := false
  /-- The number of pages. -/
  pages : Nat := 0
  /-- The number of packets given out. -/
  packets : Nat := 0
  /-- The number of pages whose number is not the successor of the one before. -/
  gaps : Nat := 0
  deriving DecidableEq, Repr

namespace LogicalStream

/-- The length of the packet that has begun and not ended. -/
def pendingLength (s : LogicalStream) : Nat := (s.openPacket.getD []).length

/-- Whether a page is not the successor of the latest one. -/
def gapBefore (s : LogicalStream) (page : Page) : Bool :=
  match s.lastSequence with
  | some last => page.sequence != last + 1
  | none => false

/-- The stream with nothing of a packet that has begun. -/
def dropOpen (s : LogicalStream) : LogicalStream := { s with openPacket := none }

/-- Turns to the next page: counts it, and takes note of what it says of itself. The open
packet is dropped after a gap, and when the page does not say that it continues it. -/
def turnTo (s : LogicalStream) (page : Page) : LogicalStream :=
  let s := if s.gapBefore page then { s.dropOpen with gaps := s.gaps + 1 } else s
  let s := { s with lastSequence := some page.sequence, pages := s.pages + 1, bos := s.bos || page.bos }
  if page.continued then s else s.dropOpen

/-- The stream with a segment put to its open packet, which begins with it if there is none. -/
def extend (s : LogicalStream) (segment : Bytes) : LogicalStream :=
  { s with openPacket := some (s.openPacket.getD [] ++ segment) }

end LogicalStream

/-! ### The packets of a page -/

/-- Marks the packet at the back of a queue as the last of its stream. -/
def markLast (ready : List Packet) : List Packet :=
  ready.dropLast ++ (ready.getLast?.map fun packet => { packet with last := true }).toList

/-- A logical stream with the queue that its packets go to. Packets of earlier pages may
still wait in it. -/
structure Assembly where
  /-- The stream. -/
  stream : LogicalStream
  /-- The packets not yet asked for, in order. -/
  ready : List Packet
  deriving DecidableEq, Repr

namespace Assembly

/-- Puts the open packet at the back of the queue. -/
def emit (a : Assembly) (page : Page) : Assembly where
  stream := { a.stream.dropOpen with packets := a.stream.packets + 1 }
  ready := a.ready ++
    [{ data := a.stream.openPacket.getD []
       serial := a.stream.serial
       granule := page.granule
       pageSequence := page.sequence
       first := a.stream.bos && a.stream.packets == 0
       last := false }]

/-- Takes the segments of a page by its lacing values. While it is `skipping`, segments are
passed over up to one that ends a packet. A body that is too short leaves the later segments
short or empty. -/
def takeSegments (page : Page) : Bool → Bytes → Bytes → Assembly → Assembly
  | _, [], _, a => a
  | true, l :: lacing, body, a => a.takeSegments page (!decide (l < continueLacing)) lacing (body.drop l.toNat)
  | false, l :: lacing, body, a =>
    let extended : Assembly := { a with stream := a.stream.extend (body.take l.toNat) }
    (if l < continueLacing then extended.emit page else extended).takeSegments page false lacing (body.drop l.toNat)

/-- Ends the open packet, such as it is, if there is one. -/
def flush (a : Assembly) (page : Page) : Assembly := if a.stream.openPacket.isSome then a.emit page else a

/-- Ends the stream, if the page does: the open packet ends too, and the last packet that has
come since there were `before` of them is marked. -/
def close (a : Assembly) (before : Nat) (page : Page) : Assembly :=
  if page.eos then
    let cut := ({ a with stream := { a.stream with eos := true } } : Assembly).flush page
    if before < cut.ready.length then { cut with ready := markLast cut.ready } else cut
  else a

/-- Takes the next page of the stream: the number of packets that end on it, and what there
is after it. The first fragment of a continued page is of no use when the beginning of its
packet is not at hand. -/
def ingest (a : Assembly) (page : Page) : Nat × Assembly :=
  let turned : Assembly := { a with stream := a.stream.turnTo page }
  let skipping := page.continued && turned.stream.openPacket.isNone
  let taken := turned.takeSegments page skipping page.header.lacing page.body
  let closed := taken.close a.ready.length page
  (closed.ready.length - a.ready.length, closed)

end Assembly

/-! ### Following one stream -/

/-- Follows the logical stream it is bound to, or the first it meets. -/
structure Tracker where
  /-- The stream. -/
  stream : Option LogicalStream := none
  /-- The packets not yet asked for, in order. -/
  ready : List Packet := []
  /-- The number of packets asked for since the tracker was bound. -/
  popped : Nat := 0
  deriving DecidableEq, Repr

namespace Tracker

/-- A tracker bound to a serial number. -/
def bind (serial : UInt32) : Tracker := { stream := some { serial } }

/-- The serial number a tracker is bound to. -/
def serial (t : Tracker) : Option UInt32 := t.stream.map (·.serial)

/-- Takes a page: the number of packets that ended on it, and the tracker after it.
A page of another stream changes nothing. -/
def ingest (t : Tracker) (page : Page) : Nat × Tracker :=
  let stream := t.stream.getD { serial := page.serial }
  if stream.serial != page.serial then (0, t)
  else
    let (completed, after) := Assembly.ingest ⟨stream, t.ready⟩ page
    (completed, { t with stream := some after.stream, ready := after.ready })

/-- Asks for the next packet. -/
def nextPacket (t : Tracker) : Option Packet × Tracker :=
  match t.ready with
  | [] => (none, t)
  | p :: rest => (some p, { t with ready := rest, popped := t.popped + 1 })

/-- The packet that is asked for is the first that waits. -/
theorem nextPacket_some {t u : Tracker} {packet : Packet} (h : t.nextPacket = (some packet, u)) :
    t.ready = packet :: u.ready ∧ u.stream = t.stream := by
  rw [nextPacket] at h
  split at h
  · cases (Prod.mk.inj h).1
  · next hready =>
    obtain ⟨hpacket, rfl⟩ := Prod.mk.inj h
    cases hpacket
    exact ⟨hready, rfl⟩

theorem nextPacket_none {t u : Tracker} (h : t.nextPacket = (none, u)) : t.ready = [] ∧ u = t := by
  rw [nextPacket] at h
  split at h
  · next hready => exact ⟨hready, (Prod.mk.inj h).2.symm⟩
  · cases (Prod.mk.inj h).1

theorem length_ready_nextPacket {t u : Tracker} {packet : Packet} (h : t.nextPacket = (some packet, u)) :
    u.ready.length < t.ready.length := by
  rw [(nextPacket_some h).1, List.length_cons]
  exact Nat.lt_succ_self _

/-- Asks for the first packet of the stream: none before it has ended, and none when
any packet was asked for already. -/
def firstPacket (t : Tracker) : Option Packet × Tracker :=
  if t.popped > 0 then (none, t) else t.nextPacket

/-- Asks for all packets there are. -/
def takeAll (t : Tracker) : List Packet × Tracker :=
  (t.ready, { t with ready := [], popped := t.popped + t.ready.length })

theorem takeAll_of_nil {t : Tracker} (h : t.ready = []) : t.takeAll = ([], t) := by
  obtain ⟨stream, ready, popped⟩ := t
  cases h
  rfl

/-- To ask for all packets is to ask for the next one and then for all others. -/
theorem takeAll_of_nextPacket {t u : Tracker} {packet : Packet} (h : t.nextPacket = (some packet, u)) :
    t.takeAll = (packet :: u.takeAll.1, u.takeAll.2) := by
  rw [nextPacket] at h
  split at h
  · cases (Prod.mk.inj h).1
  · next hready =>
    obtain ⟨hpacket, rfl⟩ := Prod.mk.inj h
    cases hpacket
    simp only [takeAll, hready, List.length_cons, Nat.add_assoc, Nat.add_comm 1]

end Tracker

end Ogg
