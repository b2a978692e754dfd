import Ogg.Page

/-!
# Packets

A page's lacing values cut its body into segments. A segment whose lacing value
is 255 goes on in the next segment, any other ends a packet.
-/

namespace Ogg

/-- A packet of a logical stream. -/
structure Packet where
  /-- The bytes of the packet. -/
  data : Bytes
  /-- The logical stream. -/
  serial : UInt32
  /-- The granule position of the page on which the packet ends. -/
  granule : UInt64
  /-- The number of the page on which the packet ends. -/
  pageSequence : UInt32
  /-- It is the identification packet: the first of a stream that began with its first page. -/
  first : Bool
  /-- It is the last packet to end on a page that ends the stream. -/
  last : Bool
  deriving DecidableEq, Repr

end Ogg
