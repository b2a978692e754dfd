import Ogg.Device

/-!
# Sources

A source is what a probe reads from: a device that can be moved about, or a pipe
that only goes forward and counts its own position. Either may carry the bytes
that someone has read from its beginning already, to see what kind of file it is.

Reading from a source is reading from its device; a pipe counts the bytes. The
bytes of a failed transfer have been read, so a pipe counts them too.
-/

namespace Ogg

/-- Where a probe reads from. -/
inductive Source where
  /-- A device that can move, and the bytes read from its beginning already. -/
  | seekable (device : Device) (sniffed : Bytes)
  /-- A device that only goes forward, the number of bytes read from it, and those of
  them that were read to look at. -/
  | pipe (device : Device) (taken : Nat) (sniffed : Bytes)

namespace Source

/-- The device behind a source. -/
def device : Source → Device
  | seekable device _ => device
  | pipe device _ _ => device

/-- The bytes read from the beginning already. -/
def sniffed : Source → Bytes
  | seekable _ sniffed => sniffed
  | pipe _ _ sniffed => sniffed

/-- The source after `n` bytes have been read, its device being as given. -/
def advance (s : Source) (device : Device) (n : Nat) : Source :=
  match s with
  | seekable _ sniffed => seekable device sniffed
  | pipe _ taken sniffed => pipe device (taken + n) sniffed

/-! ### Making a source -/

/-- A source that can move, from whose beginning up to `n` bytes are read to look at. -/
def sniffSeekable (d : Device) (n : Nat) : Except IoError Source :=
  match d.seek 0 with
  | .error e => .error e
  | .ok d =>
    let t := d.readFull n
    match t.fault with
    | some e => .error e
    | none => .ok (seekable t.device t.bytes)

/-- A source that only goes forward, of which up to `n` bytes are read to look at. -/
def sniffPipe (d : Device) (n : Nat) : Except IoError Source :=
  let t := d.readFull n
  match t.fault with
  | some e => .error e
  | none => .ok (pipe t.device t.bytes.length t.bytes)

/-! ### Using a source -/

/-- Where the next byte stands. -/
def position : Source → Except IoError Nat
  | seekable device _ => device.tell
  | pipe _ taken _ => .ok taken

/-- The source moved to an offset. A pipe moves nowhere but to where it is. -/
def seek (s : Source) (offset : Nat) : Except IoError Source :=
  match s with
  | seekable device sniffed => (device.seek offset).map (seekable · sniffed)
  | pipe _ taken _ => if offset = taken then .ok s else .error (.forwardOnly taken offset)

/-- One read of at most `n` bytes. -/
def read (s : Source) (n : Nat) : Except IoError Bytes × Source :=
  match s.device.read n with
  | (.ok bytes, device) => (.ok bytes, s.advance device bytes.length)
  | (.error e, device) => (.error e, s.advance device 0)

/-- Reads until `n` bytes have come, the input ends or a read fails: the bytes, the
error if there was one, and the source after it. -/
def readFull (s : Source) (n : Nat) : Bytes × Option IoError × Source :=
  let t := s.device.readFull n
  (t.bytes, t.fault, s.advance t.device t.bytes.length)

/-- The number of bytes still to be read. -/
def remaining (s : Source) : Nat := s.device.remaining

@[simp] theorem device_advance (s : Source) (d : Device) (n : Nat) : (s.advance d n).device = d := by
  cases s <;> rfl

@[simp] theorem sniffed_advance (s : Source) (d : Device) (n : Nat) :
    (s.advance d n).sniffed = s.sniffed := by
  cases s <;> rfl

/-- What was read is no longer there to be read. -/
theorem remaining_readFull (s : Source) (n : Nat) :
    (s.readFull n).2.2.remaining + (s.readFull n).1.length = s.remaining := by
  simpa [readFull, remaining] using Device.remaining_readFull s.device n

end Source

end Ogg
