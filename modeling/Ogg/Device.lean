import Ogg.Bytes

/-!
# Devices

A device holds bytes and gives them out from an offset on, each read as many as
it likes up to what was asked: `pace` limits the reads one by one, and a fault
cuts short the read before it. A read at the offset of a fault fails. An
interruption happens once, after which the read can be tried again; a broken
place stays broken.

## Main statements

* `read_ok`, `readSome_ok`: what is read are the next bytes, and the offset moves past them.
* `remaining_readSome`, `remaining_readFull`: what was read is no longer there to be read.
-/

namespace Ogg

/-- Why an operation on a device or source failed. -/
inductive IoError where
  /-- The read was interrupted and can be tried again. -/
  | interrupted
  /-- The place cannot be read. -/
  | read
  /-- The device cannot move. -/
  | seek
  /-- The device cannot say where it stands. -/
  | tell
  /-- A source that only goes forward was asked to move elsewhere. -/
  | forwardOnly (position target : Nat)
  deriving DecidableEq, Repr

/-- An error in words. -/
def IoError.message : IoError → String
  | interrupted => "interrupted"
  | read => "read fault"
  | seek => "seek fault"
  | tell => "tell fault"
  | forwardOnly position target => s!"cannot seek a forward-only source from {position} to {target}"

/-- What goes wrong at an offset. -/
inductive FaultKind where
  /-- The read is interrupted, once. -/
  | interrupted
  /-- Every read fails. -/
  | broken
  deriving DecidableEq, Repr

/-- A fault of a device. -/
structure Fault where
  /-- The offset whose read fails. -/
  offset : Nat
  /-- How it fails. -/
  kind : FaultKind
  deriving DecidableEq, Repr

/-- Bytes behind a reader. -/
structure Device where
  /-- The bytes. -/
  data : Bytes
  /-- Where the next read begins; it may lie past the end. -/
  offset : Nat := 0
  /-- The faults still to come. -/
  faults : List Fault := []
  /-- The most bytes that the `n`-th read gives, or `0` for no limit. -/
  pace : Nat → Nat := fun _ => 0
  /-- The number of reads so far. -/
  reads : Nat := 0
  /-- It can move to another offset. -/
  seekable : Bool := true
  /-- It can say its offset. -/
  tellable : Bool := true

namespace Device

/-- The number of bytes from the offset to the end. -/
def remaining (d : Device) : Nat := d.data.length - d.offset

/-- The bytes from the offset to the end. -/
def ahead (d : Device) : Bytes := d.data.drop d.offset

/-- The offset, if the device can say it. -/
def tell (d : Device) : Except IoError Nat := if d.tellable then .ok d.offset else .error .tell

/-- The device moved to another offset, if it can move. -/
def seek (d : Device) (offset : Nat) : Except IoError Device :=
  if d.seekable then .ok { d with offset } else .error .seek

/-- The most bytes that a read of `n` bytes may give: its pace permitting, and up to
the next fault. -/
def readLimit (d : Device) (n : Nat) : Nat :=
  let paced := if d.pace d.reads == 0 then n else min n (d.pace d.reads)
  ((d.faults.filter (d.offset < ·.offset)).map (·.offset - d.offset)).foldl min paced

/-- One read of at most `n` bytes. A read of no bytes gives none and fails never. -/
def read (d : Device) (n : Nat) : Except IoError Bytes × Device :=
  if n = 0 then (.ok [], d)
  else
    match d.faults.find? (·.offset == d.offset) with
    | some ⟨_, .interrupted⟩ =>
      (.error .interrupted, { d with faults := d.faults.eraseP (·.offset == d.offset) })
    | some ⟨_, .broken⟩ => (.error .read, d)
    | none =>
      let bytes := d.ahead.take (d.readLimit n)
      (.ok bytes, { d with offset := d.offset + bytes.length, reads := d.reads + 1 })

/-- What a successful read gives are the next bytes. -/
theorem read_ok {d e : Device} {n : Nat} {bytes : Bytes} (h : d.read n = (.ok bytes, e)) :
    bytes = d.ahead.take bytes.length ∧ e.data = d.data ∧ e.offset = d.offset + bytes.length := by
  unfold read at h
  split at h
  · obtain ⟨hb, rfl⟩ := Prod.mk.inj h
    cases hb
    simp
  · split at h
    · simp at h
    · simp at h
    · obtain ⟨hb, rfl⟩ := Prod.mk.inj h
      cases hb
      refine ⟨?_, rfl, rfl⟩
      rw [List.length_take, List.take_eq_take_iff]
      omega

/-- An interruption is gone once it has happened. -/
theorem length_faults_of_interrupted {d e : Device} {n : Nat} (h : d.read n = (.error .interrupted, e)) :
    e.faults.length < d.faults.length := by
  unfold read at h
  split at h
  · simp at h
  · split at h
    · next hfind =>
      obtain ⟨-, rfl⟩ := Prod.mk.inj h
      have hmem := List.mem_of_find?_eq_some hfind
      have hp := List.find?_some hfind
      rw [List.length_eraseP_of_mem hmem hp]
      have := List.length_pos_of_mem hmem
      omega
    · simp at h
    · simp at h

/-- One read of at most `n` bytes, tried again as often as it is interrupted. -/
def readSome (d : Device) (n : Nat) : Except IoError Bytes × Device :=
  match _h : d.read n with
  | (.error .interrupted, e) => e.readSome n
  | answer => answer
termination_by d.faults.length
decreasing_by exact length_faults_of_interrupted _h

theorem offset_of_read_error {d e : Device} {n : Nat} {x : IoError} (h : d.read n = (.error x, e)) :
    e.data = d.data ∧ e.offset = d.offset := by
  unfold read at h
  split at h
  · simp at h
  · split at h
    · obtain ⟨-, rfl⟩ := Prod.mk.inj h
      exact ⟨rfl, rfl⟩
    · obtain ⟨-, rfl⟩ := Prod.mk.inj h
      exact ⟨rfl, rfl⟩
    · simp at h

/-- What a successful read gives are the next bytes, however often it was interrupted. -/
theorem readSome_ok {d e : Device} {n : Nat} {bytes : Bytes} (h : d.readSome n = (.ok bytes, e)) :
    bytes = d.ahead.take bytes.length ∧ e.data = d.data ∧ e.offset = d.offset + bytes.length := by
  fun_induction readSome d n with
  | case1 d e' hread ih =>
    obtain ⟨hd, ho⟩ := offset_of_read_error hread
    have := ih h
    rwa [ahead, hd, ho] at this
  | case2 d hread => exact read_ok h

/-- What a read gives is no longer there to be read. -/
theorem remaining_readSome {d e : Device} {n : Nat} {bytes : Bytes} (h : d.readSome n = (.ok bytes, e)) :
    e.remaining + bytes.length = d.remaining := by
  obtain ⟨hb, hd, ho⟩ := readSome_ok h
  have hlen := congrArg List.length hb
  simp only [ahead, List.length_take, List.length_drop] at hlen
  simp only [remaining, hd, ho]
  omega

/-- A read that fails moves nothing. -/
theorem readSome_error {d e : Device} {n : Nat} {x : IoError} (h : d.readSome n = (.error x, e)) :
    e.data = d.data ∧ e.offset = d.offset := by
  fun_induction readSome d n with
  | case1 d e' hread ih =>
    obtain ⟨hd, ho⟩ := offset_of_read_error hread
    have := ih h
    rwa [hd, ho] at this
  | case2 d hread => exact offset_of_read_error h

/-! ### Reading until enough -/

/-- What a sequence of reads brought: the bytes, the error that ended it if one did,
and the device after it. -/
structure Transfer where
  /-- The bytes read. -/
  bytes : Bytes
  /-- The error that ended the reading. -/
  fault : Option IoError
  /-- The device after it. -/
  device : Device

/-- Reads until `n` more bytes have come, the input ends or a read fails; `got` holds
the bytes read before, the latest first. -/
def readOnto (d : Device) (got : Bytes) (n : Nat) : Transfer :=
  if n = 0 then ⟨got.reverse, none, d⟩
  else
    match d.readSome n with
    | (.ok [], e) => ⟨got.reverse, none, e⟩
    | (.ok (b :: bytes), e) => e.readOnto ((b :: bytes).reverse ++ got) (n - (b :: bytes).length)
    | (.error x, e) => ⟨got.reverse, some x, e⟩
termination_by n
decreasing_by
  simp only [List.length_cons]
  omega

/-- Reads until `n` bytes have come, the input ends or a read fails. -/
def readFull (d : Device) (n : Nat) : Transfer := d.readOnto [] n

theorem remaining_readOnto (d : Device) (got : Bytes) (n : Nat) :
    (d.readOnto got n).device.remaining + (d.readOnto got n).bytes.length = d.remaining + got.length := by
  fun_induction readOnto d got n with
  | case1 => simp
  | case2 d got n hn e hread =>
    have := remaining_readSome hread
    simp only [List.length_nil] at this
    simp only [List.length_reverse]
    omega
  | case3 d got n hn b bytes e hread ih =>
    have := remaining_readSome hread
    simp only [List.length_append, List.length_reverse] at ih
    omega
  | case4 d got n hn x e hread =>
    obtain ⟨hd, ho⟩ := readSome_error hread
    simp only [remaining, hd, ho, List.length_reverse]

/-- What was read is no longer there to be read. -/
theorem remaining_readFull (d : Device) (n : Nat) :
    (d.readFull n).device.remaining + (d.readFull n).bytes.length = d.remaining := by
  simpa [readFull] using remaining_readOnto d [] n

end Device

end Ogg
