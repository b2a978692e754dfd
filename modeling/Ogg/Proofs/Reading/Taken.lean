import Ogg.Proofs.Probe.Supply
import Ogg.Proofs.Reading.Broken

/-!
# What is taken from a source

Bytes are read into a buffer of the caller's, a few at a time, each read going on behind the bytes
that came before (`Source.readInto`). When that ends, the buffer holds what was read over its first
bytes, and is otherwise what it was (`Source.readInto_eq`), also when it ends because a read failed.

A pipe counts the bytes that are taken from its device. Whatever is asked of it, and whether it
succeeds or fails, the bytes that were looked at when it was made and those that went into callers'
buffers are all that was taken, in order (`Source.PipeAfter`), so its count is right.

## Main statements

* `Source.readInto_eq`: filling a buffer is laying what is read over it.
* `Source.PipeAfter.serveAll`: what a pipe has given is what was taken from its device.
* `Source.reads_exact`: reading until a buffer is full, and the position of a pipe.
-/

namespace Ogg

namespace Source

/-! ### Filling a buffer -/

/-- Reads into a buffer behind the bytes that are in it already, until it is full, the input ends or
a read fails: the number of bytes in it or the error, the buffer, and the source after it. An
interrupted read is tried again. -/
def readInto (s : Source) (buffer : Bytes) (filled : Nat) : Except IoError Nat × Bytes × Source :=
  if _hroom : filled < buffer.length then
    match _h : s.read (buffer.length - filled) with
    | (.error .interrupted, t) => t.readInto buffer filled
    | (.error e, t) => (.error e, buffer, t)
    | (.ok [], t) => (.ok filled, buffer, t)
    | (.ok (b :: bytes), t) =>
      t.readInto (buffer.take filled ++ Bytes.overlay (b :: bytes) (buffer.drop filled)) (filled + (b :: bytes).length)
  else (.ok filled, buffer, s)
termination_by (buffer.length - filled, s.device.faults.length)
decreasing_by
  · exact Prod.Lex.right _ (supply.patience_lt _h)
  · apply Prod.Lex.left
    simp only [Bytes.overlay, List.length_append, List.length_take, List.length_drop, List.length_cons]
    omega

/-- How filling a buffer is answered. -/
def countOf (bytes : Bytes) : Option IoError → Except IoError Nat
  | none => .ok bytes.length
  | some e => .error e

/-- Bytes that are laid over a buffer behind others are laid over it with them. -/
theorem overlay_overlay (got more buffer : Bytes) :
    (Bytes.overlay got buffer).take got.length ++ Bytes.overlay more ((Bytes.overlay got buffer).drop got.length) =
      Bytes.overlay (got ++ more) buffer := by
  simp only [Bytes.overlay, List.take_left, List.drop_left, List.drop_drop, List.length_append, List.append_assoc]

/-- The room that is left in a buffer that some bytes were laid over. -/
theorem room_overlay (got buffer : Bytes) :
    (Bytes.overlay got.reverse buffer).length - got.length = buffer.length - got.length := by
  simp only [Bytes.overlay, List.length_append, List.length_reverse, List.length_drop]
  omega

/-- What one read comes to decides how the filling of a buffer goes on; `got` holds the bytes that
are in it, the latest first. -/
theorem readInto_of_room (s : Source) {got buffer : Bytes} {n : Nat} (hn : n = buffer.length - got.length) (h : n ≠ 0) :
    s.readInto (Bytes.overlay got.reverse buffer) got.length =
      match s.read n with
      | (.error .interrupted, t) => t.readInto (Bytes.overlay got.reverse buffer) got.length
      | (.error e, t) => (.error e, Bytes.overlay got.reverse buffer, t)
      | (.ok [], t) => (.ok got.length, Bytes.overlay got.reverse buffer, t)
      | (.ok (b :: bytes), t) =>
        t.readInto (Bytes.overlay ((b :: bytes).reverse ++ got).reverse buffer) ((b :: bytes).reverse ++ got).length := by
  have hroom : (Bytes.overlay got.reverse buffer).length - got.length = n := (room_overlay got buffer).trans hn.symm
  have hmore : ∀ more : Bytes,
      (Bytes.overlay got.reverse buffer).take got.length ++
          Bytes.overlay more ((Bytes.overlay got.reverse buffer).drop got.length) =
        Bytes.overlay (more.reverse ++ got).reverse buffer := by
    intro more
    have hover := overlay_overlay got.reverse more buffer
    rwa [List.length_reverse, ← List.reverse_reverse more, ← List.reverse_append, List.reverse_reverse] at hover
  have hcount : ∀ more : Bytes, got.length + more.length = (more.reverse ++ got).length := by
    intro more
    rw [List.length_append, List.length_reverse, Nat.add_comm]
  rw [readInto, dif_pos (by omega), hroom]
  split <;> simp_all only

/-- Filling a buffer goes on behind what was read. -/
theorem readInto_overlay (s : Source) (got buffer : Bytes) {n : Nat} (hn : n = buffer.length - got.length) :
    s.readInto (Bytes.overlay got.reverse buffer) got.length =
      (countOf (supply.readOnto s got n).1 (supply.readOnto s got n).2.1,
        Bytes.overlay (supply.readOnto s got n).1 buffer, (supply.readOnto s got n).2.2) := by
  -- along the reads, of which each finds in the buffer what the others before it have left
  fun_induction Supply.readOnto supply s got n with
  | case1 s got =>
    have hroom := room_overlay got buffer
    rw [readInto, dif_neg (by omega), countOf, List.length_reverse]
  | case2 s got n hsome t hread ih =>
    have hread' : s.read n = (.error .interrupted, t) := hread
    rw [readInto_of_room s hn hsome, hread']
    exact ih hn
  | case3 s got n hsome e t he hread =>
    have hread' : s.read n = (.error e, t) := hread
    rw [readInto_of_room s hn hsome, hread']
    cases e with
    | interrupted => exact (he rfl).elim
    | _ => rfl
  | case4 s got n hsome t hread =>
    have hread' : s.read n = (.ok [], t) := hread
    rw [readInto_of_room s hn hsome, hread', countOf, List.length_reverse]
  | case5 s got n hsome b bytes t hread ih =>
    have hread' : s.read n = (.ok (b :: bytes), t) := hread
    rw [readInto_of_room s hn hsome, hread']
    exact ih (by rw [List.length_append, List.length_reverse]; omega)

/-- **Filling a buffer is laying what is read over it**: the first bytes are those that were read, as
many as there were, and the others are what they were. -/
theorem readInto_eq (s : Source) (buffer : Bytes) :
    s.readInto buffer 0 =
      (countOf (s.readFull buffer.length).1 (s.readFull buffer.length).2.1,
        Bytes.overlay (s.readFull buffer.length).1 buffer, (s.readFull buffer.length).2.2) := by
  rw [← readFull_supply]
  exact readInto_overlay s [] buffer rfl

/-! ### What is asked of a source -/

/-- What can be asked of a source. -/
inductive Request where
  /-- One read of at most `n` bytes. -/
  | read (n : Nat)
  /-- Reads until `n` bytes have come, the input ends or a read fails. -/
  | readFull (n : Nat)
  /-- To go to an offset. -/
  | seek (offset : Nat)
  deriving DecidableEq, Repr

/-- What is asked of a source: the bytes that go into the caller's buffer, the error if there was
one, and the source after it. A source that cannot be moved stays as it is. -/
def serve (s : Source) : Request → Bytes × Option IoError × Source
  | .read n =>
    match s.read n with
    | (.ok bytes, t) => (bytes, none, t)
    | (.error e, t) => ([], some e, t)
  | .readFull n => s.readFull n
  | .seek offset =>
    match s.seek offset with
    | .ok t => ([], none, t)
    | .error e => ([], some e, s)

/-- What is asked of a source, one request after another: the answers, and the source after all. -/
def serveAll (s : Source) : List Request → List (Bytes × Option IoError) × Source
  | [] => ([], s)
  | r :: requests =>
    let answer := s.serve r
    let later := answer.2.2.serveAll requests
    ((answer.1, answer.2.1) :: later.1, later.2)

/-- What is left of a source that was read, in one way or the other. -/
theorem exists_advance_serve (s : Source) {r : Request} (hr : ∀ offset, r ≠ .seek offset) :
    ∃ e, (s.serve r).2.2 = s.advance e (s.serve r).1.length ∧ e.After s.device (s.serve r).1 := by
  cases r with
  | read n =>
    rcases hread : s.device.read n with ⟨x | bytes, e⟩
    · simp only [serve, Source.read, hread]
      exact ⟨e, rfl, (Device.behind_of_read_error hread).toAfter⟩
    · simp only [serve, Source.read, hread]
      exact ⟨e, rfl, (Device.behind_of_read_ok hread).1.toAfter⟩
  | readFull n => exact ⟨_, rfl, (s.device.behind_readFull n).toAfter⟩
  | seek offset => exact absurd rfl (hr offset)

/-- A pipe after some bytes were taken from its device, which it has counted. -/
def PipeAfter (d : Device) (bytes : Bytes) (s : Source) : Prop :=
  ∃ device sniffed, s = .pipe device bytes.length sniffed ∧ device.After d bytes

/-- The pipes over a device: made without a look at its bytes, or with one. -/
inductive PipeOver (d : Device) : Source → Prop where
  /-- Nothing was read. -/
  | new : PipeOver d (.pipe d 0 [])
  /-- Up to `n` bytes were read to look at. -/
  | sniffed {n : Nat} {s : Source} (h : sniffPipe d n = .ok s) : PipeOver d s

/-- A pipe has taken the bytes that were read to look at. -/
theorem PipeOver.pipeAfter {d : Device} {s : Source} (h : PipeOver d s) : PipeAfter d s.sniffed s := by
  cases h with
  | new => exact ⟨d, [], rfl, Device.After.refl d⟩
  | @sniffed n s h =>
    have hbehind := d.behind_readFull n
    rw [sniffPipe] at h
    split at h
    · cases h
    · cases h
      exact ⟨_, _, rfl, hbehind.toAfter⟩

namespace PipeAfter

variable {d : Device} {bytes : Bytes} {s : Source}

/-- **What a pipe gives was taken from its device**, and is counted, whatever is asked of it. -/
theorem serve (h : PipeAfter d bytes s) (r : Request) :
    PipeAfter d (bytes ++ (s.serve r).1) (s.serve r).2.2 ∧ (s.serve r).2.2.sniffed = s.sniffed := by
  obtain ⟨device, sniffed, rfl, hafter⟩ := h
  by_cases hseek : ∃ offset, r = .seek offset
  · obtain ⟨offset, rfl⟩ := hseek
    -- a pipe that is sent anywhere stays where it is, whether that is an error or not
    have hstays : PipeAfter d (bytes ++ []) (.pipe device bytes.length sniffed) := by
      rw [List.append_nil]
      exact ⟨device, sniffed, rfl, hafter⟩
    simp only [Source.serve, Source.seek]
    by_cases hhere : offset = bytes.length
    · rw [if_pos hhere]
      exact ⟨hstays, rfl⟩
    · rw [if_neg hhere]
      exact ⟨hstays, rfl⟩
  · obtain ⟨e, hadvance, he⟩ :=
      exists_advance_serve (.pipe device bytes.length sniffed) fun offset hr => hseek ⟨offset, hr⟩
    rw [hadvance]
    exact ⟨⟨e, sniffed, by rw [advance, List.length_append], hafter.trans he⟩, sniffed_advance _ _ _⟩

/-- **What a pipe has given was taken from its device**, in order, whatever was asked of it. -/
theorem serveAll (h : PipeAfter d bytes s) (requests : List Request) :
    PipeAfter d (bytes ++ (s.serveAll requests).1.flatMap Prod.fst) (s.serveAll requests).2 ∧
      (s.serveAll requests).2.sniffed = s.sniffed := by
  induction requests generalizing bytes s with
  | nil =>
    rw [Source.serveAll, List.flatMap_nil, List.append_nil]
    exact ⟨h, rfl⟩
  | cons r requests ih =>
    obtain ⟨hstep, hsniffed⟩ := h.serve r
    obtain ⟨hrest, hkept⟩ := ih hstep
    rw [Source.serveAll]
    simp only [List.flatMap_cons]
    rw [← List.append_assoc]
    exact ⟨hrest, hkept.trans hsniffed⟩

end PipeAfter

/-! ### Exactly what was taken -/

/-- A buffer is not filled if a broken place is come to; the bytes before it are in the buffer. -/
theorem readInto_of_stopsAt {s : Source} {buffer : Bytes} {f : Nat} (h : s.device.StopsAt buffer.length f) :
    ∃ t, s.readInto buffer 0 =
        (.error .read, Bytes.overlay (s.device.ahead.take (f - s.device.offset)) buffer, t) ∧
      (s.device.ahead.take (f - s.device.offset)).length = f - s.device.offset ∧ t.device.offset = f := by
  obtain ⟨e, hread, hbehind, hoffset⟩ := Device.readFull_of_stopsAt h
  refine ⟨s.advance e (s.device.ahead.take (f - s.device.offset)).length, ?_, ?_, ?_⟩
  · rw [readInto_eq, readFull, hread]
    rfl
  · have := hbehind.offset
    omega
  · rw [device_advance, hoffset]

/-- A buffer is filled, as far as there are bytes, if no broken place is come to. -/
theorem readInto_of_clear {s : Source} {buffer : Bytes} (h : ∀ f, ¬ s.device.StopsAt buffer.length f) :
    ∃ n t, s.readInto buffer 0 = (.ok n, Bytes.overlay (s.device.ahead.take n) buffer, t) ∧
      n = min buffer.length s.remaining ∧ (s.device.ahead.take n).length = n ∧
      t.device.offset = s.device.offset + n := by
  obtain ⟨e, hread, hbehind⟩ := Device.readFull_of_clear h
  have hlength : (s.device.ahead.take buffer.length).length = min buffer.length s.remaining := by
    rw [List.length_take, Device.ahead, List.length_drop, remaining, Device.remaining]
  refine ⟨_, s.advance e (s.device.ahead.take buffer.length).length, ?_, hlength, ?_, ?_⟩
  · rw [readInto_eq, readFull, hread, ← hbehind.eq_take]
    rfl
  · rw [← hbehind.eq_take]
  · rw [device_advance, hbehind.offset]

/-- **Filling a buffer is exact**: it fails if, and only if, it comes to the one broken place that a
device may have, and then the bytes before the place are in the buffer. Otherwise the next bytes are
in it, as many as there is room for or as there are. What is behind them in the buffer stays. And a
pipe counts what is taken from its device: whatever was asked of it, the bytes that were looked at
and those that went into buffers are the first ones of its device, as many as it says. -/
theorem reads_exact :
    (∀ (s : Source) (fault : Option Nat), (∀ f, s.device.Breaks f ↔ fault = some f) → ∀ buffer : Bytes,
      ((∃ e, (s.readInto buffer 0).1 = .error e) ↔
        ∃ f, fault = some f ∧ s.device.offset ≤ f ∧ f < s.device.offset + buffer.length ∧
          f ≤ max s.device.offset s.device.data.length) ∧
      (∀ e, (s.readInto buffer 0).1 = .error e → ∃ f t, fault = some f ∧
        s.readInto buffer 0 =
          (.error .read, Bytes.overlay (s.device.ahead.take (f - s.device.offset)) buffer, t) ∧
        (s.device.ahead.take (f - s.device.offset)).length = f - s.device.offset ∧ t.device.offset = f) ∧
      ∀ n, (s.readInto buffer 0).1 = .ok n → n = min buffer.length s.remaining ∧ ∃ t,
        s.readInto buffer 0 = (.ok n, Bytes.overlay (s.device.ahead.take n) buffer, t) ∧
        (s.device.ahead.take n).length = n ∧ t.device.offset = s.device.offset + n) ∧
    (∀ (s : Source) (buffer : Bytes),
      (s.readInto buffer 0).2 = (Bytes.overlay (s.serve (.readFull buffer.length)).1 buffer,
        (s.serve (.readFull buffer.length)).2.2)) ∧
    ∀ (d : Device) (s : Source), PipeOver d s → ∀ requests : List Request, ∃ n,
      (s.serveAll requests).2.position = .ok n ∧ (s.serveAll requests).2.device.offset = d.offset + n ∧
      s.sniffed ++ (s.serveAll requests).1.flatMap Prod.fst = d.ahead.take n ∧ (d.ahead.take n).length = n ∧
      (s.serveAll requests).2.sniffed = s.sniffed := by
  refine ⟨fun s fault hfault buffer => ?_, fun s buffer => ?_, fun d s hs requests => ?_⟩
  · by_cases hreached : ∃ f, fault = some f ∧ s.device.Reaches buffer.length f
    · obtain ⟨f, rfl, hreaches⟩ := hreached
      obtain ⟨g, hstops⟩ := Device.exists_stopsAt ((hfault f).mpr rfl) hreaches
      obtain rfl := Option.some.inj ((hfault g).mp hstops.broken)
      obtain ⟨t, hinto, hafter⟩ := readInto_of_stopsAt hstops
      rw [hinto]
      exact ⟨⟨fun _ => ⟨f, rfl, hreaches⟩, fun _ => ⟨.read, rfl⟩⟩, fun _ _ => ⟨f, t, rfl, rfl, hafter⟩,
        fun n h => by cases h⟩
    · obtain ⟨n, t, hinto, hn, hafter⟩ :=
        readInto_of_clear fun f h => hreached ⟨f, (hfault f).mp h.broken, h.reached⟩
      rw [hinto]
      refine ⟨⟨fun ⟨e, h⟩ => (by cases h), fun h => (hreached h).elim⟩, fun e h => (by cases h), fun m h => ?_⟩
      obtain rfl : n = m := Except.ok.inj h
      exact ⟨hn, t, rfl, hafter⟩
  · rw [readInto_eq]
    rfl
  · obtain ⟨⟨device, sniffed, hpipe, hafter⟩, hsniffed⟩ := hs.pipeAfter.serveAll requests
    refine ⟨(s.sniffed ++ (s.serveAll requests).1.flatMap Prod.fst).length, ?_, ?_, hafter.eq_take, ?_, hsniffed⟩
    · rw [hpipe, position]
    · rw [hpipe]
      exact hafter.offset
    · rw [← hafter.eq_take]

/-- Ten bytes that come from the second on, three at a time; the first read there is interrupted, and
the eighth byte is broken. A buffer of four bytes is filled, and one of nine gets six of them. A pipe
over them that looked at two says that six were taken when it was read, sent back, and read again up
to the broken place. -/
theorem reads_exact_broken :
    let faults : List Fault := [⟨1, .interrupted⟩, ⟨7, .broken⟩]
    let d : Device := { data := [0, 1, 2, 3, 4, 5, 6, 7, 8, 9], offset := 1, faults, pace := fun _ => 3 }
    let buffer : Bytes := [70, 71, 72, 73, 74, 75, 76, 77, 78]
    ((Source.seekable d []).readInto buffer 0).1 = .error .read ∧
      ((Source.seekable d []).readInto buffer 0).2.1 = [1, 2, 3, 4, 5, 6, 76, 77, 78] ∧
      ((Source.seekable d []).readInto [70, 71, 72, 73] 0).2.1 = [1, 2, 3, 4] ∧
      ∃ s, sniffPipe d 2 = .ok s ∧
        (s.serveAll [.read 1, .seek 1, .readFull 9]).2.position = .ok 6 ∧
        (s.serveAll [.read 1, .seek 1, .readFull 9]).1.flatMap Prod.fst = [3, 4, 5, 6] := by
  intro faults d buffer
  obtain ⟨hinto, -, hpipe⟩ := reads_exact
  have hfault : ∀ f, d.Breaks f ↔ some 7 = some f := by
    intro f
    simp [Device.Breaks, d, faults, eq_comm]
  obtain ⟨hfails, hbroken, -⟩ := hinto (.seekable d []) (some 7) hfault buffer
  obtain ⟨e, herror⟩ := hfails.mpr ⟨7, rfl, by decide⟩
  obtain ⟨f, t, hf, hbuffer, -⟩ := hbroken e herror
  obtain rfl := Option.some.inj hf
  obtain ⟨-, -, hfull⟩ := hinto (.seekable d []) (some 7) hfault [70, 71, 72, 73]
  have hfour : ((Source.seekable d []).readInto [70, 71, 72, 73] 0).1.toOption = some 4 := by
    rw [readInto_eq]
    decide +kernel
  obtain ⟨hsniffed, hstands⟩ : (sniffPipe d 2).toOption.map Source.sniffed = some [1, 2] ∧
      (sniffPipe d 2).toOption.map (fun s => (s.serveAll [.read 1, .seek 1, .readFull 9]).2.device.offset) = some 7 := by
    decide +kernel
  refine ⟨by rw [hbuffer], by rw [hbuffer]; rfl, ?_, ?_⟩
  · rcases hanswer : ((Source.seekable d []).readInto [70, 71, 72, 73] 0).1 with e | n
    · rw [hanswer] at hfour
      cases hfour
    · rw [hanswer] at hfour
      obtain rfl : n = 4 := Option.some.inj hfour
      obtain ⟨-, u, hfilled, -⟩ := hfull 4 hanswer
      rw [hfilled]
      rfl
  · rcases hsniff : sniffPipe d 2 with e | s
    · rw [hsniff] at hstands
      cases hstands
    · rw [hsniff] at hsniffed hstands
      obtain ⟨n, hposition, hoffset, hgiven, -⟩ := hpipe d s (.sniffed hsniff) [.read 1, .seek 1, .readFull 9]
      have hlooked : s.sniffed = [1, 2] := Option.some.inj hsniffed
      have hseven : (s.serveAll [.read 1, .seek 1, .readFull 9]).2.device.offset = 7 := Option.some.inj hstands
      obtain rfl : n = 6 := by
        rw [hseven] at hoffset
        exact (Nat.add_left_cancel hoffset).symm
      rw [hlooked] at hgiven
      exact ⟨s, rfl, hposition, (List.append_right_inj [1, 2]).mp hgiven⟩

end Source

end Ogg
