import Ogg.Proofs.Reading.Broken

/-!
# Reading without faults

A device is sound when nothing worse than an interruption can happen to a read. From a
sound device all bytes can be had, in order, however short the reads are and however
often they are interrupted.

## Main statements

* `Device.readSome_of_sound`: a read succeeds, and gives nothing only at the end.
* `Device.readFull_of_sound`: reading until enough gives the next bytes, as many as
  were asked or as there are.
* `Source.readFull_of_sound`: the same from a source, whose position moves along.
-/

namespace Ogg

namespace Device

/-- Nothing worse than an interruption can happen to a read. -/
def Sound (d : Device) : Prop := ∀ f ∈ d.faults, f.kind = .interrupted

instance (d : Device) : Decidable d.Sound := inferInstanceAs (Decidable (∀ f ∈ d.faults, f.kind = .interrupted))

/-- Nothing worse than an interruption of a read can happen to a device: it can be read, it can
move, and it can say where it stands. -/
structure Faultless (d : Device) : Prop where
  /-- Reads do not fail. -/
  sound : d.Sound
  /-- It can move to another offset. -/
  seekable : d.seekable = true
  /-- It can say its offset. -/
  tellable : d.tellable = true

theorem After.sound {d e : Device} {bytes : Bytes} (h : After e d bytes) (hd : d.Sound) : e.Sound :=
  fun f hf => hd f (h.faults f hf)

/-- Nothing is broken. -/
theorem Sound.not_breaks {d : Device} (h : d.Sound) (f : Nat) : ¬ d.Breaks f := by
  intro hbroken
  cases h _ hbroken

/-- **A read of a sound device succeeds**, and gives nothing only at the end. -/
theorem readSome_of_sound {d : Device} (h : d.Sound) {n : Nat} (hn : 0 < n) :
    ∃ bytes e, d.readSome n = (.ok bytes, e) ∧ After e d bytes ∧ bytes.length ≤ n ∧
      (bytes = [] → d.ahead = []) := by
  obtain ⟨hbroken, -⟩ | ⟨bytes, e, hread, hbehind, hle, hnil, -⟩ := d.readSome_cases hn
  · exact absurd hbroken (h.not_breaks _)
  · exact ⟨bytes, e, hread, hbehind.toAfter, hle, hnil⟩

/-- **Reading until enough from a sound device** gives the next bytes, as many as were
asked or as there are. -/
theorem readFull_of_sound {d : Device} (h : d.Sound) (n : Nat) :
    ∃ e, d.readFull n = ⟨d.ahead.take n, none, e⟩ ∧ After e d (d.ahead.take n) := by
  obtain ⟨e, hread, hbehind⟩ := readFull_of_clear (n := n) fun f hstops => h.not_breaks f hstops.broken
  exact ⟨e, hread, hbehind.toAfter⟩

end Device

namespace Source

/-- The position of a source moves along with what is read. -/
theorem position_advance {s : Source} {e : Device} {bytes : Bytes} (h : Device.After e s.device bytes) {p : Nat}
    (hp : s.position = .ok p) : (s.advance e bytes.length).position = .ok (p + bytes.length) := by
  cases s with
  | seekable d sniffed =>
    simp only [position, Device.tell] at hp ⊢
    split at hp
    · next htell =>
      have he : e.tellable = true := h.tellable.trans htell
      have hoff : e.offset = d.offset + bytes.length := h.offset
      cases hp
      show (if e.tellable = true then Except.ok e.offset else .error IoError.tell) = _
      rw [if_pos he, hoff]
    · cases hp
  | pipe d taken sniffed =>
    cases hp
    rfl

/-- **Reading until enough from a sound source** gives the next bytes, and moves the
position past them. -/
theorem readFull_of_sound {s : Source} (h : s.device.Sound) (n : Nat) :
    ∃ t, s.readFull n = (s.device.ahead.take n, none, t) ∧
      Device.After t.device s.device (s.device.ahead.take n) ∧ t.sniffed = s.sniffed ∧
      ∀ p, s.position = .ok p → t.position = .ok (p + (s.device.ahead.take n).length) := by
  obtain ⟨e, hread, hafter⟩ := Device.readFull_of_sound h n
  refine ⟨s.advance e (s.device.ahead.take n).length, ?_, ?_, sniffed_advance s e _, ?_⟩
  · rw [readFull, hread]
  · rwa [device_advance]
  · exact fun p hp => position_advance hafter hp

end Source

end Ogg
