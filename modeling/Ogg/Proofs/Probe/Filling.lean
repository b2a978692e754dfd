import Ogg.Probe
import Ogg.Proofs.Framer.Completion
import Ogg.Proofs.Reading

/-!
# What a probe has read

A source presents a byte string if the bytes ahead of it are those of the string from
its position on, and those read before are the first. A probe that has filled its buffer
from such a source is `Aligned` with it: the bytes that wait and those ahead of the
source are the string from the framer's position on, none missing and none twice. Every
step on the way keeps the two aligned, be it a search or a read.

## Main statements

* `Source.presents_of_sniffSeekable`, `Source.presents_of_sniffPipe`: sources present the
  bytes of their devices.
* `Aligned.next`, `Aligned.read`, `Aligned.finish`: steps keep framer and source aligned.
* `Controller.filled_of_fill`: what a probe has read when it has filled its buffer.
* `Controller.fill_of_presents`: what a source presents can be read, up to the budget.
-/

namespace Ogg

namespace Source

/-- The bytes of a source are those of a byte string: all of them behind a device that
can move, and those ahead of one that only goes forward. -/
def Holds : Source → Bytes → Prop
  | seekable device _, d => device.data = d
  | pipe device taken _, d => device.ahead = d.drop taken

/-- A source presents a byte string: it holds it, nothing worse than an interruption can
happen to a read, and the bytes read from its beginning are its first. -/
structure Presents (s : Source) (d : Bytes) : Prop where
  /-- Reads do not fail. -/
  sound : s.device.Sound
  /-- Its bytes are those of the byte string. -/
  holds : s.Holds d
  /-- The bytes read before are the first of them. -/
  sniffed : s.sniffed <+: d

theorem Holds.ahead {s : Source} {d : Bytes} (h : s.Holds d) {p : Nat} (hp : s.position = .ok p) :
    s.device.ahead = d.drop p := by
  cases s with
  | seekable device sniffed =>
    cases h
    simp only [position, Device.tell] at hp
    split at hp
    · cases hp
      rfl
    · cases hp
  | pipe device taken sniffed =>
    cases hp
    exact h

/-- A device that can move takes its source to any offset. -/
theorem seek_of_seekable {device : Device} (h : device.seekable = true) (sniffed : Bytes) (n : Nat) :
    seek (.seekable device sniffed) n = .ok (.seekable { device with offset := n } sniffed) := by
  rw [seek, Device.seek, if_pos h]
  rfl

/-- A source that was moved to an offset stands there. -/
theorem Presents.seek {s t : Source} {d : Bytes} (h : s.Presents d) {p : Nat} (hp : s.position = .ok p) {n : Nat}
    (hseek : s.seek n = .ok t) : t.Presents d ∧ t.position = .ok n := by
  cases s with
  | seekable device sniffed =>
    simp only [Source.seek, Device.seek] at hseek
    simp only [position, Device.tell] at hp
    split at hseek
    · cases hseek
      refine ⟨⟨h.sound, h.holds, h.sniffed⟩, ?_⟩
      split at hp
      · next htell => exact if_pos htell
      · cases hp
    · cases hseek
  | pipe device taken sniffed =>
    simp only [Source.seek] at hseek
    split at hseek
    · next heq =>
      cases hseek
      exact ⟨h, congrArg Except.ok heq.symm⟩
    · cases hseek

/-- A source that stands right behind the bytes read before has all the others ahead. -/
theorem Presents.sniffed_append_ahead {s : Source} {d : Bytes} (h : s.Presents d)
    (hp : s.position = .ok s.sniffed.length) : s.sniffed ++ s.device.ahead = d := by
  obtain ⟨rest, rfl⟩ := h.sniffed
  rw [h.holds.ahead hp, List.drop_left]

/-- A source that was moved to the beginning has all the bytes ahead. -/
theorem Presents.ahead_of_seek {s t : Source} {d : Bytes} (h : s.Presents d) {p : Nat} (hp : s.position = .ok p)
    (hseek : s.seek 0 = .ok t) : t.device.ahead = d := by
  obtain ⟨ht, hposition⟩ := h.seek hp hseek
  rw [ht.holds.ahead hposition, List.drop_zero]

/-- A source made by looking at the first bytes of a device that can move presents all of
its bytes. -/
theorem presents_of_sniffSeekable {device : Device} (hd : device.Sound) {n : Nat} {s : Source}
    (h : sniffSeekable device n = .ok s) : s.Presents device.data := by
  simp only [sniffSeekable, Device.seek] at h
  split at h
  · cases h
  · next moved hseek =>
    split at hseek
    · cases hseek
      obtain ⟨e, hread, hafter⟩ := Device.readFull_of_sound (d := { device with offset := 0 }) hd n
      simp only [hread] at h
      cases h
      exact ⟨hafter.sound hd, hafter.data, List.take_prefix _ _⟩
    · cases hseek

/-- A source made by looking at the first bytes of a device that only goes forward presents
the bytes ahead of the device. -/
theorem presents_of_sniffPipe {device : Device} (hd : device.Sound) {n : Nat} {s : Source}
    (h : sniffPipe device n = .ok s) : s.Presents device.ahead := by
  obtain ⟨e, hread, hafter⟩ := Device.readFull_of_sound hd n
  simp only [sniffPipe, hread] at h
  cases h
  exact ⟨hafter.sound hd, hafter.ahead_eq_drop, List.take_prefix _ _⟩

end Source

namespace Probe

/-- A framer and a source stand together in a byte string: what waits in the framer and
what is ahead of the source is the byte string from the framer's position on. -/
structure Aligned (d : Bytes) (f : Framer) (s : Source) : Prop where
  /-- Reads do not fail. -/
  sound : s.device.Sound
  /-- The bytes waiting, and those ahead. -/
  bytes : f.live ++ s.device.ahead = d.drop f.position
  /-- The source stands behind the bytes that wait. -/
  position : s.position = .ok (f.position + f.live.length)
  /-- The input has not ended while there are bytes ahead. -/
  ended : f.mode.ended = true → s.device.ahead = []
  /-- The framer stops at a torn page. -/
  resync : f.mode.resync = false

namespace Aligned

variable {d : Bytes} {f : Framer} {s : Source}

/-- A search keeps framer and source together. -/
theorem next (h : Aligned d f s) : Aligned d f.next.2 s := by
  obtain ⟨n, hn, hlive, hposition⟩ := f.next_advance
  refine ⟨h.sound, ?_, ?_, ?_, ?_⟩
  · rw [hlive, hposition, ← List.drop_drop, ← h.bytes, List.drop_append_of_le_length hn]
  · rw [hlive, hposition, h.position, List.length_drop]
    congr 1
    omega
  · rw [f.mode_next]
    exact h.ended
  · rw [f.mode_next]
    exact h.resync

theorem of_next (h : Aligned d f s) {last : Pull} {g : Framer} (hnext : f.next = (last, g)) : Aligned d g s := by
  have hg : f.next.2 = g := by rw [hnext]
  exact hg ▸ h.next

/-- Bytes that are read go from the source to the framer. -/
theorem read (h : Aligned d f s) (hended : f.mode.ended = false) (n : Nat) :
    ∃ t, s.readFull n = (s.device.ahead.take n, none, t) ∧ t.device.ahead = s.device.ahead.drop n ∧
      ∀ g : Framer, g.live = f.live ++ s.device.ahead.take n → g.mode = f.mode → g.position = f.position →
        Aligned d g t := by
  obtain ⟨t, hread, hafter, -, hmoves⟩ := Source.readFull_of_sound h.sound n
  have hahead : t.device.ahead = s.device.ahead.drop n := by
    have hsplit := hafter.ahead
    conv at hsplit => lhs; rw [← List.take_append_drop n s.device.ahead]
    exact (List.append_cancel_left hsplit).symm
  refine ⟨t, hread, hahead, fun g hlive hmode hposition => ⟨hafter.sound h.sound, ?_, ?_, ?_, ?_⟩⟩
  · rw [hlive, hahead, hposition, List.append_assoc, List.take_append_drop]
    exact h.bytes
  · rw [hlive, hposition, List.length_append, ← Nat.add_assoc]
    exact hmoves _ h.position
  · rw [hmode, hended]
    exact fun hno => absurd hno Bool.false_ne_true
  · rw [hmode]
    exact h.resync

/-- The input may be said to have ended when nothing is ahead. -/
theorem finish (h : Aligned d f s) (hahead : s.device.ahead = []) : Aligned d f.finish s :=
  ⟨h.sound, h.bytes, h.position, fun _ => hahead, h.resync⟩

end Aligned

/-- What a framer holds when the beginning of a byte string has been read: it is aligned
with the source, and no search was made. -/
structure Filled (d : Bytes) (short : Bool) (f : Framer) (s : Source) : Prop extends Aligned d f s where
  /-- It stands at the beginning. -/
  start : f.position = 0
  /-- It has not searched. -/
  stats : f.stats = {}
  /-- It knows whether the input has ended. -/
  short_eq : f.mode.ended = short

/-- What a framer that holds the beginning of a byte string will come to is what one
comes to that is given all of it. -/
theorem Filled.complete {d : Bytes} {short : Bool} {f : Framer} {s : Source} (h : Filled d short f s) :
    f.complete s.device.ahead = Framer.complete {} d := by
  refine Framer.outcome_congr ?_
  rw [Framer.bare_eq_iff, Framer.live_whole, Framer.live_whole, h.bytes, h.start]
  refine ⟨rfl, ?_, h.start, h.stats⟩
  show Mode.mk true f.mode.resync = ⟨true, false⟩
  rw [h.resync]

namespace Controller

/-- Reading until the budget is used, from where the source stands behind what is buffered. -/
theorem filled_of_topUp {c : Controller} {s : Source} {d : Bytes} (hs : s.device.Sound)
    (hbytes : c.framer.live ++ s.device.ahead = d) (hposition : s.position = .ok c.framer.live.length)
    (hmode : c.framer.mode = {}) (hstart : c.framer.position = 0) (hstats : c.framer.stats = {}) {short : Bool}
    {c' : Controller} {s' : Source} (h : c.topUp s = (.ok short, c', s')) : Filled d short c'.framer s' := by
  generalize hwanted : c.config.effectiveBudget - c.framer.live.length = wanted at h
  have hended : c.framer.mode.ended = false := by rw [hmode]
  have haligned : Aligned d c.framer s := by
    refine ⟨hs, ?_, ?_, ?_, ?_⟩
    · rw [hstart, List.drop_zero, hbytes]
    · rw [hstart, Nat.zero_add, hposition]
    · rw [hended]
      exact fun hno => absurd hno Bool.false_ne_true
    · rw [hmode]
  obtain ⟨t, hread, hahead, hafter⟩ := haligned.read hended wanted
  have haligned' : Aligned d ((c.framer.reserve wanted).receive (s.device.ahead.take wanted)) t :=
    hafter _ (by rw [Framer.live_receive, Framer.live_reserve]) rfl rfl
  simp only [topUp, hwanted, hread, Prod.mk.injEq, Except.ok.injEq] at h
  obtain ⟨hshort, rfl, rfl⟩ := h
  cases short with
  | true =>
    have hnil : t.device.ahead = [] := by
      rw [decide_eq_true_eq, Framer.live_receive, Framer.live_reserve, List.length_append, List.length_take] at hshort
      rw [hahead]
      exact List.drop_eq_nil_of_le (by omega)
    simp only [hshort, if_true]
    exact ⟨haligned'.finish hnil, hstart, hstats, rfl⟩
  | false =>
    simp only [hshort, Bool.false_eq_true, if_false]
    exact ⟨haligned', hstart, hstats, hended⟩

/-- Bytes read before are used only where the source stands right behind them. -/
theorem stands_of_reuses {c : Controller} {s : Source} {p : Nat} (h : c.reuses s p = true) :
    p = s.sniffed.length := by
  simp only [reuses, Bool.and_eq_true, beq_iff_eq] at h
  exact h.2

/-- **What a probe has read when it has filled its buffer**, whether it seeks or uses the
bytes that were read before. -/
theorem filled_of_fill {c : Controller} {s : Source} {d : Bytes} (hs : s.Presents d)
    (hbare : c.framer.bare = Framer.bare {}) {short : Bool} {c' : Controller} {s' : Source}
    (h : c.fill s = (.ok short, c', s')) :
    Filled d short c'.framer s' := by
  obtain ⟨hlive, hmode, hstart, hstats⟩ := Framer.bare_eq_iff.mp hbare
  have hnil : c.framer.live = [] := hlive
  cases hp : s.position with
  | error e =>
    simp only [fill, hp] at h
    cases (Prod.mk.inj h).1
  | ok p =>
    simp only [fill, hp] at h
    split at h
    · next hreuses =>
      obtain rfl : p = s.sniffed.length := stands_of_reuses hreuses
      have hsniffed : (c.framer.append s.sniffed).live = s.sniffed := by
        rw [Framer.live_append, hnil, List.nil_append]
      refine filled_of_topUp (c := { c with origin := _, framer := c.framer.append s.sniffed }) hs.sound ?_ ?_ hmode
        hstart hstats h
      · rw [hsniffed]
        exact hs.sniffed_append_ahead hp
      · rw [hsniffed]
        exact hp
    · cases hseek : s.seek 0 with
      | error e =>
        simp only [hseek] at h
        cases (Prod.mk.inj h).1
      | ok t =>
        simp only [hseek] at h
        obtain ⟨ht, hposition⟩ := hs.seek hp hseek
        refine filled_of_topUp (c := { c with origin := p }) ht.sound ?_ ?_ hmode hstart hstats h
        · show c.framer.live ++ t.device.ahead = d
          rw [hnil, List.nil_append, hs.ahead_of_seek hp hseek]
        · show t.position = .ok c.framer.live.length
          rw [hposition, hnil]
          rfl

/-- Bytes that are there, and as many of the others as the budget allows, are the first of all. -/
theorem append_take_sub {before ahead d : Bytes} (h : before ++ ahead = d) {budget : Nat}
    (hle : before.length ≤ budget) : before ++ ahead.take (budget - before.length) = d.take budget := by
  rw [← h, List.take_append, List.take_of_length_le hle]

/-- The first bytes of all are too few for the budget exactly if all are. -/
theorem short_take (d : Bytes) (budget : Nat) :
    decide ((d.take budget).length < budget) = decide (d.length < budget) := by
  rw [List.length_take, decide_eq_decide]
  omega

/-- Reading until the budget is used succeeds on a sound source, and what waits then are the
first bytes of all, as many as the budget allows. -/
theorem topUp_of_sound {c : Controller} {s : Source} {d : Bytes} (hs : s.device.Sound)
    (hbytes : c.framer.live ++ s.device.ahead = d) (hle : c.framer.live.length ≤ c.config.effectiveBudget) :
    ∃ c' s', c.topUp s = (.ok (decide (d.length < c.config.effectiveBudget)), c', s') ∧
      c'.framer.live = d.take c.config.effectiveBudget := by
  generalize hbudget : c.config.effectiveBudget = budget at hle ⊢
  obtain ⟨t, hread, -⟩ := Source.readFull_of_sound hs (budget - c.framer.live.length)
  have hlive := append_take_sub hbytes hle
  simp only [topUp, hbudget, hread, Framer.live_receive, Framer.live_reserve, hlive, short_take]
  refine ⟨_, _, rfl, ?_⟩
  split
  · rw [Framer.live_finish, Framer.live_receive, Framer.live_reserve, hlive]
  · rw [Framer.live_receive, Framer.live_reserve, hlive]

/-- **Filling from a source that presents a byte string succeeds**, if the bytes read before fit the
budget, and the source can go back when they cannot be used. What waits then are the first bytes. -/
theorem fill_of_presents {c : Controller} {s : Source} {d : Bytes} (hs : s.Presents d) (hlive : c.framer.live = [])
    {p : Nat} (hp : s.position = .ok p) (hle : s.sniffed.length ≤ c.config.effectiveBudget)
    (hseek : c.reuses s p = false → ∃ t, s.seek 0 = .ok t) :
    ∃ c' s', c.fill s = (.ok (decide (d.length < c.config.effectiveBudget)), c', s') ∧
      c'.framer.live = d.take c.config.effectiveBudget := by
  simp only [fill, hp]
  cases hreuses : Controller.reuses { c with origin := p } s p with
  | true =>
    obtain rfl : p = s.sniffed.length := stands_of_reuses hreuses
    have hsniffed : (c.framer.append s.sniffed).live = s.sniffed := by
      rw [Framer.live_append, hlive, List.nil_append]
    refine topUp_of_sound (c := { c with origin := _, framer := c.framer.append s.sniffed }) hs.sound ?_ ?_
    · rw [hsniffed]
      exact hs.sniffed_append_ahead hp
    · rw [hsniffed]
      exact hle
  | false =>
    obtain ⟨t, ht⟩ := hseek hreuses
    rw [ht]
    refine topUp_of_sound (c := { c with origin := p }) (hs.seek hp ht).1.sound ?_ ?_
    · rw [hlive, List.nil_append, hs.ahead_of_seek hp ht]
    · rw [hlive]
      exact Nat.zero_le _

end Controller

end Probe

end Ogg
