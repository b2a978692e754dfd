import Ogg.Page.Encode
import Ogg.Proofs.Probe.Afresh
import Ogg.Proofs.Probe.Openers
import Ogg.Proofs.Reading.Twins

/-!
# A stream that is read afresh

A probe of a FLAC stream leaves no trace but in the source. It has written down where the source
stood, before it moved it about (`Controller.fill_ok`), and no decision changes that. So a dispatch
that sends the source back there gives it to the opener as it was, unless it cannot go back; and
either way the controller keeps nothing. It has written over none of what the source carries: the
opener reads what it would have read without a probe.

## Main statements

* `Controller.fill_ok`: what a probe does to its source.
* `Controller.dispatch_afresh`: a stream that is read afresh.
-/

namespace Ogg

/-- Reading from a source gives what reading from another gives. -/
structure Source.ReadsAs (u s : Source) : Prop where
  /-- They stand at the same place. -/
  position : u.position = s.position
  /-- They carry the same bytes read before. -/
  sniffed : u.sniffed = s.sniffed
  /-- The same bytes are ahead. -/
  ahead : u.device.ahead = s.device.ahead
  /-- Whatever is asked, be it for bytes or to go elsewhere, is answered alike; single reads apart,
  which may be cut in different ways. -/
  answers : ∀ requests : List Request, (∀ n, .read n ∉ requests) → (u.serveAll requests).1 = (s.serveAll requests).1
  /-- Single reads, too, if they are not interrupted and all cut alike. -/
  reads : s.device.Uniform → ∀ requests : List Request, (u.serveAll requests).1 = (s.serveAll requests).1
  /-- However they are cut, reads give the bytes that are ahead. -/
  given : ∀ requests : List Request, (∀ offset, .seek offset ∉ requests) →
    (u.serveAll requests).1.flatMap Prod.fst <+: s.device.ahead

theorem Source.Twin.readsAs {u s : Source} (h : u.Twin s.device.Uniform s) : u.ReadsAs s where
  position := h.position
  sniffed := h.sniffed
  ahead := h.device.ahead
  answers _ hr := h.serveAll (Or.inr hr)
  reads hs _ := h.serveAll (Or.inl hs)
  given _ hr := ⟨_, (h.device.ahead.symm.trans (u.after_serveAll hr).ahead).symm⟩

namespace Probe

namespace Controller

/-- A controller that keeps nothing of what it has read, and has come to a phase. -/
structure Blank (c : Controller) (phase : Phase) : Prop where
  /-- No bytes wait. -/
  live : c.framer.live = []
  /-- None were used up. -/
  position : c.framer.position = 0
  /-- The input has not ended. -/
  ended : c.framer.mode.ended = false
  /-- Nothing was counted. -/
  stats : c.framer.stats = {}
  /-- No stream is bound. -/
  tracker : c.tracker = {}
  /-- The phase. -/
  phase : c.phase = phase

theorem blank_reset (c : Controller) (phase : Phase) : (c.reset.enter phase).Blank phase :=
  ⟨c.framer.buffer.live_reset, rfl, rfl, rfl, rfl, rfl⟩

/-! ### What a probe does to its source -/

/-- **A probe writes down where its source stood** before it moved it about. -/
theorem fill_ok {c c₁ : Controller} {s t : Source} {short : Bool} (h : c.fill s = (.ok short, c₁, t)) :
    s.position = .ok c₁.origin ∧ t.Moved s := by
  have hread : ∀ {b : Controller} {u : Source}, u.Moved s → b.topUp u = (.ok short, c₁, t) →
      c₁.origin = b.origin ∧ t.Moved s := by
    intro b u hu htop
    rw [topUp_eq_absorb] at htop
    obtain ⟨-, hrest⟩ := Prod.mk.inj htop
    obtain ⟨rfl, rfl⟩ := Prod.mk.inj hrest
    exact ⟨origin_absorb _ _ _, hu.readFull _⟩
  rw [fill] at h
  split at h
  · cases h
  · next position hposition =>
    simp only at h
    split at h
    · obtain ⟨horigin, hmoved⟩ := hread (.refl s) h
      exact ⟨horigin ▸ hposition, hmoved⟩
    · split at h
      · cases h
      · next u hseek =>
        obtain ⟨horigin, hmoved⟩ := hread ((Source.Moved.refl s).seek hseek) h
        exact ⟨horigin ▸ hposition, hmoved⟩

/-! ### Going back -/

section Back

variable {c : Controller} {s : Source} {p : Probed} {ω α : Type}

/-- A source that can go back is given to the opener of FLAC, which is the only one called. -/
theorem dispatchFrom_of_back {u : Source} (hroute : p.codec.route = .reprobe) (hseek : s.seek c.origin = .ok u)
    (h : Handler Source ω α) (w : ω) :
    c.dispatchFrom Source.supply s p h.logged (w, []) =
      ((h w (.flac p.codec u)).1.mapError (Failure.opener p.codec), c.reset.enter .dispatched,
        (h w (.flac p.codec u)).2, [.flac p.codec u]) := by
  have hsupply : Source.supply.seek s c.origin = (.ok (), u) := by simp only [Source.supply, hseek]
  simp only [dispatchFrom, arrange, hroute, hsupply]
  rfl

/-- A source that cannot go back is given to no opener. -/
theorem dispatchFrom_of_stuck {e : IoError} (hroute : p.codec.route = .reprobe) (hseek : s.seek c.origin = .error e)
    (h : Handler Source ω α) (w : ω) :
    c.dispatchFrom Source.supply s p h.logged (w, []) =
      (.error (.notSeekable e), c.reset.enter .notSeekable, w, []) := by
  have hsupply : Source.supply.seek s c.origin = (.error e, s) := by simp only [Source.supply, hseek]
  simp only [dispatchFrom, arrange, hroute, hsupply]

end Back

/-- **A probe does not show to an opener that reads afresh.** When a stream was found to be FLAC, of
either kind, dispatching it calls the opener of FLAC once, and no other, for that codec, and with a
source that reads as the source did before the probe; or the source cannot go back to where it stood,
and no opener is called. Either way the controller keeps nothing. A pipe cannot go back exactly if the
probe has moved it. -/
theorem dispatch_afresh {c c' : Controller} {s s' : Source} {p : Probed} (h : c.probe s = (.ok (some p), c', s'))
    (hflac : p.codec = .flac ∨ p.codec = .flacLegacy) :
    ∃ origin, s.position = .ok origin ∧
      (∀ (ω α : Type) (handler : Handler Source ω α) (w : ω),
        (∃ u c'', s'.seek origin = .ok u ∧ u.position = .ok origin ∧ u.ReadsAs s ∧
          c'.dispatchFrom Source.supply s' p handler.logged (w, []) =
            ((handler w (.flac p.codec u)).1.mapError (Failure.opener p.codec), c'', (handler w (.flac p.codec u)).2,
              [.flac p.codec u]) ∧
          c''.Blank .dispatched) ∨
        ∃ e c'', s'.seek origin = .error e ∧
          c'.dispatchFrom Source.supply s' p handler.logged (w, []) = (.error (.notSeekable e), c'', w, []) ∧
          c''.Blank .notSeekable) ∧
      (∀ d taken sniffed, s = .pipe d taken sniffed →
        ((∃ e, s'.seek origin = .error e) ↔ s'.position ≠ s.position)) ∧
      ∀ (α : Type) (openers : Openers α),
        c'.dispatch s' p openers = c'.dispatchFrom Source.supply s' p openers.handler s' := by
  obtain ⟨short, c₁, hfill, hconclude⟩ := probe_ok h
  obtain ⟨hposition, hmoved⟩ := fill_ok hfill
  -- the decision has left the origin that was written down before the source was moved
  have horigin : c'.origin = c₁.origin := by
    rw [← c₁.origin_conclude short, hconclude]
  have hroute := Codec.route_eq_reprobe_iff.mpr hflac
  rw [← horigin] at hposition
  refine ⟨c'.origin, hposition, fun ω α handler w => ?_, ?_, fun α openers => c'.dispatch_eq_dispatchFrom s' p openers⟩
  · cases hseek : s'.seek c'.origin with
    | ok u =>
      have htwin := hmoved.seek_back hposition hseek
      exact Or.inl ⟨u, _, rfl, htwin.position.trans hposition, htwin.readsAs,
        dispatchFrom_of_back hroute hseek handler w, c'.blank_reset .dispatched⟩
    | error e =>
      exact Or.inr ⟨e, _, rfl, dispatchFrom_of_stuck hroute hseek handler w, c'.blank_reset .notSeekable⟩
  · rintro d taken sniffed rfl
    obtain rfl : taken = c'.origin := Except.ok.inj hposition
    exact hmoved.pipe_stuck_iff

end Controller

/-- The bytes of a stream of FLAC that consists of its first packet. -/
def flacBytes : Bytes := (Page.sealed ⟨6⟩ 9 0 0 [4] [0x66, 0x4c, 0x61, 0x43]).encode

/-- Its stream. -/
def flacProbed : Probed := ⟨.flac, 9, ⟨[0x66, 0x4c, 0x61, 0x43], 9, 0, 0, true, true⟩⟩

/-- Openers that all succeed. -/
def willing : Handler Source Unit Unit := fun w _ => (.ok (), w)

/-- The stream on a device, four bytes of which were looked at, is read afresh behind these; in a pipe
it is not. -/
theorem dispatch_afresh_flacBytes :
    let s : Source := .seekable { data := flacBytes, offset := 4 } (flacBytes.take 4)
    let t : Source := .pipe { data := flacBytes } 0 []
    (∃ c u c'' s', Controller.probe {} s = (.ok (some flacProbed), c, s') ∧
        c.dispatchFrom Source.supply s' flacProbed willing.logged ((), []) = (.ok (), c'', (), [.flac .flac u]) ∧
        u.position = .ok 4 ∧ u.ReadsAs s) ∧
      ∃ c e c'' t', Controller.probe {} t = (.ok (some flacProbed), c, t') ∧
        c.dispatchFrom Source.supply t' flacProbed willing.logged ((), []) = (.error (.notSeekable e), c'', (), []) ∧
        c''.Blank .notSeekable := by
  intro s t
  obtain ⟨hfound, hback, hfound', hgone⟩ : (Controller.probe {} s).1.toOption = some (some flacProbed) ∧
      ((Controller.probe {} s).2.2.seek 4).toOption.isSome = true ∧
      (Controller.probe {} t).1.toOption = some (some flacProbed) ∧
      (Controller.probe {} t).2.2.position.toOption = some flacBytes.length := by decide +kernel
  constructor
  · rcases hprobe : Controller.probe {} s with ⟨_ | outcome, c, s'⟩
    · rw [hprobe] at hfound
      cases hfound
    · rw [hprobe] at hfound hback
      cases hfound
      obtain ⟨origin, hposition, hdispatch, -⟩ := Controller.dispatch_afresh hprobe (Or.inl rfl)
      obtain rfl : 4 = origin := Except.ok.inj hposition
      obtain ⟨u, c'', -, hu, hreads, hcalled, -⟩ | ⟨e, c'', hstuck, -⟩ := hdispatch Unit Unit willing ()
      · exact ⟨c, u, c'', s', rfl, hcalled, hu, hreads⟩
      · simp only [hstuck] at hback
        cases hback
  · rcases hprobe : Controller.probe {} t with ⟨_ | outcome, c, t'⟩
    · rw [hprobe] at hfound'
      cases hfound'
    · rw [hprobe] at hfound' hgone
      cases hfound'
      obtain ⟨origin, hposition, hdispatch, hpipe, -⟩ := Controller.dispatch_afresh hprobe (Or.inl rfl)
      obtain rfl : 0 = origin := Except.ok.inj hposition
      obtain ⟨u, c'', hseek, -⟩ | ⟨e, c'', -, hcalled, hblank⟩ := hdispatch Unit Unit willing ()
      · obtain ⟨e, hstuck⟩ := (hpipe _ _ _ rfl).mpr fun hstays => by
          rw [hstays] at hgone
          cases hgone
        rw [hstuck] at hseek
        cases hseek
      · exact ⟨c, e, c'', t', rfl, hcalled, hblank⟩

end Probe

end Ogg
