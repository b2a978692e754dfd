import Ogg.Proofs.Probe.Supply

/-!
# What a dispatch does with its openers

A dispatch decides which opener is to be called, and with what, or that none is; that is all that
depends on the controller and the source (`Controller.arrange`). Only then it calls the opener, and
the answer is its outcome.

Openers can be anything that answers these calls, with a state of any kind (`Handler`), so that they
may well keep a record of them (`Handler.logged`). The openers of sources are such a handler, and
what a controller does with them is what `Controller.dispatchFrom` does with that handler.

## Main statements

* `Codec.route_eq_handoff_iff`, `Codec.route_eq_reprobe_iff`: the codecs that have openers.
* `Controller.arrange_cases`: all that a dispatch can come to before it calls an opener.
* `Controller.dispatchFrom_logged`: keeping a record changes nothing, and the record is of the one
  call that was arranged, or empty.
* `Controller.dispatch_eq_dispatchFrom`: a dispatch to the openers of sources is one to a handler.
-/

namespace Ogg

/-- The streams that are handed over are those of two codecs. -/
theorem Codec.route_eq_handoff_iff {codec : Codec} : codec.route = .handoff ↔ codec = .vorbis ∨ codec = .speex := by
  cases codec <;> decide

/-- The streams that are read afresh are those of the two codecs called FLAC. -/
theorem Codec.route_eq_reprobe_iff {codec : Codec} : codec.route = .reprobe ↔ codec = .flac ∨ codec = .flacLegacy := by
  cases codec <;> decide

namespace Probe

/-! ### Calls of openers -/

/-- A call of an opener, with what it is given. -/
inductive Invocation (σ : Type) where
  /-- The opener of Vorbis takes over. -/
  | vorbis (source : σ) (framer : Framer) (tracker : Tracker) (probed : Probed)
  /-- The opener of Speex takes over. -/
  | speex (source : σ) (framer : Framer) (tracker : Tracker) (probed : Probed)
  /-- The opener of FLAC reads the source afresh. -/
  | flac (codec : Codec) (source : σ)

/-- A call is one of the opener that belongs to a codec. -/
def Invocation.BelongsTo {σ : Type} (codec : Codec) : Invocation σ → Prop
  | .vorbis _ _ _ probed => codec = .vorbis ∧ probed.codec = codec
  | .speex _ _ _ probed => codec = .speex ∧ probed.codec = codec
  | .flac named _ => (codec = .flac ∨ codec = .flacLegacy) ∧ named = codec

/-- Anything that answers the calls of openers, with states `ω`. -/
abbrev Handler (σ ω α : Type) := ω → Invocation σ → Except String α × ω

/-- The handler that keeps a record of its calls. -/
def Handler.logged {σ ω α : Type} (h : Handler σ ω α) : Handler σ (ω × List (Invocation σ)) α := fun w call =>
  ((h w.1 call).1, (h w.1 call).2, w.2 ++ [call])

namespace Controller

variable {σ ω α : Type}

/-! ### Arranging a call and making it -/

/-- The opener that is to be called for a stream, and what it is given, or why none is. -/
def arrange (a : Supply σ) (c : Controller) (s : σ) (p : Probed) : Except Failure (Invocation σ) × Controller :=
  match p.codec.route with
  | .refused reason => (.error (.unsupported p.codec reason), c.enter .unsupported)
  | .reprobe =>
    match a.seek s c.origin with
    | (.error e, _) => (.error (.notSeekable e), c.reset.enter .notSeekable)
    | (.ok _, s) => (.ok (.flac p.codec s), c.reset.enter .dispatched)
  | .handoff =>
    (.ok (if p.codec = .vorbis then .vorbis s c.framer c.tracker p else .speex s c.framer c.tracker p),
      { c with framer := {}, tracker := {}, phase := .dispatched })

/-- Gives a stream to its codec's opener, of any kind. -/
def dispatchFrom (a : Supply σ) (c : Controller) (s : σ) (p : Probed) (h : Handler σ ω α) (w : ω) :
    Except Failure α × Controller × ω :=
  match c.arrange a s p with
  | (.error e, c) => (.error e, c, w)
  | (.ok call, c) => ((h w call).1.mapError (Failure.opener p.codec), c, (h w call).2)

/-- **All that a dispatch can come to before it calls an opener**: the codec is refused; or the source
cannot go back to where it was found; or the opener that belongs to the codec is to be called. -/
theorem arrange_cases (a : Supply σ) (c : Controller) (s : σ) (p : Probed) :
    (∃ reason, p.codec.route = .refused reason ∧
        c.arrange a s p = (.error (.unsupported p.codec reason), c.enter .unsupported)) ∨
      (p.codec.route = .reprobe ∧ ∃ e t, a.seek s c.origin = (.error e, t) ∧
        c.arrange a s p = (.error (.notSeekable e), c.reset.enter .notSeekable)) ∨
      ∃ call c', c.arrange a s p = (.ok call, c') ∧ call.BelongsTo p.codec ∧ c'.phase = .dispatched ∧
        (∀ reason, p.codec.route ≠ .refused reason) ∧
        (p.codec.route = .reprobe → ∃ t, a.seek s c.origin = (.ok (), t)) := by
  rw [arrange]
  split
  · next reason hroute => exact Or.inl ⟨reason, hroute, rfl⟩
  · next hroute =>
    split
    · next e t hseek => exact Or.inr (Or.inl ⟨hroute, e, t, hseek, rfl⟩)
    · next u t hseek =>
      exact Or.inr (Or.inr ⟨_, _, rfl, ⟨Codec.route_eq_reprobe_iff.mp hroute, rfl⟩, rfl,
        by simp [hroute], fun _ => ⟨t, hseek⟩⟩)
  · next hroute =>
    refine Or.inr (Or.inr ⟨_, _, rfl, ?_, rfl, by simp [hroute], by simp [hroute]⟩)
    by_cases hvorbis : p.codec = .vorbis
    · rw [if_pos hvorbis]
      exact ⟨hvorbis, rfl⟩
    · rw [if_neg hvorbis]
      exact ⟨(Codec.route_eq_handoff_iff.mp hroute).resolve_left hvorbis, rfl⟩

/-- The openers that are called by a dispatch: the one that was arranged, or none. -/
def callsOf : Except Failure (Invocation σ) → List (Invocation σ)
  | .ok call => [call]
  | .error _ => []

/-- **Keeping a record changes nothing of a dispatch**, and the record is that of the call that was
arranged. -/
theorem dispatchFrom_logged (a : Supply σ) (c : Controller) (s : σ) (p : Probed) (h : Handler σ ω α) (w : ω) :
    c.dispatchFrom a s p h.logged (w, []) =
      ((c.dispatchFrom a s p h w).1, (c.dispatchFrom a s p h w).2.1, (c.dispatchFrom a s p h w).2.2,
        callsOf (c.arrange a s p).1) := by
  rw [dispatchFrom, dispatchFrom]
  rcases c.arrange a s p with ⟨e | call, c'⟩
  · rfl
  · rfl

end Controller

/-! ### The openers of sources -/

/-- The openers of sources, as a handler: what it keeps is the source that an opener left. -/
def Openers.handler {α : Type} (openers : Openers α) : Handler Source Source α := fun _ call =>
  match call with
  | .vorbis s framer tracker p => openers.vorbis ⟨s, framer, tracker, p.codec, p.serial, p.firstPacket⟩
  | .speex s framer tracker p => openers.speex ⟨s, framer, tracker, p.codec, p.serial, p.firstPacket⟩
  | .flac codec s => openers.flac codec s

/-- **A dispatch to the openers of sources is one to a handler.** -/
theorem Controller.dispatch_eq_dispatchFrom {α : Type} (c : Controller) (s : Source) (p : Probed) (openers : Openers α) :
    c.dispatch s p openers = c.dispatchFrom Source.supply s p openers.handler s := by
  cases hroute : p.codec.route with
  | refused reason => simp only [dispatch_eq, dispatchFrom, arrange, hroute]
  | reprobe =>
    simp only [dispatch_eq, dispatchFrom, arrange, hroute, rewind, Source.supply]
    cases s.seek c.origin with
    | error e => rfl
    | ok t => rfl
  | handoff =>
    simp only [dispatch_eq, dispatchFrom, arrange, hroute, handOver]
    by_cases hvorbis : p.codec = .vorbis
    · rw [if_pos hvorbis, if_pos hvorbis]
      rfl
    · rw [if_neg hvorbis, if_neg hvorbis]
      rfl

end Probe

end Ogg
