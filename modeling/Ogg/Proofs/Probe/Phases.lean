import Ogg.Proofs.Probe.Handoff
import Ogg.Proofs.Probe.Openers

/-!
# The phase of a controller

A controller probes, dispatches and is reset, in any order, and what is dispatched need not be what it
found. Its phase is written in many places on the way. But what it is in the end depends on how the
last operation ended, and on nothing before: every step of a probe that fails leaves the phase that
goes with its failure (`Controller.Owns`), so the phase of a probe is a function of its outcome
(`Phase.ofOutcome`); and that of a dispatch says whether an opener was called, and if none was, why.

## Main statements

* `Controller.phase_probeFrom`: the phase that a probe ends in.
* `Controller.tellsDispatch_dispatchFrom`: the phase that a dispatch ends in, and the calls it made.
* `Controller.phase_tells`: after any history, the phase says how the last operation ended.
-/

namespace Ogg.Probe

/-! ### How a probe ends -/

/-- The phase that goes with a failure. -/
def Phase.ofFailure : Failure → Phase
  | .notSeekable _ => .notSeekable
  | .malformed _ => .malformed
  | .unsupported _ _ => .unsupported
  | .unknownCodec _ => .unsupported
  | .opener _ _ => .dispatched
  | .io _ => .start

/-- The phase that goes with the outcome of a probe. -/
def Phase.ofOutcome : Except Failure (Option Probed) → Phase
  | .ok (some _) => .classified
  | .ok none => .buffering
  | .error e => .ofFailure e

/-- The phase says how a probe ended. -/
structure TellsProbe (outcome : Except Failure (Option Probed)) (phase : Phase) : Prop where
  /-- The codec is known and can be opened. -/
  classified : phase = .classified ↔ ∃ p, outcome = .ok (some p)
  /-- The bytes are no Ogg bitstream. -/
  buffering : phase = .buffering ↔ outcome = .ok none
  /-- The bitstream is damaged. -/
  malformed : phase = .malformed ↔ ∃ cause, outcome = .error (.malformed cause)
  /-- The source could not go to its beginning. -/
  notSeekable : phase = .notSeekable ↔ ∃ cause, outcome = .error (.notSeekable cause)
  /-- The codec is refused or not known. -/
  unsupported : phase = .unsupported ↔
    (∃ codec reason, outcome = .error (.unsupported codec reason)) ∨ ∃ dump, outcome = .error (.unknownCodec dump)
  /-- The source could not be read. -/
  start : phase = .start ↔ ∃ cause, outcome = .error (.io cause)

/-- Different outcomes go with different phases, but for the two ways in which a codec is not supported. -/
theorem tellsProbe_ofOutcome (outcome : Except Failure (Option Probed)) :
    TellsProbe outcome (Phase.ofOutcome outcome) := by
  rcases outcome with (_ | _ | _ | _ | _ | _) | (_ | _) <;> constructor <;> simp [Phase.ofOutcome, Phase.ofFailure]

namespace Controller

/-- A step that fails leaves the phase that goes with its failure. -/
def Owns {α : Type} (step : Except Failure α × Controller) : Prop :=
  ∀ e, step.1 = .error e → step.2.phase = Phase.ofFailure e

theorem owns_ok {α : Type} (x : α) (c : Controller) : Owns (.ok x, c) := fun _ h => by cases h

theorem owns_error {α : Type} {e : Failure} {c : Controller} (h : c.phase = .ofFailure e) :
    Owns (α := α) (.error e, c) := fun _ he => Except.error.inj he ▸ h

theorem owns_fail {α : Type} (c : Controller) (cause : Malformation) : Owns (c.fail (α := α) cause) := owns_error rfl

theorem owns_absorb {c : Controller} (hstart : c.phase = .start) (bytes : Bytes) (fault : Option IoError) :
    Owns (c.absorb bytes fault) := by
  cases fault with
  | some fault => exact owns_error hstart
  | none => exact owns_ok _ _

theorem phase_absorb {c c' : Controller} {bytes : Bytes} {fault : Option IoError} {short : Bool}
    (h : c.absorb bytes fault = (.ok short, c')) : c'.phase = .buffering := by
  cases fault with
  | some fault => cases h
  | none =>
    cases h
    rfl

/-- Taking in what was gathered either fails, or brings a controller to where it decides. -/
theorem owns_takeIn {c : Controller} (hstart : c.phase = .start) (intake : Intake) : Owns (c.takeIn intake) := by
  cases intake with
  | lost e => exact owns_error hstart
  | stuck origin e => exact owns_error rfl
  | reused origin sniffed bytes fault => exact owns_absorb (c := { c with origin, framer := _ }) hstart bytes fault
  | read origin bytes fault => exact owns_absorb (c := { c with origin }) hstart bytes fault

theorem phase_takeIn {c c' : Controller} {intake : Intake} {short : Bool} (h : c.takeIn intake = (.ok short, c')) :
    c'.phase = .buffering := by
  cases intake with
  | lost e => cases h
  | stuck origin e => cases h
  | reused origin sniffed bytes fault => exact phase_absorb h
  | read origin bytes fault => exact phase_absorb h

theorem owns_firstPage (c : Controller) (short : Bool) : Owns (c.firstPage short) := by
  rw [firstPage]
  split
  · exact owns_ok _ _
  · split
    · exact owns_ok _ _
    · split
      · exact owns_fail _ _
      · exact owns_ok _ _

/-- Without a first page, a controller stays where it is. -/
theorem phase_firstPage {c c' : Controller} {short : Bool} (h : c.firstPage short = (.ok none, c')) :
    c'.phase = c.phase := by
  rw [firstPage] at h
  split at h
  · cases h
  · split at h
    · cases h
      rfl
    · split at h
      · cases h
      · cases h
        rfl

theorem owns_firstPacket (c : Controller) : Owns c.firstPacket := by
  fun_induction firstPacket c with
  | case1 => exact owns_ok _ _
  | case2 c tracker hfirst page framer hnext ih => exact ih
  | case3 => exact owns_fail _ _

theorem phase_verdict (c : Controller) (serial : UInt32) (packet : Packet) :
    (c.verdict serial packet).2.phase = Phase.ofOutcome (c.verdict serial packet).1 := by
  rw [verdict]
  split
  · rfl
  · split
    · rfl
    · rfl

/-- **A decision ends in the phase that goes with it**, if it begins where one decides. -/
theorem phase_conclude {c : Controller} (hstart : c.phase = .buffering) (short : Bool) :
    (c.conclude short).2.phase = Phase.ofOutcome (c.conclude short).1 := by
  have hfirst := c.owns_firstPage short
  -- the steps that fail end the decision, and have left their phase
  rw [conclude]
  split
  · next e c₁ hpage =>
    rw [hpage] at hfirst
    exact hfirst e rfl
  · next c₁ hpage => exact (phase_firstPage hpage).trans hstart
  · next page c₁ hpage =>
    split
    · exact owns_fail (α := Option Probed) c₁ .firstPageNotBeginning _ rfl
    · have hpacket := owns_firstPacket { c₁ with tracker := ((Tracker.bind page.serial).ingest page).2 }
      split
      · next e c₂ hsecond =>
        rw [hsecond] at hpacket
        exact hpacket e rfl
      · exact phase_verdict _ _ _

/-- **A probe ends in the phase that goes with its outcome.** -/
theorem phase_probeFrom {σ : Type} (a : Supply σ) (c : Controller) (s : σ) :
    (c.probeFrom a s).2.1.phase = Phase.ofOutcome (c.probeFrom a s).1 := by
  have htaken : Owns (c.reset.takeIn (gather a c.config 0 s).1) := owns_takeIn rfl _
  rw [probeFrom]
  split
  · next e c₁ htake =>
    rw [htake] at htaken
    exact htaken e rfl
  · next short c₁ htake => exact phase_conclude (phase_takeIn htake) short

/-! ### How a dispatch ends -/

/-- The phase says how a dispatch ended, of a stream from a source to openers, and which of them were
called. -/
structure TellsDispatch {σ ω α : Type} (a : Supply σ) (c : Controller) (s : σ) (p : Probed) (h : Handler σ ω α) (w : ω)
    (outcome : Except Failure α) (c' : Controller) (calls : List (Invocation σ)) : Prop where
  /-- One opener was called. -/
  dispatched : c'.phase = .dispatched ↔ calls.length = 1
  /-- The source could not go back, to be read afresh. -/
  notSeekable : c'.phase = .notSeekable ↔ p.codec.route = .reprobe ∧ ∃ e t, a.seek s c.origin = (.error e, t)
  /-- The codec is refused. -/
  unsupported : c'.phase = .unsupported ↔ ∃ reason, p.codec.route = .refused reason
  /-- It is one of the three. -/
  settled : c'.phase = .dispatched ∨ c'.phase = .notSeekable ∨ c'.phase = .unsupported
  /-- No opener is called in the other two cases. -/
  uncalled : c'.phase = .notSeekable ∨ c'.phase = .unsupported → calls = []
  /-- The opener that is called belongs to the codec. -/
  belongs : ∀ call ∈ calls, call.BelongsTo p.codec
  /-- What it answers is the outcome, whether it failed or not. -/
  answered : ∀ call ∈ calls, outcome = (h w call).1.mapError (Failure.opener p.codec)
  /-- Every failure is the one that the phase says. -/
  failed : ∀ e, outcome = .error e → c'.phase = Phase.ofFailure e
  /-- A stream that is refused changes nothing but the phase. -/
  untouched : (∃ reason, p.codec.route = .refused reason) →
    c'.framer = c.framer ∧ c'.tracker = c.tracker ∧ c'.origin = c.origin ∧ c'.config = c.config

/-- **A dispatch ends in the phase that says what it did.** -/
theorem tellsDispatch_dispatchFrom {σ ω α : Type} (a : Supply σ) (c : Controller) (s : σ) (p : Probed)
    (h : Handler σ ω α) (w : ω) :
    TellsDispatch a c s p h w (c.dispatchFrom a s p h w).1 (c.dispatchFrom a s p h w).2.1
      (callsOf (c.arrange a s p).1) := by
  obtain ⟨reason, hroute, harrange⟩ | ⟨hroute, e, t, hseek, harrange⟩ |
    ⟨call, c', harrange, hbelongs, hphase, hnot, hback⟩ := c.arrange_cases a s p
  · rw [dispatchFrom, harrange]
    constructor <;> simp [callsOf, enter, hroute, Phase.ofFailure]
  · rw [dispatchFrom, harrange]
    constructor <;> simp [callsOf, enter, hroute, hseek, Phase.ofFailure]
  · have hstays : ¬ (p.codec.route = .reprobe ∧ ∃ e t, a.seek s c.origin = (.error e, t)) := by
      rintro ⟨hroute, e, t, herror⟩
      obtain ⟨u, hseek⟩ := hback hroute
      rw [hseek] at herror
      cases herror
    have hopener : ∀ e, (h w call).1.mapError (Failure.opener p.codec) = .error e → Phase.ofFailure e = .dispatched := by
      intro e he
      rcases hanswer : (h w call).1 with reason | x
      · rw [hanswer] at he
        cases he
        rfl
      · rw [hanswer] at he
        cases he
    rw [dispatchFrom, harrange]
    constructor
    case failed => exact fun e he => hphase.trans (hopener e he).symm
    all_goals simp [callsOf, hphase, hbelongs, hstays, hnot]

end Controller

/-! ### Histories -/

/-- What a controller can be put through: of any supply, with any openers, and with any stream, be it
found by the controller or not. -/
inductive Operation : Type 1 where
  /-- It probes. -/
  | probe {σ : Type} (a : Supply σ) (s : σ)
  /-- It gives a stream to openers. -/
  | dispatch {σ ω α : Type} (a : Supply σ) (s : σ) (p : Probed) (h : Handler σ ω α) (w : ω)
  /-- It is reset. -/
  | reset

namespace Controller

/-- The controller after an operation. -/
def perform (c : Controller) : Operation → Controller
  | .probe a s => (c.probeFrom a s).2.1
  | .dispatch a s p h w => (c.dispatchFrom a s p h w).2.1
  | .reset => c.reset

/-- The controller after operations, one after another. -/
def after (c : Controller) (history : List Operation) : Controller := history.foldl perform c

/-- After one more operation a controller is as that leaves it. -/
theorem after_concat (c : Controller) (history : List Operation) (o : Operation) :
    c.after (history ++ [o]) = (c.after history).perform o := by
  rw [after, after, List.foldl_append, List.foldl_cons, List.foldl_nil]

/-- **The phase says how the last operation ended**, whatever a controller was put through before: how
a probe ended; whether a dispatch called an opener, which is then the one of the codec, and the only
one; and if it called none, why. This holds of sources and their openers, and of whatever else can be
read from and can open. -/
theorem phase_tells (c : Controller) (history : List Operation) :
    (∀ (σ : Type) (a : Supply σ) (s : σ), ∃ outcome t,
        (c.after history).probeFrom a s = (outcome, c.after (history ++ [.probe a s]), t) ∧
        TellsProbe outcome (c.after (history ++ [.probe a s])).phase) ∧
      (∀ (σ ω α : Type) (a : Supply σ) (s : σ) (p : Probed) (h : Handler σ ω α) (w : ω), ∃ outcome w' calls,
        (c.after history).dispatchFrom a s p h w = (outcome, c.after (history ++ [.dispatch a s p h w]), w') ∧
        (c.after history).dispatchFrom a s p h.logged (w, []) =
          (outcome, c.after (history ++ [.dispatch a s p h w]), w', calls) ∧
        TellsDispatch a (c.after history) s p h w outcome (c.after (history ++ [.dispatch a s p h w])) calls) ∧
      (c.after (history ++ [.reset])).phase = .start ∧
      (∀ s : Source, (c.after history).probe s = (c.after history).probeFrom Source.supply s) ∧
      ∀ (α : Type) (s : Source) (p : Probed) (openers : Openers α),
        (c.after history).dispatch s p openers = (c.after history).dispatchFrom Source.supply s p openers.handler s := by
  refine ⟨fun σ a s => ?_, fun σ ω α a s p h w => ?_, ?_, probe_eq_probeFrom _, fun α s p openers => ?_⟩
  · rw [after_concat]
    refine ⟨_, _, rfl, ?_⟩
    rw [perform, phase_probeFrom]
    exact tellsProbe_ofOutcome _
  · rw [after_concat]
    exact ⟨_, _, _, rfl, dispatchFrom_logged a _ s p h w, tellsDispatch_dispatchFrom a _ s p h w⟩
  · rw [after_concat]
    rfl
  · exact dispatch_eq_dispatchFrom _ s p openers

/-- A pipe that has moved on. -/
def movedPipe : Source := .pipe { data := [] } 3 []

/-- The openers that all fail. -/
def refusing : Handler Source Unit Unit := fun w _ => (.error "no header", w)

/-- A file of one page, which begins a stream of Speex. -/
def speexFile : Source := .seekable { data := (Page.sealed ⟨2⟩ 5 0 0 [5] [0x53, 0x70, 0x65, 0x65, 0x78]).encode } []

/-- The stream of Speex in it. -/
def speexFound : Probed := ⟨.speex, 5, ⟨[0x53, 0x70, 0x65, 0x65, 0x78], 5, 0, 0, true, false⟩⟩

/-- After a stream of FLAC could not be read afresh from the pipe, a file is probed, and the stream of
Speex found there is given to openers that fail, with the pipe in the place of the file: the one of
Speex was called, and no other. -/
theorem phase_tells_movedPipe :
    let flac : Operation := .dispatch Source.supply movedPipe ⟨.flac, 1, ⟨[], 1, 0, 0, true, true⟩⟩ refusing ()
    let probe : Operation := .probe Source.supply speexFile
    let speex : Operation := .dispatch Source.supply movedPipe speexFound refusing ()
    (after {} [flac]).phase = .notSeekable ∧
      (∃ t, (after {} [flac]).probeFrom Source.supply speexFile =
        (.ok (some speexFound), after {} [flac, probe], t)) ∧
      (after {} [flac, probe]).phase = .classified ∧ (after {} [flac, probe, speex]).phase = .dispatched ∧
      ∃ w calls, (after {} [flac, probe]).dispatchFrom Source.supply movedPipe speexFound refusing.logged ((), []) =
          (.error (.opener .speex "no header"), after {} [flac, probe, speex], w, calls) ∧
        calls.length = 1 ∧ ∀ call ∈ calls, call.BelongsTo .speex := by
  intro flac probe speex
  obtain ⟨hprobes, -⟩ := phase_tells {} [flac]
  obtain ⟨found, t, hfound, htold⟩ := hprobes _ Source.supply speexFile
  have hspeex : ((after {} [flac]).probeFrom Source.supply speexFile).1.toOption = some (some speexFound) := by
    rw [← probe_eq_probeFrom]
    decide +kernel
  rw [hfound] at hspeex
  cases found with
  | error e => cases hspeex
  | ok found =>
    obtain rfl : found = some speexFound := Option.some.inj hspeex
    have hclassified : (after {} [flac, probe]).phase = .classified := htold.classified.mpr ⟨speexFound, rfl⟩
    obtain ⟨-, hdispatches, -⟩ := phase_tells {} [flac, probe]
    obtain ⟨outcome, w, calls, hrun, hlogged, htold⟩ := hdispatches _ _ _ Source.supply movedPipe speexFound refusing ()
    have hphase : (after {} [flac, probe, speex]).phase = .dispatched := rfl
    have houtcome : outcome = .error (.opener .speex "no header") := (congrArg Prod.fst hrun).symm
    rw [houtcome] at hlogged
    exact ⟨rfl, ⟨t, hfound⟩, hclassified, hphase, w, calls, hlogged, htold.dispatched.mp hphase, htold.belongs⟩

end Controller

end Ogg.Probe
