import Ogg.Proofs.Probe.Frame

/-!
# A controller carries nothing over

A controller probes one source after another. Whatever it went through before, be it probes that
succeeded or failed at any point, dispatches or resets, the next probe begins with a reset, and
that leaves nothing but free storage and the origin of the probe before (`Reached.reset_eq`). The
source is not asked anything that depends on them, and neither is what becomes of its answers. So
the next probe is that of a new controller of the same settings.

## Main statements

* `Reached.steady`: settings stay, and a controller never comes to resynchronise.
* `Steady.reset_eq`: a reset leaves a new controller, free storage and origin apart.
* `Steady.probeFrom_eq`: so does a probe, of any supply.
* `Reached.probe_afresh`: a further probe is that of a new controller.
-/

namespace Ogg.Probe.Controller

/-- What a controller of some settings can come to. -/
inductive Reached (config : Config) : Controller → Prop where
  /-- It was made. -/
  | new : Reached config { config }
  /-- It probed something, whatever came of it. -/
  | probe {c : Controller} {σ : Type} (a : Supply σ) (s : σ) : Reached config c → Reached config (c.probeFrom a s).2.1
  /-- It gave a stream to an opener, or failed to. -/
  | dispatch {c : Controller} {α : Type} (s : Source) (probed : Probed) (openers : Openers α) :
      Reached config c → Reached config (c.dispatch s probed openers).2.1
  /-- It was reset. -/
  | reset {c : Controller} : Reached config c → Reached config c.reset

/-- Probes of sources are among the probes. -/
theorem Reached.probe_source {config : Config} {c : Controller} (h : Reached config c) (s : Source) :
    Reached config (c.probe s).2.1 := by
  rw [probe_eq_probeFrom]
  exact h.probe Source.supply s

/-! ### What stays -/

/-- What a decision leaves as it was. -/
theorem config_conclude (c : Controller) (short : Bool) : (c.conclude short).2.config = c.config := by
  have h := conclude_moved c.config c.origin c.framer.buffer.slack c short
  exact congrArg (fun result => result.2.config) h

theorem origin_conclude (c : Controller) (short : Bool) : (c.conclude short).2.origin = c.origin := by
  have h := conclude_moved c.config c.origin c.framer.buffer.slack c short
  exact congrArg (fun result => result.2.origin) h

theorem mode_firstPage (c : Controller) (short : Bool) : (c.firstPage short).2.framer.mode = c.framer.mode := by
  rw [← c.framer.mode_next]
  simp only [firstPage]
  split
  · next page framer hnext => rw [hnext]
  · next framer hno hnext =>
    rw [hnext]
    split
    · rfl
    · split <;> rfl

theorem mode_firstPacket (c : Controller) : c.firstPacket.2.framer.mode = c.framer.mode := by
  fun_induction firstPacket c with
  | case1 => rfl
  | case2 c tracker hfirst page framer hnext ih =>
    rw [ih, ← c.framer.mode_next, hnext]
  | case3 c tracker hfirst last framer hno hnext =>
    rw [← c.framer.mode_next, hnext]
    rfl

theorem mode_verdict (c : Controller) (serial : UInt32) (packet : Packet) :
    (c.verdict serial packet).2.framer.mode = c.framer.mode := by
  rw [verdict]
  split
  · rfl
  · split <;> rfl

theorem mode_conclude (c : Controller) (short : Bool) : (c.conclude short).2.framer.mode = c.framer.mode := by
  have hfirst := c.mode_firstPage short
  rw [conclude]
  split
  · next e c₁ hpage => rwa [hpage] at hfirst
  · next c₁ hpage => rwa [hpage] at hfirst
  · next page c₁ hpage =>
    rw [hpage] at hfirst
    split
    · exact hfirst
    · have hpacket := mode_firstPacket { c₁ with tracker := ((Tracker.bind page.serial).ingest page).2 }
      split
      · next e c₂ hsecond =>
        rw [hsecond] at hpacket
        exact hpacket.trans hfirst
      · next packet c₂ hsecond =>
        rw [hsecond] at hpacket
        rw [mode_verdict]
        exact hpacket.trans hfirst

/-- What every operation of a controller leaves as it was: its settings, and that it does not
resynchronise. -/
structure Steady (config : Config) (c : Controller) : Prop where
  /-- It has the settings. -/
  config_eq : c.config = config
  /-- It does not resynchronise. -/
  resync : c.framer.mode.resync = false

namespace Steady

variable {config : Config} {c : Controller}

theorem reset (h : Steady config c) : Steady config c.reset := ⟨h.config_eq, h.resync⟩

theorem absorb (h : Steady config c) (bytes : Bytes) (fault : Option IoError) : Steady config (c.absorb bytes fault).2 := by
  cases fault with
  | some fault => exact ⟨h.config_eq, h.resync⟩
  | none =>
    refine ⟨h.config_eq, ?_⟩
    simp only [Controller.absorb]
    split
    · exact h.resync
    · exact h.resync

theorem takeIn (h : Steady config c) (intake : Intake) : Steady config (c.takeIn intake).2 := by
  cases intake with
  | lost e => exact h
  | stuck origin e => exact ⟨h.config_eq, h.resync⟩
  | reused origin sniffed bytes fault =>
    exact absorb (c := { c with origin, framer := c.framer.append sniffed }) ⟨h.config_eq, h.resync⟩ bytes fault
  | read origin bytes fault => exact absorb (c := { c with origin }) ⟨h.config_eq, h.resync⟩ bytes fault

theorem conclude (h : Steady config c) (short : Bool) : Steady config (c.conclude short).2 :=
  ⟨(c.config_conclude short).trans h.config_eq, by rw [mode_conclude, h.resync]⟩

theorem probeFrom (h : Steady config c) {σ : Type} (a : Supply σ) (s : σ) : Steady config (c.probeFrom a s).2.1 := by
  have htaken := h.reset.takeIn (gather a c.config 0 s).1
  rw [Controller.probeFrom]
  split
  · next e c₁ htake => rwa [htake] at htaken
  · next short c₁ htake =>
    rw [htake] at htaken
    exact htaken.conclude short

theorem dispatch (h : Steady config c) {α : Type} (s : Source) (probed : Probed) (openers : Openers α) :
    Steady config (c.dispatch s probed openers).2.1 := by
  rw [Controller.dispatch_eq]
  split
  · exact ⟨h.config_eq, h.resync⟩
  · rw [rewind]
    split
    · exact ⟨h.config_eq, h.resync⟩
    · exact ⟨h.config_eq, h.resync⟩
  · exact ⟨h.config_eq, rfl⟩

end Steady

/-- **Settings stay, and a controller never comes to resynchronise**, whatever it is put through. -/
theorem Reached.steady {config : Config} {c : Controller} (h : Reached config c) : Steady config c := by
  induction h with
  | new => exact ⟨rfl, rfl⟩
  | probe a s _ ih => exact ih.probeFrom a s
  | dispatch s probed openers _ ih => exact ih.dispatch s probed openers
  | reset _ ih => exact ih.reset

/-! ### Two runs -/

/-- **A reset leaves a new controller**, but for free storage and origin. -/
theorem Steady.reset_eq {config : Config} {c : Controller} (h : Steady config c) :
    c.reset = moved { config } config c.origin c.framer.buffer.reset.slack := by
  obtain ⟨config', framer, tracker, phase, origin⟩ := c
  obtain rfl : config' = config := h.config_eq
  have hresync : framer.mode.resync = false := h.resync
  simp only [Controller.reset, hresync]
  rfl

/-- A source that says where it stands is not lost. -/
theorem gather_ne_lost {σ : Type} {a : Supply σ} {s t : σ} {p : Nat} (h : a.position s = (.ok p, t)) (config : Config)
    (held : Nat) (e : IoError) : (gather a config held s).1 ≠ .lost e := by
  simp only [gather, h]
  split
  · simp
  · split
    · simp
    · simp

/-- **A probe leaves what a probe of a new controller leaves**, but for free storage, and for the
origin if the source cannot say where it stands; and it answers the same, and leaves the same of
the source. -/
theorem Steady.probeFrom_eq {config : Config} {c : Controller} (h : Steady config c) {σ : Type} (a : Supply σ) (s : σ) :
    ∃ origin slack, c.probeFrom a s =
        ((Controller.probeFrom a { config } s).1, (Controller.probeFrom a { config } s).2.1.moved config origin slack,
          (Controller.probeFrom a { config } s).2.2) ∧
      ((∃ p t, a.position s = (.ok p, t)) → origin = (Controller.probeFrom a { config } s).2.1.origin) := by
  have hfresh : Controller.reset { config } = { config } := rfl
  obtain ⟨origin, slack, htake, horigin⟩ := takeIn_moved { config } c.origin c.framer.buffer.reset.slack
    (gather a config 0 s).1
  simp only [Controller.probeFrom, h.reset_eq, h.config_eq, hfresh, htake]
  have hsays : (∃ p t, a.position s = (.ok p, t)) → origin = (Controller.takeIn { config } (gather a config 0 s).1).2.origin := by
    rintro ⟨p, t, hposition⟩
    exact horigin (gather_ne_lost hposition config 0)
  refine ⟨origin, slack, ?_⟩
  generalize Controller.takeIn { config } (gather a config 0 s).1 = taken at hsays ⊢
  rcases taken with ⟨e | short, d⟩
  · exact ⟨rfl, hsays⟩
  · simp only [conclude_moved, origin_conclude, true_and]
    exact hsays

/-- Two controllers show the same. Their storage may be of different size, and they may have
different origins. -/
structure Alike (c d : Controller) : Prop where
  /-- They have the same settings. -/
  config : c.config = d.config
  /-- They have come as far. -/
  phase : c.phase = d.phase
  /-- They follow the same stream, and the same packets wait. -/
  tracker : c.tracker = d.tracker
  /-- Their searches read in the same way what they cannot decide. -/
  mode : c.framer.mode = d.framer.mode
  /-- They have used up as many bytes. -/
  position : c.framer.position = d.framer.position
  /-- They have counted the same. -/
  stats : c.framer.stats = d.framer.stats
  /-- The same bytes wait. -/
  live : c.framer.live = d.framer.live
  /-- The next byte to be used stands in the same place of the storage. -/
  consumedCursor : c.framer.buffer.consumedCursor = d.framer.buffer.consumedCursor
  /-- The next byte will be written in the same place of the storage. -/
  writeCursor : c.framer.buffer.writeCursor = d.framer.buffer.writeCursor

/-- Other free storage and another origin do not show. -/
theorem alike_moved {config : Config} {c : Controller} (h : c.config = config) (origin : Nat) (slack : Bytes) :
    Alike (c.moved config origin slack) c :=
  ⟨h.symm, rfl, rfl, rfl, rfl, rfl, rfl, rfl, rfl⟩

/-- **A controller carries nothing from one probe to the next.** Whatever a controller of some
settings has come to, when it probes a source it answers what a new controller of these settings
answers, makes the same calls, one after another, leaves the source in the same state, and shows
the same after it; and if the source can say where it stands, the origin is the same too. This
holds of sources and of whatever else can be read from. -/
theorem Reached.probe_afresh {config : Config} {c : Controller} (h : Reached config c) :
    (∀ s : Source, ∃ outcome c₁ c₂ t calls, c.probe s = (outcome, c₁, t) ∧
        Controller.probe { config } s = (outcome, c₂, t) ∧
        c.probeFrom Source.supply.logged (s, []) = (outcome, c₁, t, calls) ∧
        Controller.probeFrom Source.supply.logged { config } (s, []) = (outcome, c₂, t, calls) ∧
        Alike c₁ c₂ ∧ ((∃ p, s.position = .ok p) → c₁.origin = c₂.origin)) ∧
      ∀ (σ : Type) (a : Supply σ) (s : σ), ∃ outcome c₁ c₂ t calls,
        c.probeFrom a.logged (s, []) = (outcome, c₁, t, calls) ∧
          Controller.probeFrom a.logged { config } (s, []) = (outcome, c₂, t, calls) ∧ Alike c₁ c₂ ∧
          ((∃ p u, a.position s = (.ok p, u)) → c₁.origin = c₂.origin) := by
  have hsupply : ∀ (σ : Type) (a : Supply σ) (s : σ), ∃ outcome c₁ c₂ t calls,
      c.probeFrom a.logged (s, []) = (outcome, c₁, t, calls) ∧
        Controller.probeFrom a.logged { config } (s, []) = (outcome, c₂, t, calls) ∧ Alike c₁ c₂ ∧
        ((∃ p u, a.position s = (.ok p, u)) → c₁.origin = c₂.origin) := by
    intro σ a s
    have hfresh : Steady config { config } := ⟨rfl, rfl⟩
    obtain ⟨origin, slack, hprobe, horigin⟩ := h.steady.probeFrom_eq a.logged (s, [])
    have halike := alike_moved (hfresh.probeFrom a.logged (s, [])).config_eq origin slack
    rw [hprobe]
    refine ⟨_, _, _, _, _, rfl, rfl, halike, ?_⟩
    rintro ⟨p, u, hp⟩
    refine horigin ⟨p, (u, [.position]), ?_⟩
    simp only [Supply.logged, hp]
    rfl
  refine ⟨?_, hsupply⟩
  intro s
  obtain ⟨outcome, c₁, c₂, t, calls, hreached, hnew, halike, horigin⟩ := hsupply Source Source.supply s
  refine ⟨outcome, c₁, c₂, t, calls, ?_, ?_, hreached, hnew, halike, ?_⟩
  · rw [probe_eq_probeFrom, probeFrom_of_logged hreached]
  · rw [probe_eq_probeFrom, probeFrom_of_logged hnew]
  · rintro ⟨p, hp⟩
    exact horigin ⟨p, s, congrArg (·, s) hp⟩

/-- The short file, on a device that breaks within the second page. -/
def brokenFile : Source := .seekable { data := shortBytes, faults := [⟨40, .broken⟩] } []

/-- A controller after the short file was probed and handed over. -/
def openedController : Controller :=
  ((Controller.probe { config := { budget := 90 } } shortFile).2.1.dispatch shortFile shortProbed readers).2.1

/-- The controller after the broken file was probed until its device failed, and then a stream could
not be opened because its source could not go back. -/
def wornController : Controller :=
  ((openedController.probe brokenFile).2.1.dispatch (.pipe { data := [] } 9 []) { shortProbed with codec := .flac }
    readers).2.1

theorem probe_afresh_wornController : Reached { budget := 90 } wornController ∧
    wornController.phase = .notSeekable ∧ wornController.framer.buffer.capacity = 90 ∧
    ∃ c₁ c₂ t calls, wornController.probe shortFile = (.ok (some shortProbed), c₁, t) ∧
      Controller.probe { config := { budget := 90 } } shortFile = (.ok (some shortProbed), c₂, t) ∧
      wornController.probeFrom Source.supply.logged (shortFile, []) = (.ok (some shortProbed), c₁, t, calls) ∧
      Alike c₁ c₂ ∧ c₁.origin = c₂.origin := by
  have hopened : Reached { budget := 90 } openedController := by
    rw [openedController]
    exact .dispatch _ _ _ (.probe_source .new shortFile)
  have hreached : Reached { budget := 90 } wornController := by
    rw [wornController]
    exact .dispatch _ _ _ (.probe_source hopened brokenFile)
  have hworn : wornController.phase = .notSeekable ∧ wornController.framer.buffer.capacity = 90 := by decide +kernel
  obtain ⟨outcome, c₁, c₂, t, calls, hprobe, hnew, hlogged, -, halike, horigin⟩ := hreached.probe_afresh.1 shortFile
  have hprobed : (Controller.probe { config := { budget := 90 } } shortFile).1.toOption = some (some shortProbed) := by
    decide +kernel
  rw [hnew] at hprobed
  cases outcome with
  | error e => cases hprobed
  | ok found =>
  obtain rfl : found = some shortProbed := Option.some.inj hprobed
  exact ⟨hreached, hworn.1, hworn.2, c₁, c₂, t, calls, hprobe, hnew, hlogged, halike, horigin ⟨0, rfl⟩⟩

end Ogg.Probe.Controller
