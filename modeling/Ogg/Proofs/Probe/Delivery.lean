import Ogg.Proofs.Probe.Frame

/-!
# What a probe comes to, however the bytes come

A byte string can come to a probe in several ways (`Delivery`): behind a device that can move,
standing anywhere, or through a pipe; and of either some of the first bytes may have been read to
look at. The probe uses such bytes if it may and the source stands right behind them, and
otherwise goes back to the beginning. The reads may be cut and interrupted at will. A source may
also be given as it is: whatever was done with it before, it presents the bytes, and interruptions
may still wait anywhere, also where it goes back to.

None of this can be told from what the probe comes to. When its buffer is filled, the storage is
the same byte for byte (`Framer.holding`), the slack included, and the source stands behind what
was read. From there on a probe looks at nothing else.

## Main statements

* `Controller.topUp_of_prefix`: some bytes were there, and the others are read.
* `Controller.fill_of_fresh`: what a fresh controller has read.
* `Controller.conclude_elsewhere`: settings and origin do not matter once the buffer is filled.
* `Controller.probe_of_deliveries`: two deliveries of the same bytes come to the same.
-/

namespace Ogg

/-- A framer that has read the beginning of a byte string, as far as a budget goes, into storage
of that size. -/
def Framer.holding (d : Bytes) (budget : Nat) : Framer where
  buffer := { live := d.take budget, slack := List.replicate (budget - d.length) 0 }
  mode := { ended := decide (d.length < budget) }

/-! ### The storage -/

namespace Buffer

/-- Bytes that come into no storage at all take as much of it as they need. -/
theorem append_empty (d : Bytes) : append {} d = { live := d } := by
  have hreserve : reserve {} d.length = { slack := List.replicate d.length 0 } := by
    cases d with
    | nil => rfl
    | cons b r => simp [reserve, compact, Bytes.lengthBelow]
  rw [append, hreserve]
  simp [fill, commit, Bytes.overlay]

/-- Bytes read into the room made for more of them leave zeros behind. -/
theorem commit_fill_reserve (d more : Bytes) {n : Nat} (h : more.length ≤ n) :
    ((reserve { live := d } n).fill more).commit more.length =
      { live := d ++ more, slack := List.replicate (n - more.length) 0 } := by
  have hreserve : reserve { live := d } n = { live := d, slack := List.replicate n 0 } := by
    cases n with
    | zero => rfl
    | succ n => simp [reserve, compact, Bytes.lengthBelow]
  rw [hreserve]
  simp [fill, commit, Bytes.overlay]

end Buffer

namespace Probe

/-! ### Ways to come -/

/-- A way for bytes to come to a probe. -/
inductive Delivery where
  /-- Behind a device that can move, wherever it stands. -/
  | seekable (device : Device)
  /-- Behind a device that can move, whose first bytes are read to look at. -/
  | sniffedSeekable (device : Device) (n : Nat)
  /-- Through a pipe. -/
  | pipe (device : Device)
  /-- Through a pipe, whose first bytes are read to look at. -/
  | sniffedPipe (device : Device) (n : Nat)
  /-- By a source as it is. -/
  | given (source : Source)

namespace Delivery

/-- The source that is made. -/
def source : Delivery → Except IoError Source
  | seekable device => .ok (.seekable device [])
  | sniffedSeekable device n => Source.sniffSeekable device n
  | pipe device => .ok (.pipe device 0 [])
  | sniffedPipe device n => Source.sniffPipe device n
  | given source => .ok source

/-- A source that presents a byte string can serve a probe with some settings: it says where it
stands, no more of it was read than the budget, and it goes back to the beginning if what was read
cannot be used. -/
structure Serves (s : Source) (d : Bytes) (config : Config) (origin : Nat) : Prop where
  /-- It presents the bytes. -/
  presents : s.Presents d
  /-- It stands where it says. -/
  position : s.position = .ok origin
  /-- What was read fits the budget. -/
  fits : s.sniffed.length ≤ config.effectiveBudget
  /-- It goes back if it must. -/
  returns : Controller.reuses { config, origin } s origin = false → ∃ t, s.seek 0 = .ok t

/-- Nothing worse than interruptions can happen when a byte string comes to a probe with some
settings, and no more is looked at than the probe would read. What was taken from a pipe may be
used. -/
def Brings (d : Bytes) (config : Config) : Delivery → Prop
  | seekable device => device.Faultless ∧ device.data = d
  | sniffedSeekable device n => device.Faultless ∧ device.data = d ∧ n ≤ config.effectiveBudget
  | pipe device => device.Sound ∧ device.ahead = d
  | sniffedPipe device n =>
    device.Sound ∧ device.ahead = d ∧ n ≤ config.effectiveBudget ∧ (d.take n ≠ [] → config.reuseSniffed = true)
  | given source => ∃ origin, Serves source d config origin

/-- **Every way to come makes a source that serves the probe.** -/
theorem exists_source {d : Bytes} {config : Config} {delivery : Delivery} (h : delivery.Brings d config) :
    ∃ s p, delivery.source = .ok s ∧ Serves s d config p := by
  cases delivery with
  | seekable device =>
    obtain ⟨hd, rfl⟩ := h
    refine ⟨_, device.offset, rfl, ⟨hd.sound, rfl, List.nil_prefix⟩, if_pos hd.tellable, Nat.zero_le _, ?_⟩
    intro _
    exact ⟨_, Source.seek_of_seekable hd.seekable [] 0⟩
  | sniffedSeekable device n =>
    obtain ⟨hd, rfl, hn⟩ := h
    obtain ⟨e, hread, hafter⟩ := Device.readFull_of_sound (d := { device with offset := 0 }) hd.sound n
    have hsource : Source.sniffSeekable device n = .ok (.seekable e (device.data.take n)) := by
      simp only [Source.sniffSeekable, Device.seek, if_pos hd.seekable, hread]
      rfl
    have hseekable : e.seekable = true := hafter.seekable.trans hd.seekable
    have htellable : e.tellable = true := hafter.tellable.trans hd.tellable
    refine ⟨_, e.offset, hsource, Source.presents_of_sniffSeekable hd.sound hsource, if_pos htellable, ?_, ?_⟩
    · exact Nat.le_trans (List.length_take_le n device.data) hn
    · intro _
      exact ⟨_, Source.seek_of_seekable hseekable _ 0⟩
  | pipe device =>
    obtain ⟨hd, rfl⟩ := h
    exact ⟨_, 0, rfl, ⟨hd, rfl, List.nil_prefix⟩, rfl, Nat.zero_le _, fun _ => ⟨_, rfl⟩⟩
  | sniffedPipe device n =>
    obtain ⟨hd, rfl, hn, hreuse⟩ := h
    obtain ⟨e, hread, hafter⟩ := Device.readFull_of_sound hd n
    have hsource : Source.sniffPipe device n =
        .ok (.pipe e (device.ahead.take n).length (device.ahead.take n)) := by
      rw [Source.sniffPipe, hread]
    refine ⟨_, _, hsource, Source.presents_of_sniffPipe hd hsource, rfl, ?_, ?_⟩
    · exact Nat.le_trans (List.length_take_le n device.ahead) hn
    · -- a pipe whose bytes cannot be used has given none, so it is at its beginning
      intro hno
      cases hsniffed : device.ahead.take n with
      | nil => exact ⟨_, rfl⟩
      | cons b r =>
        rw [hsniffed] at hreuse hno
        simp [Controller.reuses, Source.sniffed, hreuse (List.cons_ne_nil b r)] at hno
  | given source =>
    obtain ⟨origin, hserves⟩ := h
    exact ⟨source, origin, rfl, hserves⟩

end Delivery

namespace Controller

/-- The controller with other settings and another origin. -/
def elsewhere (c : Controller) (config : Config) (origin : Nat) : Controller := { c with config, origin }

/-- A controller that has read the beginning of a byte string and decided nothing. -/
def holding (d : Bytes) (budget : Nat) : Controller where
  framer := .holding d budget
  phase := .buffering

/-! ### Reading -/

/-- **Some bytes of a byte string were there, and the others are read**: what is held then does
not depend on how many there were. -/
theorem topUp_of_prefix {c : Controller} {s : Source} {d before : Bytes} (hs : s.device.Sound)
    (hframer : c.framer = { buffer := { live := before } }) (hbytes : before ++ s.device.ahead = d)
    (hle : before.length ≤ c.config.effectiveBudget) (hposition : s.position = .ok before.length) :
    ∃ t, c.topUp s = (.ok (decide (d.length < c.config.effectiveBudget)),
        { c with framer := .holding d c.config.effectiveBudget, phase := .buffering }, t) ∧
      t.position = .ok (min d.length c.config.effectiveBudget) := by
  generalize hbudget : c.config.effectiveBudget = budget at hle ⊢
  have hlive : c.framer.live = before := by
    rw [hframer]
    rfl
  obtain ⟨t, hread, -, -, hmoves⟩ := Source.readFull_of_sound hs (budget - before.length)
  have hmore : (s.device.ahead.take (budget - before.length)).length ≤ budget - before.length :=
    List.length_take_le _ _
  have hlength : d.length = before.length + s.device.ahead.length := by rw [← hbytes, List.length_append]
  have hslack : budget - before.length - (s.device.ahead.take (budget - before.length)).length = budget - d.length := by
    rw [List.length_take]
    omega
  have hbuffer := Buffer.commit_fill_reserve before _ hmore
  rw [append_take_sub hbytes hle, hslack] at hbuffer
  have hframer' : (c.framer.reserve (budget - before.length)).receive (s.device.ahead.take (budget - before.length)) =
      { buffer := { live := d.take budget, slack := List.replicate (budget - d.length) 0 } } := by
    rw [hframer, ← hbuffer]
    rfl
  refine ⟨t, ?_, ?_⟩
  · have hlive' : Framer.live { buffer := { live := d.take budget, slack := List.replicate (budget - d.length) 0 } } =
        d.take budget := rfl
    simp only [topUp, hbudget, hlive, hread, hframer', hlive', short_take, Framer.holding]
    cases decide (d.length < budget) <;> rfl
  · rw [hmoves _ hposition, List.length_take, hlength]
    congr 1
    omega

/-- **What a fresh controller has read** of a byte string that a source presents. -/
theorem fill_of_fresh {config : Config} {s : Source} {d : Bytes} {p : Nat} (h : Delivery.Serves s d config p) :
    ∃ t, fill { config } s = (.ok (decide (d.length < config.effectiveBudget)),
        (holding d config.effectiveBudget).elsewhere config p, t) ∧
      t.position = .ok (min d.length config.effectiveBudget) := by
  obtain ⟨hs, hp, hle, hseek⟩ := h
  simp only [fill, hp]
  cases hreuses : reuses { config, origin := p } s p with
  | true =>
    obtain rfl : p = s.sniffed.length := stands_of_reuses hreuses
    have hframer : Framer.append {} s.sniffed = { buffer := { live := s.sniffed } } := by
      rw [Framer.append, Buffer.append_empty]
    exact topUp_of_prefix (c := { config, origin := _, framer := Framer.append {} s.sniffed }) hs.sound hframer
      (hs.sniffed_append_ahead hp) hle hp
  | false =>
    obtain ⟨t, ht⟩ := hseek hreuses
    obtain ⟨hpresents, hposition⟩ := hs.seek hp ht
    have hnone : Controller.framer { config, origin := p } = { buffer := { live := [] } } := rfl
    rw [ht]
    exact topUp_of_prefix hpresents.sound hnone (hs.ahead_of_seek hp ht) (Nat.zero_le _) hposition

/-! ### Deciding -/

/-- **Settings and origin do not matter once the buffer is filled.** -/
theorem conclude_elsewhere (config : Config) (origin : Nat) (c : Controller) (short : Bool) :
    (c.elsewhere config origin).conclude short =
      ((c.conclude short).1, (c.conclude short).2.elsewhere config origin) := by
  have hmoved := conclude_moved config origin c.framer.buffer.slack c short
  refine hmoved.trans ?_
  rw [← slack_conclude c short]
  rfl

/-- A fresh controller comes to what is concluded from the beginning of the bytes, in the settings
it has and with the position the source had. -/
theorem probe_of_delivery {d : Bytes} {config : Config} {delivery : Delivery} (h : delivery.Brings d config) :
    ∃ s t origin, delivery.source = .ok s ∧
      probe { config } s =
        (((holding d config.effectiveBudget).conclude (decide (d.length < config.effectiveBudget))).1,
          ((holding d config.effectiveBudget).conclude (decide (d.length < config.effectiveBudget))).2.elsewhere
            config origin, t) ∧
      t.position = .ok (min d.length config.effectiveBudget) := by
  obtain ⟨s, p, hsource, hserves⟩ := Delivery.exists_source h
  obtain ⟨t, hfill, hstands⟩ := fill_of_fresh hserves
  have hreset : reset { config } = { config } := rfl
  refine ⟨s, t, p, hsource, ?_, hstands⟩
  rw [probe, hreset, hfill]
  simp only [conclude_elsewhere]

/-- **What a probe comes to depends on the bytes alone**, and not on how they are delivered: the
outcome is the same, and so are the bytes that wait, the storage, the counts, the stream and the
phase. Both sources stand behind the bytes that were read. Any source will do that has the bytes to
give, wherever it stands and whatever interruptions are still to come. -/
theorem probe_of_deliveries {d : Bytes} {config config' : Config}
    (hbudget : config'.effectiveBudget = config.effectiveBudget) {delivery delivery' : Delivery}
    (h : delivery.Brings d config) (h' : delivery'.Brings d config') :
    ∃ s s' outcome c c' t t', delivery.source = .ok s ∧ delivery'.source = .ok s' ∧
      probe { config } s = (outcome, c, t) ∧ probe { config := config' } s' = (outcome, c', t') ∧
      c'.framer = c.framer ∧ c'.tracker = c.tracker ∧ c'.phase = c.phase ∧
      c.config = config ∧ c'.config = config' ∧
      t.position = .ok (min d.length config.effectiveBudget) ∧
      t'.position = .ok (min d.length config.effectiveBudget) := by
  obtain ⟨s, t, origin, hsource, hprobe, hposition⟩ := probe_of_delivery h
  obtain ⟨s', t', origin', hsource', hprobe', hposition'⟩ := probe_of_delivery h'
  rw [hbudget] at hprobe' hposition'
  exact ⟨s, s', _, _, _, t, t', hsource, hsource', hprobe, hprobe', rfl, rfl, rfl, rfl, rfl, hposition, hposition'⟩

end Controller

/-- A page that begins a stream with its only packet, and other bytes behind it. -/
def speexBytes : Bytes := (Page.sealed ⟨6⟩ 5 0 0 [5] [0x53, 0x70, 0x65, 0x65, 0x78]).encode ++ List.replicate 20 0x4f

/-- A device that holds the bytes and stands at the fourth of them. It gives out three bytes at a
time, and is yet to be interrupted, once before that place and once behind it. -/
def standingDevice : Device where
  data := speexBytes
  offset := 3
  faults := [⟨2, .interrupted⟩, ⟨10, .interrupted⟩]
  pace := fun _ => 3

/-- The device as a source of which six bytes were looked at. -/
def standingSource : Source := .seekable standingDevice (speexBytes.take 6)

/-- A device that the bytes are still ahead of, behind two others. -/
def joinedDevice : Device where
  data := 7 :: 7 :: speexBytes
  offset := 2

/-- The stream of the page. -/
def speexProbed : Probed := ⟨.speex, 5, ⟨[0x53, 0x70, 0x65, 0x65, 0x78], 5, 0, 0, true, true⟩⟩

theorem probe_speexBytes :
    Delivery.Brings speexBytes { budget := 40, reuseSniffed := false } (.given standingSource) ∧
      Delivery.Brings speexBytes { budget := 40 } (.sniffedPipe joinedDevice 6) ∧
      ∃ s c c' t t', Source.sniffPipe joinedDevice 6 = .ok s ∧
        Controller.probe { config := { budget := 40, reuseSniffed := false } } standingSource =
          (.ok (some speexProbed), c, t) ∧
        Controller.probe { config := { budget := 40 } } s = (.ok (some speexProbed), c', t') ∧
        c'.framer = c.framer ∧ t.position = .ok 40 ∧ t'.position = .ok 40 := by
  have hstanding : Delivery.Brings speexBytes { budget := 40, reuseSniffed := false } (.given standingSource) :=
    ⟨3, ⟨by decide, rfl, List.take_prefix 6 speexBytes⟩, rfl, by decide, fun _ => ⟨_, rfl⟩⟩
  have hjoined : Delivery.Brings speexBytes { budget := 40 } (.sniffedPipe joinedDevice 6) :=
    ⟨by decide, rfl, by decide, fun _ => rfl⟩
  have hbudget : Config.effectiveBudget { budget := 40 } =
      Config.effectiveBudget { budget := 40, reuseSniffed := false } := rfl
  obtain ⟨s, s', outcome, c, c', t, t', hs, hs', hprobe, hprobe', hframer, -, -, -, -, hposition, hposition'⟩ :=
    Controller.probe_of_deliveries hbudget hstanding hjoined
  cases hs
  have hprobed : (Controller.probe { config := { budget := 40, reuseSniffed := false } }
      standingSource).1.toOption = some (some speexProbed) := by decide +kernel
  rw [hprobe] at hprobed
  cases outcome with
  | error e => cases hprobed
  | ok found =>
    obtain rfl : found = some speexProbed := Option.some.inj hprobed
    exact ⟨hstanding, hjoined, s', c, c', t, t', hs', hprobe, hprobe', hframer, hposition, hposition'⟩

end Probe

end Ogg
