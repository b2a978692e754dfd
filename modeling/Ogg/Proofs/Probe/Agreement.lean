import Ogg.Proofs.Probe.Decision
import Ogg.Proofs.Scan.Summaries

/-!
# A probe and a scan agree

A probe sees the first bytes of a byte string and stops at a torn page; a scan sees all of
them and searches on behind a torn page. Still the scan finds what the probe has decided
(`Agrees`). The pages in the probe's window are the first pages of the scan, so the stream of
the first page is the same, and so is its first packet: pages of other streams add nothing to
it, and pages that come later only add packets behind it.

## Main statements

* `Tracker.ready_ingestAll_prefix`: the packets of some pages are the first of those of more pages.
* `Controller.probe_agrees_with_scan`: the scan finds what the probe has decided.
-/

namespace Ogg

/-! ### The first packet of a stream -/

namespace Tracker

/-- The packets of some pages are the first of the packets of more pages. -/
theorem ready_ingestAll_prefix (t : Tracker) {pages all : List Page} (hpages : pages <+: all) :
    (t.ingestAll pages).ready <+: (t.ingestAll all).ready := by
  obtain ⟨more, rfl⟩ := hpages
  have hall : t.ingestAll (pages ++ more) = (t.ingestAll pages).ingestAll more := List.foldl_append
  rw [hall, ready_ingestAll_of_taken (t := t.ingestAll pages) (u := (t.ingestAll pages).takeAll.2) rfl
    (List.append_nil _).symm more]
  exact List.prefix_append _ _

end Tracker

/-! ### What a scan says of a stream -/

namespace Scan

/-- The strand of the first page is what the pages of its number make. -/
theorem strandOf_first (offset : Nat) (page : Page) (later : List (Nat × Page)) :
    strandOf page.serial (feedAll ((offset, page) :: later) []) =
      some ((Strand.start offset page).feedPages (Tracker.pagesOf page.serial (page :: later.map Prod.snd))) := by
  have hmap := map_filter_serial page.serial ((offset, page) :: later)
  rw [List.filter_cons_of_pos (by simp), List.map_cons] at hmap
  rw [strandOf_feedAll List.Pairwise.nil, List.filter_cons_of_pos (by simp)]
  show List.foldl Strand.advance none _ = _
  rw [Strand.foldl_advance_none, hmap]
  rfl

/-- A report begins with the first page, and has one summary of its stream. -/
theorem wholeReport_of_walk {d : Bytes} {offset : Nat} {page : Page} {later : List (Nat × Page)}
    (h : Page.walk 0 d = (offset, page) :: later) :
    (wholeReport d).log.head? = some (Entry.ofPage offset page) ∧
      (wholeReport d).streams.filter (·.serial == page.serial) =
        [((Strand.start offset page).feedPages
          (Tracker.pagesOf page.serial (page :: later.map Prod.snd))).summary] := by
  obtain ⟨hlog, -, -⟩ := wholeReport_eq_walk d
  have hordered : Ordered (feedAll (Page.walk 0 d) []) := ordered_feedAll List.Pairwise.nil _
  constructor
  · rw [hlog, h]
    rfl
  · rw [streams_wholeReport, List.filter_map]
    show ((feedAll (Page.walk 0 d) []).filter (·.summary.serial == page.serial)).map _ = _
    rw [hordered.filter_eq, h, strandOf_first]
    rfl

/-- The summary of a stream that begins with its first page goes by the first packet that a
tracker of that stream gives, whatever pages of other streams it is given. -/
theorem identity_of_ready (offset : Nat) {page : Page} (hbos : page.bos = true) {later : List Page} {packet : Packet}
    {more : List Packet} (h : ((Tracker.bind page.serial).ingestAll (page :: later)).ready = packet :: more) :
    ((Strand.start offset page).feedPages (Tracker.pagesOf page.serial (page :: later))).summary.identity =
      (classify packet.data).identity := by
  have hpages := Tracker.ready_ingestAll_pagesOf (t := Tracker.bind page.serial) rfl (page :: later)
  rw [Strand.identity_feedPages (Strand.waiting_start hbos offset)]
  exact congrArg identityOf (hpages.trans h)

end Scan

namespace Probe

/-- What the outcome of a probe says of the first stream, if it says anything. -/
def identity : Except Failure (Option Probed) → Option (Option Codec × Option Dump)
  | .ok (some probed) => some (some probed.codec, none)
  | .error (.unsupported codec _) => some (some codec, none)
  | .error (.unknownCodec dump) => some (none, some dump)
  | _ => none

theorem identity_identification (serial : UInt32) (packet : Packet) :
    identity (identification serial packet) = some (classify packet.data).identity := by
  rw [identification]
  split
  · next dump hclass =>
    rw [hclass]
    rfl
  · next signature hclass =>
    rw [hclass]
    split <;> rfl

theorem serial_of_identification {serial : UInt32} {packet : Packet} {probed : Probed}
    (h : identification serial packet = .ok (some probed)) : probed.serial = serial := by
  rw [identification] at h
  split at h
  · cases h
  · split at h
    · cases h
      rfl
    · cases h
      rfl
    · cases h

/-- What is decided from a window with pages says something of the first stream only by its
first packet, and only if the first page begins it. -/
theorem decision_cons_cases (short : Bool) (window : Bytes) (page : Page) (later : List Page) :
    (page.bos = false ∧ decision short window (page :: later) = .error (.malformed .firstPageNotBeginning)) ∨
      page.bos = true ∧
        (decision short window (page :: later) = .error (.malformed .packetTooLong) ∨
          ∃ packet more, ((Tracker.bind page.serial).ingestAll (page :: later)).ready = packet :: more ∧
            decision short window (page :: later) = identification page.serial packet) := by
  rw [decision]
  cases hbos : page.bos with
  | false => exact Or.inl ⟨rfl, rfl⟩
  | true =>
    rw [if_pos rfl]
    refine Or.inr ⟨rfl, ?_⟩
    cases ((Tracker.bind page.serial).ingestAll (page :: later)).ready with
    | nil => exact Or.inl rfl
    | cons packet more => exact Or.inr ⟨packet, more, rfl, rfl⟩

/-- The first page up to the first tear is the first page of the walk. -/
theorem exists_walk_of_prefix {d : Bytes} {page : Page} {later : List Page}
    (h : page :: later <+: (Page.walk 0 d).map Prod.snd) :
    ∃ offset all, Page.walk 0 d = (offset, page) :: all ∧ page :: later <+: page :: all.map Prod.snd := by
  cases hwalk : Page.walk 0 d with
  | nil =>
    rw [hwalk] at h
    cases List.prefix_nil.mp h
  | cons found all =>
    rw [hwalk, List.map_cons] at h
    obtain ⟨rfl, -⟩ := List.cons_prefix_cons.mp h
    exact ⟨found.1, all, rfl, h⟩

/-- A report holds to what a probe has come to. The serial number is that of the stream the
probe has looked at. -/
structure Agrees (outcome : Except Failure (Option Probed)) (serial : Option UInt32) (report : Scan.Report) : Prop where
  /-- If the probe knows the codec of the stream, or shows a packet that no codec claims, then
  the first page in the log begins that stream, and its one summary says the same. -/
  identified : ∀ codec dump, identity outcome = some (codec, dump) →
    ∃ entry summary, report.log.head? = some entry ∧ (Flags.mk entry.flags).bos = true ∧ serial = some entry.serial ∧
      (∀ probed, outcome = .ok (some probed) → probed.serial = entry.serial) ∧
      report.streams.filter (·.serial == entry.serial) = [summary] ∧
      summary.codec = codec ∧ summary.unknown = dump
  /-- If the first page begins no stream for the probe, then the first page in the log does not. -/
  beginning : outcome = .error (.malformed .firstPageNotBeginning) →
    ∃ entry, report.log.head? = some entry ∧ (Flags.mk entry.flags).bos = false

/-- A report holds to an outcome that says nothing. -/
theorem agrees_of_silent {outcome : Except Failure (Option Probed)} (h : identity outcome = none)
    (h' : outcome ≠ .error (.malformed .firstPageNotBeginning)) (serial : Option UInt32) (report : Scan.Report) :
    Agrees outcome serial report := by
  constructor
  · intro codec dump hsome
    rw [h] at hsome
    cases hsome
  · intro hno
    exact absurd hno h'

namespace Controller

/-- Reading the beginning of a source fails by the source. -/
theorem fill_error {c c' : Controller} {s s' : Source} {e : Failure} (h : c.fill s = (.error e, c', s')) :
    (∃ cause, e = .io cause) ∨ ∃ cause, e = .notSeekable cause := by
  have htop : ∀ {b : Controller} {t : Source}, b.topUp t = (.error e, c', s') → ∃ cause, e = .io cause := by
    intro b t ht
    simp only [topUp] at ht
    split at ht
    · next fault _ _ =>
      cases (Prod.mk.inj ht).1
      exact ⟨fault, rfl⟩
    · cases (Prod.mk.inj ht).1
  simp only [fill] at h
  split at h
  · next cause _ =>
    cases (Prod.mk.inj h).1
    exact Or.inl ⟨cause, rfl⟩
  · split at h
    · exact Or.inl (htop h)
    · split at h
      · next cause _ =>
        cases (Prod.mk.inj h).1
        exact Or.inr ⟨cause, rfl⟩
      · exact Or.inl (htop h)

/-- What is decided from the beginning of a byte string holds for all of it. -/
theorem agrees_of_filled {c : Controller} {d : Bytes} {short : Bool} {s : Source} (hf : Filled d short c.framer s) :
    Agrees (c.conclude short).1 (c.conclude short).2.tracker.serial (Scan.wholeReport d) := by
  obtain ⟨hdecision, hserial⟩ := conclude_eq_decision hf
  have hbytes : c.framer.live ++ s.device.ahead = d := by rw [hf.bytes, hf.start, List.drop_zero]
  have hprefix := Page.upToTear_prefix_walk 0 c.framer.live s.device.ahead
  rw [hbytes] at hprefix
  rw [hdecision]
  cases hpages : Page.upToTear c.framer.live with
  | nil =>
    rw [decision]
    split
    · exact agrees_of_silent rfl (fun h => by cases h) _ _
    · exact agrees_of_silent rfl (fun h => by cases h) _ _
  | cons page later =>
    rw [hpages] at hprefix hserial
    obtain ⟨offset, all, hwalk, hall⟩ := exists_walk_of_prefix hprefix
    obtain ⟨hlog, hstreams⟩ := Scan.wholeReport_of_walk hwalk
    rcases decision_cons_cases short c.framer.live page later with ⟨hbos, hmalformed⟩ | ⟨hbos, hlong | hpacket⟩
    · rw [hmalformed]
      constructor
      · intro codec dump h
        cases h
      · intro _
        exact ⟨_, hlog, hbos⟩
    · rw [hlong]
      exact agrees_of_silent rfl (fun h => by cases h) _ _
    · obtain ⟨packet, more, hready, hidentification⟩ := hpacket
      have hidentity := identity_identification page.serial packet
      -- the first packet of the window is the first packet of all
      obtain ⟨behind, hbehind⟩ := Tracker.ready_ingestAll_prefix (Tracker.bind page.serial) hall
      rw [hready, List.cons_append] at hbehind
      have hsummary := Scan.identity_of_ready offset hbos hbehind.symm
      rw [hidentification]
      constructor
      · intro codec dump h
        rw [hidentity, ← hsummary, Option.some.injEq] at h
        obtain ⟨hcodec, hdump⟩ := Prod.mk.inj h
        exact ⟨_, _, hlog, hbos, hserial page rfl hbos, fun _ => serial_of_identification, hstreams, hcodec, hdump⟩
      · intro h
        rw [h] at hidentity
        cases hidentity

/-- **The scan finds what the probe has decided**, whatever the budget, the chunks and the
reads of either. -/
theorem probe_agrees_with_scan {c : Controller} (hmode : c.framer.mode.resync = false) {s : Source} {d : Bytes}
    (hs : s.Presents d) {outcome : Except Failure (Option Probed)} {c' : Controller} {s' : Source}
    (h : c.probe s = (outcome, c', s')) {device : Device} (hd : device.Sound) (hahead : device.ahead = d)
    (wanted : Nat) :
    ∃ report, (Scan.scan device wanted).report = .ok report ∧ Agrees outcome c'.tracker.serial report := by
  refine ⟨Scan.wholeReport d, by rw [Scan.report_of_sound hd wanted, hahead], ?_⟩
  rcases hfill : c.reset.fill s with ⟨e | short, c₁, s₁⟩
  · rw [probe, hfill, Prod.mk.injEq] at h
    obtain ⟨rfl, -⟩ := h
    rcases fill_error hfill with ⟨cause, rfl⟩ | ⟨cause, rfl⟩
    · exact agrees_of_silent rfl (fun h => by cases h) _ _
    · exact agrees_of_silent rfl (fun h => by cases h) _ _
  · have hprobe : c.probe s = ((c₁.conclude short).1, (c₁.conclude short).2, s₁) := by rw [probe, hfill]
    rw [hprobe, Prod.mk.injEq, Prod.mk.injEq] at h
    obtain ⟨rfl, rfl, -⟩ := h
    exact agrees_of_filled (filled_of_fill hs (bare_reset hmode) hfill)

end Controller

/-- The bytes of two streams: a page without packets begins the first, a page with a packet
begins the second, and only then the first has its first packet. -/
def lateBytes : Bytes :=
  (Page.sealed ⟨2⟩ 5 0 0 [] []).encode ++ (Page.sealed ⟨2⟩ 8 0 0 [4] [0x66, 0x4c, 0x61, 0x43]).encode ++
    (Page.sealed ⟨4⟩ 5 1 0 [5] [0x53, 0x70, 0x65, 0x65, 0x78]).encode

/-- The streams, behind a device. -/
def lateSource : Source := .seekable { data := lateBytes } []

/-- The streams, behind a device that gives out three bytes at a time. -/
def lateReader : Device where
  data := lateBytes
  pace := fun _ => 3

/-- The first of the streams. -/
def lateProbed : Probed := ⟨.speex, 5, ⟨[0x53, 0x70, 0x65, 0x65, 0x78], 5, 0, 1, true, true⟩⟩

theorem agrees_late : lateSource.Presents lateBytes ∧ ∃ c s' report,
    Controller.probe {} lateSource = (.ok (some lateProbed), c, s') ∧
      (Scan.scan lateReader 1).report = .ok report ∧
      ∃ entry summary, report.log.head? = some entry ∧ entry.serial = 5 ∧
        report.streams.filter (·.serial == entry.serial) = [summary] ∧ summary.codec = some .speex := by
  have hs : lateSource.Presents lateBytes := ⟨by decide, rfl, List.nil_prefix⟩
  have hprobed : (Controller.probe {} lateSource).1.toOption = some (some lateProbed) := by decide +kernel
  rcases hprobe : Controller.probe {} lateSource with ⟨_ | outcome, c, s'⟩
  · rw [hprobe] at hprobed
    cases hprobed
  · rw [hprobe] at hprobed
    cases hprobed
    have hsound : lateReader.Sound := by decide
    obtain ⟨report, hreport, hagrees⟩ := Controller.probe_agrees_with_scan rfl hs hprobe hsound rfl 1
    obtain ⟨entry, summary, hlog, -, -, hserial, hstreams, hcodec, -⟩ := hagrees.identified _ _ rfl
    exact ⟨hs, c, s', report, rfl, hreport, entry, summary, hlog, (hserial _ rfl).symm, hstreams, hcodec⟩

end Probe

end Ogg
