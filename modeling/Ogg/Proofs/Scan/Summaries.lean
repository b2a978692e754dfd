import Mathlib.Algebra.GroupWithZero.Nat
import Mathlib.Data.List.Chain
import Ogg.Proofs.Page.Leftmost
import Ogg.Proofs.Scan.Strands

/-!
# The summaries of a scan

A scan counts lazily: packets are counted page by page as a tracker gives them out, gaps are
copied from the tracker after every page, and the first packet is looked at when it happens to
come. What it comes to can be read off the pages of the stream at once (`Summary.ofPages`): the
packets are those of a fresh tracker, the gaps are the neighbouring pages whose numbers do not
follow on each other, and the codec is that of the first packet, on whatever page it ends.

The invariant ties a strand to its stream and to the latest page (`Strand.Abreast`), so each
page is held against the one before. What is said of the codec has an invariant of its own, since
it comes once and then stays (`Strand.Waiting`).

## Main statements

* `Strand.unidentified_feedPages`: what some pages of its stream add to the counts of a strand.
* `Strand.identity_feedPages`: what a scan says of a stream goes by its first packet.
* `streams_separate`: every summary of a scan is what the pages of its own stream say.
-/

namespace Ogg

/-- What a classification says of a stream: its codec, or the beginning of its first packet. -/
def Classification.identity : Classification → Option Codec × Option Dump
  | known signature => (some signature.codec, none)
  | unknown dump => (none, some dump)

/-- What some packets say of their stream: the first of them is its identification. -/
def identityOf : List Packet → Option Codec × Option Dump
  | [] => (none, none)
  | packet :: _ => (classify packet.data).identity

namespace Scan

/-! ### Neighbouring pages -/

/-- The number of pages that are not the successors of the ones before them. -/
def breaks (pages : List Page) : Nat :=
  (pages.zip pages.tail).countP fun pair => pair.2.sequence != pair.1.sequence + 1

theorem breaks_cons_cons (p q : Page) (rest : List Page) :
    breaks (p :: q :: rest) = (if q.sequence != p.sequence + 1 then 1 else 0) + breaks (q :: rest) := by
  rw [Nat.add_comm]
  exact List.countP_cons

/-- There are no breaks between successive pages, and between no others. -/
theorem breaks_eq_zero_iff {pages : List Page} :
    breaks pages = 0 ↔ pages.IsChain fun p q => q.sequence = p.sequence + 1 := by
  induction pages with
  | nil => simp [breaks]
  | cons p later ih =>
    cases later with
    | nil => simp [breaks]
    | cons q rest => simp [breaks_cons_cons, ih]

/-! ### What a summary should be -/

/-- The summary of a stream by its pages, with the places where they are found. -/
def Summary.ofPages (serial : UInt32) (found : List (Nat × Page)) : Summary :=
  let pages := found.map Prod.snd
  let packets := ((Tracker.bind serial).ingestAll pages).takeAll.1
  let identity := if pages.head?.any Page.bos then identityOf packets else (none, none)
  { serial
    firstOffset := (found.head?.map Prod.fst).getD 0
    pages := pages.length
    packets := packets.length
    bos := pages.any Page.bos
    eos := pages.any Page.eos
    gaps := breaks pages
    codec := identity.1
    unknown := identity.2 }

/-- What a summary says of its stream. -/
def Summary.identity (s : Summary) : Option Codec × Option Dump := (s.codec, s.unknown)

theorem Summary.eq_of_identity {s t : Summary} (h : s.unidentified = t.unidentified) (h' : s.identity = t.identity) :
    s = t := by
  cases s
  cases t
  simp_all [Summary.unidentified, Summary.identity]

namespace Strand

/-! ### The counts -/

/-- A strand has caught up with its stream: all packets were asked for, and all gaps up to the
latest page, if there is one, are counted. -/
structure Abreast (s : Strand) (stream : LogicalStream) (latest : Option Page) : Prop where
  /-- Its tracker follows the stream. -/
  bound : s.tracker.stream = some stream
  /-- No packet waits to be asked for. -/
  ready : s.tracker.ready = []
  /-- The gaps in the summary are those of the stream. -/
  gaps : s.summary.gaps = stream.gaps
  /-- The latest page of the stream. -/
  latest : stream.lastSequence = latest.map (·.sequence)
  /-- The identification packet, if it is expected, will be the first that is asked for. -/
  unasked : s.Unasked

theorem abreast_start (offset : Nat) (page : Page) : (start offset page).Abreast { serial := page.serial } none :=
  ⟨rfl, rfl, rfl, rfl, unasked_start offset page⟩

/-- A page of its stream leaves a strand abreast of it. -/
theorem Abreast.feed {s : Strand} {stream : LogicalStream} {latest : Option Page} (hs : s.Abreast stream latest)
    {page : Page} (hserial : page.serial = stream.serial) :
    (s.feed page).Abreast (stream.accept page).2 (some page) := by
  have hingest := Tracker.ingest_of_serial hs.bound hserial
  have htracker := tracker_feed hs.unasked page
  constructor
  · rw [htracker, hingest]
    rfl
  · rw [htracker]
    rfl
  · rw [gaps_feed hs.unasked, hingest]
    rfl
  · rfl
  · exact unasked_feed hs.unasked page

/-- The packets of a strand with some pages ahead: those of the next page, then those that
come when they were asked for. -/
theorem ready_ingestAll_cons {s : Strand} (hs : s.Unasked) (page : Page) (pages : List Page) :
    (s.tracker.ingestAll (page :: pages)).ready =
      (s.tracker.ingest page).2.ready ++ ((s.feed page).tracker.ingestAll pages).ready := by
  have htracker := tracker_feed hs page
  apply Tracker.ready_ingestAll_of_taken (t := (s.tracker.ingest page).2)
  · rw [htracker]
    rfl
  · rw [htracker]
    exact (List.append_nil _).symm

/-- The breaks up to a page: it may be one, and the others lie before it. -/
theorem Abreast.breaks_cons {s : Strand} {stream : LogicalStream} {latest : Option Page} (hs : s.Abreast stream latest)
    (page : Page) (pages : List Page) :
    breaks (latest.toList ++ page :: pages) =
      (if stream.gapBefore page then 1 else 0) + breaks (page :: pages) := by
  have hlatest := hs.latest
  rw [LogicalStream.gapBefore, hlatest]
  cases latest with
  | none => simp
  | some last => exact breaks_cons_cons last page pages

/-- **What pages of its stream add to the counts of a strand.** -/
theorem unidentified_feedPages {s : Strand} {stream : LogicalStream} {latest : Option Page}
    (hs : s.Abreast stream latest) {pages : List Page} (hpages : ∀ p ∈ pages, p.serial = stream.serial) :
    (s.feedPages pages).summary.unidentified =
      { s.summary.unidentified with
        pages := s.summary.pages + pages.length
        packets := s.summary.packets + (s.tracker.ingestAll pages).ready.length
        bos := s.summary.bos || pages.any Page.bos
        eos := s.summary.eos || pages.any Page.eos
        gaps := s.summary.gaps + breaks (latest.toList ++ pages) } := by
  -- the strand moves on with the pages, and the packets of each are counted before the next
  induction pages generalizing s stream latest with
  | nil =>
    have hready : (s.tracker.ingestAll []).ready = [] := hs.ready
    have hbreaks : breaks (latest.toList ++ []) = 0 := by
      cases latest <;> rfl
    rw [hready, hbreaks]
    simp [feedPages, Summary.unidentified]
  | cons page pages ih =>
    have hserial := hpages page List.mem_cons_self
    have hnext := hs.feed hserial
    have hready := ready_ingestAll_cons hs.unasked page pages
    have hbreaks := hs.breaks_cons page pages
    have hgaps : (s.feed page).summary.gaps = s.summary.gaps + if stream.gapBefore page then 1 else 0 := by
      rw [hnext.gaps, hs.gaps, LogicalStream.accept]
      cases stream.gapBefore page <;> rfl
    have hfed := unidentified_feed hs.unasked page
    simp only [Summary.unidentified, counted, Summary.mk.injEq] at hfed
    obtain ⟨hserial', hoffset, hcount, hpackets, hbos, heos, -⟩ := hfed
    show ((s.feed page).feedPages pages).summary.unidentified = _
    rw [ih hnext fun p hp => hpages p (List.mem_cons_of_mem page hp), hready, hbreaks]
    simp only [Summary.unidentified, hserial', hoffset, hcount, hpackets, hbos, heos, hgaps, List.length_cons,
      List.length_append, List.any_cons, Bool.or_assoc, Nat.add_assoc, Nat.add_comm 1, Option.toList_some,
      List.singleton_append]

/-! ### The codec -/

/-- A strand that waits for its identification packet. -/
structure Waiting (s : Strand) : Prop where
  /-- Its tracker follows a stream. -/
  bound : ∃ stream, s.tracker.stream = some stream
  /-- No packet waits to be asked for. -/
  ready : s.tracker.ready = []
  /-- The identification packet is still to come. -/
  identified : s.identified = false
  /-- No packet was asked for. -/
  popped : s.tracker.popped = 0
  /-- Nothing was said of the stream. -/
  identity : s.summary.identity = (none, none)

theorem waiting_start {page : Page} (h : page.bos = true) (offset : Nat) : (start offset page).Waiting :=
  ⟨⟨_, rfl⟩, rfl, by rw [start, h]; rfl, rfl, rfl⟩

theorem Waiting.unasked {s : Strand} (hs : s.Waiting) : s.Unasked := fun _ => hs.popped

/-- A page on which no packet ends leaves a strand waiting. -/
theorem Waiting.feed_of_nil {s : Strand} (hs : s.Waiting) {page : Page} (h : (s.tracker.ingest page).2.ready = []) :
    (s.feed page).Waiting := by
  rw [feed_eq hs.unasked, h, Tracker.takeAll_of_nil h]
  exact ⟨Tracker.exists_stream_ingest hs.bound page, h, hs.identified,
    (Tracker.popped_ingest s.tracker page).trans hs.popped, hs.identity⟩

theorem identity_identify {s : Summary} (hs : s.identity = (none, none)) (packet : Packet) :
    (identify s packet).identity = (classify packet.data).identity := by
  obtain ⟨hcodec, hunknown⟩ := Prod.mk.inj hs
  rw [identify]
  split
  · next signature hclass =>
    rw [hclass]
    exact Prod.ext rfl hunknown
  · next dump hclass =>
    rw [hclass]
    exact Prod.ext hcodec rfl

/-- The first page on which a packet ends says what the stream is, by the first packet on it. -/
theorem Waiting.feed_of_cons {s : Strand} (hs : s.Waiting) {page : Page} {packet : Packet} {more : List Packet}
    (h : (s.tracker.ingest page).2.ready = packet :: more) :
    (s.feed page).identified = true ∧ (s.feed page).summary.identity = (classify packet.data).identity := by
  rw [feed_eq hs.unasked, h, hs.identified]
  exact ⟨rfl, identity_identify (s := s.counted page) hs.identity packet⟩

/-- What was said of a stream stays. -/
theorem identity_feed {s : Strand} (hs : s.identified = true) (page : Page) :
    (s.feed page).identified = true ∧ (s.feed page).summary.identity = s.summary.identity := by
  have hunasked : s.Unasked := fun hidentified => absurd (hs.symm.trans hidentified) (by decide)
  rw [feed_eq hunasked]
  split
  · exact ⟨hs, rfl⟩
  · rw [hs]
    exact ⟨rfl, rfl⟩

theorem identity_feedPages_of_identified {s : Strand} (hs : s.identified = true) (pages : List Page) :
    (s.feedPages pages).summary.identity = s.summary.identity := by
  induction pages generalizing s with
  | nil => rfl
  | cons page pages ih =>
    obtain ⟨hidentified, hidentity⟩ := identity_feed hs page
    exact (ih hidentified).trans hidentity

/-- **What a scan says of a stream goes by its first packet**, on whatever page it ends. -/
theorem identity_feedPages {s : Strand} (hs : s.Waiting) (pages : List Page) :
    (s.feedPages pages).summary.identity = identityOf (s.tracker.ingestAll pages).ready := by
  induction pages generalizing s with
  | nil =>
    have hready : (s.tracker.ingestAll []).ready = [] := hs.ready
    rw [hready]
    exact hs.identity
  | cons page pages ih =>
    rw [ready_ingestAll_cons hs.unasked]
    show ((s.feed page).feedPages pages).summary.identity = _
    cases hready : (s.tracker.ingest page).2.ready with
    | nil => exact ih (hs.feed_of_nil hready)
    | cons packet more =>
      obtain ⟨hidentified, hidentity⟩ := hs.feed_of_cons hready
      rw [identity_feedPages_of_identified hidentified, hidentity]
      rfl

/-- The strand of a stream says that much of it: nothing if its first page does not begin it. -/
theorem identity_feedPages_start (offset : Nat) (page : Page) (later : List Page) :
    ((start offset page).feedPages (page :: later)).summary.identity =
      if page.bos then identityOf ((Tracker.bind page.serial).ingestAll (page :: later)).ready else (none, none) := by
  cases hbos : page.bos with
  | true => exact identity_feedPages (waiting_start hbos offset) (page :: later)
  | false =>
    have hidentified : (start offset page).identified = true := by
      rw [start, hbos]
      rfl
    exact identity_feedPages_of_identified hidentified (page :: later)

/-- **The strand of a stream comes to the summary by its pages.** -/
theorem summary_feedPages_start (found : Nat × Page) {later : List (Nat × Page)}
    (hlater : ∀ place ∈ later, place.2.serial = found.2.serial) :
    ((start found.1 found.2).feedPages (found.2 :: later.map Prod.snd)).summary =
      Summary.ofPages found.2.serial (found :: later) := by
  have hpages : ∀ p ∈ found.2 :: later.map Prod.snd, p.serial = found.2.serial := by
    rw [List.forall_mem_cons, List.forall_mem_map]
    exact ⟨rfl, hlater⟩
  apply Summary.eq_of_identity
  · rw [unidentified_feedPages (abreast_start found.1 found.2) hpages]
    simp [start, Summary.unidentified, Summary.ofPages, Tracker.takeAll]
  · rw [identity_feedPages_start]
    simp [Summary.identity, Summary.ofPages, Tracker.takeAll]

end Strand

/-! ### All summaries -/

/-- The strand of a number comes to the summary by the pages of that number. -/
theorem summary_strandOf {serial : UInt32} {pages : List (Nat × Page)} {s : Strand}
    (h : strandOf serial (feedAll pages []) = some s) :
    s.summary = Summary.ofPages serial (pages.filter (·.2.serial == serial)) := by
  have hserial : ∀ place ∈ pages.filter (·.2.serial == serial), place.2.serial = serial := by
    intro place hplace
    exact eq_of_beq (List.mem_filter.mp hplace).2
  rcases strandOf_feedAll_nil_cases serial pages with ⟨-, hnone⟩ | ⟨found, later, hfilter, hstrand⟩
  · rw [hnone] at h
    cases h
  · rw [hstrand, Option.some.injEq] at h
    rw [hfilter] at hserial
    obtain ⟨hfound, hlater⟩ := List.forall_mem_cons.mp hserial
    rw [hfilter, ← h, ← hfound]
    apply Strand.summary_feedPages_start
    intro place hplace
    rw [hlater place hplace, hfound]

/-- The numbers of the strands are those of the pages. -/
theorem mem_serials_feedAll {serial : UInt32} {pages : List (Nat × Page)} :
    serial ∈ (feedAll pages []).map (·.summary.serial) ↔ serial ∈ pages.map (·.2.serial) := by
  have hordered : Ordered (feedAll pages []) := ordered_feedAll List.Pairwise.nil pages
  constructor
  · intro h
    obtain ⟨s, hs, rfl⟩ := List.mem_map.mp h
    have hmem := hordered.strandOf_of_mem hs
    rcases strandOf_feedAll_nil_cases s.summary.serial pages with ⟨-, hnone⟩ | ⟨found, later, hfilter, -⟩
    · rw [hnone] at hmem
      cases hmem
    · obtain ⟨hfound, hserial⟩ := List.mem_filter.mp (hfilter ▸ List.mem_cons_self : found ∈ pages.filter _)
      exact List.mem_map.mpr ⟨found, hfound, eq_of_beq hserial⟩
  · intro h
    obtain ⟨found, hfound, rfl⟩ := List.mem_map.mp h
    rcases strandOf_feedAll_nil_cases found.2.serial pages with ⟨hnil, -⟩ | ⟨first, later, -, hstrand⟩
    · exact absurd (List.filter_eq_nil_iff.mp hnil found hfound) (by simp)
    · obtain ⟨hs, hserial⟩ := mem_of_strandOf hstrand
      exact List.mem_map.mpr ⟨_, hs, hserial⟩

/-- Each page is counted in one strand. -/
theorem sum_pages_feedStrands (offset : Nat) (page : Page) (strands : List Strand) :
    ((feedStrands offset page strands).map (·.summary.pages)).sum = (strands.map (·.summary.pages)).sum + 1 := by
  have hfeed : ∀ s : Strand, (s.feed page).summary.pages = s.summary.pages + 1 := fun s => (s.serial_pages_feed page).2
  have hstart : (Strand.start offset page).summary.pages = 0 := rfl
  induction strands with
  | nil => simp [feedStrands, hfeed, hstart]
  | cons s rest ih =>
    rw [feedStrands]
    split
    · simp [hfeed, hstart, Nat.add_comm]
    · split
      · simp [hfeed, Nat.add_right_comm]
      · simp [ih, Nat.add_assoc]

theorem sum_pages_feedAll (pages : List (Nat × Page)) (strands : List Strand) :
    ((feedAll pages strands).map (·.summary.pages)).sum = (strands.map (·.summary.pages)).sum + pages.length := by
  induction pages generalizing strands with
  | nil => rfl
  | cons found pages ih =>
    show ((feedAll pages (feedStrands found.1 found.2 strands)).map (·.summary.pages)).sum = _
    rw [ih, sum_pages_feedStrands, List.length_cons]
    omega

/-- **The streams of a scan do not influence one another**, whatever the size of the chunks and
however the reads are cut. There is one summary of each serial number in the log, in the order
of the numbers; together they count each page once; and each is what the pages of its own number
say. -/
theorem streams_separate {device : Device} (hd : device.Sound) (wanted : Nat) :
    ∃ report found rejected, (scan device wanted).report = .ok report ∧
      Page.Leftmost 0 device.ahead found rejected ∧
      report.log = found.map (fun place => Entry.ofPage place.1 place.2) ∧
      report.streams.Pairwise (·.serial < ·.serial) ∧
      (∀ serial, serial ∈ report.streams.map (·.serial) ↔ serial ∈ report.log.map (·.serial)) ∧
      (report.streams.map (·.pages)).sum = report.pages ∧
      ∀ s ∈ report.streams, s = Summary.ofPages s.serial (found.filter (·.2.serial == s.serial)) := by
  obtain ⟨hlog, hpages, -⟩ := wholeReport_eq_walk device.ahead
  have hstreams := streams_wholeReport device.ahead
  have hordered : Ordered (feedAll (Page.walk 0 device.ahead) []) := ordered_feedAll List.Pairwise.nil _
  refine ⟨wholeReport device.ahead, Page.walk 0 device.ahead, Page.walkRejected device.ahead,
    report_of_sound hd wanted, Page.leftmost_iff.mpr ⟨rfl, rfl⟩, hlog, ?_, ?_, ?_, ?_⟩
  · rw [hstreams]
    exact List.pairwise_map.mpr hordered
  · intro serial
    rw [hstreams, hlog, entries, List.map_map, List.map_map]
    exact mem_serials_feedAll
  · rw [hstreams, hpages, List.map_map]
    exact (sum_pages_feedAll _ []).trans (Nat.zero_add _)
  · intro summary hsummary
    rw [hstreams] at hsummary
    obtain ⟨s, hs, rfl⟩ := List.mem_map.mp hsummary
    exact summary_strandOf (hordered.strandOf_of_mem hs)

/-- The pages of two streams, one of them with a page lost. The first packet of the other ends
on its second page. -/
def splicedPages : List Page :=
  [Page.sealed ⟨2⟩ 9 0 0 [5] [0x53, 0x70, 0x65, 0x65, 0x78], Page.sealed ⟨2⟩ 4 6 0 [] [],
    Page.sealed ⟨0⟩ 9 2 3 [1, 1] [7, 8], Page.sealed ⟨4⟩ 4 7 0 [4] [0x66, 0x4c, 0x61, 0x43]]

/-- A device that holds the pages behind a stray byte, and gives out fifty bytes at a time. -/
def splicedDevice : Device where
  data := 0x4f :: (splicedPages.map Page.encode).flatten
  pace := fun _ => 50

theorem streams_spliced : splicedDevice.Sound ∧
    ∃ report, (scan splicedDevice 60).report = .ok report ∧ report.streams.Pairwise (·.serial < ·.serial) ∧
      report.streams.map (·.serial) = [4, 9] ∧ report.streams.map (·.gaps) = [0, 1] ∧
      report.streams.map (·.packets) = [1, 3] ∧ report.streams.map (·.codec) = [some .flac, some .speex] := by
  have hsound : splicedDevice.Sound := by decide
  obtain ⟨report, found, rejected, hreport, -, -, hordered, -⟩ := streams_separate hsound 60
  have hstreams : (scan splicedDevice 60).report.toOption.map (fun r =>
      (r.streams.map (·.serial), r.streams.map (·.gaps), r.streams.map (·.packets), r.streams.map (·.codec))) =
        some ([4, 9], [0, 1], [1, 3], [some .flac, some .speex]) := by decide +kernel
  rw [hreport] at hstreams
  simp only [Except.toOption, Option.map_some, Option.some.injEq, Prod.mk.injEq] at hstreams
  exact ⟨hsound, report, hreport, hordered, hstreams⟩

end Scan

end Ogg
