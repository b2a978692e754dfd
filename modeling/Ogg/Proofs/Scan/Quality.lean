import Ogg.Proofs.Scan.Accounts
import Ogg.Proofs.Scan.Summaries

/-!
# How sound a bitstream is

A scan rates a bitstream by its counts: the bytes that belong to no page, those of a torn
page at the end, and the gaps of all streams. The counts are derived, each from others; what
the rating comes to can be said of the bytes alone (`scan_quality`).

All bytes are accounted for (`skipped_complete`), so nothing was skipped exactly when the pages
tile the input. And there is no gap in any stream exactly when the pages of each serial number
have successive numbers (`gapsIn_feedAll_eq_zero_iff`).

## Main statements

* `gapsIn_feedAll_eq_zero_iff`: what becomes of the sequence numbers.
* `scan_quality`: how a scan rates a bitstream.
-/

namespace Ogg.Scan

/-! ### What becomes of the sequence numbers -/

/-- The pages of each serial number have successive numbers. -/
def Successive (pages : List Page) : Prop :=
  ∀ serial, (Tracker.pagesOf serial pages).IsChain fun p q => q.sequence = p.sequence + 1

theorem gapsIn_eq_zero_iff (streams : List Summary) : gapsIn streams = 0 ↔ ∀ s ∈ streams, s.gaps = 0 := by
  induction streams with
  | nil => exact ⟨fun _ s hs => (by cases hs), fun _ => rfl⟩
  | cons s rest ih => rw [gapsIn, Nat.add_eq_zero_iff, ih, List.forall_mem_cons]

/-- The strand of a serial number counts no gap exactly when the pages of that number are
successive. -/
theorem gaps_strandOf_iff (serial : UInt32) (pages : List (Nat × Page)) :
    (∀ s ∈ strandOf serial (feedAll pages []), s.summary.gaps = 0) ↔
      (Tracker.pagesOf serial (pages.map Prod.snd)).IsChain fun p q => q.sequence = p.sequence + 1 := by
  rw [← map_filter_serial, ← breaks_eq_zero_iff]
  rcases strandOf_feedAll_nil_cases serial pages with ⟨hnil, hnone⟩ | ⟨found, later, -, hstrand⟩
  · rw [hnil, hnone]
    exact ⟨fun _ => rfl, fun _ s hs => (by cases hs)⟩
  · have hgaps := congrArg Summary.gaps (summary_strandOf hstrand)
    rw [hstrand]
    simp only [Option.mem_some_iff, forall_eq', hgaps, Summary.ofPages]

/-- **There is no gap in any stream exactly when the pages of each serial number are
successive**, whatever pages of other numbers come between them. -/
theorem gapsIn_feedAll_eq_zero_iff (pages : List (Nat × Page)) :
    gapsIn ((feedAll pages []).map Strand.summary) = 0 ↔ Successive (pages.map Prod.snd) := by
  have hordered : Ordered (feedAll pages []) := ordered_feedAll List.Pairwise.nil pages
  rw [gapsIn_eq_zero_iff, List.forall_mem_map, hordered.forall_mem_iff, Successive]
  exact forall_congr' fun serial => gaps_strandOf_iff serial pages

/-! ### The rating -/

theorem quality_eq_unsynchronized_iff (pages skipped trailing gaps : Nat) :
    Scanner.quality pages skipped trailing gaps = .unsynchronized ↔ pages = 0 := by
  rw [Scanner.quality]
  split
  · next h => exact ⟨fun _ => h, fun _ => rfl⟩
  · next h =>
    constructor
    · intro hq
      split at hq <;> cases hq
    · intro h'
      exact absurd h' h

/-- That the trailing bytes are taken off what was skipped does not matter to whether
anything was skipped. -/
theorem quality_eq_clean_iff {skipped trailing : Nat} (h : trailing ≤ skipped) (pages gaps : Nat) :
    Scanner.quality pages (skipped - trailing) trailing gaps = .clean ↔ pages ≠ 0 ∧ skipped = 0 ∧ gaps = 0 := by
  have hnothing : skipped - trailing = 0 ∧ trailing = 0 ∧ gaps = 0 ↔ skipped = 0 ∧ gaps = 0 := by omega
  rw [← hnothing, Scanner.quality]
  split
  · next hno => exact ⟨fun hq => (by cases hq), fun hq => absurd hno hq.1⟩
  · next hsome =>
    split
    · next hall => exact ⟨fun _ => ⟨hsome, hall⟩, fun _ => rfl⟩
    · next hall => exact ⟨fun hq => (by cases hq), fun hq => absurd hq.2 hall⟩

/-- A byte string is an intact bitstream: it is one or more pages and nothing else, and the
pages of each serial number have successive numbers. -/
def Intact (d : Bytes) : Prop := ∃ pages, pages ≠ [] ∧ Page.Tiles pages d ∧ Successive pages

/-- No page is written anywhere in a byte string. -/
def Pageless (d : Bytes) : Prop := ∀ p : Page, p.Sound → ¬ p.encode <:+: d

/-- What the leftmost walk finds says whether a bitstream is intact. -/
theorem intact_iff (d : Bytes) :
    Intact d ↔ Page.walk 0 d ≠ [] ∧ Page.sizes ((Page.walk 0 d).map Prod.snd) = d.length ∧
      Successive ((Page.walk 0 d).map Prod.snd) := by
  constructor
  · rintro ⟨pages, hne, htiles, hsuccessive⟩
    obtain ⟨rfl, hsizes⟩ := (Page.tiles_iff 0).mp htiles
    refine ⟨?_, hsizes, hsuccessive⟩
    intro hnil
    apply hne
    rw [hnil]
    rfl
  · rintro ⟨hne, hsizes, hsuccessive⟩
    exact ⟨_, fun hnil => hne (List.map_eq_nil_iff.mp hnil), Page.tiles_of_sizes hsizes, hsuccessive⟩

theorem clean_iff_intact (d : Bytes) : (wholeReport d).quality = .clean ↔ Intact d := by
  have hpages : (wholeReport d).pages = (Page.walk 0 d).length := (wholeReport_eq_walk d).2.1
  have hskipped := skipped_complete d
  have hnothing : (Framer.complete { mode := { resync := true } } d).2.2.stats.skipped = 0 ↔
      Page.sizes ((Page.walk 0 d).map Prod.snd) = d.length := by omega
  rw [intact_iff, ← gapsIn_feedAll_eq_zero_iff, ← streams_wholeReport, ← hnothing, ← List.length_eq_zero_iff.ne,
    ← hpages]
  exact quality_eq_clean_iff (trailing_le_skipped d) _ _

theorem unsynchronized_iff_pageless (d : Bytes) : (wholeReport d).quality = .unsynchronized ↔ Pageless d := by
  have hpages : (wholeReport d).pages = (Page.walk 0 d).length := (wholeReport_eq_walk d).2.1
  rw [Pageless, ← Page.walk_eq_nil_iff 0, ← List.length_eq_zero_iff, ← hpages]
  exact quality_eq_unsynchronized_iff _ _ _ _

/-- **How a scan rates a bitstream**, whatever the size of the chunks and however the reads
are cut: it is clean exactly when it is intact, unsynchronized exactly when there is no page
in it, and damaged otherwise. -/
theorem scan_quality {device : Device} (hd : device.Sound) (wanted : Nat) :
    ∃ report, (scan device wanted).report = .ok report ∧
      (report.quality = .clean ↔ Intact device.ahead) ∧
      (report.quality = .unsynchronized ↔ Pageless device.ahead) ∧
      (report.quality = .damaged ↔ ¬ Intact device.ahead ∧ ¬ Pageless device.ahead) := by
  have hclean := clean_iff_intact device.ahead
  have hunsynchronized := unsynchronized_iff_pageless device.ahead
  refine ⟨wholeReport device.ahead, report_of_sound hd wanted, hclean, hunsynchronized, ?_⟩
  rw [← hclean, ← hunsynchronized]
  cases (wholeReport device.ahead).quality <;> simp

/-- The pages of two streams, the numbers of the first of them beginning again at zero. -/
def wrappedPages : List Page :=
  [Page.sealed ⟨2⟩ 3 0xffffffff 0 [4] capturePattern, Page.sealed ⟨2⟩ 4 7 0 [4] capturePattern,
    Page.sealed ⟨4⟩ 3 0 0 [4] capturePattern]

/-- A device that holds the pages and gives out five bytes at a time. -/
def wrappedDevice : Device where
  data := (wrappedPages.map Page.encode).flatten
  pace := fun _ => 5

theorem scan_wrapped_clean : wrappedDevice.Sound ∧
    ∃ report, (scan wrappedDevice 30).report = .ok report ∧ report.quality = .clean := by
  have hsound : wrappedDevice.Sound := by decide
  have hpages : ∀ p ∈ wrappedPages, p.Sound := by
    simp only [wrappedPages, List.forall_mem_cons]
    refine ⟨?_, ?_, ?_, fun p hp => (by cases hp)⟩ <;> exact Page.sound_sealed _ _ _ _ (by decide) (by decide)
  have hsuccessive : Successive wrappedPages :=
    (gapsIn_feedAll_eq_zero_iff (wrappedPages.map fun page => (0, page))).mp (by decide +kernel)
  obtain ⟨report, hreport, hclean, -⟩ := scan_quality hsound 30
  refine ⟨hsound, report, hreport, hclean.mpr ⟨wrappedPages, ?_, ⟨hpages, rfl⟩, hsuccessive⟩⟩
  exact List.cons_ne_nil _ _

end Ogg.Scan
