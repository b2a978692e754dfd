import Ogg.Proofs.Page.Leftmost
import Ogg.Proofs.Scan.Whole

/-!
# The log of a scan

A scan gives up the candidates that the end of the input cuts off and searches on, so
once all bytes are there its search rests at pages and at the end alone. What it passes
over on the way is what the leftmost walk passes over. Hence the log of a scan is what
the walk finds, and the number of spurious candidates is that of the walk.

## Main statements

* `walk_of_search`: a search of all bytes passes over what the walk passes over.
* `Framer.outcome_eq_walk`: searches of all bytes find what the walk finds.
* `scan_eq_leftmost`: the log of a scan is what the leftmost walk finds.
-/

namespace Ogg

/-! ### One search of all bytes -/

/-- A search of all bytes that resynchronises rests at pages alone. -/
theorem Mode.step_resync_eq_none {left : Nat} {v : Verdict} (h : Mode.step ⟨true, true⟩ left v = none) :
    ∃ page, v = .valid page := by
  cases v with
  | valid page => exact ⟨page, rfl⟩
  | _ => cases h

/-- A search of all bytes that finds no page has passed over them all. -/
theorem skipped_of_search_none {d : Bytes} {q : Passed} (h : search ⟨true, true⟩ {} d = (q, none)) :
    q.skipped = d.length := by
  induction d generalizing q with
  | nil =>
    rw [search, Prod.mk.injEq] at h
    obtain ⟨rfl, -⟩ := h
    rfl
  | cons b r ih =>
    obtain ⟨hstep, -, hpage⟩ | ⟨s, t, hstep, ht, rfl⟩ := search_cons_cases h
    · obtain ⟨page, hv⟩ := Mode.step_resync_eq_none hstep
      rw [hv] at hpage
      cases hpage
    · rw [Passed.andThen, Mode.skipped_of_step hstep, List.length_cons, ih ht, Nat.add_comm]

/-- One byte that a search passes over is passed over by the walk, and is a spurious
candidate for the one when it is for the other. -/
theorem walk_of_step {mode : Mode} {left : Nat} {b : UInt8} {r : Bytes} {q : Passed}
    (h : mode.step left (Page.judge (b :: r)) = some q) (offset : Nat) :
    Page.walk offset (b :: r) = Page.walk (offset + 1) r ∧
      Page.walkRejected (b :: r) = q.rejected + Page.walkRejected r := by
  have hvalid : ∀ page, Page.judge (b :: r) ≠ .valid page := by
    intro page hv
    rw [hv] at h
    cases h
  refine ⟨Page.walk_of_not_valid offset hvalid, ?_⟩
  by_cases hs : ∃ flaw, Page.judge (b :: r) = .spurious flaw
  · obtain ⟨flaw, hf⟩ := hs
    rw [hf] at h
    cases h
    rw [Page.walkRejected_of_spurious hf, Nat.add_comm]
    rfl
  · have hno : ∀ flaw, Page.judge (b :: r) ≠ .spurious flaw := fun flaw hf => hs ⟨flaw, hf⟩
    rw [Page.walkRejected_of_passed hvalid hno, Mode.rejected_of_step h hno, Nat.zero_add]

/-- **What a search passes over, the walk passes over**, with as many spurious candidates. -/
theorem walk_of_search (mode : Mode) (offset : Nat) (d : Bytes) :
    Page.walk offset d = Page.walk (offset + (search mode {} d).1.skipped) (d.drop (search mode {} d).1.skipped) ∧
      Page.walkRejected d
        = (search mode {} d).1.rejected + Page.walkRejected (d.drop (search mode {} d).1.skipped) := by
  induction d generalizing offset with
  | nil => simp [search]
  | cons b r ih =>
    cases hstep : mode.step (r.length + 1) (Page.judge (b :: r)) with
    | none =>
      rw [search_cons_of_rest hstep]
      simp
    | some q =>
      obtain ⟨hwalk, hrejected⟩ := walk_of_step hstep offset
      obtain ⟨hwalk', hrejected'⟩ := ih (offset + 1)
      rw [search_cons_of_step hstep, hwalk, hrejected, hwalk', hrejected']
      simp only [Passed.andThen, Mode.skipped_of_step hstep, Nat.add_comm 1, List.drop_succ_cons, Nat.add_assoc,
        and_self]

/-! ### All searches -/

/-- **All searches of all bytes find what the walk finds**, and count as many pages and
spurious candidates. -/
theorem Framer.outcome_eq_walk {f : Framer} (hmode : f.mode = ⟨true, true⟩) :
    f.outcome.1 = Page.walk f.position f.live ∧
      f.outcome.2.2.stats.pages = f.stats.pages + (Page.walk f.position f.live).length ∧
      f.outcome.2.2.stats.rejected = f.stats.rejected + Page.walkRejected f.live := by
  induction f using drain_induction with
  | page f g page hf ih =>
    obtain ⟨q, hs, rfl⟩ := search_of_next_page hf
    obtain ⟨hlog, hpages, hrejected⟩ := ih hmode
    obtain ⟨hwalk, hpassed⟩ := walk_of_search f.mode f.position f.live
    have hv := judge_of_search_page hs
    rw [hs] at hwalk hpassed
    rw [Page.walk_of_valid _ hv] at hwalk
    rw [Page.walkRejected_of_valid hv] at hpassed
    rw [outcome_of_next_page hf, hlog, hpages, hrejected, hwalk, hpassed]
    refine ⟨?_, ?_, ?_⟩
    · show (f.position + q.skipped + page.size - page.size, page) :: _ = _
      rw [Nat.add_sub_cancel]
      rfl
    · show f.stats.pages + 1 + _ = _
      rw [List.length_cons, Nat.add_assoc, Nat.add_comm 1]
      rfl
    · exact Nat.add_assoc _ _ _
  | rest f g last hf hno =>
    obtain ⟨q, hs, -, rfl⟩ := search_of_next_rest hf hno
    obtain ⟨hwalk, hpassed⟩ := walk_of_search f.mode f.position f.live
    rw [outcome_of_next_rest hf hno]
    rw [hs] at hwalk hpassed
    rw [hmode] at hs
    rw [skipped_of_search_none hs, List.drop_length] at hwalk hpassed
    rw [hwalk, hpassed]
    simp only [Page.walk, Page.walkRejected, List.length_nil]
    exact ⟨trivial, rfl, rfl⟩

namespace Scan

/-- All searches of all bytes find what the walk finds. -/
theorem pages_complete (d : Bytes) :
    (Framer.complete { mode := { resync := true } } d).1 = Page.walk 0 d := by
  obtain ⟨hlog, -, -⟩ := Framer.outcome_eq_walk (f := Framer.whole { mode := { resync := true } } d) rfl
  rwa [Framer.live_whole] at hlog

theorem wholeReport_eq_walk (d : Bytes) :
    (wholeReport d).log = entries (Page.walk 0 d) ∧ (wholeReport d).pages = (Page.walk 0 d).length ∧
      (wholeReport d).rejected = Page.walkRejected d := by
  have hlive : (Framer.whole { mode := { resync := true } } d).live = d := by
    rw [Framer.live_whole]
    rfl
  obtain ⟨hlog, hpages, hrejected⟩ :=
    Framer.outcome_eq_walk (f := Framer.whole { mode := { resync := true } } d) rfl
  rw [hlive] at hlog hpages hrejected
  refine ⟨?_, ?_, ?_⟩
  · show [] ++ entries (Framer.outcome _).1 = _
    rw [hlog]
    rfl
  · exact hpages.trans (Nat.zero_add _)
  · exact hrejected.trans (Nat.zero_add _)

/-- **The log of a scan is what the leftmost walk finds** in the bytes, each page as it
is written at its place, whatever the size of the chunks and however a sound device
cuts and interrupts the reads; and the scan rejects what the walk rejects. -/
theorem scan_eq_leftmost (d : Bytes) :
    ∃ found rejected, (∀ f r, Page.Leftmost 0 d f r ↔ f = found ∧ r = rejected) ∧
      ∀ device : Device, device.Sound → device.ahead = d → ∀ wanted,
        ∃ report, (scan device wanted).report = .ok report ∧
          report.log = found.map (fun place => Entry.ofPage place.1 place.2) ∧
          report.pages = report.log.length ∧ report.rejected = rejected := by
  refine ⟨Page.walk 0 d, Page.walkRejected d, fun _ _ => Page.leftmost_iff, ?_⟩
  intro device hsound hahead wanted
  obtain ⟨hlog, hpages, hrejected⟩ := wholeReport_eq_walk d
  refine ⟨wholeReport d, ?_, hlog, ?_, hrejected⟩
  · rw [report_of_sound hsound wanted, hahead]
  · rw [hpages, hlog, entries, List.length_map]

/-- A page with a packet of three bytes. -/
def strayPage : Page := Page.sealed ⟨2⟩ 7 0 0 [3] [1, 2, 3]

/-- A device that holds a capture pattern with another version, then a page. It gives
out a byte at a time, and is interrupted twice. -/
def strayDevice : Device where
  data := capturePattern ++ 1 :: strayPage.encode
  faults := [⟨0, .interrupted⟩, ⟨9, .interrupted⟩]
  pace := fun _ => 1

theorem leftmost_stray : Page.Leftmost 0 strayDevice.data [(5, strayPage)] 1 := by
  have hpage : Page.Leftmost 5 (strayPage.encode ++ []) [(5, strayPage)] 0 :=
    Page.Leftmost.page (Page.sound_sealed _ _ _ _ (by decide) (by decide)) (Page.Leftmost.done _)
  rw [List.append_nil] at hpage
  have hspurious : Page.BeginsSpurious strayDevice.data := ⟨⟨_, rfl⟩, by decide, Or.inl (by decide)⟩
  refine Page.Leftmost.spurious hspurious ?_
  refine Page.leftmost_of_not_capture (by decide) (Page.leftmost_of_not_capture (by decide) ?_)
  exact Page.leftmost_of_not_capture (by decide) (Page.leftmost_of_not_capture (by decide) hpage)

theorem scan_stray : strayDevice.Sound ∧
    ∃ report, (scan strayDevice 1).report = .ok report ∧ report.log = [Entry.ofPage 5 strayPage] ∧
      report.pages = 1 ∧ report.rejected = 1 := by
  have hsound : strayDevice.Sound := by decide
  obtain ⟨found, rejected, hwalk, hscan⟩ := scan_eq_leftmost strayDevice.data
  obtain ⟨rfl, rfl⟩ := (hwalk _ _).mp leftmost_stray
  obtain ⟨report, hreport, hlog, hpages, hrejected⟩ := hscan strayDevice hsound rfl 1
  rw [hlog] at hpages
  exact ⟨hsound, report, hreport, hlog, hpages, hrejected⟩

end Scan

end Ogg
