import Ogg.Proofs.Framer.Completion
import Ogg.Proofs.Reading
import Ogg.Scan

/-!
# A scan in chunks and a scan of all bytes at once

A scan reads chunk by chunk and searches each chunk as it comes. From a sound device
it ends with what one search of all the bytes gives, so its report is a function of
the bytes alone: `wholeReport`.

## Main statements

* `Scanner.run_of_sound`: a scan of a sound device ends, and how.
* `run_eq_afterWhole`, `report_of_sound`: a scan and its report are those of all bytes at once,
  whatever the chunks and reads.
-/

namespace Ogg.Scan

/-- The pages given to their logical streams, one after another. -/
def feedAll (pages : List (Nat × Page)) (strands : List Strand) : List Strand :=
  pages.foldl (fun strands found => feedStrands found.1 found.2 strands) strands

/-- The entries of pages. -/
def entries (pages : List (Nat × Page)) : List Entry := pages.map fun found => Entry.ofPage found.1 found.2

/-- What is trailing after an answer: the bytes of the torn page, if it is one. -/
def trailingOf (trailing : Nat) : Pull → Nat
  | .torn buffered => buffered
  | _ => trailing

namespace Scanner

/-- The scan after the outcome of some searches. -/
def conclude (s : Scanner) (outcome : List (Nat × Page) × Pull × Framer) : Scanner where
  framer := outcome.2.2
  scanned := s.scanned
  log := s.log ++ entries outcome.1
  strands := feedAll outcome.1 s.strands
  trailing := trailingOf s.trailing outcome.2.1

/-- A scan whose framer has no storage but for the bytes waiting to be searched. -/
def bare (s : Scanner) : Scanner := { s with framer := s.framer.bare }

/-- A report does not show storage. -/
theorem report_bare (s : Scanner) : s.bare.report = s.report := rfl

theorem foldl_record (pages : List (Nat × Page)) (s : Scanner) :
    pages.foldl record s = { s with log := s.log ++ entries pages, strands := feedAll pages s.strands } := by
  induction pages generalizing s with
  | nil => simp [entries, feedAll]
  | cons found pages ih =>
    rw [List.foldl_cons, ih]
    simp only [record, entries, feedAll, List.map_cons, List.foldl_cons, List.append_assoc, List.singleton_append]

theorem settle_eq_conclude (s : Scanner) : s.settle = s.conclude s.framer.drain := by
  rw [settle]
  simp only [foldl_record]
  cases h : s.framer.drain.2.1 <;> simp [conclude, trailingOf, h]

theorem bare_settle (s : Scanner) : s.settle.bare = s.conclude s.framer.outcome := by
  rw [settle_eq_conclude]
  rfl

/-- Searches, and further searches after them. -/
theorem conclude_conclude (s : Scanner) (pages more : List (Nat × Page)) (f : Framer) (last : Pull) (g : Framer)
    (n : Nat) :
    conclude { s.conclude (pages, .starved, f) with scanned := n } (more, last, g)
      = conclude { s with scanned := n } (pages ++ more, last, g) := by
  simp only [conclude, entries, feedAll, trailingOf, List.map_append, List.foldl_append, List.append_assoc]

/-- **A scan of a sound device ends**, with what one search of all the bytes gives. -/
theorem run_of_sound {chunk : Nat} (hchunk : 0 < chunk) (progress : List Nat) {s : Scanner}
    (hs : s.framer.mode.ended = false) {d : Device} (hd : d.Sound) :
    ∃ t, (s.run chunk progress d).2 = .ok t ∧
      t.bare = conclude { s with scanned := s.scanned + d.ahead.length } (s.framer.complete d.ahead) := by
  fun_induction run chunk progress s d with
  | case1 progress s d x e hread =>
    obtain ⟨bytes, e', hread', -⟩ := Device.readSome_of_sound hd hchunk
    rw [hread] at hread'
    cases hread'
  | case2 progress s d e hread =>
    obtain ⟨bytes, e', hread', -, -, hnil⟩ := Device.readSome_of_sound hd hchunk
    rw [hread] at hread'
    cases hread'
    refine ⟨_, rfl, ?_⟩
    have hended : ((s.reserve chunk).finish).framer.mode.ended = true := rfl
    rw [bare_settle, ← Framer.complete_of_ended hended, hnil rfl]
    show conclude _ ((s.framer.reserve chunk).finish.complete []) = _
    rw [Framer.complete_finish, Framer.complete_reserve]
    rfl
  | case3 progress s d b bytes e hread t ih =>
    obtain ⟨bytes', e', hread', hafter, -, -⟩ := Device.readSome_of_sound hd hchunk
    rw [hread] at hread'
    cases hread'
    let f := ((s.reserve chunk).receive (b :: bytes)).framer
    have hf : f.mode.ended = false := hs
    obtain ⟨hcomplete, hlast, hmode⟩ := Framer.complete_drain hf e.ahead
    have ht : t = conclude ((s.reserve chunk).receive (b :: bytes)) f.drain := settle_eq_conclude _
    obtain ⟨u, hrun, hu⟩ := ih (by rw [ht]; exact (congrArg Mode.ended hmode).trans hf) (hafter.sound hd)
    refine ⟨u, hrun, ?_⟩
    have hwhole : s.framer.complete d.ahead = f.complete e.ahead := by
      show _ = ((s.framer.reserve chunk).receive (b :: bytes)).complete e.ahead
      rw [Framer.complete_receive, Framer.complete_reserve, hafter.ahead]
    have hdrain : f.drain = (f.drain.1, .starved, f.drain.2.2) := by rw [← hlast]
    rw [hu, hwhole, hcomplete, ht, hdrain]
    show conclude { conclude _ _ with scanned := s.scanned + (b :: bytes).length + e.ahead.length } _ = _
    rw [conclude_conclude, Nat.add_assoc, ← List.length_append, ← hafter.ahead]
    rfl

end Scanner

/-- The scan of a byte string that is searched all at once, after its end. -/
def afterWhole (d : Bytes) : Scanner :=
  Scanner.conclude { framer := {}, scanned := d.length } (Framer.complete { mode := { resync := true } } d)

/-- The report on a byte string that is searched all at once. -/
def wholeReport (d : Bytes) : Report :=
  (Scanner.conclude { framer := {}, scanned := d.length }
    (Framer.complete { mode := { resync := true } } d)).report

theorem report_scan (d : Device) (wanted : Nat) :
    (scan d wanted).report =
      ((Scanner.start (chunkSize wanted)).run (chunkSize wanted) [] d).2.map Scanner.report := by
  rcases hrun : (Scanner.start (chunkSize wanted)).run (chunkSize wanted) [] d with ⟨progress, result⟩
  simp only [scan, hrun]

/-- **A scan of a sound device ends as a scan of all its bytes at once does**, but for storage,
whatever the size of the chunks and however the reads are cut. -/
theorem run_eq_afterWhole {d : Device} (hd : d.Sound) (wanted : Nat) :
    ∃ t, ((Scanner.start (chunkSize wanted)).run (chunkSize wanted) [] d).2 = .ok t ∧
      t.bare = afterWhole d.ahead := by
  have hchunk : 0 < chunkSize wanted := by
    unfold chunkSize headerSize
    omega
  generalize chunkSize wanted = chunk at hchunk
  obtain ⟨t, hrun, ht⟩ := Scanner.run_of_sound hchunk [] (s := Scanner.start chunk) rfl hd
  have hstart : (Scanner.start chunk).framer.bare = Framer.bare { mode := { resync := true } } := by
    rw [Framer.bare_eq_iff]
    exact ⟨Buffer.live_withCapacity _, rfl, rfl, rfl⟩
  rw [Framer.complete_congr hstart] at ht
  refine ⟨t, hrun, ?_⟩
  rw [ht]
  simp only [afterWhole, Scanner.conclude, Scanner.start, Nat.zero_add]

/-- **The report on a sound device is that of all its bytes at once**, whatever the size
of the chunks and however the reads are cut. -/
theorem report_of_sound {d : Device} (hd : d.Sound) (wanted : Nat) :
    (scan d wanted).report = .ok (wholeReport d.ahead) := by
  obtain ⟨t, hrun, ht⟩ := run_eq_afterWhole hd wanted
  have hreport : t.report = wholeReport d.ahead := by
    rw [← Scanner.report_bare, ht]
    rfl
  rw [report_scan, hrun, ← hreport]
  rfl

end Ogg.Scan
