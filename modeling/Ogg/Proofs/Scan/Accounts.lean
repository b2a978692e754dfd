import Mathlib.Algebra.GroupWithZero.Nat
import Ogg.Proofs.Page.Tiling
import Ogg.Proofs.Page.Torn
import Ogg.Proofs.Scan.Log

/-!
# The bytes of a scan

A scan accounts for every byte once: it lies in a page of the log, or it was skipped, or it is
one of the trailing bytes. The counts come about in a roundabout way. The framer passes over
the trailing bytes like any others, one at a time, and remembers only how many there were when
it abandoned a candidate for the first time since the latest page; the report takes them off
what was skipped. So the count of trailing bytes has to be tied to the bytes themselves: they
are the tail from the first torn candidate behind the last page on (`Trailing`).

## Main statements

* `Page.pairwise_walk`, `Page.slice_of_mem_walk`: the pages of the walk lie one behind the other.
* `Framer.skipped_outcome`: what was skipped and the pages make up the bytes.
* `Framer.trailing_outcome`: what a framer reports as torn is the tail behind the last page.
* `scan_accounts`: the counts of a scan.
-/

namespace Ogg

/-! ### Where the pages lie -/

namespace Page

/-- **The pages of the walk lie one behind the other.** -/
theorem pairwise_walk (offset : Nat) (d : Bytes) :
    (∀ found ∈ walk offset d, offset ≤ found.1) ∧
      (walk offset d).Pairwise fun found later => found.1 + found.2.size ≤ later.1 := by
  fun_induction walk offset d with
  | case1 => simp
  | case2 offset b r p hv ih =>
    obtain ⟨hbehind, hpairwise⟩ := ih
    constructor
    · intro found hfound
      rcases List.mem_cons.mp hfound with rfl | hfound
      · exact Nat.le_refl offset
      · exact Nat.le_trans (Nat.le_add_right _ _) (hbehind found hfound)
    · exact List.pairwise_cons.mpr ⟨hbehind, hpairwise⟩
  | case3 offset b r hv ih =>
    obtain ⟨hbehind, hpairwise⟩ := ih
    exact ⟨fun found hfound => Nat.le_of_succ_le (hbehind found hfound), hpairwise⟩

/-- Where the walk finds a page, one in order is written. -/
theorem slice_of_mem_walk {offset : Nat} {d : Bytes} {found : Nat × Page} (h : found ∈ walk offset d) :
    found.2.Sound ∧ Bytes.slice d (found.1 - offset) found.2.size = found.2.encode := by
  have hbehind := (pairwise_walk offset d).1 found h
  fun_induction walk offset d with
  | case1 => cases h
  | case2 offset b r p hv ih =>
    obtain ⟨hsound, hprefix⟩ := judge_eq_valid_iff.mp hv
    rcases List.mem_cons.mp h with rfl | h
    · refine ⟨hsound, ?_⟩
      rw [Nat.sub_self, Bytes.slice_zero, ← length_encode]
      exact (List.prefix_iff_eq_take.mp hprefix).symm
    · have hlater := (pairwise_walk _ _).1 found h
      obtain ⟨hfound, hslice⟩ := ih h hlater
      refine ⟨hfound, ?_⟩
      rw [← hslice, Bytes.slice, Bytes.slice, List.drop_drop]
      congr 2
      omega
  | case3 offset b r hv ih =>
    have hlater := (pairwise_walk _ _).1 found h
    obtain ⟨hfound, hslice⟩ := ih h hlater
    refine ⟨hfound, ?_⟩
    rw [← hslice, Bytes.slice, Bytes.slice, show found.1 - offset = found.1 - (offset + 1) + 1 by omega,
      List.drop_succ_cons]

/-- The place behind the last of some pages that were found, or `start` if there is none. -/
def endOf : Nat → List (Nat × Page) → Nat
  | start, [] => start
  | _, found :: later => endOf (found.1 + found.2.size) later

/-- Pages that lie one behind the other take no more bytes than there are up to their end. -/
theorem sizes_le_endOf {start : Nat} {found : List (Nat × Page)} (hbehind : ∀ place ∈ found, start ≤ place.1)
    (h : found.Pairwise fun place later => place.1 + place.2.size ≤ later.1) :
    start + sizes (found.map Prod.snd) ≤ endOf start found := by
  induction found generalizing start with
  | nil => exact Nat.le_refl start
  | cons place later ih =>
    obtain ⟨hlater, hpairwise⟩ := List.pairwise_cons.mp h
    have hstart := hbehind place List.mem_cons_self
    have hend := ih hlater hpairwise
    simp only [List.map_cons, sizes, endOf]
    omega

end Page

/-! ### The tail behind the last page -/

/-- The bytes of a byte string from the first torn candidate on that begins at `start` or behind
it are so many; none if there is no such candidate. -/
inductive Trailing (d : Bytes) (start : Nat) : Nat → Prop where
  /-- The first torn candidate begins here. -/
  | torn {place : Nat} (behind : start ≤ place) (torn : Page.BeginsTorn (d.drop place))
      (first : ∀ earlier, start ≤ earlier → earlier < place → ¬ Page.BeginsTorn (d.drop earlier)) :
      Trailing d start (d.length - place)
  /-- No candidate is torn. -/
  | whole (none : ∀ place, start ≤ place → ¬ Page.BeginsTorn (d.drop place)) : Trailing d start 0

namespace Trailing

/-- The bytes say how many are trailing. -/
theorem unique {d : Bytes} {start n m : Nat} (hn : Trailing d start n) (hm : Trailing d start m) : n = m := by
  cases hn with
  | @torn i hi htorn hfirst =>
    cases hm with
    | @torn j hj htorn' hfirst' =>
      rcases Nat.lt_trichotomy i j with hlt | rfl | hlt
      · exact absurd htorn (hfirst' i hi hlt)
      · rfl
      · exact absurd htorn' (hfirst j hj hlt)
    | whole hnone => exact absurd htorn (hnone i hi)
  | whole hnone =>
    cases hm with
    | torn hj htorn => exact absurd htorn (hnone _ hj)
    | whole => rfl

/-- No more bytes are trailing than there are. -/
theorem le {d : Bytes} {start n : Nat} (h : Trailing d start n) : n ≤ d.length - start := by
  cases h with
  | torn hbehind => exact Nat.sub_le_sub_left hbehind d.length
  | whole => exact Nat.zero_le _

/-- What is trailing in the bytes from a place on is trailing behind that place. -/
theorem of_drop {d : Bytes} {start n : Nat} (h : Trailing (d.drop start) 0 n) : Trailing d start n := by
  cases h with
  | @torn place _ htorn hfirst =>
    have hlength : (d.drop start).length - place = d.length - (start + place) := by
      rw [List.length_drop]
      omega
    rw [hlength]
    apply torn (Nat.le_add_right start place)
    · rwa [List.drop_drop] at htorn
    · intro earlier hearlier hlt
      have hno := hfirst (earlier - start) (Nat.zero_le _) (by omega)
      rwa [List.drop_drop, show start + (earlier - start) = earlier by omega] at hno
  | whole hnone =>
    apply whole
    intro place hplace
    have hno := hnone (place - start) (Nat.zero_le _)
    rwa [List.drop_drop, show start + (place - start) = place by omega] at hno

/-- A place at which no candidate is torn may be passed over. -/
theorem of_succ {d : Bytes} {start n : Nat} (hstart : ¬ Page.BeginsTorn (d.drop start))
    (h : Trailing d (start + 1) n) : Trailing d start n := by
  cases h with
  | torn hbehind htorn hfirst =>
    apply torn (by omega) htorn
    intro earlier hearlier hlt
    rcases Nat.eq_or_lt_of_le hearlier with rfl | hearlier
    · exact hstart
    · exact hfirst earlier hearlier hlt
  | whole hnone =>
    apply whole
    intro place hplace
    rcases Nat.eq_or_lt_of_le hplace with rfl | hplace
    · exact hstart
    · exact hnone place hplace

/-- A byte in front at which no candidate is torn changes nothing. -/
theorem cons {b : UInt8} {r : Bytes} {n : Nat} (hb : ¬ Page.BeginsTorn (b :: r)) (h : Trailing r 0 n) :
    Trailing (b :: r) 0 n :=
  of_succ hb (of_drop h)

end Trailing

/-- **What a search of all bytes remembers as torn**, when it finds no page, is the tail from the
first torn candidate on. -/
theorem trailing_of_search_none {d : Bytes} {q : Passed} (h : search ⟨true, true⟩ {} d = (q, none)) :
    Trailing d 0 (q.torn.getD 0) := by
  induction d generalizing q with
  | nil =>
    rw [search, Prod.mk.injEq] at h
    obtain ⟨rfl, -⟩ := h
    apply Trailing.whole
    intro place _ htorn
    rw [List.drop_nil] at htorn
    exact absurd htorn.1 (by decide)
  | cons b r ih =>
    obtain ⟨hstep, -, hpage⟩ | ⟨s, t, hstep, ht, rfl⟩ := search_cons_cases h
    · obtain ⟨page, hv⟩ := Mode.step_resync_eq_none hstep
      rw [hv] at hpage
      cases hpage
    · have htail := ih ht
      obtain ⟨rfl, hv⟩ | ⟨rfl, hv, -⟩ | ⟨rfl, flaw, hv⟩ := Mode.step_cases hstep
      · apply htail.cons
        rw [← Page.judge_eq_incomplete_iff]
        intro hi
        rcases hv with hv | ⟨hv, -⟩ <;> rw [hv] at hi <;> cases hi
      · have htorn := Page.judge_eq_incomplete_iff.mp hv
        apply Trailing.torn (Nat.le_refl 0) htorn
        intro earlier _ hlt
        exact absurd hlt (Nat.not_lt_zero earlier)
      · apply htail.cons
        rw [← Page.judge_eq_incomplete_iff, hv]
        intro hi
        cases hi

namespace Framer

/-- **What was skipped and the pages make up the bytes.** -/
theorem skipped_outcome {f : Framer} (hmode : f.mode = ⟨true, true⟩) :
    f.outcome.2.2.stats.skipped + Page.sizes (f.outcome.1.map Prod.snd) = f.stats.skipped + f.live.length := by
  induction f using drain_induction with
  | page f g page hf ih =>
    obtain ⟨q, hs, rfl⟩ := search_of_next_page hf
    have hle := size_le_of_search_page hs
    have hrest : _ = f.stats.skipped + q.skipped + ((f.pass q).take page).live.length := ih hmode
    rw [live_take, live_pass, List.drop_drop, List.length_drop] at hrest
    rw [outcome_of_next_page hf, List.map_cons]
    show ((f.pass q).take page).outcome.2.2.stats.skipped +
      (page.size + Page.sizes (((f.pass q).take page).outcome.1.map Prod.snd)) = _
    omega
  | rest f g last hf hno =>
    obtain ⟨q, hs, -, rfl⟩ := search_of_next_rest hf hno
    rw [outcome_of_next_rest hf hno]
    rw [hmode] at hs
    rw [← skipped_of_search_none hs]
    rfl

/-- The answer of a search of all bytes that found no page is what it remembers as torn. -/
theorem trailingOf_answer {f : Framer} {q : Passed} (hs : search ⟨true, true⟩ {} f.live = (q, none)) :
    Scan.trailingOf 0 ((f.pass q).answer q.torn) = q.torn.getD 0 := by
  cases hq : q.torn with
  | some left => rfl
  | none =>
    -- the search went to the end, so nothing is left to be torn
    rw [answer, live_pass, skipped_of_search_none hs, List.drop_length]
    simp [Scan.trailingOf]

/-- **What a framer reports as torn is the tail behind the last page.** -/
theorem trailing_outcome {f : Framer} (hmode : f.mode = ⟨true, true⟩) :
    f.position ≤ Page.endOf f.position f.outcome.1 ∧
      Trailing (f.live.drop (Page.endOf f.position f.outcome.1 - f.position)) 0
        (Scan.trailingOf 0 f.outcome.2.1) := by
  induction f using drain_induction with
  | page f g page hf ih =>
    have hg : g.mode = f.mode := by rw [← f.mode_next, hf]
    obtain ⟨hend, htail⟩ := ih (hg.trans hmode)
    obtain ⟨q, hs, rfl⟩ := search_of_next_page hf
    have hposition : ((f.pass q).take page).position = f.position + q.skipped + page.size := rfl
    rw [live_take, live_pass, List.drop_drop, List.drop_drop] at htail
    rw [outcome_of_next_page hf]
    simp only [Page.endOf]
    rw [Nat.sub_add_cancel (by omega)]
    generalize Page.endOf ((f.pass q).take page).position ((f.pass q).take page).outcome.1 = last at hend htail ⊢
    refine ⟨by omega, ?_⟩
    rwa [show q.skipped + (page.size + (last - ((f.pass q).take page).position)) = last - f.position by omega]
      at htail
  | rest f g last hf hno =>
    obtain ⟨q, hs, rfl, rfl⟩ := search_of_next_rest hf hno
    rw [hmode] at hs
    rw [outcome_of_next_rest hf hno, trailingOf_answer hs]
    refine ⟨Nat.le_refl _, ?_⟩
    rw [Page.endOf, Nat.sub_self, List.drop_zero]
    exact trailing_of_search_none hs

end Framer

namespace Scan

/-! ### The counts -/

/-- The bytes that a page of the log takes. -/
def Entry.size (e : Entry) : Nat := headerSize + e.segments + e.bodyLength

/-- The place behind a page of the log. -/
def Entry.ends (e : Entry) : Nat := e.offset + e.size

/-- The place behind the last page of a log; the beginning if there is no page. -/
def endOfLog (log : List Entry) : Nat := (log.getLast?.map Entry.ends).getD 0

/-- The pages of a log take as many bytes as those that were found. -/
theorem sum_size_entries (found : List (Nat × Page)) :
    ((entries found).map Entry.size).sum = Page.sizes (found.map Prod.snd) := by
  induction found with
  | nil => rfl
  | cons place later ih =>
    rw [List.map_cons, Page.sizes, ← ih]
    rfl

/-- A log ends where the pages that were found end. -/
theorem endOfLog_entries (found : List (Nat × Page)) : endOfLog (entries found) = Page.endOf 0 found := by
  suffices h : ∀ start, ((entries found).getLast?.map Entry.ends).getD start = Page.endOf start found from h 0
  induction found with
  | nil => intro start; rfl
  | cons place later ih =>
    intro start
    have hlog : entries (place :: later) = Entry.ofPage place.1 place.2 :: entries later := rfl
    rw [hlog, List.getLast?_cons, Page.endOf, ← ih]
    cases (entries later).getLast? <;> rfl

/-- What a scan of all bytes skips and the pages of the walk make up the bytes. -/
theorem skipped_complete (d : Bytes) :
    (Framer.complete { mode := { resync := true } } d).2.2.stats.skipped + Page.sizes ((Page.walk 0 d).map Prod.snd) =
      d.length := by
  have h := Framer.skipped_outcome (f := Framer.whole { mode := { resync := true } } d) rfl
  rw [Framer.live_whole, show Framer.live { mode := { resync := true } } = [] from rfl, List.nil_append] at h
  rw [← pages_complete]
  exact h.trans (Nat.zero_add _)

/-- What a scan of all bytes counts as trailing is the tail behind the last page of the walk. -/
theorem trailing_complete (d : Bytes) :
    Trailing d (Page.endOf 0 (Page.walk 0 d))
      (trailingOf 0 (Framer.complete { mode := { resync := true } } d).2.1) := by
  obtain ⟨-, htail⟩ := Framer.trailing_outcome (f := Framer.whole { mode := { resync := true } } d) rfl
  rw [Framer.live_whole] at htail
  rw [← pages_complete]
  exact htail.of_drop

/-- What a scan of all bytes counts as trailing it has skipped. -/
theorem trailing_le_skipped (d : Bytes) :
    trailingOf 0 (Framer.complete { mode := { resync := true } } d).2.1 ≤
      (Framer.complete { mode := { resync := true } } d).2.2.stats.skipped := by
  obtain ⟨hbehind, hpairwise⟩ := Page.pairwise_walk 0 d
  have hsizes := Page.sizes_le_endOf hbehind hpairwise
  have hall := skipped_complete d
  have hle := (trailing_complete d).le
  omega

/-- A scan of a byte string accounts for every byte once. -/
structure Accounts (d : Bytes) (s : Scanner) : Prop where
  /-- All bytes were read. -/
  scanned : s.report.scanned = d.length
  /-- The pages of the log, the skipped bytes and the trailing ones make up all bytes. -/
  sum : (s.report.log.map Entry.size).sum + s.report.skipped + s.report.trailing = s.report.scanned
  /-- The pages of the log lie one behind the other. -/
  disjoint : s.report.log.Pairwise fun e later => e.ends ≤ later.offset
  /-- Where the log has a page, one in order is written. -/
  written : ∀ e ∈ s.report.log, e.ends ≤ d.length ∧
    ∃ page : Page, page.Sound ∧ e = Entry.ofPage e.offset page ∧ Bytes.slice d e.offset e.size = page.encode
  /-- The trailing bytes are the tail from the first torn candidate behind the log on. -/
  trailing : ∀ n, Trailing d (endOfLog s.report.log) n ↔ n = s.report.trailing
  /-- There are as many skipped bytes as the trailing ones that are taken off. -/
  clips : s.trailing ≤ s.framer.stats.skipped
  /-- There are as many bytes as those in no page that the share of pages takes off. -/
  share : s.report.skipped ≤ s.report.scanned ∧ s.report.trailing ≤ s.report.scanned - s.report.skipped

theorem accounts_afterWhole (d : Bytes) : Accounts d (afterWhole d) := by
  have hlog : (afterWhole d).report.log = entries (Page.walk 0 d) := (wholeReport_eq_walk d).1
  have hclips := trailing_le_skipped d
  have hskipped := skipped_complete d
  have hsum : ((afterWhole d).report.log.map Entry.size).sum + (afterWhole d).report.skipped
      + (afterWhole d).report.trailing = d.length := by
    rw [hlog, sum_size_entries]
    show Page.sizes ((Page.walk 0 d).map Prod.snd)
      + ((Framer.complete { mode := { resync := true } } d).2.2.stats.skipped
        - trailingOf 0 (Framer.complete { mode := { resync := true } } d).2.1)
      + trailingOf 0 (Framer.complete { mode := { resync := true } } d).2.1 = d.length
    omega
  have hscanned : (afterWhole d).report.scanned = d.length := rfl
  refine ⟨hscanned, hsum, ?_, ?_, ?_, hclips, by omega⟩
  · rw [hlog, entries, List.pairwise_map]
    exact (Page.pairwise_walk 0 d).2
  · intro e he
    rw [hlog, entries, List.mem_map] at he
    obtain ⟨found, hfound, rfl⟩ := he
    obtain ⟨hsound, hslice⟩ := Page.slice_of_mem_walk hfound
    rw [Nat.sub_zero] at hslice
    refine ⟨?_, found.2, hsound, rfl, hslice⟩
    have hlength := congrArg List.length hslice
    rw [Bytes.slice, List.length_take, List.length_drop, Page.length_encode] at hlength
    have hpos := found.2.size_pos
    show found.1 + found.2.size ≤ d.length
    omega
  · intro n
    rw [hlog, endOfLog_entries]
    constructor
    · intro hn
      exact hn.unique (trailing_complete d)
    · rintro rfl
      exact trailing_complete d

/-- Storage is of no account. -/
theorem Accounts.of_bare {d : Bytes} {s : Scanner} (h : Accounts d s.bare) : Accounts d s :=
  ⟨h.scanned, h.sum, h.disjoint, h.written, h.trailing, h.clips, h.share⟩

/-- **A scan accounts for every byte once**, whatever the size of the chunks and however the
reads are cut. -/
theorem scan_accounts {device : Device} (hd : device.Sound) (wanted : Nat) :
    ∃ s, ((Scanner.start (chunkSize wanted)).run (chunkSize wanted) [] device).2 = .ok s ∧
      (scan device wanted).report = .ok s.report ∧ Accounts device.ahead s := by
  obtain ⟨s, hrun, hs⟩ := run_eq_afterWhole hd wanted
  refine ⟨s, hrun, ?_, ?_⟩
  · rw [report_scan, hrun]
    rfl
  · apply Accounts.of_bare
    rw [hs]
    exact accounts_afterWhole device.ahead

/-- A device with a page behind a stray byte, then the first bytes of two other pages. It gives
out eleven bytes at a time, and is interrupted once. -/
def tornDevice : Device where
  data := 0x55 :: (Page.sealed ⟨2⟩ 9 0 0 [3] [1, 2, 3]).encode
    ++ (Page.sealed ⟨0⟩ 9 1 0 [40] (List.replicate 40 0)).encode.take 30
    ++ (Page.sealed ⟨4⟩ 9 2 0 [1] [7]).encode.take 20
  faults := [⟨3, .interrupted⟩]
  pace := fun _ => 11

theorem accounts_torn : tornDevice.Sound ∧
    ∃ s, ((Scanner.start (chunkSize 8)).run (chunkSize 8) [] tornDevice).2 = .ok s ∧
      Accounts tornDevice.ahead s ∧ s.report.scanned = 82 ∧ s.report.skipped = 1 ∧ s.report.trailing = 50 := by
  have hsound : tornDevice.Sound := by decide
  obtain ⟨s, hrun, hreport, h⟩ := scan_accounts hsound 8
  have hcounts : (scan tornDevice 8).report.toOption.map (fun r => (r.scanned, r.skipped, r.trailing))
      = some (82, 1, 50) := by decide +kernel
  rw [hreport] at hcounts
  simp only [Except.toOption, Option.map_some, Option.some.injEq, Prod.mk.injEq] at hcounts
  exact ⟨hsound, s, hrun, h, hcounts⟩

end Scan

end Ogg
