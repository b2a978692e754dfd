import Ogg.Proofs.Buffer.Queue
import Ogg.Proofs.Framer.Completion
import Ogg.Proofs.Page.Torn
import Ogg.Proofs.Scan.Whole

/-!
# The storage of a scan

A scan has storage for a chunk and the largest page, and asks for room for a chunk before each of
its reads. It needs no more: a search that finds no page comes to rest at most on a candidate that
goes on past the bytes at hand, and such a candidate is shorter than the largest page. So what waits
when room is asked for leaves a chunk of the storage free, whatever the bytes are and however they
are read, and the storage never grows.

The scans for which room is asked are its `rounds`, one for each read. What holds of the first and
is kept from one to the next holds of all (`Roomy`).

## Main statements

* `Page.size_le_maxPageSize`, `Page.length_lt_of_incomplete`: no page, and no candidate that goes on
  past the bytes, is larger than the largest page.
* `Framer.length_live_drain_lt`: what waits when all pages at hand were yielded.
* `Scanner.run_eq_rounds`: a scan is its rounds, and then the searches at the end.
* `rounds_bounded`: fewer bytes wait than the largest page has, so the storage never grows.
-/

namespace Ogg

/-! ### The largest page -/

theorem lacingSum_le (lacing : Bytes) : lacingSum lacing ≤ lacing.length * 255 := by
  induction lacing with
  | nil => exact Nat.le_refl 0
  | cons l rest ih =>
    have hl := UInt8.toNat_lt l
    rw [lacingSum, List.length_cons]
    omega

namespace Page

/-- No candidate lays claim to more bytes than the largest page has. -/
theorem claimedSize_le_maxPageSize (d : Bytes) : claimedSize d ≤ maxPageSize := by
  have hcount := UInt8.toNat_lt (d.getD 26 0)
  have hlength : (Bytes.slice d headerSize (d.getD 26 0).toNat).length ≤ (d.getD 26 0).toNat := List.length_take_le _ _
  have hsum := lacingSum_le (Bytes.slice d headerSize (d.getD 26 0).toNat)
  unfold claimedSize maxPageSize
  omega

/-- **A candidate that goes on past the bytes** leaves fewer of them than the largest page has. -/
theorem length_lt_of_incomplete {d : Bytes} (h : judge d = .incomplete) : d.length < maxPageSize := by
  obtain ⟨-, hheader | ⟨-, hclaimed⟩⟩ := judge_eq_incomplete_iff.mp h
  · exact Nat.lt_of_lt_of_le hheader (by decide)
  · exact Nat.lt_of_lt_of_le hclaimed (claimedSize_le_maxPageSize d)

/-- **What is judged a page** is no larger than the largest page. -/
theorem size_le_maxPageSize {d : Bytes} {p : Page} (h : judge d = .valid p) : p.size ≤ maxPageSize := by
  obtain ⟨hp, -⟩ := judge_eq_valid_iff.mp h
  have hcount := hp.count
  have hwhole : p.body.length = lacingSum p.header.lacing := hp.whole
  have hsum := lacingSum_le p.header.lacing
  unfold size Header.encodedLength maxPageSize
  omega

end Page

/-! ### What a search leaves -/

/-- A search that finds no page rests at the end of the bytes, or where they are too few to tell. -/
theorem judge_of_search_none {mode : Mode} {d : Bytes} {q : Passed} (h : search mode {} d = (q, none)) :
    d.drop q.skipped = [] ∨ Page.judge (d.drop q.skipped) = .partialCapture ∨
      Page.judge (d.drop q.skipped) = .incomplete := by
  induction d generalizing q with
  | nil => exact Or.inl List.drop_nil
  | cons b r ih =>
    obtain ⟨hstep, rfl, hpage⟩ | ⟨s, t, hstep, ht, rfl⟩ := search_cons_cases h
    · right
      rw [List.drop_zero]
      cases hv : Page.judge (b :: r) with
      | partialCapture => exact Or.inl rfl
      | incomplete => exact Or.inr rfl
      | foreign | spurious flaw =>
        rw [hv] at hstep
        cases hstep
      | valid page =>
        rw [hv] at hpage
        cases hpage
    · rw [Passed.andThen, Mode.skipped_of_step hstep, Nat.add_comm, List.drop_succ_cons]
      exact ih ht

namespace Framer

/-- The size of a page that a search yields. -/
theorem size_of_next_page {f g : Framer} {page : Page} (h : f.next = (.page page, g)) :
    headerSize ≤ page.size ∧ page.size ≤ maxPageSize := by
  obtain ⟨q, hs, -⟩ := search_of_next_page h
  exact ⟨page.headerSize_le_size, Page.size_le_maxPageSize (judge_of_search_page hs)⟩

/-- What waits after a search that yields no page. -/
theorem length_live_of_next_rest {f g : Framer} {last : Pull} (h : f.next = (last, g))
    (hno : ∀ page, last ≠ .page page) : g.live.length < maxPageSize := by
  obtain ⟨q, hs, -, rfl⟩ := search_of_next_rest h hno
  rw [live_pass]
  rcases judge_of_search_none hs with hnil | hpart | hshort
  · rw [hnil]
    decide
  · obtain ⟨-, hlt⟩ := Page.length_lt_of_partialCapture hpart
    exact Nat.lt_trans hlt (by decide)
  · exact Page.length_lt_of_incomplete hshort

/-- **What waits when all pages at hand were yielded** is less than the largest page. -/
theorem length_live_drain_lt (f : Framer) : f.drain.2.2.live.length < maxPageSize := by
  induction f using drain_induction with
  | page f g page hf ih => rwa [drain_of_next_page hf]
  | rest f g last hf hno =>
    rw [drain_of_next_rest hf hno]
    exact length_live_of_next_rest hf hno

theorem capacity_next (f : Framer) : f.next.2.buffer.capacity = f.buffer.capacity := by
  rcases hs : search f.mode {} f.live with ⟨q, _ | page⟩
  · rw [next_of_search_none hs]
    exact Buffer.capacity_discard _ _
  · rw [next_of_search_page hs]
    exact (Buffer.capacity_discard _ _).trans (Buffer.capacity_discard _ _)

/-- Searches leave the size of the storage as it was. -/
theorem capacity_drain (f : Framer) : f.drain.2.2.buffer.capacity = f.buffer.capacity := by
  induction f using drain_induction with
  | page f g page hf ih => rw [drain_of_next_page hf, ih, ← f.capacity_next, hf]
  | rest f g last hf hno => rw [drain_of_next_rest hf hno, ← f.capacity_next, hf]

end Framer

/-! ### Making room -/

namespace Buffer

/-- Bytes that are read into the room made for them leave the size of the storage as it is. -/
theorem capacity_commit_fill (b : Buffer) {n : Nat} {d : Bytes} (h : d.length ≤ n) :
    (((b.reserve n).fill d).commit d.length).capacity = (b.reserve n).capacity := by
  rw [capacity_commit, capacity_fill (Nat.le_trans h (le_length_slack_reserve b n))]

end Buffer

namespace Device

/-- A read gives no more than was asked for, however often it was interrupted. -/
theorem length_readSome_le {d e : Device} {n : Nat} {bytes : Bytes} (h : d.readSome n = (.ok bytes, e)) :
    bytes.length ≤ n := by
  fun_induction readSome d n with
  | case1 d e' hread ih => exact ih h
  | case2 d hread => exact (behind_of_read_ok h).2

end Device

/-! ### The rounds of a scan -/

namespace Scan

namespace Scanner

/-- The scans for which room for a chunk is asked, one for each read of the device. -/
def rounds (chunk : Nat) (s : Scanner) (d : Device) : List Scanner :=
  match _h : d.readSome chunk with
  | (.ok (b :: bytes), e) => s :: rounds chunk ((s.reserve chunk).receive (b :: bytes)).settle e
  | _ => [s]
termination_by d.remaining
decreasing_by
  have := Device.remaining_readSome _h
  simp only [List.length_cons] at this
  omega

section Rounds

variable {chunk : Nat} {s : Scanner} {d e : Device}

theorem rounds_of_read {b : UInt8} {bytes : Bytes} (h : d.readSome chunk = (.ok (b :: bytes), e)) :
    s.rounds chunk d = s :: rounds chunk ((s.reserve chunk).receive (b :: bytes)).settle e := by
  rw [rounds]
  split
  · next h' =>
    rw [h] at h'
    cases h'
    rfl
  · next hno => exact absurd h (hno b bytes e)

theorem rounds_of_end (h : ∀ b bytes e, d.readSome chunk ≠ (.ok (b :: bytes), e)) : s.rounds chunk d = [s] := by
  rw [rounds]
  split
  · next h' => exact absurd h' (h _ _ _)
  · rfl

end Rounds

/-- **A scan is its rounds**: it tells the counts of bytes of the rounds behind the first, and ends
with them when a read fails; when a read gives nothing, it tells the last count once more and makes
the searches at the end of the input. -/
theorem run_eq_rounds (chunk : Nat) (progress : List Nat) (s : Scanner) (d : Device) :
    ∃ later last, s.rounds chunk d = s :: later ∧ (s :: later).getLast? = some last ∧
      ((∃ e, s.run chunk progress d = (progress.reverse ++ later.map (·.scanned), .error e)) ∨
        s.run chunk progress d =
          (progress.reverse ++ later.map (·.scanned) ++ [last.scanned], .ok (last.reserve chunk).finish.settle)) := by
  fun_induction run chunk progress s d with
  | case1 progress s d x e hread =>
    refine ⟨[], s, rounds_of_end fun b bytes e' h => ?_, rfl, Or.inl ⟨x, ?_⟩⟩
    · rw [hread] at h
      cases h
    · rw [List.map_nil, List.append_nil]
  | case2 progress s d e hread =>
    refine ⟨[], s, rounds_of_end fun b bytes e' h => ?_, rfl, Or.inr ?_⟩
    · rw [hread] at h
      cases h
    · rw [List.map_nil, List.append_nil, List.reverse_cons]
  | case3 progress s d b bytes e hread t ih =>
    obtain ⟨later, last, hrounds, hlast, hrun⟩ := ih
    have htold : (t.scanned :: progress).reverse ++ later.map (·.scanned) =
        progress.reverse ++ (t :: later).map (·.scanned) := by
      rw [List.reverse_cons, List.append_assoc, List.map_cons, List.singleton_append]
    rw [htold] at hrun
    refine ⟨t :: later, last, ?_, ?_, hrun⟩
    · rw [rounds_of_read hread, hrounds]
    · rw [List.getLast?_cons_cons, hlast]

/-- A scan has storage for a chunk and the largest page, and less waits in it than the largest page. -/
structure Roomy (chunk : Nat) (s : Scanner) : Prop where
  /-- Less waits than the largest page. -/
  waiting : s.framer.live.length < maxPageSize
  /-- The storage is large enough for a chunk and the largest page, and no larger. -/
  capacity : s.framer.buffer.capacity = chunk + maxPageSize

namespace Roomy

variable {chunk : Nat} {s : Scanner}

theorem start (chunk : Nat) : Roomy chunk (Scanner.start chunk) := by
  refine ⟨show ([] : Bytes).length < maxPageSize by decide, ?_⟩
  show 0 + 0 + (List.replicate (chunk + maxPageSize) (0 : UInt8)).length = _
  rw [List.length_replicate, Nat.add_zero, Nat.zero_add]

/-- Room for a chunk is there. -/
theorem capacity_reserve (h : Roomy chunk s) : (s.reserve chunk).framer.buffer.capacity = chunk + maxPageSize := by
  have hwaiting : s.framer.buffer.live.length < maxPageSize := h.waiting
  show (s.framer.buffer.reserve chunk).capacity = _
  rw [Buffer.capacity_reserve, h.capacity]
  omega

/-- Searches leave a scan with room. -/
theorem settle (h : s.framer.buffer.capacity = chunk + maxPageSize) : Roomy chunk s.settle := by
  have hsettle : s.settle.framer = s.framer.drain.2.2 := by
    rw [settle_eq_conclude]
    rfl
  refine ⟨?_, ?_⟩
  · rw [hsettle]
    exact s.framer.length_live_drain_lt
  · rw [hsettle, Framer.capacity_drain, h]

/-- **From one round to the next.** -/
theorem next (h : Roomy chunk s) {bytes : Bytes} (hle : bytes.length ≤ chunk) :
    Roomy chunk ((s.reserve chunk).receive bytes).settle := by
  apply settle
  rw [← h.capacity_reserve]
  exact Buffer.capacity_commit_fill s.framer.buffer hle

/-- **All rounds have room**, if the first has. -/
theorem rounds (h : Roomy chunk s) (d : Device) : ∀ t ∈ s.rounds chunk d, Roomy chunk t := by
  fun_induction Scanner.rounds chunk s d with
  | case1 s d b bytes e hread ih =>
    intro t ht
    rcases List.mem_cons.mp ht with rfl | ht
    · exact h
    · exact ih (h.next (Device.length_readSome_le hread)) t ht
  | case2 s d hno =>
    intro t ht
    obtain rfl := List.mem_singleton.mp ht
    exact h

end Roomy

end Scanner

/-- **The storage of a scan never grows**, whatever the device holds, however it cuts, interrupts or
fails the reads, and whatever the size of the chunks. Each time that room for a chunk is asked for,
fewer bytes wait than the largest page has, and the storage has the size that it had at first, a
chunk and the largest page; it has it when room was made, and when the scan has ended. And no
search, in a scan or elsewhere, yields a page smaller than a header or larger than the largest page. -/
theorem rounds_bounded (d : Device) (wanted : Nat) :
    let chunk := max wanted headerSize
    let rounds := (Scanner.start chunk).rounds chunk d
    (∀ s ∈ rounds, s.framer.live.length < maxPageSize ∧ s.framer.buffer.capacity = chunk + maxPageSize ∧
        (s.reserve chunk).framer.buffer.capacity = chunk + maxPageSize) ∧
      (∀ report, (scan d wanted).report = .ok report → ∃ last t, rounds.getLast? = some last ∧
        t = (last.reserve chunk).finish.settle ∧ t.report = report ∧
        t.framer.buffer.capacity = chunk + maxPageSize) ∧
      ∀ (f g : Framer) (page : Page), f.next = (.page page, g) → headerSize ≤ page.size ∧ page.size ≤ maxPageSize := by
  intro chunk rounds
  have hroomy : ∀ s ∈ rounds, Scanner.Roomy chunk s := (Scanner.Roomy.start chunk).rounds d
  refine ⟨fun s hs => ?_, fun report hreport => ?_, fun f g page h => Framer.size_of_next_page h⟩
  · have h := hroomy s hs
    exact ⟨h.waiting, h.capacity, h.capacity_reserve⟩
  · obtain ⟨later, last, hrounds, hlast, ⟨e, hrun⟩ | hrun⟩ := Scanner.run_eq_rounds chunk [] (Scanner.start chunk) d
    · rw [report_scan, chunkSize, hrun] at hreport
      cases hreport
    · rw [report_scan, chunkSize, hrun] at hreport
      rw [← hrounds] at hlast
      refine ⟨last, _, hlast, rfl, Except.ok.inj hreport, ?_⟩
      have hmem : last ∈ rounds := List.mem_of_getLast? hlast
      have hcapacity : (last.reserve chunk).finish.framer.buffer.capacity = chunk + maxPageSize :=
        (hroomy last hmem).capacity_reserve
      exact (Scanner.Roomy.settle hcapacity).capacity

/-- A device with the beginning of a page of the largest size. It gives out twenty bytes at a time,
is interrupted once, and breaks within the lacing values. -/
def hugeTorn : Device where
  data := (Page.sealed ⟨2⟩ 9 0 0 (List.replicate 255 255) []).encode
  faults := [⟨9, .interrupted⟩, ⟨70, .broken⟩]
  pace := fun _ => 20

theorem rounds_bounded_hugeTorn :
    ∃ s ∈ (Scanner.start (max 1 headerSize)).rounds (max 1 headerSize) hugeTorn, s.framer.live.length = 70 ∧
      s.framer.buffer.capacity = max 1 headerSize + maxPageSize ∧
      (s.reserve (max 1 headerSize)).framer.buffer.capacity = max 1 headerSize + maxPageSize := by
  have hwaits : ((Scanner.start (max 1 headerSize)).rounds (max 1 headerSize) hugeTorn).map (·.framer.live.length) =
      [0, 9, 29, 49, 69, 70] := by decide +kernel
  have hmem : 70 ∈ ((Scanner.start (max 1 headerSize)).rounds (max 1 headerSize) hugeTorn).map (·.framer.live.length) := by
    rw [hwaits]
    decide
  obtain ⟨s, hs, hlength⟩ := List.mem_map.mp hmem
  obtain ⟨-, hcapacity, hreserve⟩ := (rounds_bounded hugeTorn 1).1 s hs
  exact ⟨s, hs, hlength, hcapacity, hreserve⟩

end Scan

end Ogg
