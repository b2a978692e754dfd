import Ogg.Proofs.Stream.Run

/-!
# The packets of a stream are its runs

A stream takes its pages one by one and knows the packet that is open and the number of
the latest page. This module ties its packets to the runs of its pages: whatever pages
come, be they lost, repeated or out of order, the packets are the runs, each once and in
order.

The invariant is about what is still to come (`emissions_eq_runs`): from any state on, a
stream gives the end of its open packet, if the pages ahead resume it, and then the runs
that begin in the pages ahead.

## Main statements

* `joinFragments_eq_runsIn`, `joinFragments_tail_eq_runsIn`: one page, with the packet
  that it resumes and without its head.
* `Tracker.exists_added`: what a page adds does not depend on the packets that wait.
* `Tracker.packets_eq_runs`: the packets of a tracker are the runs of the pages of its stream.
-/

namespace Ogg

/-! ### The fragments of one page -/

/-- What an open packet comes to when segments run on from it: the place of the page on
which it ends, and its bytes. -/
def resume (i : Nat) (page : Page) (later : List Page) (segs : List Segment) (pending : Option Bytes) :
    Option (Nat × Bytes) :=
  pending.bind fun data => (follow i page later segs).map fun e => (e.1, data ++ e.2)

/-- The place of the page on which a run ends, and its bytes. -/
def Run.ending (r : Run) : Nat × Bytes := (r.last, r.data)

section OnePage

variable (i : Nat) (page : Page) (later : List Page)

theorem resume_none (segs : List Segment) : resume i page later segs none = none := rfl

theorem resume_of_ends {s : Segment} (h : s.ends = true) (rest : List Segment) (data : Bytes) :
    resume i page later (s :: rest) (some data) = some (i, data ++ s.data) := by
  rw [resume, Option.bind_some, follow_of_ends h, Option.map_some]

theorem resume_of_goesOn {s : Segment} (h : s.ends = false) (rest : List Segment) (data : Bytes) :
    resume i page later (s :: rest) (some data) = resume i page later rest (some (data ++ s.data)) := by
  simp only [resume, Option.bind_some, follow_of_goesOn h, Option.map_map, Function.comp_def, List.append_assoc]

/-- A run that begins with a segment is an empty packet that the segment resumes. -/
theorem follow_eq_resume (segs : List Segment) :
    follow i page later segs = resume i page later segs (some []) := by
  rw [resume, Option.bind_some]
  simp

theorem runsIn_fresh (k : Nat) (s : Segment) (rest : List Segment) :
    (runsIn i page later k true (s :: rest)).map Run.ending =
      (resume i page later (s :: rest) (some [])).toList
        ++ (runsIn i page later (k + 1) s.ends rest).map Run.ending := by
  rw [runsIn, if_pos rfl, List.map_append, List.map_map, ← follow_eq_resume]
  congr 1
  exact List.map_id _

theorem runsIn_not_fresh (k : Nat) (s : Segment) (rest : List Segment) :
    runsIn i page later k false (s :: rest) = runsIn i page later (k + 1) s.ends rest := by
  rw [runsIn, if_neg Bool.false_ne_true, List.nil_append]

/-- **The packets of one page.** What ends on it, and what its open packet comes to, are
what the packet open before comes to and the runs that begin on it. -/
theorem joinFragments_eq_runsIn (k : Nat) (pending : Option Bytes) (lacing body : Bytes) :
    (joinFragments pending (fragments lacing body)).1.map (fun data => (i, data))
        ++ (resume i page later [] (joinFragments pending (fragments lacing body)).2).toList
      = (resume i page later (segments lacing body) pending).toList
        ++ (runsIn i page later k pending.isNone (segments lacing body)).map Run.ending := by
  induction lacing generalizing k pending body with
  | nil => simp [fragments, joinFragments, segments, runsIn]
  | cons l rest ih =>
    rw [segments]
    by_cases h : l < continueLacing
    · have hs : Segment.ends ⟨l, body.take l.toNat⟩ = true := by simpa [Segment.ends] using h
      have ih := ih (k + 1) none (body.drop l.toNat)
      rw [resume_none, Option.toList_none, List.nil_append, Option.isNone_none] at ih
      rw [joinFragments_of_ends h, List.map_cons, List.cons_append, ih]
      cases pending with
      | none =>
        rw [resume_none, Option.isNone_none, runsIn_fresh, resume_of_ends _ _ _ hs, hs]
        rfl
      | some data =>
        rw [Option.isNone_some, runsIn_not_fresh, resume_of_ends _ _ _ hs, hs]
        rfl
    · have hs : Segment.ends ⟨l, body.take l.toNat⟩ = false := by simpa [Segment.ends] using h
      have ih := ih (k + 1) (some (pending.getD [] ++ body.take l.toNat)) (body.drop l.toNat)
      rw [Option.isNone_some] at ih
      rw [joinFragments_of_goesOn h, ih]
      cases pending with
      | none =>
        rw [resume_none, Option.isNone_none, runsIn_fresh, resume_of_goesOn _ _ _ hs, hs]
        rfl
      | some data =>
        rw [Option.isNone_some, runsIn_not_fresh, resume_of_goesOn _ _ _ hs, hs]
        rfl

/-- **The packets of one page without their head**: the runs that begin on it behind the
first segment that ends a packet. -/
theorem joinFragments_tail_eq_runsIn (k : Nat) (lacing body : Bytes) :
    (joinFragments none (fragments lacing body).tail).1.map (fun data => (i, data))
        ++ (resume i page later [] (joinFragments none (fragments lacing body).tail).2).toList
      = (runsIn i page later k false (segments lacing body)).map Run.ending := by
  induction lacing generalizing k body with
  | nil => simp [fragments, joinFragments, segments, runsIn, resume_none]
  | cons l rest ih =>
    rw [segments, runsIn_not_fresh]
    by_cases h : l < continueLacing
    · have hs : Segment.ends ⟨l, body.take l.toNat⟩ = true := by simpa [Segment.ends] using h
      rw [tail_fragments_of_ends h, joinFragments_eq_runsIn i page later (k + 1), resume_none, hs]
      rfl
    · have hs : Segment.ends ⟨l, body.take l.toNat⟩ = false := by simpa [Segment.ends] using h
      rw [tail_fragments_of_goesOn h, ih (k + 1), hs]

end OnePage

/-! ### The pages of one stream -/

namespace LogicalStream

/-- The packets that a stream gives with some pages, the first of them at place `i`; with
each packet the place of the page on which it ends. -/
def emissions (s : LogicalStream) (i : Nat) : List Page → List (Nat × Packet)
  | [] => []
  | page :: later => (s.accept page).1.map (fun packet => (i, packet)) ++ (s.accept page).2.emissions (i + 1) later

/-- What the open packet of a stream comes to with some pages, the first of them at place `i`. -/
def resumed (s : LogicalStream) (i : Nat) : List Page → Option (Nat × Bytes)
  | [] => none
  | page :: later => resume i page later page.segments (s.carried page)

theorem accept_fst (s : LogicalStream) (page : Page) : (s.accept page).1 = s.label page (s.completed page).1 := rfl

theorem bos_accept (s : LogicalStream) (page : Page) : (s.accept page).2.bos = (s.bos || page.bos) := rfl

theorem packets_accept (s : LogicalStream) (page : Page) :
    (s.accept page).2.packets = s.packets + (s.completed page).1.length := rfl

theorem data_label (s : LogicalStream) (page : Page) (done : List Bytes) :
    (s.label page done).map Packet.data = done := by
  refine List.ext_getElem? fun i => ?_
  rw [label, List.getElem?_map, List.getElem?_mapIdx, Option.map_map]
  exact Option.map_id_apply

theorem carried_accept (s : LogicalStream) (page next : Page) :
    (s.accept page).2.carried next = if next.resumes page then (s.completed page).2 else none := by
  show (if next.sequence != page.sequence + 1 || !next.continued then none else _) = _
  rw [Page.resumes, bne, ← Bool.not_and, Bool.and_comm]
  cases next.continued && next.sequence == page.sequence + 1 <;> rfl

/-- What is left open behind a page runs on from its end. -/
theorem resumed_accept (s : LogicalStream) (i : Nat) (page : Page) (later : List Page) :
    (s.completed page).1.map (fun data => (i, data)) ++ ((s.accept page).2.resumed (i + 1) later).toList =
      (joinFragments (s.carried page) (s.usable page)).1.map (fun data => (i, data))
        ++ (resume i page later [] (joinFragments (s.carried page) (s.usable page)).2).toList := by
  rcases hj : joinFragments (s.carried page) (s.usable page) with ⟨done, left⟩
  cases heos : page.eos with
  | true =>
    have hcompleted : s.completed page = (done ++ left.toList, none) := by
      rw [completed, hj]
      exact if_pos heos
    have hresumed : (s.accept page).2.resumed (i + 1) later = none := by
      cases later with
      | nil => rfl
      | cons next later =>
        rw [resumed, carried_accept, hcompleted, ite_self]
        rfl
    rw [hresumed, hcompleted, resume, follow_nil_of_eos heos]
    cases left <;> simp
  | false =>
    have hcompleted : s.completed page = (done, left) := by
      rw [completed, hj]
      exact if_neg (by simp [heos])
    rw [hcompleted]
    congr 2
    cases later with
    | nil => rw [resumed, resume, follow_nil_nil heos]; cases left <;> rfl
    | cons next later =>
      rw [resumed, carried_accept, hcompleted]
      simp only [resume, follow_nil_cons heos]
      split
      · rfl
      · cases left <;> rfl

/-- **One page of a stream**: the packets that end on it, and what is left open, are what
was open before and the runs that begin on it. -/
theorem completed_eq_runsIn (s : LogicalStream) (i : Nat) (page : Page) (later : List Page) :
    (s.completed page).1.map (fun data => (i, data)) ++ ((s.accept page).2.resumed (i + 1) later).toList =
      (s.resumed i (page :: later)).toList
        ++ (runsIn i page later 0 (!page.continued) page.segments).map Run.ending := by
  rw [resumed_accept, resumed]
  cases hcontinued : page.continued with
  | false =>
    have hcarried : s.carried page = none := by simp [carried, hcontinued]
    have husable : s.usable page = page.fragments := by simp [usable, hcontinued]
    rw [hcarried, husable]
    exact joinFragments_eq_runsIn i page later 0 none _ _
  | true =>
    cases hcarried : s.carried page with
    | none =>
      have husable : s.usable page = page.fragments.tail := by simp [usable, hcontinued, hcarried]
      rw [husable, resume_none]
      exact joinFragments_tail_eq_runsIn i page later 0 _ _
    | some data =>
      have husable : s.usable page = page.fragments := by simp [usable, hcarried]
      rw [husable]
      exact joinFragments_eq_runsIn i page later 0 (some data) _ _

/-- **From any state on, a stream gives what its open packet comes to, and the runs that
begin in the pages ahead.** -/
theorem emissions_eq_runs (s : LogicalStream) (i : Nat) (pages : List Page) :
    (s.emissions i pages).map (fun e => (e.1, e.2.data)) =
      (s.resumed i pages).toList ++ (runs i pages).map Run.ending := by
  induction pages generalizing s i with
  | nil => rfl
  | cons page later ih =>
    have hpackets : (s.accept page).1.map Packet.data = (s.completed page).1 := by rw [accept_fst, data_label]
    rw [emissions, runs, List.map_append, ih, List.map_append, ← List.append_assoc, ← List.append_assoc,
      ← completed_eq_runsIn, ← hpackets, List.map_map, List.map_map]
    rfl

/-- A stream of which no page has come yet gives the runs. -/
theorem emissions_eq_runs_of_bind (serial : UInt32) (pages : List Page) :
    (emissions { serial } 0 pages).map (fun e => (e.1, e.2.data)) = (runs 0 pages).map Run.ending := by
  have hresumed : resumed { serial } 0 pages = none := by
    cases pages with
    | nil => rfl
    | cons page later =>
      rw [resumed, carried, ite_self]
      rfl
  rw [emissions_eq_runs, hresumed, Option.toList_none, List.nil_append]

end LogicalStream

/-! ### A tracker -/

namespace Tracker

/-- A tracker after some pages. -/
def ingestAll (t : Tracker) (pages : List Page) : Tracker := pages.foldl (fun t page => (t.ingest page).2) t

/-- The pages of one stream among others. -/
def pagesOf (serial : UInt32) (pages : List Page) : List Page := pages.filter (·.serial == serial)

theorem ingest_of_serial {t : Tracker} {s : LogicalStream} (h : t.stream = some s) {page : Page}
    (hserial : page.serial = s.serial) :
    (t.ingest page).2 = { t with stream := some (s.accept page).2, ready := t.ready ++ (s.accept page).1 } := by
  simp only [ingest_eq_accept, h, Option.getD_some, hserial, bne_self_eq_false, Bool.false_eq_true, if_false]

theorem ingest_of_other {t : Tracker} {s : LogicalStream} (h : t.stream = some s) {page : Page}
    (hserial : page.serial ≠ s.serial) : (t.ingest page).2 = t := by
  simp only [ingest_eq_accept, h, Option.getD_some]
  rw [if_pos (by simpa using Ne.symm hserial)]

/-- The packets that wait in a tracker are those that waited and those of its stream. -/
theorem ready_ingestAll {t : Tracker} {s : LogicalStream} (h : t.stream = some s) (i : Nat) (pages : List Page) :
    (t.ingestAll pages).ready = t.ready ++ (s.emissions i (pagesOf s.serial pages)).map Prod.snd := by
  induction pages generalizing t s i with
  | nil => simp [ingestAll, pagesOf, LogicalStream.emissions]
  | cons page pages ih =>
    show ((t.ingest page).2.ingestAll pages).ready = _
    by_cases hserial : page.serial = s.serial
    · have hpages : pagesOf s.serial (page :: pages) = page :: pagesOf s.serial pages :=
        List.filter_cons_of_pos (by simpa using hserial)
      rw [ingest_of_serial h hserial, ih rfl (i + 1), hpages, LogicalStream.emissions, List.map_append,
        List.map_map, List.append_assoc]
      congr 2
      exact (List.map_id _).symm
    · have hpages : pagesOf s.serial (page :: pages) = pagesOf s.serial pages :=
        List.filter_cons_of_neg (by simpa using hserial)
      rw [ingest_of_other h hserial, ih h i, hpages]

/-- Pages of other streams give no packets. -/
theorem ready_ingestAll_pagesOf {t : Tracker} {s : LogicalStream} (h : t.stream = some s) (pages : List Page) :
    (t.ingestAll (pagesOf s.serial pages)).ready = (t.ingestAll pages).ready := by
  have hsame : pagesOf s.serial (pagesOf s.serial pages) = pagesOf s.serial pages := by
    simp only [pagesOf, List.filter_filter, Bool.and_self]
  rw [ready_ingestAll h 0, ready_ingestAll h 0, hsame]

theorem popped_ingest (t : Tracker) (page : Page) : (t.ingest page).2.popped = t.popped := by
  simp only [ingest]
  split <;> rfl

theorem exists_stream_ingest {t : Tracker} (h : ∃ s, t.stream = some s) (page : Page) :
    ∃ s, (t.ingest page).2.stream = some s := by
  obtain ⟨s, hs⟩ := h
  by_cases hserial : page.serial = s.serial
  · rw [ingest_of_serial hs hserial]
    exact ⟨_, rfl⟩
  · rw [ingest_of_other hs hserial]
    exact ⟨s, hs⟩

/-- **What a page adds depends on the stream alone**, and is what the answer counts. -/
theorem exists_added (stream : Option LogicalStream) (page : Page) :
    ∃ added after, ∀ ready popped,
      ingest ⟨stream, ready, popped⟩ page = (added.length, ⟨after, ready ++ added, popped⟩) := by
  cases hother : (stream.getD { serial := page.serial }).serial != page.serial with
  | true =>
    refine ⟨[], stream, fun ready popped => ?_⟩
    simp only [ingest_eq_accept, hother, if_true, List.append_nil, List.length_nil]
  | false =>
    refine ⟨((stream.getD { serial := page.serial }).accept page).1,
      some ((stream.getD { serial := page.serial }).accept page).2, fun ready popped => ?_⟩
    simp only [ingest_eq_accept, hother, Bool.false_eq_true, if_false]

/-- Packets that were asked for are those that would have come first. -/
theorem ready_ingestAll_of_taken {t u : Tracker} (hstream : u.stream = t.stream) {taken : List Packet}
    (hready : t.ready = taken ++ u.ready) (pages : List Page) :
    (t.ingestAll pages).ready = taken ++ (u.ingestAll pages).ready := by
  induction pages generalizing t u with
  | nil => exact hready
  | cons page pages ih =>
    obtain ⟨added, after, hadded⟩ := exists_added t.stream page
    have ht : t.ingest page = _ := hadded t.ready t.popped
    have hu := hadded u.ready u.popped
    rw [← hstream] at hu
    show ((t.ingest page).2.ingestAll pages).ready = taken ++ ((u.ingest page).2.ingestAll pages).ready
    rw [ht, show u.ingest page = _ from hu]
    refine ih rfl ?_
    rw [hready, List.append_assoc]

/-- The first packet that is asked for is the first that waits. -/
theorem firstPacket_some {t u : Tracker} {packet : Packet} (h : t.firstPacket = (some packet, u)) :
    t.ready = packet :: u.ready ∧ u.stream = t.stream := by
  rw [firstPacket] at h
  split at h
  · cases (Prod.mk.inj h).1
  · exact nextPacket_some h

theorem firstPacket_none {t u : Tracker} (h : t.firstPacket = (none, u)) : u = t := by
  rw [firstPacket] at h
  split at h
  · exact (Prod.mk.inj h).2.symm
  · exact (nextPacket_none h).2

/-- **The packets of a bound tracker are the runs of the pages of its stream**, each once
and in order, whatever pages come. -/
theorem packets_eq_runs (serial : UInt32) (pages : List Page) :
    ∃ rs : List Run, (∀ r, r ∈ rs ↔ IsRun (pagesOf serial pages) r) ∧ rs.Pairwise Run.Before ∧
      ((bind serial).ingestAll pages).ready.map Packet.data = rs.map Run.data := by
  refine ⟨runs 0 (pagesOf serial pages), fun r => mem_runs_iff, pairwise_runs 0 _, ?_⟩
  have hdata := congrArg (List.map Prod.snd) (LogicalStream.emissions_eq_runs_of_bind serial (pagesOf serial pages))
  rw [List.map_map, List.map_map] at hdata
  rw [ready_ingestAll (s := { serial }) rfl 0, List.map_append, List.map_map]
  exact hdata

end Tracker

end Ogg
