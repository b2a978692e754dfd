import Ogg.Proofs.Scan.Log
import Ogg.Proofs.Stream.Packets

/-!
# The logical streams of a scan

A scan keeps its strands in the order of their serial numbers, no two of them with the same
one (`Ordered`), and gives each page to the strand of its number. What a strand has come to
is therefore what the pages of its own number make of it, whatever pages of other streams
come between them.

A packet can be counted in two places, where the identification packet is looked at and in
the loop that takes all others. None is counted twice or passed by because nothing was asked
of a tracker while its identification packet is expected (`Strand.Unasked`).

## Main statements

* `Strand.feed_eq`: the two places together count each packet once.
* `ordered_feedAll`: the strands stay in order.
* `strandOf_feedAll`: the strand of a serial number is what the pages of that number make.
* `streams_wholeReport`: the streams of a report are those of the leftmost walk.
-/

namespace Ogg.Scan

/-! ### One strand -/

/-- A summary with nothing said about a codec. -/
def Summary.unidentified (s : Summary) : Summary := { s with codec := none, unknown := none }

namespace Strand

/-- To identify a stream leaves what is counted alone. -/
theorem identify_eq (s : Summary) (packet : Packet) :
    identify s packet =
      { s with codec := (identify s packet).codec, unknown := (identify s packet).unknown } := by
  rw [identify]
  split <;> rfl

theorem unidentified_identify (s : Summary) (packet : Packet) : (identify s packet).unidentified = s.unidentified := by
  rw [identify_eq]
  rfl

/-- The loop counts all packets that wait. -/
theorem tally_eq (s : Strand) :
    s.tally =
      { s with
        tracker := s.tracker.takeAll.2
        summary := { s.summary with packets := s.summary.packets + s.tracker.ready.length } } := by
  fun_induction tally s with
  | case1 s t hnone =>
    obtain ⟨hready, rfl⟩ := Tracker.nextPacket_none hnone
    rw [Tracker.takeAll_of_nil hready, hready]
    rfl
  | case2 s packet t hsome ih =>
    rw [ih, Tracker.takeAll_of_nextPacket hsome, (Tracker.nextPacket_some hsome).1, List.length_cons]
    simp only [countPacket, Nat.add_assoc, Nat.add_comm 1]

/-! ### The identification packet -/

/-- While the identification packet is expected, no packet was asked for. -/
def Unasked (s : Strand) : Prop := s.identified = false → s.tracker.popped = 0

theorem unasked_start (offset : Nat) (page : Page) : (start offset page).Unasked := fun _ => rfl

theorem unasked_note {s : Strand} (h : s.Unasked) (page : Page) : (s.note page).Unasked := by
  intro hidentified
  exact (Tracker.popped_ingest s.tracker page).trans (h hidentified)

theorem seekIdentity_of_identified {s : Strand} (h : s.identified = true) : s.seekIdentity = s := if_pos h

/-- The identification packet is still to come when no packet waits. -/
theorem seekIdentity_of_nil {s : Strand} (h : s.tracker.ready = []) : s.seekIdentity = s := by
  have hnext : s.tracker.nextPacket = (none, s.tracker) := by rw [Tracker.nextPacket, h]
  have hfirst : s.tracker.firstPacket = (none, s.tracker) := by rw [Tracker.firstPacket, hnext, ite_self]
  rw [seekIdentity, hfirst, ite_self]

/-- It is the first packet that waits, if nothing was asked for before. -/
theorem seekIdentity_of_cons {s : Strand} (hs : s.identified = false) (hpopped : s.tracker.popped = 0)
    {packet : Packet} {rest : List Packet} (h : s.tracker.ready = packet :: rest) :
    s.seekIdentity =
      { tracker := { s.tracker with ready := rest, popped := 1 }
        summary := identify (countPacket s.summary) packet
        identified := true } := by
  have hnext : s.tracker.nextPacket = (some packet, { s.tracker with ready := rest, popped := 1 }) := by
    rw [Tracker.nextPacket, h, hpopped]
  rw [seekIdentity, if_neg (by rw [hs]; exact Bool.false_ne_true), Tracker.firstPacket, hpopped,
    if_neg (Nat.lt_irrefl 0), hnext]

/-! ### One page -/

/-- The summary of a strand with a page counted, and nothing said about a codec. -/
def counted (s : Strand) (page : Page) : Summary :=
  { s.summary with
    pages := s.summary.pages + 1
    packets := s.summary.packets + (s.tracker.ingest page).2.ready.length
    bos := s.summary.bos || page.bos
    eos := s.summary.eos || page.eos
    gaps := ((s.tracker.ingest page).2.stream.map (·.gaps)).getD s.summary.gaps }

/-- **Packets that are counted in two places are counted once.** A strand asks for all packets that
end on a page, and counts them; the first packet of all says what the codec is, if one was to be
expected. For while one is expected, nothing was asked for before, so none is passed over. -/
theorem feed_eq {s : Strand} (hs : s.Unasked) (page : Page) :
    s.feed page =
      match (s.tracker.ingest page).2.ready with
      | [] => { s with tracker := (s.tracker.ingest page).2.takeAll.2, summary := s.counted page }
      | p :: _ =>
        { tracker := (s.tracker.ingest page).2.takeAll.2
          summary := if s.identified then s.counted page else identify (s.counted page) p
          identified := true } := by
  cases hidentified : s.identified with
  | true =>
    have hnoted : (s.note page).identified = true := hidentified
    rw [feed, seekIdentity_of_identified hnoted, if_pos hnoted, tally_eq]
    split <;> simp [copyGaps, counted, note, Tracker.takeAll, hidentified]
  | false =>
    have hnoted : (s.note page).identified = false := hidentified
    have hpopped : (s.tracker.ingest page).2.popped = 0 := unasked_note hs page hnoted
    cases hready : (s.tracker.ingest page).2.ready with
    | nil =>
      rw [feed, seekIdentity_of_nil hready, if_neg (by rw [hnoted]; exact Bool.false_ne_true),
        Tracker.takeAll_of_nil hready]
      simp [copyGaps, counted, note, hready, hidentified]
    | cons packet rest =>
      have hasked : (s.tracker.ingest page).2.takeAll.2 =
          Tracker.mk (s.tracker.ingest page).2.stream [] (1 + rest.length) := by
        rw [Tracker.takeAll, hready, hpopped, List.length_cons, Nat.zero_add, Nat.add_comm]
      rw [feed, seekIdentity_of_cons hnoted hpopped hready, if_pos rfl, tally_eq, hasked, counted, hready]
      simp only [identify]
      cases classify packet.data <;>
        simp [copyGaps, countPacket, note, Tracker.takeAll, Nat.add_assoc, Nat.add_comm 1]

/-- A page that brings no packet leaves a strand as it was asked. -/
theorem unasked_feed {s : Strand} (h : s.Unasked) (page : Page) : (s.feed page).Unasked := by
  rw [feed_eq h]
  split
  · next hready =>
    rw [Tracker.takeAll_of_nil hready]
    exact unasked_note h page
  · intro hidentified
    cases hidentified

/-- A page is counted, whatever it says about a codec. -/
theorem unidentified_feed {s : Strand} (hs : s.Unasked) (page : Page) :
    (s.feed page).summary.unidentified = (s.counted page).unidentified := by
  rw [feed_eq hs]
  split
  · rfl
  · cases s.identified with
    | true => rfl
    | false => exact unidentified_identify _ _

theorem tracker_feed {s : Strand} (hs : s.Unasked) (page : Page) :
    (s.feed page).tracker = (s.tracker.ingest page).2.takeAll.2 := by
  rw [feed_eq hs]
  split <;> rfl

/-- The gaps in the summary are those of the stream. -/
theorem gaps_feed {s : Strand} (hs : s.Unasked) (page : Page) :
    (s.feed page).summary.gaps = ((s.tracker.ingest page).2.stream.map (·.gaps)).getD s.summary.gaps := by
  have h := congrArg Summary.gaps (unidentified_feed hs page)
  exact h

/-- What is asked of the tracker does not change whose strand it is, nor the number of pages. -/
theorem serial_pages_seekIdentity (s : Strand) :
    s.seekIdentity.summary.serial = s.summary.serial ∧ s.seekIdentity.summary.pages = s.summary.pages := by
  rw [seekIdentity]
  split
  · exact ⟨rfl, rfl⟩
  · split
    · exact ⟨rfl, rfl⟩
    · rw [identify_eq]
      exact ⟨rfl, rfl⟩

theorem serial_pages_feed (s : Strand) (page : Page) :
    (s.feed page).summary.serial = s.summary.serial ∧ (s.feed page).summary.pages = s.summary.pages + 1 := by
  obtain ⟨hserial, hpages⟩ := serial_pages_seekIdentity (s.note page)
  rw [feed, tally_eq]
  split <;> exact ⟨hserial, hpages⟩

/-- A page does not change whose strand it is. -/
theorem serial_feed (s : Strand) (page : Page) : (s.feed page).summary.serial = s.summary.serial :=
  (serial_pages_feed s page).1

/-- A strand after some pages of its stream. -/
def feedPages (s : Strand) (pages : List Page) : Strand := pages.foldl feed s

/-- The strand of a serial number after a page of that number, be it the first one or not. -/
def advance (s : Option Strand) (found : Nat × Page) : Option Strand :=
  some ((s.getD (start found.1 found.2)).feed found.2)

theorem foldl_advance_some (s : Strand) (pages : List (Nat × Page)) :
    pages.foldl advance (some s) = some (s.feedPages (pages.map Prod.snd)) := by
  induction pages generalizing s with
  | nil => rfl
  | cons found pages ih => exact ih (s.feed found.2)

theorem foldl_advance_none (found : Nat × Page) (later : List (Nat × Page)) :
    (found :: later).foldl advance none =
      some ((start found.1 found.2).feedPages (found.2 :: later.map Prod.snd)) :=
  foldl_advance_some ((start found.1 found.2).feed found.2) later

end Strand

/-! ### The strands in order -/

/-- The strands are in the order of their serial numbers, and no two have the same. -/
def Ordered (strands : List Strand) : Prop := strands.Pairwise (·.summary.serial < ·.summary.serial)

/-- The strand of a serial number. -/
def strandOf (serial : UInt32) (strands : List Strand) : Option Strand :=
  strands.find? (·.summary.serial == serial)

theorem strandOf_cons_self (s : Strand) (rest : List Strand) : strandOf s.summary.serial (s :: rest) = some s :=
  List.find?_cons_of_pos (beq_self_eq_true s.summary.serial)

theorem strandOf_cons_of_ne {serial : UInt32} {s : Strand} (h : s.summary.serial ≠ serial) (rest : List Strand) :
    strandOf serial (s :: rest) = strandOf serial rest :=
  List.find?_cons_of_neg (by simpa using h)

/-- The strand of a number is among the strands and has that number. -/
theorem mem_of_strandOf {serial : UInt32} {strands : List Strand} {s : Strand} (h : strandOf serial strands = some s) :
    s ∈ strands ∧ s.summary.serial = serial :=
  ⟨List.mem_of_find?_eq_some h, by simpa using List.find?_some h⟩

theorem strandOf_eq_none {serial : UInt32} {strands : List Strand} (h : ∀ s ∈ strands, s.summary.serial ≠ serial) :
    strandOf serial strands = none :=
  List.find?_eq_none.mpr fun s hs => by simpa using h s hs

/-- There is one strand of a number, or none. -/
theorem Ordered.filter_eq {strands : List Strand} (h : Ordered strands) (serial : UInt32) :
    strands.filter (·.summary.serial == serial) = (strandOf serial strands).toList := by
  induction strands with
  | nil => rfl
  | cons s rest ih =>
    obtain ⟨hlt, hrest⟩ := List.pairwise_cons.mp h
    by_cases hserial : s.summary.serial = serial
    · subst hserial
      have hnone : strandOf s.summary.serial rest = none :=
        strandOf_eq_none fun t ht => (UInt32.ne_of_lt (hlt t ht)).symm
      rw [List.filter_cons_of_pos (by simp), ih hrest, hnone, strandOf_cons_self]
      rfl
    · rw [List.filter_cons_of_neg (by simpa using hserial), strandOf_cons_of_ne hserial, ih hrest]

/-- Each of the strands in order is the strand of its number. -/
theorem Ordered.strandOf_of_mem {strands : List Strand} (h : Ordered strands) {s : Strand} (hs : s ∈ strands) :
    strandOf s.summary.serial strands = some s := by
  induction strands with
  | nil => cases hs
  | cons t rest ih =>
    obtain ⟨hlt, hrest⟩ := List.pairwise_cons.mp h
    rcases List.mem_cons.mp hs with rfl | hs
    · exact strandOf_cons_self s rest
    · rw [strandOf_cons_of_ne (UInt32.ne_of_lt (hlt s hs)), ih hrest hs]

/-- What holds of the strands in order is what holds of the strand of every number. -/
theorem Ordered.forall_mem_iff {strands : List Strand} (h : Ordered strands) (P : Strand → Prop) :
    (∀ s ∈ strands, P s) ↔ ∀ serial, ∀ s ∈ strandOf serial strands, P s := by
  constructor
  · intro hall serial s hs
    exact hall s (mem_of_strandOf hs).1
  · intro hall s hs
    exact hall s.summary.serial s (h.strandOf_of_mem hs)

/-- A page comes to a strand of its own number; the others stay what they are. -/
theorem serial_of_mem_feedStrands {offset : Nat} {page : Page} {strands : List Strand} {t : Strand}
    (h : t ∈ feedStrands offset page strands) : t.summary.serial = page.serial ∨ t ∈ strands := by
  induction strands with
  | nil =>
    obtain rfl := List.mem_singleton.mp h
    exact Or.inl (Strand.serial_feed _ _)
  | cons s rest ih =>
    rw [feedStrands] at h
    split at h
    · rcases List.mem_cons.mp h with rfl | h
      · exact Or.inl (Strand.serial_feed _ _)
      · exact Or.inr h
    · split at h
      · next hserial =>
        rcases List.mem_cons.mp h with rfl | h
        · exact Or.inl ((Strand.serial_feed _ _).trans hserial.symm)
        · exact Or.inr (List.mem_cons_of_mem s h)
      · rcases List.mem_cons.mp h with rfl | h
        · exact Or.inr List.mem_cons_self
        · exact (ih h).imp id (List.mem_cons_of_mem s)

/-- A page leaves the strands in order. -/
theorem ordered_feedStrands {strands : List Strand} (h : Ordered strands) (offset : Nat) (page : Page) :
    Ordered (feedStrands offset page strands) := by
  induction strands with
  | nil => exact List.pairwise_singleton _ _
  | cons s rest ih =>
    obtain ⟨hs, hrest⟩ := List.pairwise_cons.mp h
    rw [feedStrands]
    split
    · next hlt =>
      refine List.pairwise_cons.mpr ⟨?_, h⟩
      intro t ht
      rw [Strand.serial_feed]
      rcases List.mem_cons.mp ht with rfl | ht
      · exact hlt
      · exact UInt32.lt_trans hlt (hs t ht)
    · split
      · refine List.pairwise_cons.mpr ⟨?_, hrest⟩
        intro t ht
        rw [Strand.serial_feed]
        exact hs t ht
      · next hge hne =>
        refine List.pairwise_cons.mpr ⟨?_, ih hrest⟩
        intro t ht
        rcases serial_of_mem_feedStrands ht with hserial | ht
        · rw [hserial]
          exact UInt32.lt_of_le_of_ne (UInt32.not_lt.mp hge) (Ne.symm hne)
        · exact hs t ht

/-- **One page** comes to the strand of its number, and to no other. -/
theorem strandOf_feedStrands {strands : List Strand} (h : Ordered strands) (serial : UInt32) (found : Nat × Page) :
    strandOf serial (feedStrands found.1 found.2 strands) =
      if found.2.serial = serial then Strand.advance (strandOf serial strands) found
      else strandOf serial strands := by
  obtain ⟨offset, page⟩ := found
  have hfresh : ((Strand.start offset page).feed page).summary.serial = page.serial := Strand.serial_feed _ _
  -- the page begins a strand in front of others, all of which have greater numbers
  have hfirst : ∀ later : List Strand, (∀ t ∈ later, page.serial < t.summary.serial) →
      strandOf serial ((Strand.start offset page).feed page :: later) =
        if page.serial = serial then Strand.advance (strandOf serial later) (offset, page)
        else strandOf serial later := by
    intro later hlater
    split
    · next hserial =>
      subst hserial
      rw [← hfresh, strandOf_cons_self, hfresh, strandOf_eq_none fun t ht => (UInt32.ne_of_lt (hlater t ht)).symm]
      rfl
    · next hserial => exact strandOf_cons_of_ne (by rwa [hfresh]) later
  induction strands with
  | nil => exact hfirst [] fun t ht => (by cases ht)
  | cons s rest ih =>
    obtain ⟨hs, hrest⟩ := List.pairwise_cons.mp h
    rw [feedStrands]
    split
    · next hlt =>
      apply hfirst (s :: rest)
      intro t ht
      rcases List.mem_cons.mp ht with rfl | ht
      · exact hlt
      · exact UInt32.lt_trans hlt (hs t ht)
    · split
      · next hsame =>
        have hfed : (s.feed page).summary.serial = page.serial := (Strand.serial_feed s page).trans hsame.symm
        split
        · next hserial =>
          subst hserial
          rw [← hfed, strandOf_cons_self, hfed, hsame, strandOf_cons_self]
          rfl
        · next hserial =>
          rw [strandOf_cons_of_ne (by rwa [hfed]), strandOf_cons_of_ne (by rwa [← hsame])]
      · next hne =>
        by_cases hserial : s.summary.serial = serial
        · subst hserial
          rw [strandOf_cons_self, strandOf_cons_self, if_neg hne]
        · rw [strandOf_cons_of_ne hserial, strandOf_cons_of_ne hserial]
          exact ih hrest

/-! ### All pages -/

/-- The strands stay in order. -/
theorem ordered_feedAll {strands : List Strand} (h : Ordered strands) (pages : List (Nat × Page)) :
    Ordered (feedAll pages strands) := by
  induction pages generalizing strands with
  | nil => exact h
  | cons found pages ih => exact ih (ordered_feedStrands h found.1 found.2)

/-- **The strand of a serial number is what the pages of that number make.** -/
theorem strandOf_feedAll {strands : List Strand} (h : Ordered strands) (serial : UInt32) (pages : List (Nat × Page)) :
    strandOf serial (feedAll pages strands) =
      (pages.filter (·.2.serial == serial)).foldl Strand.advance (strandOf serial strands) := by
  induction pages generalizing strands with
  | nil => rfl
  | cons found pages ih =>
    have hstep := strandOf_feedStrands h serial found
    show strandOf serial (feedAll pages (feedStrands found.1 found.2 strands)) = _
    rw [ih (ordered_feedStrands h found.1 found.2), hstep]
    by_cases hserial : found.2.serial = serial
    · rw [if_pos hserial, List.filter_cons_of_pos (by simpa using hserial), List.foldl_cons]
    · rw [if_neg hserial, List.filter_cons_of_neg (by simpa using hserial)]

/-- Among no strands at first, the strand of a serial number begins with the first page of that
number, if there is one. -/
theorem strandOf_feedAll_nil_cases (serial : UInt32) (pages : List (Nat × Page)) :
    (pages.filter (·.2.serial == serial) = [] ∧ strandOf serial (feedAll pages []) = none) ∨
      ∃ found later, pages.filter (·.2.serial == serial) = found :: later ∧
        strandOf serial (feedAll pages []) =
          some ((Strand.start found.1 found.2).feedPages (found.2 :: later.map Prod.snd)) := by
  rw [strandOf_feedAll List.Pairwise.nil]
  cases pages.filter (·.2.serial == serial) with
  | nil => exact Or.inl ⟨rfl, rfl⟩
  | cons found later => exact Or.inr ⟨found, later, rfl, Strand.foldl_advance_none found later⟩

theorem map_filter_serial (serial : UInt32) (pages : List (Nat × Page)) :
    (pages.filter (·.2.serial == serial)).map Prod.snd = Tracker.pagesOf serial (pages.map Prod.snd) := by
  rw [Tracker.pagesOf, List.filter_map]
  rfl

/-- A report has the summaries of the strands that the pages of the walk make. -/
theorem streams_wholeReport (d : Bytes) :
    (wholeReport d).streams = (feedAll (Page.walk 0 d) []).map Strand.summary := by
  rw [← pages_complete]
  rfl

end Ogg.Scan
