import Ogg.Proofs.Stream.Packets

/-!
# The mark of the identification packet

The first packet that a stream gives is marked when a page that begins the stream has
come by then. The identification packet is another thing: it is the packet of the very
first segment, of a stream whose very first page says that it begins. A packet that is
marked need not be that one, if the page that begins the stream was not the first, or if
the packet of the first segment was given up. This module says when the mark can be
relied on.

## Main statements

* `data_first_eq_runs`: which packet is marked, by the runs of the pages.
* `first_sound_iff`: the streams in which no packet but the identification packet is marked.
* `first_unsound`, `first_unsound_openHead`: the two ways in which another packet is marked.
-/

namespace Ogg

/-! ### The first run -/

/-- A page that begins the stream is among the pages up to a place. -/
def bosBy (pages : List Page) (last : Nat) : Bool := (pages.take (last + 1)).any Page.bos

/-- A run begins with the very first segment of the pages. -/
structure Run.LeadsOff (pages : List Page) (r : Run) : Prop where
  /-- It begins with the first segment of its page. -/
  segment : r.segment = 0
  /-- The pages before it have no segments. -/
  empty : ∀ p ∈ pages.take r.page, p.segments = []

/-- The first run of the pages. -/
structure IsFirstRun (pages : List Page) (r : Run) : Prop where
  /-- It is a run. -/
  isRun : IsRun pages r
  /-- No run begins before it. -/
  first : ∀ r', IsRun pages r' → ¬ r'.Before r

/-- The identification packet of a stream, given by its pages, has these bytes: the first
page begins the stream, and the bytes are those of the run that leads off. -/
def IsIdentification (pages : List Page) (data : Bytes) : Prop :=
  (∃ page ∈ pages.head?, page.bos = true) ∧ ∃ r, IsRun pages r ∧ r.LeadsOff pages ∧ r.data = data

theorem Run.Before.asymm {r r' : Run} (h : r.Before r') : ¬ r'.Before r := by
  rintro (h' | h') <;> rcases h with h | h <;> omega

theorem isFirstRun_iff_head? {pages : List Page} {r : Run} :
    IsFirstRun pages r ↔ (runs 0 pages).head? = some r := by
  have hpairwise := pairwise_runs 0 pages
  have hmem : ∀ r', r' ∈ runs 0 pages ↔ IsRun pages r' := fun r' => mem_runs_iff
  constructor
  · rintro ⟨hrun, hfirst⟩
    cases hruns : runs 0 pages with
    | nil =>
      rw [← hmem, hruns] at hrun
      cases hrun
    | cons r₀ rest =>
      rw [hruns, List.pairwise_cons] at hpairwise
      rw [← hmem, hruns, List.mem_cons] at hrun
      rcases hrun with rfl | hrun
      · rfl
      · have h₀ : IsRun pages r₀ := (hmem r₀).mp (by rw [hruns]; exact List.mem_cons_self)
        exact absurd (hpairwise.1 r hrun) (hfirst r₀ h₀)
  · intro hhead
    obtain ⟨rest, hruns⟩ := List.head?_eq_some_iff.mp hhead
    rw [hruns, List.pairwise_cons] at hpairwise
    refine ⟨(hmem r).mp (by rw [hruns]; exact List.mem_cons_self), ?_⟩
    intro r' hr' hbefore
    rw [← hmem, hruns, List.mem_cons] at hr'
    rcases hr' with rfl | hr'
    · exact hbefore.asymm hbefore
    · exact hbefore.asymm (hpairwise.1 r' hr')

/-- A run has a segment to begin with. -/
theorem IsRun.exists_segments_ne_nil {pages : List Page} {r : Run} (h : IsRun pages r) :
    ∃ page, pages[r.page]? = some page ∧ page.segments ≠ [] := by
  obtain ⟨hsegs, hne, -, -⟩ := h
  rename_i before later page passed rest data last
  refine ⟨page, by simp, ?_⟩
  rw [hsegs]
  exact fun hnil => hne (List.append_eq_nil_iff.mp hnil).2

/-- A run that leads off is the first. -/
theorem IsRun.isFirstRun {pages : List Page} {r : Run} (h : IsRun pages r) (hlead : r.LeadsOff pages) :
    IsFirstRun pages r := by
  refine ⟨h, ?_⟩
  rintro r' hr' (hbefore | ⟨-, hbefore⟩)
  · obtain ⟨page, hpage, hne⟩ := hr'.exists_segments_ne_nil
    refine hne (hlead.empty page ?_)
    rw [List.mem_iff_getElem?]
    exact ⟨r'.page, by rw [List.getElem?_take, if_pos hbefore, hpage]⟩
  · rw [hlead.segment] at hbefore
    exact Nat.not_lt_zero _ hbefore

theorem IsFirstRun.unique {pages : List Page} {r r' : Run} (h : IsFirstRun pages r) (h' : IsFirstRun pages r') :
    r = r' := by
  rw [isFirstRun_iff_head?] at h h'
  rw [h] at h'
  exact Option.some.inj h'

/-! ### The marks -/

namespace LogicalStream

/-- A packet is not marked when others were given before it. -/
theorem first_of_mem_label {s : LogicalStream} (hpackets : 0 < s.packets) {page : Page} {done : List Bytes}
    {packet : Packet} (h : packet ∈ s.label page done) : packet.first = false := by
  obtain ⟨i, hi, rfl⟩ := List.mem_mapIdx.mp h
  show ((s.bos || page.bos) && s.packets + i == 0) = false
  rw [beq_eq_false_iff_ne.mpr (by omega), Bool.and_false]

/-- Once a packet was given, none is marked. -/
theorem first_of_mem_emissions {s : LogicalStream} (hpackets : 0 < s.packets) {i : Nat} {pages : List Page}
    {e : Nat × Packet} (h : e ∈ s.emissions i pages) : e.2.first = false := by
  induction pages generalizing s i with
  | nil => cases h
  | cons page later ih =>
    rw [emissions, List.mem_append, List.mem_map] at h
    rcases h with ⟨packet, hpacket, rfl⟩ | h
    · exact first_of_mem_label hpackets hpacket
    · refine ih ?_ h
      rw [packets_accept]
      omega

/-- Of the packets that end on one page, the first may be marked, the others are not. -/
theorem label_cons (s : LogicalStream) (page : Page) (data : Bytes) (done : List Bytes) :
    ∃ packet rest, s.label page (data :: done) = packet :: rest ∧
      packet.first = ((s.bos || page.bos) && s.packets == 0) ∧ ∀ other ∈ rest, other.first = false := by
  rw [label, List.mapIdx_cons]
  refine ⟨_, _, rfl, rfl, ?_⟩
  intro other hother
  obtain ⟨i, hi, rfl⟩ := List.mem_mapIdx.mp hother
  show ((s.bos || page.bos) && s.packets + (i + 1) == 0) = false
  rw [beq_eq_false_iff_ne.mpr (by omega), Bool.and_false]

/-- **The first packet of a stream is marked when a page that begins the stream has come
by then**, and no other packet is. -/
theorem first_of_emissions {s : LogicalStream} (hpackets : s.packets = 0) (earlier : List Page)
    (hbos : s.bos = earlier.any Page.bos) {pages : List Page} {e : Nat × Packet} {es : List (Nat × Packet)}
    (h : s.emissions earlier.length pages = e :: es) :
    e.2.first = bosBy (earlier ++ pages) e.1 ∧ ∀ e' ∈ es, e'.2.first = false := by
  induction pages generalizing s earlier with
  | nil => cases h
  | cons page later ih =>
    have hbos' : (s.bos || page.bos) = (earlier ++ [page]).any Page.bos := by
      rw [hbos, List.any_append, List.any_cons, List.any_nil, Bool.or_false]
    rw [emissions, accept_fst] at h
    cases hdone : (s.completed page).1 with
    | nil =>
      have hpackets' : (s.accept page).2.packets = 0 := by rw [packets_accept, hdone, hpackets, List.length_nil]
      have hnone : s.label page [] = [] := rfl
      rw [hdone, hnone, List.map_nil, List.nil_append] at h
      have hih := ih hpackets' (earlier ++ [page]) (by rw [bos_accept, hbos']) (by rwa [List.length_append])
      rwa [List.append_assoc] at hih
    | cons data done =>
      obtain ⟨packet, rest, hlabel, hfirst, hothers⟩ := label_cons s page data done
      rw [hdone, hlabel, List.map_cons, List.cons_append, List.cons.injEq] at h
      obtain ⟨rfl, rfl⟩ := h
      constructor
      · rw [hfirst, hpackets, hbos', bosBy, List.take_length_add_append, List.take_succ_cons, List.take_zero,
          beq_self_eq_true, Bool.and_true]
      · intro e' he'
        rw [List.mem_append, List.mem_map] at he'
        rcases he' with ⟨other, hother, rfl⟩ | he'
        · exact hothers other hother
        · refine first_of_mem_emissions ?_ he'
          rw [packets_accept, hdone, List.length_cons]
          omega

end LogicalStream

namespace Tracker

/-- **The packets of a bound tracker, each with its mark**: the first one is marked if a
page that begins the stream is among those up to its end, and no other is. -/
theorem data_first_eq_runs (serial : UInt32) (pages : List Page) :
    ((bind serial).ingestAll pages).ready.map (fun packet => (packet.data, packet.first)) =
      (runs 0 (pagesOf serial pages)).mapIdx fun n r => (r.data, n == 0 && bosBy (pagesOf serial pages) r.last) := by
  generalize hps : pagesOf serial pages = ps
  have hready : ((bind serial).ingestAll pages).ready = (LogicalStream.emissions { serial } 0 ps).map Prod.snd := by
    rw [← hps]
    exact ready_ingestAll (s := { serial }) rfl 0 pages
  have hruns := LogicalStream.emissions_eq_runs_of_bind serial ps
  rw [hready]
  cases hes : LogicalStream.emissions { serial } 0 ps with
  | nil =>
    rw [hes, List.map_nil, eq_comm, List.map_eq_nil_iff] at hruns
    rw [hruns]
    rfl
  | cons e es =>
    obtain ⟨hfirst, hothers⟩ := LogicalStream.first_of_emissions (s := { serial }) rfl [] rfl hes
    rw [hes] at hruns
    cases hrs : runs 0 ps with
    | nil =>
      rw [hrs] at hruns
      cases hruns
    | cons r rs =>
      rw [hrs, List.map_cons, List.map_cons, List.cons.injEq] at hruns
      obtain ⟨hhead, htail⟩ := hruns
      rw [Run.ending, Prod.mk.injEq] at hhead
      rw [List.map_cons, List.map_cons, List.mapIdx_cons, List.cons.injEq]
      constructor
      · rw [hfirst, hhead.1, hhead.2]
        rfl
      · have hmarks : (es.map Prod.snd).map (fun packet => (packet.data, packet.first)) =
            (es.map fun e => (e.1, e.2.data)).map fun ending => (ending.2, false) := by
          rw [List.map_map, List.map_map]
          refine List.map_congr_left fun e' he' => ?_
          show (e'.2.data, e'.2.first) = (e'.2.data, false)
          rw [hothers e' he']
        rw [hmarks, htail, List.map_map]
        refine List.ext_getElem? fun n => ?_
        rw [List.getElem?_map, List.getElem?_mapIdx]
        rfl

/-- **When the mark can be relied on**: every marked packet is the identification packet,
exactly if the first run ends before any page that begins the stream, or the first page
begins it and the first run leads off. -/
theorem first_sound_iff (serial : UInt32) (pages : List Page) :
    (∀ packet ∈ ((bind serial).ingestAll pages).ready, packet.first = true →
        IsIdentification (pagesOf serial pages) packet.data) ↔
      ∀ r, IsFirstRun (pagesOf serial pages) r → bosBy (pagesOf serial pages) r.last = true →
        (∃ page ∈ (pagesOf serial pages).head?, page.bos = true) ∧ r.LeadsOff (pagesOf serial pages) := by
  have hmarks := data_first_eq_runs serial pages
  generalize pagesOf serial pages = ps at hmarks ⊢
  generalize ((bind serial).ingestAll pages).ready = ready at hmarks ⊢
  constructor
  · intro hsound r hr hbos
    obtain ⟨rs, hrs⟩ := List.head?_eq_some_iff.mp (isFirstRun_iff_head?.mp hr)
    rw [hrs, List.mapIdx_cons] at hmarks
    obtain ⟨packet, rest, rfl, hpacket, -⟩ := List.map_eq_cons_iff.mp hmarks
    rw [Prod.mk.injEq, hbos] at hpacket
    obtain ⟨hhead, r', hr', hlead, -⟩ := hsound packet List.mem_cons_self hpacket.2
    rw [hr.unique (hr'.isFirstRun hlead)]
    exact ⟨hhead, hlead⟩
  · intro hsafe packet hpacket hfirst
    have hmem : (packet.data, packet.first) ∈ ready.map fun packet => (packet.data, packet.first) :=
      List.mem_map_of_mem hpacket
    rw [hmarks, hfirst] at hmem
    obtain ⟨n, hn, heq⟩ := List.mem_mapIdx.mp hmem
    rw [Prod.mk.injEq, Bool.and_eq_true, beq_iff_eq] at heq
    obtain ⟨hdata, rfl, hbos⟩ := heq
    have hr : IsFirstRun ps (runs 0 ps)[0] := by
      rw [isFirstRun_iff_head?, List.head?_eq_getElem?, List.getElem?_eq_getElem hn]
    obtain ⟨hhead, hlead⟩ := hsafe _ hr hbos
    exact ⟨hhead, _, hr.isRun, hlead, hdata⟩

/-- Pages of a stream that is joined in the middle of a packet; the second of them says
that it begins the stream. -/
def joinedLate : List Page :=
  [⟨⟨0, ⟨1⟩, 0, 4, 10, 0, [4]⟩, [1, 2, 3, 4]⟩, ⟨⟨0, ⟨2⟩, 0, 4, 11, 0, [3]⟩, [5, 6, 7]⟩]

theorem first_unsound :
    ∃ packet ∈ ((bind 4).ingestAll joinedLate).ready, packet.first = true ∧
      ¬ IsIdentification (pagesOf 4 joinedLate) packet.data := by
  refine ⟨⟨[5, 6, 7], 4, 0, 11, true, false⟩, by decide, rfl, ?_⟩
  rintro ⟨⟨page, hpage, hbos⟩, -⟩
  cases hpage
  cases hbos

/-- The page that begins a stream, with a packet that goes on. -/
def openHead : Page := ⟨⟨0, ⟨2⟩, 0, 1, 0, 0, [255]⟩, List.replicate 255 9⟩

/-- A page behind it that does not say that it continues a packet. -/
def freshPage : Page := ⟨⟨0, ⟨0⟩, 0, 1, 1, 0, [2]⟩, [0x6f, 0x6b]⟩

theorem segments_openHead : ∃ s, openHead.segments = [s] ∧ s.ends = false :=
  ⟨⟨255, (List.replicate 255 9).take (255 : UInt8).toNat⟩, by rw [Page.segments]; rfl, rfl⟩

/-- The mark is also wrong where the packet of the first segment is dropped: the one behind it is marked. -/
theorem first_unsound_openHead :
    ∃ packet ∈ ((bind 1).ingestAll [openHead, freshPage]).ready, packet.first = true ∧
      ¬ IsIdentification (pagesOf 1 [openHead, freshPage]) packet.data := by
  refine ⟨⟨[0x6f, 0x6b], 1, 0, 1, true, false⟩, by decide, rfl, ?_⟩
  rintro ⟨-, r, hr, hlead, -⟩
  obtain ⟨s, hsegs, hgoesOn⟩ := segments_openHead
  have hbound : pagesOf 1 [openHead, freshPage] = [openHead, freshPage] := rfl
  rw [hbound] at hr hlead
  -- the second page does not resume the segment that a run which leads off begins with
  have hlost : follow 0 openHead [freshPage] openHead.segments = none := by
    rw [hsegs, follow_of_goesOn hgoesOn, follow_nil_cons rfl, if_neg (by decide), Option.map_none]
  obtain ⟨hsegment, hempty⟩ := hlead
  generalize hpages : [openHead, freshPage] = pages at hr hempty
  obtain ⟨hwhole, -, -, hrun⟩ := hr
  rename_i before later page passed rest data last
  cases before with
  | nil =>
    obtain ⟨rfl, rfl⟩ := List.cons.inj hpages
    obtain rfl := List.length_eq_zero_iff.mp hsegment
    have hfound : follow 0 openHead [freshPage] rest = some (last, data) := follow_of_runsOn hrun
    rw [hwhole, List.nil_append, hfound] at hlost
    cases hlost
  | cons head before =>
    rw [List.cons_append, List.cons.injEq] at hpages
    obtain ⟨rfl, -⟩ := hpages
    have hnil := hempty openHead List.mem_cons_self
    rw [hsegs] at hnil
    cases hnil

end Tracker

end Ogg
