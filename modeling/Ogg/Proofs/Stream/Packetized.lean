import Mathlib.Data.List.Chain
import Ogg.Packet.Lacing
import Ogg.Page.Encode
import Ogg.Proofs.Stream.Packets

/-!
# Packets that were cut into pages come back

Packets are written to a stream as segments, and the segments are cut into pages anywhere
(`Carries`): in the middle of a packet, with many packets on a page or none, even with the
segment that ends a packet alone on a page. A tracker that is given the pages, among pages of
other streams, gives the packets back. So it does not matter where the pages begin.

Between the two stands the list of all segments, each with the page it lies on (`placed`).
Putting segments together to packets (`assemble`) does not see the pages at all: what one page
leaves open, the next takes up (`assemble_append`). A stream does the same, page by page, as long
as nothing is lost and the pages say truly whether they continue a packet; that it does is the
invariant `LogicalStream.Expects`.

## Main statements

* `assemble_packets`: the segments of some packets, put together, are the packets.
* `LogicalStream.emissions_of_expects`: what a stream gives with the pages ahead.
* `Tracker.drain_packetized`: the packets that are asked for are those that were cut into pages.
-/

namespace Ogg

/-! ### Packets in pages -/

/-- The lacing values of some packets. -/
def lacings (packets : List Bytes) : Bytes := packets.flatMap fun data => lacingOf data.length

/-- The place of the segment that ends the `n`-th of some packets, among all their segments. -/
def terminal (packets : List Bytes) (n : Nat) : Nat := (lacings (packets.take (n + 1))).length - 1

/-- The segments of a page, each with the page. -/
def Page.placed (page : Page) : List (Page × Segment) := page.segments.map fun s => (page, s)

@[simp] theorem Page.map_snd_placed (page : Page) : page.placed.map Prod.snd = page.segments := by
  simp [Page.placed, Function.comp_def]

/-- The segments of some pages, each with its page. -/
def placed (pages : List Page) : List (Page × Segment) := pages.flatMap Page.placed

/-- Pages say that they continue a packet exactly if one is open where they begin. Before the
first of them none is open if it is `fresh`. -/
def Marked : Bool → List Page → Prop
  | _, [] => True
  | fresh, page :: later => page.continued = !fresh ∧ Marked (freshBehind fresh page.segments) later

/-- Pages carry packets: the segments of the packets are cut into pages somewhere. -/
structure Carries (packets : List Bytes) (pages : List Page) : Prop where
  /-- The lacing values of the pages are those of the packets. -/
  lacing : pages.flatMap (·.header.lacing) = lacings packets
  /-- The bodies of the pages are the packets. -/
  body : pages.flatMap Page.body = packets.flatten
  /-- No page is cut inside a segment. -/
  whole : ∀ p ∈ pages, p.Whole
  /-- The numbers of the pages are successive. -/
  successive : pages.IsChain fun p q => q.sequence = p.sequence + 1
  /-- The pages say whether they continue a packet. -/
  marked : Marked true pages
  /-- The first page begins the stream. -/
  bos : ∀ p ∈ pages.head?, p.bos = true
  /-- No page but the last ends the stream. -/
  eos : ∀ p ∈ pages.dropLast, p.eos = false

/-! ### Segments put together -/

/-- The packets that end in segments, each with the page on which it ends, and the packet left
open; `pending` is the one open before. -/
def assemble : Option Bytes → List (Page × Segment) → List (Page × Bytes) × Option Bytes
  | pending, [] => ([], pending)
  | pending, (page, s) :: rest =>
    if s.ends then ((page, pending.getD [] ++ s.data) :: (assemble none rest).1, (assemble none rest).2)
    else assemble (some (pending.getD [] ++ s.data)) rest

theorem assemble_of_ends {s : Segment} (h : s.ends = true) (pending : Option Bytes) (page : Page)
    (rest : List (Page × Segment)) :
    assemble pending ((page, s) :: rest) =
      ((page, pending.getD [] ++ s.data) :: (assemble none rest).1, (assemble none rest).2) := by
  rw [assemble, if_pos h]

theorem assemble_of_goesOn {s : Segment} (h : s.ends = false) (pending : Option Bytes) (page : Page)
    (rest : List (Page × Segment)) :
    assemble pending ((page, s) :: rest) = assemble (some (pending.getD [] ++ s.data)) rest := by
  rw [assemble, if_neg (by simp [h])]

/-- **Where segments are cut does not matter**: what is left open goes on. -/
theorem assemble_append (pending : Option Bytes) (front rest : List (Page × Segment)) :
    assemble pending (front ++ rest) =
      ((assemble pending front).1 ++ (assemble (assemble pending front).2 rest).1,
        (assemble (assemble pending front).2 rest).2) := by
  induction front generalizing pending with
  | nil => rfl
  | cons first front ih =>
    obtain ⟨page, s⟩ := first
    rw [List.cons_append]
    cases hs : s.ends with
    | true => simp only [assemble_of_ends hs, ih, List.cons_append]
    | false => simp only [assemble_of_goesOn hs, ih]

/-- A packet is open behind segments exactly if the last of them, or what was before, leaves one open. -/
theorem isNone_assemble (pending : Option Bytes) (front : List (Page × Segment)) :
    (assemble pending front).2.isNone = freshBehind pending.isNone (front.map Prod.snd) := by
  induction front generalizing pending with
  | nil => rfl
  | cons first front ih =>
    obtain ⟨page, s⟩ := first
    rw [List.map_cons, freshBehind_cons]
    cases hs : s.ends with
    | true => simp only [assemble_of_ends hs, ih, Option.isNone_none]
    | false => simp only [assemble_of_goesOn hs, ih, Option.isNone_some]

/-- Fragments are joined like segments. -/
theorem assemble_segments (page : Page) (pending : Option Bytes) (lacing body : Bytes) :
    assemble pending ((segments lacing body).map fun s => (page, s)) =
      ((joinFragments pending (fragments lacing body)).1.map fun data => (page, data),
        (joinFragments pending (fragments lacing body)).2) := by
  induction lacing generalizing pending body with
  | nil => rfl
  | cons l rest ih =>
    rw [segments, List.map_cons]
    by_cases h : l < continueLacing
    · have hs : Segment.ends ⟨l, body.take l.toNat⟩ = true := by simpa [Segment.ends] using h
      rw [assemble_of_ends hs, joinFragments_of_ends h, ih, List.map_cons]
    · have hs : Segment.ends ⟨l, body.take l.toNat⟩ = false := by simpa [Segment.ends] using h
      rw [assemble_of_goesOn hs, joinFragments_of_goesOn h, ih]

/-- The fragments of a page are joined like its segments. -/
theorem assemble_page (page : Page) (pending : Option Bytes) :
    assemble pending page.placed =
      ((joinFragments pending page.fragments).1.map fun data => (page, data), (joinFragments pending page.fragments).2) :=
  assemble_segments page pending page.header.lacing page.body

/-! ### The segments of packets -/

theorem segments_append {lacing body : Bytes} (h : body.length = lacingSum lacing) (more later : Bytes) :
    segments (lacing ++ more) (body ++ later) = segments lacing body ++ segments more later := by
  induction lacing generalizing body with
  | nil =>
    obtain rfl : body = [] := List.eq_nil_of_length_eq_zero h
    rfl
  | cons l rest ih =>
    have hsum : body.length = l.toNat + lacingSum rest := h
    have hrest : (body.drop l.toNat).length = lacingSum rest := by
      rw [List.length_drop]
      omega
    have htake : (body ++ later).take l.toNat = body.take l.toNat :=
      List.take_append_of_le_length (by omega)
    have hdrop : (body ++ later).drop l.toNat = body.drop l.toNat ++ later :=
      List.drop_append_of_le_length (by omega)
    simp only [List.cons_append, segments, htake, hdrop, ih hrest]

/-- The segments of whole pages, one page after the other, are those of all lacing values and bodies. -/
theorem snd_placed {pages : List Page} (h : ∀ p ∈ pages, p.Whole) :
    (placed pages).map Prod.snd = segments (pages.flatMap (·.header.lacing)) (pages.flatMap Page.body) := by
  induction pages with
  | nil => rfl
  | cons page later ih =>
    obtain ⟨hpage, hlater⟩ := List.forall_mem_cons.mp h
    have hwhole : page.body.length = lacingSum page.header.lacing := hpage
    rw [placed, List.flatMap_cons, List.map_append, Page.map_snd_placed, List.flatMap_cons, List.flatMap_cons,
      segments_append hwhole, ← ih hlater]
    rfl

/-- The segments of some packets are the segments of one after the other. -/
theorem segments_lacings (packets : List Bytes) :
    segments (lacings packets) packets.flatten = packets.flatMap fun data => segments (lacingOf data.length) data := by
  induction packets with
  | nil => rfl
  | cons data packets ih =>
    have hsum : data.length = lacingSum (lacingOf data.length) := (lacingSum_lacingOf _).symm
    rw [lacings, List.flatMap_cons, List.flatten_cons, segments_append hsum, List.flatMap_cons]
    congr 1

/-- Segments of 255 bytes and a shorter one, wherever they lie, are one packet, and it ends on the
page of the last of them. -/
theorem assemble_run {l : UInt8} (hl : l < continueLacing) {q : Nat} {data : Bytes}
    (hdata : data.length = q * 255 + l.toNat) {front : List (Page × Segment)}
    (hfront : front.map Prod.snd = segments (List.replicate q continueLacing ++ [l]) data) (pending : Option Bytes)
    (rest : List (Page × Segment)) :
    ∃ page s, front[q]? = some (page, s) ∧ s.ends = true ∧ front.length = q + 1 ∧
      assemble pending (front ++ rest) =
        ((page, pending.getD [] ++ data) :: (assemble none rest).1, (assemble none rest).2) := by
  induction q generalizing data front pending with
  | zero =>
    have htake : data.take l.toNat = data := List.take_of_length_le (by omega)
    have hsingle : front.map Prod.snd = [⟨l, data⟩] := by
      rw [hfront]
      simp [segments, htake]
    obtain ⟨⟨page, s⟩, rfl, rfl⟩ := List.map_eq_singleton_iff.mp hsingle
    have hs : Segment.ends ⟨l, data⟩ = true := by simpa [Segment.ends] using hl
    exact ⟨page, _, rfl, hs, rfl, assemble_of_ends hs pending page rest⟩
  | succ q ih =>
    have hcons : front.map Prod.snd =
        ⟨continueLacing, data.take 255⟩ :: segments (List.replicate q continueLacing ++ [l]) (data.drop 255) := hfront
    obtain ⟨⟨first, s⟩, front, rfl, rfl, htail⟩ := List.map_eq_cons_iff.mp hcons
    have hdrop : (data.drop 255).length = q * 255 + l.toNat := by
      rw [List.length_drop]
      omega
    have hs : Segment.ends ⟨continueLacing, data.take 255⟩ = false := rfl
    obtain ⟨page, last, hlast, hends, hlength, hassemble⟩ := ih hdrop htail (some (pending.getD [] ++ data.take 255))
    refine ⟨page, last, hlast, hends, by rw [List.length_cons, hlength], ?_⟩
    rw [List.cons_append, assemble_of_goesOn hs, hassemble, Option.getD_some, List.append_assoc,
      List.take_append_drop]

theorem length_lacings_cons (data : Bytes) (packets : List Bytes) :
    (lacings (data :: packets)).length = data.length / 255 + 1 + (lacings packets).length := by
  rw [lacings, List.flatMap_cons, List.length_append, length_lacingOf]
  rfl

theorem terminal_zero (data : Bytes) (packets : List Bytes) : terminal (data :: packets) 0 = data.length / 255 := by
  rw [terminal, List.take_succ_cons, length_lacings_cons]
  simp [lacings]

theorem terminal_succ (data : Bytes) {packets : List Bytes} (hne : packets ≠ []) (n : Nat) :
    terminal (data :: packets) (n + 1) = data.length / 255 + 1 + terminal packets n := by
  obtain ⟨next, packets, rfl⟩ := List.exists_cons_of_ne_nil hne
  simp only [terminal, List.take_succ_cons, length_lacings_cons]
  omega

/-- **The segments of some packets, put together, are the packets**, wherever they lie, and each
ends on the page of its last segment. -/
theorem assemble_packets (packets : List Bytes) {all : List (Page × Segment)}
    (h : all.map Prod.snd = segments (lacings packets) packets.flatten) :
    (assemble none all).2 = none ∧ (assemble none all).1.map Prod.snd = packets ∧
      ∀ n ended, (assemble none all).1[n]? = some ended →
        ∃ s, all[terminal packets n]? = some (ended.1, s) ∧ s.ends = true := by
  rw [segments_lacings] at h
  induction packets generalizing all with
  | nil =>
    obtain rfl : all = [] := List.map_eq_nil_iff.mp h
    exact ⟨rfl, rfl, fun n ended hended => by cases hended⟩
  | cons data packets ih =>
    rw [List.flatMap_cons] at h
    obtain ⟨front, rest, rfl, hfront, hrest⟩ := List.map_eq_append_iff.mp h
    obtain ⟨hleft, hpackets, hpages⟩ := ih hrest
    obtain ⟨page, s, hpage, hends, hlength, hassemble⟩ :=
      assemble_run (lastLacing_lt data.length) (length_eq_lacings data.length) hfront none rest
    rw [hassemble, Option.getD_none, List.nil_append]
    refine ⟨hleft, by rw [List.map_cons, hpackets], ?_⟩
    intro n ended hended
    cases n with
    | zero =>
      cases hended
      refine ⟨s, ?_, hends⟩
      rw [terminal_zero, List.getElem?_append_left (by omega), hpage]
    | succ n =>
      obtain ⟨s', hs', hends'⟩ := hpages n ended hended
      have hne : packets ≠ [] := by
        rintro rfl
        rw [List.map_eq_nil_iff.mp hpackets] at hended
        cases hended
      refine ⟨s', ?_, hends'⟩
      rw [terminal_succ data hne, ← hlength, List.getElem?_append_right (Nat.le_add_right _ _), Nat.add_sub_cancel_left,
        hs']

/-! ### A stream -/

/-- The packets made of byte strings that end on pages, the first of them at place `before` of
`total` in the stream. -/
def labelled (serial : UInt32) (total before : Nat) (ended : List (Page × Bytes)) : List Packet :=
  ended.mapIdx fun i e =>
    { data := e.2
      serial
      granule := e.1.granule
      pageSequence := e.1.sequence
      first := before + i == 0
      last := e.1.eos && before + i + 1 == total }

theorem data_labelled (serial : UInt32) (total before : Nat) (ended : List (Page × Bytes)) :
    (labelled serial total before ended).map Packet.data = ended.map Prod.snd := by
  refine List.ext_getElem? fun i => ?_
  rw [labelled, List.getElem?_map, List.getElem?_map, List.getElem?_mapIdx, Option.map_map]
  rfl

theorem labelled_append (serial : UInt32) (total before : Nat) (front rest : List (Page × Bytes)) :
    labelled serial total before (front ++ rest) =
      labelled serial total before front ++ labelled serial total (before + front.length) rest := by
  simp only [labelled, List.mapIdx_append, Nat.add_assoc, Nat.add_comm, Nat.add_left_comm]

namespace LogicalStream

/-- A stream expects pages: they go on where it stands and carry what is left of `total` packets. -/
structure Expects (s : LogicalStream) (total : Nat) (pages : List Page) : Prop where
  /-- The pages say whether they continue a packet. -/
  marked : Marked s.openPacket.isNone pages
  /-- The first of them is the successor of the latest page. -/
  next : ∀ p ∈ pages.head?, s.gapBefore p = false
  /-- The others are successors too. -/
  successive : pages.IsChain fun p q => q.sequence = p.sequence + 1
  /-- The stream has begun, or begins. -/
  bos : ∀ p ∈ pages.head?, (s.bos || p.bos) = true
  /-- No page but the last ends it. -/
  eos : ∀ p ∈ pages.dropLast, p.eos = false
  /-- No packet is left open. -/
  closed : (assemble s.openPacket (placed pages)).2 = none
  /-- All packets are there. -/
  total : s.packets + (assemble s.openPacket (placed pages)).1.length = total

section Expects

variable {s : LogicalStream} {total : Nat} {page : Page} {later : List Page}

/-- The packet that is open goes on, and all of the page is of use. -/
theorem Expects.carried (h : s.Expects total (page :: later)) :
    s.carried page = s.openPacket ∧ s.usable page = page.fragments := by
  have hgap : s.gapBefore page = false := h.next page rfl
  have hcontinued : page.continued = !s.openPacket.isNone := h.marked.1
  have hcarried : s.carried page = s.openPacket := by
    rw [LogicalStream.carried, hgap, hcontinued]
    cases s.openPacket <;> rfl
  refine ⟨hcarried, ?_⟩
  rw [LogicalStream.usable, hcarried, hcontinued]
  cases s.openPacket <;> rfl

/-- The page that ends the stream is the last. -/
theorem Expects.later_eq_nil (h : s.Expects total (page :: later)) (heos : page.eos = true) : later = [] := by
  cases later with
  | nil => rfl
  | cons next later =>
    have hno : page.eos = false := h.eos page (by simp)
    rw [heos] at hno
    cases hno

/-- What ends on the page and what is left open is what its segments come to. The page that ends
the stream leaves none open. -/
theorem Expects.completed (h : s.Expects total (page :: later)) :
    assemble s.openPacket page.placed =
      ((s.completed page).1.map fun data => (page, data), (s.completed page).2) := by
  obtain ⟨hcarried, husable⟩ := h.carried
  rw [assemble_page, LogicalStream.completed, hcarried, husable]
  cases heos : page.eos with
  | false => rfl
  | true =>
    have hclosed := h.closed
    rw [h.later_eq_nil heos, placed, List.flatMap_singleton, assemble_page] at hclosed
    rcases hjoin : joinFragments s.openPacket page.fragments with ⟨done, left⟩
    rw [hjoin] at hclosed
    obtain rfl : left = none := hclosed
    simp

/-- The segments ahead, put together: first what ends on the next page. -/
theorem Expects.assemble_cons (h : s.Expects total (page :: later)) :
    assemble s.openPacket (placed (page :: later)) =
      (((s.completed page).1.map fun data => (page, data)) ++ (assemble (s.accept page).2.openPacket (placed later)).1,
        (assemble (s.accept page).2.openPacket (placed later)).2) := by
  rw [placed, List.flatMap_cons, assemble_append, h.completed]
  rfl

/-- The packets that end on a page are labelled by it. -/
theorem Expects.label (h : s.Expects total (page :: later)) :
    (s.accept page).1 = labelled s.serial total s.packets ((s.completed page).1.map fun data => (page, data)) := by
  have hbegun : (s.bos || page.bos) = true := h.bos page rfl
  have htotal := h.total
  rw [h.assemble_cons, List.length_append, List.length_map] at htotal
  rw [accept_fst, LogicalStream.label, labelled]
  refine List.ext_getElem? fun i => ?_
  rw [List.getElem?_mapIdx, List.getElem?_mapIdx, List.getElem?_map, Option.map_map]
  congr 1
  funext data
  rw [hbegun, Bool.true_and]
  cases heos : page.eos with
  | false => simp [heos]
  | true =>
    -- nothing comes behind, so the last packet of the page is the last of all
    rw [h.later_eq_nil heos] at htotal
    have hcount : s.packets + (s.completed page).1.length = total := htotal
    have hlast : (i + 1 == (s.completed page).1.length) = (s.packets + i + 1 == total) := by
      rw [Bool.eq_iff_iff, beq_iff_eq, beq_iff_eq]
      omega
    simp [heos, hlast]

/-- **One page** leaves the stream expecting the others. -/
theorem Expects.accept (h : s.Expects total (page :: later)) : (s.accept page).2.Expects total later := by
  have hcons := h.assemble_cons
  constructor
  · have hopen := isNone_assemble s.openPacket page.placed
    rw [h.completed, Page.map_snd_placed] at hopen
    show Marked (s.completed page).2.isNone later
    rw [hopen]
    exact h.marked.2
  · intro next hnext
    obtain ⟨rest, rfl⟩ := List.head?_eq_some_iff.mp hnext
    have hsuccessor : next.sequence = page.sequence + 1 := (List.isChain_cons_cons.mp h.successive).1
    show (next.sequence != page.sequence + 1) = false
    rw [hsuccessor, bne_self_eq_false]
  · exact h.successive.tail
  · intro next _
    have hbegun : (s.bos || page.bos) = true := h.bos page rfl
    rw [bos_accept, hbegun, Bool.true_or]
  · intro p hp
    apply h.eos p
    have hne : later ≠ [] := by
      rintro rfl
      cases hp
    rw [List.dropLast_cons_of_ne_nil hne]
    exact List.mem_cons_of_mem page hp
  · rw [← h.closed, hcons]
  · rw [packets_accept, ← h.total, hcons, List.length_append, List.length_map, Nat.add_assoc]

/-- **A stream gives what the segments ahead come to**, each packet labelled by its page. -/
theorem emissions_of_expects {s : LogicalStream} {total : Nat} {pages : List Page} (h : s.Expects total pages)
    (i : Nat) :
    (s.emissions i pages).map Prod.snd =
      labelled s.serial total s.packets (assemble s.openPacket (placed pages)).1 := by
  induction pages generalizing s i with
  | nil => rfl
  | cons page later ih =>
    rw [emissions, List.map_append, ih h.accept, h.assemble_cons, labelled_append, ← h.label, List.length_map,
      packets_accept, List.map_map]
    congr 1
    exact List.map_id _

end Expects

end LogicalStream

/-! ### A tracker -/

/-- The segments of pages that carry packets are those of the packets. -/
theorem Carries.snd_placed {packets : List Bytes} {pages : List Page} (h : Carries packets pages) :
    (placed pages).map Prod.snd = segments (lacings packets) packets.flatten := by
  rw [Ogg.snd_placed h.whole, h.lacing, h.body]

/-- A stream of which no page has come yet expects pages that carry packets. -/
theorem Carries.expects {packets : List Bytes} {pages : List Page} (h : Carries packets pages) (serial : UInt32) :
    LogicalStream.Expects { serial } packets.length pages := by
  obtain ⟨hclosed, hpackets, -⟩ := assemble_packets packets h.snd_placed
  have hlength := congrArg List.length hpackets
  rw [List.length_map] at hlength
  refine ⟨h.marked, fun _ _ => rfl, h.successive, ?_, h.eos, hclosed, ?_⟩
  · intro p hp
    rw [h.bos p hp, Bool.or_true]
  · rw [← hlength]
    exact Nat.zero_add _

namespace Tracker

/-- The packets that come when one after the other is asked for, until there is none. -/
def drain (t : Tracker) : List Packet :=
  match _h : t.nextPacket with
  | (none, _) => []
  | (some packet, u) => packet :: u.drain
termination_by t.ready.length
decreasing_by exact length_ready_nextPacket _h

/-- The packets that come are those that wait. -/
theorem drain_eq_ready (t : Tracker) : t.drain = t.ready := by
  fun_induction drain t with
  | case1 t u h => exact (nextPacket_none h).1.symm
  | case2 t packet u h ih => rw [ih, (nextPacket_some h).1]

/-- What a tracker gives with pages that carry packets. -/
theorem drain_of_carries {serial : UInt32} {packets : List Bytes} {all : List Page}
    (h : Carries packets (pagesOf serial all)) :
    ((bind serial).ingestAll all).drain =
      labelled serial packets.length 0 (assemble none (placed (pagesOf serial all))).1 := by
  have hemissions := LogicalStream.emissions_of_expects (h.expects serial) 0
  rw [drain_eq_ready, ready_ingestAll (s := { serial }) rfl 0]
  exact hemissions

/-- **Packets that were cut into pages come back**, each once and in order, wherever the pages begin
and whatever pages of other streams come between them. Each says the stream, the granule position
and the number of the page on which its last segment lies. The first is marked as the first of the
stream, and the last as its last if it ends on the page that ends the stream. -/
theorem drain_packetized {serial : UInt32} {packets : List Bytes} {all : List Page}
    (h : Carries packets (pagesOf serial all)) :
    (((bind serial).ingestAll all).drain).map Packet.data = packets ∧
      ∀ n packet, (((bind serial).ingestAll all).drain)[n]? = some packet →
        ∃ page s, (placed (pagesOf serial all))[terminal packets n]? = some (page, s) ∧ s.ends = true ∧
          packet.serial = serial ∧ packet.granule = page.granule ∧ packet.pageSequence = page.sequence ∧
          packet.first = (n == 0) ∧ packet.last = (page.eos && n + 1 == packets.length) := by
  obtain ⟨-, hpackets, hpages⟩ := assemble_packets packets h.snd_placed
  rw [drain_of_carries h, data_labelled]
  refine ⟨hpackets, ?_⟩
  intro n packet hpacket
  rw [labelled, List.getElem?_mapIdx, Option.map_eq_some_iff] at hpacket
  obtain ⟨ended, hended, rfl⟩ := hpacket
  obtain ⟨s, hplaced, hends⟩ := hpages n ended hended
  refine ⟨ended.1, s, hplaced, hends, rfl, rfl, rfl, ?_, ?_⟩
  · rw [Nat.zero_add]
  · rw [Nat.zero_add]

/-- Three packets, the second of them empty. -/
def slicedPackets : List Bytes := [List.replicate 255 7, [], [1, 2]]

/-- The packets in pages whose numbers begin again at zero. The first packet is all on the first
page, but for the empty segment that ends it; the page behind it has no segments; and a page of
another stream lies between. -/
def slicedPages : List Page :=
  [Page.sealed ⟨2⟩ 3 0xffffffff 5 [255] (List.replicate 255 7), Page.sealed ⟨2⟩ 9 0 0 [1] [8],
    Page.sealed ⟨1⟩ 3 0 6 [] [], Page.sealed ⟨1⟩ 3 1 7 [0, 0] [], Page.sealed ⟨4⟩ 3 2 8 [2] [1, 2]]

theorem drain_slicedPages : Carries slicedPackets (pagesOf 3 slicedPages) ∧
    (((bind 3).ingestAll slicedPages).drain).map Packet.data = slicedPackets := by
  have hwhole : ∀ p ∈ pagesOf 3 slicedPages, p.body.length = p.header.bodyLength := by decide +kernel
  have hcarries : Carries slicedPackets (pagesOf 3 slicedPages) := by
    refine ⟨by decide +kernel, by decide +kernel, hwhole, by decide +kernel, ?_, by decide +kernel, by decide +kernel⟩
    exact ⟨rfl, rfl, rfl, rfl, trivial⟩
  exact ⟨hcarries, (drain_packetized hcarries).1⟩

end Tracker

end Ogg
