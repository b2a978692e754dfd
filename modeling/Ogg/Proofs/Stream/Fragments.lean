import Ogg.Stream

/-!
# The packets of a page by its fragments

A stream takes a page apart segment by segment, and each packet goes into the queue as it ends,
behind packets of earlier pages that still wait there. What a page adds can be said without the
queue. The segments that belong together on one page form a `Fragment`; only the last fragment of a
page can be incomplete; the first one goes on with the packet that is open. That makes the packets
of a page (`LogicalStream.accept`), and the loop over the segments puts just these into the queue.

## Main statements

* `Assembly.takeSegments_eq_after`, `Assembly.takeSegments_skipping`: the loop, with the packet that it
  continues and without the head of a packet.
* `Assembly.ingest_eq_accept`, `Tracker.ingest_eq_accept`: to take a page is to accept it, and to put
  its packets into the queue.
-/

namespace Ogg

/-! ### Fragments -/

/-- The part of one packet that lies on one page. -/
structure Fragment where
  /-- Its segments, one after another. -/
  data : Bytes
  /-- The packet ends here. -/
  complete : Bool
  deriving DecidableEq, Repr

/-- The fragments of a body by its lacing values. A body that is too short leaves
the later segments short or empty. -/
def fragments : Bytes → Bytes → List Fragment
  | [], _ => []
  | lacing :: rest, body =>
    let segment := body.take lacing.toNat
    let more := fragments rest (body.drop lacing.toNat)
    if lacing < continueLacing then ⟨segment, true⟩ :: more
    else
      match more with
      | [] => [⟨segment, false⟩]
      | f :: fs => ⟨segment ++ f.data, f.complete⟩ :: fs

/-- The fragments of a page. -/
def Page.fragments (p : Page) : List Fragment := Ogg.fragments p.header.lacing p.body

/-- Joins fragments to an open packet: the packets that end, and the one left open. -/
def joinFragments : Option Bytes → List Fragment → List Bytes × Option Bytes
  | pending, [] => ([], pending)
  | pending, f :: fs =>
    let data := pending.getD [] ++ f.data
    if f.complete then
      let (done, left) := joinFragments none fs
      (data :: done, left)
    else joinFragments (some data) fs

theorem joinFragments_of_ends {l : UInt8} (h : l < continueLacing) (pending : Option Bytes) (rest body : Bytes) :
    joinFragments pending (fragments (l :: rest) body) =
      ((pending.getD [] ++ body.take l.toNat) :: (joinFragments none (fragments rest (body.drop l.toNat))).1,
        (joinFragments none (fragments rest (body.drop l.toNat))).2) := by
  simp only [fragments, if_pos h, joinFragments, if_true]

theorem joinFragments_of_goesOn {l : UInt8} (h : ¬ l < continueLacing) (pending : Option Bytes) (rest body : Bytes) :
    joinFragments pending (fragments (l :: rest) body) =
      joinFragments (some (pending.getD [] ++ body.take l.toNat)) (fragments rest (body.drop l.toNat)) := by
  simp only [fragments, if_neg h]
  cases fragments rest (body.drop l.toNat) with
  | nil => rfl
  | cons f fs => simp only [joinFragments, Option.getD_some, List.append_assoc]

theorem tail_fragments_of_ends {l : UInt8} (h : l < continueLacing) (rest body : Bytes) :
    (fragments (l :: rest) body).tail = fragments rest (body.drop l.toNat) := by
  simp only [fragments, if_pos h, List.tail_cons]

theorem tail_fragments_of_goesOn {l : UInt8} (h : ¬ l < continueLacing) (rest body : Bytes) :
    (fragments (l :: rest) body).tail = (fragments rest (body.drop l.toNat)).tail := by
  simp only [fragments, if_neg h]
  cases fragments rest (body.drop l.toNat) <;> rfl

/-! ### The packets of a page -/

/-- Where the packet at the back of a queue is marked. -/
theorem markLast_concat (ready : List Packet) (packet : Packet) :
    markLast (ready ++ [packet]) = ready ++ [{ packet with last := true }] := by
  simp [markLast]

/-- Packets in front of the one that is marked stay what they are. -/
theorem markLast_append (ready : List Packet) {more : List Packet} (h : more ≠ []) :
    markLast (ready ++ more) = ready ++ markLast more := by
  obtain rfl | ⟨more, packet, rfl⟩ := more.eq_nil_or_concat
  · exact absurd rfl h
  · rw [List.concat_eq_append, ← List.append_assoc, markLast_concat, markLast_concat, List.append_assoc]

namespace LogicalStream

/-- The open packet that a page can continue: none after a gap, and none if the
page does not say that it continues one. -/
def carried (s : LogicalStream) (page : Page) : Option Bytes :=
  if s.gapBefore page || !page.continued then none else s.openPacket

/-- The fragments of a page that can be used. The first fragment of a continued page
is of no use when the beginning of its packet is not at hand. -/
def usable (s : LogicalStream) (page : Page) : List Fragment :=
  if page.continued && (s.carried page).isNone then page.fragments.tail else page.fragments

/-- The packets that end on a page, as bytes, and the packet left open. At the end of
the stream the open packet ends too, such as it is. -/
def completed (s : LogicalStream) (page : Page) : List Bytes × Option Bytes :=
  let (done, left) := joinFragments (s.carried page) (s.usable page)
  if page.eos then (done ++ left.toList, none) else (done, left)

/-- The packets made of the byte strings that end on a page. -/
def label (s : LogicalStream) (page : Page) (done : List Bytes) : List Packet :=
  done.mapIdx fun i data =>
    { data
      serial := s.serial
      granule := page.granule
      pageSequence := page.sequence
      first := (s.bos || page.bos) && s.packets + i == 0
      last := page.eos && i + 1 == done.length }

/-- Takes the next page of the stream: the packets that end on it, in order, and what
is known after it. -/
def accept (s : LogicalStream) (page : Page) : List Packet × LogicalStream :=
  let (done, left) := s.completed page
  (s.label page done,
    { s with
      lastSequence := some page.sequence
      openPacket := left
      bos := s.bos || page.bos
      eos := s.eos || page.eos
      pages := s.pages + 1
      packets := s.packets + done.length
      gaps := if s.gapBefore page then s.gaps + 1 else s.gaps })

/-- What a stream turns to: the open packet is the one that the page can continue. -/
theorem turnTo_eq (s : LogicalStream) (page : Page) :
    s.turnTo page =
      { s with
        lastSequence := some page.sequence
        openPacket := s.carried page
        bos := s.bos || page.bos
        pages := s.pages + 1
        gaps := if s.gapBefore page then s.gaps + 1 else s.gaps } := by
  cases hgap : s.gapBefore page <;> cases hcontinued : page.continued <;>
    simp [turnTo, carried, dropOpen, hgap, hcontinued]

theorem accept_of_completed {s : LogicalStream} {page : Page} {done : List Bytes} {left : Option Bytes}
    (h : s.completed page = (done, left)) :
    s.accept page =
      (s.label page done,
        { s.turnTo page with
          openPacket := left
          packets := (s.turnTo page).packets + done.length
          eos := (s.turnTo page).eos || page.eos }) := by
  rw [accept, h, turnTo_eq]

/-- The packets made of byte strings as they end one after another. Which of them is the last is
not known yet. -/
def unmarked (s : LogicalStream) (page : Page) (done : List Bytes) : List Packet :=
  done.mapIdx fun i data =>
    { data
      serial := s.serial
      granule := page.granule
      pageSequence := page.sequence
      first := s.bos && s.packets + i == 0
      last := false }

/-- On a page that does not end the stream, no packet is the last. -/
theorem label_of_goesOn (s : LogicalStream) {page : Page} (h : page.eos = false) (done : List Bytes) :
    s.label page done = (s.turnTo page).unmarked page done := by
  simp only [label, unmarked, turnTo_eq, h, Bool.false_and]

/-- On a page that ends the stream, the packet at the back is the last. -/
theorem label_of_eos (s : LogicalStream) {page : Page} (h : page.eos = true) (done : List Bytes) :
    s.label page done = markLast ((s.turnTo page).unmarked page done) := by
  obtain rfl | ⟨done, data, rfl⟩ := done.eq_nil_or_concat
  · rfl
  · have hinner : ∀ i, i < done.length → (i + 1 == (done ++ [data]).length) = false := by
      intro i hi
      rw [List.length_append, List.length_singleton, beq_eq_false_iff_ne]
      omega
    have hlast : (done.length + 1 == (done ++ [data]).length) = true := by
      rw [List.length_append, List.length_singleton, beq_self_eq_true]
    rw [List.concat_eq_append, label, unmarked, List.mapIdx_concat, List.mapIdx_concat, markLast_concat, hlast, turnTo_eq, h]
    congr 1
    refine List.mapIdx_eq_mapIdx_iff.mpr fun i hi => ?_
    rw [hinner i hi, Bool.and_false]

end LogicalStream

/-! ### The loop over the segments -/

namespace Assembly

/-- A stream and its queue after some byte strings have ended on a page, with one left open. -/
def after (a : Assembly) (page : Page) (joined : List Bytes × Option Bytes) : Assembly where
  stream := { a.stream with openPacket := joined.2, packets := a.stream.packets + joined.1.length }
  ready := a.ready ++ a.stream.unmarked page joined.1

/-- A byte string ends, and others after it. -/
theorem after_emit (a : Assembly) (page : Page) (done : List Bytes) (left : Option Bytes) :
    (a.emit page).after page (done, left) = a.after page (a.stream.openPacket.getD [] :: done, left) := by
  simp only [after, emit, LogicalStream.dropOpen, LogicalStream.unmarked, List.mapIdx_cons, List.length_cons,
    List.append_assoc, List.singleton_append, Nat.add_zero, Nat.add_assoc, Nat.add_comm 1]

/-- Some byte strings end, and the one that is left open after them. -/
theorem emit_after (a : Assembly) (page : Page) (done : List Bytes) (data : Bytes) :
    (a.after page (done, some data)).emit page = a.after page (done ++ [data], none) := by
  simp only [after, emit, LogicalStream.dropOpen, LogicalStream.unmarked, List.mapIdx_concat, List.length_append,
    List.length_singleton, List.append_assoc, Nat.add_assoc, Option.getD_some]

/-- **The loop over the segments** joins the fragments of a page to the open packet. -/
theorem takeSegments_eq_after (a : Assembly) (page : Page) (lacing body : Bytes) :
    a.takeSegments page false lacing body =
      a.after page (joinFragments a.stream.openPacket (fragments lacing body)) := by
  induction lacing generalizing a body with
  | nil => simp [takeSegments, fragments, joinFragments, after, LogicalStream.unmarked]
  | cons l lacing ih =>
    rw [takeSegments]
    by_cases h : l < continueLacing
    · rw [if_pos h, ih, joinFragments_of_ends h]
      exact after_emit _ page _ _
    · rw [if_neg h, ih, joinFragments_of_goesOn h]
      rfl

/-- Without the head of a packet, the loop joins the fragments behind the first one. -/
theorem takeSegments_skipping (a : Assembly) (page : Page) (lacing body : Bytes) (h : a.stream.openPacket = none) :
    a.takeSegments page true lacing body = a.after page (joinFragments none (fragments lacing body).tail) := by
  induction lacing generalizing body with
  | nil => simp [takeSegments, fragments, joinFragments, after, LogicalStream.unmarked, ← h]
  | cons l lacing ih =>
    rw [takeSegments]
    by_cases hends : l < continueLacing
    · rw [decide_eq_true hends, tail_fragments_of_ends hends, ← h]
      exact takeSegments_eq_after a page lacing _
    · rw [decide_eq_false hends, tail_fragments_of_goesOn hends]
      exact ih _

/-! ### The end of a page -/

/-- The loop over the segments of a page begins with the packet that the page can continue. -/
theorem takeSegments_turnTo (s : LogicalStream) (ready : List Packet) (page : Page) :
    takeSegments page (page.continued && (s.turnTo page).openPacket.isNone) page.header.lacing page.body
        ⟨s.turnTo page, ready⟩ =
      after ⟨s.turnTo page, ready⟩ page (joinFragments (s.carried page) (s.usable page)) := by
  have hopen : (s.turnTo page).openPacket = s.carried page := by rw [LogicalStream.turnTo_eq]
  cases hskipping : page.continued && (s.turnTo page).openPacket.isNone with
  | true =>
    have husable : s.usable page = page.fragments.tail := by
      rw [LogicalStream.usable, if_pos (by rwa [← hopen])]
    have hnone : (s.turnTo page).openPacket = none :=
      Option.isNone_iff_eq_none.mp (Bool.and_eq_true_iff.mp hskipping).2
    rw [takeSegments_skipping _ _ _ _ hnone, husable, ← hopen, hnone]
    rfl
  | false =>
    have husable : s.usable page = page.fragments := by
      rw [LogicalStream.usable, if_neg (by rw [← hopen, hskipping]; exact Bool.false_ne_true)]
    rw [takeSegments_eq_after, husable, ← hopen]
    rfl

/-- A page that does not end the stream leaves its last fragment open. -/
theorem close_of_goesOn (a : Assembly) (before : Nat) {page : Page} (h : page.eos = false) :
    a.close before page = a := by
  rw [close, if_neg (by rw [h]; exact Bool.false_ne_true)]

/-- What is left open ends after the others. -/
theorem flush_after (a : Assembly) (page : Page) (done : List Bytes) (left : Option Bytes) :
    (a.after page (done, left)).flush page = a.after page (done ++ left.toList, none) := by
  cases left with
  | none => rw [Option.toList_none, List.append_nil]; rfl
  | some data => exact emit_after a page done data

/-- At the end of the stream what is left open ends too, and the packet at the back is marked if it
has come with the page. -/
theorem close_of_eos (a : Assembly) {page : Page} (h : page.eos = true) (done : List Bytes) (left : Option Bytes) :
    (a.after page (done, left)).close a.ready.length page =
      { stream := { (a.after page (done ++ left.toList, none)).stream with eos := true }
        ready := a.ready ++ markLast (a.stream.unmarked page (done ++ left.toList)) } := by
  have hflush : Assembly.flush { a.after page (done, left) with stream.eos := true } page =
      { a.after page (done ++ left.toList, none) with stream.eos := true } :=
    flush_after { a with stream.eos := true } page done left
  rw [close, if_pos h, hflush]
  generalize done ++ left.toList = all
  have hready : (a.after page (all, none)).ready = a.ready ++ a.stream.unmarked page all := rfl
  cases all with
  | nil =>
    simp [hready, LogicalStream.unmarked, markLast]
  | cons data all =>
    have hsome : a.stream.unmarked page (data :: all) ≠ [] := by simp [LogicalStream.unmarked]
    have hmore : a.ready.length < (a.ready ++ a.stream.unmarked page (data :: all)).length := by
      rw [List.length_append]
      have := List.length_pos_iff.mpr hsome
      omega
    simp only [hready, if_pos hmore, markLast_append _ hsome]

/-- **To take a page is to accept it**, and to put its packets into the queue, behind those that
wait. The answer is their number. -/
theorem ingest_eq_accept (s : LogicalStream) (ready : List Packet) (page : Page) :
    ingest ⟨s, ready⟩ page = ((s.accept page).1.length, ⟨(s.accept page).2, ready ++ (s.accept page).1⟩) := by
  have hclosed : ((takeSegments page (page.continued && (s.turnTo page).openPacket.isNone) page.header.lacing page.body
      ⟨s.turnTo page, ready⟩).close ready.length page) = ⟨(s.accept page).2, ready ++ (s.accept page).1⟩ := by
    rw [takeSegments_turnTo]
    rcases hj : joinFragments (s.carried page) (s.usable page) with ⟨done, left⟩
    cases heos : page.eos with
    | true =>
      have hcompleted : s.completed page = (done ++ left.toList, none) := by
        rw [LogicalStream.completed, hj]
        exact if_pos heos
      have hclose := close_of_eos ⟨s.turnTo page, ready⟩ heos done left
      rw [LogicalStream.accept_of_completed hcompleted, LogicalStream.label_of_eos s heos, heos, Bool.or_true]
      exact hclose
    | false =>
      have hcompleted : s.completed page = (done, left) := by
        rw [LogicalStream.completed, hj]
        exact if_neg (by rw [heos]; exact Bool.false_ne_true)
      rw [LogicalStream.accept_of_completed hcompleted, LogicalStream.label_of_goesOn s heos, heos, Bool.or_false]
      exact close_of_goesOn _ _ heos
  show (_ - ready.length, _) = _
  rw [hclosed, List.length_append, Nat.add_sub_cancel_left]

end Assembly

/-- A tracker accepts the pages of its stream, and keeps their packets. -/
theorem Tracker.ingest_eq_accept (t : Tracker) (page : Page) :
    t.ingest page =
      let stream := t.stream.getD { serial := page.serial }
      if stream.serial != page.serial then (0, t)
      else
        ((stream.accept page).1.length,
          { t with stream := some (stream.accept page).2, ready := t.ready ++ (stream.accept page).1 }) := by
  simp only [ingest, Assembly.ingest_eq_accept]

end Ogg
