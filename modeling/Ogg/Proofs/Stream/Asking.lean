import Ogg.Proofs.Stream.Packets

/-!
# When packets are asked for does not matter

A tracker is given pages and asked for packets, in any order. What a page adds to the packets that
wait depends on the stream alone (`Tracker.exists_added`), and asking does not touch the stream; so
packets that are asked for early are those that would have come first at the end. And since the
tracker counts what it has given out, it knows whether the first packet has been among them.

## Main statements

* `popped_append_ready`: asking between pages is asking behind them.
* `tallied_serveAll`: the packets of the stream were asked for, or wait.
* `serveAll_commutes`: it does not matter when packets are asked for.
-/

namespace Ogg

/-- What a tracker can be called for. -/
inductive Tracker.Request where
  /-- To take a page. -/
  | ingest (page : Page)
  /-- To give the next packet. -/
  | next
  /-- To give the first packet of the stream. -/
  | first
  deriving DecidableEq, Repr

/-- The page that a request brings. -/
def Tracker.Request.page? : Tracker.Request → Option Page
  | .ingest page => some page
  | .next | .first => none

/-- A packet that was given out. -/
structure Tracker.Popped where
  /-- The packet. -/
  packet : Packet
  /-- It was asked for as the first of the stream. -/
  asFirst : Bool
  deriving DecidableEq, Repr

namespace Tracker

/-- Answers a request: the packet that is given out, if one is, and the tracker after it. -/
def serve (t : Tracker) : Request → Option Popped × Tracker
  | .ingest page => (none, (t.ingest page).2)
  | .next => (t.nextPacket.1.map (⟨·, false⟩), t.nextPacket.2)
  | .first => (t.firstPacket.1.map (⟨·, true⟩), t.firstPacket.2)

/-- Answers some requests one after another: the packets that are given out, and the tracker
after all. -/
def serveAll (t : Tracker) : List Request → List Popped × Tracker
  | [] => ([], t)
  | r :: requests => ((t.serve r).1.toList ++ ((t.serve r).2.serveAll requests).1, ((t.serve r).2.serveAll requests).2)

/-- A tracker to begin with: bound to a serial number, or to be bound by the first page. -/
def begun : Option UInt32 → Tracker
  | none => {}
  | some serial => bind serial

/-- The packets that the stream of a tracker has given so far. -/
def emitted (t : Tracker) : Nat := (t.stream.map (·.packets)).getD 0

/-! ### One request after another -/

/-- A packet that is asked for is the first that waits. It can be asked for as the first of the
stream only while none was given out. -/
theorem serve_cases (t : Tracker) (r : Request) :
    (∃ page, r = .ingest page ∧ t.serve r = (none, (t.ingest page).2)) ∨
      (r.page? = none ∧ t.serve r = (none, t)) ∨
      ∃ popped, r.page? = none ∧ (t.serve r).1 = some popped ∧ t.ready = popped.packet :: (t.serve r).2.ready ∧
        (t.serve r).2.stream = t.stream ∧ (t.serve r).2.popped = t.popped + 1 ∧
        (popped.asFirst = true → t.popped = 0) := by
  cases r with
  | ingest page => exact Or.inl ⟨page, rfl, rfl⟩
  | next =>
    right
    cases hready : t.ready with
    | nil =>
      left
      simp only [serve, nextPacket, hready, Option.map_none, Request.page?, and_self]
    | cons packet rest =>
      right
      refine ⟨⟨packet, false⟩, rfl, ?_⟩
      simp [serve, nextPacket, hready]
  | first =>
    right
    by_cases hpopped : t.popped > 0
    · left
      simp only [serve, firstPacket, hpopped, if_true, Option.map_none, Request.page?, and_self]
    · cases hready : t.ready with
      | nil =>
        left
        simp only [serve, firstPacket, nextPacket, hpopped, if_false, hready, Option.map_none, Request.page?, and_self]
      | cons packet rest =>
        right
        refine ⟨⟨packet, true⟩, rfl, ?_⟩
        simp only [serve, firstPacket, nextPacket, hpopped, if_false, hready, Option.map_some, true_and, forall_const]
        omega

/-- **Asking between pages is asking behind them.** -/
theorem popped_append_ready (t : Tracker) (requests : List Request) :
    (t.serveAll requests).1.map Popped.packet ++ (t.serveAll requests).2.ready =
      (t.ingestAll (requests.filterMap Request.page?)).ready := by
  induction requests generalizing t with
  | nil => rfl
  | cons r requests ih =>
    rw [serveAll, List.map_append, List.append_assoc, ih]
    obtain ⟨page, rfl, hserve⟩ | ⟨hpage, hserve⟩ | ⟨popped, hpage, hsome, hready, hstream, -, -⟩ := serve_cases t r
    · rw [hserve]
      rfl
    · rw [hserve, List.filterMap_cons_none hpage]
      rfl
    · rw [hsome, List.filterMap_cons_none hpage]
      have htaken : t.ready = [popped.packet] ++ (t.serve r).2.ready := hready
      exact (ready_ingestAll_of_taken hstream htaken _).symm

/-- The packets that the stream has given were given out, or wait. -/
def Tallied (t : Tracker) : Prop := t.emitted = t.popped + t.ready.length

theorem tallied_begun (bound : Option UInt32) : Tallied (begun bound) := by
  cases bound <;> rfl

/-- The answer to a page is the number of packets that the stream gives with it. -/
theorem emitted_ingest (t : Tracker) (page : Page) : (t.ingest page).2.emitted = t.emitted + (t.ingest page).1 := by
  simp only [ingest_eq_accept]
  split
  · rfl
  · show ((t.stream.getD { serial := page.serial }).accept page).2.packets = _
    rw [LogicalStream.packets_accept, LogicalStream.accept_fst, LogicalStream.label, List.length_mapIdx, emitted]
    cases t.stream <;> rfl

theorem tallied_ingest {t : Tracker} (h : t.Tallied) (page : Page) : (t.ingest page).2.Tallied := by
  obtain ⟨added, after, hadded⟩ := exists_added t.stream page
  have hingest : t.ingest page = _ := hadded t.ready t.popped
  rw [Tallied, emitted_ingest, h, hingest, List.length_append, Nat.add_assoc]

theorem tallied_serve {t : Tracker} (h : t.Tallied) (r : Request) : (t.serve r).2.Tallied := by
  obtain ⟨page, rfl, hserve⟩ | ⟨-, hserve⟩ | ⟨popped, -, -, hready, hstream, hpopped, -⟩ := serve_cases t r
  · rw [hserve]
    exact tallied_ingest h page
  · rw [hserve]
    exact h
  · rw [Tallied, hready, List.length_cons] at h
    rw [Tallied, hpopped, emitted, hstream]
    exact h.trans (by omega)

/-- **The packets that the stream has given were given out, or wait**, and the tracker counts those
that were given out. -/
theorem tallied_serveAll {t : Tracker} (h : t.Tallied) (requests : List Request) :
    (t.serveAll requests).2.Tallied ∧ (t.serveAll requests).2.popped = t.popped + (t.serveAll requests).1.length := by
  induction requests generalizing t with
  | nil => exact ⟨h, rfl⟩
  | cons r requests ih =>
    obtain ⟨htallied, hcount⟩ := ih (tallied_serve h r)
    refine ⟨htallied, ?_⟩
    rw [serveAll, hcount, List.length_append]
    obtain ⟨page, rfl, hserve⟩ | ⟨-, hserve⟩ | ⟨popped, -, hsome, -, -, hpopped, -⟩ := serve_cases t r
    · rw [hserve, popped_ingest, Option.toList_none, List.length_nil, Nat.zero_add]
    · rw [hserve, Option.toList_none, List.length_nil, Nat.zero_add]
    · rw [hpopped, hsome, Option.toList_some, List.length_singleton, Nat.add_assoc]

/-- **A packet that is given out as the first of the stream is the first that is given out.** -/
theorem eq_zero_of_asFirst {t : Tracker} {requests : List Request} {i : Nat} {popped : Popped}
    (h : (t.serveAll requests).1[i]? = some popped) (hfirst : popped.asFirst = true) : t.popped = 0 ∧ i = 0 := by
  induction requests generalizing t i with
  | nil => cases h
  | cons r requests ih =>
    rw [serveAll] at h
    obtain ⟨page, rfl, hserve⟩ | ⟨-, hserve⟩ | ⟨popped', -, hsome, -, -, hpopped, hnone⟩ := serve_cases t r
    · rw [hserve] at h
      obtain ⟨hzero, hi⟩ := ih h
      exact ⟨(popped_ingest t page).symm.trans hzero, hi⟩
    · rw [hserve] at h
      exact ih h
    · rw [hsome] at h
      cases i with
      | zero =>
        cases h
        exact ⟨hnone hfirst, rfl⟩
      | succ i =>
        obtain ⟨hzero, -⟩ := ih h
        rw [hpopped] at hzero
        cases hzero

/-! ### The serial number -/

/-- A page binds a tracker that is not bound. -/
theorem serial_ingest_or (t : Tracker) (page : Page) :
    (t.ingest page).2.serial = t.serial.or (some page.serial) := by
  cases hstream : t.stream with
  | none => simp [ingest_eq_accept, hstream, serial, LogicalStream.accept]
  | some s =>
    simp only [ingest_eq_accept, hstream, Option.getD_some]
    split
    · simp [serial, hstream]
    · simp [serial, hstream, LogicalStream.accept]

theorem serial_serveAll (t : Tracker) (requests : List Request) :
    (t.serveAll requests).2.serial =
      t.serial.or ((requests.filterMap Request.page?).head?.map Page.serial) := by
  induction requests generalizing t with
  | nil => exact (Option.or_none).symm
  | cons r requests ih =>
    rw [serveAll, ih]
    obtain ⟨page, rfl, hserve⟩ | ⟨hpage, hserve⟩ | ⟨popped, hpage, -, -, hstream, -, -⟩ := serve_cases t r
    · rw [hserve, serial_ingest_or, Option.or_assoc, Option.some_or]
      rfl
    · rw [hserve, List.filterMap_cons_none hpage]
    · rw [serial, hstream, List.filterMap_cons_none hpage]
      rfl

theorem ready_ingestAll_filter_of_bound {t : Tracker} {serial : UInt32} (h : t.serial = some serial)
    (pages : List Page) :
    (t.ingestAll (pages.filter fun p => some p.serial == some serial)).ready = (t.ingestAll pages).ready := by
  obtain ⟨s, hs, rfl⟩ := Option.map_eq_some_iff.mp h
  exact ready_ingestAll_pagesOf hs pages

/-- Pages of other streams give no packets, also when the first page is yet to bind the tracker. -/
theorem ready_ingestAll_filter (t : Tracker) (pages : List Page) :
    (t.ingestAll (pages.filter fun p => some p.serial == t.serial.or (pages.head?.map Page.serial))).ready =
      (t.ingestAll pages).ready := by
  cases hserial : t.serial with
  | some serial => exact ready_ingestAll_filter_of_bound hserial pages
  | none =>
    cases pages with
    | nil => rfl
    | cons page later =>
      have hbound : (t.ingest page).2.serial = some page.serial := by rw [serial_ingest_or, hserial, Option.none_or]
      have hkept : (page :: later).filter (fun p => some p.serial == some page.serial) =
          page :: later.filter fun p => some p.serial == some page.serial := List.filter_cons_of_pos (beq_self_eq_true _)
      rw [Option.none_or, List.head?_cons, Option.map_some, hkept]
      exact ready_ingestAll_filter_of_bound hbound later

/-! ### Any requests -/

/-- The first packet is given out as such while none was given out. -/
theorem firstPacket_eq_head? (t : Tracker) :
    t.firstPacket.1 = if t.popped = 0 then t.ready.head? else none := by
  rw [firstPacket]
  rcases Nat.eq_zero_or_pos t.popped with hzero | hpos
  · rw [if_neg (by omega), if_pos hzero, nextPacket]
    cases t.ready <;> rfl
  · rw [if_pos hpos, if_neg (by omega)]

/-- **When packets are asked for does not matter.** Whatever is asked of a tracker, from when it was
bound or from when it is to be bound by the first page: the packets that it has given out and those
that wait are the packets that wait when none was asked for, and when no pages of other streams
came; they are as many as the stream has given. The answer to a page is the number of packets that
it adds. The first packet is given out as such while no packet was given out, so only once, and it
is the first that the stream has given. -/
theorem serveAll_commutes (bound : Option UInt32) (requests : List Request) :
    let pages := requests.filterMap Request.page?
    let popped := ((begun bound).serveAll requests).1
    let t := ((begun bound).serveAll requests).2
    let all := ((begun bound).ingestAll pages).ready
    popped.map Popped.packet ++ t.ready = all ∧
      t.serial = bound.or (pages.head?.map Page.serial) ∧
      all = ((begun bound).ingestAll (pages.filter fun p => some p.serial == t.serial)).ready ∧
      t.emitted = popped.length + t.ready.length ∧
      (∀ page, ∃ added, (t.ingest page).1 = added.length ∧ (t.ingest page).2.ready = t.ready ++ added) ∧
      t.firstPacket.1 = (if popped.isEmpty then all.head? else none) ∧ ∀ e ∈ popped.tail, e.asFirst = false := by
  intro pages popped t all
  have hall : popped.map Popped.packet ++ t.ready = all := popped_append_ready (begun bound) requests
  have hbound : (begun bound).serial = bound := by
    cases bound <;> rfl
  have hserial : t.serial = bound.or (pages.head?.map Page.serial) := by
    rw [← hbound]
    exact serial_serveAll (begun bound) requests
  obtain ⟨htallied, hcount⟩ := tallied_serveAll (tallied_begun bound) requests
  have hnone : (begun bound).popped = 0 := by
    cases bound <;> rfl
  rw [hnone, Nat.zero_add] at hcount
  refine ⟨hall, hserial, ?_, ?_, ?_, ?_, ?_⟩
  · have hfilter := ready_ingestAll_filter (begun bound) pages
    rw [hbound, ← hserial] at hfilter
    exact hfilter.symm
  · rw [← hcount]
    exact htallied
  · intro page
    obtain ⟨added, after, hadded⟩ := exists_added t.stream page
    have hingest : t.ingest page = _ := hadded t.ready t.popped
    exact ⟨added, by rw [hingest], by rw [hingest]⟩
  · rw [firstPacket_eq_head?, hcount, ← hall]
    show (if popped.length = 0 then t.ready.head? else none) = _
    cases popped <;> rfl
  · intro e he
    obtain ⟨i, hi⟩ := List.mem_iff_getElem?.mp he
    rw [List.getElem?_tail] at hi
    cases hfirst : e.asFirst with
    | false => rfl
    | true => cases (eq_zero_of_asFirst hi hfirst).2

/-- A page that begins a stream, with two packets. -/
def firstTwo : Page := ⟨⟨0, ⟨2⟩, 7, 4, 0, 0, [2, 1]⟩, [1, 2, 3]⟩

/-- A page of another stream. -/
def otherStream : Page := ⟨⟨0, ⟨2⟩, 9, 5, 0, 0, [1]⟩, [8]⟩

/-- The next page of the first stream, with one packet. -/
def third : Page := ⟨⟨0, ⟨4⟩, 8, 4, 1, 0, [1]⟩, [4]⟩

/-- Of three packets, two are given out while pages still come, and the third is left to wait. -/
theorem serveAll_commutes_firstTwo :
    let requests : List Request := [.ingest firstTwo, .first, .ingest otherStream, .first, .ingest third, .next]
    let popped := ((begun none).serveAll requests).1
    let all := ((begun none).ingestAll [firstTwo, otherStream, third]).ready
    popped.map (fun e => (e.packet.data, e.asFirst)) = [([1, 2], true), ([3], false)] ∧
      ((begun none).serveAll requests).2.ready.map Packet.data = [[4]] ∧
      all.map Packet.data = [[1, 2], [3], [4]] ∧ all = ((begun none).ingestAll [firstTwo, third]).ready := by
  intro requests popped all
  obtain ⟨hall, -, hown, -⟩ := serveAll_commutes none requests
  have hdata : _ = all.map Packet.data := congrArg (List.map Packet.data) hall
  exact ⟨by decide, by decide, hdata.symm.trans (by decide), hown⟩

end Tracker

end Ogg
