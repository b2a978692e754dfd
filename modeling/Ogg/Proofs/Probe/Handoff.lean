import Ogg.Page.Encode
import Ogg.Proofs.Probe.Filling
import Ogg.Proofs.Stream.Packets

/-!
# The hand-off of a stream

A probe reads the beginning of a source, takes the first packet of its first stream, and
hands over the rest: the source, the bytes that wait, the packets that wait. An opener
that reads on from there gets what one parse of the whole byte string gives, so nothing
is lost at the hand-off, nothing comes twice, and nothing changes its place.

The invariant has two parts. Framer and source stay aligned, so that the future of the
framer (`Framer.complete`) is always that of the whole byte string, less the pages that
were found. And the packets asked for, with those that the tracker will still give, are
always all the packets of the stream.

## Main statements

* `drawFrom_eq`: what an opener reads is what is still to come.
* `Controller.firstPacket_ok`, `Controller.conclude_ok`: what a probe takes away.
* `Controller.dispatch_eq_whole`: a hand-off goes on with the whole stream.
-/

namespace Ogg.Probe

/-- The pages of a byte string, found by one framer that is given all of it at once; the
answer after the last page; and what is left. -/
def parseWhole (d : Bytes) : List (Nat × Page) × Pull × Framer := (Framer.append {} d).finish.drain

/-- The packets that a tracker holds when it is given the pages that a framer will find,
with the bytes that are ahead of it. -/
def toCome (f : Framer) (ahead : Bytes) (t : Tracker) : List Packet :=
  (t.ingestAll ((f.complete ahead).1.map Prod.snd)).ready

/-- The ending that goes with the last answer of a search. -/
def Ending.ofPull : Pull → Ending
  | .torn buffered => .torn buffered
  | _ => .finished

/-! ### One search -/

section Search

variable {d : Bytes} {f g : Framer} {s : Source}

/-- A page that is found is the first of those to come. -/
theorem toCome_of_next_page (ha : Aligned d f s) {page : Page} (h : f.next = (.page page, g)) (t : Tracker) :
    toCome f s.device.ahead t = toCome g s.device.ahead (t.ingest page).2 ∧
      (f.complete s.device.ahead).2 = (g.complete s.device.ahead).2 := by
  have hcomplete := Framer.complete_of_next_page h ha.ended
  constructor
  · rw [toCome, hcomplete]
    rfl
  · rw [hcomplete]

/-- A search that comes to rest at the end of the input leaves nothing to come. -/
theorem toCome_of_next_ended (ha : Aligned d f s) {last : Pull} (h : f.next = (last, g))
    (hno : ∀ page, last ≠ .page page) (hended : f.mode.ended = true) (t : Tracker) :
    toCome f s.device.ahead t = t.ready ∧ (f.complete s.device.ahead).2.1 = last := by
  have hcomplete : f.complete s.device.ahead = ([], last, g.bare) := by
    rw [ha.ended hended, Framer.complete_of_ended hended, Framer.outcome_of_next_rest h hno]
  constructor
  · rw [toCome, hcomplete]
    rfl
  · rw [hcomplete]

/-- A search that is starved before the end of the input takes nothing away. -/
theorem starved_of_next (ha : Aligned d f s) (h : f.next = (.starved, g)) (hg : ¬ g.mode.ended = true) :
    Aligned d g s ∧ g.mode.ended = false ∧ ∀ ahead, f.complete ahead = g.complete ahead := by
  have hstill : g.mode.ended = false := by simpa using hg
  have hf : f.mode.ended = false := by rw [← f.mode_next, h, hstill]
  exact ⟨ha.of_next h, hstill, Framer.complete_of_next_starved h (fun page hpage => by cases hpage) hf⟩

/-- The packets that wait are the first of those to come. -/
theorem toCome_takeAll (t : Tracker) (ahead : Bytes) : toCome f ahead t = t.ready ++ toCome f ahead t.takeAll.2 :=
  Tracker.ready_ingestAll_of_taken (t := t) (u := t.takeAll.2) rfl (List.append_nil t.ready).symm _

theorem reverse_takeAll (t : Tracker) (got : List Packet) :
    (t.takeAll.1.reverse ++ got).reverse = got.reverse ++ t.ready := by
  rw [List.reverse_append, List.reverse_reverse]
  rfl

end Search

/-! ### Reading on -/

/-- **What an opener reads is what is still to come**, however many bytes it reads at a time. -/
theorem drawFrom_eq {chunks : Nat → Nat} (hchunks : ∀ n, 0 < chunks n) {d : Bytes} {f : Framer} {s : Source}
    (ha : Aligned d f s) (t : Tracker) (reads : Nat) (got : List Packet) :
    (drawFrom chunks reads got f t s).rest.packets = got.reverse ++ toCome f s.device.ahead t ∧
      (drawFrom chunks reads got f t s).ending = Ending.ofPull (f.complete s.device.ahead).2.1 := by
  fun_induction drawFrom chunks reads got f t s with
  | case1 reads got f t s packets u page g hnext ih =>
    obtain ⟨hcome, hlast⟩ := toCome_of_next_page ha hnext u
    obtain ⟨hpackets, hending⟩ := ih (ha.of_next hnext)
    rw [hpackets, hending, toCome_takeAll t, hcome, hlast, reverse_takeAll, List.append_assoc]
    exact ⟨rfl, rfl⟩
  | case2 reads got f t s packets u buffered g hnext =>
    have hno : ∀ page, Pull.torn buffered ≠ .page page := fun page h => by cases h
    have hended : f.mode.ended = true := by
      cases hm : f.mode.ended with
      | true => rfl
      | false => cases Framer.starved_of_not_ended hnext hno hm
    obtain ⟨hcome, hlast⟩ := toCome_of_next_ended ha hnext hno hended t
    rw [hcome, hlast]
    exact ⟨reverse_takeAll t got, rfl⟩
  | case3 reads got f t s packets u g hnext hg =>
    have hno : ∀ page, Pull.starved ≠ .page page := fun page h => by cases h
    have hended : f.mode.ended = true := by rw [← f.mode_next, hnext, hg]
    obtain ⟨hcome, hlast⟩ := toCome_of_next_ended ha hnext hno hended t
    rw [hcome, hlast]
    exact ⟨reverse_takeAll t got, rfl⟩
  | case4 reads got f t s packets u g hnext hg chunk bytes fault v hread =>
    obtain ⟨hg, hstill, -⟩ := starved_of_next ha hnext hg
    obtain ⟨v', hread', -⟩ := hg.read hstill chunk
    rw [hread] at hread'
    cases hread'
  | case5 reads got f t s packets u g hnext hg chunk v hread ih =>
    obtain ⟨hg, hstill, hcomplete⟩ := starved_of_next ha hnext hg
    obtain ⟨v', hread', hahead, hafter⟩ := hg.read hstill chunk
    rw [hread, Prod.mk.injEq, Prod.mk.injEq] at hread'
    obtain ⟨htake, -, rfl⟩ := hread'
    -- nothing came, so nothing was ahead
    have hs : s.device.ahead = [] := by
      have hpos : 0 < chunk := hchunks reads
      rcases List.take_eq_nil_iff.mp htake.symm with hzero | hnil
      · omega
      · exact hnil
    have hv : v.device.ahead = [] := by rw [hahead, hs, List.drop_nil]
    have haligned : Aligned d (g.reserve chunk).finish v := by
      refine Aligned.finish (hafter _ ?_ rfl rfl) hv
      rw [Framer.live_reserve, hs, List.take_nil, List.append_nil]
    have hfuture : f.complete s.device.ahead = (g.reserve chunk).finish.complete v.device.ahead := by
      rw [hcomplete, hs, hv, Framer.complete_finish, Framer.complete_reserve]
    obtain ⟨hpackets, hending⟩ := ih haligned
    rw [hpackets, hending, toCome_takeAll t, toCome, toCome, hfuture, reverse_takeAll, List.append_assoc]
    exact ⟨rfl, rfl⟩
  | case6 reads got f t s packets u g hnext hg chunk b bytes v hread ih =>
    obtain ⟨hg, hstill, hcomplete⟩ := starved_of_next ha hnext hg
    obtain ⟨v', hread', hahead, hafter⟩ := hg.read hstill chunk
    rw [hread, Prod.mk.injEq, Prod.mk.injEq] at hread'
    obtain ⟨htake, -, rfl⟩ := hread'
    have haligned : Aligned d ((g.reserve chunk).receive (b :: bytes)) v := by
      refine hafter _ ?_ rfl rfl
      rw [Framer.live_receive, Framer.live_reserve, htake]
    have hfuture :
        f.complete s.device.ahead = ((g.reserve chunk).receive (b :: bytes)).complete v.device.ahead := by
      rw [hcomplete, Framer.complete_receive, Framer.complete_reserve, htake, hahead, List.take_append_drop]
    obtain ⟨hpackets, hending⟩ := ih haligned
    rw [hpackets, hending, toCome_takeAll t, toCome, toCome, hfuture, reverse_takeAll, List.append_assoc]
    exact ⟨rfl, rfl⟩

/-! ### What a probe takes away -/

namespace Controller

/-- The first page comes from the first search. -/
theorem firstPage_ok {c c' : Controller} {short : Bool} {page : Page}
    (h : c.firstPage short = (.ok (some page), c')) :
    ∃ g, c.framer.next = (.page page, g) ∧ c' = { c with framer := g, phase := .pageAcquired } := by
  unfold firstPage at h
  split at h
  · next found g hnext =>
    obtain ⟨hpage, rfl⟩ := Prod.mk.inj h
    cases hpage
    exact ⟨g, hnext, rfl⟩
  · simp only [fail] at h
    split at h
    · cases (Prod.mk.inj h).1
    · split at h <;> cases (Prod.mk.inj h).1

/-- **The first packet is the first of those to come**, and the others are still to come. -/
theorem firstPacket_ok {c c' : Controller} {packet : Packet} (h : c.firstPacket = (.ok packet, c')) {d : Bytes}
    {s : Source} (ha : Aligned d c.framer s) :
    Aligned d c'.framer s ∧
      toCome c.framer s.device.ahead c.tracker = packet :: toCome c'.framer s.device.ahead c'.tracker ∧
      (c.framer.complete s.device.ahead).2 = (c'.framer.complete s.device.ahead).2 := by
  fun_induction firstPacket c with
  | case1 c first u hfirst =>
    obtain ⟨hpacket, rfl⟩ := Prod.mk.inj h
    cases hpacket
    obtain ⟨hready, hstream⟩ := Tracker.firstPacket_some hfirst
    have htaken : c.tracker.ready = [packet] ++ u.ready := hready
    exact ⟨ha, Tracker.ready_ingestAll_of_taken hstream htaken _, rfl⟩
  | case2 c u hfirst page g hnext ih =>
    obtain rfl := Tracker.firstPacket_none hfirst
    obtain ⟨hcome, hlast⟩ := toCome_of_next_page ha hnext c.tracker
    obtain ⟨haligned, hpackets, hrest⟩ := ih h (ha.of_next hnext)
    refine ⟨haligned, ?_, ?_⟩
    · rw [hcome, hpackets]
    · rw [hlast, hrest]
  | case3 =>
    cases (Prod.mk.inj h).1

/-- A stream that can be opened has its first packet for the packet that names the codec. -/
theorem verdict_ok {c c' : Controller} {serial : UInt32} {packet : Packet} {probed : Probed}
    (h : c.verdict serial packet = (.ok (some probed), c')) :
    probed.serial = serial ∧ probed.firstPacket = packet ∧ c' = c.enter .classified := by
  unfold verdict at h
  split at h
  · cases (Prod.mk.inj h).1
  · split at h
    · cases (Prod.mk.inj h).1
    · obtain ⟨hprobed, rfl⟩ := Prod.mk.inj h
      cases hprobed
      exact ⟨rfl, rfl, rfl⟩

/-- **A stream that can be opened begins with the first page**, and the packets behind
the first one are still to come. -/
theorem conclude_ok {c c' : Controller} {short : Bool} {probed : Probed}
    (h : c.conclude short = (.ok (some probed), c')) {d : Bytes} {s : Source} (ha : Aligned d c.framer s) :
    Aligned d c'.framer s ∧
      (c.framer.complete s.device.ahead).1.head?.map (·.2.serial) = some probed.serial ∧
      toCome c.framer s.device.ahead (Tracker.bind probed.serial) =
        probed.firstPacket :: toCome c'.framer s.device.ahead c'.tracker ∧
      (c.framer.complete s.device.ahead).2 = (c'.framer.complete s.device.ahead).2 := by
  unfold conclude at h
  split at h
  · cases (Prod.mk.inj h).1
  · cases (Prod.mk.inj h).1
  · next page c₁ hpage =>
    obtain ⟨g, hnext, rfl⟩ := firstPage_ok hpage
    split at h
    · cases (Prod.mk.inj h).1
    · split at h
      · cases (Prod.mk.inj h).1
      · next packet c₂ hpacket =>
        obtain ⟨hserial, rfl, rfl⟩ := verdict_ok h
        obtain ⟨hcome, hlast⟩ := toCome_of_next_page ha hnext (Tracker.bind page.serial)
        obtain ⟨haligned, hpackets, hrest⟩ := firstPacket_ok hpacket (ha.of_next hnext)
        refine ⟨haligned, ?_, ?_, ?_⟩
        · rw [Framer.complete_of_next_page hnext ha.ended, hserial]
          rfl
        · rw [hserial, hcome]
          exact hpackets
        · rw [hlast]
          exact hrest

theorem probe_ok {c c' : Controller} {s s' : Source} {probed : Probed}
    (h : c.probe s = (.ok (some probed), c', s')) :
    ∃ short c₁, c.reset.fill s = (.ok short, c₁, s') ∧ c₁.conclude short = (.ok (some probed), c') := by
  unfold probe at h
  split at h
  · cases (Prod.mk.inj h).1
  · next short c₁ s₁ hfill =>
    obtain ⟨hconclude, hrest⟩ := Prod.mk.inj h
    obtain ⟨hc, hs⟩ := Prod.mk.inj hrest
    cases hs
    exact ⟨short, c₁, hfill, Prod.ext hconclude hc⟩

theorem bare_reset {c : Controller} (h : c.framer.mode.resync = false) : c.reset.framer.bare = Framer.bare {} := by
  rw [Framer.bare_eq_iff]
  refine ⟨Buffer.live_reset _, ?_, rfl, rfl⟩
  show Mode.mk false c.framer.mode.resync = ⟨false, false⟩
  rw [h]

/-- **A hand-off goes on with the whole stream.** When a probe of a source that presents
a byte string knows the codec, and the codec is one that is handed over, then dispatching
gives its opener a source that stands right behind the bytes that were read; and the first
packet and those that the opener reads on to, however many bytes it reads at a time, are
the packets of one parse of the whole byte string, which ends in a torn page exactly when
the opener meets one. -/
theorem dispatch_eq_whole {c : Controller} (hmode : c.framer.mode.resync = false) {s : Source} {d : Bytes}
    (hs : s.Presents d) {probed : Probed} {c' : Controller} {s' : Source}
    (h : c.probe s = (.ok (some probed), c', s')) (hroute : probed.codec.route = .handoff) {α : Type}
    (openers : Openers α) :
    ∃ handoff : Handoff,
      c'.dispatch s' probed openers =
          (let opening := (if probed.codec = .vorbis then openers.vorbis else openers.speex) handoff
           (opened probed.codec opening, { c' with framer := {}, tracker := {}, phase := .dispatched }, opening.2)) ∧
        handoff.source.position = .ok (handoff.framer.position + handoff.framer.live.length) ∧
        (parseWhole d).1.head?.map (·.2.serial) = some handoff.serial ∧
        ∀ chunks : Nat → Nat, (∀ n, 0 < chunks n) →
          handoff.firstPacket :: (handoff.draw chunks).rest.packets =
              ((Tracker.bind handoff.serial).ingestAll ((parseWhole d).1.map Prod.snd)).ready ∧
            ((handoff.draw chunks).ending = .finished ∧ (parseWhole d).2.1 = .starved ∨
              ∃ buffered, (handoff.draw chunks).ending = .torn buffered ∧ (parseWhole d).2.1 = .torn buffered) := by
  obtain ⟨short, c₁, hfill, hconclude⟩ := probe_ok h
  have hfilled := filled_of_fill hs (bare_reset hmode) hfill
  obtain ⟨haligned, hserial, hpackets, hlast⟩ := conclude_ok hconclude hfilled.toAligned
  have hwhole : c₁.framer.complete s'.device.ahead = ((parseWhole d).1, (parseWhole d).2.1, (parseWhole d).2.2.bare) :=
    hfilled.complete
  refine ⟨⟨s', c'.framer, c'.tracker, probed.codec, probed.serial, probed.firstPacket⟩, ?_, haligned.position, ?_, ?_⟩
  · simp only [dispatch_eq, hroute, handOver]
  · rwa [hwhole] at hserial
  · intro chunks hchunks
    obtain ⟨hdrawn, hending⟩ := drawFrom_eq hchunks haligned c'.tracker 0 []
    rw [toCome, hwhole] at hpackets
    rw [hwhole] at hlast
    rw [← hlast] at hending
    constructor
    · rw [hpackets]
      exact congrArg (probed.firstPacket :: ·) hdrawn
    · cases hpull : (parseWhole d).2.1 with
      | page page => exact absurd hpull (Framer.drain_last_ne_page _ page)
      | starved =>
        rw [hpull] at hending
        exact Or.inl ⟨hending, rfl⟩
      | torn buffered =>
        rw [hpull] at hending
        exact Or.inr ⟨buffered, hending, rfl⟩

end Controller

/-- The bytes of a short file: a page with an identification packet, and a page with a
packet of two bytes that ends the stream. -/
def shortBytes : Bytes :=
  (Page.sealed ⟨2⟩ 9 0 0 [7] [1, 118, 111, 114, 98, 105, 115]).encode ++ (Page.sealed ⟨4⟩ 9 1 0 [2] [5, 6]).encode

/-- The short file, behind a device that is interrupted once and gives out fifty bytes at
a time. -/
def shortFile : Source := .seekable { data := shortBytes, faults := [⟨3, .interrupted⟩], pace := fun _ => 50 } []

/-- Its stream. -/
def shortProbed : Probed := ⟨.vorbis, 9, ⟨[1, 118, 111, 114, 98, 105, 115], 9, 0, 0, true, false⟩⟩

/-- Openers that read a stream on. -/
def readers : Openers Rest where
  vorbis h := h.collect 3
  speex h := h.collect 3
  flac _ s := (.error "not handed over", s)

theorem dispatch_short_file :
    shortFile.Presents shortBytes ∧ ∃ c s' handoff, Controller.probe {} shortFile = (.ok (some shortProbed), c, s') ∧
      (c.dispatch s' shortProbed readers).2.2 = (readers.vorbis handoff).2 ∧
      handoff.source.position = .ok (handoff.framer.position + handoff.framer.live.length) ∧
      (handoff.firstPacket :: (handoff.draw fun _ => 3).rest.packets).map Packet.data =
        [[1, 118, 111, 114, 98, 105, 115], [5, 6]] ∧
      (handoff.draw fun _ => 3).ending = .finished := by
  have hs : shortFile.Presents shortBytes := ⟨by decide, rfl, List.nil_prefix⟩
  obtain ⟨hprobed, hstarved, hhead, hdata⟩ :
      (Controller.probe {} shortFile).1.toOption = some (some shortProbed) ∧ (parseWhole shortBytes).2.1 = .starved ∧
        (parseWhole shortBytes).1.head?.map (·.2.serial) = some 9 ∧
        ((Tracker.bind 9).ingestAll ((parseWhole shortBytes).1.map Prod.snd)).ready.map Packet.data =
          [[1, 118, 111, 114, 98, 105, 115], [5, 6]] := by decide +kernel
  rcases hprobe : Controller.probe {} shortFile with ⟨_ | outcome, c, s'⟩
  · rw [hprobe] at hprobed
    cases hprobed
  · rw [hprobe] at hprobed
    cases hprobed
    obtain ⟨handoff, hdispatch, hposition, hserial, hdraw⟩ := Controller.dispatch_eq_whole rfl hs hprobe rfl readers
    obtain ⟨hpackets, hending⟩ := hdraw (fun _ => 3) fun _ => by decide
    rw [hhead, Option.some.injEq] at hserial
    rw [← hserial] at hpackets
    refine ⟨hs, c, s', handoff, rfl, ?_, hposition, ?_, ?_⟩
    · rw [hdispatch]
      rfl
    · rw [hpackets, hdata]
    · rcases hending with ⟨hfinished, -⟩ | ⟨buffered, -, htorn⟩
      · exact hfinished
      · rw [hstarved] at htorn
        cases htorn

end Ogg.Probe
