import Ogg.Proofs.Page.Torn
import Ogg.Proofs.Probe.Handoff
import Mathlib.Data.List.Infix

/-!
# What a probe decides

A probe comes to its outcome by searches, one after another, and by what they counted. The
outcome is a function of the bytes in its window alone, and can be said without searches:
`decision` looks at the pages up to the first tear, at whether the capture pattern occurs,
and at the first packet of the first page's stream.

Without a page the probe looks at its counts and at the bytes that wait. Together they say
whether the capture pattern occurs in the window (`capture_iff_of_search_none`): a search
passes over an occurrence only as a spurious candidate, and comes to rest at most on one.

## Main statements

* `upToTear_of_search_page`, `upToTear_of_search_none`: what the searches of a window find.
* `Controller.firstPacket_fst`: the first packet from the bytes that were read.
* `Controller.conclude_eq_decision`: what is decided from a window.
* `Controller.probe_eq_decision`: what a probe of a faultless device comes to.
-/

namespace Ogg

open Page

/-! ### The searches of a window -/

section Window

variable {mode : Mode} (hresync : mode.resync = false)
include hresync

/-- What a search that stops at a tear passes over, the walk up to the first tear passes over. -/
theorem upToTear_of_step {left : Nat} {b : UInt8} {r : Bytes} {q : Passed}
    (h : mode.step left (judge (b :: r)) = some q) : upToTear (b :: r) = upToTear r := by
  apply upToTear_of_passed
  · intro page hv
    rw [hv] at h
    cases h
  · intro hi
    rw [hi] at h
    simp only [Mode.step, hresync, Bool.and_false, Bool.false_eq_true, if_false] at h
    cases h

/-- A page that a search finds is the first one up to the first tear. -/
theorem upToTear_of_search_page {d : Bytes} {q : Passed} {page : Page} (h : search mode {} d = (q, some page)) :
    upToTear d = page :: upToTear (d.drop (q.skipped + page.size)) := by
  induction d generalizing q with
  | nil => simp [search] at h
  | cons b r ih =>
    have hv := judge_of_search_page h
    obtain ⟨-, rfl, -⟩ | ⟨s, t, hstep, ht, rfl⟩ := search_cons_cases h
    · rw [List.drop_zero] at hv
      rw [upToTear_of_valid hv, Nat.zero_add]
    · rw [upToTear_of_step hresync hstep, ih ht, Passed.andThen, Mode.skipped_of_step hstep, Nat.add_assoc,
        Nat.add_comm 1, List.drop_succ_cons]

/-- When a search finds no page, there is none up to the first tear. -/
theorem upToTear_of_search_none {d : Bytes} {q : Passed} (h : search mode {} d = (q, none)) : upToTear d = [] := by
  induction d generalizing q with
  | nil => rw [upToTear]
  | cons b r ih =>
    obtain ⟨hstep, -, hpage⟩ | ⟨s, t, hstep, ht, -⟩ := search_cons_cases h
    · cases hv : judge (b :: r) with
      | foreign =>
        rw [hv] at hstep
        cases hstep
      | partialCapture =>
        obtain ⟨-, hlt⟩ := length_lt_of_partialCapture hv
        exact upToTear_of_length_lt (Nat.lt_trans hlt (by decide))
      | incomplete => exact upToTear_of_incomplete hv
      | spurious flaw =>
        rw [hv] at hstep
        cases hstep
      | valid page =>
        rw [hv] at hpage
        cases hpage
    · rw [upToTear_of_step hresync hstep]
      exact ih ht

/-- What the framer still holds is what the walk up to the first tear still has to see. -/
theorem upToTear_of_next_page {f g : Framer} (hmode : f.mode = mode) {page : Page} (h : f.next = (.page page, g)) :
    upToTear f.live = page :: upToTear g.live := by
  subst hmode
  obtain ⟨q, hs, rfl⟩ := Framer.search_of_next_page h
  rw [upToTear_of_search_page hresync hs, Framer.live_take, Framer.live_pass, List.drop_drop]

theorem upToTear_of_next_rest {f g : Framer} (hmode : f.mode = mode) {last : Pull} (h : f.next = (last, g))
    (hno : ∀ page, last ≠ .page page) : upToTear f.live = [] := by
  subst hmode
  obtain ⟨q, hs, -⟩ := Framer.search_of_next_rest h hno
  exact upToTear_of_search_none hresync hs

end Window

/-- **Whether the capture pattern occurs**, when a search before the end of the input found no
page: it does if a candidate was rejected, or if the bytes that wait begin with one. -/
theorem capture_iff_of_search_none {mode : Mode} (hended : mode.ended = false) {d : Bytes} {q : Passed}
    (h : search mode {} d = (q, none)) :
    (0 < q.rejected ∨ capturePattern <+: d.drop q.skipped) ↔ capturePattern <:+: d := by
  induction d generalizing q with
  | nil =>
    rw [search, Prod.mk.injEq] at h
    obtain ⟨rfl, -⟩ := h
    decide
  | cons b r ih =>
    rw [List.infix_cons_iff]
    obtain ⟨hstep, rfl, -⟩ | ⟨s, t, hstep, ht, rfl⟩ := search_cons_cases h
    · rw [List.drop_zero]
      constructor
      · intro hwaits
        exact Or.inl (hwaits.resolve_left (Nat.lt_irrefl 0))
      · rintro (hhere | hlater)
        · exact Or.inr hhere
        · -- the search rests on a candidate, since the pattern does not fit behind a part of it
          by_cases hprefix : capturePattern <+: b :: r
          · exact Or.inr hprefix
          · rcases not_capture_iff.mp hprefix with hv | hv
            · have hlt := (length_lt_of_partialCapture hv).2
              have hle := hlater.length_le
              rw [List.length_cons] at hlt
              omega
            · rw [hv] at hstep
              cases hstep
    · have ih := ih ht
      rw [Passed.andThen, Mode.skipped_of_step hstep, Nat.add_comm 1, List.drop_succ_cons]
      obtain ⟨rfl, hv⟩ | ⟨-, -, hno⟩ | ⟨rfl, flaw, hv⟩ := Mode.step_cases hstep
      · have hprefix : ¬ capturePattern <+: b :: r := not_capture_iff.mpr (hv.symm.imp And.left id)
        have hnone : (Passed.skip {}).rejected = 0 := rfl
        rw [hnone, Nat.zero_add, ih]
        exact ⟨Or.inr, fun hcapture => hcapture.resolve_left hprefix⟩
      · rw [hended] at hno
        cases hno
      · have hprefix : capturePattern <+: b :: r := (judge_eq_spurious_iff.mp ⟨flaw, hv⟩).1
        have hone : (Passed.reject {}).rejected = 1 := rfl
        rw [hone]
        exact ⟨fun _ => Or.inl hprefix, fun _ => Or.inl (Nat.add_pos_left Nat.one_pos _)⟩

/-! ### A tracker that is asked for its first packet -/

namespace Tracker

theorem serial_ingest {t : Tracker} (h : ∃ s, t.stream = some s) (page : Page) :
    (t.ingest page).2.serial = t.serial := by
  obtain ⟨s, hs⟩ := h
  by_cases hserial : page.serial = s.serial
  · rw [ingest_of_serial hs hserial, serial, serial, hs]
    rfl
  · rw [ingest_of_other hs hserial]

/-- A tracker that was never asked has no first packet only if none waits. -/
theorem ready_of_firstPacket_none {t u : Tracker} (hpopped : t.popped = 0) (h : t.firstPacket = (none, u)) :
    t.ready = [] := by
  have hno : ¬ t.popped > 0 := by omega
  rw [firstPacket, if_neg hno] at h
  exact (nextPacket_none h).1

end Tracker

/-! ### The decision -/

theorem Codec.codec_signature (c : Codec) : c.signature.codec = c := by cases c <;> rfl

/-- A signature that a packet is classified by has the route of its codec. -/
theorem route_of_classify {packet : Bytes} {s : Signature} (h : classify packet = .known s) :
    s.route = s.codec.route := by
  unfold classify classifyWith at h
  split at h
  · next found hfind =>
    cases h
    obtain ⟨c, -, rfl⟩ := List.mem_map.mp (List.mem_of_find?_eq_some hfind)
    rw [Codec.codec_signature]
    rfl
  · cases h

namespace Probe

/-- What becomes of a stream by its first packet: its codec is known, be it one that can be
opened or one that is refused, or it is not known. -/
def identification (serial : UInt32) (packet : Packet) : Except Failure (Option Probed) :=
  match classify packet.data with
  | .unknown dump => .error (.unknownCodec dump)
  | .known signature =>
    match signature.codec.route with
    | .handoff => .ok (some ⟨signature.codec, serial, packet⟩)
    | .reprobe => .ok (some ⟨signature.codec, serial, packet⟩)
    | .refused reason => .error (.unsupported signature.codec reason)

/-- The first of some packets; when there is none, the packet goes on too long. -/
def firstOf : List Packet → Except Failure Packet
  | [] => .error (.malformed .packetTooLong)
  | packet :: _ => .ok packet

/-- What is decided from a window of bytes and the pages found in it; `short` says that the
input is shorter than the window might be. Without a page the input is no Ogg bitstream, or a
malformed one when the window is full and a capture pattern occurs in it. Else the first page
must begin a stream, and the first packet of that stream decides. -/
def decision (short : Bool) (window : Bytes) : List Page → Except Failure (Option Probed)
  | [] => if short = true ∨ ¬ capturePattern <:+: window then .ok none else .error (.malformed .noPage)
  | page :: later =>
    if page.bos = true then
      (firstOf ((Tracker.bind page.serial).ingestAll (page :: later)).ready).bind (identification page.serial)
    else .error (.malformed .firstPageNotBeginning)

namespace Controller

theorem verdict_fst (c : Controller) (serial : UInt32) (packet : Packet) :
    (c.verdict serial packet).1 = identification serial packet := by
  rw [verdict, identification]
  cases hclass : classify packet.data with
  | unknown dump => rfl
  | known signature =>
    simp only [route_of_classify hclass]
    cases signature.codec.route <;> rfl

theorem tracker_verdict (c : Controller) (serial : UInt32) (packet : Packet) :
    (c.verdict serial packet).2.tracker = c.tracker := by
  rw [verdict]
  split
  · rfl
  · split <;> rfl

theorem firstPage_of_page {c : Controller} {g : Framer} {page : Page} (h : c.framer.next = (.page page, g))
    (short : Bool) : c.firstPage short = (.ok (some page), { c with framer := g, phase := .pageAcquired }) := by
  rw [firstPage, h]

theorem firstPage_of_rest {c : Controller} {g : Framer} {last : Pull} (h : c.framer.next = (last, g))
    (hno : ∀ page, last ≠ .page page) (short : Bool) :
    (c.firstPage short).1 =
      if short = true ∨ ¬ (g.stats.sawCapture || g.atCapture) = true then .ok none
      else .error (.malformed .noPage) := by
  rw [firstPage, h]
  split
  · next page g' heq => exact absurd (Prod.mk.inj heq).1 (hno page)
  · next heq =>
    obtain ⟨-, rfl⟩ := Prod.mk.inj heq
    cases short with
    | true => rfl
    | false => by_cases hcapture : (g.stats.sawCapture || g.atCapture) = true <;> simp [hcapture, fail]

/-- The counts and the bytes that wait say whether the capture pattern occurs in the window. -/
theorem capture_iff_of_filled {d : Bytes} {f g : Framer} {s : Source} (hf : Filled d false f s) {last : Pull}
    (h : f.next = (last, g)) (hno : ∀ page, last ≠ .page page) :
    (g.stats.sawCapture || g.atCapture) = true ↔ capturePattern <:+: f.live := by
  obtain ⟨q, hs, -, rfl⟩ := Framer.search_of_next_rest h hno
  rw [← capture_iff_of_search_none hf.short_eq hs, Bool.or_eq_true, Framer.atCapture, Framer.live_pass,
    List.isPrefixOf_iff_prefix]
  simp only [Framer.pass, hf.stats, Stats.sawCapture, Nat.zero_add, Nat.lt_irrefl, decide_false, Bool.false_or,
    decide_eq_true_eq, gt_iff_lt]

/-- **The first packet from the bytes that were read** is the first one that the tracker will
hold when it is given the pages up to the first tear. -/
theorem firstPacket_fst {c : Controller} (hresync : c.framer.mode.resync = false)
    (ht : ∃ stream, c.tracker.stream = some stream) (hpopped : c.tracker.popped = 0) :
    c.firstPacket.1 = firstOf (c.tracker.ingestAll (upToTear c.framer.live)).ready ∧
      c.firstPacket.2.tracker.serial = c.tracker.serial := by
  fun_induction firstPacket c with
  | case1 c packet u hfirst =>
    obtain ⟨hready, hstream⟩ := Tracker.firstPacket_some hfirst
    have htaken : c.tracker.ready = [packet] ++ u.ready := hready
    rw [Tracker.ready_ingestAll_of_taken hstream htaken]
    exact ⟨rfl, congrArg (Option.map _) hstream⟩
  | case2 c u hfirst page g hnext ih =>
    obtain rfl := Tracker.firstPacket_none hfirst
    have hmode : g.mode = c.framer.mode := by rw [← c.framer.mode_next, hnext]
    obtain ⟨hpacket, hserial⟩ := ih (hmode ▸ hresync) (Tracker.exists_stream_ingest ht page)
      ((Tracker.popped_ingest c.tracker page).trans hpopped)
    rw [hpacket, hserial, upToTear_of_next_page hresync rfl hnext]
    exact ⟨rfl, Tracker.serial_ingest ht page⟩
  | case3 c u hfirst last g hno hnext =>
    obtain rfl := Tracker.firstPacket_none hfirst
    have hnone : ∀ page, last ≠ .page page := fun page h => hno page h
    rw [upToTear_of_next_rest hresync rfl hnext hnone]
    show Except.error _ = firstOf c.tracker.ready ∧ _
    rw [Tracker.ready_of_firstPacket_none hpopped hfirst]
    exact ⟨rfl, rfl⟩

/-- Without a page, the window is no Ogg bitstream or a malformed one. -/
theorem conclude_of_rest {c : Controller} {d : Bytes} {short : Bool} {s : Source} (hf : Filled d short c.framer s)
    {g : Framer} {last : Pull} (h : c.framer.next = (last, g)) (hno : ∀ page, last ≠ .page page) :
    (c.conclude short).1 = decision short c.framer.live [] := by
  have hfirst := firstPage_of_rest h hno short
  have hcapture : short = true ∨ ¬ (g.stats.sawCapture || g.atCapture) = true ↔
      short = true ∨ ¬ capturePattern <:+: c.framer.live := by
    cases short with
    | true => simp only [true_or]
    | false => rw [capture_iff_of_filled hf h hno]
  rw [decision, conclude]
  generalize c.firstPage short = answer at hfirst ⊢
  obtain ⟨result, c₁⟩ := answer
  by_cases hnone : short = true ∨ ¬ capturePattern <:+: c.framer.live
  · rw [if_pos (hcapture.mpr hnone)] at hfirst
    obtain rfl : result = .ok none := hfirst
    rw [if_pos hnone]
  · rw [if_neg (mt hcapture.mp hnone)] at hfirst
    obtain rfl : result = .error (.malformed .noPage) := hfirst
    rw [if_neg hnone]

/-- **What is decided from a window** that has been read, and the stream that it is decided of. -/
theorem conclude_eq_decision {c : Controller} {d : Bytes} {short : Bool} {s : Source}
    (hf : Filled d short c.framer s) :
    (c.conclude short).1 = decision short c.framer.live (upToTear c.framer.live) ∧
      ∀ page ∈ (upToTear c.framer.live).head?, page.bos = true →
        (c.conclude short).2.tracker.serial = some page.serial := by
  rcases hnext : c.framer.next with ⟨last, g⟩
  by_cases hpage : ∃ page, last = .page page
  · obtain ⟨page, rfl⟩ := hpage
    have hpages := upToTear_of_next_page hf.resync rfl hnext
    have hmode : g.mode = c.framer.mode := by rw [← c.framer.mode_next, hnext]
    rw [hpages, List.head?_cons, decision]
    simp only [conclude, firstPage_of_page hnext, Option.mem_some_iff, forall_eq']
    cases hbos : page.bos with
    | false => exact ⟨rfl, fun h => absurd h Bool.false_ne_true⟩
    | true =>
      have hbind : ∃ stream, (Tracker.bind page.serial).stream = some stream := ⟨_, rfl⟩
      obtain ⟨hpacket, hserial⟩ := firstPacket_fst
        (c := { c with framer := g, phase := .pageAcquired, tracker := ((Tracker.bind page.serial).ingest page).2 })
        (hmode ▸ hf.resync) (Tracker.exists_stream_ingest hbind page) (Tracker.popped_ingest _ page)
      rw [Tracker.serial_ingest hbind] at hserial
      simp only [Bool.not_true, Bool.false_eq_true, if_false, if_true]
      split
      · next e c₂ hfirst =>
        rw [hfirst] at hpacket hserial
        exact ⟨congrArg (Except.bind · (identification page.serial)) hpacket, fun _ => hserial⟩
      · next packet c₂ hfirst =>
        rw [hfirst] at hpacket hserial
        rw [verdict_fst, tracker_verdict]
        exact ⟨congrArg (Except.bind · (identification page.serial)) hpacket, fun _ => hserial⟩
  · have hno : ∀ page, last ≠ .page page := fun page h => hpage ⟨page, h⟩
    rw [conclude_of_rest hf hnext hno, upToTear_of_next_rest hf.resync rfl hnext hno]
    exact ⟨rfl, fun page h => (by cases h)⟩

/-- **What a probe of a source comes to** that presents a byte string and can go back if it must. -/
theorem outcome_of_presents {c : Controller} (hmode : c.framer.mode.resync = false) {s : Source} {d : Bytes}
    (hs : s.Presents d) {p : Nat} (hp : s.position = .ok p) (hle : s.sniffed.length ≤ c.config.effectiveBudget)
    (hseek : c.reuses s p = false → ∃ t, s.seek 0 = .ok t) :
    (c.probe s).1 = decision (decide (d.length < c.config.effectiveBudget)) (d.take c.config.effectiveBudget)
      (upToTear (d.take c.config.effectiveBudget)) := by
  obtain ⟨c₁, s₁, hfill, hlive⟩ := fill_of_presents (c := c.reset) hs (Buffer.live_reset _) hp hle hseek
  have hbudget : c.reset.config.effectiveBudget = c.config.effectiveBudget := rfl
  rw [hbudget] at hfill hlive
  obtain ⟨hconclude, -⟩ := conclude_eq_decision (filled_of_fill hs (bare_reset hmode) hfill)
  rw [← hlive, ← hconclude, probe, hfill]

/-- **What a probe of a faultless device comes to.** The window are the first bytes of the
device, as many as the budget allows; one walk over it, up to its first tear, finds the pages;
and the window and its pages decide. -/
theorem probe_eq_decision {c : Controller} (hmode : c.framer.mode.resync = false) {device : Device}
    (hd : device.Faultless) :
    ∃ pages, (∀ found, UpToTear (device.data.take c.config.effectiveBudget) found ↔ found = pages) ∧
      (c.probe (.seekable device [])).1 =
        decision (decide (device.data.length < c.config.effectiveBudget))
          (device.data.take c.config.effectiveBudget) pages := by
  have hs : Source.Presents (.seekable device []) device.data := ⟨hd.sound, rfl, List.nil_prefix⟩
  exact ⟨upToTear (device.data.take c.config.effectiveBudget), fun _ => upToTear_iff,
    outcome_of_presents hmode hs (if_pos hd.tellable) (Nat.zero_le _)
      fun _ => ⟨_, Source.seek_of_seekable hd.seekable [] 0⟩⟩

/-- A page whose packet no codec claims, behind a capture pattern that begins no page. -/
def strangePage : Page := Page.sealed ⟨2⟩ 5 0 0 [6] [0x54, 0x68, 0x65, 0x6f, 0x72, 0x61]

/-- A device with a second page that the budget of one hundred bytes cuts off. -/
def strangeDevice : Device where
  data := capturePattern ++ 1 :: strangePage.encode ++ (Page.sealed ⟨4⟩ 5 1 0 [60] (List.replicate 60 0)).encode
  faults := [⟨0, .interrupted⟩]
  pace := fun _ => 7

theorem probe_strange_device : strangeDevice.Faultless ∧
    (Controller.probe { config := { budget := 100 } } (.seekable strangeDevice [])).1 =
      .error (.unknownCodec ⟨[0x54, 0x68, 0x65, 0x6f, 0x72, 0x61]⟩) := by
  have hd : strangeDevice.Faultless := ⟨by decide, rfl, rfl⟩
  obtain ⟨pages, hpages, hprobe⟩ :=
    probe_eq_decision (c := { config := { budget := 100 } }) rfl hd
  obtain rfl : [strangePage] = pages := (hpages _).mp (upToTear_iff.mpr (by decide +kernel))
  refine ⟨hd, ?_⟩
  rw [hprobe]
  decide +kernel

end Controller

end Probe

end Ogg
