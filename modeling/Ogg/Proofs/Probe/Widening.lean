import Ogg.Proofs.Probe.Agreement
import Ogg.Proofs.Probe.Delivery

/-!
# Wider windows

A probe looks through a window at the beginning of its source. In a wider window, be it that the
budget is larger or that more bytes came, it sees the same pages first, and then perhaps others.
So what it has decided by a page and a packet stays decided (`Settled`), and so does that the first
page begins no stream: the pages in between were passed over for good, and the first packet of a
stream stays the first.

That there is no page, or no packet, may change with the next byte.

## Main statements

* `decision_of_prefix`: what is settled in a window is settled in a wider one.
* `Controller.probe_of_wider`: what a probe has settled, a probe of more bytes comes to as well.
-/

namespace Ogg.Probe

open Page

/-- What is settled by a page in order: by the first packet of its stream, which has ended, or by
its not beginning a stream. -/
def Settled : Except Failure (Option Probed) → Prop
  | .ok (some _) => True
  | .error (.unsupported _ _) => True
  | .error (.unknownCodec _) => True
  | .error (.malformed .firstPageNotBeginning) => True
  | _ => False

/-- Only pages can settle anything. -/
theorem not_settled_of_no_page (short : Bool) (window : Bytes) : ¬ Settled (decision short window []) := by
  rw [decision]
  split
  · exact id
  · exact id

/-- What the first pages settle, more pages behind them do not unsettle. -/
theorem decision_of_pages {short short' : Bool} {window window' : Bytes} {pages all : List Page} (hpages : pages <+: all)
    (hsettled : Settled (decision short window pages)) :
    decision short' window' all = decision short window pages := by
  cases pages with
  | nil => exact absurd hsettled (not_settled_of_no_page short window)
  | cons page later =>
    obtain ⟨more, rfl⟩ := hpages
    rw [List.cons_append]
    rcases decision_cons_cases short window page later with ⟨hbos, hdecision⟩ | ⟨hbos, hlong | hpacket⟩
    · rw [hdecision, decision, if_neg (by rw [hbos]; exact Bool.false_ne_true)]
    · rw [hlong] at hsettled
      exact hsettled.elim
    · obtain ⟨packet, rest, hready, hdecision⟩ := hpacket
      -- the packets that end on the first pages are the first of all
      obtain ⟨behind, hbehind⟩ := Tracker.ready_ingestAll_prefix (Tracker.bind page.serial)
        (List.prefix_append (page :: later) more)
      rw [hready] at hbehind
      rw [hdecision, decision, if_pos hbos, ← List.cons_append, ← hbehind]
      rfl

/-- **What is settled in a window is settled in a wider one.** -/
theorem decision_of_prefix {short short' : Bool} {window window' : Bytes} (hwindow : window <+: window')
    (hsettled : Settled (decision short window (upToTear window))) :
    decision short' window' (upToTear window') = decision short window (upToTear window) := by
  obtain ⟨more, rfl⟩ := hwindow
  exact decision_of_pages (upToTear_prefix_append window more) hsettled

namespace Controller

/-- What a probe decides of a byte string, whichever way it comes. -/
theorem outcome_of_delivery {c : Controller} (hmode : c.framer.mode.resync = false) {d : Bytes} {delivery : Delivery}
    (h : delivery.Brings d c.config) {s : Source} (hs : delivery.source = .ok s) :
    (c.probe s).1 = decision (decide (d.length < c.config.effectiveBudget)) (d.take c.config.effectiveBudget)
      (upToTear (d.take c.config.effectiveBudget)) := by
  obtain ⟨t, p, ht, hpresents, hposition, hle, hseek⟩ := Delivery.exists_source h
  obtain rfl : s = t := Except.ok.inj (hs.symm.trans ht)
  exact outcome_of_presents hmode hpresents hposition hle hseek

/-- **What a probe has settled stays when the budget grows and more bytes come.** A controller
probes a byte string, and another one, whose budget is at least as large, probes a byte string that
the first one begins. If the first comes to a stream that can be opened, to a codec that is refused
or not known, or to a first page that does not begin a stream, then the second comes to just the
same. It does not matter how the bytes come to either. -/
theorem probe_of_wider {c c' : Controller} (hmode : c.framer.mode.resync = false) (hmode' : c'.framer.mode.resync = false)
    (hbudget : c.config.effectiveBudget ≤ c'.config.effectiveBudget) {d d' : Bytes} (hbytes : d <+: d')
    {delivery delivery' : Delivery} (h : delivery.Brings d c.config) (h' : delivery'.Brings d' c'.config)
    {s s' : Source} (hs : delivery.source = .ok s) (hs' : delivery'.source = .ok s') (hsettled : Settled (c.probe s).1) :
    (c'.probe s').1 = (c.probe s).1 := by
  have hwindow : d.take c.config.effectiveBudget <+: d'.take c'.config.effectiveBudget :=
    (hbytes.take _).trans (List.take_prefix_take_left hbudget)
  rw [outcome_of_delivery hmode h hs] at hsettled ⊢
  rw [outcome_of_delivery hmode' h' hs']
  exact decision_of_prefix hwindow hsettled

end Controller

/-- A device that holds the page alone, and stands behind its header. -/
def pageDevice : Device where
  data := speexBytes.take 33
  offset := 28
  pace := fun _ => 5

theorem probe_of_wider_speexBytes :
    Delivery.Brings (speexBytes.take 33) { budget := 40 } (.seekable pageDevice) ∧
      Delivery.Brings speexBytes { budget := 50 } (.sniffedPipe joinedDevice 6) ∧ speexBytes.take 33 <+: speexBytes ∧
      (Controller.probe { config := { budget := 40 } } (.seekable pageDevice [])).1 = .ok (some speexProbed) ∧
      ∃ s, Source.sniffPipe joinedDevice 6 = .ok s ∧
        (Controller.probe { config := { budget := 50 } } s).1 = .ok (some speexProbed) := by
  have hpage : Delivery.Brings (speexBytes.take 33) { budget := 40 } (.seekable pageDevice) :=
    ⟨⟨by decide, rfl, rfl⟩, rfl⟩
  have hjoined : Delivery.Brings speexBytes { budget := 50 } (.sniffedPipe joinedDevice 6) :=
    ⟨by decide, rfl, by decide, fun _ => rfl⟩
  have hprobe : (Controller.probe { config := { budget := 40 } } (.seekable pageDevice [])).1 =
      .ok (some speexProbed) := by decide +kernel
  obtain ⟨s, -, hs, -⟩ := Delivery.exists_source hjoined
  have hwider : (Controller.probe { config := { budget := 50 } } s).1 =
      (Controller.probe { config := { budget := 40 } } (.seekable pageDevice [])).1 :=
    Controller.probe_of_wider rfl rfl (by decide) (List.take_prefix 33 speexBytes) hpage hjoined rfl hs
      (by rw [hprobe]; trivial)
  exact ⟨hpage, hjoined, List.take_prefix 33 speexBytes, hprobe, s, hs, hwider.trans hprobe⟩

end Ogg.Probe
