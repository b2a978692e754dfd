import Ogg.Proofs.Probe.Handoff
import Ogg.Proofs.Probe.Supply

/-!
# What a probe does not look at

Free storage holds bytes of earlier sources. A controller keeps it when it is reset, and shows it
to the next source to be written over; a read that fails leaves it half written over. But nothing
that a framer or a controller does depends on what is in it, or on how much of it there is: with
other free storage the same happens, and other free storage is left (`Framer.withSlack`). Nor does
it matter where the source stood before, and once the bytes are read the settings do not matter.

## Main statements

* `Framer.next_withSlack`: free storage is of no account to a search.
* `Framer.receive_withSlack`: nor to bytes that come in.
* `Controller.conclude_moved`: nor to a decision, and neither are settings and origin.
* `Controller.takeIn_moved`: nor to what is gathered and taken in.
-/

namespace Ogg

namespace Buffer

/-- The buffer with other free storage. -/
def withSlack (b : Buffer) (slack : Bytes) : Buffer := { b with slack }

variable (b : Buffer) (slack : Bytes)

/-- Buffers that have used up the same bytes and hold the same bytes differ in free storage alone. -/
theorem eq_withSlack {b c : Buffer} (hpassed : c.passed = b.passed) (hlive : c.live = b.live) :
    c = b.withSlack c.slack := by
  obtain ⟨passed, live, slack⟩ := b
  obtain rfl : c.passed = passed := hpassed
  obtain rfl : c.live = live := hlive
  rfl

theorem reserve_withSlack (n : Nat) : ∃ slack', (b.withSlack slack).reserve n = (b.reserve n).withSlack slack' := by
  refine ⟨_, eq_withSlack ?_ ?_⟩
  · rw [passed_reserve, passed_reserve]
  · rw [live_reserve, live_reserve]
    rfl

/-- Bytes that are written over free storage do not show what was there. -/
theorem commit_fill_withSlack (d : Bytes) :
    ∃ slack', ((b.withSlack slack).fill d).commit d.length = ((b.fill d).commit d.length).withSlack slack' := by
  refine ⟨_, eq_withSlack rfl ?_⟩
  rw [live_commit_fill, live_commit_fill]
  rfl

end Buffer

namespace Framer

/-- The framer with other free storage. -/
def withSlack (f : Framer) (slack : Bytes) : Framer := { f with buffer := f.buffer.withSlack slack }

variable (f : Framer) (slack : Bytes)

@[simp] theorem live_withSlack : (f.withSlack slack).live = f.live := rfl

/-- **Free storage is of no account to a search.** -/
theorem next_withSlack : (f.withSlack slack).next = (f.next.1, f.next.2.withSlack slack) := by
  have hlive : (f.withSlack slack).live = f.live := rfl
  have hmode : (f.withSlack slack).mode = f.mode := rfl
  rw [next, next, hlive, hmode]
  rcases search f.mode {} f.live with ⟨q, _ | page⟩
  · rfl
  · rfl

theorem next_withSlack_of_next {f g : Framer} {pull : Pull} (h : f.next = (pull, g)) :
    (f.withSlack slack).next = (pull, g.withSlack slack) := by
  rw [next_withSlack, h]

theorem reserve_withSlack (n : Nat) : ∃ slack', (f.withSlack slack).reserve n = (f.reserve n).withSlack slack' := by
  obtain ⟨slack', h⟩ := f.buffer.reserve_withSlack slack n
  exact ⟨slack', congrArg (fun buffer => { f with buffer }) h⟩

theorem receive_withSlack (d : Bytes) : ∃ slack', (f.withSlack slack).receive d = (f.receive d).withSlack slack' := by
  obtain ⟨slack', h⟩ := f.buffer.commit_fill_withSlack slack d
  exact ⟨slack', congrArg (fun buffer => { f with buffer }) h⟩

theorem append_withSlack (d : Bytes) : ∃ slack', (f.withSlack slack).append d = (f.append d).withSlack slack' := by
  obtain ⟨slack₁, hreserve⟩ := f.reserve_withSlack slack d.length
  obtain ⟨slack₂, hreceive⟩ := (f.reserve d.length).receive_withSlack slack₁ d
  refine ⟨slack₂, ?_⟩
  show ((f.withSlack slack).reserve d.length).receive d = _
  rw [hreserve, hreceive]
  rfl

end Framer

namespace Probe.Controller

/-- The controller with other settings, another origin and other free storage. -/
def moved (c : Controller) (config : Config) (origin : Nat) (slack : Bytes) : Controller :=
  { c with config, origin, framer := c.framer.withSlack slack }

/-! ### Deciding -/

/-- Without the packet, the tracker is given the next page. -/
theorem firstPacket_of_page {c : Controller} {tracker : Tracker} (h : c.tracker.firstPacket = (none, tracker))
    {page : Page} {framer : Framer} (hnext : c.framer.next = (.page page, framer)) :
    c.firstPacket = firstPacket { c with framer, tracker := (tracker.ingest page).2 } := by
  rw [firstPacket, h]
  simp only
  split
  · next page' framer' hnext' =>
    obtain ⟨hpage, rfl⟩ := Prod.mk.inj (hnext'.symm.trans hnext)
    cases hpage
    rfl
  · next last framer' hno hnext' =>
    obtain ⟨rfl, -⟩ := Prod.mk.inj (hnext'.symm.trans hnext)
    exact absurd rfl (hno page)

/-- Without the packet and without a page, the packet is too long. -/
theorem firstPacket_of_rest {c : Controller} {tracker : Tracker} (h : c.tracker.firstPacket = (none, tracker))
    {last : Pull} {framer : Framer} (hnext : c.framer.next = (last, framer)) (hno : ∀ page, last ≠ .page page) :
    c.firstPacket = { c with framer, tracker }.fail .packetTooLong := by
  rw [firstPacket, h]
  simp only
  split
  · next page framer' hnext' =>
    obtain ⟨rfl, -⟩ := Prod.mk.inj (hnext'.symm.trans hnext)
    exact absurd rfl (hno page)
  · next last' framer' hno' hnext' =>
    obtain ⟨-, rfl⟩ := Prod.mk.inj (hnext'.symm.trans hnext)
    rfl

section Moved

variable (config : Config) (origin : Nat) (slack : Bytes)

theorem firstPage_moved (c : Controller) (short : Bool) :
    (c.moved config origin slack).firstPage short =
      ((c.firstPage short).1, (c.firstPage short).2.moved config origin slack) := by
  have hnext := c.framer.next_withSlack slack
  simp only [firstPage, moved, hnext]
  rcases c.framer.next with ⟨page | _ | _, g⟩
  case page => rfl
  all_goals
    have hcapture : ((g.withSlack slack).stats.sawCapture || (g.withSlack slack).atCapture) =
        (g.stats.sawCapture || g.atCapture) := rfl
    simp only [hcapture]
    split
    · rfl
    · split <;> rfl

theorem firstPacket_moved (c : Controller) :
    (c.moved config origin slack).firstPacket = (c.firstPacket.1, c.firstPacket.2.moved config origin slack) := by
  fun_induction firstPacket c with
  | case1 c packet tracker hfirst =>
    have hfirst' : (c.moved config origin slack).tracker.firstPacket = (some packet, tracker) := hfirst
    rw [firstPacket, hfirst']
    rfl
  | case2 c tracker hfirst page framer hnext ih =>
    rw [firstPacket_of_page (c := c.moved config origin slack) hfirst (Framer.next_withSlack_of_next slack hnext)]
    exact ih
  | case3 c tracker hfirst last framer hno hnext =>
    have hnone : ∀ page, last ≠ .page page := fun page h => hno page h
    rw [firstPacket_of_rest (c := c.moved config origin slack) hfirst (Framer.next_withSlack_of_next slack hnext) hnone]
    rfl

theorem verdict_moved (c : Controller) (serial : UInt32) (packet : Packet) :
    (c.moved config origin slack).verdict serial packet =
      ((c.verdict serial packet).1, (c.verdict serial packet).2.moved config origin slack) := by
  simp only [verdict]
  split
  · rfl
  · split <;> rfl

/-- **Settings, origin and free storage do not matter once the buffer is filled.** -/
theorem conclude_moved (c : Controller) (short : Bool) :
    (c.moved config origin slack).conclude short =
      ((c.conclude short).1, (c.conclude short).2.moved config origin slack) := by
  rw [conclude, conclude, firstPage_moved]
  rcases c.firstPage short with ⟨e | found, c'⟩
  · rfl
  · cases found with
    | none => rfl
    | some page =>
      cases hbos : page.bos with
      | false =>
        simp only [hbos, Bool.not_false, if_true]
        rfl
      | true =>
        have hpacket := firstPacket_moved config origin slack
          { c' with tracker := ((Tracker.bind page.serial).ingest page).2 }
        simp only [moved] at hpacket
        simp only [hbos, Bool.not_true, Bool.false_eq_true, if_false, moved, hpacket]
        rcases firstPacket { c' with tracker := ((Tracker.bind page.serial).ingest page).2 } with ⟨e | packet, c''⟩
        · rfl
        · exact verdict_moved config origin slack c'' page.serial packet

end Moved

/-- A decision leaves the free storage as it was. -/
theorem slack_conclude (c : Controller) (short : Bool) :
    (c.conclude short).2.framer.buffer.slack = c.framer.buffer.slack := by
  have h := conclude_moved c.config c.origin c.framer.buffer.slack c short
  exact congrArg (fun result => result.2.framer.buffer.slack) h

/-! ### Taking in -/

/-- Bytes that were read are taken in as well by a controller with other free storage. -/
theorem absorb_moved (c : Controller) (origin : Nat) (slack bytes : Bytes) (fault : Option IoError) :
    ∃ slack', (c.moved c.config origin slack).absorb bytes fault =
      ((c.absorb bytes fault).1, (c.absorb bytes fault).2.moved c.config origin slack') := by
  generalize hwanted : c.config.effectiveBudget - c.framer.live.length = wanted
  obtain ⟨slack₁, hreserve⟩ := c.framer.reserve_withSlack slack wanted
  cases fault with
  | some fault =>
    have hbuffer : (c.framer.withSlack slack).buffer.reserve wanted = (c.framer.buffer.reserve wanted).withSlack slack₁ :=
      congrArg Framer.buffer hreserve
    refine ⟨bytes.overlay slack₁, ?_⟩
    simp only [absorb, moved, Framer.live_withSlack, hwanted, hbuffer]
    rfl
  | none =>
    obtain ⟨slack₂, hreceive⟩ := (c.framer.reserve wanted).receive_withSlack slack₁ bytes
    refine ⟨slack₂, ?_⟩
    simp only [absorb, moved, Framer.live_withSlack, hwanted, hreserve, hreceive]
    split
    · rfl
    · rfl

theorem origin_absorb (c : Controller) (bytes : Bytes) (fault : Option IoError) :
    (c.absorb bytes fault).2.origin = c.origin := by
  cases fault <;> rfl

/-- **What is gathered is taken in as well by a controller with another origin and other free
storage.** The origin is the same after that, unless the source cannot say where it stands. -/
theorem takeIn_moved (c : Controller) (origin : Nat) (slack : Bytes) (intake : Intake) :
    ∃ origin' slack', (c.moved c.config origin slack).takeIn intake =
        ((c.takeIn intake).1, (c.takeIn intake).2.moved c.config origin' slack') ∧
      ((∀ e, intake ≠ .lost e) → origin' = (c.takeIn intake).2.origin) := by
  cases intake with
  | lost e => exact ⟨origin, slack, rfl, fun h => absurd rfl (h e)⟩
  | stuck p e => exact ⟨p, slack, rfl, fun _ => rfl⟩
  | reused p sniffed bytes fault =>
    obtain ⟨slack₁, happend⟩ := c.framer.append_withSlack slack sniffed
    obtain ⟨slack₂, habsorb⟩ := absorb_moved { c with origin := p, framer := c.framer.append sniffed } p slack₁ bytes fault
    refine ⟨p, slack₂, ?_, fun _ => (origin_absorb { c with origin := p, framer := c.framer.append sniffed } bytes fault).symm⟩
    rw [takeIn, takeIn, ← habsorb]
    simp only [moved, happend]
  | read p bytes fault =>
    obtain ⟨slack₁, habsorb⟩ := absorb_moved { c with origin := p } p slack bytes fault
    exact ⟨p, slack₁, habsorb, fun _ => (origin_absorb { c with origin := p } bytes fault).symm⟩

end Probe.Controller

end Ogg
