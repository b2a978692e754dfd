import Ogg.Proofs.Framer.Completion

/-!
# Searching undoes writing

A page that was written is found where it was written, with the fields it was written from, and
what follows it is left. And nothing else is found: the bytes that a search has used up for a
page are those that writing its fields gives.

The second holds of a framer at any time (`Course`), whatever was done with it and with its buffer
before. The bytes that searches have used up since they began to count are as many as the framer's
position says, so the last of them are those of the page.

## Main statements

* `Page.sound_iff_remade`: a page is in order exactly when it is the page of its fields.
* `next_of_encode`: a search of a written page finds it.
* `length_of_course`: a framer's position counts the bytes that its searches have used up.
* `next_inverts_sealed`: a search finds the written pages, and nothing else.
-/

namespace Ogg

namespace Page

/-- A page that is made of fields has those fields, and some checksum. -/
theorem exists_sealed_eq (flags : Flags) (serial sequence : UInt32) (granule : UInt64) (lacing body : Bytes) :
    ∃ sum, Page.sealed flags serial sequence granule lacing body =
      ⟨⟨0, flags, granule, serial, sequence, sum, lacing⟩, body⟩ := by
  refine ⟨sumOf ⟨⟨0, flags, granule, serial, sequence, 0, lacing⟩, body⟩, ?_⟩
  rw [Page.sealed, withSum]

/-- The page that is made of the fields of a page. -/
def remade (p : Page) : Page := sealed p.header.flags p.serial p.sequence p.granule p.header.lacing p.body

/-- The bytes that a checksum is taken of say nothing of the one that is carried. -/
theorem sumOf_remade {p : Page} (h : p.header.version = 0) : p.remade.header.checksum = p.sumOf := by
  have hbytes : p.encodeAround [0, 0, 0, 0] =
      encodeAround ⟨⟨0, p.header.flags, p.granule, p.serial, p.sequence, 0, p.header.lacing⟩, p.body⟩ [0, 0, 0, 0] := by
    rw [encodeAround, encodeAround, Header.encodeStart, Header.encodeStart, h]
    rfl
  rw [remade, sealed, checksum_withSum, sumOf, sumOf, hbytes]

/-- **A page is in order exactly when it can be written and is the page of its fields.** -/
theorem sound_iff_remade {p : Page} :
    p.Sound ↔ p.remade = p ∧ p.header.lacing.length ≤ 255 ∧ p.body.length = lacingSum p.header.lacing := by
  constructor
  · intro h
    refine ⟨?_, h.count, h.whole⟩
    have hsum := sumOf_remade h.version
    rw [← h.sum] at hsum
    obtain ⟨⟨version, flags, granule, serial, sequence, checksum, lacing⟩, body⟩ := p
    obtain rfl : version = 0 := h.version
    simp only [remade, sealed, withSum, Page.serial, Page.sequence, Page.granule] at hsum ⊢
    rw [hsum]
  · rintro ⟨hremade, hcount, hwhole⟩
    rw [← hremade]
    exact sound_sealed _ _ _ _ hcount hwhole

end Page

namespace Framer

/-! ### What was written is found -/

/-- **A search of a written page finds it**, and leaves what follows. -/
theorem next_of_encode {f : Framer} {p : Page} (hp : p.Sound) {r : Bytes} (hf : f.live = p.encode ++ r) :
    ∃ g, f.next = (.page p, g) ∧ g.live = r ∧ g.position = f.position + p.size := by
  have hjudge := Page.judge_encode_of_sound hp r
  have hsearch : search f.mode {} f.live = ({}, some p) := by
    rw [hf]
    cases hcons : p.encode ++ r with
    | nil =>
      rw [hcons] at hjudge
      cases hjudge
    | cons b d =>
      rw [hcons] at hjudge
      rw [search_cons, hjudge]
      rfl
  refine ⟨_, next_of_search_page hsearch, ?_, rfl⟩
  rw [live_take, live_pass, List.drop_zero, hf, Page.drop_size_encode]

/-! ### Nothing else is found -/

/-- What a framer has been through since its searches began to count: the bytes that they have
used up, and the framer. Between searches anything can be done to its buffer. -/
inductive Course : Bytes → Framer → Prop where
  /-- A new framer has used up nothing. -/
  | fresh : Course [] {}
  /-- Something was done to the buffer: bytes came in or were dropped, or room was made. -/
  | buffer {used : Bytes} {f : Framer} (b : Buffer) : Course used f → Course used { f with buffer := b }
  /-- It was said that the input has ended. -/
  | finish {used : Bytes} {f : Framer} : Course used f → Course used f.finish
  /-- It was said whether to resynchronise. -/
  | resync {used : Bytes} {f : Framer} (on : Bool) : Course used f → Course used { f with mode.resync := on }
  /-- What was found is forgotten, and the count begins again. -/
  | restart {used : Bytes} {f : Framer} : Course used f → Course [] f.restart
  /-- One search, which has used up some more bytes. -/
  | next {used more : Bytes} {f g : Framer} {pull : Pull} (h : f.next = (pull, g)) (hmore : f.live = more ++ g.live) :
      Course used f → Course (used ++ more) g

/-- The bytes that a search uses up are those that are no longer waiting. -/
theorem exists_used_of_next {f g : Framer} {pull : Pull} (h : f.next = (pull, g)) :
    ∃ more, f.live = more ++ g.live ∧ g.position = f.position + more.length := by
  obtain ⟨n, hn, hlive, hposition⟩ := f.next_advance
  rw [h] at hlive hposition
  refine ⟨f.live.take n, ?_, ?_⟩
  · rw [hlive, List.take_append_drop]
  · rw [hposition, List.length_take_of_le hn]

/-- **A framer's position counts the bytes that its searches have used up.** -/
theorem length_of_course {used : Bytes} {f : Framer} (h : Course used f) : used.length = f.position := by
  induction h with
  | fresh => rfl
  | buffer b _ ih => exact ih
  | finish _ ih => exact ih
  | resync on _ ih => exact ih
  | restart _ _ => rfl
  | next h hmore _ ih =>
    obtain ⟨more', hmore', hposition⟩ := exists_used_of_next h
    obtain rfl := List.append_cancel_right (hmore.symm.trans hmore')
    rw [List.length_append, ih, hposition]

/-- The last bytes that a search has used up for a page are its written form. -/
theorem exists_used_of_next_page {f g : Framer} {page : Page} (h : f.next = (.page page, g)) :
    page.Sound ∧ ∃ before, f.live = before ++ page.encode ++ g.live := by
  obtain ⟨q, hs, rfl⟩ := search_of_next_page h
  obtain ⟨hsound, -⟩ := Page.judge_eq_valid_iff.mp (judge_of_search_page hs)
  exact ⟨hsound, f.live.take q.skipped, live_of_search_page hs⟩

/-- **A search finds the written pages, and nothing else.** Bytes that begin with the written form
of fields that fit a page give a page of just those fields, of the defined version and with the
checksum that was written, and exactly the other bytes are left. And whatever a framer has been
through, the fields of a page that it finds fit a page, and what they are written as are the last
bytes that it has used up, those that end at its position. -/
theorem next_inverts_sealed :
    (∀ (f : Framer) (flags : Flags) (serial sequence : UInt32) (granule : UInt64) (lacing body r : Bytes),
      lacing.length ≤ 255 → body.length = lacingSum lacing →
        f.live = (Page.sealed flags serial sequence granule lacing body).encode ++ r →
          ∃ sum g, f.next = (.page ⟨⟨0, flags, granule, serial, sequence, sum, lacing⟩, body⟩, g) ∧
            Bytes.slice (Page.sealed flags serial sequence granule lacing body).encode 22 4 = Bytes.toLE 4 sum.toNat ∧
            g.live = r) ∧
      ∀ (used : Bytes) (f : Framer), Course used f → ∀ (page : Page) (g : Framer), f.next = (.page page, g) →
        page.header.version = 0 ∧ page.header.lacing.length ≤ 255 ∧ page.body.length = lacingSum page.header.lacing ∧
          ∃ more, f.live = more ++ g.live ∧ Course (used ++ more) g ∧ (used ++ more).length = g.position ∧
            page.size ≤ g.position ∧ (used ++ more).drop (g.position - page.size) =
              (Page.sealed page.header.flags page.serial page.sequence page.granule page.header.lacing
                page.body).encode := by
  constructor
  · intro f flags serial sequence granule lacing body r hcount hwhole hf
    have hsound := Page.sound_sealed flags serial sequence granule hcount hwhole
    obtain ⟨sum, hsealed⟩ := Page.exists_sealed_eq flags serial sequence granule lacing body
    rw [hsealed] at hsound hf ⊢
    obtain ⟨g, hnext, hlive, -⟩ := next_of_encode hsound hf
    exact ⟨sum, g, hnext, Page.slice_field_encode _, hlive⟩
  · intro used f hcourse page g hnext
    obtain ⟨hsound, before, hlive⟩ := exists_used_of_next_page hnext
    obtain ⟨hremade, hcount, hwhole⟩ := Page.sound_iff_remade.mp hsound
    have hcourse' := Course.next hnext hlive hcourse
    have hlength := length_of_course hcourse'
    have htotal : used.length + (before.length + page.size) = g.position := by
      rw [← hlength, List.length_append, List.length_append, Page.length_encode]
    refine ⟨hsound.version, hcount, hwhole, before ++ page.encode, hlive, hcourse', hlength, by omega, ?_⟩
    have hencode : (Page.sealed page.header.flags page.serial page.sequence page.granule page.header.lacing
        page.body).encode = page.encode := congrArg Page.encode hremade
    have hplace : g.position - page.size = (used ++ before).length := by
      rw [List.length_append]
      omega
    rw [hencode, hplace, ← List.append_assoc, List.drop_left]

/-- A page with a packet of three bytes. -/
def tinyPage : Page := Page.sealed ⟨4⟩ 6 1 8 [3] [1, 2, 3]

theorem next_inverts_tinyPage :
    (∃ sum g, (Framer.append {} (tinyPage.encode ++ [7])).next =
        (.page ⟨⟨0, ⟨4⟩, 8, 6, 1, sum, [3]⟩, [1, 2, 3]⟩, g) ∧ g.live = [7]) ∧
      ∃ g more, (Framer.append {} (0x4f :: tinyPage.encode)).next = (.page tinyPage, g) ∧ more.length = g.position ∧
        (Framer.append {} (0x4f :: tinyPage.encode)).live = more ++ g.live ∧
        more.drop (g.position - tinyPage.size) = tinyPage.encode := by
  obtain ⟨hwritten, hused⟩ := next_inverts_sealed
  constructor
  · obtain ⟨sum, g, hnext, -, hlive⟩ := hwritten (Framer.append {} (tinyPage.encode ++ [7])) ⟨4⟩ 6 1 8 [3] [1, 2, 3]
      [7] (by decide) rfl (live_append {} _)
    exact ⟨sum, g, hnext, hlive⟩
  · have hcourse : Course [] (Framer.append {} (0x4f :: tinyPage.encode)) := Course.buffer _ Course.fresh
    have hfound : (Framer.append {} (0x4f :: tinyPage.encode)).next.1 = .page tinyPage := by decide +kernel
    rcases hnext : (Framer.append {} (0x4f :: tinyPage.encode)).next with ⟨found, g⟩
    rw [hnext] at hfound
    obtain rfl : found = .page tinyPage := hfound
    obtain ⟨-, -, -, more, hlive, -, hlength, -, hlast⟩ := hused [] _ hcourse tinyPage g hnext
    exact ⟨g, more, rfl, hlength, hlive, hlast⟩

end Framer

end Ogg
