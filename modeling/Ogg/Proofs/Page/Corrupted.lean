import Ogg.Proofs.Checksum.Register
import Ogg.Proofs.Framer.Completion

/-!
# Short corruption is detected

A few bytes of a written page are changed, at most four in a row: in the fields before the
checksum, in the checksum, or in the body. What is changed is again a written page, of the same
lacing values, and its checksum is wrong. If the checksum was changed, it is no longer that of
the other bytes, which are what they were. Otherwise the register comes to the changed bytes as
before, is moved elsewhere by them, and the bytes behind them cannot bring it back.

So the candidate is spurious, whatever follows it, and a search goes on behind its first byte.

## Main statements

* `Checksum.update_ne_of_altered`: up to four changed bytes in a row change the checksum.
* `Page.exists_encode_of_altered`: what is changed is again a written page.
* `Page.judge_of_altered`: and its checksum is wrong.
* `Framer.next_of_altered`: a search rejects it, and finds no page where it begins.
-/

namespace Ogg

namespace Bytes

/-- A byte string is another one with some bytes changed, all of them among the `width` bytes
from `start` on. -/
structure Altered (d e : Bytes) (start width : Nat) : Prop where
  /-- They are of one length. -/
  length : e.length = d.length
  /-- Before the window and behind it they have the same bytes. -/
  outside : ∀ j, j < start ∨ start + width ≤ j → e[j]? = d[j]?
  /-- At least one byte was changed. -/
  ne : e ≠ d

theorem slice_congr {d e : Bytes} {i k : Nat} (h : ∀ j, i ≤ j → j < i + k → e[j]? = d[j]?) :
    slice e i k = slice d i k := by
  apply List.ext_getElem?
  intro j
  rw [slice, slice, List.getElem?_take, List.getElem?_take, List.getElem?_drop, List.getElem?_drop]
  split
  · exact h (i + j) (by omega) (by omega)
  · rfl

namespace Altered

variable {d e : Bytes} {start width : Nat} (h : Altered d e start width)
include h

/-- Bytes that the window does not reach are what they were. -/
theorem slice_eq {i k : Nat} (hout : i + k ≤ start ∨ start + width ≤ i) : slice e i k = slice d i k := by
  apply slice_congr
  intro j hi hj
  exact h.outside j (by omega)

theorem getD_eq {i : Nat} (hout : i < start ∨ start + width ≤ i) : e.getD i 0 = d.getD i 0 := by
  rw [List.getD_eq_getElem?_getD, List.getD_eq_getElem?_getD, h.outside i hout]

/-- The window was changed. -/
theorem slice_ne : slice e start width ≠ slice d start width := by
  intro hslice
  apply h.ne
  apply List.ext_getElem?
  intro j
  by_cases hout : j < start ∨ start + width ≤ j
  · exact h.outside j hout
  · have hj := congrArg (·[j - start]?) hslice
    have hplace : start + (j - start) = j := by omega
    have hlt : j - start < width := by omega
    simpa only [slice, List.getElem?_take, List.getElem?_drop, hplace, hlt, if_true] using hj

/-- A window may be widened. -/
theorem widen {start' width' : Nat} (hstart : start' ≤ start) (hend : start + width ≤ start' + width') :
    Altered d e start' width' :=
  ⟨h.length, fun j hj => h.outside j (by omega), h.ne⟩

/-- What was changed are the bytes between those before the window and those behind it. -/
theorem exists_split (hle : start + width ≤ d.length) :
    ∃ before w w' after, d = before ++ w ++ after ∧ e = before ++ w' ++ after ∧
      w.length = width ∧ w'.length = width ∧ w' ≠ w := by
  have hsplit : ∀ b : Bytes, b = slice b 0 start ++ slice b start width ++ b.drop (start + width) := by
    intro b
    have hjoin := slice_append_slice b 0 start width
    rw [Nat.zero_add] at hjoin
    rw [hjoin, slice_zero, List.take_append_drop]
  have hafter : e.drop (start + width) = d.drop (start + width) := by
    apply List.ext_getElem?
    intro j
    rw [List.getElem?_drop, List.getElem?_drop]
    exact h.outside _ (by omega)
  refine ⟨slice d 0 start, slice d start width, slice e start width, d.drop (start + width), hsplit d, ?_,
    length_slice hle, length_slice (h.length ▸ hle), h.slice_ne⟩
  rw [← hafter, ← h.slice_eq (i := 0) (k := start) (by omega)]
  exact hsplit e

end Altered

/-- Bytes that are replaced by as many others are a window that was changed. -/
theorem altered_append (before w w' after : Bytes) (hlength : w'.length = w.length) (hne : w' ≠ w) :
    Altered (before ++ w ++ after) (before ++ w' ++ after) before.length w.length := by
  refine ⟨by simp only [List.length_append, hlength], ?_, ?_⟩
  · rintro j (hbefore | hafter)
    · rw [List.append_assoc, List.append_assoc, List.getElem?_append_left hbefore, List.getElem?_append_left hbefore]
    · rw [List.getElem?_append_right (by rw [List.length_append, hlength]; exact hafter),
        List.getElem?_append_right (by rw [List.length_append]; exact hafter), List.length_append, List.length_append,
        hlength]
  · intro heq
    exact hne (List.append_cancel_left (List.append_cancel_right heq))

end Bytes

open Bytes

/-- **Up to four changed bytes in a row change the checksum**, from any register on. -/
theorem Checksum.update_ne_of_altered {d e : Bytes} {start width : Nat} (h : Altered d e start width)
    (hwidth : width ≤ 4) (hle : start + width ≤ d.length) (r : UInt32) : update r e ≠ update r d := by
  obtain ⟨before, w, w', after, rfl, rfl, hw, hw', hne⟩ := h.exists_split hle
  intro heq
  rw [update_append, update_append, update_append, update_append] at heq
  exact hne (eq_of_update_eq (by rw [hw, hw']) (by rw [hw']; exact hwidth) (update_injective heq))

namespace Page

/-- A byte string with zeros for the checksum field. -/
def blank (d : Bytes) : Bytes := d.take 22 ++ [0, 0, 0, 0] ++ d.drop 26

theorem blank_encode (p : Page) : blank p.encode = p.encodeAround [0, 0, 0, 0] := by
  have hstart : p.encode.take 22 = p.header.encodeStart := rfl
  have hrest : p.encode.drop 26 = p.header.encodeLacing ++ p.body := rfl
  rw [blank, hstart, hrest, encodeAround, List.append_assoc _ p.header.encodeLacing]

theorem sumOf_eq_blank (p : Page) : p.sumOf = Checksum.ofBytes (blank p.encode) := by
  rw [sumOf, blank_encode]

theorem length_blank {d : Bytes} (h : headerSize ≤ d.length) : (blank d).length = d.length := by
  unfold headerSize at h
  simp only [blank, List.length_append, List.length_take, List.length_drop, List.length_cons, List.length_nil]
  omega

theorem getElem?_blank {d : Bytes} (h : headerSize ≤ d.length) (j : Nat) :
    (blank d)[j]? = if 22 ≤ j ∧ j < 26 then some 0 else d[j]? := by
  unfold headerSize at h
  have htake : (d.take 22).length = 22 := List.length_take_of_le (by omega)
  rw [blank, List.append_assoc]
  by_cases h22 : j < 22
  · rw [List.getElem?_append_left (by omega), List.getElem?_take_of_lt h22, if_neg (by omega)]
  · rw [List.getElem?_append_right (by omega), htake]
    by_cases h26 : j < 26
    · rw [List.getElem?_append_left (by simp only [List.length_cons, List.length_nil]; omega), if_pos (by omega)]
      have hfour : j = 22 ∨ j = 23 ∨ j = 24 ∨ j = 25 := by omega
      rcases hfour with rfl | rfl | rfl | rfl <;> rfl
    · have hplace : 26 + (j - 22 - 4) = j := by omega
      rw [List.getElem?_append_right (by simp only [List.length_cons, List.length_nil]; omega), if_neg (by omega),
        List.getElem?_drop]
      simp only [List.length_cons, List.length_nil]
      rw [hplace]

section Altered

variable {d e : Bytes} {start width : Nat} (h : Altered d e start width) (hheader : headerSize ≤ d.length)
include h hheader

/-- What was changed outside the checksum field is changed when the field is blank. -/
theorem altered_blank (hout : start + width ≤ 22 ∨ 26 ≤ start) : Altered (blank d) (blank e) start width := by
  have hheader' : headerSize ≤ e.length := h.length ▸ hheader
  refine ⟨by rw [length_blank hheader, length_blank hheader', h.length], ?_, ?_⟩
  · intro j hj
    rw [getElem?_blank hheader, getElem?_blank hheader', h.outside j hj]
  · intro heq
    apply h.ne
    apply List.ext_getElem?
    intro j
    by_cases hfield : 22 ≤ j ∧ j < 26
    · exact h.outside j (by omega)
    · have hj := congrArg (·[j]?) heq
      simpa only [getElem?_blank hheader, getElem?_blank hheader', hfield, if_false] using hj

/-- What was changed in the checksum field does not show when the field is blank. -/
theorem blank_eq_of_altered (hin : 22 ≤ start ∧ start + width ≤ 26) : blank e = blank d := by
  have hheader' : headerSize ≤ e.length := h.length ▸ hheader
  apply List.ext_getElem?
  intro j
  rw [getElem?_blank hheader, getElem?_blank hheader']
  split
  · rfl
  · exact h.outside j (by omega)

end Altered

/-- The window lies in the fields between version and checksum, in the checksum, or in the body. -/
def Region (p : Page) (start width : Nat) : Prop :=
  5 ≤ start ∧ start + width ≤ 22 ∨ 22 ≤ start ∧ start + width ≤ 26 ∨
    p.header.encodedLength ≤ start ∧ start + width ≤ p.size

/-- **What is changed is again a written page** of the same length. -/
theorem exists_encode_of_altered {p : Page} (hp : p.Writable) {e : Bytes} {start width : Nat}
    (h : Altered p.encode e start width) (hregion : p.Region start width) :
    ∃ q : Page, q.Writable ∧ e = q.encode := by
  have hlength := p.length_encode
  have hsize : p.size = headerSize + p.header.lacing.length + p.body.length := rfl
  have hencoded : p.header.encodedLength = headerSize + p.header.lacing.length := rfl
  have hheader : headerSize ≤ e.length := by rw [h.length, hlength]; exact p.headerSize_le_size
  rw [Region, hencoded] at hregion
  unfold headerSize at hregion hheader hsize
  have hcapture : capturePattern <+: e := by
    have hslice : slice e 0 4 = slice p.encode 0 4 := h.slice_eq (by omega)
    have hfour : e.take 4 = capturePattern := hslice
    exact hfour ▸ List.take_prefix 4 e
  have hversion : e.getD 4 0 = 0 := by
    rw [h.getD_eq (by omega)]
    exact hp.version
  have hcount : (e.getD 26 0).toNat = p.header.lacing.length := by
    rw [h.getD_eq (by omega)]
    simpa using hp.count_encode []
  have hlacing : slice e headerSize p.header.lacing.length = p.header.lacing := by
    rw [h.slice_eq (by unfold headerSize; omega)]
    simpa using slice_lacing_encode p []
  have hbody : lacingSum p.header.lacing = p.body.length := hp.whole.symm
  obtain ⟨q, r, hq, hqr⟩ := exists_eq_encode hcapture hheader hversion hcount.symm rfl
    (by rw [hlacing, hbody, h.length, hlength]; exact Nat.le_refl _)
  -- the lacing values are those of the page, so nothing is left over
  have hcount' : q.header.lacing.length = p.header.lacing.length := by rw [← hq.count_encode r, ← hqr, hcount]
  have hlacing' : q.header.lacing = p.header.lacing := by
    rw [← slice_lacing_encode q r, hcount', ← hqr, hlacing]
  have hsize' : q.size = p.size := by
    have hwhole : q.body.length = lacingSum q.header.lacing := hq.whole
    rw [size, size, Header.encodedLength, Header.encodedLength, hwhole, hlacing', hbody]
  have hrest : r = [] := by
    have htotal := congrArg List.length hqr
    rw [h.length, hlength, List.length_append, length_encode, hsize'] at htotal
    exact List.length_eq_zero_iff.mp (by omega)
  exact ⟨q, hq, by rw [hqr, hrest, List.append_nil]⟩

/-- Pages carry the same checksum if their written forms have the same field. -/
theorem checksum_eq_iff {p q : Page} :
    slice p.encode 22 4 = slice q.encode 22 4 ↔ p.header.checksum = q.header.checksum := by
  rw [slice_field_encode, slice_field_encode]
  constructor
  · intro h
    rw [← ofNat_natLE_toLE32 p.header.checksum, h, ofNat_natLE_toLE32]
  · intro h
    rw [h]

/-- **The checksum of a page is wrong when a few of its bytes were changed.** -/
theorem checksum_ne_of_altered {p q : Page} (hp : p.Sound) {start width : Nat}
    (h : Altered p.encode q.encode start width) (hwidth : width ≤ 4) (hregion : p.Region start width) :
    q.header.checksum ≠ q.sumOf := by
  have hheader : headerSize ≤ p.encode.length := p.length_encode ▸ p.headerSize_le_size
  by_cases hin : 22 ≤ start ∧ start + width ≤ 26
  · rw [sumOf_eq_blank, blank_eq_of_altered h hheader hin, ← sumOf_eq_blank, ← hp.sum]
    intro hsum
    exact (h.widen hin.1 hin.2).slice_ne (checksum_eq_iff.mpr hsum)
  · have hout : start + width ≤ 22 ∨ 26 ≤ start := by
      unfold Region Header.encodedLength headerSize at hregion
      omega
    have hle : start + width ≤ p.encode.length := by
      rw [length_encode]
      have hsize := p.headerSize_le_size
      unfold headerSize at hsize
      unfold Region at hregion
      omega
    have hfield : q.header.checksum = p.header.checksum := checksum_eq_iff.mp (h.slice_eq (by omega))
    have hblank := altered_blank h hheader hout
    rw [hfield, hp.sum, sumOf_eq_blank, sumOf_eq_blank]
    exact (Checksum.update_ne_of_altered hblank hwidth (by rwa [length_blank hheader]) 0).symm

/-- **The verdict on a page of which a few bytes were changed**, whatever follows it. -/
theorem judge_of_altered {p : Page} (hp : p.Sound) {e : Bytes} {start width : Nat}
    (h : Altered p.encode e start width) (hwidth : width ≤ 4) (hregion : p.Region start width) (r : Bytes) :
    judge (e ++ r) = .spurious .checksum := by
  obtain ⟨q, hq, rfl⟩ := exists_encode_of_altered hp.toWritable h hregion
  rw [judge_encode hq, if_neg (checksum_ne_of_altered hp h hwidth hregion)]

end Page

namespace Framer

/-- **Short corruption is always detected.** A page in order is changed in at least one byte, and
all that was changed lies within four bytes of its header fields, its checksum or its body. Then
what a framer finds there is spurious, whatever follows: the next search counts a rejected
candidate and goes on behind its first byte, and no page that it finds begins there. -/
theorem next_of_altered {p : Page} (hp : p.Sound) {e : Bytes} {start width : Nat}
    (h : Altered p.encode e start width) (hwidth : width ≤ 4) (hregion : p.Region start width) (r : Bytes)
    {f : Framer} (hf : f.live = e ++ r) :
    Page.judge (e ++ r) = .spurious .checksum ∧
      ∃ g : Framer, f.next = g.next ∧ g.live = (e ++ r).drop 1 ∧ g.mode = f.mode ∧ g.position = f.position + 1 ∧
        g.stats = { f.stats with rejected := f.stats.rejected + 1, skipped := f.stats.skipped + 1 } ∧
        ∀ page f', f.next = (.page page, f') → f.position < f'.position - page.size := by
  have hjudge := Page.judge_of_altered hp h hwidth hregion r
  refine ⟨hjudge, f.pass (Passed.reject {}), ?_⟩
  have hnext : f.next = (f.pass (Passed.reject {})).next := by
    cases hcons : e ++ r with
    | nil =>
      rw [hcons] at hjudge
      cases hjudge
    | cons b d =>
      rw [hcons] at hjudge hf
      exact next_of_step hf (by rw [hjudge]; rfl) rfl
  refine ⟨hnext, by rw [live_pass, hf]; rfl, rfl, rfl, rfl, ?_⟩
  intro page f' hpage
  rw [hnext] at hpage
  exact position_le_of_next_page hpage

/-- A page with a packet of five bytes. -/
def plainPage : Page := Page.sealed ⟨2⟩ 9 0 0 [5] [1, 2, 3, 4, 5]

/-- The page after its last four bytes became a capture pattern. -/
def damagedBytes : Bytes := plainPage.encode.take 29 ++ capturePattern

theorem next_of_damagedBytes : plainPage.Sound ∧ Altered plainPage.encode damagedBytes 29 4 ∧ plainPage.Region 29 4 ∧
    Page.judge (damagedBytes ++ plainPage.encode) = .spurious .checksum ∧
      ∃ f, (Framer.append {} (damagedBytes ++ plainPage.encode)).next = (.page plainPage, f) ∧
        0 < f.position - plainPage.size := by
  have hsound : plainPage.Sound := Page.sound_sealed ⟨2⟩ 9 0 0 (by decide) rfl
  have haltered : Altered plainPage.encode damagedBytes 29 4 := by
    have hlast : plainPage.encode.drop 29 = [2, 3, 4, 5] := rfl
    have hchanged := altered_append (plainPage.encode.take 29) [2, 3, 4, 5] capturePattern [] rfl (by decide)
    rwa [List.append_nil, List.append_nil, ← hlast, List.take_append_drop] at hchanged
  have hregion : plainPage.Region 29 4 := Or.inr (Or.inr (by decide +kernel))
  have hfound : (Framer.append {} (damagedBytes ++ plainPage.encode)).next.1 = .page plainPage := by decide +kernel
  rcases hnext : (Framer.append {} (damagedBytes ++ plainPage.encode)).next with ⟨found, f⟩
  rw [hnext] at hfound
  obtain rfl : found = .page plainPage := hfound
  obtain ⟨hjudge, -, -, -, -, -, -, hbehind⟩ := next_of_altered hsound haltered (by decide) hregion plainPage.encode
    (f := Framer.append {} (damagedBytes ++ plainPage.encode)) (live_append {} _)
  exact ⟨hsound, haltered, hregion, hjudge, f, rfl, hbehind plainPage f hnext⟩

end Framer

end Ogg
