import Ogg.Page.Encode
import Ogg.Page.Verdict

/-!
# Written pages are what is judged valid

`Page.encode` writes a page and `Page.judge` reads one. This module ties them
together: a byte string is judged a valid page exactly when it begins with the
written form of a page that is in order, and it is judged spurious exactly when a
capture pattern is followed by a header of another version or by a whole page whose
checksum is not that of its bytes.

## Main statements

* `judge_encode`: the verdict on a written page, whatever follows it.
* `judge_eq_valid_iff`, `judge_eq_spurious_iff`: the verdicts without the judge.
* `judge_append`: a verdict other than "too few bytes to tell" stays.
-/

namespace Ogg

namespace Bytes

theorem slice_append_slice (d : Bytes) (i j k : Nat) : slice d i j ++ slice d (i + j) k = slice d i (j + k) := by
  unfold slice
  rw [← List.drop_drop, List.take_add]

theorem length_slice {d : Bytes} {i k : Nat} (h : i + k ≤ d.length) : (slice d i k).length = k := by
  rw [slice, List.length_take, List.length_drop]
  omega

theorem slice_zero (d : Bytes) (k : Nat) : slice d 0 k = d.take k := rfl

theorem slice_one {d : Bytes} {i : Nat} (h : i < d.length) : slice d i 1 = [d.getD i 0] := by
  rw [slice, List.drop_eq_getElem_cons h, List.take_succ_cons, List.take_zero, List.getD_eq_getElem?_getD,
    List.getElem?_eq_getElem h, Option.getD_some]

theorem natLE_lt (d : Bytes) : natLE d < bound d.length := by
  induction d with
  | nil => decide
  | cons b r ih =>
    have hb := UInt8.toNat_lt b
    rw [natLE, List.length_cons, bound]
    omega

theorem bound_four : bound 4 = UInt32.size := rfl

theorem bound_eight : bound 8 = UInt64.size := rfl

/-- Writing back the number read at an offset gives the bytes there. -/
theorem toLE_word32 {d : Bytes} {i : Nat} (h : i + 4 ≤ d.length) : toLE 4 (word32 d i).toNat = slice d i 4 := by
  have hlen := length_slice h
  have hlt := natLE_lt (slice d i 4)
  rw [hlen, bound_four] at hlt
  rw [word32, UInt32.toNat_ofNat_of_lt' hlt]
  simpa only [hlen] using toLE_natLE (slice d i 4)

theorem toLE_word64 {d : Bytes} {i : Nat} (h : i + 8 ≤ d.length) : toLE 8 (word64 d i).toNat = slice d i 8 := by
  have hlen := length_slice h
  have hlt := natLE_lt (slice d i 8)
  rw [hlen, bound_eight] at hlt
  rw [word64, UInt64.toNat_ofNat_of_lt' hlt]
  simpa only [hlen] using toLE_natLE (slice d i 8)

theorem ofNat_natLE_toLE32 (n : UInt32) : UInt32.ofNat (natLE (toLE 4 n.toNat)) = n := by
  have hlt : n.toNat < UInt32.size := n.toNat_lt
  rw [natLE_toLE, bound_four, Nat.mod_eq_of_lt hlt, UInt32.ofNat_toNat]

theorem ofNat_natLE_toLE64 (n : UInt64) : UInt64.ofNat (natLE (toLE 8 n.toNat)) = n := by
  have hlt : n.toNat < UInt64.size := n.toNat_lt
  rw [natLE_toLE, bound_eight, Nat.mod_eq_of_lt hlt, UInt64.ofNat_toNat]

end Bytes

namespace Page

/-- A page that can be written: of the defined version, with a table of at most 255
lacing values and a body as long as they say. -/
structure Writable (p : Page) : Prop where
  /-- It has the defined version. -/
  version : p.header.version = 0
  /-- The number of its lacing values fits a byte. -/
  count : p.header.lacing.length ≤ 255
  /-- Its body is as long as its lacing values say. -/
  whole : p.Whole

/-- A page in order: it can be written, and carries the checksum of its bytes. -/
structure Sound (p : Page) : Prop extends Writable p where
  /-- Its checksum is that of its bytes. -/
  sum : p.header.checksum = p.sumOf

/-- The checksum that a page should carry does not depend on the one it carries. -/
theorem sumOf_withSum (p : Page) : p.withSum.sumOf = p.sumOf := by
  have hbytes : p.withSum.encodeAround [0, 0, 0, 0] = p.encodeAround [0, 0, 0, 0] := rfl
  rw [sumOf, hbytes, sumOf]

theorem checksum_withSum (p : Page) : p.withSum.header.checksum = p.sumOf := by
  simp only [withSum]

/-- A page that is given its checksum is in order. -/
theorem Writable.sound_withSum {p : Page} (h : p.Writable) : p.withSum.Sound := by
  refine ⟨⟨h.version, h.count, h.whole⟩, ?_⟩
  rw [checksum_withSum, sumOf_withSum]

theorem sound_sealed (flags : Flags) (serial sequence : UInt32) (granule : UInt64) {lacing body : Bytes}
    (hcount : lacing.length ≤ 255) (hwhole : body.length = lacingSum lacing) :
    (Page.sealed flags serial sequence granule lacing body).Sound := by
  rw [Page.sealed]
  exact Writable.sound_withSum ⟨rfl, hcount, hwhole⟩

/-- A byte string begins with a capture pattern that begins no page: its header is whole
and of another version, or its page is whole and its checksum is not that of its bytes. -/
def BeginsSpurious (d : Bytes) : Prop :=
  capturePattern <+: d ∧ headerSize ≤ d.length ∧
    (d.getD 4 0 ≠ 0 ∨ ∃ p : Page, p.Writable ∧ p.header.checksum ≠ p.sumOf ∧ p.encode <+: d)

theorem length_encode (p : Page) : p.encode.length = p.size := by
  simp only [encode, encodeAround, Header.encodeStart, Header.encodeLacing, capturePattern, size,
    Header.encodedLength, headerSize, List.length_append, List.length_cons, List.length_nil,
    Bytes.length_toLE]
  omega

/-- What follows a written page begins where the page ends. -/
theorem drop_size_encode (p : Page) (r : Bytes) : (p.encode ++ r).drop p.size = r := by
  rw [← length_encode, List.drop_left]

theorem capturePattern_prefix_encode (p : Page) (r : Bytes) : capturePattern <+: p.encode ++ r := ⟨_, rfl⟩

/-! ### Reading what was written -/

theorem Writable.count_encode {p : Page} (h : p.Writable) (r : Bytes) :
    ((p.encode ++ r).getD 26 0).toNat = p.header.lacing.length := by
  show (UInt8.ofNat p.header.lacing.length).toNat = _
  have := h.count
  rw [UInt8.toNat_ofNat']
  omega

theorem drop_header_encode (p : Page) (r : Bytes) :
    (p.encode ++ r).drop headerSize = p.header.lacing ++ (p.body ++ r) := by
  rw [← List.append_assoc]
  rfl

theorem slice_lacing_encode (p : Page) (r : Bytes) :
    Bytes.slice (p.encode ++ r) headerSize p.header.lacing.length = p.header.lacing := by
  rw [Bytes.slice, drop_header_encode, List.take_left]

theorem slice_field_encode (p : Page) : Bytes.slice p.encode 22 4 = Bytes.toLE 4 p.header.checksum.toNat := rfl

theorem headerOf_encode {p : Page} (h : p.Writable) (r : Bytes) :
    headerOf (p.encode ++ r) p.header.lacing = p.header := by
  obtain ⟨⟨version, flags, granule, serial, sequence, checksum, lacing⟩, body⟩ := p
  simp only [headerOf, Header.mk.injEq, and_true]
  refine ⟨rfl, rfl, ?_, ?_, ?_, ?_⟩
  · exact Bytes.ofNat_natLE_toLE64 granule
  · exact Bytes.ofNat_natLE_toLE32 serial
  · exact Bytes.ofNat_natLE_toLE32 sequence
  · exact Bytes.ofNat_natLE_toLE32 checksum

theorem sumOfCandidate_encode (p : Page) (r : Bytes) : sumOfCandidate (p.encode ++ r) p.size = p.sumOf := by
  have hstart : (p.encode ++ r).take 22 = p.header.encodeStart := rfl
  have hrest : (p.encode ++ r).drop 26 = (p.header.encodeLacing ++ p.body) ++ r := rfl
  have hlen : p.size - 26 = (p.header.encodeLacing ++ p.body).length := by
    simp only [size, Header.encodedLength, headerSize, Header.encodeLacing, List.length_append, List.length_cons]
    omega
  rw [sumOfCandidate, Bytes.slice, hstart, hrest, hlen, List.take_left, sumOf, encodeAround, Checksum.ofBytes,
    Checksum.ofBytes, ← Checksum.update_append, ← Checksum.update_append, List.append_assoc _ _ p.body,
    List.append_assoc]

/-- **The verdict on a written page**, whatever follows it. -/
theorem judge_encode {p : Page} (h : p.Writable) (r : Bytes) :
    judge (p.encode ++ r) = if p.header.checksum = p.sumOf then .valid p else .spurious .checksum := by
  have hcapture : capturePattern.isPrefixOf (p.encode ++ r) = true :=
    List.isPrefixOf_iff_prefix.mpr (capturePattern_prefix_encode p r)
  have hheader : Bytes.lengthBelow (p.encode ++ r) headerSize = false := by
    have := p.headerSize_le_size
    rw [← Bool.not_eq_true, Bytes.lengthBelow_iff, List.length_append, length_encode]
    omega
  have hversion : ((p.encode ++ r).getD 4 0 != 0) = false := by
    show (p.header.version != 0) = false
    rw [h.version]
    rfl
  have hdrop : (p.encode ++ r).drop (headerSize + p.header.lacing.length) = p.body ++ r := by
    rw [← List.drop_drop, drop_header_encode, List.drop_left]
  have hbody : lacingSum p.header.lacing = p.body.length := h.whole.symm
  have htotal : headerSize + p.header.lacing.length + p.body.length = p.size := rfl
  have hshort : Bytes.lengthBelow (p.body ++ r) p.body.length = false := by
    rw [← Bool.not_eq_true, Bytes.lengthBelow_iff, List.length_append]
    omega
  have hfield : Bytes.word32 (p.encode ++ r) 22 = p.header.checksum :=
    Bytes.ofNat_natLE_toLE32 p.header.checksum
  rw [judge, if_pos hcapture, judgeCandidate]
  simp only [hheader, hversion, h.count_encode, slice_lacing_encode, hdrop, hbody, htotal, hshort, hfield,
    headerOf_encode h, sumOfCandidate_encode, List.take_left, Nat.lt_irrefl, decide_false, Bool.or_false,
    Bool.false_eq_true, if_false, bne_iff_ne, ne_eq, ite_not]
  by_cases hsum : p.header.checksum = p.sumOf
  · rw [if_pos hsum, if_pos hsum.symm]
  · rw [if_neg hsum, if_neg (Ne.symm hsum)]

/-! ### Writing what was read -/

theorem slice_zero_of_capture {d : Bytes} (h : capturePattern <+: d) : capturePattern = Bytes.slice d 0 4 := by
  obtain ⟨r, rfl⟩ := h
  rfl

theorem encodeStart_headerOf {d : Bytes} (lacing : Bytes) (hcapture : capturePattern <+: d)
    (hheader : headerSize ≤ d.length) : (headerOf d lacing).encodeStart = Bytes.slice d 0 22 := by
  unfold headerSize at hheader
  have hflags : [d.getD 4 0, d.getD 5 0] = Bytes.slice d 4 2 := by
    have h4 := Bytes.slice_one (d := d) (i := 4) (by omega)
    have h5 := Bytes.slice_one (d := d) (i := 5) (by omega)
    rw [← Bytes.slice_append_slice d 4 1 1, h4, h5]
    rfl
  have hgranule := Bytes.toLE_word64 (d := d) (i := 6) (by omega)
  have hserial := Bytes.toLE_word32 (d := d) (i := 14) (by omega)
  have hsequence := Bytes.toLE_word32 (d := d) (i := 18) (by omega)
  simp only [Header.encodeStart, headerOf]
  rw [hflags, hgranule, hserial, hsequence, slice_zero_of_capture hcapture, Bytes.slice_append_slice d 0 4 2,
    Bytes.slice_append_slice d 0 6 8, Bytes.slice_append_slice d 0 14 4, Bytes.slice_append_slice d 0 18 4]

/-- A candidate that is there to its end is the written form of a page. -/
theorem exists_eq_encode {d : Bytes} (hcapture : capturePattern <+: d) (hheader : headerSize ≤ d.length)
    (hversion : d.getD 4 0 = 0) {count length : Nat} (hcount : count = (d.getD 26 0).toNat)
    (hlength : length = lacingSum (Bytes.slice d headerSize count))
    (hwhole : headerSize + count + length ≤ d.length) : ∃ p r, Writable p ∧ d = p.encode ++ r := by
  unfold headerSize at hheader
  have hlacing : (Bytes.slice d headerSize count).length = count := Bytes.length_slice (by omega)
  have hbody : (Bytes.slice d (headerSize + count) length).length = length := Bytes.length_slice hwhole
  have hbyte := UInt8.toNat_lt (d.getD 26 0)
  refine ⟨⟨headerOf d (Bytes.slice d headerSize count), Bytes.slice d (headerSize + count) length⟩,
    d.drop (headerSize + count + length), ⟨hversion, ?_, ?_⟩, ?_⟩
  · show (Bytes.slice d headerSize count).length ≤ 255
    omega
  · show (Bytes.slice d (headerSize + count) length).length = lacingSum (Bytes.slice d headerSize count)
    rw [hbody, hlength]
  · have hfield := Bytes.toLE_word32 (d := d) (i := 22) (by omega)
    have htable : UInt8.ofNat (Bytes.slice d headerSize count).length :: Bytes.slice d headerSize count
        = Bytes.slice d 26 (1 + count) := by
      rw [← Bytes.slice_append_slice d 26 1 count, Bytes.slice_one (by omega), hlacing, hcount,
        UInt8.ofNat_toNat]
      rfl
    rw [encode, encodeAround, encodeStart_headerOf _ hcapture hheader, Header.encodeLacing]
    simp only [headerOf]
    rw [hfield, htable, Bytes.slice_append_slice d 0 22 4, Bytes.slice_append_slice d 0 26,
      show headerSize + count = 0 + (26 + (1 + count)) by unfold headerSize; omega,
      Bytes.slice_append_slice d 0 (26 + (1 + count)), Bytes.slice_zero, Nat.zero_add, List.take_append_drop]

/-- Bytes that do not begin with the capture pattern begin with a part of it, or with none. -/
theorem judge_of_not_capture {d : Bytes} (h : ¬ capturePattern <+: d) :
    judge d = .partialCapture ∨ judge d = .foreign := by
  rw [judge, if_neg (by rwa [List.isPrefixOf_iff_prefix])]
  split
  · exact Or.inl rfl
  · exact Or.inr rfl

theorem judge_of_version {d : Bytes} (hcapture : capturePattern <+: d) (hheader : headerSize ≤ d.length)
    (hversion : d.getD 4 0 ≠ 0) : judge d = .spurious .version := by
  rw [judge, if_pos (List.isPrefixOf_iff_prefix.mpr hcapture), judgeCandidate,
    if_neg (by rw [Bytes.lengthBelow_iff]; omega), if_pos (bne_iff_ne.mpr hversion)]

/-- What a candidate can be: unfinished, of another version, or the written form of a page. -/
theorem candidate_cases {d : Bytes} (hcapture : capturePattern <+: d) :
    judge d = .incomplete ∨ (headerSize ≤ d.length ∧ d.getD 4 0 ≠ 0) ∨ ∃ p r, Writable p ∧ d = p.encode ++ r := by
  have hjudge : judge d = judgeCandidate d := if_pos (List.isPrefixOf_iff_prefix.mpr hcapture)
  rw [hjudge, judgeCandidate]
  by_cases hheader : Bytes.lengthBelow d headerSize = true
  · exact Or.inl (if_pos hheader)
  rw [if_neg hheader]
  rw [Bytes.lengthBelow_iff, Nat.not_lt] at hheader
  by_cases hversion : (d.getD 4 0 != 0) = true
  · exact Or.inr (Or.inl ⟨hheader, bne_iff_ne.mp hversion⟩)
  rw [if_neg hversion]
  generalize hcount : (d.getD 26 0).toNat = count
  generalize hlength : lacingSum (Bytes.slice d headerSize count) = length
  by_cases hshort : ((Bytes.slice d headerSize count).length < count ∨
      (d.drop (headerSize + count)).length < length)
  · left
    simp only [hlength]
    exact if_pos (by simpa using hshort)
  · refine Or.inr (Or.inr (exists_eq_encode hcapture hheader ?_ hcount.symm hlength.symm ?_))
    · simpa using hversion
    · rw [not_or, Bytes.slice, List.length_take, List.length_drop, List.length_drop] at hshort
      omega

/-- The verdicts on bytes that do not begin with the capture pattern, and on no others. -/
theorem not_capture_iff {d : Bytes} :
    ¬ capturePattern <+: d ↔ judge d = .partialCapture ∨ judge d = .foreign := by
  refine ⟨judge_of_not_capture, fun h hcapture => ?_⟩
  rcases candidate_cases hcapture with hc | ⟨hheader, hversion⟩ | ⟨q, r, hq, rfl⟩
  · rw [hc] at h
    rcases h with h | h <;> cases h
  · rw [judge_of_version hcapture hheader hversion] at h
    rcases h with h | h <;> cases h
  · rw [judge_encode hq] at h
    split at h <;> rcases h with h | h <;> cases h

/-! ### The verdicts without the judge -/

/-- A written page is judged that page, whatever follows it. -/
theorem judge_encode_of_sound {p : Page} (h : p.Sound) (r : Bytes) : judge (p.encode ++ r) = .valid p := by
  rw [judge_encode h.toWritable, if_pos h.sum]

/-- **A byte string is judged a page exactly when it begins with the written form of one.** -/
theorem judge_eq_valid_iff {d : Bytes} {p : Page} : judge d = .valid p ↔ p.Sound ∧ p.encode <+: d := by
  constructor
  · intro h
    by_cases hcapture : capturePattern <+: d
    · rcases candidate_cases hcapture with hc | ⟨hheader, hversion⟩ | ⟨q, r, hq, rfl⟩
      · rw [hc] at h
        cases h
      · rw [judge_of_version hcapture hheader hversion] at h
        cases h
      · rw [judge_encode hq] at h
        split at h
        · next hsum =>
          cases h
          exact ⟨⟨hq, hsum⟩, List.prefix_append _ _⟩
        · cases h
    · rcases judge_of_not_capture hcapture with hc | hc <;> rw [hc] at h <;> cases h
  · rintro ⟨hp, r, rfl⟩
    exact judge_encode_of_sound hp r

/-- What is judged a page is the written form of the page, and what follows it. -/
theorem encode_append_drop {d : Bytes} {p : Page} (h : judge d = .valid p) : p.encode ++ d.drop p.size = d := by
  obtain ⟨-, r, rfl⟩ := judge_eq_valid_iff.mp h
  rw [drop_size_encode]

/-- **A byte string is judged spurious exactly when it begins so**: with a whole header of
another version, or with a whole page whose checksum is wrong. -/
theorem judge_eq_spurious_iff {d : Bytes} : (∃ flaw, judge d = .spurious flaw) ↔ BeginsSpurious d := by
  constructor
  · rintro ⟨flaw, h⟩
    by_cases hcapture : capturePattern <+: d
    · rcases candidate_cases hcapture with hc | ⟨hheader, hversion⟩ | ⟨q, r, hq, rfl⟩
      · rw [hc] at h
        cases h
      · exact ⟨hcapture, hheader, Or.inl hversion⟩
      · refine ⟨hcapture, ?_, Or.inr ⟨q, hq, ?_, List.prefix_append _ _⟩⟩
        · have := q.headerSize_le_size
          rw [List.length_append, length_encode]
          omega
        · intro hsum
          rw [judge_encode hq, if_pos hsum] at h
          cases h
    · rcases judge_of_not_capture hcapture with hc | hc <;> rw [hc] at h <;> cases h
  · rintro ⟨hcapture, hheader, hversion | ⟨q, hq, hsum, r, rfl⟩⟩
    · exact ⟨.version, judge_of_version hcapture hheader hversion⟩
    · exact ⟨.checksum, by rw [judge_encode hq, if_neg hsum]⟩

/-! ### Bytes still to come -/

/-- Bytes that cannot begin a page are no beginning of the capture pattern. -/
theorem not_prefix_of_foreign {d : Bytes} (hne : d ≠ []) (h : judge d = .foreign) : ¬ d <+: capturePattern := by
  have hcapture : ¬ capturePattern <+: d := not_capture_iff.mpr (Or.inr h)
  intro hpart
  rw [judge, if_neg (by rwa [List.isPrefixOf_iff_prefix]), if_pos] at h
  · cases h
  · rw [Bool.and_eq_true, List.isPrefixOf_iff_prefix]
    exact ⟨hpart, by simpa using hne⟩

/-- Bytes that cannot begin a page cannot begin one with more bytes behind them. -/
theorem judge_append_of_foreign {d : Bytes} (hne : d ≠ []) (h : judge d = .foreign) (e : Bytes) :
    judge (d ++ e) = .foreign := by
  have hcapture : ¬ capturePattern <+: d := not_capture_iff.mpr (Or.inr h)
  have hpart : ¬ d <+: capturePattern := not_prefix_of_foreign hne h
  rw [judge, if_neg, if_neg]
  · rw [Bool.and_eq_true, List.isPrefixOf_iff_prefix]
    rintro ⟨hall, -⟩
    exact hpart ((List.prefix_append d e).trans hall)
  · rw [List.isPrefixOf_iff_prefix]
    intro hall
    rcases List.prefix_or_prefix_of_prefix hall (List.prefix_append d e) with hc | hc
    · exact hcapture hc
    · exact hpart hc

theorem judge_append_of_spurious {d : Bytes} {flaw : Flaw} (h : judge d = .spurious flaw) (e : Bytes) :
    judge (d ++ e) = .spurious flaw := by
  by_cases hcapture : capturePattern <+: d
  · rcases candidate_cases hcapture with hc | ⟨hheader, hversion⟩ | ⟨q, r, hq, rfl⟩
    · rw [hc] at h
      cases h
    · rw [judge_of_version hcapture hheader hversion] at h
      have h4 : 4 < d.length := by
        unfold headerSize at hheader
        omega
      rw [judge_of_version (hcapture.trans (List.prefix_append d e))
        (by rw [List.length_append]; omega), ← h]
      rwa [List.getD_eq_getElem?_getD, List.getElem?_append_left h4, ← List.getD_eq_getElem?_getD]
    · rw [judge_encode hq] at h
      rw [List.append_assoc, judge_encode hq, h]
  · rcases judge_of_not_capture hcapture with hc | hc <;> rw [hc] at h <;> cases h

theorem judge_append_of_valid {d : Bytes} {p : Page} (h : judge d = .valid p) (e : Bytes) :
    judge (d ++ e) = .valid p := by
  obtain ⟨hp, hd⟩ := judge_eq_valid_iff.mp h
  exact judge_eq_valid_iff.mpr ⟨hp, hd.trans (List.prefix_append d e)⟩

/-- **A verdict stays when more bytes come**, unless it was that the bytes are too few to tell. -/
theorem judge_append {d : Bytes} (hne : d ≠ []) (hpart : judge d ≠ .partialCapture)
    (hshort : judge d ≠ .incomplete) (e : Bytes) : judge (d ++ e) = judge d := by
  cases hv : judge d with
  | foreign => exact judge_append_of_foreign hne hv e
  | partialCapture => exact absurd hv hpart
  | incomplete => exact absurd hv hshort
  | spurious flaw => exact judge_append_of_spurious hv e
  | valid p => exact judge_append_of_valid hv e

end Page

end Ogg
