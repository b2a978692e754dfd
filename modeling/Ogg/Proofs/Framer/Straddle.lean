import Ogg.Proofs.Framer.Completion
import Ogg.Proofs.Page.Torn
import Mathlib.Data.List.Infix
import Mathlib.Data.Nat.Find
import Mathlib.Order.Bounds.Basic

/-!
# A capture pattern that the end of the bytes cuts

Bytes in which no capture pattern begins may still end with the first bytes of one. Those have
to wait for the bytes to come, and all before them can go. `openCapture` says how many wait: the
length of the longest tail that is a proper beginning of the pattern, so that of `OgOgg` three
bytes wait, and not five.

A search goes byte by byte and asks of each place what begins there. It comes to where it would
come by leaps (`search_eq_leap`): to the first place at which the pattern begins, and if there is
none, to the tail that waits, or to the end when no more bytes will come.

## Main statements

* `search_eq_leap`: what a search passes over before it meets a capture pattern.
* `exists_captureAt_iff`: the places before the end at which a pattern may turn out to begin.
* `openCapture_least`: no fewer bytes can wait, and no more have to.
-/

namespace Ogg

open Page

/-! ### Places of the capture pattern -/

/-- The capture pattern begins at a place of a byte string. -/
def CaptureAt (d : Bytes) (i : Nat) : Prop := capturePattern <+: d.drop i

/-- The first place of a byte string at which the capture pattern begins. -/
def capturePlace? (d : Bytes) : Option Nat := d.tails.findIdx? (capturePattern.isPrefixOf ·)

theorem capturePlace?_cons (b : UInt8) (r : Bytes) :
    capturePlace? (b :: r) = if capturePattern <+: b :: r then some 0 else (capturePlace? r).map (· + 1) := by
  rw [capturePlace?, List.tails_cons, List.findIdx?_cons]
  simp only [List.isPrefixOf_iff_prefix]
  rfl

theorem capturePlace?_eq_none_iff {d : Bytes} : capturePlace? d = none ↔ ¬ capturePattern <:+: d := by
  simp only [capturePlace?, List.findIdx?_eq_none_iff, List.mem_tails, ← Bool.not_eq_true,
    List.isPrefixOf_iff_prefix, List.infix_iff_prefix_suffix, not_exists, not_and]
  exact forall_congr' fun t => imp_not_comm

/-! ### Tails that begin the pattern -/

/-- The last `k` bytes are the first of the capture pattern, and not all of it. -/
def OpensCapture (d : Bytes) (k : Nat) : Prop := k < capturePattern.length ∧ capturePattern.take k <:+ d

/-- The length of the longest tail that is a proper beginning of the capture pattern. -/
def openCapture (d : Bytes) : Nat :=
  Nat.findGreatest (fun k => capturePattern.take k <:+ d) (capturePattern.length - 1)

theorem OpensCapture.le_length {d : Bytes} {k : Nat} (h : OpensCapture d k) : k ≤ d.length := by
  obtain ⟨hk, hsuffix⟩ := h
  have hle := hsuffix.length_le
  rwa [List.length_take_of_le (Nat.le_of_lt hk)] at hle

/-- The tail that waits is a proper beginning of the pattern, and no longer tail is one. -/
theorem isGreatest_openCapture (d : Bytes) : IsGreatest {k | OpensCapture d k} (openCapture d) := by
  refine ⟨⟨?_, ?_⟩, ?_⟩
  · exact Nat.lt_of_le_of_lt (Nat.findGreatest_le _) (by decide)
  · exact Nat.findGreatest_spec (P := fun k => capturePattern.take k <:+ d) (Nat.zero_le _) List.nil_suffix
  · rintro k ⟨hk, hsuffix⟩
    exact Nat.le_findGreatest (Nat.le_pred_of_lt hk) hsuffix

/-- The first byte is no part of the tail that waits, unless all bytes are. -/
theorem openCapture_cons {b : UInt8} {r : Bytes} (h : ¬ b :: r <+: capturePattern) :
    openCapture (b :: r) = openCapture r := by
  have hsame : ∀ k, OpensCapture (b :: r) k ↔ OpensCapture r k := by
    intro k
    unfold OpensCapture
    rw [List.suffix_cons_iff, or_iff_right]
    intro hall
    exact h (hall ▸ List.take_prefix k capturePattern)
  have hgreatest := isGreatest_openCapture (b :: r)
  simp only [hsame] at hgreatest
  exact hgreatest.unique (isGreatest_openCapture r)

/-- Bytes that are a proper beginning of the pattern wait, all of them. -/
theorem openCapture_of_prefix {d : Bytes} (h : d <+: capturePattern) (hlt : d.length < capturePattern.length) :
    openCapture d = d.length := by
  have hall : OpensCapture d d.length := ⟨hlt, List.prefix_iff_eq_take.mp h ▸ List.suffix_rfl⟩
  exact (isGreatest_openCapture d).unique ⟨hall, fun k hk => hk.le_length⟩

/-! ### The search by leaps -/

/-- So many more bytes passed over. -/
def Passed.leap (p : Passed) (n : Nat) : Passed := { p with skipped := p.skipped + n }

theorem Passed.leap_skip (p : Passed) (n : Nat) : p.skip.leap n = p.leap (n + 1) := by
  simp only [leap, skip, Nat.add_assoc, Nat.add_comm 1]

/-- **A search comes to the first capture pattern; if there is none, to the tail that may begin
one, or to the end when no more bytes will come.** -/
theorem search_eq_leap (mode : Mode) (p : Passed) (d : Bytes) :
    search mode p d =
      match capturePlace? d with
      | some i => search mode (p.leap i) (d.drop i)
      | none => (p.leap (d.length - if mode.ended then 0 else openCapture d), none) := by
  induction d generalizing p with
  | nil =>
    have hnone : capturePlace? [] = none := by decide
    rw [hnone, search]
    simp only [List.length_nil, Nat.zero_sub, Passed.leap, Nat.add_zero]
  | cons b r ih =>
    rw [capturePlace?_cons]
    by_cases hcapture : capturePattern <+: b :: r
    · rw [if_pos hcapture]
      rfl
    rw [if_neg hcapture]
    rcases not_capture_iff.mp hcapture with hpart | hforeign
    · -- too few bytes are left for a whole pattern, and all of them begin one
      obtain ⟨hstart, hlt⟩ := length_lt_of_partialCapture hpart
      have hlater : capturePlace? r = none := by
        rw [capturePlace?_eq_none_iff]
        intro hinfix
        have hle := hinfix.length_le
        rw [List.length_cons] at hlt
        omega
      rw [search, hpart, openCapture_of_prefix hstart hlt]
      cases hended : mode.ended with
      | true =>
        simp only [if_true, ih, hlater, hended, Option.map_none, Passed.leap_skip, List.length_cons, Nat.sub_zero]
      | false =>
        simp only [hlater, Option.map_none, Bool.false_eq_true, if_false, Nat.sub_self, Passed.leap, Nat.add_zero]
    · have hopen : openCapture (b :: r) = openCapture r :=
        openCapture_cons (not_prefix_of_foreign (List.cons_ne_nil b r) hforeign)
      rw [search, hforeign, hopen]
      simp only [ih]
      cases capturePlace? r with
      | some i => simp only [Option.map_some, Passed.leap_skip, List.drop_succ_cons]
      | none =>
        have hle : (if mode.ended then 0 else openCapture r) ≤ r.length := by
          split
          · exact Nat.zero_le _
          · exact (isGreatest_openCapture r).1.le_length
        simp only [Option.map_none, Passed.leap_skip, List.length_cons, Nat.sub_add_comm hle]

/-! ### What waits -/

/-- **Where a pattern may turn out to begin**, before the end of bytes in which none begins: where
a tail begins that is a proper beginning of the pattern, and nowhere else. -/
theorem exists_captureAt_iff {d : Bytes} (hnone : ¬ capturePattern <:+: d) {k : Nat} (hk : k ≤ d.length) :
    (∃ e, CaptureAt (d ++ e) (d.length - k)) ↔ OpensCapture d k := by
  have hlength : (d.drop (d.length - k)).length = k := by
    rw [List.length_drop]
    omega
  have hdrop : ∀ e, (d ++ e).drop (d.length - k) = d.drop (d.length - k) ++ e :=
    fun e => List.drop_append_of_le_length (Nat.sub_le _ _)
  constructor
  · rintro ⟨e, hcapture⟩
    rw [CaptureAt, hdrop] at hcapture
    have hwhole : ¬ capturePattern <+: d.drop (d.length - k) := fun hwhole =>
      hnone (hwhole.isInfix.trans (List.drop_suffix _ _).isInfix)
    have hpart : d.drop (d.length - k) <+: capturePattern :=
      (List.prefix_or_prefix_of_prefix hcapture (List.prefix_append _ e)).resolve_left hwhole
    have htake : d.drop (d.length - k) = capturePattern.take k := by
      have htake := List.prefix_iff_eq_take.mp hpart
      rwa [hlength] at htake
    refine ⟨Nat.lt_of_not_le fun hle => hwhole ?_, htake ▸ List.drop_suffix _ _⟩
    rw [htake, List.take_of_length_le hle]
  · rintro ⟨hlt, hsuffix⟩
    have htake : capturePattern.take k = d.drop (d.length - k) := by
      have htake := List.suffix_iff_eq_drop.mp hsuffix
      rwa [List.length_take_of_le (Nat.le_of_lt hlt)] at htake
    refine ⟨capturePattern.drop k, ?_⟩
    rw [CaptureAt, hdrop, ← htake, List.take_append_drop]

/-- **The bytes that wait are those that may begin a page, and no others.** In bytes in which no
capture pattern begins, every pattern that more bytes bring to light begins at the tail that waits or
behind it, and no shorter tail would do, since a pattern can begin right at its front. A search of
such bytes, before the end of the input, uses up all but that tail. -/
theorem openCapture_least {d : Bytes} (hnone : capturePlace? d = none) :
    IsLeast {k | ∀ e i, CaptureAt (d ++ e) i → d.length - k ≤ i} (openCapture d) ∧
      (∃ e, CaptureAt (d ++ e) (d.length - openCapture d)) ∧
      ∀ f : Framer, f.live = d → f.mode.ended = false →
        f.next = (.starved, f.pass { skipped := d.length - openCapture d }) := by
  have hinfix : ¬ capturePattern <:+: d := capturePlace?_eq_none_iff.mp hnone
  obtain ⟨hopens, hgreatest⟩ := isGreatest_openCapture d
  have hfront : ∃ e, CaptureAt (d ++ e) (d.length - openCapture d) :=
    (exists_captureAt_iff hinfix hopens.le_length).mpr hopens
  refine ⟨⟨?_, ?_⟩, hfront, ?_⟩
  · intro e i hcapture
    by_contra hlt
    have hi : d.length - (d.length - i) = i := by omega
    have hearlier : OpensCapture d (d.length - i) :=
      (exists_captureAt_iff hinfix (Nat.sub_le _ _)).mp ⟨e, hi.symm ▸ hcapture⟩
    have hle := hgreatest hearlier
    omega
  · intro k hk
    obtain ⟨e, hcapture⟩ := hfront
    have hle := hk e _ hcapture
    have hlength := hopens.le_length
    omega
  · intro f hlive hmode
    have hsearch : search f.mode {} f.live = ({ skipped := d.length - openCapture d }, none) := by
      rw [search_eq_leap, hlive, hnone, hmode]
      simp only [Passed.leap, Nat.zero_add, Bool.false_eq_true, if_false]
    rw [Framer.next_of_search_none hsearch]
    simp only [Framer.answer, Framer.pass, hmode, Bool.false_and, Bool.false_eq_true, if_false]

/-- Bytes that begin a capture pattern three times and never finish it. -/
def falseStarts : Bytes := [0x4f, 0x4f, 0x67, 0x4f, 0x67, 0x67]

theorem openCapture_falseStarts :
    capturePlace? falseStarts = none ∧ openCapture falseStarts = 3 ∧
      (∀ e i, CaptureAt (falseStarts ++ e) i → 3 ≤ i) ∧ (∃ e, CaptureAt (falseStarts ++ e) 3) ∧
      (Framer.append {} falseStarts).next = (.starved, (Framer.append {} falseStarts).pass { skipped := 3 }) := by
  have hnone : capturePlace? falseStarts = none := by decide
  have hopen : openCapture falseStarts = 3 := by decide
  obtain ⟨⟨hbehind, -⟩, hfront, hnext⟩ := openCapture_least hnone
  have hlive : (Framer.append {} falseStarts).live = falseStarts := Framer.live_append {} _
  rw [hopen] at hfront
  refine ⟨hnone, hopen, fun e i hcapture => ?_, hfront, ?_⟩
  · have hle := hbehind e i hcapture
    rwa [hopen] at hle
  · rw [hnext _ hlive rfl, hopen]
    rfl

end Ogg
