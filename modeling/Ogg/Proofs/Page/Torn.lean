import Ogg.Proofs.Page.Leftmost

/-!
# Candidates that the bytes do not reach to the end of

A candidate that begins in some bytes can go on past their end: `BeginsTorn`. Whether it
is a page cannot be told, so a walk that waits for more bytes stops there (`UpToTear`).
What it has found by then is found as well when more bytes come, so its pages are the
first of those that a walk over all bytes finds.

## Main statements

* `judge_eq_incomplete_iff`: the verdict "incomplete" without the judge.
* `upToTear_iff`: the walk up to the first tear finds what `upToTear` computes.
* `upToTear_prefix_append`, `upToTear_prefix_walk`: those are the first pages of more bytes,
  whether the walk stops at a tear or not.
-/

namespace Ogg.Page

/-- The bytes that a candidate lays claim to by its number of lacing values and by those of
them that are there. -/
def claimedSize (d : Bytes) : Nat :=
  headerSize + (d.getD 26 0).toNat + lacingSum (Bytes.slice d headerSize (d.getD 26 0).toNat)

/-- A byte string begins with a candidate that goes on past its end: the header is not
whole, or it has the defined version and its lacing values or its body are not whole. -/
def BeginsTorn (d : Bytes) : Prop :=
  capturePattern <+: d ∧ (d.length < headerSize ∨ d.getD 4 0 = 0 ∧ d.length < claimedSize d)

/-- The test of a candidate with a header for the bytes that it lays claim to. -/
theorem short_iff_lt_claimedSize {d : Bytes} (hheader : headerSize ≤ d.length) :
    (Bytes.slice d headerSize (d.getD 26 0).toNat).length < (d.getD 26 0).toNat ∨
        (d.drop (headerSize + (d.getD 26 0).toNat)).length
          < lacingSum (Bytes.slice d headerSize (d.getD 26 0).toNat) ↔
      d.length < claimedSize d := by
  rw [claimedSize]
  generalize hlacing : Bytes.slice d headerSize (d.getD 26 0).toNat = lacing
  generalize (d.getD 26 0).toNat = count at hlacing ⊢
  have hlength : lacing.length = min count (d.length - headerSize) := by
    rw [← hlacing, Bytes.slice, List.length_take, List.length_drop]
  rw [hlength, List.length_drop]
  omega

/-- **A byte string is judged incomplete exactly when it begins with a candidate that goes
on past its end.** -/
theorem judge_eq_incomplete_iff {d : Bytes} : judge d = .incomplete ↔ BeginsTorn d := by
  by_cases hcapture : capturePattern <+: d
  · have hjudge : judge d = judgeCandidate d := if_pos (List.isPrefixOf_iff_prefix.mpr hcapture)
    rw [hjudge, judgeCandidate, BeginsTorn]
    by_cases hheader : d.length < headerSize
    · rw [if_pos (by rwa [Bytes.lengthBelow_iff])]
      exact ⟨fun _ => ⟨hcapture, Or.inl hheader⟩, fun _ => rfl⟩
    rw [if_neg (by rwa [Bytes.lengthBelow_iff])]
    by_cases hversion : d.getD 4 0 = 0
    · have hshort := short_iff_lt_claimedSize (Nat.not_lt.mp hheader)
      simp only [hversion, bne_self_eq_false, Bool.false_eq_true, if_false, Bool.or_eq_true, decide_eq_true_eq,
        Bytes.lengthBelow_iff, hcapture, hheader, true_and, false_or]
      rw [← hshort]
      split
      · next h => exact ⟨fun _ => h, fun _ => rfl⟩
      · next h =>
        constructor
        · intro hv
          split at hv <;> cases hv
        · intro h'
          exact absurd h' h
    · rw [if_pos (bne_iff_ne.mpr hversion)]
      constructor
      · intro h
        cases h
      · rintro ⟨-, h | ⟨h, -⟩⟩
        · exact absurd h hheader
        · exact absurd h hversion
  · constructor
    · intro h
      rcases judge_of_not_capture hcapture with hc | hc <;> rw [hc] at h <;> cases h
    · intro h
      exact absurd h.1 hcapture

/-- The walk over bytes that stops at the first candidate that goes on past their end: the
pages it finds. -/
inductive UpToTear : Bytes → List Page → Prop where
  /-- Nothing is left. -/
  | done : UpToTear [] []
  /-- A candidate begins here that goes on past the end: the walk stops. -/
  | torn {d : Bytes} (h : BeginsTorn d) : UpToTear d []
  /-- A page in order begins here: it is found, and the walk goes on at its end. -/
  | page {p : Page} {rest : Bytes} {found : List Page} (h : p.Sound) :
      UpToTear rest found → UpToTear (p.encode ++ rest) (p :: found)
  /-- Neither begins here: the walk goes on one byte further. -/
  | pass {b : UInt8} {rest : Bytes} {found : List Page} (h : ∀ p : Page, p.Sound → ¬ p.encode <+: b :: rest)
      (h' : ¬ BeginsTorn (b :: rest)) : UpToTear rest found → UpToTear (b :: rest) found

/-- The pages that a walk up to the first tear finds. -/
def upToTear (d : Bytes) : List Page :=
  match d with
  | [] => []
  | b :: r =>
    match judge (b :: r) with
    | .valid page => page :: upToTear ((b :: r).drop page.size)
    | .incomplete => []
    | _ => upToTear r
termination_by d.length
decreasing_by
  · have := page.size_pos
    simp only [List.length_drop, List.length_cons]
    omega
  · simp

/-! ### One place at a time -/

theorem upToTear_of_valid {d : Bytes} {p : Page} (h : judge d = .valid p) :
    upToTear d = p :: upToTear (d.drop p.size) := by
  cases d with
  | nil => cases h
  | cons b r => rw [upToTear, h]

theorem upToTear_of_incomplete {d : Bytes} (h : judge d = .incomplete) : upToTear d = [] := by
  cases d with
  | nil => cases h
  | cons b r => rw [upToTear, h]

theorem upToTear_of_passed {b : UInt8} {r : Bytes} (h : ∀ p, judge (b :: r) ≠ .valid p)
    (h' : judge (b :: r) ≠ .incomplete) : upToTear (b :: r) = upToTear r := by
  rw [upToTear]
  split
  · next p hp => exact absurd hp (h p)
  · next hi => exact absurd hi h'
  · rfl

/-- No page fits into fewer bytes than a header has. -/
theorem upToTear_of_length_lt {d : Bytes} (h : d.length < headerSize) : upToTear d = [] := by
  fun_induction upToTear d with
  | case1 => rfl
  | case2 b r p hv ih =>
    obtain ⟨-, hprefix⟩ := judge_eq_valid_iff.mp hv
    have hle := hprefix.length_le
    have hsize := p.headerSize_le_size
    rw [length_encode] at hle
    omega
  | case3 => rfl
  | case4 b r hv hi ih =>
    rw [List.length_cons] at h
    exact ih (by omega)

/-! ### The two walks -/

theorem eq_upToTear {d : Bytes} {found : List Page} (h : UpToTear d found) : found = upToTear d := by
  induction h with
  | done => rw [upToTear]
  | torn h => rw [upToTear_of_incomplete (judge_eq_incomplete_iff.mpr h)]
  | @page p rest found hp _ ih =>
    rw [upToTear_of_valid (judge_encode_of_sound hp rest), drop_size_encode, ← ih]
  | @pass b rest found hp ht _ ih =>
    have hvalid : ∀ p, judge (b :: rest) ≠ .valid p := by
      intro p hv
      obtain ⟨hsound, hprefix⟩ := judge_eq_valid_iff.mp hv
      exact hp p hsound hprefix
    rw [upToTear_of_passed hvalid fun hi => ht (judge_eq_incomplete_iff.mp hi), ← ih]

theorem upToTear_upToTear (d : Bytes) : UpToTear d (upToTear d) := by
  fun_induction upToTear d with
  | case1 => exact UpToTear.done
  | case2 b r p hv ih =>
    obtain ⟨hsound, rest, hd⟩ := judge_eq_valid_iff.mp hv
    rw [← hd, drop_size_encode] at ih ⊢
    exact UpToTear.page hsound ih
  | case3 b r hi => exact UpToTear.torn (judge_eq_incomplete_iff.mp hi)
  | case4 b r hv hi ih =>
    refine UpToTear.pass ?_ (fun ht => hi (judge_eq_incomplete_iff.mpr ht)) ih
    intro p hp hprefix
    exact hv p (judge_eq_valid_iff.mpr ⟨hp, hprefix⟩)

/-- **The walk up to the first tear finds what `upToTear` computes**, and nothing else. -/
theorem upToTear_iff {d : Bytes} {found : List Page} : UpToTear d found ↔ found = upToTear d := by
  constructor
  · exact eq_upToTear
  · rintro rfl
    exact upToTear_upToTear d

/-! ### More bytes -/

/-- A proper beginning of the capture pattern is shorter than the pattern. -/
theorem length_lt_of_partialCapture {d : Bytes} (h : judge d = .partialCapture) :
    d <+: capturePattern ∧ d.length < capturePattern.length := by
  have hcapture : ¬ capturePattern <+: d := not_capture_iff.mpr (Or.inl h)
  rw [judge, if_neg (by rwa [List.isPrefixOf_iff_prefix])] at h
  split at h
  · next hpart =>
    rw [Bool.and_eq_true, List.isPrefixOf_iff_prefix] at hpart
    refine ⟨hpart.1, Nat.lt_of_le_of_ne hpart.1.length_le ?_⟩
    intro heq
    apply hcapture
    have hd : d = capturePattern := hpart.1.eq_of_length heq
    exact hd ▸ List.prefix_rfl
  · cases h

/-- **The pages up to the first tear are found as well when more bytes come**, and come first. -/
theorem upToTear_prefix_append (d e : Bytes) : upToTear d <+: upToTear (d ++ e) := by
  fun_induction upToTear d with
  | case1 => exact List.nil_prefix
  | case2 b r p hv ih =>
    obtain ⟨-, hprefix⟩ := judge_eq_valid_iff.mp hv
    have hle := hprefix.length_le
    rw [length_encode] at hle
    rw [upToTear_of_valid (judge_append_of_valid hv e), List.drop_append_of_le_length hle]
    exact List.prefix_cons_inj p |>.mpr ih
  | case3 => exact List.nil_prefix
  | case4 b r hv hi ih =>
    by_cases hpart : judge (b :: r) = .partialCapture
    · obtain ⟨-, hlt⟩ := length_lt_of_partialCapture hpart
      have hshort : r.length < headerSize := by
        rw [List.length_cons] at hlt
        simp only [capturePattern, List.length_cons, List.length_nil] at hlt
        unfold headerSize
        omega
      rw [upToTear_of_length_lt hshort]
      exact List.nil_prefix
    · have hstay : judge (b :: (r ++ e)) = judge (b :: r) := judge_append (List.cons_ne_nil b r) hpart hi e
      rw [List.cons_append, upToTear_of_passed (by rwa [hstay]) (by rwa [hstay])]
      exact ih

theorem upToTear_prefix_walk_self (offset : Nat) (d : Bytes) : upToTear d <+: (walk offset d).map Prod.snd := by
  fun_induction upToTear d generalizing offset with
  | case1 => exact List.nil_prefix
  | case2 b r p hv ih =>
    rw [walk_of_valid offset hv, List.map_cons]
    exact List.prefix_cons_inj p |>.mpr (ih _)
  | case3 => exact List.nil_prefix
  | case4 b r hv hi ih =>
    rw [walk_of_not_valid offset hv]
    exact ih _

/-- **The pages up to the first tear are the first of those that a walk over more bytes finds.** -/
theorem upToTear_prefix_walk (offset : Nat) (d e : Bytes) :
    upToTear d <+: (walk offset (d ++ e)).map Prod.snd :=
  (upToTear_prefix_append d e).trans (upToTear_prefix_walk_self offset (d ++ e))

end Ogg.Page
