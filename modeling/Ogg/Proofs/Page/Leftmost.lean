import Ogg.Page.Walk
import Ogg.Proofs.Page.Written

/-!
# The leftmost walk

`Leftmost` says in terms of written pages what a walk over all bytes finds: at each
place the written form of a page that is in order begins, and is taken, or none does,
and one byte is passed over. The walk has exactly one outcome, the one that
`Page.walk` and `Page.walkRejected` compute.

## Main statements

* `leftmost_iff`: the walk finds what `Page.walk` computes, and nothing else.
-/

namespace Ogg.Page

/-- The naive leftmost walk over bytes that stand at an offset: the pages it finds with
their places, and the number of places that it passes over where a capture pattern
begins no page. -/
inductive Leftmost : Nat → Bytes → List (Nat × Page) → Nat → Prop where
  /-- Nothing is left. -/
  | done (offset : Nat) : Leftmost offset [] [] 0
  /-- A page in order begins here: it is found, and the walk goes on at its end. -/
  | page {offset rejected : Nat} {p : Page} {rest : Bytes} {found : List (Nat × Page)} (h : p.Sound) :
      Leftmost (offset + p.size) rest found rejected →
      Leftmost offset (p.encode ++ rest) ((offset, p) :: found) rejected
  /-- A capture pattern begins here, and no page: the walk goes on one byte further. -/
  | spurious {offset rejected : Nat} {b : UInt8} {rest : Bytes} {found : List (Nat × Page)}
      (h : BeginsSpurious (b :: rest)) :
      Leftmost (offset + 1) rest found rejected → Leftmost offset (b :: rest) found (rejected + 1)
  /-- Neither begins here: the walk goes on one byte further. -/
  | pass {offset rejected : Nat} {b : UInt8} {rest : Bytes} {found : List (Nat × Page)}
      (h : ∀ p : Page, p.Sound → ¬ p.encode <+: b :: rest) (h' : ¬ BeginsSpurious (b :: rest)) :
      Leftmost (offset + 1) rest found rejected → Leftmost offset (b :: rest) found rejected

/-! ### The computed walk, a place at a time -/

theorem walk_of_valid {d : Bytes} {p : Page} (offset : Nat) (h : judge d = .valid p) :
    walk offset d = (offset, p) :: walk (offset + p.size) (d.drop p.size) := by
  cases d with
  | nil => cases h
  | cons b r => rw [walk, h]

theorem walkRejected_of_valid {d : Bytes} {p : Page} (h : judge d = .valid p) :
    walkRejected d = walkRejected (d.drop p.size) := by
  cases d with
  | nil => cases h
  | cons b r => rw [walkRejected, h]

theorem walk_of_not_valid {b : UInt8} {r : Bytes} (offset : Nat) (h : ∀ p, judge (b :: r) ≠ .valid p) :
    walk offset (b :: r) = walk (offset + 1) r := by
  rw [walk]
  split
  · next p hp => exact absurd hp (h p)
  · rfl

theorem walkRejected_of_spurious {b : UInt8} {r : Bytes} {flaw : Flaw} (h : judge (b :: r) = .spurious flaw) :
    walkRejected (b :: r) = walkRejected r + 1 := by
  rw [walkRejected, h]

theorem walkRejected_of_passed {b : UInt8} {r : Bytes} (h : ∀ p, judge (b :: r) ≠ .valid p)
    (h' : ∀ flaw, judge (b :: r) ≠ .spurious flaw) : walkRejected (b :: r) = walkRejected r := by
  rw [walkRejected]
  split
  · next p hp => exact absurd hp (h p)
  · next flaw hf => exact absurd hf (h' flaw)
  · rfl

/-! ### The two walks -/

theorem eq_walk_of_leftmost {offset rejected : Nat} {d : Bytes} {found : List (Nat × Page)}
    (h : Leftmost offset d found rejected) : found = walk offset d ∧ rejected = walkRejected d := by
  induction h with
  | done offset => simp [walk, walkRejected]
  | @page offset rejected p rest found hp _ ih =>
    have hv := judge_encode_of_sound hp rest
    rw [walk_of_valid offset hv, walkRejected_of_valid hv, drop_size_encode, ← ih.1, ← ih.2]
    exact ⟨rfl, rfl⟩
  | spurious hs _ ih =>
    obtain ⟨flaw, hv⟩ := judge_eq_spurious_iff.mpr hs
    rw [walk_of_not_valid _ (by simp [hv]), walkRejected_of_spurious hv, ← ih.1, ← ih.2]
    exact ⟨rfl, rfl⟩
  | @pass offset rejected b rest found hp hs _ ih =>
    have hvalid : ∀ p, judge (b :: rest) ≠ .valid p := by
      intro p hv
      obtain ⟨hsound, hprefix⟩ := judge_eq_valid_iff.mp hv
      exact hp p hsound hprefix
    have hspurious : ∀ flaw, judge (b :: rest) ≠ .spurious flaw :=
      fun flaw hv => hs (judge_eq_spurious_iff.mp ⟨flaw, hv⟩)
    rw [walk_of_not_valid _ hvalid, walkRejected_of_passed hvalid hspurious, ← ih.1, ← ih.2]
    exact ⟨rfl, rfl⟩

theorem leftmost_walk (offset : Nat) (d : Bytes) : Leftmost offset d (walk offset d) (walkRejected d) := by
  fun_induction walk offset d with
  | case1 offset => simpa [walkRejected] using Leftmost.done offset
  | case2 offset b r p hv ih =>
    obtain ⟨hsound, rest, hd⟩ := judge_eq_valid_iff.mp hv
    rw [walkRejected_of_valid hv]
    rw [← hd, drop_size_encode] at ih ⊢
    exact Leftmost.page hsound ih
  | case3 offset b r hv ih =>
    by_cases hs : BeginsSpurious (b :: r)
    · obtain ⟨flaw, hf⟩ := judge_eq_spurious_iff.mpr hs
      rw [walkRejected_of_spurious hf]
      exact Leftmost.spurious hs ih
    · rw [walkRejected_of_passed hv fun flaw hf => hs (judge_eq_spurious_iff.mp ⟨flaw, hf⟩)]
      exact Leftmost.pass (fun p hp hprefix => hv p (judge_eq_valid_iff.mpr ⟨hp, hprefix⟩)) hs ih

/-- **The leftmost walk finds what `walk` computes, and nothing else.** -/
theorem leftmost_iff {offset rejected : Nat} {d : Bytes} {found : List (Nat × Page)} :
    Leftmost offset d found rejected ↔ found = walk offset d ∧ rejected = walkRejected d := by
  constructor
  · exact eq_walk_of_leftmost
  · rintro ⟨rfl, rfl⟩
    exact leftmost_walk offset d

/-- Where no capture pattern begins, the walk goes on one byte further. -/
theorem leftmost_of_not_capture {offset rejected : Nat} {b : UInt8} {rest : Bytes} {found : List (Nat × Page)}
    (h : ¬ capturePattern <+: b :: rest) (hrest : Leftmost (offset + 1) rest found rejected) :
    Leftmost offset (b :: rest) found rejected := by
  refine Leftmost.pass ?_ ?_ hrest
  · rintro p - ⟨r, hr⟩
    exact h (hr ▸ capturePattern_prefix_encode p r)
  · rintro ⟨hcapture, -⟩
    exact h hcapture

end Ogg.Page
