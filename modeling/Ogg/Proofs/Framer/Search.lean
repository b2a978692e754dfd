import Ogg.Framer
import Ogg.Proofs.Page.Written

/-!
# Searching a byte string in parts

`search` looks through the bytes at hand and rests where they are too few to tell.
What it passed over before it rested stays passed over when more bytes come, and a
page that it found stays found, so a search may be broken off and taken up again.

## Main statements

* `Mode.step_cases`: all that a search can do with a place that it passes over.
* `search_eq_andThen`: what was passed over before is only added to.
* `judge_of_search_page`: where a search finds a page, a page begins.
* `search_append_of_page`, `search_append_of_none`: a search over more bytes goes on
  from where the search over the first of them came to rest.
-/

namespace Ogg

namespace Passed

/-- What was passed over, and then what was passed over after it. -/
def andThen (p q : Passed) : Passed := ⟨p.skipped + q.skipped, p.rejected + q.rejected, p.torn.or q.torn⟩

theorem andThen_assoc (p q r : Passed) : (p.andThen q).andThen r = p.andThen (q.andThen r) := by
  simp only [andThen, Nat.add_assoc, Option.or_assoc]

@[simp] theorem andThen_empty (p : Passed) : p.andThen {} = p := by
  simp only [andThen, Nat.add_zero, Option.or_none]

@[simp] theorem empty_andThen (p : Passed) : andThen {} p = p := by
  simp only [andThen, Nat.zero_add, Option.none_or]

end Passed

/-- The page that a verdict names. -/
def Verdict.page? : Verdict → Option Page
  | .valid page => some page
  | _ => none

/-- What a search passes over at a place that is judged so, with so many bytes from
there on; nothing where it rests or finds a page. -/
def Mode.step (mode : Mode) (left : Nat) : Verdict → Option Passed
  | .foreign => some (Passed.skip {})
  | .partialCapture => if mode.ended then some (Passed.skip {}) else none
  | .incomplete => if mode.ended && mode.resync then some (Passed.abandon {} left) else none
  | .spurious _ => some (Passed.reject {})
  | .valid _ => none

/-- **All that a search can do with a place that it passes over**: to skip it, at the end
of the input also what begins the capture pattern; to abandon an incomplete candidate at
the end; or to reject a spurious one. -/
theorem Mode.step_cases {mode : Mode} {left : Nat} {v : Verdict} {q : Passed} (h : mode.step left v = some q) :
    q = Passed.skip {} ∧ (v = .foreign ∨ v = .partialCapture ∧ mode.ended = true) ∨
      q = Passed.abandon {} left ∧ v = .incomplete ∧ mode.ended = true ∨
      q = Passed.reject {} ∧ ∃ flaw, v = .spurious flaw := by
  cases v with
  | foreign =>
    cases h
    exact Or.inl ⟨rfl, Or.inl rfl⟩
  | partialCapture =>
    simp only [step] at h
    split at h
    · next hended =>
      cases h
      exact Or.inl ⟨rfl, Or.inr ⟨rfl, hended⟩⟩
    · cases h
  | incomplete =>
    simp only [step] at h
    split at h
    · next hboth =>
      cases h
      exact Or.inr (Or.inl ⟨rfl, rfl, (Bool.and_eq_true_iff.mp hboth).1⟩)
    · cases h
  | spurious flaw =>
    cases h
    exact Or.inr (Or.inr ⟨rfl, flaw, rfl⟩)
  | valid => cases h

/-- A search passes over bytes one at a time. -/
theorem Mode.skipped_of_step {mode : Mode} {left : Nat} {v : Verdict} {q : Passed}
    (h : mode.step left v = some q) : q.skipped = 1 := by
  obtain ⟨rfl, -⟩ | ⟨rfl, -⟩ | ⟨rfl, -⟩ := Mode.step_cases h <;> rfl

/-- What a search passes over is a spurious candidate only by the verdict. -/
theorem Mode.rejected_of_step {mode : Mode} {left : Nat} {v : Verdict} {q : Passed}
    (h : mode.step left v = some q) (hno : ∀ flaw, v ≠ .spurious flaw) : q.rejected = 0 := by
  obtain ⟨rfl, -⟩ | ⟨rfl, -⟩ | ⟨-, flaw, hv⟩ := Mode.step_cases h
  · rfl
  · rfl
  · exact absurd hv (hno flaw)

/-- A search before the end of the input passes over nothing but what begins no page. -/
theorem Mode.step_of_not_ended {mode : Mode} (hmode : mode.ended = false) {left : Nat} {v : Verdict} {q : Passed}
    (h : mode.step left v = some q) :
    v ≠ .partialCapture ∧ v ≠ .incomplete ∧ q.torn = none ∧ ∀ mode' left', Mode.step mode' left' v = some q := by
  obtain ⟨rfl, rfl | ⟨-, hended⟩⟩ | ⟨-, -, hended⟩ | ⟨rfl, flaw, rfl⟩ := Mode.step_cases h
  · exact ⟨by simp, by simp, rfl, fun _ _ => rfl⟩
  · rw [hmode] at hended
    cases hended
  · rw [hmode] at hended
    cases hended
  · exact ⟨by simp, by simp, rfl, fun _ _ => rfl⟩

/-- One place of a search. -/
theorem search_cons (mode : Mode) (p : Passed) (b : UInt8) (r : Bytes) :
    search mode p (b :: r) =
      match mode.step (r.length + 1) (Page.judge (b :: r)) with
      | some q => search mode (p.andThen q) r
      | none => (p, (Page.judge (b :: r)).page?) := by
  rw [search]
  cases Page.judge (b :: r) with
  | foreign => simp [Mode.step, Passed.andThen, Passed.skip]
  | partialCapture =>
    simp only [Mode.step]
    split <;> simp [Passed.andThen, Passed.skip, Verdict.page?]
  | incomplete =>
    simp only [Mode.step]
    split <;> simp [Passed.andThen, Passed.abandon, Passed.skip, Verdict.page?]
  | spurious => simp [Mode.step, Passed.andThen, Passed.reject, Passed.skip]
  | valid => simp [Mode.step, Verdict.page?]

/-- What was passed over before a search is only added to. -/
theorem search_eq_andThen (mode : Mode) (p : Passed) (d : Bytes) :
    search mode p d = (p.andThen (search mode {} d).1, (search mode {} d).2) := by
  induction d generalizing p with
  | nil => simp only [search, Passed.andThen_empty]
  | cons b r ih =>
    rw [search_cons, search_cons]
    cases mode.step (r.length + 1) (Page.judge (b :: r)) with
    | none => simp only [Passed.andThen_empty]
    | some q =>
      simp only [Passed.empty_andThen]
      rw [ih (p.andThen q), ih q, Passed.andThen_assoc]

/-- A search passes over a byte and goes on. -/
theorem search_cons_of_step {mode : Mode} {b : UInt8} {r : Bytes} {q : Passed}
    (h : mode.step (r.length + 1) (Page.judge (b :: r)) = some q) :
    search mode {} (b :: r) = (q.andThen (search mode {} r).1, (search mode {} r).2) := by
  rw [search_cons, h]
  simp only [Passed.empty_andThen]
  exact search_eq_andThen mode q r

/-- A search comes to rest, or finds a page. -/
theorem search_cons_of_rest {mode : Mode} {b : UInt8} {r : Bytes}
    (h : mode.step (r.length + 1) (Page.judge (b :: r)) = none) :
    search mode {} (b :: r) = ({}, (Page.judge (b :: r)).page?) := by
  rw [search_cons, h]

/-- **All that a search can do with a byte**: to rest there, or to find a page there; or to
pass over it and go on. -/
theorem search_cons_cases {mode : Mode} {b : UInt8} {r : Bytes} {q : Passed} {found : Option Page}
    (h : search mode {} (b :: r) = (q, found)) :
    mode.step (r.length + 1) (Page.judge (b :: r)) = none ∧ q = {} ∧ found = (Page.judge (b :: r)).page? ∨
      ∃ s t, mode.step (r.length + 1) (Page.judge (b :: r)) = some s ∧ search mode {} r = (t, found) ∧
        q = s.andThen t := by
  cases hstep : mode.step (r.length + 1) (Page.judge (b :: r)) with
  | none =>
    rw [search_cons_of_rest hstep, Prod.mk.injEq] at h
    exact Or.inl ⟨rfl, h.1.symm, h.2.symm⟩
  | some s =>
    rw [search_cons_of_step hstep, Prod.mk.injEq] at h
    exact Or.inr ⟨s, _, rfl, Prod.ext rfl h.2, h.1.symm⟩

/-- **Where a search finds a page, a page begins.** -/
theorem judge_of_search_page {mode : Mode} {d : Bytes} {q : Passed} {page : Page}
    (h : search mode {} d = (q, some page)) : Page.judge (d.drop q.skipped) = .valid page := by
  induction d generalizing q with
  | nil => simp [search] at h
  | cons b r ih =>
    obtain ⟨-, rfl, hpage⟩ | ⟨s, t, hstep, ht, rfl⟩ := search_cons_cases h
    · rw [List.drop_zero]
      cases hv : Page.judge (b :: r) with
      | valid page' =>
        rw [hv] at hpage
        cases hpage
        rfl
      | _ =>
        rw [hv] at hpage
        cases hpage
    · rw [Passed.andThen, Mode.skipped_of_step hstep, Nat.add_comm, List.drop_succ_cons]
      exact ih ht

/-- A page that was found lies within the bytes. -/
theorem size_le_of_search_page {mode : Mode} {d : Bytes} {q : Passed} {page : Page}
    (h : search mode {} d = (q, some page)) : q.skipped + page.size ≤ d.length := by
  have hv := judge_of_search_page h
  obtain ⟨-, hprefix⟩ := Page.judge_eq_valid_iff.mp hv
  have hlen := hprefix.length_le
  have hpos := page.size_pos
  rw [Page.length_encode, List.length_drop] at hlen
  omega

/-- A search passes over no more than there is. -/
theorem search_skipped_le (mode : Mode) (d : Bytes) : (search mode {} d).1.skipped ≤ d.length := by
  induction d with
  | nil => simp [search]
  | cons b r ih =>
    cases hstep : mode.step (r.length + 1) (Page.judge (b :: r)) with
    | none => simp [search_cons_of_rest hstep]
    | some s =>
      rw [search_cons_of_step hstep, List.length_cons]
      simp only [Passed.andThen, Mode.skipped_of_step hstep]
      omega

/-! ### Before the end of the input -/

section NotEnded

variable {mode : Mode} (hmode : mode.ended = false)
include hmode

/-- No candidate is abandoned. -/
theorem search_torn_of_not_ended (d : Bytes) : (search mode {} d).1.torn = none := by
  induction d with
  | nil => simp [search]
  | cons b r ih =>
    cases hstep : mode.step (r.length + 1) (Page.judge (b :: r)) with
    | none => rw [search_cons_of_rest hstep]
    | some s =>
      obtain ⟨-, -, htorn, -⟩ := Mode.step_of_not_ended hmode hstep
      rw [search_cons_of_step hstep, Passed.andThen, htorn, ih]
      rfl

/-- What is passed over for want of a page is passed over as well when more bytes come. -/
theorem step_append {b : UInt8} {r : Bytes} {q : Passed}
    (h : mode.step (r.length + 1) (Page.judge (b :: r)) = some q) (mode' : Mode) (e : Bytes) :
    mode'.step ((r ++ e).length + 1) (Page.judge (b :: (r ++ e))) = some q := by
  obtain ⟨hpart, hshort, -, hall⟩ := Mode.step_of_not_ended hmode h
  rw [← List.cons_append, Page.judge_append (List.cons_ne_nil b r) hpart hshort]
  exact hall mode' _

/-- **A page that was found is found as well when more bytes come**, and after the same bytes. -/
theorem search_append_of_page {d : Bytes} {q : Passed} {page : Page} (h : search mode {} d = (q, some page))
    (mode' : Mode) (e : Bytes) : search mode' {} (d ++ e) = (q, some page) := by
  induction d generalizing q with
  | nil => simp [search] at h
  | cons b r ih =>
    have hv := judge_of_search_page h
    obtain ⟨-, rfl, -⟩ | ⟨s, t, hstep, ht, rfl⟩ := search_cons_cases h
    · have hv' := Page.judge_append_of_valid hv e
      rw [List.drop_zero, List.cons_append] at hv'
      rw [List.cons_append, search_cons, hv']
      rfl
    · rw [List.cons_append, search_cons_of_step (step_append hmode hstep mode' e), ih ht]

/-- **A search that came to rest goes on from there when more bytes come.** -/
theorem search_append_of_none {d : Bytes} {q : Passed} (h : search mode {} d = (q, none)) (mode' : Mode)
    (e : Bytes) :
    search mode' {} (d ++ e) =
      (q.andThen (search mode' {} (d.drop q.skipped ++ e)).1, (search mode' {} (d.drop q.skipped ++ e)).2) := by
  induction d generalizing q with
  | nil =>
    rw [search, Prod.mk.injEq] at h
    obtain ⟨rfl, -⟩ := h
    rw [Passed.empty_andThen]
    rfl
  | cons b r ih =>
    obtain ⟨-, rfl, -⟩ | ⟨s, t, hstep, ht, rfl⟩ := search_cons_cases h
    · rw [Passed.empty_andThen]
      rfl
    · rw [List.cons_append, search_cons_of_step (step_append hmode hstep mode' e), ih ht, Passed.andThen_assoc]
      simp only [Passed.andThen, Mode.skipped_of_step hstep, Nat.add_comm 1, List.drop_succ_cons]

end NotEnded

end Ogg
