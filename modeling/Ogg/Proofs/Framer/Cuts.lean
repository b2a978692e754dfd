import Ogg.Proofs.Framer.Completion

/-!
# Cutting the input

Bytes may be given to a framer a few at a time, with searches in between, as many as one
likes. Each of these acts leaves the future of the framer as it was, less the page that a
search yields (`complete_perform`), so the pages, where they end, the last answer, the
counts and the bytes left over are those of a framer that is given all bytes at once.

## Main statements

* `complete_perform`: what is done before the end of the input takes nothing away.
* `exhaust_perform`: it is of no account how the input is cut.
-/

namespace Ogg

/-- What can be done with a framer before the end of its input. -/
inductive Act where
  /-- To put bytes at the end of what is searched. -/
  | append (d : Bytes)
  /-- To make one search. -/
  | next
  deriving DecidableEq, Repr

/-- The bytes that acts bring, one after another. -/
def Act.bytes : List Act → Bytes
  | [] => []
  | .append d :: acts => d ++ bytes acts
  | .next :: acts => bytes acts

namespace Framer

/-- Does some things one after another: the pages that come of it, each with the position
of the framer behind it, and the framer after all. -/
def perform (f : Framer) : List Act → List (Nat × Page) × Framer
  | [] => ([], f)
  | .append d :: acts => (f.append d).perform acts
  | .next :: acts =>
    match f.next with
    | (.page page, g) => ((g.position, page) :: (g.perform acts).1, (g.perform acts).2)
    | (_, g) => g.perform acts

/-- A page that was found at a place, with the place behind it. -/
def behind (found : Nat × Page) : Nat × Page := (found.1 + found.2.size, found.2)

/-- All pages that can be had from the buffered bytes, each with the position of the framer
behind it, then the answer that is no page, and the framer after it. -/
def exhaust (f : Framer) : List (Nat × Page) × Pull × Framer := (f.drain.1.map behind, f.drain.2)

/-- A page that was found ends where the framer stands. -/
theorem behind_of_next_page {f g : Framer} {page : Page} (h : f.next = (.page page, g)) :
    behind (g.position - page.size, page) = (g.position, page) := by
  obtain ⟨q, -, rfl⟩ := search_of_next_page h
  show (f.position + q.skipped + page.size - page.size + page.size, page) = _
  rw [Nat.add_sub_cancel]
  rfl

/-! ### One act after another -/

theorem perform_next_of_page {f g : Framer} {page : Page} (h : f.next = (.page page, g)) (acts : List Act) :
    f.perform (.next :: acts) = ((g.position, page) :: (g.perform acts).1, (g.perform acts).2) := by
  rw [perform, h]

theorem perform_next_of_rest {f g : Framer} {last : Pull} (h : f.next = (last, g))
    (hno : ∀ page, last ≠ .page page) (acts : List Act) : f.perform (.next :: acts) = g.perform acts := by
  rw [perform, h]
  cases last with
  | page page => exact absurd rfl (hno page)
  | starved => rfl
  | torn buffered => rfl

/-- **What is done before the end of the input takes nothing from what is to come** but the
pages that the searches yield. -/
theorem complete_perform {f : Framer} (hended : f.mode.ended = false) (acts : List Act) (d : Bytes) :
    (f.complete (Act.bytes acts ++ d)).1.map behind
        = (f.perform acts).1 ++ ((f.perform acts).2.complete d).1.map behind ∧
      (f.complete (Act.bytes acts ++ d)).2 = ((f.perform acts).2.complete d).2 := by
  induction acts generalizing f with
  | nil => exact ⟨rfl, rfl⟩
  | cons act acts ih =>
    cases act with
    | append e =>
      have happend : (f.append e).mode.ended = false := hended
      rw [Act.bytes, List.append_assoc, ← complete_append]
      exact ih happend
    | next =>
      rcases hnext : f.next with ⟨last, g⟩
      have hg : g.mode.ended = false := by rw [← hended, ← f.mode_next, hnext]
      by_cases hpage : ∃ page, last = .page page
      · obtain ⟨page, rfl⟩ := hpage
        obtain ⟨hpages, hrest⟩ := ih hg
        have hnone : f.mode.ended = true → Act.bytes acts ++ d = [] := by simp [hended]
        rw [Act.bytes, perform_next_of_page hnext, complete_of_next_page hnext hnone, List.map_cons,
          behind_of_next_page hnext, hpages]
        exact ⟨rfl, hrest⟩
      · have hno : ∀ page, last ≠ .page page := fun page h => hpage ⟨page, h⟩
        rw [Act.bytes, perform_next_of_rest hnext hno, complete_of_next_starved hnext hno hended]
        exact ih hg

/-- What a framer comes to when its input ends here. -/
theorem complete_nil (f : Framer) :
    f.complete [] = (f.finish.drain.1, f.finish.drain.2.1, f.finish.drain.2.2.bare) := by
  have hfinish : f.finish.mode.ended = true := rfl
  rw [← complete_finish, complete_of_ended hfinish]
  rfl

/-- **It is of no account how the input is cut.** Whatever is done with a fresh framer, of
either mode, before its input ends, the pages it has yielded and those that it still yields,
each with the position behind it, the last answer, the counts, the position and the bytes
left over are the same as when all bytes come at once and the input ends before the first
search. -/
theorem exhaust_perform (resync : Bool) (acts : List Act) :
    let fresh : Framer := { mode := { resync } }
    let cut := (fresh.perform acts).2.finish.exhaust
    let whole := (fresh.append (Act.bytes acts)).finish.exhaust
    (fresh.perform acts).1 ++ cut.1 = whole.1 ∧ cut.2.1 = whole.2.1 ∧ cut.2.2.stats = whole.2.2.stats ∧
      cut.2.2.position = whole.2.2.position ∧ cut.2.2.live = whole.2.2.live := by
  intro fresh cut whole
  have hended : fresh.mode.ended = false := rfl
  obtain ⟨hpages, hrest⟩ := complete_perform hended acts []
  rw [List.append_nil, complete_nil] at hpages hrest
  obtain ⟨hlast, hbare⟩ := Prod.mk.inj hrest
  obtain ⟨hlive, -, hposition, hstats⟩ := bare_eq_iff.mp hbare
  exact ⟨hpages.symm, hlast.symm, hstats.symm, hposition.symm, hlive.symm⟩

/-- A page of one packet of two bytes. -/
def twoBytes : Page := ⟨⟨0, ⟨2⟩, 0, 9, 0, 253302084, [2]⟩, [104, 105]⟩

/-- The page comes in three parts behind a byte of no page, with a search behind each part: the cuts
are within the capture pattern and within the body. -/
theorem exhaust_perform_threeParts :
    let acts : List Act := [.append (7 :: twoBytes.encode.take 2), .next,
      .append ((twoBytes.encode.drop 2).take 26), .next, .append (twoBytes.encode.drop 28), .next]
    let cut := (perform { mode := { resync := false } } acts).2.finish.exhaust
    let whole := (append { mode := { resync := false } } (7 :: twoBytes.encode)).finish.exhaust
    (perform { mode := { resync := false } } acts).1 = [(31, twoBytes)] ∧ whole.1 = [(31, twoBytes)] ∧
      whole.2.2.stats = cut.2.2.stats ∧ whole.2.2.live = cut.2.2.live := by
  intro acts cut whole
  obtain ⟨hperformed, hrest⟩ : (perform { mode := { resync := false } } acts).1 = [(31, twoBytes)] ∧ cut.1 = [] := by
    decide +kernel
  have hbytes : Act.bytes acts = 7 :: twoBytes.encode := by decide +kernel
  obtain ⟨hpages, -, hstats, -, hlive⟩ := exhaust_perform false acts
  rw [hperformed, hbytes] at hpages
  rw [hbytes] at hstats hlive
  exact ⟨hperformed, hpages.symm.trans (by rw [hrest, List.append_nil]), hstats.symm, hlive.symm⟩

end Framer

end Ogg
