import Ogg.Proofs.Framer.Search

/-!
# What a framer will come to

A framer that holds some bytes and still expects others has a future: the pages that
it yields, its last answer and its state at the end, once the bytes to come are there
and the input has ended. `Framer.complete` is that future, had by putting all bytes
to come at the end at once. Whatever the framer does in the meantime, be it a search
or taking up some of the bytes, its future stays the same, less the pages that it has
already yielded. So it is of no account how the input is cut.

Two framers that differ in nothing but free storage and used-up bytes are the same to
all of this; `Framer.bare` takes those away.

## Main statements

* `next_congr`, `outcome_congr`: storage is of no account.
* `complete_append`: the bytes to come may come in parts.
* `complete_of_next_page`, `complete_of_next_starved`: a search takes nothing away
  from what is to come but the page that it yields.
* `complete_drain`: nor do many.
-/

namespace Ogg.Framer

/-! ### Storage is of no account -/

/-- A framer without storage but for the bytes waiting to be searched. -/
def bare (f : Framer) : Framer := { f with buffer := { live := f.live } }

theorem bare_eq_iff {f g : Framer} :
    f.bare = g.bare ↔ f.live = g.live ∧ f.mode = g.mode ∧ f.position = g.position ∧ f.stats = g.stats := by
  simp only [bare, Framer.mk.injEq, Buffer.mk.injEq, true_and, and_true]

theorem bare_pass {f g : Framer} (h : f.bare = g.bare) (p : Passed) : (f.pass p).bare = (g.pass p).bare := by
  obtain ⟨hlive, hmode, hposition, hstats⟩ := bare_eq_iff.mp h
  rw [bare_eq_iff, live_pass, live_pass, hlive]
  simp only [pass, hmode, hposition, hstats, and_self]

theorem bare_take {f g : Framer} (h : f.bare = g.bare) (page : Page) : (f.take page).bare = (g.take page).bare := by
  obtain ⟨hlive, hmode, hposition, hstats⟩ := bare_eq_iff.mp h
  rw [bare_eq_iff, live_take, live_take, hlive]
  simp only [take, hmode, hposition, hstats, and_self]

theorem bare_append {f g : Framer} (h : f.bare = g.bare) (d : Bytes) : (f.append d).bare = (g.append d).bare := by
  obtain ⟨hlive, hmode, hposition, hstats⟩ := bare_eq_iff.mp h
  rw [bare_eq_iff, live_append, live_append, hlive]
  exact ⟨rfl, hmode, hposition, hstats⟩

theorem bare_finish {f g : Framer} (h : f.bare = g.bare) : f.finish.bare = g.finish.bare := by
  obtain ⟨hlive, hmode, hposition, hstats⟩ := bare_eq_iff.mp h
  rw [bare_eq_iff, live_finish, live_finish]
  exact ⟨hlive, by simp only [finish, hmode], hposition, hstats⟩

theorem bare_reserve (f : Framer) (n : Nat) : (f.reserve n).bare = f.bare := by
  rw [bare_eq_iff, live_reserve]
  exact ⟨rfl, rfl, rfl, rfl⟩

theorem bare_receive (f : Framer) (d : Bytes) : (f.receive d).bare = (f.append d).bare := by
  rw [bare_eq_iff, live_receive, live_append]
  exact ⟨rfl, rfl, rfl, rfl⟩

theorem answer_congr {f g : Framer} (h : f.bare = g.bare) (torn : Option Nat) : f.answer torn = g.answer torn := by
  obtain ⟨hlive, hmode, -, -⟩ := bare_eq_iff.mp h
  simp only [answer, hlive, hmode]

/-- What one search answers when nothing is found, and when a page is. -/
theorem next_of_search_none {f : Framer} {q : Passed} (h : search f.mode {} f.live = (q, none)) :
    f.next = ((f.pass q).answer q.torn, f.pass q) := by
  rw [next, h]

theorem next_of_search_page {f : Framer} {q : Passed} {page : Page}
    (h : search f.mode {} f.live = (q, some page)) : f.next = (.page page, (f.pass q).take page) := by
  rw [next, h]

/-- The bytes before a search that finds a page: those passed over, the page, and those after it. -/
theorem live_of_search_page {f : Framer} {q : Passed} {page : Page}
    (h : search f.mode {} f.live = (q, some page)) :
    f.live = f.live.take q.skipped ++ page.encode ++ ((f.pass q).take page).live := by
  rw [live_take, live_pass, List.append_assoc, Page.encode_append_drop (judge_of_search_page h), List.take_append_drop]

/-- **What lies behind a page**: the search found it, and it was used up with all before it. -/
theorem search_of_next_page {f g : Framer} {page : Page} (h : f.next = (.page page, g)) :
    ∃ q, search f.mode {} f.live = (q, some page) ∧ g = (f.pass q).take page := by
  rcases hs : search f.mode {} f.live with ⟨q, _ | found⟩
  · rw [next_of_search_none hs] at h
    exact absurd (Prod.mk.inj h).1 (answer_ne_page _ _ _)
  · rw [next_of_search_page hs, Prod.mk.injEq] at h
    obtain ⟨hfound, rfl⟩ := h
    cases hfound
    exact ⟨q, rfl, rfl⟩

/-- **What lies behind an answer that is no page**: the search found none, and what it passed
over was used up. -/
theorem search_of_next_rest {f g : Framer} {last : Pull} (h : f.next = (last, g))
    (hno : ∀ page, last ≠ .page page) :
    ∃ q, search f.mode {} f.live = (q, none) ∧ last = (f.pass q).answer q.torn ∧ g = f.pass q := by
  rcases hs : search f.mode {} f.live with ⟨q, _ | found⟩
  · rw [next_of_search_none hs, Prod.mk.injEq] at h
    exact ⟨q, rfl, h.1.symm, h.2.symm⟩
  · rw [next_of_search_page hs, Prod.mk.injEq] at h
    exact absurd h.1.symm (hno found)

/-- A search uses up some of the bytes, and its position moves past them. -/
theorem next_advance (f : Framer) :
    ∃ n ≤ f.live.length, f.next.2.live = f.live.drop n ∧ f.next.2.position = f.position + n := by
  rcases hs : search f.mode {} f.live with ⟨q, _ | page⟩
  · rw [next_of_search_none hs]
    have hle : q.skipped ≤ f.live.length := by simpa only [hs] using search_skipped_le f.mode f.live
    exact ⟨q.skipped, hle, rfl, rfl⟩
  · rw [next_of_search_page hs]
    refine ⟨q.skipped + page.size, size_le_of_search_page hs, ?_, Nat.add_assoc _ _ _⟩
    rw [live_take, live_pass, List.drop_drop]

/-- **A search uses up bytes that wait**, so no cursor wraps around: what it does with the buffer is
to consume the bytes it passed over, and then those of the page it found. -/
theorem buffer_next {f : Framer} (h : f.buffer.capacity < UInt64.size) :
    f.next.2.buffer =
      match search f.mode {} f.live with
      | (q, some page) => (f.buffer.consume q.skipped).consume page.size
      | (q, none) => f.buffer.consume q.skipped := by
  rcases hs : search f.mode {} f.live with ⟨q, _ | page⟩
  · have hle : q.skipped ≤ f.live.length := by simpa only [hs] using search_skipped_le f.mode f.live
    rw [next_of_search_none hs]
    exact (f.buffer.consume_of_le_length hle h).symm
  · have hle := size_le_of_search_page hs
    have hrest : page.size ≤ (f.buffer.discard q.skipped).live.length := by
      rw [Buffer.live_discard, List.length_drop]
      exact Nat.le_sub_of_add_le' hle
    rw [next_of_search_page hs]
    show _ = (f.buffer.consume q.skipped).consume page.size
    rw [f.buffer.consume_of_le_length (Nat.le_of_add_right_le hle) h,
      Buffer.consume_of_le_length _ hrest (by rwa [Buffer.capacity_discard])]
    rfl

/-- To pass over some bytes and then over others is to pass over both. -/
theorem pass_andThen (f : Framer) (p q : Passed) : f.pass (p.andThen q) = (f.pass p).pass q := by
  simp only [pass, Passed.andThen, Buffer.discard, List.take_add, List.reverse_append, List.append_assoc,
    List.drop_drop, Nat.add_assoc]

/-- A search that passes over a byte is one search from the next byte on. -/
theorem next_of_step {f : Framer} {b : UInt8} {r : Bytes} (hlive : f.live = b :: r) {q : Passed}
    (hstep : f.mode.step (r.length + 1) (Page.judge (b :: r)) = some q) (htorn : q.torn = none) :
    f.next = (f.pass q).next := by
  have hrest : (f.pass q).live = r := by
    rw [live_pass, hlive, Mode.skipped_of_step hstep, List.drop_succ_cons, List.drop_zero]
  have hsearch := search_cons_of_step hstep
  rw [← hlive] at hsearch
  have hmode : (f.pass q).mode = f.mode := rfl
  rcases ht : search f.mode {} r with ⟨t, _ | page⟩
  · rw [ht] at hsearch
    rw [← hmode, ← hrest] at ht
    rw [next_of_search_none hsearch, next_of_search_none ht, pass_andThen, Passed.andThen, htorn, Option.none_or]
  · rw [ht] at hsearch
    rw [← hmode, ← hrest] at ht
    rw [next_of_search_page hsearch, next_of_search_page ht, pass_andThen]

/-- A page that a search finds begins where the framer stands, or behind. -/
theorem position_le_of_next_page {f g : Framer} {page : Page} (h : f.next = (.page page, g)) :
    f.position ≤ g.position - page.size := by
  obtain ⟨q, -, rfl⟩ := search_of_next_page h
  show f.position ≤ f.position + q.skipped + page.size - page.size
  omega

/-- Framers that differ in storage alone answer alike. -/
theorem next_congr {f g : Framer} (h : f.bare = g.bare) :
    f.next.1 = g.next.1 ∧ f.next.2.bare = g.next.2.bare := by
  obtain ⟨hlive, hmode, -, -⟩ := bare_eq_iff.mp h
  rcases hs : search f.mode {} f.live with ⟨q, _ | page⟩
  · have hs' := hs
    rw [hlive, hmode] at hs'
    rw [next_of_search_none hs, next_of_search_none hs']
    exact ⟨answer_congr (bare_pass h q) _, bare_pass h q⟩
  · have hs' := hs
    rw [hlive, hmode] at hs'
    rw [next_of_search_page hs, next_of_search_page hs']
    exact ⟨rfl, bare_take (bare_pass h q) page⟩

/-! ### Draining -/

theorem drain_of_next_page {f g : Framer} {page : Page} (h : f.next = (.page page, g)) :
    f.drain = ((g.position - page.size, page) :: g.drain.1, g.drain.2) := by
  rw [drain]
  split
  · next heq =>
    rw [h] at heq
    cases heq
    rfl
  · next hno heq =>
    rw [h] at heq
    exact absurd (Prod.mk.inj heq).1.symm (hno page)

theorem drain_of_next_rest {f g : Framer} {last : Pull} (h : f.next = (last, g))
    (hno : ∀ page, last ≠ .page page) : f.drain = ([], last, g) := by
  rw [drain]
  split
  · next page g' heq =>
    rw [h] at heq
    exact absurd (Prod.mk.inj heq).1 (hno page)
  · next heq => rw [← heq, h]

/-- What a framer yields from the bytes it has: the pages with their places, the last
answer, and what is left. -/
def outcome (f : Framer) : List (Nat × Page) × Pull × Framer := (f.drain.1, f.drain.2.1, f.drain.2.2.bare)

theorem outcome_of_next_page {f g : Framer} {page : Page} (h : f.next = (.page page, g)) :
    f.outcome = ((g.position - page.size, page) :: g.outcome.1, g.outcome.2) := by
  rw [outcome, drain_of_next_page h]
  rfl

theorem outcome_of_next_rest {f g : Framer} {last : Pull} (h : f.next = (last, g))
    (hno : ∀ page, last ≠ .page page) : f.outcome = ([], last, g.bare) := by
  rw [outcome, drain_of_next_rest h hno]

/-- What holds of a framer that has no page to yield, and of one that yields a page if it
holds of it after that, holds of all framers. -/
theorem drain_induction {motive : Framer → Prop}
    (page : ∀ f g page, f.next = (.page page, g) → motive g → motive f)
    (rest : ∀ f g last, f.next = (last, g) → (∀ page, last ≠ .page page) → motive f) (f : Framer) : motive f :=
  match h : f.next with
  | (.page p, g) => page f g p h (drain_induction page rest g)
  | (.starved, g) => rest f g _ h (by simp)
  | (.torn _, g) => rest f g _ h (by simp)
termination_by f.live.length
decreasing_by exact next_page_live_lt h

/-- The last answer is not a page. -/
theorem drain_last_ne_page (f : Framer) (page : Page) : f.drain.2.1 ≠ .page page := by
  induction f using drain_induction with
  | page f g found hf ih => rwa [drain_of_next_page hf]
  | rest f g last hf hno =>
    rw [drain_of_next_rest hf hno]
    exact hno page

/-- Framers that differ in storage alone yield the same. -/
theorem outcome_congr {f g : Framer} (h : f.bare = g.bare) : f.outcome = g.outcome := by
  induction f using drain_induction generalizing g with
  | page f f' page hf ih =>
    obtain ⟨hanswer, hbare⟩ := next_congr h
    rw [hf] at hanswer hbare
    have hg : g.next = (.page page, g.next.2) := Prod.ext hanswer.symm rfl
    obtain ⟨-, -, hposition, -⟩ := bare_eq_iff.mp hbare
    rw [outcome_of_next_page hf, outcome_of_next_page hg, ih hbare, hposition]
  | rest f f' last hf hno =>
    obtain ⟨hanswer, hbare⟩ := next_congr h
    rw [hf] at hanswer hbare
    have hg : g.next = (last, g.next.2) := Prod.ext hanswer.symm rfl
    rw [outcome_of_next_rest hf hno, outcome_of_next_rest hg hno, hbare]

/-- Framers that answer the next search alike yield the same. -/
theorem outcome_congr_of_next {f g : Framer} (hanswer : f.next.1 = g.next.1)
    (hbare : f.next.2.bare = g.next.2.bare) : f.outcome = g.outcome := by
  have hf : f.next = (f.next.1, f.next.2) := rfl
  have hg : g.next = (f.next.1, g.next.2) := Prod.ext hanswer.symm rfl
  by_cases hpage : ∃ page, f.next.1 = .page page
  · obtain ⟨page, hpage⟩ := hpage
    rw [hpage] at hf hg
    obtain ⟨-, -, hposition, -⟩ := bare_eq_iff.mp hbare
    rw [outcome_of_next_page hf, outcome_of_next_page hg, outcome_congr hbare, hposition]
  · have hno : ∀ page, f.next.1 ≠ .page page := fun page h => hpage ⟨page, h⟩
    rw [outcome_of_next_rest hf hno, outcome_of_next_rest hg hno, hbare]

/-! ### The future -/

/-- The framer once all bytes to come are there and the input has ended. -/
def whole (f : Framer) (d : Bytes) : Framer := (f.append d).finish

/-- What the framer comes to with the bytes to come: the pages it yields with their
places, the last answer, and what is left. -/
def complete (f : Framer) (d : Bytes) : List (Nat × Page) × Pull × Framer := (f.whole d).outcome

@[simp] theorem live_whole (f : Framer) (d : Bytes) : (f.whole d).live = f.live ++ d := by
  rw [whole, live_finish, live_append]

@[simp] theorem mode_whole (f : Framer) (d : Bytes) : (f.whole d).mode = { f.mode with ended := true } := rfl

theorem bare_whole {f g : Framer} (h : f.bare = g.bare) (d : Bytes) : (f.whole d).bare = (g.whole d).bare :=
  bare_finish (bare_append h d)

theorem complete_congr {f g : Framer} (h : f.bare = g.bare) (d : Bytes) : f.complete d = g.complete d :=
  outcome_congr (bare_whole h d)

/-- **The bytes to come may come in parts.** -/
theorem complete_append (f : Framer) (d e : Bytes) : (f.append d).complete e = f.complete (d ++ e) := by
  refine outcome_congr ?_
  rw [bare_eq_iff, live_whole, live_whole, live_append, List.append_assoc]
  exact ⟨rfl, rfl, rfl, rfl⟩

theorem complete_receive (f : Framer) (d e : Bytes) : (f.receive d).complete e = f.complete (d ++ e) := by
  rw [complete_congr (bare_receive f d), complete_append]

theorem complete_reserve (f : Framer) (n : Nat) (d : Bytes) : (f.reserve n).complete d = f.complete d :=
  complete_congr (bare_reserve f n) d

/-- That the input has ended changes nothing when nothing was to come. -/
theorem complete_finish (f : Framer) : f.finish.complete [] = f.complete [] := by
  refine outcome_congr ?_
  rw [bare_eq_iff, live_whole, live_whole, live_finish]
  exact ⟨rfl, rfl, rfl, rfl⟩

/-- When nothing is to come, the future is at hand. -/
theorem complete_of_ended {f : Framer} (h : f.mode.ended = true) : f.complete [] = f.outcome := by
  refine outcome_congr ?_
  rw [bare_eq_iff, live_whole, mode_whole, List.append_nil, ← h]
  exact ⟨rfl, rfl, rfl, rfl⟩

/-- A search that yields a page yields it also when the bytes to come are there. -/
theorem next_whole_of_page {f g : Framer} {page : Page} {d : Bytes} (h : f.next = (.page page, g))
    (hd : f.mode.ended = true → d = []) :
    ∃ g', (f.whole d).next = (.page page, g') ∧ g'.bare = (g.whole d).bare := by
  obtain ⟨q, hs, rfl⟩ := search_of_next_page h
  have hs' : search (f.whole d).mode {} (f.whole d).live = (q, some page) := by
    rw [live_whole]
    by_cases hended : f.mode.ended = true
    · rw [hd hended, List.append_nil, mode_whole, ← hs, ← hended]
    · exact search_append_of_page (by simpa using hended) hs _ d
  refine ⟨_, next_of_search_page hs', ?_⟩
  have hle := size_le_of_search_page hs
  rw [bare_eq_iff, live_whole, live_take, live_pass, live_take, live_pass, live_whole,
    List.drop_append_of_le_length (by omega),
    List.drop_append_of_le_length (by rw [List.length_drop]; omega)]
  exact ⟨rfl, rfl, rfl, rfl⟩

/-- **A search that yields a page takes nothing but that page from what is to come.** -/
theorem complete_of_next_page {f g : Framer} {page : Page} {d : Bytes} (h : f.next = (.page page, g))
    (hd : f.mode.ended = true → d = []) :
    f.complete d = ((g.position - page.size, page) :: (g.complete d).1, (g.complete d).2) := by
  obtain ⟨g', hnext, hbare⟩ := next_whole_of_page h hd
  obtain ⟨-, -, hposition, -⟩ := bare_eq_iff.mp hbare
  rw [complete, outcome_of_next_page hnext, outcome_congr hbare, hposition]
  rfl

/-- Passing over bytes before the others have come and after is the same. -/
theorem bare_pass_whole {f : Framer} {q : Passed} (h : q.skipped ≤ f.live.length) (r : Passed) (d : Bytes) :
    ((f.whole d).pass (q.andThen r)).bare = (((f.pass q).whole d).pass r).bare := by
  have hpass : ((f.whole d).pass q).bare = ((f.pass q).whole d).bare := by
    rw [bare_eq_iff, live_pass, live_whole, live_whole, live_pass, List.drop_append_of_le_length h]
    exact ⟨rfl, rfl, rfl, rfl⟩
  rw [pass_andThen]
  exact bare_pass hpass r

/-- A search that came to rest may as well have waited for the bytes to come. -/
theorem next_whole_of_rest {f : Framer} {q : Passed} (hended : f.mode.ended = false)
    (hs : search f.mode {} f.live = (q, none)) (d : Bytes) :
    (f.whole d).next.1 = ((f.pass q).whole d).next.1 ∧
      (f.whole d).next.2.bare = ((f.pass q).whole d).next.2.bare := by
  have htorn : q.torn = none := by simpa only [hs] using search_torn_of_not_ended hended f.live
  have hle : q.skipped ≤ f.live.length := by simpa only [hs] using search_skipped_le f.mode f.live
  have hgo := search_append_of_none hended hs (f.whole d).mode d
  have hlive : ((f.pass q).whole d).live = f.live.drop q.skipped ++ d := by rw [live_whole, live_pass]
  rcases hr : search (f.whole d).mode {} (f.live.drop q.skipped ++ d) with ⟨r, _ | page⟩
  · rw [hr, ← live_whole] at hgo
    rw [← hlive] at hr
    rw [next_of_search_none hgo, next_of_search_none (f := (f.pass q).whole d) hr]
    refine ⟨?_, bare_pass_whole hle r d⟩
    rw [answer_congr (bare_pass_whole hle r d), Passed.andThen, htorn, Option.none_or]
  · rw [hr, ← live_whole] at hgo
    rw [← hlive] at hr
    rw [next_of_search_page hgo, next_of_search_page (f := (f.pass q).whole d) hr]
    exact ⟨rfl, bare_take (bare_pass_whole hle r d) page⟩

/-- **A search that yields no page takes nothing from what is to come.** -/
theorem complete_of_next_starved {f g : Framer} {last : Pull} (h : f.next = (last, g))
    (hno : ∀ page, last ≠ .page page) (hended : f.mode.ended = false) (d : Bytes) :
    f.complete d = g.complete d := by
  obtain ⟨q, hs, -, rfl⟩ := search_of_next_rest h hno
  obtain ⟨hanswer, hbare⟩ := next_whole_of_rest hended hs d
  exact outcome_congr_of_next hanswer hbare

/-- Before the end of the input, a search that yields no page is starved. -/
theorem starved_of_not_ended {f g : Framer} {last : Pull} (h : f.next = (last, g))
    (hno : ∀ page, last ≠ .page page) (hended : f.mode.ended = false) : last = .starved := by
  obtain ⟨q, hs, rfl, -⟩ := search_of_next_rest h hno
  have htorn : q.torn = none := by simpa only [hs] using search_torn_of_not_ended hended f.live
  have hpass : (f.pass q).mode.ended = false := hended
  simp only [answer, htorn, hpass, Bool.false_and, Bool.false_eq_true, if_false]

/-- **Draining before the end of the input** yields the first of the pages to come, and
leaves the rest. -/
theorem complete_drain {f : Framer} (hended : f.mode.ended = false) (d : Bytes) :
    f.complete d = (f.drain.1 ++ (f.drain.2.2.complete d).1, (f.drain.2.2.complete d).2) ∧
      f.drain.2.1 = .starved ∧ f.drain.2.2.mode = f.mode := by
  induction f using drain_induction with
  | page f g page hf ih =>
    have hmode : g.mode = f.mode := by rw [← f.mode_next, hf]
    obtain ⟨hg, hlast, hend⟩ := ih (by rw [hmode, hended])
    have hdrain := drain_of_next_page hf
    rw [complete_of_next_page hf (by simp [hended]), hg, hdrain, List.cons_append]
    exact ⟨rfl, hlast, hend.trans hmode⟩
  | rest f g last hf hno =>
    have hmode : g.mode = f.mode := by rw [← f.mode_next, hf]
    have hdrain := drain_of_next_rest hf hno
    rw [complete_of_next_starved hf hno hended, hdrain, List.nil_append]
    exact ⟨rfl, starved_of_not_ended hf hno hended, hmode⟩

end Ogg.Framer
