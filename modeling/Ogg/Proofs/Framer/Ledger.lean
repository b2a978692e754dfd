import Mathlib.Algebra.GroupWithZero.Nat
import Ogg.Proofs.Framer.Completion

/-!
# Where the bytes of a framer go

Whatever is done with a framer, and in whatever order, the bytes that it was given are those that
its searches have passed over, followed by those that still wait. What was passed over is a
sequence of stretches: bytes that belong to no page, and the written forms of the pages that were
yielded. The counts of the framer are those of the stretches.

This is an invariant between the bytes given, the stretches and the framer (`Accounted`). Only a
search moves bytes from one side to the other, and it moves exactly those that it counts
(`next_spends`); the bytes may be moved about in the storage, come after the end of the input was
said, or be looked at in one mode and then in the other.

## Main statements

* `next_spends`: what one search uses up, and how it counts it.
* `accounted_handle`: the accounts after one move.
* `handleAll_accounts`: no byte is lost, repeated or moved out of order.
-/

namespace Ogg

/-- The page that a search yields, if it yields one. -/
def Pull.page? : Pull → Option Page
  | .page p => some p
  | _ => none

/-- What can be done with a framer, at any time. -/
inductive Framer.Move where
  /-- To put bytes at the end of what is searched. -/
  | append (d : Bytes)
  /-- To make one search. -/
  | next
  /-- To say that the input has ended. -/
  | finish
  /-- To say whether to resynchronise. -/
  | resync (on : Bool)
  deriving DecidableEq, Repr

/-- The bytes that a move brings. -/
def Framer.Move.bytes : Framer.Move → Bytes
  | .append d => d
  | .next | .finish | .resync _ => []

/-- Bytes that were passed over at one go. -/
inductive Stretch where
  /-- They belong to no page. -/
  | skipped (d : Bytes)
  /-- They are the written form of a page. -/
  | page (page : Page)
  deriving DecidableEq, Repr

namespace Stretch

/-- The bytes of a stretch. -/
def bytes : Stretch → Bytes
  | skipped d => d
  | page p => p.encode

/-- The page that a stretch is. -/
def page? : Stretch → Option Page
  | skipped _ => none
  | page p => some p

/-- The bytes of a stretch that belong to no page. -/
def waste : Stretch → Bytes
  | skipped d => d
  | page _ => []

/-- All bytes of some stretches are those of no page and those of the pages. -/
theorem length_bytes (l : List Stretch) :
    (l.flatMap bytes).length = (l.flatMap waste).length + ((l.filterMap page?).map Page.size).sum := by
  induction l with
  | nil => rfl
  | cons s l ih =>
    cases s with
    | skipped d =>
      rw [List.flatMap_cons, List.flatMap_cons, List.length_append, List.length_append, ih, List.filterMap_cons_none rfl]
      exact (Nat.add_assoc _ _ _).symm
    | page p =>
      have hpage : (page p :: l).filterMap page? = p :: l.filterMap page? := rfl
      rw [List.flatMap_cons, List.flatMap_cons, List.length_append, List.length_append, ih, hpage, List.map_cons,
        List.sum_cons, bytes, waste, Page.length_encode, List.length_nil]
      omega

end Stretch

/-! ### One search -/

/-- Each spurious candidate is a byte passed over. -/
theorem rejected_le_skipped (mode : Mode) (d : Bytes) :
    (search mode {} d).1.rejected ≤ (search mode {} d).1.skipped := by
  induction d with
  | nil => exact Nat.le_refl 0
  | cons b r ih =>
    cases hstep : mode.step (r.length + 1) (Page.judge (b :: r)) with
    | none =>
      simp only [search_cons_of_rest hstep, Nat.le_refl]
    | some q =>
      have hq : q.rejected ≤ q.skipped := by
        obtain ⟨rfl, -⟩ | ⟨rfl, -⟩ | ⟨rfl, -⟩ := Mode.step_cases hstep
        · exact Nat.zero_le 1
        · exact Nat.zero_le 1
        · exact Nat.le_refl 1
      rw [search_cons_of_step hstep]
      exact Nat.add_le_add hq ih

namespace Framer

/-- What a search has used up: some bytes that belong to no page, and a page if it found one. -/
def spent (skipped : Bytes) (found : Option Page) : List Stretch := .skipped skipped :: found.toList.map .page

/-- **One search uses up what it counts**: the bytes that waited are those that it has passed over
and the page that it yields, followed by those that still wait. -/
theorem next_spends (f : Framer) :
    ∃ skipped : Bytes,
      f.live = (spent skipped f.next.1.page?).flatMap Stretch.bytes ++ f.next.2.live ∧
        f.next.2.position = f.position + ((spent skipped f.next.1.page?).flatMap Stretch.bytes).length ∧
        f.next.2.stats.skipped = f.stats.skipped + skipped.length ∧
        f.next.2.stats.pages = f.stats.pages + f.next.1.page?.toList.length ∧
        f.next.2.stats.rejected ≤ f.stats.rejected + skipped.length := by
  have hrejected := rejected_le_skipped f.mode f.live
  rcases hs : search f.mode {} f.live with ⟨q, _ | page⟩
  · have hle : q.skipped ≤ f.live.length := by simpa only [hs] using search_skipped_le f.mode f.live
    have hlength : (f.live.take q.skipped).length = q.skipped := List.length_take_of_le hle
    have hnone : ((f.pass q).answer q.torn).page? = none := by
      cases hanswer : (f.pass q).answer q.torn with
      | page page => exact absurd hanswer (answer_ne_page _ _ page)
      | _ => rfl
    have hspent : (spent (f.live.take q.skipped) none).flatMap Stretch.bytes = f.live.take q.skipped := by
      simp [spent, Stretch.bytes]
    rw [hs] at hrejected
    rw [next_of_search_none hs]
    simp only [hnone]
    refine ⟨f.live.take q.skipped, ?_, ?_, ?_, rfl, ?_⟩
    · rw [hspent]
      exact (List.take_append_drop _ _).symm
    · rw [hspent, hlength]
      rfl
    · rw [hlength]
      rfl
    · rw [hlength]
      exact Nat.add_le_add_left hrejected _
  · have hle : q.skipped ≤ f.live.length := Nat.le_of_add_right_le (size_le_of_search_page hs)
    have hlength : (f.live.take q.skipped).length = q.skipped := List.length_take_of_le hle
    have hspent : (spent (f.live.take q.skipped) (some page)).flatMap Stretch.bytes =
        f.live.take q.skipped ++ page.encode := by
      simp [spent, Stretch.bytes]
    rw [hs] at hrejected
    rw [next_of_search_page hs]
    refine ⟨f.live.take q.skipped, ?_, ?_, ?_, rfl, ?_⟩
    · rw [Pull.page?, hspent]
      exact live_of_search_page hs
    · rw [Pull.page?, hspent, List.length_append, hlength, Page.length_encode]
      exact Nat.add_assoc _ _ _
    · rw [hlength]
      rfl
    · rw [hlength]
      exact Nat.add_le_add_left hrejected _

/-! ### One move after another -/

/-- Does one thing: the page that comes of it, and the framer after it. -/
def handle (f : Framer) : Move → Option Page × Framer
  | .append d => (none, f.append d)
  | .next => (f.next.1.page?, f.next.2)
  | .finish => (none, f.finish)
  | .resync on => (none, { f with mode.resync := on })

/-- Does some things one after another: the pages that come of it, and the framer after all. -/
def handleAll (f : Framer) : List Move → List Page × Framer
  | [] => ([], f)
  | move :: moves => ((f.handle move).1.toList ++ ((f.handle move).2.handleAll moves).1, ((f.handle move).2.handleAll moves).2)

/-- The accounts of a framer: the bytes that it was given, and the stretches that it has passed over. -/
structure Accounted (given : Bytes) (passed : List Stretch) (f : Framer) : Prop where
  /-- What was given was passed over, or waits. -/
  given : given = passed.flatMap Stretch.bytes ++ f.live
  /-- The position is where the bytes stand that wait. -/
  position : f.position = (passed.flatMap Stretch.bytes).length
  /-- The bytes of no page are counted. -/
  skipped : f.stats.skipped = (passed.flatMap Stretch.waste).length
  /-- The pages are counted. -/
  pages : f.stats.pages = (passed.filterMap Stretch.page?).length
  /-- Each spurious candidate is a byte of no page. -/
  rejected : f.stats.rejected ≤ f.stats.skipped

theorem page?_spent (skipped : Bytes) (found : Option Page) :
    (spent skipped found).filterMap Stretch.page? = found.toList := by
  cases found <;> rfl

theorem waste_spent (skipped : Bytes) (found : Option Page) : (spent skipped found).flatMap Stretch.waste = skipped := by
  cases found <;> simp [spent, Stretch.waste]

/-- **The accounts after one move.** -/
theorem accounted_handle {given : Bytes} {passed : List Stretch} {f : Framer} (h : Accounted given passed f)
    (move : Move) :
    ∃ more, more.filterMap Stretch.page? = (f.handle move).1.toList ∧
      Accounted (given ++ move.bytes) (passed ++ more) (f.handle move).2 := by
  have stays : ∀ g : Framer, g.live = f.live ++ move.bytes → g.position = f.position → g.stats = f.stats →
      Accounted (given ++ move.bytes) (passed ++ []) g := by
    intro g hlive hposition hstats
    rw [List.append_nil]
    refine ⟨?_, hposition.trans h.position, ?_, ?_, ?_⟩
    · rw [hlive, ← List.append_assoc, ← h.given]
    · rw [hstats, h.skipped]
    · rw [hstats, h.pages]
    · rw [hstats]
      exact h.rejected
  cases move with
  | append d => exact ⟨[], rfl, stays _ (live_append f d) rfl rfl⟩
  | finish => exact ⟨[], rfl, stays _ (List.append_nil _).symm rfl rfl⟩
  | resync on => exact ⟨[], rfl, stays _ (List.append_nil _).symm rfl rfl⟩
  | next =>
    obtain ⟨skipped, hlive, hposition, hskipped, hpages, hrejected⟩ := f.next_spends
    refine ⟨spent skipped f.next.1.page?, page?_spent _ _, ?_, ?_, ?_, ?_, ?_⟩
    · rw [Move.bytes, List.append_nil, h.given, hlive, List.flatMap_append, List.append_assoc]
      rfl
    · rw [List.flatMap_append, List.length_append, ← h.position]
      exact hposition
    · rw [List.flatMap_append, List.length_append, waste_spent, ← h.skipped]
      exact hskipped
    · rw [List.filterMap_append, List.length_append, page?_spent, ← h.pages]
      exact hpages
    · show f.next.2.stats.rejected ≤ f.next.2.stats.skipped
      have := h.rejected
      omega

theorem accounted_handleAll {given : Bytes} {passed : List Stretch} {f : Framer} (h : Accounted given passed f)
    (moves : List Move) :
    ∃ more, more.filterMap Stretch.page? = (f.handleAll moves).1 ∧
      Accounted (given ++ moves.flatMap Move.bytes) (passed ++ more) (f.handleAll moves).2 := by
  induction moves generalizing given passed f with
  | nil =>
    refine ⟨[], rfl, ?_⟩
    rw [List.flatMap_nil, List.append_nil, List.append_nil]
    exact h
  | cons move moves ih =>
    obtain ⟨first, hfirst, hstep⟩ := accounted_handle h move
    obtain ⟨more, hmore, hrest⟩ := ih hstep
    refine ⟨first ++ more, ?_, ?_⟩
    · rw [List.filterMap_append, hfirst, hmore]
      rfl
    · rw [List.append_assoc, List.append_assoc] at hrest
      exact hrest

/-- **No byte is lost, repeated or moved out of order.** Whatever is done with a fresh framer, the
bytes that it was given are stretches of skipped bytes and the written forms of just the pages that
it has yielded, in their order, followed by the bytes that wait. Its position is the length of
what was passed over, which is what it counts as skipped and the sizes of the pages; it counts the
pages, and no more spurious candidates than skipped bytes. -/
theorem handleAll_accounts (capacity : Nat) (resync : Bool) (moves : List Move) :
    let fresh : Framer := { buffer := .withCapacity capacity, mode := { resync } }
    let pages := (fresh.handleAll moves).1
    let f := (fresh.handleAll moves).2
    ∃ passed : List Stretch,
      moves.flatMap Move.bytes = passed.flatMap Stretch.bytes ++ f.live ∧ passed.filterMap Stretch.page? = pages ∧
        f.position = (passed.flatMap Stretch.bytes).length ∧ f.position = f.stats.skipped + (pages.map Page.size).sum ∧
        f.stats.pages = pages.length ∧ f.stats.rejected ≤ f.stats.skipped := by
  intro fresh pages f
  have hfresh : Accounted [] [] fresh := ⟨rfl, rfl, rfl, rfl, Nat.le_refl 0⟩
  obtain ⟨passed, hpages, h⟩ := accounted_handleAll hfresh moves
  rw [List.nil_append, List.nil_append] at h
  refine ⟨passed, h.given, hpages, h.position, ?_, ?_, h.rejected⟩
  · show f.position = f.stats.skipped + ((fresh.handleAll moves).1.map Page.size).sum
    rw [h.position, h.skipped, Stretch.length_bytes, hpages]
  · rw [h.pages, hpages]

/-- A page without segments. -/
def barePage : Page := ⟨⟨0, ⟨2⟩, 0, 9, 0, 3466879338, []⟩, []⟩

/-- A byte of no page, a page in two parts and the beginning of another, with a change of the mode and
the end of the input in between. -/
theorem handleAll_accounts_barePage :
    let moves : List Move := [.append (7 :: barePage.encode.take 2), .next, .resync true,
      .append (barePage.encode.drop 2), .next, .finish, .append [0x4f], .next]
    ∃ f, ∃ passed : List Stretch,
      handleAll { buffer := .withCapacity 8, mode := { resync := false } } moves = ([barePage], f) ∧
        7 :: (barePage.encode ++ [0x4f]) = passed.flatMap Stretch.bytes ++ f.live ∧
        passed.filterMap Stretch.page? = [barePage] ∧ f.position = f.stats.skipped + ([barePage].map Page.size).sum ∧
        f.stats.pages = [barePage].length := by
  intro moves
  have hpages : (handleAll { buffer := .withCapacity 8, mode := { resync := false } } moves).1 = [barePage] := by
    decide +kernel
  have hbytes : moves.flatMap Move.bytes = 7 :: (barePage.encode ++ [0x4f]) := by decide +kernel
  obtain ⟨passed, hgiven, hpassed, -, hposition, hcount, -⟩ := handleAll_accounts 8 false moves
  rw [hbytes] at hgiven
  generalize handleAll { buffer := .withCapacity 8, mode := { resync := false } } moves = run
    at hpages hgiven hpassed hposition hcount ⊢
  obtain ⟨pages, f⟩ := run
  obtain rfl : pages = [barePage] := hpages
  exact ⟨f, passed, rfl, hgiven, hpassed, hposition, hcount⟩

end Framer

end Ogg
