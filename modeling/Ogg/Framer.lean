import Ogg.Buffer
import Ogg.Page.Verdict

/-!
# From bytes to pages

A framer holds buffered bytes and searches them for pages. The search goes from
left to right, one byte at a time past everything that begins no page, and rests
where the bytes are too few to tell. `Framer.next` is one search: it yields a
page, or it is starved of bytes, or it meets the end of the input inside a page.

When the input has ended, an incomplete candidate will never be whole. A framer
that resynchronises gives such a candidate up like a spurious one and searches
on; any other framer stops there for good.

## Main statements

* `next_page_live_lt`: a search that yields a page uses bytes up.
-/

namespace Ogg

/-! ### Searching bytes -/

/-- What a search has passed over. -/
structure Passed where
  /-- The bytes that belong to no page. -/
  skipped : Nat := 0
  /-- The spurious candidates among them. -/
  rejected : Nat := 0
  /-- How many bytes there were from the first abandoned candidate on. -/
  torn : Option Nat := none
  deriving DecidableEq, Repr

namespace Passed

/-- One more byte passed over. -/
def skip (p : Passed) : Passed := { p with skipped := p.skipped + 1 }

/-- One more candidate found spurious, and its first byte passed over. -/
def reject (p : Passed) : Passed := { p.skip with rejected := p.rejected + 1 }

/-- One more candidate abandoned with so many bytes left, and its first byte passed over. -/
def abandon (p : Passed) (left : Nat) : Passed := { p.skip with torn := p.torn.or (some left) }

end Passed

/-- How a search reads what it cannot decide. -/
structure Mode where
  /-- No more bytes will come. -/
  ended : Bool := false
  /-- At the end of the input, incomplete candidates are abandoned. -/
  resync : Bool := false
  deriving DecidableEq, Repr

/-- Searches bytes for a page: what was passed over before the search came to rest,
and the page that begins there, if one does. -/
def search (mode : Mode) (p : Passed) : Bytes → Passed × Option Page
  | [] => (p, none)
  | b :: r =>
    match Page.judge (b :: r) with
    | .foreign => search mode p.skip r
    | .partialCapture => if mode.ended then search mode p.skip r else (p, none)
    | .incomplete =>
      if mode.ended && mode.resync then search mode (p.abandon (b :: r).length) r else (p, none)
    | .spurious _ => search mode p.reject r
    | .valid page => (p, some page)

/-! ### The framer -/

/-- Counts over the life of a framer. -/
structure Stats where
  /-- The pages found. -/
  pages : Nat := 0
  /-- The candidates found spurious. -/
  rejected : Nat := 0
  /-- The bytes passed over that belong to no page. -/
  skipped : Nat := 0
  deriving DecidableEq, Repr

/-- Whether a candidate has been judged to the end. -/
def Stats.sawCapture (s : Stats) : Bool := s.pages > 0 || s.rejected > 0

/-- Buffered bytes and how far the search through them has come. -/
structure Framer where
  /-- The bytes. -/
  buffer : Buffer := {}
  /-- How the search reads what it cannot decide. -/
  mode : Mode := {}
  /-- The number of bytes used up: where the next one stands in the input. -/
  position : Nat := 0
  /-- What has been found. -/
  stats : Stats := {}
  deriving DecidableEq, Repr

/-- The answer of one search. -/
inductive Pull where
  /-- The next page. -/
  | page (page : Page)
  /-- There is no page yet; or the input has ended and nothing is left. -/
  | starved
  /-- The input ended inside a page, with so many bytes from its beginning on. -/
  | torn (buffered : Nat)
  deriving DecidableEq, Repr

/-- What a torn page is reported as. -/
def tornMessage (buffered : Nat) : String :=
  s!"Insufficient data: {buffered} byte(s) buffered but no complete page"

namespace Framer

/-- The bytes waiting to be searched. -/
def live (f : Framer) : Bytes := f.buffer.live

/-- Puts bytes at the end of what is searched. -/
def append (f : Framer) (d : Bytes) : Framer := { f with buffer := f.buffer.append d }

/-- Makes room for `n` bytes. -/
def reserve (f : Framer) (n : Nat) : Framer := { f with buffer := f.buffer.reserve n }

/-- Takes bytes that were read into the room made for them. -/
def receive (f : Framer) (d : Bytes) : Framer := { f with buffer := (f.buffer.fill d).commit d.length }

/-- Uses up bytes as no part of a page. -/
def pass (f : Framer) (p : Passed) : Framer :=
  { f with
    buffer := f.buffer.discard p.skipped
    position := f.position + p.skipped
    stats := { f.stats with
      rejected := f.stats.rejected + p.rejected
      skipped := f.stats.skipped + p.skipped } }

/-- Uses up the bytes of a page. -/
def take (f : Framer) (page : Page) : Framer :=
  { f with
    buffer := f.buffer.discard page.size
    position := f.position + page.size
    stats := { f.stats with pages := f.stats.pages + 1 } }

/-- Says that no more bytes will come. -/
def finish (f : Framer) : Framer := { f with mode := { f.mode with ended := true } }

/-- Forgets what was found, and whether the input had ended; the bytes stay. -/
def restart (f : Framer) : Framer := { buffer := f.buffer, mode := { resync := f.mode.resync } }

@[simp] theorem live_append (f : Framer) (d : Bytes) : (f.append d).live = f.live ++ d :=
  Buffer.live_append _ _

@[simp] theorem live_reserve (f : Framer) (n : Nat) : (f.reserve n).live = f.live :=
  Buffer.live_reserve _ _

@[simp] theorem live_receive (f : Framer) (d : Bytes) : (f.receive d).live = f.live ++ d :=
  Buffer.live_commit_fill _ _

@[simp] theorem live_pass (f : Framer) (p : Passed) : (f.pass p).live = f.live.drop p.skipped := rfl

@[simp] theorem live_take (f : Framer) (page : Page) : (f.take page).live = f.live.drop page.size := rfl

@[simp] theorem live_finish (f : Framer) : f.finish.live = f.live := rfl

/-- Whether the bytes begin with a capture pattern. -/
def atCapture (f : Framer) : Bool := capturePattern.isPrefixOf f.live

/-- The answer of a search that found no page: the input was torn at the first
candidate it abandoned, or at the bytes it came to rest on. -/
def answer (f : Framer) : Option Nat → Pull
  | some left => .torn left
  | none => if f.mode.ended && !f.live.isEmpty then .torn f.live.length else .starved

theorem answer_ne_page (f : Framer) (torn : Option Nat) (page : Page) : f.answer torn ≠ .page page := by
  cases torn with
  | some left => simp [answer]
  | none =>
    simp only [answer]
    split <;> simp

/-- One search for a page. -/
def next (f : Framer) : Pull × Framer :=
  match search f.mode {} f.live with
  | (p, some page) => (.page page, (f.pass p).take page)
  | (p, none) => ((f.pass p).answer p.torn, f.pass p)

end Framer

/-! ### Draining -/

/-- A search that finds a page has not passed over all bytes. -/
theorem search_page_lt {mode : Mode} {p q : Passed} {d : Bytes} {page : Page}
    (h : search mode p d = (q, some page)) : q.skipped < p.skipped + d.length := by
  induction d generalizing p with
  | nil => simp [search] at h
  | cons b r ih =>
    rw [search] at h
    split at h
    · have := ih h
      simp only [Passed.skip, List.length_cons] at this ⊢
      omega
    · split at h
      · have := ih h
        simp only [Passed.skip, List.length_cons] at this ⊢
        omega
      · simp at h
    · split at h
      · have := ih h
        simp only [Passed.abandon, Passed.skip, List.length_cons] at this ⊢
        omega
      · simp at h
    · have := ih h
      simp only [Passed.reject, Passed.skip, List.length_cons] at this ⊢
      omega
    · obtain ⟨rfl, -⟩ := Prod.mk.inj h
      simp only [List.length_cons]
      omega

namespace Framer

/-- A search that yields a page uses bytes up. -/
theorem next_page_live_lt {f g : Framer} {page : Page} (h : f.next = (.page page, g)) :
    g.live.length < f.live.length := by
  unfold next at h
  split at h
  · next p found hs =>
    obtain ⟨-, rfl⟩ := Prod.mk.inj h
    have hlt : p.skipped < 0 + f.live.length := search_page_lt hs
    have hpos := found.size_pos
    simp only [live_take, live_pass, List.length_drop]
    omega
  · exact absurd (Prod.mk.inj h).1 (answer_ne_page _ _ _)

/-- A search does not change how the next one reads. -/
@[simp] theorem mode_next (f : Framer) : f.next.2.mode = f.mode := by
  unfold next
  split <;> rfl

/-- All pages that can be had from the buffered bytes, each with its place in the
input, then the answer that is no page. -/
def drain (f : Framer) : List (Nat × Page) × Pull × Framer :=
  match _h : f.next with
  | (.page page, g) =>
    let (pages, last, g') := g.drain
    ((g.position - page.size, page) :: pages, last, g')
  | (last, g) => ([], last, g)
termination_by f.live.length
decreasing_by exact next_page_live_lt _h

end Framer

end Ogg
