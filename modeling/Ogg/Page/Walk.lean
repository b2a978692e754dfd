import Ogg.Page.Verdict

/-!
# The pages of a byte string

When all bytes are at hand, the pages of a bitstream are found by one walk from
left to right: at each place either a page begins, and the walk goes on behind it,
or none does, and the walk goes on one byte further. `Page.walk` says which pages
those are and where; it knows nothing of buffers, chunks and waiting.
-/

namespace Ogg.Page

/-- The pages of a byte string and their places, the first byte standing at `offset`. -/
def walk (offset : Nat) (d : Bytes) : List (Nat × Page) :=
  match d with
  | [] => []
  | b :: r =>
    match judge (b :: r) with
    | .valid page => (offset, page) :: walk (offset + page.size) ((b :: r).drop page.size)
    | _ => walk (offset + 1) r
termination_by d.length
decreasing_by
  · have := page.size_pos
    simp only [List.length_drop, List.length_cons]
    omega
  · simp

/-- The spurious candidates that the walk passes over. -/
def walkRejected (d : Bytes) : Nat :=
  match d with
  | [] => 0
  | b :: r =>
    match judge (b :: r) with
    | .valid page => walkRejected ((b :: r).drop page.size)
    | .spurious _ => walkRejected r + 1
    | _ => walkRejected r
termination_by d.length
decreasing_by
  · have := page.size_pos
    simp only [List.length_drop, List.length_cons]
    omega
  · simp
  · simp

end Ogg.Page
