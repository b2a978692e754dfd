import Ogg.Bytes

/-!
# The smallest parts of JSON text

Functions that read take what they read from the front of a byte string and give
what is left. A mistake is one of three kinds: the text ended too early, it is not
JSON, or it is JSON of another type than was wanted. The first mistake in reading
order counts, so a value of the wrong type is read as far as it takes to see that
it is one.

## Main statements

* `expectWord_suffix`, `dropBlanks_suffix`: what is left is an end of what was given.
-/

namespace Ogg.Json

/-- What is wrong with a text. -/
inductive Mistake where
  /-- It ends too early. -/
  | ended
  /-- It is not JSON. -/
  | malformed
  /-- It is a value of another type, or out of range, or a field given twice. -/
  | mismatched
  deriving DecidableEq, Repr

/-- The blanks between the parts of a text. -/
def isBlank (b : UInt8) : Bool := b == 0x20 || b == 0x0a || b == 0x09 || b == 0x0d

/-- A decimal digit. -/
def isDigit (b : UInt8) : Bool := 0x30 ≤ b && b ≤ 0x39

/-- What is left after blanks. -/
def dropBlanks (d : Bytes) : Bytes := d.dropWhile isBlank

theorem dropBlanks_suffix (d : Bytes) : dropBlanks d <:+ d := List.dropWhile_suffix _

theorem suffix_of_dropBlanks {d r s : Bytes} {b : UInt8} (h : dropBlanks d = b :: r) (hs : s <:+ r) :
    s <:+ d := by
  have := dropBlanks_suffix d
  rw [h] at this
  exact (hs.trans (List.suffix_cons _ _)).trans this

theorem length_lt_of_dropBlanks {d r s : Bytes} {b : UInt8} (h : dropBlanks d = b :: r) (hs : s <:+ r) :
    s.length < d.length := by
  have h₁ := (dropBlanks_suffix d).length_le
  have h₂ := hs.length_le
  rw [h, List.length_cons] at h₁
  omega

/-- What is left after the given bytes. -/
def expectWord : Bytes → Bytes → Except Mistake Bytes
  | [], d => .ok d
  | _ :: _, [] => .error .ended
  | w :: ws, b :: r => if w = b then expectWord ws r else .error .malformed

theorem expectWord_suffix {word d r : Bytes} (h : expectWord word d = .ok r) : r <:+ d := by
  induction word generalizing d with
  | nil => cases h; exact List.suffix_refl _
  | cons w ws ih =>
    cases d with
    | nil => simp [expectWord] at h
    | cons b t =>
      rw [expectWord] at h
      split at h
      · exact (ih h).trans (List.suffix_cons _ _)
      · simp at h

/-- What is left after the colon between the name and the value of a field. -/
def dropColon (d : Bytes) : Except Mistake Bytes :=
  match dropBlanks d with
  | [] => .error .ended
  | b :: r => if b == 0x3a then .ok r else .error .malformed

theorem dropColon_suffix {d r : Bytes} (h : dropColon d = .ok r) : r <:+ d := by
  unfold dropColon at h
  split at h
  · simp at h
  · next hd =>
    split at h
    · cases h
      exact suffix_of_dropBlanks hd (List.suffix_refl _)
    · simp at h

/-- A reading whose answer is changed succeeds when it does. -/
theorem map_eq_ok {α β : Type} {x : Except Mistake α} {g : α → β} {b : β} (h : x.map g = .ok b) :
    ∃ a, x = .ok a ∧ g a = b := by
  cases x with
  | error e => simp [Except.map] at h
  | ok a => exact ⟨a, rfl, by simpa [Except.map] using h⟩

/-- The rest of the words `null`, `true` and `false` by their first letter. -/
def wordAfter (b : UInt8) : Option Bytes :=
  if b = 0x6e then some [0x75, 0x6c, 0x6c]
  else if b = 0x74 then some [0x72, 0x75, 0x65]
  else if b = 0x66 then some [0x61, 0x6c, 0x73, 0x65]
  else none

end Ogg.Json
