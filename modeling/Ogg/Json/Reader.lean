import Ogg.Json.Number
import Ogg.Json.Text

/-!
# Reading JSON values of a wanted type

A count and a truth value. A value of another type is a mistake of its own, unless
the text goes wrong before its type is clear.

## Main statements

* `readCount_suffix`, `readBool_suffix`: what is left is an end of what was given.
-/

namespace Ogg.Json

/-- The mistake of a value that is not of the wanted type, which begins with `b`. -/
def mismatch (b : UInt8) (r : Bytes) : Mistake :=
  match wordAfter b with
  | some word =>
    match expectWord word r with
    | .ok _ => .mismatched
    | .error e => e
  | none =>
    if b == 0x2d || isDigit b then
      match readNumber (b :: r) with
      | .ok _ => .mismatched
      | .error e => e
    else if b == 0x22 then
      match readText r with
      | .ok _ => .mismatched
      | .error e => e
    else if b == 0x5b || b == 0x7b then .mismatched
    else .malformed

/-- Reads a count below `2⁶⁴`. -/
def readCount (d : Bytes) : Except Mistake (Nat × Bytes) :=
  match dropBlanks d with
  | [] => .error .ended
  | b :: r =>
    if b == 0x2d || isDigit b then
      match readNumber (b :: r) with
      | .ok (.natural n, s) => .ok (n, s)
      | .ok (.other, _) => .error .mismatched
      | .error e => .error e
    else .error (mismatch b r)

/-- Reads `true` or `false`. -/
def readBool (d : Bytes) : Except Mistake (Bool × Bytes) :=
  match dropBlanks d with
  | [] => .error .ended
  | b :: r =>
    if b == 0x74 then (expectWord [0x72, 0x75, 0x65] r).map (true, ·)
    else if b == 0x66 then (expectWord [0x61, 0x6c, 0x73, 0x65] r).map (false, ·)
    else .error (mismatch b r)

theorem readCount_suffix {d r : Bytes} {n : Nat} (h : readCount d = .ok (n, r)) : r <:+ d := by
  unfold readCount at h
  split at h
  · simp at h
  · next b t hd =>
    have hd' := dropBlanks_suffix d
    rw [hd] at hd'
    split at h
    · split at h
      · next hread =>
        obtain ⟨-, rfl⟩ := Prod.mk.inj (Except.ok.inj h)
        exact (readNumber_suffix hread).trans hd'
      · simp at h
      · simp at h
    · simp at h

theorem readBool_suffix {d r : Bytes} {v : Bool} (h : readBool d = .ok (v, r)) : r <:+ d := by
  have hmap : ∀ {word t : Bytes} {w : Bool}, (expectWord word t).map (w, ·) = .ok (v, r) → r <:+ t := by
    intro word t w hw
    obtain ⟨s, hread, heq⟩ := map_eq_ok hw
    cases heq
    exact expectWord_suffix hread
  unfold readBool at h
  split at h
  · simp at h
  · next b t hd =>
    split at h
    · exact suffix_of_dropBlanks hd (hmap h)
    · split at h
      · exact suffix_of_dropBlanks hd (hmap h)
      · simp at h

end Ogg.Json
