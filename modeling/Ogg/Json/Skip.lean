import Ogg.Json.Number
import Ogg.Json.Text

/-!
# Passing over a JSON value

A value that nobody wants is read for its form alone: nothing is asked of its
strings but their escapes, and nothing of the size of its numbers. Arrays and
objects may be nested to any depth; the ones that have begun are kept on a stack.

## Main statements

* `skipValue_suffix`: what is left is an end of what was given.
-/

namespace Ogg.Json

/-- What is left after at least one digit. -/
def skipDigits (d : Bytes) : Except Mistake Bytes :=
  if (d.head?.map isDigit).getD false then .ok (d.dropWhile isDigit) else .error .malformed

/-- What is left after an exponent, if there is one. -/
def skipExponent : Bytes → Except Mistake Bytes
  | [] => .ok []
  | b :: r => if isExponentMark b then skipDigits (dropSign r) else .ok (b :: r)

/-- What is left after a fraction and an exponent, so far as there are. -/
def skipFraction : Bytes → Except Mistake Bytes
  | [] => .ok []
  | b :: r =>
    if b == 0x2e then
      match skipDigits r with
      | .ok r => skipExponent r
      | .error e => .error e
    else skipExponent (b :: r)

/-- What is left after the digits of a number and all that belongs to it. -/
def skipUnsigned : Bytes → Except Mistake Bytes
  | [] => .error .malformed
  | b :: r =>
    if b == 0x30 then
      if (r.head?.map isDigit).getD false then .error .malformed else skipFraction r
    else
      match skipDigits (b :: r) with
      | .ok r => skipFraction r
      | .error e => .error e

theorem skipDigits_suffix {d r : Bytes} (h : skipDigits d = .ok r) : r <:+ d := by
  unfold skipDigits at h
  split at h
  · cases h
    exact List.dropWhile_suffix _
  · simp at h

theorem skipExponent_suffix {d r : Bytes} (h : skipExponent d = .ok r) : r <:+ d := by
  cases d with
  | nil => cases h; exact List.suffix_refl _
  | cons b t =>
    rw [skipExponent] at h
    split at h
    · exact ((skipDigits_suffix h).trans (dropSign_suffix t)).trans (List.suffix_cons _ _)
    · cases h
      exact List.suffix_refl _

theorem skipFraction_suffix {d r : Bytes} (h : skipFraction d = .ok r) : r <:+ d := by
  cases d with
  | nil => cases h; exact List.suffix_refl _
  | cons b t =>
    rw [skipFraction] at h
    split at h
    · split at h
      · next hdigits =>
        exact ((skipExponent_suffix h).trans (skipDigits_suffix hdigits)).trans (List.suffix_cons _ _)
      · simp at h
    · exact skipExponent_suffix h

theorem skipUnsigned_suffix {d r : Bytes} (h : skipUnsigned d = .ok r) : r <:+ d := by
  cases d with
  | nil => simp [skipUnsigned] at h
  | cons b t =>
    rw [skipUnsigned] at h
    split at h
    · split at h
      · simp at h
      · exact (skipFraction_suffix h).trans (List.suffix_cons _ _)
    · split at h
      · next hdigits => exact (skipFraction_suffix h).trans (skipDigits_suffix hdigits)
      · simp at h

/-- What is left after a scalar that begins with `b`. -/
def skipScalar (b : UInt8) (r : Bytes) : Except Mistake Bytes :=
  match wordAfter b with
  | some word => expectWord word r
  | none =>
    if b == 0x22 then skipText r
    else if b == 0x2d then skipUnsigned r
    else if isDigit b then skipUnsigned (b :: r)
    else .error .malformed

/-- An array or object that has begun and not ended. -/
inductive Bracket where
  /-- An array. -/
  | square
  /-- An object. -/
  | curly
  deriving DecidableEq, Repr

/-- The byte that ends it. -/
def Bracket.closing : Bracket → UInt8
  | square => 0x5d
  | curly => 0x7d

/-- What is expected next in a value that is passed over. -/
inductive Expect where
  /-- A value. -/
  | value
  /-- A key, the colon and the value after it. -/
  | key
  /-- The end of the innermost array or object, or what may stand first in it. -/
  | opened
  /-- The end of the innermost array or object, or a comma. -/
  | more
  deriving DecidableEq, Repr

/-- What may stand first in an array or object, or after a comma. -/
def Bracket.member : Bracket → Expect
  | square => .value
  | curly => .key

/-- How many steps may follow before a byte is used up. -/
def Expect.rank : Expect → Nat
  | opened => 1
  | _ => 0

theorem skipUnsigned_cons_suffix {b : UInt8} {d r : Bytes} (h : skipUnsigned (b :: d) = .ok r)
    (hd : isDigit b = true) : r <:+ d := by
  rw [skipUnsigned] at h
  split at h
  · split at h
    · simp at h
    · exact skipFraction_suffix h
  · split at h
    · next s hdigits =>
      refine (skipFraction_suffix h).trans ?_
      unfold skipDigits at hdigits
      simp only [List.head?_cons, Option.map_some, Option.getD_some, hd, if_true, List.dropWhile_cons,
        Except.ok.injEq] at hdigits
      rw [← hdigits]
      exact List.dropWhile_suffix _
    · simp at h

theorem skipScalar_suffix {b : UInt8} {d r : Bytes} (h : skipScalar b d = .ok r) : r <:+ d := by
  unfold skipScalar at h
  split at h
  · exact expectWord_suffix h
  · split at h
    · exact skipText_suffix h
    · split at h
      · exact skipUnsigned_suffix h
      · split at h
        · next hd => exact skipUnsigned_cons_suffix h hd
        · simp at h

/-- What is left after a key and its colon, after the key's opening quote. -/
def skipKey (d : Bytes) : Except Mistake Bytes :=
  match skipText d with
  | .error e => .error e
  | .ok r => dropColon r

theorem skipKey_suffix {d r : Bytes} (h : skipKey d = .ok r) : r <:+ d := by
  unfold skipKey at h
  split at h
  · simp at h
  · next ht => exact (dropColon_suffix h).trans (skipText_suffix ht)

/-- What is left after the value in hand, inside arrays and objects that have begun. -/
def skipNested (stack : List Bracket) (expect : Expect) (d : Bytes) : Except Mistake Bytes :=
  match expect, stack with
  | .value, stack =>
    match _h : dropBlanks d with
    | [] => .error .ended
    | b :: r =>
      if b == 0x5b then skipNested (.square :: stack) .opened r
      else if b == 0x7b then skipNested (.curly :: stack) .opened r
      else
        match _h' : skipScalar b r with
        | .ok s => skipNested stack .more s
        | .error e => .error e
  | .key, stack =>
    match _h : dropBlanks d with
    | [] => .error .ended
    | b :: r =>
      if b == 0x22 then
        match _h' : skipKey r with
        | .ok s => skipNested stack .value s
        | .error e => .error e
      else .error .malformed
  | .opened, [] => .ok d
  | .opened, bracket :: stack =>
    match _h : dropBlanks d with
    | [] => .error .ended
    | b :: r =>
      if b == bracket.closing then skipNested stack .more r
      else skipNested (bracket :: stack) bracket.member d
  | .more, [] => .ok d
  | .more, bracket :: stack =>
    match _h : dropBlanks d with
    | [] => .error .ended
    | b :: r =>
      if b == 0x2c then skipNested (bracket :: stack) bracket.member r
      else if b == bracket.closing then skipNested stack .more r
      else .error .malformed
termination_by (d.length, expect.rank)
decreasing_by
  · exact Prod.Lex.left _ _ (length_lt_of_dropBlanks _h (List.suffix_refl _))
  · exact Prod.Lex.left _ _ (length_lt_of_dropBlanks _h (List.suffix_refl _))
  · exact Prod.Lex.left _ _ (length_lt_of_dropBlanks _h (skipScalar_suffix _h'))
  · exact Prod.Lex.left _ _ (length_lt_of_dropBlanks _h (skipKey_suffix _h'))
  · exact Prod.Lex.left _ _ (length_lt_of_dropBlanks _h (List.suffix_refl _))
  · exact Prod.Lex.right _ (by cases bracket <;> decide)
  · exact Prod.Lex.left _ _ (length_lt_of_dropBlanks _h (List.suffix_refl _))
  · exact Prod.Lex.left _ _ (length_lt_of_dropBlanks _h (List.suffix_refl _))

/-- What is left after a value that is passed over. -/
def skipValue (d : Bytes) : Except Mistake Bytes := skipNested [] .value d

theorem skipNested_suffix {stack : List Bracket} {expect : Expect} {d r : Bytes}
    (h : skipNested stack expect d = .ok r) : r <:+ d := by
  fun_induction skipNested stack expect d with
  | case1 => simp at h
  | case2 _ _ _ _ hd _ ih => exact suffix_of_dropBlanks hd (ih h)
  | case3 _ _ _ _ hd _ _ ih => exact suffix_of_dropBlanks hd (ih h)
  | case4 _ _ _ _ hd _ _ _ hs ih => exact suffix_of_dropBlanks hd ((ih h).trans (skipScalar_suffix hs))
  | case5 => simp at h
  | case6 => simp at h
  | case7 _ _ _ _ hd _ _ hs ih => exact suffix_of_dropBlanks hd ((ih h).trans (skipKey_suffix hs))
  | case8 => simp at h
  | case9 => simp at h
  | case10 => cases h; exact List.suffix_refl _
  | case11 => simp at h
  | case12 _ _ _ _ _ hd _ ih => exact suffix_of_dropBlanks hd (ih h)
  | case13 _ _ _ _ _ _ _ ih => exact ih h
  | case14 => cases h; exact List.suffix_refl _
  | case15 => simp at h
  | case16 _ _ _ _ _ hd _ ih => exact suffix_of_dropBlanks hd (ih h)
  | case17 _ _ _ _ _ hd _ _ ih => exact suffix_of_dropBlanks hd (ih h)
  | case18 => simp at h

theorem skipValue_suffix {d r : Bytes} (h : skipValue d = .ok r) : r <:+ d := skipNested_suffix h

end Ogg.Json
