import Ogg.Json.Lexeme

/-!
# Reading JSON numbers

A number that is wanted is a count of at most 64 bits. Any other number is read to
its end all the same, and is not JSON if it lies out of the range of double
precision. Digits are taken into 64 bits as long as they fit; what does not fit
moves the exponent. Whether the number is out of range is decided on those.

## Main statements

* `readNumber_suffix`: what is left is an end of what was given.
-/

namespace Ogg.Json

/-- A number, as far as it matters to one who wants a count. -/
inductive Number where
  /-- A number without sign, fraction and exponent, below `2⁶⁴`. -/
  | natural (n : Nat)
  /-- Any other. -/
  | other
  deriving DecidableEq, Repr

/-- The largest number of 64 bits. -/
def maxWord : Nat := UInt64.size - 1

/-- Takes digits into a number of 64 bits: the number, and how many digits no longer
fitted in. -/
def takeDigits (n : Nat) : Bytes → Nat × Nat
  | [] => (n, 0)
  | b :: r =>
    let m := 10 * n + (b.toNat - 0x30)
    if m > maxWord then (n, r.length + 1) else takeDigits m r

/-- Whether `n · 10ᵉ` lies out of the range of double precision. -/
def outOfRange (n : Nat) (e : Int) : Bool :=
  match e with
  | .ofNat k => n != 0 && (k > 308 || (n.toUInt64.toFloat * Float.ofScientific 1 false k).isInf)
  | .negSucc _ => false

/-- A number with a fraction or exponent, or too long for 64 bits. -/
def wide (n : Nat) (e : Int) (r : Bytes) : Except Mistake (Number × Bytes) :=
  if outOfRange n e then .error .malformed else .ok (.other, r)

/-- A letter that begins an exponent. -/
def isExponentMark (b : UInt8) : Bool := b == 0x65 || b == 0x45

/-- What is left after the sign of an exponent. -/
def dropSign : Bytes → Bytes
  | [] => []
  | b :: r => if b == 0x2b || b == 0x2d then r else b :: r

/-- Reads an exponent after its letter; the number so far is `n · 10ᵉ`. -/
def readExponent (n : Nat) (e : Int) (d : Bytes) : Except Mistake (Number × Bytes) :=
  let digits := (dropSign d).takeWhile isDigit
  let r := (dropSign d).dropWhile isDigit
  if digits.isEmpty then .error (if r.isEmpty then .ended else .malformed)
  else
    let size : Nat := digits.foldl (fun n b => 10 * n + (b.toNat - 0x30)) 0
    wide n (if d.head? == some 0x2d then e - (size : Int) else e + (size : Int)) r

/-- Reads a fraction after its point; the number so far is `n · 10ᵉ`. -/
def readFraction (n : Nat) (e : Int) (d : Bytes) : Except Mistake (Number × Bytes) :=
  let digits := d.takeWhile isDigit
  let r := d.dropWhile isDigit
  if digits.isEmpty then .error (if r.isEmpty then .ended else .malformed)
  else
    let (n, left) := takeDigits n digits
    let e := e - ((digits.length - left : Nat) : Int)
    match r with
    | b :: t => if isExponentMark b then readExponent n e t else wide n e r
    | [] => wide n e r

/-- A number without fraction and exponent; `left` of its digits did not fit into `n`. -/
def wholeNumber (positive : Bool) (n left : Nat) (d : Bytes) : Except Mistake (Number × Bytes) :=
  if left = 0 then .ok (if positive then .natural n else .other, d) else wide n left d

/-- Reads what follows the whole part of a number. -/
def readTail (positive : Bool) (n left : Nat) (d : Bytes) : Except Mistake (Number × Bytes) :=
  match d with
  | b :: r =>
    if b == 0x2e then readFraction n left r
    else if isExponentMark b then readExponent n left r
    else wholeNumber positive n left (b :: r)
  | [] => wholeNumber positive n left []

/-- Reads a number after its sign. -/
def readDigits (positive : Bool) (d : Bytes) : Except Mistake (Number × Bytes) :=
  match d with
  | [] => .error .ended
  | b :: r =>
    if b == 0x30 then
      if (r.head?.map isDigit).getD false then .error .malformed else readTail positive 0 0 r
    else if isDigit b then
      let (n, left) := takeDigits 0 (d.takeWhile isDigit)
      readTail positive n left (d.dropWhile isDigit)
    else .error .malformed

/-- Reads a number. -/
def readNumber : Bytes → Except Mistake (Number × Bytes)
  | [] => .error .ended
  | b :: r => if b == 0x2d then readDigits false r else readDigits true (b :: r)

theorem wide_suffix {n : Nat} {e : Int} {d r : Bytes} {x : Number} (h : wide n e d = .ok (x, r)) : r = d := by
  unfold wide at h
  split at h
  · simp at h
  · exact (Prod.mk.inj (Except.ok.inj h)).2.symm

theorem dropSign_suffix (d : Bytes) : dropSign d <:+ d := by
  cases d with
  | nil => exact List.suffix_refl _
  | cons b t =>
    rw [dropSign]
    split
    · exact List.suffix_cons _ _
    · exact List.suffix_refl _

theorem readExponent_suffix {n : Nat} {e : Int} {d r : Bytes} {x : Number}
    (h : readExponent n e d = .ok (x, r)) : r <:+ d := by
  simp only [readExponent] at h
  split at h
  · simp at h
  · rw [wide_suffix h]
    exact (List.dropWhile_suffix _).trans (dropSign_suffix d)

theorem readFraction_suffix {n : Nat} {e : Int} {d r : Bytes} {x : Number}
    (h : readFraction n e d = .ok (x, r)) : r <:+ d := by
  have hdrop := List.dropWhile_suffix (l := d) isDigit
  simp only [readFraction] at h
  split at h
  · simp at h
  · split at h
    · next b t hcons =>
      rw [hcons] at hdrop
      split at h
      · exact ((readExponent_suffix h).trans (List.suffix_cons _ _)).trans hdrop
      · rw [wide_suffix h, hcons]
        exact hdrop
    · rw [wide_suffix h]
      exact hdrop

theorem wholeNumber_suffix {positive : Bool} {n left : Nat} {d r : Bytes} {x : Number}
    (h : wholeNumber positive n left d = .ok (x, r)) : r <:+ d := by
  unfold wholeNumber at h
  split at h
  · obtain ⟨-, rfl⟩ := Prod.mk.inj (Except.ok.inj h)
    exact List.suffix_refl _
  · obtain rfl := wide_suffix h
    exact List.suffix_refl _

theorem readTail_suffix {positive : Bool} {n left : Nat} {d r : Bytes} {x : Number}
    (h : readTail positive n left d = .ok (x, r)) : r <:+ d := by
  unfold readTail at h
  split at h
  · split at h
    · exact (readFraction_suffix h).trans (List.suffix_cons _ _)
    · split at h
      · exact (readExponent_suffix h).trans (List.suffix_cons _ _)
      · exact wholeNumber_suffix h
  · exact wholeNumber_suffix h

theorem readDigits_suffix {positive : Bool} {d r : Bytes} {x : Number}
    (h : readDigits positive d = .ok (x, r)) : r <:+ d := by
  unfold readDigits at h
  split at h
  · simp at h
  · split at h
    · split at h
      · simp at h
      · exact (readTail_suffix h).trans (List.suffix_cons _ _)
    · split at h
      · exact (readTail_suffix h).trans (List.dropWhile_suffix _)
      · simp at h

theorem readNumber_suffix {d r : Bytes} {x : Number} (h : readNumber d = .ok (x, r)) : r <:+ d := by
  cases d with
  | nil => simp [readNumber] at h
  | cons b t =>
    rw [readNumber] at h
    split at h
    · exact (readDigits_suffix h).trans (List.suffix_cons _ _)
    · exact readDigits_suffix h

end Ogg.Json
