/-!
# Percentages

The share of one count in another is a double-precision number of percent, and is
shown with one digit after the point. The digit is that of the number's exact
value, rounded to the nearest; a value half-way between two goes to the even one.

## Main statements

* `roundDiv_within_half`: a rounded quotient is within a half of the quotient.
-/

namespace Ogg.Percent

/-- A quotient rounded to the nearest number, a half going to the even one. -/
def roundDiv (num den : Nat) : Nat :=
  let q := num / den
  let r := num % den
  if 2 * r < den then q
  else if den < 2 * r then q + 1
  else if q % 2 = 0 then q
  else q + 1

/-- **A rounded quotient is within a half of the quotient.** -/
theorem roundDiv_within_half (num den : Nat) (h : 0 < den) :
    2 * num ≤ 2 * (roundDiv num den * den) + den ∧ 2 * (roundDiv num den * den) ≤ 2 * num + den := by
  have hdiv : num / den * den + num % den = num := Nat.div_add_mod' num den
  have hmod : num % den < den := Nat.mod_lt num h
  have hup : (num / den + 1) * den = num / den * den + den := Nat.succ_mul _ _
  simp only [roundDiv]
  split
  · omega
  · split
    · omega
    · split <;> omega

/-- The share of `part` in `whole`, in percent; none of nothing. -/
def share (part whole : Nat) : Float :=
  if whole = 0 then 0.0 else part.toUInt64.toFloat / whole.toUInt64.toFloat * 100.0

/-- The tenths in a finite number that is not negative, by the bits of its double
precision: eleven bits of exponent and 52 of fraction. -/
def tenthsOfBits (bits : Nat) : Nat :=
  let exponent := (bits >>> 52) % 0x800
  let fraction := bits % (1 <<< 52)
  let significand := if exponent = 0 then fraction else fraction + (1 <<< 52)
  let shift := if exponent = 0 then 1 else exponent
  roundDiv ((10 * significand) <<< shift) (1 <<< 1075)

/-- A finite number that is not negative, with one digit after the point. -/
def text (x : Float) : String :=
  let tenths := tenthsOfBits x.toBits.toNat
  s!"{tenths / 10}.{tenths % 10}"

end Ogg.Percent
