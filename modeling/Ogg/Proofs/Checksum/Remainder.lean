import Mathlib.Algebra.Field.ZMod
import Mathlib.Algebra.Polynomial.FieldDivision
import Ogg.Proofs.Checksum.Register

/-!
# The checksum as a remainder

A string of bits is a polynomial over two elements, its first bit the coefficient of the highest
power. The checksum of a byte string is what is left of its polynomial, multiplied by `x³²`, when
it is divided by `x³² + 0x04C11DB7`: this module says so with the polynomials of the library, and
its division.

A register holds a polynomial of a degree below 32. To move it is to multiply by `x`, and to take
the divisor away when the degree has grown to 32 (`ofWord_shift`); so a bit that is taken in keeps
the register congruent to what has been read so far (`dvd_foldl_bitStep`), and a register is all
that a remainder can be.

## Main statements

* `ofWord_injective`: a register is told by its polynomial.
* `ofWord_ofBits`: dividing bit by bit leaves the remainder.
* `highest_bits_toBE`: the big-endian bytes of a register bring its coefficients.
* `update_chunks_eq_remainder`: the checksum is the remainder, however the bytes are cut, and a byte
  string with its checksum behind it leaves none.
-/

namespace Ogg

/-- The `k` lowest bytes of a number, the least one last. -/
def Bytes.toBE (k n : Nat) : Bytes := (Bytes.toLE k n).reverse

namespace Checksum

open Polynomial

/-! ### Polynomials -/

/-- A bit as one of the two elements. -/
def element (b : Bool) : ZMod 2 := if b then 1 else 0

@[simp] theorem element_true : element true = 1 := rfl

@[simp] theorem element_false : element false = 0 := rfl

theorem element_xor (a b : Bool) : element (a ^^ b) = element a + element b := by
  cases a <;> cases b <;> decide

theorem element_and (a b : Bool) : element (a && b) = element a * element b := by
  cases a <;> cases b <;> decide

theorem element_injective {a b : Bool} (h : element a = element b) : a = b := by
  revert h
  cases a <;> cases b <;> decide

/-- The polynomial of a register: the coefficient of `xⁱ` is the bit worth `2ⁱ`. -/
noncomputable def ofWord (r : UInt32) : (ZMod 2)[X] := ∑ i ∈ Finset.range 32, monomial i (element (coeff r i))

/-- The polynomial of a string of bits: its first bit is the coefficient of the highest power. -/
noncomputable def ofMessage : List Bool → (ZMod 2)[X]
  | [] => 0
  | b :: l => monomial l.length (element b) + ofMessage l

/-- What is divided by: the generator with its leading term. -/
noncomputable def divisor : (ZMod 2)[X] := X ^ 32 + ofWord generator

theorem coeff_ofWord (r : UInt32) (i : Nat) : (ofWord r).coeff i = element (coeff r i) := by
  rw [ofWord, finsetSum_coeff]
  simp only [coeff_monomial, Finset.sum_ite_eq', Finset.mem_range]
  split
  · rfl
  · next h => rw [coeff_of_le r (Nat.not_lt.mp h), element_false]

theorem ofWord_zero : ofWord 0 = 0 := by
  ext i
  rw [coeff_ofWord, coeff_zero, Polynomial.coeff_zero, element_false]

theorem ofWord_xor (a b : UInt32) : ofWord (a ^^^ b) = ofWord a + ofWord b := by
  ext i
  rw [Polynomial.coeff_add, coeff_ofWord, coeff_ofWord, coeff_ofWord, coeff_xor, element_xor]

/-- **A register is told by its polynomial.** -/
theorem ofWord_injective {a b : UInt32} (h : ofWord a = ofWord b) : a = b := by
  apply ext_coeff
  intro i _
  have hi := congrArg (Polynomial.coeff · i) h
  simp only [coeff_ofWord] at hi
  exact element_injective hi

theorem degree_ofWord_lt (r : UInt32) : (ofWord r).degree < (32 : Nat) := by
  rw [degree_lt_iff_coeff_zero]
  intro i hi
  rw [coeff_ofWord, coeff_of_le r hi, element_false]

theorem monic_divisor : divisor.Monic := monic_X_pow_add (degree_ofWord_lt generator)

theorem degree_divisor : divisor.degree = (32 : Nat) := by
  have hlt : (ofWord generator).degree < (X ^ 32 : (ZMod 2)[X]).degree := by
    rw [degree_X_pow]
    exact degree_ofWord_lt generator
  rw [divisor, degree_add_eq_left_of_degree_lt hlt, degree_X_pow]

theorem coeff_divisor (i : Nat) : divisor.coeff i = element (decide (i = 32)) + element (coeff generator i) := by
  rw [divisor, Polynomial.coeff_add, coeff_X_pow, coeff_ofWord]
  by_cases h : i = 32 <;> simp [h]

/-! ### Dividing bit by bit -/

/-- **Moving a register is multiplying by `x`**, and taking the divisor away if the degree has grown
to 32. -/
theorem ofWord_shift (r : UInt32) : ofWord (shift r) = ofWord r * X + C (element (coeff r 31)) * divisor := by
  ext i
  rw [Polynomial.coeff_add, coeff_C_mul, coeff_divisor, coeff_ofWord]
  cases i with
  | zero =>
    rw [coeff_shift r (by decide), mul_coeff_zero, coeff_X_zero, mul_zero, zero_add]
    simp [element_and]
  | succ i =>
    rw [coeff_mul_X, coeff_ofWord]
    rcases Nat.lt_trichotomy i 31 with hlt | rfl | hgt
    · have hne : i + 1 ≠ 32 := by omega
      rw [coeff_shift r (by omega), element_xor, element_and, element_and]
      simp [hne]
    · -- the leading term is the one that the divisor takes away
      rw [coeff_of_le (shift r) (Nat.le_refl 32), coeff_of_le generator (Nat.le_refl 32)]
      cases coeff r 31 <;> decide
    · have hne : i + 1 ≠ 32 := by omega
      rw [coeff_of_le (shift r) (by omega), coeff_of_le generator (by omega), coeff_of_le r (by omega)]
      simp [hne]

theorem ofWord_leading (b : Bool) : ofWord (leading b) = monomial 31 (element b) := by
  ext i
  rw [coeff_ofWord, coeff_leading, coeff_monomial, element_and]
  by_cases h : i = 31
  · simp [h]
  · simp [h, Ne.symm h]

/-- Taking in a bit is adding it to the next place below, but for a multiple of the divisor. -/
theorem dvd_bitStep (r : UInt32) (b : Bool) :
    divisor ∣ ofWord (bitStep r b) - (ofWord r * X + monomial 32 (element b)) := by
  rw [bitStep_eq_shift, ofWord_shift, ofWord_xor, ofWord_leading, add_mul, monomial_mul_X, add_sub_cancel_left]
  exact dvd_mul_left _ _

/-- **Dividing bit by bit** keeps the register congruent to what has been read, moved up 32 places. -/
theorem dvd_foldl_bitStep (l : List Bool) (r : UInt32) :
    divisor ∣ ofWord (l.foldl bitStep r) - (ofWord r * X ^ l.length + ofMessage l * X ^ 32) := by
  induction l generalizing r with
  | nil => simp [ofMessage]
  | cons b l ih =>
    have hstep : divisor ∣ (ofWord (bitStep r b) - (ofWord r * X + monomial 32 (element b))) * X ^ l.length :=
      (dvd_bitStep r b).mul_right _
    have hbit : monomial l.length (element b) * (X : (ZMod 2)[X]) ^ 32 = monomial 32 (element b) * X ^ l.length := by
      rw [monomial_mul_X_pow, monomial_mul_X_pow, Nat.add_comm]
    have hsum := dvd_add (ih (bitStep r b)) hstep
    rw [List.foldl_cons]
    convert hsum using 1
    rw [ofMessage, List.length_cons, add_mul, hbit]
    ring

/-- **Dividing bit by bit leaves the remainder.** -/
theorem ofWord_ofBits (l : List Bool) : ofWord (ofBits l) = (ofMessage l * X ^ 32) % divisor := by
  have hdvd := dvd_foldl_bitStep l 0
  rw [ofWord_zero, zero_mul, zero_add] at hdvd
  have hsmall : ofWord (ofBits l) %ₘ divisor = ofWord (ofBits l) := by
    rw [modByMonic_eq_self_iff monic_divisor, degree_divisor]
    exact degree_ofWord_lt _
  rw [← modByMonic_eq_mod _ monic_divisor, ← hsmall]
  exact modByMonic_eq_of_dvd_sub monic_divisor hdvd

/-! ### A checksum behind its bytes -/

/-- The bits of the big-endian bytes of a number are its binary digits, the highest first. -/
theorem bits_toBE (k n : Nat) : bits (Bytes.toBE k n) = (List.range (8 * k)).map fun i => n.testBit (8 * k - 1 - i) := by
  induction k generalizing n with
  | zero => rfl
  | succ k ih =>
    have hfront : ∀ i ∈ List.range (8 * k),
        (n / 256).testBit (8 * k - 1 - i) = n.testBit (8 * (k + 1) - 1 - i) := by
      intro i hi
      rw [List.mem_range] at hi
      rw [show 256 = 2 ^ 8 from rfl, Nat.testBit_div_two_pow]
      congr 1
      omega
    have hback : ∀ i ∈ List.range 8, (UInt8.ofNat n).toNat.testBit (7 - i) =
        n.testBit (8 * (k + 1) - 1 - (8 * k + i)) := by
      intro i hi
      rw [List.mem_range] at hi
      rw [UInt8.toNat_ofNat', Nat.testBit_mod_two_pow]
      have hplace : 8 * (k + 1) - 1 - (8 * k + i) = 7 - i := by omega
      simp [hplace, show 7 - i < 8 by omega]
    have hsplit : Bytes.toBE (k + 1) n = Bytes.toBE k (n / 256) ++ [UInt8.ofNat n] := List.reverse_cons
    calc bits (Bytes.toBE (k + 1) n) = bits (Bytes.toBE k (n / 256)) ++ bitsOfByte (UInt8.ofNat n) := by
          rw [hsplit, bits, List.flatMap_append, List.flatMap_singleton, bits]
      _ = (List.range (8 * k) ++ (List.range 8).map (8 * k + ·)).map fun i => n.testBit (8 * (k + 1) - 1 - i) := by
          rw [ih, List.map_congr_left hfront, bitsOfByte, List.map_congr_left hback, List.map_append, List.map_map]
          rfl
      _ = (List.range (8 * (k + 1))).map fun i => n.testBit (8 * (k + 1) - 1 - i) := by
          rw [Nat.mul_succ, List.range_add]

/-- The big-endian bytes of a register bring its coefficients. -/
theorem highest_bits_toBE (r : UInt32) : highest (bits (Bytes.toBE 4 r.toNat)) = r := by
  apply ext_coeff
  intro i hi
  have hplace : 31 - (31 - i) = i := by omega
  rw [coeff_highest _ hi, bits_toBE, List.getD_eq_getElem?_getD, List.getElem?_map,
    List.getElem?_range (show 31 - i < 8 * 4 by omega)]
  simp [hplace, coeff]

theorem shifts_zero (n : Nat) : shifts n 0 = 0 := by
  induction n with
  | zero => rfl
  | succ n ih => exact ih

/-- A register that takes in its own big-endian bytes is empty. -/
theorem update_toBE_self (r : UInt32) : update r (Bytes.toBE 4 r.toNat) = 0 := by
  have hlength : (bits (Bytes.toBE 4 r.toNat)).length = 32 := by rw [bits_toBE, List.length_map, List.length_range]
  rw [update_eq_foldl, foldl_bitStep (by omega), highest_bits_toBE, UInt32.xor_self, shifts_zero]

/-! ### The checksum -/

/-- Bytes may be taken in a chunk at a time. -/
theorem foldl_update (sum : UInt32) (chunks : List Bytes) : chunks.foldl update sum = update sum chunks.flatten := by
  induction chunks generalizing sum with
  | nil => rfl
  | cons d chunks ih => rw [List.foldl_cons, ih, List.flatten_cons, update_append]

/-- **The checksum is the remainder of a division of polynomials.** Whatever the chunks in which the
bytes are taken in through the table, what results is the register that the bits of the bytes
leave one by one, the first bit of each byte the most significant; and it is the one register
whose polynomial is the remainder of that of the bytes, times `x³²`, by `x³² + 0x04C11DB7`. So a
byte string that is followed by the big-endian bytes of its checksum has the checksum zero. -/
theorem update_chunks_eq_remainder :
    (∀ chunks : List Bytes,
      chunks.foldl update 0 = ofBits (bits chunks.flatten) ∧
        ∀ r, r = chunks.foldl update 0 ↔
          ofWord r = (ofMessage (bits chunks.flatten) * X ^ 32) % (X ^ 32 + ofWord 0x04C11DB7)) ∧
      ∀ d : Bytes, ofBytes (d ++ Bytes.toBE 4 (ofBytes d).toNat) = 0 := by
  constructor
  · intro chunks
    have hbits : chunks.foldl update 0 = ofBits (bits chunks.flatten) := by
      rw [foldl_update, update_eq_foldl]
      rfl
    have hremainder := ofWord_ofBits (bits chunks.flatten)
    refine ⟨hbits, fun r => ?_⟩
    rw [hbits]
    constructor
    · rintro rfl
      exact hremainder
    · intro hr
      exact ofWord_injective (hr.trans hremainder.symm)
  · intro d
    rw [ofBytes, update_append]
    exact update_toBE_self (ofBytes d)

/-- The checksum of the nine digits, by which its kind is known. -/
example : ofBytes [0x31, 0x32, 0x33, 0x34, 0x35, 0x36, 0x37, 0x38, 0x39] = 0x89A1897F := by decide +kernel

end Checksum

end Ogg
