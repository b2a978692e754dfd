import Ogg.Checksum
import Mathlib.Data.Nat.Bitwise

/-!
# The checksum as a register

The remainder of a division is a register of 32 coefficients, and taking in a byte or a bit
moves it. Each move is linear in the register and the input together, and no two registers
move to the same one, since the generator has a constant term. So the register after some
bytes tells the register before them; and, as long as they are at most as many as it has
coefficients, the bits taken into one register can be told from where it has moved to.

The table of remainders is only a short cut for eight moves by a bit.

## Main statements

* `update_eq_foldl`: taking in bytes is taking in their bits, one after another.
* `foldl_bitStep`: up to 32 bits may be added first and moved together.
* `update_injective`: the register behind a byte string tells the one before it.
* `eq_of_update_eq`: up to four bytes are told by where they move a register.
-/

namespace Ogg.Checksum

/-! ### Coefficients -/

/-- A coefficient of a remainder. -/
def coeff (r : UInt32) (i : Nat) : Bool := r.toNat.testBit i

theorem coeff_of_le (r : UInt32) {i : Nat} (h : 32 ≤ i) : coeff r i = false :=
  Nat.testBit_lt_two_pow (Nat.lt_of_lt_of_le r.toNat_lt (Nat.pow_le_pow_right (by decide) h))

/-- Remainders are equal when their coefficients are. -/
theorem ext_coeff {a b : UInt32} (h : ∀ i < 32, coeff a i = coeff b i) : a = b := by
  apply UInt32.toNat_inj.mp
  apply Nat.eq_of_testBit_eq
  intro i
  by_cases hi : i < 32
  · exact h i hi
  · have hle := Nat.not_lt.mp hi
    exact (coeff_of_le a hle).trans (coeff_of_le b hle).symm

theorem coeff_xor (a b : UInt32) (i : Nat) : coeff (a ^^^ b) i = (coeff a i ^^ coeff b i) := by
  rw [coeff, UInt32.toNat_xor, Nat.testBit_xor]
  rfl

theorem coeff_zero (i : Nat) : coeff 0 i = false := Nat.zero_testBit i

theorem coeff_shiftLeft (a : UInt32) {n : Nat} (hn : n < 32) {i : Nat} (hi : i < 32) :
    coeff (a <<< UInt32.ofNat n) i = (decide (n ≤ i) && coeff a (i - n)) := by
  have : (UInt32.ofNat n).toNat = n := UInt32.toNat_ofNat_of_lt' (Nat.lt_trans hn (by decide))
  rw [coeff, UInt32.toNat_shiftLeft, this, Nat.mod_eq_of_lt hn, Nat.testBit_mod_two_pow, Nat.testBit_shiftLeft]
  simp [hi, coeff]

theorem coeff_shiftRight (a : UInt32) {n : Nat} (hn : n < 32) (i : Nat) :
    coeff (a >>> UInt32.ofNat n) i = coeff a (n + i) := by
  have : (UInt32.ofNat n).toNat = n := UInt32.toNat_ofNat_of_lt' (Nat.lt_trans hn (by decide))
  rw [coeff, UInt32.toNat_shiftRight, this, Nat.mod_eq_of_lt hn, Nat.testBit_shiftRight]
  rfl

/-- The test of a shift is for the highest coefficient. -/
theorem leading_eq_coeff (r : UInt32) : (r &&& 0x80000000 != 0) = coeff r 31 := by
  have hand : (r &&& 0x80000000).toNat = (coeff r 31).toNat * 2 ^ 31 := by
    rw [UInt32.toNat_and]
    exact Nat.and_two_pow r.toNat 31
  cases h : coeff r 31 with
  | false =>
    rw [h] at hand
    have hzero : r &&& 0x80000000 = 0 := UInt32.toNat_inj.mp hand
    rw [hzero]
    rfl
  | true =>
    rw [bne_iff_ne]
    intro hzero
    rw [h, hzero] at hand
    cases hand

/-! ### Multiplying by `x` -/

/-- Multiplying by `x` moves the coefficients up, and takes the generator away if the highest one
falls out. -/
theorem coeff_shift (r : UInt32) {i : Nat} (hi : i < 32) :
    coeff (shift r) i = ((decide (1 ≤ i) && coeff r (i - 1)) ^^ (coeff r 31 && coeff generator i)) := by
  have hleft : coeff (r <<< 1) i = (decide (1 ≤ i) && coeff r (i - 1)) := coeff_shiftLeft r (n := 1) (by decide) hi
  rw [shift, leading_eq_coeff, ← hleft]
  cases coeff r 31 with
  | false => rw [if_neg Bool.false_ne_true, Bool.false_and, Bool.xor_false]
  | true => rw [if_pos rfl, coeff_xor, Bool.true_and]

/-- Multiplying by `x` is linear. -/
theorem shift_xor (a b : UInt32) : shift (a ^^^ b) = shift a ^^^ shift b := by
  apply ext_coeff
  intro i hi
  simp only [coeff_shift _ hi, coeff_xor, Bool.and_xor_distrib_left, Bool.and_xor_distrib_right, Bool.xor_assoc,
    Bool.xor_left_comm]

/-- **Multiplying by `x` can be undone**: whether the generator was taken away shows in its constant
term. -/
theorem shift_injective {a b : UInt32} (h : shift a = shift b) : a = b := by
  have hcoeff : ∀ i < 32, coeff (shift a) i = coeff (shift b) i := fun i _ => by rw [h]
  -- the generator is the one thing that can bring a constant term in
  have hlast : coeff a 31 = coeff b 31 := by
    have h0 := hcoeff 0 (by decide)
    rw [coeff_shift a (by decide), coeff_shift b (by decide)] at h0
    have hg : coeff generator 0 = true := by decide
    simpa [hg] using h0
  apply ext_coeff
  intro i hi
  by_cases h31 : i = 31
  · rw [h31, hlast]
  · have hi1 := hcoeff (i + 1) (by omega)
    rw [coeff_shift a (by omega), coeff_shift b (by omega), hlast] at hi1
    simpa using hi1

theorem shifts_xor (n : Nat) (a b : UInt32) : shifts n (a ^^^ b) = shifts n a ^^^ shifts n b := by
  induction n generalizing a b with
  | zero => rfl
  | succ n ih => rw [shifts, shifts, shifts, shift_xor, ih]

theorem shifts_injective {n : Nat} {a b : UInt32} (h : shifts n a = shifts n b) : a = b := by
  induction n generalizing a b with
  | zero => exact h
  | succ n ih => exact shift_injective (ih h)

/-- Multiplying by `x` takes a division by it back, if that left no rest. -/
theorem shift_shiftRight_succ {n : Nat} (hn : n + 1 < 32) {a : UInt32} (h : coeff a n = false) :
    shift (a >>> UInt32.ofNat (n + 1)) = a >>> UInt32.ofNat n := by
  apply ext_coeff
  intro i hi
  have hover : coeff a (n + 1 + 31) = false := coeff_of_le a (by omega)
  rw [coeff_shift _ hi, coeff_shiftRight a hn, coeff_shiftRight a hn, coeff_shiftRight a (by omega), hover,
    Bool.false_and, Bool.xor_false]
  cases i with
  | zero => exact h.symm
  | succ i => rw [Nat.add_sub_cancel, Nat.add_right_comm n 1 i]; simp [Nat.add_assoc]

theorem shifts_shiftRight {n : Nat} (hn : n < 32) {a : UInt32} (h : ∀ i < n, coeff a i = false) :
    shifts n (a >>> UInt32.ofNat n) = a := by
  induction n with
  | zero => exact UInt32.shiftRight_zero
  | succ n ih =>
    rw [shifts, shift_shiftRight_succ hn (h n (Nat.lt_succ_self n))]
    exact ih (by omega) fun i hi => h i (by omega)

/-! ### Taking in bits -/

/-- A bit as the highest coefficient. -/
def leading (b : Bool) : UInt32 := if b then 0x80000000 else 0

theorem coeff_leading (b : Bool) (i : Nat) : coeff (leading b) i = (b && decide (i = 31)) := by
  cases b with
  | false => exact coeff_zero i
  | true =>
    show (2 ^ 31).testBit i = _
    rw [Nat.testBit_two_pow]
    simp [eq_comm]

theorem bitStep_eq_shift (r : UInt32) (b : Bool) : bitStep r b = shift (r ^^^ leading b) := by
  cases b with
  | false => rw [bitStep, leading, if_neg Bool.false_ne_true, if_neg Bool.false_ne_true, UInt32.xor_zero]
  | true => rfl

/-- The coefficients of some bits, the first of them the highest. -/
def highest : List Bool → UInt32
  | [] => 0
  | b :: l => leading b ^^^ (highest l >>> 1)

theorem coeff_highest (l : List Bool) {i : Nat} (hi : i < 32) : coeff (highest l) i = l.getD (31 - i) false := by
  induction l generalizing i with
  | nil => exact coeff_zero i
  | cons b l ih =>
    have hright : coeff (highest l >>> 1) i = coeff (highest l) (1 + i) :=
      coeff_shiftRight (highest l) (n := 1) (by decide) i
    rw [highest, coeff_xor, coeff_leading, hright]
    by_cases h31 : i = 31
    · rw [h31, coeff_of_le (highest l) (by decide)]
      simp
    · rw [ih (by omega), show 31 - i = 31 - (1 + i) + 1 by omega, List.getD_cons_succ]
      simp [h31]

/-- At most 32 bits can be read off the coefficients. -/
theorem highest_injective {l m : List Bool} (hlength : l.length = m.length) (hle : l.length ≤ 32)
    (h : highest l = highest m) : l = m := by
  apply List.ext_getElem hlength
  intro j hl hm
  have hj := congrArg (coeff · (31 - j)) h
  simp only [coeff_highest _ (show 31 - j < 32 by omega), show 31 - (31 - j) = j by omega] at hj
  simpa [List.getD_eq_getElem?_getD, hl, hm] using hj

/-- **Up to 32 bits may be added first and moved together**: none of them falls out before its
turn. -/
theorem foldl_bitStep {l : List Bool} (hle : l.length ≤ 32) (r : UInt32) :
    l.foldl bitStep r = shifts l.length (r ^^^ highest l) := by
  induction l generalizing r with
  | nil => exact UInt32.xor_zero.symm
  | cons b l ih =>
    rw [List.length_cons] at hle
    have hback : shift (highest l >>> 1) = highest l := by
      have hlow : coeff (highest l) 0 = false := by
        rw [coeff_highest l (by decide), List.getD_eq_default]
        omega
      exact (shift_shiftRight_succ (n := 0) (by decide) hlow).trans UInt32.shiftRight_zero
    rw [List.foldl_cons, ih (by omega), bitStep_eq_shift, List.length_cons, shifts, highest, ← UInt32.xor_assoc,
      shift_xor (r ^^^ leading b), hback]

/-! ### The table -/

theorem highest_bitsOfByte (b : UInt8) : highest (bitsOfByte b) = b.toUInt32 <<< 24 := by
  apply ext_coeff
  intro i hi
  have hleft : coeff (b.toUInt32 <<< 24) i = (decide (24 ≤ i) && coeff b.toUInt32 (i - 24)) :=
    coeff_shiftLeft b.toUInt32 (n := 24) (by decide) hi
  rw [coeff_highest _ hi, hleft, bitsOfByte]
  by_cases h24 : 24 ≤ i
  · have hplace : 7 - (31 - i) = i - 24 := by omega
    have hlt : 31 - i < 8 := by omega
    simp [List.getD_eq_getElem?_getD, hlt, h24, hplace, coeff]
  · have hlt : ¬ 31 - i < 8 := by omega
    simp [List.getD_eq_getElem?_getD, hlt, h24]

theorem table_get (i : UInt8) : table.get i.toFin = shifts 8 (i.toUInt32 <<< 24) := by
  have hword : UInt32.ofNat i.toFin.val = i.toUInt32 := by
    apply UInt32.toNat_inj.mp
    rw [UInt8.toNat_toUInt32]
    exact UInt32.toNat_ofNat_of_lt' (Nat.lt_trans i.toNat_lt (by decide))
  show (Vector.ofFn fun j : Fin 256 => shifts 8 (UInt32.ofNat j.val <<< 24))[i.toFin.val] = _
  rw [Vector.getElem_ofFn, hword]

/-- A remainder is its 24 lower coefficients and its eight higher ones. -/
theorem split_high (r : UInt32) : r = ((r <<< 8) >>> 8) ^^^ ((r >>> 24).toUInt8.toUInt32 <<< 24) := by
  apply ext_coeff
  intro i hi
  have hlow : coeff ((r <<< 8) >>> 8) i = coeff (r <<< 8) (8 + i) := coeff_shiftRight _ (n := 8) (by decide) i
  have hhigh : coeff ((r >>> 24).toUInt8.toUInt32 <<< 24) i =
      (decide (24 ≤ i) && coeff (r >>> 24).toUInt8.toUInt32 (i - 24)) := coeff_shiftLeft _ (n := 24) (by decide) hi
  rw [coeff_xor, hlow, hhigh]
  by_cases h24 : 24 ≤ i
  · have hbyte : coeff (r >>> 24).toUInt8.toUInt32 (i - 24) = coeff r i := by
      have hright : coeff (r >>> 24) (i - 24) = coeff r (24 + (i - 24)) :=
        coeff_shiftRight r (n := 24) (by decide) (i - 24)
      rw [show 24 + (i - 24) = i by omega] at hright
      rw [← hright, coeff, UInt8.toNat_toUInt32, UInt32.toNat_toUInt8, Nat.testBit_mod_two_pow]
      have : i - 24 < 8 := by omega
      simp [this, coeff]
    have hover : coeff (r <<< 8) (8 + i) = false := coeff_of_le (r <<< 8) (by omega)
    rw [hover, hbyte]
    simp [h24]
  · have hleft : coeff (r <<< 8) (8 + i) = (decide (8 ≤ 8 + i) && coeff r (8 + i - 8)) :=
      coeff_shiftLeft r (n := 8) (by decide) (by omega)
    rw [hleft, Nat.add_sub_cancel_left]
    simp [h24]

/-- The table looks up what the higher coefficients leave; the lower ones are only moved. -/
theorem step_eq_shifts (r : UInt32) (b : UInt8) : step r b = shifts 8 (r ^^^ (b.toUInt32 <<< 24)) := by
  have hlow : shifts 8 ((r <<< 8) >>> 8) = r <<< 8 := by
    refine shifts_shiftRight (n := 8) (by decide) fun i hi => ?_
    have hleft : coeff (r <<< 8) i = (decide (8 ≤ i) && coeff r (i - 8)) :=
      coeff_shiftLeft r (n := 8) (by decide) (by omega)
    simp [hleft, hi]
  conv => rhs; rw [split_high r]
  rw [step, table_get, UInt8.toUInt32_xor, UInt32.shiftLeft_xor, UInt32.xor_assoc, shifts_xor 8 ((r <<< 8) >>> 8), hlow]

/-- Taking in a byte is taking in its bits. -/
theorem step_eq_foldl (r : UInt32) (b : UInt8) : step r b = (bitsOfByte b).foldl bitStep r := by
  have hlength : (bitsOfByte b).length = 8 := by simp [bitsOfByte]
  rw [foldl_bitStep (by omega), hlength, highest_bitsOfByte, step_eq_shifts]

/-- **Taking in bytes is taking in their bits**, one after another. -/
theorem update_eq_foldl (r : UInt32) (d : Bytes) : update r d = (bits d).foldl bitStep r := by
  induction d generalizing r with
  | nil => rfl
  | cons b d ih =>
    show update (step r b) d = (bitsOfByte b ++ bits d).foldl bitStep r
    rw [ih, step_eq_foldl, List.foldl_append]

/-! ### What a remainder tells -/

theorem bitStep_injective {r s : UInt32} {b : Bool} (h : bitStep r b = bitStep s b) : r = s := by
  rw [bitStep_eq_shift, bitStep_eq_shift] at h
  exact UInt32.xor_left_inj (leading b) |>.mp (shift_injective h)

theorem foldl_bitStep_injective {r s : UInt32} {l : List Bool} (h : l.foldl bitStep r = l.foldl bitStep s) : r = s := by
  induction l generalizing r s with
  | nil => exact h
  | cons b l ih => exact bitStep_injective (ih h)

/-- **The register behind a byte string tells the one before it.** -/
theorem update_injective {r s : UInt32} {d : Bytes} (h : update r d = update s d) : r = s := by
  rw [update_eq_foldl, update_eq_foldl] at h
  exact foldl_bitStep_injective h

theorem length_bitsOfByte (b : UInt8) : (bitsOfByte b).length = 8 := by
  rw [bitsOfByte, List.length_map, List.length_range]

theorem bitsOfByte_injective {b c : UInt8} (h : bitsOfByte b = bitsOfByte c) : b = c := by
  apply UInt8.toNat_inj.mp
  apply Nat.eq_of_testBit_eq
  intro i
  by_cases hi : i < 8
  · have hplace := congrArg (·.getD (7 - i) false) h
    have hlt : 7 - i < 8 := by omega
    have hback : 7 - (7 - i) = i := by omega
    simpa [bitsOfByte, List.getD_eq_getElem?_getD, hlt, hback] using hplace
  · have hle : 2 ^ 8 ≤ 2 ^ i := Nat.pow_le_pow_right (by decide) (by omega)
    rw [Nat.testBit_lt_two_pow (Nat.lt_of_lt_of_le b.toNat_lt hle),
      Nat.testBit_lt_two_pow (Nat.lt_of_lt_of_le c.toNat_lt hle)]

theorem length_bits (d : Bytes) : (bits d).length = 8 * d.length := by
  induction d with
  | nil => rfl
  | cons b d ih =>
    show (bitsOfByte b ++ bits d).length = _
    rw [List.length_append, length_bitsOfByte, ih, List.length_cons]
    omega

theorem bits_injective {d e : Bytes} (hlength : d.length = e.length) (h : bits d = bits e) : d = e := by
  induction d generalizing e with
  | nil => exact (List.length_eq_zero_iff.mp hlength.symm).symm
  | cons b d ih =>
    cases e with
    | nil => cases hlength
    | cons c e =>
      have hsplit : bitsOfByte b ++ bits d = bitsOfByte c ++ bits e := h
      obtain ⟨hbyte, hrest⟩ := List.append_inj hsplit (by rw [length_bitsOfByte, length_bitsOfByte])
      rw [bitsOfByte_injective hbyte, ih (Nat.succ.inj hlength) hrest]

/-- **Up to four bytes are told by where they move a register.** -/
theorem eq_of_update_eq {r : UInt32} {d e : Bytes} (hlength : d.length = e.length) (hle : d.length ≤ 4)
    (h : update r d = update r e) : d = e := by
  have hbits : (bits d).length = (bits e).length := by rw [length_bits, length_bits, hlength]
  have hle' : (bits d).length ≤ 32 := by rw [length_bits]; omega
  rw [update_eq_foldl, update_eq_foldl, foldl_bitStep hle', foldl_bitStep (hbits ▸ hle'), hbits] at h
  have hhighest := (UInt32.xor_right_inj r).mp (shifts_injective h)
  exact bits_injective hlength (highest_injective hbits hle' hhighest)

end Ogg.Checksum
