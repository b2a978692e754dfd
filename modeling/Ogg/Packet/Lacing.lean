import Ogg.Packet

/-!
# Lacing a packet

A packet of `n` bytes is written with `n / 255` lacing values of 255 and one of
`n mod 255`, which is always there: a packet whose length is a multiple of 255
ends with an empty segment.

## Main statements

* `lacingSum_lacingOf`: the lacing values of a packet describe all its bytes.
-/

namespace Ogg

/-- The lacing values of a packet of the given length. -/
def lacingOf (length : Nat) : Bytes :=
  List.replicate (length / 255) continueLacing ++ [UInt8.ofNat (length % 255)]

theorem toNat_continueLacing : continueLacing.toNat = 255 := rfl

@[simp] theorem length_lacingOf (length : Nat) : (lacingOf length).length = length / 255 + 1 := by simp [lacingOf]

/-- The last lacing value of a packet ends it. -/
theorem lastLacing_lt (length : Nat) : UInt8.ofNat (length % 255) < continueLacing := by
  rw [UInt8.lt_iff_toNat_lt, UInt8.toNat_ofNat', toNat_continueLacing]
  omega

/-- The lacing values of 255 and the last one make up the length. -/
theorem length_eq_lacings (length : Nat) : length = length / 255 * 255 + (UInt8.ofNat (length % 255)).toNat := by
  rw [UInt8.toNat_ofNat']
  omega

theorem lacingSum_append (l m : Bytes) : lacingSum (l ++ m) = lacingSum l + lacingSum m := by
  induction l with
  | nil => exact (Nat.zero_add _).symm
  | cons a l ih => simp only [List.cons_append, lacingSum, ih, Nat.add_assoc]

theorem lacingSum_replicate (n : Nat) : lacingSum (List.replicate n continueLacing) = n * 255 := by
  induction n with
  | zero => rfl
  | succ n ih =>
    rw [List.replicate_succ, lacingSum, ih, toNat_continueLacing]
    omega

/-- The lacing values of a packet describe all its bytes. -/
theorem lacingSum_lacingOf (length : Nat) : lacingSum (lacingOf length) = length := by
  rw [lacingOf, lacingSum_append, lacingSum_replicate]
  exact (length_eq_lacings length).symm

end Ogg
