/-!
# Byte strings

Everything the library reads is a list of bytes. This module holds the views of
a byte string that a page needs: its value as a little-endian number, the
little-endian bytes of a number, and its text as hexadecimal pairs.

## Main statements

* `natLE_toLE`: reading the `k` bytes written for `n` gives `n mod 256ᵏ`.
* `toLE_natLE`: writing back what was read gives the same bytes.
* `lengthBelow_iff`: the short test for "fewer than `n` bytes" means just that.
-/

namespace Ogg

/-- A byte string. -/
abbrev Bytes := List UInt8

namespace Bytes

/-- The bytes of a text in UTF-8. -/
def ofString (s : String) : Bytes := s.toUTF8.data.toList

/-- Whether a byte string has fewer than `n` bytes; looks at no byte after the `n`-th. -/
def lengthBelow (d : Bytes) : Nat → Bool
  | 0 => false
  | n + 1 => (d.drop n).isEmpty

@[simp] theorem lengthBelow_iff (d : Bytes) (n : Nat) : lengthBelow d n = true ↔ d.length < n := by
  cases n with
  | zero => simp [lengthBelow]
  | succ n =>
    simp only [lengthBelow, List.isEmpty_iff, List.drop_eq_nil_iff]
    omega

/-- The `length` bytes at an offset, or what there is of them. -/
def slice (d : Bytes) (offset length : Nat) : Bytes := (d.drop offset).take length

/-- A byte string written over the first bytes of another. -/
def overlay (d buffer : Bytes) : Bytes := d ++ buffer.drop d.length

/-! ### Little-endian numbers -/

/-- The value of a byte string, its first byte counting least. -/
def natLE : Bytes → Nat
  | [] => 0
  | b :: r => b.toNat + 256 * natLE r

/-- The `k` lowest bytes of a number, the least one first. -/
def toLE : Nat → Nat → Bytes
  | 0, _ => []
  | k + 1, n => UInt8.ofNat n :: toLE k (n / 256)

/-- How many byte strings of length `k` there are, 256ᵏ: every number written in `k`
bytes is below it. -/
def bound : Nat → Nat
  | 0 => 1
  | k + 1 => 256 * bound k

@[simp] theorem length_toLE (k n : Nat) : (toLE k n).length = k := by
  induction k generalizing n with
  | zero => rfl
  | succ k ih => simp [toLE, ih]

theorem natLE_toLE (k n : Nat) : natLE (toLE k n) = n % bound k := by
  induction k generalizing n with
  | zero => simp [toLE, natLE, bound, Nat.mod_one]
  | succ k ih =>
    rw [toLE, natLE, ih, bound, Nat.mod_mul]
    simp

theorem toLE_natLE (d : Bytes) : toLE d.length (natLE d) = d := by
  induction d with
  | nil => rfl
  | cons b r ih =>
    have hb := UInt8.toNat_lt b
    have hd : (b.toNat + 256 * natLE r) / 256 = natLE r := by omega
    have hm : UInt8.ofNat (b.toNat + 256 * natLE r) = b := by
      apply UInt8.toNat_inj.1
      simp only [UInt8.toNat_ofNat']
      omega
    simp [toLE, natLE, hd, hm, ih]

/-- The four bytes at an offset as a number. -/
def word32 (d : Bytes) (offset : Nat) : UInt32 := UInt32.ofNat (natLE (slice d offset 4))

/-- The eight bytes at an offset as a number. -/
def word64 (d : Bytes) (offset : Nat) : UInt64 := UInt64.ofNat (natLE (slice d offset 8))

/-! ### Hexadecimal text -/

/-- The two lower-case hexadecimal digits of a byte. -/
def hexPair (b : UInt8) : String :=
  String.ofList [Nat.digitChar (b.toNat / 16), Nat.digitChar (b.toNat % 16)]

/-- The hexadecimal pairs of a byte string, one after another. -/
def hex (d : Bytes) : String := String.join (d.map hexPair)

end Bytes

end Ogg
