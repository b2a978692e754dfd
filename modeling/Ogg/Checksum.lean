import Ogg.Bytes

/-!
# The page checksum

A page carries the remainder of its bytes, taken as a polynomial over two
elements times `x³²`, modulo the generator `x³² + 0x04C11DB7`: most significant
bit first, starting from zero, nothing added at the end. `update` goes a byte at
a time through a table of 256 remainders; `ofBits` goes a bit at a time and is
what the table is a short cut for.

## Main statements

* `update_append`: the checksum of a byte string may be taken in pieces.
-/

namespace Ogg.Checksum

/-- The generator without its leading term. -/
def generator : UInt32 := 0x04C11DB7

/-- A remainder multiplied by `x`. -/
def shift (r : UInt32) : UInt32 :=
  if r &&& 0x80000000 != 0 then (r <<< 1) ^^^ generator else r <<< 1

/-- A remainder multiplied by `xⁿ`. -/
def shifts : Nat → UInt32 → UInt32
  | 0, r => r
  | n + 1, r => shifts n (shift r)

/-- The remainder that a leading byte leaves, for each byte. -/
def table : Vector UInt32 256 := Vector.ofFn fun i => shifts 8 (UInt32.ofNat i.val <<< 24)

/-- One more byte taken into a checksum. -/
def step (sum : UInt32) (b : UInt8) : UInt32 :=
  (sum <<< 8) ^^^ table.get ((sum >>> 24).toUInt8 ^^^ b).toFin

/-- More bytes taken into a checksum. -/
def update (sum : UInt32) (d : Bytes) : UInt32 := d.foldl step sum

/-- The checksum of a byte string. -/
def ofBytes (d : Bytes) : UInt32 := update 0 d

@[simp] theorem update_nil (sum : UInt32) : update sum [] = sum := rfl

theorem update_append (sum : UInt32) (d e : Bytes) : update sum (d ++ e) = update (update sum d) e :=
  List.foldl_append

/-! ### Bit by bit -/

/-- The bits of a byte, the most significant first. -/
def bitsOfByte (b : UInt8) : List Bool := (List.range 8).map fun i => b.toNat.testBit (7 - i)

/-- The bits of a byte string, in the order they are divided. -/
def bits (d : Bytes) : List Bool := d.flatMap bitsOfByte

/-- One more bit taken into a remainder: the bit is added to the leading one, then
all moves up a place. -/
def bitStep (r : UInt32) (bit : Bool) : UInt32 := shift (if bit then r ^^^ 0x80000000 else r)

/-- The remainder of a string of bits, one at a time. -/
def ofBits (l : List Bool) : UInt32 := l.foldl bitStep 0

end Ogg.Checksum
