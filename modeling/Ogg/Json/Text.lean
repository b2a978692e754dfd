import Ogg.Json.Lexeme

/-!
# Reading JSON strings

A string is read byte by byte after its opening quote; the state says what the
last bytes have begun. A string that is wanted is UTF-8, and its escapes stand for
characters: two surrogates in a row for one, a lone surrogate for none. A string
that is passed over is read for its form alone.

## Main statements

* `readText_suffix`, `skipText_suffix`: what is left is an end of what was given.
-/

namespace Ogg.Json

/-- Where the reading of a string stands. -/
inductive TextState where
  /-- Between characters. -/
  | plain
  /-- After a backslash. -/
  | escaped
  /-- In the digits of a `\u` escape, whose digits so far are given; `high` is the
  surrogate that the escape before it stands for. -/
  | digits (high : Option Nat) (sofar : Bytes)
  /-- After a high surrogate, whose partner must follow. -/
  | paired (high : Nat)
  /-- After the backslash of that partner. -/
  | pairedEscape (high : Nat)
  deriving DecidableEq, Repr

/-- The value of a hexadecimal digit. -/
def hexValue (b : UInt8) : Option Nat :=
  if 0x30 ≤ b && b ≤ 0x39 then some (b.toNat - 0x30)
  else if 0x41 ≤ b && b ≤ 0x46 then some (b.toNat - 0x37)
  else if 0x61 ≤ b && b ≤ 0x66 then some (b.toNat - 0x57)
  else none

/-- The value of hexadecimal digits, if they all are. -/
def hexNumber (ds : Bytes) : Option Nat :=
  ds.foldlM (fun n b => (hexValue b).map (16 * n + ·)) 0

/-- The byte that a one-letter escape stands for. -/
def shortEscape (b : UInt8) : Option UInt8 :=
  if b = 0x22 || b = 0x5c || b = 0x2f then some b
  else if b = 0x62 then some 0x08
  else if b = 0x66 then some 0x0c
  else if b = 0x6e then some 0x0a
  else if b = 0x72 then some 0x0d
  else if b = 0x74 then some 0x09
  else none

/-- What a string is after the four digits of an escape: the bytes it adds, and the
state. A string that is passed over may hold any surrogate. -/
def afterDigits (strict : Bool) (high : Option Nat) (n : Nat) : Except Mistake (Bytes × TextState) :=
  if !strict then .ok ([], .plain)
  else
    match high with
    | some h =>
      if 0xdc00 ≤ n && n ≤ 0xdfff then
        .ok (Bytes.ofString (Char.ofNat (0x10000 + (h - 0xd800) * 0x400 + (n - 0xdc00))).toString, .plain)
      else .error .malformed
    | none =>
      if 0xdc00 ≤ n && n ≤ 0xdfff then .error .malformed
      else if 0xd800 ≤ n && n ≤ 0xdbff then .ok ([], .paired n)
      else .ok (Bytes.ofString (Char.ofNat n).toString, .plain)

/-- One more byte of a string, which is not its closing quote: the bytes it adds, and
the state after it. -/
def textStep (strict : Bool) (state : TextState) (b : UInt8) : Except Mistake (Bytes × TextState) :=
  match state with
  | .plain =>
    if b = 0x5c then .ok ([], .escaped)
    else if b < 0x20 then .error .malformed
    else .ok ([b], .plain)
  | .escaped =>
    if b = 0x75 then .ok ([], .digits none [])
    else
      match shortEscape b with
      | some c => .ok ([c], .plain)
      | none => .error .malformed
  | .digits high sofar =>
    if sofar.length < 3 then .ok ([], .digits high (sofar ++ [b]))
    else
      match hexNumber (sofar ++ [b]) with
      | some n => afterDigits strict high n
      | none => .error .malformed
  | .paired high => if b = 0x5c then .ok ([], .pairedEscape high) else .error .malformed
  | .pairedEscape high => if b = 0x75 then .ok ([], .digits (some high) []) else .error .malformed

/-- Reads a string after its opening quote: its bytes, and what is left after its
closing quote. The bytes read before are given, the latest first. -/
def readTextFrom (strict : Bool) : TextState → Bytes → Bytes → Except Mistake (Bytes × Bytes)
  | _, _, [] => .error .ended
  | state, got, b :: r =>
    if state = .plain ∧ b = 0x22 then .ok (got.reverse, r)
    else
      match textStep strict state b with
      | .ok (more, state) => readTextFrom strict state (more.reverse ++ got) r
      | .error e => .error e

theorem readTextFrom_suffix {strict : Bool} {state : TextState} {got d s r : Bytes}
    (h : readTextFrom strict state got d = .ok (s, r)) : r <:+ d := by
  induction d generalizing state got with
  | nil => simp [readTextFrom] at h
  | cons b t ih =>
    rw [readTextFrom] at h
    split at h
    · obtain ⟨-, rfl⟩ := Prod.mk.inj (Except.ok.inj h)
      exact List.suffix_cons _ _
    · split at h
      · exact (ih h).trans (List.suffix_cons _ _)
      · simp at h

/-- Reads a string after its opening quote. -/
def readText (d : Bytes) : Except Mistake (String × Bytes) :=
  match readTextFrom true .plain [] d with
  | .error e => .error e
  | .ok (bytes, r) =>
    match String.fromUTF8? ⟨bytes.toArray⟩ with
    | some s => .ok (s, r)
    | none => .error .malformed

theorem readText_suffix {d r : Bytes} {s : String} (h : readText d = .ok (s, r)) : r <:+ d := by
  unfold readText at h
  split at h
  · simp at h
  · next hread =>
    split at h
    · obtain ⟨-, rfl⟩ := Prod.mk.inj (Except.ok.inj h)
      exact readTextFrom_suffix hread
    · simp at h

/-- What is left after a string that is passed over, after its opening quote. -/
def skipText (d : Bytes) : Except Mistake Bytes := (readTextFrom false .plain [] d).map (·.2)

theorem skipText_suffix {d r : Bytes} (h : skipText d = .ok r) : r <:+ d := by
  obtain ⟨⟨s, t⟩, hread, rfl⟩ := map_eq_ok h
  exact readTextFrom_suffix hread

end Ogg.Json
