import Ogg.Json
import Ogg.Json.Reader
import Ogg.Json.Skip
import Ogg.Page

/-!
# Probe configuration

How many bytes a probe may read, and whether it may use bytes that were read
before it. A configuration is written as a JSON object of two fields and read
from an object with any of them, or from an array of their values in order. Fields
that are missing have their defaults; fields of other names are passed over.

The budget is also the size of the storage that the bytes are read into: budgets are
taken to be small enough for the memory of the machine.
-/

namespace Ogg

/-- The settings of a probe. -/
structure Config where
  /-- The number of bytes that may be read to find the first page. -/
  budget : Nat := 4096
  /-- Bytes read from the beginning of the source before may be used. -/
  reuseSniffed : Bool := true
  deriving DecidableEq, Repr

namespace Config

/-- The configuration of which nothing was said. -/
def default : Config := {}

/-- Sets the budget, raised to one page header. -/
def withBudget (c : Config) (bytes : Nat) : Config := { c with budget := max bytes headerSize }

/-- Says whether bytes read before may be used. -/
def withReuse (c : Config) (value : Bool) : Config := { c with reuseSniffed := value }

/-- The budget that a probe has: at least one page header. -/
def effectiveBudget (c : Config) : Nat := max c.budget headerSize

/-- The name of the budget field. -/
def budgetKey : String := "probe_budget"

/-- The name of the field about bytes read before. -/
def reuseKey : String := "reuse_sniffed_prefix"

/-- The configuration as it is written. -/
def toJson (c : Config) : Json :=
  .object [(budgetKey, .number c.budget), (reuseKey, .bool c.reuseSniffed)]

/-! ### Reading -/

/-- The fields read so far. -/
structure Fields where
  /-- The budget, if it was given. -/
  budget : Option Nat := none
  /-- Whether bytes read before may be used, if it was said. -/
  reuse : Option Bool := none
  deriving DecidableEq, Repr

/-- The configuration of the fields read, the others having their defaults. -/
def ofFields (f : Fields) : Config where
  budget := f.budget.getD default.budget
  reuseSniffed := f.reuse.getD default.reuseSniffed

open Json (Mistake dropBlanks dropColon dropColon_suffix map_eq_ok)

/-- Reads the rest of a field after its name. A field that was read before is refused
before its colon. -/
def readField (f : Fields) (key : String) (d : Bytes) : Except Mistake (Fields × Bytes) :=
  if key = budgetKey then
    if f.budget.isSome then .error .mismatched
    else
      match dropColon d with
      | .error e => .error e
      | .ok r => (Json.readCount r).map fun (n, s) => ({ f with budget := some n }, s)
  else if key = reuseKey then
    if f.reuse.isSome then .error .mismatched
    else
      match dropColon d with
      | .error e => .error e
      | .ok r => (Json.readBool r).map fun (v, s) => ({ f with reuse := some v }, s)
  else
    match dropColon d with
    | .error e => .error e
    | .ok r => (Json.skipValue r).map fun s => (f, s)

/-- Reads one field, from the quote of its name on. -/
def readMember (f : Fields) (d : Bytes) : Except Mistake (Fields × Bytes) :=
  match d with
  | [] => .error .ended
  | b :: r =>
    if b == 0x22 then
      match Json.readText r with
      | .error e => .error e
      | .ok (key, s) => readField f key s
    else .error .malformed

theorem readField_suffix {f g : Fields} {key : String} {d r : Bytes} (h : readField f key d = .ok (g, r)) :
    r <:+ d := by
  unfold readField at h
  split at h
  · split at h
    · simp at h
    · split at h
      · simp at h
      · next hc =>
        obtain ⟨⟨n, s⟩, hread, heq⟩ := map_eq_ok h
        cases heq
        exact (Json.readCount_suffix hread).trans (dropColon_suffix hc)
  · split at h
    · split at h
      · simp at h
      · split at h
        · simp at h
        · next hc =>
          obtain ⟨⟨v, s⟩, hread, heq⟩ := map_eq_ok h
          cases heq
          exact (Json.readBool_suffix hread).trans (dropColon_suffix hc)
    · split at h
      · simp at h
      · next hc =>
        obtain ⟨s, hread, heq⟩ := map_eq_ok h
        cases heq
        exact (Json.skipValue_suffix hread).trans (dropColon_suffix hc)

theorem readMember_length_lt {f g : Fields} {d r : Bytes} (h : readMember f d = .ok (g, r)) :
    r.length < d.length := by
  unfold readMember at h
  split at h
  · simp at h
  · split at h
    · split at h
      · simp at h
      · next hkey =>
        have := ((readField_suffix h).trans (Json.readText_suffix hkey)).length_le
        rw [List.length_cons]
        omega
    · simp at h

/-- Reads the fields of an object after one of them: the object ends, or a comma and
another field follow. -/
def readMore (f : Fields) (d : Bytes) : Except Mistake (Fields × Bytes) :=
  match _h : dropBlanks d with
  | [] => .error .ended
  | b :: r =>
    if b == 0x7d then .ok (f, r)
    else if b == 0x2c then
      match _h' : readMember f (dropBlanks r) with
      | .ok (g, s) => readMore g s
      | .error e => .error e
    else .error .malformed
termination_by d.length
decreasing_by
  have h₁ := (Json.dropBlanks_suffix d).length_le
  have h₂ := (Json.dropBlanks_suffix r).length_le
  have h₃ := readMember_length_lt _h'
  rw [_h, List.length_cons] at h₁
  omega

/-- Reads an object after its opening brace. -/
def readObject (d : Bytes) : Except Mistake (Fields × Bytes) :=
  match dropBlanks d with
  | [] => .error .ended
  | b :: r =>
    if b == 0x7d then .ok ({}, r)
    else
      match readMember {} (b :: r) with
      | .ok (f, s) => readMore f s
      | .error e => .error e

/-- Ends an array all of whose items were read. -/
def closeArray (f : Fields) (d : Bytes) : Except Mistake (Fields × Bytes) :=
  match dropBlanks d with
  | [] => .error .ended
  | b :: r => if b == 0x5d then .ok (f, r) else .error .malformed

/-- Reads the second item of an array after its comma. -/
def readSecond (f : Fields) (d : Bytes) : Except Mistake (Fields × Bytes) :=
  match dropBlanks d with
  | [] => .error .ended
  | b :: r =>
    if b == 0x5d then .error .malformed
    else
      match Json.readBool (b :: r) with
      | .error e => .error e
      | .ok (v, s) => closeArray { f with reuse := some v } s

/-- Reads an array after its first item. -/
def readAfterFirst (f : Fields) (d : Bytes) : Except Mistake (Fields × Bytes) :=
  match dropBlanks d with
  | [] => .error .ended
  | b :: r =>
    if b == 0x5d then .ok (f, r)
    else if b == 0x2c then readSecond f r
    else .error .malformed

/-- Reads an array after its opening bracket: the values of the fields in order, as
many as there are. -/
def readArray (d : Bytes) : Except Mistake (Fields × Bytes) :=
  match dropBlanks d with
  | [] => .error .ended
  | b :: r =>
    if b == 0x5d then .ok ({}, r)
    else
      match Json.readCount (b :: r) with
      | .error e => .error e
      | .ok (n, s) => readAfterFirst { budget := some n } s

/-- Reads the fields of a configuration, from an object or an array. -/
def readFields (d : Bytes) : Except Mistake (Fields × Bytes) :=
  match dropBlanks d with
  | [] => .error .ended
  | b :: r =>
    if b == 0x7b then readObject r
    else if b == 0x5b then readArray r
    else .error (Json.mismatch b r)

/-- Reads a configuration. Nothing but blanks may follow it. -/
def ofJson (d : Bytes) : Except Mistake Config :=
  match readFields d with
  | .error e => .error e
  | .ok (f, r) => if (dropBlanks r).isEmpty then .ok (ofFields f) else .error .malformed

end Config

end Ogg
