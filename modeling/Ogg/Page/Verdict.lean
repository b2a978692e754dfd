import Ogg.Checksum
import Ogg.Page

/-!
# Judging a candidate

Bytes are searched for a page from the left. At each place `judge` says what the
bytes from there on are: no page at all, too few to tell, a capture pattern that
begins no page, or a page. Bytes still to come can change `partialCapture` and
`incomplete`; the other verdicts are final.

A candidate begins with the capture pattern. Its version is judged as soon as
the header is there, its checksum when the whole page is.
-/

namespace Ogg

/-- Why a candidate is no page. -/
inductive Flaw where
  /-- Its structure version is not the defined one. -/
  | version
  /-- Its checksum is not that of its bytes. -/
  | checksum
  deriving DecidableEq, Repr

/-- What a byte string is, as the possible beginning of a page. -/
inductive Verdict where
  /-- It does not begin with the capture pattern, and cannot grow to. -/
  | foreign
  /-- It is a proper beginning of the capture pattern. -/
  | partialCapture
  /-- It begins with the capture pattern, but the page goes on past its end. -/
  | incomplete
  /-- It begins with the capture pattern, and not with a page. -/
  | spurious (flaw : Flaw)
  /-- It begins with a page. -/
  | valid (page : Page)
  deriving DecidableEq, Repr

namespace Page

/-- The header fields of a candidate whose lacing values are known. -/
def headerOf (d lacing : Bytes) : Header where
  version := d.getD 4 0
  flags := ⟨d.getD 5 0⟩
  granule := Bytes.word64 d 6
  serial := Bytes.word32 d 14
  sequence := Bytes.word32 d 18
  checksum := Bytes.word32 d 22
  lacing := lacing

/-- The checksum of a candidate of `total` bytes, its checksum field read as zero. -/
def sumOfCandidate (d : Bytes) (total : Nat) : UInt32 :=
  Checksum.update (Checksum.update (Checksum.ofBytes (d.take 22)) [0, 0, 0, 0])
    (Bytes.slice d 26 (total - 26))

/-- Judges a candidate: a byte string that begins with the capture pattern. -/
def judgeCandidate (d : Bytes) : Verdict :=
  if Bytes.lengthBelow d headerSize then .incomplete
  else if d.getD 4 0 != 0 then .spurious .version
  else
    let count := (d.getD 26 0).toNat
    let lacing := Bytes.slice d headerSize count
    let rest := d.drop (headerSize + count)
    let length := lacingSum lacing
    if lacing.length < count || Bytes.lengthBelow rest length then .incomplete
    else if sumOfCandidate d (headerSize + count + length) != Bytes.word32 d 22 then .spurious .checksum
    else .valid ⟨headerOf d lacing, rest.take length⟩

/-- Judges a byte string. -/
def judge (d : Bytes) : Verdict :=
  if capturePattern.isPrefixOf d then judgeCandidate d
  else if d.isPrefixOf capturePattern && !d.isEmpty then .partialCapture
  else .foreign

end Page

end Ogg
