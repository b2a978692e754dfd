import Ogg.CommandLine.Arguments
import Ogg.CommandLine.FileTree
import Ogg.Probe
import Ogg.Scan

/-!
# The command line

`run` is the whole program but for reading files and printing: it takes the
arguments and a way to look up a file, and gives the exit status and the text.
The status is `0`; `1` if a finding is an error or a file that is needed cannot be
read; `2` if the arguments make no sense.
-/

namespace Ogg.CommandLine

/-- What a path leads to: the bytes of a file, or the system's words for why there are none. -/
abbrev Lookup := String → Except String Bytes

/-- Looks paths up from a place in a tree of files. -/
def Place.lookup (p : Place) : Lookup := fun path => (p.read path).mapError PathError.message

/-- What the program leaves. -/
structure Output where
  /-- The exit status. -/
  code : Nat
  /-- The text on standard output. -/
  stdout : String
  /-- The text on standard error. -/
  stderr : String := ""
  deriving DecidableEq, Repr

/-- The program's name and version. -/
def versionText : String := "oggprobe 1.0.0\n"

/-- How the program is called. -/
def usageText : String :=
  "Usage: oggprobe [-v] probe [--json] [-b N] [-c FILE] FILES...\n" ++
  "       oggprobe [-v] scan [--json] [-p] FILE\n"

/-- The bytes of a file that are looked at before it is probed. -/
def sniffLength : Nat := 12

/-! ### Columns -/

/-- A text with blanks before it, to a width. -/
def padLeft (width : Nat) (s : String) : String :=
  String.ofList (List.replicate (width - s.length) ' ') ++ s

/-- A text with blanks after it, to a width. -/
def padRight (width : Nat) (s : String) : String :=
  s ++ String.ofList (List.replicate (width - s.length) ' ')

/-- The lower-case hexadecimal digits of a number, as many as given. -/
def hexDigits : Nat → Nat → String
  | 0, _ => ""
  | k + 1, n => hexDigits k (n / 16) ++ String.ofList [Nat.digitChar (n % 16)]

/-- A yes or no. -/
def yesNo (b : Bool) : String := if b then "yes" else "no"

/-- Lines, each with its end. -/
def unlines (ls : List String) : String := String.join (ls.map (· ++ "\n"))

/-! ### Classifying files -/

/-- Probes one file. -/
def probeFile (files : Lookup) (config : Config) (path : String) : Probe.Finding :=
  match files path with
  | .error message => .failed message
  | .ok data =>
    match Source.sniffSeekable { data } sniffLength with
    | .error e => .failed e.message
    | .ok source =>
      let (outcome, _, _) := Probe.Controller.probe { config } source
      .ofOutcome (outcome.map (·.map (·.codec)))

/-- The configuration that was asked for: of a file if one was named, with the budget
that was given. -/
def configOf (files : Lookup) (budget : Option Nat) (path : Option String) : Except String Config :=
  let base : Except String Config :=
    match path with
    | none => .ok Config.default
    | some path =>
      match files path with
      | .error message => .error s!"IO error: {message}"
      | .ok data =>
        match Config.ofJson data with
        | .ok config => .ok config
        | .error _ => .error s!"Invalid configuration: {path}"
  base.map fun config => (budget.map config.withBudget).getD config

/-- Classifies files. -/
def runProbe (files : Lookup) (config : Config) (json : Bool) (paths : List String) : Output :=
  let found := paths.map fun path => (path, probeFile files config path)
  { code := if found.any (·.2.isError) then 1 else 0
    stdout :=
      if json then
        (Json.array (found.map fun (path, finding) =>
          .object [("path", .text path), ("result", finding.toJson)])).pretty ++ "\n"
      else unlines (found.map fun (path, finding) => s!"{path}: {finding.display}") }

/-! ### Reporting on pages -/

/-- The columns of the table of streams, in one line. -/
def streamColumns (serial offset pages packets bos eos codec : String) : String :=
  s!"{padLeft 10 serial} {padLeft 8 offset} {padLeft 7 pages} {padLeft 8 packets}  " ++
  s!"{padRight 3 bos} {padRight 3 eos}  {codec}"

/-- The head of the table of streams. -/
def streamHead : String := streamColumns "Serial" "Offset" "Pages" "Packets" "BOS" "EOS" "Codec"

/-- What is known of a stream's codec. -/
def codecColumn (s : Scan.Summary) : String :=
  match s.codec, s.unknown with
  | some codec, _ => codec.name
  | none, some dump => s!"unknown {dump.display}"
  | none, none => "-"

/-- A row of the table of streams. -/
def streamRow (s : Scan.Summary) : String :=
  let gaps := if s.gaps > 0 then s!"  ({s.gaps} gap(s))" else ""
  streamColumns (hexDigits 8 s.serial.toNat) (toString s.firstOffset) (toString s.pages) (toString s.packets)
    (yesNo s.bos) (yesNo s.eos) (codecColumn s ++ gaps)

/-- A line of the list of pages. -/
def pageLine (e : Scan.Entry) : String :=
  s!"  @{padRight 10 (toString e.offset)} serial={hexDigits 8 e.serial.toNat} " ++
  s!"seq={padRight 6 (toString e.sequence.toNat)} flags=0x{hexDigits 2 e.flags.toNat} " ++
  s!"granule={padRight 12 (toString e.granule.toNat)} segs={padRight 3 (toString e.segments)} " ++
  s!"body={e.bodyLength}"

/-- A report as text, with the list of pages if it is wanted. -/
def reportText (r : Scan.Report) (pages : Bool) : String :=
  unlines ([r.summary, streamHead] ++ r.streams.map streamRow ++
    (if pages then "" :: r.log.map pageLine else []))

/-- Reports on the pages of a file. -/
def runScan (files : Lookup) (input : String) (json pages : Bool) : Output :=
  match files input with
  | .error message => { code := 1, stdout := "", stderr := s!"Error: {message}\n" }
  | .ok data =>
    match (Scan.scan { data } Scan.defaultChunk).report with
    | .error e => { code := 1, stdout := "", stderr := s!"Error: {e.message}\n" }
    | .ok report =>
      { code := 0
        stdout := if json then report.toJson.pretty ++ "\n" else reportText report pages }

/-! ### The program -/

/-- Carries out a command. -/
def Command.run (files : Lookup) : Command → Output
  | .probe paths json budget path =>
    match configOf files budget path with
    | .error message => { code := 1, stdout := "", stderr := s!"Error: {message}\n" }
    | .ok config => runProbe files config json paths
  | .scan input json pages => runScan files input json pages

/-- The paths that a command reads. -/
def Command.paths : Command → List String
  | .probe files _ _ config => config.toList ++ files
  | .scan input _ _ => [input]

/-- The whole program. -/
def run (files : Lookup) (args : List String) : Output :=
  match Request.ofArguments args with
  | .usage => { code := 2, stdout := "", stderr := usageText }
  | .version => { code := 0, stdout := versionText }
  | .run command => command.run files

end Ogg.CommandLine
