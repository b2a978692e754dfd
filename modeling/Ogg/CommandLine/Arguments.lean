/-!
# Command-line arguments

A command is a word, its options and its operands. Options come before, between
and after the operands:

* a long option is `--name`; its value is the next argument, or follows `=`;
* short options are letters after one hyphen, several at a time; a letter that
  takes a value takes the rest of its argument (less a leading `=`), or the next
  argument if nothing is left;
* an argument that begins with a hyphen is never the value of the option before
  it, and only a single hyphen is an operand;
* after `--` there are only operands.

No option may be given twice, and no path may be empty. The first mistake in
reading order counts, and so does a question for the version before it.
-/

namespace Ogg.CommandLine

/-- What the program is asked to do. -/
inductive Command where
  /-- Classify files. -/
  | probe (files : List String) (json : Bool) (budget : Option Nat) (config : Option String)
  /-- Report on every page of a file. -/
  | scan (input : String) (json pages : Bool)
  deriving DecidableEq, Repr

/-- What the arguments ask for. -/
inductive Request where
  /-- A command is to be carried out. -/
  | run (command : Command)
  /-- The version is asked for. -/
  | version
  /-- The arguments make no sense. -/
  | usage
  deriving DecidableEq, Repr

/-- The options of the commands. -/
inductive Switch where
  /-- Say more while working. -/
  | verbose
  /-- Write structured output. -/
  | json
  /-- List every page. -/
  | pages
  /-- The number of bytes a probe may read. -/
  | budget
  /-- The file that holds the settings of a probe. -/
  | config
  deriving DecidableEq, Repr

namespace Switch

/-- The long name. -/
def long : Switch → String
  | verbose => "verbose"
  | json => "json"
  | pages => "pages"
  | budget => "budget"
  | config => "config"

/-- The letter, if there is one. -/
def short : Switch → Option Char
  | verbose => some 'v'
  | json => none
  | pages => some 'p'
  | budget => some 'b'
  | config => some 'c'

/-- The option takes a value. -/
def takesValue : Switch → Bool
  | budget => true
  | config => true
  | _ => false

/-- The options of the command that classifies files. -/
def ofProbe : List Switch := [verbose, json, budget, config]

/-- The options of the command that reports on pages. -/
def ofScan : List Switch := [verbose, json, pages]

end Switch

/-- The options and operands read so far. -/
structure Settings where
  /-- The options that take no value. -/
  flags : List Switch := []
  /-- The value of the option for the budget. -/
  budget : Option Nat := none
  /-- The value of the option for the settings. -/
  config : Option String := none
  /-- The operands, in order. -/
  operands : List String := []
  deriving DecidableEq, Repr

/-- A number of 64 bits in decimal digits, after an optional plus sign. -/
def readNumber (s : String) : Option Nat :=
  let digits := match s.toList with
    | '+' :: cs => cs
    | cs => cs
  if digits.isEmpty || !digits.all Char.isDigit then none
  else
    let n := digits.foldl (fun n c => 10 * n + (c.toNat - '0'.toNat)) 0
    if n < UInt64.size then some n else none

namespace Settings

/-- Adds an option without a value, once. -/
def addFlag (s : Settings) (switch : Switch) : Option Settings :=
  if switch ∈ s.flags then none else some { s with flags := switch :: s.flags }

/-- Adds an option with its value, once. -/
def addValue (s : Settings) (switch : Switch) (value : String) : Option Settings :=
  match switch with
  | .budget =>
    if s.budget.isSome then none
    else (readNumber value).map fun n => { s with budget := some n }
  | .config =>
    if s.config.isSome || value.isEmpty then none else some { s with config := some value }
  | _ => none

/-- Adds an operand, if there may be another. -/
def addOperand (s : Settings) (most : Option Nat) (value : String) : Option Settings :=
  if value.isEmpty || most.any (· ≤ s.operands.length) then none
  else some { s with operands := s.operands ++ [value] }

end Settings

/-- Reads the letters of an argument. The answer is the settings, and an option that
still wants its value. -/
def readLetters (switches : List Switch) (s : Settings) :
    List Char → Option (Settings × Option Switch)
  | [] => some (s, none)
  | c :: cs =>
    match switches.find? (·.short == some c) with
    | none => none
    | some switch =>
      if switch.takesValue then
        match cs with
        | [] => some (s, some switch)
        | '=' :: value => (s.addValue switch (String.ofList value)).map (·, none)
        | value => (s.addValue switch (String.ofList value)).map (·, none)
      else (s.addFlag switch).bind fun s => readLetters switches s cs

/-- Reads a long option after its hyphens. The answer is the settings, and an option
that still wants its value. -/
def readLong (switches : List Switch) (s : Settings) (chars : List Char) :
    Option (Settings × Option Switch) :=
  let name := String.ofList (chars.takeWhile (· != '='))
  let value := (chars.dropWhile (· != '=')).tail
  match switches.find? (·.long == name) with
  | none => none
  | some switch =>
    if '=' ∈ chars then
      if switch.takesValue then (s.addValue switch (String.ofList value)).map (·, none) else none
    else if switch.takesValue then some (s, some switch)
    else (s.addFlag switch).map (·, none)

/-- Reads one argument. -/
def readArgument (switches : List Switch) (most : Option Nat) (s : Settings) (a : String) :
    Option (Settings × Option Switch) :=
  match a.toList with
  | '-' :: '-' :: chars => readLong switches s chars
  | '-' :: c :: chars => readLetters switches s (c :: chars)
  | _ => (s.addOperand most a).map (·, none)

/-- Reads the arguments of a command, which has at most so many operands; `wanting` is an
option whose value must come next, and `plain` says that only operands follow. -/
def readArguments (switches : List Switch) (most : Option Nat) (s : Settings)
    (wanting : Option Switch) (plain : Bool) : List String → Option Settings
  | [] => if wanting.isSome then none else some s
  | a :: rest =>
    match wanting with
    | some switch =>
      if a.startsWith "-" && a != "-" then none
      else (s.addValue switch a).bind fun s => readArguments switches most s none plain rest
    | none =>
      if plain then (s.addOperand most a).bind fun s => readArguments switches most s none plain rest
      else if a = "--" then readArguments switches most s none true rest
      else
        (readArgument switches most s a).bind fun (s, wanting) =>
          readArguments switches most s wanting plain rest

/-- The command that classifies files, of its arguments. -/
def probeCommand (args : List String) : Request :=
  match readArguments Switch.ofProbe none {} none false args with
  | none => .usage
  | some s =>
    if s.operands.isEmpty then .usage
    else .run (.probe s.operands (Switch.json ∈ s.flags) s.budget s.config)

/-- The command that reports on pages, of its arguments. -/
def scanCommand (args : List String) : Request :=
  match readArguments Switch.ofScan (some 1) {} none false args with
  | some { flags, operands := [input], .. } =>
    .run (.scan input (Switch.json ∈ flags) (Switch.pages ∈ flags))
  | _ => .usage

/-- Reads letters before the command: whether the version is asked for, or whether
`-v` has been given. -/
def readGlobalLetters (verbose : Bool) : List Char → Option (Except Unit Bool)
  | [] => some (.ok verbose)
  | 'v' :: cs => if verbose then none else readGlobalLetters true cs
  | 'V' :: _ => some (.error ())
  | _ => none

/-- Reads the arguments; `verbose` says whether that option was given before. -/
def readFrom (verbose : Bool) : List String → Request
  | [] => .usage
  | a :: rest =>
    if a = "probe" then probeCommand rest
    else if a = "scan" then scanCommand rest
    else if a = "--version" then .version
    else if a = "--verbose" then (if verbose then .usage else readFrom true rest)
    else
      match a.toList with
      | '-' :: c :: cs =>
        match readGlobalLetters verbose (c :: cs) with
        | some (.ok verbose) => readFrom verbose rest
        | some (.error ()) => .version
        | none => .usage
      | _ => .usage

/-- What the arguments ask for. -/
def Request.ofArguments (args : List String) : Request := readFrom false args

end Ogg.CommandLine
