import HalfGates.Addition.Protocol
import HalfGates.CommandLine
import HalfGates.Random.Words
import HalfGates.Text.Decimal

/-!
# The command that adds two numbers

The command reads the numbers and their width from its options, runs both parties, and prints the size
of the program and of its tables, the sum as the evaluator learns it, and the sum as the generator
decodes it. What it prints does not depend on the random seeds.

## Main definitions

- `Addition.ofOptions`: the addition that options ask for
- `AdditionReport.lines`: what is printed of a run
- `CommandSeeds`, `Addition.command`: the whole command
-/

namespace HalfGates

/-- How the command ends. -/
structure CommandOutcome where
  /-- The exit code. -/
  code : Nat
  /-- The lines of output. -/
  lines : List String
  /-- The text on the error stream. -/
  errors : Option String
  deriving DecidableEq

/-- The seeds of the generator's random streams. -/
structure CommandSeeds where
  delta : Block
  randomBits : Block
  labels : Block

/-- The secrets that are drawn from seeds. -/
def CommandSeeds.secrets (s : CommandSeeds) : GeneratorSecrets :=
  let bitKeys := Aes.schedule s.randomBits
  let labelKeys := Aes.schedule s.labels
  { delta := (Delta.random (.ofSeed s.delta)).1
    randomBits := Random.bitAt (Aes.encrypt bitKeys)
    labels := Random.blockAt (Aes.encrypt labelKeys) }

/-- What is printed of a run. -/
def AdditionReport.lines (t : Addition) (r : AdditionReport) : List String :=
  [s!"{r.program.length} gates, {r.program.nonlinearCount} non-linear",
    s!"garbled tables: {r.tableBytes} bytes"] ++
  (if r.learned.isEmpty then [] else [s!"evaluator learns {Bits.toNat r.learned}"]) ++
  [s!"{t.first} + {t.second} = {Bits.toNat r.sum} (mod 2^{t.width})"]

namespace Addition

/-- The options of the command. -/
def optionSpecs : List OptionSpec :=
  [⟨'a', "a", true⟩, ⟨'b', "b", true⟩, ⟨'w', "width", true⟩, ⟨'r', "reveal", false⟩]

/-- The name and the version of the program. -/
def versionLine : String :=
  "twopc 0.1.0"

/-- How the command is called. -/
def usageLines : List String :=
  ["USAGE:", "    adder [FLAGS] [OPTIONS]"]

/-- The answer to a request for help. -/
def helpLines : List String :=
  [versionLine, ""] ++ usageLines ++
  ["",
    "FLAGS:",
    "    -h, --help       Prints help information",
    "    -r, --reveal     Reveal the sum to the evaluator as well",
    "    -V, --version    Prints version information",
    "",
    "OPTIONS:",
    "    -a, --a <a>            The generator's summand [default: 12]",
    "    -b, --b <b>            The evaluator's summand [default: 9]",
    "    -w, --width <width>     [default: 8]"]

/-- The number that an option gives, which has to fit into 64 bits. -/
def number (given : GivenOptions) (name : String) (default : Nat) : Except Stop Nat :=
  match given.value? name with
  | none => .ok default
  | some text =>
    match Decimal.read? (1 <<< 64) text with
    | some n => .ok n
    | none => .error .usage

/-- The addition that options ask for. -/
def ofOptions (given : GivenOptions) : Except Stop Addition := do
  let first ← number given "a" 12
  let second ← number given "b" 9
  let width ← number given "width" 8
  .ok ⟨first, second, width, given.isGiven "reveal"⟩

/-- How the command ends when there is nothing to add. -/
def stopped : Stop → CommandOutcome
  | .help => ⟨0, helpLines, none⟩
  | .version => ⟨0, [versionLine], none⟩
  | .usage => ⟨1, [], some ("\n".intercalate usageLines)⟩

/-- How the command ends when an addition cannot be done. -/
def failed (message : String) : CommandOutcome :=
  ⟨1, [], some s!"Error: {message}"⟩

/-- Adds and prints. -/
def perform (t : Addition) (seeds : CommandSeeds) : CommandOutcome :=
  if 0 < t.width ∧ t.width ≤ 64 then
    match t.run (FixedKeyHash.ofKey 0).tweaked seeds.secrets with
    | .ok report => ⟨0, report.lines t, none⟩
    | .error e => failed e.message
  else
    failed "width must be in 1..=64"

/-- The command with its arguments. -/
def command (args : List String) (seeds : CommandSeeds) : CommandOutcome :=
  match CommandLine.read optionSpecs args with
  | .error stop => stopped stop
  | .ok given =>
    match ofOptions given with
    | .error stop => stopped stop
    | .ok t => t.perform seeds

end Addition

end HalfGates
