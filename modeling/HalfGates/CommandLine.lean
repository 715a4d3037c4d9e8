/-!
# Command lines

A command line is a list of options, each given by a letter behind one dash or by a name behind two.
Letters may be bundled. The value of an option follows its letter at once, its name behind `=`, or is
the next argument, unless that argument starts an option of its own; a value may have further `=` in
front, which do not count. An option without a value is accepted and keeps its default. Every option is
given once at most.

## Main definitions

- `OptionSpec`, `GivenOption`: an option that a command knows, and one that was given
- `Argument.ofChars`: the form of an argument
- `CommandLine.read`: the options on a command line
- `GivenOptions.value?`: the value of an option

## Design notes

The requests for help and for the version end the reading as soon as they are met, and so does an
argument that is not understood. That an option is repeated shows only at the end.
-/

namespace HalfGates

/-- An option that a command knows. -/
structure OptionSpec where
  letter : Char
  name : String
  takesValue : Bool
  deriving DecidableEq

/-- An option that was given. -/
structure GivenOption where
  spec : OptionSpec
  value : Option String
  deriving DecidableEq

/-- Why a command line has no options to act on. -/
inductive Stop
  /-- Help is asked for. -/
  | help
  /-- The version is asked for. -/
  | version
  /-- The command line is not understood. -/
  | usage
  deriving DecidableEq

/-- The form of an argument. -/
inductive Argument
  /-- Two dashes alone, behind which there are no options. -/
  | separator
  /-- A name behind two dashes, and a value if there is a sign of equality. -/
  | named (name : String) (value : Option String)
  /-- Letters behind one dash. -/
  | letters (letters : List Char)
  /-- Anything else. -/
  | plain (text : String)
  deriving DecidableEq

/-- A value as it is written, without the signs of equality in front. -/
def Argument.valueOf (written : List Char) : String :=
  String.ofList (written.dropWhile (· == '='))

/-- An option given by name, from what follows the dashes. -/
def Argument.ofNamed (body : List Char) : Argument :=
  .named (String.ofList (body.takeWhile (· != '=')))
    (if body.contains '=' then some (valueOf (body.dropWhile (· != '='))) else none)

/-- The form of an argument; more than two dashes in front are as good as two. -/
def Argument.ofChars : List Char → Argument
  | ['-', '-'] => .separator
  | '-' :: '-' :: rest => ofNamed (rest.dropWhile (· == '-'))
  | '-' :: c :: rest => .letters (c :: rest)
  | cs => .plain (String.ofList cs)

namespace GivenOption

/-- Whether an option still lacks its value. -/
def isOpen (o : GivenOption) : Bool :=
  o.spec.takesValue && o.value.isNone

end GivenOption

/-- Options that were given, the last one first. -/
abbrev GivenOptions : Type :=
  List GivenOption

namespace GivenOptions

/-- The options with one more given. -/
def give (given : GivenOptions) (spec : OptionSpec) (value : Option String) : GivenOptions :=
  ⟨spec, if spec.takesValue then value else none⟩ :: given

/-- The options with a value for the last one, if it lacks one. -/
def complete? (text : String) : GivenOptions → Option GivenOptions
  | o :: older => if o.isOpen then some (⟨o.spec, some text⟩ :: older) else none
  | [] => none

/-- Whether no option is given twice. -/
def distinct (given : GivenOptions) : Bool :=
  decide (given.map (·.spec.name)).Nodup

/-- Whether an option is given. -/
def isGiven (given : GivenOptions) (name : String) : Bool :=
  given.any (·.spec.name == name)

/-- The value of an option, if it is given with one. -/
def value? (given : GivenOptions) (name : String) : Option String :=
  (given.find? (·.spec.name == name)).bind GivenOption.value

end GivenOptions

namespace CommandLine

/-- What a letter or name asks for that is no option of the command. -/
def unknown (isHelp isVersion : Bool) : Stop :=
  if isHelp then .help else if isVersion then .version else .usage

/-- Reads letters behind one dash. The first option that takes a value takes what follows its letter. -/
def readLetters (specs : List OptionSpec) (given : GivenOptions) :
    List Char → Except Stop GivenOptions
  | [] => .ok given
  | c :: rest =>
    match specs.find? (·.letter == c) with
    | none => .error (unknown (c == 'h') (c == 'V'))
    | some spec =>
      if spec.takesValue then
        .ok (given.give spec (if rest.isEmpty then none else some (Argument.valueOf rest)))
      else
        readLetters specs (given.give spec none) rest

/-- Reads a name behind two dashes. -/
def readNamed (specs : List OptionSpec) (given : GivenOptions) (name : String)
    (value : Option String) : Except Stop GivenOptions :=
  match specs.find? (·.name == name) with
  | none => .error (unknown (name == "help") (name == "version"))
  | some spec => .ok (given.give spec value)

/-- Reads arguments behind the options given so far. -/
def readFrom (specs : List OptionSpec) (given : GivenOptions) :
    List String → Except Stop GivenOptions
  | [] => .ok given
  | arg :: rest =>
    match Argument.ofChars arg.toList with
    | .separator => if rest.isEmpty then .ok given else .error .usage
    | .named name value => do readFrom specs (← readNamed specs given name value) rest
    | .letters letters => do readFrom specs (← readLetters specs given letters) rest
    | .plain text =>
      match given.complete? text with
      | some given => readFrom specs given rest
      | none => .error .usage

/-- The options on a command line. -/
def read (specs : List OptionSpec) (args : List String) : Except Stop GivenOptions := do
  let given ← readFrom specs [] args
  if given.distinct then .ok given else .error .usage

end CommandLine

end HalfGates
