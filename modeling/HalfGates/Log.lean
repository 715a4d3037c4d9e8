import HalfGates.Constraint.System
import HalfGates.Garbling.Garble
import HalfGates.Program.Rewriting

/-!
# The log

The passes report what they did as events: a level, the part of the program that reports, a message and
some numbers.

## Main definitions

- `LogEvent`, `LogLevel`: events
- `LogEvent.lowered`, `LogEvent.rewritten`, `LogEvent.removed`: the events of the passes over programs
- `LogEvent.ofGate`, `LogEvent.ofGarbling`: the events of garbling one gate, and a program
- `LogEvent.evaluated`: the event of a run

## Design notes

What garbling reports of a gate depends on the program alone. If garbling stops at a gate, the gates
before it have been reported, and there is no closing event.
-/

namespace HalfGates

/-- How detailed an event is. -/
inductive LogLevel
  | debug
  | trace
  deriving DecidableEq

/-- The name of a level. -/
def LogLevel.name : LogLevel → String
  | .debug => "DEBUG"
  | .trace => "TRACE"

/-- Something that a pass reports. -/
structure LogEvent where
  level : LogLevel
  /-- The part of the program that reports. -/
  target : String
  message : String
  /-- Named numbers. -/
  fields : List (String × Nat)
  deriving DecidableEq

namespace LogEvent

/-- A system was lowered to a program. -/
def lowered (s : ParitySystem) (p : Program) : LogEvent :=
  ⟨.debug, "circuit::compiler", "compiled boolean function",
    [("variables", s.length), ("checks", s.checks.length), ("gates", p.length),
      ("nonlinear", p.nonlinearCount)]⟩

/-- The gates of a program were rewritten in place. -/
def rewritten (before after : Program) : LogEvent :=
  ⟨.debug, "circuit::simplifier", "simplified gates",
    [("gates", before.length), ("rewritten", before.changedCount after)]⟩

/-- Unused gates were removed. -/
def removed (before after : Program) : LogEvent :=
  ⟨.debug, "circuit::simplifier", "removed unused gates",
    [("before", before.length), ("after", after.length), ("removed", before.length - after.length)]⟩

/-- A program was garbled with the given number of rows. -/
def garbled (p : Program) (rows : Nat) : LogEvent :=
  ⟨.debug, "twopc::garble::generator", "garbled program",
    [("gates", p.length), ("rows", rows), ("inputs", p.inputIndices.length),
      ("outputs", p.outputs.length)]⟩

/-- A garbled program was run. -/
def evaluated (p : Program) : LogEvent :=
  ⟨.debug, "twopc::garble::evaluator", "evaluated garbled program",
    [("gates", p.length), ("outputs", p.outputs.length),
      ("ungarbled", p.ungarbledOutputs.length)]⟩

/-- What garbling a gate behind the gates of `past` reports: a conjunction known to both parties, or one
that takes two rows because nobody knows an operand. -/
def ofGate (past : List Gate) (g : Gate) : Option LogEvent :=
  match g.op with
  | .conjunction _ _ _ x y =>
    if g.scope = .both then
      some ⟨.trace, "twopc::garble::generator", "public and gate",
        [("index", past.length), ("sub_index", 0)]⟩
    else if Gate.scopeBack past x = .neither ∧ Gate.scopeBack past y = .neither then
      some ⟨.trace, "twopc::garble::generator", "garbled decomposed gate",
        [("index", past.length), ("bits", 256)]⟩
    else none
  | _ => none

/-- What garbling the first `count` gates of a program reports. -/
def ofGates (p : Program) (count : Nat) : List LogEvent :=
  ((p.gates.take count).foldl
    (fun (past, events) g => (g :: past, (ofGate past g).toList ++ events)) ([], [])).2.reverse

/-- How many gates were garbled before an error. -/
def gatesBefore : GarblingError → Nat
  | .underivableBit gate _ | .uninitializedLabel gate => gate
  | _ => 0

/-- What garbling a program reports, as it ends. -/
def ofGarbling (p : Program) : Except GarblingError Garbling → List LogEvent
  | .ok garbling => ofGates p p.length ++ [garbled p garbling.final.rows]
  | .error e => ofGates p (gatesBefore e)

end LogEvent

end HalfGates
