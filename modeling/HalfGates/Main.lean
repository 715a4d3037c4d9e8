import HalfGates.Addition.Command

/-!
# Entry point

Draws the seeds, runs the addition command, and prints what it answers.
-/

/-- A block of random bytes. -/
def HalfGates.drawSeed : IO HalfGates.Block := do
  let bytes ← IO.getRandomBytes 16
  return (HalfGates.Block.ofBytes? bytes.toList).getD 0

/-- The command that adds two numbers. -/
def main (args : List String) : IO UInt32 := do
  let seeds : HalfGates.CommandSeeds :=
    ⟨← HalfGates.drawSeed, ← HalfGates.drawSeed, ← HalfGates.drawSeed⟩
  let outcome := HalfGates.Addition.command args seeds
  outcome.lines.forM IO.println
  outcome.errors.forM IO.eprintln
  return outcome.code.toUInt32
