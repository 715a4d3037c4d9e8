import HalfGates.Program.Liveness

/-!
# Shared storage of gates

A program may keep one copy of gates that occur more than once. Storage is a cell number for each gate:
two gates with the same number are kept in one cell. A builder keeps each distinct gate once; rewriting
keeps the cells of the gates that do not change and gives every changed gate a cell of its own.

## Main definitions

- `Storage.Pool`, `Storage.intern`: gates stored one after the other, and their cells
- `Storage.afterRewriting`: the cells after some gates were rewritten in place
- `StoredProgram`: a program with its cells
- `StoredBuilder`: a builder that stores the gates that it accepts
- `StoredProgram.simplifyGates`, `StoredProgram.removeUnused`, `StoredProgram.simplify`: the passes
- `StoredProgram.representatives`: for each gate the first one kept in the same cell
-/

namespace HalfGates.Storage

/-- The distinct gates stored so far, in order, and the cells of all gates stored, newest first. -/
structure Pool where
  distinct : List Gate
  cells : List Nat

/-- Stores a gate: in the cell of an equal one if there is one, and in a new cell otherwise. -/
def Pool.store (pool : Pool) (g : Gate) : Pool :=
  match pool.distinct.idxOf? g with
  | some cell => { pool with cells := cell :: pool.cells }
  | none => ⟨pool.distinct ++ [g], pool.distinct.length :: pool.cells⟩

/-- The storage of gates stored one after the other. -/
def poolOf (gates : List Gate) : Pool :=
  gates.foldl Pool.store ⟨[], []⟩

/-- The cells of gates stored one after the other. -/
def intern (gates : List Gate) : List Nat :=
  (poolOf gates).cells.reverse

/-- A number above all of the cells. -/
def bound (cells : List Nat) : Nat :=
  cells.foldl (fun n cell => max n (cell + 1)) 0

/-- The cells after gates were rewritten in place: an unchanged gate stays in its cell, and a changed
one gets a new cell. -/
def afterRewriting (cells : List Nat) (old new : List Gate) : List Nat :=
  ((cells.zip (old.zip new)).zipIdx).map fun ((cell, before, after), i) =>
    if before = after then cell else bound cells + i

end HalfGates.Storage

namespace HalfGates

/-- A program and the cell in which each of its gates is kept. -/
structure StoredProgram where
  program : Program
  cells : List Nat

/-- A program under construction and the storage of its gates. -/
structure StoredBuilder where
  builder : Builder
  pool : Storage.Pool

namespace StoredBuilder

/-- No gates and nothing stored. -/
def empty : StoredBuilder :=
  ⟨.empty, ⟨[], []⟩⟩

/-- The builder that has accepted one more gate, which is stored as it was accepted. -/
def accepting (s : StoredBuilder) (b : Builder) : StoredBuilder :=
  ⟨b, b.past.head?.elim s.pool s.pool.store⟩

/-- Appends a gate. -/
def add (s : StoredBuilder) (r : GateRequest) : Except ProgramError StoredBuilder := do
  let b ← s.builder.add r
  .ok (s.accepting b)

/-- Appends the gate that a record describes. -/
def addRecord (s : StoredBuilder) (r : GateRecord) : Except ProgramError StoredBuilder := do
  let b ← s.builder.addRecord r
  .ok (s.accepting b)

/-- Declares the outputs, in place of those declared before. -/
def withOutputs (s : StoredBuilder) (outputs : List Nat) : StoredBuilder :=
  { s with builder := s.builder.withOutputs outputs }

/-- The program with the cells of its gates, if every declared output is the position of a gate. -/
def build (s : StoredBuilder) : Except ProgramError StoredProgram := do
  let p ← s.builder.build
  .ok ⟨p, s.pool.cells.reverse⟩

end StoredBuilder

namespace StoredProgram

/-- A program as a builder leaves it, with each distinct gate kept once. -/
def interned (p : Program) : StoredProgram :=
  ⟨p, Storage.intern p.gates⟩

/-- The program rewritten in place. -/
def simplifyGates (s : StoredProgram) : StoredProgram :=
  let p := s.program.simplifyGates
  ⟨p, Storage.afterRewriting s.cells s.program.gates p.gates⟩

/-- The program without unused gates, built anew. -/
def removeUnused (s : StoredProgram) : Except ProgramError StoredProgram := do
  let walk := (Liveness.Walk.start s.program).down s.program.length
  let b ← (walk.slots.drop walk.removed).foldlM StoredBuilder.addRecord StoredBuilder.empty
  (b.withOutputs (s.program.outputs.map fun i => walk.places.getD i 0 - walk.removed)).build

/-- The program rewritten and without unused gates. -/
def simplify (s : StoredProgram) : Except ProgramError StoredProgram :=
  s.simplifyGates.removeUnused

/-- For each gate, the position of the first gate kept in the same cell. -/
def representatives (s : StoredProgram) : List Nat :=
  s.cells.map (s.cells.idxOf ·)

end StoredProgram

end HalfGates
