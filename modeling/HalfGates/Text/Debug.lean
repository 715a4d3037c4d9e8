import HalfGates.Garbling.Circuit
import HalfGates.Label.Codebook
import HalfGates.Program.View

/-!
# Texts for inspection

The texts in which gates, programs and garbled circuits are shown, on one line each. Of garbled circuits
and codebooks only the sizes are shown.
-/

namespace HalfGates.Debug

/-- A list in brackets. -/
def list (items : List String) : String :=
  "[" ++ String.intercalate ", " items ++ "]"

/-- A record: its name and its fields with their names, in braces. -/
def fields (name : String) (entries : List (String × String)) : String :=
  name ++ " \x7b " ++
    String.intercalate ", " (entries.map fun (key, value) => key ++ ": " ++ value) ++ " \x7d"

/-- The text of a gate record. -/
def gateRecord (r : GateRecord) : String :=
  fields "GateData" [("kind", r.kind.name), ("scope", r.scope.name),
    ("offsets", list (r.offsets.map toString))]

/-- The text of a gate view. The number of a part is shown if it is not zero. -/
def gateView (v : GateView) : String :=
  let part := if v.part = 0 then [] else [("sub_index", toString v.part)]
  fields "Gate" ([("index", toString v.index)] ++ part ++ [("data", gateRecord v.record)])

/-- The text of a program. -/
def program (p : Program) : String :=
  fields "Program" [("gates", list (p.gates.map fun g => gateRecord g.record)),
    ("output_indices", list (p.outputs.map toString))]

/-- The text of a garbled circuit. -/
def garbledCircuit (c : GarbledCircuit) : String :=
  fields "GarbledCircuit" [("gates", toString c.program.length),
    ("bits", toString (GarbledCircuit.bitLength c.tables))]

/-- The text of a codebook. -/
def codebook (c : Codebook) : String :=
  fields "LabelEncoder" [("inputs", toString c.inputZeros.length),
    ("outputs", toString c.outputZeros.length)]

end HalfGates.Debug
