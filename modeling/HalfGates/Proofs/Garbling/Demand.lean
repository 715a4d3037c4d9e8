import HalfGates.Proofs.Garbling.Joint
import HalfGates.Proofs.Program.Scopes

/-!
# What a gate demands

How many rows a gate takes, and so how long its payload has to be, follows from the scopes of the gate and
of its operands. Both parties look the operands up in a history that has these scopes.

## Main definitions

- `Operation.rows`, `Gate.rows`: the rows of an operation and of a gate
- `Gate.demand`, `Program.demand`: the bits of a payload
- `Gate.Fits.exists_operands`: the operands that a party finds
- `Program.countP_before_le`, `Program.countP_before_lt`: how many gates of some kind were met
-/

namespace HalfGates

theorem Scope.not_both_iff {s : Scope} : s ≠ .both ↔ (s.generator && s.evaluator) = false := by
  obtain ⟨generator, evaluator⟩ := s
  cases generator <;> cases evaluator <;> simp [both]

namespace Operation

/-- The number of rows of an operation of the given scope on operands of the given scopes. -/
def rows (scope : Scope) : Operation Scope → Nat
  | .conjunction _ _ _ x y =>
    if scope = .both then 0 else if x ≠ .neither ∨ y ≠ .neither then 1 else 2
  | _ => 0

theorem rows_both (op : Operation Scope) : op.rows .both = 0 := by
  cases op <;> rfl

/-- The rows of a conjunction that is not known to both parties, decided as the parties decide. -/
theorem rows_conjunction {scope x y : Scope} (p q n : Bool)
    (h : (scope.generator && scope.evaluator) = false) :
    (conjunction p q n x y).rows scope =
      if x.generator || y.generator then 1 else if x.evaluator || y.evaluator then 1 else 2 := by
  obtain ⟨xg, xe⟩ := x
  obtain ⟨yg, ye⟩ := y
  rw [rows, if_neg (Scope.not_both_iff.mpr h)]
  cases xg <;> cases xe <;> cases yg <;> cases ye <;> rfl

/-- What is found for an operand is found among the entries of the history. -/
theorem mem_of_mapM?_back? {α : Type} {held : List α} {op : Operation Nat} {found : Operation α}
    (h : op.mapM? (back? held) = some found) {a : α} (ha : a ∈ found.operands) : a ∈ held := by
  have hfound : op.map (back? held) = found.map some := map_of_mapM? h fun _ _ hd => hd
  have hmem : some a ∈ op.operands.map (back? held) :=
    operands_map_congr hfound ▸ List.mem_map_of_mem ha
  obtain ⟨d, -, hd⟩ := List.mem_map.mp hmem
  cases d with
  | zero => cases hd
  | succ d => exact List.mem_of_getElem? hd

end Operation

/-- The number of rows of a gate behind a history. -/
def Gate.rows (past : List Gate) (g : Gate) : Nat :=
  (g.op.map (scopeBack past)).rows g.scope

/-- The number of payload bits that a gate behind a history needs: its rows, and a bit if the evaluator is
to learn the value. -/
def Gate.demand (past : List Gate) (g : Gate) : Nat :=
  128 * g.rows past + g.scope.evaluator.toNat

/-- A party that holds as much as there are gates in a history finds the operands of a gate that fits, and
they have the scopes that they have in the history. -/
theorem Gate.Fits.exists_operands {α : Type} {scope : α → Scope} {held : List α} {past : List Gate}
    {g : Gate} (h : g.Fits past) (hscopes : held.map scope = past.map Gate.scope) :
    ∃ op, g.op.mapM? (back? held) = some op ∧ op.kind = g.kind ∧
      op.map scope = g.op.map (Gate.scopeBack past) ∧ ∀ a ∈ op.operands, a ∈ held := by
  have hlength : held.length = past.length := by simpa using congrArg List.length hscopes
  obtain ⟨op, hop⟩ : ∃ op, g.op.mapM? (back? held) = some op :=
    Operation.exists_mapM? fun d hd => exists_back? (hlength ▸ h.operands d hd)
  refine ⟨op, hop, Operation.kind_of_mapM? hop, ?_, fun a ha => Operation.mem_of_mapM?_back? hop ha⟩
  symm
  refine Operation.map_of_mapM? hop fun d a hd => ?_
  rw [Gate.scopeBack_eq_getD, ← hscopes, back?_map, hd]
  rfl

namespace Program

/-- The number of payload bits that the gate at a position needs. -/
def demand (p : Program) (i : Nat) : Nat :=
  (p.gates[i]?.map (Gate.demand (p.before i))).getD 0

variable {p : Program} {i : Nat} {g : Gate}

theorem demand_of_getElem? (h : p.gates[i]? = some g) : p.demand i = g.demand (p.before i) := by
  rw [demand, h]
  rfl

theorem countP_before_le (p : Program) (test : Gate → Bool) (i : Nat) :
    (p.before i).countP test ≤ p.gates.countP test := by
  rw [before, List.countP_reverse]
  exact (List.take_sublist i p.gates).countP_le

/-- Before a gate that passes the test, not all gates were met that do. -/
theorem countP_before_lt {test : Gate → Bool} (h : p.gates[i]? = some g) (hg : test g = true) :
    (p.before i).countP test < p.gates.countP test := by
  have hnext := p.countP_before_le test (i + 1)
  rw [before_succ h, List.countP_cons_of_pos hg] at hnext
  exact hnext

end Program

end HalfGates
