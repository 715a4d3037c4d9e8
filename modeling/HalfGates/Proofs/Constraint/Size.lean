import Mathlib.Algebra.Order.BigOperators.Group.List
import Mathlib.Algebra.Order.Ring.Nat
import HalfGates.Proofs.Constraint.Disclosure
import HalfGates.Proofs.Constraint.Satisfaction

/-!
# How many gates a system takes

A lowered program has one gate for each input and those of the definitions, whose number shows in the form of
an expression.

## Main definitions

- `Expr.gateCount`: the number of gates of an expression
- `ParitySystem.length_lower`, `ParitySystem.length_lower_le`: the number of gates of a system
-/

namespace HalfGates

namespace Expr

mutual

/-- The number of gates that compute an expression. -/
def gateCount : Expr → Nat
  | .constant _ => 1
  | .variable _ => 1
  | .sum terms => gateCounts terms + max 1 (terms.length - 1)
  | .product factors => gateCounts factors + max 1 (factors.length - 1)

/-- The number of gates that compute each of the expressions. -/
def gateCounts : List Expr → Nat
  | [] => 0
  | e :: es => gateCount e + gateCounts es

end

theorem length_substituteAll (v : Nat) (b : Bool) (es : List Expr) :
    (substituteAll v b es).length = es.length := by
  induction es with
  | nil => rfl
  | cons e es ih => rw [substituteAll, List.length_cons, List.length_cons, ih]

mutual

theorem gateCount_substitute (v : Nat) (b : Bool) : ∀ e : Expr, gateCount (substitute v b e) = gateCount e
  | .constant _ => rfl
  | .variable i => by
    unfold substitute
    split <;> rfl
  | .sum terms => by
    rw [substitute, gateCount, gateCount, gateCounts_substituteAll v b terms, length_substituteAll]
  | .product factors => by
    rw [substitute, gateCount, gateCount, gateCounts_substituteAll v b factors, length_substituteAll]

theorem gateCounts_substituteAll (v : Nat) (b : Bool) :
    ∀ es : List Expr, gateCounts (substituteAll v b es) = gateCounts es
  | [] => rfl
  | e :: es => by
    rw [substituteAll, gateCounts, gateCounts, gateCount_substitute v b e, gateCounts_substituteAll v b es]

end

end Expr

namespace Lowering

variable {scope : Scope} {b b' : Builder} {position : Nat}

theorem length_emit {kind : GateKind} {offsets : List Nat}
    (h : emit b ⟨kind, scope, offsets⟩ = .ok (position, b')) : b'.past.length = b.past.length + 1 := by
  obtain ⟨op, -, -, -, -, hpast⟩ := emit_eq_ok h
  rw [hpast, List.length_cons]

theorem length_emitConstant {value : Bool} (h : emitConstant b value = .ok (position, b')) :
    b'.past.length = b.past.length + 1 := by
  have hemit : emit b ⟨.constant value, .both, []⟩ = .ok (position, b') := h
  exact length_emit hemit

theorem length_emitRest {kind : GateKind} {last : Nat} {positions : List Nat}
    (h : emitRest kind scope last b positions = .ok (position, b')) :
    b'.past.length = b.past.length + positions.length := by
  induction positions generalizing b last with
  | nil =>
    cases h
    rfl
  | cons i positions ih =>
    obtain ⟨⟨next, c⟩, hemit, hrest⟩ := bind_eq_ok.mp h
    have hone := length_emit hemit
    have hlength : b'.past.length = c.past.length + positions.length := ih hrest
    rw [hlength, hone, List.length_cons]
    omega

theorem length_emitChain {unit : Bool} {kind : GateKind} {positions : List Nat}
    (h : emitChain unit kind scope b positions = .ok (position, b')) :
    b'.past.length = b.past.length + max 1 (positions.length - 1) := by
  match positions with
  | [] => exact length_emitConstant h
  | [only] => exact length_emit h
  | first :: second :: positions =>
    obtain ⟨⟨last, c⟩, hemit, hrest⟩ := bind_eq_ok.mp h
    have hone := length_emit hemit
    have hlength : b'.past.length = c.past.length + positions.length := length_emitRest hrest
    rw [hlength, hone, List.length_cons, List.length_cons]
    omega

mutual

/-- An expression takes as many gates as its form says. -/
theorem length_emitExpr {places : List Nat} :
    ∀ {e : Expr} {b : Builder} {position : Nat} {b' : Builder},
      emitExpr places scope b e = .ok (position, b') → b'.past.length = b.past.length + e.gateCount
  | .constant _, _, _, _, h => length_emitConstant h
  | .variable v, _, _, _, h => by
    unfold emitExpr at h
    split at h
    · exact length_emit h
    · cases h
  | .sum _, _, _, _, h => by
    obtain ⟨⟨positions, c⟩, hexprs, hchain⟩ := bind_eq_ok.mp h
    obtain ⟨hcount, hlength⟩ := length_emitExprs hexprs
    have hlast : _ = c.past.length + max 1 (positions.length - 1) := length_emitChain hchain
    rw [hlast, hlength, hcount, Expr.gateCount, Nat.add_assoc]
  | .product _, _, _, _, h => by
    obtain ⟨⟨positions, c⟩, hexprs, hchain⟩ := bind_eq_ok.mp h
    obtain ⟨hcount, hlength⟩ := length_emitExprs hexprs
    have hlast : _ = c.past.length + max 1 (positions.length - 1) := length_emitChain hchain
    rw [hlast, hlength, hcount, Expr.gateCount, Nat.add_assoc]

theorem length_emitExprs {places : List Nat} :
    ∀ {es : List Expr} {b : Builder} {positions : List Nat} {b' : Builder},
      emitExprs places scope b es = .ok (positions, b') →
      positions.length = es.length ∧ b'.past.length = b.past.length + Expr.gateCounts es
  | [], _, _, _, h => by
    cases h
    exact ⟨rfl, rfl⟩
  | e :: es, b, _, _, h => by
    obtain ⟨⟨position, c⟩, hexpr, h⟩ := bind_eq_ok.mp h
    obtain ⟨⟨rest, c'⟩, hexprs, h⟩ := bind_eq_ok.mp h
    cases h
    have hfirst : c.past.length = b.past.length + e.gateCount := length_emitExpr hexpr
    obtain ⟨hcount, hlength⟩ := length_emitExprs hexprs
    refine ⟨by rw [List.length_cons, List.length_cons, hcount], ?_⟩
    rw [hlength, hfirst, Expr.gateCounts, Nat.add_assoc]

end

theorem length_emitDefinitions {options : LoweringOptions} {definitions : List Expr}
    {state state' : LoweringState} (h : definitions.foldlM (emitDefinition options) state = .ok state') :
    state'.builder.past.length = state.builder.past.length + (definitions.map Expr.gateCount).sum := by
  induction definitions generalizing state with
  | nil =>
    cases h
    rfl
  | cons d definitions ih =>
    rw [List.foldlM_cons] at h
    obtain ⟨next, hnext, h⟩ := bind_eq_ok.mp h
    obtain ⟨⟨position, b⟩, hexpr, hstate⟩ := bind_eq_ok.mp hnext
    cases hstate
    have hfirst : b.past.length = state.builder.past.length + d.gateCount := length_emitExpr hexpr
    have hlength := ih h
    rw [hlength, List.map_cons, List.sum_cons, ← Nat.add_assoc, ← hfirst]

end Lowering

namespace ParitySystem

variable {s : ParitySystem} {options : LoweringOptions} {definitions : List Expr} {l : Lowering}

/-- The program of a system has a gate for each input and the gates of the definitions. -/
theorem length_lower (h : s.definitions = .ok definitions) (hl : s.lower options = .ok l) :
    l.program.length = s.inputs + (definitions.map Expr.gateCount).sum := by
  obtain ⟨state, hrun, hgates, -⟩ := run_of_lower h hl
  have hlength := Lowering.length_emitDefinitions hrun
  rw [← hgates, List.length_reverse, Lowering.length_inputHistory] at hlength
  exact hlength

/-- The size of the checks bounds that of the program. -/
theorem length_lower_le (h : s.definitions = .ok definitions) (hl : s.lower options = .ok l) {bound : Nat}
    (hchecks : ∀ e ∈ s.checks, e.gateCount ≤ bound) :
    l.program.length ≤ s.inputs + (s.auxiliaries + s.outputs) * bound := by
  have hbound : ∀ n ∈ definitions.map Expr.gateCount, n ≤ bound := by
    intro n hn
    obtain ⟨d, hd, rfl⟩ := List.mem_map.mp hn
    obtain ⟨i, hi⟩ := List.getElem?_of_mem hd
    obtain ⟨check, e, he, -, -, rfl⟩ := exists_check_of_definition h hi
    rw [Expr.gateCount_substitute]
    exact hchecks e (List.mem_of_getElem? he)
  have hsum := List.sum_le_card_nsmul _ bound hbound
  rw [List.length_map, (definitions_below h).1, Nat.nsmul_eq_mul] at hsum
  rw [length_lower h hl]
  exact Nat.add_le_add_left hsum s.inputs

end ParitySystem

end HalfGates
