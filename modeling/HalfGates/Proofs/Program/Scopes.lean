import HalfGates.Proofs.Program.Liveness
import HalfGates.Proofs.Program.Rewriting

/-!
# Scopes at positions

What holds throughout the history of a program holds at every position with the gates before it, and the
scope of an operand is the scope at its position. Simplification takes a scope from no position.

## Main definitions

- `Program.before`, `Program.scopeAt`: the history that a gate reads, and the scope at a position
- `Program.throughout_iff`: from histories to positions
- `Scope.interAll`, `Gate.floor_eq`: the parties that know all operands
- `Program.WellFormed.scopeAt_live`: scopes of the live gates
-/

namespace HalfGates

theorem throughout_iff_back? {α : Type} {P : List α → α → Prop} {past : List α} :
    Throughout P past ↔ ∀ (d : Nat) (a : α), back? past d = some a → P (past.drop d) a := by
  constructor
  · intro h d a ha
    exact h.of_back? ha
  · intro h
    induction past with
    | nil => trivial
    | cons newest past ih =>
      refine ⟨h 1 newest rfl, ih fun d a ha => ?_⟩
      exact h (d + 1) a ((back?_cons newest past (bounds_of_back? ha).1).trans ha)

theorem take_append_cons_drop {α : Type} {xs : List α} {i : Nat} {a : α} (h : xs[i]? = some a) :
    xs.take i ++ a :: xs.drop (i + 1) = xs := by
  obtain ⟨hi, rfl⟩ := List.getElem?_eq_some_iff.mp h
  rw [← List.drop_eq_getElem_cons hi, List.take_append_drop]

namespace Scope

/-- The parties in all of the scopes. -/
def interAll (scopes : List Scope) : Scope :=
  scopes.foldr inter both

@[simp] theorem inter_both (s : Scope) : s.inter both = s := by
  simp [inter, both]

end Scope

/-- The parties that know all operands are those in the scopes of all of them, but nobody for a source. -/
theorem Gate.floor_eq (past : List Gate) (op : Operation Nat) :
    floor past op = if op.kind.isSource then .neither
      else .interAll (op.operands.map (scopeBack past)) := by
  cases op <;> simp [floor, Operation.map, Operation.floor, Operation.kind, Operation.operands,
    GateKind.isSource, Scope.interAll]

namespace Program

/-- The gates before a position, the newest first. -/
def before (p : Program) (i : Nat) : List Gate :=
  (p.gates.take i).reverse

/-- The scope of the gate at a position; nobody is in it if there is no gate. -/
def scopeAt (p : Program) (i : Nat) : Scope :=
  (p.gates.map Gate.scope)[i]?.getD .neither

/-- The gates before a position, found in the history of all gates. -/
theorem drop_reverse_gates (p : Program) (i : Nat) :
    p.gates.reverse.drop (p.gates.length - i) = p.before i := by
  rw [before, List.reverse_take]

theorem throughout_iff {p : Program} {P : List Gate → Gate → Prop} :
    Throughout P p.gates.reverse ↔
      ∀ (i : Nat) (g : Gate), p.gates[i]? = some g → P (p.before i) g := by
  rw [throughout_iff_back?]
  constructor
  · intro h i g hg
    rw [← drop_reverse_gates]
    exact h _ g ((back?_reverse p.gates i).trans hg)
  · intro h d g hg
    obtain ⟨hpos, hle⟩ := bounds_of_back? hg
    rw [List.length_reverse] at hle
    -- the offset is that of the position counted from the first gate
    rw [← Nat.sub_sub_self hle] at hg ⊢
    rw [drop_reverse_gates]
    exact h _ g ((back?_reverse p.gates _).symm.trans hg)

theorem length_before {p : Program} {i : Nat} (hi : i ≤ p.length) : (p.before i).length = i := by
  rw [before, List.length_reverse]
  exact List.length_take_of_le hi

theorem before_succ {p : Program} {i : Nat} {g : Gate} (h : p.gates[i]? = some g) :
    p.before (i + 1) = g :: p.before i := by
  rw [before, List.take_add_one, h, Option.toList_some, List.reverse_append]
  rfl

theorem before_length (p : Program) : p.before p.length = p.gates.reverse := by
  rw [before, length, List.take_length]

/-- An operand is the gate at its position. -/
theorem back?_before {p : Program} {i d : Nat} (hi : i ≤ p.length) (hd : 0 < d ∧ d ≤ i) :
    back? (p.before i) d = p.gates[i - d]? := by
  have hlength : (p.gates.take i).length = i := List.length_take_of_le hi
  have hback := back?_reverse (p.gates.take i) (i - d)
  rwa [hlength, Nat.sub_sub_self hd.2, List.getElem?_take_of_lt (by omega)] at hback

/-- An operand has the scope at its position. -/
theorem scopeBack_before {p : Program} {i d : Nat} (hi : i ≤ p.length) (hd : 0 < d ∧ d ≤ i) :
    Gate.scopeBack (p.before i) d = p.scopeAt (i - d) := by
  rw [Gate.scopeBack_eq_getD, back?_map, back?_before hi hd, scopeAt, List.getElem?_map]

/-- The scope at a position, found in the history of all gates. -/
theorem scopeBack_reverse (p : Program) (i : Nat) :
    Gate.scopeBack p.gates.reverse (p.length - i) = p.scopeAt i := by
  rw [Gate.scopeBack_eq_getD, back?_map, length, back?_reverse, scopeAt, List.getElem?_map]

theorem revealed_eq (p : Program) (i : Nat) : p.revealed i = (p.scopeAt i).evaluator := by
  rw [revealed, scopeAt, List.getElem?_map]
  cases p.gates[i]? <;> rfl

/-- The operands of a gate of a well-formed program, looked up at their positions. -/
theorem WellFormed.map_scopeBack {p : Program} (h : p.WellFormed) {i : Nat} {g : Gate}
    (hg : p.gates[i]? = some g) :
    g.op.map (Gate.scopeBack (p.before i)) = g.op.map fun d => p.scopeAt (i - d) := by
  obtain ⟨hlt, -⟩ := List.getElem?_eq_some_iff.mp hg
  have hi : i ≤ p.length := Nat.le_of_lt hlt
  refine Operation.map_congr fun d hd => scopeBack_before hi ?_
  have hbounds := (throughout_iff.mp h.gates i g hg).operands d hd
  rwa [length_before hi] at hbounds

/-! ### Scopes after simplification -/

theorem contains_scopeAt_simplifyGates (p : Program) (i : Nat) :
    (p.simplifyGates.scopeAt i).contains (p.scopeAt i) = true := by
  rw [← scopeBack_reverse, ← scopeBack_reverse, length_simplifyGates, reverse_simplifyGates]
  exact Rewriting.contains_scopeBack_rewritten p.gates.reverse _

theorem map_scope_live (p : Program) :
    p.live.gates.map Gate.scope = keep p.liveMask.reverse (p.gates.map Gate.scope) := by
  rw [live, List.map_reverse, Liveness.map_scope_kept, List.map_reverse, reverse_keep,
    List.reverse_reverse]
  simp [length]

/-- An output has the same scope among the live gates. -/
theorem WellFormed.scopeAt_live {p : Program} (h : p.WellFormed) {i : Nat} (hi : i ∈ p.outputs) :
    p.live.scopeAt (Liveness.position p.liveMask i) = p.scopeAt i := by
  rw [scopeAt, map_scope_live, h.getElem?_position hi, scopeAt]

end Program

end HalfGates
