import HalfGates.Proofs.Constraint.Disclosure
import HalfGates.Proofs.Constraint.Satisfaction

/-!
# Systems that define a function

A system defines a function if every check is linear in its last variable, which is no input, and every
other variable is the last one of some check. A check that is a variable plus expressions in earlier
variables is linear in that variable.

## Main definitions

- `Expr.constant?_derivative_of_not_occurs`: an expression does not depend on a variable that it lacks
- `Expr.SolvedFor`: a variable plus expressions in earlier variables
- `ParitySystem.Defines`: a check that defines a variable
- `ParitySystem.exists_definitions_iff`: what makes a system define a function
-/

namespace HalfGates

namespace Expr

mutual

/-- The derivative by a variable that does not occur is found to be zero. -/
theorem constant?_derivative_of_not_occurs {v : Nat} :
    ∀ {e : Expr}, ¬ Occurs v e → constant? (derivative v e) = some false
  | .constant _, _ => rfl
  | .variable _, h => congrArg some (beq_eq_false_iff_ne.mpr h)
  | .sum _, h => constantSum_of_not_occursAny h
  | .product _, h => constantSum_products (constantProduct_of_not_occursAny h)

theorem constantSum_of_not_occursAny {v : Nat} :
    ∀ {es : List Expr}, ¬ OccursAny v es → constantSum (derivativeTerms v es) = some false
  | [], _ => rfl
  | e :: es, h => by
    have he : constant? (derivative v e) = some false :=
      constant?_derivative_of_not_occurs fun hoccurs => h (.inl hoccurs)
    have hes : constantSum (derivativeTerms v es) = some false :=
      constantSum_of_not_occursAny fun hoccurs => h (.inr hoccurs)
    rw [derivativeTerms, constantSum, he, hes]
    rfl

theorem constantProduct_of_not_occursAny {v : Nat} :
    ∀ {es : List Expr}, ¬ OccursAny v es → ∀ fs ∈ derivativeFactors v es, constantProduct fs = some false
  | [], _, _, hfs => by cases hfs
  | e :: es, h, fs, hfs => by
    rcases List.mem_cons.mp hfs with rfl | hfs
    · exact constantProduct_cons_false
        (constant?_derivative_of_not_occurs fun hoccurs => h (.inl hoccurs)) es
    · obtain ⟨gs, hgs, rfl⟩ := List.mem_map.mp hfs
      exact constantProduct_cons_of_false
        (constantProduct_of_not_occursAny (fun hoccurs => h (.inr hoccurs)) gs hgs) e

end

/-- A variable plus expressions that lack it is linear in the variable. -/
theorem gradient_variable_plus {v : Nat} {es : List Expr} (h : ¬ OccursAny v es) :
    ((Expr.sum (.variable v :: es)).derivative v).constant? = some true := by
  show knownXor (some (v == v)) (constantSum (derivativeTerms v es)) = some true
  rw [constantSum_of_not_occursAny h, beq_self_eq_true]
  rfl

/-- A variable plus expressions in earlier variables. -/
def SolvedFor (v : Nat) (e : Expr) : Prop :=
  ∃ es, e = .sum (.variable v :: es) ∧ BelowAll v es

namespace SolvedFor

variable {v : Nat} {e : Expr}

theorem isLast (h : SolvedFor v e) : e.IsLast v := by
  obtain ⟨es, rfl, hes⟩ := h
  refine ⟨.inl rfl, ?_⟩
  rintro w (rfl | hw)
  · exact Nat.le_refl v
  · exact Nat.le_of_lt (belowAll_iff_occursAny.mp hes w hw)

theorem gradient (h : SolvedFor v e) : (e.derivative v).constant? = some true := by
  obtain ⟨es, rfl, hes⟩ := h
  exact gradient_variable_plus fun hoccurs => Nat.lt_irrefl v (belowAll_iff_occursAny.mp hes v hoccurs)

end SolvedFor

end Expr

namespace ParitySystem

/-- A check that defines a variable: it is linear in it, and the variable is its last one and no input. -/
structure Defines (s : ParitySystem) (e : Expr) (v : Nat) : Prop where
  last : e.IsLast v
  gradient : (e.derivative v).constant? = some true
  inputs_le : s.inputs ≤ v
  lt_length : v < s.length

variable {s : ParitySystem} {check : Nat} {e : Expr}

theorem rule_eq_ok_iff_defines {r : Nat × Expr} :
    s.rule check e = .ok r ↔ s.Defines e r.1 ∧ r.2 = e.substitute r.1 false := by
  rw [rule_eq_ok_iff, Expr.maxVariable_eq_some_iff]
  constructor
  · rintro ⟨hlast, hgradient, hinputs, hlength, hrest⟩
    exact ⟨⟨hlast, hgradient, hinputs, hlength⟩, hrest⟩
  · rintro ⟨⟨hlast, hgradient, hinputs, hlength⟩, hrest⟩
    exact ⟨hlast, hgradient, hinputs, hlength, hrest⟩

theorem exists_rule_iff : (∃ r, s.rule check e = .ok r) ↔ ∃ v, s.Defines e v :=
  ⟨fun ⟨r, hr⟩ => ⟨r.1, (rule_eq_ok_iff_defines.mp hr).1⟩,
    fun ⟨v, hv⟩ => ⟨(v, e.substitute v false), rule_eq_ok_iff_defines.mpr ⟨hv, rfl⟩⟩⟩

theorem exists_rules_iff : (∃ rules, s.rules = .ok rules) ↔ ∀ e ∈ s.checks, ∃ v, s.Defines e v := by
  constructor
  · rintro ⟨rules, hrules⟩ e he
    obtain ⟨check, hcheck⟩ := List.getElem?_of_mem he
    obtain ⟨r, -, hrule⟩ := exists_rule hrules hcheck
    exact exists_rule_iff.mp ⟨r, hrule⟩
  · intro h
    exact exists_mapM fun entry hentry => exists_rule_iff.mpr (h entry.1 (List.fst_mem_of_mem_zipIdx hentry))

theorem exists_lastRule {rules : List (Nat × Expr)} {r : Nat × Expr} (h : r ∈ rules) :
    ∃ d, lastRule rules r.1 = .ok d := by
  unfold lastRule
  cases hfind : rules.reverse.find? fun r' => r'.1 == r.1 with
  | some r' => exact ⟨r'.2, rfl⟩
  | none =>
    have hnone := List.find?_eq_none.mp hfind r (List.mem_reverse.mpr h)
    exact absurd (beq_self_eq_true r.1) hnone

/-- There is a rule for the last variable of each check, and for no others. -/
theorem exists_lastRule_iff {rules : List (Nat × Expr)} (h : s.rules = .ok rules) {v : Nat} :
    (∃ d, lastRule rules v = .ok d) ↔ ∃ e ∈ s.checks, e.IsLast v := by
  constructor
  · rintro ⟨d, hd⟩
    obtain ⟨i, hi⟩ := List.getElem?_of_mem (lastRule_eq_ok hd)
    obtain ⟨entry, hentry, hrule⟩ := getElem?_of_mapM h hi
    exact ⟨entry.1, List.fst_mem_of_mem_zipIdx (List.mem_of_getElem? hentry),
      (rule_eq_ok_iff_defines.mp hrule).1.last⟩
  · rintro ⟨e, he, hlast⟩
    obtain ⟨check, hcheck⟩ := List.getElem?_of_mem he
    obtain ⟨r, hr, hrule⟩ := exists_rule h hcheck
    have hmax := (rule_eq_ok_iff.mp hrule).1
    obtain rfl : r.1 = v := Option.some.inj (hmax.symm.trans (Expr.maxVariable_eq_some_iff.mpr hlast))
    exact exists_lastRule (List.mem_of_getElem? hr)

/-- What makes a system define a function. -/
theorem exists_definitions_iff :
    (∃ definitions, s.definitions = .ok definitions) ↔ (∀ e ∈ s.checks, ∃ v, s.Defines e v) ∧
      ∀ v, s.inputs ≤ v → v < s.length → ∃ e ∈ s.checks, e.IsLast v := by
  constructor
  · rintro ⟨definitions, h⟩
    obtain ⟨rules, hrules, hdefinitions⟩ := bind_eq_ok.mp h
    refine ⟨exists_rules_iff.mp ⟨rules, hrules⟩, fun v hinputs hlength => ?_⟩
    obtain ⟨i, rfl⟩ := Nat.exists_eq_add_of_le hinputs
    have hi : i < definitions.length := by
      rw [(definitions_below h).1]
      rw [length] at hlength
      omega
    obtain ⟨v, hv, hlast⟩ := getElem?_of_mapM hdefinitions (List.getElem?_eq_getElem hi)
    obtain ⟨rfl, -⟩ := getElem?_definedVariables.mp hv
    exact (exists_lastRule_iff hrules).mp ⟨_, hlast⟩
  · rintro ⟨hsound, hdefined⟩
    obtain ⟨rules, hrules⟩ := exists_rules_iff.mpr hsound
    obtain ⟨definitions, hdefinitions⟩ : ∃ definitions, s.definedVariables.mapM (lastRule rules) =
        .ok definitions := by
      refine exists_mapM fun v hv => ?_
      obtain ⟨i, hi⟩ := List.getElem?_of_mem hv
      obtain ⟨rfl, hlength⟩ := getElem?_definedVariables.mp hi
      exact (exists_lastRule_iff hrules).mpr (hdefined (s.inputs + i) (Nat.le_add_right _ _) hlength)
    exact ⟨definitions, bind_eq_ok.mpr ⟨rules, hrules, hdefinitions⟩⟩

end ParitySystem

end HalfGates
