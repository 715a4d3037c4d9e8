import HalfGates.Proofs.Constraint.Definable

/-!
# Why a system does not define a function

A check offends if it has no last variable, is not linear in it, or may not define it. A system is refused for
its first check that offends or, if none does, for the first variable that no check defines. Lowering and solving
refuse a system for this reason only.

## Main definitions

- `ParitySystem.Offends`: what is wrong with a check
- `ParitySystem.Faulty`: what is wrong with a system
- `ParitySystem.definitions_eq_error_iff`: a system is refused for what is wrong with it
- `ParitySystem.lower_outcome`: when a system is lowered, and what it is refused for
-/

namespace HalfGates

namespace ParitySystem

/-! ### Checks -/

/-- What is wrong with a check. -/
inductive Offends (s : ParitySystem) (check : Nat) (e : Expr) : DefinitionError → Prop
  | constant (h : ∀ v, ¬ e.Occurs v) : s.Offends check e (.constantConstraint check)
  | nonLinear {v : Nat} (last : e.IsLast v) (gradient : (e.derivative v).constant? = none) :
    s.Offends check e (.nonLinearGradient check v)
  | zero {v : Nat} (last : e.IsLast v) (gradient : (e.derivative v).constant? = some false) :
    s.Offends check e (.zeroGradient check v)
  | input {v : Nat} (last : e.IsLast v) (gradient : (e.derivative v).constant? = some true)
    (lt_inputs : v < s.inputs) : s.Offends check e (.constrainedInput check v)
  | outOfRange {v : Nat} (last : e.IsLast v) (gradient : (e.derivative v).constant? = some true)
    (inputs_le : s.inputs ≤ v) (length_le : s.length ≤ v) :
    s.Offends check e (.variableOutOfRange check v s.length)

variable {s : ParitySystem} {check : Nat} {e : Expr} {err : DefinitionError}

theorem rule_eq_error_iff : s.rule check e = .error err ↔ s.Offends check e err := by
  constructor
  · intro h
    unfold rule at h
    split at h
    · next hmax =>
      cases h
      exact .constant (Expr.maxVariable_eq_none_iff.mp hmax)
    · next v hmax =>
      have hlast := Expr.maxVariable_eq_some_iff.mp hmax
      split at h
      · next hgradient =>
        cases h
        exact .nonLinear hlast hgradient
      · next hgradient =>
        cases h
        exact .zero hlast hgradient
      · next hgradient =>
        split at h
        · next hinput =>
          cases h
          exact .input hlast hgradient hinput
        · next hinput =>
          split at h
          · next hlength =>
            cases h
            exact .outOfRange hlast hgradient (Nat.not_lt.mp hinput) hlength
          · cases h
  · intro h
    cases h with
    | constant hnone => rw [rule, Expr.maxVariable_eq_none_iff.mpr hnone]
    | nonLinear hlast hgradient => simp only [rule, Expr.maxVariable_eq_some_iff.mpr hlast, hgradient]
    | zero hlast hgradient => simp only [rule, Expr.maxVariable_eq_some_iff.mpr hlast, hgradient]
    | input hlast hgradient hinput =>
      simp only [rule, Expr.maxVariable_eq_some_iff.mpr hlast, hgradient, if_pos hinput]
    | outOfRange hlast hgradient hinput hlength =>
      simp only [rule, Expr.maxVariable_eq_some_iff.mpr hlast, hgradient, if_neg (Nat.not_lt.mpr hinput),
        if_pos hlength]

/-- The rules are refused for the first check that offends. -/
theorem rules_eq_error_iff :
    s.rules = .error err ↔ ∃ (i : Nat) (e : Expr), s.checks[i]? = some e ∧ s.Offends i e err ∧
      ∀ k < i, ∀ d, s.checks[k]? = some d → ∃ v, s.Defines d v := by
  have hentry : ∀ (i : Nat) (x : Expr × Nat), s.checks.zipIdx[i]? = some x ↔
      ∃ e, s.checks[i]? = some e ∧ (e, i) = x := by
    intro i x
    rw [List.getElem?_zipIdx, Option.map_eq_some_iff, Nat.zero_add]
  rw [rules, mapM_eq_error_iff]
  constructor
  · rintro ⟨i, x, hx, hfails, hbefore⟩
    obtain ⟨e, he, rfl⟩ := (hentry i x).mp hx
    exact ⟨i, e, he, rule_eq_error_iff.mp hfails, fun k hk d hd =>
      exists_rule_iff.mp (hbefore k hk (d, k) ((hentry k (d, k)).mpr ⟨d, hd, rfl⟩))⟩
  · rintro ⟨i, e, he, hoffends, hbefore⟩
    refine ⟨i, (e, i), (hentry i (e, i)).mpr ⟨e, he, rfl⟩, rule_eq_error_iff.mpr hoffends,
      fun k hk x hx => ?_⟩
    obtain ⟨d, hd, rfl⟩ := (hentry k x).mp hx
    exact exists_rule_iff.mpr (hbefore k hk d hd)

/-! ### Systems -/

/-- What is wrong with a system: its first check that offends, or else the first variable that no check defines. -/
inductive Faulty (s : ParitySystem) : DefinitionError → Prop
  | check {i : Nat} {e : Expr} {err : DefinitionError} (at_check : s.checks[i]? = some e)
    (offends : s.Offends i e err) (first : ∀ k < i, ∀ d, s.checks[k]? = some d → ∃ v, s.Defines d v) :
    s.Faulty err
  | gap {v : Nat} (sound : ∀ e ∈ s.checks, ∃ w, s.Defines e w) (inputs_le : s.inputs ≤ v)
    (lt_length : v < s.length) (undefined : ∀ e ∈ s.checks, ¬ e.IsLast v)
    (first : ∀ w, s.inputs ≤ w → w < v → ∃ e ∈ s.checks, e.IsLast w) : s.Faulty (.gap v)

theorem lastRule_eq_error {rules : List (Nat × Expr)} {v : Nat} (h : lastRule rules v = .error err) :
    err = .gap v := by
  unfold lastRule at h
  split at h
  · cases h
  · cases h
    rfl

theorem lastRule_eq_error_iff {rules : List (Nat × Expr)} (hrules : s.rules = .ok rules) {v : Nat} :
    lastRule rules v = .error err ↔ err = .gap v ∧ ∀ e ∈ s.checks, ¬ e.IsLast v := by
  constructor
  · intro h
    refine ⟨lastRule_eq_error h, fun e he hlast => ?_⟩
    obtain ⟨d, hd⟩ := (exists_lastRule_iff hrules).mpr ⟨e, he, hlast⟩
    rw [hd] at h
    cases h
  · rintro ⟨rfl, hnone⟩
    cases hlast : lastRule rules v with
    | ok d =>
      obtain ⟨e, he, h⟩ := (exists_lastRule_iff hrules).mp ⟨d, hlast⟩
      exact absurd h (hnone e he)
    | error e => rw [lastRule_eq_error hlast]

theorem definitions_eq_error_iff : s.definitions = .error err ↔ s.Faulty err := by
  rw [definitions, bind_eq_error]
  constructor
  · rintro (hrules | ⟨rules, hrules, hgap⟩)
    · obtain ⟨i, e, he, hoffends, hfirst⟩ := rules_eq_error_iff.mp hrules
      exact .check he hoffends hfirst
    · obtain ⟨k, v, hv, hlast, hbefore⟩ := mapM_eq_error_iff.mp hgap
      obtain ⟨rfl, hnone⟩ := (lastRule_eq_error_iff hrules).mp hlast
      obtain ⟨rfl, hlength⟩ := getElem?_definedVariables.mp hv
      refine .gap (exists_rules_iff.mp ⟨rules, hrules⟩) (Nat.le_add_right _ _) hlength hnone
        fun w hinputs hw => ?_
      obtain ⟨j, rfl⟩ := Nat.exists_eq_add_of_le hinputs
      exact (exists_lastRule_iff hrules).mp (hbefore j (Nat.lt_of_add_lt_add_left hw) _
        (getElem?_definedVariables.mpr ⟨rfl, Nat.lt_trans hw hlength⟩))
  · intro h
    cases h with
    | check he hoffends hfirst => exact .inl (rules_eq_error_iff.mpr ⟨_, _, he, hoffends, hfirst⟩)
    | gap hsound hinputs hlength hnone hfirst =>
      obtain ⟨rules, hrules⟩ := exists_rules_iff.mpr hsound
      obtain ⟨i, rfl⟩ := Nat.exists_eq_add_of_le hinputs
      refine .inr ⟨rules, hrules, mapM_eq_error_iff.mpr ⟨i, s.inputs + i,
        getElem?_definedVariables.mpr ⟨rfl, hlength⟩, (lastRule_eq_error_iff hrules).mpr ⟨rfl, hnone⟩,
        fun k hk w hw => ?_⟩⟩
      obtain ⟨rfl, -⟩ := getElem?_definedVariables.mp hw
      exact (exists_lastRule_iff hrules).mpr
        (hfirst (s.inputs + k) (Nat.le_add_right _ _) (Nat.add_lt_add_left hk _))

/-! ### Lowering and solving -/

/-- Lowering succeeds where the definitions do, and is refused for the same reason otherwise. -/
theorem lower_as_definitions (s : ParitySystem) (options : LoweringOptions) :
    ((∃ l, s.lower options = .ok l) ↔ ∃ definitions, s.definitions = .ok definitions) ∧
      ∀ err, s.lower options = .error err ↔ ∃ e, err = .undefined e ∧ s.definitions = .error e :=
  same_outcome (fun _ h => (exists_lowered h options).imp fun _ => And.left) fun e h => by rw [lower, h]

theorem solve_as_definitions (s : ParitySystem) {bits : List Bool} (hbits : s.inputs ≤ bits.length) :
    ((∃ a, s.solve bits = .ok a) ↔ ∃ definitions, s.definitions = .ok definitions) ∧
      ∀ err, s.solve bits = .error err ↔ ∃ e, err = .undefined e ∧ s.definitions = .error e :=
  same_outcome (fun _ h => (exists_solve h hbits).imp fun _ => And.left) fun e h => by rw [solve, h]

theorem lowered_of_lower {options : LoweringOptions} {l : Lowering} (hl : s.lower options = .ok l) :
    Lowered s options l := by
  obtain ⟨definitions, h⟩ := (lower_as_definitions s options).1.mp ⟨l, hl⟩
  obtain ⟨l', hl', hlowered⟩ := exists_lowered h options
  obtain rfl : l' = l := Except.ok.inj (hl'.symm.trans hl)
  exact hlowered

/-- A system is lowered exactly if it defines a function, and then every variable has a gate of a well-formed
program. Otherwise it is refused for the reason that the definitions are refused for, and so is solving it on
enough bits; no gate is ever refused. It defines a function exactly if every check defines its last variable and
every variable that is no input is the last one of some check, and is refused for what is wrong with it. -/
theorem lower_outcome (s : ParitySystem) (options : LoweringOptions) :
    ((∃ l, s.lower options = .ok l) ↔ ∃ definitions, s.definitions = .ok definitions) ∧
    (∀ err, s.lower options = .error err ↔ ∃ e, err = .undefined e ∧ s.definitions = .error e) ∧
    (∀ l, s.lower options = .ok l → l.program.WellFormed ∧ l.variables.length = s.length) ∧
    (∀ e, s.lower options ≠ .error (.program e)) ∧
    (∀ bits : List Bool, s.inputs ≤ bits.length →
      ((∃ a, s.solve bits = .ok a) ↔ ∃ definitions, s.definitions = .ok definitions) ∧
        ∀ err, s.solve bits = .error err ↔ ∃ e, err = .undefined e ∧ s.definitions = .error e) ∧
    ((∃ definitions, s.definitions = .ok definitions) ↔ (∀ e ∈ s.checks, ∃ v, s.Defines e v) ∧
      ∀ v, s.inputs ≤ v → v < s.length → ∃ e ∈ s.checks, e.IsLast v) ∧
    ∀ err, s.definitions = .error err ↔ s.Faulty err := by
  obtain ⟨hok, herror⟩ := lower_as_definitions s options
  refine ⟨hok, herror, fun l hl => ?_, fun e hl => ?_, fun bits hbits => solve_as_definitions s hbits,
    exists_definitions_iff, fun err => definitions_eq_error_iff⟩
  · exact ⟨(lowered_of_lower hl).wellFormed, (lowered_of_lower hl).length⟩
  · obtain ⟨_, hundefined, -⟩ := (herror _).mp hl
    cases hundefined

theorem lower_outcome_gap :
    ∃ s : ParitySystem, s = ⟨1, 1, 1, [.variable 2 + .variable 0]⟩ ∧ s.Faulty (.gap 1) ∧
      s.lower ⟨fun _ => .neither, fun _ => false⟩ = .error (.undefined (.gap 1)) ∧
      s.solve [true] = .error (.undefined (.gap 1)) := by
  refine ⟨_, rfl, ?_⟩
  obtain ⟨-, hlower, -, -, hsolve, -, hfaulty⟩ := lower_outcome ⟨1, 1, 1, [.variable 2 + .variable 0]⟩
    ⟨fun _ => .neither, fun _ => false⟩
  have hgap : (ParitySystem.mk 1 1 1 [.variable 2 + .variable 0]).definitions = .error (.gap 1) := rfl
  exact ⟨(hfaulty _).mp hgap, (hlower _).mpr ⟨_, rfl, hgap⟩,
    ((hsolve [true] (Nat.le_refl 1)).2 _).mpr ⟨_, rfl, hgap⟩⟩

end ParitySystem

end HalfGates
