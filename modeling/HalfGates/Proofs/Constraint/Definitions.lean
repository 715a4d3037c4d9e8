import HalfGates.Constraint.System
import HalfGates.Proofs.Sequencing

/-!
# Definitions only look back

The expression that defines a variable mentions earlier variables only, so that solving a system from its
inputs never misses a value.

## Main definitions

- `Expr.Below`: every variable of an expression is before a number
- `Expr.Occurs`, `Expr.IsLast`: the variables of an expression, and the last of them
- `Expr.exists_evaluate`: an expression has a value where all of its variables have one
- `ParitySystem.definitions_below`: a definition mentions earlier variables only
-/

namespace HalfGates

namespace Expr

mutual

/-- Every variable that occurs is before `n`. -/
def Below (n : Nat) : Expr → Prop
  | .constant _ => True
  | .variable i => i < n
  | .sum terms => BelowAll n terms
  | .product factors => BelowAll n factors

/-- Every variable that occurs in any of the expressions is before `n`. -/
def BelowAll (n : Nat) : List Expr → Prop
  | [] => True
  | e :: es => Below n e ∧ BelowAll n es

end

mutual

/-- Whether a variable occurs. -/
def Occurs (v : Nat) : Expr → Prop
  | .constant _ => False
  | .variable i => i = v
  | .sum terms => OccursAny v terms
  | .product factors => OccursAny v factors

/-- Whether a variable occurs in any of the expressions. -/
def OccursAny (v : Nat) : List Expr → Prop
  | [] => False
  | e :: es => Occurs v e ∨ OccursAny v es

end

mutual

theorem below_iff_occurs {n : Nat} : ∀ {e : Expr}, Below n e ↔ ∀ v, Occurs v e → v < n
  | .constant _ => by simp [Below, Occurs]
  | .variable i => by simp [Below, Occurs]
  | .sum _ => belowAll_iff_occursAny
  | .product _ => belowAll_iff_occursAny

theorem belowAll_iff_occursAny {n : Nat} :
    ∀ {es : List Expr}, BelowAll n es ↔ ∀ v, OccursAny v es → v < n
  | [] => by simp [BelowAll, OccursAny]
  | e :: es => by
    rw [BelowAll, below_iff_occurs, belowAll_iff_occursAny, ← forall_and]
    exact forall_congr' fun v => or_imp.symm

end

theorem later_lt_iff {x y : Option Nat} {n : Nat} :
    (∀ v, later x y = some v → v < n) ↔
      (∀ v, x = some v → v < n) ∧ ∀ v, y = some v → v < n := by
  cases x with
  | none => cases y <;> simp [later]
  | some a =>
    cases y with
    | none => simp [later]
    | some b =>
      simp only [later, Option.some.injEq, forall_eq']
      exact Nat.max_lt

mutual

theorem below_iff_maxVariable (n : Nat) :
    ∀ e : Expr, Below n e ↔ ∀ v, e.maxVariable = some v → v < n
  | .constant _ => by simp [Below, maxVariable]
  | .variable i => by simp [Below, maxVariable]
  | .sum terms => by rw [Below, maxVariable, belowAll_iff_maxVariables n terms]
  | .product factors => by rw [Below, maxVariable, belowAll_iff_maxVariables n factors]

theorem belowAll_iff_maxVariables (n : Nat) :
    ∀ es : List Expr, BelowAll n es ↔ ∀ v, maxVariables es = some v → v < n
  | [] => by simp [BelowAll, maxVariables]
  | e :: es => by
    rw [BelowAll, maxVariables, later_lt_iff, below_iff_maxVariable n e,
      belowAll_iff_maxVariables n es]

end

/-- An expression is below the number after its last variable. -/
theorem below_of_maxVariable {e : Expr} {v : Nat} (h : e.maxVariable = some v) : Below (v + 1) e := by
  rw [below_iff_maxVariable, h]
  rintro w ⟨⟩
  exact Nat.lt_succ_self v

/-- A variable occurs, and no later one does. -/
def IsLast (v : Nat) (e : Expr) : Prop :=
  Occurs v e ∧ ∀ w, Occurs w e → w ≤ v

theorem later_eq_some {x y : Option Nat} {v : Nat} (h : later x y = some v) : x = some v ∨ y = some v := by
  cases x with
  | none => exact .inr h
  | some i =>
    cases y with
    | none => exact .inl h
    | some j =>
      rw [later] at h
      rcases Nat.le_total j i with hle | hle
      · exact .inl (by rwa [Nat.max_eq_left hle] at h)
      · exact .inr (by rwa [Nat.max_eq_right hle] at h)

mutual

theorem occurs_of_maxVariable {v : Nat} : ∀ {e : Expr}, e.maxVariable = some v → Occurs v e
  | .variable _, h => Option.some.inj h
  | .sum _, h => occursAny_of_maxVariables h
  | .product _, h => occursAny_of_maxVariables h

theorem occursAny_of_maxVariables {v : Nat} : ∀ {es : List Expr}, maxVariables es = some v → OccursAny v es
  | _ :: _, h => (later_eq_some h).imp occurs_of_maxVariable occursAny_of_maxVariables

end

theorem not_occurs_of_maxVariable {e : Expr} (h : e.maxVariable = none) (v : Nat) : ¬ Occurs v e := by
  intro hoccurs
  have hbelow : Below 0 e := (below_iff_maxVariable 0 e).mpr (by rw [h]; rintro w ⟨⟩)
  exact Nat.not_lt_zero v (below_iff_occurs.mp hbelow v hoccurs)

theorem maxVariable_eq_none_iff {e : Expr} : e.maxVariable = none ↔ ∀ v, ¬ Occurs v e := by
  refine ⟨not_occurs_of_maxVariable, fun h => ?_⟩
  cases hmax : e.maxVariable with
  | none => rfl
  | some w => exact absurd (occurs_of_maxVariable hmax) (h w)

theorem maxVariable_eq_some_iff {e : Expr} {v : Nat} : e.maxVariable = some v ↔ IsLast v e := by
  have hle : ∀ {u w}, e.maxVariable = some u → Occurs w e → w ≤ u := fun hmax hoccurs =>
    Nat.le_of_lt_succ (below_iff_occurs.mp (below_of_maxVariable hmax) _ hoccurs)
  refine ⟨fun hmax => ⟨occurs_of_maxVariable hmax, fun w => hle hmax⟩, ?_⟩
  rintro ⟨hoccurs, hlast⟩
  cases hmax : e.maxVariable with
  | none => exact absurd hoccurs (not_occurs_of_maxVariable hmax v)
  | some u => rw [Nat.le_antisymm (hlast u (occurs_of_maxVariable hmax)) (hle hmax hoccurs)]

mutual

/-- Replacing a variable by a constant leaves the others. -/
theorem occurs_substitute_iff {i v : Nat} {value : Bool} :
    ∀ {e : Expr}, Occurs i (substitute v value e) ↔ Occurs i e ∧ i ≠ v
  | .constant _ => by simp [substitute, Occurs]
  | .variable j => by
    by_cases h : j = v
    · simp only [substitute, h, if_true, Occurs, false_iff, not_and_not_right]
      exact Eq.symm
    · simp only [substitute, h, if_false, Occurs]
      exact ⟨fun hj => ⟨hj, hj ▸ h⟩, And.left⟩
  | .sum _ => occursAny_substituteAll_iff
  | .product _ => occursAny_substituteAll_iff

theorem occursAny_substituteAll_iff {i v : Nat} {value : Bool} :
    ∀ {es : List Expr}, OccursAny i (substituteAll v value es) ↔ OccursAny i es ∧ i ≠ v
  | [] => by simp [substituteAll, OccursAny]
  | e :: es => by
    rw [substituteAll, OccursAny, OccursAny, occurs_substitute_iff, occursAny_substituteAll_iff, or_and_right]

end

/-- Replacing the last variable leaves earlier ones only. -/
theorem below_substitute {v : Nat} (value : Bool) {e : Expr} (h : Below (v + 1) e) :
    Below v (substitute v value e) := by
  refine below_iff_occurs.mpr fun i hi => ?_
  obtain ⟨hoccurs, hne⟩ := occurs_substitute_iff.mp hi
  exact Nat.lt_of_le_of_ne (Nat.le_of_lt_succ (below_iff_occurs.mp h i hoccurs)) hne

/-! ### Values -/

/-- A sum of values is their exclusive or. -/
theorem evaluateSum_eq {a : List Bool} {es : List Expr} {xs : List Bool}
    (h : es.map (evaluate a) = xs.map some) :
    evaluateSum a es = some (xs.foldl (fun acc x => x ^^ acc) false) := by
  have hgeneral : ∀ (es : List Expr) (xs : List Bool), es.map (evaluate a) = xs.map some →
      ∀ acc, (evaluateSum a es).map (· ^^ acc) = some (xs.foldl (fun acc x => x ^^ acc) acc) := by
    intro es
    induction es with
    | nil =>
      intro xs h acc
      rw [List.map_eq_nil_iff.mp h.symm]
      simp [evaluateSum]
    | cons e es ih =>
      intro xs h acc
      match xs with
      | x :: xs =>
        obtain ⟨he, hes⟩ := List.cons.inj h
        rw [evaluateSum, he, List.foldl_cons, ← ih xs hes (x ^^ acc)]
        cases evaluateSum a es with
        | none => rfl
        | some y => cases x <;> cases y <;> cases acc <;> rfl
  have hsum := hgeneral es xs h false
  cases hvalue : evaluateSum a es with
  | none => simp [hvalue] at hsum
  | some y => simpa [hvalue] using hsum

/-- A product of values is their conjunction. -/
theorem evaluateProduct_eq {a : List Bool} {es : List Expr} {xs : List Bool}
    (h : es.map (evaluate a) = xs.map some) :
    evaluateProduct a es = some (xs.foldl (fun acc x => x && acc) true) := by
  have hfalse : ∀ xs : List Bool, xs.foldl (fun acc x => x && acc) false = false := by
    intro xs
    induction xs with
    | nil => rfl
    | cons x xs ih => rw [List.foldl_cons, Bool.and_false, ih]
  induction es generalizing xs with
  | nil =>
    rw [List.map_eq_nil_iff.mp h.symm]
    rfl
  | cons e es ih =>
    match xs with
    | x :: xs =>
      obtain ⟨he, hes⟩ := List.cons.inj h
      rw [evaluateProduct, he, List.foldl_cons, Bool.and_true]
      cases x with
      | false => rw [hfalse]
      | true => exact ih hes

mutual

/-- An expression has a value if every variable that occurs has one. -/
theorem exists_evaluate {a : List Bool} : ∀ {e : Expr}, Below a.length e → ∃ x, evaluate a e = some x
  | .constant c, _ => ⟨c, rfl⟩
  | .variable _, h => ⟨_, List.getElem?_eq_getElem h⟩
  | .sum _, h =>
    let ⟨_, hxs⟩ := exists_evaluateAll h
    ⟨_, evaluateSum_eq hxs⟩
  | .product _, h =>
    let ⟨_, hxs⟩ := exists_evaluateAll h
    ⟨_, evaluateProduct_eq hxs⟩

theorem exists_evaluateAll {a : List Bool} :
    ∀ {es : List Expr}, BelowAll a.length es → ∃ xs : List Bool, es.map (evaluate a) = xs.map some
  | [], _ => ⟨[], rfl⟩
  | _ :: _, h =>
    let ⟨x, hx⟩ := exists_evaluate h.1
    let ⟨xs, hxs⟩ := exists_evaluateAll h.2
    ⟨x :: xs, by rw [List.map_cons, List.map_cons, hx, hxs]⟩

end

end Expr

namespace ParitySystem

/-- A check is a rule for its last variable if it is linear in it and may define it. -/
theorem rule_eq_ok_iff {s : ParitySystem} {check : Nat} {e : Expr} {r : Nat × Expr} :
    s.rule check e = .ok r ↔ e.maxVariable = some r.1 ∧ (e.derivative r.1).constant? = some true ∧
      s.inputs ≤ r.1 ∧ r.1 < s.length ∧ r.2 = e.substitute r.1 false := by
  constructor
  · intro h
    unfold rule at h
    split at h
    · cases h
    · next v hv =>
      split at h
      · cases h
      · cases h
      · next hgradient =>
        split at h
        · cases h
        · split at h
          · cases h
          · next hinput hlength =>
            cases h
            exact ⟨hv, hgradient, Nat.not_lt.mp hinput, Nat.not_le.mp hlength, rfl⟩
  · rintro ⟨hmax, hgradient, hinputs, hlength, hsubstitute⟩
    rw [rule, hmax]
    dsimp only
    rw [hgradient]
    dsimp only
    rw [if_neg (Nat.not_lt.mpr hinputs), if_neg (Nat.not_le.mpr hlength), ← hsubstitute]

theorem lastRule_eq_ok {rules : List (Nat × Expr)} {v : Nat} {d : Expr}
    (h : lastRule rules v = .ok d) : (v, d) ∈ rules := by
  unfold lastRule at h
  split at h
  · next r hr =>
    cases h
    have hmem := List.mem_of_find?_eq_some hr
    have hvar := List.find?_some hr
    obtain rfl : r.1 = v := by simpa using hvar
    exact List.mem_reverse.mp hmem
  · cases h

theorem rules_below {s : ParitySystem} {rules : List (Nat × Expr)} (h : s.rules = .ok rules) :
    ∀ r ∈ rules, Expr.Below r.1 r.2 := by
  intro r hr
  obtain ⟨i, hi⟩ := List.getElem?_of_mem hr
  obtain ⟨⟨e, check⟩, -, hrule⟩ := getElem?_of_mapM h hi
  obtain ⟨hmax, -, -, -, hr2⟩ := rule_eq_ok_iff.mp hrule
  rw [hr2]
  exact Expr.below_substitute false (Expr.below_of_maxVariable hmax)

theorem getElem?_definedVariables {s : ParitySystem} {i v : Nat} :
    s.definedVariables[i]? = some v ↔ v = s.inputs + i ∧ v < s.length := by
  rw [definedVariables, length]
  constructor
  · intro h
    obtain ⟨hlt, hget⟩ := List.getElem?_eq_some_iff.mp h
    rw [List.length_range'] at hlt
    rw [List.getElem_range', Nat.one_mul] at hget
    exact ⟨hget.symm, by omega⟩
  · rintro ⟨rfl, hlt⟩
    rw [List.getElem?_range' (by omega), Nat.one_mul]

/-- There is one definition for each variable that is not an input, and it mentions earlier variables
only. -/
theorem definitions_below {s : ParitySystem} {definitions : List Expr}
    (h : s.definitions = .ok definitions) :
    definitions.length = s.auxiliaries + s.outputs ∧
      ∀ i d, definitions[i]? = some d → Expr.Below (s.inputs + i) d := by
  obtain ⟨rules, hrules, hdefs⟩ := bind_eq_ok.mp h
  refine ⟨by simpa [definedVariables] using length_of_mapM hdefs, fun i d hd => ?_⟩
  obtain ⟨v, hv, hlast⟩ := getElem?_of_mapM hdefs hd
  obtain ⟨rfl, -⟩ := getElem?_definedVariables.mp hv
  exact rules_below hrules _ (lastRule_eq_ok hlast)

end ParitySystem

end HalfGates
