import HalfGates.Proofs.Constraint.Definable

/-!
# Eliminating a variable

Where the gradient test finds a constant, an expression is the constant times the variable plus the rest of the
expression, in which the variable is replaced by zero. A variable plus expressions that lack it passes the test,
and the rest is their sum.

## Main definitions

- `Expr.substitute_of_not_occurs`: replacing a variable that does not occur changes nothing
- `Expr.evaluate_of_gradient`, `Expr.evaluate_rest`: an expression and its rest, in either direction
- `Expr.gradient_test`: what the gradient test says
-/

namespace HalfGates.Expr

mutual

theorem substitute_of_not_occurs {v : Nat} {value : Bool} :
    ∀ {e : Expr}, ¬ Occurs v e → substitute v value e = e
  | .constant _, _ => rfl
  | .variable _, h => if_neg h
  | .sum _, h => congrArg sum (substituteAll_of_not_occursAny h)
  | .product _, h => congrArg product (substituteAll_of_not_occursAny h)

theorem substituteAll_of_not_occursAny {v : Nat} {value : Bool} :
    ∀ {es : List Expr}, ¬ OccursAny v es → substituteAll v value es = es
  | [], _ => rfl
  | _ :: _, h => by
    obtain ⟨he, hes⟩ := not_or.mp h
    rw [substituteAll, substitute_of_not_occurs he, substituteAll_of_not_occursAny hes]

end

/-- An expression with a constant gradient, where all of its variables have a value. -/
theorem evaluate_of_gradient {v : Nat} {e : Expr} {c x : Bool} {a : List Bool}
    (h : (e.derivative v).constant? = some c) (hx : a[v]? = some x) (hcover : ∀ i, e.Occurs i → i < a.length) :
    ∃ y, (e.substitute v false).evaluate a = some y ∧ e.evaluate a = some ((c && x) ^^ y) := by
  have hbelow : Below a.length e := below_iff_occurs.mpr hcover
  have hrest : Below a.length (e.substitute v false) :=
    below_iff_occurs.mpr fun i hi => hcover i (occurs_substitute_iff.mp hi).1
  have hvalue : a.getD v false = x := by rw [List.getD_eq_getElem?_getD, hx, Option.getD_some]
  refine ⟨_, evaluate_eq_value hrest, ?_⟩
  rw [evaluate_eq_value hbelow, value_eq_and_xor _ h, hvalue]

section rest

variable {v : Nat} {es : List Expr} (h : ¬ OccursAny v es)
include h

/-- The rest of a variable plus expressions that lack it is the sum of these, also where it has no value. -/
theorem evaluate_rest (a : List Bool) :
    ((Expr.sum (.variable v :: es)).substitute v false).evaluate a = (Expr.sum es).evaluate a := by
  have hrest : (Expr.sum (.variable v :: es)).substitute v false = .sum (.constant false :: es) := by
    rw [substitute, substituteAll, substitute, if_pos rfl, substituteAll_of_not_occursAny h]
  rw [hrest, evaluate, evaluate, evaluateSum, evaluate]
  dsimp only
  simp only [Bool.false_xor, Option.map_id']

theorem exists_evaluate_rest {a : List Bool} (hcover : ∀ i, OccursAny i es → i < a.length) :
    ∃ xs : List Bool, es.map (evaluate a) = xs.map some ∧
      ((Expr.sum (.variable v :: es)).substitute v false).evaluate a = some (xs.foldl (· ^^ ·) false) := by
  obtain ⟨xs, hxs⟩ := exists_evaluateAll (belowAll_iff_occursAny.mpr hcover)
  have hxor : (fun acc x : Bool => x ^^ acc) = (· ^^ ·) := funext fun acc => funext fun x => Bool.xor_comm x acc
  refine ⟨xs, hxs, ?_⟩
  rw [evaluate_rest h, evaluate, evaluateSum_eq hxs, hxor]

end rest

/-- If the gradient by a variable is found to be constant, an expression is that constant times the variable plus
its rest, on every assignment that covers them. A variable plus expressions that lack it has the gradient one,
and its rest is the sum of these. -/
theorem gradient_test (v : Nat) :
    (∀ (e : Expr) (c : Bool), (e.derivative v).constant? = some c →
      ∀ (a : List Bool) (x : Bool), a[v]? = some x → (∀ i, e.Occurs i → i < a.length) →
        ∃ y, (e.substitute v false).evaluate a = some y ∧ e.evaluate a = some ((c && x) ^^ y)) ∧
    ∀ es : List Expr, ¬ OccursAny v es →
      ((Expr.sum (.variable v :: es)).derivative v).constant? = some true ∧
      (∀ a, ((Expr.sum (.variable v :: es)).substitute v false).evaluate a = (Expr.sum es).evaluate a) ∧
      ∀ a, (∀ i, OccursAny i es → i < a.length) →
        ∃ xs : List Bool, es.map (evaluate a) = xs.map some ∧
          ((Expr.sum (.variable v :: es)).substitute v false).evaluate a = some (xs.foldl (· ^^ ·) false) :=
  ⟨fun _ _ h _ _ hx hcover => evaluate_of_gradient h hx hcover, fun _ hes =>
    ⟨gradient_variable_plus hes, evaluate_rest hes, fun _ hcover => exists_evaluate_rest hes hcover⟩⟩

/-- A zero factor hides that the variable occurs twice. -/
theorem gradient_test_zero_factor :
    ∃ (e : Expr) (es : List Expr),
      e = .sum [.product [.variable 1, .variable 1, .constant false], .variable 1, .variable 0] ∧
      es = [.variable 0, .product [.variable 0, .variable 2]] ∧
      (e.derivative 1).constant? = some true ∧ ¬ OccursAny 1 es ∧
      (∃ y, (e.substitute 1 false).evaluate [true, true] = some y ∧
        e.evaluate [true, true] = some ((true && true) ^^ y)) ∧
      ∃ xs : List Bool, es.map (evaluate [true, true, false]) = xs.map some ∧
        ((Expr.sum (.variable 1 :: es)).substitute 1 false).evaluate [true, true, false] =
          some (xs.foldl (· ^^ ·) false) := by
  have hlacks : ¬ OccursAny 1 [.variable 0, .product [.variable 0, .variable 2]] := by
    simp [OccursAny, Occurs]
  refine ⟨_, _, rfl, rfl, rfl, hlacks, ?_, ?_⟩
  · exact (gradient_test 1).1 _ true rfl _ true rfl (below_iff_occurs.mp (by simp [Below, BelowAll]))
  · exact ((gradient_test 1).2 _ hlacks).2.2 _ (belowAll_iff_occursAny.mp (by simp [Below, BelowAll]))

end HalfGates.Expr
