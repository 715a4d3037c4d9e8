import Mathlib.Logic.Function.Basic
import HalfGates.Proofs.Constraint.Definitions

/-!
# The gradient test

The formal calculus looks at the form of an expression only. Where it finds a constant, the expression has
that value whatever the variables are; and where it finds that a derivative is constant, the expression
differs by that constant between the two values of the variable.

## Main definitions

- `Expr.value`: the value of an expression when every variable has one
- `Expr.evaluate_eq_value`: evaluation finds it
- `Expr.value_of_constant?`: constants have the value that is found
- `Expr.value_gradient`: the value of a derivative that is found to be constant
-/

namespace HalfGates.Expr

mutual

/-- The value of an expression when every variable has one. -/
def value (f : Nat → Bool) : Expr → Bool
  | .constant c => c
  | .variable i => f i
  | .sum terms => valueSum f terms
  | .product factors => valueProduct f factors

/-- The sum of the values. -/
def valueSum (f : Nat → Bool) : List Expr → Bool
  | [] => false
  | e :: es => value f e ^^ valueSum f es

/-- The product of the values. -/
def valueProduct (f : Nat → Bool) : List Expr → Bool
  | [] => true
  | e :: es => value f e && valueProduct f es

end

mutual

/-- Variables that do not occur have no influence. -/
theorem value_congr {f g : Nat → Bool} {n : Nat} (h : ∀ i < n, f i = g i) :
    ∀ {e : Expr}, Below n e → value f e = value g e
  | .constant _, _ => rfl
  | .variable i, hi => h i hi
  | .sum _, hes => valueSum_congr h hes
  | .product _, hes => valueProduct_congr h hes

theorem valueSum_congr {f g : Nat → Bool} {n : Nat} (h : ∀ i < n, f i = g i) :
    ∀ {es : List Expr}, BelowAll n es → valueSum f es = valueSum g es
  | [], _ => rfl
  | _ :: _, hes => by rw [valueSum, valueSum, value_congr h hes.1, valueSum_congr h hes.2]

theorem valueProduct_congr {f g : Nat → Bool} {n : Nat} (h : ∀ i < n, f i = g i) :
    ∀ {es : List Expr}, BelowAll n es → valueProduct f es = valueProduct g es
  | [], _ => rfl
  | _ :: _, hes => by
    rw [valueProduct, valueProduct, value_congr h hes.1, valueProduct_congr h hes.2]

end

mutual

/-- Evaluation finds the value where all variables that occur have one. -/
theorem evaluate_eq_value {a : List Bool} :
    ∀ {e : Expr}, Below a.length e → evaluate a e = some (value (a.getD · false) e)
  | .constant _, _ => rfl
  | .variable i, h => by
    have hi : i < a.length := h
    simp [evaluate, value, List.getD_eq_getElem?_getD, hi]
  | .sum _, h => evaluateSum_eq_value h
  | .product _, h => evaluateProduct_eq_value h

theorem evaluateSum_eq_value {a : List Bool} :
    ∀ {es : List Expr}, BelowAll a.length es → evaluateSum a es = some (valueSum (a.getD · false) es)
  | [], _ => rfl
  | _ :: _, h => by
    rw [evaluateSum, evaluate_eq_value h.1, evaluateSum_eq_value h.2, valueSum]
    rfl

theorem evaluateProduct_eq_value {a : List Bool} : ∀ {es : List Expr}, BelowAll a.length es →
    evaluateProduct a es = some (valueProduct (a.getD · false) es)
  | [], _ => rfl
  | e :: _, h => by
    rw [evaluateProduct, evaluate_eq_value h.1, valueProduct]
    cases hvalue : value (a.getD · false) e with
    | false => simp
    | true => simpa using evaluateProduct_eq_value h.2

end

mutual

/-- Replacing a variable by a constant is giving it that value. -/
theorem value_substitute (f : Nat → Bool) (v : Nat) (b : Bool) :
    ∀ e : Expr, value f (substitute v b e) = value (Function.update f v b) e
  | .constant _ => rfl
  | .variable i => by
    by_cases h : i = v <;> simp [substitute, value, h]
  | .sum terms => valueSum_substituteAll f v b terms
  | .product factors => valueProduct_substituteAll f v b factors

theorem valueSum_substituteAll (f : Nat → Bool) (v : Nat) (b : Bool) :
    ∀ es : List Expr, valueSum f (substituteAll v b es) = valueSum (Function.update f v b) es
  | [] => rfl
  | e :: es => by
    rw [substituteAll, valueSum, valueSum, value_substitute f v b e, valueSum_substituteAll f v b es]

theorem valueProduct_substituteAll (f : Nat → Bool) (v : Nat) (b : Bool) :
    ∀ es : List Expr, valueProduct f (substituteAll v b es) = valueProduct (Function.update f v b) es
  | [] => rfl
  | e :: es => by
    rw [substituteAll, valueProduct, valueProduct, value_substitute f v b e,
      valueProduct_substituteAll f v b es]

end

/-! ### Constants -/

theorem knownXor_eq_some {x y : Option Bool} {c : Bool} (h : knownXor x y = some c) :
    ∃ a b, x = some a ∧ y = some b ∧ c = (a ^^ b) := by
  unfold knownXor at h
  split at h
  · next a b => exact ⟨a, b, rfl, rfl, (Option.some.inj h).symm⟩
  · cases h

theorem knownAnd_eq_true {x y : Option Bool} (h : knownAnd x y = some true) :
    x = some true ∧ y = some true := by
  unfold knownAnd at h
  split at h <;> first | exact ⟨rfl, rfl⟩ | cases h

theorem knownAnd_eq_false {x y : Option Bool} (h : knownAnd x y = some false) :
    x = some false ∨ y = some false := by
  unfold knownAnd at h
  split at h <;> first | exact .inl rfl | exact .inr rfl | cases h

mutual

/-- An expression that is found to be constant has that value. -/
theorem value_of_constant? (f : Nat → Bool) :
    ∀ {e : Expr} {c : Bool}, constant? e = some c → value f e = c
  | .constant _, _, h => Option.some.inj h
  | .sum _, _, h => valueSum_of_constantSum f h
  | .product _, _, h => valueProduct_of_constantProduct f h

theorem valueSum_of_constantSum (f : Nat → Bool) :
    ∀ {es : List Expr} {c : Bool}, constantSum es = some c → valueSum f es = c
  | [], _, h => Option.some.inj h
  | _ :: _, _, h => by
    obtain ⟨a, b, ha, hb, rfl⟩ := knownXor_eq_some h
    rw [valueSum, value_of_constant? f ha, valueSum_of_constantSum f hb]

theorem valueProduct_of_constantProduct (f : Nat → Bool) :
    ∀ {es : List Expr} {c : Bool}, constantProduct es = some c → valueProduct f es = c
  | [], _, h => Option.some.inj h
  | _ :: _, true, h => by
    obtain ⟨he, hes⟩ := knownAnd_eq_true h
    rw [valueProduct, value_of_constant? f he, valueProduct_of_constantProduct f hes]
    rfl
  | e :: _, false, h => by
    rw [valueProduct]
    rcases knownAnd_eq_false h with he | hes
    · rw [value_of_constant? f he, Bool.false_and]
    · rw [valueProduct_of_constantProduct f hes, Bool.and_false]

end

/-! ### Derivatives -/

theorem constantSum_of_false {es : List Expr} (h : ∀ e ∈ es, constant? e = some false) :
    constantSum es = some false := by
  induction es with
  | nil => rfl
  | cons e es ih =>
    rw [constantSum, h e List.mem_cons_self, ih fun d hd => h d (List.mem_cons_of_mem e hd)]
    rfl

theorem constantSum_products {factorLists : List (List Expr)}
    (h : ∀ es ∈ factorLists, constantProduct es = some false) :
    constantSum (factorLists.map product) = some false := by
  refine constantSum_of_false fun e he => ?_
  obtain ⟨es, hes, rfl⟩ := List.mem_map.mp he
  exact h es hes

section cons

variable {e : Expr} {factorLists : List (List Expr)}

theorem constantProduct_cons_false (h : constant? e = some false) (es : List Expr) :
    constantProduct (e :: es) = some false := by
  rw [constantProduct, h]
  rfl

theorem constantProduct_cons_of_false {es : List Expr} (h : constantProduct es = some false) (e : Expr) :
    constantProduct (e :: es) = some false := by
  rw [constantProduct, h]
  cases constant? e with
  | none => rfl
  | some b => cases b <;> rfl

/-- A factor that is one makes no difference. -/
theorem constantSum_cons_true (h : constant? e = some true) :
    constantSum ((factorLists.map (e :: ·)).map product) = constantSum (factorLists.map product) := by
  induction factorLists with
  | nil => rfl
  | cons es factorLists ih =>
    have hproduct : constantProduct (e :: es) = constantProduct es := by
      rw [constantProduct, h]
      cases constantProduct es with
      | none => rfl
      | some b => cases b <;> rfl
    rw [List.map_cons, List.map_cons, List.map_cons, constantSum, constantSum, constant?, constant?,
      hproduct, ih]

/-- With a factor that is unknown, products are known only if they are zero without it. -/
theorem forall_of_constantSum_cons {c : Bool} (h : constant? e = none)
    (hsum : constantSum ((factorLists.map (e :: ·)).map product) = some c) :
    ∀ es ∈ factorLists, constantProduct es = some false := by
  induction factorLists generalizing c with
  | nil => simp
  | cons es factorLists ih =>
    obtain ⟨a, b, ha, hb, -⟩ := knownXor_eq_some hsum
    intro fs hfs
    rcases List.mem_cons.mp hfs with rfl | hfs
    · have hproduct : knownAnd none (constantProduct fs) = some a := by rwa [← h]
      cases hconstant : constantProduct fs with
      | none =>
        rw [hconstant] at hproduct
        cases hproduct
      | some x =>
        rw [hconstant] at hproduct
        cases x with
        | false => rfl
        | true => cases hproduct
    · exact ih hb fs hfs

end cons

mutual

/-- The derivative of an expression that is found to be constant is found to be zero. -/
theorem constant?_derivative (v : Nat) :
    ∀ {e : Expr} {c : Bool}, constant? e = some c → constant? (derivative v e) = some false
  | .constant _, _, _ => rfl
  | .sum _, _, h => constantSum_derivativeTerms v h
  | .product _, _, h => constantSum_products (constantProduct_derivativeFactors v h)

theorem constantSum_derivativeTerms (v : Nat) :
    ∀ {es : List Expr} {c : Bool}, constantSum es = some c →
      constantSum (derivativeTerms v es) = some false
  | [], _, _ => rfl
  | _ :: _, _, h => by
    obtain ⟨a, b, ha, hb, -⟩ := knownXor_eq_some h
    rw [derivativeTerms, constantSum, constant?_derivative v ha, constantSum_derivativeTerms v hb]
    rfl

theorem constantProduct_derivativeFactors (v : Nat) :
    ∀ {es : List Expr} {c : Bool}, constantProduct es = some c →
      ∀ fs ∈ derivativeFactors v es, constantProduct fs = some false
  | [], _, _, _, hfs => by cases hfs
  | e :: es, c, h, fs, hfs => by
    rcases List.mem_cons.mp hfs with rfl | hfs
    · -- either this factor is a constant, so that its derivative is zero, or another one is zero
      cases he : constant? e with
      | some b => exact constantProduct_cons_false (constant?_derivative v he) es
      | none =>
        rw [constantProduct, he] at h
        cases hes : constantProduct es with
        | none =>
          rw [hes] at h
          cases h
        | some b =>
          rw [hes] at h
          cases b with
          | false => exact constantProduct_cons_of_false hes _
          | true => cases h
    · obtain ⟨gs, hgs, rfl⟩ := List.mem_map.mp hfs
      cases hes : constantProduct es with
      | some b => exact constantProduct_cons_of_false (constantProduct_derivativeFactors v hes gs hgs) e
      | none =>
        rw [constantProduct, hes] at h
        cases he : constant? e with
        | none =>
          rw [he] at h
          cases h
        | some b =>
          rw [he] at h
          cases b with
          | false => exact constantProduct_cons_false he gs
          | true => cases h

end

mutual

/-- If the derivative by a variable is found to be constant, the expression differs by that constant
between the two values of the variable. -/
theorem value_gradient (f : Nat → Bool) (v : Nat) :
    ∀ {e : Expr} {c : Bool}, constant? (derivative v e) = some c →
      value (Function.update f v true) e = (value (Function.update f v false) e ^^ c)
  | .constant _, c, h => by
    obtain rfl : false = c := Option.some.inj h
    exact (Bool.xor_false _).symm
  | .variable i, c, h => by
    obtain rfl : (i == v) = c := Option.some.inj h
    by_cases hi : i = v
    · simp [value, hi]
    · have hne : (i == v) = false := beq_eq_false_iff_ne.mpr hi
      simp [value, hi, hne]
  | .sum _, _, h => valueSum_gradient f v h
  | .product _, _, h => valueProduct_gradient f v h

theorem valueSum_gradient (f : Nat → Bool) (v : Nat) :
    ∀ {es : List Expr} {c : Bool}, constantSum (derivativeTerms v es) = some c →
      valueSum (Function.update f v true) es = (valueSum (Function.update f v false) es ^^ c)
  | [], c, h => by
    obtain rfl : false = c := Option.some.inj h
    rfl
  | e :: es, _, h => by
    obtain ⟨a, b, ha, hb, rfl⟩ := knownXor_eq_some h
    rw [valueSum, valueSum, value_gradient f v ha, valueSum_gradient f v hb]
    cases value (Function.update f v false) e <;> cases a <;> simp

theorem valueProduct_gradient (f : Nat → Bool) (v : Nat) :
    ∀ {es : List Expr} {c : Bool}, constantSum ((derivativeFactors v es).map product) = some c →
      valueProduct (Function.update f v true) es =
        (valueProduct (Function.update f v false) es ^^ c)
  | [], c, h => by
    obtain rfl : false = c := Option.some.inj h
    rfl
  | e :: es, _, h => by
    obtain ⟨a, b, ha, hb, rfl⟩ := knownXor_eq_some h
    have hfirst : knownAnd (constant? (derivative v e)) (constantProduct es) = some a := ha
    rw [valueProduct, valueProduct]
    cases he : constant? e with
    | some x =>
      -- a constant factor has the derivative zero
      rw [constant?_derivative v he] at hfirst
      obtain rfl : false = a := Option.some.inj hfirst
      rw [value_of_constant? _ he, value_of_constant? _ he]
      cases x with
      | true =>
        rw [constantSum_cons_true he] at hb
        rw [valueProduct_gradient f v hb]
        simp
      | false =>
        have hzero : constantSum (((derivativeFactors v es).map (e :: ·)).map product) = some false :=
          constantSum_products fun fs hfs => by
            obtain ⟨gs, -, rfl⟩ := List.mem_map.mp hfs
            exact constantProduct_cons_false he gs
        obtain rfl : false = b := Option.some.inj (hzero.symm.trans hb)
        rfl
    | none =>
      -- the other factors do not depend on the variable
      have hothers := forall_of_constantSum_cons he hb
      have hzero : constantSum (((derivativeFactors v es).map (e :: ·)).map product) = some false :=
        constantSum_products fun fs hfs => by
          obtain ⟨gs, hgs, rfl⟩ := List.mem_map.mp hfs
          exact constantProduct_cons_of_false (hothers gs hgs) e
      obtain rfl : false = b := Option.some.inj (hzero.symm.trans hb)
      have hsame := valueProduct_gradient f v (constantSum_products hothers)
      rw [Bool.xor_false] at hsame
      rw [hsame]
      cases a with
      | true =>
        obtain ⟨hderivative, hproduct⟩ := knownAnd_eq_true hfirst
        rw [value_gradient f v hderivative, valueProduct_of_constantProduct _ hproduct]
        simp
      | false =>
        rcases knownAnd_eq_false hfirst with hderivative | hproduct
        · rw [value_gradient f v hderivative]
          simp
        · rw [valueProduct_of_constantProduct _ hproduct]
          simp

end

/-- With a derivative that is found to be constant, an expression is linear in the variable. -/
theorem value_eq_and_xor (f : Nat → Bool) {v : Nat} {e : Expr} {c : Bool}
    (h : constant? (derivative v e) = some c) :
    value f e = ((c && f v) ^^ value f (substitute v false e)) := by
  have hgradient := value_gradient f v h
  rw [value_substitute]
  cases hv : f v with
  | false =>
    have hself : Function.update f v false = f := by rw [← hv, Function.update_eq_self]
    rw [hself, Bool.and_false, Bool.false_xor]
  | true =>
    have hself : Function.update f v true = f := by rw [← hv, Function.update_eq_self]
    rw [hself] at hgradient
    rw [hgradient, Bool.and_true, Bool.xor_comm]

end HalfGates.Expr
