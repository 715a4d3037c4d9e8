import Mathlib.Data.List.Nodup
import HalfGates.Proofs.Constraint.Gradient

/-!
# Solutions of a parity system

A check that is linear in its last variable is zero exactly if the variable has the value that the check
defines. So the assignments that satisfy the checks that count are the solutions, and there is one for all
inputs. A check counts unless a later one defines the same variable.

## Main definitions

- `ParitySystem.Shadowed`: a check whose variable is defined by a later one
- `ParitySystem.extend_eq_ok_iff`: solving, variable by variable
- `ParitySystem.exists_check_of_definition`: the check that a definition comes from
- `ParitySystem.solve_eq_ok_iff`: solutions satisfy the checks that count
- `ParitySystem.satisfied_iff_solution`: satisfying assignments and solutions
-/

namespace HalfGates

theorem append_singleton_prefix_iff {α : Type} {xs ys : List α} {x : α} :
    xs ++ [x] <+: ys ↔ xs <+: ys ∧ ys[xs.length]? = some x := by
  constructor
  · rintro ⟨rest, rfl⟩
    rw [List.append_assoc]
    exact ⟨List.prefix_append _ _, by simp⟩
  · rintro ⟨⟨rest, rfl⟩, hx⟩
    match rest with
    | [] => simp at hx
    | y :: rest =>
      obtain rfl : y = x := by simpa using hx
      exact ⟨rest, by simp⟩

namespace ParitySystem

variable {s : ParitySystem} {definitions : List Expr}

/-- Whether a later check has the same last variable. -/
def Shadowed (s : ParitySystem) (check : Nat) : Prop :=
  ∃ j e e', check < j ∧ s.checks[check]? = some e ∧ s.checks[j]? = some e' ∧
    e.maxVariable = e'.maxVariable

theorem not_shadowed (h : (s.checks.map Expr.maxVariable).Nodup) (check : Nat) :
    ¬ s.Shadowed check := by
  rintro ⟨j, e, e', hlt, he, he', hvar⟩
  have hj : j < (s.checks.map Expr.maxVariable).length := by
    simpa using (List.getElem?_eq_some_iff.mp he').1
  apply List.nodup_iff_getElem?_ne_getElem?.mp h check j hlt hj
  rw [List.getElem?_map, List.getElem?_map, he, he', Option.map_some, Option.map_some, hvar]

/-! ### Solving -/

/-- Solving gives every variable the value of its definition on the variables before it. -/
theorem extend_eq_ok_iff {values a : List Bool} :
    extend values definitions = .ok a ↔
      values <+: a ∧ a.length = values.length + definitions.length ∧
        ∀ (i : Nat) (d : Expr), definitions[i]? = some d →
          d.evaluate (a.take (values.length + i)) = a[values.length + i]? := by
  induction definitions generalizing values with
  | nil =>
    rw [extend, Except.ok.injEq]
    constructor
    · rintro rfl
      exact ⟨List.prefix_rfl, rfl, fun i d hd => by simp at hd⟩
    · rintro ⟨hfront, hlength, -⟩
      exact hfront.eq_of_length hlength.symm
  | cons d definitions ih =>
    rw [extend]
    cases hvalue : d.evaluate values with
    | none =>
      -- the definition of the first variable has no value, but the variable has one
      refine ⟨(by intro h; cases h), ?_⟩
      rintro ⟨hfront, hlength, hall⟩
      have hfirst := hall 0 d rfl
      rw [Nat.add_zero, ← List.prefix_iff_eq_take.mp hfront, hvalue] at hfirst
      have hle := List.getElem?_eq_none_iff.mp hfirst.symm
      rw [hlength, List.length_cons] at hle
      omega
    | some v =>
      dsimp only
      rw [ih, append_singleton_prefix_iff, List.length_append, List.length_singleton]
      constructor
      · rintro ⟨⟨hfront, hv⟩, hlength, hall⟩
        refine ⟨hfront, by rw [hlength, List.length_cons]; omega, fun i e he => ?_⟩
        cases i with
        | zero =>
          obtain rfl : d = e := by simpa using he
          rw [Nat.add_zero, ← List.prefix_iff_eq_take.mp hfront, hvalue, hv]
        | succ i =>
          have hrest := hall i e he
          rwa [Nat.add_assoc, Nat.add_comm 1 i] at hrest
      · rintro ⟨hfront, hlength, hall⟩
        have hfirst := hall 0 d rfl
        rw [Nat.add_zero, ← List.prefix_iff_eq_take.mp hfront, hvalue] at hfirst
        refine ⟨⟨hfront, hfirst.symm⟩, by rw [hlength, List.length_cons]; omega, fun i e he => ?_⟩
        rw [Nat.add_assoc, Nat.add_comm 1 i]
        exact hall (i + 1) e he

/-- Definitions that look back only can be followed one after the other. -/
theorem exists_extend {values : List Bool}
    (h : ∀ i d, definitions[i]? = some d → Expr.Below (values.length + i) d) :
    ∃ a, extend values definitions = .ok a := by
  induction definitions generalizing values with
  | nil => exact ⟨values, rfl⟩
  | cons d definitions ih =>
    have hfirst : Expr.Below values.length d := h 0 d rfl
    obtain ⟨v, hv⟩ := Expr.exists_evaluate hfirst
    rw [extend, hv]
    refine ih fun i e he => ?_
    rw [List.length_append, List.length_singleton, Nat.add_assoc, Nat.add_comm 1 i]
    exact h (i + 1) e he

theorem solve_eq_extend (h : s.definitions = .ok definitions) {bits : List Bool}
    (hbits : s.inputs ≤ bits.length) : s.solve bits = extend (bits.take s.inputs) definitions := by
  rw [solve, h]
  exact if_pos hbits

/-! ### Where definitions come from -/

theorem exists_rule {rules : List (Nat × Expr)} (h : s.rules = .ok rules) {check : Nat} {e : Expr}
    (he : s.checks[check]? = some e) :
    ∃ r, rules[check]? = some r ∧ s.rule check e = .ok r := by
  have hlength : rules.length = s.checks.length := by simpa using length_of_mapM h
  obtain ⟨hlt, -⟩ := List.getElem?_eq_some_iff.mp he
  have hr : rules[check]? = some rules[check] := List.getElem?_eq_getElem (hlength ▸ hlt)
  obtain ⟨⟨e', k⟩, hentry, hrule⟩ := getElem?_of_mapM h hr
  rw [List.getElem?_zipIdx, he] at hentry
  cases hentry
  rw [Nat.zero_add] at hrule
  exact ⟨_, hr, hrule⟩

/-- The last rule for a variable is a rule for it that no other one follows. -/
theorem lastRule_last {rules : List (Nat × Expr)} {v : Nat} {d : Expr}
    (h : lastRule rules v = .ok d) :
    ∃ k, rules[k]? = some (v, d) ∧ ∀ (j : Nat) (r : Nat × Expr), k < j → rules[j]? = some r → r.1 ≠ v := by
  unfold lastRule at h
  split at h
  · next r hr =>
    cases h
    obtain ⟨hvar, later, earlier, hsplit, hlater⟩ := List.find?_eq_some_iff_append.mp hr
    obtain rfl : r.1 = v := by simpa using hvar
    have hrules : rules = earlier.reverse ++ r :: later.reverse := by
      rw [← List.reverse_reverse rules, hsplit]
      simp
    refine ⟨earlier.reverse.length, by rw [hrules]; simp, fun j r' hlt hr' => ?_⟩
    rw [hrules, List.getElem?_append_right (Nat.le_of_lt hlt)] at hr'
    obtain ⟨k, hk⟩ : ∃ k, j - earlier.reverse.length = k + 1 :=
      Nat.exists_eq_succ_of_ne_zero (Nat.sub_ne_zero_of_lt hlt)
    rw [hk, List.getElem?_cons_succ] at hr'
    have hmem : r' ∈ later := List.mem_reverse.mp (List.mem_of_getElem? hr')
    simpa using hlater r' hmem
  · cases h

/-- A definition comes from a check that counts and that is linear in the variable. -/
theorem exists_check_of_definition (h : s.definitions = .ok definitions) {i : Nat} {d : Expr}
    (hd : definitions[i]? = some d) :
    ∃ check e, s.checks[check]? = some e ∧ ¬ s.Shadowed check ∧
      e.maxVariable = some (s.inputs + i) ∧ d = e.substitute (s.inputs + i) false := by
  obtain ⟨rules, hrules, hdefinitions⟩ := bind_eq_ok.mp h
  obtain ⟨v, hv, hlast⟩ := getElem?_of_mapM hdefinitions hd
  obtain ⟨rfl, -⟩ := getElem?_definedVariables.mp hv
  obtain ⟨k, hk, hlater⟩ := lastRule_last hlast
  obtain ⟨⟨e, check⟩, hentry, hrule⟩ := getElem?_of_mapM hrules hk
  obtain ⟨hvar, -, -, -, hsubstitute⟩ := rule_eq_ok_iff.mp hrule
  have he : s.checks[k]? = some e := by
    rw [List.getElem?_zipIdx] at hentry
    obtain ⟨e', he', heq⟩ := Option.map_eq_some_iff.mp hentry
    cases heq
    exact he'
  refine ⟨k, e, he, ?_, hvar, hsubstitute⟩
  rintro ⟨j, f, f', hlt, hf, hf', hsame⟩
  obtain rfl : e = f := Option.some.inj (he.symm.trans hf)
  obtain ⟨r, hr, hrule'⟩ := exists_rule hrules hf'
  obtain ⟨hvar', -⟩ := rule_eq_ok_iff.mp hrule'
  rw [← hsame, hvar] at hvar'
  exact hlater j r hlt hr (Option.some.inj hvar').symm

/-- Every check has a last variable, which is no input, and is linear in it. -/
theorem check_of_definitions (h : s.definitions = .ok definitions) {check : Nat} {e : Expr}
    (he : s.checks[check]? = some e) :
    ∃ v, e.maxVariable = some v ∧ s.inputs ≤ v ∧ v < s.length ∧
      (e.derivative v).constant? = some true := by
  obtain ⟨rules, hrules, -⟩ := bind_eq_ok.mp h
  obtain ⟨r, -, hrule⟩ := exists_rule hrules he
  obtain ⟨hvar, hgradient, hinputs, hlength, -⟩ := rule_eq_ok_iff.mp hrule
  exact ⟨r.1, hvar, hinputs, hlength, hgradient⟩

/-- Of the checks that count, no two have the same last variable. -/
theorem check_unique {i j : Nat} {e e' : Expr} (hi : s.checks[i]? = some e)
    (hj : s.checks[j]? = some e') (hcounts : ¬ s.Shadowed i) (hcounts' : ¬ s.Shadowed j)
    (hvar : e.maxVariable = e'.maxVariable) : e = e' := by
  rcases Nat.lt_trichotomy i j with hlt | rfl | hgt
  · exact absurd ⟨j, e, e', hlt, hi, hj, hvar⟩ hcounts
  · exact Option.some.inj (hi.symm.trans hj)
  · exact absurd ⟨i, e', e, hgt, hj, hi, hvar.symm⟩ hcounts'

/-! ### Checks and definitions -/

/-- A check is zero exactly if its last variable has the value that the check defines. -/
theorem definition_holds_iff {e : Expr} {v : Nat} {a : List Bool} (hvar : e.maxVariable = some v)
    (hgradient : (e.derivative v).constant? = some true) (hv : v < a.length) :
    (e.substitute v false).evaluate (a.take v) = a[v]? ↔ e.evaluate a = some false := by
  have hbelow : Expr.Below a.length e := by
    rw [Expr.below_iff_maxVariable, hvar]
    rintro w ⟨⟩
    exact hv
  have hlength : (a.take v).length = v := List.length_take_of_le (Nat.le_of_lt hv)
  have hdefinition : Expr.Below v (e.substitute v false) :=
    Expr.below_substitute false (Expr.below_of_maxVariable hvar)
  have hvalue : (e.substitute v false).evaluate (a.take v) =
      some (Expr.value (a.getD · false) (e.substitute v false)) := by
    rw [Expr.evaluate_eq_value (by rwa [hlength])]
    refine congrArg some (Expr.value_congr (fun i hi => ?_) hdefinition)
    simp only [List.getD_eq_getElem?_getD, List.getElem?_take_of_lt hi]
  have hlast : a[v]? = some (a.getD v false) := by
    simp [List.getD_eq_getElem?_getD, hv]
  rw [hvalue, hlast, Expr.evaluate_eq_value hbelow, Expr.value_eq_and_xor _ hgradient, Bool.true_and]
  cases a.getD v false <;> cases Expr.value (a.getD · false) (e.substitute v false) <;> simp

/-- An assignment is the solution for its inputs exactly if all checks that count are zero. -/
theorem solve_eq_ok_iff (h : s.definitions = .ok definitions) {a : List Bool}
    (ha : a.length = s.length) :
    s.solve (a.take s.inputs) = .ok a ↔
      ∀ check e, s.checks[check]? = some e → ¬ s.Shadowed check → e.evaluate a = some false := by
  have hcount := (definitions_below h).1
  have hinputs : (a.take s.inputs).length = s.inputs := by
    rw [List.length_take, ha, length]
    omega
  rw [solve_eq_extend h (Nat.le_of_eq hinputs.symm), List.take_of_length_le (Nat.le_of_eq hinputs),
    extend_eq_ok_iff, hinputs]
  constructor
  · rintro ⟨-, -, hall⟩ check e he hcounts
    obtain ⟨v, hvar, hle, hlt, hgradient⟩ := check_of_definitions h he
    obtain ⟨i, rfl⟩ := Nat.exists_eq_add_of_le hle
    have hi : i < definitions.length := by
      rw [length] at hlt
      omega
    have hd : definitions[i]? = some definitions[i] := List.getElem?_eq_getElem hi
    obtain ⟨check', e', he', hcounts', hvar', hdefinition⟩ := exists_check_of_definition h hd
    obtain rfl := check_unique he he' hcounts hcounts' (hvar.trans hvar'.symm)
    have hholds := hall i _ hd
    rw [hdefinition] at hholds
    exact (definition_holds_iff hvar hgradient (ha ▸ hlt)).mp hholds
  · intro hall
    refine ⟨List.take_prefix _ _, by rw [ha, hcount, length]; omega, fun i d hd => ?_⟩
    obtain ⟨check, e, he, hcounts, hvar, rfl⟩ := exists_check_of_definition h hd
    obtain ⟨v, hvar', -, hlt, hgradient⟩ := check_of_definitions h he
    obtain rfl : s.inputs + i = v := Option.some.inj (hvar.symm.trans hvar')
    exact (definition_holds_iff hvar hgradient (ha ▸ hlt)).mpr (hall check e he hcounts)

/-! ### Satisfying assignments -/

theorem exists_allZero {a : List Bool} {es : List Expr} (h : ∀ e ∈ es, Expr.Below a.length e) :
    ∃ answer, allZero a es = some answer ∧
      (answer = true ↔ ∀ e ∈ es, e.evaluate a = some false) := by
  induction es with
  | nil => exact ⟨true, rfl, by simp⟩
  | cons e es ih =>
    obtain ⟨x, hx⟩ := Expr.exists_evaluate (h e List.mem_cons_self)
    cases x with
    | true => exact ⟨false, by rw [allZero, hx], by simp [hx]⟩
    | false =>
      obtain ⟨answer, hanswer, hiff⟩ := ih fun d hd => h d (List.mem_cons_of_mem e hd)
      exact ⟨answer, by rw [allZero, hx, hanswer], by simp [hiff, hx]⟩

theorem exists_isSatisfied (h : s.definitions = .ok definitions) {a : List Bool}
    (ha : a.length = s.length) :
    ∃ answer, s.isSatisfied a = some answer ∧
      (answer = true ↔ ∀ (check : Nat) (e : Expr), s.checks[check]? = some e →
        e.evaluate a = some false) := by
  have hbelow : ∀ e ∈ s.checks, Expr.Below a.length e := by
    intro e he
    obtain ⟨check, hcheck⟩ := List.getElem?_of_mem he
    obtain ⟨v, hvar, -, hlt, -⟩ := check_of_definitions h hcheck
    rw [Expr.below_iff_maxVariable, hvar]
    rintro w ⟨⟩
    rwa [ha]
  obtain ⟨answer, hanswer, hiff⟩ := exists_allZero hbelow
  refine ⟨answer, by rw [isSatisfied, if_pos ha, hanswer], hiff.trans ?_⟩
  constructor
  · intro hall check e he
    exact hall e (List.mem_of_getElem? he)
  · intro hall e he
    obtain ⟨check, hcheck⟩ := List.getElem?_of_mem he
    exact hall check e hcheck

theorem length_of_isSatisfied {a : List Bool} (h : s.isSatisfied a = some true) :
    a.length = s.length := by
  unfold isSatisfied at h
  split at h
  · next hlength => exact hlength
  · cases h

theorem exists_isSatisfied_iff_solve (h : s.definitions = .ok definitions) {a : List Bool}
    (ha : a.length = s.length) :
    ∃ answer, s.isSatisfied a = some answer ∧
      (answer = true ↔ s.solve (a.take s.inputs) = .ok a ∧
        ∀ check e, s.checks[check]? = some e → s.Shadowed check → e.evaluate a = some false) := by
  obtain ⟨answer, hanswer, hiff⟩ := exists_isSatisfied h ha
  refine ⟨answer, hanswer, hiff.trans ?_⟩
  rw [solve_eq_ok_iff h ha]
  constructor
  · intro hzero
    exact ⟨fun check e he _ => hzero check e he, fun check e he _ => hzero check e he⟩
  · rintro ⟨hcounts, hshadowed⟩ check e he
    by_cases hcheck : s.Shadowed check
    · exact hshadowed check e he hcheck
    · exact hcounts check e he hcheck

/-! ### Solutions -/

/-- An assignment that extends some inputs is solved for them. -/
theorem solve_take_of_extends (h : s.definitions = .ok definitions) {bits a : List Bool}
    (hbits : s.inputs ≤ bits.length) (hfront : bits.take s.inputs <+: a) :
    s.solve (a.take s.inputs) = s.solve bits := by
  have hinputs : (bits.take s.inputs).length = s.inputs := List.length_take_of_le hbits
  have htake : a.take s.inputs = bits.take s.inputs := by
    rw [List.prefix_iff_eq_take.mp hfront, hinputs]
  rw [htake, solve_eq_extend h (Nat.le_of_eq hinputs.symm), solve_eq_extend h hbits, List.take_take,
    Nat.min_self]

theorem exists_solve (h : s.definitions = .ok definitions) {bits : List Bool}
    (hbits : s.inputs ≤ bits.length) :
    ∃ a, s.solve bits = .ok a ∧ a.length = s.length ∧ bits.take s.inputs <+: a := by
  have hinputs : (bits.take s.inputs).length = s.inputs := List.length_take_of_le hbits
  obtain ⟨hcount, hbelow⟩ := definitions_below h
  obtain ⟨a, ha⟩ : ∃ a, extend (bits.take s.inputs) definitions = .ok a :=
    exists_extend fun i d hd => by rw [hinputs]; exact hbelow i d hd
  obtain ⟨hfront, hlength, -⟩ := extend_eq_ok_iff.mp ha
  refine ⟨a, by rw [solve_eq_extend h hbits, ha], ?_, hfront⟩
  rw [hlength, hinputs, hcount, length]
  omega

/-- Whether an assignment satisfies a system that defines a function is always decided: it has to be the
solution for its inputs, and the checks that do not count have to be zero as well. If all checks count, the
solution for any inputs is the one satisfying assignment that extends them. -/
theorem satisfied_iff_solution (h : s.definitions = .ok definitions) :
    (∀ a : List Bool, a.length = s.length → ∃ answer, s.isSatisfied a = some answer ∧
      (answer = true ↔ s.solve (a.take s.inputs) = .ok a ∧
        ∀ check e, s.checks[check]? = some e → s.Shadowed check → e.evaluate a = some false)) ∧
    ((s.checks.map Expr.maxVariable).Nodup → ∀ bits : List Bool, s.inputs ≤ bits.length →
      ∃ a, s.solve bits = .ok a ∧ s.isSatisfied a = some true ∧ bits.take s.inputs <+: a ∧
        ∀ a', s.isSatisfied a' = some true → bits.take s.inputs <+: a' → a' = a) := by
  refine ⟨fun a ha => exists_isSatisfied_iff_solve h ha, fun hdistinct bits hbits => ?_⟩
  obtain ⟨a, ha, hlength, hfront⟩ := exists_solve h hbits
  refine ⟨a, ha, ?_, hfront, fun a' hsatisfied hfront' => ?_⟩
  · obtain ⟨answer, hanswer, hiff⟩ := exists_isSatisfied_iff_solve h hlength
    have hsolved : s.solve (a.take s.inputs) = .ok a := (solve_take_of_extends h hbits hfront).trans ha
    rw [hanswer, hiff.mpr ⟨hsolved, fun check _ _ hshadowed =>
      absurd hshadowed (not_shadowed hdistinct check)⟩]
  · obtain ⟨answer, hanswer, hiff⟩ := exists_isSatisfied_iff_solve h (length_of_isSatisfied hsatisfied)
    have htrue : answer = true := Option.some.inj (hanswer.symm.trans hsatisfied)
    have hsolved := (solve_take_of_extends h hbits hfront').symm.trans (hiff.mp htrue).1
    exact Except.ok.inj (hsolved.symm.trans ha)

theorem satisfied_iff_solution_shadowed :
    (∃ (s : ParitySystem) (definitions : List Expr), s.definitions = .ok definitions ∧ s.Shadowed 0 ∧
      s.solve [true] = .ok [true, false] ∧ s.isSatisfied [true, false] = some false) ∧
    ∃ (s : ParitySystem) (definitions : List Expr) (a : List Bool), s.definitions = .ok definitions ∧
      (s.checks.map Expr.maxVariable).Nodup ∧ s.solve [true, true, false] = .ok a ∧
      s.isSatisfied a = some true := by
  obtain ⟨s, hs⟩ : ∃ s : ParitySystem, s = ⟨1, 0, 1, [.variable 1 + .variable 0, .variable 1]⟩ := ⟨_, rfl⟩
  obtain ⟨t, ht⟩ : ∃ t : ParitySystem, t = ⟨2, 1, 1, [.variable 3 + .variable 2 + .variable 0,
      .variable 2 + .variable 0 * .variable 1]⟩ := ⟨_, rfl⟩
  refine ⟨?_, ?_⟩
  · have hdefinitions : s.definitions = .ok [.constant false] := by
      rw [hs]
      rfl
    have hshadowed : s.Shadowed 0 := by
      rw [hs]
      exact ⟨1, _, _, Nat.zero_lt_one, rfl, rfl, rfl⟩
    obtain ⟨answer, hanswer, hiff⟩ := (satisfied_iff_solution hdefinitions).1 [true, false] (by rw [hs]; rfl)
    refine ⟨s, _, hdefinitions, hshadowed, by rw [hs]; rfl, ?_⟩
    cases answer with
    | false => exact hanswer
    | true =>
      -- the first check is not zero
      have hzero := (hiff.mp rfl).2 0 (.variable 1 + .variable 0) (by rw [hs]; rfl) hshadowed
      cases hzero
  · obtain ⟨definitions, hdefinitions⟩ : ∃ definitions, t.definitions = .ok definitions := by
      rw [ht]
      exact ⟨_, rfl⟩
    have hdistinct : (t.checks.map Expr.maxVariable).Nodup := by
      rw [ht]
      decide
    obtain ⟨a, hsolve, hsatisfied, -⟩ :=
      (satisfied_iff_solution hdefinitions).2 hdistinct [true, true, false] (by rw [ht]; decide)
    exact ⟨t, definitions, a, hdefinitions, hdistinct, hsolve, hsatisfied⟩

end ParitySystem

end HalfGates
