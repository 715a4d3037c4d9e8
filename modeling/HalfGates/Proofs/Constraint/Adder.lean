import HalfGates.Constraint.Adder
import HalfGates.Proofs.Bits.Number
import HalfGates.Proofs.Constraint.Definable
import HalfGates.Proofs.Constraint.Size

/-!
# The adder adds

Every check of the adder is solved for a variable of its own: the carries and then the bits of the sum. Two
numbers, the carries of their sum and the sum satisfy all checks, so they are the solution for the two
numbers.

## Main definitions

- `ParityAdder.carryCheck_solved`, `ParityAdder.sumCheck_solved`: what the checks define
- `ParityAdder.Assigns`: an assignment that holds two numbers, their carries and their sum
- `ParityAdder.solve_eq`, `ParityAdder.apply_eq`: the adder computes the sum
- `ParityAdder.system_adds`: the sum, the carries and the checks, for numbers of any width
-/

namespace HalfGates.ParityAdder

variable {width k a b : Nat}

/-! ### The checks -/

theorem majority_eq (width k : Nat) :
    majority width k = if k = 0 then .product [first width 0, second width 0]
      else .sum [.product [first width k, second width k],
        .product [carry width k, .sum [first width k, second width k]]] := rfl

theorem sumCheck_eq (width k : Nat) :
    sumCheck width k = .sum (sum width k :: first width k :: second width k ::
      if 0 < k then [carry width k] else []) := by
  unfold sumCheck
  split <;> rfl

theorem mem_checks {e : Expr} : e ∈ (system width).checks ↔
    (∃ k, k + 1 < width ∧ carryCheck width k = e) ∨ ∃ k, k < width ∧ sumCheck width k = e := by
  have hcarry : ∀ k, k < width - 1 ↔ k + 1 < width := fun k => by omega
  simp [system, hcarry]

/-- A carry is found from the bits before it and the carry into the last of them. -/
theorem carryCheck_solved (hk : k + 1 < width) : (carryCheck width k).SolvedFor (2 * width + k) := by
  refine ⟨[majority width k], rfl, ?_, trivial⟩
  rw [majority_eq]
  split
  · refine ⟨?_, ?_, trivial⟩
    · show width - 1 - 0 < 2 * width + k
      omega
    · show 2 * width - 1 - 0 < 2 * width + k
      omega
  · have hfirst : width - 1 - k < 2 * width + k := by omega
    have hsecond : 2 * width - 1 - k < 2 * width + k := by omega
    have hcarry : 2 * width + k - 1 < 2 * width + k := by omega
    exact ⟨⟨hfirst, hsecond, trivial⟩, ⟨hcarry, ⟨hfirst, hsecond, trivial⟩, trivial⟩, trivial⟩

/-- A bit of the sum is found from the bits of the numbers and the carry. -/
theorem sumCheck_solved (hk : k < width) :
    (sumCheck width k).SolvedFor (2 * width + (width - 1) + (width - 1 - k)) := by
  refine ⟨_, sumCheck_eq width k, ?_, ?_, ?_⟩
  · show width - 1 - k < _
    omega
  · show 2 * width - 1 - k < _
    omega
  · split
    · refine ⟨?_, trivial⟩
      show 2 * width + k - 1 < _
      omega
    · trivial

/-- The adder is a function of the two numbers. -/
theorem exists_definitions (width : Nat) : ∃ definitions, (system width).definitions = .ok definitions := by
  have hinputs : (system width).inputs = 2 * width := rfl
  have hlength : (system width).length = 2 * width + (width - 1) + width := rfl
  refine ParitySystem.exists_definitions_iff.mpr ⟨fun e he => ?_, fun v hle hlt => ?_⟩
  · rcases mem_checks.mp he with ⟨k, hk, rfl⟩ | ⟨k, hk, rfl⟩
    · have hsolved := carryCheck_solved hk
      exact ⟨_, hsolved.isLast, hsolved.gradient, by omega, by omega⟩
    · have hsolved := sumCheck_solved hk
      exact ⟨_, hsolved.isLast, hsolved.gradient, by omega, by omega⟩
  · rw [hinputs] at hle
    rw [hlength] at hlt
    by_cases hv : v < 2 * width + (width - 1)
    · obtain ⟨k, rfl⟩ := Nat.exists_eq_add_of_le hle
      have hk : k + 1 < width := by omega
      exact ⟨_, mem_checks.mpr (.inl ⟨k, hk, rfl⟩), (carryCheck_solved hk).isLast⟩
    · have hk : 2 * width + (width - 1) + (width - 1) - v < width := by omega
      have hvar : 2 * width + (width - 1) + (width - 1 - (2 * width + (width - 1) + (width - 1) - v)) = v := by
        omega
      have hlast := (sumCheck_solved hk).isLast
      rw [hvar] at hlast
      exact ⟨_, mem_checks.mpr (.inr ⟨_, hk, rfl⟩), hlast⟩

theorem gateCount_check_le {e : Expr} (he : e ∈ (system width).checks) : e.gateCount ≤ 11 := by
  rcases mem_checks.mp he with ⟨k, -, rfl⟩ | ⟨k, -, rfl⟩
  · show (Expr.sum [carry width (k + 1), majority width k]).gateCount ≤ 11
    rw [majority_eq]
    split <;> exact Nat.le_of_ble_eq_true rfl
  · rw [sumCheck_eq]
    split <;> exact Nat.le_of_ble_eq_true rfl

/-! ### The solution -/

/-- An assignment that holds two numbers, the carries of their sum and the sum. -/
structure Assigns (width a b : Nat) (f : Nat → Bool) : Prop where
  first : ∀ k < width, f (width - 1 - k) = a.testBit k
  second : ∀ k < width, f (2 * width - 1 - k) = b.testBit k
  carry : ∀ k, 0 < k → k < width → f (2 * width + k - 1) = Bits.carry a b k
  sum : ∀ k < width, f (2 * width + (width - 1) + (width - 1 - k)) = (a + b).testBit k

namespace Assigns

variable {f : Nat → Bool}

theorem value_majority (h : Assigns width a b f) (hk : k < width) :
    (majority width k).value f = Bits.carry a b (k + 1) := by
  have hfirst : (ParityAdder.first width k).value f = a.testBit k := h.first k hk
  have hsecond : (ParityAdder.second width k).value f = b.testBit k := h.second k hk
  rw [majority_eq, Bits.carry_succ]
  split
  · next hzero =>
    subst hzero
    simp [Expr.value, Expr.valueProduct, hfirst, hsecond]
  · next hpos =>
    have hcarry : (ParityAdder.carry width k).value f = Bits.carry a b k :=
      h.carry k (Nat.pos_of_ne_zero hpos) hk
    simp [Expr.value, Expr.valueSum, Expr.valueProduct, hfirst, hsecond, hcarry]

theorem value_carryCheck (h : Assigns width a b f) (hk : k + 1 < width) :
    (carryCheck width k).value f = false := by
  have hcarry : (ParityAdder.carry width (k + 1)).value f = Bits.carry a b (k + 1) :=
    h.carry (k + 1) k.succ_pos hk
  have hmajority := h.value_majority (Nat.lt_of_succ_lt hk)
  show ((ParityAdder.carry width (k + 1)).value f ^^ ((majority width k).value f ^^ false)) = false
  rw [hcarry, hmajority, Bool.xor_false, Bool.xor_self]

theorem value_sumCheck (h : Assigns width a b f) (hk : k < width) : (sumCheck width k).value f = false := by
  have hfirst : (ParityAdder.first width k).value f = a.testBit k := h.first k hk
  have hsecond : (ParityAdder.second width k).value f = b.testBit k := h.second k hk
  have hsum : (ParityAdder.sum width k).value f = (a.testBit k ^^ b.testBit k ^^ Bits.carry a b k) :=
    (h.sum k hk).trans (Bits.testBit_add a b k)
  rw [sumCheck_eq, Expr.value, Expr.valueSum, Expr.valueSum, Expr.valueSum, hsum, hfirst, hsecond]
  split
  · next hpos =>
    have hcarry : (ParityAdder.carry width k).value f = Bits.carry a b k := h.carry k hpos hk
    rw [Expr.valueSum, Expr.valueSum, hcarry]
    cases a.testBit k <;> cases b.testBit k <;> cases Bits.carry a b k <;> rfl
  · next hzero =>
    obtain rfl : k = 0 := Nat.eq_zero_of_not_pos hzero
    rw [Expr.valueSum, Bits.carry_zero]
    cases a.testBit 0 <;> cases b.testBit 0 <;> rfl

theorem value_check (h : Assigns width a b f) {e : Expr} (he : e ∈ (system width).checks) :
    e.value f = false := by
  rcases mem_checks.mp he with ⟨k, hk, rfl⟩ | ⟨k, hk, rfl⟩
  · exact h.value_carryCheck hk
  · exact h.value_sumCheck hk

end Assigns

/-- Two numbers, the carries into the bits from the second on, and the sum. -/
def solution (width a b : Nat) : List Bool :=
  Bits.ofNat width a ++ (Bits.ofNat width b ++
    ((List.range (width - 1)).map (fun k => Bits.carry a b (k + 1)) ++ Bits.ofNat width (a + b)))

theorem assigns_solution (width a b : Nat) : Assigns width a b ((solution width a b).getD · false) := by
  constructor
  · intro k hk
    exact Bits.getD_of_ofNat (List.nil_append _).symm hk (Nat.zero_add _).symm
  · intro k hk
    have hsolution : solution width a b = Bits.ofNat width a ++ (Bits.ofNat width b ++ _) := rfl
    refine Bits.getD_of_ofNat hsolution hk ?_
    rw [Bits.length_ofNat]
    omega
  · intro k hpos hk
    have hindex : 2 * width + k - 1 - width - width = k - 1 := by omega
    rw [List.getD_eq_getElem?_getD, solution, List.getElem?_append_right (by simp; omega),
      List.getElem?_append_right (by simp; omega), Bits.length_ofNat, Bits.length_ofNat, hindex,
      List.getElem?_append_left (by simp; omega), List.getElem?_map, List.getElem?_range (by omega)]
    show Bits.carry a b (k - 1 + 1) = Bits.carry a b k
    rw [Nat.sub_add_cancel hpos]
  · intro k hk
    obtain ⟨front, hfront⟩ : ∃ front, front = Bits.ofNat width a ++ (Bits.ofNat width b ++
        (List.range (width - 1)).map fun k => Bits.carry a b (k + 1)) := ⟨_, rfl⟩
    have hlength : front.length = 2 * width + (width - 1) := by
      simp only [hfront, List.length_append, Bits.length_ofNat, List.length_map, List.length_range]
      omega
    have hsolution : solution width a b = front ++ (Bits.ofNat width (a + b) ++ []) := by
      simp [solution, hfront]
    exact Bits.getD_of_ofNat hsolution hk (by rw [hlength])

theorem length_numbers (width a b : Nat) :
    (Bits.ofNat width a ++ Bits.ofNat width b).length = (system width).inputs := by
  rw [List.length_append, Bits.length_ofNat, Bits.length_ofNat]
  exact (Nat.two_mul width).symm

theorem length_solution (width a b : Nat) : (solution width a b).length = (system width).length := by
  simp only [solution, system, ParitySystem.length, List.length_append, Bits.length_ofNat, List.length_map,
    List.length_range]
  omega

/-- The solution satisfies every check. -/
theorem evaluate_check (width a b : Nat) {e : Expr} (he : e ∈ (system width).checks) :
    e.evaluate (solution width a b) = some false := by
  obtain ⟨definitions, hdefinitions⟩ := exists_definitions width
  obtain ⟨check, hcheck⟩ := List.getElem?_of_mem he
  obtain ⟨v, hvar, -, hlt, -⟩ := ParitySystem.check_of_definitions hdefinitions hcheck
  have hbelow : e.Below (solution width a b).length := by
    rw [Expr.below_iff_maxVariable, hvar]
    rintro w ⟨⟩
    rwa [length_solution]
  rw [Expr.evaluate_eq_value hbelow, (assigns_solution width a b).value_check he]

theorem solve_eq (width a b : Nat) :
    (system width).solve (Bits.ofNat width a ++ Bits.ofNat width b) = .ok (solution width a b) := by
  obtain ⟨definitions, hdefinitions⟩ := exists_definitions width
  have hinputs : (solution width a b).take (system width).inputs =
      Bits.ofNat width a ++ Bits.ofNat width b := by
    rw [solution, ← List.append_assoc, List.take_left' (length_numbers width a b)]
  rw [← hinputs]
  exact (ParitySystem.solve_eq_ok_iff hdefinitions (length_solution width a b)).mpr fun check e he _ =>
    evaluate_check width a b (List.mem_of_getElem? he)

/-- The adder computes the lowest bits of the sum of two numbers. -/
theorem apply_eq (width a b : Nat) :
    (system width).apply (Bits.ofNat width a ++ Bits.ofNat width b) = .ok (Bits.ofNat width (a + b)) := by
  rw [ParitySystem.apply, solve_eq]
  show Except.ok ((solution width a b).drop _) = .ok (Bits.ofNat width (a + b))
  rw [solution, ← List.append_assoc, ← List.append_assoc, List.drop_left']
  simp only [system, ParitySystem.length, List.length_append, Bits.length_ofNat, List.length_map,
    List.length_range]
  omega

/-- The number of auxiliary variable `k - 1` among all variables is that of the carry into bit `k`. -/
theorem getElem?_solution_carry (hpos : 0 < k) (hk : k < width) :
    (solution width a b)[(system width).inputs + (k - 1)]? = some (Bits.carry a b k) := by
  have hindex : (system width).inputs + (k - 1) = 2 * width + k - 1 := by
    show 2 * width + (k - 1) = _
    omega
  have hlt : 2 * width + k - 1 < (solution width a b).length := by
    rw [length_solution]
    show _ < 2 * width + (width - 1) + width
    omega
  have hcarry := (assigns_solution width a b).carry k hpos hk
  rw [List.getD_eq_getElem?_getD, List.getElem?_eq_getElem hlt, Option.getD_some] at hcarry
  rw [hindex, List.getElem?_eq_getElem hlt, hcarry]

/-- Every bit of both numbers matters. -/
theorem apply_set_ne {v : Nat} (hv : v < 2 * width) :
    (system width).apply ((Bits.ofNat width 0 ++ Bits.ofNat width 0).set v true) ≠
      (system width).apply (Bits.ofNat width 0 ++ Bits.ofNat width 0) := by
  obtain ⟨k, hk, hset⟩ : ∃ k < width, (system width).apply
      ((Bits.ofNat width 0 ++ Bits.ofNat width 0).set v true) = .ok (Bits.ofNat width (2 ^ k)) := by
    by_cases hfirst : v < width
    · obtain ⟨k, hk, rfl⟩ : ∃ k < width, v = width - 1 - k := ⟨width - 1 - v, by omega, by omega⟩
      refine ⟨k, hk, ?_⟩
      rw [List.set_append_left _ _ (by rwa [Bits.length_ofNat]), Bits.set_ofNat_zero hk, apply_eq,
        Nat.add_zero]
    · obtain ⟨k, hk, hindex⟩ : ∃ k < width, v - width = width - 1 - k :=
        ⟨width - 1 - (v - width), by omega, by omega⟩
      refine ⟨k, hk, ?_⟩
      rw [List.set_append_right _ _ (by rw [Bits.length_ofNat]; omega), Bits.length_ofNat, hindex,
        Bits.set_ofNat_zero hk, apply_eq, Nat.zero_add]
  rw [hset, apply_eq]
  intro hsame
  exact Bits.getElem?_two_pow_ne hk (congrArg (·[width - 1 - k]?) (Except.ok.inj hsame))

/-- The adder is a function, and it adds modulo `2 ^ width`. When it is solved for two numbers its auxiliary
variables are the carries of the sum, and the solution satisfies every check. -/
theorem system_adds (width a b : Nat) :
    (∃ definitions, (system width).definitions = .ok definitions) ∧
      (system width).apply (Bits.ofNat width a ++ Bits.ofNat width b) =
        .ok (Bits.ofNat width ((a + b) % 2 ^ width)) ∧
      ∃ values, (system width).solve (Bits.ofNat width a ++ Bits.ofNat width b) = .ok values ∧
        (∀ k, 0 < k → k < width →
          values[(system width).inputs + (k - 1)]? = some (Bits.carry a b k)) ∧
        (system width).isSatisfied values = some true := by
  obtain ⟨definitions, hdefinitions⟩ := exists_definitions width
  obtain ⟨answer, hanswer, hiff⟩ :=
    ParitySystem.exists_isSatisfied hdefinitions (length_solution width a b)
  refine ⟨⟨definitions, hdefinitions⟩, ?_, solution width a b, solve_eq width a b,
    fun k hpos hk => getElem?_solution_carry hpos hk, ?_⟩
  · rw [Bits.ofNat_mod, apply_eq]
  · rw [hanswer, hiff.mpr fun check e he => evaluate_check width a b (List.mem_of_getElem? he)]

theorem system_adds_two_hundred :
    ∃ values, (system 8).apply (Bits.ofNat 8 200 ++ Bits.ofNat 8 100) = .ok (Bits.ofNat 8 44) ∧
      (system 8).solve (Bits.ofNat 8 200 ++ Bits.ofNat 8 100) = .ok values ∧
      values[(system 8).inputs + 6]? = some true ∧ (system 8).isSatisfied values = some true := by
  obtain ⟨-, happly, values, hsolve, hcarry, hsatisfied⟩ := system_adds 8 200 100
  exact ⟨values, happly, hsolve, hcarry 7 (by decide) (by decide), hsatisfied⟩

end HalfGates.ParityAdder
