import HalfGates.Program.Adder
import HalfGates.Proofs.Constraint.Adder
import HalfGates.Proofs.Program.Evaluation
import HalfGates.Proofs.Program.Simplification

/-!
# The ripple-carry adder adds

The gates of a bit read its two inputs, at offsets that grow from bit to bit, and the carry, which is the last
gate before them. From the carry into a bit they make the sum bit and the carry out of it, so that all carries
and sum bits are found by induction over the bits.

## Main definitions

- `RippleCarry.operations`: the operations of the adder, in order
- `RippleCarry.Adds`: a program with these operations
- `RippleCarry.Adds.value_carry`, `RippleCarry.Adds.value_sum`: the carries and the sum bits of a run
- `RippleCarry.adder_adds`: the adder exists for every width and computes the sum
-/

namespace HalfGates

/-- The entry in place `j` of block `i` of a list that is made of blocks of equal length. -/
theorem getElem?_flatMap_range {α : Type} {f : Nat → List α} {n : Nat} (hf : ∀ i, (f i).length = n)
    {count i j : Nat} (hi : i < count) (hj : j < n) :
    ((List.range count).flatMap f)[n * i + j]? = (f i)[j]? := by
  have hlength : ∀ k, ((List.range k).flatMap f).length = n * k := by
    intro k
    simp [List.length_flatMap, hf, Nat.mul_comm]
  induction count with
  | zero => exact absurd hi (Nat.not_lt_zero i)
  | succ count ih =>
    rw [List.range_succ, List.flatMap_append, List.flatMap_singleton]
    rcases Nat.lt_succ_iff_lt_or_eq.mp hi with hlt | rfl
    · have hbefore : n * i + j < n * count := by
        calc n * i + j < n * i + n := Nat.add_lt_add_left hj _
          _ = n * (i + 1) := (Nat.mul_succ n i).symm
          _ ≤ n * count := Nat.mul_le_mul_left n hlt
      rw [List.getElem?_append_left (by rwa [hlength]), ih hlt]
    · rw [List.getElem?_append_right (by rw [hlength]; exact Nat.le_add_right _ _), hlength,
        Nat.add_sub_cancel_left]

namespace RippleCarry

variable {width i j k a b : Nat}

/-- The operations of bit `i`. -/
def bitOperations (width i : Nat) : List (Operation Nat) :=
  [.unary false (2 + width + 8 * i), .unary false (3 + 8 * i), .linear false 3 2, .linear false 4 2,
    .linear false 2 3, .conjunction false false false 3 2, .linear false 7 1]

/-- The operations of all gates: the inputs, the carry into the lowest bit, and the bits. -/
def operations (width : Nat) : List (Operation Nat) :=
  List.replicate (2 * width) .input ++ ([.constant false] ++ (List.range width).flatMap (bitOperations width))

/-- The position of the gate in place `j` of bit `i`. -/
def place (width i j : Nat) : Nat :=
  2 * width + (1 + (7 * i + j))

theorem place_sub_succ (width i j : Nat) : place width i j - (j + 1) = 2 * width + 7 * i := by
  rw [place]
  omega

theorem place_add_sub (width i j d : Nat) : place width i (j + d) - d = place width i j := by
  rw [place, place]
  omega

@[simp] theorem length_operations (width : Nat) : (operations width).length = 9 * width + 1 := by
  simp [operations, List.length_flatMap, bitOperations]
  omega

theorem getElem?_operations_input (hk : k < 2 * width) : (operations width)[k]? = some .input := by
  rw [operations, List.getElem?_append_left (by simpa using hk), List.getElem?_replicate, if_pos hk]

theorem getElem?_operations_constant (width : Nat) :
    (operations width)[2 * width]? = some (.constant false) := by
  simp [operations]

theorem getElem?_operations_bit (hi : i < width) (hj : j < 7) :
    (operations width)[place width i j]? = (bitOperations width i)[j]? := by
  rw [operations, place, List.getElem?_append_right (by simp), List.length_replicate, Nat.add_sub_cancel_left,
    List.getElem?_append_right (by simp), List.length_singleton, Nat.add_sub_cancel_left]
  exact @getElem?_flatMap_range _ (bitOperations width) 7 (fun _ => rfl) width i j hi hj

/-- Every gate is an input, the first carry, or the gate in some place of some bit. -/
theorem position_cases (hk : k < 9 * width + 1) :
    k < 2 * width ∨ k = 2 * width ∨ ∃ i j, i < width ∧ j < 7 ∧ k = place width i j := by
  rcases Nat.lt_trichotomy k (2 * width) with hlt | heq | hgt
  · exact .inl hlt
  · exact .inr (.inl heq)
  · refine .inr (.inr ⟨(k - 2 * width - 1) / 7, (k - 2 * width - 1) % 7, ?_, Nat.mod_lt _ (by decide), ?_⟩)
    · omega
    · rw [place]
      omega

/-- The offsets of a bit reach back to its inputs and no further. -/
theorem operands_bit {op : Operation Nat} (hi : i < width) (hop : (bitOperations width i)[j]? = some op) :
    ∀ d ∈ op.operands, 0 < d ∧ d ≤ place width i j := by
  have hj : j < 7 := (List.getElem?_eq_some_iff.mp hop).1
  rw [place]
  match j with
  | 0 | 1 | 2 | 3 | 4 | 5 | 6 =>
    obtain rfl := Option.some.inj hop
    simp only [Operation.operands, List.mem_cons, List.not_mem_nil, or_false]
    intro d hd
    omega

theorem operands_operations {op : Operation Nat} (hop : (operations width)[k]? = some op) :
    ∀ d ∈ op.operands, 0 < d ∧ d ≤ k := by
  have hk : k < 9 * width + 1 := by simpa using (List.getElem?_eq_some_iff.mp hop).1
  rcases position_cases hk with hlt | rfl | ⟨i, j, hi, hj, rfl⟩
  · rw [getElem?_operations_input hlt] at hop
    obtain rfl := Option.some.inj hop
    simp [Operation.operands]
  · rw [getElem?_operations_constant] at hop
    obtain rfl := Option.some.inj hop
    simp [Operation.operands]
  · rw [getElem?_operations_bit hi hj] at hop
    exact operands_bit hi hop

/-- The requests ask for the operations. -/
theorem map_requests (width : Nat) :
    (requests width).map (fun r => Operation.ofKind? r.kind r.offsets) = (operations width).map some := by
  have hbit : ∀ i, (bit width i).map (fun r => Operation.ofKind? r.kind r.offsets) =
      (bitOperations width i).map some := fun _ => rfl
  simp only [requests, operations, List.map_append, List.map_replicate, List.map_flatMap, hbit,
    List.append_assoc]
  rfl

/-! ### A run of the adder -/

/-- A program with the operations of the adder and the sum bits as its outputs. -/
structure Adds (width : Nat) (p : Program) : Prop where
  gates : p.gates.map Gate.op = operations width
  outputs : p.outputs = outputs width

theorem exists_adder (width : Nat) : ∃ p, adder width = .ok p ∧ Adds width p := by
  obtain ⟨past, hpast, hops⟩ := Builder.exists_addAll (b := .empty) (map_requests width)
    fun k op hop d hd => by simpa [Builder.empty] using operands_operations hop d hd
  have hlength : past.length = 9 * width + 1 := by
    rw [← length_operations, ← hops, List.length_map, List.length_reverse]
  have hbuild : (Builder.withOutputs { Builder.empty with past := past ++ [] } (outputs width)).build =
      .ok ⟨past.reverse, outputs width⟩ := by
    rw [List.append_nil]
    refine Builder.build_eq_ok_iff.mpr ⟨fun i hi => ?_, rfl⟩
    obtain ⟨k, hk, rfl⟩ := List.mem_map.mp hi
    have hlt : k < width := List.mem_range.mp hk
    show width * 9 - k * 7 - 2 < past.length
    omega
  refine ⟨⟨past.reverse, outputs width⟩, ?_, hops, rfl⟩
  rw [adder]
  exact bind_eq_ok.mpr ⟨_, hpast, hbuild⟩

namespace Adds

variable {p : Program} (h : Adds width p)
include h

theorem length_eq : p.length = 9 * width + 1 := by
  rw [← length_operations, ← h.gates, List.length_map]
  rfl

theorem count_kind (test : GateKind → Bool) :
    (p.gates.countP fun g => test g.kind) = (operations width).countP fun op => test op.kind := by
  rw [← h.gates, List.countP_map]
  rfl

/-- Every bit costs one conjunction. -/
theorem nonlinearCount_eq : p.nonlinearCount = width := by
  rw [Program.nonlinearCount, h.count_kind GateKind.isNonlinear]
  simp [operations, bitOperations, List.countP_flatMap, List.countP_replicate,
    Function.comp_def, Operation.kind, GateKind.isNonlinear]

theorem sourceCount_eq : p.sourceCount = 2 * width := by
  rw [Program.sourceCount, h.count_kind GateKind.isSource]
  simp [operations, bitOperations, List.countP_flatMap, List.countP_replicate,
    Function.comp_def, Operation.kind, GateKind.isSource]

theorem exists_gate {op : Operation Nat} (hop : (operations width)[k]? = some op) :
    ∃ g, p.gates[k]? = some g ∧ g.op = op := by
  rw [← h.gates, List.getElem?_map] at hop
  exact Option.map_eq_some_iff.mp hop

/-- An input has its bit. -/
theorem value_input (bits : List Bool) (hk : k < 2 * width) :
    (p.values bits).getD k false = bits.getD k false := by
  obtain ⟨g, hg, hop⟩ := h.exists_gate (getElem?_operations_input hk)
  have hsource : g.kind.isSource = true := by
    rw [Gate.kind, hop]
    rfl
  -- all gates before an input are inputs
  have hbefore : ((p.gates.take k).countP fun g => g.kind.isSource) = k := by
    have htake : (p.gates.take k).map Gate.op = List.replicate k .input := by
      rw [List.map_take, h.gates, operations,
        List.take_append_of_le_length (by simpa using Nat.le_of_lt hk), List.take_replicate,
        Nat.min_eq_left (Nat.le_of_lt hk)]
    have hcount := congrArg (List.countP fun op => op.kind.isSource) htake
    rw [List.countP_map, List.countP_replicate] at hcount
    exact hcount
  rw [Program.getD_values_of_isSource bits hg hsource, hbefore]

theorem value_first (a b : Nat) (hi : i < width) :
    (p.values (Bits.ofNat width a ++ Bits.ofNat width b)).getD (width - 1 - i) false = a.testBit i := by
  rw [h.value_input _ (by omega)]
  exact Bits.getD_of_ofNat (List.nil_append _).symm hi (Nat.zero_add _).symm

theorem value_second (a b : Nat) (hi : i < width) :
    (p.values (Bits.ofNat width a ++ Bits.ofNat width b)).getD (2 * width - 1 - i) false = b.testBit i := by
  rw [h.value_input _ (by omega)]
  refine Bits.getD_of_ofNat (congrArg _ (List.append_nil _).symm) hi ?_
  rw [Bits.length_ofNat]
  omega

/-- Any other gate has the value of its operation. -/
theorem value_eq (bits : List Bool) {op : Operation Nat} (hop : (operations width)[k]? = some op)
    (hsource : op.kind.isSource = false) :
    (p.values bits).getD k false = (op.map fun d => (p.values bits).getD (k - d) false).value false := by
  obtain ⟨g, hg, rfl⟩ := h.exists_gate hop
  exact Program.getD_values bits hg hsource (operands_operations hop) false

theorem value_bit (bits : List Bool) {op : Operation Nat} (hi : i < width)
    (hop : (bitOperations width i)[j]? = some op) (hsource : op.kind.isSource = false) :
    (p.values bits).getD (place width i j) false =
      (op.map fun d => (p.values bits).getD (place width i j - d) false).value false := by
  have hj : j < 7 := (List.getElem?_eq_some_iff.mp hop).1
  exact h.value_eq bits ((getElem?_operations_bit hi hj).trans hop) hsource

/-- What the gates of a bit make of its inputs and of the carry. -/
theorem value_places (bits : List Bool) (hi : i < width) {x y c : Bool}
    (hx : (p.values bits).getD (width - 1 - i) false = x)
    (hy : (p.values bits).getD (2 * width - 1 - i) false = y)
    (hc : (p.values bits).getD (2 * width + 7 * i) false = c) :
    (p.values bits).getD (place width i 4) false = (x ^^ y ^^ c) ∧
      (p.values bits).getD (place width i 6) false = (x && y ^^ (c && (x ^^ y))) := by
  obtain ⟨f, hf⟩ : ∃ f : Nat → Bool, ∀ k, (p.values bits).getD k false = f k := ⟨_, fun _ => rfl⟩
  have hgate : ∀ (j : Nat) {op : Operation Nat}, (bitOperations width i)[j]? = some op →
      op.kind.isSource = false → f (place width i j) = (op.map fun d => f (place width i j - d)).value false := by
    intro j op hop hsource
    simpa only [hf] using h.value_bit bits hi hop hsource
  have hcarry : ∀ j, f (place width i j - (j + 1)) = c := by
    intro j
    rw [place_sub_succ, ← hf, hc]
  have hback : ∀ j d, f (place width i (j + d) - d) = f (place width i j) := fun j d =>
    congrArg f (place_add_sub width i j d)
  have hfirst : f (place width i 0) = x := by
    rw [hgate 0 rfl rfl, ← hx, hf, place]
    exact (Bool.xor_false _).trans (congrArg f (by omega))
  have hsecond : f (place width i 1) = y := by
    rw [hgate 1 rfl rfl, ← hy, hf, place]
    exact (Bool.xor_false _).trans (congrArg f (by omega))
  have hcx : f (place width i 2) = (c ^^ x) := by
    calc f (place width i 2)
        = ((f (place width i 2 - 3) ^^ f (place width i 2 - 2)) ^^ false) := hgate 2 rfl rfl
      _ = (c ^^ x) := by rw [hcarry 2, hback 0 2, hfirst, Bool.xor_false]
  have hcy : f (place width i 3) = (c ^^ y) := by
    calc f (place width i 3)
        = ((f (place width i 3 - 4) ^^ f (place width i 3 - 2)) ^^ false) := hgate 3 rfl rfl
      _ = (c ^^ y) := by rw [hcarry 3, hback 1 2, hsecond, Bool.xor_false]
  have hsum : f (place width i 4) = ((c ^^ x) ^^ y) := by
    calc f (place width i 4)
        = ((f (place width i 4 - 2) ^^ f (place width i 4 - 3)) ^^ false) := hgate 4 rfl rfl
      _ = ((c ^^ x) ^^ y) := by rw [hback 2 2, hback 1 3, hcx, hsecond, Bool.xor_false]
  have hboth : f (place width i 5) = ((c ^^ x) && (c ^^ y)) := by
    calc f (place width i 5)
        = (((f (place width i 5 - 3) ^^ false) && (f (place width i 5 - 2) ^^ false)) ^^ false) :=
          hgate 5 rfl rfl
      _ = ((c ^^ x) && (c ^^ y)) := by
          rw [hback 2 3, hback 3 2, hcx, hcy, Bool.xor_false, Bool.xor_false, Bool.xor_false]
  have hnext : f (place width i 6) = (c ^^ ((c ^^ x) && (c ^^ y))) := by
    calc f (place width i 6)
        = ((f (place width i 6 - 7) ^^ f (place width i 6 - 1)) ^^ false) := hgate 6 rfl rfl
      _ = (c ^^ ((c ^^ x) && (c ^^ y))) := by rw [hcarry 6, hback 5 1, hboth, Bool.xor_false]
  rw [hf, hf, hsum, hnext]
  cases x <;> cases y <;> cases c <;> exact ⟨rfl, rfl⟩

/-- The last gate before a bit has the carry into it. -/
theorem value_carry (a b : Nat) (hi : i ≤ width) :
    (p.values (Bits.ofNat width a ++ Bits.ofNat width b)).getD (2 * width + 7 * i) false =
      Bits.carry a b i := by
  induction i with
  | zero => exact (h.value_eq _ (getElem?_operations_constant width) rfl).trans (Bits.carry_zero a b).symm
  | succ i ih =>
    have hlt : i < width := hi
    have hplaces := h.value_places _ hlt (h.value_first a b hlt) (h.value_second a b hlt) (ih (Nat.le_of_lt hlt))
    have hlast : place width i 6 = 2 * width + 7 * (i + 1) := by
      rw [place]
      omega
    rw [← hlast, hplaces.2, Bits.carry_succ]

/-- The fifth gate of a bit has the bit of the sum. -/
theorem value_sum (a b : Nat) (hi : i < width) :
    (p.values (Bits.ofNat width a ++ Bits.ofNat width b)).getD (place width i 4) false =
      (a + b).testBit i := by
  have hplaces := h.value_places _ hi (h.value_first a b hi) (h.value_second a b hi)
    (h.value_carry a b (Nat.le_of_lt hi))
  rw [hplaces.1, Bits.testBit_add]

/-- The outputs are the bits of the sum. -/
theorem atOutputs_eq (a b : Nat) :
    p.atOutputs (p.values (Bits.ofNat width a ++ Bits.ofNat width b)) = Bits.ofNat width (a + b) := by
  rw [Program.atOutputs, h.outputs, RippleCarry.outputs, List.map_map]
  refine List.ext_getElem? fun k => ?_
  by_cases hk : k < width
  · obtain ⟨i, hi, rfl⟩ : ∃ i, i < width ∧ k = width - 1 - i := ⟨width - 1 - k, by omega, by omega⟩
    have hplace : width * 9 - (width - 1 - i) * 7 - 2 = place width i 4 := by
      rw [place]
      omega
    rw [Bits.getElem?_ofNat hi, List.getElem?_map, List.getElem?_range hk, Option.map_some,
      Function.comp_apply, hplace, h.value_sum a b hi]
  · rw [List.getElem?_eq_none (by simpa using hk), List.getElem?_eq_none (by simpa using hk)]

theorem eval_eq (a b : Nat) :
    p.eval (Bits.ofNat width a ++ Bits.ofNat width b) = .ok (Bits.ofNat width (a + b)) := by
  have hcount : (Bits.ofNat width a ++ Bits.ofNat width b).length = p.sourceCount := by
    rw [h.sourceCount_eq, List.length_append, Bits.length_ofNat, Bits.length_ofNat, Nat.two_mul]
  rw [Program.eval_eq_ok hcount, h.atOutputs_eq]

end Adds

/-- For every width there is an adder, which costs one conjunction for each bit and adds modulo `2 ^ width`. On
any bits for its inputs it gives what the system of parity checks for that width gives. -/
theorem adder_adds (width : Nat) :
    ∃ p, adder width = .ok p ∧ p.length = 9 * width + 1 ∧ p.nonlinearCount = width ∧
      (∀ a b, p.eval (Bits.ofNat width a ++ Bits.ofNat width b) =
        .ok (Bits.ofNat width ((a + b) % 2 ^ width))) ∧
      ∀ bits, bits.length = 2 * width → ∃ outputs,
        p.eval bits = .ok outputs ∧ (ParityAdder.system width).apply bits = .ok outputs := by
  obtain ⟨p, hp, h⟩ := exists_adder width
  refine ⟨p, hp, h.length_eq, h.nonlinearCount_eq, fun a b => ?_, fun bits hbits => ?_⟩
  · rw [Bits.ofNat_mod, h.eval_eq]
  · -- the bits are those of the two numbers that their halves stand for
    obtain ⟨first, second, hfirst, hsecond, rfl⟩ : ∃ first second : List Bool,
        first.length = width ∧ second.length = width ∧ bits = first ++ second :=
      ⟨bits.take width, bits.drop width, by simp; omega, by simp; omega, (List.take_append_drop _ _).symm⟩
    have hnumbers : first ++ second =
        Bits.ofNat width (Bits.toNat first) ++ Bits.ofNat width (Bits.toNat second) := by
      have ha := Bits.ofNat_toNat first
      have hb := Bits.ofNat_toNat second
      rw [hfirst] at ha
      rw [hsecond] at hb
      rw [ha, hb]
    rw [hnumbers]
    exact ⟨_, h.eval_eq _ _, ParityAdder.apply_eq width _ _⟩

theorem adder_adds_one_bit :
    ∃ p, adder 1 = .ok p ∧ p.length = 10 ∧ p.nonlinearCount = 1 ∧ p.eval [true, true] = .ok [false] ∧
      ∃ outputs, p.eval [true, false] = .ok outputs ∧
        (ParityAdder.system 1).apply [true, false] = .ok outputs := by
  obtain ⟨p, hp, hlength, hcount, hadds, hagrees⟩ := adder_adds 1
  exact ⟨p, hp, hlength, hcount, hadds 1 1, hagrees [true, false] rfl⟩

end RippleCarry

end HalfGates
