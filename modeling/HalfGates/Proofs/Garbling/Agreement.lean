import HalfGates.Proofs.Garbling.Joint

/-!
# The two parties treat operations alike

Whatever the operation is, if the generator ends with the wire of a label for zero and a value, then the
evaluator, given the rows of the generator, ends with the label of this value.

## Main definitions

- `Agrees`: the two parties treat an operation alike
- `Garbler.nextBit`: the bit that a source takes
- `Garbler.operation_agrees`: they treat every operation alike
-/

namespace HalfGates

/-- The two parties treat an operation of gate `g` alike: with the value `value`, the generator ends with
the wire `w` and the state `s'`, and the evaluator, who follows `rule`, with the label of the value. -/
structure Agrees (setup : GarblingSetup) (g : Gate) (s s' : Garbler) (value : Bool) (w : Wire)
    (rows : BitView)
    (rule : BitView → GarbledRun → Except EvaluationError (Block × BitView × GarbledRun)) : Prop where
  wire : w = (⟨w.zero, g.scope, value⟩ : JointWire).wire
  isRows : ∃ count ≤ 2, rows.IsRows count
  opens : Opens rule rows.toBits
    (if g.isEvaluatorInput then [w.zero ^^^ setup.delta.times value] else [])
    (w.zero ^^^ setup.delta.times value)
  past : s'.past = s.past
  pushed : s'.pushed = s.pushed
  inputsUsed : s'.inputsUsed = s.inputsUsed + g.isGeneratorInput.toNat
  randomUsed : s'.randomUsed = s.randomUsed + (g.kind == .random).toNat

/-- Unless both parties know a conjunction, the evaluator decides by the scopes of the operands. -/
theorem GarbledRun.operation_conjunction (hash : TweakedHash) (δ : Delta) (index : Nat)
    {g : Gate} (p q n : Bool) (x y : JointWire) (h : (g.scope.generator && g.scope.evaluator) = false) :
    (fun payload (e : GarbledRun) => e.operation hash index g payload
      (.conjunction p q n (x.held δ) (y.held δ))) = fun payload (e : GarbledRun) =>
      if x.wire.scope.generator || y.wire.scope.generator then
        e.generatorHalf hash ⟨index, 0⟩ (x.held δ) (y.held δ) payload
      else if x.wire.scope.evaluator || y.wire.scope.evaluator then
        e.evaluatorHalf hash ⟨index, 0⟩ (g.operandAt index 0) (g.operandAt index 1) p q (x.held δ)
          (y.held δ) payload
      else e.split hash index g p q (x.held δ) (y.held δ) payload := by
  funext payload e
  rw [GarbledRun.operation, h]
  rfl

namespace Garbler

/-- The generator's value of a gate is the value, if it knows one. -/
theorem knownBit_eq_ok {place : Tweak} {scope : Scope} {found bit : Option Bool} {value : Bool}
    (h : knownBit place scope found = .ok bit) (hfound : ∀ b, found = some b → b = value) :
    bit = if scope.generator then some value else none := by
  cases hscope : scope.generator with
  | false =>
    simp only [knownBit, hscope, Bool.false_eq_true, if_false] at h
    exact (Except.ok.inj h).symm
  | true =>
    simp only [knownBit, hscope, if_true] at h
    cases hbit : found with
    | none =>
      rw [hbit] at h
      cases h
    | some b =>
      rw [hbit] at h
      rw [← Except.ok.inj h, hfound b hbit]
      rfl

/-- A value found from those of two wires is that of the wires' values. -/
theorem eq_of_bind_bits {x y : JointWire} {f : Bool → Bool → Bool} {b : Bool}
    (h : (x.wire.bit.bind fun a => y.wire.bit.map (f a)) = some b) : b = f x.value y.value := by
  obtain ⟨a, ha, h⟩ := Option.bind_eq_some_iff.mp h
  obtain ⟨c, hc, rfl⟩ := Option.map_eq_some_iff.mp h
  rw [JointWire.value_of_bit ha, JointWire.value_of_bit hc]

section operations

variable {setup : GarblingSetup} {index : Nat} {scope : Scope} {s s' : Garbler} {w : Wire}
  {rows : BitView}

/-- An operation that draws nothing is treated alike if its label is found without an input label. -/
theorem agrees_of_opens {rule} {g : Gate} {value : Bool} (hsource : g.kind.isSource = false)
    (hwire : w = (⟨w.zero, g.scope, value⟩ : JointWire).wire) {count : Nat} (hcount : count ≤ 2)
    (hrows : rows.IsRows count)
    (hopens : Opens rule rows.toBits [] (w.zero ^^^ setup.delta.times value))
    (hdraws : SameDraws s s') : Agrees setup g s s' value w rows rule := by
  have hinput : (g.kind == .input) = false := by
    cases hk : g.kind <;> simp [hk, GateKind.isSource] at hsource <;> rfl
  have hrandom : (g.kind == .random) = false := by
    cases hk : g.kind <;> simp [hk, GateKind.isSource] at hsource <;> rfl
  refine ⟨hwire, ⟨count, hcount, hrows⟩, ?_, hdraws.past, hdraws.pushed, ?_, ?_⟩
  · simpa [Gate.isEvaluatorInput, hinput] using hopens
  · simp [Gate.isGeneratorInput, hinput, hdraws.inputsUsed]
  · simp [hrandom, hdraws.randomUsed]

/-- A public wire is the wire of its bit, and its label is zero. -/
theorem wire_publicWire (setup : GarblingSetup) {scope : Scope} (bit : Bool)
    (hscope : scope.generator = true) :
    publicWire setup scope bit = (⟨setup.delta.times bit, scope, bit⟩ : JointWire).wire := by
  simp [publicWire, JointWire.wire, hscope]

theorem source_of_generator {isInput : Bool} {e : GarbledRun} (hscope : scope.generator = true) :
    GarbledRun.source index isInput scope e = .ok (0, e) :=
  if_pos hscope

/-- An input has the next bit of its party. -/
theorem input_agrees {g : Gate} (hop : g.kind = .input) {supplied : Bool}
    (hsupplied : g.scope.generator = true → setup.inputs[s.inputsUsed]?.getD false = supplied)
    (h : operation setup index g s .input = .ok (w, rows, s')) :
    Agrees setup g s s' supplied w rows
      fun payload e => e.operation setup.hash index g payload .input := by
  obtain ⟨⟨wire, s₁⟩, hinput, h⟩ := bind_eq_ok.mp h
  cases h
  have hkind : (g.kind == .input) = true := by
    rw [hop]
    rfl
  have hrandom : (g.kind == .random) = false := by
    rw [hop]
    rfl
  cases hscope : g.scope.generator with
  | true =>
    rw [input, if_pos hscope] at hinput
    split at hinput
    · next bit hbit =>
      cases hinput
      have hvalue : bit = supplied := by simpa [hbit] using hsupplied hscope
      subst hvalue
      refine ⟨wire_publicWire setup bit hscope, ⟨0, by decide, BitView.isRows_empty⟩, ?_, rfl, rfl, ?_, ?_⟩
      · have hlabel : (publicWire setup g.scope bit).zero ^^^ setup.delta.times bit = 0 :=
          BitVec.xor_self
        simp only [Gate.isEvaluatorInput, hscope, hkind, hlabel]
        refine Opens.of_label fun payload e => ?_
        rw [GarbledRun.operation, source_of_generator hscope]
        rfl
      · simp [Gate.isGeneratorInput, hkind, hscope]
      · simp [hrandom]
    · cases hinput
  | false =>
    rw [input, if_neg (by simp [hscope])] at hinput
    cases hinput
    refine ⟨by simp [JointWire.wire, hscope], ⟨0, by decide, BitView.isRows_empty⟩, ?_, rfl, rfl,
      ?_, ?_⟩
    · intro payload e tail inputs haligned hbits hinputs
      simp only [Gate.isEvaluatorInput, hscope, hkind] at hinputs
      refine ⟨payload, { e with inputs := inputs }, ?_, rfl, rfl, haligned, hbits⟩
      simp [GarbledRun.operation, GarbledRun.source, hscope, hinputs]
    · simp [Gate.isGeneratorInput, hscope]
    · simp [hrandom]

/-- A random bit that the generator knows is the next one of the random stream. -/
theorem random_agrees {g : Gate} (hop : g.kind = .random) (hscope : g.scope.generator = true)
    (hpushed : s.pushed = []) (h : operation setup index g s .random = .ok (w, rows, s')) :
    Agrees setup g s s' (setup.randomBits s.randomUsed) w rows
      fun payload e => e.operation setup.hash index g payload .random := by
  have hinput : (g.kind == .input) = false := by
    rw [hop]
    rfl
  have hkind : (g.kind == .random) = true := by
    rw [hop]
    rfl
  have hdraw : s.random setup g.scope = (publicWire setup g.scope (setup.randomBits s.randomUsed),
      { s with randomUsed := s.randomUsed + 1 }) := by
    simp [random, drawBit, hscope, hpushed]
  rw [operation, hdraw] at h
  cases h
  refine ⟨wire_publicWire setup _ hscope, ⟨0, by decide, BitView.isRows_empty⟩, ?_, rfl, rfl, ?_, ?_⟩
  · have hlabel : (publicWire setup g.scope (setup.randomBits s.randomUsed)).zero ^^^
        setup.delta.times (setup.randomBits s.randomUsed) = 0 := BitVec.xor_self
    simp only [Gate.isEvaluatorInput, hinput, hlabel]
    refine Opens.of_label fun payload e => ?_
    rw [GarbledRun.operation, source_of_generator hscope]
    rfl
  · simp [Gate.isGeneratorInput, hinput]
  · simp [hkind]

/-- A constant is public. -/
theorem constant_agrees {g : Gate} {value : Bool} (hop : g.kind = .constant value)
    (hscope : g.scope = .both) (h : operation setup index g s (.constant value) = .ok (w, rows, s')) :
    Agrees setup g s s' value w rows
      fun payload e => e.operation setup.hash index g payload (.constant value) := by
  cases h
  have hgenerator : g.scope.generator = true := by rw [hscope]; rfl
  refine agrees_of_opens (by simp [hop, GateKind.isSource])
    (wire_publicWire setup value hgenerator) (by decide) BitView.isRows_empty ?_ (.refl s)
  have hlabel : (publicWire setup g.scope value).zero ^^^ setup.delta.times value = 0 :=
    BitVec.xor_self
  rw [hlabel]
  refine Opens.of_label fun payload e => ?_
  rw [GarbledRun.operation, source_of_generator hgenerator]
  rfl

/-- A negation moves Δ from the label to the label for zero. -/
theorem unary_agrees {g : Gate} {n : Bool} {x : JointWire} (hop : g.kind = .unary n)
    (h : operation setup index g s (.unary n x.wire) = .ok (w, rows, s')) :
    Agrees setup g s s' (x.value ^^ n) w rows
      fun payload e => e.operation setup.hash index g payload (.unary n (x.held setup.delta)) := by
  obtain ⟨bit, hbit, h⟩ := bind_eq_ok.mp h
  cases h
  have hknown := knownBit_eq_ok hbit fun b hb => by
    obtain ⟨a, ha, rfl⟩ := Option.map_eq_some_iff.mp hb
    rw [JointWire.value_of_bit ha]
  refine agrees_of_opens (by simp [hop, GateKind.isSource])
    (by rw [hknown]; rfl) (by decide) BitView.isRows_empty ?_ (.refl s)
  refine Opens.of_label fun payload e => ?_
  have hlabel : (x.zero ^^^ setup.delta.times n) ^^^ setup.delta.times (x.value ^^ n) =
      x.label setup.delta := by
    rw [Delta.times_xor]
    exact xor_xor_xor_cancel _ _ _
  rw [GarbledRun.operation]
  exact congrArg (fun label => Except.ok (label, payload, e)) hlabel.symm

/-- The exclusive or of two labels is the label of the exclusive or. -/
theorem linear_agrees {g : Gate} {n : Bool} {x y : JointWire} (hop : g.kind = .linear n)
    (h : operation setup index g s (.linear n x.wire y.wire) = .ok (w, rows, s')) :
    Agrees setup g s s' ((x.value ^^ y.value) ^^ n) w rows fun payload e =>
      e.operation setup.hash index g payload
        (.linear n (x.held setup.delta) (y.held setup.delta)) := by
  obtain ⟨bit, hbit, h⟩ := bind_eq_ok.mp h
  cases h
  have hknown := knownBit_eq_ok hbit fun b hb => eq_of_bind_bits hb
  refine agrees_of_opens (by simp [hop, GateKind.isSource])
    (by rw [hknown]; rfl) (by decide) BitView.isRows_empty ?_ (.refl s)
  refine Opens.of_label fun payload e => ?_
  have hlabel : (x.zero ^^^ y.zero ^^^ setup.delta.times n) ^^^
      setup.delta.times ((x.value ^^ y.value) ^^ n) =
      x.label setup.delta ^^^ y.label setup.delta := by
    rw [JointWire.label, JointWire.label, Delta.xor_labels, Delta.times_xor]
    exact xor_xor_xor_cancel _ _ _
  rw [GarbledRun.operation]
  exact congrArg (fun label => Except.ok (label, payload, e)) hlabel.symm

/-- A conjunction is public, or one half gate, or two. -/
theorem conjunction_agrees {g : Gate} {p q n : Bool} {x y : JointWire}
    (hop : g.kind = .conjunction p q n)
    (h : operation setup index g s (.conjunction p q n x.wire y.wire) = .ok (w, rows, s')) :
    Agrees setup g s s' (conjoin p q n x.value y.value) w rows fun payload e =>
      e.operation setup.hash index g payload
        (.conjunction p q n (x.held setup.delta) (y.held setup.delta)) := by
  obtain ⟨bit, hbit, h⟩ := bind_eq_ok.mp h
  have hsource : g.kind.isSource = false := by
    simp [hop, GateKind.isSource]
  have hknown := knownBit_eq_ok hbit fun b hb => eq_of_bind_bits hb
  by_cases hboth : g.scope.generator = true ∧ g.scope.evaluator = true
  · -- a conjunction that both parties know costs no row
    rw [hknown, if_pos hboth.1, hboth.2] at h
    cases h
    refine agrees_of_opens hsource (wire_publicWire setup _ hboth.1) (by decide) BitView.isRows_empty ?_ (.refl s)
    have hlabel : (publicWire setup g.scope (conjoin p q n x.value y.value)).zero ^^^
        setup.delta.times (conjoin p q n x.value y.value) = 0 := BitVec.xor_self
    rw [hlabel]
    refine Opens.of_label fun payload e => ?_
    simp [GarbledRun.operation, hboth]
  have hskip : (g.scope.generator && g.scope.evaluator) = false := by
    simpa [Bool.and_eq_true] using hboth
  simp only [perform_eq] at h
  split at h
  · next value he =>
    -- a value that the generator has and the evaluator may learn makes the gate public
    cases hg : g.scope.generator <;> simp [hg, he] at hknown hskip
  · split at h
    · next hgenerator =>
      obtain ⟨half, hhalf, h⟩ := bind_eq_ok.mp h
      cases h
      have hrule := GarbledRun.operation_conjunction setup.hash setup.delta index p q n x y hskip
      simp only [hgenerator, if_true] at hrule
      refine agrees_of_opens hsource (by rw [hknown]; rfl) (by decide)
        (BitView.isRows_ofBlock _) ?_ (.of_hashing s _ _)
      rw [hrule, BitView.toBits_ofBlock]
      exact generatorHalf_agrees hhalf
    · next hgenerator =>
      split at h
      · next hevaluator =>
        cases h
        have hrule := GarbledRun.operation_conjunction setup.hash setup.delta index p q n x y hskip
        simp only [hevaluator, hgenerator, Bool.false_eq_true, if_true, if_false] at hrule
        refine agrees_of_opens hsource (by rw [hknown]; rfl) (by decide)
          (BitView.isRows_ofBlock _) ?_ (.of_hashing s _ _)
        rw [hrule, BitView.toBits_ofBlock]
        exact evaluatorHalf_agrees hevaluator
      · next hevaluator =>
        obtain ⟨⟨hnone, hwscope⟩, hrows, hopens, hdraws⟩ := split_agrees h
        have hrule := GarbledRun.operation_conjunction setup.hash setup.delta index p q n x y hskip
        simp only [hevaluator, hgenerator, Bool.false_eq_true, if_false] at hrule
        -- nobody knows the operands, so the generator cannot know the conjunction
        have hx : x.wire.bit = none := by
          cases hxg : x.scope.generator with
          | false => simp [JointWire.wire, hxg]
          | true => exact absurd (by simp [JointWire.wire, hxg]) hgenerator
        have hscope : g.scope.generator = false := by
          rw [hx] at hbit
          cases hg : g.scope.generator with
          | false => rfl
          | true => simp [knownBit, hg] at hbit
        refine agrees_of_opens hsource ?_ (Nat.le_refl 2) hrows ?_ hdraws
        · obtain ⟨zero, wbit, wscope⟩ := w
          simp only at hnone hwscope
          simp [JointWire.wire, hnone, hwscope, hscope]
        · rw [hrule]
          exact hopens

/-- The bit that a source takes: the generator's next input or random bit if the generator knows it, and
otherwise the one given. -/
def nextBit (setup : GarblingSetup) (s : Garbler) (g : Gate) (given : Bool) : Bool :=
  if g.isGeneratorInput then setup.inputs[s.inputsUsed]?.getD false
  else if g.kind == .random then setup.randomBits s.randomUsed
  else given

/-- The two parties treat every operation alike. -/
theorem operation_agrees {g : Gate} {op : Operation JointWire} (hop : op.kind = g.kind) (given : Bool)
    (hconstant : g.kind.isConstant = true → g.scope = .both)
    (hrandom : g.kind = .random → g.scope.generator = true) (hpushed : s.pushed = [])
    (h : operation setup index g s (op.map JointWire.wire) = .ok (w, rows, s')) :
    Agrees setup g s s' ((op.map JointWire.value).value (nextBit setup s g given)) w rows
      fun payload e =>
        e.operation setup.hash index g payload (op.map (JointWire.held setup.delta)) := by
  cases op with
  | input =>
    refine input_agrees hop.symm (fun hscope => ?_) h
    have hown : g.isGeneratorInput = true := by
      rw [Gate.isGeneratorInput, ← hop, hscope]
      rfl
    rw [nextBit, if_pos hown]
    rfl
  | random =>
    have hdraw : nextBit setup s g given = setup.randomBits s.randomUsed := by
      simp [nextBit, Gate.isGeneratorInput, ← hop, Operation.kind]
    have hagrees := random_agrees hop.symm (hrandom hop.symm) hpushed h
    rwa [← hdraw] at hagrees
  | constant value =>
    exact constant_agrees hop.symm (hconstant (by rw [← hop]; rfl)) h
  | unary n x => exact unary_agrees hop.symm h
  | linear n x y => exact linear_agrees hop.symm h
  | conjunction p q n x y => exact conjunction_agrees hop.symm h

end operations

end Garbler

end HalfGates
