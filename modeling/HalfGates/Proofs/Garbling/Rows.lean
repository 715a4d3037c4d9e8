import HalfGates.Proofs.Garbling.Demand
import HalfGates.Proofs.Garbling.Simulation

/-!
# Rules that take rows

A payload comes from the other party, so that its bits may be anything. A rule of the evaluator takes as many
rows from its front as the scopes demand, and refuses a payload that is shorter; nothing it does depends on
the bits behind the rows, and whether it refuses does not depend on the bits at all.

## Main definitions

- `Demands`: a rule that takes rows, whatever they are
- `Demands.andThen`: one rule after another
- `GarbledRun.operation_demands`: the rows that an operation takes
-/

namespace HalfGates

/-- A rule of the evaluator at gate `index` that takes `count` rows from the front of a payload and refuses a
payload that is shorter. The bits of the rows alone decide the label and the state that it ends with, in which
the history and the input labels are as stated. -/
structure Demands (index count : Nat) (past : List Held) (inputs : List Block)
    (rule : BitView → Except EvaluationError (Block × BitView × GarbledRun)) : Prop where
  takes : ∀ bits : List Bool, bits.length = 128 * count → ∃ label e',
    e'.past = past ∧ e'.inputs = inputs ∧
      ∀ payload tail, payload.startsAligned = true → payload.toBits = bits ++ tail →
        ∃ rest, rule payload = .ok (label, rest, e') ∧ rest.startsAligned = true ∧ rest.toBits = tail
  refuses : ∀ payload, payload.startsAligned = true → payload.length < 128 * count →
    rule payload = .error (.truncatedPayload index)

namespace Demands

variable {index : Nat} {past : List Held} {inputs : List Block}
  {rule : BitView → Except EvaluationError (Block × BitView × GarbledRun)}

theorem of_label {label : Block} {e : GarbledRun} (h : ∀ payload, rule payload = .ok (label, payload, e)) :
    Demands index 0 e.past e.inputs rule := by
  constructor
  · intro bits hlength
    obtain rfl : bits = [] := List.eq_nil_of_length_eq_zero hlength
    exact ⟨label, e, rfl, rfl, fun payload tail haligned hbits => ⟨payload, h payload, haligned, hbits⟩⟩
  · intro payload _ hshort
    exact absurd hshort (Nat.not_lt_zero _)

/-- A rule that takes one row and makes a label of it, whatever it hashes for that. -/
theorem of_row {hash : TweakedHash} {opening : Block → Hashing Block} {e : GarbledRun}
    (h : ∀ payload, rule payload = (do
      let (row, rest) ← GarbledRun.takeRow index payload
      let (label, e) := e.perform hash (opening row)
      .ok (label, rest, e))) : Demands index 1 e.past e.inputs rule := by
  constructor
  · intro bits hlength
    obtain ⟨c, hc⟩ : ∃ c, c = opening (.ofBytes (Bits.pack bits)) := ⟨_, rfl⟩
    refine ⟨(e.perform hash c).1, (e.perform hash c).2, rfl, rfl, fun payload tail haligned hbits => ?_⟩
    obtain ⟨rest, hrow, hrest⟩ := GarbledRun.takeRow_eq index haligned hbits hlength
    refine ⟨rest, ?_, hrest⟩
    rw [h, hrow, ok_bind, hc]
  · intro payload _ hshort
    have hsplit : payload.split? 128 = none := dif_neg (Nat.not_le.mpr hshort)
    rw [h, GarbledRun.takeRow, hsplit]
    rfl

theorem exists_of_le {count : Nat} (h : Demands index count past inputs rule) {payload : BitView}
    (haligned : payload.startsAligned = true) (hle : 128 * count ≤ payload.length) :
    ∃ label rest e, rule payload = .ok (label, rest, e) ∧ e.past = past ∧ e.inputs = inputs ∧
      rest.startsAligned = true ∧ rest.length + 128 * count = payload.length := by
  have hlength : (payload.toBits.take (128 * count)).length = 128 * count := by
    rw [List.length_take, BitView.length_toBits]
    exact Nat.min_eq_left hle
  obtain ⟨label, e, hpast, hinputs, htakes⟩ := h.takes _ hlength
  obtain ⟨rest, hrule, hrest, htail⟩ :=
    htakes payload _ haligned (List.take_append_drop (128 * count) payload.toBits).symm
  refine ⟨label, rest, e, hrule, hpast, hinputs, hrest, ?_⟩
  rw [← BitView.length_toBits, htail, List.length_drop, BitView.length_toBits]
  exact Nat.sub_add_cancel hle

/-- A rule that runs on what another one leaves of the payload. -/
theorem andThen {count count' : Nat} {past' : List Held} {inputs' : List Block}
    {second : Block → GarbledRun → BitView → Except EvaluationError (Block × BitView × GarbledRun)}
    (h : Demands index count past inputs rule)
    (hsecond : ∀ label e, e.past = past → e.inputs = inputs →
      Demands index count' past' inputs' (second label e)) :
    Demands index (count + count') past' inputs' (fun payload => do
      let (label, rest, e) ← rule payload
      second label e rest) := by
  constructor
  · intro bits hlength
    rw [Nat.mul_add] at hlength
    obtain ⟨label, e, hpast, hinputs, htakes⟩ := h.takes (bits.take (128 * count)) (by simp; omega)
    obtain ⟨label', e', hpast', hinputs', htakes'⟩ :=
      (hsecond label e hpast hinputs).takes (bits.drop (128 * count)) (by simp; omega)
    refine ⟨label', e', hpast', hinputs', fun payload tail haligned hbits => ?_⟩
    rw [← List.take_append_drop (128 * count) bits, List.append_assoc] at hbits
    obtain ⟨rest, hrule, hrest, htail⟩ := htakes payload _ haligned hbits
    obtain ⟨rest', hrule', hrest'⟩ := htakes' rest tail hrest htail
    exact ⟨rest', by rw [hrule, ok_bind]; exact hrule', hrest'⟩
  · intro payload haligned hshort
    rw [Nat.mul_add] at hshort
    by_cases hfirst : payload.length < 128 * count
    · rw [h.refuses payload haligned hfirst]
      rfl
    · -- the first rule is served, and leaves too little
      obtain ⟨label, rest, e, hrule, hpast, hinputs, hrest, hlength⟩ :=
        h.exists_of_le haligned (Nat.not_lt.mp hfirst)
      rw [hrule, ok_bind]
      exact (hsecond label e hpast hinputs).refuses rest hrest (by omega)

theorem map_label {count : Nat} (h : Demands index count past inputs rule) (f : Block → Block) :
    Demands index count past inputs (fun payload => do
      let (label, rest, e) ← rule payload
      .ok (f label, rest, e)) := by
  have hlast : ∀ (label : Block) (e : GarbledRun), e.past = past → e.inputs = inputs →
      Demands index 0 past inputs fun rest => .ok (f label, rest, e) := by
    rintro label e rfl rfl
    exact of_label fun _ => rfl
  exact h.andThen hlast

end Demands

namespace GarbledRun

variable {hash : TweakedHash} {e : GarbledRun} {x y : Held}

theorem generatorHalf_demands (hash : TweakedHash) (place : Tweak) (x y : Held) (e : GarbledRun) :
    Demands place.gate 1 e.past e.inputs fun payload => e.generatorHalf hash place x y payload :=
  @Demands.of_row place.gate _ hash
    (HalfGate.openKnown place (if x.scope.generator then y else x).label) e fun _ => rfl

/-- The evaluator has the bit of an operand that it knows. -/
theorem evaluatorHalf_demands (place : Tweak) (first second : Nat) (p q : Bool)
    (h : (x.scope.evaluator || y.scope.evaluator) = true) (hx : x.bit.isSome = x.scope.evaluator)
    (hy : y.bit.isSome = y.scope.evaluator) :
    Demands place.gate 1 e.past e.inputs fun payload =>
      e.evaluatorHalf hash place first second p q x y payload := by
  cases hscope : x.scope.evaluator with
  | true =>
    obtain ⟨value, hvalue⟩ := Option.isSome_iff_exists.mp (hx.trans hscope)
    refine @Demands.of_row place.gate _ hash (HalfGate.openMasked place x.label y.label value p) e
      fun payload => ?_
    simp only [evaluatorHalf, hscope, hvalue, if_true]
  | false =>
    obtain ⟨value, hvalue⟩ := Option.isSome_iff_exists.mp (hy.trans (by simpa [hscope] using h))
    refine @Demands.of_row place.gate _ hash (HalfGate.openMasked place y.label x.label value q) e
      fun payload => ?_
    simp only [evaluatorHalf, hscope, hvalue, Bool.false_eq_true, if_false]

/-- The split of an operand comes with the bit that the second half needs. -/
theorem split_demands (hash : TweakedHash) (index : Nat) (g : Gate) (p q : Bool) (x y : Held)
    (e : GarbledRun) (hx : x.bit.isSome = x.scope.evaluator) :
    Demands index 2 e.past e.inputs fun payload => e.split hash index g p q x y payload := by
  have hlower : ∀ (upper : Block) (e₁ : GarbledRun), Demands index 1 e₁.past e₁.inputs (fun rest => do
      let (lower, rest, e₂) ← e₁.evaluatorHalf hash ⟨index, 1⟩ (g.operandAt index 0) index p q x
        ⟨y.label ^^^ (0 : Block), some y.label.select, .evaluatorOnly⟩ rest
      .ok (lower ^^^ upper, rest, e₂)) := fun upper e₁ =>
    (evaluatorHalf_demands ⟨index, 1⟩ _ _ p q (Bool.or_true _) hx rfl).map_label (· ^^^ upper)
  exact (generatorHalf_demands hash ⟨index, 3⟩ x ⟨0, none, .generatorOnly⟩ e).andThen
    fun upper e₁ hpast hinputs => hpast ▸ hinputs ▸ hlower upper e₁

theorem conjunction_demands (hash : TweakedHash) (index : Nat) (g : Gate) (p q n : Bool)
    (e : GarbledRun) (hx : x.bit.isSome = x.scope.evaluator) (hy : y.bit.isSome = y.scope.evaluator) :
    Demands index ((Operation.conjunction p q n x.scope y.scope).rows g.scope) e.past e.inputs
      fun payload => e.operation hash index g payload (.conjunction p q n x y) := by
  simp only [operation]
  by_cases hboth : g.scope = .both
  · rw [hboth, Operation.rows_both]
    exact Demands.of_label fun _ => rfl
  · have hskip : (g.scope.generator && g.scope.evaluator) = false := Scope.not_both_iff.mp hboth
    rw [Operation.rows_conjunction p q n hskip]
    simp only [hskip, Bool.false_eq_true, if_false]
    split
    · exact generatorHalf_demands hash ⟨index, 0⟩ x y e
    · split
      · next hevaluator => exact evaluatorHalf_demands ⟨index, 0⟩ _ _ p q hevaluator hx hy
      · exact split_demands hash index g p q x y e hx

/-- An operation takes the rows that its scopes demand, and a label of the evaluator if it is an input of
it. -/
theorem operation_demands (hash : TweakedHash) (index : Nat) {g : Gate} {op : Operation Held}
    (hkind : op.kind = g.kind) (hbits : ∀ h ∈ op.operands, h.bit.isSome = h.scope.evaluator)
    (hconstant : g.kind.isConstant = true → g.scope = .both)
    (hrandom : g.kind = .random → g.scope.generator = true)
    (hinput : g.isEvaluatorInput = true → e.inputs ≠ []) :
    Demands index ((op.map Held.scope).rows g.scope) e.past (e.inputs.drop g.isEvaluatorInput.toNat)
      fun payload => e.operation hash index g payload op := by
  -- only an input that the generator does not know takes a label
  have hnone : g.isEvaluatorInput = false → e.inputs = e.inputs.drop g.isEvaluatorInput.toNat := by
    intro h
    rw [h]
    rfl
  have hsource : ∀ isInput, g.scope.generator = true → e.source index isInput g.scope = .ok (0, e) :=
    fun _ hscope => if_pos hscope
  cases op with
  | input =>
    cases hscope : g.scope.generator with
    | true =>
      rw [← hnone (by simp [Gate.isEvaluatorInput, hscope])]
      exact Demands.of_label fun payload => by rw [operation, hsource true hscope]; rfl
    | false =>
      have hown : g.isEvaluatorInput = true := g.isEvaluatorInput_iff.mpr ⟨hkind.symm, hscope⟩
      obtain ⟨label, rest, hlabels⟩ := List.exists_cons_of_ne_nil (hinput hown)
      have htake : e.source index true g.scope = .ok (label, { e with inputs := rest }) := by
        simp only [source, hscope, hlabels, Bool.false_eq_true, if_false]
      rw [hown, hlabels]
      exact @Demands.of_label index _ label { e with inputs := rest } fun payload => by
        rw [operation, htake]
        rfl
  | random =>
    rw [← hnone (by rw [Gate.isEvaluatorInput, ← hkind]; rfl)]
    exact Demands.of_label fun payload => by rw [operation, hsource false (hrandom hkind.symm)]; rfl
  | constant value =>
    have hscope : g.scope.generator = true := by rw [hconstant (by rw [← hkind]; rfl)]; rfl
    rw [← hnone (by rw [Gate.isEvaluatorInput, ← hkind]; rfl)]
    exact Demands.of_label fun payload => by rw [operation, hsource false hscope]; rfl
  | unary n x =>
    rw [← hnone (by rw [Gate.isEvaluatorInput, ← hkind]; rfl)]
    exact Demands.of_label fun payload => rfl
  | linear n x y =>
    rw [← hnone (by rw [Gate.isEvaluatorInput, ← hkind]; rfl)]
    exact Demands.of_label fun payload => rfl
  | conjunction p q n x y =>
    rw [← hnone (by rw [Gate.isEvaluatorInput, ← hkind]; rfl)]
    exact conjunction_demands hash index g p q n e (hbits x (by simp [Operation.operands]))
      (hbits y (by simp [Operation.operands]))

end GarbledRun

end HalfGates
