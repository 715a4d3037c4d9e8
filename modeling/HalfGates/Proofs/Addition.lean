import HalfGates.Addition.Protocol
import HalfGates.Proofs.Constraint.Adder
import HalfGates.Proofs.Constraint.Influence
import HalfGates.Proofs.Garbling.Economy
import HalfGates.Proofs.Garbling.Exchange

/-!
# The sum of two secret numbers

Every bit of both numbers matters to the sum, so simplification keeps all inputs of the adder, those of the
generator first. The exchange then gives the sum. The evaluator learns all of it or, if no variable is for the
evaluator, nothing of it: every bit of the sum varies.

## Main definitions

- `Addition.options`: what is asked of the variables of the adder
- `Addition.Compiled`: the program that is garbled, and where it comes from
- `Addition.run_adds`: the numbers are added
-/

namespace HalfGates

namespace Addition

variable {t : Addition} {l : Lowering} {q : Program}

/-- What is asked of the variables of the adder. -/
def options (t : Addition) : LoweringOptions :=
  ⟨t.scope, fun _ => false⟩

/-- The program that is garbled, and where it comes from. -/
structure Compiled (t : Addition) (l : Lowering) (q : Program) : Prop where
  lower : (ParityAdder.system t.width).lower t.options = .ok l
  lowered : Lowered (ParityAdder.system t.width) t.options l
  simplified : l.program.simplifyGates.live = q

theorem exists_compiled (t : Addition) : ∃ l q, t.program = .ok q ∧ t.Compiled l q := by
  obtain ⟨definitions, hdefinitions⟩ := ParityAdder.exists_definitions t.width
  obtain ⟨l, hl, hlowered⟩ := ParitySystem.exists_lowered hdefinitions t.options
  refine ⟨l, l.program.simplifyGates.live, bind_eq_ok.mpr ⟨l, ?_, ?_⟩, hl, hlowered, rfl⟩
  · exact congrArg (Except.mapError AdditionError.compile) hl
  · rw [hlowered.wellFormed.simplify_eq]
    rfl

namespace Compiled

theorem length_lt (h : t.Compiled l q) (hwidth : t.width ≤ 64) : q.length < 2 ^ 64 := by
  obtain ⟨definitions, hdefinitions⟩ := ParityAdder.exists_definitions t.width
  have hlower := ParitySystem.length_lower_le hdefinitions h.lower fun e he =>
    ParityAdder.gateCount_check_le he
  have hlive := l.program.simplifyGates.length_live_le
  rw [h.simplified, Program.length_simplifyGates] at hlive
  have hsize : (ParityAdder.system t.width).inputs +
      ((ParityAdder.system t.width).auxiliaries + (ParityAdder.system t.width).outputs) * 11 =
        2 * t.width + (t.width - 1 + t.width) * 11 := rfl
  omega

/-- All inputs survive. -/
theorem survivors (h : t.Compiled l q) : ∀ mark ∈ l.program.survivors, mark = true := by
  refine h.lowered.survivors_of_all fun v hv => ?_
  exact h.lowered.survives (ParityAdder.length_numbers t.width 0 0) hv (ParityAdder.apply_set_ne hv)

theorem keep_survivors (h : t.Compiled l q) {α : Type} {xs : List α} (hxs : xs.length = 2 * t.width) :
    keep l.program.survivors xs = xs := by
  refine keep_of_forall ?_ h.survivors
  rw [Program.length_survivors, h.lowered.sourceCount, hxs]
  rfl

/-- The sources are the bits of both numbers, in order. -/
theorem sources (h : t.Compiled l q) :
    q.sources = (List.range (2 * t.width)).map (Lowering.inputGate t.options) := by
  have hsources := l.program.sources_live_simplifyGates
  have hinputs : l.program.sources = (List.range (2 * t.width)).map (Lowering.inputGate t.options) :=
    h.lowered.sources
  rw [h.simplified, hinputs, h.keep_survivors (by simp)] at hsources
  exact hsources

end Compiled

/-- Bits of both numbers are kept by a test that cannot tell the bits of one number apart. -/
theorem Compiled.keep_sources (h : t.Compiled l q) {test : Gate → Bool} (first second : Bool)
    (hfirst : ∀ v < t.width, test (Lowering.inputGate t.options v) = first)
    (hsecond : ∀ v, t.width ≤ v → test (Lowering.inputGate t.options v) = second) {as bs : List Bool}
    (ha : as.length = t.width) (hb : bs.length = t.width) :
    keep (q.sources.map test) (as ++ bs) = (if first then as else []) ++ (if second then bs else []) := by
  have hmask : q.sources.map test =
      (List.range t.width).map (fun v => test (Lowering.inputGate t.options v)) ++
        (List.range t.width).map (fun v => test (Lowering.inputGate t.options (t.width + v))) := by
    rw [h.sources, Nat.two_mul, List.range_add, List.map_map, List.map_append, List.map_map]
    rfl
  rw [hmask, keep_append (by simp [ha]), keep_of_forall (by simp [ha]), keep_of_forall (by simp [hb])]
  · intro mark hmark
    obtain ⟨v, -, rfl⟩ := List.mem_map.mp hmark
    exact hsecond _ (Nat.le_add_right _ _)
  · intro mark hmark
    obtain ⟨v, hv, rfl⟩ := List.mem_map.mp hmark
    exact hfirst v (List.mem_range.mp hv)

theorem scope_generator (t : Addition) (v : Nat) : (t.scope v).generator = decide (v < t.width) := by
  unfold scope
  split
  · next hv => exact (decide_eq_true hv).symm
  · next hv =>
    rw [decide_eq_false hv]
    split <;> rfl

theorem isGeneratorInput_inputGate (t : Addition) (v : Nat) :
    (Lowering.inputGate t.options v).isGeneratorInput = decide (v < t.width) :=
  t.scope_generator v

theorem isEvaluatorInput_inputGate (t : Addition) (v : Nat) :
    (Lowering.inputGate t.options v).isEvaluatorInput = !decide (v < t.width) :=
  congrArg (! ·) (t.scope_generator v)

theorem scope_evaluator_of_hidden (hreveal : t.reveal = false) (v : Nat) : (t.scope v).evaluator = false := by
  unfold scope
  rw [hreveal]
  split <;> rfl

theorem scope_output_of_revealed (hreveal : t.reveal = true) {v : Nat} (hinput : ¬ v < t.width)
    (hv : 3 * t.width - 1 ≤ v) : (t.scope v).evaluator = true := by
  rw [scope, if_neg hinput, hreveal, decide_eq_true hv]
  rfl

namespace Compiled

theorem wellFormed (h : t.Compiled l q) : q.WellFormed :=
  h.simplified ▸ h.lowered.wellFormed.simplifyGates.live

/-- The generator is to know no variable but its inputs. -/
theorem derivable (h : t.Compiled l q) : q.Derivable := by
  rw [← h.simplified]
  refine h.lowered.wellFormed.derivable_live_simplifyGates (h.lowered.derivable fun v hv _ => ?_)
  have hv : 2 * t.width ≤ v := hv
  show (t.scope v).generator = false
  rw [scope_generator]
  exact decide_eq_false (by omega)

theorem generator_of_random (h : t.Compiled l q) :
    ∀ g ∈ q.gates, g.kind = .random → g.scope.generator = true := by
  refine ParitySystem.scope_of_random h.lowered (fun v _ hr => by cases hr) ?_
  rw [← h.simplified, Program.sources_live_simplifyGates]
  exact keep_sublist _ _

theorem sourceCount_eq (h : t.Compiled l q) : q.sourceCount = 2 * t.width := by
  rw [← Program.length_sources, h.sources, List.length_map, List.length_range]

section bits

variable {as bs : List Bool} (ha : as.length = t.width) (hb : bs.length = t.width)
include ha hb

theorem keep_generator (h : t.Compiled l q) :
    keep (q.sources.map Gate.isGeneratorInput) (as ++ bs) = as := by
  rw [h.keep_sources true false _ _ ha hb]
  · exact List.append_nil as
  · intro v hv
    rw [isGeneratorInput_inputGate, decide_eq_true hv]
  · intro v hv
    rw [isGeneratorInput_inputGate, decide_eq_false (Nat.not_lt.mpr hv)]

theorem keep_evaluator (h : t.Compiled l q) :
    keep (q.sources.map Gate.isEvaluatorInput) (as ++ bs) = bs := by
  rw [h.keep_sources false true _ _ ha hb]
  · rfl
  · intro v hv
    rw [isEvaluatorInput_inputGate, decide_eq_true hv]
    rfl
  · intro v hv
    rw [isEvaluatorInput_inputGate, decide_eq_false (Nat.not_lt.mpr hv)]
    rfl

/-- Nothing is drawn. -/
theorem keep_random (h : t.Compiled l q) (random : Nat → Bool) :
    keep (q.sources.map fun g => g.kind == .random) (as ++ bs) =
      (List.range (q.count .random)).map random := by
  have hnone : keep (q.sources.map fun g => g.kind == .random) (as ++ bs) = [] := by
    rw [h.keep_sources false false (fun _ _ => rfl) (fun _ _ => rfl) ha hb]
    rfl
  have hlength : (as ++ bs).length = q.sourceCount := by
    rw [h.sourceCount_eq, List.length_append, ha, hb, Nat.two_mul]
  have hcount : (keep (q.sources.map fun g => g.kind == .random) (as ++ bs)).length = q.count .random :=
    q.length_keep_sources (fun g hg => by rw [g.isSource_eq, hg]; simp) hlength
  rw [hnone] at hcount ⊢
  rw [← hcount]
  rfl

end bits

/-- The exchange of the program gives the sum. -/
theorem exists_exchange (h : t.Compiled l q) (hwidth : t.width ≤ 64) (setup : GarblingSetup)
    (hinputs : setup.inputs = Bits.ofNat t.width t.first) :
    ∃ x : Exchange q setup (Bits.ofNat t.width t.second),
      x.outputs = Bits.ofNat t.width (t.first + t.second) ∧
        x.result.ungarbled = keep (q.outputs.map q.revealed) x.outputs := by
  have ha : (Bits.ofNat t.width t.first).length = t.width := Bits.length_ofNat _ _
  have hb : (Bits.ofNat t.width t.second).length = t.width := Bits.length_ofNat _ _
  have hnumbers := ParityAdder.length_numbers t.width t.first t.second
  have hexchange := h.wellFormed.exists_exchange_of_dealt h.derivable h.generator_of_random
    (h.length_lt hwidth) (hnumbers.trans h.sourceCount_eq.symm) (hinputs.trans (h.keep_generator ha hb).symm)
    (h.keep_random ha hb setup.randomBits)
  rw [h.keep_evaluator ha hb] at hexchange
  obtain ⟨x, heval, hlearnt⟩ := hexchange
  refine ⟨x, ?_, hlearnt⟩
  -- the simplified program computes what the adder does
  obtain ⟨outputs, happly, hlive⟩ := h.lowered.eval_eq_apply hnumbers
  rw [h.simplified, h.keep_survivors hnumbers, heval] at hlive
  rw [ParityAdder.apply_eq] at happly
  exact (Except.ok.inj hlive).trans (Except.ok.inj happly).symm

/-- The evaluator is to learn all of the sum or nothing of it. -/
theorem ungarbled (h : t.Compiled l q) {outputs : List Bool} (houtputs : outputs.length = t.width) :
    keep (q.outputs.map q.revealed) outputs = if t.reveal then outputs else [] := by
  obtain ⟨definitions, hdefinitions⟩ := ParityAdder.exists_definitions t.width
  have hlength : q.outputs.length = t.width := by
    rw [← h.simplified, Program.live, List.length_map, Program.outputs_simplifyGates, h.lowered.outputs,
      List.length_drop, h.lowered.length]
    exact Nat.add_sub_cancel_left _ _
  refine keep_of_forall (by rw [List.length_map, hlength, houtputs]) fun mark hmark => ?_
  obtain ⟨i, hi, rfl⟩ := List.mem_map.mp hmark
  obtain ⟨j, hj⟩ := List.getElem?_of_mem hi
  have hlt : j < t.width := by
    rw [← hlength]
    exact (List.getElem?_eq_some_iff.mp hj).1
  rw [← h.simplified] at hj ⊢
  cases hreveal : t.reveal with
  | true =>
    have hscope : (t.options.scope ((ParityAdder.system t.width).inputs +
        (ParityAdder.system t.width).auxiliaries + j)).evaluator = true := by
      have hv : (ParityAdder.system t.width).inputs + (ParityAdder.system t.width).auxiliaries =
          2 * t.width + (t.width - 1) := rfl
      exact scope_output_of_revealed hreveal (by omega) (by omega)
    obtain ⟨place, hplace, hrevealed⟩ := h.lowered.revealed hlt hscope
    obtain ⟨i', hi', hrevealed'⟩ := h.lowered.wellFormed.revealed_live_simplifyGates hplace hrevealed
    rwa [Option.some.inj (hj.symm.trans hi')]
  | false =>
    -- the bit is not the same for the numbers zero and zero as for one that has it and zero
    obtain ⟨k, hk, rfl⟩ : ∃ k < t.width, j = t.width - 1 - k := ⟨t.width - 1 - j, by omega, by omega⟩
    refine ParitySystem.unrevealed hdefinitions h.lower h.lowered (scope_evaluator_of_hidden hreveal) ?_ ?_
      (ParityAdder.apply_eq t.width (2 ^ k) 0) (ParityAdder.apply_eq t.width 0 0)
      (Bits.getElem?_two_pow_ne hk) hj
    · exact ParityAdder.length_numbers t.width (2 ^ k) 0
    · exact ParityAdder.length_numbers t.width 0 0

end Compiled

/-- Both parties together add the numbers modulo `2 ^ width`: the generator decodes the sum, and the evaluator
learns all of its bits or, if it is not to be revealed, none. -/
theorem run_adds (t : Addition) (hwidth : t.width ≤ 64) (hash : TweakedHash) (secrets : GeneratorSecrets) :
    ∃ report, t.run hash secrets = .ok report ∧
      Bits.toNat report.sum = (t.first + t.second) % 2 ^ t.width ∧
      report.sum = Bits.ofNat t.width (t.first + t.second) ∧
      report.learned = if t.reveal then Bits.ofNat t.width (t.first + t.second) else [] := by
  obtain ⟨l, q, hprogram, hcompiled⟩ := exists_compiled t
  obtain ⟨x, houtputs, hlearnt⟩ := hcompiled.exists_exchange hwidth
    ⟨secrets.delta, hash, Bits.ofNat t.width t.first, secrets.randomBits, secrets.labels⟩ rfl
  refine ⟨⟨q, (Codec.putTables x.garbling.tables).length, x.result.ungarbled, x.outputs⟩, ?_, ?_, houtputs, ?_⟩
  · rw [run, hprogram, ok_bind]
    refine bind_eq_ok.mpr ⟨x.garbling, congrArg (Except.mapError _) x.garble, ?_⟩
    refine bind_eq_ok.mpr ⟨x.labels, congrArg (Except.mapError _) x.encode, ?_⟩
    refine bind_eq_ok.mpr ⟨x.received, congrArg (Except.mapError _) x.send, ?_⟩
    refine bind_eq_ok.mpr ⟨x.circuit, congrArg (Except.mapError _) x.assemble, ?_⟩
    refine bind_eq_ok.mpr ⟨x.result, congrArg (Except.mapError _) x.run, ?_⟩
    exact bind_eq_ok.mpr ⟨x.outputs, congrArg (Except.mapError _) x.decode, rfl⟩
  · show Bits.toNat x.outputs = _
    rw [houtputs, Bits.toNat_ofNat]
  · show x.result.ungarbled = _
    rw [hlearnt, houtputs, hcompiled.ungarbled (Bits.length_ofNat _ _)]

theorem run_adds_bytes :
    ∃ report, (Addition.mk 200 100 8 true).run (fun key place => key + BitVec.ofNat 128 place.gate)
        ⟨Delta.ofSelected 5, fun _ => true, fun k => BitVec.ofNat 128 k⟩ = .ok report ∧
      Bits.toNat report.sum = 44 ∧ report.learned = [false, false, true, false, true, true, false, false] := by
  obtain ⟨report, hrun, hsum, -, hlearned⟩ := run_adds (Addition.mk 200 100 8 true) (by decide)
    (fun key place => key + BitVec.ofNat 128 place.gate)
    ⟨Delta.ofSelected 5, fun _ => true, fun k => BitVec.ofNat 128 k⟩
  exact ⟨report, hrun, hsum, hlearned⟩

end Addition

end HalfGates
