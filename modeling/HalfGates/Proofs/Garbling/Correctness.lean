import HalfGates.Proofs.Garbling.Simulation
import HalfGates.Proofs.Program.Buildable
import HalfGates.Proofs.Program.Positions

/-!
# Garbling computes the program

If a program is garbled and the evaluator runs it on the labels of its inputs, then the labels of the
outputs decode to the values that the program has in the clear, and the evaluator learns those of them
that it is to learn.

## Main definitions

- `Codebook.encode_eq`, `Codebook.decodeFrom_eq`: labels of joint wires
- `Garbling.Covers`: the joint wires behind a garbling
- `Garbling.Covers.exists_run`: the evaluator's run
- `Program.garbling_correct`: garbling, running and decoding give the values in the clear
-/

namespace HalfGates

namespace Codebook

variable {c : Codebook} {wires : List JointWire}

/-- Bits are encoded as the labels of their wires. -/
theorem encode_eq {start : Nat} (h : c.inputZeros.drop start = wires.map JointWire.zero) :
    c.encode (wires.map JointWire.value) start = .ok (wires.map (JointWire.label c.delta)) := by
  induction wires generalizing start with
  | nil => rfl
  | cons j wires ih =>
    have hzero : c.inputZeros[start]? = some j.zero := by
      rw [← Nat.add_zero start, ← List.getElem?_drop, h]
      rfl
    have hrest : c.inputZeros.drop (start + 1) = wires.map JointWire.zero := by
      rw [← List.drop_drop, h]
      rfl
    have hlabel : c.encodeBit j.value start = .ok (j.label c.delta) := by
      rw [encodeBit, hzero]
      rfl
    rw [List.map_cons, encode, hlabel, ok_bind, ih hrest, ok_bind, List.map_cons]

/-- The two labels of a wire differ. -/
theorem zero_xor_delta_ne (δ : Delta) (zero : Block) : zero ^^^ δ.block ≠ zero := by
  intro h
  have hselect := congrArg Block.select h
  rw [Block.select_xor, δ.select_block] at hselect
  cases hzero : zero.select <;> simp [hzero] at hselect

/-- Labels of wires are decoded as the bits. -/
theorem decodeFrom_eq {start : Nat} (h : c.outputZeros.drop start = wires.map JointWire.zero) :
    c.decodeFrom (wires.map (JointWire.label c.delta)) start = .ok (wires.map JointWire.value) := by
  induction wires generalizing start with
  | nil => rfl
  | cons j wires ih =>
    have hzero : c.outputZeros[start]? = some j.zero := by
      rw [← Nat.add_zero start, ← List.getElem?_drop, h]
      rfl
    have hrest : c.outputZeros.drop (start + 1) = wires.map JointWire.zero := by
      rw [← List.drop_drop, h]
      rfl
    have hbit : c.decodeLabel (j.label c.delta) start = .ok j.value := by
      rw [decodeLabel, hzero, JointWire.label]
      cases hvalue : j.value with
      | false => simp
      | true =>
        rw [Delta.times_true]
        show (if j.zero ^^^ c.delta.block = j.zero then _ else _) = _
        rw [if_neg (zero_xor_delta_ne c.delta j.zero), if_pos rfl]
    rw [List.map_cons, decodeFrom, hbit, ok_bind, ih hrest, ok_bind, List.map_cons]

end Codebook

/-- The joint wires behind a garbling: their scopes are those of the gates, their values those of the gates
in the clear, and the codebook holds their labels for zero. -/
structure Garbling.Covers (g : Garbling) (p : Program) (setup : GarblingSetup) (given : List Bool)
    (wires : List JointWire) : Prop where
  scopes : wires.map JointWire.scope = p.gates.map Gate.scope
  values : wires.map JointWire.value = p.values (p.sourceBits setup given)
  given : (keep (p.gates.map Gate.isEvaluatorInput) wires).map JointWire.value = given
  delta : g.codebook.delta = setup.delta
  inputs : g.codebook.inputZeros =
    (keep (p.gates.map Gate.isEvaluatorInput) wires).map JointWire.zero
  outputs : ∃ outs, Locates wires p.outputs outs ∧ g.codebook.outputZeros = outs.map JointWire.zero
  tables : g.tables.length = p.length
  payloads : ∀ payload ∈ g.tables, payload.startsAligned = true ∧ payload.length ≤ 257
  /-- The evaluator may receive any views of the same bits that start on byte boundaries. -/
  runs : ∀ received, received.map BitView.toBits = g.tables.map BitView.toBits →
    (∀ v ∈ received, v.startsAligned = true) →
    ∃ final, GarbledRun.steps setup.hash
        ⟨[], (keep (p.gates.map Gate.isEvaluatorInput) wires).map (JointWire.label setup.delta), []⟩
        p.gates received = .ok final ∧
      final.past.reverse = wires.map (JointWire.held setup.delta)

/-- Behind garbled gates there are joint wires. -/
theorem Program.WellFormed.exists_gatesAgree {p : Program} (hp : p.WellFormed)
    (hrandom : ∀ g ∈ p.gates, g.kind = .random → g.scope.generator = true) {setup : GarblingSetup}
    {tables : List BitView} {final : Garbler}
    (hsteps : Garbler.initial.steps setup p.gates = .ok (tables, final)) {given : List Bool}
    (hgiven : given.length = p.inputIndices.length) :
    ∃ wires, Garbler.GatesAgree setup .initial final [] p.gates given tables wires := by
  have hconstant : ∀ gate ∈ p.gates, gate.kind.isConstant = true → gate.scope = .both := by
    have hall : Throughout (fun _ gate => gate.kind.isConstant = true → gate.scope = .both)
        p.gates.reverse :=
      hp.gates.mono fun _ _ hfits => hfits.scope_of_constant
    intro gate hgate
    exact throughout_iff_forall.mp hall gate (List.mem_reverse.mpr hgate)
  have hcount : given.length = p.gates.countP Gate.isEvaluatorInput := by
    rw [hgiven, Program.inputIndices, p.length_positions]
  exact Garbler.steps_agree Garbler.tracks_initial hconstant hrandom hcount hsteps

namespace Garbler.GatesAgree

variable {setup : GarblingSetup} {s s' : Garbler} {gates : List Gate} {given : List Bool}
  {payloads : List BitView} {wires : List JointWire}

theorem past_eq (h : GatesAgree setup s s' [] gates given payloads wires) :
    s'.past.reverse = wires.map JointWire.wire := by
  rw [h.tracks.past, List.append_nil, List.map_reverse, List.reverse_reverse]

/-- The codebook takes the labels for zero from the wires. -/
theorem mapM_zeroAt (h : GatesAgree setup s s' [] gates given payloads wires) {positions : List Nat}
    {js : List JointWire} (hjs : Locates wires positions js) :
    positions.mapM (zeroAt s'.past.reverse) = .ok (js.map JointWire.zero) := by
  refine hjs.mapM fun i _ j hj => ?_
  rw [zeroAt, h.past_eq, List.getElem?_map, hj]
  rfl

end Garbler.GatesAgree

/-- If all gates can be garbled then so can the program, and there are joint wires behind the garbling. -/
theorem Program.WellFormed.exists_covers_of_steps {p : Program} (hp : p.WellFormed)
    (hrandom : ∀ g ∈ p.gates, g.kind = .random → g.scope.generator = true) {setup : GarblingSetup}
    (hown : setup.inputs.length = p.generatorInputCount) {tables : List BitView} {final : Garbler}
    (hsteps : Garbler.initial.steps setup p.gates = .ok (tables, final)) {given : List Bool}
    (hgiven : given.length = p.inputIndices.length) :
    ∃ g wires, p.garble setup = .ok g ∧ g.Covers p setup given wires := by
  obtain ⟨wires, hagree⟩ := hp.exists_gatesAgree hrandom hsteps hgiven
  have hwires : wires.length = p.length := by
    simpa [length] using congrArg List.length hagree.scopes
  have hinputs := hagree.mapM_zeroAt (p.locates_positions Gate.isEvaluatorInput hwires)
  obtain ⟨outs, houts⟩ := exists_locates fun i hi => hwires.symm ▸ hp.outputs i hi
  refine ⟨⟨tables, ⟨setup.delta, _, outs.map JointWire.zero⟩, final⟩, wires, ?_, hagree.scopes, ?_,
    hagree.given, rfl, rfl, ⟨outs, houts, rfl⟩, hagree.length_eq, hagree.shapes, ?_⟩
  · rw [garble, if_pos hown, hsteps, ok_bind]
    dsimp only
    rw [inputIndices, hinputs, ok_bind, hagree.mapM_zeroAt houts]
    rfl
  · have hvalues := hagree.values
    rw [Garbler.bitsAhead_initial, List.append_nil, List.map_nil] at hvalues
    rw [values, hvalues, List.map_reverse, List.reverse_reverse]
  · intro received hbits hreceived
    obtain ⟨e, hrun, he⟩ := hagree.evaluates received
      ⟨[], (keep (p.gates.map Gate.isEvaluatorInput) wires).map (JointWire.label setup.delta), []⟩
      hbits hreceived ⟨rfl, rfl⟩
    refine ⟨e, hrun, ?_⟩
    rw [he.past, List.append_nil, List.map_reverse, List.reverse_reverse]

/-- What has succeeded in a garbling. -/
theorem Program.of_garble {p : Program} {setup : GarblingSetup} {g : Garbling}
    (h : p.garble setup = .ok g) :
    setup.inputs.length = p.generatorInputCount ∧
      Garbler.initial.steps setup p.gates = .ok (g.tables, g.final) ∧
      p.inputIndices.mapM (Garbler.zeroAt g.final.past.reverse) = .ok g.codebook.inputZeros ∧
      p.outputs.mapM (Garbler.zeroAt g.final.past.reverse) = .ok g.codebook.outputZeros ∧
      g.codebook.delta = setup.delta := by
  unfold garble at h
  split at h
  · next hown =>
    obtain ⟨⟨tables, final⟩, hsteps, h⟩ := bind_eq_ok.mp h
    obtain ⟨inputZeros, hinputs, h⟩ := bind_eq_ok.mp h
    obtain ⟨outputZeros, houtputs, h⟩ := bind_eq_ok.mp h
    cases h
    exact ⟨hown, hsteps, hinputs, houtputs, rfl⟩
  · cases h

theorem GarbledCircuit.of_ofTables {p : Program} {tables : List BitView} {hash : TweakedHash}
    {c : GarbledCircuit} (h : ofTables p tables hash = .ok c) :
    c = ⟨p, tables, hash⟩ ∧ tables.length = p.length := by
  unfold ofTables at h
  split at h
  · next hcount => exact ⟨(Except.ok.inj h).symm, hcount⟩
  · cases h

/-- What has succeeded in a run. -/
theorem GarbledCircuit.of_run {c : GarbledCircuit} {labels : List Block} {r : RunResult}
    (h : c.run labels = .ok r) : labels.length = c.program.inputIndices.length ∧
      GarbledRun.steps c.hash ⟨[], labels, []⟩ c.program.gates c.tables = .ok r.final := by
  unfold run at h
  split at h
  · next hcount =>
    obtain ⟨final, hsteps, h⟩ := bind_eq_ok.mp h
    obtain ⟨ungarbled, -, h⟩ := bind_eq_ok.mp h
    obtain ⟨outputs, -, h⟩ := bind_eq_ok.mp h
    cases h
    exact ⟨hcount, hsteps⟩
  · cases h

/-- Behind every garbling there are joint wires. -/
theorem Program.WellFormed.exists_covers {p : Program} (hp : p.WellFormed)
    (hrandom : ∀ g ∈ p.gates, g.kind = .random → g.scope.generator = true) {setup : GarblingSetup}
    {g : Garbling} (h : p.garble setup = .ok g) {given : List Bool}
    (hgiven : given.length = p.inputIndices.length) : ∃ wires, g.Covers p setup given wires := by
  obtain ⟨hown, hsteps, -⟩ := of_garble h
  obtain ⟨g', wires, hg', hcovers⟩ := hp.exists_covers_of_steps hrandom hown hsteps hgiven
  obtain rfl := Except.ok.inj (hg'.symm.trans h)
  exact ⟨wires, hcovers⟩

/-- The evaluator's run on the labels of its inputs succeeds, the labels of the outputs decode to the
values in the clear, and so do the values that it learns. -/
theorem Garbling.Covers.exists_run {g : Garbling} {p : Program} {setup : GarblingSetup}
    {given : List Bool} {wires : List JointWire} (h : g.Covers p setup given wires) (hp : p.WellFormed)
    {received : List BitView} (hbits : received.map BitView.toBits = g.tables.map BitView.toBits)
    (haligned : ∀ v ∈ received, v.startsAligned = true) :
    ∃ labels r, g.codebook.encode given 0 = .ok labels ∧
      (⟨p, received, setup.hash⟩ : GarbledCircuit).run labels = .ok r ∧
      g.codebook.decode r.labels = .ok (p.atOutputs (p.values (p.sourceBits setup given))) ∧
      Locates (p.values (p.sourceBits setup given)) p.ungarbledOutputs r.ungarbled := by
  obtain ⟨final, hrun, hheld⟩ := h.runs received hbits haligned
  obtain ⟨outs, houts, hzeros⟩ := h.outputs
  have hwires : wires.length = p.length := by
    simpa [Program.length] using congrArg List.length h.scopes
  have hlabels : g.codebook.encode given 0 =
      .ok ((keep (p.gates.map Gate.isEvaluatorInput) wires).map (JointWire.label setup.delta)) := by
    have hencode : g.codebook.encode _ 0 = _ := Codebook.encode_eq (List.drop_zero.trans h.inputs)
    rwa [h.given, h.delta] at hencode
  have hcount : (keep (p.gates.map Gate.isEvaluatorInput) wires).length = p.inputIndices.length :=
    (p.locates_positions _ hwires).length_eq.symm
  have hfinal : p.outputs.mapM (GarbledRun.labelAt final.past.reverse) =
      .ok (outs.map (JointWire.label setup.delta)) := by
    refine houts.mapM fun i _ j hj => ?_
    rw [GarbledRun.labelAt, hheld, List.getElem?_map, hj]
    rfl
  obtain ⟨learnt, hlearnt⟩ : ∃ learnt, Locates wires p.ungarbledOutputs learnt :=
    exists_locates fun i hi => hwires.symm ▸ hp.outputs i (List.mem_filter.mp hi).1
  have hbit : p.ungarbledOutputs.mapM (GarbledRun.bitAt final.past.reverse) =
      .ok (learnt.map JointWire.value) := by
    refine hlearnt.mapM fun i hi j hj => ?_
    -- an output that the evaluator learns has a wire in whose scope it is
    have hscope : j.scope.evaluator = true := by
      have hrevealed := (List.mem_filter.mp hi).2
      have hat := congrArg (·[i]?) h.scopes
      simp only [List.getElem?_map, hj, Option.map_some] at hat
      obtain ⟨gate, hgate, hj⟩ := Option.map_eq_some_iff.mp hat.symm
      rw [Program.revealed, hgate] at hrevealed
      rw [← hj]
      exact hrevealed
    rw [GarbledRun.bitAt, hheld, List.getElem?_map, hj]
    simp [JointWire.held, hscope]
  refine ⟨_, ⟨learnt.map JointWire.value, outs.map (JointWire.label setup.delta), final⟩, hlabels,
    ?_, ?_, ?_⟩
  · rw [GarbledCircuit.run, if_pos (by rw [List.length_map, hcount])]
    dsimp only
    rw [hrun, ok_bind, hbit, ok_bind, hfinal]
    rfl
  · have hdecode : g.codebook.decodeFrom _ 0 = _ :=
      Codebook.decodeFrom_eq (List.drop_zero.trans hzeros)
    rw [h.delta] at hdecode
    rw [Codebook.decode, hdecode, ← h.values, Program.atOutputs, (houts.map JointWire.value).map_getD]
  · rw [← h.values]
    exact hlearnt.map JointWire.value

/-- Garbling is correct: if a program can be built, its random gates are known to the generator and garbling
succeeds, then the evaluator's run succeeds on the labels of any inputs. The labels of the outputs decode to
the outputs in the clear, where every source has the next bit of its party, and the evaluator learns the
values of the outputs that are revealed to it. -/
theorem Program.garbling_correct {p : Program} (hp : p.Buildable) {setup : GarblingSetup} {g : Garbling}
    (h : p.garble setup = .ok g)
    (hrandom : ∀ gate ∈ p.gates, gate.kind = .random → gate.scope.generator = true) (given : List Bool)
    (hgiven : given.length = p.inputIndices.length) :
    ∃ c labels r values outputs,
      GarbledCircuit.ofTables p g.tables setup.hash = .ok c ∧
      g.codebook.encode given 0 = .ok labels ∧ c.run labels = .ok r ∧
      p.evalGates (p.sourceBits setup given) = .ok values ∧
      p.eval (p.sourceBits setup given) = .ok outputs ∧
      g.codebook.decode r.labels = .ok outputs ∧
      p.ungarbledOutputs.map (values[·]?) = r.ungarbled.map some := by
  obtain ⟨wires, hcovers⟩ := hp.wellFormed.exists_covers hrandom h hgiven
  obtain ⟨labels, r, hlabels, hrun, hdecode, hlearnt⟩ :=
    hcovers.exists_run hp.wellFormed rfl fun v hv => (hcovers.payloads v hv).1
  have hlength := p.length_sourceBits setup given
  refine ⟨⟨p, g.tables, setup.hash⟩, labels, r, _, _, if_pos hcovers.tables, hlabels, hrun,
    if_pos hlength, ?_, hdecode, hlearnt⟩
  rw [eval, evalGates, if_pos hlength]
  rfl

theorem Program.garbling_correct_masked_conjunction :
    ∃ (p : Program) (setup : GarblingSetup) (g : Garbling) (c : GarbledCircuit) (labels : List Block)
      (r : RunResult), p.Buildable ∧ p.garble setup = .ok g ∧
      GarbledCircuit.ofTables p g.tables setup.hash = .ok c ∧
      g.codebook.encode [true] 0 = .ok labels ∧ c.run labels = .ok r ∧
      p.eval [true, true, true] = .ok [false, true] ∧ g.codebook.decode r.labels = .ok [false, true] := by
  obtain ⟨p, hp⟩ : ∃ p : Program, p = ⟨[⟨.input, .generatorOnly⟩, ⟨.input, .neither⟩,
      ⟨.random, .generatorOnly⟩, ⟨.conjunction false false false 3 2, .neither⟩,
      ⟨.linear false 1 2, .evaluatorOnly⟩], [4, 3]⟩ := ⟨_, rfl⟩
  have hbuildable : p.Buildable := by
    rw [hp]
    exact @Buildable.build [.add ⟨.input, .generatorOnly, []⟩, .add ⟨.input, .neither, []⟩,
      .add ⟨.random, .generatorOnly, []⟩, .add ⟨.conjunction false false false, .neither, [3, 2]⟩,
      .add ⟨.linear false, .evaluatorOnly, [1, 2]⟩, .outputs [4, 3]] _ rfl
  obtain ⟨setup, hsetup⟩ : ∃ setup : GarblingSetup, setup = ⟨Delta.ofSelected 5,
      fun key place => key + BitVec.ofNat 128 place.gate, [true], fun _ => true,
      fun k => BitVec.ofNat 128 k⟩ := ⟨_, rfl⟩
  obtain ⟨g, hg⟩ : ∃ g, p.garble setup = .ok g := by
    rw [hp, hsetup]
    exact ⟨_, rfl⟩
  have hrandom : ∀ gate ∈ p.gates, gate.kind = .random → gate.scope.generator = true := by
    rw [hp]
    decide
  have hgiven : [true].length = p.inputIndices.length := by
    rw [hp]
    rfl
  have hbits : p.sourceBits setup [true] = [true, true, true] := by
    rw [hp, hsetup]
    rfl
  have heval : p.eval [true, true, true] = .ok [false, true] := by
    rw [hp]
    rfl
  obtain ⟨c, labels, r, values, outputs, hc, hlabels, hrun, -, houtputs, hdecode, -⟩ :=
    garbling_correct hbuildable hg hrandom [true] hgiven
  rw [hbits, heval] at houtputs
  cases houtputs
  exact ⟨p, setup, g, c, labels, r, hbuildable, hg, hc, hlabels, hrun, heval, hdecode⟩

end HalfGates
