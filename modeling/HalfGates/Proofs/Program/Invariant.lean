import HalfGates.Proofs.Program.Buildable
import HalfGates.Proofs.Program.Positions
import HalfGates.Proofs.Program.Scopes

/-!
# What holds of every program

Whatever a builder was asked for, and however a program was lowered and simplified, its gates read earlier
gates, its scopes include what operands reveal, and its lists of positions are those of the gates that they
stand for. A builder only ever changes by the gate that it accepts.

## Main definitions

- `Program.pairwise_positions`, `Program.mem_positions`: the positions of the gates that pass a test
- `Program.Invariant`: what holds of a program at its positions
- `Program.WellFormed.invariant`: it holds of every well-formed program
- `Builder.call_add_eq_self_iff`: a request is refused exactly if it leaves the builder as it is
- `Program.buildable_invariant`: programs that can be built, and builders
-/

namespace HalfGates

namespace Program

theorem pairwise_positions (p : Program) (test : Gate → Bool) :
    (p.positions test).Pairwise (· < ·) := by
  have hsub : (p.positions test).Sublist (p.gates.zipIdx.map Prod.snd) :=
    List.filter_sublist.map Prod.snd
  refine List.Pairwise.sublist hsub ?_
  rw [List.zipIdx_map_snd]
  exact List.pairwise_lt_range'

theorem mem_positions {p : Program} {test : Gate → Bool} {i : Nat} :
    i ∈ p.positions test ↔ ∃ g, p.gates[i]? = some g ∧ test g = true := by
  simp only [positions, List.mem_map, List.mem_filter, List.mem_zipIdx_iff_getElem?]
  constructor
  · rintro ⟨⟨g, j⟩, ⟨hg, htest⟩, rfl⟩
    exact ⟨g, hg, htest⟩
  · rintro ⟨g, hg, htest⟩
    exact ⟨(g, i), ⟨hg, htest⟩, rfl⟩

/-- What holds of a program that can be built. -/
structure Invariant (p : Program) : Prop where
  /-- A gate has as many operands as its kind takes, and each of them is an earlier gate. -/
  operands : ∀ (i : Nat) (g : Gate), p.gates[i]? = some g →
    g.op.operands.length = g.kind.arity ∧ ∀ d ∈ g.op.operands, 1 ≤ d ∧ d ≤ i
  /-- Who knows all operands knows the gate, unless it is a source. -/
  scopes : ∀ (i : Nat) (g : Gate), p.gates[i]? = some g → g.kind.isSource = false →
    g.scope.contains (.interAll (g.op.operands.map fun d => p.scopeAt (i - d))) = true
  constants : ∀ g ∈ p.gates, g.kind.isConstant = true → g.scope = .both
  outputs : ∀ i ∈ p.outputs, i < p.length
  /-- The evaluator's inputs, each once and in order. -/
  inputIndices : p.inputIndices.Pairwise (· < ·) ∧ ∀ i, i ∈ p.inputIndices ↔
    ∃ g, p.gates[i]? = some g ∧ g.kind = .input ∧ g.scope.generator = false
  ungarbledOutputs : p.ungarbledOutputs = p.outputs.filter fun i => (p.scopeAt i).evaluator

theorem WellFormed.invariant {p : Program} (h : p.WellFormed) : p.Invariant where
  operands := by
    intro i g hg
    obtain ⟨hlt, -⟩ := List.getElem?_eq_some_iff.mp hg
    have hfits := throughout_iff.mp h.gates i g hg
    refine ⟨Operation.length_operands g.op, fun d hd => ?_⟩
    have hbounds := hfits.operands d hd
    rwa [length_before (Nat.le_of_lt hlt)] at hbounds
  scopes := by
    intro i g hg hsource
    have hfloor := (throughout_iff.mp h.gates i g hg).floor
    have hkind : g.op.kind.isSource = false := hsource
    rwa [Gate.floor_eq, hkind, if_neg (by decide),
      Operation.operands_map_congr (h.map_scopeBack hg)] at hfloor
  constants := by
    intro g hmem hconstant
    obtain ⟨i, hg⟩ := List.getElem?_of_mem hmem
    exact (throughout_iff.mp h.gates i g hg).scope_of_constant hconstant
  outputs := h.outputs
  inputIndices := by
    refine ⟨p.pairwise_positions _, fun i => ?_⟩
    simp only [Program.inputIndices, mem_positions, Gate.isEvaluatorInput, Bool.and_eq_true,
      beq_iff_eq, Bool.not_eq_true']
  ungarbledOutputs := by
    rw [Program.ungarbledOutputs]
    exact congrArg (p.outputs.filter ·) (funext p.revealed_eq)

end Program

namespace Builder

/-- A gate that is accepted stands behind the others, with the scope asked for and that of all operands. -/
theorem exists_gate_of_add {b b' : Builder} {r : GateRequest} (h : b.add r = .ok b') :
    ∃ g, b' = { b with past := g :: b.past } ∧ g.kind = r.kind ∧ g.op.operands = r.offsets ∧
      g.scope = r.scope.union (if r.kind.isSource then .neither
        else .interAll (r.offsets.map (Gate.scopeBack b.past))) := by
  obtain ⟨op, hop, -, rfl⟩ := add_eq_ok_iff.mp h
  obtain ⟨hkind, hoffsets⟩ := Operation.kind_operands_of_ofKind? hop
  refine ⟨_, rfl, hkind, hoffsets, ?_⟩
  rw [Gate.widened, Gate.floor_eq, hkind, hoffsets]

theorem ne_of_add {b b' : Builder} {r : GateRequest} (h : b.add r = .ok b') : b' ≠ b := by
  obtain ⟨g, rfl, -⟩ := exists_gate_of_add h
  intro heq
  have hlength := congrArg (fun b => b.past.length) heq
  simp at hlength

theorem add_of_addRecord {b b' : Builder} {r : GateRecord} (h : b.addRecord r = .ok b') :
    b.add ⟨r.kind, r.scope, r.offsets.map Int.toNat⟩ = .ok b' := by
  unfold addRecord at h
  split at h
  · cases h
  · exact h

/-- A request is refused exactly if it leaves the builder as it is. -/
theorem call_add_eq_self_iff (b : Builder) (r : GateRequest) :
    b.call (.add r) = b ↔ ∃ e, b.add r = .error e := by
  cases hr : b.add r with
  | error e => simp [call, hr, Except.toOption]
  | ok b' => simp [call, hr, Except.toOption, ne_of_add hr]

theorem call_addRecord_eq_self_iff (b : Builder) (r : GateRecord) :
    b.call (.addRecord r) = b ↔ ∃ e, b.addRecord r = .error e := by
  cases hr : b.addRecord r with
  | error e => simp [call, hr, Except.toOption]
  | ok b' => simp [call, hr, Except.toOption, ne_of_add (add_of_addRecord hr)]

end Builder

/-- Programs that can be built satisfy the invariant; a request that is refused leaves a builder as it is,
and one that is accepted adds a gate known to those asked for and to those who know all operands. -/
theorem Program.buildable_invariant :
    (∀ p : Program, p.Buildable → p.Invariant) ∧
      (∀ (b : Builder) (r : GateRequest), b.call (.add r) = b ↔ ∃ e, b.add r = .error e) ∧
      (∀ (b : Builder) (r : GateRecord), b.call (.addRecord r) = b ↔ ∃ e, b.addRecord r = .error e) ∧
      ∀ (b b' : Builder) (r : GateRequest), b.add r = .ok b' →
        ∃ g, b' = { b with past := g :: b.past } ∧ g.kind = r.kind ∧ g.op.operands = r.offsets ∧
          g.scope = r.scope.union (if r.kind.isSource then .neither
            else .interAll (r.offsets.map (Gate.scopeBack b.past))) :=
  ⟨fun _ hp => hp.wellFormed.invariant, Builder.call_add_eq_self_iff,
    Builder.call_addRecord_eq_self_iff, fun _ _ _ => Builder.exists_gate_of_add⟩

theorem Program.buildable_invariant_refused_part :
    ∃ (b b' : Builder) (p : Program), p.Buildable ∧ p.Invariant ∧ p.inputIndices = [1] ∧
      p.gates = b'.gates ∧ b.call (.addRecord ⟨.linear true, .neither, [1, -3]⟩) = b ∧
      b.call (.add ⟨.unary false, .neither, [3]⟩) = b ∧
      b.add ⟨.conjunction false false false, .evaluatorOnly, [2, 1]⟩ = .ok b' ∧
      ∃ g, b'.past = g :: b.past ∧ g.op.operands = [2, 1] ∧ g.scope = .evaluatorOnly := by
  obtain ⟨hinvariant, hadd, hrecord, haccepted⟩ := buildable_invariant
  obtain ⟨b, hb⟩ : ∃ b : Builder, b = ⟨[⟨.input, .evaluatorOnly⟩, ⟨.input, .both⟩], []⟩ := ⟨_, rfl⟩
  obtain ⟨b', hb'⟩ : ∃ b',
      b.add ⟨.conjunction false false false, .evaluatorOnly, [2, 1]⟩ = .ok b' := by
    rw [hb]
    exact ⟨_, rfl⟩
  obtain ⟨p, hp⟩ : ∃ p : Program, p = ⟨[⟨.input, .both⟩, ⟨.input, .evaluatorOnly⟩,
      ⟨.conjunction false false false 2 1, .evaluatorOnly⟩], [2, 0]⟩ := ⟨_, rfl⟩
  have hbuildable : p.Buildable := by
    rw [hp]
    exact @Buildable.build [.add ⟨.input, .both, []⟩, .add ⟨.input, .evaluatorOnly, []⟩,
      .addRecord ⟨.linear true, .neither, [1, -3]⟩, .add ⟨.unary false, .neither, [3]⟩,
      .add ⟨.conjunction false false false, .evaluatorOnly, [2, 1]⟩, .outputs [2, 0]] _ rfl
  have hrefused : ∃ e, b.addRecord ⟨.linear true, .neither, [1, -3]⟩ = .error e := by
    rw [hb]
    exact ⟨_, rfl⟩
  have hbeyond : ∃ e, b.add ⟨.unary false, .neither, [3]⟩ = .error e := by
    rw [hb]
    exact ⟨_, rfl⟩
  have hgates : p.gates = b'.gates := by
    rw [hb] at hb'
    cases hb'
    rw [hp]
    rfl
  obtain ⟨g, hpast, -, hoperands, hscope⟩ := haccepted b b' _ hb'
  refine ⟨b, b', p, hbuildable, hinvariant p hbuildable, by rw [hp]; rfl, hgates,
    (hrecord b _).mpr hrefused, (hadd b _).mpr hbeyond, hb', g, by rw [hpast], hoperands, ?_⟩
  rw [hscope, hb]
  rfl

end HalfGates
