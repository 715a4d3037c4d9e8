import HalfGates.Proofs.Codec
import HalfGates.Proofs.Garbling.Derivable
import HalfGates.Proofs.Program.Scopes
import HalfGates.Proofs.Program.Simplification

/-!
# From a parity system to a decoded result

A parity system is lowered and simplified, the program is garbled, the tables are sent, and the evaluator
runs what it received. If the generator is to learn no defined variable, all of this succeeds and the
decoded outputs are those of the system.

## Main definitions

- `sourceBits_keep`: bits dealt to their parties come back in the order of the sources
- `Program.revealed_live_simplifyGates`: simplification hides no output from the evaluator
- `Exchange`: everything that the parties make on the way from a program to its outputs
- `Program.WellFormed.exists_exchange`: a derivable program is exchanged
- `ParitySystem.exchange_faithful`: the exchange computes the system
-/

namespace HalfGates

/-! ### Dealing the bits of the sources -/

section dealing

variable {α : Type}

/-- As many sources of a kind are dealt a bit as there are gates of the kind. -/
theorem Program.length_keep_sources (p : Program) {test : Gate → Bool}
    (htest : ∀ g, test g = true → g.kind.isSource = true) {bits : List α}
    (hbits : bits.length = p.sourceCount) :
    (keep (p.sources.map test) bits).length = p.gates.countP test := by
  rw [length_keep (by simp [hbits]), List.count, List.countP_map, sources, List.countP_filter]
  refine List.countP_congr fun g _ => ?_
  cases ht : test g with
  | false => simp [ht]
  | true => simp [ht, htest g ht]

/-- Bits that are dealt to the parties by the kinds of the sources come back as they were. -/
theorem sourceBits_keep {gates : List Gate} {bits : List Bool} {random : Nat → Bool}
    (hbits : bits.length = gates.countP fun g => g.kind.isSource)
    (hrandom : keep ((gates.filter fun g => g.kind.isSource).map fun g => g.kind == .random) bits =
      (List.range (gates.countP fun g => g.kind == .random)).map random) :
    sourceBits gates
      (keep ((gates.filter fun g => g.kind.isSource).map Gate.isGeneratorInput) bits) random
      (keep ((gates.filter fun g => g.kind.isSource).map Gate.isEvaluatorInput) bits) = bits := by
  induction gates generalizing bits random with
  | nil => exact (List.eq_nil_of_length_eq_zero hbits).symm
  | cons g gates ih =>
    cases hsource : g.kind.isSource with
    | false =>
      obtain ⟨hown, hr, hgiven⟩ := Gate.of_isSource_eq_false hsource
      simp only [List.countP_cons, List.filter_cons, hsource, hr, Bool.false_eq_true, if_false,
        Nat.add_zero] at hbits hrandom ⊢
      rw [sourceBits, hown, hr, hgiven]
      exact ih hbits hrandom
    | true =>
      cases bits with
      | nil => simp [hsource] at hbits
      | cons b bits =>
        have hrest : bits.length = gates.countP fun g => g.kind.isSource := by
          simpa [hsource] using hbits
        simp only [List.countP_cons, List.filter_cons, hsource, if_true, List.map_cons] at hrandom ⊢
        rw [sourceBits]
        -- the bit goes to one party, and only a random one leaves the stream a bit shorter
        rcases Gate.source_cases hsource with
          ⟨hown, hr, hgiven⟩ | ⟨hown, hr, hgiven⟩ | ⟨hown, hr, hgiven⟩
        · rw [hr, keep_cons_false, if_neg (by decide), Nat.add_zero] at hrandom
          rw [hown, hgiven, keep_cons_true, keep_cons_false, if_pos rfl]
          exact congrArg (b :: ·) (ih hrest hrandom)
        · rw [hr, keep_cons_true, if_pos rfl, List.range_succ_eq_map, List.map_cons,
            List.map_map] at hrandom
          obtain ⟨hb, hrandom⟩ := List.cons.inj hrandom
          rw [hown, hr, hgiven, keep_cons_false, keep_cons_false, if_neg (by decide), if_pos rfl, ← hb]
          exact congrArg (b :: ·) (ih hrest hrandom)
        · rw [hr, keep_cons_false, if_neg (by decide), Nat.add_zero] at hrandom
          rw [hown, hr, hgiven, keep_cons_true, keep_cons_false, if_neg (by decide),
            if_neg (by decide), if_pos rfl]
          exact congrArg (b :: ·) (ih hrest hrandom)

end dealing

/-! ### What the evaluator learns -/

namespace Program

/-- Rewriting hides nothing from the evaluator. -/
theorem revealed_simplifyGates {p : Program} {i : Nat} (h : p.revealed i = true) :
    p.simplifyGates.revealed i = true := by
  rw [revealed_eq] at h ⊢
  exact Scope.contains_iff.mp (p.contains_scopeAt_simplifyGates i) .evaluator h

/-- Removal leaves the scopes of the outputs alone. -/
theorem WellFormed.revealed_live {p : Program} (h : p.WellFormed) {i : Nat} (hi : i ∈ p.outputs) :
    p.live.revealed (Liveness.position p.liveMask i) = p.revealed i := by
  rw [revealed_eq, revealed_eq, h.scopeAt_live hi]

/-- An output that the evaluator is to learn is learnt after simplification. -/
theorem WellFormed.revealed_live_simplifyGates {p : Program} (h : p.WellFormed) {j i : Nat}
    (hj : p.outputs[j]? = some i) (hrevealed : p.revealed i = true) :
    ∃ i', p.simplifyGates.live.outputs[j]? = some i' ∧ p.simplifyGates.live.revealed i' = true := by
  refine ⟨Liveness.position p.simplifyGates.liveMask i, ?_, ?_⟩
  · rw [Program.live, List.getElem?_map, outputs_simplifyGates, hj]
    rfl
  · rw [h.simplifyGates.revealed_live (List.mem_of_getElem? hj)]
    exact revealed_simplifyGates hrevealed

/-- A revealed output is among the ungarbled ones. -/
theorem exists_ungarbled {p : Program} {outputs : List Bool}
    (hlength : outputs.length = p.outputs.length) {j i : Nat} (hj : p.outputs[j]? = some i)
    (hi : p.revealed i = true) :
    ∃ (k : Nat) (bit : Bool), p.ungarbledOutputs[k]? = some i ∧
      (keep (p.outputs.map p.revealed) outputs)[k]? = some bit ∧ outputs[j]? = some bit := by
  have hmask : (p.outputs.map p.revealed)[j]? = some true := by
    rw [List.getElem?_map, hj, ← hi]
    rfl
  obtain ⟨hlt, -⟩ := List.getElem?_eq_some_iff.mp hj
  obtain ⟨bit, hbit⟩ : ∃ bit, outputs[j]? = some bit :=
    ⟨_, List.getElem?_eq_getElem (hlength ▸ hlt)⟩
  refine ⟨((p.outputs.map p.revealed).take j).count true, bit, ?_, ?_, hbit⟩
  · rw [ungarbledOutputs, ← keep_test, getElem?_keep hmask, hj]
  · rw [getElem?_keep hmask, hbit]

end Program

/-- The evaluator learns an output that was asked for it. -/
theorem Lowered.revealed {s : ParitySystem} {options : LoweringOptions} {l : Lowering}
    (h : Lowered s options l) {j : Nat} (hj : j < s.outputs)
    (hscope : (options.scope (s.inputs + s.auxiliaries + j)).evaluator = true) :
    ∃ i, l.program.outputs[j]? = some i ∧ l.program.revealed i = true := by
  have hlt : s.inputs + s.auxiliaries + j < s.length := by
    rw [ParitySystem.length]
    omega
  obtain ⟨i, g, hi, hg, hcontains⟩ := h.reaches _ (by omega) hlt
  rw [List.reverse_reverse] at hg
  refine ⟨i, by rw [h.outputs, List.getElem?_drop, hi], ?_⟩
  rw [Program.revealed, hg]
  exact Scope.contains_iff.mp hcontains .evaluator hscope

/-! ### The exchange -/

/-- Everything that the parties make on the way from a program to its outputs: the generator garbles the
program and sends the tables, the evaluator puts the received tables together with the program and runs
it on the labels of its inputs, and the labels of the outputs are decoded. -/
structure Exchange (p : Program) (setup : GarblingSetup) (given : List Bool) where
  garbling : Garbling
  received : List BitView
  circuit : GarbledCircuit
  labels : List Block
  result : RunResult
  outputs : List Bool
  garble : p.garble setup = .ok garbling
  send : Codec.decode Codec.takeTables (Codec.putTables garbling.tables) = .ok received
  assemble : GarbledCircuit.ofTables p received setup.hash = .ok circuit
  encode : garbling.codebook.encode given 0 = .ok labels
  run : circuit.run labels = .ok result
  decode : garbling.codebook.decode result.labels = .ok outputs

/-- A derivable program is exchanged, and the outputs are those in the clear. -/
theorem Program.WellFormed.exists_exchange {p : Program} (hp : p.WellFormed) (hderivable : p.Derivable)
    (hrandom : ∀ g ∈ p.gates, g.kind = .random → g.scope.generator = true) (hlength : p.length < 2 ^ 64)
    {setup : GarblingSetup} (hown : setup.inputs.length = p.generatorInputCount) {given : List Bool}
    (hgiven : given.length = p.inputIndices.length) :
    ∃ x : Exchange p setup given, p.eval (p.sourceBits setup given) = .ok x.outputs ∧
      x.result.ungarbled = keep (p.outputs.map p.revealed) x.outputs := by
  obtain ⟨g, wires, hgarble, hcovers⟩ := hp.exists_garbling hderivable hrandom hown hgiven
  have hreceived : Codec.decode Codec.takeTables (Codec.putTables g.tables) =
      .ok (g.tables.map fun v => .ofBits v.toBits) := by
    refine (Codec.reads_tables ?_ fun v hv => ?_).decode
    · rw [hcovers.tables]
      exact hlength
    · exact Nat.lt_of_le_of_lt (hcovers.payloads v hv).2 (by decide)
  -- what arrives has the bits of what was sent, from the start of a byte on
  have hbits : (g.tables.map fun v => BitView.ofBits v.toBits).map BitView.toBits =
      g.tables.map BitView.toBits := by
    rw [List.map_map]
    exact List.map_congr_left fun v _ => BitView.toBits_ofBits v.toBits
  have haligned : ∀ v ∈ g.tables.map fun v => BitView.ofBits v.toBits, v.startsAligned = true := by
    intro v hv
    obtain ⟨payload, -, rfl⟩ := List.mem_map.mp hv
    rfl
  obtain ⟨labels, r, hlabels, hrun, hdecode, hlearnt⟩ := hcovers.exists_run hp hbits haligned
  have hassemble : GarbledCircuit.ofTables p (g.tables.map fun v => .ofBits v.toBits) setup.hash =
      .ok ⟨p, g.tables.map fun v => .ofBits v.toBits, setup.hash⟩ :=
    if_pos (by rw [List.length_map, hcovers.tables])
  refine ⟨⟨g, _, _, labels, r, _, hgarble, hreceived, hassemble, hlabels, hrun, hdecode⟩,
    eval_eq_ok (p.length_sourceBits setup given), ?_⟩
  show r.ungarbled = keep (p.outputs.map p.revealed) (p.atOutputs _)
  rw [atOutputs, keep_map, keep_test]
  exact (hlearnt.map_getD false).symm

/-- A derivable program is exchanged when the bits of its sources are dealt to the parties. -/
theorem Program.WellFormed.exists_exchange_of_dealt {p : Program} (hp : p.WellFormed)
    (hderivable : p.Derivable) (hrandom : ∀ g ∈ p.gates, g.kind = .random → g.scope.generator = true)
    (hlength : p.length < 2 ^ 64) {setup : GarblingSetup} {bits : List Bool}
    (hbits : bits.length = p.sourceCount)
    (hown : setup.inputs = keep (p.sources.map Gate.isGeneratorInput) bits)
    (hdrawn : keep (p.sources.map fun g => g.kind == .random) bits =
      (List.range (p.count .random)).map setup.randomBits) :
    ∃ x : Exchange p setup (keep (p.sources.map Gate.isEvaluatorInput) bits),
      p.eval bits = .ok x.outputs ∧ x.result.ungarbled = keep (p.outputs.map p.revealed) x.outputs := by
  have hgenerator : setup.inputs.length = p.generatorInputCount := by
    rw [hown, p.length_keep_sources (fun g hg => by rw [g.isSource_eq, hg]; rfl) hbits]
    rfl
  have hgiven : (keep (p.sources.map Gate.isEvaluatorInput) bits).length = p.inputIndices.length := by
    rw [p.length_keep_sources (fun g hg => by simp [g.isSource_eq, hg]) hbits, Program.inputIndices,
      p.length_positions]
  have hdealt : p.sourceBits setup (keep (p.sources.map Gate.isEvaluatorInput) bits) = bits := by
    rw [Program.sourceBits, hown]
    exact sourceBits_keep hbits hdrawn
  have hexchange := hp.exists_exchange hderivable hrandom hlength hgenerator hgiven
  rwa [hdealt] at hexchange

namespace ParitySystem

/-- Random gates are left over from random inputs. -/
theorem scope_of_random {s : ParitySystem} {options : LoweringOptions} {l : Lowering}
    (hl : Lowered s options l)
    (hrandom : ∀ v, v < s.inputs → options.random v = true → (options.scope v).generator = true)
    {q : Program} (hq : q.sources.Sublist l.program.sources) :
    ∀ g ∈ q.gates, g.kind = .random → g.scope.generator = true := by
  intro g hg hkind
  have hsource : g ∈ q.sources := List.mem_filter.mpr ⟨hg, by rw [hkind]; rfl⟩
  have hmem := hq.subset hsource
  rw [hl.sources] at hmem
  obtain ⟨v, hv, rfl⟩ := List.mem_map.mp hmem
  refine hrandom v (List.mem_range.mp hv) ?_
  cases hr : options.random v with
  | true => rfl
  | false => simp [Lowering.inputGate, hr, Gate.kind, Operation.kind] at hkind

/-- The exchange computes the system. The system is lowered with no defined variable for the generator and
with random inputs that the generator knows, and simplified. The bits of the inputs that are left are dealt:
those that the generator knows are its inputs, the random ones come from its random stream, and the others
are the evaluator's. The exchange then gives what applying the system gives, whatever bits the dropped
inputs have, and the evaluator learns the outputs in its scope, those asked for among them. There are fewer
than `2 ^ 64` gates because the number of tables is sent in eight bytes. -/
theorem exchange_faithful {s : ParitySystem} {options : LoweringOptions} {definitions : List Expr}
    (h : s.definitions = .ok definitions)
    (hscope : ∀ v, s.inputs ≤ v → v < s.length → (options.scope v).generator = false)
    (hrandom : ∀ v, v < s.inputs → options.random v = true → (options.scope v).generator = true) :
    ∃ l q, s.lower options = .ok l ∧ l.program.simplify = .ok q ∧
      q.sources = keep l.program.survivors ((List.range s.inputs).map (Lowering.inputGate options)) ∧
      (q.length < 2 ^ 64 → ∀ (setup : GarblingSetup) (bits kept : List Bool), bits.length = s.inputs →
        kept = keep l.program.survivors bits →
        setup.inputs = keep (q.sources.map Gate.isGeneratorInput) kept →
        keep (q.sources.map fun g => g.kind == .random) kept =
          (List.range (q.count .random)).map setup.randomBits →
        ∃ x : Exchange q setup (keep (q.sources.map Gate.isEvaluatorInput) kept),
          s.apply bits = .ok x.outputs ∧
          (∀ bits', bits'.length = s.inputs → kept = keep l.program.survivors bits' →
            s.apply bits' = .ok x.outputs) ∧
          x.result.ungarbled = keep (q.outputs.map q.revealed) x.outputs ∧
          ∀ j, j < s.outputs → (options.scope (s.inputs + s.auxiliaries + j)).evaluator = true →
            ∃ (i k : Nat) (bit : Bool), q.outputs[j]? = some i ∧ q.ungarbledOutputs[k]? = some i ∧
              x.result.ungarbled[k]? = some bit ∧ x.outputs[j]? = some bit) := by
  obtain ⟨l, hl, hlowered⟩ := exists_lowered h options
  have hp := hlowered.wellFormed
  have hsources := l.program.sources_live_simplifyGates
  refine ⟨l, l.program.simplifyGates.live, hl, hp.simplify_eq, by rw [hsources, hlowered.sources], ?_⟩
  obtain ⟨q, hq⟩ : ∃ q, q = l.program.simplifyGates.live := ⟨_, rfl⟩
  rw [← hq] at hsources ⊢
  intro hlength setup bits kept hbits hkept hown hdrawn
  have hwell : q.WellFormed := hq ▸ hp.simplifyGates.live
  have hcount : kept.length = q.sourceCount := by
    rw [hkept, ← Program.length_sources, hsources, length_keep, length_keep]
    · simp
    · simp [hbits, hlowered.sourceCount]
  have hsublist : q.sources.Sublist l.program.sources := hsources ▸ keep_sublist _ _
  obtain ⟨x, heval, hlearnt⟩ := hwell.exists_exchange_of_dealt
    (hq ▸ hp.derivable_live_simplifyGates (hlowered.derivable hscope))
    (scope_of_random hlowered hrandom hsublist) hlength hcount hown hdrawn
  -- the simplified program has the outputs of the system, and whatever was dropped is not read
  have happly : ∀ bits', bits'.length = s.inputs → kept = keep l.program.survivors bits' →
      s.apply bits' = .ok x.outputs := by
    intro bits' hbits' hkept'
    obtain ⟨a, hsolve, ha⟩ := hlowered.solves bits' hbits'
    have hlive := hp.eval_live_simplifyGates (hbits'.trans hlowered.sourceCount.symm)
    rw [← hq, ← hkept', heval] at hlive
    rw [hlowered.applies hsolve ha, Except.ok.inj hlive]
  refine ⟨x, happly bits hbits hkept, happly, hlearnt, fun j hj hevaluator => ?_⟩
  obtain ⟨i, hi, hrevealed⟩ := hlowered.revealed hj hevaluator
  obtain ⟨i', hi', hrevealed'⟩ := hp.revealed_live_simplifyGates hi hrevealed
  rw [← hq] at hi' hrevealed'
  have houtputs : x.outputs.length = q.outputs.length := by
    rw [Program.eval_eq_ok hcount] at heval
    rw [← Except.ok.inj heval, Program.atOutputs, List.length_map]
  obtain ⟨k, bit, hk, hbit, houtput⟩ := Program.exists_ungarbled houtputs hi' hrevealed'
  exact ⟨i', k, bit, hi', hk, hlearnt ▸ hbit, houtput⟩

theorem exchange_faithful_masked_conjunction :
    ∃ (s : ParitySystem) (options : LoweringOptions) (l : Lowering) (q : Program) (setup : GarblingSetup)
      (x : Exchange q setup [true]), s.lower options = .ok l ∧ l.program.simplify = .ok q ∧
      q.sources = [⟨.random, .generatorOnly⟩, ⟨.input, .neither⟩] ∧ q.ungarbledOutputs = q.outputs ∧
      s.apply [true, true, false] = .ok [true] ∧ x.outputs = [true] ∧ x.result.ungarbled = [true] := by
  obtain ⟨s, hs⟩ : ∃ s : ParitySystem,
      s = ⟨3, 0, 1, [.sum [.variable 3, .product [.variable 0, .variable 1]]]⟩ := ⟨_, rfl⟩
  obtain ⟨options, hoptions⟩ : ∃ options : LoweringOptions, options =
      ⟨fun v => [Scope.generatorOnly, .neither, .neither].getD v .evaluatorOnly, fun v => v == 0⟩ :=
    ⟨_, rfl⟩
  obtain ⟨definitions, hdefinitions⟩ : ∃ definitions, s.definitions = .ok definitions := by
    rw [hs]
    exact ⟨_, rfl⟩
  have hscope : ∀ v, s.inputs ≤ v → v < s.length → (options.scope v).generator = false := by
    intro v hle hlt
    rw [hs] at hle hlt
    obtain rfl : v = 3 := Nat.le_antisymm (Nat.le_of_lt_succ hlt) hle
    rw [hoptions]
    rfl
  have hrandom : ∀ v, v < s.inputs → options.random v = true → (options.scope v).generator = true := by
    rw [hs, hoptions]
    decide
  obtain ⟨l, q, hl, hq, -, hexchange⟩ := exchange_faithful hdefinitions hscope hrandom
  obtain ⟨l', q', hl', hq', hsurvivors, hsources, hlength, hdrawn, houtputs, hrevealed⟩ :
      ∃ l' q', s.lower options = .ok l' ∧ l'.program.simplify = .ok q' ∧
        l'.program.survivors = [true, true, false] ∧
        q'.sources = [⟨.random, .generatorOnly⟩, ⟨.input, .neither⟩] ∧ q'.length = 6 ∧
        q'.count .random = 1 ∧ q'.ungarbledOutputs = q'.outputs ∧
        q'.outputs.map q'.revealed = [true] := by
    rw [hs, hoptions]
    exact ⟨_, _, rfl, rfl, rfl, rfl, rfl, rfl, rfl, rfl⟩
  cases hl.symm.trans hl'
  cases hq.symm.trans hq'
  have happly : s.apply [true, true, false] = .ok [true] := by
    rw [hs]
    rfl
  have hgiven : keep (q.sources.map Gate.isEvaluatorInput) [true, true] = [true] := by
    rw [hsources]
    rfl
  have hexchanged := hexchange (by rw [hlength]; decide)
    ⟨Delta.ofSelected 5, fun key place => key + BitVec.ofNat 128 place.gate, [], fun _ => true,
      fun k => BitVec.ofNat 128 k⟩ [true, true, false] [true, true] (hs ▸ rfl)
    (by rw [hsurvivors]; rfl) (by rw [hsources]; rfl) (by rw [hsources, hdrawn]; rfl)
  rw [hgiven] at hexchanged
  obtain ⟨x, hx, -, hlearnt, -⟩ := hexchanged
  have hbits : x.outputs = [true] := Except.ok.inj (hx.symm.trans happly)
  refine ⟨s, options, l, q, _, x, hl, hq, hsources, houtputs, happly, hbits, ?_⟩
  rw [hlearnt, hrevealed, hbits]
  rfl

end ParitySystem

end HalfGates
