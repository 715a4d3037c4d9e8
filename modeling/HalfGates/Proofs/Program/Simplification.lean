import HalfGates.Proofs.Program.Buildable

/-!
# Simplification keeps the meaning of a program

Rewriting leaves every gate at its position with its value and leaves the sources alone. Removal drops
sources that no output needs; on the bits of the remaining ones the outputs are as before.

## Main definitions

- `Program.survivors`: which sources are left after simplification
- `Program.WellFormed.simplify_eq`: simplification of a well-formed program
- `Program.simplify_faithful`: every program that can be built is simplified to one that computes the same
-/

namespace HalfGates.Program

/-- Which of the sources are left after simplification, in the order of the sources. -/
def survivors (p : Program) : List Bool :=
  p.simplifyGates.liveSources

/-- Rewriting changes no source and makes none. -/
theorem source_simplifyGates (p : Program) {g : Gate} (hg : g.kind.isSource = true) (i : Nat) :
    p.simplifyGates.gates[i]? = some g ↔ p.gates[i]? = some g := by
  have hlen : p.simplifyGates.gates.length = p.gates.length := length_simplifyGates p
  rw [← back?_reverse, ← back?_reverse p.gates, hlen, reverse_simplifyGates]
  cases p.gates.length - i with
  | zero => simp
  | succ d => exact Rewriting.rewritten_source hg d

@[simp] theorem sources_simplifyGates (p : Program) : p.simplifyGates.sources = p.sources := by
  have hfilter := Rewriting.filter_isSource_rewritten p.gates.reverse
  rw [← reverse_simplifyGates, List.filter_reverse, List.filter_reverse,
    List.reverse_inj] at hfilter
  exact hfilter

@[simp] theorem sourceCount_simplifyGates (p : Program) :
    p.simplifyGates.sourceCount = p.sourceCount := by
  rw [← length_sources, sources_simplifyGates, length_sources]

@[simp] theorem length_survivors (p : Program) : p.survivors.length = p.sourceCount := by
  rw [survivors, length_liveSources, sourceCount_simplifyGates]

/-- Simplification succeeds and gives the live part of the rewritten program. -/
theorem WellFormed.simplify_eq {p : Program} (h : p.WellFormed) :
    p.simplify = .ok p.simplifyGates.live :=
  h.simplifyGates.removeUnused_eq

theorem sources_live_simplifyGates (p : Program) :
    p.simplifyGates.live.sources = keep p.survivors p.sources := by
  rw [sources_live, sources_simplifyGates, survivors]

/-- The simplified program has the outputs of the program on the bits of the surviving sources. -/
theorem WellFormed.eval_live_simplifyGates {p : Program} (h : p.WellFormed) {bits : List Bool}
    (hbits : bits.length = p.sourceCount) :
    p.simplifyGates.live.eval (keep p.survivors bits) =
      .ok (p.atOutputs (p.values bits)) := by
  have hcount : bits.length = p.simplifyGates.sourceCount := by
    rw [hbits, sourceCount_simplifyGates]
  rw [survivors, h.simplifyGates.eval_live hcount, eval, evalGates, if_pos hcount,
    h.values_simplifyGates]
  rfl

theorem eval_eq_ok {p : Program} {bits : List Bool} (hbits : bits.length = p.sourceCount) :
    p.eval bits = .ok (p.atOutputs (p.values bits)) := by
  rw [eval, evalGates, if_pos hbits]
  rfl

/-- Rewriting keeps the length, the sources, the outputs and all values; the simplified program has a
subsequence of the sources and computes the same outputs from their bits. -/
theorem simplify_faithful {p : Program} (h : p.Buildable) :
    (p.simplifyGates.length = p.length ∧ p.simplifyGates.outputs = p.outputs ∧
      (∀ (i : Nat) (g : Gate), g.kind.isSource = true →
        (p.simplifyGates.gates[i]? = some g ↔ p.gates[i]? = some g)) ∧
      ∀ bits, bits.length = p.sourceCount → ∃ values,
        p.evalGates bits = .ok values ∧ p.simplifyGates.evalGates bits = .ok values) ∧
    ∃ q, p.simplify = .ok q ∧ q.sources = keep p.survivors p.sources ∧
      q.sources.Sublist p.sources ∧
      ∀ bits, bits.length = p.sourceCount → ∃ outputs,
        p.eval bits = .ok outputs ∧ q.eval (keep p.survivors bits) = .ok outputs := by
  have hp := h.wellFormed
  refine ⟨⟨p.length_simplifyGates, p.outputs_simplifyGates, fun i g hg =>
    p.source_simplifyGates hg i, fun bits hbits => ?_⟩, p.simplifyGates.live, hp.simplify_eq,
    p.sources_live_simplifyGates, ?_, fun bits hbits => ?_⟩
  · refine ⟨p.values bits, if_pos hbits, ?_⟩
    rw [evalGates, if_pos (by rw [hbits, sourceCount_simplifyGates]), hp.values_simplifyGates]
  · rw [sources_live_simplifyGates]
    exact keep_sublist _ _
  · exact ⟨_, eval_eq_ok hbits, hp.eval_live_simplifyGates hbits⟩

theorem simplify_faithful_conjunction_of_constant :
    ∃ p q : Program, p.Buildable ∧ p.sourceCount = 2 ∧ p.simplify = .ok q ∧
      q.sources = [⟨.input, .neither⟩] ∧
      ∃ outputs, p.eval [true, false] = .ok outputs ∧
        q.eval (keep p.survivors [true, false]) = .ok outputs := by
  have hbuildable : Buildable ⟨[⟨.input, .generatorOnly⟩, ⟨.input, .neither⟩,
      ⟨.constant false, .both⟩, ⟨.conjunction false false false 3 1, .generatorOnly⟩,
      ⟨.linear true 1 3, .neither⟩], [4, 4]⟩ :=
    @Buildable.build [.add ⟨.input, .generatorOnly, []⟩, .add ⟨.input, .neither, []⟩,
      .add ⟨.constant false, .both, []⟩, .add ⟨.conjunction false false false, .neither, [3, 1]⟩,
      .add ⟨.linear true, .neither, [1, 3]⟩, .outputs [4, 4]] _ rfl
  obtain ⟨-, q, hq, hsources, -, hruns⟩ := simplify_faithful hbuildable
  obtain ⟨outputs, heval, hsimple⟩ := hruns [true, false] rfl
  exact ⟨_, q, hbuildable, rfl, hq, by rw [hsources]; decide, outputs, heval, hsimple⟩

end HalfGates.Program
