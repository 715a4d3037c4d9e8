import HalfGates.Proofs.Program.Restriction
import HalfGates.Proofs.Program.Simplification

/-!
# Simplification is stable

Cutting a program down to marked gates commutes with rewriting and leaves the live part alone. Hence dead
gates play no role in simplification, and simplifying a second time changes nothing.

## Main definitions

- `Program.restricted`: the marked gates of a program
- `Program.Cuts`: a mask that cuts a program out of a program
- `Program.Cuts.simplifyGates_restricted`, `Program.Cuts.live_restricted`: what cutting commutes with
- `Program.simplify_stable`: simplification of every program that can be built is stable
-/

namespace HalfGates

namespace Program

/-- The marked gates of a program, and the outputs at their places among them. -/
def restricted (p : Program) (marks : List Bool) : Program where
  gates := (Liveness.kept p.gates.reverse marks).reverse
  outputs := p.outputs.map (Liveness.position marks)

/-- A mask that cuts a program out of a program: whatever a marked gate reads is marked, and so is every
output. -/
structure Cuts (p : Program) (marks : List Bool) : Prop where
  closed : Liveness.Closed p.gates.reverse marks
  outputs : Liveness.Marks marks p.outputs

theorem WellFormed.cuts_liveMask {p : Program} (h : p.WellFormed) : p.Cuts p.liveMask :=
  ⟨h.closed_liveMask, fun _ hi _ => h.liveMask_output hi⟩

theorem Cuts.simplifyGates {p : Program} {marks : List Bool} (h : p.Cuts marks) :
    p.simplifyGates.Cuts marks where
  closed := by
    rw [reverse_simplifyGates]
    exact Liveness.closed_rewritten h.closed
  outputs := h.outputs

/-- Rewriting after cutting is cutting after rewriting. -/
theorem Cuts.simplifyGates_restricted {p : Program} {marks : List Bool} (h : p.Cuts marks) :
    (p.restricted marks).simplifyGates = p.simplifyGates.restricted marks := by
  have hgates : (p.restricted marks).simplifyGates.gates.reverse =
      (p.simplifyGates.restricted marks).gates.reverse := by
    rw [reverse_simplifyGates, restricted, restricted, List.reverse_reverse, List.reverse_reverse,
      reverse_simplifyGates, Liveness.rewritten_kept h.closed]
  exact congrArg (Program.mk · _) (List.reverse_injective hgates)

/-- Cutting leaves the live part as it is. -/
theorem Cuts.live_restricted {p : Program} {marks : List Bool} (h : p.Cuts marks)
    (hwithin : ∀ i ∈ p.outputs, i < p.length) : (p.restricted marks).live = p.live := by
  have hlen : marks.length = p.length := by simpa [length] using h.closed.length_eq
  have hle : List.Forall₂ (· ≤ ·) p.liveMask marks := Liveness.mask_le h.closed h.outputs
  have hmask : (p.restricted marks).liveMask = keep marks p.liveMask := by
    rw [liveMask, restricted, List.reverse_reverse]
    refine Liveness.mask_kept h.closed h.outputs fun i hi => ?_
    constructor
    · intro hmem
      obtain ⟨j, hj, hposition⟩ := List.mem_map.mp hmem
      have hmarked := h.outputs j hj (hlen ▸ hwithin j hj)
      rwa [← (Liveness.position_inj hmarked hi).mp hposition]
    · intro hmem
      exact List.mem_map_of_mem hmem
  rw [live, live, hmask, restricted, List.reverse_reverse, Liveness.kept_kept hle, List.map_map]
  congr 1
  exact List.map_congr_left fun i _ => Liveness.position_keep hle i

theorem WellFormed.simplifyGates_simplifyGates {p : Program} (h : p.WellFormed) :
    p.simplifyGates.simplifyGates = p.simplifyGates := by
  have hgates : p.simplifyGates.simplifyGates.gates.reverse = p.simplifyGates.gates.reverse := by
    rw [reverse_simplifyGates, reverse_simplifyGates, Rewriting.rewritten_rewritten h.gates]
  exact congrArg (Program.mk · _) (List.reverse_injective hgates)

theorem WellFormed.live_live {p : Program} (h : p.WellFormed) : p.live.live = p.live :=
  h.cuts_liveMask.live_restricted h.outputs

/-- Rewriting finds nothing to do in a simplified program. -/
theorem WellFormed.simplifyGates_live {p : Program} (h : p.WellFormed) :
    p.simplifyGates.live.simplifyGates = p.simplifyGates.live := by
  calc p.simplifyGates.live.simplifyGates
      = (p.simplifyGates.restricted p.simplifyGates.liveMask).simplifyGates := rfl
    _ = p.simplifyGates.simplifyGates.restricted p.simplifyGates.liveMask :=
        h.simplifyGates.cuts_liveMask.simplifyGates_restricted
    _ = p.simplifyGates.restricted p.simplifyGates.liveMask := by rw [h.simplifyGates_simplifyGates]
    _ = p.simplifyGates.live := rfl

/-- The live part of the rewritten program does not depend on the dead gates of the program. -/
theorem WellFormed.live_simplifyGates_live {p : Program} (h : p.WellFormed) :
    p.live.simplifyGates.live = p.simplifyGates.live := by
  have hcuts : p.Cuts p.liveMask := h.cuts_liveMask
  calc p.live.simplifyGates.live
      = (p.simplifyGates.restricted p.liveMask).live :=
        congrArg Program.live hcuts.simplifyGates_restricted
    _ = p.simplifyGates.live :=
        hcuts.simplifyGates.live_restricted h.simplifyGates.outputs

/-- Rewriting a rewritten program and simplifying a simplified one change nothing, and a program without
its dead gates is simplified to the same program. -/
theorem simplify_stable {p : Program} (h : p.Buildable) :
    p.simplifyGates.simplifyGates = p.simplifyGates ∧
      (∃ q, p.simplify = .ok q ∧ q.simplify = .ok q) ∧
      ∃ r, p.removeUnused = .ok r ∧ r.simplify = p.simplify := by
  have hp := h.wellFormed
  refine ⟨hp.simplifyGates_simplifyGates, ⟨p.simplifyGates.live, hp.simplify_eq, ?_⟩,
    p.live, hp.removeUnused_eq, ?_⟩
  · rw [hp.simplifyGates.live.simplify_eq, hp.simplifyGates_live, hp.simplifyGates.live_live]
  · rw [hp.live.simplify_eq, hp.simplify_eq, hp.live_simplifyGates_live]

theorem simplify_stable_blocked_negation :
    ∃ p q : Program, p.Buildable ∧ p.length = 7 ∧ p.simplify = .ok q ∧ q.length = 5 ∧
      q.simplify = .ok q := by
  have hbuildable : Buildable ⟨[⟨.input, .neither⟩, ⟨.input, .generatorOnly⟩, ⟨.unary true 2, .neither⟩,
      ⟨.unary true 1, .evaluatorOnly⟩, ⟨.unary true 1, .evaluatorOnly⟩, ⟨.random, .generatorOnly⟩,
      ⟨.conjunction false false true 2 5, .neither⟩], [6, 4]⟩ :=
    @Buildable.build [.add ⟨.input, .neither, []⟩, .add ⟨.input, .generatorOnly, []⟩,
      .add ⟨.unary true, .neither, [2]⟩, .add ⟨.unary true, .evaluatorOnly, [1]⟩,
      .add ⟨.unary true, .neither, [1]⟩, .add ⟨.random, .generatorOnly, []⟩,
      .add ⟨.conjunction false false true, .neither, [2, 5]⟩, .outputs [6, 4]] _ rfl
  obtain ⟨-, ⟨q, hq, hagain⟩, -⟩ := simplify_stable hbuildable
  refine ⟨_, q, hbuildable, rfl, hq, ?_, hagain⟩
  have hlive := hq.symm.trans hbuildable.wellFormed.simplify_eq
  rw [Except.ok.inj hlive]
  decide

end Program

end HalfGates
