import HalfGates.Program.Adder
import HalfGates.Proofs.Constraint.Lowering
import HalfGates.Proofs.Program.Removal
import HalfGates.Proofs.Program.Rewriting

/-!
# Programs that can be built

A program comes from a builder, whatever was asked of it, from a parity system, or from the library; it may
be simplified any number of times. All of these programs are well formed.

## Main definitions

- `Program.Buildable`: the programs that there is a way to obtain
- `Program.Buildable.wellFormed`: they are well formed
-/

namespace HalfGates

/-- The programs that there is a way to obtain. -/
inductive Program.Buildable : Program → Prop
  /-- Any use of a builder, refused requests included. -/
  | build {calls : List BuilderCall} {p : Program} :
    (Builder.empty.callAll calls).build = .ok p → Buildable p
  /-- The program of a parity system. -/
  | lower {s : ParitySystem} {options : LoweringOptions} {l : Lowering} :
    s.lower options = .ok l → Buildable l.program
  /-- The adder of the library. -/
  | adder {width : Nat} {p : Program} : RippleCarry.adder width = .ok p → Buildable p
  | simplifyGates {p : Program} : Buildable p → Buildable p.simplifyGates
  | removeUnused {p q : Program} : Buildable p → p.removeUnused = .ok q → Buildable q
  | simplify {p q : Program} : Buildable p → p.simplify = .ok q → Buildable q

namespace Program

/-- Only systems that define a function are lowered. -/
theorem lowered_of_lower {s : ParitySystem} {options : LoweringOptions} {l : Lowering}
    (h : s.lower options = .ok l) : Lowered s options l := by
  cases hdefinitions : s.definitions with
  | error e =>
    rw [ParitySystem.lower, hdefinitions] at h
    cases h
  | ok definitions =>
    obtain ⟨l', hl', hlowered⟩ := ParitySystem.exists_lowered hdefinitions options
    rw [hl'] at h
    cases h
    exact hlowered

theorem WellFormed.removeUnused {p q : Program} (h : p.WellFormed) (hq : p.removeUnused = .ok q) :
    q.WellFormed := by
  rw [h.removeUnused_eq] at hq
  cases hq
  exact h.live

/-- Every program that can be built is well formed. -/
theorem Buildable.wellFormed {p : Program} (h : Buildable p) : p.WellFormed := by
  induction h with
  | build hbuild => exact Builder.wellFormed_of_build (Builder.wellFormed_empty.callAll _) hbuild
  | lower hlower => exact (lowered_of_lower hlower).wellFormed
  | adder hadder =>
    obtain ⟨b, hb, hbuild⟩ := bind_eq_ok.mp hadder
    have hgates : b.WellFormed := Builder.wellFormed_empty.addAll hb
    exact Builder.wellFormed_of_build (hgates.withOutputs _) hbuild
  | simplifyGates _ ih => exact ih.simplifyGates
  | removeUnused _ hq ih => exact ih.removeUnused hq
  | simplify _ hq ih => exact ih.simplifyGates.removeUnused hq

end Program

end HalfGates
