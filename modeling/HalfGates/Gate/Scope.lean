/-!
# Scopes of knowledge

A gate states which of the two parties learn the value of its output. Scopes are the subsets of
the two parties; they are joined, met and compared as such.

## Main definitions

- `Party`: the generator and the evaluator
- `Scope`, `Scope.knows`: which parties know a value
- `Scope.union`, `Scope.inter`, `Scope.contains`: the subset structure
-/

namespace HalfGates

/-- The generator garbles a program, the evaluator runs it on labels. -/
inductive Party
  | generator
  | evaluator
  deriving DecidableEq

/-- The parties that learn a value. -/
structure Scope where
  /-- Whether the generator learns it. -/
  generator : Bool
  /-- Whether the evaluator learns it. -/
  evaluator : Bool
  deriving DecidableEq

namespace Scope

/-- Nobody. -/
def neither : Scope := ⟨false, false⟩

/-- The generator alone. -/
def generatorOnly : Scope := ⟨true, false⟩

/-- The evaluator alone. -/
def evaluatorOnly : Scope := ⟨false, true⟩

/-- Both parties. -/
def both : Scope := ⟨true, true⟩

/-- All scopes, in the order of their numbers. -/
def all : List Scope :=
  [neither, generatorOnly, evaluatorOnly, both]

/-- Whether a party is in a scope. -/
def knows (s : Scope) : Party → Bool
  | .generator => s.generator
  | .evaluator => s.evaluator

/-- The parties in either scope. -/
def union (s t : Scope) : Scope :=
  ⟨s.generator || t.generator, s.evaluator || t.evaluator⟩

/-- The parties in both scopes. -/
def inter (s t : Scope) : Scope :=
  ⟨s.generator && t.generator, s.evaluator && t.evaluator⟩

/-- Whether every party in `t` is in `s`. -/
def contains (s t : Scope) : Bool :=
  s.inter t == t

/-- The number of a scope: one for the generator and two for the evaluator. -/
def index (s : Scope) : Nat :=
  s.generator.toNat + 2 * s.evaluator.toNat

/-- The name of a scope. -/
def name (s : Scope) : String :=
  match s.generator, s.evaluator with
  | false, false => "Neither"
  | true, false => "Generator"
  | false, true => "Evaluator"
  | true, true => "Both"

@[simp] theorem knows_union (s t : Scope) (p : Party) :
    (s.union t).knows p = (s.knows p || t.knows p) := by
  cases p <;> rfl

@[simp] theorem knows_inter (s t : Scope) (p : Party) :
    (s.inter t).knows p = (s.knows p && t.knows p) := by
  cases p <;> rfl

theorem contains_iff {s t : Scope} :
    s.contains t = true ↔ ∀ p, t.knows p = true → s.knows p = true := by
  obtain ⟨sg, se⟩ := s
  obtain ⟨tg, te⟩ := t
  constructor
  · intro h p
    simp only [contains, inter, beq_iff_eq, mk.injEq, Bool.and_eq_right_iff_imp] at h
    cases p with
    | generator => exact h.1
    | evaluator => exact h.2
  · intro h
    have hg := h .generator
    have he := h .evaluator
    simp only [knows] at hg he
    simp only [contains, inter, beq_iff_eq, mk.injEq]
    cases sg <;> cases se <;> cases tg <;> cases te <;> simp_all

end Scope

end HalfGates
