import HalfGates.Proofs.Program.Invariant
import HalfGates.Proofs.Program.Reachability
import HalfGates.Proofs.Program.Stability

/-!
# Normal form

In a rewritten program nothing is left to rewrite: no operand is a constant, none is read twice, and none is
an identity or a negation that could be read through. The scope of a rewritten gate is the scope that it had
together with the parties that know its new operands. After removal the program is still in this form, and an
output needs every gate.

## Main definitions

- `Program.Normal`: the normal form
- `Rewriting.back?_rewritten`, `Program.getElem?_simplifyGates`: a gate of the rewritten program
- `Program.WellFormed.normal_simplifyGates`: rewriting reaches the normal form
- `Program.normal_simplify`: simplification of every program that can be built
-/

namespace HalfGates

/-- A program in which there is nothing to rewrite. -/
structure Program.Normal (p : Program) : Prop where
  /-- No operand is a constant. -/
  unknown : ∀ (i d : Nat) (g u : Gate), p.gates[i]? = some g → d ∈ g.op.operands →
    p.gates[i - d]? = some u → u.kind.isConstant = false
  /-- No gate reads an operand twice. -/
  distinct : ∀ g ∈ p.gates, g.op.operands.Nodup
  /-- An operand that is an identity or a negation is known to a party that does not know what it is read
  from. -/
  direct : ∀ (i d e : Nat) (g : Gate) (negated : Bool) (scope : Scope), p.gates[i]? = some g →
    d ∈ g.op.operands → p.gates[i - d]? = some ⟨.unary negated e, scope⟩ →
      (p.scopeAt (i - d - e)).contains scope = false

/-- A gate is rewritten behind the rewritten gates before it. -/
theorem Rewriting.back?_rewritten (past : List Gate) (d : Nat) :
    back? (rewritten past) d = (back? past d).map (rewrite ((rewritten past).drop d)) := by
  induction past generalizing d with
  | nil => cases d <;> rfl
  | cons g past ih =>
    match d with
    | 0 => rfl
    | 1 => rfl
    | d + 2 =>
      rw [rewritten, back?_cons _ _ (Nat.succ_pos d), back?_cons _ _ (Nat.succ_pos d), ih]
      rfl

namespace Program

/-- A gate of the rewritten program is made from the gate at its position and the rewritten gates before. -/
theorem getElem?_simplifyGates (p : Program) (i : Nat) :
    p.simplifyGates.gates[i]? = p.gates[i]?.map (Rewriting.rewrite (p.simplifyGates.before i)) := by
  have hlength : p.simplifyGates.gates.length = p.gates.length := p.length_simplifyGates
  rw [← back?_reverse, hlength, reverse_simplifyGates, Rewriting.back?_rewritten, back?_reverse,
    ← reverse_simplifyGates, ← hlength, drop_reverse_gates]

/-- Settled gates are in normal form. -/
theorem WellFormed.normal_of_settled {p : Program} (h : p.WellFormed)
    (hsettled : Throughout (fun older g => Rewriting.Settled older g.op) p.gates.reverse) : p.Normal := by
  have hat := throughout_iff.mp hsettled
  have hbounds : ∀ (i d : Nat) (g : Gate), p.gates[i]? = some g → d ∈ g.op.operands →
      i ≤ p.length ∧ 0 < d ∧ d ≤ i := fun i d g hg hd =>
    ⟨Nat.le_of_lt (List.getElem?_eq_some_iff.mp hg).1, (h.invariant.operands i g hg).2 d hd⟩
  refine ⟨fun i d g u hg hd hu => ?_, fun g hmem => ?_, fun i d e g negated scope hg hd hu => ?_⟩
  · obtain ⟨hi, hoperand⟩ := hbounds i d g hg hd
    have hnone := (hat i g hg).unknown d hd
    rw [Rewriting.constantBack, back?_before hi hoperand, hu] at hnone
    obtain ⟨op, scope⟩ := u
    cases op <;> first | rfl | cases hnone
  · obtain ⟨i, hg⟩ := List.getElem?_of_mem hmem
    exact (hat i g hg).distinct
  · obtain ⟨hi, hoperand⟩ := hbounds i d g hg hd
    have hinner := hbounds (i - d) e _ hu (List.mem_singleton_self e)
    have hself := (hat i g hg).direct d hd
    have hbeyond : 0 < d + e ∧ d + e ≤ i := by omega
    rw [Rewriting.slide, back?_before hi hoperand, hu] at hself
    simp only [scopeBack_before hi hbeyond, ← Nat.sub_sub] at hself
    -- reading through the operand would lead further back
    split at hself
    · have hoffset : d + e = d := congrArg Rewriting.Source.offset hself
      omega
    · next hcontains => exact Bool.eq_false_of_not_eq_true hcontains

/-- Rewriting reaches the normal form. -/
theorem WellFormed.normal_simplifyGates {p : Program} (h : p.WellFormed) : p.simplifyGates.Normal := by
  refine h.simplifyGates.normal_of_settled ?_
  rw [reverse_simplifyGates]
  exact Rewriting.settled_rewritten h.gates

/-- A rewritten gate is known to those who knew it, and to those who know all that it reads now. -/
theorem WellFormed.scope_simplifyGates {p : Program} (h : p.WellFormed) {i : Nat} {g : Gate}
    (hg : p.simplifyGates.gates[i]? = some g) :
    g.scope = (p.scopeAt i).union (if g.kind.isSource then .neither
      else .interAll (g.op.operands.map fun d => p.simplifyGates.scopeAt (i - d))) := by
  have hoperands := Operation.operands_map_congr (h.simplifyGates.map_scopeBack hg)
  obtain ⟨original, horiginal, rfl⟩ := Option.map_eq_some_iff.mp (p.getElem?_simplifyGates i ▸ hg)
  have hscope : p.scopeAt i = original.scope := by
    rw [scopeAt, List.getElem?_map, horiginal]
    rfl
  rw [hscope, ← hoperands]
  exact congrArg (Scope.union original.scope) (Gate.floor_eq _ _)

/-- Rewriting reaches the normal form and gives every gate the scope that its operands call for; a constant is
known to everybody. After simplification the program is in normal form, and an output needs every gate. -/
theorem normal_simplify {p : Program} (h : p.Buildable) :
    p.simplifyGates.Normal ∧
      (∀ (i : Nat) (g : Gate), p.simplifyGates.gates[i]? = some g →
        if g.kind.isConstant then g.scope = .both
        else g.scope = (p.scopeAt i).union (if g.kind.isSource then .neither
          else .interAll (g.op.operands.map fun d => p.simplifyGates.scopeAt (i - d)))) ∧
      ∃ q, p.simplify = .ok q ∧ q.Normal ∧ ∀ i < q.length, q.Reached i := by
  have hp := h.wellFormed
  have hlive : p.simplifyGates.live.WellFormed := hp.simplifyGates.live
  refine ⟨hp.normal_simplifyGates, fun i g hg => ?_, _, hp.simplify_eq, ?_, ?_⟩
  · split
    · next hconstant =>
      exact hp.simplifyGates.invariant.constants g (List.mem_of_getElem? hg) hconstant
    · exact hp.scope_simplifyGates hg
  · rw [← hp.simplifyGates_live]
    exact hlive.normal_simplifyGates
  · exact hlive.live_eq_self_iff.mp hp.simplifyGates.live_live

theorem normal_simplify_chain_of_constants :
    ∃ p q : Program, p.Buildable ∧ p.length = 8 ∧ p.simplifyGates.Normal ∧ p.simplify = .ok q ∧ q.Normal ∧
      q.gates = [⟨.input, .neither⟩, ⟨.unary true 1, .evaluatorOnly⟩, ⟨.linear false 1 2, .neither⟩,
        ⟨.linear true 2 3, .neither⟩] ∧ ∀ i < q.length, q.Reached i := by
  have hbuildable : Buildable ⟨[⟨.input, .neither⟩, ⟨.constant true, .both⟩, ⟨.unary true 1, .both⟩,
      ⟨.conjunction true true false 1 1, .both⟩, ⟨.conjunction false false false 4 1, .neither⟩,
      ⟨.unary true 5, .evaluatorOnly⟩, ⟨.linear false 1 2, .neither⟩, ⟨.linear true 2 7, .neither⟩],
      [6, 7]⟩ :=
    @Buildable.build [.add ⟨.input, .neither, []⟩, .add ⟨.constant true, .neither, []⟩,
      .add ⟨.unary true, .neither, [1]⟩, .add ⟨.conjunction true true false, .neither, [1, 1]⟩,
      .add ⟨.conjunction false false false, .neither, [4, 1]⟩, .add ⟨.unary true, .evaluatorOnly, [5]⟩,
      .add ⟨.linear false, .neither, [1, 2]⟩, .add ⟨.linear true, .neither, [2, 7]⟩,
      .outputs [6, 7]] _ rfl
  obtain ⟨hnormal, -, q, hq, hqnormal, hreached⟩ := normal_simplify hbuildable
  refine ⟨_, q, hbuildable, rfl, hnormal, hq, hqnormal, ?_, hreached⟩
  have hlive := hq.symm.trans hbuildable.wellFormed.simplify_eq
  rw [Except.ok.inj hlive]
  decide

end Program

end HalfGates
