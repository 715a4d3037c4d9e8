import HalfGates.Proofs.Constraint.Disclosure

/-!
# Inputs that matter and outputs that vary

Simplification drops only inputs that the function of a system does not depend on, and it reveals an output to
a party that is to learn nothing only if the output is the same on all inputs.

## Main definitions

- `Lowered.apply_eq_of_keep`: the function depends on the surviving inputs only
- `Lowered.survives`: an input that matters survives
- `ParitySystem.seesSame_of_unknown`: a party that no variable is for sees the same on all inputs
- `ParitySystem.unrevealed`: an output that varies is not revealed
-/

namespace HalfGates

variable {s : ParitySystem} {options : LoweringOptions} {l : Lowering} {bits bits' : List Bool}

/-- The simplified program computes the function from the surviving inputs. -/
theorem Lowered.eval_eq_apply (h : Lowered s options l) (hbits : bits.length = s.inputs) :
    ∃ outputs, s.apply bits = .ok outputs ∧
      l.program.simplifyGates.live.eval (keep l.program.survivors bits) = .ok outputs := by
  obtain ⟨a, hsolve, ha⟩ := h.solves bits hbits
  exact ⟨_, h.applies hsolve ha, h.wellFormed.eval_live_simplifyGates (hbits.trans h.sourceCount.symm)⟩

/-- The function depends on the surviving inputs only. -/
theorem Lowered.apply_eq_of_keep (h : Lowered s options l) (hbits : bits.length = s.inputs)
    (hbits' : bits'.length = s.inputs)
    (hkeep : keep l.program.survivors bits = keep l.program.survivors bits') :
    s.apply bits = s.apply bits' := by
  obtain ⟨outputs, happly, heval⟩ := h.eval_eq_apply hbits
  obtain ⟨outputs', happly', heval'⟩ := h.eval_eq_apply hbits'
  rw [hkeep, heval'] at heval
  rw [happly, happly', Except.ok.inj heval]

/-- An input that matters survives. -/
theorem Lowered.survives (h : Lowered s options l) (hbits : bits.length = s.inputs) {v : Nat} {bit : Bool}
    (hv : v < s.inputs) (hmatters : s.apply (bits.set v bit) ≠ s.apply bits) :
    l.program.survivors[v]? = some true := by
  have hlength : l.program.survivors.length = s.inputs := by
    rw [Program.length_survivors, h.sourceCount]
  obtain ⟨mark, hmark⟩ : ∃ mark, l.program.survivors[v]? = some mark :=
    ⟨_, List.getElem?_eq_getElem (hlength ▸ hv)⟩
  cases mark with
  | true => exact hmark
  | false =>
    have hset : (bits.set v bit).length = s.inputs := by rw [List.length_set, hbits]
    exact absurd (h.apply_eq_of_keep hset hbits (keep_set hmark bit bits)) hmatters

/-- If all inputs matter, all of them survive. -/
theorem Lowered.survivors_of_all (h : Lowered s options l)
    (hall : ∀ v < s.inputs, l.program.survivors[v]? = some true) :
    ∀ mark ∈ l.program.survivors, mark = true := by
  intro mark hmark
  obtain ⟨v, hv⟩ := List.getElem?_of_mem hmark
  obtain ⟨hlt, -⟩ := List.getElem?_eq_some_iff.mp hv
  rw [Program.length_survivors, h.sourceCount] at hlt
  exact Option.some.inj (hv.symm.trans (hall v hlt))

namespace ParitySystem

variable {definitions : List Expr}

/-- A party that no variable is for sees the same on all inputs, also after simplification. -/
theorem seesSame_of_unknown (party : Party) (h : s.definitions = .ok definitions) (hl : s.lower options = .ok l)
    (hlowered : Lowered s options l) (hscope : ∀ v, (options.scope v).knows party = false)
    (hbits : bits.length = s.inputs) (hbits' : bits'.length = s.inputs) :
    l.program.simplifyGates.live.SeesSame party (keep l.program.survivors bits)
      (keep l.program.survivors bits') := by
  obtain ⟨a, -, ha⟩ := hlowered.solves bits hbits
  obtain ⟨a', -, ha'⟩ := hlowered.solves bits' hbits'
  have hnothing : ∀ v, ¬ s.Disclosed options definitions party v := by
    rintro v (⟨-, hknows⟩ | ⟨i, d, -, hknows, -⟩)
    · rw [hscope] at hknows
      cases hknows
    · rw [hscope] at hknows
      cases hknows
  have halike : RunsAlike party bits bits' l.program.gates.reverse :=
    (runsAlike_iff_disclosed ha ha' h hl hlowered).mpr fun v hv => absurd hv (hnothing v)
  have hsees : l.program.SeesSame party bits bits' :=
    (Program.seesSame_iff_runsAlike (by rw [hbits, hlowered.sourceCount])
      (by rw [hbits', hlowered.sourceCount])).mpr halike
  have hp := hlowered.wellFormed
  exact hp.simplifyGates.seesSame_live (hp.seesSame_simplifyGates hsees)

/-- If no variable is for the evaluator, an output that varies is not revealed to it. -/
theorem unrevealed (h : s.definitions = .ok definitions) (hl : s.lower options = .ok l)
    (hlowered : Lowered s options l) (hscope : ∀ v, (options.scope v).evaluator = false)
    (hbits : bits.length = s.inputs) (hbits' : bits'.length = s.inputs) {outputs outputs' : List Bool}
    (happly : s.apply bits = .ok outputs) (happly' : s.apply bits' = .ok outputs') {j i : Nat}
    (hvaries : outputs[j]? ≠ outputs'[j]?) (hi : l.program.simplifyGates.live.outputs[j]? = some i) :
    l.program.simplifyGates.live.revealed i = false := by
  obtain ⟨⟨hcount, hcount'⟩, hsame⟩ := Program.seesSame_iff.mp
    (seesSame_of_unknown .evaluator h hl hlowered hscope hbits hbits')
  -- the output is the value of its gate
  have houtput : ∀ (given values : List Bool), given.length = l.program.simplifyGates.live.sourceCount →
      l.program.simplifyGates.live.eval given = .ok values →
      values[j]? = some ((l.program.simplifyGates.live.values given).getD i false) := by
    intro given values hgiven heval
    rw [Program.eval_eq_ok hgiven] at heval
    rw [← Except.ok.inj heval, Program.atOutputs, List.getElem?_map, hi]
    rfl
  obtain ⟨_, happly₁, heval⟩ := hlowered.eval_eq_apply hbits
  obtain ⟨_, happly₂, heval'⟩ := hlowered.eval_eq_apply hbits'
  rw [← Except.ok.inj (happly.symm.trans happly₁)] at heval
  rw [← Except.ok.inj (happly'.symm.trans happly₂)] at heval'
  cases hrevealed : l.program.simplifyGates.live.revealed i with
  | false => rfl
  | true =>
    rw [Program.revealed_eq] at hrevealed
    have hvalue := hsame i hrevealed
    rw [houtput _ _ hcount heval, houtput _ _ hcount' heval', List.getD_eq_getElem?_getD,
      List.getD_eq_getElem?_getD, hvalue] at hvaries
    exact absurd rfl hvaries

end ParitySystem

end HalfGates
