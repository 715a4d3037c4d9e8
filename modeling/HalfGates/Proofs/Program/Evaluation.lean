import HalfGates.Proofs.Program.Scopes

/-!
# Values at positions

In a run over a program a source has the bit supplied for it, and any other gate has the value of its
operation on the values at the positions that it reads.

## Main definitions

- `Program.getElem?_values`: a gate is evaluated on the run over the gates before it
- `Program.getD_values_of_isSource`, `Program.getD_values`: the value of a source, and that of any other gate
-/

namespace HalfGates

/-- A gate is evaluated on the run over the gates before it. -/
theorem PlainRun.back?_along (bits : List Bool) (past : List Gate) (d : Nat) :
    back? (along bits past).past d = (back? past d).map (along bits (past.drop d)).value := by
  induction past generalizing d with
  | nil => cases d <;> rfl
  | cons g past ih =>
    match d with
    | 0 => rfl
    | 1 => rfl
    | d + 2 =>
      rw [past_along_cons, back?_cons _ _ (Nat.succ_pos d), back?_cons _ _ (Nat.succ_pos d), ih]
      rfl

namespace Program

theorem getElem?_values (p : Program) (bits : List Bool) (i : Nat) :
    (p.values bits)[i]? = p.gates[i]?.map (PlainRun.along bits (p.before i)).value := by
  have hlength : (p.values bits).length = p.gates.length := p.length_values bits
  rw [← back?_reverse, hlength, values_eq_along, List.reverse_reverse, PlainRun.back?_along,
    back?_reverse, drop_reverse_gates]

/-- A source has the bit that is left for it by the sources before it. -/
theorem getD_values_of_isSource {p : Program} {i : Nat} {g : Gate} (bits : List Bool)
    (hg : p.gates[i]? = some g) (hsource : g.kind.isSource = true) :
    (p.values bits).getD i false =
      bits.getD ((p.gates.take i).countP fun g => g.kind.isSource) false := by
  have hop : (g.op.map (PlainRun.bitBack (PlainRun.along bits (p.before i)).past)).kind.isSource = true := by
    rw [Operation.kind_map]
    exact hsource
  rw [List.getD_eq_getElem?_getD, getElem?_values, hg, Option.map_some, Option.getD_some, PlainRun.value,
    Operation.value_of_isSource hop, PlainRun.supply_along, before, List.countP_reverse,
    List.headD_eq_head?_getD, List.head?_drop, List.getD_eq_getElem?_getD]

/-- A gate that is not a source has the value of its operation. -/
theorem getD_values {p : Program} {i : Nat} {g : Gate} (bits : List Bool) (hg : p.gates[i]? = some g)
    (hsource : g.kind.isSource = false) (hfits : ∀ d ∈ g.op.operands, 0 < d ∧ d ≤ i) (supplied : Bool) :
    (p.values bits).getD i false =
      (g.op.map fun d => (p.values bits).getD (i - d) false).value supplied := by
  have hi : i ≤ p.length := Nat.le_of_lt (List.getElem?_eq_some_iff.mp hg).1
  have hat : ∀ k, PlainRun.bitBack (PlainRun.along bits p.gates.reverse).past (p.length - k) =
      (p.values bits).getD k false := by
    intro k
    have hback := back?_reverse (p.values bits) k
    rw [length_values, values_eq_along, List.reverse_reverse] at hback
    rw [PlainRun.bitBack, hback, ← values_eq_along, List.getD_eq_getElem?_getD]
  have hgate : back? p.gates.reverse (p.length - i) = some g := (back?_reverse p.gates i).trans hg
  rw [← hat i, PlainRun.bitBack_along bits hgate hsource (fun d hd => (hfits d hd).1) supplied]
  refine congrArg (Operation.value supplied) (Operation.map_congr fun d hd => ?_)
  have hle := (hfits d hd).2
  rw [← hat (i - d), show p.length - (i - d) = p.length - i + d by omega]

end Program

end HalfGates
