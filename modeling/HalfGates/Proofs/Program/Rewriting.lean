import HalfGates.Program.Rewriting
import HalfGates.Proofs.Program.WellFormed

/-!
# Rewriting keeps values

Rewriting changes what a gate reads and how, but not its value, not the sources, and takes the value from
nobody who knew it.

## Main definitions

- `Rewriting.rewritten`: rewriting as a recursion over a history
- `Rewriting.operands_rewriteOp`: a rewritten operation reads what its operands slide to
- `Rewriting.fits_rewritten`: rewriting keeps a history well formed
- `Rewriting.along_rewritten`: rewriting keeps every value of a run
-/

namespace HalfGates.Rewriting

/-- The history with every gate rewritten behind the rewritten older ones. -/
def rewritten : List Gate → List Gate
  | [] => []
  | g :: past => rewrite (rewritten past) g :: rewritten past

theorem rewriteAll_reverse (past : List Gate) : rewriteAll [] past.reverse = rewritten past := by
  rw [rewriteAll, List.foldl_reverse]
  induction past with
  | nil => rfl
  | cons g past ih => rw [List.foldr_cons, ih, rewritten]

@[simp] theorem length_rewritten (past : List Gate) : (rewritten past).length = past.length := by
  induction past with
  | nil => rfl
  | cons g past ih => simp [rewritten, ih]

/-! ### Which operands a rewritten gate reads -/

theorem operands_absorb (op : Operation Source) :
    (absorb op).operands = op.operands.map Source.offset := by
  cases op <;> rfl

theorem operands_merge {op : Operation Nat} : ∀ d ∈ (merge op).operands, d ∈ op.operands := by
  cases op with
  | linear n x y =>
    by_cases h : x = y <;> simp [merge, h, Operation.operands]
  | conjunction p q n x y =>
    by_cases h : x = y <;> by_cases hpq : p = q <;> simp [merge, h, hpq, Operation.operands]
  | _ => simp [merge]

theorem operands_foldUnary {past : List Gate} {n : Bool} {x : Nat} :
    ∀ d ∈ (foldUnary past n x).operands, d = x := by
  unfold foldUnary
  split <;> simp [Operation.operands]

theorem operands_foldConstants {past : List Gate} {op : Operation Nat} :
    ∀ d ∈ (foldConstants past op).operands, d ∈ op.operands := by
  intro d hd
  cases op with
  | unary n x => simpa [Operation.operands] using operands_foldUnary d hd
  | linear n x y =>
    simp only [foldConstants] at hd
    split at hd
    · simp [Operation.operands, operands_foldUnary d hd]
    · simp_all [Operation.operands]
    · exact hd
  | conjunction p q n x y =>
    simp only [foldConstants] at hd
    split at hd
    · split at hd
      · simp [Operation.operands] at hd
      · simp [Operation.operands, operands_foldUnary d hd]
    · split at hd
      · simp [Operation.operands] at hd
      · simp_all [Operation.operands]
    · exact hd
  | _ => exact hd

/-- A rewritten operation reads nothing but what the operands slide to. -/
theorem operands_rewriteOp {past : List Gate} {op : Operation Nat} {P : Nat → Prop}
    (h : ∀ d ∈ op.operands, P (slide past d).offset) :
    ∀ d ∈ (rewriteOp past op).operands, P d := by
  intro d hd
  have habsorb := operands_merge d (operands_foldConstants d hd)
  rw [operands_absorb, Operation.operands_map, List.map_map] at habsorb
  obtain ⟨e, he, rfl⟩ := List.mem_map.mp habsorb
  exact h e he

/-- Rewriting makes no source and changes none. -/
theorem rewriteOp_of_isSource {past : List Gate} {op : Operation Nat}
    (h : op.kind.isSource = true) : rewriteOp past op = op := by
  cases op <;> first | rfl | simp [Operation.kind, GateKind.isSource] at h

theorem isSource_foldUnary (past : List Gate) (n : Bool) (x : Nat) :
    (foldUnary past n x).kind.isSource = false := by
  unfold foldUnary
  split <;> rfl

theorem isSource_foldConstants (past : List Gate) (op : Operation Nat) :
    (foldConstants past op).kind.isSource = op.kind.isSource := by
  cases op with
  | unary n x => exact isSource_foldUnary past n x
  | linear n x y =>
    simp only [foldConstants]
    split <;> first | exact isSource_foldUnary .. | rfl
  | conjunction p q n x y =>
    simp only [foldConstants]
    split
    · split <;> first | exact isSource_foldUnary .. | rfl
    · split <;> rfl
    · rfl
  | _ => rfl

theorem isSource_merge (op : Operation Nat) : (merge op).kind.isSource = op.kind.isSource := by
  cases op with
  | linear n x y => by_cases h : x = y <;> simp [merge, h, Operation.kind, GateKind.isSource]
  | conjunction p q n x y =>
    by_cases h : x = y <;> by_cases hpq : p = q <;>
      simp [merge, h, hpq, Operation.kind, GateKind.isSource]
  | _ => rfl

@[simp] theorem isSource_rewriteOp (past : List Gate) (op : Operation Nat) :
    (rewriteOp past op).kind.isSource = op.kind.isSource := by
  rw [rewriteOp, isSource_foldConstants, isSource_merge]
  cases op <;> rfl

/-! ### Offsets and scopes -/

/-- Sliding stays within the history. -/
theorem slide_bounds {past : List Gate} (hpast : Throughout Gate.Fits past) {d : Nat}
    (hd : 0 < d ∧ d ≤ past.length) :
    0 < (slide past d).offset ∧ (slide past d).offset ≤ past.length := by
  unfold slide
  split
  · next n e scope hback =>
    split
    · have hfits := (hpast.of_back? hback).operands e (by simp [Operation.operands])
      rw [List.length_drop] at hfits
      dsimp only
      omega
    · exact hd
  · exact hd

/-- A party that knows an operand knows what it slides to. -/
theorem knows_slide {past : List Gate} {d : Nat} {party : Party}
    (h : (Gate.scopeBack past d).knows party = true) :
    (Gate.scopeBack past (slide past d).offset).knows party = true := by
  unfold slide
  split
  · next n e scope hback =>
    split
    · next hcontains =>
      rw [Gate.scopeBack_of_back? hback] at h
      exact Scope.contains_iff.mp hcontains party h
    · exact h
  · exact h

/-- Rewriting keeps a history well formed. -/
theorem fits_rewritten {past : List Gate} (h : Throughout Gate.Fits past) :
    Throughout Gate.Fits (rewritten past) := by
  induction past with
  | nil => trivial
  | cons g past ih =>
    have hpast := ih h.2
    -- the scope is widened to the floor of the new operands, so only the offsets need an argument
    refine ⟨Gate.fits_widened g.scope (operands_rewriteOp fun d hd => ?_), hpast⟩
    exact slide_bounds hpast (by simpa using h.1.operands d hd)

theorem contains_rewrite (past : List Gate) (g : Gate) :
    (rewrite past g).scope.contains g.scope = true :=
  Scope.contains_union_left g.scope (Gate.floor past (rewriteOp past g.op))

/-- Rewriting takes a value from nobody who knew it. -/
theorem contains_scopeBack_rewritten (past : List Gate) (d : Nat) :
    (Gate.scopeBack (rewritten past) d).contains (Gate.scopeBack past d) = true := by
  induction past generalizing d with
  | nil => cases d <;> rfl
  | cons g past ih =>
    match d with
    | 0 => rfl
    | 1 => exact contains_rewrite (rewritten past) g
    | d + 2 =>
      rw [rewritten, Gate.scopeBack_cons _ _ (Nat.succ_pos d),
        Gate.scopeBack_cons _ _ (Nat.succ_pos d)]
      exact ih (d + 1)

theorem rewrite_of_isSource {past : List Gate} {g : Gate} (h : g.kind.isSource = true) :
    rewrite past g = g := by
  have hop : rewriteOp past g.op = g.op := rewriteOp_of_isSource h
  have hfloor : g.scope.contains (Gate.floor past g.op) = true := by
    refine Scope.contains_iff.mpr fun party hparty => ?_
    have hnot := (Gate.knows_floor.mp hparty).1
    rw [← Gate.kind, h] at hnot
    cases hnot
  simp only [rewrite, hop, Gate.widened, Scope.union_eq_left hfloor]

/-! ### Values -/

/-- A run in which every gate of the history that is not a source has the value of its operation. -/
def Explains (values : List Bool) (past : List Gate) : Prop :=
  ∀ d g, back? past d = some g → g.kind.isSource = false → ∀ supplied,
    PlainRun.bitBack values d =
      (g.op.map fun e => PlainRun.bitBack values (d + e)).value supplied

theorem explains_along (bits : List Bool) {past : List Gate} (h : Throughout Gate.Fits past) :
    Explains (PlainRun.along bits past).past past := fun _ _ hd hsource supplied =>
  PlainRun.bitBack_along bits hd hsource (fun e he => ((h.of_back? hd).operands e he).1) supplied

section values

variable {values : List Bool} {past : List Gate} (h : Explains values past)
include h

/-- An operand has the value it slides to, negated if told so. -/
theorem bitBack_slide (d : Nat) :
    (PlainRun.bitBack values (slide past d).offset ^^ (slide past d).negated) =
      PlainRun.bitBack values d := by
  unfold slide
  split
  · next n e scope hback =>
    split
    · exact (h d _ hback rfl false).symm
    · simp
  · simp

theorem bitBack_constantBack {d : Nat} {v : Bool} (hd : constantBack past d = some v) :
    PlainRun.bitBack values d = v := by
  unfold constantBack at hd
  split at hd
  · next v' scope hback =>
    obtain rfl := Option.some.inj hd
    exact h d _ hback rfl false
  · cases hd

theorem value_foldUnary (n : Bool) (x : Nat) (supplied : Bool) :
    ((foldUnary past n x).map (PlainRun.bitBack values)).value supplied =
      (PlainRun.bitBack values x ^^ n) := by
  unfold foldUnary
  split
  · next v hv => rw [bitBack_constantBack h hv]; rfl
  · rfl

theorem value_foldConstants (op : Operation Nat) (supplied : Bool) :
    ((foldConstants past op).map (PlainRun.bitBack values)).value supplied =
      (op.map (PlainRun.bitBack values)).value supplied := by
  cases op with
  | unary n x => exact value_foldUnary h n x supplied
  | linear n x y =>
    simp only [foldConstants]
    split
    · next _ v hx =>
      rw [value_foldUnary h, ← bitBack_constantBack h hx]
      simp only [Operation.map, Operation.value]
      cases PlainRun.bitBack values x <;> cases PlainRun.bitBack values y <;> cases n <;> rfl
    · next v _ hy =>
      rw [← bitBack_constantBack h hy]
      simp only [Operation.map, Operation.value, Bool.xor_assoc]
    · rfl
  | conjunction p q n x y =>
    simp only [foldConstants]
    split
    · next _ v hx =>
      have hv := bitBack_constantBack h hx
      split
      · next hvp =>
        simp [Operation.map, Operation.value, hv, hvp]
      · next hvp =>
        have hnot : (v ^^ p) = true := by
          cases v <;> cases p <;> simp_all
        rw [value_foldUnary h]
        simp [Operation.map, Operation.value, hv, hnot]
    · next v _ hy =>
      have hv := bitBack_constantBack h hy
      split
      · next hvq =>
        simp [Operation.map, Operation.value, hv, hvq]
      · next hvq =>
        have hnot : (v ^^ q) = true := by
          cases v <;> cases q <;> simp_all
        simp [Operation.map, Operation.value, hv, hnot]
    · rfl
  | _ => rfl

omit h in
theorem value_merge (f : Nat → Bool) (op : Operation Nat) (supplied : Bool) :
    ((merge op).map f).value supplied = (op.map f).value supplied := by
  cases op with
  | linear n x y =>
    by_cases hxy : x = y <;> simp [merge, hxy, Operation.map, Operation.value]
  | conjunction p q n x y =>
    by_cases hxy : x = y
    · subst hxy
      cases hf : f x <;> cases p <;> cases q <;> cases n <;>
        simp [merge, Operation.map, Operation.value, hf]
    · simp [merge, hxy]
  | _ => rfl

omit h in
theorem value_absorb (f : Nat → Bool) (op : Operation Source) (supplied : Bool) :
    ((absorb op).map f).value supplied =
      (op.map fun x => f x.offset ^^ x.negated).value supplied := by
  cases op with
  | unary n x =>
    simp only [absorb, Operation.map, Operation.value]
    cases n <;> cases x.negated <;> cases f x.offset <;> rfl
  | linear n x y =>
    simp only [absorb, Operation.map, Operation.value]
    cases n <;> cases x.negated <;> cases f x.offset <;> cases y.negated <;> cases f y.offset <;> rfl
  | conjunction p q n x y =>
    simp only [absorb, Operation.map, Operation.value]
    cases p <;> cases x.negated <;> cases f x.offset <;> cases q <;> cases y.negated <;>
      cases f y.offset <;> rfl
  | _ => rfl

/-- A rewritten operation has the value of the operation. -/
theorem value_rewriteOp (op : Operation Nat) (supplied : Bool) :
    ((rewriteOp past op).map (PlainRun.bitBack values)).value supplied =
      (op.map (PlainRun.bitBack values)).value supplied := by
  rw [rewriteOp, value_foldConstants h, value_merge, value_absorb, Operation.map_map]
  exact congrArg (Operation.value supplied) (Operation.map_congr fun d _ => bitBack_slide h d)

end values

/-- Rewriting keeps every value, and reads the source bits as before. -/
theorem along_rewritten (bits : List Bool) {past : List Gate} (h : Throughout Gate.Fits past) :
    PlainRun.along bits (rewritten past) = PlainRun.along bits past := by
  -- the rewritten gates find the values of the original run, so the values explain them as well
  induction past with
  | nil => rfl
  | cons g past ih =>
    have hrun := ih h.2
    have hexplains := explains_along bits (fits_rewritten h.2)
    rw [hrun] at hexplains
    have hvalue : (PlainRun.along bits past).value (rewrite (rewritten past) g) =
        (PlainRun.along bits past).value g :=
      value_rewriteOp hexplains g.op _
    have hsource : (rewrite (rewritten past) g).kind.isSource = g.kind.isSource :=
      isSource_rewriteOp (rewritten past) g.op
    simp only [rewritten, PlainRun.along, hrun, PlainRun.step, hvalue, hsource]

/-- A source stays where it is, and nothing else becomes one. -/
theorem rewritten_source {past : List Gate} {g : Gate} (hg : g.kind.isSource = true) (i : Nat) :
    (rewritten past)[i]? = some g ↔ past[i]? = some g := by
  induction past generalizing i with
  | nil => simp [rewritten]
  | cons first past ih =>
    cases i with
    | succ i => simpa [rewritten] using ih i
    | zero =>
      simp only [rewritten, List.getElem?_cons_zero, Option.some.injEq]
      constructor
      · intro heq
        have hfirst : first.kind.isSource = true := by
          rw [← heq] at hg
          simpa [rewrite, Gate.widened, Gate.kind] using hg
        rw [← heq, rewrite_of_isSource hfirst]
      · rintro rfl
        exact rewrite_of_isSource hg

/-- The sources are the same, in the same order. -/
theorem filter_isSource_rewritten (past : List Gate) :
    (rewritten past).filter (fun g => g.kind.isSource) =
      past.filter fun g => g.kind.isSource := by
  induction past with
  | nil => rfl
  | cons g past ih =>
    have hsource : (rewrite (rewritten past) g).kind.isSource = g.kind.isSource :=
      isSource_rewriteOp (rewritten past) g.op
    cases hg : g.kind.isSource with
    | false => simp [rewritten, hsource, hg, ih]
    | true => simp [rewritten, rewrite_of_isSource hg, hg, ih]

end HalfGates.Rewriting

namespace HalfGates.Program

theorem reverse_simplifyGates (p : Program) :
    p.simplifyGates.gates.reverse = Rewriting.rewritten p.gates.reverse := by
  rw [simplifyGates, List.reverse_reverse, ← Rewriting.rewriteAll_reverse, List.reverse_reverse]

@[simp] theorem length_simplifyGates (p : Program) : p.simplifyGates.length = p.length := by
  have h := congrArg List.length (reverse_simplifyGates p)
  simpa [length] using h

@[simp] theorem outputs_simplifyGates (p : Program) : p.simplifyGates.outputs = p.outputs := rfl

theorem WellFormed.simplifyGates {p : Program} (h : p.WellFormed) :
    p.simplifyGates.WellFormed where
  gates := by
    rw [reverse_simplifyGates]
    exact Rewriting.fits_rewritten h.gates
  outputs := by simpa using h.outputs

/-- Every gate keeps its value, whatever the source bits are. -/
theorem WellFormed.values_simplifyGates {p : Program} (h : p.WellFormed) (bits : List Bool) :
    p.simplifyGates.values bits = p.values bits := by
  rw [values_eq_along, values_eq_along, reverse_simplifyGates, Rewriting.along_rewritten bits h.gates]

end HalfGates.Program
