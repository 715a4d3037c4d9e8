import HalfGates.Proofs.Program.Rewriting

/-!
# Settled gates

A rewritten gate reads nothing that could be read through, no constant, and no value twice. Such a gate is
settled: it would be rewritten to itself. This is why one pass from left to right is enough, however long
the chains of unary gates are.

## Main definitions

- `Rewriting.Settled`: an operation that rewriting leaves as it is
- `Rewriting.slide_slide`: among settled gates there is nothing left to read through
- `Rewriting.settled_rewritten`: all rewritten gates are settled
- `Rewriting.rewritten_of_settled`: settled gates stay as they are
-/

namespace HalfGates

namespace Rewriting

/-- An operation that rewriting leaves as it is: no operand can be read through, none is a constant, and no
two of them are the same. -/
structure Settled (past : List Gate) (op : Operation Nat) : Prop where
  direct : ∀ d ∈ op.operands, slide past d = ⟨d, false⟩
  unknown : ∀ d ∈ op.operands, constantBack past d = none
  distinct : op.operands.Nodup

theorem absorb_of_direct {past : List Gate} {op : Operation Nat}
    (h : ∀ d ∈ op.operands, slide past d = ⟨d, false⟩) : absorb (op.map (slide past)) = op := by
  have hmap : op.map (slide past) = op.map fun d => ⟨d, false⟩ := Operation.map_congr h
  rw [hmap]
  cases op <;> simp [absorb, Operation.map]

theorem merge_of_distinct {op : Operation Nat} (h : op.operands.Nodup) : merge op = op := by
  cases op with
  | linear n x y =>
    have hne : x ≠ y := by simpa [Operation.operands] using h
    exact if_neg hne
  | conjunction p q n x y =>
    have hne : x ≠ y := by simpa [Operation.operands] using h
    exact if_neg hne
  | _ => rfl

theorem foldConstants_of_unknown {past : List Gate} {op : Operation Nat}
    (h : ∀ d ∈ op.operands, constantBack past d = none) : foldConstants past op = op := by
  cases op with
  | unary n x =>
    have hx := h x (by simp [Operation.operands])
    simp only [foldConstants, foldUnary, hx]
  | linear n x y =>
    have hx := h x (by simp [Operation.operands])
    have hy := h y (by simp [Operation.operands])
    simp only [foldConstants, hx, hy]
  | conjunction p q n x y =>
    have hx := h x (by simp [Operation.operands])
    have hy := h y (by simp [Operation.operands])
    simp only [foldConstants, hx, hy]
  | _ => rfl

theorem Settled.rewriteOp_eq {past : List Gate} {op : Operation Nat} (h : Settled past op) :
    rewriteOp past op = op := by
  rw [rewriteOp, absorb_of_direct h.direct, merge_of_distinct h.distinct,
    foldConstants_of_unknown h.unknown]

/-! ### What rewriting makes of an operation -/

theorem unknown_foldUnary {past : List Gate} {n : Bool} {x : Nat} :
    ∀ d ∈ (foldUnary past n x).operands, constantBack past d = none := by
  unfold foldUnary
  split
  · simp [Operation.operands]
  · next hx => simpa [Operation.operands] using hx

/-- No constant is read once constants are folded. -/
theorem unknown_foldConstants {past : List Gate} {op : Operation Nat} :
    ∀ d ∈ (foldConstants past op).operands, constantBack past d = none := by
  cases op with
  | unary n x => exact unknown_foldUnary
  | linear n x y =>
    simp only [foldConstants]
    split
    · exact unknown_foldUnary
    · next hx _ => simpa [Operation.operands] using hx
    · next hx hy => simpa [Operation.operands] using ⟨hx, hy⟩
  | conjunction p q n x y =>
    simp only [foldConstants]
    split
    · split
      · simp [Operation.operands]
      · exact unknown_foldUnary
    · next hx _ =>
      split
      · simp [Operation.operands]
      · simpa [Operation.operands] using hx
    · next hx hy => simpa [Operation.operands] using ⟨hx, hy⟩
  | _ => simp [foldConstants, Operation.operands]

theorem distinct_merge (op : Operation Nat) : (merge op).operands.Nodup := by
  cases op with
  | linear n x y => by_cases h : x = y <;> simp [merge, h, Operation.operands]
  | conjunction p q n x y =>
    by_cases h : x = y <;> by_cases hpq : p = q <;> simp [merge, h, hpq, Operation.operands]
  | _ => simp [merge, Operation.operands]

theorem distinct_foldUnary (past : List Gate) (n : Bool) (x : Nat) :
    (foldUnary past n x).operands.Nodup := by
  unfold foldUnary
  split <;> simp [Operation.operands]

/-- Folding constants only drops operands. -/
theorem distinct_foldConstants {past : List Gate} {op : Operation Nat} (h : op.operands.Nodup) :
    (foldConstants past op).operands.Nodup := by
  cases op with
  | unary n x => exact distinct_foldUnary past n x
  | linear n x y =>
    simp only [foldConstants]
    split
    · exact distinct_foldUnary past _ y
    · simp [Operation.operands]
    · exact h
  | conjunction p q n x y =>
    simp only [foldConstants]
    split
    · split
      · simp [Operation.operands]
      · exact distinct_foldUnary past _ y
    · split <;> simp [Operation.operands]
    · exact h
  | _ => exact h

/-- A rewritten operation is settled if what its operands slide to cannot be read through again. -/
theorem settled_rewriteOp {past : List Gate} {op : Operation Nat}
    (h : ∀ d ∈ op.operands, slide past (slide past d).offset = ⟨(slide past d).offset, false⟩) :
    Settled past (rewriteOp past op) where
  direct := operands_rewriteOp h
  unknown := unknown_foldConstants
  distinct := distinct_foldConstants (distinct_merge _)

/-! ### All gates -/

/-- An operand is read as it is, or through one unary gate. -/
theorem slide_cases (past : List Gate) (d : Nat) :
    slide past d = ⟨d, false⟩ ∨
      ∃ n e scope, back? past d = some ⟨.unary n e, scope⟩ ∧ slide past d = ⟨d + e, n⟩ := by
  unfold slide
  split
  · next n e scope hback =>
    split
    · exact .inr ⟨n, e, scope, hback, rfl⟩
    · exact .inl rfl
  · exact .inl rfl

/-- Sliding does not look at the gates after the operand. -/
theorem slide_drop (past : List Gate) (d : Nat) {e : Nat} (he : 0 < e) :
    slide past (d + e) =
      ⟨d + (slide (past.drop d) e).offset, (slide (past.drop d) e).negated⟩ := by
  have hscope : ∀ i, Gate.scopeBack past (d + (e + i)) = Gate.scopeBack (past.drop d) (e + i) := by
    intro i
    simp only [Gate.scopeBack, back?_drop past d (Nat.add_pos_left he i)]
  unfold slide
  rw [back?_drop past d he]
  split
  · next n i scope hback =>
    rw [Nat.add_assoc, hscope]
    split <;> rfl
  · rfl

/-- Behind settled gates, an operand slides no further than through one gate. -/
theorem slide_slide {past : List Gate} (hfits : Throughout Gate.Fits past)
    (hsettled : Throughout (fun older g => Settled older g.op) past) (d : Nat) :
    slide past (slide past d).offset = ⟨(slide past d).offset, false⟩ := by
  rcases slide_cases past d with hself | ⟨n, e, scope, hback, hthrough⟩
  · rw [hself, hself]
  · -- the gate that is read through is settled, so that its operand is read directly
    have he : e ∈ (Operation.unary n e).operands := List.mem_singleton_self e
    have hpos : 0 < e := ((hfits.of_back? hback).operands e he).1
    have hdirect : slide (past.drop d) e = ⟨e, false⟩ := (hsettled.of_back? hback).direct e he
    rw [hthrough]
    show slide past (d + e) = ⟨d + e, false⟩
    rw [slide_drop past d hpos, hdirect]

theorem settled_rewritten {past : List Gate} (h : Throughout Gate.Fits past) :
    Throughout (fun older g => Settled older g.op) (rewritten past) := by
  induction past with
  | nil => trivial
  | cons g past ih =>
    have hrest := ih h.2
    exact ⟨settled_rewriteOp fun d _ => slide_slide (fits_rewritten h.2) hrest d, hrest⟩

theorem rewritten_of_settled {past : List Gate} (hfits : Throughout Gate.Fits past)
    (hsettled : Throughout (fun older g => Settled older g.op) past) : rewritten past = past := by
  induction past with
  | nil => rfl
  | cons g past ih =>
    rw [rewritten, ih hfits.2 hsettled.2, rewrite, hsettled.1.rewriteOp_eq, hfits.1.widened_eq]

/-- Rewriting once is enough. -/
theorem rewritten_rewritten {past : List Gate} (h : Throughout Gate.Fits past) :
    rewritten (rewritten past) = rewritten past :=
  rewritten_of_settled (fits_rewritten h) (settled_rewritten h)

end Rewriting

end HalfGates
