import HalfGates.Constraint.Lowering
import HalfGates.Proofs.Constraint.Definitions
import HalfGates.Proofs.Program.Positions
import HalfGates.Proofs.Program.WellFormed

/-!
# Emitting the gates of an expression

Emission only appends gates, none of which is a source, and the last of them has the value of the
expression.

## Main definitions

- `Grown`: a history behind which gates other than sources were appended
- `Emitted`: what a successful emission has done
- `Lowering.exists_emitChain`, `Lowering.exists_emitExpr`: chains and expressions are emitted
-/

namespace HalfGates

/-- The history `past'` is `past` with further gates in front. None of them is a source, and the scope
requested for each is allowed, unless the gate is a constant. -/
inductive Grown (allowed : Scope → Prop) (past : List Gate) : List Gate → Prop
  | refl : Grown allowed past past
  | gate {past' : List Gate} {op : Operation Nat} {requested : Scope} :
    Grown allowed past past' → op.kind.isSource = false →
    (∀ d ∈ op.operands, 0 < d ∧ d ≤ past'.length) →
    (op.kind.isConstant = true ∨ allowed requested) →
    Grown allowed past (Gate.widened past' op requested :: past')

namespace Grown

variable {allowed allowed' : Scope → Prop} {past past' past'' : List Gate}

theorem trans (h : Grown allowed past past') (h' : Grown allowed past' past'') :
    Grown allowed past past'' := by
  induction h' with
  | refl => exact h
  | gate _ hsource hfits hallowed ih => exact .gate ih hsource hfits hallowed

theorem mono (hle : ∀ scope, allowed scope → allowed' scope) (h : Grown allowed past past') :
    Grown allowed' past past' := by
  induction h with
  | refl => exact .refl
  | gate _ hsource hfits hallowed ih => exact .gate ih hsource hfits (hallowed.imp_right (hle _))

/-- A relation between gates and histories that every emitted gate satisfies survives growth. -/
theorem throughout {P : List Gate → Gate → Prop}
    (hP : ∀ past op requested, op.kind.isSource = false →
      (∀ d ∈ op.operands, 0 < d ∧ d ≤ past.length) →
      (op.kind.isConstant = true ∨ allowed requested) → P past (Gate.widened past op requested))
    (h : Grown allowed past past') (hpast : Throughout P past) : Throughout P past' := by
  induction h with
  | refl => exact hpast
  | gate _ hsource hfits hallowed ih => exact ⟨hP _ _ _ hsource hfits hallowed, ih⟩

theorem fits (h : Grown allowed past past') (hpast : Throughout Gate.Fits past) :
    Throughout Gate.Fits past' :=
  h.throughout (fun _ _ requested _ hfits _ => Gate.fits_widened requested hfits) hpast

theorem exists_append (h : Grown allowed past past') : ∃ new, past' = new ++ past := by
  induction h with
  | refl => exact ⟨[], rfl⟩
  | gate _ _ _ _ ih =>
    obtain ⟨new, rfl⟩ := ih
    exact ⟨_ :: new, rfl⟩

/-- A gate stays at its position. -/
theorem getElem?_reverse (h : Grown allowed past past') {i : Nat} {g : Gate}
    (hg : past.reverse[i]? = some g) : past'.reverse[i]? = some g := by
  obtain ⟨new, rfl⟩ := h.exists_append
  obtain ⟨hlt, -⟩ := List.getElem?_eq_some_iff.mp hg
  rw [List.reverse_append, List.getElem?_append_left hlt, hg]

/-- Growth adds no sources. -/
theorem filter_isSource (h : Grown allowed past past') :
    past'.filter (fun g => g.kind.isSource) = past.filter fun g => g.kind.isSource := by
  induction h with
  | refl => rfl
  | gate _ hsource _ _ ih =>
    rw [← ih]
    exact List.filter_cons_of_neg (by simpa [Gate.widened, Gate.kind] using hsource)

end Grown

/-- The values of a run over a history of gates, the oldest first. -/
def PlainRun.valuesAlong (bits : List Bool) (past : List Gate) : List Bool :=
  (PlainRun.along bits past).past.reverse

@[simp] theorem PlainRun.length_valuesAlong (bits : List Bool) (past : List Gate) :
    (valuesAlong bits past).length = past.length := by
  simp [valuesAlong]

/-- A gate has its value from its own run on. -/
theorem Grown.getElem?_valuesAlong {allowed : Scope → Prop} {past past' : List Gate}
    (h : Grown allowed past past') {bits : List Bool} {i : Nat} {x : Bool}
    (hx : (PlainRun.valuesAlong bits past)[i]? = some x) :
    (PlainRun.valuesAlong bits past')[i]? = some x := by
  induction h with
  | refl => exact hx
  | gate _ _ _ _ ih =>
    obtain ⟨hlt, -⟩ := List.getElem?_eq_some_iff.mp ih
    rw [PlainRun.valuesAlong, PlainRun.past_along_cons, List.reverse_cons]
    exact (List.getElem?_append_left hlt).trans ih

/-- The value at a position, read from the end of the history. -/
theorem PlainRun.bitBack_of_valuesAlong {bits : List Bool} {past : List Gate} {i : Nat} {x : Bool}
    (hx : (valuesAlong bits past)[i]? = some x) :
    bitBack (along bits past).past (past.length - i) = x := by
  obtain ⟨hlt, -⟩ := List.getElem?_eq_some_iff.mp hx
  have hlt' : i < (along bits past).past.length := by simpa [valuesAlong] using hlt
  have hback := back?_length_sub hlt'
  rw [length_along] at hback
  rw [bitBack, hback]
  exact congrArg (Option.getD · false) hx

/-! ### Gates and chains of gates -/

/-- What a successful emission from the builder `b` has done: gates were appended, the last of which
stands at `position`, has the value `x` and is known to the parties in `scope`. -/
structure Emitted (allowed : Scope → Prop) (scope : Scope) (bits : List Bool) (b : Builder) (x : Bool)
    (position : Nat) (b' : Builder) : Prop where
  grown : Grown allowed b.past b'.past
  last : position + 1 = b'.past.length
  value : (PlainRun.valuesAlong bits b'.past)[position]? = some x
  scope : (Gate.scopeBack b'.past 1).contains scope = true

/-- A kind that combines values from left to right: it computes `f`, of which `unit` is neutral. -/
structure Combines (unit : Bool) (kind : GateKind) (f : Bool → Bool → Bool) : Prop where
  source : kind.isSource = false
  operation : ∀ i j : Nat, ∃ op, Operation.ofKind? kind [i, j] = some op ∧
    ∀ (g : Nat → Bool) supplied, (op.map g).value supplied = f (g i) (g j)
  unit : ∀ x, f x unit = x
  comm : ∀ x y, f x y = f y x

theorem combines_linear : Combines false (.linear false) fun x acc => x ^^ acc where
  source := rfl
  operation i j := ⟨.linear false i j, rfl, fun _ _ => Bool.xor_false _⟩
  unit := Bool.xor_false
  comm := Bool.xor_comm

theorem combines_conjunction : Combines true (.conjunction false false false) fun x acc => x && acc where
  source := rfl
  operation i j := ⟨.conjunction false false false i j, rfl, fun _ _ => by
    simp [Operation.map, Operation.value]⟩
  unit := Bool.and_true
  comm := Bool.and_comm

namespace Lowering

variable {allowed : Scope → Prop} {scope : Scope} {bits : List Bool} {b : Builder}

/-- A request that fits its kind is emitted. -/
theorem exists_emit {kind : GateKind} {offsets : List Nat} {op : Operation Nat} {x : Bool}
    (hop : Operation.ofKind? kind offsets = some op) (hsource : kind.isSource = false)
    (hfits : ∀ d ∈ offsets, 0 < d ∧ d ≤ b.past.length)
    (hallowed : kind.isConstant = true ∨ allowed scope)
    (hx : (op.map (PlainRun.bitBack (PlainRun.along bits b.past).past)).value false = x) :
    ∃ position b', emit b ⟨kind, scope, offsets⟩ = .ok (position, b') ∧
      Emitted allowed scope bits b x position b' := by
  obtain ⟨rfl, rfl⟩ := Operation.kind_operands_of_ofKind? hop
  refine ⟨b.length, { b with past := Gate.widened b.past op scope :: b.past }, ?_, ?_⟩
  · have hadd : b.add ⟨op.kind, scope, op.operands⟩ = .ok _ :=
      Builder.add_eq_ok_iff.mpr ⟨op, hop, hfits, rfl⟩
    rw [emit, hadd]
  · refine ⟨.gate .refl hsource hfits hallowed, rfl, ?_, Scope.contains_union_left _ _⟩
    rw [PlainRun.valuesAlong, PlainRun.past_along_cons, List.reverse_cons,
      List.getElem?_append_right (by simp [Builder.length])]
    simp only [List.length_reverse, PlainRun.length_along, Builder.length, Nat.sub_self,
      List.getElem?_cons_zero, Option.some.injEq, ← hx]
    exact Operation.value_supplied (by simpa [Gate.widened] using hsource) _ _

theorem exists_emitConstant (value : Bool) :
    ∃ position b', emitConstant b value = .ok (position, b') ∧
      Emitted allowed scope bits b value position b' := by
  have hop : Operation.ofKind? (.constant value) ([] : List Nat) = some (.constant value) := rfl
  obtain ⟨position, b', hemit, hemitted⟩ :
      ∃ position b', emitConstant b value = .ok (position, b') ∧
        Emitted allowed .both bits b value position b' :=
    exists_emit hop rfl (by simp) (.inl rfl) rfl
  refine ⟨position, b', hemit, hemitted.grown, hemitted.last, hemitted.value, ?_⟩
  have hboth := Scope.eq_both_of_contains hemitted.scope
  rw [hboth]
  obtain ⟨_ | _, _ | _⟩ := scope <;> rfl

/-- A position that has a value is an offset back from the end. -/
theorem offset_bounds {past : List Gate} {i : Nat} {x : Bool}
    (hx : (PlainRun.valuesAlong bits past)[i]? = some x) :
    0 < past.length - i ∧ past.length - i ≤ past.length := by
  obtain ⟨hlt, -⟩ := List.getElem?_eq_some_iff.mp hx
  rw [PlainRun.length_valuesAlong] at hlt
  omega

/-- An identity of an earlier gate is emitted. -/
theorem exists_emitIdentity {i : Nat} {x : Bool} (hallowed : allowed scope)
    (hx : (PlainRun.valuesAlong bits b.past)[i]? = some x) :
    ∃ position b', emit b ⟨.unary false, scope, [b.length - i]⟩ = .ok (position, b') ∧
      Emitted allowed scope bits b x position b' := by
  have hop : Operation.ofKind? (.unary false) [b.length - i] = some (.unary false (b.length - i)) := rfl
  refine exists_emit hop rfl ?_ (.inr hallowed) ?_
  · intro d hd
    rw [List.mem_singleton.mp hd]
    exact offset_bounds hx
  · simp only [Operation.map, Operation.value, Builder.length, PlainRun.bitBack_of_valuesAlong hx,
      Bool.xor_false]

/-- A gate that combines the values of two earlier gates is emitted. -/
theorem exists_emitPair {unit : Bool} {kind : GateKind} {f : Bool → Bool → Bool}
    (hkind : Combines unit kind f) (hallowed : allowed scope) {i j : Nat} {x y : Bool}
    (hx : (PlainRun.valuesAlong bits b.past)[i]? = some x)
    (hy : (PlainRun.valuesAlong bits b.past)[j]? = some y) :
    ∃ position b', emit b ⟨kind, scope, [b.length - i, b.length - j]⟩ = .ok (position, b') ∧
      Emitted allowed scope bits b (f x y) position b' := by
  obtain ⟨op, hop, hvalue⟩ := hkind.operation (b.length - i) (b.length - j)
  refine exists_emit hop hkind.source ?_ (.inr hallowed) ?_
  · rintro d (_ | ⟨_, _ | ⟨_, ⟨⟩⟩⟩)
    · exact offset_bounds hx
    · exact offset_bounds hy
  · rw [hvalue, Builder.length, PlainRun.bitBack_of_valuesAlong hx, PlainRun.bitBack_of_valuesAlong hy]

/-- The rest of a chain combines the value so far with one value after the other. -/
theorem exists_emitRest {unit : Bool} {kind : GateKind} {f : Bool → Bool → Bool}
    (hkind : Combines unit kind f) (hallowed : allowed scope) {b₀ : Builder} {acc : Bool} {last : Nat}
    (hacc : Emitted allowed scope bits b₀ acc last b) {positions : List Nat} {xs : List Bool}
    (hxs : Locates (PlainRun.valuesAlong bits b.past) positions xs) :
    ∃ position b', emitRest kind scope last b positions = .ok (position, b') ∧
      Emitted allowed scope bits b₀ (xs.foldl (fun acc x => f x acc) acc) position b' := by
  induction positions generalizing b acc last xs with
  | nil =>
    obtain rfl := hxs.nil_left
    exact ⟨last, b, rfl, hacc⟩
  | cons i positions ih =>
    obtain ⟨x, rest, rfl, hi, hrest⟩ := hxs.of_cons
    -- the value so far is that of the gate before
    have hlast : 1 = b.length - last := by
      have := hacc.last
      rw [Builder.length]
      omega
    have hpair := exists_emitPair hkind hallowed hi hacc.value
    rw [← hlast] at hpair
    obtain ⟨next, c, hemit, hnext⟩ := hpair
    obtain ⟨position, b', hchain, hemitted⟩ :=
      ih ⟨hacc.grown.trans hnext.grown, hnext.last, hnext.value, hnext.scope⟩
        (hrest.mono fun _ _ => hnext.grown.getElem?_valuesAlong)
    refine ⟨position, b', ?_, hemitted⟩
    rw [emitRest, hemit]
    exact hchain

/-- A chain combines all values from left to right. -/
theorem exists_emitChain {unit : Bool} {kind : GateKind} {f : Bool → Bool → Bool}
    (hkind : Combines unit kind f) (hallowed : allowed scope) {positions : List Nat} {xs : List Bool}
    (hxs : Locates (PlainRun.valuesAlong bits b.past) positions xs) :
    ∃ position b', emitChain unit kind scope b positions = .ok (position, b') ∧
      Emitted allowed scope bits b (xs.foldl (fun acc x => f x acc) unit) position b' := by
  match positions with
  | [] =>
    obtain rfl := hxs.nil_left
    exact exists_emitConstant unit
  | [only] =>
    obtain ⟨x, rest, rfl, hx, hnil⟩ := hxs.of_cons
    obtain rfl := hnil.nil_left
    rw [List.foldl_cons, List.foldl_nil, hkind.unit]
    exact exists_emitIdentity hallowed hx
  | first :: second :: positions =>
    obtain ⟨x, tail, rfl, hx, htail⟩ := hxs.of_cons
    obtain ⟨y, rest, rfl, hy, hrest⟩ := htail.of_cons
    obtain ⟨last, c, hemit, hlast⟩ := exists_emitPair hkind hallowed hx hy
    obtain ⟨position, b', hchain, hemitted⟩ :=
      exists_emitRest hkind hallowed hlast
        (hrest.mono fun _ _ => hlast.grown.getElem?_valuesAlong)
    refine ⟨position, b', ?_, ?_⟩
    · rw [emitChain, hemit]
      exact hchain
    · rw [List.foldl_cons, List.foldl_cons, hkind.unit, hkind.comm y x]
      exact hemitted

/-! ### Expressions -/

mutual

/-- An expression over variables that stand at known positions is emitted with its value. -/
theorem exists_emitExpr {places : List Nat} {a : List Bool} (hallowed : allowed scope) :
    ∀ {e : Expr} {b : Builder}, Locates (PlainRun.valuesAlong bits b.past) places a →
      Expr.Below a.length e → ∃ x position b', e.evaluate a = some x ∧
        emitExpr places scope b e = .ok (position, b') ∧
        Emitted allowed scope bits b x position b'
  | .constant value, b, _, _ =>
    let ⟨position, b', hemit, hemitted⟩ := exists_emitConstant value
    ⟨value, position, b', rfl, hemit, hemitted⟩
  | .variable v, b, hvariables, hbelow => by
    obtain ⟨x, hx⟩ : ∃ x, a[v]? = some x := ⟨_, List.getElem?_eq_getElem hbelow⟩
    obtain ⟨i, hi, hvalue⟩ := hvariables.getElem? hx
    obtain ⟨position, b', hemit, hemitted⟩ := exists_emitIdentity hallowed hvalue
    refine ⟨x, position, b', hx, ?_, hemitted⟩
    simp only [emitExpr, hi]
    exact hemit
  | .sum terms, b, hvariables, hbelow => by
    obtain ⟨xs, positions, c, heval, hemits, hgrown, hxs⟩ :=
      exists_emitExprs hallowed hvariables hbelow
    obtain ⟨position, b', hchain, hemitted⟩ := exists_emitChain combines_linear hallowed hxs
    refine ⟨_, position, b', Expr.evaluateSum_eq heval, ?_, { hemitted with
      grown := hgrown.trans hemitted.grown }⟩
    rw [emitExpr, hemits]
    exact hchain
  | .product factors, b, hvariables, hbelow => by
    obtain ⟨xs, positions, c, heval, hemits, hgrown, hxs⟩ :=
      exists_emitExprs hallowed hvariables hbelow
    obtain ⟨position, b', hchain, hemitted⟩ := exists_emitChain combines_conjunction hallowed hxs
    refine ⟨_, position, b', Expr.evaluateProduct_eq heval, ?_, { hemitted with
      grown := hgrown.trans hemitted.grown }⟩
    rw [emitExpr, hemits]
    exact hchain

theorem exists_emitExprs {places : List Nat} {a : List Bool} (hallowed : allowed scope) :
    ∀ {es : List Expr} {b : Builder}, Locates (PlainRun.valuesAlong bits b.past) places a →
      Expr.BelowAll a.length es → ∃ xs positions b', es.map (Expr.evaluate a) = xs.map some ∧
        emitExprs places scope b es = .ok (positions, b') ∧ Grown allowed b.past b'.past ∧
        Locates (PlainRun.valuesAlong bits b'.past) positions xs
  | [], b, _, _ => ⟨[], [], b, rfl, rfl, .refl, rfl⟩
  | e :: es, b, hvariables, hbelow => by
    obtain ⟨x, i, c, hx, hemit, hemitted⟩ := exists_emitExpr hallowed hvariables hbelow.1
    obtain ⟨xs, positions, b', hxs, hemits, hgrown, hlocates⟩ := exists_emitExprs hallowed
      (hvariables.mono fun _ _ => hemitted.grown.getElem?_valuesAlong) hbelow.2
    refine ⟨x :: xs, i :: positions, b', ?_, ?_, hemitted.grown.trans hgrown, ?_⟩
    · rw [List.map_cons, List.map_cons, hx, hxs]
    · rw [emitExprs, hemit]
      change (emitExprs places scope c es >>= _) = _
      rw [hemits]
      rfl
    · exact hlocates.cons (hgrown.getElem?_valuesAlong hemitted.value)

end

end Lowering

end HalfGates
