import HalfGates.Proofs.Garbling.Places

/-!
# What the two parties hash

For each half gate the generator hashes both labels of a wire, and the evaluator the one that it holds. What a
party has hashed can be read off its history.

## Main definitions

- `Query.pair`: a label and the other label of its wire
- `Garbler.hashed`, `GarbledRun.hashed`: what the two parties hash of an operation
- `Garbler.Hashes.steps`, `GarbledRun.queries_steps`: what they have hashed after any number of gates
-/

namespace HalfGates

/-! ### What the generator hashes -/

/-- The label of a wire that has its select bit set, from the label for zero. -/
def Delta.selected (δ : Delta) (zero : Block) : Block :=
  zero ^^^ δ.times (!zero.select)

/-- A label that is hashed, and behind it the other label of its wire; newest first. -/
def Query.pair (δ : Delta) (q : Query) : List Query :=
  [⟨q.key ^^^ δ.block, q.place⟩, q]

namespace Garbler

/-- The label that the generator hashes first, for each pair that it hashes for an operation, newest pair
first. -/
def hashed (δ : Delta) (index : Nat) (scope : Scope) : Operation Wire → List Query
  | .conjunction p q _ x y =>
    if scope = .both then []
    else if x.scope.generator then [⟨δ.selected y.zero, ⟨index, 0⟩⟩]
    else if y.scope.generator then [⟨δ.selected x.zero, ⟨index, 0⟩⟩]
    else if x.scope.evaluator then [⟨x.zero ^^^ δ.times p, ⟨index, 0⟩⟩]
    else if y.scope.evaluator then [⟨y.zero ^^^ δ.times q, ⟨index, 0⟩⟩]
    else [⟨y.zero ^^^ δ.times y.zero.select ^^^ δ.times q, ⟨index, 1⟩⟩,
      ⟨δ.selected x.zero, ⟨index, 3⟩⟩]
  | _ => []

/-- A label of each pair hashed for the gates of a history. -/
def hashedAlong (δ : Delta) : List Gate → List Wire → List Query
  | g :: gates, _ :: past =>
    ((g.op.mapM? (back? past)).elim [] (hashed δ past.length g.scope)) ++ hashedAlong δ gates past
  | _, _ => []

theorem place_hashed (δ : Delta) (index : Nat) (scope : Scope) (op : Operation Wire) :
    (hashed δ index scope op).map Query.place = (op.map Wire.scope).tweaks index scope := by
  cases op with
  | conjunction p q n x y =>
    by_cases hboth : scope = .both
    · rw [hashed, if_pos hboth, Operation.tweaks, hboth, Operation.rows_both]
      rfl
    · rw [hashed, if_neg hboth, Operation.tweaks, Operation.map,
        Operation.rows_conjunction p q n (Scope.not_both_iff.mp hboth)]
      cases x.scope.generator <;> cases y.scope.generator <;> cases x.scope.evaluator <;>
        cases y.scope.evaluator <;> rfl
  | _ => rfl

end Garbler

section halves

variable {δ : Delta} {hash : TweakedHash} {place first second : Tweak} {p q n : Bool} {x y : Wire}

/-- The label that has its select bit set is hashed first. -/
theorem HalfGate.queries_garbleKnown (δ : Delta) (hash : TweakedHash) (place : Tweak) (zero : Block)
    (z0 z1 : Bool) :
    (garbleKnown δ place zero z0 z1).queries hash = Query.pair δ ⟨δ.selected zero, place⟩ := by
  have hother : zero ^^^ δ.block ^^^ δ.block = zero := xor_cancel_right _ _
  unfold garbleKnown Query.pair Delta.selected
  cases zero.select <;> simp [Hashing.hide, hother]

theorem HalfGate.queries_garbleMasked (δ : Delta) (hash : TweakedHash) (place : Tweak)
    (known other : Block) (p q n : Bool) :
    (garbleMasked δ place known other p q n).queries hash =
      Query.pair δ ⟨known ^^^ δ.times p, place⟩ := rfl

theorem Garbler.queries_generatorHalf {half : Hashing HalfGate}
    (h : generatorHalf δ place first second p q n x y = .ok half) :
    half.queries hash =
      Query.pair δ ⟨δ.selected (if x.scope.generator then y.zero else x.zero), place⟩ := by
  unfold generatorHalf at h
  cases hx : x.scope.generator <;> rw [hx] at h <;> dsimp only at h <;> split at h
  all_goals cases h
  all_goals exact HalfGate.queries_garbleKnown δ hash place _ _ _

theorem Garbler.queries_evaluatorHalf : (evaluatorHalf δ place p q n x y).queries hash =
    Query.pair δ ⟨if x.scope.evaluator then x.zero ^^^ δ.times p else y.zero ^^^ δ.times q, place⟩ := by
  unfold evaluatorHalf
  split <;> exact HalfGate.queries_garbleMasked δ hash place _ _ _ _ _

end halves

namespace Garbler

section operations

variable {setup : GarblingSetup} {index : Nat} {g : Gate} {s s' : Garbler} {w : Wire}
  {rows : BitView} {p q n : Bool} {x y : Wire}

theorem queries_split (hx : x.scope = .neither)
    (h : s.split setup index g p q n x y = .ok (w, rows, s')) :
    s'.queries = ([⟨y.zero ^^^ setup.delta.times y.zero.select ^^^ setup.delta.times q, ⟨index, 1⟩⟩,
      ⟨setup.delta.selected x.zero, ⟨index, 3⟩⟩] : List Query).flatMap (Query.pair setup.delta) ++
      s.queries := by
  rw [split_eq] at h
  obtain ⟨upper, hupper, h⟩ := bind_eq_ok.mp h
  dsimp only at h
  split at h
  · cases h
    dsimp only
    rw [queries_generatorHalf hupper, queries_evaluatorHalf, hx]
    rfl
  · cases h

/-- The generator hashes a pair of labels for each half gate. -/
theorem queries_operation {op : Operation Wire}
    (h : s.operation setup index g op = .ok (w, rows, s')) :
    s'.queries =
      (hashed setup.delta index g.scope op).flatMap (Query.pair setup.delta) ++ s.queries := by
  cases op with
  | input =>
    obtain ⟨⟨wire, state⟩, hinput, h⟩ := bind_eq_ok.mp h
    cases h
    unfold input at hinput
    split at hinput
    · split at hinput <;> cases hinput
      rfl
    · cases hinput
      rfl
  | random =>
    cases h
    show (s.random setup g.scope).2.queries = s.queries
    unfold random drawBit
    split
    · cases s.pushed <;> rfl
    · rfl
  | constant value =>
    cases h
    rfl
  | unary n x =>
    obtain ⟨bit, -, h⟩ := bind_eq_ok.mp h
    cases h
    rfl
  | linear n x y =>
    obtain ⟨bit, -, h⟩ := bind_eq_ok.mp h
    cases h
    rfl
  | conjunction p q n x y =>
    obtain ⟨bit, hbit, h⟩ := bind_eq_ok.mp h
    have hsome := isSome_of_knownBit hbit
    by_cases hboth : g.scope = .both
    · obtain ⟨value, rfl⟩ : ∃ value, bit = some value := by
        rw [hboth] at hsome
        exact Option.isSome_iff_exists.mp hsome
      rw [hboth] at h ⊢
      cases h
      rfl
    · rw [hashed, if_neg hboth]
      simp only [perform_eq] at h
      split at h
      · next value hevaluator =>
        have hskip := Scope.not_both_iff.mp hboth
        rw [← hsome, hevaluator] at hskip
        cases hskip
      · split at h
        · next hgenerator =>
          obtain ⟨half, hhalf, h⟩ := bind_eq_ok.mp h
          cases h
          dsimp only
          rw [queries_generatorHalf hhalf]
          cases hx : x.scope.generator with
          | true => rfl
          | false =>
            have hy : y.scope.generator = true := by simpa [hx] using hgenerator
            rw [hy]
            rfl
        · next hgenerator =>
          obtain ⟨hx, hy⟩ := Bool.or_eq_false_iff.mp (Bool.eq_false_iff.mpr hgenerator)
          rw [hx, hy]
          split at h
          · next hevaluator =>
            cases h
            dsimp only
            rw [queries_evaluatorHalf]
            cases hxe : x.scope.evaluator with
            | true => rfl
            | false =>
              have hye : y.scope.evaluator = true := by simpa [hxe] using hevaluator
              rw [hye]
              rfl
          · next hevaluator =>
            obtain ⟨hxe, hye⟩ := Bool.or_eq_false_iff.mp (Bool.eq_false_iff.mpr hevaluator)
            have hneither : x.scope = .neither := congrArg₂ Scope.mk hx hxe
            rw [hxe, hye]
            exact queries_split hneither h

end operations

variable {setup : GarblingSetup} {s s' : Garbler} {past : List Gate}

/-- What the generator hashed is what its history says. -/
structure Hashes (setup : GarblingSetup) (s : Garbler) (past : List Gate) : Prop where
  scopes : s.past.map Wire.scope = past.map Gate.scope
  queries : s.queries = (hashedAlong setup.delta past s.past).flatMap (Query.pair setup.delta)

theorem Hashes.step {g : Gate} {payload : BitView} (hs : s.Hashes setup past)
    (h : s.step setup g = .ok (payload, s')) : s'.Hashes setup (g :: past) := by
  refine ⟨(rows_step hs.scopes h).1, ?_⟩
  obtain ⟨op, wire, rows, state, hop, hoperation, -, rfl⟩ := step_eq_ok.mp h
  show state.queries = (hashedAlong setup.delta (g :: past) (wire :: state.past)).flatMap _
  rw [(costs_operation hoperation).past, queries_operation hoperation, hashedAlong, hop,
    List.flatMap_append, hs.queries]
  rfl

theorem Hashes.steps {gates : List Gate} {payloads : List BitView} (hs : s.Hashes setup past)
    (h : s.steps setup gates = .ok (payloads, s')) : s'.Hashes setup (gates.reverse ++ past) := by
  induction gates generalizing s past payloads with
  | nil =>
    cases h
    exact hs
  | cons g gates ih =>
    obtain ⟨⟨payload, state⟩, hstep, h⟩ := bind_eq_ok.mp h
    obtain ⟨⟨rest, final⟩, hsteps, h⟩ := bind_eq_ok.mp h
    cases h
    have hall := ih (hs.step hstep) hsteps
    rwa [List.reverse_cons, List.append_assoc]

theorem place_hashedAlong (δ : Delta) {gates : List Gate} {past : List Wire}
    (hgates : Throughout Gate.Fits gates) (hscopes : past.map Wire.scope = gates.map Gate.scope) :
    (hashedAlong δ gates past).map Query.place = Gate.tweaksAlong gates := by
  induction gates generalizing past with
  | nil => rfl
  | cons g gates ih =>
    match past with
    | w :: past =>
      have hrest := (List.cons.inj hscopes).2
      obtain ⟨op, hop, -, hopscopes, -⟩ := hgates.1.exists_operands hrest
      have hlength : past.length = gates.length := by simpa using congrArg List.length hrest
      rw [hashedAlong, hop, List.map_append, ih hgates.2 hrest, Gate.tweaksAlong, ← hopscopes, ← hlength]
      exact congrArg (· ++ _) (place_hashed δ _ _ op)

end Garbler

/-! ### What the evaluator hashes -/

namespace GarbledRun

/-- The labels that the evaluator hashes for an operation, newest first. -/
def hashed (index : Nat) (scope : Scope) : Operation Held → List Query
  | .conjunction _ _ _ x y =>
    if scope = .both then []
    else if x.scope.generator then [⟨y.label, ⟨index, 0⟩⟩]
    else if y.scope.generator then [⟨x.label, ⟨index, 0⟩⟩]
    else if x.scope.evaluator then [⟨x.label, ⟨index, 0⟩⟩]
    else if y.scope.evaluator then [⟨y.label, ⟨index, 0⟩⟩]
    else [⟨y.label, ⟨index, 1⟩⟩, ⟨x.label, ⟨index, 3⟩⟩]
  | _ => []

/-- The labels hashed for the gates of a history. -/
def hashedAlong : List Gate → List Held → List Query
  | g :: gates, _ :: past =>
    ((g.op.mapM? (back? past)).elim [] (hashed past.length g.scope)) ++ hashedAlong gates past
  | _, _ => []

section operations

variable {hash : TweakedHash} {index first second : Nat} {g : Gate} {e e' : GarbledRun} {label : Block}
  {payload rest : BitView} {p q : Bool} {x y : Held} {place : Tweak}

theorem queries_openKnown (key row : Block) :
    (HalfGate.openKnown place key row).queries hash = [⟨key, place⟩] := by
  unfold HalfGate.openKnown
  split <;> rfl

theorem queries_openMasked (key other row : Block) (value negated : Bool) :
    (HalfGate.openMasked place key other value negated row).queries hash = [⟨key, place⟩] := by
  unfold HalfGate.openMasked
  split <;> rfl

theorem queries_generatorHalf (h : e.generatorHalf hash place x y payload = .ok (label, rest, e')) :
    e'.past = e.past ∧
      e'.queries = ⟨(if x.scope.generator then y else x).label, place⟩ :: e.queries := by
  obtain ⟨⟨row, tail⟩, -, h⟩ := bind_eq_ok.mp h
  simp only [perform_eq, queries_openKnown] at h
  cases h
  exact ⟨rfl, rfl⟩

theorem queries_evaluatorHalf
    (h : e.evaluatorHalf hash place first second p q x y payload = .ok (label, rest, e')) :
    e'.past = e.past ∧
      e'.queries = ⟨(if x.scope.evaluator then x else y).label, place⟩ :: e.queries := by
  unfold evaluatorHalf at h
  cases hx : x.scope.evaluator <;> rw [hx] at h
  all_goals
    obtain ⟨⟨row, tail⟩, -, h⟩ := bind_eq_ok.mp h
    simp only [perform_eq, queries_openMasked] at h
    split at h <;> cases h
    exact ⟨rfl, rfl⟩

theorem queries_split (hx : x.scope = .neither)
    (h : e.split hash index g p q x y payload = .ok (label, rest, e')) :
    e'.past = e.past ∧
      e'.queries = [⟨y.label, ⟨index, 1⟩⟩, ⟨x.label, ⟨index, 3⟩⟩] ++ e.queries := by
  obtain ⟨⟨upper, tail, state⟩, hupper, h⟩ := bind_eq_ok.mp h
  obtain ⟨⟨lower, tail', state'⟩, hlower, h⟩ := bind_eq_ok.mp h
  cases h
  obtain ⟨hpast, hqueries⟩ := queries_generatorHalf hupper
  obtain ⟨hpast', hqueries'⟩ := queries_evaluatorHalf hlower
  have hmasked : y.label ^^^ (0 : Block) = y.label := BitVec.xor_zero
  refine ⟨hpast'.trans hpast, ?_⟩
  rw [hqueries', hqueries, hx]
  show (⟨y.label ^^^ (0 : Block), ⟨index, 1⟩⟩ : Query) :: _ = _
  rw [hmasked]
  rfl

theorem source_eq_ok {scope : Scope} {isInput : Bool} (h : e.source index isInput scope = .ok (label, e')) :
    e'.past = e.past ∧ e'.queries = e.queries := by
  unfold source at h
  split at h
  · cases h
    exact ⟨rfl, rfl⟩
  · split at h <;> cases h
    exact ⟨rfl, rfl⟩

/-- The evaluator hashes one label for each half gate. -/
theorem queries_operation {op : Operation Held}
    (h : e.operation hash index g payload op = .ok (label, rest, e')) :
    e'.past = e.past ∧ e'.queries = hashed index g.scope op ++ e.queries := by
  cases op with
  | input =>
    obtain ⟨⟨found, state⟩, hsource, h⟩ := bind_eq_ok.mp h
    cases h
    exact source_eq_ok hsource
  | random =>
    obtain ⟨⟨found, state⟩, hsource, h⟩ := bind_eq_ok.mp h
    cases h
    exact source_eq_ok hsource
  | constant value =>
    obtain ⟨⟨found, state⟩, hsource, h⟩ := bind_eq_ok.mp h
    cases h
    exact source_eq_ok hsource
  | unary n x =>
    cases h
    exact ⟨rfl, rfl⟩
  | linear n x y =>
    cases h
    exact ⟨rfl, rfl⟩
  | conjunction p q n x y =>
    dsimp only [operation] at h
    by_cases hboth : g.scope = .both
    · rw [hboth] at h ⊢
      cases h
      exact ⟨rfl, rfl⟩
    · rw [hashed, if_neg hboth]
      rw [Scope.not_both_iff.mp hboth, if_neg (by decide)] at h
      cases hxg : x.scope.generator with
      | true =>
        rw [hxg] at h
        have hqueries := queries_generatorHalf h
        rw [hxg] at hqueries
        exact hqueries
      | false =>
        cases hyg : y.scope.generator with
        | true =>
          rw [hyg, Bool.or_true] at h
          have hqueries := queries_generatorHalf h
          rw [hxg] at hqueries
          exact hqueries
        | false =>
          rw [hxg, hyg, Bool.or_false, if_neg (by decide)] at h
          cases hxe : x.scope.evaluator with
          | true =>
            rw [hxe] at h
            have hqueries := queries_evaluatorHalf h
            rw [hxe] at hqueries
            exact hqueries
          | false =>
            cases hye : y.scope.evaluator with
            | true =>
              rw [hye, Bool.or_true] at h
              have hqueries := queries_evaluatorHalf h
              rw [hxe] at hqueries
              exact hqueries
            | false =>
              rw [hxe, hye, Bool.or_false, if_neg (by decide)] at h
              have hneither : x.scope = .neither := congrArg₂ Scope.mk hxg hxe
              exact queries_split hneither h

end operations

variable {hash : TweakedHash} {e e' : GarbledRun} {past : List Gate}

theorem queries_step {g : Gate} {payload : BitView} (h : e.step hash g payload = .ok e')
    (he : e.queries = hashedAlong past e.past) : e'.queries = hashedAlong (g :: past) e'.past := by
  obtain ⟨op, label, rest, state, bit, hop, hoperation, -, rfl⟩ := step_eq_ok.mp h
  obtain ⟨hpast, hqueries⟩ := queries_operation hoperation
  show state.queries = hashedAlong (g :: past) (⟨label, bit, g.scope⟩ :: state.past)
  rw [hpast, hqueries, hashedAlong, hop, he]
  rfl

theorem queries_steps {gates : List Gate} {payloads : List BitView}
    (h : e.steps hash gates payloads = .ok e') (he : e.queries = hashedAlong past e.past) :
    e'.queries = hashedAlong (gates.reverse ++ past) e'.past := by
  induction gates generalizing e past payloads with
  | nil =>
    cases h
    exact he
  | cons g gates ih =>
    cases payloads with
    | nil => cases h
    | cons payload payloads =>
      obtain ⟨state, hstep, h⟩ := bind_eq_ok.mp h
      have hall := ih h (queries_step hstep he)
      rwa [List.reverse_cons, List.append_assoc]

end GarbledRun

end HalfGates
