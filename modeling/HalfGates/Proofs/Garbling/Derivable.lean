import HalfGates.Proofs.Garbling.Correctness
import HalfGates.Proofs.Garbling.Demand

/-!
# Programs that can be garbled

A gate that the generator knows is derivable if the generator knows all of its operands. A program of
derivable gates is garbled whenever there are enough inputs; the programs of parity systems are of this
kind unless the generator is to learn a defined variable, and simplification keeps them so.

## Main definitions

- `Gate.Derivable`, `Program.Derivable`: the generator knows the operands of a gate that it knows
- `Garbler.Follows`: the generator's state between two gates
- `Garbler.exists_operation`, `Garbler.exists_step`: one derivable gate is garbled
- `Program.WellFormed.exists_steps`: the gates before a position
- `Rewriting.derivable_rewritten`, `Liveness.derivable_kept`: simplification keeps gates derivable
- `Lowered.derivable`: the programs of parity systems
-/

namespace HalfGates

/-- The generator knows every operand of the gate if it knows the gate. -/
def Gate.Derivable (past : List Gate) (g : Gate) : Prop :=
  g.scope.generator = true → ∀ d ∈ g.op.operands, (scopeBack past d).generator = true

/-- Whether the generator is to know the gate but does not know all of its operands. -/
def Gate.underivable (past : List Gate) (g : Gate) : Bool :=
  g.scope.generator && g.op.operands.any fun d => !(scopeBack past d).generator

theorem Gate.underivable_eq_false_iff {past : List Gate} {g : Gate} :
    g.underivable past = false ↔ g.Derivable past := by
  cases hscope : g.scope.generator <;> simp [underivable, Derivable, hscope]

/-! ### What the generator makes of a gate -/

/-- The generator's history is that of some gates: it holds their scopes and the values that it is to know,
and it has read an input for each of its own. -/
structure Garbler.Follows (s : Garbler) (past : List Gate) : Prop where
  scopes : s.past.map Wire.scope = past.map Gate.scope
  bits : ∀ w ∈ s.past, w.bit.isSome = w.scope.generator
  inputsUsed : s.inputsUsed = past.countP Gate.isGeneratorInput

/-- From an operation of gate `g` in the state `s`, a wire and as many rows as stated have come. -/
structure Garbler.Makes (g : Gate) (count : Nat) (s : Garbler) (w : Wire) (rows : BitView)
    (s' : Garbler) : Prop where
  scope : w.scope = g.scope
  bit : w.bit.isSome = g.scope.generator
  isRows : rows.IsRows count
  past : s'.past = s.past
  inputsUsed : s'.inputsUsed = s.inputsUsed + g.isGeneratorInput.toNat

namespace Garbler

variable {setup : GarblingSetup} {index : Nat} {s : Garbler} {g : Gate}

theorem Follows.length_eq {past : List Gate} (h : s.Follows past) : s.past.length = past.length := by
  simpa using congrArg List.length h.scopes

theorem follows_initial : initial.Follows [] := ⟨rfl, by simp [initial], rfl⟩

theorem exists_knownBit (place : Tweak) {scope : Scope} {found : Option Bool}
    (h : scope.generator = true → found.isSome = true) :
    ∃ bit, knownBit place scope found = .ok bit ∧ bit.isSome = scope.generator := by
  cases hscope : scope.generator with
  | false => exact ⟨none, by simp [knownBit, hscope], rfl⟩
  | true =>
    obtain ⟨b, hb⟩ := Option.isSome_iff_exists.mp (h hscope)
    exact ⟨some b, by simp [knownBit, hscope, hb], rfl⟩

theorem isSome_bind_map {x y : Option Bool} (f : Bool → Bool → Bool) (hx : x.isSome = true)
    (hy : y.isSome = true) : (x.bind fun a => y.map (f a)).isSome = true := by
  obtain ⟨a, rfl⟩ := Option.isSome_iff_exists.mp hx
  obtain ⟨b, rfl⟩ := Option.isSome_iff_exists.mp hy
  rfl

/-- A gate that is no source reads no input. -/
theorem makes_of_sameDraws {count : Nat} {w : Wire} {rows : BitView} {s' : Garbler}
    (hsource : g.kind.isSource = false) (hscope : w.scope = g.scope)
    (hbit : w.bit.isSome = g.scope.generator) (hrows : rows.IsRows count) (hdraws : SameDraws s s') :
    Makes g count s w rows s' := by
  refine ⟨hscope, hbit, hrows, hdraws.past, ?_⟩
  rw [(Gate.of_isSource_eq_false hsource).1]
  exact hdraws.inputsUsed

theorem exists_input (hkind : g.kind = .input)
    (hinput : g.isGeneratorInput = true → s.inputsUsed < setup.inputs.length) :
    ∃ w s', s.input setup g.scope = .ok (w, s') ∧ Makes g 0 s w .empty s' := by
  cases hscope : g.scope.generator with
  | true =>
    have hown : g.isGeneratorInput = true := g.isGeneratorInput_iff.mpr ⟨hkind, hscope⟩
    have hbound : s.inputsUsed < setup.inputs.length := hinput hown
    refine ⟨publicWire setup g.scope setup.inputs[s.inputsUsed],
      { s with inputsUsed := s.inputsUsed + 1 }, ?_, rfl, ?_, BitView.isRows_empty, rfl, ?_⟩
    · rw [input, if_pos hscope, List.getElem?_eq_getElem hbound]
    · rw [hscope]
      rfl
    · rw [hown]
      rfl
  | false =>
    have hown : g.isGeneratorInput = false := by simp [Gate.isGeneratorInput, hscope]
    refine ⟨⟨(s.drawLabel setup).1, none, g.scope⟩, (s.drawLabel setup).2, ?_, rfl, ?_,
      BitView.isRows_empty, rfl, ?_⟩
    · rw [input, if_neg (by simp [hscope])]
    · rw [hscope]
      rfl
    · rw [hown]
      rfl

theorem makes_random (setup : GarblingSetup) (s : Garbler) (hkind : g.kind = .random) :
    Makes g 0 s (s.random setup g.scope).1 .empty (s.random setup g.scope).2 := by
  have hown : g.isGeneratorInput = false := by
    rw [Gate.isGeneratorInput, hkind]
    rfl
  unfold random drawBit
  cases hscope : g.scope.generator with
  | false => exact ⟨rfl, hscope.symm, BitView.isRows_empty, rfl, by rw [hown]; rfl⟩
  | true =>
    cases s.pushed with
    | nil => exact ⟨rfl, hscope.symm, BitView.isRows_empty, rfl, by rw [hown]; rfl⟩
    | cons b rest => exact ⟨rfl, hscope.symm, BitView.isRows_empty, rfl, by rw [hown]; rfl⟩

section conjunctions

variable {p q n : Bool} {x y : Wire}

theorem exists_generatorHalf (δ : Delta) (place first second : Tweak)
    (h : (x.scope.generator || y.scope.generator) = true)
    (hx : x.bit.isSome = x.scope.generator) (hy : y.bit.isSome = y.scope.generator) :
    ∃ half, generatorHalf δ place first second p q n x y = .ok half := by
  unfold generatorHalf
  cases hscope : x.scope.generator with
  | true =>
    obtain ⟨b, hb⟩ := Option.isSome_iff_exists.mp (hx.trans hscope)
    simp only [if_true, hb]
    exact ⟨_, rfl⟩
  | false =>
    obtain ⟨b, hb⟩ := Option.isSome_iff_exists.mp (hy.trans (by simpa [hscope] using h))
    simp only [Bool.false_eq_true, if_false, hb]
    exact ⟨_, rfl⟩

theorem exists_split (g : Gate) (s : Garbler) (hx : x.bit.isSome = x.scope.generator) :
    ∃ w rows s', s.split setup index g p q n x y = .ok (w, rows, s') ∧
      w.bit = none ∧ w.scope = g.scope ∧ rows.IsRows 2 ∧ SameDraws s s' := by
  obtain ⟨upper, hupper⟩ := @exists_generatorHalf p false n x
    (publicWire setup .generatorOnly y.zero.select) setup.delta ⟨index, 3⟩ ⟨g.operandAt index 0, 0⟩
    ⟨index, 4⟩ (Bool.or_true _) hx rfl
  obtain ⟨lower, hlower⟩ : ∃ lower, lower = evaluatorHalf setup.delta ⟨index, 1⟩ p q false x
      ⟨y.zero ^^^ setup.delta.times y.zero.select, none, .evaluatorOnly⟩ := ⟨_, rfl⟩
  obtain ⟨rows, hconcat, hbits, haligned⟩ :=
    (BitView.isRows_ofBlock (upper.value setup.hash).row).exists_concat
      (BitView.isRows_ofBlock (lower.value setup.hash).row).aligned
  have hlength : rows.length = 128 * 2 := by
    rw [← BitView.length_toBits, hbits, List.length_append, BitView.length_toBits,
      BitView.length_toBits, BitView.length_ofBlock, BitView.length_ofBlock]
  rw [split_eq, hupper, ok_bind, ← hlower]
  dsimp only
  rw [hconcat]
  exact ⟨_, rows, _, rfl, rfl, rfl, ⟨haligned, hlength⟩, .of_hashing s _ _⟩

/-- A conjunction that both parties know is public. -/
theorem exists_conjunction_of_both (index : Nat) (s : Garbler) (hkind : g.kind = .conjunction p q n)
    (hscope : g.scope = .both) (hx : x.bit.isSome = true) (hy : y.bit.isSome = true) :
    ∃ w rows s', operation setup index g s (.conjunction p q n x y) = .ok (w, rows, s') ∧
      Makes g 0 s w rows s' := by
  obtain ⟨a, ha⟩ := Option.isSome_iff_exists.mp hx
  obtain ⟨b, hb⟩ := Option.isSome_iff_exists.mp hy
  refine ⟨publicWire setup g.scope (conjoin p q n a b), .empty, s, ?_,
    makes_of_sameDraws (by rw [hkind]; rfl) rfl ?_ BitView.isRows_empty (.refl s)⟩
  · rw [operation, hscope, ha, hb]
    rfl
  · rw [hscope]
    rfl

/-- Any other conjunction takes a row if somebody knows an operand, and two rows otherwise. -/
theorem exists_conjunction_of_not_both (index : Nat) (s : Garbler)
    (hkind : g.kind = .conjunction p q n) (hscope : (g.scope.generator && g.scope.evaluator) = false)
    (hx : x.bit.isSome = x.scope.generator) (hy : y.bit.isSome = y.scope.generator)
    (hknown : g.scope.generator = true → x.bit.isSome = true ∧ y.bit.isSome = true) :
    ∃ w rows s', operation setup index g s (.conjunction p q n x y) = .ok (w, rows, s') ∧
      Makes g ((Operation.conjunction p q n x.scope y.scope).rows g.scope) s w rows s' := by
  have hsource : g.kind.isSource = false := by
    rw [hkind]
    rfl
  obtain ⟨bit, hbit, hsome⟩ : ∃ bit, knownBit ⟨index, 0⟩ g.scope
      (x.bit.bind fun a => y.bit.map fun b => conjoin p q n a b) = .ok bit ∧
      bit.isSome = g.scope.generator :=
    exists_knownBit ⟨index, 0⟩ fun hg => isSome_bind_map (conjoin p q n) (hknown hg).1 (hknown hg).2
  rw [operation, hbit, ok_bind, Operation.rows_conjunction p q n hscope]
  dsimp only
  split
  · next value hevaluator =>
    rw [← hsome, hevaluator] at hscope
    cases hscope
  · split
    · next hgenerator =>
      obtain ⟨half, hhalf⟩ := exists_generatorHalf setup.delta ⟨index, 0⟩ ⟨g.operandAt index 0, 0⟩
        ⟨g.operandAt index 1, 0⟩ hgenerator hx hy
      rw [hhalf, ok_bind, perform_eq]
      exact ⟨_, _, _, rfl, makes_of_sameDraws hsource rfl hsome (BitView.isRows_ofBlock _)
        (.of_hashing s _ _)⟩
    · next hgenerator =>
      split
      · rw [perform_eq]
        exact ⟨_, _, _, rfl, makes_of_sameDraws hsource rfl hsome (BitView.isRows_ofBlock _)
          (.of_hashing s _ _)⟩
      · -- the generator does not know what it cannot derive
        obtain ⟨w, rows, s', hsplit, hw, hwscope, hrows, hdraws⟩ := exists_split g s hx
        have hunknown : g.scope.generator = false := by
          cases hg : g.scope.generator with
          | false => rfl
          | true =>
            rw [← hx, (hknown hg).1] at hgenerator
            exact absurd rfl hgenerator
        refine ⟨w, rows, s', hsplit, makes_of_sameDraws hsource hwscope ?_ hrows hdraws⟩
        rw [hw, hunknown]
        rfl

end conjunctions

/-- An operation is garbled if the generator knows the operands of what it is to know, and has an input
left for an input of its own. -/
theorem exists_operation (index : Nat) {op : Operation Wire} (hop : op.kind = g.kind)
    (hbits : ∀ w ∈ op.operands, w.bit.isSome = w.scope.generator)
    (hconstant : g.kind.isConstant = true → g.scope = .both)
    (hknown : g.scope.generator = true → ∀ w ∈ op.operands, w.bit.isSome = true)
    (hinput : g.isGeneratorInput = true → s.inputsUsed < setup.inputs.length) :
    ∃ w rows s', operation setup index g s op = .ok (w, rows, s') ∧
      Makes g ((op.map Wire.scope).rows g.scope) s w rows s' := by
  cases op with
  | input =>
    obtain ⟨w, s', hwire, hmakes⟩ := exists_input hop.symm hinput
    refine ⟨w, .empty, s', ?_, hmakes⟩
    rw [operation, hwire, ok_bind]
  | random => exact ⟨_, _, _, rfl, makes_random setup s hop.symm⟩
  | constant value =>
    have hscope : g.scope = .both := hconstant (by rw [← hop]; rfl)
    refine ⟨_, _, _, rfl, makes_of_sameDraws (by rw [← hop]; rfl) rfl ?_ BitView.isRows_empty (.refl s)⟩
    rw [hscope]
    rfl
  | unary n x =>
    obtain ⟨bit, hbit, hsome⟩ : ∃ bit, knownBit ⟨index, 0⟩ g.scope (x.bit.map (· ^^ n)) = .ok bit ∧
        bit.isSome = g.scope.generator := by
      refine exists_knownBit _ fun hscope => ?_
      rw [Option.isSome_map]
      exact hknown hscope x List.mem_cons_self
    refine ⟨⟨x.zero ^^^ setup.delta.times n, bit, g.scope⟩, .empty, s, ?_,
      makes_of_sameDraws (by rw [← hop]; rfl) rfl hsome BitView.isRows_empty (.refl s)⟩
    rw [operation, hbit, ok_bind]
  | linear n x y =>
    obtain ⟨bit, hbit, hsome⟩ : ∃ bit, knownBit ⟨index, 0⟩ g.scope
        (x.bit.bind fun a => y.bit.map fun b => (a ^^ b) ^^ n) = .ok bit ∧
        bit.isSome = g.scope.generator :=
      exists_knownBit _ fun hscope => isSome_bind_map (fun a b => (a ^^ b) ^^ n)
        (hknown hscope x (by simp [Operation.operands])) (hknown hscope y (by simp [Operation.operands]))
    refine ⟨⟨x.zero ^^^ y.zero ^^^ setup.delta.times n, bit, g.scope⟩, .empty, s, ?_,
      makes_of_sameDraws (by rw [← hop]; rfl) rfl hsome BitView.isRows_empty (.refl s)⟩
    rw [operation, hbit, ok_bind]
  | conjunction p q n x y =>
    have hx : x ∈ (Operation.conjunction p q n x y).operands := by simp [Operation.operands]
    have hy : y ∈ (Operation.conjunction p q n x y).operands := by simp [Operation.operands]
    by_cases hboth : g.scope = .both
    · have hscope : g.scope.generator = true := by
        rw [hboth]
        rfl
      have hrows : ((Operation.conjunction p q n x y).map Wire.scope).rows g.scope = 0 := by
        rw [hboth, Operation.rows_both]
      rw [hrows]
      exact exists_conjunction_of_both index s hop.symm hboth (hknown hscope x hx) (hknown hscope y hy)
    · exact exists_conjunction_of_not_both index s hop.symm (Scope.not_both_iff.mp hboth) (hbits x hx)
        (hbits y hy) fun hscope => ⟨hknown hscope x hx, hknown hscope y hy⟩

/-- A gate that is derivable from the gates of the history is garbled, and its payload is as long as the
gate demands. -/
theorem exists_step {past : List Gate} (hs : s.Follows past) (hfits : g.Fits past)
    (hderivable : g.Derivable past)
    (hinput : g.isGeneratorInput = true → s.inputsUsed < setup.inputs.length) :
    ∃ payload s', s.step setup g = .ok (payload, s') ∧ s'.Follows (g :: past) ∧
      payload.length = g.demand past := by
  obtain ⟨op, hop, hkind, hscopes, hmem⟩ := hfits.exists_operands hs.scopes
  have hbits : ∀ w ∈ op.operands, w.bit.isSome = w.scope.generator := fun w hw => hs.bits w (hmem w hw)
  have hknown : g.scope.generator = true → ∀ w ∈ op.operands, w.bit.isSome = true := by
    intro hscope w hw
    have hfound : w.scope ∈ g.op.operands.map (Gate.scopeBack past) :=
      Operation.operands_map_congr hscopes ▸ List.mem_map_of_mem hw
    obtain ⟨d, hd, hwscope⟩ := List.mem_map.mp hfound
    rw [hbits w hw, ← hwscope]
    exact hderivable hscope d hd
  obtain ⟨w, rows, s', hoperation, hmakes⟩ :=
    exists_operation s.past.length hkind hbits hfits.scope_of_constant hknown hinput
  obtain ⟨payload, hpublish, -, hpayload⟩ := exists_publish g.scope w hmakes.isRows
  refine ⟨payload, { s' with past := w :: s'.past }, ?_, ⟨?_, ?_, ?_⟩, ?_⟩
  · exact step_eq_ok.mpr ⟨op, w, rows, s', hop, hoperation, hpublish, rfl⟩
  · rw [List.map_cons, List.map_cons, hmakes.scope, hmakes.past, hs.scopes]
  · intro v hv
    rcases List.mem_cons.mp hv with rfl | hv
    · rw [hmakes.bit, hmakes.scope]
    · exact hs.bits v (hmakes.past ▸ hv)
  · rw [List.countP_cons, ← hs.inputsUsed]
    cases hown : g.isGeneratorInput <;> simp [hmakes.inputsUsed, hown]
  · rw [← BitView.length_toBits, hpayload, List.length_append, BitView.length_toBits,
      hmakes.isRows.length, hscopes, Gate.demand, Gate.rows]
    cases g.scope.evaluator <;> rfl

/-- Gates are garbled from where those before them have left the generator. -/
theorem steps_append {s s' : Garbler} {front : List Gate} {payloads : List BitView}
    (h : s.steps setup front = .ok (payloads, s')) (back : List Gate) :
    s.steps setup (front ++ back) = (do
      let (rest, final) ← s'.steps setup back
      .ok (payloads ++ rest, final)) := by
  induction front generalizing s payloads with
  | nil =>
    cases h
    show s'.steps setup back = _
    cases s'.steps setup back <;> rfl
  | cons g front ih =>
    obtain ⟨⟨payload, s₁⟩, hstep, h⟩ := bind_eq_ok.mp h
    obtain ⟨⟨payloads₁, s₂⟩, hsteps, h⟩ := bind_eq_ok.mp h
    cases h
    rw [List.cons_append, steps, hstep, ok_bind]
    dsimp only
    rw [ih hsteps]
    cases s'.steps setup back <;> rfl

end Garbler

namespace Program

/-- Every gate is derivable from those before it. -/
def Derivable (p : Program) : Prop :=
  Throughout Gate.Derivable p.gates.reverse

/-- Whether there is a gate at a position that the generator is to know, but cannot derive. -/
def underivable (p : Program) (i : Nat) : Bool :=
  p.gates[i]?.any (Gate.underivable (p.before i))

theorem derivable_of_underivable {p : Program} {i : Nat} {g : Gate} (hg : p.gates[i]? = some g)
    (h : p.underivable i = false) : g.Derivable (p.before i) := by
  rw [underivable, hg] at h
  exact Gate.underivable_eq_false_iff.mp h

theorem derivable_iff {p : Program} : p.Derivable ↔ ∀ i, p.underivable i = false := by
  rw [Derivable, throughout_iff]
  refine ⟨fun h i => ?_, fun h i g hg => derivable_of_underivable hg (h i)⟩
  cases hg : p.gates[i]? with
  | none => rw [underivable, hg, Option.any_none]
  | some g =>
    rw [underivable, hg, Option.any_some]
    exact Gate.underivable_eq_false_iff.mpr (h i g hg)

variable {p : Program} {setup : GarblingSetup}

/-- The gates before a position are garbled if all of them are derivable. -/
theorem WellFormed.exists_steps (hp : p.WellFormed) (hown : setup.inputs.length = p.generatorInputCount)
    {i : Nat} (hi : i ≤ p.length) (h : ∀ k < i, p.underivable k = false) :
    ∃ payloads s, Garbler.initial.steps setup (p.gates.take i) = .ok (payloads, s) ∧
      s.Follows (p.before i) := by
  induction i with
  | zero => exact ⟨[], .initial, rfl, Garbler.follows_initial⟩
  | succ i ih =>
    obtain ⟨payloads, s, hsteps, hs⟩ := ih (Nat.le_of_succ_le hi) fun k hk => h k (Nat.lt_succ_of_lt hk)
    obtain ⟨g, hg⟩ : ∃ g, p.gates[i]? = some g := ⟨_, List.getElem?_eq_getElem hi⟩
    have hinput : g.isGeneratorInput = true → s.inputsUsed < setup.inputs.length := by
      intro hmine
      rw [hs.inputsUsed, hown, generatorInputCount]
      exact countP_before_lt hg hmine
    obtain ⟨payload, s', hstep, hs', -⟩ := Garbler.exists_step hs (throughout_iff.mp hp.gates i g hg)
      (derivable_of_underivable hg (h i (Nat.lt_succ_self i))) hinput
    refine ⟨payloads ++ [payload], s', ?_, ?_⟩
    · rw [List.take_add_one, hg, Option.toList_some, Garbler.steps_append hsteps, Garbler.steps, hstep]
      rfl
    · rw [before_succ hg]
      exact hs'

/-- A derivable program is garbled if there is an input for each input of the generator. -/
theorem WellFormed.exists_garbling (hp : p.WellFormed) (hderivable : p.Derivable)
    (hrandom : ∀ g ∈ p.gates, g.kind = .random → g.scope.generator = true)
    (hown : setup.inputs.length = p.generatorInputCount) {given : List Bool}
    (hgiven : given.length = p.inputIndices.length) :
    ∃ g wires, p.garble setup = .ok g ∧ g.Covers p setup given wires := by
  obtain ⟨tables, final, hsteps, -⟩ := hp.exists_steps hown (Nat.le_refl p.length)
    fun k _ => derivable_iff.mp hderivable k
  rw [length, List.take_length] at hsteps
  exact hp.exists_covers_of_steps hrandom hown hsteps hgiven

end Program

/-! ### Simplification keeps gates derivable -/

theorem Gate.derivable_widened {past : List Gate} {op : Operation Nat} {scope : Scope}
    (h : scope.generator = true → ∀ d ∈ op.operands, (scopeBack past d).generator = true) :
    (widened past op scope).Derivable past := by
  intro hscope d hd
  rcases Bool.or_eq_true_iff.mp hscope with hasked | hfloor
  · exact h hasked d hd
  · -- nobody is in the floor but those who know all operands
    have hknows : (Gate.floor past op).knows .generator = true := hfloor
    exact (Gate.knows_floor.mp hknows).2 d hd

/-- What an operand slides to is known to the generator if the operand is. -/
theorem Rewriting.derivable_rewritten {past : List Gate} (h : Throughout Gate.Derivable past) :
    Throughout Gate.Derivable (rewritten past) := by
  induction past with
  | nil => trivial
  | cons g past ih =>
    refine ⟨Gate.derivable_widened fun hscope => operands_rewriteOp fun d hd => ?_, ih h.2⟩
    have hknows : (Gate.scopeBack past d).knows .generator = true := h.1 hscope d hd
    exact knows_slide (Scope.contains_iff.mp (contains_scopeBack_rewritten past d) _ hknows)

/-- Live gates are as derivable as before. -/
theorem Liveness.derivable_kept {gates : List Gate} {mask : List Bool}
    (h : Throughout Gate.Derivable gates) (hclosed : Closed gates mask) :
    Throughout Gate.Derivable (kept gates mask) := by
  refine throughout_kept (fun gates mask g hlive _ hg hscope d hd => ?_) h hclosed
  rw [close, Operation.operands_map] at hd
  obtain ⟨e, he, rfl⟩ := List.mem_map.mp hd
  rw [scopeBack_kept (hlive e he)]
  exact hg hscope e he

theorem Program.WellFormed.derivable_live_simplifyGates {p : Program} (hp : p.WellFormed)
    (h : p.Derivable) : p.simplifyGates.live.Derivable := by
  have hrewritten : Throughout Gate.Derivable p.simplifyGates.gates.reverse := by
    rw [reverse_simplifyGates]
    exact Rewriting.derivable_rewritten h
  rw [Derivable, Program.live, List.reverse_reverse]
  exact Liveness.derivable_kept hrewritten (Liveness.closed_mask hp.simplifyGates.gates _)

/-! ### Programs of parity systems -/

namespace Lowering

theorem operands_inputGate (options : LoweringOptions) (v : Nat) :
    (inputGate options v).op.operands = [] := by
  unfold inputGate
  split <;> rfl

theorem derivable_inputHistory (options : LoweringOptions) (count : Nat) :
    Throughout Gate.Derivable (inputHistory options count) := by
  induction count with
  | zero => trivial
  | succ count ih =>
    rw [inputHistory_succ]
    refine ⟨fun _ d hd => ?_, ih⟩
    rw [operands_inputGate] at hd
    cases hd

end Lowering

/-- If the generator is to know no defined variable, then it knows a gate only if it knows the operands. -/
theorem Lowered.derivable {s : ParitySystem} {options : LoweringOptions} {l : Lowering}
    (h : Lowered s options l)
    (hscope : ∀ v, s.inputs ≤ v → v < s.length → (options.scope v).generator = false) :
    l.program.Derivable := by
  refine h.grown.throughout (fun past op requested _ _ hallowed => ?_)
    (Lowering.derivable_inputHistory options s.inputs)
  refine Gate.derivable_widened fun hrequested d hd => ?_
  rcases hallowed with hconstant | ⟨v, hfirst, hlast, rfl⟩
  · cases op <;> simp [Operation.kind, GateKind.isConstant, Operation.operands] at hconstant hd
  · rw [hscope v hfirst hlast] at hrequested
    cases hrequested

end HalfGates
