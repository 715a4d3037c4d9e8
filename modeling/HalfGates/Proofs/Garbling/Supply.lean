import HalfGates.Proofs.Garbling.Economy

/-!
# What the generator draws

Random bits come from a stream in front of which bits are pushed back, and conjunctions that are split push
back a bit of their own. Since such a bit is drawn by the operation that pushed it, the stream is left as it
was, and the sources of a program read their inputs, bits and labels as if nothing stood between them.

## Main definitions

- `Gate.drawsBit`, `Gate.drawsLabel`: the gates that are declared to read a random bit or a label
- `Garbler.Draws`: one gate draws what it declares
- `Garbler.DrawsAlong`: gates in order do
- `Garbler.draws_operation`, `Garbler.draws_step`, `Garbler.exists_drawsAlong`: so does the generator
- `Garbler.DrawsAlong.supplies`: the gates that read a supply get its entries in order
- `Program.draws_declared`: the sources of a garbled program
-/

namespace HalfGates

/-- Whether the gate reads a bit of the random stream: the generator knows it, and it is no input. -/
def Gate.drawsBit (g : Gate) : Bool :=
  g.kind == .random && g.scope.generator

/-- Whether the gate reads a label of the label stream: it is a source that the generator does not know. -/
def Gate.drawsLabel (g : Gate) : Bool :=
  g.kind.isSource && !g.scope.generator

/-- The wire has the given value, which the generator knows, and the evaluator's label of it is zero. -/
structure Wire.Carries (δ : Delta) (w : Wire) (bit : Bool) : Prop where
  known : w.bit = some bit
  zero : w.zero = δ.times bit

namespace Garbler

variable {setup : GarblingSetup} {index : Nat} {s s' : Garbler} {w : Wire} {rows : BitView} {g : Gate}

theorem carries_publicWire (setup : GarblingSetup) (scope : Scope) (bit : Bool) :
    (publicWire setup scope bit).Carries setup.delta bit :=
  ⟨rfl, rfl⟩

/-- From gate `g` in the state `s`, the wire `w` has come. What was read is what the gate declares, and no bit
is left in front of the random stream. -/
structure Draws (setup : GarblingSetup) (g : Gate) (s : Garbler) (w : Wire) (s' : Garbler) : Prop where
  pushed : s'.pushed = []
  inputsUsed : s'.inputsUsed = s.inputsUsed + g.isGeneratorInput.toNat
  randomUsed : s'.randomUsed = s.randomUsed + g.drawsBit.toNat
  labelsUsed : s'.labelsUsed = s.labelsUsed + g.drawsLabel.toNat
  input : g.isGeneratorInput = true →
    ∃ bit, setup.inputs[s.inputsUsed]? = some bit ∧ w.Carries setup.delta bit
  bit : g.drawsBit = true → w.Carries setup.delta (setup.randomBits s.randomUsed)
  label : g.drawsLabel = true → w.zero = setup.labels s.labelsUsed ∧ w.bit = none

/-! ### One gate -/

/-- A gate that is no source reads nothing. -/
theorem draws_of_sameDraws (hsource : g.kind.isSource = false) (hpushed : s.pushed = [])
    (h : SameDraws s s') : Draws setup g s w s' := by
  have hinput : g.isGeneratorInput = false := (Gate.of_isSource_eq_false hsource).1
  have hlabel : g.drawsLabel = false := by rw [Gate.drawsLabel, hsource, Bool.false_and]
  have hbit : g.drawsBit = false := by
    cases hkind : g.kind <;> simp [Gate.drawsBit, hkind, GateKind.isSource] at hsource ⊢
  exact ⟨h.pushed.trans hpushed, by simp [hinput, h.inputsUsed], by simp [hbit, h.randomUsed],
    by simp [hlabel, h.labelsUsed], by simp [hinput], by simp [hbit], by simp [hlabel]⟩

/-- A source that the generator does not know reads a label. -/
theorem draws_label (hsource : g.kind.isSource = true) (hscope : g.scope.generator = false)
    (hpushed : s.pushed = []) :
    Draws setup g s ⟨(s.drawLabel setup).1, none, g.scope⟩ (s.drawLabel setup).2 := by
  have hinput : g.isGeneratorInput = false := by rw [Gate.isGeneratorInput, hscope, Bool.and_false]
  have hbit : g.drawsBit = false := by rw [Gate.drawsBit, hscope, Bool.and_false]
  have hlabel : g.drawsLabel = true := by rw [Gate.drawsLabel, hsource, hscope]; rfl
  exact ⟨hpushed, by simp [hinput, drawLabel], by simp [hbit, drawLabel], by simp [hlabel, drawLabel],
    by simp [hinput], by simp [hbit], fun _ => ⟨rfl, rfl⟩⟩

theorem draws_input (hkind : g.kind = .input) (hpushed : s.pushed = [])
    (h : s.input setup g.scope = .ok (w, s')) : Draws setup g s w s' := by
  have hbit : g.drawsBit = false := by rw [Gate.drawsBit, hkind]; rfl
  cases hscope : g.scope.generator with
  | false =>
    rw [input, if_neg (by rw [hscope]; decide)] at h
    cases h
    exact draws_label (by rw [hkind]; rfl) hscope hpushed
  | true =>
    have hinput : g.isGeneratorInput = true := g.isGeneratorInput_iff.mpr ⟨hkind, hscope⟩
    have hlabel : g.drawsLabel = false := by rw [Gate.drawsLabel, hscope, Bool.not_true, Bool.and_false]
    rw [input, if_pos hscope] at h
    split at h
    · next bit hnext =>
      cases h
      exact ⟨hpushed, by simp [hinput], by simp [hbit], by simp [hlabel],
        fun _ => ⟨bit, hnext, carries_publicWire setup g.scope bit⟩, by simp [hbit], by simp [hlabel]⟩
    · cases h

theorem draws_random (setup : GarblingSetup) (hkind : g.kind = .random) (hpushed : s.pushed = []) :
    Draws setup g s (s.random setup g.scope).1 (s.random setup g.scope).2 := by
  have hinput : g.isGeneratorInput = false := by rw [Gate.isGeneratorInput, hkind]; rfl
  cases hscope : g.scope.generator with
  | false =>
    rw [random, if_neg (by rw [hscope]; decide)]
    exact draws_label (by rw [hkind]; rfl) hscope hpushed
  | true =>
    have hbit : g.drawsBit = true := by rw [Gate.drawsBit, hkind, hscope]; rfl
    have hlabel : g.drawsLabel = false := by rw [Gate.drawsLabel, hscope, Bool.not_true, Bool.and_false]
    have hdraw : s.random setup g.scope = (publicWire setup g.scope (setup.randomBits s.randomUsed),
        { s with randomUsed := s.randomUsed + 1 }) := by
      rw [random, if_pos hscope, drawBit, hpushed]
    rw [hdraw]
    exact ⟨hpushed, by simp [hinput], by simp [hbit], by simp [hlabel], by simp [hinput],
      fun _ => carries_publicWire setup g.scope _, by simp [hlabel]⟩

/-- An operation draws what its gate declares. -/
theorem draws_operation {op : Operation Wire} (hop : op.kind = g.kind) (hpushed : s.pushed = [])
    (h : s.operation setup index g op = .ok (w, rows, s')) : Draws setup g s w s' := by
  cases op with
  | input =>
    obtain ⟨⟨wire, state⟩, hinput, h⟩ := bind_eq_ok.mp h
    cases h
    exact draws_input hop.symm hpushed hinput
  | random =>
    cases h
    exact draws_random setup hop.symm hpushed
  | constant value =>
    cases h
    exact draws_of_sameDraws (by rw [← hop]; rfl) hpushed (.refl s)
  | unary n x =>
    obtain ⟨bit, -, h⟩ := bind_eq_ok.mp h
    cases h
    exact draws_of_sameDraws (by rw [← hop]; rfl) hpushed (.refl s)
  | linear n x y =>
    obtain ⟨bit, -, h⟩ := bind_eq_ok.mp h
    cases h
    exact draws_of_sameDraws (by rw [← hop]; rfl) hpushed (.refl s)
  | conjunction p q n x y =>
    exact draws_of_sameDraws (by rw [← hop]; rfl) hpushed (costs_conjunction h).2

/-- A gate draws what it declares. -/
theorem draws_step {payload : BitView} (hpushed : s.pushed = [])
    (h : s.step setup g = .ok (payload, s')) : ∃ w, s'.past = w :: s.past ∧ Draws setup g s w s' := by
  obtain ⟨op, wire, rows, state, hop, hoperation, -, rfl⟩ := step_eq_ok.mp h
  have hdraws := draws_operation (Operation.kind_of_mapM? hop) hpushed hoperation
  refine ⟨wire, ?_, ?_⟩
  · rw [(costs_operation hoperation).past]
  · -- the history does not matter for what is drawn
    exact ⟨hdraws.pushed, hdraws.inputsUsed, hdraws.randomUsed, hdraws.labelsUsed, hdraws.input,
      hdraws.bit, hdraws.label⟩

/-! ### Gates in order -/

/-- From gates in order the given wires have come, each drawn in the state that the ones before it left. -/
inductive DrawsAlong (setup : GarblingSetup) : Garbler → List Gate → List Wire → Garbler → Prop
  | nil (s : Garbler) : DrawsAlong setup s [] [] s
  | cons {s s₁ s' : Garbler} {g : Gate} {gates : List Gate} {w : Wire} {wires : List Wire}
      (hgate : Draws setup g s w s₁) (hrest : DrawsAlong setup s₁ gates wires s') :
      DrawsAlong setup s (g :: gates) (w :: wires) s'

/-- The generator draws along the gates that it garbles. -/
theorem exists_drawsAlong {gates : List Gate} {payloads : List BitView} (hpushed : s.pushed = [])
    (h : s.steps setup gates = .ok (payloads, s')) :
    ∃ wires, DrawsAlong setup s gates wires s' ∧ s'.past = wires.reverse ++ s.past := by
  induction gates generalizing s payloads with
  | nil =>
    cases h
    exact ⟨[], .nil _, rfl⟩
  | cons g gates ih =>
    obtain ⟨⟨payload, s₁⟩, hstep, h⟩ := bind_eq_ok.mp h
    obtain ⟨⟨rest, final⟩, hsteps, h⟩ := bind_eq_ok.mp h
    cases h
    obtain ⟨w, hpast, hdraws⟩ := draws_step hpushed hstep
    obtain ⟨wires, halong, hall⟩ := ih hdraws.pushed hsteps
    refine ⟨w :: wires, .cons hdraws halong, ?_⟩
    rw [hall, hpast, List.reverse_cons, List.append_assoc]
    rfl

namespace DrawsAlong

variable {gates : List Gate} {wires : List Wire}

theorem length_eq (h : DrawsAlong setup s gates wires s') : wires.length = gates.length := by
  induction h with
  | nil => rfl
  | cons _ _ ih => rw [List.length_cons, List.length_cons, ih]

theorem pushed_eq (h : DrawsAlong setup s gates wires s') (hpushed : s.pushed = []) : s'.pushed = [] := by
  induction h with
  | nil => exact hpushed
  | cons hgate _ ih => exact ih hgate.pushed

/-- If every gate that passes a test takes the next entry of a supply, and no other gate takes one, then the
gates that pass the test take the entries one after the other. -/
theorem supplies {test : Gate → Bool} {used : Garbler → Nat} {takes : Nat → Wire → Prop}
    (hstep : ∀ {g s w s'}, Draws setup g s w s' → used s' = used s + (test g).toNat ∧
      (test g = true → takes (used s) w))
    (h : DrawsAlong setup s gates wires s') :
    used s' = used s + gates.countP test ∧
      ∀ k w, (keep (gates.map test) wires)[k]? = some w → takes (used s + k) w := by
  induction h with
  | nil => exact ⟨rfl, fun k w hw => by cases hw⟩
  | @cons s s₁ s' g gates w wires hgate _ ih =>
    obtain ⟨hused, htakes⟩ := hstep hgate
    obtain ⟨hcount, hrest⟩ := ih
    cases hg : test g with
    | false =>
      rw [hg, Bool.toNat_false, Nat.add_zero] at hused
      rw [List.map_cons, hg, keep_cons_false, List.countP_cons_of_neg (by rw [hg]; decide), ← hused]
      exact ⟨hcount, hrest⟩
    | true =>
      rw [hg, Bool.toNat_true] at hused
      rw [List.map_cons, hg, keep_cons_true, List.countP_cons_of_pos hg]
      refine ⟨by rw [hcount, hused, Nat.add_assoc, Nat.add_comm 1], fun k v hv => ?_⟩
      cases k with
      | zero =>
        obtain rfl : w = v := Option.some.inj hv
        exact htakes hg
      | succ k =>
        have hnext := hrest k v hv
        rwa [hused, Nat.add_assoc, Nat.add_comm 1] at hnext

end DrawsAlong

/-- If gates in order are garbled, so are those in front. -/
theorem exists_steps_of_append {front back : List Gate} {payloads : List BitView}
    (h : s.steps setup (front ++ back) = .ok (payloads, s')) :
    ∃ sent s₁ rest, s.steps setup front = .ok (sent, s₁) ∧ s₁.steps setup back = .ok (rest, s') := by
  induction front generalizing s payloads with
  | nil => exact ⟨[], s, payloads, rfl, h⟩
  | cons g front ih =>
    obtain ⟨⟨payload, s₁⟩, hstep, h⟩ := bind_eq_ok.mp h
    obtain ⟨⟨others, final⟩, hsteps, h⟩ := bind_eq_ok.mp h
    cases h
    obtain ⟨sent, s₂, rest, hfront, hback⟩ := ih hsteps
    refine ⟨payload :: sent, s₂, rest, ?_, hback⟩
    rw [steps, hstep, ok_bind]
    dsimp only
    rw [hfront]
    rfl

end Garbler

namespace Program

variable {p : Program} {setup : GarblingSetup} {g : Garbling}

/-- The gates of a program that pass a test take the entries of a supply one after the other. -/
theorem supplies_of_garble (h : p.garble setup = .ok g) (test : Gate → Bool) {used : Garbler → Nat}
    (takes : Nat → Wire → Prop) (hinitial : used .initial = 0)
    (hstep : ∀ {gate s w s'}, Garbler.Draws setup gate s w s' →
      used s' = used s + (test gate).toNat ∧ (test gate = true → takes (used s) w)) :
    used g.final = p.gates.countP test ∧
      ∀ k i : Nat, (p.positions test)[k]? = some i →
        ∃ w, g.final.past.reverse[i]? = some w ∧ takes k w := by
  obtain ⟨wires, halong, hpast⟩ := Garbler.exists_drawsAlong rfl (of_garble h).2.1
  have hwires : g.final.past.reverse = wires := by
    rw [hpast, List.reverse_append, List.reverse_reverse]
    rfl
  obtain ⟨hcount, htakes⟩ := halong.supplies hstep
  rw [hinitial, Nat.zero_add] at hcount
  refine ⟨hcount, fun k i hi => ?_⟩
  have hlocates := p.locates_positions test halong.length_eq
  obtain ⟨w, hw⟩ : ∃ w, (keep (p.gates.map test) wires)[k]? = some w := by
    have hlt : k < (p.positions test).length := (List.getElem?_eq_some_iff.mp hi).1
    exact ⟨_, List.getElem?_eq_getElem (hlocates.length_eq ▸ hlt)⟩
  have htaken := htakes k w hw
  rw [hinitial, Nat.zero_add] at htaken
  refine ⟨w, ?_, htaken⟩
  rw [hwires, hlocates.getElem?_eq hi, hw]

/-- Garbling draws what the program declares. Random gates that the generator knows carry the bits of the random
stream in order, however many conjunctions are split before them; sources that the generator does not know have
the labels of the label stream in order; and the generator's inputs are read in order, all of them. Nothing else
is read. Between two gates no bit stands in front of the random stream. -/
theorem draws_declared (h : p.garble setup = .ok g) :
    ((∀ k i : Nat, (p.positions Gate.drawsBit)[k]? = some i →
        ∃ w, g.final.past.reverse[i]? = some w ∧ w.bit = some (setup.randomBits k) ∧
          w.zero = setup.delta.times (setup.randomBits k)) ∧
      g.final.randomUsed = p.gates.countP Gate.drawsBit) ∧
    ((∀ k i : Nat, (p.positions Gate.drawsLabel)[k]? = some i →
        ∃ w, g.final.past.reverse[i]? = some w ∧ w.zero = setup.labels k ∧ w.bit = none) ∧
      g.final.labelsUsed = p.gates.countP Gate.drawsLabel) ∧
    ((∀ k i : Nat, (p.positions Gate.isGeneratorInput)[k]? = some i →
        ∃ w bit, g.final.past.reverse[i]? = some w ∧ setup.inputs[k]? = some bit ∧ w.bit = some bit ∧
          w.zero = setup.delta.times bit) ∧
      g.final.inputsUsed = setup.inputs.length) ∧
    ∀ (i : Nat) (gate : Gate), p.gates[i]? = some gate →
      ∃ sent payload s s', Garbler.initial.steps setup (p.gates.take i) = .ok (sent, s) ∧
        s.step setup gate = .ok (payload, s') ∧ s.pushed = [] ∧ s'.pushed = [] ∧
        s'.randomUsed = s.randomUsed + gate.drawsBit.toNat ∧
        s'.labelsUsed = s.labelsUsed + gate.drawsLabel.toNat ∧
        s'.inputsUsed = s.inputsUsed + gate.isGeneratorInput.toNat := by
  obtain ⟨hrandomUsed, hrandom⟩ := supplies_of_garble h Gate.drawsBit
    (fun k w => w.Carries setup.delta (setup.randomBits k)) rfl
    fun hdraws => ⟨hdraws.randomUsed, hdraws.bit⟩
  obtain ⟨hlabelsUsed, hlabels⟩ := supplies_of_garble h Gate.drawsLabel
    (fun k w => w.zero = setup.labels k ∧ w.bit = none) rfl
    fun hdraws => ⟨hdraws.labelsUsed, hdraws.label⟩
  obtain ⟨hinputsUsed, hinputs⟩ := supplies_of_garble h Gate.isGeneratorInput
    (fun k w => ∃ bit, setup.inputs[k]? = some bit ∧ w.Carries setup.delta bit) rfl
    fun hdraws => ⟨hdraws.inputsUsed, hdraws.input⟩
  obtain ⟨hown, hsteps, -⟩ := of_garble h
  refine ⟨⟨fun k i hi => ?_, hrandomUsed⟩, ⟨hlabels, hlabelsUsed⟩, ⟨fun k i hi => ?_, ?_⟩,
    fun i gate hgate => ?_⟩
  · obtain ⟨w, hw, hcarries⟩ := hrandom k i hi
    exact ⟨w, hw, hcarries.known, hcarries.zero⟩
  · obtain ⟨w, hw, bit, hbit, hcarries⟩ := hinputs k i hi
    exact ⟨w, bit, hw, hbit, hcarries.known, hcarries.zero⟩
  · rw [hinputsUsed, hown, generatorInputCount]
  · rw [← take_append_cons_drop hgate] at hsteps
    obtain ⟨sent, s, rest, hfront, hback⟩ := Garbler.exists_steps_of_append hsteps
    obtain ⟨⟨payload, s'⟩, hstep, -⟩ := bind_eq_ok.mp hback
    obtain ⟨wires, halong, -⟩ := Garbler.exists_drawsAlong rfl hfront
    have hpushed : s.pushed = [] := halong.pushed_eq rfl
    obtain ⟨w, -, hdraws⟩ := Garbler.draws_step hpushed hstep
    exact ⟨sent, payload, s, s', hfront, hstep, hpushed, hdraws.pushed, hdraws.randomUsed,
      hdraws.labelsUsed, hdraws.inputsUsed⟩

theorem draws_declared_behind_splits :
    ∃ (p : Program) (setup : GarblingSetup) (g : Garbling), p.Buildable ∧ p.garble setup = .ok g ∧
      p.rowCount = 4 ∧ setup.randomBits 0 = false ∧ setup.randomBits 1 = true ∧
      (∃ w, g.final.past.reverse[6]? = some w ∧ w.bit = some true) ∧ g.final.randomUsed = 2 ∧
      (∃ w, g.final.past.reverse[4]? = some w ∧ w.zero = setup.labels 2) ∧ g.final.labelsUsed = 3 ∧
      g.final.inputsUsed = 1 := by
  obtain ⟨p, hp⟩ : ∃ p : Program, p = ⟨[⟨.input, .neither⟩, ⟨.random, .generatorOnly⟩,
      ⟨.input, .neither⟩, ⟨.conjunction false false false 3 1, .neither⟩, ⟨.random, .neither⟩,
      ⟨.conjunction true false true 1 2, .neither⟩, ⟨.random, .generatorOnly⟩,
      ⟨.input, .generatorOnly⟩], [5, 6]⟩ := ⟨_, rfl⟩
  have hbuildable : p.Buildable := by
    rw [hp]
    exact @Buildable.build [.add ⟨.input, .neither, []⟩, .add ⟨.random, .generatorOnly, []⟩,
      .add ⟨.input, .neither, []⟩, .add ⟨.conjunction false false false, .neither, [3, 1]⟩,
      .add ⟨.random, .neither, []⟩, .add ⟨.conjunction true false true, .neither, [1, 2]⟩,
      .add ⟨.random, .generatorOnly, []⟩, .add ⟨.input, .generatorOnly, []⟩, .outputs [5, 6]] _ rfl
  obtain ⟨setup, hsetup⟩ : ∃ setup : GarblingSetup, setup = ⟨Delta.ofSelected 5,
      fun key place => key + BitVec.ofNat 128 place.gate, [true], fun k => k == 1,
      fun k => BitVec.ofNat 128 (k + 1)⟩ := ⟨_, rfl⟩
  have hderivable : ∀ i, p.underivable i = false := by
    intro i
    rw [hp]
    match i with
    | 0 | 1 | 2 | 3 | 4 | 5 | 6 | 7 => rfl
    | i + 8 => rfl
  have hown : setup.inputs.length = p.generatorInputCount := by
    rw [hsetup, hp]
    rfl
  obtain ⟨g, hg⟩ := hbuildable.wellFormed.exists_garble hown hderivable
  obtain ⟨⟨hrandom, hrandomUsed⟩, ⟨hlabels, hlabelsUsed⟩, ⟨-, hinputsUsed⟩, -⟩ := draws_declared hg
  obtain ⟨w, hw, hbit, -⟩ := hrandom 1 6 (by rw [hp]; rfl)
  obtain ⟨v, hv, hzero, -⟩ := hlabels 2 4 (by rw [hp]; rfl)
  refine ⟨p, setup, g, hbuildable, hg, by rw [hp]; rfl, by rw [hsetup]; rfl, by rw [hsetup]; rfl,
    ⟨w, hw, ?_⟩, ?_, ⟨v, hv, hzero⟩, ?_, ?_⟩
  · rw [hbit, hsetup]
    rfl
  · rw [hrandomUsed, hp]
    rfl
  · rw [hlabelsUsed, hp]
    rfl
  · rw [hinputsUsed, hsetup]
    rfl

end Program

end HalfGates
