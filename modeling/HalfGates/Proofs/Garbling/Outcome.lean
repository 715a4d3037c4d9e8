import HalfGates.Proofs.Garbling.Derivable

/-!
# The outcome of garbling

Garbling a program that was built fails for one reason only: the generator is to know a gate without knowing
its operands. This shows in the scopes, so that the outcome is the same whatever the secrets are.

## Main definitions

- `Garbler.step_of_underivable`: a gate that is refused
- `Program.garble_outcome`: the first such gate is the one that the refusal names
-/

namespace HalfGates

namespace Garbler

variable {setup : GarblingSetup} {index : Nat} {s : Garbler}

theorem knownBit_none (place : Tweak) {scope : Scope} (h : scope.generator = true) :
    knownBit place scope none = .error (.underivableBit place.gate place.part) := by
  rw [knownBit, if_pos h]

/-- An operation that the generator is to know is refused if it does not know some operand. -/
theorem operation_of_unknown (index : Nat) (s : Garbler) {g : Gate} {op : Operation Wire} {w : Wire}
    (hscope : g.scope.generator = true) (hw : w ∈ op.operands) (hbit : w.bit = none) :
    operation setup index g s op = .error (.underivableBit index 0) := by
  have hpair : ∀ {x y : Wire} (f : Bool → Bool → Bool), w ∈ [x, y] →
      (x.bit.bind fun a => y.bit.map (f a)) = none := by
    intro x y f hmem
    rcases List.mem_cons.mp hmem with rfl | hmem
    · rw [hbit, Option.bind_none]
    · obtain rfl := List.mem_singleton.mp hmem
      cases x.bit <;> simp [hbit]
  cases op with
  | input => cases hw
  | random => cases hw
  | constant value => cases hw
  | unary n x =>
    obtain rfl := List.mem_singleton.mp hw
    rw [operation, hbit, Option.map_none, knownBit_none _ hscope]
    rfl
  | linear n x y =>
    rw [operation, hpair (fun a b => (a ^^ b) ^^ n) hw, knownBit_none _ hscope]
    rfl
  | conjunction p q n x y =>
    rw [operation, hpair (conjoin p q n) hw, knownBit_none _ hscope]
    rfl

theorem step_of_underivable {past : List Gate} {g : Gate} (hs : s.Follows past) (hfits : g.Fits past)
    (h : g.underivable past = true) : s.step setup g = .error (.underivableBit past.length 0) := by
  obtain ⟨hscope, hany⟩ := Bool.and_eq_true_iff.mp h
  obtain ⟨d, hd, hunknown⟩ := List.any_eq_true.mp hany
  obtain ⟨op, hop, -, hscopes, hmem⟩ := hfits.exists_operands hs.scopes
  -- the wire of the operand has the operand's scope, so there is no bit on it
  have hfound : Gate.scopeBack past d ∈ op.operands.map Wire.scope :=
    (Operation.operands_map_congr hscopes).symm ▸ List.mem_map_of_mem hd
  obtain ⟨w, hw, hwscope⟩ := List.mem_map.mp hfound
  have hbit : w.bit = none := by
    rw [← Option.not_isSome_iff_eq_none, hs.bits w (hmem w hw), hwscope]
    simpa using hunknown
  unfold step
  rw [hop]
  dsimp only
  rw [operation_of_unknown s.past.length s hscope hw hbit, hs.length_eq]
  rfl

theorem exists_zeroAt {wires : List Wire} {i : Nat} (h : i < wires.length) :
    ∃ zero, zeroAt wires i = .ok zero :=
  ⟨wires[i].zero, by rw [zeroAt, List.getElem?_eq_getElem h]⟩

end Garbler

namespace Program

variable {p : Program} {setup : GarblingSetup}

theorem WellFormed.exists_garble (hp : p.WellFormed) (hown : setup.inputs.length = p.generatorInputCount)
    (h : ∀ i, p.underivable i = false) : ∃ g, p.garble setup = .ok g := by
  obtain ⟨payloads, s, hsteps, hs⟩ := hp.exists_steps hown (Nat.le_refl p.length) fun k _ => h k
  rw [length, List.take_length] at hsteps
  have hlength : s.past.reverse.length = p.length := by
    rw [List.length_reverse, hs.length_eq, length_before (Nat.le_refl p.length)]
  obtain ⟨inputZeros, hinputs⟩ : ∃ zeros, p.inputIndices.mapM (Garbler.zeroAt s.past.reverse) = .ok zeros :=
    exists_mapM fun i hi =>
      Garbler.exists_zeroAt ((p.locates_positions Gate.isEvaluatorInput hlength).lt_length hi)
  obtain ⟨outputZeros, houtputs⟩ : ∃ zeros, p.outputs.mapM (Garbler.zeroAt s.past.reverse) = .ok zeros :=
    exists_mapM fun i hi => Garbler.exists_zeroAt (hlength.symm ▸ hp.outputs i hi)
  refine ⟨⟨payloads, ⟨setup.delta, inputZeros, outputZeros⟩, s⟩, ?_⟩
  rw [garble, if_pos hown, hsteps, ok_bind]
  dsimp only
  rw [hinputs, ok_bind, houtputs, ok_bind]

theorem WellFormed.garble_of_underivable (hp : p.WellFormed)
    (hown : setup.inputs.length = p.generatorInputCount) {i : Nat} (hi : p.underivable i = true)
    (hbefore : ∀ k < i, p.underivable k = false) : p.garble setup = .error (.underivableBit i 0) := by
  obtain ⟨g, hg, hunderivable⟩ := (Option.any_eq_true _ _).mp hi
  obtain ⟨hlt, -⟩ := List.getElem?_eq_some_iff.mp hg
  have hle : i ≤ p.length := Nat.le_of_lt hlt
  obtain ⟨payloads, s, hsteps, hs⟩ := hp.exists_steps hown hle hbefore
  have hstep : s.step setup g = .error (.underivableBit i 0) := by
    rw [Garbler.step_of_underivable hs (throughout_iff.mp hp.gates i g hg) hunderivable,
      length_before hle]
  rw [garble, if_pos hown, ← take_append_cons_drop hg, Garbler.steps_append hsteps, Garbler.steps, hstep]
  rfl

theorem WellFormed.garble_iff (hp : p.WellFormed) (hown : setup.inputs.length = p.generatorInputCount) :
    ((∃ g, p.garble setup = .ok g) ↔ ∀ i, p.underivable i = false) ∧
      ∀ e, p.garble setup = .error e ↔ ∃ i, e = .underivableBit i 0 ∧ p.underivable i = true ∧
        ∀ k < i, p.underivable k = false := by
  simp only [← Bool.not_eq_true]
  refine outcome_iff (fun h => ?_) fun i hi hbefore => ?_
  · exact hp.exists_garble hown fun i => Bool.not_eq_true _ ▸ h i
  · exact hp.garble_of_underivable hown hi fun k hk => Bool.not_eq_true _ ▸ hbefore k hk

/-- What comes of garbling a program that can be built, with as many inputs as the generator has: it succeeds
if the generator knows the operands of every gate that it is to know, and otherwise the first other gate is
reported. No other refusal occurs, and the secrets and streams have no say in it. -/
theorem garble_outcome (hp : p.Buildable) (setup : GarblingSetup)
    (hown : setup.inputs.length = p.generatorInputCount) :
    ((∃ g, p.garble setup = .ok g) ↔ ∀ i, p.underivable i = false) ∧
      (∀ e, p.garble setup = .error e ↔ ∃ i, e = .underivableBit i 0 ∧ p.underivable i = true ∧
        ∀ k < i, p.underivable k = false) ∧
      ∀ other : GarblingSetup, other.inputs.length = p.generatorInputCount →
        ((∃ g, p.garble other = .ok g) ↔ ∃ g, p.garble setup = .ok g) ∧
          ∀ e, p.garble other = .error e ↔ p.garble setup = .error e := by
  obtain ⟨hok, herror⟩ := hp.wellFormed.garble_iff hown
  refine ⟨hok, herror, fun other hother => ?_⟩
  obtain ⟨hok', herror'⟩ := hp.wellFormed.garble_iff hother
  refine ⟨hok'.trans hok.symm, fun e => ?_⟩
  rw [herror', herror]

theorem garble_outcome_two_faults :
    ∃ (p : Program) (setup other : GarblingSetup), p.Buildable ∧
      p.underivable 3 = true ∧ p.underivable 4 = true ∧
      p.garble setup = .error (.underivableBit 3 0) ∧ p.garble other = .error (.underivableBit 3 0) := by
  obtain ⟨p, hp⟩ : ∃ p : Program, p = ⟨[⟨.input, .generatorOnly⟩, ⟨.input, .evaluatorOnly⟩,
      ⟨.conjunction true false true 2 1, .neither⟩, ⟨.linear false 3 2, .generatorOnly⟩,
      ⟨.unary true 2, .both⟩], [4]⟩ := ⟨_, rfl⟩
  have hbuildable : p.Buildable := by
    rw [hp]
    exact @Buildable.build [.add ⟨.input, .generatorOnly, []⟩, .add ⟨.input, .evaluatorOnly, []⟩,
      .add ⟨.conjunction true false true, .neither, [2, 1]⟩,
      .add ⟨.linear false, .generatorOnly, [3, 2]⟩, .add ⟨.unary true, .both, [2]⟩, .outputs [4]] _ rfl
  obtain ⟨setup, hsetup⟩ : ∃ setup : GarblingSetup, setup = ⟨Delta.ofSelected 5,
      fun key place => key + BitVec.ofNat 128 place.gate, [true], fun _ => true,
      fun k => BitVec.ofNat 128 k⟩ := ⟨_, rfl⟩
  obtain ⟨other, hother⟩ : ∃ other : GarblingSetup, other = ⟨Delta.ofSelected 6,
      fun _ place => BitVec.ofNat 128 place.part, [false], fun k => k == 0, fun _ => 3⟩ := ⟨_, rfl⟩
  have hown : setup.inputs.length = p.generatorInputCount := by
    rw [hsetup, hp]
    rfl
  have hown' : other.inputs.length = p.generatorInputCount := by
    rw [hother, hp]
    rfl
  obtain ⟨-, herror, hsame⟩ := garble_outcome hbuildable setup hown
  have hrefused : p.garble setup = .error (.underivableBit 3 0) := by
    refine (herror _).mpr ⟨3, rfl, ?_, ?_⟩
    · rw [hp]
      rfl
    · rw [hp]
      decide
  exact ⟨p, setup, other, hbuildable, by rw [hp]; rfl, by rw [hp]; rfl, hrefused,
    ((hsame other hown').2 _).mpr hrefused⟩

end Program

end HalfGates
