import HalfGates.Proofs.Garbling.Economy
import HalfGates.Proofs.Program.Buildable

/-!
# The shape of the tables

How many bits each payload has follows from the kinds and the scopes of a program, although the rows are made
from labels and secret bits. So the tables of two garblings of a program cannot be told apart by their shape.

## Main definitions

- `Gate.demands`: the payload bits of gates in order
- `Garbler.lengths_steps`: the payloads are as long as demanded
- `Program.tables_shape`: the payloads of any two garblings
-/

namespace HalfGates

/-- The payload bits that gates demand behind a history, in order. -/
def Gate.demands (past : List Gate) : List Gate → List Nat
  | [] => []
  | g :: gates => g.demand past :: demands (g :: past) gates

theorem Gate.length_demands (past gates : List Gate) : (demands past gates).length = gates.length := by
  induction gates generalizing past with
  | nil => rfl
  | cons g gates ih => rw [demands, List.length_cons, List.length_cons, ih]

theorem Gate.getElem?_demands (past gates : List Gate) (i : Nat) :
    (demands past gates)[i]? = gates[i]?.map (demand ((gates.take i).reverse ++ past)) := by
  induction gates generalizing past i with
  | nil => rfl
  | cons g gates ih =>
    cases i with
    | zero => rfl
    | succ i =>
      rw [demands, List.getElem?_cons_succ, ih, List.getElem?_cons_succ, List.take_succ_cons,
        List.reverse_cons, List.append_assoc]
      rfl

/-- A gate demands its rows, and one bit more if the evaluator is to learn the value. -/
theorem Gate.sum_demands (past gates : List Gate) :
    (demands past gates).sum + 128 * rowsAlong past =
      128 * rowsAlong (gates.reverse ++ past) + gates.countP fun g => g.scope.evaluator := by
  induction gates generalizing past with
  | nil => simp [demands]
  | cons g gates ih =>
    have hrest := ih (g :: past)
    have hall : (g :: gates).reverse ++ past = gates.reverse ++ g :: past := by simp
    have hbit : (if g.scope.evaluator = true then 1 else 0) = g.scope.evaluator.toNat := by
      cases g.scope.evaluator <;> rfl
    rw [hall, demands, List.sum_cons, List.countP_cons, hbit, demand]
    rw [rowsAlong] at hrest
    omega

/-- Gates in order make payloads that are as long as they demand. -/
theorem Garbler.lengths_steps {setup : GarblingSetup} {s s' : Garbler} {past gates : List Gate}
    {payloads : List BitView} (hs : s.past.map Wire.scope = past.map Gate.scope)
    (h : s.steps setup gates = .ok (payloads, s')) :
    payloads.map BitView.length = Gate.demands past gates := by
  induction gates generalizing s past payloads with
  | nil =>
    cases h
    rfl
  | cons g gates ih =>
    obtain ⟨⟨payload, state⟩, hstep, h⟩ := bind_eq_ok.mp h
    obtain ⟨⟨rest, final⟩, hsteps, h⟩ := bind_eq_ok.mp h
    cases h
    obtain ⟨hscopes, -, hlength⟩ := rows_step hs hstep
    rw [List.map_cons, hlength, ih hscopes hsteps, Gate.demands]

namespace Program

variable {p : Program} {setup : GarblingSetup} {g : Garbling}

theorem lengths_of_garble (h : p.garble setup = .ok g) :
    g.tables.map BitView.length = Gate.demands [] p.gates := by
  have hinitial : Garbler.initial.past.map Wire.scope = ([] : List Gate).map Gate.scope := rfl
  exact Garbler.lengths_steps hinitial (of_garble h).2.1

theorem bitLength_eq_sum (tables : List BitView) :
    GarbledCircuit.bitLength tables = (tables.map BitView.length).sum := by
  rw [GarbledCircuit.bitLength, List.sum_eq_foldl, List.foldl_map]

/-- The operands of the gate at position `i` stand at the positions `i - d`, and the rows of a gate are counted
from their scopes and its own by `Operation.rows`. -/
theorem WellFormed.exists_payload (hp : p.WellFormed) (h : p.garble setup = .ok g) {i : Nat} {gate : Gate}
    (hgate : p.gates[i]? = some gate) :
    ∃ payload, g.tables[i]? = some payload ∧
      payload.length = 128 * (gate.op.map fun d => p.scopeAt (i - d)).rows gate.scope +
        gate.scope.evaluator.toNat := by
  have hat := congrArg (·[i]?) (lengths_of_garble h)
  simp only [List.getElem?_map, Gate.getElem?_demands, hgate, Option.map_some, List.append_nil] at hat
  obtain ⟨payload, hpayload, hlength⟩ := Option.map_eq_some_iff.mp hat
  refine ⟨payload, hpayload, ?_⟩
  rw [hlength, Gate.demand, Gate.rows, ← hp.map_scopeBack hgate, before]

/-- The shape of the tables tells nothing but the program. Whatever the inputs, Δ, the hash and the streams of
two garblings are, their payloads have the same lengths: payload `i` has its gate's rows of 128 bits, and one
bit more exactly if the evaluator is to learn the gate. All payloads together have the bits of the rows that the
generator counts and one for each gate known to the evaluator. -/
theorem tables_shape (hp : p.Buildable) {setup' : GarblingSetup} {g' : Garbling}
    (h : p.garble setup = .ok g) (h' : p.garble setup' = .ok g') :
    g'.tables.length = g.tables.length ∧
      g'.tables.map BitView.length = g.tables.map BitView.length ∧
      g.tables.length = p.length ∧
      (∀ (i : Nat) (gate : Gate), p.gates[i]? = some gate →
        ∃ payload, g.tables[i]? = some payload ∧
          payload.length = 128 * (gate.op.map fun d => p.scopeAt (i - d)).rows gate.scope +
            gate.scope.evaluator.toNat) ∧
      GarbledCircuit.bitLength g.tables =
        128 * g.final.rows + p.gates.countP fun gate => gate.scope.evaluator := by
  have hlengths : g'.tables.map BitView.length = g.tables.map BitView.length := by
    rw [lengths_of_garble h', lengths_of_garble h]
  have hcount : g.tables.length = p.length := by
    have hcount := congrArg List.length (lengths_of_garble h)
    rwa [List.length_map, Gate.length_demands] at hcount
  refine ⟨by simpa using congrArg List.length hlengths, hlengths, hcount,
    fun i gate hgate => hp.wellFormed.exists_payload h hgate, ?_⟩
  have hsum := Gate.sum_demands [] p.gates
  rw [Gate.rowsAlong, Nat.mul_zero, Nat.add_zero, List.append_nil] at hsum
  rw [bitLength_eq_sum, lengths_of_garble h, hsum, (rows_of_garble h).1, rowCount]

theorem tables_shape_split_conjunction :
    ∃ (p : Program) (setup setup' : GarblingSetup) (g g' : Garbling), p.Buildable ∧
      p.garble setup = .ok g ∧ p.garble setup' = .ok g' ∧ setup.inputs = [true] ∧
      setup'.inputs = [false] ∧ g'.tables.map BitView.length = g.tables.map BitView.length ∧
      g.tables.length = 6 ∧ (∃ payload, g.tables[3]? = some payload ∧ payload.length = 257) ∧
      GarbledCircuit.bitLength g.tables = 128 * g.final.rows + 3 := by
  obtain ⟨p, hp⟩ : ∃ p : Program, p = ⟨[⟨.input, .generatorOnly⟩, ⟨.input, .neither⟩,
      ⟨.input, .neither⟩, ⟨.conjunction true false true 2 1, .evaluatorOnly⟩,
      ⟨.conjunction false false false 4 1, .evaluatorOnly⟩, ⟨.unary true 1, .evaluatorOnly⟩], [5]⟩ :=
    ⟨_, rfl⟩
  have hbuildable : p.Buildable := by
    rw [hp]
    exact @Buildable.build [.add ⟨.input, .generatorOnly, []⟩, .add ⟨.input, .neither, []⟩,
      .add ⟨.input, .neither, []⟩, .add ⟨.conjunction true false true, .evaluatorOnly, [2, 1]⟩,
      .add ⟨.conjunction false false false, .evaluatorOnly, [4, 1]⟩, .add ⟨.unary true, .neither, [1]⟩,
      .outputs [5]] _ rfl
  obtain ⟨setup, hsetup⟩ : ∃ setup : GarblingSetup, setup = ⟨Delta.ofSelected 5,
      fun key place => key + BitVec.ofNat 128 place.gate, [true], fun _ => true,
      fun k => BitVec.ofNat 128 k⟩ := ⟨_, rfl⟩
  obtain ⟨setup', hsetup'⟩ : ∃ setup : GarblingSetup, setup = ⟨Delta.ofSelected 6,
      fun _ place => BitVec.ofNat 128 place.part, [false], fun k => k == 0, fun _ => 3⟩ := ⟨_, rfl⟩
  have hderivable : ∀ i, p.underivable i = false := by
    intro i
    rw [hp]
    match i with
    | 0 | 1 | 2 | 3 | 4 | 5 => rfl
    | i + 6 => rfl
  have hown : setup.inputs.length = p.generatorInputCount := by
    rw [hsetup, hp]
    rfl
  have hown' : setup'.inputs.length = p.generatorInputCount := by
    rw [hsetup', hp]
    rfl
  obtain ⟨g, hg⟩ := hbuildable.wellFormed.exists_garble hown hderivable
  obtain ⟨g', hg'⟩ := hbuildable.wellFormed.exists_garble hown' hderivable
  obtain ⟨-, hlengths, hcount, hpayloads, htotal⟩ := tables_shape hbuildable hg hg'
  refine ⟨p, setup, setup', g, g', hbuildable, hg, hg', by rw [hsetup], by rw [hsetup'], hlengths, ?_, ?_, ?_⟩
  · rw [hcount, hp]
    rfl
  · obtain ⟨payload, hpayload, hlength⟩ := hpayloads 3 _ (by rw [hp]; rfl)
    exact ⟨payload, hpayload, hlength.trans (by rw [hp]; rfl)⟩
  · rw [htotal, hp]
    rfl

end Program

end HalfGates
