import HalfGates.Proofs.Codec
import HalfGates.Proofs.Garbling.Rows
import HalfGates.Proofs.Program.Buildable
import HalfGates.Proofs.Program.Positions

/-!
# The outcome of a run

The evaluator's tables come from the other party. A run on tables of any bits fails for two reasons only: a
random gate is hidden from the evaluator, or a payload is shorter than its gate demands. Both show in the
program and in the lengths of the payloads, and the bits behind those that are demanded are never read.

## Main definitions

- `Gate.isHidden`, `Program.starves`: where a run has to stop
- `Program.needed`: the payload bits that gates demand
- `GarbledRun.Follows`, `GarbledRun.exists_rule`: the evaluator's state, and what it does at a gate
- `Program.run_outcome`: the outcome of a run
-/

namespace HalfGates

/-- A random gate that the generator does not know: nobody has a label of it for the evaluator. -/
def Gate.isHidden (g : Gate) : Bool :=
  g.kind == .random && !g.scope.generator

theorem Gate.generator_of_not_isHidden {g : Gate} (h : g.isHidden = false) (hkind : g.kind = .random) :
    g.scope.generator = true := by
  simpa [isHidden, hkind] using h

/-- The evaluator's history is that of some gates: it holds their scopes and the values that it is to know,
and of its `count` labels it has read one for each of its inputs. -/
structure GarbledRun.Follows (count : Nat) (e : GarbledRun) (past : List Gate) : Prop where
  scopes : e.past.map Held.scope = past.map Gate.scope
  bits : ∀ h ∈ e.past, h.bit.isSome = h.scope.evaluator
  inputs : e.inputs.length + past.countP Gate.isEvaluatorInput = count

namespace GarbledRun

variable {hash : TweakedHash} {count : Nat} {e : GarbledRun} {past : List Gate} {g : Gate}

theorem Follows.length_eq (h : e.Follows count past) : e.past.length = past.length := by
  simpa using congrArg List.length h.scopes

theorem follows_initial (labels : List Block) : Follows labels.length ⟨[], labels, []⟩ [] :=
  ⟨rfl, by simp, rfl⟩

/-- The evaluator learns a value from any bit. -/
theorem exists_learn (index : Nat) (scope : Scope) (label : Block) {bits : List Bool}
    (h : bits.length = scope.evaluator.toNat) : ∃ bit, bit.isSome = scope.evaluator ∧
      ∀ rest tail, rest.toBits = bits ++ tail → learn index scope label rest = .ok bit := by
  cases hscope : scope.evaluator with
  | false => exact ⟨none, rfl, fun rest tail _ => by simp [learn, hscope]⟩
  | true =>
    rw [hscope] at h
    obtain ⟨mask, rfl⟩ := List.length_eq_one_iff.mp h
    refine ⟨some (label.select ^^ mask), rfl, fun rest tail hrest => ?_⟩
    have hmask : rest.get? 0 = some mask := by
      rw [BitView.get?_eq, hrest]
      rfl
    rw [learn, if_pos hscope, hmask]

theorem learn_of_lt (index : Nat) {scope : Scope} (label : Block) {rest : BitView}
    (h : rest.length < scope.evaluator.toNat) :
    learn index scope label rest = .error (.truncatedPayload index) := by
  cases hscope : scope.evaluator with
  | false =>
    rw [hscope] at h
    exact absurd h (Nat.not_lt_zero _)
  | true =>
    rw [hscope] at h
    have hnone : rest.get? 0 = none := if_neg (Nat.not_lt.mpr (Nat.le_of_lt_succ h))
    rw [learn, if_pos hscope, hnone]

/-- At a gate that is not hidden, the evaluator follows a rule that takes the rows that the gate demands, and
then learns its value. -/
theorem exists_rule (hash : TweakedHash) (he : e.Follows count past) (hfits : g.Fits past)
    (hhidden : g.isHidden = false)
    (hinput : g.isEvaluatorInput = true → past.countP Gate.isEvaluatorInput < count) :
    ∃ rule, Demands past.length (g.rows past) e.past
        (e.inputs.drop g.isEvaluatorInput.toNat) rule ∧
      ∀ payload, e.step hash g payload = (do
        let (label, rest, e') ← rule payload
        let bit ← learn past.length g.scope label rest
        .ok { e' with past := ⟨label, bit, g.scope⟩ :: e'.past }) := by
  obtain ⟨op, hop, hkind, hscopes, hmem⟩ := hfits.exists_operands he.scopes
  have hlabels : g.isEvaluatorInput = true → e.inputs ≠ [] := by
    intro hown hnil
    have hinputs := he.inputs
    have hlt := hinput hown
    rw [hnil, List.length_nil] at hinputs
    omega
  have hrule := operation_demands (e := e) hash past.length hkind (fun h hh => he.bits h (hmem h hh))
    hfits.scope_of_constant (Gate.generator_of_not_isHidden hhidden) hlabels
  rw [hscopes] at hrule
  refine ⟨_, hrule, fun payload => ?_⟩
  unfold step
  rw [hop, he.length_eq]

/-- The bits that a gate demands, whatever they are, decide the next state. -/
theorem exists_step (hash : TweakedHash) (he : e.Follows count past) (hfits : g.Fits past)
    (hhidden : g.isHidden = false)
    (hinput : g.isEvaluatorInput = true → past.countP Gate.isEvaluatorInput < count) {bits : List Bool}
    (hbits : bits.length = g.demand past) :
    ∃ e', e'.Follows count (g :: past) ∧ ∀ payload tail, payload.startsAligned = true →
      payload.toBits = bits ++ tail → e.step hash g payload = .ok e' := by
  obtain ⟨rule, hrule, hstep⟩ := exists_rule hash he hfits hhidden hinput
  have hrows : (bits.take (128 * g.rows past)).length = 128 * g.rows past := by
    rw [Gate.demand] at hbits
    rw [List.length_take]
    omega
  have hmask : (bits.drop (128 * g.rows past)).length = g.scope.evaluator.toNat := by
    rw [Gate.demand] at hbits
    rw [List.length_drop]
    omega
  obtain ⟨label, e', hpast, hinputs, htakes⟩ := hrule.takes _ hrows
  obtain ⟨bit, hbit, hlearn⟩ := exists_learn past.length g.scope label hmask
  refine ⟨{ e' with past := ⟨label, bit, g.scope⟩ :: e'.past }, ⟨?_, ?_, ?_⟩, ?_⟩
  · rw [List.map_cons, List.map_cons, hpast, he.scopes]
  · intro h hh
    rcases List.mem_cons.mp hh with rfl | hh
    · exact hbit
    · exact he.bits h (hpast ▸ hh)
  · have hcount := he.inputs
    show e'.inputs.length + _ = count
    rw [hinputs, List.length_drop, List.countP_cons]
    cases hown : g.isEvaluatorInput with
    | false => simpa using hcount
    | true =>
      have hlt := hinput hown
      simp
      omega
  · intro payload tail haligned htail
    rw [← List.take_append_drop (128 * g.rows past) bits, List.append_assoc] at htail
    obtain ⟨rest, htake, -, hrest⟩ := htakes payload _ haligned htail
    rw [hstep, htake, ok_bind]
    dsimp only
    rw [hlearn rest tail hrest, ok_bind]

/-- A payload that is shorter than the gate demands is refused. -/
theorem step_of_lt (hash : TweakedHash) (he : e.Follows count past) (hfits : g.Fits past)
    (hhidden : g.isHidden = false)
    (hinput : g.isEvaluatorInput = true → past.countP Gate.isEvaluatorInput < count) {payload : BitView}
    (haligned : payload.startsAligned = true) (hshort : payload.length < g.demand past) :
    e.step hash g payload = .error (.truncatedPayload past.length) := by
  obtain ⟨rule, hrule, hstep⟩ := exists_rule hash he hfits hhidden hinput
  rw [hstep]
  by_cases hrows : payload.length < 128 * g.rows past
  · rw [hrule.refuses payload haligned hrows]
    rfl
  · -- there are rows, but no bit behind them
    obtain ⟨label, rest, e', htake, -, -, -, hlength⟩ :=
      hrule.exists_of_le haligned (Nat.not_lt.mp hrows)
    have hrest : rest.length < g.scope.evaluator.toNat := by
      rw [Gate.demand] at hshort
      omega
    rw [htake, ok_bind]
    dsimp only
    rw [learn_of_lt past.length label hrest]
    rfl

/-- At a hidden gate the evaluator misses a label, whatever the payload is. -/
theorem step_of_isHidden (hash : TweakedHash) (e : GarbledRun) (hhidden : g.isHidden = true)
    (payload : BitView) : e.step hash g payload = .error (.missingInputLabel e.past.length) := by
  obtain ⟨op, scope⟩ := g
  cases op with
  | random =>
    have hscope : scope.generator = false := by
      simpa [Gate.isHidden, Gate.kind, Operation.kind] using hhidden
    have hsource : e.source e.past.length false scope = .error (.missingInputLabel e.past.length) := by
      simp [source, hscope]
    simp only [step, Operation.mapM?, operation, hsource]
    rfl
  | _ => simp [Gate.isHidden, Gate.kind, Operation.kind] at hhidden

/-- Gates are evaluated from where those before them have left the evaluator. -/
theorem steps_append {e e' : GarbledRun} {front : List Gate} {payloads : List BitView}
    (h : e.steps hash front payloads = .ok e') (hlength : payloads.length = front.length)
    (back : List Gate) (rest : List BitView) :
    e.steps hash (front ++ back) (payloads ++ rest) = e'.steps hash back rest := by
  induction front generalizing e payloads with
  | nil =>
    obtain rfl : payloads = [] := List.eq_nil_of_length_eq_zero hlength
    cases h
    rfl
  | cons g front ih =>
    cases payloads with
    | nil => cases hlength
    | cons payload payloads =>
      obtain ⟨e₁, hstep, h⟩ := bind_eq_ok.mp h
      rw [List.cons_append, List.cons_append, steps, hstep, ok_bind]
      exact ih h (Nat.succ.inj hlength)

theorem exists_labelAt {held : List Held} {i : Nat} (h : i < held.length) :
    ∃ label, labelAt held i = .ok label :=
  ⟨held[i].label, by rw [labelAt, List.getElem?_eq_getElem h]⟩

end GarbledRun

namespace Program

/-- Whether there is a hidden gate at a position. -/
def lacksLabel (p : Program) (i : Nat) : Bool :=
  p.gates[i]?.any Gate.isHidden

/-- Whether a run cannot get past a position: a label is missing there, or the payload is shorter than the
gate demands. -/
def starves (p : Program) (tables : List BitView) (i : Nat) : Bool :=
  p.lacksLabel i || decide ((tables.map BitView.length).getD i 0 < p.demand i)

/-- The bits of payloads that the gates demand. -/
def needed (p : Program) (tables : List BitView) : List (List Bool) :=
  tables.mapIdx fun i v => v.toBits.take (p.demand i)

theorem starves_of_getElem? {p : Program} {tables : List BitView} {i : Nat} {g : Gate} {v : BitView}
    (hg : p.gates[i]? = some g) (hv : tables[i]? = some v) :
    p.starves tables i = (g.isHidden || decide (v.length < g.demand (p.before i))) := by
  rw [starves, lacksLabel, hg, Option.any_some, demand_of_getElem? hg, List.getD_eq_getElem?_getD,
    List.getElem?_map, hv]
  rfl

theorem lt_length_of_starves {p : Program} {tables : List BitView} {i : Nat}
    (h : p.starves tables i = true) : i < p.length := by
  by_contra hge
  have hnone : p.gates[i]? = none := List.getElem?_eq_none (Nat.not_lt.mp hge)
  simp [starves, lacksLabel, demand, hnone] at h

/-- Payloads with the same bits demanded begin with the same bits. -/
theorem take_of_needed {p : Program} {tables received : List BitView}
    (h : p.needed received = p.needed tables) {i : Nat} {v : BitView} (hv : tables[i]? = some v) :
    ∃ w, received[i]? = some w ∧ w.toBits.take (p.demand i) = v.toBits.take (p.demand i) := by
  have hat := congrArg (·[i]?) h
  simp only [needed, List.getElem?_mapIdx, hv, Option.map_some] at hat
  exact Option.map_eq_some_iff.mp hat

theorem length_of_needed {p : Program} {tables received : List BitView}
    (h : p.needed received = p.needed tables) : received.length = tables.length := by
  simpa [needed] using congrArg List.length h

theorem starves_congr {p : Program} {tables received : List BitView}
    (h : p.needed received = p.needed tables) : p.starves received = p.starves tables := by
  funext i
  simp only [starves, List.getD_eq_getElem?_getD, List.getElem?_map]
  cases hv : tables[i]? with
  | none =>
    rw [List.getElem?_eq_none_iff] at hv
    rw [List.getElem?_eq_none (length_of_needed h ▸ hv)]
  | some v =>
    obtain ⟨w, hw, htake⟩ := take_of_needed h hv
    have hlength := congrArg List.length htake
    rw [List.length_take, List.length_take, BitView.length_toBits, BitView.length_toBits] at hlength
    rw [hw]
    congr 1
    simp only [Option.map_some, Option.getD_some, decide_eq_decide]
    omega

/-- Before an input of the evaluator, not all of its inputs were met. -/
theorem countP_before_lt_inputs {p : Program} {i : Nat} {g : Gate} (hg : p.gates[i]? = some g)
    (hown : g.isEvaluatorInput = true) :
    (p.before i).countP Gate.isEvaluatorInput < p.inputIndices.length := by
  rw [inputIndices, p.length_positions]
  exact countP_before_lt hg hown

variable {p : Program} {tables : List BitView} {labels : List Block}

/-- If a run gets past all positions before one, then the bits demanded there decide its state. -/
theorem WellFormed.exists_runSteps (hp : p.WellFormed) (hcount : tables.length = p.length)
    (hash : TweakedHash) (hlabels : labels.length = p.inputIndices.length) {i : Nat} (hi : i ≤ p.length)
    (h : ∀ k < i, p.starves tables k = false) :
    ∃ e : GarbledRun, e.Follows labels.length (p.before i) ∧ ∀ received : List BitView,
      (∀ v ∈ received, v.startsAligned = true) → p.needed received = p.needed tables →
        GarbledRun.steps hash ⟨[], labels, []⟩ (p.gates.take i) (received.take i) = .ok e := by
  induction i with
  | zero => exact ⟨⟨[], labels, []⟩, GarbledRun.follows_initial labels, fun _ _ _ => rfl⟩
  | succ i ih =>
    obtain ⟨e, he, hsteps⟩ := ih (Nat.le_of_succ_le hi) fun k hk => h k (Nat.lt_succ_of_lt hk)
    obtain ⟨g, hg⟩ : ∃ g, p.gates[i]? = some g := ⟨_, List.getElem?_eq_getElem hi⟩
    obtain ⟨v, hv⟩ : ∃ v, tables[i]? = some v :=
      ⟨_, List.getElem?_eq_getElem (hcount.symm ▸ hi)⟩
    have hserved := h i (Nat.lt_succ_self i)
    rw [starves_of_getElem? hg hv, Bool.or_eq_false_iff, decide_eq_false_iff_not, Nat.not_lt] at hserved
    have hinput : g.isEvaluatorInput = true →
        (p.before i).countP Gate.isEvaluatorInput < labels.length :=
      fun hown => hlabels.symm ▸ countP_before_lt_inputs hg hown
    have hbits : (v.toBits.take (g.demand (p.before i))).length = g.demand (p.before i) := by
      rw [List.length_take, BitView.length_toBits]
      exact Nat.min_eq_left hserved.2
    obtain ⟨e', he', hstep⟩ := GarbledRun.exists_step hash he (throughout_iff.mp hp.gates i g hg)
      hserved.1 hinput hbits
    refine ⟨e', before_succ hg ▸ he', fun received haligned hneeded => ?_⟩
    -- the payload that was received begins with the bits that the gate demands
    obtain ⟨w, hw, htake⟩ := take_of_needed hneeded hv
    rw [demand_of_getElem? hg] at htake
    have hbegins : w.toBits = v.toBits.take (g.demand (p.before i)) ++
        w.toBits.drop (g.demand (p.before i)) := by
      rw [← htake, List.take_append_drop]
    have hlength : (received.take i).length = (p.gates.take i).length := by
      rw [List.length_take, List.length_take, length_of_needed hneeded, hcount]
      rfl
    rw [List.take_add_one, List.take_add_one, hg, hw, Option.toList_some, Option.toList_some,
      GarbledRun.steps_append (hsteps received haligned hneeded) hlength, GarbledRun.steps,
      hstep w _ (haligned w (List.mem_of_getElem? hw)) hbegins]
    rfl

/-- If a run gets past all positions, then the bits demanded decide its result. -/
theorem WellFormed.exists_run (hp : p.WellFormed) (hcount : tables.length = p.length)
    (hash : TweakedHash) (hlabels : labels.length = p.inputIndices.length)
    (h : ∀ i, p.starves tables i = false) :
    ∃ r, ∀ received : List BitView, (∀ v ∈ received, v.startsAligned = true) →
      p.needed received = p.needed tables →
        (⟨p, received, hash⟩ : GarbledCircuit).run labels = .ok r := by
  obtain ⟨e, he, hsteps⟩ :=
    hp.exists_runSteps hcount hash hlabels (Nat.le_refl p.length) fun k _ => h k
  have hscopes : e.past.reverse.map Held.scope = p.gates.map Gate.scope := by
    rw [List.map_reverse, he.scopes, before_length, List.map_reverse, List.reverse_reverse]
  have hlength : e.past.reverse.length = p.length := by
    simpa [length] using congrArg List.length hscopes
  obtain ⟨outputs, houtputs⟩ : ∃ outputs, p.outputs.mapM (GarbledRun.labelAt e.past.reverse) = .ok outputs :=
    exists_mapM fun i hi => GarbledRun.exists_labelAt (hlength.symm ▸ hp.outputs i hi)
  obtain ⟨ungarbled, hungarbled⟩ :
      ∃ ungarbled, p.ungarbledOutputs.mapM (GarbledRun.bitAt e.past.reverse) = .ok ungarbled := by
    refine exists_mapM fun i hi => ?_
    obtain ⟨hi, hrevealed⟩ := List.mem_filter.mp hi
    have hlt : i < e.past.reverse.length := hlength.symm ▸ hp.outputs i hi
    -- what the evaluator is to learn has a bit
    have hscope : (e.past.reverse[i]).scope.evaluator = true := by
      rw [revealed_eq, scopeAt, ← hscopes, List.getElem?_map, List.getElem?_eq_getElem hlt] at hrevealed
      exact hrevealed
    have hbit := he.bits _ (List.mem_reverse.mp (List.getElem_mem hlt))
    rw [hscope] at hbit
    obtain ⟨b, hb⟩ := Option.isSome_iff_exists.mp hbit
    exact ⟨b, by rw [GarbledRun.bitAt, List.getElem?_eq_getElem hlt, Option.bind_some, hb]⟩
  refine ⟨⟨ungarbled, outputs, e⟩, fun received haligned hneeded => ?_⟩
  have hrun := hsteps received haligned hneeded
  rw [length, List.take_length, List.take_of_length_le] at hrun
  · rw [GarbledCircuit.run, if_pos hlabels]
    dsimp only
    rw [hrun, ok_bind, hungarbled, ok_bind, houtputs, ok_bind]
  · exact Nat.le_of_eq ((length_of_needed hneeded).trans hcount)

/-- The first position that a run does not get past is the one that it reports. -/
theorem WellFormed.run_of_starves (hp : p.WellFormed) (hcount : tables.length = p.length)
    (haligned : ∀ v ∈ tables, v.startsAligned = true) (hash : TweakedHash)
    (hlabels : labels.length = p.inputIndices.length) {i : Nat} (hi : p.starves tables i = true)
    (hbefore : ∀ k < i, p.starves tables k = false) :
    (⟨p, tables, hash⟩ : GarbledCircuit).run labels =
      .error (if p.lacksLabel i then .missingInputLabel i else .truncatedPayload i) := by
  have hlt : i < p.length := lt_length_of_starves hi
  have hle : i ≤ p.length := Nat.le_of_lt hlt
  obtain ⟨g, hg⟩ : ∃ g, p.gates[i]? = some g := ⟨_, List.getElem?_eq_getElem hlt⟩
  obtain ⟨v, hv⟩ : ∃ v, tables[i]? = some v := ⟨_, List.getElem?_eq_getElem (hcount.symm ▸ hlt)⟩
  obtain ⟨e, he, hsteps⟩ := hp.exists_runSteps hcount hash hlabels hle hbefore
  have hstep : e.step hash g v =
      .error (if p.lacksLabel i then .missingInputLabel i else .truncatedPayload i) := by
    have hlacks : p.lacksLabel i = g.isHidden := by
      rw [lacksLabel, hg, Option.any_some]
    rw [hlacks]
    cases hhidden : g.isHidden with
    | true =>
      rw [GarbledRun.step_of_isHidden hash e hhidden, he.length_eq, length_before hle]
      rfl
    | false =>
      have hshort : v.length < g.demand (p.before i) := by
        simpa [starves_of_getElem? hg hv, hhidden] using hi
      rw [GarbledRun.step_of_lt hash he (throughout_iff.mp hp.gates i g hg) hhidden
        (fun hown => hlabels.symm ▸ countP_before_lt_inputs hg hown)
        (haligned v (List.mem_of_getElem? hv)) hshort, length_before hle]
      rfl
  have hlength : (tables.take i).length = (p.gates.take i).length := by
    rw [List.length_take, List.length_take, hcount]
    rfl
  rw [GarbledCircuit.run, if_pos hlabels]
  dsimp only
  rw [← take_append_cons_drop hg, ← take_append_cons_drop hv,
    GarbledRun.steps_append (hsteps tables haligned rfl) hlength, GarbledRun.steps, hstep]
  rfl

theorem WellFormed.run_iff (hp : p.WellFormed) (hcount : tables.length = p.length)
    (haligned : ∀ v ∈ tables, v.startsAligned = true) (hash : TweakedHash)
    (hlabels : labels.length = p.inputIndices.length) :
    ((∃ r, (⟨p, tables, hash⟩ : GarbledCircuit).run labels = .ok r) ↔
        ∀ i, p.starves tables i = false) ∧
      ∀ e, (⟨p, tables, hash⟩ : GarbledCircuit).run labels = .error e ↔
        ∃ i, e = (if p.lacksLabel i then .missingInputLabel i else .truncatedPayload i) ∧
          p.starves tables i = true ∧ ∀ k < i, p.starves tables k = false := by
  simp only [← Bool.not_eq_true]
  refine outcome_iff (fun h => ?_) fun i hi hbefore => ?_
  · obtain ⟨r, hr⟩ := hp.exists_run hcount hash hlabels fun i => Bool.not_eq_true _ ▸ h i
    exact ⟨r, hr tables haligned rfl⟩
  · exact hp.run_of_starves hcount haligned hash hlabels hi fun k hk => Bool.not_eq_true _ ▸ hbefore k hk

/-- What comes of running a program that can be built on one payload for each gate, of any bits, and any labels
for the evaluator's inputs. The run succeeds if no gate is hidden and no payload is shorter than its gate
demands; otherwise the first gate in default is reported, as a missing label or a truncated payload, and no
other refusal occurs. The bits that are not demanded have no say in the result, and neither the bits nor the
labels in whether there is one. Tables that were decoded always start on byte boundaries. -/
theorem run_outcome (hp : p.Buildable) (hcount : tables.length = p.length)
    (haligned : ∀ v ∈ tables, v.startsAligned = true) (hash : TweakedHash)
    (hlabels : labels.length = p.inputIndices.length) :
    ∃ c, GarbledCircuit.ofTables p tables hash = .ok c ∧
      ((∃ r, c.run labels = .ok r) ↔ ∀ i, p.starves tables i = false) ∧
      (∀ e, c.run labels = .error e ↔
        ∃ i, e = (if p.lacksLabel i then .missingInputLabel i else .truncatedPayload i) ∧
          p.starves tables i = true ∧ ∀ k < i, p.starves tables k = false) ∧
      (∀ received : List BitView, (∀ v ∈ received, v.startsAligned = true) →
        p.needed received = p.needed tables →
        ∃ d, GarbledCircuit.ofTables p received hash = .ok d ∧ d.run labels = c.run labels) ∧
      (∀ (received : List BitView) (hash' : TweakedHash) (labels' : List Block),
        (∀ v ∈ received, v.startsAligned = true) →
        received.map BitView.length = tables.map BitView.length → labels'.length = labels.length →
        ∃ d, GarbledCircuit.ofTables p received hash' = .ok d ∧
          ((∃ r, d.run labels' = .ok r) ↔ ∃ r, c.run labels = .ok r) ∧
          ∀ e, d.run labels' = .error e ↔ c.run labels = .error e) ∧
      ∀ bytes decoded, Codec.decode Codec.takeTables bytes = .ok decoded →
        ∀ v ∈ decoded, v.startsAligned = true := by
  obtain ⟨hok, herror⟩ := hp.wellFormed.run_iff hcount haligned hash hlabels
  refine ⟨⟨p, tables, hash⟩, if_pos hcount, hok, herror, ?_, ?_, fun _ _ => Codec.startsAligned_of_decode⟩
  · intro received haligned' hneeded
    have hcount' : received.length = p.length := (length_of_needed hneeded).trans hcount
    refine ⟨⟨p, received, hash⟩, if_pos hcount', ?_⟩
    cases hrun : (⟨p, tables, hash⟩ : GarbledCircuit).run labels with
    | ok r =>
      obtain ⟨s, hs⟩ := hp.wellFormed.exists_run hcount hash hlabels (hok.mp ⟨r, hrun⟩)
      rw [hs received haligned' hneeded, ← hs tables haligned rfl, hrun]
    | error e =>
      rw [(hp.wellFormed.run_iff hcount' haligned' hash hlabels).2, starves_congr hneeded, ← herror]
      exact hrun
  · intro received hash' labels' haligned' hlengths hlabels'
    have hcount' : received.length = p.length := by
      rw [← hcount]
      simpa using congrArg List.length hlengths
    have hstarves : p.starves received = p.starves tables := by
      funext i
      rw [starves, starves, hlengths]
    obtain ⟨hok', herror'⟩ :=
      hp.wellFormed.run_iff hcount' haligned' hash' (hlabels'.trans hlabels)
    refine ⟨⟨p, received, hash'⟩, if_pos hcount', ?_, fun e => ?_⟩
    · rw [hok', hstarves, hok]
    · rw [herror', hstarves, herror]

theorem run_outcome_split_conjunction :
    ∃ (p : Program) (hash : TweakedHash) (tables received : List BitView) (c d : GarbledCircuit)
      (r : RunResult), p.Buildable ∧ p.needed received = p.needed tables ∧
      received.map BitView.length = [0, 0, 264, 3] ∧
      GarbledCircuit.ofTables p tables hash = .ok c ∧ c.run [1, 2] = .ok r ∧
      GarbledCircuit.ofTables p received hash = .ok d ∧ d.run [1, 2] = .ok r := by
  obtain ⟨p, hp⟩ : ∃ p : Program, p = ⟨[⟨.input, .neither⟩, ⟨.input, .neither⟩,
      ⟨.conjunction false false true 2 1, .evaluatorOnly⟩, ⟨.unary true 1, .evaluatorOnly⟩], [3, 2]⟩ :=
    ⟨_, rfl⟩
  have hbuildable : p.Buildable := by
    rw [hp]
    exact @Buildable.build [.add ⟨.input, .neither, []⟩, .add ⟨.input, .neither, []⟩,
      .add ⟨.conjunction false false true, .evaluatorOnly, [2, 1]⟩,
      .add ⟨.unary true, .evaluatorOnly, [1]⟩, .outputs [3, 2]] _ rfl
  obtain ⟨hash, -⟩ : ∃ hash : TweakedHash, hash = fun key place => key + BitVec.ofNat 128 place.part :=
    ⟨_, rfl⟩
  obtain ⟨tables, htables⟩ : ∃ tables : List BitView, tables = [.empty, .empty,
      .ofBytesUpTo (List.replicate 33 0xff) 257, .singleton true] := ⟨_, rfl⟩
  obtain ⟨received, hreceived⟩ : ∃ received : List BitView, received = [.empty, .empty,
      .ofBytes (List.replicate 32 0xff ++ [0x80]), .ofBits [true, false, true]] := ⟨_, rfl⟩
  have hneeded : p.needed received = p.needed tables := by
    rw [hp, htables, hreceived]
    decide +kernel
  have hserved : ∀ i, p.starves tables i = false := by
    intro i
    refine Bool.eq_false_iff.mpr fun hi => ?_
    have hlt : i < 4 := by
      have hlt := lt_length_of_starves hi
      rw [hp] at hlt
      exact hlt
    have hall : ∀ i < 4, p.starves tables i = false := by
      rw [hp, htables]
      decide
    rw [hall i hlt] at hi
    cases hi
  obtain ⟨c, hc, hok, -, hsame, -⟩ := @run_outcome p tables [1, 2] hbuildable
    (by rw [hp, htables]; rfl) (by rw [htables]; decide) hash (by rw [hp]; rfl)
  obtain ⟨r, hr⟩ := hok.mpr hserved
  obtain ⟨d, hd, hrun⟩ := hsame received (by rw [hreceived]; decide) hneeded
  exact ⟨p, hash, tables, received, c, d, r, hbuildable, hneeded, by rw [hreceived]; rfl, hc, hr, hd,
    hrun.trans hr⟩

end Program

end HalfGates
