import HalfGates.Proofs.Constraint.Emission
import HalfGates.Proofs.Program.Liveness

/-!
# Lowered programs compute their systems

A system that defines a function has a program. Its sources are the inputs in order, every variable has
the value that solving the system gives it, and so have the outputs.

## Main definitions

- `Lowering.inputGate`, `Lowering.inputHistory`: the sources of a lowered program
- `Lowered`: what the lowering of a system is like
- `ParitySystem.exists_lowered`: a system that defines a function is lowered
- `ParitySystem.lower_faithful`: the program computes the function
-/

namespace HalfGates

namespace Lowering

variable {options : LoweringOptions}

/-- The source of an input. -/
def inputGate (options : LoweringOptions) (v : Nat) : Gate :=
  ⟨if options.random v then .random else .input, options.scope v⟩

/-- The sources of the first inputs, newest first. -/
def inputHistory (options : LoweringOptions) (count : Nat) : List Gate :=
  ((List.range count).map (inputGate options)).reverse

theorem inputHistory_succ (count : Nat) :
    inputHistory options (count + 1) = inputGate options count :: inputHistory options count := by
  simp [inputHistory, List.range_succ]

@[simp] theorem length_inputHistory (count : Nat) : (inputHistory options count).length = count := by
  simp [inputHistory]

theorem isSource_inputGate (v : Nat) : (inputGate options v).kind.isSource = true := by
  cases h : options.random v <;> simp [inputGate, h, Gate.kind, Operation.kind, GateKind.isSource]

/-- A source fits anywhere. -/
theorem fits_inputGate (past : List Gate) (v : Nat) : (inputGate options v).Fits past := by
  refine ⟨?_, Scope.contains_iff.mpr fun party hparty => ?_⟩
  · cases h : options.random v <;> simp [inputGate, h, Operation.operands]
  · have hnot := (Gate.knows_floor.mp hparty).1
    rw [← Gate.kind, isSource_inputGate] at hnot
    cases hnot

theorem fits_inputHistory (count : Nat) : Throughout Gate.Fits (inputHistory options count) := by
  induction count with
  | zero => trivial
  | succ count ih =>
    rw [inputHistory_succ]
    exact ⟨fits_inputGate _ count, ih⟩

theorem request_inputGate (v : Nat) :
    (inputGate options v).request =
      ⟨if options.random v then .random else .input, options.scope v, []⟩ := by
  unfold inputGate
  split <;> rfl

theorem emitInput_eq {b : Builder} {places : List Nat} :
    emitInput options ⟨b, places⟩ = .ok
      ⟨{ b with past := inputGate options places.length :: b.past },
        places ++ [b.past.length]⟩ := by
  have hadd : b.add (inputGate options places.length).request = _ :=
    Builder.add_request (fits_inputGate b.past places.length)
  rw [request_inputGate] at hadd
  rw [emitInput, emit]
  dsimp only
  rw [hadd]
  rfl

/-- After the inputs, variable `k` is gate `k`. -/
theorem emitInputs_eq (count : Nat) :
    (List.range count).foldlM (fun state _ => emitInput options state) ⟨.empty, []⟩ =
      .ok ⟨⟨inputHistory options count, []⟩, List.range count⟩ := by
  induction count with
  | zero => rfl
  | succ count ih =>
    rw [List.range_succ, List.foldlM_append]
    refine bind_eq_ok.mpr ⟨_, ih, ?_⟩
    rw [List.foldlM_cons]
    refine bind_eq_ok.mpr ⟨_, emitInput_eq, ?_⟩
    rw [List.length_range, length_inputHistory, ← inputHistory_succ]
    rfl

/-- Each of the inputs has the bit supplied for it. -/
theorem along_inputHistory {bits : List Bool} {count : Nat} (h : count ≤ bits.length) :
    PlainRun.along bits (inputHistory options count) =
      ⟨(bits.take count).reverse, bits.drop count⟩ := by
  induction count with
  | zero => rfl
  | succ count ih =>
    have hsupply : bits.drop count = bits[count] :: bits.drop (count + 1) :=
      List.drop_eq_getElem_cons h
    have htake : (bits.take (count + 1)).reverse = bits[count] :: (bits.take count).reverse := by
      rw [List.take_succ_eq_append_getElem h, List.reverse_append]
      rfl
    have hvalue : ∀ past supplied, PlainRun.value ⟨past, supplied :: bits.drop (count + 1)⟩
        (inputGate options count) = supplied := by
      intro past supplied
      cases hrandom : options.random count <;>
        simp [PlainRun.value, inputGate, hrandom, Operation.map, Operation.value]
    rw [inputHistory_succ, PlainRun.along, ih (Nat.le_of_lt h), PlainRun.step,
      isSource_inputGate, hsupply, hvalue, htake]
    rfl

theorem locates_inputs {bits : List Bool} :
    Locates (PlainRun.valuesAlong bits (inputHistory options bits.length))
      (List.range bits.length) bits := by
  rw [PlainRun.valuesAlong, along_inputHistory (Nat.le_refl _), List.take_length, List.reverse_reverse]
  refine List.ext_getElem? fun i => ?_
  by_cases hi : i < bits.length
  · simp [hi]
  · simp [Nat.not_lt.mp hi]

/-! ### Definitions -/

/-- The scopes that are asked for the variables from `first` on, up to `last`. -/
def Asked (options : LoweringOptions) (first last : Nat) (scope : Scope) : Prop :=
  ∃ v, first ≤ v ∧ v < last ∧ scope = options.scope v

theorem Asked.mono {first last last' : Nat} (hle : last ≤ last') (scope : Scope)
    (h : Asked options first last scope) : Asked options first last' scope := by
  obtain ⟨v, hfirst, hlast, hscope⟩ := h
  exact ⟨v, hfirst, Nat.lt_of_lt_of_le hlast hle, hscope⟩

/-- The gate that holds a variable is known to the parties that it was asked for. -/
def Reaches (options : LoweringOptions) (past : List Gate) (places : List Nat) (v : Nat) : Prop :=
  ∃ i g, places[v]? = some i ∧ past.reverse[i]? = some g ∧
    g.scope.contains (options.scope v) = true

/-- The first variables, of which `count` are inputs, have gates, with the values `a` in the run on
`bits`. -/
structure Defined (options : LoweringOptions) (count : Nat) (bits : List Bool) (state : LoweringState)
    (a : List Bool) : Prop where
  grown : Grown (Asked options count a.length) (inputHistory options count) state.builder.past
  inputs : List.range count <+: state.variables
  locates : Locates (PlainRun.valuesAlong bits state.builder.past) state.variables a
  reaches : ∀ v, count ≤ v → v < a.length → Reaches options state.builder.past state.variables v

theorem defined_inputs (bits : List Bool) :
    Defined options bits.length bits
      ⟨⟨inputHistory options bits.length, []⟩, List.range bits.length⟩ bits where
  grown := .refl
  inputs := List.prefix_rfl
  locates := locates_inputs
  reaches := fun _ hle hlt => absurd hlt (Nat.not_lt.mpr hle)

section definitions

variable {count : Nat} {bits : List Bool} {state : LoweringState} {a : List Bool}

/-- The next variable is defined. -/
theorem Defined.exists_emitDefinition (h : Defined options count bits state a) (hcount : count ≤ a.length)
    {d : Expr} (hd : d.Below a.length) :
    ∃ x state', d.evaluate a = some x ∧ emitDefinition options state d = .ok state' ∧
      Defined options count bits state' (a ++ [x]) := by
  have hlen : state.variables.length = a.length := h.locates.length_eq
  have hasked : Asked options count (a.length + 1) (options.scope state.variables.length) :=
    ⟨_, hlen ▸ hcount, hlen ▸ Nat.lt_succ_self _, rfl⟩
  obtain ⟨x, position, b, hx, hemit, hemitted⟩ := exists_emitExpr hasked h.locates hd
  have hgrows : ∀ (i : Nat) (y : Bool), _ → (PlainRun.valuesAlong bits b.past)[i]? = some y :=
    fun i y => hemitted.grown.getElem?_valuesAlong
  refine ⟨x, ⟨b, state.variables ++ [position]⟩, hx, ?_, ?_,
    h.inputs.trans (List.prefix_append _ _), ?_, ?_⟩
  · rw [emitDefinition, hemit]
    rfl
  · rw [List.length_append, List.length_singleton]
    exact (h.grown.mono (Asked.mono (Nat.le_succ _))).trans hemitted.grown
  · exact (h.locates.mono hgrows).append (Locates.cons hemitted.value rfl)
  · intro v hle hlt
    rw [List.length_append, List.length_singleton] at hlt
    rcases Nat.lt_succ_iff_lt_or_eq.mp hlt with hold | rfl
    · obtain ⟨i, g, hi, hg, hscope⟩ := h.reaches v hle hold
      exact ⟨i, g, by rw [List.getElem?_append_left (by omega), hi],
        hemitted.grown.getElem?_reverse hg, hscope⟩
    · -- the variable is held by the newest gate
      have hlast := hemitted.last
      obtain ⟨g, hg⟩ : ∃ g, back? b.past 1 = some g := exists_back? (by omega)
      refine ⟨position, g, by simp [← hlen], ?_, ?_⟩
      · have hposition : position < b.past.length := by omega
        rw [← back?_length_sub hposition, ← hlast, Nat.add_sub_cancel_left, hg]
      · have hscope := hemitted.scope
        rwa [Gate.scopeBack_of_back? hg, hlen] at hscope

/-- All variables are defined, with the values that solving gives them. -/
theorem Defined.exists_emitDefinitions (h : Defined options count bits state a)
    (hcount : count ≤ a.length) {definitions : List Expr}
    (hbelow : ∀ i d, definitions[i]? = some d → Expr.Below (a.length + i) d) :
    ∃ state' rest, definitions.foldlM (emitDefinition options) state = .ok state' ∧
      ParitySystem.extend a definitions = .ok (a ++ rest) ∧ rest.length = definitions.length ∧
      Defined options count bits state' (a ++ rest) := by
  induction definitions generalizing state a with
  | nil => exact ⟨state, [], rfl, by rw [ParitySystem.extend, List.append_nil], rfl, by simpa using h⟩
  | cons d definitions ih =>
    obtain ⟨x, next, hx, hemit, hnext⟩ := h.exists_emitDefinition hcount (hbelow 0 d rfl)
    obtain ⟨state', rest, hrun, hextend, hlen, hdefined⟩ :=
      ih hnext (by rw [List.length_append]; omega) fun i e he => by
        have hshift := hbelow (i + 1) e he
        rwa [List.length_append, List.length_singleton, Nat.add_assoc, Nat.add_comm 1 i]
    refine ⟨state', x :: rest, ?_, ?_, by rw [List.length_cons, List.length_cons, hlen], ?_⟩
    · rw [List.foldlM_cons]
      exact bind_eq_ok.mpr ⟨next, hemit, hrun⟩
    · rw [ParitySystem.extend, hx]
      simpa using hextend
    · simpa using hdefined

end definitions

end Lowering

/-- What the lowering of a system is like. -/
structure Lowered (s : ParitySystem) (options : LoweringOptions) (l : Lowering) : Prop where
  /-- The inputs come first, and no other gate is a source. -/
  grown : Grown (Lowering.Asked options s.inputs s.length) (Lowering.inputHistory options s.inputs)
    l.program.gates.reverse
  inputs : List.range s.inputs <+: l.variables
  outputs : l.program.outputs = l.variables.drop (s.inputs + s.auxiliaries)
  length : l.variables.length = s.length
  reaches : ∀ v, s.inputs ≤ v → v < s.length →
    Lowering.Reaches options l.program.gates.reverse l.variables v
  /-- The gates of the variables have the values of the solution. -/
  solves : ∀ bits, bits.length = s.inputs → ∃ a, s.solve bits = .ok a ∧
    Locates (l.program.values bits) l.variables a

namespace Lowered

variable {s : ParitySystem} {options : LoweringOptions} {l : Lowering}

theorem getElem?_variables (h : Lowered s options l) {k : Nat} (hk : k < s.inputs) :
    l.variables[k]? = some k := by
  obtain ⟨rest, hrest⟩ := h.inputs
  rw [← hrest, List.getElem?_append_left (by simpa using hk), List.getElem?_range hk]

theorem getElem?_gates (h : Lowered s options l) {k : Nat} (hk : k < s.inputs) :
    l.program.gates[k]? = some (Lowering.inputGate options k) := by
  rw [← List.reverse_reverse l.program.gates]
  refine h.grown.getElem?_reverse ?_
  simp [Lowering.inputHistory, hk]

/-- The sources are the inputs, in order. -/
theorem sources (h : Lowered s options l) :
    l.program.sources = (List.range s.inputs).map (Lowering.inputGate options) := by
  have hfilter := congrArg List.reverse h.grown.filter_isSource
  rw [← List.filter_reverse, ← List.filter_reverse, List.reverse_reverse, Lowering.inputHistory,
    List.reverse_reverse] at hfilter
  rw [Program.sources, hfilter, List.filter_eq_self]
  intro g hg
  obtain ⟨v, -, rfl⟩ := List.mem_map.mp hg
  exact Lowering.isSource_inputGate v

theorem sourceCount (h : Lowered s options l) : l.program.sourceCount = s.inputs := by
  rw [← Program.length_sources, h.sources, List.length_map, List.length_range]

/-- The outputs have the values of the solution. -/
theorem applies (h : Lowered s options l) {bits a : List Bool} (hsolve : s.solve bits = .ok a)
    (ha : Locates (l.program.values bits) l.variables a) :
    s.apply bits = .ok (l.program.atOutputs (l.program.values bits)) := by
  have hdrop : s.length - s.outputs = s.inputs + s.auxiliaries := by
    rw [ParitySystem.length, Nat.add_sub_cancel]
  have houtputs := ha.drop (s.inputs + s.auxiliaries)
  rw [← h.outputs] at houtputs
  have hvalues : l.program.atOutputs (l.program.values bits) =
      a.drop (s.inputs + s.auxiliaries) := houtputs.map_getD false
  rw [ParitySystem.apply, hsolve, hvalues, ← hdrop]
  rfl

theorem wellFormed (h : Lowered s options l) : l.program.WellFormed where
  gates := h.grown.fits (Lowering.fits_inputHistory s.inputs)
  outputs := by
    intro i hi
    rw [h.outputs] at hi
    obtain ⟨a, -, ha⟩ := h.solves (List.replicate s.inputs false) List.length_replicate
    simpa using ha.lt_length (List.mem_of_mem_drop hi)

end Lowered

namespace ParitySystem

theorem exists_lowered_on {s : ParitySystem} {definitions : List Expr}
    (h : s.definitions = .ok definitions) (options : LoweringOptions) {bits : List Bool}
    (hbits : bits.length = s.inputs) :
    ∃ l a, s.lower options = .ok l ∧ l.program.outputs = l.variables.drop (s.inputs + s.auxiliaries) ∧
      s.solve bits = .ok a ∧ a.length = s.length ∧
      Lowering.Defined options s.inputs bits ⟨⟨l.program.gates.reverse, []⟩, l.variables⟩ a := by
  obtain ⟨hlen, hbelow⟩ := definitions_below h
  -- the bits take no part in the lowering, they only say which values the gates have
  have hstart : Lowering.Defined options bits.length bits _ bits := Lowering.defined_inputs bits
  rw [hbits] at hstart
  obtain ⟨state, rest, hrun, hextend, hrest, hdefined⟩ :=
    hstart.exists_emitDefinitions (Nat.le_of_eq hbits.symm) (by rwa [hbits])
  have hbuild : (state.builder.withOutputs (state.variables.drop (s.inputs + s.auxiliaries))).build =
      .ok ⟨state.builder.past.reverse, state.variables.drop (s.inputs + s.auxiliaries)⟩ := by
    refine Builder.build_eq_ok_iff.mpr ⟨fun i hi => ?_, rfl⟩
    have hlt := hdefined.locates.lt_length (List.mem_of_mem_drop hi)
    rwa [PlainRun.length_valuesAlong] at hlt
  refine ⟨⟨⟨state.builder.past.reverse, state.variables.drop (s.inputs + s.auxiliaries)⟩,
    state.variables⟩, bits ++ rest, ?_, rfl, ?_, ?_, ?_⟩
  · rw [lower, h]
    refine bind_eq_ok.mpr ⟨_, Lowering.emitInputs_eq s.inputs, ?_⟩
    refine bind_eq_ok.mpr ⟨state, hrun, ?_⟩
    dsimp only
    rw [hbuild]
  · rw [solve, h]
    simp only [hbits, Nat.le_refl, if_true]
    rwa [← hbits, List.take_length]
  · rw [List.length_append, hbits, hrest, hlen, length, Nat.add_assoc]
  · rw [List.reverse_reverse]
    exact { hdefined with }

/-- A system that defines a function is lowered. -/
theorem exists_lowered {s : ParitySystem} {definitions : List Expr}
    (h : s.definitions = .ok definitions) (options : LoweringOptions) :
    ∃ l, s.lower options = .ok l ∧ Lowered s options l := by
  obtain ⟨l, a, hl, houtputs, -, hlen, hdefined⟩ :=
    exists_lowered_on h options (List.length_replicate (n := s.inputs) (a := false))
  refine ⟨l, hl, hlen ▸ hdefined.grown, hdefined.inputs, houtputs, ?_, ?_, ?_⟩
  · rw [hdefined.locates.length_eq, hlen]
  · rw [← hlen]
    exact hdefined.reaches
  · intro bits hbits
    -- lowering again with other bits in mind gives the same program
    obtain ⟨l', a', hl', -, hsolve, -, hdefined'⟩ := exists_lowered_on h options hbits
    obtain rfl : l' = l := by simpa [hl] using hl'.symm
    refine ⟨a', hsolve, ?_⟩
    rw [Program.values_eq_along]
    exact hdefined'.locates

/-- A system that defines a function is lowered to a program with one source for each input. In its run,
every variable has the value that solving the system gives it, and the outputs are those of the
function. -/
theorem lower_faithful {s : ParitySystem} {definitions : List Expr}
    (h : s.definitions = .ok definitions) (options : LoweringOptions) :
    ∃ l, s.lower options = .ok l ∧ l.program.sourceCount = s.inputs ∧
      l.variables.length = s.length ∧
      (∀ k < s.inputs, l.variables[k]? = some k ∧
        l.program.gates[k]? = some (Lowering.inputGate options k)) ∧
      ∀ bits, bits.length = s.inputs → ∃ values a outputs,
        l.program.evalGates bits = .ok values ∧ s.solve bits = .ok a ∧
        l.variables.map (values[·]?) = a.map some ∧
        l.program.eval bits = .ok outputs ∧ s.apply bits = .ok outputs := by
  obtain ⟨l, hl, hlowered⟩ := exists_lowered h options
  refine ⟨l, hl, hlowered.sourceCount, hlowered.length, fun k hk => ?_, fun bits hbits => ?_⟩
  · exact ⟨hlowered.getElem?_variables hk, hlowered.getElem?_gates hk⟩
  · obtain ⟨a, hsolve, ha⟩ := hlowered.solves bits hbits
    have hcount : bits.length = l.program.sourceCount := by rw [hbits, hlowered.sourceCount]
    have hgates : l.program.evalGates bits = .ok (l.program.values bits) := if_pos hcount
    refine ⟨_, a, _, hgates, hsolve, ha, ?_, hlowered.applies hsolve ha⟩
    rw [Program.eval, hgates]
    rfl

theorem lower_faithful_conjunction :
    conjunction.definitions =
        .ok [.sum [.constant false, .product [.variable 0, .variable 1]]] ∧
      ∃ l, conjunction.lower ⟨fun _ => .evaluatorOnly, fun v => v == 1⟩ = .ok l ∧
        l.program.sourceCount = 2 ∧
        l.program.gates[1]? = some ⟨.random, .evaluatorOnly⟩ ∧
        ∃ outputs, l.program.eval [true, true] = .ok outputs ∧
          conjunction.apply [true, true] = .ok outputs := by
  have hdefinitions : conjunction.definitions =
      .ok [.sum [.constant false, .product [.variable 0, .variable 1]]] := rfl
  obtain ⟨l, hl, hcount, -, hinputs, hruns⟩ :=
    lower_faithful hdefinitions ⟨fun _ => .evaluatorOnly, fun v => v == 1⟩
  obtain ⟨-, -, outputs, -, -, -, heval, happly⟩ := hruns [true, true] rfl
  exact ⟨hdefinitions, l, hl, hcount, (hinputs 1 (by decide)).2, outputs, heval, happly⟩

end ParitySystem

end HalfGates
