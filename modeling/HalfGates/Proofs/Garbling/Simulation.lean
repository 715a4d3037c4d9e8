import HalfGates.Proofs.Garbling.Agreement
import HalfGates.Proofs.Program.Keeping

/-!
# The two parties run in step

Gate by gate, the generator, the evaluator and the evaluation in the clear keep three views of the same
joint wires. The invariant of a step is that the histories of all three are those of one list of wires.

## Main definitions

- `sourceBits`: the bits of the sources of some gates, each from its party
- `Garbler.Tracks`: the generator's history is that of a list of joint wires
- `Receives`: what the evaluator may receive for a payload of the generator
- `Garbler.GateAgrees`, `Garbler.step_agrees`: one gate
- `Garbler.GatesAgree`, `Garbler.steps_agree`: any number of gates
-/

namespace HalfGates

/-- The bits of the sources of some gates, in order: an input takes the next bit of its party, and a random
gate the next random bit. -/
def sourceBits : List Gate → List Bool → (Nat → Bool) → List Bool → List Bool
  | [], _, _, _ => []
  | g :: gates, own, random, given =>
    if g.isGeneratorInput then own.headD false :: sourceBits gates own.tail random given
    else if g.kind == .random then random 0 :: sourceBits gates own (fun k => random (k + 1)) given
    else if g.isEvaluatorInput then given.headD false :: sourceBits gates own random given.tail
    else sourceBits gates own random given

theorem Gate.isGeneratorInput_iff (g : Gate) :
    g.isGeneratorInput = true ↔ g.kind = .input ∧ g.scope.generator = true := by
  simp [isGeneratorInput]

theorem Gate.isEvaluatorInput_iff (g : Gate) :
    g.isEvaluatorInput = true ↔ g.kind = .input ∧ g.scope.generator = false := by
  simp [isEvaluatorInput]

/-- An input is supplied by one of the parties. -/
theorem Gate.isSource_eq (g : Gate) :
    g.kind.isSource = (g.isGeneratorInput || (g.kind == .random || g.isEvaluatorInput)) := by
  unfold isGeneratorInput isEvaluatorInput
  cases hk : g.kind <;> cases hscope : g.scope.generator <;> rfl

/-- A gate that is no source takes no bit. -/
theorem Gate.of_isSource_eq_false {g : Gate} (h : g.kind.isSource = false) :
    g.isGeneratorInput = false ∧ (g.kind == .random) = false ∧ g.isEvaluatorInput = false := by
  rw [g.isSource_eq] at h
  obtain ⟨hown, hrest⟩ := Bool.or_eq_false_iff.mp h
  exact ⟨hown, Bool.or_eq_false_iff.mp hrest⟩

/-- A source takes its bit from just one party, or from the random stream. -/
theorem Gate.source_cases {g : Gate} (h : g.kind.isSource = true) :
    (g.isGeneratorInput = true ∧ (g.kind == .random) = false ∧ g.isEvaluatorInput = false) ∨
      (g.isGeneratorInput = false ∧ (g.kind == .random) = true ∧ g.isEvaluatorInput = false) ∨
      (g.isGeneratorInput = false ∧ (g.kind == .random) = false ∧ g.isEvaluatorInput = true) := by
  rw [g.isSource_eq] at h
  cases hown : g.isGeneratorInput with
  | true =>
    obtain ⟨hk, hscope⟩ := g.isGeneratorInput_iff.mp hown
    exact .inl ⟨rfl, by rw [hk]; rfl, by simp [isEvaluatorInput, hscope]⟩
  | false =>
    cases hrandom : g.kind == .random with
    | true =>
      have hk : g.kind = .random := eq_of_beq hrandom
      exact .inr (.inl ⟨rfl, rfl, by simp [isEvaluatorInput, hk]⟩)
    | false => exact .inr (.inr ⟨rfl, rfl, by simpa [hown, hrandom] using h⟩)

@[simp] theorem length_sourceBits (gates : List Gate) (own : List Bool) (random : Nat → Bool)
    (given : List Bool) :
    (sourceBits gates own random given).length = gates.countP fun g => g.kind.isSource := by
  induction gates generalizing own random given with
  | nil => rfl
  | cons g gates ih =>
    rw [List.countP_cons, sourceBits]
    cases hsource : g.kind.isSource with
    | false =>
      obtain ⟨hown, hr, hgiven⟩ := Gate.of_isSource_eq_false hsource
      simp [hown, hr, hgiven, ih]
    | true =>
      rcases Gate.source_cases hsource with
        ⟨hown, hr, hgiven⟩ | ⟨hown, hr, hgiven⟩ | ⟨hown, hr, hgiven⟩ <;>
      simp [hown, hr, hgiven, ih]

/-- The source bits of a program, given those of the evaluator's inputs. -/
def Program.sourceBits (p : Program) (setup : GarblingSetup) (given : List Bool) : List Bool :=
  HalfGates.sourceBits p.gates setup.inputs setup.randomBits given

@[simp] theorem Program.length_sourceBits (p : Program) (setup : GarblingSetup) (given : List Bool) :
    (p.sourceBits setup given).length = p.sourceCount :=
  HalfGates.length_sourceBits _ _ _ _

namespace Garbler

/-- The source bits of the gates that the generator has before it. -/
def bitsAhead (setup : GarblingSetup) (s : Garbler) (gates : List Gate) (given : List Bool) :
    List Bool :=
  sourceBits gates (setup.inputs.drop s.inputsUsed) (fun k => setup.randomBits (s.randomUsed + k)) given

theorem bitsAhead_initial (setup : GarblingSetup) (p : Program) (given : List Bool) :
    initial.bitsAhead setup p.gates given = p.sourceBits setup given := by
  simp [bitsAhead, initial, Program.sourceBits]

/-- The first of the bits ahead is the one that the next gate takes, if it is a source. -/
theorem bitsAhead_cons {setup : GarblingSetup} {s s' : Garbler} {g : Gate} (gates : List Gate)
    (given : List Bool) (hinputs : s'.inputsUsed = s.inputsUsed + g.isGeneratorInput.toNat)
    (hrandom : s'.randomUsed = s.randomUsed + (g.kind == .random).toNat) :
    s.bitsAhead setup (g :: gates) given =
      (if g.kind.isSource then [nextBit setup s g (given.headD false)] else []) ++
        s'.bitsAhead setup gates (if g.isEvaluatorInput then given.tail else given) := by
  have htail : (setup.inputs.drop s.inputsUsed).tail = setup.inputs.drop (s.inputsUsed + 1) :=
    List.tail_drop
  have hshift : (fun k => setup.randomBits (s.randomUsed + (k + 1))) =
      fun k => setup.randomBits (s.randomUsed + 1 + k) := by
    funext k
    rw [Nat.add_comm k 1, Nat.add_assoc]
  rw [bitsAhead, bitsAhead, sourceBits, nextBit, hinputs, hrandom, htail, hshift]
  cases hsource : g.kind.isSource with
  | false =>
    obtain ⟨hown, hr, hgiven⟩ := Gate.of_isSource_eq_false hsource
    simp [hown, hr, hgiven]
  | true =>
    rcases Gate.source_cases hsource with ⟨hown, hr, hgiven⟩ | ⟨hown, hr, hgiven⟩ | ⟨hown, hr, hgiven⟩
    · simp [hown, hr, hgiven, List.headD_eq_head?_getD]
    · simp [hown, hr, hgiven]
    · simp [hown, hr, hgiven]

/-- The generator's history is that of a list of wires, newest first, and no bit waits to be drawn. -/
structure Tracks (s : Garbler) (older : List JointWire) : Prop where
  past : s.past = older.map JointWire.wire
  pushed : s.pushed = []

theorem tracks_initial : initial.Tracks [] := ⟨rfl, rfl⟩

end Garbler

/-- The evaluator's history is that of the wires, and its input labels are given. -/
structure GarbledRun.Tracks (δ : Delta) (e : GarbledRun) (older : List JointWire)
    (inputs : List Block) : Prop where
  past : e.past = older.map (JointWire.held δ)
  inputs : e.inputs = inputs

/-- What the evaluator receives for a payload: a view of the same bits that starts on a byte boundary. -/
def Receives (payload received : BitView) : Prop :=
  received.startsAligned = true ∧ received.toBits = payload.toBits

namespace Garbler

variable {setup : GarblingSetup} {s s' : Garbler} {older : List JointWire}

theorem nextBit_of_isEvaluatorInput (setup : GarblingSetup) (s : Garbler) {g : Gate}
    (h : g.isEvaluatorInput = true) (given : Bool) : nextBit setup s g given = given := by
  obtain ⟨hk, hscope⟩ := g.isEvaluatorInput_iff.mp h
  have hown : g.isGeneratorInput = false := by simp [Gate.isGeneratorInput, hscope]
  have hrandom : (g.kind == .random) = false := by rw [hk]; rfl
  simp [nextBit, hown, hrandom]

/-- The payload is the rows, followed by the select bit that lets the evaluator learn the value. -/
theorem exists_publish (scope : Scope) (wire : Wire) {rows : BitView} {count : Nat}
    (hrows : rows.IsRows count) :
    ∃ payload, publish scope wire rows = .ok payload ∧ payload.startsAligned = true ∧
      payload.toBits = rows.toBits ++ if scope.evaluator then [wire.zero.select] else [] := by
  cases hscope : scope.evaluator with
  | false => exact ⟨rows, by rw [publish, hscope]; rfl, hrows.aligned, by simp⟩
  | true =>
    have hsingle : (BitView.singleton wire.zero.select).startsAligned = true := rfl
    obtain ⟨joined, hconcat, hbits, hjoined⟩ := hrows.exists_concat hsingle
    refine ⟨joined, ?_, hjoined, by rw [hbits, BitView.toBits_singleton]; rfl⟩
    rw [publish, hscope, if_pos rfl, hconcat]

/-- The evaluator reads the value off its label and the published bit. -/
theorem learn_eq (δ : Delta) (index : Nat) (scope : Scope) (zero : Block) (value : Bool)
    {rest : BitView} (hrest : rest.toBits = if scope.evaluator then [zero.select] else []) :
    GarbledRun.learn index scope (zero ^^^ δ.times value) rest =
      .ok (if scope.evaluator then some value else none) := by
  cases hscope : scope.evaluator with
  | false => simp [GarbledRun.learn, hscope]
  | true =>
    rw [hscope, if_pos rfl] at hrest
    have hbit : rest.get? 0 = some zero.select := by
      rw [BitView.get?_eq, hrest]
      rfl
    have hvalue : ((zero ^^^ δ.times value).select ^^ zero.select) = value := by
      rw [Block.select_xor, Delta.select_times]
      cases zero.select <;> cases value <;> rfl
    rw [GarbledRun.learn, if_pos hscope, hbit]
    dsimp only
    rw [hvalue]
    rfl

/-- The two parties agree on a gate: both extend their histories by the wire `j`, which has the value that
the gate has in the clear. -/
structure GateAgrees (setup : GarblingSetup) (s s' : Garbler) (older : List JointWire) (g : Gate)
    (given : Bool) (payload : BitView) (j : JointWire) : Prop where
  tracks : s'.Tracks (j :: older)
  scope : j.scope = g.scope
  value : j.value = (g.op.map (PlainRun.bitBack (older.map JointWire.value))).value
    (nextBit setup s g given)
  given : g.isEvaluatorInput = true → j.value = given
  inputsUsed : s'.inputsUsed = s.inputsUsed + g.isGeneratorInput.toNat
  randomUsed : s'.randomUsed = s.randomUsed + (g.kind == .random).toNat
  aligned : payload.startsAligned = true
  length_le : payload.length ≤ 257
  evaluates : ∀ received (e : GarbledRun) inputs, Receives payload received →
    e.Tracks setup.delta older
      ((if g.isEvaluatorInput then [j.label setup.delta] else []) ++ inputs) →
    ∃ e', e.step setup.hash g received = .ok e' ∧ e'.Tracks setup.delta (j :: older) inputs

/-- The evaluator takes its label from what it receives and reads the value off it. -/
theorem exists_evaluatorStep {g : Gate} {op : Operation JointWire} {value : Bool} {w : Wire}
    {rows payload received : BitView} (hop : g.op.mapM? (back? older) = some op)
    (h : Agrees setup g s s' value w rows fun payload e =>
      e.operation setup.hash older.length g payload (op.map (JointWire.held setup.delta)))
    (hbits : payload.toBits = rows.toBits ++ if g.scope.evaluator then [w.zero.select] else [])
    (hreceived : Receives payload received) {e : GarbledRun} {inputs : List Block}
    (he : e.Tracks setup.delta older
      ((if g.isEvaluatorInput then [w.zero ^^^ setup.delta.times value] else []) ++ inputs)) :
    ∃ e', e.step setup.hash g received = .ok e' ∧
      e'.Tracks setup.delta (⟨w.zero, g.scope, value⟩ :: older) inputs := by
  obtain ⟨rest, e', hrun, hpast, hinputs, -, hrest⟩ := h.opens received e _ inputs
    hreceived.1 (hreceived.2.trans hbits) he.inputs
  refine ⟨{ e' with past := JointWire.held setup.delta ⟨w.zero, g.scope, value⟩ :: e'.past },
    ?_, ?_, hinputs⟩
  · refine GarbledRun.step_eq_ok.mpr ⟨op.map (JointWire.held setup.delta), _, rest, e', _, ?_, ?_,
      learn_eq setup.delta _ _ _ _ hrest, rfl⟩
    · rw [he.past, Operation.mapM?_back?_map, hop, Option.map_some]
    · rw [he.past, List.length_map]
      exact hrun
  · rw [List.map_cons, ← he.past, ← hpast]

/-- One gate that the generator garbles. -/
theorem step_agrees {g : Gate} {payload : BitView} (hs : s.Tracks older)
    (hconstant : g.kind.isConstant = true → g.scope = .both)
    (hrandom : g.kind = .random → g.scope.generator = true) (given : Bool)
    (h : s.step setup g = .ok (payload, s')) :
    ∃ j, GateAgrees setup s s' older g given payload j := by
  obtain ⟨wires, w, rows, s₁, hwires, hoperation, hpublish, rfl⟩ := step_eq_ok.mp h
  rw [hs.past, Operation.mapM?_back?_map] at hwires
  obtain ⟨op, hop, rfl⟩ := Option.map_eq_some_iff.mp hwires
  rw [hs.past, List.length_map] at hoperation
  have hkind : op.kind = g.kind := Operation.kind_of_mapM? hop
  have hagrees := operation_agrees hkind given hconstant hrandom hs.pushed hoperation
  -- the operands have the values of the gates that they are the wires of
  have hvalue : g.op.map (PlainRun.bitBack (older.map JointWire.value)) = op.map JointWire.value := by
    refine Operation.map_of_mapM? hop fun d j hd => ?_
    rw [PlainRun.bitBack, back?_map, hd]
    rfl
  obtain ⟨count, hcount, hrows⟩ := hagrees.isRows
  obtain ⟨payload', hpayload', haligned, hbits⟩ := exists_publish g.scope w hrows
  rw [hpayload'] at hpublish
  cases hpublish
  have hshort : payload.length ≤ 257 := by
    have hlength := congrArg List.length hbits
    rw [List.length_append, BitView.length_toBits, BitView.length_toBits, hrows.length] at hlength
    cases he : g.scope.evaluator <;> simp [he] at hlength <;> omega
  obtain ⟨value, hbit⟩ : ∃ value, (op.map JointWire.value).value (nextBit setup s g given) = value :=
    ⟨_, rfl⟩
  rw [hbit] at hagrees
  have hgiven : g.isEvaluatorInput = true → value = given := by
    intro hg
    rw [← nextBit_of_isEvaluatorInput setup s hg given, ← hbit]
    refine Operation.value_of_isSource ?_ _
    rw [Operation.kind_map, hkind, g.isSource_eq, hg]
    simp
  have htracks : Tracks { s₁ with past := w :: s₁.past } (⟨w.zero, g.scope, value⟩ :: older) := by
    refine ⟨?_, ?_⟩
    · rw [List.map_cons, ← hagrees.wire, ← hs.past, ← hagrees.past]
    · rw [← hs.pushed, ← hagrees.pushed]
  exact ⟨⟨w.zero, g.scope, value⟩, htracks, rfl, by rw [hvalue, hbit], hgiven, hagrees.inputsUsed,
    hagrees.randomUsed, haligned, hshort, fun _ _ _ hreceived he =>
    exists_evaluatorStep hop hagrees hbits hreceived he⟩

/-- In the clear, the gate has the value of the wire and takes the bit that the generator takes. -/
theorem GateAgrees.plainStep {s₁ : Garbler} {g : Gate} {given : List Bool} {payload : BitView}
    {j : JointWire} (h : GateAgrees setup s s₁ older g (given.headD false) payload j)
    (gates : List Gate) :
    PlainRun.step ⟨older.map JointWire.value, s.bitsAhead setup (g :: gates) given⟩ g =
      ⟨(j :: older).map JointWire.value,
        s₁.bitsAhead setup gates (if g.isEvaluatorInput then given.tail else given)⟩ := by
  rw [bitsAhead_cons gates given h.inputsUsed h.randomUsed, PlainRun.step, PlainRun.value,
    List.map_cons, h.value]
  cases hsource : g.kind.isSource with
  | true => rfl
  | false =>
    have hop : (g.op.map (PlainRun.bitBack (older.map JointWire.value))).kind.isSource = false := by
      simpa [Gate.kind] using hsource
    rw [Operation.value_supplied hop _ (nextBit setup s g (given.headD false))]
    rfl

/-- The two parties agree on gates in order: both extend their histories by the same wires, which have the
values that the gates have in the clear. -/
structure GatesAgree (setup : GarblingSetup) (s s' : Garbler) (older : List JointWire)
    (gates : List Gate) (given : List Bool) (payloads : List BitView) (wires : List JointWire) :
    Prop where
  tracks : s'.Tracks (wires.reverse ++ older)
  scopes : wires.map JointWire.scope = gates.map Gate.scope
  values : (gates.foldl PlainRun.step ⟨older.map JointWire.value, s.bitsAhead setup gates given⟩).past =
    (wires.reverse ++ older).map JointWire.value
  given : (keep (gates.map Gate.isEvaluatorInput) wires).map JointWire.value = given
  length_eq : payloads.length = gates.length
  shapes : ∀ payload ∈ payloads, payload.startsAligned = true ∧ payload.length ≤ 257
  evaluates : ∀ received (e : GarbledRun), received.map BitView.toBits = payloads.map BitView.toBits →
    (∀ v ∈ received, v.startsAligned = true) →
    e.Tracks setup.delta older
      ((keep (gates.map Gate.isEvaluatorInput) wires).map (JointWire.label setup.delta)) →
    ∃ e', e.steps setup.hash gates received = .ok e' ∧
      e'.Tracks setup.delta (wires.reverse ++ older) []

namespace GatesAgree

theorem nil (hs : s.Tracks older) : GatesAgree setup s s older [] [] [] [] where
  tracks := hs
  scopes := rfl
  values := rfl
  given := rfl
  length_eq := rfl
  shapes := by simp
  evaluates := fun _ e _ _ he => ⟨e, rfl, he⟩

theorem cons {s₁ : Garbler} {g : Gate} {gates : List Gate} {given : List Bool} {payload : BitView}
    {payloads : List BitView} {j : JointWire} {wires : List JointWire}
    (h : GateAgrees setup s s₁ older g (given.headD false) payload j)
    (hrest : GatesAgree setup s₁ s' (j :: older) gates
      (if g.isEvaluatorInput then given.tail else given) payloads wires)
    (hgiven : g.isEvaluatorInput = true → given ≠ []) :
    GatesAgree setup s s' older (g :: gates) given (payload :: payloads) (j :: wires) where
  tracks := by simpa using hrest.tracks
  scopes := by rw [List.map_cons, List.map_cons, h.scope, hrest.scopes]
  values := by
    rw [List.foldl_cons, h.plainStep gates, hrest.values, List.reverse_cons, List.append_assoc]
    rfl
  given := by
    have hgivens := hrest.given
    cases hg : g.isEvaluatorInput with
    | false => simpa [hg] using hgivens
    | true =>
      cases given with
      | nil => exact absurd rfl (hgiven hg)
      | cons b given =>
        rw [hg] at hgivens
        rw [List.map_cons, hg, keep_cons_true, List.map_cons, hgivens, h.given hg]
        rfl
  length_eq := by rw [List.length_cons, List.length_cons, hrest.length_eq]
  shapes := by
    intro v hv
    rcases List.mem_cons.mp hv with rfl | hv
    · exact ⟨h.aligned, h.length_le⟩
    · exact hrest.shapes v hv
  evaluates := by
    intro received e hbits hreceived he
    cases received with
    | nil => cases hbits
    | cons first received =>
      obtain ⟨hfirst, hbits⟩ := List.cons.inj hbits
      have hinputs : e.Tracks setup.delta older
          ((if g.isEvaluatorInput then [j.label setup.delta] else []) ++
            (keep (gates.map Gate.isEvaluatorInput) wires).map (JointWire.label setup.delta)) := by
        cases hg : g.isEvaluatorInput <;> simpa [hg] using he
      obtain ⟨e₁, hstep, he₁⟩ :=
        h.evaluates first e _ ⟨hreceived first List.mem_cons_self, hfirst⟩ hinputs
      obtain ⟨e', hrun, he'⟩ := hrest.evaluates received e₁ hbits
        (fun v hv => hreceived v (List.mem_cons_of_mem first hv)) he₁
      refine ⟨e', ?_, by simpa using he'⟩
      rw [GarbledRun.steps, hstep, ok_bind, hrun]

end GatesAgree

/-- Any number of gates that the generator garbles. -/
theorem steps_agree {gates : List Gate} {payloads : List BitView} (hs : s.Tracks older)
    (hconstant : ∀ g ∈ gates, g.kind.isConstant = true → g.scope = .both)
    (hrandom : ∀ g ∈ gates, g.kind = .random → g.scope.generator = true) {given : List Bool}
    (hgiven : given.length = gates.countP Gate.isEvaluatorInput)
    (h : s.steps setup gates = .ok (payloads, s')) :
    ∃ wires, GatesAgree setup s s' older gates given payloads wires := by
  induction gates generalizing s older given payloads with
  | nil =>
    cases h
    obtain rfl : given = [] := List.eq_nil_of_length_eq_zero hgiven
    exact ⟨[], .nil hs⟩
  | cons g gates ih =>
    obtain ⟨⟨payload, s₁⟩, hstep, h⟩ := bind_eq_ok.mp h
    obtain ⟨⟨payloads, s₂⟩, hsteps, h⟩ := bind_eq_ok.mp h
    cases h
    obtain ⟨j, hj⟩ := step_agrees hs (hconstant g List.mem_cons_self)
      (hrandom g List.mem_cons_self) (given.headD false) hstep
    rw [List.countP_cons] at hgiven
    have hrest : (if g.isEvaluatorInput then given.tail else given).length =
        gates.countP Gate.isEvaluatorInput := by
      cases hg : g.isEvaluatorInput with
      | false => simpa [hg] using hgiven
      | true => simp [hgiven, hg]
    have hne : g.isEvaluatorInput = true → given ≠ [] := by
      rintro hg rfl
      simp [hg] at hgiven
    obtain ⟨wires, hwires⟩ := ih hj.tracks (fun g' hg' => hconstant g' (List.mem_cons_of_mem g hg'))
      (fun g' hg' => hrandom g' (List.mem_cons_of_mem g hg')) hrest hsteps
    exact ⟨j :: wires, .cons hj hwires hne⟩

end Garbler

end HalfGates
