import HalfGates.Garbling.Circuit
import HalfGates.Garbling.Garble
import HalfGates.Proofs.Block
import HalfGates.Proofs.Program.History
import Mathlib.Data.LawfulXor.Basic

/-!
# Wires seen from both sides

A wire of a garbled program has a label for zero and a value. The generator holds the label for zero, the
evaluator the label of the value, and each of them the value itself if the scope of the wire includes it.
Half gates keep to this.

## Main definitions

- `JointWire`: a label for zero, a scope and a value, with what the two parties hold of them
- `Opens`: what a rule of the evaluator takes from a payload and which label it ends with
- `Garbler.generatorHalf_agrees`, `Garbler.evaluatorHalf_agrees`: half gates
- `JointWire.mask`, `JointWire.masked`, `Garbler.split_agrees`: a conjunction of two half gates
- `Garbler.step_eq_ok`, `GarbledRun.step_eq_ok`: what the two parties do for a gate
-/

namespace HalfGates

/-! ### Operations on wires -/

namespace Operation

variable {ι κ μ : Type}

theorem mapM?_map (h : κ → μ) (f : ι → Option κ) (op : Operation ι) :
    op.mapM? (fun i => (f i).map h) = (op.mapM? f).map (map h) := by
  cases op with
  | unary n x => cases hx : f x <;> simp [mapM?, hx, map]
  | linear n x y => cases hx : f x <;> cases hy : f y <;> simp [mapM?, hx, hy, map]
  | conjunction p q n x y => cases hx : f x <;> cases hy : f y <;> simp [mapM?, hx, hy, map]
  | _ => rfl

theorem kind_of_mapM? {f : ι → Option κ} {op : Operation ι} {found : Operation κ}
    (h : op.mapM? f = some found) : found.kind = op.kind := by
  cases op with
  | unary n x =>
    obtain ⟨a, -, rfl⟩ := Option.map_eq_some_iff.mp h
    rfl
  | linear n x y =>
    simp only [mapM?] at h
    split at h <;> cases h
    rfl
  | conjunction p q n x y =>
    simp only [mapM?] at h
    split at h <;> cases h
    rfl
  | _ =>
    cases h
    rfl

/-- What is found for the operands may be looked up first or last. -/
theorem map_of_mapM? {f : ι → Option κ} {op : Operation ι} {found : Operation κ}
    (h : op.mapM? f = some found) {g : ι → μ} {d : κ → μ} (hg : ∀ i k, f i = some k → g i = d k) :
    op.map g = found.map d := by
  cases op with
  | unary n x =>
    obtain ⟨a, ha, rfl⟩ := Option.map_eq_some_iff.mp h
    rw [map, map, hg x a ha]
  | linear n x y =>
    simp only [mapM?] at h
    split at h
    · next a b ha hb =>
      cases h
      rw [map, map, hg x a ha, hg y b hb]
    · cases h
  | conjunction p q n x y =>
    simp only [mapM?] at h
    split at h
    · next a b ha hb =>
      cases h
      rw [map, map, hg x a ha, hg y b hb]
    · cases h
  | _ =>
    cases h
    rfl

/-- Operands may be looked up before or after every entry of the history is mapped. -/
theorem mapM?_back?_map (f : ι → κ) (past : List ι) (op : Operation Nat) :
    op.mapM? (back? (past.map f)) = (op.mapM? (back? past)).map (map f) := by
  rw [← mapM?_map]
  congr 1
  funext d
  exact back?_map f past d

/-- Something is found for an operation if something is found for each operand. -/
theorem exists_mapM? {f : ι → Option κ} {op : Operation ι}
    (h : ∀ x ∈ op.operands, ∃ k, f x = some k) : ∃ found, op.mapM? f = some found := by
  cases op with
  | unary n x =>
    obtain ⟨a, ha⟩ := h x (by simp [operands])
    exact ⟨_, by rw [mapM?, ha]; rfl⟩
  | linear n x y =>
    obtain ⟨a, ha⟩ := h x (by simp [operands])
    obtain ⟨b, hb⟩ := h y (by simp [operands])
    exact ⟨.linear n a b, by simp only [mapM?, ha, hb]⟩
  | conjunction p q n x y =>
    obtain ⟨a, ha⟩ := h x (by simp [operands])
    obtain ⟨b, hb⟩ := h y (by simp [operands])
    exact ⟨.conjunction p q n a b, by simp only [mapM?, ha, hb]⟩
  | _ => exact ⟨_, rfl⟩

end Operation

theorem Delta.times_xor (δ : Delta) (a b : Bool) : δ.times (a ^^ b) = δ.times a ^^^ δ.times b := by
  cases a <;> cases b <;> simp

theorem xor_xor_xor_cancel (a b c : Block) : a ^^^ c ^^^ (b ^^^ c) = a ^^^ b := by
  rw [BitVec.xor_comm b c, BitVec.xor_assoc, xor_cancel_left]

/-- The exclusive or of the labels of two wires is the label of their exclusive or. -/
theorem Delta.xor_labels (δ : Delta) (a b : Block) (x y : Bool) :
    (a ^^^ δ.times x) ^^^ (b ^^^ δ.times y) = (a ^^^ b) ^^^ δ.times (x ^^ y) := by
  rw [δ.times_xor]
  ac_rfl

/-! ### Wires -/

/-- What the two parties together hold of a gate. -/
structure JointWire where
  /-- The label for zero. -/
  zero : Block
  scope : Scope
  value : Bool

namespace JointWire

/-- What the generator holds. -/
def wire (j : JointWire) : Wire :=
  ⟨j.zero, if j.scope.generator then some j.value else none, j.scope⟩

/-- The label of the value. -/
def label (δ : Delta) (j : JointWire) : Block :=
  j.zero ^^^ δ.times j.value

/-- What the evaluator holds. -/
def held (δ : Delta) (j : JointWire) : Held :=
  ⟨j.label δ, if j.scope.evaluator then some j.value else none, j.scope⟩

/-- The generator knows no other value than that of the wire. -/
theorem value_of_bit {j : JointWire} {b : Bool} (h : j.wire.bit = some b) : b = j.value := by
  unfold wire at h
  dsimp only at h
  split at h
  · exact (Option.some.inj h).symm
  · cases h

end JointWire

/-! ### Rows -/

namespace GarbledRun

/-- The evaluator takes a row from the front of a payload that has as many bits. -/
theorem takeRow_eq (index : Nat) {payload : BitView} {bits tail : List Bool}
    (haligned : payload.startsAligned = true) (hbits : payload.toBits = bits ++ tail)
    (hlength : bits.length = 128) :
    ∃ rest, takeRow index payload = .ok (.ofBytes (Bits.pack bits), rest) ∧
      rest.startsAligned = true ∧ rest.toBits = tail := by
  have hlen : 128 ≤ payload.length := by
    rw [← BitView.length_toBits, hbits, List.length_append, hlength]
    exact Nat.le_add_right 128 _
  obtain ⟨front, rest, hsplit, hfront, hrest, hstart, hstart'⟩ := BitView.exists_split? hlen
  have hrow : front.toBits = bits := by
    rw [hfront, hbits, ← hlength, List.take_left]
  have hblock : front.toBlock = .ok (.ofBytes (Bits.pack bits)) := by
    rw [← hrow]
    refine BitView.toBlock_of_length ?_ ?_
    · rwa [BitView.startsAligned, hstart]
    · rw [← BitView.length_toBits, hrow, hlength]
  refine ⟨rest, ?_, ?_, ?_⟩
  · rw [takeRow, hsplit]
    dsimp only
    rw [hblock]
  · have hmod : payload.start % 8 = 0 := by simpa [BitView.startsAligned] using haligned
    simp only [BitView.startsAligned, hstart', beq_iff_eq]
    omega
  · rw [hrest, hbits, ← hlength, List.drop_left]

/-- A payload that begins with the bits of a row gives the row. -/
theorem exists_takeRow (index : Nat) {payload : BitView} {row : Block} {tail : List Bool}
    (haligned : payload.startsAligned = true) (hbits : payload.toBits = row.toBits ++ tail) :
    ∃ rest, takeRow index payload = .ok (row, rest) ∧ rest.startsAligned = true ∧
      rest.toBits = tail := by
  have htake := takeRow_eq index haligned hbits (Block.length_toBits row)
  rwa [Block.ofBytes_pack_toBits] at htake

end GarbledRun

/-- A rule of the evaluator that takes the given bits from the front of a payload and the given labels from
the input labels, and ends with a label. -/
def Opens (rule : BitView → GarbledRun → Except EvaluationError (Block × BitView × GarbledRun))
    (bits : List Bool) (consumed : List Block) (label : Block) : Prop :=
  ∀ payload (e : GarbledRun) tail inputs, payload.startsAligned = true →
    payload.toBits = bits ++ tail → e.inputs = consumed ++ inputs →
    ∃ rest e', rule payload e = .ok (label, rest, e') ∧ e'.past = e.past ∧ e'.inputs = inputs ∧
      rest.startsAligned = true ∧ rest.toBits = tail

/-- A rule that needs neither rows nor input labels. -/
theorem Opens.of_label
    {rule : BitView → GarbledRun → Except EvaluationError (Block × BitView × GarbledRun)}
    {label : Block} (h : ∀ payload e, rule payload e = .ok (label, payload, e)) :
    Opens rule [] [] label := by
  intro payload e tail inputs haligned hbits hinputs
  exact ⟨payload, e, h payload e, rfl, by simpa using hinputs, haligned, by simpa using hbits⟩

/-! ### Half gates -/

namespace HalfGate

open Hashing (hide reveal)

variable (δ : Delta) (hash : TweakedHash) (place : Tweak)

/-- The evaluator ends with the label of the value that the wire selects. -/
theorem openKnown_garbleKnown (zero : Block) (z0 z1 v : Bool) :
    (openKnown place (zero ^^^ δ.times v) ((garbleKnown δ place zero z0 z1).value hash).row).value hash =
      ((garbleKnown δ place zero z0 z1).value hash).zero ^^^ δ.times (if v then z1 else z0) := by
  cases hs : zero.select <;> cases v <;> cases z0 <;> cases z1 <;>
    simp [openKnown, garbleKnown, hide, reveal, hs, Block.select_xor, δ.select_block, BitVec.xor_assoc]

/-- The evaluator ends with the label of the conjunction. -/
theorem openMasked_garbleMasked (known other : Block) (p q n v u : Bool) :
    (openMasked place (known ^^^ δ.times v) (other ^^^ δ.times u) v p
        ((garbleMasked δ place known other p q n).value hash).row).value hash =
      ((garbleMasked δ place known other p q n).value hash).zero ^^^
        δ.times (((v ^^ p) && (u ^^ q)) ^^ n) := by
  cases v <;> cases p <;> cases q <;> cases n <;> cases u <;>
    simp [openMasked, garbleMasked, hide, reveal, BitVec.xor_assoc]

end HalfGate

theorem Garbler.perform_eq (setup : GarblingSetup) (s : Garbler) (c : Hashing HalfGate) :
    s.perform setup c = (c.value setup.hash,
      { s with rows := s.rows + 1, queries := c.queries setup.hash ++ s.queries }) := by
  rw [perform, Hashing.run_eq]

theorem GarbledRun.perform_eq (hash : TweakedHash) (e : GarbledRun) (c : Hashing Block) :
    e.perform hash c = (c.value hash, { e with queries := c.queries hash ++ e.queries }) := by
  rw [perform, Hashing.run_eq]

section halves

variable {setup : GarblingSetup} {place : Tweak} {p q n : Bool} {x y : JointWire}

/-- A conjunction with an operand that the generator knows. -/
theorem Garbler.generatorHalf_agrees {first second : Tweak} {half : Hashing HalfGate}
    (h : generatorHalf setup.delta place first second p q n x.wire y.wire = .ok half) :
    Opens (GarbledRun.generatorHalf setup.hash place (x.held setup.delta) (y.held setup.delta))
      (half.value setup.hash).row.toBits []
      ((half.value setup.hash).zero ^^^ setup.delta.times (conjoin p q n x.value y.value)) := by
  intro payload e tail inputs haligned hbits hinputs
  obtain ⟨rest, hrow, hrest⟩ := GarbledRun.exists_takeRow place.gate haligned hbits
  obtain ⟨c, hc⟩ : ∃ c, c = HalfGate.openKnown place
      (if x.scope.generator then y.label setup.delta else x.label setup.delta)
      (half.value setup.hash).row := ⟨_, rfl⟩
  have hopen : c.value setup.hash =
      (half.value setup.hash).zero ^^^ setup.delta.times (conjoin p q n x.value y.value) := by
    unfold generatorHalf at h
    rw [hc]
    cases hx : x.scope.generator with
    | true =>
      simp only [JointWire.wire, hx, if_true, Except.ok.injEq] at h
      rw [← h, if_pos rfl, JointWire.label, HalfGate.openKnown_garbleKnown]
      cases y.value <;> rfl
    | false =>
      simp only [JointWire.wire, hx, Bool.false_eq_true, if_false] at h
      split at h
      · cases h
      · next value hvalue =>
        obtain rfl := JointWire.value_of_bit hvalue
        rw [← Except.ok.inj h, if_neg (by decide), JointWire.label, HalfGate.openKnown_garbleKnown]
        cases x.value <;> rfl
  refine ⟨rest, (e.perform setup.hash c).2, ?_, rfl, hinputs, hrest⟩
  rw [GarbledRun.generatorHalf, hrow, ok_bind, ← hopen]
  simp only [GarbledRun.perform_eq, hc]
  cases hx : x.scope.generator <;> simp [JointWire.held, hx]

/-- A conjunction with an operand that the evaluator knows. -/
theorem Garbler.evaluatorHalf_agrees {first second : Nat}
    (h : (x.scope.evaluator || y.scope.evaluator) = true) :
    Opens
      (GarbledRun.evaluatorHalf setup.hash place first second p q (x.held setup.delta)
        (y.held setup.delta))
      ((evaluatorHalf setup.delta place p q n x.wire y.wire).value setup.hash).row.toBits []
      (((evaluatorHalf setup.delta place p q n x.wire y.wire).value setup.hash).zero ^^^
        setup.delta.times (conjoin p q n x.value y.value)) := by
  intro payload e tail inputs haligned hbits hinputs
  obtain ⟨rest, hrow, hrest⟩ := GarbledRun.exists_takeRow place.gate haligned hbits
  obtain ⟨half, hhalf⟩ : ∃ half, half = evaluatorHalf setup.delta place p q n x.wire y.wire := ⟨_, rfl⟩
  rw [← hhalf] at hrow ⊢
  cases hx : x.scope.evaluator with
  | true =>
    refine ⟨rest, (e.perform setup.hash (HalfGate.openMasked place (x.label setup.delta)
      (y.label setup.delta) x.value p (half.value setup.hash).row)).2, ?_, rfl, hinputs, hrest⟩
    simp only [GarbledRun.evaluatorHalf, JointWire.held, hx, if_true, hrow, ok_bind,
      GarbledRun.perform_eq]
    rw [hhalf]
    simp only [evaluatorHalf, JointWire.wire, hx, if_true, JointWire.label,
      HalfGate.openMasked_garbleMasked]
    rfl
  | false =>
    have hy : y.scope.evaluator = true := by simpa [hx] using h
    have hcomm : conjoin p q n x.value y.value =
        (((y.value ^^ q) && (x.value ^^ p)) ^^ n) := by
      rw [Bool.and_comm]
      rfl
    refine ⟨rest, (e.perform setup.hash (HalfGate.openMasked place (y.label setup.delta)
      (x.label setup.delta) y.value q (half.value setup.hash).row)).2, ?_, rfl, hinputs, hrest⟩
    simp only [GarbledRun.evaluatorHalf, JointWire.held, hx, hy, if_true, Bool.false_eq_true, if_false,
      hrow, ok_bind, GarbledRun.perform_eq]
    rw [hhalf]
    simp only [evaluatorHalf, JointWire.wire, hx, Bool.false_eq_true, if_false, JointWire.label,
      HalfGate.openMasked_garbleMasked, hcomm]

end halves

/-- Between two states of the generator nothing was drawn, and no gate was added. -/
structure Garbler.SameDraws (s s' : Garbler) : Prop where
  past : s'.past = s.past
  inputsUsed : s'.inputsUsed = s.inputsUsed
  pushed : s'.pushed = s.pushed
  randomUsed : s'.randomUsed = s.randomUsed
  labelsUsed : s'.labelsUsed = s.labelsUsed

theorem Garbler.SameDraws.refl (s : Garbler) : SameDraws s s :=
  ⟨rfl, rfl, rfl, rfl, rfl⟩

/-- Making rows and hashing draws nothing. -/
theorem Garbler.SameDraws.of_hashing (s : Garbler) (rows : Nat) (queries : List Query) :
    SameDraws s { s with rows := rows, queries := queries } :=
  ⟨rfl, rfl, rfl, rfl, rfl⟩

/-! ### Splitting an operand -/

namespace JointWire

variable (δ : Delta) (y : JointWire)

/-- The random part of a split wire, which the generator knows: the select bit of the label for zero. -/
def mask : JointWire :=
  ⟨δ.times y.zero.select, .generatorOnly, y.zero.select⟩

/-- The rest of a split wire, which the evaluator knows: the select bit of the label of the value. -/
def masked : JointWire :=
  ⟨y.zero ^^^ (y.mask δ).zero, .evaluatorOnly, y.value ^^ y.zero.select⟩

theorem held_mask : (y.mask δ).held δ = ⟨0, none, .generatorOnly⟩ := by
  simp [held, label, mask, Scope.generatorOnly]

theorem label_masked : (y.masked δ).label δ = y.label δ := by
  rw [label, masked, mask, Delta.times_xor]
  exact xor_xor_xor_cancel _ _ _

/-- The evaluator reads its part off its label. -/
theorem held_masked :
    (y.masked δ).held δ = ⟨y.label δ ^^^ (0 : Block), some (y.label δ).select, .evaluatorOnly⟩ := by
  have hvalue : (y.label δ).select = (y.masked δ).value := by
    rw [label, Block.select_xor, Delta.select_times, masked, Bool.xor_comm]
  have hzero : y.label δ ^^^ (0 : Block) = y.label δ := BitVec.xor_zero
  rw [hvalue, hzero, ← label_masked]
  rfl

end JointWire

section split

variable {setup : GarblingSetup} {index : Nat} {g : Gate} {p q n : Bool} {x y : JointWire}

/-- The generator splits the second operand; the bit that it puts in front of the random stream is the one
that it draws. -/
theorem Garbler.split_eq (setup : GarblingSetup) (index : Nat) (g : Gate) (p q n : Bool) (x y : Wire)
    (s : Garbler) : s.split setup index g p q n x y = (do
      let upper ← generatorHalf setup.delta ⟨index, 3⟩ ⟨g.operandAt index 0, 0⟩ ⟨index, 4⟩ p false n x
        (publicWire setup .generatorOnly y.zero.select)
      let lower := evaluatorHalf setup.delta ⟨index, 1⟩ p q false x
        ⟨y.zero ^^^ setup.delta.times y.zero.select, none, .evaluatorOnly⟩
      match (BitView.ofBlock (upper.value setup.hash).row).concat
        (.ofBlock (lower.value setup.hash).row) with
      | .ok payload =>
        .ok (⟨(lower.value setup.hash).zero ^^^ (upper.value setup.hash).zero, none, g.scope⟩, payload,
          { s with
            rows := s.rows + 2
            queries := lower.queries setup.hash ++ (upper.queries setup.hash ++ s.queries) })
      | .error e => .error (.payload e)) := by
  have hmask : (s.pushBack y.zero.select).random setup .generatorOnly =
      (publicWire setup .generatorOnly y.zero.select, s) := rfl
  rw [split, hmask]
  simp only [perform_eq]
  rfl

theorem GarbledRun.split_eq (hash : TweakedHash) (δ : Delta) (payload : BitView) (e : GarbledRun) :
    e.split hash index g p q (x.held δ) (y.held δ) payload = (do
      let (upper, rest, e) ← generatorHalf hash ⟨index, 3⟩ (x.held δ) ((y.mask δ).held δ) payload e
      let (lower, rest, e) ← evaluatorHalf hash ⟨index, 1⟩ (g.operandAt index 0) index p q (x.held δ)
        ((y.masked δ).held δ) rest e
      .ok (lower ^^^ upper, rest, e)) := by
  rw [JointWire.held_mask, JointWire.held_masked]
  rfl

/-- A conjunction of two operands that nobody knows is made of two half gates. -/
theorem Garbler.split_agrees {s s' : Garbler} {w : Wire} {rows : BitView}
    (h : s.split setup index g p q n x.wire y.wire = .ok (w, rows, s')) :
    (w.bit = none ∧ w.scope = g.scope) ∧ rows.IsRows 2 ∧
      Opens (fun payload e =>
          e.split setup.hash index g p q (x.held setup.delta) (y.held setup.delta) payload)
        rows.toBits [] (w.zero ^^^ setup.delta.times (conjoin p q n x.value y.value)) ∧
      SameDraws s s' := by
  have hmask : publicWire setup .generatorOnly y.wire.zero.select = (y.mask setup.delta).wire := rfl
  have hmasked : (⟨y.wire.zero ^^^ setup.delta.times y.wire.zero.select, none, .evaluatorOnly⟩ : Wire) =
      (y.masked setup.delta).wire := rfl
  rw [split_eq, hmask, hmasked] at h
  obtain ⟨upper, hupper, h⟩ := bind_eq_ok.mp h
  obtain ⟨lower, hlower⟩ : ∃ lower, lower =
      evaluatorHalf setup.delta ⟨index, 1⟩ p q false x.wire (y.masked setup.delta).wire := ⟨_, rfl⟩
  rw [← hlower] at h
  obtain ⟨payload, hconcat, hbits, haligned⟩ :=
    (BitView.isRows_ofBlock (upper.value setup.hash).row).exists_concat
      (BitView.isRows_ofBlock (lower.value setup.hash).row).aligned
  dsimp only at h
  rw [hconcat] at h
  cases h
  rw [BitView.toBits_ofBlock, BitView.toBits_ofBlock] at hbits
  have hlength : rows.length = 128 * 2 := by
    rw [← BitView.length_toBits, hbits, List.length_append, Block.length_toBits, Block.length_toBits]
  refine ⟨⟨rfl, rfl⟩, ⟨haligned, hlength⟩, ?_, .of_hashing s _ _⟩
  have hopenUpper := generatorHalf_agrees hupper
  have hopenLower := @evaluatorHalf_agrees setup ⟨index, 1⟩ p q false x (y.masked setup.delta)
    (g.operandAt index 0) index (by simp [JointWire.masked, Scope.evaluatorOnly])
  rw [← hlower] at hopenLower
  intro payload e tail inputs hpayload htail hinputs
  rw [hbits, List.append_assoc] at htail
  obtain ⟨rest, e₁, hrun₁, hpast₁, hinputs₁, hrest, hresttail⟩ :=
    hopenUpper payload e _ inputs hpayload htail hinputs
  obtain ⟨rest', e₂, hrun₂, hpast₂, hinputs₂, hrest'⟩ :=
    hopenLower rest e₁ tail inputs hrest hresttail hinputs₁
  refine ⟨rest', e₂, ?_, hpast₂.trans hpast₁, hinputs₂, hrest'⟩
  -- the two halves differ in the second operand only
  have hvalue : conjoin p q n x.value y.value =
      (conjoin p q false x.value (y.masked setup.delta).value ^^
        conjoin p false n x.value (y.mask setup.delta).value) := by
    simp only [conjoin, Operation.value, JointWire.masked, JointWire.mask]
    cases x.value <;> cases p <;> cases y.value <;> cases y.zero.select <;> cases q <;> cases n <;> rfl
  dsimp only
  rw [GarbledRun.split_eq, hrun₁, ok_bind]
  dsimp only
  rw [hrun₂, ok_bind]
  dsimp only
  rw [Delta.xor_labels, ← hvalue]

end split

/-! ### One gate -/

/-- What the generator does for a gate. -/
theorem Garbler.step_eq_ok {setup : GarblingSetup} {s s' : Garbler} {g : Gate} {payload : BitView} :
    s.step setup g = .ok (payload, s') ↔
      ∃ op wire rows state, g.op.mapM? (back? s.past) = some op ∧
        s.operation setup s.past.length g op = .ok (wire, rows, state) ∧
        publish g.scope wire rows = .ok payload ∧ s' = { state with past := wire :: state.past } := by
  unfold step
  cases hop : g.op.mapM? (back? s.past) with
  | none => simp
  | some op =>
    dsimp only
    constructor
    · intro h
      obtain ⟨⟨wire, rows, state⟩, hoperation, h⟩ := bind_eq_ok.mp h
      obtain ⟨published, hpublish, h⟩ := bind_eq_ok.mp h
      cases h
      exact ⟨op, wire, rows, state, rfl, hoperation, hpublish, rfl⟩
    · rintro ⟨found, wire, rows, state, hfound, hoperation, hpublish, rfl⟩
      cases hfound
      refine bind_eq_ok.mpr ⟨(wire, rows, state), hoperation, ?_⟩
      exact bind_eq_ok.mpr ⟨payload, hpublish, rfl⟩

/-- What the evaluator does for a gate. -/
theorem GarbledRun.step_eq_ok {hash : TweakedHash} {e e' : GarbledRun} {g : Gate} {payload : BitView} :
    e.step hash g payload = .ok e' ↔
      ∃ op label rest state bit, g.op.mapM? (back? e.past) = some op ∧
        e.operation hash e.past.length g payload op = .ok (label, rest, state) ∧
        learn e.past.length g.scope label rest = .ok bit ∧
        e' = { state with past := ⟨label, bit, g.scope⟩ :: state.past } := by
  unfold step
  cases hop : g.op.mapM? (back? e.past) with
  | none => simp
  | some op =>
    dsimp only
    constructor
    · intro h
      obtain ⟨⟨label, rest, state⟩, hoperation, h⟩ := bind_eq_ok.mp h
      obtain ⟨bit, hbit, h⟩ := bind_eq_ok.mp h
      cases h
      exact ⟨op, label, rest, state, bit, rfl, hoperation, hbit, rfl⟩
    · rintro ⟨found, label, rest, state, bit, hfound, hoperation, hbit, rfl⟩
      cases hfound
      refine bind_eq_ok.mpr ⟨(label, rest, state), hoperation, ?_⟩
      exact bind_eq_ok.mpr ⟨bit, hbit, rfl⟩

end HalfGates
