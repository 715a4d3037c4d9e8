import HalfGates.Proofs.Garbling.Correctness
import HalfGates.Proofs.Garbling.RunOutcome

/-!
# Encoding and decoding with a codebook

A codebook has two labels for each bit, which differ by Δ. Since the select bit of Δ is set they have different
select bits, so a label tells the bit that it stands for, and Δ turns the label of a bit into that of the other.

## Main definitions

- `Codebook.EncodesExactly`: what encoding does on bits of consecutive inputs, wherever they start
- `Codebook.IsOutputLabel`, `Codebook.DecodesExactly`: what decoding does on any labels
- `Codebook.encodesExactly`, `Codebook.decodesExactly`: every codebook does
- `Codebook.decode_flipped`: flipping bits of decoded labels
- `Program.labels_exact`: the codebook of a garbling
-/

namespace HalfGates

namespace Codebook

variable {c : Codebook}

/-- How a codebook of `n` inputs encodes. -/
structure EncodesExactly (c : Codebook) (n : Nat) : Prop where
  length_pairs : c.pairs.length = n
  /-- The labels of an input differ by Δ, and in their select bits. -/
  pair : ∀ pair ∈ c.pairs, pair.1 ^^^ pair.2 = c.delta.block ∧ pair.2.select = !pair.1.select
  succeeds : ∀ bits start, (∃ labels, c.encode bits start = .ok labels) ↔
    bits = [] ∨ start + bits.length ≤ n
  /-- A refusal names the first input that is missing. -/
  refuses : ∀ bits start e, c.encode bits start = .error e ↔
    ¬ (bits = [] ∨ start + bits.length ≤ n) ∧ e = .inputOutOfRange (max start n) n
  /-- Every bit selects one of the two labels of its input. -/
  selects : ∀ bits start labels, c.encode bits start = .ok labels → labels.length = bits.length ∧
    ∀ (i : Nat) (bit : Bool), bits[i]? = some bit →
      ∃ pair, c.pairs[start + i]? = some pair ∧ labels[i]? = some (if bit then pair.2 else pair.1)
  /-- Bits may be encoded piece by piece. -/
  pieces : ∀ bits more start, c.encode (bits ++ more) start = (do
    let front ← c.encode bits start
    let back ← c.encode more (start + bits.length)
    .ok (front ++ back))

/-- The label stands for the bit at output `i`: it is the label for zero of the output, or differs from it by Δ. -/
def IsOutputLabel (c : Codebook) (i : Nat) (bit : Bool) (label : Block) : Prop :=
  ∃ zero, c.outputZeros[i]? = some zero ∧ label = zero ^^^ c.delta.times bit

/-- How a codebook of `m` outputs decodes. -/
structure DecodesExactly (c : Codebook) (m : Nat) : Prop where
  succeeds : ∀ labels, (∃ bits, c.decode labels = .ok bits) ↔ labels.length ≤ m ∧
    ∀ (i : Nat) (label : Block), labels[i]? = some label → ∃ bit, c.IsOutputLabel i bit label
  /-- Only the bits that the labels stand for are decoded. -/
  decides : ∀ labels bits, c.decode labels = .ok bits ↔ bits.length = labels.length ∧
    ∀ (i : Nat) (label : Block) (bit : Bool), labels[i]? = some label → bits[i]? = some bit →
      c.IsOutputLabel i bit label
  unique : ∀ i bit bit' label, c.IsOutputLabel i bit label → c.IsOutputLabel i bit' label → bit = bit'
  /-- A refusal tells about the first label in default. -/
  refuses : ∀ labels e, c.decode labels = .error e ↔
    ∃ (i : Nat) (label : Block), labels[i]? = some label ∧ (∀ bit, ¬ c.IsOutputLabel i bit label) ∧
      (∀ k < i, ∀ label', labels[k]? = some label' → ∃ bit, c.IsOutputLabel k bit label') ∧
      e = if i < m then .invalidOutputLabel i else .outputOutOfRange i m

/-! ### Encoding -/

/-- Every bit is encoded with the number of its input. -/
theorem encode_eq_mapM (c : Codebook) (bits : List Bool) (start : Nat) :
    c.encode bits start = (bits.zipIdx start).mapM fun item => c.encodeBit item.1 item.2 := by
  induction bits generalizing start with
  | nil => rfl
  | cons bit bits ih =>
    rw [encode, List.zipIdx_cons, List.mapM_cons, ih]
    rfl

theorem encodeBit_eq_ok {bit : Bool} {i : Nat} {label : Block} :
    c.encodeBit bit i = .ok label ↔ ∃ zero, c.inputZeros[i]? = some zero ∧ label = zero ^^^ c.delta.times bit := by
  unfold encodeBit
  cases c.inputZeros[i]? with
  | none => simp
  | some zero => simp [eq_comm]

theorem exists_encodeBit {bit : Bool} {i : Nat} :
    (∃ label, c.encodeBit bit i = .ok label) ↔ i < c.inputZeros.length := by
  simp only [encodeBit_eq_ok]
  rw [exists_comm]
  simp [List.getElem?_eq_some_iff]

theorem encodeBit_eq_error {bit : Bool} {i : Nat} {e : GarblingError} :
    c.encodeBit bit i = .error e ↔
      c.inputZeros.length ≤ i ∧ e = .inputOutOfRange i c.inputZeros.length := by
  unfold encodeBit
  cases h : c.inputZeros[i]? with
  | none =>
    have hle := List.getElem?_eq_none_iff.mp h
    simp [hle, eq_comm]
  | some zero =>
    have hlt := (List.getElem?_eq_some_iff.mp h).1
    simp [Nat.not_le.mpr hlt]

/-- The labels that are offered for the bits of an input. -/
theorem getElem?_pairs {i : Nat} {zero : Block} (h : c.inputZeros[i]? = some zero) :
    c.pairs[i]? = some (zero, zero ^^^ c.delta.block) := by
  rw [pairs, List.getElem?_map, h]
  rfl

theorem exists_encode {bits : List Bool} {start : Nat} :
    (∃ labels, c.encode bits start = .ok labels) ↔
      bits = [] ∨ start + bits.length ≤ c.inputZeros.length := by
  rw [encode_eq_mapM, exists_mapM_zipIdx]
  simp only [exists_encodeBit]
  constructor
  · intro h
    rcases List.eq_nil_or_concat bits with hnil | ⟨front, bit, rfl⟩
    · exact .inl hnil
    · have hlast := h front.length bit (by simp)
      rw [List.concat_eq_append, List.length_append, List.length_singleton]
      exact .inr (by omega)
  · rintro (rfl | hle) i bit hbit
    · cases hbit
    · have hlt := (List.getElem?_eq_some_iff.mp hbit).1
      omega

/-- The first input that is missing is the one behind the last, or the one asked for first. -/
theorem encode_eq_error {bits : List Bool} {start : Nat} {e : GarblingError} :
    c.encode bits start = .error e ↔ ¬ (bits = [] ∨ start + bits.length ≤ c.inputZeros.length) ∧
      e = .inputOutOfRange (max start c.inputZeros.length) c.inputZeros.length := by
  rw [encode_eq_mapM, mapM_zipIdx_eq_error_iff]
  simp only [exists_encodeBit, encodeBit_eq_error]
  constructor
  · rintro ⟨i, bit, hbit, ⟨hmissing, rfl⟩, hbefore⟩
    have hlt := (List.getElem?_eq_some_iff.mp hbit).1
    have hfirst : start + i = max start c.inputZeros.length := by
      cases i with
      | zero => omega
      | succ i =>
        have hprevious := hbefore i (Nat.lt_succ_self i) _ (List.getElem?_eq_getElem (by omega))
        omega
    refine ⟨?_, by rw [hfirst]⟩
    rintro (rfl | hle)
    · cases hbit
    · omega
  · rintro ⟨hrefused, rfl⟩
    obtain ⟨hne, hlt⟩ := not_or.mp hrefused
    have hpos : 0 < bits.length := List.length_pos_iff.mpr hne
    have hfirst : start + (c.inputZeros.length - start) = max start c.inputZeros.length := by omega
    refine ⟨c.inputZeros.length - start, _, List.getElem?_eq_getElem (by omega), ⟨by omega, by rw [hfirst]⟩,
      fun k hk _ _ => by omega⟩

theorem encodesExactly (c : Codebook) : c.EncodesExactly c.inputZeros.length where
  length_pairs := by rw [pairs, List.length_map]
  pair := by
    intro pair hpair
    obtain ⟨zero, -, rfl⟩ := List.mem_map.mp hpair
    refine ⟨?_, ?_⟩
    · show zero ^^^ (zero ^^^ c.delta.block) = c.delta.block
      rw [← BitVec.xor_assoc, BitVec.xor_self, BitVec.zero_xor]
    · rw [Block.select_xor, c.delta.select_block, Bool.xor_true]
  succeeds _ _ := exists_encode
  refuses _ _ _ := encode_eq_error
  selects := by
    intro bits start labels h
    rw [encode_eq_mapM, mapM_zipIdx_eq_ok] at h
    obtain ⟨hlength, hdone⟩ := h
    refine ⟨hlength, fun i bit hbit => ?_⟩
    obtain ⟨label, hlabel⟩ : ∃ label, labels[i]? = some label :=
      ⟨_, List.getElem?_eq_getElem (hlength ▸ (List.getElem?_eq_some_iff.mp hbit).1)⟩
    obtain ⟨zero, hzero, rfl⟩ := encodeBit_eq_ok.mp (hdone i bit label hbit hlabel)
    exact ⟨_, getElem?_pairs hzero, by rw [hlabel, Delta.xor_times]⟩
  pieces := by
    intro bits more start
    simp only [encode_eq_mapM, List.zipIdx_append, List.mapM_append]
    rfl

/-! ### Decoding -/

/-- The bit that a label stands for can be seen from its select bit. -/
theorem IsOutputLabel.unique {i : Nat} {bit bit' : Bool} {label : Block} (h : c.IsOutputLabel i bit label)
    (h' : c.IsOutputLabel i bit' label) : bit = bit' := by
  obtain ⟨zero, hzero, rfl⟩ := h
  obtain ⟨zero', hzero', hlabel⟩ := h'
  obtain rfl := Option.some.inj (hzero.symm.trans hzero')
  have hselect := congrArg Block.select hlabel
  rw [Block.select_xor, Block.select_xor, Delta.select_times, Delta.select_times] at hselect
  exact Bool.xor_right_inj.mp hselect

theorem decodeFrom_eq_mapM (c : Codebook) (labels : List Block) (start : Nat) :
    c.decodeFrom labels start = (labels.zipIdx start).mapM fun item => c.decodeLabel item.1 item.2 := by
  induction labels generalizing start with
  | nil => rfl
  | cons label labels ih =>
    rw [decodeFrom, List.zipIdx_cons, List.mapM_cons, ih]
    rfl

theorem isOutputLabel_iff {i : Nat} {zero : Block} (h : c.outputZeros[i]? = some zero) {bit : Bool}
    {label : Block} :
    c.IsOutputLabel i bit label ↔ label = if bit then zero ^^^ c.delta.block else zero := by
  simp only [IsOutputLabel, h, Option.some.injEq, exists_eq_left', Delta.xor_times]

theorem decodeLabel_eq_ok {label : Block} {i : Nat} {bit : Bool} :
    c.decodeLabel label i = .ok bit ↔ c.IsOutputLabel i bit label := by
  cases h : c.outputZeros[i]? with
  | none => simp [decodeLabel, IsOutputLabel, h]
  | some zero =>
    rw [isOutputLabel_iff h, decodeLabel, h]
    dsimp only
    by_cases hzero : label = zero
    · rw [if_pos hzero, Except.ok.injEq]
      cases bit with
      | false => exact iff_of_true rfl hzero
      | true => exact iff_of_false (by decide) fun hone => zero_xor_delta_ne _ _ (hone.symm.trans hzero)
    rw [if_neg hzero]
    by_cases hone : label = zero ^^^ c.delta.block
    · rw [if_pos hone, Except.ok.injEq]
      cases bit with
      | false => exact iff_of_false (by decide) hzero
      | true => exact iff_of_true rfl hone
    · rw [if_neg hone]
      cases bit with
      | false => exact iff_of_false (by rintro ⟨⟩) hzero
      | true => exact iff_of_false (by rintro ⟨⟩) hone

theorem decodeLabel_eq_error {label : Block} {i : Nat} {e : GarblingError} :
    c.decodeLabel label i = .error e ↔ (∀ bit, ¬ c.IsOutputLabel i bit label) ∧
      e = if i < c.outputZeros.length then .invalidOutputLabel i
        else .outputOutOfRange i c.outputZeros.length := by
  cases hdecode : c.decodeLabel label i with
  | ok bit =>
    have hlabel := decodeLabel_eq_ok.mp hdecode
    exact iff_of_false (by rintro ⟨⟩) fun hbad => hbad.1 bit hlabel
  | error fault =>
    have hbad : ∀ bit, ¬ c.IsOutputLabel i bit label := by
      intro bit hlabel
      rw [decodeLabel_eq_ok.mpr hlabel] at hdecode
      cases hdecode
    have hfault : fault = if i < c.outputZeros.length then .invalidOutputLabel i
        else .outputOutOfRange i c.outputZeros.length := by
      unfold decodeLabel at hdecode
      split at hdecode
      · next hnone =>
        cases hdecode
        rw [if_neg (Nat.not_lt.mpr (List.getElem?_eq_none_iff.mp hnone))]
      · next zero hzero =>
        rw [if_pos (List.getElem?_eq_some_iff.mp hzero).1]
        split at hdecode
        · cases hdecode
        · split at hdecode <;> cases hdecode
          rfl
    rw [Except.error.injEq, and_iff_right hbad, ← hfault]
    exact eq_comm

theorem lt_of_isOutputLabel {i : Nat} {bit : Bool} {label : Block} (h : c.IsOutputLabel i bit label) :
    i < c.outputZeros.length := by
  obtain ⟨zero, hzero, -⟩ := h
  exact (List.getElem?_eq_some_iff.mp hzero).1

theorem decode_eq_ok {labels : List Block} {bits : List Bool} :
    c.decode labels = .ok bits ↔ bits.length = labels.length ∧
      ∀ (i : Nat) (label : Block) (bit : Bool), labels[i]? = some label → bits[i]? = some bit →
        c.IsOutputLabel i bit label := by
  rw [decode, decodeFrom_eq_mapM, mapM_zipIdx_eq_ok]
  simp only [decodeLabel_eq_ok, Nat.zero_add]

theorem decodesExactly (c : Codebook) : c.DecodesExactly c.outputZeros.length where
  succeeds := by
    intro labels
    rw [decode, decodeFrom_eq_mapM, exists_mapM_zipIdx]
    simp only [decodeLabel_eq_ok, Nat.zero_add]
    refine ⟨fun h => ⟨Nat.not_lt.mp fun hlt => ?_, h⟩, fun h => h.2⟩
    obtain ⟨bit, hbit⟩ := h _ _ (List.getElem?_eq_getElem hlt)
    exact absurd (lt_of_isOutputLabel hbit) (Nat.lt_irrefl _)
  decides _ _ := decode_eq_ok
  unique _ _ _ _ := IsOutputLabel.unique
  refuses := by
    intro labels e
    rw [decode, decodeFrom_eq_mapM, mapM_zipIdx_eq_error_iff]
    simp only [decodeLabel_eq_ok, decodeLabel_eq_error, Nat.zero_add]
    constructor
    · rintro ⟨i, label, hlabel, ⟨hbad, he⟩, hbefore⟩
      exact ⟨i, label, hlabel, hbad, hbefore, he⟩
    · rintro ⟨i, label, hlabel, hbad, hbefore, he⟩
      exact ⟨i, label, hlabel, ⟨hbad, he⟩, hbefore⟩

theorem IsOutputLabel.flip {i : Nat} {bit : Bool} {label : Block} (h : c.IsOutputLabel i bit label)
    (flip : Bool) : c.IsOutputLabel i (bit ^^ flip) (label ^^^ c.delta.times flip) := by
  obtain ⟨zero, hzero, rfl⟩ := h
  exact ⟨zero, hzero, by rw [Delta.times_xor, BitVec.xor_assoc]⟩

/-- With Δ added to some labels, the bits of just these labels are decoded to the opposite. -/
theorem decode_flipped {labels : List Block} {bits : List Bool} (h : c.decode labels = .ok bits)
    (flips : List Bool) :
    c.decode (List.zipWith (fun label flip => label ^^^ c.delta.times flip) labels flips) =
      .ok (List.zipWith (· ^^ ·) bits flips) := by
  obtain ⟨hlength, hlabels⟩ := decode_eq_ok.mp h
  refine decode_eq_ok.mpr ⟨by simp [hlength], fun i label bit hlabel hbit => ?_⟩
  obtain ⟨returned, flip, hreturned, hflip, rfl⟩ := List.getElem?_zipWith_eq_some.mp hlabel
  obtain ⟨decoded, flip', hdecoded, hflip', rfl⟩ := List.getElem?_zipWith_eq_some.mp hbit
  obtain rfl := Option.some.inj (hflip.symm.trans hflip')
  exact (hlabels i returned decoded hreturned hdecoded).flip flip

end Codebook

/-! ### The codebook of a garbling -/

/-- What the codebook looks up are the labels for zero of the wires. -/
theorem Garbler.locates_of_mapM {wires : List Wire} {positions : List Nat} {zeros : List Block}
    (h : positions.mapM (zeroAt wires) = .ok zeros) : Locates (wires.map Wire.zero) positions zeros := by
  have hfound := congrArg (List.map Except.toOption) (mapM_eq_ok.mp h)
  have hlook : ∀ i, (zeroAt wires i).toOption = (wires.map Wire.zero)[i]? := by
    intro i
    rw [zeroAt, List.getElem?_map]
    cases wires[i]? <;> rfl
  rw [List.map_map, List.map_map] at hfound
  rw [Locates, ← funext hlook]
  exact hfound

/-- A run that gets past gates has met no hidden one. -/
theorem GarbledRun.not_isHidden_of_steps {hash : TweakedHash} {e e' : GarbledRun} {gates : List Gate}
    {payloads : List BitView} (h : e.steps hash gates payloads = .ok e') :
    ∀ g ∈ gates, g.isHidden = false := by
  induction gates generalizing e payloads with
  | nil =>
    rintro g ⟨⟩
  | cons first gates ih =>
    cases payloads with
    | nil => cases h
    | cons payload payloads =>
      obtain ⟨e₁, hstep, hrest⟩ := bind_eq_ok.mp h
      intro g hg
      rcases List.mem_cons.mp hg with rfl | hg
      · refine Bool.eq_false_iff.mpr fun hhidden => ?_
        rw [step_of_isHidden hash e hhidden] at hstep
        cases hstep
      · exact ih hrest g hg

namespace Program

variable {p : Program} {setup : GarblingSetup} {g : Garbling}

/-- The evaluator's labels in an honest run are decoded, namely as the outputs in the clear. -/
theorem WellFormed.decode_of_run (hp : p.WellFormed) (h : p.garble setup = .ok g) {given : List Bool}
    {labels : List Block} (hlabels : g.codebook.encode given 0 = .ok labels) {r : RunResult}
    (hrun : (⟨p, g.tables, setup.hash⟩ : GarbledCircuit).run labels = .ok r) :
    g.codebook.decode r.labels = .ok (p.atOutputs (p.values (p.sourceBits setup given))) := by
  obtain ⟨hcount, hsteps⟩ := GarbledCircuit.of_run hrun
  have hrandom : ∀ gate ∈ p.gates, gate.kind = .random → gate.scope.generator = true :=
    fun gate hgate => Gate.generator_of_not_isHidden (GarbledRun.not_isHidden_of_steps hsteps gate hgate)
  have hgiven : given.length = p.inputIndices.length := by
    rw [← hcount, (g.codebook.encodesExactly.selects given 0 labels hlabels).1]
  obtain ⟨wires, hcovers⟩ := hp.exists_covers hrandom h hgiven
  obtain ⟨labels', r', hlabels', hrun', hdecode, -⟩ :=
    hcovers.exists_run hp rfl fun v hv => (hcovers.payloads v hv).1
  obtain rfl := Except.ok.inj (hlabels'.symm.trans hlabels)
  obtain rfl := Except.ok.inj (hrun'.symm.trans hrun)
  exact hdecode

/-- Labels are exact, whatever a program that can be built is garbled with. The codebook holds Δ and the labels
for zero of the inputs and the outputs, encodes and decodes exactly with them, and decodes every honest run that
succeeds. With Δ added to some of the labels that such a run returns, just their bits are decoded to the
opposite. -/
theorem labels_exact (hp : p.Buildable) (h : p.garble setup = .ok g) :
    g.codebook.delta = setup.delta ∧
      Locates (g.final.past.reverse.map Wire.zero) p.inputIndices g.codebook.inputZeros ∧
      Locates (g.final.past.reverse.map Wire.zero) p.outputs g.codebook.outputZeros ∧
      g.codebook.EncodesExactly p.inputIndices.length ∧
      g.codebook.DecodesExactly p.outputs.length ∧
      ∀ given labels c r, g.codebook.encode given 0 = .ok labels →
        GarbledCircuit.ofTables p g.tables setup.hash = .ok c → c.run labels = .ok r →
          ∃ bits, p.eval (p.sourceBits setup given) = .ok bits ∧ g.codebook.decode r.labels = .ok bits ∧
            ∀ flips : List Bool, flips.length = r.labels.length →
              g.codebook.decode
                  (List.zipWith (fun label flip => label ^^^ setup.delta.times flip) r.labels flips) =
                .ok (List.zipWith (· ^^ ·) bits flips) := by
  obtain ⟨-, -, hinputs, houtputs, hdelta⟩ := of_garble h
  have hinputs := Garbler.locates_of_mapM hinputs
  have houtputs := Garbler.locates_of_mapM houtputs
  refine ⟨hdelta, hinputs, houtputs, ?_, ?_, fun given labels c r hlabels hc hrun => ?_⟩
  · rw [hinputs.length_eq]
    exact g.codebook.encodesExactly
  · rw [houtputs.length_eq]
    exact g.codebook.decodesExactly
  · obtain ⟨rfl, -⟩ := GarbledCircuit.of_ofTables hc
    have hdecode := hp.wellFormed.decode_of_run h hlabels hrun
    have heval : p.eval (p.sourceBits setup given) =
        .ok (p.atOutputs (p.values (p.sourceBits setup given))) := by
      rw [eval, evalGates, if_pos (p.length_sourceBits setup given)]
      rfl
    refine ⟨_, heval, hdecode, fun flips _ => ?_⟩
    rw [← hdelta]
    exact Codebook.decode_flipped hdecode flips

theorem labels_exact_two_outputs :
    ∃ (p : Program) (setup : GarblingSetup) (g : Garbling) (c : GarbledCircuit) (labels : List Block)
      (r : RunResult), p.Buildable ∧ p.garble setup = .ok g ∧ g.codebook.encode [true] 0 = .ok labels ∧
      g.codebook.encode [true, false] 0 = .error (.inputOutOfRange 1 1) ∧
      GarbledCircuit.ofTables p g.tables setup.hash = .ok c ∧ c.run labels = .ok r ∧
      g.codebook.decode r.labels = .ok [false, true] ∧
      g.codebook.decode
          (List.zipWith (fun label flip => label ^^^ setup.delta.times flip) r.labels [true, false]) =
        .ok [true, true] := by
  obtain ⟨p, hp⟩ : ∃ p : Program, p = ⟨[⟨.input, .generatorOnly⟩, ⟨.input, .neither⟩,
      ⟨.random, .generatorOnly⟩, ⟨.conjunction false false false 3 2, .neither⟩,
      ⟨.unary true 1, .evaluatorOnly⟩, ⟨.constant true, .both⟩], [4, 5]⟩ := ⟨_, rfl⟩
  have hbuildable : p.Buildable := by
    rw [hp]
    exact @Buildable.build [.add ⟨.input, .generatorOnly, []⟩, .add ⟨.input, .neither, []⟩,
      .add ⟨.random, .generatorOnly, []⟩, .add ⟨.conjunction false false false, .neither, [3, 2]⟩,
      .add ⟨.unary true, .evaluatorOnly, [1]⟩, .add ⟨.constant true, .neither, []⟩, .outputs [4, 5]] _ rfl
  obtain ⟨setup, hsetup⟩ : ∃ setup : GarblingSetup, setup = ⟨Delta.ofSelected 5,
      fun key place => key + BitVec.ofNat 128 place.gate, [true], fun _ => true,
      fun k => BitVec.ofNat 128 k⟩ := ⟨_, rfl⟩
  obtain ⟨g, hg⟩ : ∃ g, p.garble setup = .ok g := by
    rw [hp, hsetup]
    exact ⟨_, rfl⟩
  have hrandom : ∀ gate ∈ p.gates, gate.kind = .random → gate.scope.generator = true := by
    rw [hp]
    decide
  have hinputs : p.inputIndices.length = 1 := by
    rw [hp]
    rfl
  have hgiven : [true].length = p.inputIndices.length := hinputs.symm
  obtain ⟨wires, hcovers⟩ := hbuildable.wellFormed.exists_covers hrandom hg hgiven
  obtain ⟨labels, r, hlabels, hrun, -⟩ :=
    hcovers.exists_run hbuildable.wellFormed rfl fun v hv => (hcovers.payloads v hv).1
  have hc : GarbledCircuit.ofTables p g.tables setup.hash = .ok ⟨p, g.tables, setup.hash⟩ :=
    if_pos hcovers.tables
  obtain ⟨-, -, -, hencodes, -, hhonest⟩ := labels_exact hbuildable hg
  obtain ⟨bits, heval, hdecode, hflipped⟩ := hhonest [true] labels _ r hlabels hc hrun
  have hbits : p.eval (p.sourceBits setup [true]) = .ok [false, true] := by
    rw [hp, hsetup]
    rfl
  obtain rfl := Except.ok.inj (hbits.symm.trans heval)
  have hlength : r.labels.length = 2 := ((Codebook.decode_eq_ok.mp hdecode).1).symm
  refine ⟨p, setup, g, _, labels, r, hbuildable, hg, hlabels, ?_, hc, hrun, hdecode,
    hflipped [true, false] hlength.symm⟩
  rw [hencodes.refuses, hinputs]
  decide

end Program

end HalfGates
