import HalfGates.Program.Builder
import HalfGates.Proofs.Program.History

/-!
# Well-formed programs

A gate fits behind a history if its operands are gates of the history and if every party that knows all
of the operands knows the gate. What a builder accepts always fits, and a gate that fits is accepted as
it stands.

## Main definitions

- `Gate.Fits`: a gate may stand behind a history
- `Program.WellFormed`: every gate fits and every output is a gate
- `BuilderCall`, `Builder.callAll`: any use of a builder, refused requests included
- `Builder.wellFormed_of_build`: a builder only gives well-formed programs
-/

namespace HalfGates

namespace Operation

variable {ι : Type}

theorem kind_operands_of_ofKind? {k : GateKind} {xs : List ι} {op : Operation ι}
    (h : ofKind? k xs = some op) : op.kind = k ∧ op.operands = xs := by
  unfold ofKind? at h
  split at h <;> cases h <;> exact ⟨rfl, rfl⟩

/-- A party is in the floor of an operation if it knows every operand, unless the operation is a
source. -/
theorem knows_floor {op : Operation Scope} {party : Party} :
    op.floor.knows party = true ↔
      op.kind.isSource = false ∧ ∀ s ∈ op.operands, s.knows party = true := by
  cases op <;> cases party <;>
    simp [floor, kind, operands, GateKind.isSource, Scope.knows, Scope.neither, Scope.both,
      Scope.inter]

end Operation

namespace Scope

theorem union_eq_left {s t : Scope} (h : s.contains t = true) : s.union t = s := by
  obtain ⟨sg, se⟩ := s
  obtain ⟨tg, te⟩ := t
  simp only [contains, inter, beq_iff_eq, mk.injEq] at h
  simp only [union, mk.injEq]
  constructor
  · revert h; cases sg <;> cases tg <;> simp
  · revert h; cases se <;> cases te <;> simp

theorem contains_union_right (s t : Scope) : (s.union t).contains t = true :=
  contains_iff.mpr fun p hp => by simp [hp]

theorem contains_union_left (s t : Scope) : (s.union t).contains s = true :=
  contains_iff.mpr fun p hp => by simp [hp]

/-- A scope that contains everybody's is everybody's. -/
theorem eq_both_of_contains {s : Scope} (h : s.contains both = true) : s = both := by
  obtain ⟨sg, se⟩ := s
  simpa [contains, inter, both] using h

end Scope

namespace Gate

theorem scopeBack_of_back? {past : List Gate} {d : Nat} {g : Gate} (h : back? past d = some g) :
    scopeBack past d = g.scope := by
  simp only [scopeBack, h]

theorem scopeBack_cons (g : Gate) (past : List Gate) {d : Nat} (hd : 0 < d) :
    scopeBack (g :: past) (d + 1) = scopeBack past d := by
  simp only [scopeBack, back?_cons g past hd]

theorem knows_floor {past : List Gate} {op : Operation Nat} {party : Party} :
    (floor past op).knows party = true ↔
      op.kind.isSource = false ∧ ∀ d ∈ op.operands, (scopeBack past d).knows party = true := by
  simp [floor, Operation.knows_floor]

/-- The gate may stand behind the history: its operands are gates of the history, and the parties that
know all of them know the gate. -/
structure Fits (past : List Gate) (g : Gate) : Prop where
  operands : ∀ d ∈ g.op.operands, 0 < d ∧ d ≤ past.length
  floor : g.scope.contains (Gate.floor past g.op) = true

theorem fits_widened {past : List Gate} {op : Operation Nat} (scope : Scope)
    (h : ∀ d ∈ op.operands, 0 < d ∧ d ≤ past.length) : Fits past (widened past op scope) :=
  ⟨h, Scope.contains_union_right scope (Gate.floor past op)⟩

theorem Fits.widened_eq {past : List Gate} {g : Gate} (h : Fits past g) :
    widened past g.op g.scope = g := by
  simp only [widened, Scope.union_eq_left h.floor]

/-- A gate that reads nothing and is no source is a constant, which everybody knows. -/
theorem Fits.scope_of_constant {past : List Gate} {g : Gate} (h : Fits past g)
    (hg : g.kind.isConstant = true) : g.scope = .both := by
  refine Scope.eq_both_of_contains ?_
  have hfloor := h.floor
  obtain ⟨op, scope⟩ := g
  cases op <;> simp [kind, Operation.kind, GateKind.isConstant] at hg
  exact hfloor

/-- The request for a gate as it stands. -/
def request (g : Gate) : GateRequest :=
  ⟨g.kind, g.scope, g.op.operands⟩

end Gate

namespace Builder

theorem offsetError?_eq_none {index offset : Nat} :
    offsetError? index offset = none ↔ 0 < offset ∧ offset ≤ index := by
  unfold offsetError?
  split
  · simp_all
  · split
    · simp; omega
    · simp; omega

/-- What it takes for a request to be accepted, and what becomes of the builder. -/
theorem add_eq_ok_iff {b b' : Builder} {r : GateRequest} :
    b.add r = .ok b' ↔
      ∃ op, Operation.ofKind? r.kind r.offsets = some op ∧
        (∀ d ∈ op.operands, 0 < d ∧ d ≤ b.past.length) ∧
        b' = { b with past := Gate.widened b.past op r.scope :: b.past } := by
  have hfits : ∀ op : Operation Nat, op.operands.findSome? (offsetError? b.length) = none ↔
      ∀ d ∈ op.operands, 0 < d ∧ d ≤ b.past.length := by
    intro op
    simp only [List.findSome?_eq_none_iff, offsetError?_eq_none, length]
  unfold add
  cases hop : Operation.ofKind? r.kind r.offsets with
  | none => simp
  | some op =>
    cases herror : op.operands.findSome? (offsetError? b.length) with
    | some e =>
      have hnot : ¬ ∀ d ∈ op.operands, 0 < d ∧ d ≤ b.past.length := by
        rw [← hfits, herror]
        simp
      simp only [herror, reduceCtorEq, Option.some.injEq, exists_eq_left', hnot, false_and]
    | none =>
      have hall := (hfits op).mp herror
      simp only [herror, Except.ok.injEq, Option.some.injEq, exists_eq_left',
        and_iff_right hall]
      exact eq_comm

/-- A gate that fits is accepted as it stands. -/
theorem add_request {b : Builder} {g : Gate} (h : g.Fits b.past) :
    b.add g.request = .ok { b with past := g :: b.past } := by
  refine add_eq_ok_iff.mpr ⟨g.op, Operation.ofKind?_kind_operands g.op, h.operands, ?_⟩
  simp only [Gate.request, h.widened_eq]

/-- Requests whose offsets reach back to earlier gates are accepted, and become gates of the operations that
they ask for. -/
theorem exists_addAll {b : Builder} {rs : List GateRequest} {ops : List (Operation Nat)}
    (hops : rs.map (fun r => Operation.ofKind? r.kind r.offsets) = ops.map some)
    (hfits : ∀ (k : Nat) (op : Operation Nat), ops[k]? = some op →
      ∀ d ∈ op.operands, 0 < d ∧ d ≤ b.past.length + k) :
    ∃ past, b.addAll rs = .ok { b with past := past ++ b.past } ∧ past.reverse.map Gate.op = ops := by
  induction rs generalizing b ops with
  | nil =>
    obtain rfl : ops = [] := List.map_eq_nil_iff.mp hops.symm
    exact ⟨[], rfl, rfl⟩
  | cons r rs ih =>
    match ops with
    | op :: ops =>
      obtain ⟨hop, hrest⟩ := List.cons.inj hops
      obtain ⟨-, hoffsets⟩ := Operation.kind_operands_of_ofKind? hop
      have hadd : b.add r = .ok { b with past := Gate.widened b.past op r.scope :: b.past } :=
        add_eq_ok_iff.mpr ⟨op, hop, hfits 0 op rfl, rfl⟩
      obtain ⟨past, hpast, hgates⟩ :=
        @ih { b with past := Gate.widened b.past op r.scope :: b.past } ops hrest fun k op' hk d hd => by
          have hbounds := hfits (k + 1) op' hk d hd
          rw [List.length_cons]
          omega
      refine ⟨past ++ [Gate.widened b.past op r.scope], ?_, ?_⟩
      · rw [addAll, List.foldlM_cons, hadd]
        refine hpast.trans ?_
        rw [List.append_assoc]
        rfl
      · rw [List.reverse_append, List.map_append, hgates]
        rfl

/-- Every gate accepted so far fits behind those accepted before it. -/
def WellFormed (b : Builder) : Prop :=
  Throughout Gate.Fits b.past

theorem wellFormed_empty : empty.WellFormed := trivial

theorem WellFormed.add {b b' : Builder} {r : GateRequest} (h : b.WellFormed)
    (hadd : b.add r = .ok b') : b'.WellFormed := by
  obtain ⟨op, -, hfits, rfl⟩ := add_eq_ok_iff.mp hadd
  exact ⟨Gate.fits_widened r.scope hfits, h⟩

theorem WellFormed.addRecord {b b' : Builder} {r : GateRecord} (h : b.WellFormed)
    (hadd : b.addRecord r = .ok b') : b'.WellFormed := by
  unfold Builder.addRecord at hadd
  split at hadd
  · cases hadd
  · exact h.add hadd

theorem WellFormed.addAll {b b' : Builder} {rs : List GateRequest} (h : b.WellFormed)
    (hadd : b.addAll rs = .ok b') : b'.WellFormed := by
  induction rs generalizing b with
  | nil =>
    cases hadd
    exact h
  | cons r rs ih =>
    simp only [Builder.addAll, List.foldlM_cons] at hadd
    cases hr : b.add r with
    | error e =>
      rw [hr] at hadd
      cases hadd
    | ok c =>
      rw [hr] at hadd
      exact ih (h.add hr) hadd

theorem WellFormed.withOutputs {b : Builder} (h : b.WellFormed) (outputs : List Nat) :
    (b.withOutputs outputs).WellFormed := h

end Builder

/-- A use of a builder. -/
inductive BuilderCall
  | add (r : GateRequest)
  | addRecord (r : GateRecord)
  | outputs (positions : List Nat)

namespace Builder

/-- The builder after a call; a request that is refused leaves it as it is. -/
def call (b : Builder) : BuilderCall → Builder
  | .add r => (b.add r).toOption.getD b
  | .addRecord r => (b.addRecord r).toOption.getD b
  | .outputs positions => b.withOutputs positions

/-- The builder after calls in order. -/
def callAll (b : Builder) (calls : List BuilderCall) : Builder :=
  calls.foldl call b

theorem WellFormed.call {b : Builder} (h : b.WellFormed) (c : BuilderCall) :
    (b.call c).WellFormed := by
  cases c with
  | add r =>
    cases hr : b.add r with
    | error e => simpa [Builder.call, hr, Except.toOption] using h
    | ok b' => simpa [Builder.call, hr, Except.toOption] using h.add hr
  | addRecord r =>
    cases hr : b.addRecord r with
    | error e => simpa [Builder.call, hr, Except.toOption] using h
    | ok b' => simpa [Builder.call, hr, Except.toOption] using h.addRecord hr
  | outputs positions => exact h.withOutputs positions

theorem WellFormed.callAll {b : Builder} (h : b.WellFormed) (calls : List BuilderCall) :
    (b.callAll calls).WellFormed := by
  induction calls generalizing b with
  | nil => exact h
  | cons c calls ih => exact ih (h.call c)

end Builder

/-- Every gate fits behind those before it, and every declared output is a gate. -/
structure Program.WellFormed (p : Program) : Prop where
  gates : Throughout Gate.Fits p.gates.reverse
  outputs : ∀ i ∈ p.outputs, i < p.length

theorem Builder.build_eq_ok_iff {b : Builder} {p : Program} :
    b.build = .ok p ↔ (∀ i ∈ b.outputs, i < b.past.length) ∧ p = ⟨b.past.reverse, b.outputs⟩ := by
  unfold build
  split
  · next i hi =>
    have hmem := List.mem_of_find?_eq_some hi
    have hfound := List.find?_some hi
    have hle : b.past.length ≤ i := of_decide_eq_true hfound
    simp only [reduceCtorEq, false_iff, not_and]
    intro hall
    exact absurd (hall i hmem) (Nat.not_lt.mpr hle)
  · next hi =>
    have hall : ∀ i ∈ b.outputs, i < b.past.length := by
      intro i hmem
      have hnot : ¬ b.past.length ≤ i :=
        fun hle => List.find?_eq_none.mp hi i hmem (decide_eq_true hle)
      exact Nat.not_le.mp hnot
    rw [and_iff_right hall, Except.ok.injEq]
    exact eq_comm

theorem Builder.wellFormed_of_build {b : Builder} {p : Program} (h : b.WellFormed)
    (hbuild : b.build = .ok p) : p.WellFormed := by
  obtain ⟨houtputs, rfl⟩ := build_eq_ok_iff.mp hbuild
  refine ⟨?_, ?_⟩
  · rw [List.reverse_reverse]
    exact h
  · simpa [Program.length] using houtputs

end HalfGates
