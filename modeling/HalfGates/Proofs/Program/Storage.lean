import HalfGates.Program.Storage
import HalfGates.Proofs.Program.Invariant
import HalfGates.Proofs.Program.Simplification

/-!
# Storage keeps gates apart

A builder keeps two gates in one cell exactly if their data are equal, as it stores each gate in the form in which
it was accepted and stores no refused one. Removal builds the program anew. Rewriting takes changed gates out of
the cells that they shared, and so a cell never holds two gates that differ, whichever way a program came about.

## Main definitions

- `Storage.Pool.Holds`: the storage of some gates
- `StoredProgram.Shares`: two gates are kept in one cell
- `StoredProgram.Exact`, `StoredProgram.Consistent`: equal gates are kept in one cell, and only equal ones
- `StoredBuilder.callAll_ofBuilder`, `StoredBuilder.addRecords_ofBuilder`: a builder that stores is the builder
  together with the storage of its gates
- `StoredProgram.shares_simplifyGates`: who shares a cell after rewriting
- `StoredProgram.sharing_exact`: all programs that there is a way to obtain
-/

namespace HalfGates

theorem Gate.record_inj {g h : Gate} : g.record = h.record ↔ g = h := by
  refine ⟨fun heq => ?_, congrArg record⟩
  obtain ⟨op, scope⟩ := g
  obtain ⟨op', scope'⟩ := h
  simp only [record, GateRecord.mk.injEq, kind] at heq
  obtain ⟨hkind, rfl, hoffsets⟩ := heq
  have hoperands : op.operands = op'.operands :=
    List.map_injective_iff.mpr (fun _ _ => Int.ofNat.inj) hoffsets
  have hop : some op = some op' := by
    rw [← Operation.ofKind?_kind_operands op, hkind, hoperands, Operation.ofKind?_kind_operands]
  rw [Option.some.inj hop]

namespace Storage

/-! ### The storage of a builder -/

/-- The storage holds the gates: each one is in its cell, and no two cells hold the same. -/
structure Pool.Holds (pool : Pool) (gates : List Gate) : Prop where
  nodup : pool.distinct.Nodup
  cells : Locates pool.distinct pool.cells.reverse gates

/-- One more gate is put into a cell of its own unless it is held already. -/
theorem Pool.Holds.store {pool : Pool} {gates : List Gate} (h : pool.Holds gates) (g : Gate) :
    (pool.store g).Holds (gates ++ [g]) := by
  unfold Pool.store
  cases hfound : pool.distinct.idxOf? g with
  | some cell =>
    obtain ⟨hlt, hcell, -⟩ := List.idxOf?_eq_some_iff.mp hfound
    refine ⟨h.nodup, ?_⟩
    have hnew : Locates pool.distinct [cell] [g] :=
      .cons (List.getElem?_eq_some_iff.mpr ⟨hlt, hcell⟩) rfl
    rw [List.reverse_cons]
    exact h.cells.append hnew
  | none =>
    have hnot : g ∉ pool.distinct := List.idxOf?_eq_none_iff.mp hfound
    have hnodup : (pool.distinct ++ [g]).Nodup :=
      List.nodup_append.mpr ⟨h.nodup, List.pairwise_singleton _ g, fun a ha b hb heq =>
        hnot (List.mem_singleton.mp hb ▸ heq ▸ ha)⟩
    refine ⟨hnodup, ?_⟩
    have hold : Locates (pool.distinct ++ [g]) pool.cells.reverse gates :=
      h.cells.mono fun i x hx => by
        rw [List.getElem?_append_left (List.getElem?_eq_some_iff.mp hx).1, hx]
    have hnew : Locates (pool.distinct ++ [g]) [pool.distinct.length] [g] := .cons (by simp) rfl
    rw [List.reverse_cons]
    exact hold.append hnew

theorem holds_poolOf (gates : List Gate) : (poolOf gates).Holds gates := by
  have hall : ∀ (more : List Gate) (pool : Pool) (stored : List Gate), pool.Holds stored →
      (more.foldl Pool.store pool).Holds (stored ++ more) := by
    intro more
    induction more with
    | nil =>
      intro pool stored h
      rwa [List.append_nil]
    | cons g more ih =>
      intro pool stored h
      have hrest := ih (pool.store g) (stored ++ [g]) (h.store g)
      rwa [List.append_assoc] at hrest
  exact hall gates ⟨[], []⟩ [] ⟨List.nodup_nil, rfl⟩

theorem poolOf_concat (gates : List Gate) (g : Gate) : poolOf (gates ++ [g]) = (poolOf gates).store g := by
  rw [poolOf, List.foldl_append]
  rfl

/-! ### The storage after rewriting -/

theorem lt_bound {cells : List Nat} {cell : Nat} (h : cell ∈ cells) : cell < bound cells := by
  have hall : ∀ (cells : List Nat) (n : Nat), n ≤ cells.foldl (fun n cell => max n (cell + 1)) n ∧
      ∀ cell ∈ cells, cell < cells.foldl (fun n cell => max n (cell + 1)) n := by
    intro cells
    induction cells with
    | nil => exact fun n => ⟨Nat.le_refl n, fun cell h => by cases h⟩
    | cons first cells ih =>
      intro n
      obtain ⟨hle, hrest⟩ := ih (max n (first + 1))
      refine ⟨Nat.le_trans (Nat.le_max_left _ _) hle, fun cell hcell => ?_⟩
      rcases List.mem_cons.mp hcell with rfl | hcell
      · exact Nat.le_trans (Nat.le_max_right _ _) hle
      · exact hrest cell hcell
  exact (hall cells 0).2 cell h

theorem getElem?_afterRewriting {cells : List Nat} {old new : List Gate} {i cell : Nat} {g g' : Gate}
    (hcell : cells[i]? = some cell) (hold : old[i]? = some g) (hnew : new[i]? = some g') :
    (afterRewriting cells old new)[i]? = some (if g = g' then cell else bound cells + i) := by
  have hzip : (cells.zip (old.zip new))[i]? = some (cell, g, g') :=
    List.getElem?_zip_eq_some.mpr ⟨hcell, List.getElem?_zip_eq_some.mpr ⟨hold, hnew⟩⟩
  rw [afterRewriting, List.getElem?_map, List.getElem?_zipIdx, hzip, Option.map_some, Option.map_some,
    Nat.zero_add]

end Storage

namespace StoredProgram

variable {s : StoredProgram} {i j : Nat}

/-- Two gates are kept in one cell. -/
def Shares (s : StoredProgram) (i j : Nat) : Prop :=
  ∃ cell, s.cells[i]? = some cell ∧ s.cells[j]? = some cell

/-- Every gate has a cell, and two of them have the same one exactly if their data are equal. -/
structure Exact (s : StoredProgram) : Prop where
  length : s.cells.length = s.program.length
  shares_iff : ∀ {i j : Nat} {g h : Gate}, s.program.gates[i]? = some g → s.program.gates[j]? = some h →
    (s.Shares i j ↔ g.record = h.record)

/-- Every gate has a cell, and gates in one cell have equal data. -/
structure Consistent (s : StoredProgram) : Prop where
  length : s.cells.length = s.program.length
  record_eq : ∀ {i j : Nat} {g h : Gate}, s.program.gates[i]? = some g → s.program.gates[j]? = some h →
    s.Shares i j → g.record = h.record

theorem Exact.consistent (h : s.Exact) : s.Consistent :=
  ⟨h.length, fun hi hj => (h.shares_iff hi hj).mp⟩

/-- A gate and its cell are at the same place. -/
theorem exists_cell (hlength : s.cells.length = s.program.length) {g : Gate}
    (hg : s.program.gates[i]? = some g) : ∃ cell, s.cells[i]? = some cell := by
  have hlt : i < s.cells.length := hlength ▸ (List.getElem?_eq_some_iff.mp hg).1
  exact ⟨s.cells[i], List.getElem?_eq_getElem hlt⟩

/-- What is interned is kept once for all gates with the same data. -/
theorem exact_interned (p : Program) : (interned p).Exact := by
  have hholds := Storage.holds_poolOf p.gates
  have hlength : (interned p).cells.length = p.length := hholds.cells.length_eq
  refine ⟨hlength, fun {i j g h} hi hj => ?_⟩
  obtain ⟨cell, hcell⟩ := exists_cell hlength hi
  obtain ⟨cell', hcell'⟩ := exists_cell hlength hj
  have hg := (hholds.cells.getElem?_eq hcell).trans hi
  have hh := (hholds.cells.getElem?_eq hcell').trans hj
  have hlt := (List.getElem?_eq_some_iff.mp hg).1
  rw [Gate.record_inj]
  constructor
  · rintro ⟨shared, hshared, hshared'⟩
    obtain rfl : cell = shared := Option.some.inj (hcell.symm.trans hshared)
    obtain rfl : cell = cell' := Option.some.inj (hshared'.symm.trans hcell')
    exact Option.some.inj (hg.symm.trans hh)
  · rintro rfl
    obtain rfl := (List.getElem?_inj hlt hholds.nodup).mp (hg.trans hh.symm)
    exact ⟨cell, hcell, hcell'⟩

theorem Shares.lt_length (h : s.Shares i j) : i < s.cells.length ∧ j < s.cells.length := by
  obtain ⟨cell, hi, hj⟩ := h
  exact ⟨(List.getElem?_eq_some_iff.mp hi).1, (List.getElem?_eq_some_iff.mp hj).1⟩

/-- Rewriting leaves one cell for every gate. -/
theorem length_simplifyGates (hlength : s.cells.length = s.program.length) :
    s.simplifyGates.cells.length = s.simplifyGates.program.length := by
  have hgates : s.program.simplifyGates.gates.length = s.program.gates.length :=
    s.program.length_simplifyGates
  rw [Program.length] at hlength
  show (Storage.afterRewriting s.cells s.program.gates s.program.simplifyGates.gates).length =
    s.program.simplifyGates.gates.length
  simp [Storage.afterRewriting, hlength, hgates]

/-- After rewriting, two gates are kept in one cell exactly if they were before and neither has changed, or if they
are the same gate. -/
theorem shares_simplifyGates (hlength : s.cells.length = s.program.length) :
    s.simplifyGates.Shares i j ↔ s.Shares i j ∧ (i = j ∨
      s.program.gates[i]? = s.simplifyGates.program.gates[i]? ∧
        s.program.gates[j]? = s.simplifyGates.program.gates[j]?) := by
  have hgates : s.simplifyGates.program.gates.length = s.program.gates.length :=
    s.program.length_simplifyGates
  have hcells : s.simplifyGates.cells.length = s.cells.length :=
    (length_simplifyGates hlength).trans (hgates.trans hlength.symm)
  by_cases hrange : i < s.cells.length ∧ j < s.cells.length
  · have hentries : ∀ k < s.cells.length, ∃ cell g g', s.cells[k]? = some cell ∧
        s.program.gates[k]? = some g ∧ s.simplifyGates.program.gates[k]? = some g' := by
      intro k hk
      have hold : k < s.program.length := hlength ▸ hk
      exact ⟨_, _, _, List.getElem?_eq_getElem hk, List.getElem?_eq_getElem hold,
        List.getElem?_eq_getElem (hgates.symm ▸ hold)⟩
    obtain ⟨cell, g, g', hcell, hi, hi'⟩ := hentries i hrange.1
    obtain ⟨cell', h, h', hcell', hj, hj'⟩ := hentries j hrange.2
    have hnew : s.simplifyGates.cells[i]? = _ := Storage.getElem?_afterRewriting hcell hi hi'
    have hnew' : s.simplifyGates.cells[j]? = _ := Storage.getElem?_afterRewriting hcell' hj hj'
    have hbound := Storage.lt_bound (List.mem_of_getElem? hcell)
    have hbound' := Storage.lt_bound (List.mem_of_getElem? hcell')
    rw [Shares, Shares, hnew, hnew', hcell, hcell', hi, hi', hj, hj']
    simp only [Option.some.injEq, exists_eq_left']
    by_cases hij : i = j
    · subst hij
      obtain rfl : g = h := Option.some.inj (hi.symm.trans hj)
      obtain rfl : g' = h' := Option.some.inj (hi'.symm.trans hj')
      obtain rfl : cell = cell' := Option.some.inj (hcell.symm.trans hcell')
      exact ⟨fun _ => ⟨rfl, .inl rfl⟩, fun _ => rfl⟩
    rw [or_iff_right hij]
    -- the cell of a changed gate is beyond those of all others
    by_cases hg : g = g'
    · by_cases hh : h = h'
      · rw [if_pos hg, if_pos hh, and_iff_left ⟨hg, hh⟩]
      · rw [if_pos hg, if_neg hh]
        exact ⟨fun heq => by omega, fun hsame => absurd hsame.2.2 hh⟩
    · rw [if_neg hg]
      refine ⟨fun heq => ?_, fun hsame => absurd hsame.2.1 hg⟩
      split at heq <;> omega
  · exact ⟨fun hshares => absurd (hcells ▸ hshares.lt_length) hrange,
      fun hshares => absurd hshares.1.lt_length hrange⟩

theorem Consistent.simplifyGates (h : s.Consistent) : s.simplifyGates.Consistent where
  length := length_simplifyGates h.length
  record_eq := by
    intro i j g g' hi hj hshares
    obtain ⟨hbefore, rfl | ⟨hsame, hsame'⟩⟩ := (shares_simplifyGates h.length).mp hshares
    · rw [Option.some.inj (hi.symm.trans hj)]
    · exact h.record_eq (hsame.trans hi) (hsame'.trans hj) hbefore

end StoredProgram

/-! ### Builders that store -/

namespace StoredBuilder

/-- A builder with the storage of the gates that it has accepted. -/
def ofBuilder (b : Builder) : StoredBuilder :=
  ⟨b, Storage.poolOf b.gates⟩

theorem accepting_of_add {b b' : Builder} {r : GateRequest} (h : b.add r = .ok b') :
    (ofBuilder b).accepting b' = ofBuilder b' := by
  obtain ⟨op, -, -, rfl⟩ := Builder.add_eq_ok_iff.mp h
  have hgates : ∀ g, Builder.gates { b with past := g :: b.past } = b.gates ++ [g] :=
    fun g => List.reverse_cons
  rw [ofBuilder, ofBuilder, hgates, Storage.poolOf_concat]
  rfl

/-- What is accepted is stored, and what is refused changes nothing. -/
theorem add_ofBuilder (b : Builder) (r : GateRequest) :
    (ofBuilder b).add r = (b.add r).map ofBuilder := by
  have hadd : (ofBuilder b).add r = b.add r >>= fun b' => .ok ((ofBuilder b).accepting b') := rfl
  rw [hadd]
  cases hr : b.add r with
  | error e => rfl
  | ok b' => rw [ok_bind, accepting_of_add hr]; rfl

theorem addRecord_ofBuilder (b : Builder) (r : GateRecord) :
    (ofBuilder b).addRecord r = (b.addRecord r).map ofBuilder := by
  have hadd : (ofBuilder b).addRecord r =
      b.addRecord r >>= fun b' => .ok ((ofBuilder b).accepting b') := rfl
  rw [hadd]
  cases hr : b.addRecord r with
  | error e => rfl
  | ok b' => rw [ok_bind, accepting_of_add (Builder.add_of_addRecord hr)]; rfl

theorem addRecords_ofBuilder (b : Builder) (rs : List GateRecord) :
    rs.foldlM addRecord (ofBuilder b) = (rs.foldlM Builder.addRecord b).map ofBuilder := by
  induction rs generalizing b with
  | nil => rfl
  | cons r rs ih =>
    rw [List.foldlM_cons, List.foldlM_cons, addRecord_ofBuilder]
    cases b.addRecord r with
    | error e => rfl
    | ok b' => exact ih b'

theorem build_ofBuilder (b : Builder) : (ofBuilder b).build = b.build.map .interned := by
  have hbuild : (ofBuilder b).build =
      b.build >>= fun p => .ok ⟨p, (Storage.poolOf b.gates).cells.reverse⟩ := rfl
  rw [hbuild]
  cases hp : b.build with
  | error e => rfl
  | ok p =>
    obtain ⟨-, rfl⟩ := Builder.build_eq_ok_iff.mp hp
    rfl

/-- The builder after a call; a request that is refused leaves it and its storage as they are. -/
def call (s : StoredBuilder) : BuilderCall → StoredBuilder
  | .add r => (s.add r).toOption.getD s
  | .addRecord r => (s.addRecord r).toOption.getD s
  | .outputs positions => s.withOutputs positions

/-- The builder after calls in order. -/
def callAll (s : StoredBuilder) (calls : List BuilderCall) : StoredBuilder :=
  calls.foldl call s

theorem call_ofBuilder (b : Builder) (c : BuilderCall) : (ofBuilder b).call c = ofBuilder (b.call c) := by
  cases c with
  | add r =>
    rw [call, Builder.call, add_ofBuilder]
    cases b.add r <;> rfl
  | addRecord r =>
    rw [call, Builder.call, addRecord_ofBuilder]
    cases b.addRecord r <;> rfl
  | outputs positions => rfl

theorem callAll_ofBuilder (b : Builder) (calls : List BuilderCall) :
    (ofBuilder b).callAll calls = ofBuilder (b.callAll calls) := by
  induction calls generalizing b with
  | nil => rfl
  | cons c calls ih =>
    show ((ofBuilder b).call c).callAll calls = _
    rw [call_ofBuilder, ih]
    rfl

end StoredBuilder

namespace StoredProgram

variable {s q : StoredProgram}

/-- A builder leaves each distinct gate stored once, whatever was asked of it. -/
theorem build_callAll (calls : List BuilderCall) :
    (StoredBuilder.empty.callAll calls).build = (Builder.empty.callAll calls).build.map .interned := by
  have hempty : StoredBuilder.empty = .ofBuilder .empty := rfl
  rw [hempty, StoredBuilder.callAll_ofBuilder, StoredBuilder.build_ofBuilder]

/-- Removal stores the gates that it keeps anew. -/
theorem removeUnused_eq (s : StoredProgram) : s.removeUnused = s.program.removeUnused.map .interned := by
  have hempty : StoredBuilder.empty = .ofBuilder .empty := rfl
  rw [removeUnused, Program.removeUnused, hempty, StoredBuilder.addRecords_ofBuilder]
  cases (((Liveness.Walk.start s.program).down s.program.length).slots.drop
    ((Liveness.Walk.start s.program).down s.program.length).removed).foldlM Builder.addRecord .empty with
  | error e => rfl
  | ok b => exact StoredBuilder.build_ofBuilder _

/-- What is stored anew is the program, with each distinct gate stored once. -/
theorem of_interned {ε : Type} {stored : Except ε StoredProgram} {plain : Except ε Program}
    (h : stored = plain.map .interned) :
    stored.map program = plain ∧ ∀ q, stored = .ok q → plain = .ok q.program ∧ q.Exact := by
  subst h
  refine ⟨by cases plain <;> rfl, fun q hq => ?_⟩
  obtain ⟨p, hp, rfl⟩ := map_eq_ok.mp hq
  exact ⟨hp, exact_interned p⟩

/-- Programs that are well formed are rebuilt. -/
theorem exists_removeUnused (h : s.program.WellFormed) : ∃ q, s.removeUnused = .ok q :=
  ⟨_, by rw [removeUnused_eq, h.removeUnused_eq]; rfl⟩

/-- The stored programs that there is a way to obtain. -/
inductive Obtainable : StoredProgram → Prop
  /-- Any use of a builder, refused requests included. -/
  | build {calls : List BuilderCall} {s : StoredProgram} :
    (StoredBuilder.empty.callAll calls).build = .ok s → Obtainable s
  /-- The program of a parity system, from its builder. -/
  | lower {t : ParitySystem} {options : LoweringOptions} {l : Lowering} :
    t.lower options = .ok l → Obtainable (interned l.program)
  /-- The adder of the library, from its builder. -/
  | adder {width : Nat} {p : Program} : RippleCarry.adder width = .ok p → Obtainable (interned p)
  | simplifyGates {s : StoredProgram} : Obtainable s → Obtainable s.simplifyGates
  | removeUnused {s q : StoredProgram} : Obtainable s → s.removeUnused = .ok q → Obtainable q
  | simplify {s q : StoredProgram} : Obtainable s → s.simplify = .ok q → Obtainable q

theorem Obtainable.buildable (h : s.Obtainable) : s.program.Buildable := by
  induction h with
  | build hbuild => exact .build ((of_interned (build_callAll _)).2 _ hbuild).1
  | lower hlower => exact .lower hlower
  | adder hadder => exact .adder hadder
  | simplifyGates _ ih => exact ih.simplifyGates
  | removeUnused _ hq ih => exact ih.removeUnused ((of_interned (removeUnused_eq _)).2 _ hq).1
  | simplify _ hq ih => exact ih.simplify ((of_interned (removeUnused_eq _)).2 _ hq).1

/-- No pass puts two gates that differ into one cell. -/
theorem Obtainable.consistent (h : s.Obtainable) : s.Consistent := by
  induction h with
  | build hbuild => exact ((of_interned (build_callAll _)).2 _ hbuild).2.consistent
  | lower _ => exact (exact_interned _).consistent
  | adder _ => exact (exact_interned _).consistent
  | simplifyGates _ ih => exact ih.simplifyGates
  | removeUnused _ hq _ => exact ((of_interned (removeUnused_eq _)).2 _ hq).2.consistent
  | simplify _ hq _ => exact ((of_interned (removeUnused_eq _)).2 _ hq).2.consistent

/-- Sharing is exact and never conflates gates. A builder, whatever was asked of it, leaves two gates in one cell
exactly if their data are equal, and so do removal and simplification of any program. Rewriting of any program
gives each changed gate a cell of its own, and lets two unchanged gates share a cell exactly if they did before.
Gates in one cell of any program that there is a way to obtain have equal data, and all of these programs can be
rebuilt. The program is the one that is built without storage. -/
theorem sharing_exact :
    (∀ calls, (StoredBuilder.empty.callAll calls).build.map program = (Builder.empty.callAll calls).build ∧
      ∀ s, (StoredBuilder.empty.callAll calls).build = .ok s → s.Exact) ∧
    (∀ s : StoredProgram,
      (s.removeUnused.map program = s.program.removeUnused ∧ ∀ q, s.removeUnused = .ok q → q.Exact) ∧
      s.simplify.map program = s.program.simplify ∧ ∀ q, s.simplify = .ok q → q.Exact) ∧
    (∀ s : StoredProgram, s.cells.length = s.program.length → ∀ i j : Nat,
      (s.program.gates[i]? ≠ s.simplifyGates.program.gates[i]? → s.simplifyGates.Shares i j → i = j) ∧
      (s.program.gates[i]? = s.simplifyGates.program.gates[i]? →
        s.program.gates[j]? = s.simplifyGates.program.gates[j]? →
        (s.simplifyGates.Shares i j ↔ s.Shares i j))) ∧
    ∀ s : StoredProgram, s.Obtainable →
      s.Consistent ∧ (∃ q, s.removeUnused = .ok q) ∧ ∃ q, s.simplify = .ok q := by
  refine ⟨fun calls => ?_, fun s => ⟨?_, ?_⟩, fun s hlength i j => ⟨fun hchanged hshares => ?_, fun hi hj => ?_⟩,
    fun s hs => ?_⟩
  · obtain ⟨hplain, hexact⟩ := of_interned (build_callAll calls)
    exact ⟨hplain, fun s hbuild => (hexact s hbuild).2⟩
  · obtain ⟨hplain, hexact⟩ := of_interned s.removeUnused_eq
    exact ⟨hplain, fun q hq => (hexact q hq).2⟩
  · obtain ⟨hplain, hexact⟩ := of_interned s.simplifyGates.removeUnused_eq
    exact ⟨hplain, fun q hq => (hexact q hq).2⟩
  · obtain ⟨-, rfl | ⟨hsame, -⟩⟩ := (shares_simplifyGates hlength).mp hshares
    · rfl
    · exact absurd hsame hchanged
  · rw [shares_simplifyGates hlength, and_iff_left (.inr ⟨hi, hj⟩)]
  · have hp := hs.buildable.wellFormed
    exact ⟨hs.consistent, exists_removeUnused hp, exists_removeUnused hp.simplifyGates⟩

theorem sharing_exact_refused_part :
    ∃ (calls : List BuilderCall) (s q : StoredProgram),
      (StoredBuilder.empty.callAll calls).build = .ok s ∧ s.Exact ∧ s.Shares 0 1 ∧ s.Shares 3 4 ∧
      s.simplifyGates.Shares 0 1 ∧ ¬ s.simplifyGates.Shares 3 4 ∧ s.simplifyGates.Consistent ∧
      s.simplify = .ok q ∧ q.Exact := by
  obtain ⟨calls, hcalls⟩ : ∃ calls : List BuilderCall, calls = [.add ⟨.input, .neither, []⟩,
      .add ⟨.input, .neither, []⟩, .add ⟨.constant true, .neither, []⟩,
      .add ⟨.conjunction false false false, .neither, [2, 9]⟩,
      .add ⟨.conjunction false false false, .neither, [1, 2]⟩,
      .add ⟨.conjunction false false false, .neither, [1, 2]⟩, .outputs [3, 4]] := ⟨_, rfl⟩
  obtain ⟨hbuilds, hremoves, hrewrites, hobtainable⟩ := sharing_exact
  obtain ⟨s, hs, hprogram⟩ : ∃ s, (StoredBuilder.empty.callAll calls).build = .ok s ∧
      s.program = ⟨[⟨.input, .neither⟩, ⟨.input, .neither⟩, ⟨.constant true, .both⟩,
        ⟨.conjunction false false false 1 2, .neither⟩, ⟨.conjunction false false false 1 2, .neither⟩],
        [3, 4]⟩ := by
    rw [hcalls]
    exact ⟨_, rfl, rfl⟩
  have hexact : s.Exact := (hbuilds calls).2 s hs
  have hinputs : s.Shares 0 1 := (hexact.shares_iff (by rw [hprogram]; rfl) (by rw [hprogram]; rfl)).mpr rfl
  have hparts : s.Shares 3 4 := (hexact.shares_iff (by rw [hprogram]; rfl) (by rw [hprogram]; rfl)).mpr rfl
  have hgates : s.simplifyGates.program.gates = s.program.simplifyGates.gates := rfl
  obtain ⟨-, hkept⟩ := hrewrites s hexact.length 0 1
  obtain ⟨hchanged, -⟩ := hrewrites s hexact.length 3 4
  have hobtained : s.Obtainable := .build hs
  obtain ⟨hconsistent, -, -⟩ := hobtainable s.simplifyGates hobtained.simplifyGates
  obtain ⟨-, -, q, hq⟩ := hobtainable s hobtained
  refine ⟨calls, s, q, hs, hexact, hinputs, hparts, (hkept ?_ ?_).mpr hinputs, fun hshares => ?_, hconsistent,
    hq, (hremoves s).2.2 q hq⟩
  · rw [hgates, hprogram]
    rfl
  · rw [hgates, hprogram]
    rfl
  · -- the first conjunction has become a copy of the input
    have hne : s.program.gates[3]? ≠ s.simplifyGates.program.gates[3]? := by
      rw [hgates, hprogram]
      decide
    exact absurd (hchanged hne hshares) (by decide)

end StoredProgram

end HalfGates
