import HalfGates.Proofs.Garbling.Pads
import Mathlib.Data.List.Forall2

/-!
# Which labels are hashed where

A half gate is hashed at a place of its own: the generator hashes both labels of one wire there, and the
evaluator the one that it holds. Neither of them hashes anything else.

## Main definitions

- `JointWire.forall₂_hashedAlong`: the evaluator hashes one label of each pair
- `Program.tweaks_discipline`: the places of a garbling and of the runs on it
-/

namespace HalfGates

/-! ### Both parties -/

namespace JointWire

variable (δ : Delta)

/-- The label that the evaluator holds is one of the pair, whichever label the pair is made from. -/
theorem mem_pair (j : JointWire) (m : Bool) (place : Tweak) :
    ⟨j.label δ, place⟩ ∈ Query.pair δ ⟨j.zero ^^^ δ.times m, place⟩ := by
  have hother : j.zero ^^^ δ.block ^^^ δ.block = j.zero := xor_cancel_right _ _
  rw [Query.pair, label]
  cases j.value <;> cases m <;> simp [hother]

/-- For each half gate of an operation, the evaluator hashes one label of the generator's pair. -/
theorem forall₂_hashed (index : Nat) (scope : Scope) (op : Operation JointWire) :
    List.Forall₂ (fun asked made => asked ∈ Query.pair δ made)
      (GarbledRun.hashed index scope (op.map (held δ)))
      (Garbler.hashed δ index scope (op.map wire)) := by
  cases op with
  | conjunction p q n x y =>
    have hmasked : y.zero ^^^ δ.times y.zero.select ^^^ δ.times q =
        y.zero ^^^ δ.times (y.zero.select ^^ q) := by
      rw [Delta.times_xor, BitVec.xor_assoc]
    dsimp only [Operation.map, GarbledRun.hashed, Garbler.hashed, held, wire]
    rw [hmasked]
    split
    · exact .nil
    · split
      · exact .cons (y.mem_pair δ _ _) .nil
      · split
        · exact .cons (x.mem_pair δ _ _) .nil
        · split
          · exact .cons (x.mem_pair δ p _) .nil
          · split
            · exact .cons (y.mem_pair δ q _) .nil
            · exact .cons (y.mem_pair δ _ _) (.cons (x.mem_pair δ _ _) .nil)
  | _ => exact .nil

theorem forall₂_hashedAlong (gates : List Gate) (wires : List JointWire) :
    List.Forall₂ (fun asked made => asked ∈ Query.pair δ made)
      (GarbledRun.hashedAlong gates (wires.map (held δ)))
      (Garbler.hashedAlong δ gates (wires.map wire)) := by
  induction gates generalizing wires with
  | nil => exact .nil
  | cons g gates ih =>
    match wires with
    | [] => exact .nil
    | j :: wires =>
      rw [List.map_cons, List.map_cons, GarbledRun.hashedAlong, Garbler.hashedAlong]
      refine List.rel_append ?_ (ih wires)
      rw [Operation.mapM?_back?_map, Operation.mapM?_back?_map, List.length_map, List.length_map]
      cases hop : g.op.mapM? (back? wires) with
      | none => exact .nil
      | some op => exact forall₂_hashed δ wires.length g.scope op

end JointWire

/-! ### What is hashed at one place -/

namespace Query

variable {δ : Delta} {made : List Query} {t : Tweak}

theorem place_of_mem_pair {q a : Query} (h : a ∈ q.pair δ) : a.place = q.place := by
  rcases List.mem_cons.mp h with rfl | h
  · rfl
  · rw [List.mem_singleton.mp h]

theorem filter_eq_nil (h : t ∉ made.map place) : made.filter (·.place = t) = [] := by
  rw [List.filter_eq_nil_iff]
  intro q hq hplace
  exact h (List.mem_map.mpr ⟨q, hq, of_decide_eq_true hplace⟩)

theorem exists_filter_eq_singleton (hnodup : (made.map place).Nodup) (h : t ∈ made.map place) :
    ∃ k, made.filter (·.place = t) = [⟨k, t⟩] := by
  induction made with
  | nil => cases h
  | cons q made ih =>
    obtain ⟨hnew, hrest⟩ := List.nodup_cons.mp hnodup
    by_cases hplace : q.place = t
    · subst hplace
      refine ⟨q.key, ?_⟩
      rw [List.filter_cons_of_pos (by simp), filter_eq_nil hnew]
    · have hmem : t ∈ made.map place :=
        (List.mem_cons.mp h).resolve_left fun heq => hplace heq.symm
      obtain ⟨k, hk⟩ := ih hrest hmem
      refine ⟨k, ?_⟩
      rwa [List.filter_cons_of_neg (by simpa using hplace)]

theorem filter_flatMap_pair (δ : Delta) (made : List Query) (t : Tweak) :
    (made.flatMap (pair δ)).filter (·.place = t) = (made.filter (·.place = t)).flatMap (pair δ) := by
  induction made with
  | nil => rfl
  | cons q made ih =>
    rw [List.flatMap_cons, List.filter_append, ih]
    by_cases hplace : q.place = t <;> simp [pair, hplace]

theorem forall₂_filter {asked : List Query}
    (h : List.Forall₂ (fun a q => a ∈ pair δ q) asked made) (t : Tweak) :
    List.Forall₂ (fun a q => a ∈ pair δ q) (asked.filter (·.place = t))
      (made.filter (·.place = t)) := by
  induction h with
  | nil => exact .nil
  | @cons a q asked made haq _ ih =>
    have hsame := place_of_mem_pair haq
    by_cases hplace : q.place = t
    · rw [List.filter_cons_of_pos (by simpa [hsame] using hplace),
        List.filter_cons_of_pos (by simpa using hplace)]
      exact .cons haq ih
    · rw [List.filter_cons_of_neg (by simpa [hsame] using hplace),
        List.filter_cons_of_neg (by simpa using hplace)]
      exact ih

end Query

/-! ### Garbling and running -/

namespace Program

variable {p : Program} {setup : GarblingSetup} {g : Garbling}

/-- What the evaluator hashes in a run is what the history says with which it ends. -/
theorem queries_of_run {c : GarbledCircuit} {labels : List Block} {r : RunResult}
    (h : c.run labels = .ok r) :
    r.final.queries = GarbledRun.hashedAlong c.program.gates.reverse r.final.past := by
  have hqueries : r.final.queries =
      GarbledRun.hashedAlong (c.program.gates.reverse ++ []) r.final.past :=
    GarbledRun.queries_steps (GarbledCircuit.of_run h).2 rfl
  rwa [List.append_nil] at hqueries

/-- What the generator hashes is a pair for each place of the program. -/
theorem WellFormed.hashes_of_garble (hp : p.WellFormed) (h : p.garble setup = .ok g) :
    (Garbler.hashedAlong setup.delta p.gates.reverse g.final.past).map Query.place = p.tweaks ∧
      g.final.queries =
        (Garbler.hashedAlong setup.delta p.gates.reverse g.final.past).flatMap
          (Query.pair setup.delta) := by
  have hinitial : Garbler.initial.Hashes setup [] := ⟨rfl, rfl⟩
  have hfinal := hinitial.steps (of_garble h).2.1
  rw [List.append_nil] at hfinal
  exact ⟨Garbler.place_hashedAlong _ hp.gates hfinal.scopes, hfinal.queries⟩

/-- The histories with which the generator and the evaluator end are those of the same wires. -/
theorem WellFormed.exists_wires (hp : p.WellFormed) (h : p.garble setup = .ok g)
    (hrandom : ∀ gate ∈ p.gates, gate.kind = .random → gate.scope.generator = true) {given : List Bool}
    (hgiven : given.length = p.inputIndices.length) :
    ∃ (wires : List JointWire) (labels : List Block) (r : RunResult),
      g.codebook.encode given 0 = .ok labels ∧
      (⟨p, g.tables, setup.hash⟩ : GarbledCircuit).run labels = .ok r ∧
      g.final.past = wires.map JointWire.wire ∧
      r.final.past = wires.map (JointWire.held setup.delta) := by
  obtain ⟨covered, hcovers⟩ := hp.exists_covers hrandom h hgiven
  obtain ⟨labels, r, hlabels, hrun, -⟩ :=
    hcovers.exists_run hp rfl fun v hv => (hcovers.payloads v hv).1
  obtain ⟨-, hsteps, hzeros, -, hdelta⟩ := of_garble h
  obtain ⟨wires, hagree⟩ := hp.exists_gatesAgree hrandom hsteps hgiven
  obtain ⟨own, hown⟩ : ∃ own, own = keep (p.gates.map Gate.isEvaluatorInput) wires := ⟨_, rfl⟩
  have hwires : wires.length = p.length := by
    simpa [length] using congrArg List.length hagree.scopes
  have hfound := hagree.mapM_zeroAt (p.locates_positions Gate.isEvaluatorInput hwires)
  have hinputs : g.codebook.inputZeros = own.map JointWire.zero := by
    rw [hown]
    exact Except.ok.inj (hzeros.symm.trans hfound)
  -- the evaluator starts with the labels of the wires of its inputs
  have hencode := Codebook.encode_eq (List.drop_zero.trans hinputs)
  have hgivens : own.map JointWire.value = given := by
    rw [hown, hagree.given]
  rw [hgivens, hdelta, hlabels] at hencode
  have hstart : GarbledRun.Tracks setup.delta ⟨[], labels, []⟩ []
      ((keep (p.gates.map Gate.isEvaluatorInput) wires).map (JointWire.label setup.delta)) := by
    refine ⟨rfl, ?_⟩
    rw [← hown]
    exact Except.ok.inj hencode
  obtain ⟨e, hsteps', htracks⟩ :=
    hagree.evaluates g.tables _ rfl (fun v hv => (hagree.shapes v hv).1) hstart
  have hfinal : r.final = e := Except.ok.inj ((GarbledCircuit.of_run hrun).2.symm.trans hsteps')
  refine ⟨wires.reverse, labels, r, hlabels, hrun, ?_, ?_⟩
  · rw [← List.reverse_reverse g.final.past, hagree.past_eq, List.map_reverse]
  · rw [hfinal, htracks.past, List.append_nil]

/-- No place is hashed for two half gates. The generator hashes two labels that differ by Δ at each place of
the program and nothing anywhere else: the garbling is the same with any other hash that agrees at what was
hashed. If the generator knows all random bits, then every run on the labels of inputs hashes at each place one
of the two labels, once, and nothing anywhere else. -/
theorem tweaks_discipline (hp : p.Buildable) (h : p.garble setup = .ok g) :
    (∀ t, t ∈ p.tweaks ↔ ∃ (gate : Gate) (count : Nat), p.gates[t.gate]? = some gate ∧
      (gate.op.map fun d => p.scopeAt (t.gate - d)).rows gate.scope = count ∧
      (count = 1 ∧ t.part = 0 ∨ count = 2 ∧ (t.part = 3 ∨ t.part = 1))) ∧
    p.tweaks.Nodup ∧ p.tweaks.length = g.final.rows ∧
    (∀ t ∈ p.tweaks, ∃ k, g.final.queries.filter (·.place = t) =
      [⟨k ^^^ setup.delta.block, t⟩, ⟨k, t⟩]) ∧
    (∀ t, t ∉ p.tweaks → g.final.queries.filter (·.place = t) = []) ∧
    (∀ other : TweakedHash, setup.hash.AgreesAt other g.final.queries →
      p.garble { setup with hash := other } = .ok g) ∧
    ((∀ gate ∈ p.gates, gate.kind = .random → gate.scope.generator = true) →
      ∀ given : List Bool, given.length = p.inputIndices.length →
        ∃ c labels r, GarbledCircuit.ofTables p g.tables setup.hash = .ok c ∧
          g.codebook.encode given 0 = .ok labels ∧ c.run labels = .ok r ∧
          (∀ t ∈ p.tweaks, ∃ q ∈ g.final.queries, r.final.queries.filter (·.place = t) = [q]) ∧
          (∀ t, t ∉ p.tweaks → r.final.queries.filter (·.place = t) = []) ∧
          ∀ other : TweakedHash, c.hash.AgreesAt other r.final.queries →
            { c with hash := other }.run labels = .ok r) := by
  obtain ⟨hplaces, hqueries⟩ := hp.wellFormed.hashes_of_garble h
  obtain ⟨made, hmade⟩ : ∃ made, made =
      Garbler.hashedAlong setup.delta p.gates.reverse g.final.past := ⟨_, rfl⟩
  rw [← hmade] at hplaces hqueries
  have hnodup : p.tweaks.Nodup := Gate.nodup_tweaksAlong _
  have hone : ∀ t ∈ p.tweaks, ∃ k, made.filter (·.place = t) = [⟨k, t⟩] := by
    intro t ht
    rw [← hplaces] at hnodup ht
    exact Query.exists_filter_eq_singleton hnodup ht
  have hnone : ∀ t, t ∉ p.tweaks → made.filter (·.place = t) = [] := by
    intro t ht
    rw [← hplaces] at ht
    exact Query.filter_eq_nil ht
  refine ⟨fun t => hp.wellFormed.mem_tweaks, hnodup, ?_, ?_, ?_, fun other => garble_congr h, ?_⟩
  · rw [length_tweaks, (rows_of_garble h).1]
  · intro t ht
    obtain ⟨k, hk⟩ := hone t ht
    refine ⟨k, ?_⟩
    rw [hqueries, Query.filter_flatMap_pair, hk]
    rfl
  · intro t ht
    rw [hqueries, Query.filter_flatMap_pair, hnone t ht]
    rfl
  · intro hrandom given hgiven
    obtain ⟨wires, labels, r, hlabels, hrun, hpast, hheld⟩ :=
      hp.wellFormed.exists_wires h hrandom hgiven
    have hasked := queries_of_run hrun
    have htables : g.tables.length = p.length := by
      obtain ⟨covered, hcovers⟩ := hp.wellFormed.exists_covers hrandom h hgiven
      exact hcovers.tables
    have hopened := JointWire.forall₂_hashedAlong setup.delta p.gates.reverse wires
    rw [← hpast, ← hheld, ← hasked, ← hmade] at hopened
    refine ⟨⟨p, g.tables, setup.hash⟩, labels, r, if_pos htables, hlabels, hrun, ?_, ?_,
      fun other => GarbledCircuit.run_congr hrun⟩
    · intro t ht
      obtain ⟨k, hk⟩ := hone t ht
      have hat := Query.forall₂_filter hopened t
      rw [hk] at hat
      obtain ⟨q, asked, hq, hrest, hfilter⟩ := List.forall₂_cons_right_iff.mp hat
      rw [List.forall₂_nil_right_iff] at hrest
      rw [hrest] at hfilter
      refine ⟨q, ?_, hfilter⟩
      rw [hqueries, List.mem_flatMap]
      have hmem : (⟨k, t⟩ : Query) ∈ made.filter (·.place = t) := by
        rw [hk]
        exact List.mem_singleton_self _
      exact ⟨⟨k, t⟩, (List.mem_filter.mp hmem).1, hq⟩
    · intro t ht
      have hat := Query.forall₂_filter hopened t
      rw [hnone t ht] at hat
      exact List.forall₂_nil_right_iff.mp hat

theorem tweaks_discipline_split_conjunction :
    ∃ (p : Program) (setup : GarblingSetup) (g : Garbling) (c : GarbledCircuit) (labels : List Block)
      (r : RunResult) (k : Block) (other : TweakedHash), p.Buildable ∧ p.garble setup = .ok g ∧
      p.tweaks = [⟨4, 0⟩, ⟨3, 1⟩, ⟨3, 3⟩] ∧
      g.final.queries.filter (·.place = ⟨3, 1⟩) =
        [⟨k ^^^ setup.delta.block, ⟨3, 1⟩⟩, ⟨k, ⟨3, 1⟩⟩] ∧
      GarbledCircuit.ofTables p g.tables setup.hash = .ok c ∧
      g.codebook.encode [true, false] 0 = .ok labels ∧ c.run labels = .ok r ∧
      (∃ q ∈ g.final.queries, r.final.queries.filter (·.place = ⟨3, 1⟩) = [q]) ∧
      r.final.queries.filter (·.place = ⟨3, 0⟩) = [] ∧
      setup.hash 0 ⟨0, 0⟩ ≠ other 0 ⟨0, 0⟩ ∧ p.garble { setup with hash := other } = .ok g ∧
      { c with hash := other }.run labels = .ok r := by
  obtain ⟨p, hp⟩ : ∃ p : Program, p = ⟨[⟨.input, .generatorOnly⟩, ⟨.input, .neither⟩,
      ⟨.input, .neither⟩, ⟨.conjunction true false true 2 1, .evaluatorOnly⟩,
      ⟨.conjunction false false false 4 1, .evaluatorOnly⟩], [4]⟩ := ⟨_, rfl⟩
  have hbuildable : p.Buildable := by
    rw [hp]
    exact @Buildable.build [.add ⟨.input, .generatorOnly, []⟩, .add ⟨.input, .neither, []⟩,
      .add ⟨.input, .neither, []⟩, .add ⟨.conjunction true false true, .evaluatorOnly, [2, 1]⟩,
      .add ⟨.conjunction false false false, .evaluatorOnly, [4, 1]⟩, .outputs [4]] _ rfl
  obtain ⟨setup, hsetup⟩ : ∃ setup : GarblingSetup, setup = ⟨Delta.ofSelected 5,
      fun key place => key + BitVec.ofNat 128 place.gate, [true], fun _ => true,
      fun k => BitVec.ofNat 128 k⟩ := ⟨_, rfl⟩
  have hown : setup.inputs.length = p.generatorInputCount := by
    rw [hsetup, hp]
    rfl
  have hderivable : ∀ i, p.underivable i = false := by
    intro i
    rw [hp]
    match i with
    | 0 | 1 | 2 | 3 | 4 => rfl
    | i + 5 => rfl
  obtain ⟨g, hg⟩ := hbuildable.wellFormed.exists_garble hown hderivable
  have htweaks : p.tweaks = [⟨4, 0⟩, ⟨3, 1⟩, ⟨3, 3⟩] := by
    rw [hp]
    rfl
  have hrandom : ∀ gate ∈ p.gates, gate.kind = .random → gate.scope.generator = true := by
    rw [hp]
    decide
  have hgiven : [true, false].length = p.inputIndices.length := by
    rw [hp]
    rfl
  obtain ⟨-, -, -, hpairs, hnowhere, hgarble, hruns⟩ := tweaks_discipline hbuildable hg
  obtain ⟨c, labels, r, hc, hlabels, hrun, hasked, hunasked, hrerun⟩ :=
    hruns hrandom [true, false] hgiven
  obtain ⟨k, hk⟩ := hpairs ⟨3, 1⟩ (by rw [htweaks]; decide)
  -- another hash that is the same at the places of the program only
  obtain ⟨other, hother⟩ : ∃ other : TweakedHash, other =
      fun key place => if place ∈ p.tweaks then setup.hash key place else 7 := ⟨_, rfl⟩
  have hsame : ∀ key, ∀ t ∈ p.tweaks, other key t = setup.hash key t := by
    intro key t ht
    rw [hother]
    exact if_pos ht
  have hdiffers : setup.hash 0 ⟨0, 0⟩ ≠ other 0 ⟨0, 0⟩ := by
    rw [hother, htweaks, hsetup]
    decide
  obtain ⟨rfl, -⟩ := GarbledCircuit.of_ofTables hc
  exact ⟨p, setup, g, _, labels, r, k, other, hbuildable, hg, htweaks, hk, hc, hlabels, hrun,
    hasked ⟨3, 1⟩ (by rw [htweaks]; decide), hunasked ⟨3, 0⟩ (by rw [htweaks]; decide), hdiffers,
    hgarble other (.of_places hnowhere hsame), hrerun other (.of_places hunasked hsame)⟩

end Program

end HalfGates
