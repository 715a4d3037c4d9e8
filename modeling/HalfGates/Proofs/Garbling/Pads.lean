import HalfGates.Proofs.Garbling.Queries

/-!
# What the hash is read for

The log of a party holds all that it has hashed. With another hash that gives the same pads for what is in the
log, the generator makes the same garbling and the evaluator ends a run in the same way, with the same log.

## Main definitions

- `TweakedHash.AgreesAt`: another hash that gives the same pads for some queries
- `Hashing.run_congr`: what comes of asking depends on what is asked only
- `Garbler.steps_congr`, `Program.garble_congr`: the generator
- `GarbledRun.steps_congr`, `GarbledCircuit.run_congr`: the evaluator
-/

namespace HalfGates

/-- Another hash gives the same pads for the given queries. -/
def TweakedHash.AgreesAt (hash other : TweakedHash) (queries : List Query) : Prop :=
  ∀ q ∈ queries, other q.key q.place = hash q.key q.place

namespace TweakedHash.AgreesAt

variable {hash other : TweakedHash} {older newer : List Query}

theorem left (h : hash.AgreesAt other (newer ++ older)) : hash.AgreesAt other newer :=
  fun q hq => h q (List.mem_append_left older hq)

theorem right (h : hash.AgreesAt other (newer ++ older)) : hash.AgreesAt other older :=
  fun q hq => h q (List.mem_append_right newer hq)

/-- It is enough to agree at the places where something was asked. -/
theorem of_places {places : List Tweak} {queries : List Query}
    (hplaces : ∀ t, t ∉ places → queries.filter (·.place = t) = [])
    (h : ∀ key, ∀ t ∈ places, other key t = hash key t) : hash.AgreesAt other queries := by
  intro q hq
  refine h q.key q.place ?_
  by_contra hout
  have hmem : q ∈ queries.filter (·.place = q.place) := List.mem_filter.mpr ⟨hq, by simp⟩
  rw [hplaces _ hout] at hmem
  cases hmem

end TweakedHash.AgreesAt

namespace Hashing

variable {α : Type} {hash other : TweakedHash} {c : Hashing α}

/-- What comes of asking, and what is asked, depends on the pads of what is asked only. -/
theorem run_congr (log : List Query) (h : hash.AgreesAt other (c.run hash log).2) :
    c.run other log = c.run hash log := by
  induction c generalizing log with
  | done x => rfl
  | ask query next ih =>
    have hpad : other query.key query.place = hash query.key query.place := by
      refine h query ?_
      rw [run, run_eq]
      exact List.mem_append_right _ List.mem_cons_self
    rw [run, hpad]
    exact ih _ (query :: log) h

theorem value_congr (h : hash.AgreesAt other (c.queries hash)) : c.value other = c.value hash :=
  congrArg Prod.fst (run_congr [] h)

theorem queries_congr (h : hash.AgreesAt other (c.queries hash)) : c.queries other = c.queries hash :=
  congrArg Prod.snd (run_congr [] h)

end Hashing

/-! ### The generator -/

namespace Garbler

variable {setup : GarblingSetup} {other : TweakedHash} {s s' : Garbler}

section operations

variable {index : Nat} {g : Gate} {w : Wire} {rows : BitView} {p q n : Bool} {x y : Wire}

theorem perform_congr {c : Hashing HalfGate}
    (h : setup.hash.AgreesAt other (c.queries setup.hash ++ s.queries)) :
    s.perform { setup with hash := other } c = s.perform setup c := by
  rw [perform_eq, perform_eq, Hashing.value_congr h.left, Hashing.queries_congr h.left]

theorem split_congr (h : s.split setup index g p q n x y = .ok (w, rows, s'))
    (hagree : setup.hash.AgreesAt other s'.queries) :
    s.split { setup with hash := other } index g p q n x y = .ok (w, rows, s') := by
  rw [split_eq] at h ⊢
  obtain ⟨upper, hupper, h⟩ := bind_eq_ok.mp h
  refine bind_eq_ok.mpr ⟨upper, hupper, ?_⟩
  dsimp only at h ⊢
  generalize evaluatorHalf setup.delta ⟨index, 1⟩ p q false x _ = lower at h ⊢
  have hlog : s'.queries = lower.queries setup.hash ++ (upper.queries setup.hash ++ s.queries) := by
    split at h <;> cases h
    rfl
  rw [hlog] at hagree
  rw [Hashing.value_congr hagree.left, Hashing.queries_congr hagree.left,
    Hashing.value_congr hagree.right.left, Hashing.queries_congr hagree.right.left]
  exact h

theorem operation_congr {op : Operation Wire} (h : s.operation setup index g op = .ok (w, rows, s'))
    (hagree : setup.hash.AgreesAt other s'.queries) :
    s.operation { setup with hash := other } index g op = .ok (w, rows, s') := by
  cases op with
  | conjunction p q n x y =>
    obtain ⟨bit, hbit, h⟩ := bind_eq_ok.mp h
    refine bind_eq_ok.mpr ⟨bit, hbit, ?_⟩
    dsimp only at h ⊢
    split at h
    · exact h
    · split at h
      · next hgenerator =>
        obtain ⟨half, hhalf, h⟩ := bind_eq_ok.mp h
        rw [if_pos hgenerator]
        refine bind_eq_ok.mpr ⟨half, hhalf, ?_⟩
        simp only [perform_eq] at h
        cases h
        rw [perform_congr hagree, perform_eq]
      · next hgenerator =>
        rw [if_neg hgenerator]
        split at h
        · next hevaluator =>
          rw [if_pos hevaluator]
          simp only [perform_eq] at h
          cases h
          rw [perform_congr hagree, perform_eq]
        · next hevaluator =>
          rw [if_neg hevaluator]
          exact split_congr h hagree
  | _ => exact h

end operations

/-- What a gate asks is put in front of the log. -/
theorem exists_asked_step {g : Gate} {payload : BitView} (h : s.step setup g = .ok (payload, s')) :
    ∃ asked, s'.queries = asked ++ s.queries := by
  obtain ⟨op, wire, rows, state, -, hoperation, -, rfl⟩ := step_eq_ok.mp h
  have hasked := queries_operation hoperation
  exact ⟨_, hasked⟩

theorem exists_asked_steps {gates : List Gate} {payloads : List BitView}
    (h : s.steps setup gates = .ok (payloads, s')) : ∃ asked, s'.queries = asked ++ s.queries := by
  induction gates generalizing s payloads with
  | nil =>
    cases h
    exact ⟨[], rfl⟩
  | cons g gates ih =>
    obtain ⟨⟨payload, state⟩, hstep, h⟩ := bind_eq_ok.mp h
    obtain ⟨⟨rest, final⟩, hsteps, h⟩ := bind_eq_ok.mp h
    cases h
    obtain ⟨asked, hasked⟩ := exists_asked_step hstep
    obtain ⟨later, hlater⟩ := ih hsteps
    exact ⟨later ++ asked, by rw [hlater, hasked, List.append_assoc]⟩

theorem step_congr {g : Gate} {payload : BitView} (h : s.step setup g = .ok (payload, s'))
    (hagree : setup.hash.AgreesAt other s'.queries) :
    s.step { setup with hash := other } g = .ok (payload, s') := by
  obtain ⟨op, wire, rows, state, hop, hoperation, hpublish, rfl⟩ := step_eq_ok.mp h
  exact step_eq_ok.mpr
    ⟨op, wire, rows, state, hop, operation_congr hoperation hagree, hpublish, rfl⟩

/-- Gates in order come out the same with another hash that agrees at the last log, because each of them
leaves its queries in it. -/
theorem steps_congr {gates : List Gate} {payloads : List BitView}
    (h : s.steps setup gates = .ok (payloads, s')) (hagree : setup.hash.AgreesAt other s'.queries) :
    s.steps { setup with hash := other } gates = .ok (payloads, s') := by
  induction gates generalizing s payloads with
  | nil =>
    cases h
    rfl
  | cons g gates ih =>
    obtain ⟨⟨payload, state⟩, hstep, h⟩ := bind_eq_ok.mp h
    obtain ⟨⟨rest, final⟩, hsteps, h⟩ := bind_eq_ok.mp h
    cases h
    obtain ⟨later, hlater⟩ := exists_asked_steps hsteps
    have hfirst : setup.hash.AgreesAt other state.queries :=
      TweakedHash.AgreesAt.right (by rwa [← hlater])
    refine bind_eq_ok.mpr ⟨(payload, state), step_congr hstep hfirst, ?_⟩
    exact bind_eq_ok.mpr ⟨(rest, s'), ih hsteps, rfl⟩

end Garbler

/-- Garbling reads the hash at the queries in its log only. -/
theorem Program.garble_congr {p : Program} {setup : GarblingSetup} {other : TweakedHash} {g : Garbling}
    (h : p.garble setup = .ok g) (hagree : setup.hash.AgreesAt other g.final.queries) :
    p.garble { setup with hash := other } = .ok g := by
  unfold garble at h ⊢
  split at h
  · next hcount =>
    obtain ⟨⟨tables, final⟩, hsteps, h⟩ := bind_eq_ok.mp h
    obtain ⟨inputZeros, hinputs, h⟩ := bind_eq_ok.mp h
    obtain ⟨outputZeros, houtputs, h⟩ := bind_eq_ok.mp h
    cases h
    rw [if_pos hcount, Garbler.steps_congr hsteps hagree, ok_bind]
    dsimp only
    rw [hinputs, ok_bind, houtputs, ok_bind]
  · cases h

/-! ### The evaluator -/

namespace GarbledRun

variable {hash other : TweakedHash} {e e' : GarbledRun} {label : Block} {rest : BitView}

section operations

variable {place : Tweak} {index first second : Nat} {g : Gate} {payload : BitView} {p q : Bool}
  {x y : Held}

theorem perform_congr {c : Hashing Block} (h : hash.AgreesAt other (c.queries hash ++ e.queries)) :
    e.perform other c = e.perform hash c := by
  rw [perform_eq, perform_eq, Hashing.value_congr h.left, Hashing.queries_congr h.left]

theorem generatorHalf_congr (h : e.generatorHalf hash place x y payload = .ok (label, rest, e'))
    (hagree : hash.AgreesAt other e'.queries) :
    e.generatorHalf other place x y payload = .ok (label, rest, e') := by
  obtain ⟨⟨row, tail⟩, hrow, h⟩ := bind_eq_ok.mp h
  refine bind_eq_ok.mpr ⟨(row, tail), hrow, ?_⟩
  simp only [perform_eq] at h
  cases h
  dsimp only
  rw [perform_congr hagree, perform_eq]

theorem evaluatorHalf_congr
    (h : e.evaluatorHalf hash place first second p q x y payload = .ok (label, rest, e'))
    (hagree : hash.AgreesAt other e'.queries) :
    e.evaluatorHalf other place first second p q x y payload = .ok (label, rest, e') := by
  unfold evaluatorHalf at h ⊢
  cases hx : x.scope.evaluator <;> rw [hx] at h
  all_goals
    obtain ⟨⟨row, tail⟩, hrow, h⟩ := bind_eq_ok.mp h
    refine bind_eq_ok.mpr ⟨(row, tail), hrow, ?_⟩
    simp only [perform_eq] at h
    dsimp only
    split at h <;> cases h
    rw [perform_congr hagree, perform_eq]

theorem split_congr (h : e.split hash index g p q x y payload = .ok (label, rest, e'))
    (hagree : hash.AgreesAt other e'.queries) :
    e.split other index g p q x y payload = .ok (label, rest, e') := by
  obtain ⟨⟨upper, tail, state⟩, hupper, h⟩ := bind_eq_ok.mp h
  obtain ⟨⟨lower, tail', state'⟩, hlower, h⟩ := bind_eq_ok.mp h
  cases h
  have hlog := (queries_evaluatorHalf hlower).2
  have hfirst : hash.AgreesAt other state.queries := fun q hq => hagree q (hlog ▸ List.mem_cons_of_mem _ hq)
  refine bind_eq_ok.mpr ⟨(upper, tail, state), generatorHalf_congr hupper hfirst, ?_⟩
  exact bind_eq_ok.mpr ⟨(lower, rest, e'), evaluatorHalf_congr hlower hagree, rfl⟩

theorem operation_congr {op : Operation Held}
    (h : e.operation hash index g payload op = .ok (label, rest, e'))
    (hagree : hash.AgreesAt other e'.queries) :
    e.operation other index g payload op = .ok (label, rest, e') := by
  cases op with
  | conjunction p q n x y =>
    dsimp only [operation] at h ⊢
    split at h
    · next hboth =>
      rw [if_pos hboth]
      exact h
    · next hboth =>
      rw [if_neg hboth]
      split at h
      · next hgenerator =>
        rw [if_pos hgenerator]
        exact generatorHalf_congr h hagree
      · next hgenerator =>
        rw [if_neg hgenerator]
        split at h
        · next hevaluator =>
          rw [if_pos hevaluator]
          exact evaluatorHalf_congr h hagree
        · next hevaluator =>
          rw [if_neg hevaluator]
          exact split_congr h hagree
  | _ => exact h

end operations

/-- What a gate asks is put in front of the log. -/
theorem exists_asked_step {g : Gate} {payload : BitView} (h : e.step hash g payload = .ok e') :
    ∃ asked, e'.queries = asked ++ e.queries := by
  obtain ⟨op, label, rest, state, bit, -, hoperation, -, rfl⟩ := step_eq_ok.mp h
  have hasked := (queries_operation hoperation).2
  exact ⟨_, hasked⟩

theorem exists_asked_steps {gates : List Gate} {payloads : List BitView}
    (h : e.steps hash gates payloads = .ok e') : ∃ asked, e'.queries = asked ++ e.queries := by
  induction gates generalizing e payloads with
  | nil =>
    cases h
    exact ⟨[], rfl⟩
  | cons g gates ih =>
    cases payloads with
    | nil => cases h
    | cons payload payloads =>
      obtain ⟨state, hstep, h⟩ := bind_eq_ok.mp h
      obtain ⟨asked, hasked⟩ := exists_asked_step hstep
      obtain ⟨later, hlater⟩ := ih h
      exact ⟨later ++ asked, by rw [hlater, hasked, List.append_assoc]⟩

theorem step_congr {g : Gate} {payload : BitView} (h : e.step hash g payload = .ok e')
    (hagree : hash.AgreesAt other e'.queries) : e.step other g payload = .ok e' := by
  obtain ⟨op, label, rest, state, bit, hop, hoperation, hbit, rfl⟩ := step_eq_ok.mp h
  exact step_eq_ok.mpr
    ⟨op, label, rest, state, bit, hop, operation_congr hoperation hagree, hbit, rfl⟩

theorem steps_congr {gates : List Gate} {payloads : List BitView}
    (h : e.steps hash gates payloads = .ok e') (hagree : hash.AgreesAt other e'.queries) :
    e.steps other gates payloads = .ok e' := by
  induction gates generalizing e payloads with
  | nil =>
    cases h
    rfl
  | cons g gates ih =>
    cases payloads with
    | nil => cases h
    | cons payload payloads =>
      obtain ⟨state, hstep, h⟩ := bind_eq_ok.mp h
      obtain ⟨later, hlater⟩ := exists_asked_steps h
      have hfirst : hash.AgreesAt other state.queries :=
        TweakedHash.AgreesAt.right (by rwa [← hlater])
      exact bind_eq_ok.mpr ⟨state, step_congr hstep hfirst, ih h⟩

end GarbledRun

/-- A run reads the hash at the queries in its log only. -/
theorem GarbledCircuit.run_congr {c : GarbledCircuit} {other : TweakedHash} {labels : List Block}
    {r : RunResult} (h : c.run labels = .ok r) (hagree : c.hash.AgreesAt other r.final.queries) :
    { c with hash := other }.run labels = .ok r := by
  unfold run at h ⊢
  split at h
  · next hcount =>
    obtain ⟨final, hsteps, h⟩ := bind_eq_ok.mp h
    obtain ⟨ungarbled, hungarbled, h⟩ := bind_eq_ok.mp h
    obtain ⟨outputs, houtputs, h⟩ := bind_eq_ok.mp h
    cases h
    rw [if_pos hcount, GarbledRun.steps_congr hsteps hagree, ok_bind]
    dsimp only
    rw [hungarbled, ok_bind, houtputs, ok_bind]
  · cases h

end HalfGates
