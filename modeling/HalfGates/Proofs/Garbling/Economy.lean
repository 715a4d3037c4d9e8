import HalfGates.Proofs.Garbling.Exchange
import HalfGates.Proofs.Garbling.Outcome

/-!
# Simplification saves rows

The rows of a program follow from its scopes. Rewriting makes conjunctions of conjunctions only, on operands
that are known to whoever knew the ones before; removal leaves out gates. So a simplified program takes no
more rows, and it can be garbled if the program can.

## Main definitions

- `Gate.rowsAlong`, `Program.rowCount`: the rows of a program, by its scopes
- `Garbling.rowCount`: the rows in the payloads
- `Program.rows_of_garble`: both are the number of rows that the generator makes
- `Rewriting.rowsAlong_rewritten_le`, `Liveness.rowsAlong_kept_le`: neither pass adds a row
- `Program.simplify_economical`: no program that can be built becomes more expensive
-/

namespace HalfGates

/-- The number of rows of all gates of a history. -/
def Gate.rowsAlong : List Gate → Nat
  | [] => 0
  | g :: past => g.rows past + rowsAlong past

/-- The number of rows of a program. -/
def Program.rowCount (p : Program) : Nat :=
  Gate.rowsAlong p.gates.reverse

/-- The number of rows in the payloads. A published bit is less than a row. -/
def Garbling.rowCount (g : Garbling) : Nat :=
  (g.tables.map fun payload => payload.length / 128).sum

/-! ### The rows that the generator makes -/

namespace Garbler

variable {setup : GarblingSetup} {index : Nat} {s s' : Garbler} {w : Wire} {rows : BitView}

/-- From an operation in the state `s`, a wire of the given scope and as many rows as stated have come. -/
structure Costs (count : Nat) (scope : Scope) (s : Garbler) (w : Wire) (rows : BitView)
    (s' : Garbler) : Prop where
  scope : w.scope = scope
  past : s'.past = s.past
  isRows : rows.IsRows count
  rows : s'.rows = s.rows + count

theorem isSome_of_knownBit {place : Tweak} {scope : Scope} {found bit : Option Bool}
    (h : knownBit place scope found = .ok bit) : bit.isSome = scope.generator := by
  unfold knownBit at h
  split at h
  · next hscope =>
    split at h
    · cases h
      exact hscope.symm
    · cases h
  · next hscope =>
    cases h
    simpa using hscope

theorem costs_input {scope : Scope} (h : s.input setup scope = .ok (w, s')) :
    Costs 0 scope s w .empty s' := by
  unfold input at h
  split at h
  · split at h
    · cases h
      exact ⟨rfl, rfl, BitView.isRows_empty, rfl⟩
    · cases h
  · cases h
    exact ⟨rfl, rfl, BitView.isRows_empty, rfl⟩

theorem costs_random (setup : GarblingSetup) (s : Garbler) (scope : Scope) :
    Costs 0 scope s (s.random setup scope).1 .empty (s.random setup scope).2 := by
  unfold random drawBit
  split
  · cases s.pushed with
    | nil => exact ⟨rfl, rfl, BitView.isRows_empty, rfl⟩
    | cons bit rest => exact ⟨rfl, rfl, BitView.isRows_empty, rfl⟩
  · exact ⟨rfl, rfl, BitView.isRows_empty, rfl⟩

theorem costs_split {g : Gate} {p q n : Bool} {x y : Wire}
    (h : s.split setup index g p q n x y = .ok (w, rows, s')) :
    Costs 2 g.scope s w rows s' ∧ SameDraws s s' := by
  rw [split_eq] at h
  obtain ⟨upper, -, h⟩ := bind_eq_ok.mp h
  dsimp only at h
  split at h
  · next payload hconcat =>
    cases h
    obtain ⟨joined, hjoined, hbits, haligned⟩ :=
      (BitView.isRows_ofBlock (upper.value setup.hash).row).exists_concat
        (BitView.isRows_ofBlock _).aligned
    obtain rfl : joined = rows := Except.ok.inj (hjoined.symm.trans hconcat)
    have hlength : joined.length = 128 * 2 := by
      rw [← BitView.length_toBits, hbits, List.length_append, BitView.length_toBits,
        BitView.length_toBits, BitView.length_ofBlock, BitView.length_ofBlock]
    exact ⟨⟨rfl, rfl, ⟨haligned, hlength⟩, rfl⟩, .of_hashing s _ _⟩
  · cases h

/-- A conjunction makes a row for every half gate, and draws nothing in the end. -/
theorem costs_conjunction {g : Gate} {p q n : Bool} {x y : Wire}
    (h : s.operation setup index g (.conjunction p q n x y) = .ok (w, rows, s')) :
    Costs ((Operation.conjunction p q n x.scope y.scope).rows g.scope) g.scope s w rows s' ∧
      SameDraws s s' := by
  obtain ⟨bit, hbit, h⟩ := bind_eq_ok.mp h
  have hsome := isSome_of_knownBit hbit
  by_cases hboth : g.scope = .both
  · obtain ⟨value, rfl⟩ : ∃ value, bit = some value := by
      rw [hboth] at hsome
      exact Option.isSome_iff_exists.mp hsome
    rw [hboth] at h ⊢
    cases h
    rw [Operation.rows_both]
    exact ⟨⟨rfl, rfl, BitView.isRows_empty, rfl⟩, .refl s⟩
  · have hskip : (g.scope.generator && g.scope.evaluator) = false := Scope.not_both_iff.mp hboth
    rw [Operation.rows_conjunction p q n hskip]
    simp only [perform_eq] at h
    split at h
    · next value hevaluator =>
      rw [← hsome, hevaluator] at hskip
      cases hskip
    · split at h
      · next hgenerator =>
        obtain ⟨half, -, h⟩ := bind_eq_ok.mp h
        cases h
        rw [if_pos hgenerator]
        exact ⟨⟨rfl, rfl, BitView.isRows_ofBlock _, rfl⟩, .of_hashing s _ _⟩
      · next hgenerator =>
        rw [if_neg hgenerator]
        split at h
        · next hevaluator =>
          cases h
          rw [if_pos hevaluator]
          exact ⟨⟨rfl, rfl, BitView.isRows_ofBlock _, rfl⟩, .of_hashing s _ _⟩
        · next hevaluator =>
          rw [if_neg hevaluator]
          exact costs_split h

/-- An operation makes as many rows as its scopes say. -/
theorem costs_operation {g : Gate} {op : Operation Wire}
    (h : s.operation setup index g op = .ok (w, rows, s')) :
    Costs ((op.map Wire.scope).rows g.scope) g.scope s w rows s' := by
  cases op with
  | input =>
    obtain ⟨⟨wire, state⟩, hinput, h⟩ := bind_eq_ok.mp h
    cases h
    exact costs_input hinput
  | random =>
    cases h
    exact costs_random setup s g.scope
  | constant value =>
    cases h
    exact ⟨rfl, rfl, BitView.isRows_empty, rfl⟩
  | unary n x =>
    obtain ⟨bit, -, h⟩ := bind_eq_ok.mp h
    cases h
    exact ⟨rfl, rfl, BitView.isRows_empty, rfl⟩
  | linear n x y =>
    obtain ⟨bit, -, h⟩ := bind_eq_ok.mp h
    cases h
    exact ⟨rfl, rfl, BitView.isRows_empty, rfl⟩
  | conjunction p q n x y => exact (costs_conjunction h).1

/-- A gate makes the rows that it demands. -/
theorem rows_step {past : List Gate} {g : Gate} {payload : BitView}
    (hs : s.past.map Wire.scope = past.map Gate.scope) (h : s.step setup g = .ok (payload, s')) :
    s'.past.map Wire.scope = (g :: past).map Gate.scope ∧ s'.rows = s.rows + g.rows past ∧
      payload.length = g.demand past := by
  obtain ⟨op, wire, rows, state, hop, hoperation, hpublish, rfl⟩ := step_eq_ok.mp h
  have hcosts := costs_operation hoperation
  have hscopes : op.map Wire.scope = g.op.map (Gate.scopeBack past) := by
    symm
    refine Operation.map_of_mapM? hop fun d a hd => ?_
    rw [Gate.scopeBack_eq_getD, ← hs, back?_map, hd]
    rfl
  rw [hscopes] at hcosts
  obtain ⟨joined, hjoined, -, hbits⟩ := exists_publish g.scope wire hcosts.isRows
  obtain rfl : joined = payload := Except.ok.inj (hjoined.symm.trans hpublish)
  refine ⟨?_, hcosts.rows, ?_⟩
  · rw [List.map_cons, List.map_cons, hcosts.scope, hcosts.past, hs]
  · rw [← BitView.length_toBits, hbits, List.length_append, BitView.length_toBits,
      hcosts.isRows.length, Gate.demand, Gate.rows]
    cases g.scope.evaluator <;> rfl

/-- Gates in order make the rows of all of them. -/
theorem rows_steps {past gates : List Gate} {payloads : List BitView}
    (hs : s.past.map Wire.scope = past.map Gate.scope)
    (h : s.steps setup gates = .ok (payloads, s')) :
    s'.rows + Gate.rowsAlong past = s.rows + Gate.rowsAlong (gates.reverse ++ past) ∧
      (payloads.map fun payload => payload.length / 128).sum + Gate.rowsAlong past =
        Gate.rowsAlong (gates.reverse ++ past) := by
  induction gates generalizing s past payloads with
  | nil =>
    cases h
    simp
  | cons g gates ih =>
    obtain ⟨⟨payload, state⟩, hstep, h⟩ := bind_eq_ok.mp h
    obtain ⟨⟨rest, final⟩, hsteps, h⟩ := bind_eq_ok.mp h
    cases h
    obtain ⟨hscopes, hrows, hlength⟩ := rows_step hs hstep
    obtain ⟨hmade, hsent⟩ := ih hscopes hsteps
    have hwhole : payload.length / 128 = g.rows past := by
      have hbit := Bool.toNat_le g.scope.evaluator
      rw [hlength, Gate.demand]
      omega
    have hall : (g :: gates).reverse ++ past = gates.reverse ++ g :: past := by simp
    rw [hall, List.map_cons, List.sum_cons, hwhole]
    rw [Gate.rowsAlong] at hmade hsent
    omega

end Garbler

/-- The rows that the generator makes are those in the payloads, and as many as the scopes say. -/
theorem Program.rows_of_garble {p : Program} {setup : GarblingSetup} {g : Garbling}
    (h : p.garble setup = .ok g) : g.final.rows = p.rowCount ∧ g.rowCount = p.rowCount := by
  have hinitial : Garbler.initial.past.map Wire.scope = ([] : List Gate).map Gate.scope := rfl
  have hrows := Garbler.rows_steps hinitial (of_garble h).2.1
  simpa [Gate.rowsAlong, Garbler.initial, Program.rowCount, Garbling.rowCount] using hrows

theorem Program.inputs_of_garble {p : Program} {setup : GarblingSetup} {g : Garbling}
    (h : p.garble setup = .ok g) : setup.inputs.length = p.generatorInputCount :=
  (of_garble h).1

/-! ### Rewriting -/

/-- A conjunction takes no more rows if everybody who knew its value or an operand still does. -/
theorem Operation.rows_conjunction_le {scope scope' x x' y y' : Scope} {p p' q q' n n' : Bool}
    (hscope : scope'.contains scope = true) (hx : x'.contains x = true) (hy : y'.contains y = true) :
    (conjunction p' q' n' x' y').rows scope' ≤ (conjunction p q n x y).rows scope := by
  have hboth : scope = .both → scope' = .both := by
    rintro rfl
    exact Scope.eq_both_of_contains hscope
  have hne : ∀ {t t' : Scope}, t'.contains t = true → t' = .neither → t = .neither := by
    rintro t t' h rfl
    obtain ⟨generator, evaluator⟩ := t
    cases generator <;> cases evaluator <;> first | rfl | cases h
  have hx' := hne hx
  have hy' := hne hy
  simp only [rows]
  by_cases hpublic : scope' = .both
  · rw [if_pos hpublic]
    exact Nat.zero_le _
  · rw [if_neg hpublic, if_neg fun h => hpublic (hboth h)]
    by_cases hknown : x ≠ .neither ∨ y ≠ .neither
    · have hknown' : x' ≠ .neither ∨ y' ≠ .neither := hknown.imp (mt hx') (mt hy')
      rw [if_pos hknown, if_pos hknown']
    · rw [if_neg hknown]
      split <;> omega

namespace Rewriting

theorem foldUnary_ne_conjunction {past : List Gate} {m : Bool} {z : Nat} {p q n : Bool} {x y : Nat} :
    foldUnary past m z ≠ .conjunction p q n x y := by
  unfold foldUnary
  split <;> simp

theorem foldConstants_eq_conjunction {past : List Gate} {op : Operation Nat} {p q n : Bool} {x y : Nat}
    (h : foldConstants past op = .conjunction p q n x y) : op = .conjunction p q n x y := by
  cases op with
  | unary m z => exact absurd h foldUnary_ne_conjunction
  | linear m z w =>
    simp only [foldConstants] at h
    split at h
    · exact absurd h foldUnary_ne_conjunction
    · cases h
    · cases h
  | conjunction p' q' n' z w =>
    simp only [foldConstants] at h
    split at h
    · split at h
      · cases h
      · exact absurd h foldUnary_ne_conjunction
    · split at h <;> cases h
    · exact h
  | _ => exact h

theorem merge_eq_conjunction {op : Operation Nat} {p q n : Bool} {x y : Nat}
    (h : merge op = .conjunction p q n x y) : op = .conjunction p q n x y := by
  cases op with
  | linear m z w =>
    simp only [merge] at h
    split at h <;> cases h
  | conjunction p' q' n' z w =>
    simp only [merge] at h
    split at h
    · split at h <;> cases h
    · exact h
  | _ => exact h

/-- A conjunction was a conjunction before, and reads what its operands slide to. -/
theorem rewriteOp_eq_conjunction {past : List Gate} {op : Operation Nat} {p q n : Bool} {x y : Nat}
    (h : rewriteOp past op = .conjunction p q n x y) :
    ∃ p' q' n' z w, op = .conjunction p' q' n' z w ∧ x = (slide past z).offset ∧
      y = (slide past w).offset := by
  have habsorb := merge_eq_conjunction (foldConstants_eq_conjunction h)
  cases op with
  | conjunction p' q' n' z w =>
    cases habsorb
    exact ⟨_, _, _, z, w, rfl, rfl, rfl⟩
  | _ => cases habsorb

/-- Whoever knew an operand knows what it slides to among the rewritten gates. -/
theorem contains_slide_rewritten (past : List Gate) (d : Nat) :
    (Gate.scopeBack (rewritten past) (slide (rewritten past) d).offset).contains
      (Gate.scopeBack past d) = true :=
  Scope.contains_iff.mpr fun party hparty =>
    knows_slide (Scope.contains_iff.mp (contains_scopeBack_rewritten past d) party hparty)

theorem rows_rewrite_le (past : List Gate) (g : Gate) :
    (rewrite (rewritten past) g).rows (rewritten past) ≤ g.rows past := by
  have hscope : (rewrite (rewritten past) g).scope.contains g.scope = true := contains_rewrite _ g
  have hop : (rewrite (rewritten past) g).op = rewriteOp (rewritten past) g.op := rfl
  rw [Gate.rows, Gate.rows, hop]
  cases hrewritten : rewriteOp (rewritten past) g.op with
  | conjunction p q n x y =>
    obtain ⟨p', q', n', z, w, hg, rfl, rfl⟩ := rewriteOp_eq_conjunction hrewritten
    rw [hg]
    exact Operation.rows_conjunction_le hscope (contains_slide_rewritten past z)
      (contains_slide_rewritten past w)
  | _ => exact Nat.zero_le _

theorem rowsAlong_rewritten_le (past : List Gate) :
    Gate.rowsAlong (rewritten past) ≤ Gate.rowsAlong past := by
  induction past with
  | nil => exact Nat.le_refl 0
  | cons g past ih => exact Nat.add_le_add (rows_rewrite_le past g) ih

theorem isNonlinear_rewrite {past : List Gate} {g : Gate}
    (h : (rewrite past g).kind.isNonlinear = true) : g.kind.isNonlinear = true := by
  have hop : (rewrite past g).op = rewriteOp past g.op := rfl
  rw [Gate.kind, hop] at h
  cases hrewritten : rewriteOp past g.op with
  | conjunction p q n x y =>
    obtain ⟨p', q', n', z, w, hg, -, -⟩ := rewriteOp_eq_conjunction hrewritten
    rw [Gate.kind, hg]
    rfl
  | _ =>
    rw [hrewritten] at h
    cases h

theorem countP_isNonlinear_rewritten_le (past : List Gate) :
    (rewritten past).countP (fun g => g.kind.isNonlinear) ≤ past.countP fun g => g.kind.isNonlinear := by
  induction past with
  | nil => exact Nat.le_refl 0
  | cons g past ih =>
    rw [rewritten, List.countP_cons, List.countP_cons]
    refine Nat.add_le_add ih ?_
    split
    · next h => rw [if_pos (isNonlinear_rewrite h)]
    · exact Nat.zero_le _

end Rewriting

/-! ### Removal -/

namespace Liveness

/-- Live gates take the rows that they took. -/
theorem rows_close {gates : List Gate} {mask : List Bool} {g : Gate}
    (h : ∀ d ∈ g.op.operands, back? mask d = some true) :
    (close mask g).rows (kept gates mask) = g.rows gates := by
  rw [Gate.rows, Gate.rows, close, Operation.map_map]
  exact congrArg (Operation.rows g.scope) (Operation.map_congr fun d hd => scopeBack_kept (h d hd))

theorem rowsAlong_kept_le {gates : List Gate} {mask : List Bool} (h : Closed gates mask) :
    Gate.rowsAlong (kept gates mask) ≤ Gate.rowsAlong gates := by
  induction gates generalizing mask with
  | nil =>
    match mask, h with
    | [], _ => exact Nat.le_refl 0
  | cons g older ih =>
    match mask, h with
    | alive :: past, h =>
      have hrest := ih h.2
      cases alive with
      | false => exact Nat.le_add_left_of_le hrest
      | true =>
        rw [kept, Gate.rowsAlong, Gate.rowsAlong, rows_close (h.1 rfl)]
        exact Nat.add_le_add_left hrest _

theorem map_kind_kept (gates : List Gate) (mask : List Bool) :
    (kept gates mask).map Gate.kind = keep mask (gates.map Gate.kind) := by
  induction gates generalizing mask with
  | nil => cases mask <;> simp [kept]
  | cons g older ih =>
    cases mask with
    | nil => rfl
    | cons alive past =>
      cases alive with
      | false => exact ih past
      | true => rw [kept, List.map_cons, kind_close, ih, List.map_cons, keep_cons_true]

theorem countP_kind_kept_le (test : GateKind → Bool) (gates : List Gate) (mask : List Bool) :
    (kept gates mask).countP (fun g => test g.kind) ≤ gates.countP fun g => test g.kind := by
  have hsublist : ((kept gates mask).map Gate.kind).Sublist (gates.map Gate.kind) := by
    rw [map_kind_kept]
    exact keep_sublist mask _
  have hcount := hsublist.countP_le (p := test)
  rwa [List.countP_map, List.countP_map] at hcount

end Liveness

/-! ### Programs -/

namespace Program

/-- The bits of the generator's inputs that are left after simplification, taken from those of the program's. -/
def survivingInputs (p : Program) (inputs : List Bool) : List Bool :=
  keep (keep (p.sources.map Gate.isGeneratorInput) p.survivors) inputs

theorem length_live_le (p : Program) : p.live.length ≤ p.length := by
  rw [length_live, ← length_liveMask]
  exact List.count_le_length

theorem nonlinearCount_live_simplifyGates_le (p : Program) :
    p.simplifyGates.live.nonlinearCount ≤ p.nonlinearCount := by
  calc p.simplifyGates.live.nonlinearCount
      = (Liveness.kept p.simplifyGates.gates.reverse p.simplifyGates.liveMask).countP
          fun g => g.kind.isNonlinear := by
          rw [nonlinearCount, Program.live, List.countP_reverse]
    _ ≤ (Rewriting.rewritten p.gates.reverse).countP fun g => g.kind.isNonlinear := by
        rw [← reverse_simplifyGates]
        exact Liveness.countP_kind_kept_le GateKind.isNonlinear _ _
    _ ≤ p.gates.reverse.countP fun g => g.kind.isNonlinear :=
        Rewriting.countP_isNonlinear_rewritten_le _
    _ = p.nonlinearCount := by rw [nonlinearCount, List.countP_reverse]

theorem WellFormed.rowCount_live_simplifyGates_le {p : Program} (h : p.WellFormed) :
    p.simplifyGates.live.rowCount ≤ p.rowCount := by
  calc p.simplifyGates.live.rowCount
      = Gate.rowsAlong (Liveness.kept p.simplifyGates.gates.reverse p.simplifyGates.liveMask) := by
        rw [rowCount, Program.live, List.reverse_reverse]
    _ ≤ Gate.rowsAlong p.simplifyGates.gates.reverse :=
        Liveness.rowsAlong_kept_le h.simplifyGates.closed_liveMask
    _ = Gate.rowsAlong (Rewriting.rewritten p.gates.reverse) := by rw [reverse_simplifyGates]
    _ ≤ p.rowCount := Rewriting.rowsAlong_rewritten_le _

/-- There is one surviving input for each input that the generator has in the simplified program. -/
theorem length_survivingInputs (p : Program) {inputs : List Bool}
    (h : inputs.length = p.generatorInputCount) :
    (p.survivingInputs inputs).length = p.simplifyGates.live.generatorInputCount := by
  have hsource : ∀ g : Gate, g.isGeneratorInput = true → g.kind.isSource = true := by
    intro g hg
    rw [g.isSource_eq, hg]
    rfl
  have hmask : (keep (p.sources.map Gate.isGeneratorInput) p.survivors).length = inputs.length := by
    rw [p.length_keep_sources hsource p.length_survivors, h, generatorInputCount]
  have hown := p.simplifyGates.live.length_keep_sources hsource (length_sources _)
  rw [survivingInputs, length_keep hmask, count_keep_map, ← sources_live_simplifyGates,
    List.countP_eq_length_filter, ← keep_test, hown, generatorInputCount]

/-- Simplification makes no program larger that can be built, nor adds a conjunction. If the program is
garbled, so is the simplified one on those of the generator's inputs that are left, whatever the other secrets
are, and it takes no more rows. -/
theorem simplify_economical {p : Program} (h : p.Buildable) :
    ∃ q, p.simplify = .ok q ∧ q.length ≤ p.length ∧ q.nonlinearCount ≤ p.nonlinearCount ∧
      ∀ setup g, p.garble setup = .ok g →
        ∀ setup' : GarblingSetup, setup'.inputs = p.survivingInputs setup.inputs →
          ∃ g', q.garble setup' = .ok g' ∧ g'.rowCount ≤ g.rowCount ∧
            g'.final.rows ≤ g.final.rows := by
  have hp := h.wellFormed
  have hlength := p.simplifyGates.length_live_le
  rw [length_simplifyGates] at hlength
  refine ⟨p.simplifyGates.live, hp.simplify_eq, hlength, p.nonlinearCount_live_simplifyGates_le,
    fun setup g hg setup' hinputs => ?_⟩
  have hown := inputs_of_garble hg
  have hderivable : p.Derivable := derivable_iff.mpr ((hp.garble_iff hown).1.mp ⟨g, hg⟩)
  have hown' : setup'.inputs.length = p.simplifyGates.live.generatorInputCount := by
    rw [hinputs, p.length_survivingInputs hown]
  obtain ⟨g', hg'⟩ := hp.simplifyGates.live.exists_garble hown'
    (derivable_iff.mp (hp.derivable_live_simplifyGates hderivable))
  have hle := hp.rowCount_live_simplifyGates_le
  obtain ⟨hmade, hsent⟩ := rows_of_garble hg
  obtain ⟨hmade', hsent'⟩ := rows_of_garble hg'
  refine ⟨g', hg', ?_, ?_⟩
  · rwa [hsent, hsent']
  · rwa [hmade, hmade']

theorem simplify_economical_conjunction_of_constant :
    ∃ (p q : Program) (setup setup' : GarblingSetup) (g g' : Garbling), p.Buildable ∧
      p.simplify = .ok q ∧ p.garble setup = .ok g ∧ q.garble setup' = .ok g' ∧
      p.rowCount = 2 ∧ q.rowCount = 1 ∧ g'.rowCount ≤ g.rowCount := by
  obtain ⟨p, hp⟩ : ∃ p : Program, p = ⟨[⟨.input, .generatorOnly⟩, ⟨.input, .generatorOnly⟩,
      ⟨.input, .neither⟩, ⟨.constant true, .both⟩, ⟨.conjunction false false false 1 2, .neither⟩,
      ⟨.conjunction false true false 1 5, .neither⟩], [5]⟩ := ⟨_, rfl⟩
  have hbuildable : p.Buildable := by
    rw [hp]
    exact @Buildable.build [.add ⟨.input, .generatorOnly, []⟩, .add ⟨.input, .generatorOnly, []⟩,
      .add ⟨.input, .neither, []⟩, .add ⟨.constant true, .neither, []⟩,
      .add ⟨.conjunction false false false, .neither, [1, 2]⟩,
      .add ⟨.conjunction false true false, .neither, [1, 5]⟩, .outputs [5]] _ rfl
  obtain ⟨setup, hsetup⟩ : ∃ setup : GarblingSetup, setup = ⟨Delta.ofSelected 5,
      fun key place => key + BitVec.ofNat 128 place.gate, [true, false], fun _ => true,
      fun k => BitVec.ofNat 128 k⟩ := ⟨_, rfl⟩
  have hown : setup.inputs.length = p.generatorInputCount := by
    rw [hsetup, hp]
    rfl
  have hderivable : ∀ i, p.underivable i = false := by
    intro i
    rw [hp]
    match i with
    | 0 | 1 | 2 | 3 | 4 | 5 => rfl
    | i + 6 => rfl
  obtain ⟨g, hg⟩ := hbuildable.wellFormed.exists_garble hown hderivable
  obtain ⟨q, hq, -, -, hgarbled⟩ := simplify_economical hbuildable
  obtain ⟨g', hg', hrows, -⟩ := hgarbled setup g hg
    { setup with inputs := p.survivingInputs setup.inputs } rfl
  refine ⟨p, q, setup, _, g, g', hbuildable, hq, hg, hg', by rw [hp]; rfl, ?_, hrows⟩
  rw [← Except.ok.inj (hbuildable.wellFormed.simplify_eq.symm.trans hq), hp]
  decide

end Program

end HalfGates
