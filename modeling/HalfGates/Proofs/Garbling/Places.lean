import HalfGates.Proofs.Garbling.Economy

/-!
# The places of half gates

A half gate is hashed at a place of its own: at part zero of its gate if there is one, and at the parts three
and one if there are two. No two half gates of a program have the same place.

## Main definitions

- `Operation.tweaks`, `Program.tweaks`: the places of an operation and of a program
- `Gate.nodup_tweaksAlong`: no place occurs twice
- `Program.WellFormed.mem_tweaks`: which places occur
-/

namespace HalfGates

/-- The places where the half gates of an operation are hashed, newest first. -/
def Operation.tweaks (index : Nat) (scope : Scope) (op : Operation Scope) : List Tweak :=
  match op.rows scope with
  | 0 => []
  | 1 => [⟨index, 0⟩]
  | _ => [⟨index, 1⟩, ⟨index, 3⟩]

/-- The places of all gates of a history. -/
def Gate.tweaksAlong : List Gate → List Tweak
  | [] => []
  | g :: past => (g.op.map (scopeBack past)).tweaks past.length g.scope ++ tweaksAlong past

/-- The places of a program, by its scopes. -/
def Program.tweaks (p : Program) : List Tweak :=
  Gate.tweaksAlong p.gates.reverse

theorem Operation.rows_le_two (scope : Scope) (op : Operation Scope) : op.rows scope ≤ 2 := by
  unfold rows
  split
  · split
    · omega
    · split <;> omega
  · omega

theorem Operation.mem_tweaks {index : Nat} {scope : Scope} {op : Operation Scope} {t : Tweak} :
    t ∈ op.tweaks index scope ↔ t.gate = index ∧
      (op.rows scope = 1 ∧ t.part = 0 ∨ op.rows scope = 2 ∧ (t.part = 3 ∨ t.part = 1)) := by
  obtain ⟨gate, part⟩ := t
  have hle := op.rows_le_two scope
  unfold tweaks
  match hrows : op.rows scope with
  | 0 => simp
  | 1 => simp
  | 2 =>
    simp
    omega
  | count + 3 => omega

theorem Operation.nodup_tweaks (index : Nat) (scope : Scope) (op : Operation Scope) :
    (op.tweaks index scope).Nodup := by
  unfold tweaks
  split <;> simp

theorem Operation.length_tweaks (index : Nat) (scope : Scope) (op : Operation Scope) :
    (op.tweaks index scope).length = op.rows scope := by
  have hle := op.rows_le_two scope
  unfold tweaks
  match op.rows scope, hle with
  | 0, _ | 1, _ | 2, _ => rfl

namespace Gate

theorem lt_of_mem_tweaksAlong {past : List Gate} {t : Tweak} (h : t ∈ tweaksAlong past) :
    t.gate < past.length := by
  induction past with
  | nil => cases h
  | cons g past ih =>
    rw [List.length_cons]
    rcases List.mem_append.mp h with hnew | hold
    · have hgate := (Operation.mem_tweaks.mp hnew).1
      omega
    · have hgate := ih hold
      omega

theorem nodup_tweaksAlong (past : List Gate) : (tweaksAlong past).Nodup := by
  induction past with
  | nil => exact List.nodup_nil
  | cons g past ih =>
    refine List.nodup_append.mpr ⟨Operation.nodup_tweaks _ _ _, ih, ?_⟩
    rintro t hnew u hold rfl
    have hgate := (Operation.mem_tweaks.mp hnew).1
    have hlt := lt_of_mem_tweaksAlong hold
    omega

end Gate

theorem Program.mem_tweaksAlong_before {p : Program} {t : Tweak} {i : Nat} (hi : i ≤ p.length) :
    t ∈ Gate.tweaksAlong (p.before i) ↔ t.gate < i ∧ ∃ gate, p.gates[t.gate]? = some gate ∧
      t ∈ (gate.op.map (Gate.scopeBack (p.before t.gate))).tweaks t.gate gate.scope := by
  induction i with
  | zero => exact iff_of_false List.not_mem_nil fun h => Nat.not_lt_zero _ h.1
  | succ i ih =>
    obtain ⟨g, hg⟩ : ∃ g, p.gates[i]? = some g := ⟨_, List.getElem?_eq_getElem hi⟩
    have hle : i ≤ p.length := Nat.le_of_succ_le hi
    rw [before_succ hg, Gate.tweaksAlong, List.mem_append, ih hle, length_before hle]
    constructor
    · rintro (hnew | ⟨hlt, hold⟩)
      · obtain rfl : t.gate = i := (Operation.mem_tweaks.mp hnew).1
        exact ⟨Nat.lt_succ_self _, g, hg, hnew⟩
      · exact ⟨Nat.lt_succ_of_lt hlt, hold⟩
    · rintro ⟨hlt, gate, hgate, hmem⟩
      by_cases hnew : t.gate = i
      · subst hnew
        rw [hg] at hgate
        cases hgate
        exact .inl hmem
      · exact .inr ⟨by omega, gate, hgate, hmem⟩

/-- One half gate is hashed at part zero of its gate, two at the parts three and one. -/
theorem Program.WellFormed.mem_tweaks {p : Program} (hp : p.WellFormed) {t : Tweak} :
    t ∈ p.tweaks ↔ ∃ (gate : Gate) (count : Nat), p.gates[t.gate]? = some gate ∧
      (gate.op.map fun d => p.scopeAt (t.gate - d)).rows gate.scope = count ∧
      (count = 1 ∧ t.part = 0 ∨ count = 2 ∧ (t.part = 3 ∨ t.part = 1)) := by
  rw [tweaks, ← p.before_length, mem_tweaksAlong_before (Nat.le_refl _)]
  constructor
  · rintro ⟨-, gate, hgate, hmem⟩
    rw [hp.map_scopeBack hgate] at hmem
    exact ⟨gate, _, hgate, rfl, (Operation.mem_tweaks.mp hmem).2⟩
  · rintro ⟨gate, count, hgate, rfl, hpart⟩
    refine ⟨(List.getElem?_eq_some_iff.mp hgate).1, gate, hgate, ?_⟩
    rw [hp.map_scopeBack hgate]
    exact Operation.mem_tweaks.mpr ⟨rfl, hpart⟩

/-- There are as many places as rows. -/
theorem Program.length_tweaks (p : Program) : p.tweaks.length = p.rowCount := by
  rw [tweaks, rowCount]
  induction p.gates.reverse with
  | nil => rfl
  | cons g past ih =>
    rw [Gate.tweaksAlong, List.length_append, Operation.length_tweaks, ih, Gate.rowsAlong, Gate.rows]

end HalfGates
