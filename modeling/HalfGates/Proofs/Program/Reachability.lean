import HalfGates.Proofs.Program.Buildable
import HalfGates.Proofs.Program.Restriction

/-!
# Gates that an output needs

An output needs the gate that it declares and, through the operands of a gate that it needs, earlier gates.
Removal keeps these gates and no others. A kept gate computes what it computed, for the same parties, from
the same gates; only the places of these are counted without the gates that are gone.

## Main definitions

- `Program.Reached`: the positions that an output needs
- `Program.selection`: the gates at some positions as a program of their own
- `Program.WellFormed.liveMask_iff`: the live gates are those that an output needs
- `Program.WellFormed.live_eq_selection`: the live part is the selection of these
- `Program.removeUnused_eq_selection_reached`: removal from every program that can be built
-/

namespace HalfGates

/-- The positions that an output needs: that of the output itself, and those that a needed gate reads. -/
inductive Program.Reached (p : Program) : Nat → Prop
  | output {i : Nat} : i ∈ p.outputs → Reached p i
  | operand {i d : Nat} {g : Gate} :
    Reached p i → p.gates[i]? = some g → d ∈ g.op.operands → Reached p (i - d)

/-- The gates at the given positions as a program of their own. A gate and an output are renumbered by how
many of the positions come before theirs. -/
def Program.selection (p : Program) (places : List Nat) : Program where
  gates := places.filterMap fun i => p.gates[i]?.map fun g =>
    ⟨g.op.map fun d => places.idxOf i - places.idxOf (i - d), g.scope⟩
  outputs := p.outputs.map places.idxOf

/-! ### Positions of marks -/

theorem mem_keep_range {mask : List Bool} {i : Nat} :
    i ∈ keep mask (List.range mask.length) ↔ mask[i]? = some true := by
  have hmask : (List.range mask.length).map (mask.getD · false) = mask := by
    refine List.ext_getElem (by simp) fun k hk _ => ?_
    rw [List.length_map, List.length_range] at hk
    simp [hk]
  have hkeep := keep_test (mask.getD · false) (List.range mask.length)
  rw [hmask] at hkeep
  rw [hkeep, List.mem_filter, List.mem_range, List.getD_eq_getElem?_getD]
  constructor
  · rintro ⟨hi, hmark⟩
    rw [List.getElem?_eq_getElem hi] at hmark ⊢
    exact congrArg some hmark
  · intro hmark
    exact ⟨(List.getElem?_eq_some_iff.mp hmark).1, by rw [hmark]; rfl⟩

theorem pairwise_keep_range (mask : List Bool) (n : Nat) :
    (keep mask (List.range n)).Pairwise (· < ·) :=
  List.pairwise_lt_range.sublist (keep_sublist mask (List.range n))

namespace Liveness

/-- A marked position is renumbered by the marks before it. -/
theorem idxOf_keep_range {mask : List Bool} {i : Nat} (h : mask.reverse[i]? = some true) :
    (keep mask.reverse (List.range mask.length)).idxOf i = position mask i := by
  have hlt : i < mask.length := by simpa using (List.getElem?_eq_some_iff.mp h).1
  have hat := getElem?_keep h (List.range mask.length)
  rw [List.getElem?_range hlt] at hat
  obtain ⟨hposition, heq⟩ := List.getElem?_eq_some_iff.mp hat
  have hnodup : (keep mask.reverse (List.range mask.length)).Nodup :=
    (pairwise_keep_range _ _).imp Nat.ne_of_lt
  have hidx := hnodup.idxOf_getElem _ hposition
  rwa [heq] at hidx

/-- The marks that an operand spans are those between its position and that of the gate. -/
theorem liveBack_drop {mask : List Bool} {i d : Nat} (hi : i ≤ mask.length) (hd : d ≤ i) :
    liveBack (mask.drop (mask.length - i)) d = position mask i - position mask (i - d) := by
  have hsplit := liveBack_add mask (mask.length - i) d
  have hgate := position_sub mask (mask.length - i)
  have hoperand := position_sub mask (mask.length - i + d)
  have hle : liveBack mask (mask.length - i + d) ≤ mask.count true :=
    (List.take_sublist _ mask).count_le true
  rw [Nat.sub_sub_self hi] at hgate
  rw [show mask.length - (mask.length - i + d) = i - d by omega] at hoperand
  omega

/-- Where a marked gate ends up, it reads its operands where these end up. -/
theorem getElem?_kept {gates : List Gate} {mask : List Bool} (hfits : Throughout Gate.Fits gates)
    (hlen : mask.length = gates.length) {i : Nat} (h : mask.reverse[i]? = some true) :
    (kept gates mask).reverse[position mask i]? = gates.reverse[i]?.map fun g =>
      ⟨g.op.map fun d => position mask i - position mask (i - d), g.scope⟩ := by
  have hi : i < mask.length := by simpa using (List.getElem?_eq_some_iff.mp h).1
  have hback : back? mask (mask.length - i) = some true := by rw [back?_length_sub hi, h]
  have hkept := @back?_kept gates mask _ hback
  have hbounds := liveBack_bounds hlen hback
  have hposition : position mask i = (kept gates mask).length - liveBack mask (mask.length - i) := by
    rw [length_kept hlen, ← position_sub, Nat.sub_sub_self (Nat.le_of_lt hi)]
  have hgate : back? gates (mask.length - i) = gates.reverse[i]? := by
    rw [hlen, back?_length_sub (hlen ▸ hi)]
  rw [hgate, ← Nat.sub_sub_self hbounds.2, ← hposition,
    back?_length_sub (by omega)] at hkept
  rw [hkept]
  cases hg : gates.reverse[i]? with
  | none => rfl
  | some g =>
    -- the operands of the gate stay within the gates before it
    have hoperands := (hfits.of_back? (hgate.trans hg)).operands
    have hop : g.op.map (liveBack (mask.drop (mask.length - i))) =
        g.op.map fun d => position mask i - position mask (i - d) := by
      refine Operation.map_congr fun d hd => liveBack_drop (Nat.le_of_lt hi) ?_
      have hle := (hoperands d hd).2
      rw [List.length_drop, ← hlen, Nat.sub_sub_self (Nat.le_of_lt hi)] at hle
      exact hle
    simp only [Option.map_some, close, hop]

/-- Where everything is marked, an offset spans as many marks as entries. -/
theorem liveBack_of_forall {mask : List Bool} (h : ∀ alive ∈ mask, alive = true) {d : Nat}
    (hd : d ≤ mask.length) : liveBack mask d = d := by
  have hall : ∀ alive ∈ mask.take d, true = alive := fun alive hmem =>
    (h alive (List.mem_of_mem_take hmem)).symm
  rw [liveBack, List.count_eq_length.mpr hall, List.length_take_of_le hd]

theorem position_of_forall {mask : List Bool} (h : ∀ alive ∈ mask, alive = true) {i : Nat}
    (hi : i ≤ mask.length) : position mask i = i :=
  @liveBack_of_forall mask.reverse (by simpa using h) i (by simpa using hi)

theorem kept_of_forall {gates : List Gate} {mask : List Bool} (hfits : Throughout Gate.Fits gates)
    (hlen : mask.length = gates.length) (h : ∀ alive ∈ mask, alive = true) : kept gates mask = gates := by
  induction gates generalizing mask with
  | nil => cases mask <;> rfl
  | cons g older ih =>
    match mask with
    | alive :: past =>
      have hrest : ∀ m ∈ past, m = true := fun m hm => h m (List.mem_cons_of_mem alive hm)
      have hlen' : past.length = older.length := Nat.succ.inj hlen
      obtain rfl : alive = true := h alive List.mem_cons_self
      have hop : g.op.map (liveBack past) = g.op.map fun d => d :=
        Operation.map_congr fun d hd =>
          liveBack_of_forall hrest (hlen' ▸ (hfits.1.operands d hd).2)
      rw [kept, ih hfits.2 hlen' hrest, close, hop, Operation.map_id']

/-! ### Which gates are live -/

/-- Whatever holds of the needed positions, and of all that a gate reads of which it holds, holds of the
live ones. -/
theorem of_mask {P : Nat → Prop} {gates : List Gate} {needed : List Nat} (hneeded : ∀ i ∈ needed, P i)
    (hreads : ∀ i g, gates.reverse[i]? = some g → P i → ∀ d ∈ g.op.operands, P (i - d)) {i : Nat}
    (h : (mask needed gates).reverse[i]? = some true) : P i := by
  induction gates generalizing needed with
  | nil => simp [mask] at h
  | cons g older ih =>
    have holder : ∀ i g, older.reverse[i]? = some g → P i → ∀ d ∈ g.op.operands, P (i - d) :=
      fun i g' hg' => hreads i g' (getElem?_reverse_cons_eq_some.mpr (.inl hg'))
    unfold mask at h
    split at h
    · next hlast =>
      have hmem : older.length ∈ needed := List.contains_iff_mem.mp hlast
      have hall : ∀ j ∈ reads older.length g ++ needed, P j := by
        intro j hj
        rcases List.mem_append.mp hj with hj | hj
        · obtain ⟨d, hd, rfl⟩ := List.mem_map.mp hj
          exact hreads older.length g (by simp) (hneeded _ hmem) d hd
        · exact hneeded j hj
      rcases getElem?_reverse_cons_eq_some.mp h with hi | ⟨rfl, -⟩
      · exact ih hall holder hi
      · rw [length_mask]
        exact hneeded _ hmem
    · obtain hi | ⟨-, ⟨⟩⟩ := getElem?_reverse_cons_eq_some.mp h
      exact ih hneeded holder hi

/-- No gate behind all needed positions is live. -/
theorem mask_append {needed : List Nat} (newer : List Gate) {older : List Gate}
    (h : ∀ i ∈ needed, i < older.length) :
    mask needed (newer ++ older) = List.replicate newer.length false ++ mask needed older := by
  induction newer with
  | nil => rfl
  | cons g newer ih =>
    have hlast : ¬ needed.contains (newer ++ older).length = true := by
      rw [List.contains_iff_mem]
      intro hmem
      have hlt := h _ hmem
      rw [List.length_append] at hlt
      omega
    rw [List.cons_append, mask, if_neg hlast, ih]
    rfl

theorem kept_append (newer older : List Gate) (mask : List Bool) :
    kept (newer ++ older) (List.replicate newer.length false ++ mask) = kept older mask := by
  induction newer with
  | nil => rfl
  | cons g newer ih => exact ih

theorem position_append (n : Nat) {mask : List Bool} {i : Nat} (h : i ≤ mask.length) :
    position (List.replicate n false ++ mask) i = position mask i := by
  rw [position, position, List.reverse_append, List.take_append_of_le_length (by simpa using h)]

end Liveness

namespace Program

/-- The live gates are those that an output needs. -/
theorem WellFormed.liveMask_iff {p : Program} (h : p.WellFormed) {i : Nat} :
    p.liveMask.reverse[i]? = some true ↔ p.Reached i := by
  constructor
  · refine Liveness.of_mask (fun i hi => .output hi) fun i g hg hi d hd => ?_
    rw [List.reverse_reverse] at hg
    exact hi.operand hg hd
  · intro hreached
    induction hreached with
    | output hi => exact h.liveMask_output hi
    | @operand i d g _ hg hd ih =>
      have hi : i < p.liveMask.length := by simpa using (List.getElem?_eq_some_iff.mp ih).1
      have hback : back? p.liveMask (p.liveMask.length - i) = some true := by
        rw [back?_length_sub hi, ih]
      have hgate : back? p.gates.reverse (p.liveMask.length - i) = some g := by
        rw [length_liveMask, length, back?_reverse, hg]
      have hread := Liveness.getElem?_reverse_of_back? (h.closed_liveMask.marked hgate hback d hd)
      rwa [show p.liveMask.length - (p.liveMask.length - i + d) = i - d by omega] at hread

/-- The positions that an output needs, in order. -/
def reachedPlaces (p : Program) : List Nat :=
  keep p.liveMask.reverse (List.range p.length)

theorem WellFormed.mem_reachedPlaces {p : Program} (h : p.WellFormed) {i : Nat} :
    i ∈ p.reachedPlaces ↔ p.Reached i := by
  rw [← h.liveMask_iff, ← mem_keep_range, List.length_reverse, length_liveMask, reachedPlaces]

theorem WellFormed.idxOf_reachedPlaces {p : Program} (h : p.WellFormed) {i : Nat} (hi : p.Reached i) :
    p.reachedPlaces.idxOf i = Liveness.position p.liveMask i := by
  rw [reachedPlaces, ← length_liveMask]
  exact Liveness.idxOf_keep_range (h.liveMask_iff.mpr hi)

/-- A gate that an output needs, found in the live part. -/
theorem WellFormed.getElem?_live {p : Program} (h : p.WellFormed) {i : Nat} (hi : p.Reached i) :
    p.live.gates[p.reachedPlaces.idxOf i]? = p.gates[i]?.map fun g =>
      ⟨g.op.map fun d => p.reachedPlaces.idxOf i - p.reachedPlaces.idxOf (i - d), g.scope⟩ := by
  have hkept := Liveness.getElem?_kept h.gates (by simp [length]) (h.liveMask_iff.mpr hi)
  rw [List.reverse_reverse] at hkept
  rw [h.idxOf_reachedPlaces hi, Program.live, hkept]
  cases hg : p.gates[i]? with
  | none => rfl
  | some g =>
    have hop : (g.op.map fun d => Liveness.position p.liveMask i - Liveness.position p.liveMask (i - d)) =
        g.op.map fun d => Liveness.position p.liveMask i - p.reachedPlaces.idxOf (i - d) :=
      Operation.map_congr fun d hd => by rw [h.idxOf_reachedPlaces (hi.operand hg hd)]
    simp only [Option.map_some, hop]

/-- The live part is the selection of the gates that an output needs. -/
theorem WellFormed.live_eq_selection {p : Program} (h : p.WellFormed) :
    p.live = p.selection p.reachedPlaces := by
  have hlength : p.live.gates.length = p.reachedPlaces.length := by
    rw [reachedPlaces, length_keep (by simp), List.count_reverse]
    exact p.length_live
  have hgates : p.live.gates.map some = p.reachedPlaces.map fun i => p.gates[i]?.map fun g =>
      (⟨g.op.map fun d => p.reachedPlaces.idxOf i - p.reachedPlaces.idxOf (i - d), g.scope⟩ : Gate) := by
    refine List.ext_getElem (by simpa using hlength) fun k hk hk' => ?_
    rw [List.length_map] at hk'
    have hreached : p.Reached p.reachedPlaces[k] := h.mem_reachedPlaces.mp (List.getElem_mem hk')
    have hnodup : p.reachedPlaces.Nodup := (pairwise_keep_range _ _).imp Nat.ne_of_lt
    have hat := h.getElem?_live hreached
    rw [hnodup.idxOf_getElem k hk', List.getElem?_eq_getElem (hlength ▸ hk')] at hat
    rw [List.getElem_map, List.getElem_map, hat, hnodup.idxOf_getElem k hk']
  have houtputs : p.live.outputs = p.outputs.map p.reachedPlaces.idxOf :=
    List.map_congr_left fun i hi => (h.idxOf_reachedPlaces (.output hi)).symm
  have hfilter := congrArg (List.filterMap id) hgates
  rw [List.filterMap_map, List.filterMap_map] at hfilter
  have hsome : p.live.gates.filterMap (id ∘ some) = p.live.gates := List.filterMap_some
  rw [hsome] at hfilter
  exact congrArg₂ Program.mk hfilter houtputs

/-- Nothing is dropped exactly if an output needs every gate. -/
theorem WellFormed.live_eq_self_iff {p : Program} (h : p.WellFormed) :
    p.live = p ↔ ∀ i < p.length, p.Reached i := by
  constructor
  · intro hsame i hi
    have hcount : p.liveMask.count true = p.liveMask.length := by
      rw [← length_live, hsame, length_liveMask]
    have hlt : i < p.liveMask.reverse.length := by simpa using hi
    have hmark : true = p.liveMask.reverse[i] :=
      List.count_eq_length.mp hcount _ (List.mem_reverse.mp (List.getElem_mem hlt))
    rw [← h.liveMask_iff, List.getElem?_eq_getElem hlt, ← hmark]
  · intro hall
    have hmarks : ∀ alive ∈ p.liveMask, alive = true := by
      intro alive hmem
      obtain ⟨i, hi⟩ := List.getElem?_of_mem (List.mem_reverse.mpr hmem)
      have hlt : i < p.length := by simpa using (List.getElem?_eq_some_iff.mp hi).1
      exact Option.some.inj (hi.symm.trans (h.liveMask_iff.mpr (hall i hlt)))
    have hgates := Liveness.kept_of_forall h.gates (by simp [length]) hmarks
    have houtputs : p.outputs.map (Liveness.position p.liveMask) = p.outputs.map id :=
      List.map_congr_left fun i hi =>
        Liveness.position_of_forall hmarks (by simpa using Nat.le_of_lt (h.outputs i hi))
    rw [Program.live, hgates, houtputs, List.map_id, List.reverse_reverse]

/-- Gates behind all outputs are dropped. -/
theorem WellFormed.live_append {p r : Program} (h : p.WellFormed) {extra : List Gate}
    (hgates : r.gates = p.gates ++ extra) (houtputs : r.outputs = p.outputs) : r.live = p.live := by
  have hmask : r.liveMask = List.replicate extra.reverse.length false ++ p.liveMask := by
    rw [liveMask, hgates, houtputs, List.reverse_append]
    exact Liveness.mask_append extra.reverse (by simpa [length] using h.outputs)
  have hposition : r.outputs.map (Liveness.position r.liveMask) =
      p.outputs.map (Liveness.position p.liveMask) := by
    rw [houtputs, hmask]
    refine List.map_congr_left fun i hi => Liveness.position_append _ ?_
    simpa using Nat.le_of_lt (h.outputs i hi)
  rw [Program.live, hposition, hmask, hgates, List.reverse_append, Liveness.kept_append, Program.live]

/-- Removal keeps exactly the gates that an output needs, in order, and renumbers operands and outputs in
that order. So it changes nothing exactly if an output needs every gate, and gates that follow all that is
needed make no difference to it. -/
theorem removeUnused_eq_selection_reached {p : Program} (h : p.Buildable) :
    ∃ places : List Nat, places.Pairwise (· < ·) ∧ (∀ i, i ∈ places ↔ p.Reached i) ∧
      p.removeUnused = .ok (p.selection places) ∧
      (p.removeUnused = .ok p ↔ ∀ i < p.length, p.Reached i) ∧
      ∀ (r : Program) (extra : List Gate), r.Buildable → r.gates = p.gates ++ extra →
        r.outputs = p.outputs → r.removeUnused = p.removeUnused := by
  have hp := h.wellFormed
  refine ⟨p.reachedPlaces, pairwise_keep_range _ _, fun i => hp.mem_reachedPlaces, ?_, ?_, ?_⟩
  · rw [hp.removeUnused_eq, hp.live_eq_selection]
  · rw [hp.removeUnused_eq, Except.ok.injEq, hp.live_eq_self_iff]
  · intro r extra hr hgates houtputs
    rw [hr.wellFormed.removeUnused_eq, hp.removeUnused_eq, hp.live_append hgates houtputs]

theorem removeUnused_eq_selection_reached_repeated_output :
    ∃ p q r : Program, p.Buildable ∧ r.Buildable ∧
      r.gates = p.gates ++ [⟨.conjunction false true false 1 3, .neither⟩, ⟨.unary true 1, .neither⟩] ∧
      p.removeUnused = .ok q ∧ r.removeUnused = .ok q ∧
      q.gates = [⟨.input, .neither⟩, ⟨.input, .generatorOnly⟩, ⟨.linear true 2 1, .neither⟩] ∧
      q.outputs = [2, 0, 2] ∧ ¬ ∀ i < p.length, p.Reached i := by
  obtain ⟨p, hp⟩ : ∃ p : Program, p = ⟨[⟨.input, .neither⟩, ⟨.input, .neither⟩, ⟨.input, .generatorOnly⟩,
      ⟨.linear true 3 1, .neither⟩], [3, 0, 3]⟩ := ⟨_, rfl⟩
  obtain ⟨r, hr⟩ : ∃ r : Program, r = ⟨[⟨.input, .neither⟩, ⟨.input, .neither⟩, ⟨.input, .generatorOnly⟩,
      ⟨.linear true 3 1, .neither⟩, ⟨.conjunction false true false 1 3, .neither⟩,
      ⟨.unary true 1, .neither⟩], [3, 0, 3]⟩ := ⟨_, rfl⟩
  have hbuildable : p.Buildable := by
    rw [hp]
    exact @Buildable.build [.add ⟨.input, .neither, []⟩, .add ⟨.input, .neither, []⟩,
      .add ⟨.input, .generatorOnly, []⟩, .add ⟨.linear true, .neither, [3, 1]⟩,
      .outputs [3, 0, 3]] _ rfl
  have hextended : r.Buildable := by
    rw [hr]
    exact @Buildable.build [.add ⟨.input, .neither, []⟩, .add ⟨.input, .neither, []⟩,
      .add ⟨.input, .generatorOnly, []⟩, .add ⟨.linear true, .neither, [3, 1]⟩,
      .add ⟨.conjunction false true false, .neither, [1, 3]⟩, .add ⟨.unary true, .neither, [1]⟩,
      .outputs [3, 0, 3]] _ rfl
  obtain ⟨-, -, -, -, hall, hextra⟩ := removeUnused_eq_selection_reached hbuildable
  have hgates : r.gates = p.gates ++
      [⟨.conjunction false true false 1 3, .neither⟩, ⟨.unary true 1, .neither⟩] := by
    rw [hp, hr]
    rfl
  have hremoved : p.removeUnused = .ok ⟨[⟨.input, .neither⟩, ⟨.input, .generatorOnly⟩,
      ⟨.linear true 2 1, .neither⟩], [2, 0, 2]⟩ := by
    rw [hp]
    rfl
  have hsame : r.removeUnused = p.removeUnused := hextra r _ hextended hgates (by rw [hp, hr])
  have hdropped : p.removeUnused ≠ .ok p := by
    rw [hremoved, hp]
    decide
  exact ⟨p, _, r, hbuildable, hextended, hgates, hremoved, hsame.trans hremoved, rfl, rfl,
    fun hneeded => hdropped (hall.mpr hneeded)⟩

end Program

end HalfGates
