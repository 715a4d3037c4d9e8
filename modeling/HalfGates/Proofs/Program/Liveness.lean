import HalfGates.Proofs.Program.Keeping
import HalfGates.Proofs.Program.WellFormed

/-!
# The live part of a program

A gate is live if it is an output or an operand of a live gate. A live gate reads live gates only, so the live
part of a well-formed program is well formed, and its run is the live part of the run.

## Main definitions

- `Liveness.mask`: which gates are live
- `Liveness.kept`: the live gates of a history with their offsets closed up
- `Liveness.Closed`: a mask that marks whatever a marked gate reads
- `Liveness.along_kept`: the run of the live gates
- `Program.live`: the live part of a program
-/

namespace HalfGates

theorem Gate.scopeBack_eq_getD (past : List Gate) (d : Nat) :
    scopeBack past d = (back? (past.map scope) d).getD .neither := by
  rw [scopeBack, back?_map]
  cases back? past d <;> rfl

namespace Liveness

/-- The positions that a gate at `index` reads. -/
def reads (index : Nat) (g : Gate) : List Nat :=
  g.op.operands.map (index - ·)

/-- Which of the gates of a history are live, newest first, when the positions in `needed` are. -/
def mask (needed : List Nat) : List Gate → List Bool
  | [] => []
  | g :: older =>
    if needed.contains older.length then
      true :: mask (reads older.length g ++ needed) older
    else
      false :: mask needed older

/-- A live gate behind the live part of a history with the given mask. -/
def close (past : List Bool) (g : Gate) : Gate :=
  ⟨g.op.map (liveBack past), g.scope⟩

/-- The live gates of a history, their offsets closed up. -/
def kept : List Gate → List Bool → List Gate
  | g :: older, true :: past => close past g :: kept older past
  | _ :: older, false :: past => kept older past
  | _, _ => []

/-- Whatever a marked gate reads is marked. -/
def Closed : List Gate → List Bool → Prop
  | [], [] => True
  | g :: older, alive :: past =>
    (alive = true → ∀ d ∈ g.op.operands, back? past d = some true) ∧ Closed older past
  | _, _ => False

theorem Closed.length_eq {gates : List Gate} {mask : List Bool} (h : Closed gates mask) :
    mask.length = gates.length := by
  induction gates generalizing mask with
  | nil => cases mask <;> simp_all [Closed]
  | cons g older ih =>
    match mask, h with
    | alive :: past, h => simpa using ih h.2

@[simp] theorem length_mask (needed : List Nat) (gates : List Gate) :
    (mask needed gates).length = gates.length := by
  induction gates generalizing needed with
  | nil => rfl
  | cons g older ih =>
    unfold mask
    split <;> simp [ih]

/-- A gate that is needed is live. -/
theorem mask_of_mem {needed : List Nat} {gates : List Gate} {i : Nat} (hi : i ∈ needed)
    (hlt : i < gates.length) : (mask needed gates).reverse[i]? = some true := by
  induction gates generalizing needed with
  | nil => simp at hlt
  | cons g older ih =>
    by_cases hlast : i = older.length
    · subst hlast
      have hcontains : needed.contains older.length = true := by simpa using hi
      rw [mask, if_pos hcontains, List.reverse_cons, List.getElem?_append_right (by simp)]
      simp
    · have hlt' : i < older.length := by
        rw [List.length_cons] at hlt
        omega
      unfold mask
      split
      · rw [List.reverse_cons, List.getElem?_append_left (by simpa using hlt')]
        exact ih (List.mem_append_right _ hi) hlt'
      · rw [List.reverse_cons, List.getElem?_append_left (by simpa using hlt')]
        exact ih hi hlt'

/-- Whatever a live gate reads is live. -/
theorem closed_mask {gates : List Gate} (h : Throughout Gate.Fits gates) (needed : List Nat) :
    Closed gates (mask needed gates) := by
  induction gates generalizing needed with
  | nil => trivial
  | cons g older ih =>
    unfold mask
    split
    · -- what the gate reads is needed by now
      refine ⟨fun _ d hd => ?_, ih h.2 _⟩
      obtain ⟨hpos, hle⟩ := h.1.operands d hd
      have hread : older.length - d ∈ reads older.length g ++ needed :=
        List.mem_append_left _ (List.mem_map_of_mem hd)
      have hlive := mask_of_mem hread (Nat.sub_lt_of_pos_le hpos hle)
      rw [← back?_length_sub (by simpa using Nat.sub_lt_of_pos_le hpos hle), length_mask,
        Nat.sub_sub_self hle] at hlive
      exact hlive
    · exact ⟨fun hfalse => absurd hfalse (by decide), ih h.2 needed⟩

/-! ### The live gates -/

theorem map_scope_kept (gates : List Gate) (mask : List Bool) :
    (kept gates mask).map Gate.scope = keep mask (gates.map Gate.scope) := by
  induction gates generalizing mask with
  | nil => cases mask <;> simp [kept]
  | cons g older ih =>
    cases mask with
    | nil => rfl
    | cons alive past => cases alive <;> simp [kept, close, ih]

theorem length_kept {gates : List Gate} {mask : List Bool} (h : mask.length = gates.length) :
    (kept gates mask).length = mask.count true := by
  have hscopes := congrArg List.length (map_scope_kept gates mask)
  rw [List.length_map, length_keep (by simpa using h)] at hscopes
  exact hscopes

/-- A live gate is known to the same parties as before. -/
theorem scopeBack_kept {gates : List Gate} {mask : List Bool} {d : Nat}
    (h : back? mask d = some true) :
    Gate.scopeBack (kept gates mask) (liveBack mask d) = Gate.scopeBack gates d := by
  rw [Gate.scopeBack_eq_getD, map_scope_kept, back?_keep h, ← Gate.scopeBack_eq_getD]

theorem floor_close {gates : List Gate} {mask : List Bool} {g : Gate}
    (h : ∀ d ∈ g.op.operands, back? mask d = some true) :
    Gate.floor (kept gates mask) (close mask g).op = Gate.floor gates g.op := by
  rw [Gate.floor, Gate.floor, close, Operation.map_map]
  exact congrArg Operation.floor (Operation.map_congr fun d hd => scopeBack_kept (h d hd))

/-- A relation between gates and histories that survives the closing of gaps holds throughout the live
gates. -/
theorem throughout_kept {P : List Gate → Gate → Prop}
    (hP : ∀ gates mask g, (∀ d ∈ g.op.operands, back? mask d = some true) →
      mask.length = gates.length → P gates g → P (kept gates mask) (close mask g))
    {gates : List Gate} {mask : List Bool} (h : Throughout P gates) (hclosed : Closed gates mask) :
    Throughout P (kept gates mask) := by
  induction gates generalizing mask with
  | nil => cases mask <;> trivial
  | cons g older ih =>
    cases mask with
    | nil => trivial
    | cons alive past =>
      have hrest := ih h.2 hclosed.2
      cases alive with
      | false => exact hrest
      | true => exact ⟨hP older past g (hclosed.1 rfl) hclosed.2.length_eq h.1, hrest⟩

/-- A live offset stays within the history. -/
theorem liveBack_bounds {gates : List Gate} {mask : List Bool} (hlen : mask.length = gates.length)
    {d : Nat} (h : back? mask d = some true) :
    0 < liveBack mask d ∧ liveBack mask d ≤ (kept gates mask).length := by
  have hself : back? (keep mask mask) (liveBack mask d) = some true := by rw [back?_keep h, h]
  have hbounds := bounds_of_back? hself
  rwa [length_keep rfl, ← length_kept hlen] at hbounds

theorem fits_kept {gates : List Gate} {mask : List Bool} (h : Throughout Gate.Fits gates)
    (hclosed : Closed gates mask) : Throughout Gate.Fits (kept gates mask) := by
  refine throughout_kept (fun gates mask g hlive hlen hfits => ⟨fun d hd => ?_, ?_⟩) h hclosed
  · rw [close, Operation.operands_map] at hd
    obtain ⟨e, he, rfl⟩ := List.mem_map.mp hd
    exact liveBack_bounds hlen (hlive e he)
  · rw [floor_close hlive]
    exact hfits.floor

/-! ### Their run -/

/-- The mask of the sources among the gates of a history, the oldest first. -/
def sourceMask (gates : List Gate) (mask : List Bool) : List Bool :=
  (keep (gates.map fun g => g.kind.isSource) mask).reverse

theorem length_sourceMask {gates : List Gate} {mask : List Bool}
    (h : mask.length = gates.length) :
    (sourceMask gates mask).length = gates.countP fun g => g.kind.isSource := by
  rw [sourceMask, List.length_reverse, length_keep (by simpa using h.symm)]
  simp [List.count, List.countP_map, Function.comp_def]

theorem bitBack_keep {mask : List Bool} {values : List Bool} {d : Nat}
    (h : back? mask d = some true) :
    PlainRun.bitBack (keep mask values) (liveBack mask d) = PlainRun.bitBack values d := by
  rw [PlainRun.bitBack, back?_keep h, PlainRun.bitBack]

/-- A live gate has its value in the live part of a run, if a source finds the same bit there. -/
theorem value_close (r : PlainRun) (supply : List Bool) {mask : List Bool} {g : Gate}
    (hlive : ∀ d ∈ g.op.operands, back? mask d = some true)
    (hsupply : g.kind.isSource = true → supply.headD false = r.supply.headD false) :
    PlainRun.value ⟨keep mask r.past, supply⟩ (close mask g) = r.value g := by
  have hop : (close mask g).op.map (PlainRun.bitBack (keep mask r.past)) =
      g.op.map (PlainRun.bitBack r.past) := by
    rw [close, Operation.map_map]
    exact Operation.map_congr fun d hd => bitBack_keep (hlive d hd)
  rw [PlainRun.value, PlainRun.value, hop]
  cases hsource : g.kind.isSource with
  | false => exact Operation.value_supplied (by simpa [Gate.kind] using hsource) _ _
  | true => rw [hsupply hsource]

theorem kind_close (mask : List Bool) (g : Gate) : (close mask g).kind = g.kind := by
  simp [close, Gate.kind]

/-- A live gate takes the live part of a run to the live part of the next. -/
theorem step_close (r : PlainRun) (supply : List Bool) {mask : List Bool} {g : Gate}
    (hlive : ∀ d ∈ g.op.operands, back? mask d = some true)
    (hsupply : g.kind.isSource = true → supply.headD false = r.supply.headD false) :
    PlainRun.step ⟨keep mask r.past, supply⟩ (close mask g) =
      ⟨keep (true :: mask) (r.step g).past, if g.kind.isSource then supply.tail else supply⟩ := by
  rw [PlainRun.step, value_close r supply hlive hsupply, kind_close]
  rfl

/-- The run of the live gates on the bits of the live sources is the live part of the run. The lists of
bits are split into those that the gates read and a rest, so that the induction can take the bit of the
newest gate from the rest. -/
theorem along_kept {gates : List Gate} {mask : List Bool} (hclosed : Closed gates mask)
    {bits : List Bool} (hbits : bits.length = gates.countP fun g => g.kind.isSource)
    (rest rest' : List Bool) :
    PlainRun.along (keep (sourceMask gates mask) bits ++ rest') (kept gates mask) =
      ⟨keep mask (PlainRun.along (bits ++ rest) gates).past, rest'⟩ := by
  induction gates generalizing mask bits rest rest' with
  | nil =>
    obtain rfl : bits = [] := List.eq_nil_of_length_eq_zero hbits
    match mask, hclosed with
    | [], _ => rfl
  | cons g older ih =>
    match mask, hclosed with
    | alive :: past, hclosed =>
      cases hsource : g.kind.isSource with
      | false =>
        have hcount : bits.length = older.countP fun g => g.kind.isSource := by
          simpa [hsource] using hbits
        have hmask : sourceMask (g :: older) (alive :: past) = sourceMask older past := by
          simp [sourceMask, hsource]
        have hrun := ih hclosed.2 hcount rest rest'
        rw [hmask]
        cases alive with
        | false => exact hrun
        | true =>
          have hsupply : g.kind.isSource = true → rest'.headD false =
              (PlainRun.along (bits ++ rest) older).supply.headD false := by simp [hsource]
          rw [kept, PlainRun.along, hrun, step_close _ rest' (hclosed.1 rfl) hsupply, hsource]
          rfl
      | true =>
        -- the newest gate reads the last of the bits, which the older gates leave to the rest
        have hcount : bits.length = (older.countP fun g => g.kind.isSource) + 1 := by
          simpa [hsource] using hbits
        have hne : bits ≠ [] := by
          rintro rfl
          simp at hcount
        obtain ⟨front, b, rfl⟩ : ∃ front b, bits = front ++ [b] :=
          ⟨_, _, (List.dropLast_concat_getLast hne).symm⟩
        have hfront : front.length = older.countP fun g => g.kind.isSource := by
          simpa using hcount
        have hlen := length_sourceMask hclosed.2.length_eq
        have hmask : keep (sourceMask (g :: older) (alive :: past)) (front ++ [b]) =
            keep (sourceMask older past) front ++ keep [alive] [b] := by
          rw [← keep_append (hlen.trans hfront.symm)]
          simp [sourceMask, hsource]
        have hsupply : (PlainRun.along (front ++ [b] ++ rest) older).supply = b :: rest := by
          rw [PlainRun.supply_along, ← hfront, List.append_assoc, List.drop_left]
          rfl
        have hrun := ih hclosed.2 hfront ([b] ++ rest)
        rw [← List.append_assoc] at hrun
        rw [hmask, List.append_assoc]
        cases alive with
        | false => exact hrun rest'
        | true =>
          have hnext : PlainRun.along (keep (sourceMask older past) front ++ (keep [true] [b] ++ rest'))
              (kept older past) = _ := hrun (b :: rest')
          have hbit : g.kind.isSource = true → (b :: rest').headD false =
              (PlainRun.along (front ++ [b] ++ rest) older).supply.headD false := by
            intro _
            rw [hsupply]
            rfl
          rw [kept, PlainRun.along, hnext, step_close _ (b :: rest') (hclosed.1 rfl) hbit, hsource]
          rfl

/-- The live sources are the sources among the live gates. -/
theorem filter_isSource_kept (gates : List Gate) (mask : List Bool) :
    (kept gates mask).filter (fun g => g.kind.isSource) =
      keep (keep (gates.map fun g => g.kind.isSource) mask)
        (gates.filter fun g => g.kind.isSource) := by
  induction gates generalizing mask with
  | nil => cases mask <;> simp [kept]
  | cons g older ih =>
    match mask with
    | [] => simp [kept]
    | false :: past => cases hsource : g.kind.isSource <;> simp [kept, hsource, ih]
    | true :: past =>
      cases hsource : g.kind.isSource with
      | false => simp [kept, kind_close, hsource, ih]
      | true =>
        have hop : close past g = g := by
          obtain ⟨op, scope⟩ := g
          cases op <;> first | rfl | simp [Gate.kind, Operation.kind, GateKind.isSource] at hsource
        simp [kept, hop, hsource, ih]

end Liveness

namespace Program

/-- Which gates an output needs, newest first. -/
def liveMask (p : Program) : List Bool :=
  Liveness.mask p.outputs p.gates.reverse

/-- The sources in order. -/
def sources (p : Program) : List Gate :=
  p.gates.filter fun g => g.kind.isSource

/-- Which of the sources an output needs, in the order of the sources. -/
def liveSources (p : Program) : List Bool :=
  keep (p.gates.map fun g => g.kind.isSource) p.liveMask.reverse

/-- The live gates, and the outputs at their places among the live gates. -/
def live (p : Program) : Program where
  gates := (Liveness.kept p.gates.reverse p.liveMask).reverse
  outputs := p.outputs.map (Liveness.position p.liveMask)

@[simp] theorem length_sources (p : Program) : p.sources.length = p.sourceCount :=
  List.countP_eq_length_filter.symm

@[simp] theorem length_liveMask (p : Program) : p.liveMask.length = p.length := by
  simp [liveMask, length]

@[simp] theorem length_liveSources (p : Program) : p.liveSources.length = p.sourceCount := by
  rw [liveSources, length_keep (by simp [length])]
  simp [sourceCount, List.count, List.countP_map, Function.comp_def]

theorem WellFormed.closed_liveMask {p : Program} (h : p.WellFormed) :
    Liveness.Closed p.gates.reverse p.liveMask :=
  Liveness.closed_mask h.gates p.outputs

theorem WellFormed.liveMask_output {p : Program} (h : p.WellFormed) {i : Nat}
    (hi : i ∈ p.outputs) : p.liveMask.reverse[i]? = some true :=
  Liveness.mask_of_mem hi (by simpa [length] using h.outputs i hi)

/-- An output ends up at its place among the live gates. -/
theorem WellFormed.getElem?_position {p : Program} (h : p.WellFormed) {i : Nat}
    (hi : i ∈ p.outputs) {α : Type} (xs : List α) :
    (keep p.liveMask.reverse xs)[Liveness.position p.liveMask i]? = xs[i]? :=
  getElem?_keep (h.liveMask_output hi) xs

theorem length_live (p : Program) : p.live.length = p.liveMask.count true := by
  simp [live, length, Liveness.length_kept]

theorem WellFormed.live {p : Program} (h : p.WellFormed) : p.live.WellFormed where
  gates := by
    rw [Program.live, List.reverse_reverse]
    exact Liveness.fits_kept h.gates h.closed_liveMask
  outputs := by
    intro j hj
    obtain ⟨i, hi, rfl⟩ := List.mem_map.mp hj
    have hlive : (keep p.liveMask.reverse p.liveMask.reverse)[Liveness.position p.liveMask i]? =
        some true := by
      rw [h.getElem?_position hi, h.liveMask_output hi]
    obtain ⟨hlt, -⟩ := List.getElem?_eq_some_iff.mp hlive
    rwa [length_keep rfl, List.count_reverse, ← length_live] at hlt

/-- The sources of the live part are the live sources. -/
theorem sources_live (p : Program) : p.live.sources = keep p.liveSources p.sources := by
  have hkept := congrArg List.reverse
    (Liveness.filter_isSource_kept p.gates.reverse p.liveMask)
  have hmask : (keep (p.gates.reverse.map fun g => g.kind.isSource) p.liveMask).reverse =
      p.liveSources := by
    rw [reverse_keep (by simp [length])]
    simp [liveSources]
  rw [← List.filter_reverse, reverse_keep] at hkept
  · rw [sources, live, hkept, hmask, ← List.filter_reverse, List.reverse_reverse, sources]
  · rw [← List.length_reverse, hmask, length_liveSources, sourceCount,
      ← List.countP_eq_length_filter, List.countP_reverse]

/-- The values of the live gates are unchanged. -/
theorem WellFormed.values_live {p : Program} (h : p.WellFormed) {bits : List Bool}
    (hbits : bits.length = p.sourceCount) :
    p.live.values (keep p.liveSources bits) = keep p.liveMask.reverse (p.values bits) := by
  have hcount : bits.length = p.gates.reverse.countP fun g => g.kind.isSource := by
    rw [hbits, List.countP_reverse, sourceCount]
  have hmask : Liveness.sourceMask p.gates.reverse p.liveMask = p.liveSources := by
    rw [Liveness.sourceMask, reverse_keep (by simp [length])]
    simp [liveSources]
  have hrun := Liveness.along_kept h.closed_liveMask hcount [] []
  rw [hmask, List.append_nil, List.append_nil] at hrun
  rw [values_eq_along, values_eq_along, Program.live, List.reverse_reverse, hrun,
    reverse_keep (by simp [length])]

/-- The outputs of the live part have the values that they had. -/
theorem WellFormed.atOutputs_live {p : Program} (h : p.WellFormed) (values : List Bool) :
    p.live.atOutputs (keep p.liveMask.reverse values) = p.atOutputs values := by
  rw [atOutputs, atOutputs, Program.live, List.map_map]
  refine List.map_congr_left fun i hi => ?_
  rw [Function.comp_apply, List.getD_eq_getElem?_getD, h.getElem?_position hi,
    List.getD_eq_getElem?_getD]

theorem WellFormed.eval_live {p : Program} (h : p.WellFormed) {bits : List Bool}
    (hbits : bits.length = p.sourceCount) : p.live.eval (keep p.liveSources bits) = p.eval bits := by
  have hcount : (keep p.liveSources bits).length = p.live.sourceCount := by
    rw [← length_sources, sources_live, length_keep (by simp [hbits]), length_keep (by simp)]
  rw [eval, evalGates, if_pos hcount, eval, evalGates, if_pos hbits, h.values_live hbits]
  exact congrArg Except.ok (h.atOutputs_live (p.values bits))

end Program

end HalfGates
