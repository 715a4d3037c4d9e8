import HalfGates.Proofs.Program.Scopes
import HalfGates.Proofs.Program.Simplification

/-!
# Simplification reveals nothing

Rewriting widens scopes to what the new operands reveal. A party still learns nothing by it: if the gates
that it knew had the same values in two runs, then so have the gates that it knows afterwards.

## Main definitions

- `Alike`: two runs in which the gates known to a party have the same values
- `Alike.rewrite`, `Alike.rewritten`: one gate rewritten, and all of them
- `Program.SeesSame`: a party sees the same on two lists of source bits
- `Program.simplify_secure`: simplification takes no scope away and reveals nothing
-/

namespace HalfGates

variable {party : Party} {past : List Gate} {values values' : List Bool}

/-- In two runs, every gate of a history that a party knows has the same value. -/
def Alike (party : Party) (past : List Gate) (values values' : List Bool) : Prop :=
  ∀ d, (Gate.scopeBack past d).knows party = true →
    PlainRun.bitBack values d = PlainRun.bitBack values' d

/-- Where a party knows a value there is a gate. -/
theorem bounds_of_knows {d : Nat} (h : (Gate.scopeBack past d).knows party = true) :
    0 < d ∧ d ≤ past.length := by
  cases hback : back? past d with
  | none =>
    simp only [Gate.scopeBack, hback] at h
    cases party <;> cases h
  | some g => exact bounds_of_back? hback

theorem alike_cons {g : Gate} {v v' : Bool} :
    Alike party (g :: past) (v :: values) (v' :: values') ↔
      (g.scope.knows party = true → v = v') ∧ Alike party past values values' := by
  constructor
  · intro h
    refine ⟨fun hknows => h 1 hknows, fun d hknows => ?_⟩
    have hd : 0 < d := (bounds_of_knows hknows).1
    have hnext := h (d + 1)
    rw [Gate.scopeBack_cons g past hd, PlainRun.bitBack_cons _ _ hd,
      PlainRun.bitBack_cons _ _ hd] at hnext
    exact hnext hknows
  · rintro ⟨hnewest, h⟩ d hknows
    match d with
    | 0 => exact absurd (bounds_of_knows hknows).1 (Nat.lt_irrefl 0)
    | 1 => exact hnewest hknows
    | d + 2 =>
      rw [Gate.scopeBack_cons g past d.succ_pos] at hknows
      rw [PlainRun.bitBack_cons _ _ d.succ_pos, PlainRun.bitBack_cons _ _ d.succ_pos]
      exact h (d + 1) hknows

/-- A rewritten gate is known to those who knew the gate, and to those who know all of its new operands and
thereby its value. -/
theorem Alike.rewrite (h : Alike party past values values') (hv : Rewriting.Explains values past)
    (hv' : Rewriting.Explains values' past) {g : Gate} {supplied supplied' : Bool}
    (hg : g.scope.knows party = true →
      (g.op.map (PlainRun.bitBack values)).value supplied =
        (g.op.map (PlainRun.bitBack values')).value supplied')
    (hknows : (Rewriting.rewrite past g).scope.knows party = true) :
    (g.op.map (PlainRun.bitBack values)).value supplied =
      (g.op.map (PlainRun.bitBack values')).value supplied' := by
  simp only [Rewriting.rewrite, Gate.widened, Scope.knows_union, Bool.or_eq_true] at hknows
  rcases hknows with hasked | hfloor
  · exact hg hasked
  · obtain ⟨hsource, hoperands⟩ := Gate.knows_floor.mp hfloor
    have hsame : (Rewriting.rewriteOp past g.op).map (PlainRun.bitBack values) =
        (Rewriting.rewriteOp past g.op).map (PlainRun.bitBack values') :=
      Operation.map_congr fun d hd => h d (hoperands d hd)
    rw [← Rewriting.value_rewriteOp hv, ← Rewriting.value_rewriteOp hv', hsame]
    exact Operation.value_supplied (by rw [Operation.kind_map, hsource]) _ _

/-- Rewriting all gates of a history reveals nothing. -/
theorem Alike.rewritten (hfits : Throughout Gate.Fits past) {bits bits' : List Bool}
    (h : Alike party past (PlainRun.along bits past).past (PlainRun.along bits' past).past) :
    Alike party (Rewriting.rewritten past) (PlainRun.along bits past).past
      (PlainRun.along bits' past).past := by
  induction past with
  | nil => exact h
  | cons g past ih =>
    obtain ⟨hnewest, holder⟩ := alike_cons.mp h
    have hrest := ih hfits.2 holder
    -- the rewritten gates have the values of the original ones, in either run
    have hexplains := fun bits => Rewriting.along_rewritten bits hfits.2 ▸
      Rewriting.explains_along bits (Rewriting.fits_rewritten hfits.2)
    exact alike_cons.mpr ⟨hrest.rewrite (hexplains bits) (hexplains bits') hnewest, hrest⟩

/-- Two runs are alike if they have the same entries wherever the party knows the gate. -/
theorem Program.alike_iff {p : Program} (hvalues : values.length = p.length)
    (hvalues' : values'.length = p.length) :
    Alike party p.gates.reverse values.reverse values'.reverse ↔
      ∀ i, (p.scopeAt i).knows party = true → values[i]? = values'[i]? := by
  have hbit : ∀ vs : List Bool, vs.length = p.length → ∀ i,
      PlainRun.bitBack vs.reverse (p.length - i) = vs[i]?.getD false := by
    intro vs hvs i
    rw [PlainRun.bitBack, ← hvs, back?_reverse]
  constructor
  · intro h i hknows
    by_cases hi : i < p.length
    · have hsame := h (p.length - i)
      rw [p.scopeBack_reverse, hbit values hvalues, hbit values' hvalues'] at hsame
      rw [List.getElem?_eq_getElem (hvalues ▸ hi), List.getElem?_eq_getElem (hvalues' ▸ hi)] at hsame ⊢
      exact congrArg some (hsame hknows)
    · rw [List.getElem?_eq_none (by omega), List.getElem?_eq_none (by omega)]
  · intro h d hknows
    have hd : d ≤ p.length := by simpa [Program.length] using (bounds_of_knows hknows).2
    have hsame := h (p.length - d)
    rw [← p.scopeBack_reverse, Nat.sub_sub_self hd] at hsame
    rw [← Nat.sub_sub_self hd, hbit values hvalues, hbit values' hvalues', hsame hknows]

/-- Every position among the marked entries is that of one entry. -/
theorem exists_position_keep (mask : List Bool) (j : Nat) :
    ∃ i : Nat, ∀ (α : Type) (xs : List α), xs.length = mask.length →
      (keep mask xs)[j]? = xs[i]? := by
  induction mask generalizing j with
  | nil => exact ⟨0, fun α xs hxs => by rw [List.eq_nil_of_length_eq_zero hxs]; simp⟩
  | cons m mask ih =>
    have hcons : ∀ (k : Nat), ∃ i : Nat, ∀ (α : Type) (x : α) (xs : List α),
        xs.length = mask.length → (keep mask xs)[k]? = (x :: xs)[i]? := by
      intro k
      obtain ⟨i, hi⟩ := ih k
      exact ⟨i + 1, fun α x xs hxs => hi α xs hxs⟩
    cases m with
    | false =>
      obtain ⟨i, hi⟩ := hcons j
      refine ⟨i, fun α xs hxs => ?_⟩
      match xs with
      | x :: xs => exact hi α x xs (Nat.succ.inj hxs)
    | true =>
      cases j with
      | zero =>
        refine ⟨0, fun α xs hxs => ?_⟩
        match xs with
        | x :: xs => rfl
      | succ j =>
        obtain ⟨i, hi⟩ := hcons j
        refine ⟨i, fun α xs hxs => ?_⟩
        match xs with
        | x :: xs => exact hi α x xs (Nat.succ.inj hxs)

namespace Program

variable {p : Program} {bits bits' : List Bool}

/-- A party sees the same on two lists of bits for the sources: every gate that it knows has the same value
on both. -/
def SeesSame (p : Program) (party : Party) (bits bits' : List Bool) : Prop :=
  ∃ values values', p.evalGates bits = .ok values ∧ p.evalGates bits' = .ok values' ∧
    ∀ i, (p.scopeAt i).knows party = true → values[i]? = values'[i]?

theorem evalGates_eq_ok_iff :
    p.evalGates bits = .ok values ↔ bits.length = p.sourceCount ∧ p.values bits = values := by
  unfold evalGates
  split
  · next h => simp [h]
  · next h => simp [h]

theorem seesSame_iff :
    p.SeesSame party bits bits' ↔
      (bits.length = p.sourceCount ∧ bits'.length = p.sourceCount) ∧
        ∀ i, (p.scopeAt i).knows party = true → (p.values bits)[i]? = (p.values bits')[i]? := by
  constructor
  · rintro ⟨values, values', hv, hv', h⟩
    obtain ⟨hbits, rfl⟩ := evalGates_eq_ok_iff.mp hv
    obtain ⟨hbits', rfl⟩ := evalGates_eq_ok_iff.mp hv'
    exact ⟨⟨hbits, hbits'⟩, h⟩
  · rintro ⟨⟨hbits, hbits'⟩, h⟩
    exact ⟨_, _, if_pos hbits, if_pos hbits', h⟩

theorem WellFormed.seesSame_simplifyGates (hp : p.WellFormed) (h : p.SeesSame party bits bits') :
    p.simplifyGates.SeesSame party bits bits' := by
  obtain ⟨⟨hbits, hbits'⟩, h⟩ := seesSame_iff.mp h
  refine seesSame_iff.mpr ⟨by rw [sourceCount_simplifyGates]; exact ⟨hbits, hbits'⟩, ?_⟩
  have hlength : ∀ bits, (p.values bits).length = p.simplifyGates.length := by
    intro bits
    rw [length_values, length_simplifyGates]
  have halike := (alike_iff (p.length_values bits) (p.length_values bits')).mpr h
  rw [values_eq_along, values_eq_along, List.reverse_reverse, List.reverse_reverse] at halike
  rw [hp.values_simplifyGates, hp.values_simplifyGates]
  refine (alike_iff (hlength bits) (hlength bits')).mp ?_
  rw [values_eq_along, values_eq_along, List.reverse_reverse, List.reverse_reverse,
    reverse_simplifyGates]
  exact halike.rewritten hp.gates

theorem WellFormed.seesSame_live (hp : p.WellFormed) (h : p.SeesSame party bits bits') :
    p.live.SeesSame party (keep p.liveSources bits) (keep p.liveSources bits') := by
  obtain ⟨⟨hbits, hbits'⟩, h⟩ := seesSame_iff.mp h
  have hcount : ∀ bits : List Bool, bits.length = p.sourceCount →
      (keep p.liveSources bits).length = p.live.sourceCount := by
    intro bits hbits
    rw [← length_sources, sources_live, length_keep (by simp [hbits]), length_keep (by simp)]
  refine seesSame_iff.mpr ⟨⟨hcount bits hbits, hcount bits' hbits'⟩, fun j hknows => ?_⟩
  obtain ⟨i, hi⟩ := exists_position_keep p.liveMask.reverse j
  rw [scopeAt, map_scope_live, hi _ _ (by simp [length])] at hknows
  rw [hp.values_live hbits, hp.values_live hbits', hi _ _ (by simp), hi _ _ (by simp)]
  exact h i hknows

/-- Simplification takes no gate and no output from anybody who knew it, and whoever could not tell two
assignments apart before cannot do so afterwards. -/
theorem simplify_secure (h : p.Buildable) :
    (p.simplifyGates.length = p.length ∧
      ∀ i, (p.simplifyGates.scopeAt i).contains (p.scopeAt i) = true) ∧
    ∃ q, p.simplify = .ok q ∧ q.sources = keep p.survivors p.sources ∧
      q.outputs.length = p.outputs.length ∧
      (∀ (j i : Nat), p.outputs[j]? = some i →
        ∃ i', q.outputs[j]? = some i' ∧ (q.scopeAt i').contains (p.scopeAt i) = true) ∧
      ∀ (party : Party) (bits bits' : List Bool), p.SeesSame party bits bits' →
        p.simplifyGates.SeesSame party bits bits' ∧
          q.SeesSame party (keep p.survivors bits) (keep p.survivors bits') := by
  have hp := h.wellFormed
  refine ⟨⟨p.length_simplifyGates, p.contains_scopeAt_simplifyGates⟩, p.simplifyGates.live,
    hp.simplify_eq, p.sources_live_simplifyGates, by simp [live], fun j i hj => ?_,
    fun party bits bits' hsame => ?_⟩
  · refine ⟨Liveness.position p.simplifyGates.liveMask i, ?_, ?_⟩
    · rw [live, List.getElem?_map, outputs_simplifyGates, hj]
      rfl
    · rw [hp.simplifyGates.scopeAt_live (List.mem_of_getElem? hj)]
      exact p.contains_scopeAt_simplifyGates i
  · have hrewritten := hp.seesSame_simplifyGates hsame
    exact ⟨hrewritten, hp.simplifyGates.seesSame_live hrewritten⟩

theorem simplify_secure_widened_conjunction :
    ∃ p q : Program, p.Buildable ∧ p.simplify = .ok q ∧ p.scopeAt 3 = .generatorOnly ∧
      (p.simplifyGates.scopeAt 3).contains .generatorOnly = true ∧ p.simplifyGates.scopeAt 3 = .both ∧
      p.SeesSame .generator [true, false] [true, true] ∧
      p.simplifyGates.SeesSame .generator [true, false] [true, true] ∧
      q.SeesSame .generator (keep p.survivors [true, false]) (keep p.survivors [true, true]) := by
  obtain ⟨p, hp⟩ : ∃ p : Program, p = ⟨[⟨.input, .generatorOnly⟩, ⟨.input, .neither⟩,
      ⟨.constant false, .both⟩, ⟨.conjunction false false false 3 1, .generatorOnly⟩,
      ⟨.linear false 1 4, .generatorOnly⟩, ⟨.unary true 4, .evaluatorOnly⟩], [4, 5]⟩ := ⟨_, rfl⟩
  have hbuildable : p.Buildable := by
    rw [hp]
    exact @Buildable.build [.add ⟨.input, .generatorOnly, []⟩, .add ⟨.input, .neither, []⟩,
      .add ⟨.constant false, .neither, []⟩, .add ⟨.conjunction false false false, .neither, [3, 1]⟩,
      .add ⟨.linear false, .neither, [1, 4]⟩, .add ⟨.unary true, .evaluatorOnly, [4]⟩,
      .outputs [4, 5]] _ rfl
  have hsame : p.SeesSame .generator [true, false] [true, true] := by
    -- the generator knows all gates but the second input and its negation
    refine ⟨[true, false, false, false, true, true], [true, true, false, false, true, false],
      by rw [hp]; rfl, by rw [hp]; rfl, fun i hknows => ?_⟩
    rw [hp] at hknows
    match i with
    | 0 | 2 | 3 | 4 => rfl
    | 1 | 5 => cases hknows
    | i + 6 => rfl
  obtain ⟨⟨-, hscopes⟩, q, hq, -, -, -, hsecure⟩ := simplify_secure hbuildable
  obtain ⟨hrewritten, hlive⟩ := hsecure .generator _ _ hsame
  have hscope : p.scopeAt 3 = .generatorOnly := by
    rw [hp]
    rfl
  refine ⟨p, q, hbuildable, hq, hscope, hscope ▸ hscopes 3, ?_, hsame, hrewritten, hlive⟩
  rw [hp]
  rfl

end Program

end HalfGates
