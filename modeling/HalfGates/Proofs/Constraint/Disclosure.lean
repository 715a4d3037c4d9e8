import HalfGates.Proofs.Program.Secrecy

/-!
# What a lowered program discloses

All gates of a variable are requested with the scope of the variable, so the gates that read the variables of
its definition tell their values to whoever is to learn it. No other gate tells more: it combines gates that
the party knows.

## Main definitions

- `RunsAlike`, `SameAt`: a party sees the same on two lists of bits; a gate has the same value on both
- `Lowering.Tells`: what the gates of an expression tell a party
- `ParitySystem.Disclosed`: the variables that the program of a system discloses to a party
- `ParitySystem.lower_discloses`: a party sees the same exactly if the variables disclosed to it are the same
-/

namespace HalfGates

/-! ### Two runs -/

variable {party : Party} {bits bits' : List Bool} {past past' : List Gate}

/-- A party sees the same on two lists of bits. -/
def RunsAlike (party : Party) (bits bits' : List Bool) (past : List Gate) : Prop :=
  Alike party past (PlainRun.along bits past).past (PlainRun.along bits' past).past

/-- The gate at a position has the same value on two lists of bits. -/
def SameAt (bits bits' : List Bool) (past : List Gate) (i : Nat) : Prop :=
  (PlainRun.valuesAlong bits past)[i]? = (PlainRun.valuesAlong bits' past)[i]?

/-- The gate at a position is known to all parties of a scope. -/
def KnownTo (scope : Scope) (past : List Gate) (i : Nat) : Prop :=
  ∃ g, past.reverse[i]? = some g ∧ g.scope.contains scope = true

theorem KnownTo.lt_length {scope : Scope} {i : Nat} (h : KnownTo scope past i) : i < past.length := by
  obtain ⟨g, hg, -⟩ := h
  simpa using (List.getElem?_eq_some_iff.mp hg).1

theorem KnownTo.scopeBack {scope : Scope} {i : Nat} (h : KnownTo scope past i) :
    (Gate.scopeBack past (past.length - i)).contains scope = true := by
  obtain ⟨g, hg, hscope⟩ := h
  have hback := back?_reverse past.reverse i
  rw [List.reverse_reverse, List.length_reverse, hg] at hback
  rwa [Gate.scopeBack_of_back? hback]

theorem KnownTo.mono {scope : Scope} {i : Nat} (h : KnownTo scope past i) (hsuffix : past <:+ past') :
    KnownTo scope past' i := by
  obtain ⟨new, rfl⟩ := hsuffix
  obtain ⟨g, hg, hscope⟩ := h
  obtain ⟨hlt, -⟩ := List.getElem?_eq_some_iff.mp hg
  exact ⟨g, by rw [List.reverse_append, List.getElem?_append_left hlt, hg], hscope⟩

/-- A gate keeps its value when gates are appended. -/
theorem getElem?_valuesAlong_of_suffix (h : past <:+ past') {i : Nat} (hi : i < past.length) :
    (PlainRun.valuesAlong bits past')[i]? = (PlainRun.valuesAlong bits past)[i]? := by
  obtain ⟨new, rfl⟩ := h
  induction new with
  | nil => rfl
  | cons g new ih =>
    rw [← ih, List.cons_append, PlainRun.valuesAlong, PlainRun.past_along_cons, List.reverse_cons]
    refine List.getElem?_append_left ?_
    rw [List.length_reverse, PlainRun.length_along, List.length_append]
    omega

theorem sameAt_of_suffix (h : past <:+ past') {i : Nat} (hi : i < past.length) :
    SameAt bits bits' past' i ↔ SameAt bits bits' past i := by
  rw [SameAt, SameAt, getElem?_valuesAlong_of_suffix h hi, getElem?_valuesAlong_of_suffix h hi]

theorem sameAt_iff {i : Nat} (hi : i < past.length) :
    SameAt bits bits' past i ↔ PlainRun.bitBack (PlainRun.along bits past).past (past.length - i) =
      PlainRun.bitBack (PlainRun.along bits' past).past (past.length - i) := by
  have hvalue : ∀ bits, ∃ x, (PlainRun.valuesAlong bits past)[i]? = some x :=
    fun bits => ⟨_, List.getElem?_eq_getElem (by simpa using hi)⟩
  obtain ⟨x, hx⟩ := hvalue bits
  obtain ⟨x', hx'⟩ := hvalue bits'
  rw [SameAt, PlainRun.bitBack_of_valuesAlong hx, PlainRun.bitBack_of_valuesAlong hx', hx, hx',
    Option.some.injEq]

/-- A party sees the same exactly if the gates that it knows have the same values. -/
theorem runsAlike_iff : RunsAlike party bits bits' past ↔
    ∀ i g, past.reverse[i]? = some g → g.scope.knows party = true → SameAt bits bits' past i := by
  have hlength : ∀ bits, (PlainRun.valuesAlong bits past).length = (Program.mk past.reverse []).length := by
    intro bits
    rw [PlainRun.length_valuesAlong, Program.length, List.length_reverse]
  have halike := @Program.alike_iff party _ _ ⟨past.reverse, []⟩ (hlength bits) (hlength bits')
  rw [List.reverse_reverse, PlainRun.valuesAlong, PlainRun.valuesAlong, List.reverse_reverse,
    List.reverse_reverse] at halike
  rw [RunsAlike, halike]
  constructor
  · intro h i g hg hknows
    refine h i ?_
    rwa [Program.scopeAt, List.getElem?_map, hg]
  · intro h i hknows
    rw [Program.scopeAt, List.getElem?_map] at hknows
    cases hg : past.reverse[i]? with
    | none =>
      rw [hg] at hknows
      cases party <;> cases hknows
    | some g =>
      rw [hg] at hknows
      exact h i g hg hknows

theorem Program.seesSame_iff_runsAlike {p : Program} (hbits : bits.length = p.sourceCount)
    (hbits' : bits'.length = p.sourceCount) :
    p.SeesSame party bits bits' ↔ RunsAlike party bits bits' p.gates.reverse := by
  have halike := @Program.alike_iff party _ _ p (p.length_values bits) (p.length_values bits')
  rw [values_eq_along, values_eq_along, List.reverse_reverse, List.reverse_reverse] at halike
  rw [seesSame_iff, RunsAlike, halike, values_eq_along, values_eq_along]
  exact and_iff_right ⟨hbits, hbits'⟩

/-- A gate that combines gates known to the scope requested for it tells nothing new. -/
theorem runsAlike_combined {op : Operation Nat} {requested : Scope} (hsource : op.kind.isSource = false)
    (hknown : ∀ d ∈ op.operands, (Gate.scopeBack past d).contains requested = true) :
    RunsAlike party bits bits' (Gate.widened past op requested :: past) ↔
      RunsAlike party bits bits' past := by
  refine ⟨fun h => (alike_cons.mp h).2, fun h => alike_cons.mpr ⟨fun hknows => ?_, h⟩⟩
  have hoperands : ∀ d ∈ op.operands, (Gate.scopeBack past d).knows party = true := by
    rcases Bool.or_eq_true_iff.mp ((Scope.knows_union _ _ _).symm.trans hknows) with hrequested | hfloor
    · intro d hd
      exact Scope.contains_iff.mp (hknown d hd) party hrequested
    · exact (Gate.knows_floor.mp hfloor).2
  have hsame : op.map (PlainRun.bitBack (PlainRun.along bits past).past) =
      op.map (PlainRun.bitBack (PlainRun.along bits' past).past) :=
    Operation.map_congr fun d hd => h d (hoperands d hd)
  show (op.map _).value _ = (op.map _).value _
  rw [hsame]
  exact Operation.value_supplied (by rw [Operation.kind_map, hsource]) _ _

/-- An identity tells its operand to the scope requested for it. -/
theorem runsAlike_identity {d : Nat} {requested : Scope} :
    RunsAlike party bits bits' (Gate.widened past (.unary false d) requested :: past) ↔
      RunsAlike party bits bits' past ∧ (requested.knows party = true →
        PlainRun.bitBack (PlainRun.along bits past).past d =
          PlainRun.bitBack (PlainRun.along bits' past).past d) := by
  have hvalue : ∀ bits, (PlainRun.along bits past).value (Gate.widened past (.unary false d) requested) =
      PlainRun.bitBack (PlainRun.along bits past).past d := fun bits => Bool.xor_false _
  rw [RunsAlike, PlainRun.past_along_cons, PlainRun.past_along_cons, alike_cons, hvalue, hvalue]
  have hscope : (Gate.widened past (.unary false d) requested).scope.knows party =
      (requested.knows party || (Gate.floor past (.unary false d)).knows party) :=
    Scope.knows_union _ _ _
  rw [hscope, Bool.or_eq_true]
  constructor
  · rintro ⟨hsame, h⟩
    exact ⟨h, fun hrequested => hsame (.inl hrequested)⟩
  · rintro ⟨h, hsame⟩
    refine ⟨?_, h⟩
    rintro (hrequested | hfloor)
    · exact hsame hrequested
    · exact h d ((Gate.knows_floor.mp hfloor).2 d (List.mem_singleton_self d))

/-! ### What emission tells -/

namespace Lowering

variable {scope : Scope} {b b' c : Builder} {position : Nat}

theorem emit_eq_ok {kind : GateKind} {offsets : List Nat}
    (h : emit b ⟨kind, scope, offsets⟩ = .ok (position, b')) :
    ∃ op, op.kind = kind ∧ op.operands = offsets ∧ (∀ d ∈ op.operands, 0 < d ∧ d ≤ b.past.length) ∧
      position = b.past.length ∧ b'.past = Gate.widened b.past op scope :: b.past := by
  unfold emit at h
  split at h
  · next b'' hadd =>
    cases h
    obtain ⟨op, hop, hfits, rfl⟩ := Builder.add_eq_ok_iff.mp hadd
    obtain ⟨hkind, hoperands⟩ := Operation.kind_operands_of_ofKind? hop
    exact ⟨op, hkind, hoperands, hfits, rfl, rfl⟩
  · cases h

/-- Gates were appended to the builder `b`, the last of which stands at `position` and is known to the
scope. They tell a party nothing but what is stated. -/
structure Tells (party : Party) (bits bits' : List Bool) (scope : Scope) (b : Builder) (told : Prop)
    (position : Nat) (b' : Builder) : Prop where
  suffix : b.past <:+ b'.past
  last : position + 1 = b'.past.length
  known : KnownTo scope b'.past position
  alike : RunsAlike party bits bits' b'.past ↔ RunsAlike party bits bits' b.past ∧ told

theorem Tells.trans {told told' : Prop} {i : Nat} (h : Tells party bits bits' scope b told i c)
    (h' : Tells party bits bits' scope c told' position b') :
    Tells party bits bits' scope b (told ∧ told') position b' where
  suffix := h.suffix.trans h'.suffix
  last := h'.last
  known := h'.known
  alike := by rw [h'.alike, h.alike, and_assoc]

theorem Tells.congr {told told' : Prop} (h : Tells party bits bits' scope b told position b')
    (htold : told ↔ told') : Tells party bits bits' scope b told' position b' :=
  { h with alike := by rw [h.alike, htold] }

theorem knownTo_newest (g : Gate) (past : List Gate) (h : g.scope.contains scope = true) :
    KnownTo scope (g :: past) past.length :=
  ⟨g, by simp, h⟩

theorem tells_combined {kind : GateKind} {offsets : List Nat} (hsource : kind.isSource = false)
    (hknown : ∀ d ∈ offsets, (Gate.scopeBack b.past d).contains scope = true)
    (h : emit b ⟨kind, scope, offsets⟩ = .ok (position, b')) :
    Tells party bits bits' scope b True position b' := by
  obtain ⟨op, rfl, rfl, -, rfl, hpast⟩ := emit_eq_ok h
  constructor
  · rw [hpast]
    exact List.suffix_cons _ _
  · rw [hpast, List.length_cons]
  · rw [hpast]
    exact knownTo_newest _ _ (Scope.contains_union_left _ _)
  · rw [hpast, runsAlike_combined hsource hknown, and_true]

theorem tells_constant {value : Bool} (h : emitConstant b value = .ok (position, b')) :
    Tells party bits bits' scope b True position b' := by
  have hboth : Tells party bits bits' .both b True position b' := tells_combined rfl (by simp) h
  obtain ⟨g, hg, hscope⟩ := hboth.known
  refine { hboth with known := ⟨g, hg, ?_⟩ }
  rw [Scope.eq_both_of_contains hscope]
  obtain ⟨_ | _, _ | _⟩ := scope <;> rfl

theorem tells_identity {i : Nat} (h : emit b ⟨.unary false, scope, [b.length - i]⟩ = .ok (position, b')) :
    Tells party bits bits' scope b (scope.knows party = true → SameAt bits bits' b.past i)
      position b' := by
  obtain ⟨op, hkind, hoperands, hfits, rfl, hpast⟩ := emit_eq_ok h
  obtain rfl : op = .unary false (b.past.length - i) := by
    cases op <;> cases hkind
    cases hoperands
    rfl
  have hi : i < b.past.length := by
    have hpos := (hfits _ (List.mem_singleton_self _)).1
    omega
  constructor
  · rw [hpast]
    exact List.suffix_cons _ _
  · rw [hpast, List.length_cons]
  · rw [hpast]
    exact knownTo_newest _ _ (Scope.contains_union_left _ _)
  · rw [hpast, runsAlike_identity, sameAt_iff hi]

theorem tells_pair {kind : GateKind} (hsource : kind.isSource = false) {i j : Nat}
    (hi : KnownTo scope b.past i) (hj : KnownTo scope b.past j)
    (h : emit b ⟨kind, scope, [b.length - i, b.length - j]⟩ = .ok (position, b')) :
    Tells party bits bits' scope b True position b' := by
  refine tells_combined hsource ?_ h
  rintro d (_ | ⟨_, _ | ⟨_, ⟨⟩⟩⟩)
  · exact hi.scopeBack
  · exact hj.scopeBack

/-- The rest of a chain tells nothing new. -/
theorem tells_rest {kind : GateKind} (hsource : kind.isSource = false) {last : Nat}
    {positions : List Nat} (hlast : last + 1 = b.past.length) (hknown : KnownTo scope b.past last)
    (hpositions : ∀ i ∈ positions, KnownTo scope b.past i)
    (h : emitRest kind scope last b positions = .ok (position, b')) :
    Tells party bits bits' scope b True position b' := by
  induction positions generalizing b last with
  | nil =>
    cases h
    exact ⟨List.suffix_rfl, hlast, hknown, by rw [and_true]⟩
  | cons i positions ih =>
    obtain ⟨⟨next, c⟩, hemit, h⟩ := bind_eq_ok.mp h
    have hone : 1 = b.length - last := by
      rw [Builder.length]
      omega
    rw [hone] at hemit
    have hpair : Tells party bits bits' scope b True next c :=
      tells_pair hsource (hpositions i List.mem_cons_self) hknown hemit
    have hrest := ih hpair.last hpair.known
      (fun j hj => (hpositions j (List.mem_cons_of_mem i hj)).mono hpair.suffix) h
    exact (hpair.trans hrest).congr and_self_iff

/-- A chain of gates that the scope knows tells nothing new. -/
theorem tells_chain {unit : Bool} {kind : GateKind} (hsource : kind.isSource = false)
    {positions : List Nat} (hpositions : ∀ i ∈ positions, KnownTo scope b.past i)
    (h : emitChain unit kind scope b positions = .ok (position, b')) :
    Tells party bits bits' scope b True position b' := by
  match positions with
  | [] => exact tells_constant h
  | [only] =>
    refine tells_combined rfl ?_ h
    intro d hd
    rw [List.mem_singleton.mp hd]
    exact (hpositions only (List.mem_singleton_self only)).scopeBack
  | first :: second :: positions =>
    obtain ⟨⟨last, c⟩, hemit, h⟩ := bind_eq_ok.mp h
    have hpair : Tells party bits bits' scope b True last c :=
      tells_pair hsource (hpositions first (by simp)) (hpositions second (by simp)) hemit
    have hrest : Tells party bits bits' scope c True position b' :=
      tells_rest hsource hpair.last hpair.known
        (fun j hj => (hpositions j (by simp [hj])).mono hpair.suffix) h
    exact (hpair.trans hrest).congr and_self_iff

/-- The variables of some expressions have the same values at their places. -/
def SamePlaces (bits bits' : List Bool) (places : List Nat) (past : List Gate)
    (occurs : Nat → Prop) : Prop :=
  ∀ v i, occurs v → places[v]? = some i → SameAt bits bits' past i

theorem samePlaces_of_suffix {places : List Nat} {occurs : Nat → Prop} (h : past <:+ past')
    (hplaces : ∀ i ∈ places, i < past.length) :
    SamePlaces bits bits' places past' occurs ↔ SamePlaces bits bits' places past occurs := by
  refine forall_congr' fun v => forall_congr' fun i => imp_congr_right fun _ => ?_
  refine ⟨fun hsame hi => ?_, fun hsame hi => ?_⟩
  · exact (sameAt_of_suffix h (hplaces i (List.mem_of_getElem? hi))).mp (hsame hi)
  · exact (sameAt_of_suffix h (hplaces i (List.mem_of_getElem? hi))).mpr (hsame hi)

theorem samePlaces_or {places : List Nat} {occurs occurs' : Nat → Prop} :
    SamePlaces bits bits' places past (fun v => occurs v ∨ occurs' v) ↔
      SamePlaces bits bits' places past occurs ∧ SamePlaces bits bits' places past occurs' := by
  constructor
  · intro h
    exact ⟨fun v i hv => h v i (.inl hv), fun v i hv => h v i (.inr hv)⟩
  · rintro ⟨h, h'⟩ v i (hv | hv)
    · exact h v i hv
    · exact h' v i hv

mutual

/-- The gates of an expression tell the scope the values of its variables, and nothing else. -/
theorem tells_expr {places : List Nat} :
    ∀ {e : Expr} {b : Builder} {position : Nat} {b' : Builder},
      (∀ i ∈ places, i < b.past.length) → emitExpr places scope b e = .ok (position, b') →
      Tells party bits bits' scope b
        (scope.knows party = true → SamePlaces bits bits' places b.past e.Occurs) position b'
  | .constant _, _, _, _, _, h => (tells_constant h).congr
      ⟨fun _ _ _ _ hoccurs => hoccurs.elim, fun _ => trivial⟩
  | .variable v, b, position, b', _, h => by
    simp only [emitExpr] at h
    split at h
    · next i hi =>
      refine (tells_identity h).congr (imp_congr_right fun _ => ?_)
      constructor
      · rintro hsame w j rfl hj
        rwa [← Option.some.inj (hi.symm.trans hj)]
      · intro hsame
        exact hsame v i rfl hi
    · cases h
  | .sum terms, b, position, b', hplaces, h => by
    obtain ⟨⟨positions, c⟩, hexprs, hchain⟩ := bind_eq_ok.mp h
    obtain ⟨hsuffix, hknown, halike⟩ := tells_exprs hplaces hexprs
    have hlast : Tells party bits bits' scope c True position b' := tells_chain rfl hknown hchain
    exact ⟨hsuffix.trans hlast.suffix, hlast.last, hlast.known, by rw [hlast.alike, and_true, halike]; rfl⟩
  | .product factors, b, position, b', hplaces, h => by
    obtain ⟨⟨positions, c⟩, hexprs, hchain⟩ := bind_eq_ok.mp h
    obtain ⟨hsuffix, hknown, halike⟩ := tells_exprs hplaces hexprs
    have hlast : Tells party bits bits' scope c True position b' := tells_chain rfl hknown hchain
    exact ⟨hsuffix.trans hlast.suffix, hlast.last, hlast.known, by rw [hlast.alike, and_true, halike]; rfl⟩

theorem tells_exprs {places : List Nat} :
    ∀ {es : List Expr} {b : Builder} {positions : List Nat} {b' : Builder},
      (∀ i ∈ places, i < b.past.length) → emitExprs places scope b es = .ok (positions, b') →
      b.past <:+ b'.past ∧ (∀ i ∈ positions, KnownTo scope b'.past i) ∧
        (RunsAlike party bits bits' b'.past ↔ RunsAlike party bits bits' b.past ∧
          (scope.knows party = true →
            SamePlaces bits bits' places b.past fun v => Expr.OccursAny v es))
  | [], b, positions, b', _, h => by
    cases h
    refine ⟨List.suffix_rfl, by simp, ⟨fun h => ⟨h, ?_⟩, And.left⟩⟩
    intro _ v i hoccurs
    exact hoccurs.elim
  | e :: es, b, positions, b', hplaces, h => by
    obtain ⟨⟨position, c⟩, hexpr, h⟩ := bind_eq_ok.mp h
    obtain ⟨⟨rest, c'⟩, hexprs, h⟩ := bind_eq_ok.mp h
    cases h
    have hfirst : Tells party bits bits' scope b _ position c := tells_expr hplaces hexpr
    obtain ⟨hsuffix, hknown, halike⟩ := tells_exprs
      (fun i hi => Nat.lt_of_lt_of_le (hplaces i hi) hfirst.suffix.length_le) hexprs
    refine ⟨hfirst.suffix.trans hsuffix, fun i hi => ?_, ?_⟩
    · rcases List.mem_cons.mp hi with rfl | hi
      · exact hfirst.known.mono hsuffix
      · exact hknown i hi
    · rw [halike, hfirst.alike, samePlaces_of_suffix hfirst.suffix hplaces, and_assoc, ← imp_and,
        ← samePlaces_or]
      rfl

end

/-- The places of the variables so far are places of gates. -/
def InPlace (state : LoweringState) : Prop :=
  ∀ i ∈ state.variables, i < state.builder.past.length

/-- The gates of all definitions tell each scope the values of the variables of its definitions. -/
theorem tells_definitions {options : LoweringOptions} {definitions : List Expr}
    {state state' : LoweringState} (hplaces : InPlace state)
    (hbelow : ∀ i d, definitions[i]? = some d → Expr.Below (state.variables.length + i) d)
    (h : definitions.foldlM (emitDefinition options) state = .ok state') :
    state.builder.past <:+ state'.builder.past ∧ state.variables <+: state'.variables ∧
      InPlace state' ∧
      (RunsAlike party bits bits' state'.builder.past ↔
        RunsAlike party bits bits' state.builder.past ∧
        ∀ i d, definitions[i]? = some d →
          (options.scope (state.variables.length + i)).knows party = true →
          SamePlaces bits bits' state'.variables state'.builder.past d.Occurs) := by
  induction definitions generalizing state with
  | nil =>
    cases h
    exact ⟨List.suffix_rfl, List.prefix_rfl, hplaces, ⟨fun h => ⟨h, by simp⟩, And.left⟩⟩
  | cons d definitions ih =>
    rw [List.foldlM_cons] at h
    obtain ⟨next, hnext, h⟩ := bind_eq_ok.mp h
    obtain ⟨⟨position, b⟩, hexpr, hstate⟩ := bind_eq_ok.mp hnext
    cases hstate
    have hfirst : Tells party bits bits' (options.scope state.variables.length) state.builder _ position b :=
      tells_expr hplaces hexpr
    have hlast := hfirst.last
    have hlength : (state.variables ++ [position]).length = state.variables.length + 1 := by simp
    have hinPlace : InPlace ⟨b, state.variables ++ [position]⟩ := by
      intro i hi
      rcases List.mem_append.mp hi with hi | hi
      · exact Nat.lt_of_lt_of_le (hplaces i hi) hfirst.suffix.length_le
      · rw [List.mem_singleton.mp hi, ← hlast]
        exact Nat.lt_succ_self position
    obtain ⟨hsuffix, hfront, hinPlace', halike⟩ := ih hinPlace (fun i e he => by
      rw [hlength, Nat.add_assoc, Nat.add_comm 1 i]
      exact hbelow (i + 1) e he) h
    have hsuffix' := hfirst.suffix.trans hsuffix
    have hfront' : state.variables <+: state'.variables := (List.prefix_append _ _).trans hfront
    refine ⟨hsuffix', hfront', hinPlace', ?_⟩
    -- the variables of the definition stand where they stood when it was emitted
    have hsame : SamePlaces bits bits' state'.variables state'.builder.past d.Occurs ↔
        SamePlaces bits bits' state.variables state.builder.past d.Occurs := by
      rw [← samePlaces_of_suffix hsuffix' hplaces]
      refine forall_congr' fun v => forall_congr' fun i => imp_congr_right fun hoccurs => ?_
      have hv : v < state.variables.length := Expr.below_iff_occurs.mp (hbelow 0 d rfl) v hoccurs
      obtain ⟨rest, hrest⟩ := hfront'
      rw [← hrest, List.getElem?_append_left hv]
    rw [halike, hfirst.alike, ← hsame, and_assoc]
    refine and_congr_right fun _ => ?_
    constructor
    · rintro ⟨hd, hrest⟩ i e he hknows
      cases i with
      | zero =>
        obtain rfl : d = e := by simpa using he
        exact hd hknows
      | succ i =>
        refine hrest i e he ?_
        rwa [hlength, Nat.add_assoc, Nat.add_comm 1 i]
    · intro hall
      refine ⟨fun hknows => hall 0 d rfl hknows, fun i e he hknows => hall (i + 1) e he ?_⟩
      rwa [hlength, Nat.add_assoc, Nat.add_comm 1 i] at hknows

end Lowering

namespace ParitySystem

variable {s : ParitySystem} {options : LoweringOptions} {definitions : List Expr} {l : Lowering}

/-- The variables that a program of the system discloses to a party: those that it is to learn, and those in
the definitions of these. -/
def Disclosed (s : ParitySystem) (options : LoweringOptions) (definitions : List Expr) (party : Party)
    (v : Nat) : Prop :=
  v < s.length ∧ (options.scope v).knows party = true ∨
    ∃ i d, definitions[i]? = some d ∧ (options.scope (s.inputs + i)).knows party = true ∧ d.Occurs v

/-- Lowering emits the inputs and then the definitions. -/
theorem run_of_lower (h : s.definitions = .ok definitions) (hl : s.lower options = .ok l) :
    ∃ state, definitions.foldlM (Lowering.emitDefinition options)
        ⟨⟨Lowering.inputHistory options s.inputs, []⟩, List.range s.inputs⟩ = .ok state ∧
      l.program.gates.reverse = state.builder.past ∧ l.variables = state.variables := by
  rw [lower, h] at hl
  obtain ⟨inputs, hinputs, hl⟩ := bind_eq_ok.mp hl
  rw [Lowering.emitInputs_eq] at hinputs
  cases hinputs
  obtain ⟨state, hstate, hl⟩ := bind_eq_ok.mp hl
  dsimp only at hl
  split at hl
  · next program hbuild =>
    obtain ⟨-, rfl⟩ := Builder.build_eq_ok_iff.mp hbuild
    cases hl
    exact ⟨state, hstate, List.reverse_reverse _, rfl⟩
  · cases hl

section runs

variable {bits bits' a a' : List Bool} (ha : Locates (l.program.values bits) l.variables a)
  (ha' : Locates (l.program.values bits') l.variables a')
include ha ha'

/-- The gate of a variable is the same exactly if the variable is. -/
theorem sameAt_place_iff {v i : Nat} (hi : l.variables[v]? = some i) :
    SameAt bits bits' l.program.gates.reverse i ↔ a[v]? = a'[v]? := by
  rw [← ha.getElem?_eq hi, ← ha'.getElem?_eq hi, Program.values_eq_along, Program.values_eq_along]
  rfl

/-- What a party sees is the same exactly if all variables disclosed to it are the same. -/
theorem runsAlike_iff_disclosed (h : s.definitions = .ok definitions) (hl : s.lower options = .ok l)
    (hlowered : Lowered s options l) :
    RunsAlike party bits bits' l.program.gates.reverse ↔
      ∀ v, s.Disclosed options definitions party v → a[v]? = a'[v]? := by
  obtain ⟨hcount, hbelow⟩ := definitions_below h
  obtain ⟨state, hrun, hgates, hvariables⟩ := run_of_lower h hl
  have hplaces : Lowering.InPlace
      ⟨⟨Lowering.inputHistory options s.inputs, []⟩, List.range s.inputs⟩ := by
    intro i hi
    simpa using hi
  obtain ⟨hsuffix, -, -, halike⟩ := @Lowering.tells_definitions party bits bits' options definitions
    _ state hplaces (by simpa using hbelow) hrun
  rw [← hgates, ← hvariables, List.length_range] at halike
  rw [← hgates] at hsuffix
  constructor
  · intro hsame v hdisclosed
    rcases hdisclosed with ⟨hlt, hknows⟩ | ⟨i, d, hd, hknows, hoccurs⟩
    · -- the gate of the variable is known to the party
      obtain ⟨place, g, hplace, hg, hscope⟩ : ∃ place g, l.variables[v]? = some place ∧
          l.program.gates.reverse.reverse[place]? = some g ∧
          g.scope.contains (options.scope v) = true := by
        by_cases hv : v < s.inputs
        · refine ⟨v, Lowering.inputGate options v, hlowered.getElem?_variables hv, ?_,
            Scope.contains_iff.mpr fun _ hknown => hknown⟩
          rw [List.reverse_reverse, hlowered.getElem?_gates hv]
        · exact hlowered.reaches v (Nat.not_lt.mp hv) hlt
      exact (sameAt_place_iff ha ha' hplace).mp
        (runsAlike_iff.mp hsame place g hg (Scope.contains_iff.mp hscope party hknows))
    · have hv : v < l.variables.length := by
        have hlt := Expr.below_iff_occurs.mp (hbelow i d hd) v hoccurs
        obtain ⟨hi, -⟩ := List.getElem?_eq_some_iff.mp hd
        rw [hlowered.length, length]
        omega
      have hplace : l.variables[v]? = some l.variables[v] := List.getElem?_eq_getElem hv
      exact (sameAt_place_iff ha ha' hplace).mp ((halike.mp hsame).2 i d hd hknows v _ hoccurs hplace)
  · intro hall
    refine halike.mpr ⟨runsAlike_iff.mpr fun v g hg hknows => ?_, fun i d hd hknows v place hoccurs hplace =>
      (sameAt_place_iff ha ha' hplace).mpr (hall v (.inr ⟨i, d, hd, hknows, hoccurs⟩))⟩
    obtain ⟨hv, -⟩ := List.getElem?_eq_some_iff.mp hg
    have hlt : v < s.inputs := by simpa using hv
    obtain rfl : Lowering.inputGate options v = g := by
      simpa [Lowering.inputHistory, hlt] using hg
    have hrequested : s.Disclosed options definitions party v := by
      refine .inl ⟨?_, hknows⟩
      rw [length]
      omega
    refine (sameAt_of_suffix hsuffix (by simpa using hlt)).mp ?_
    exact (sameAt_place_iff ha ha' (hlowered.getElem?_variables hlt)).mpr (hall v hrequested)

end runs

/-- What a party sees of a lowered program is the same on two lists of inputs exactly if all variables
disclosed to it have the same values: those that it is to learn, and those in their definitions. It sees no
more after simplification. -/
theorem lower_discloses (h : s.definitions = .ok definitions) (options : LoweringOptions) :
    ∃ l q, s.lower options = .ok l ∧ l.program.simplify = .ok q ∧
      ∀ bits bits', bits.length = s.inputs → bits'.length = s.inputs →
        ∃ a a', s.solve bits = .ok a ∧ s.solve bits' = .ok a' ∧
          ∀ party,
            (l.program.SeesSame party bits bits' ↔
              ∀ v, s.Disclosed options definitions party v → a[v]? = a'[v]?) ∧
            ((∀ v, s.Disclosed options definitions party v → a[v]? = a'[v]?) →
              l.program.simplifyGates.SeesSame party bits bits' ∧
                q.SeesSame party (keep l.program.survivors bits) (keep l.program.survivors bits')) := by
  obtain ⟨l, hl, hlowered⟩ := exists_lowered h options
  have hp := hlowered.wellFormed
  refine ⟨l, l.program.simplifyGates.live, hl, hp.simplify_eq, fun bits bits' hbits hbits' => ?_⟩
  obtain ⟨a, hsolve, ha⟩ := hlowered.solves bits hbits
  obtain ⟨a', hsolve', ha'⟩ := hlowered.solves bits' hbits'
  refine ⟨a, a', hsolve, hsolve', fun party => ?_⟩
  have hsees : l.program.SeesSame party bits bits' ↔
      ∀ v, s.Disclosed options definitions party v → a[v]? = a'[v]? := by
    rw [← runsAlike_iff_disclosed ha ha' h hl hlowered]
    exact Program.seesSame_iff_runsAlike (by rw [hbits, hlowered.sourceCount])
      (by rw [hbits', hlowered.sourceCount])
  refine ⟨hsees, fun hsame => ?_⟩
  have hrewritten := hp.seesSame_simplifyGates (hsees.mpr hsame)
  exact ⟨hrewritten, hp.simplifyGates.seesSame_live hrewritten⟩

theorem lower_discloses_disjunction :
    ∃ (definitions : List Expr) (l : Lowering) (q : Program) (a a' : List Bool),
      disjunction.definitions = .ok definitions ∧
      disjunction.lower ⟨fun v => if v = 1 then .evaluatorOnly else .neither, fun _ => false⟩ = .ok l ∧
      l.program.simplify = .ok q ∧ disjunction.solve [false, true] = .ok a ∧
      disjunction.solve [true, true] = .ok a' ∧
      l.program.SeesSame .evaluator [false, true] [true, true] ∧
      q.SeesSame .evaluator (keep l.program.survivors [false, true])
        (keep l.program.survivors [true, true]) := by
  obtain ⟨definitions, hdefinitions⟩ : ∃ definitions, disjunction.definitions = .ok definitions :=
    ⟨_, rfl⟩
  obtain ⟨l, q, hl, hq, hruns⟩ := lower_discloses hdefinitions
    ⟨fun v => if v = 1 then .evaluatorOnly else .neither, fun _ => false⟩
  obtain ⟨a, a', hsolve, hsolve', hparties⟩ := hruns [false, true] [true, true] rfl rfl
  obtain ⟨hsees, hsimple⟩ := hparties .evaluator
  obtain rfl : a = [false, true, true] := Except.ok.inj (hsolve.symm.trans rfl)
  obtain rfl : a' = [true, true, true] := Except.ok.inj (hsolve'.symm.trans rfl)
  have hsame : ∀ v, disjunction.Disclosed ⟨fun v => if v = 1 then .evaluatorOnly else .neither,
      fun _ => false⟩ definitions .evaluator v →
        [false, true, true][v]? = [true, true, true][v]? := by
    -- only the second input is asked for, and it has no definition
    have hone : ∀ w, ((if w = 1 then .evaluatorOnly else .neither : Scope)).knows .evaluator = true →
        w = 1 := by
      intro w hw
      by_cases h : w = 1
      · exact h
      · rw [if_neg h] at hw
        cases hw
    rintro v (⟨-, hknows⟩ | ⟨i, d, -, hknows, -⟩)
    · rw [hone v hknows]
      rfl
    · have hi := hone _ hknows
      have htwo : disjunction.inputs = 2 := rfl
      omega
  exact ⟨definitions, l, q, _, _, hdefinitions, hl, hq, hsolve, hsolve', hsees.mpr hsame,
    (hsimple hsame).2⟩

/-- The scopes asked for do not bound what is disclosed: if the evaluator is to learn a conjunction only, it
learns both operands as well, with and without simplification. -/
theorem asked_scopes_exceeded :
    ∃ (options : LoweringOptions) (l : Lowering) (q : Program) (a a' : List Bool),
      conjunction.lower options = .ok l ∧ l.program.simplify = .ok q ∧
      conjunction.solve [false, false] = .ok a ∧ conjunction.solve [true, false] = .ok a' ∧
      (∀ v, v < conjunction.length → (options.scope v).knows .evaluator = true → a[v]? = a'[v]?) ∧
      ¬ l.program.SeesSame .evaluator [false, false] [true, false] ∧
      ¬ q.SeesSame .evaluator (keep l.program.survivors [false, false])
        (keep l.program.survivors [true, false]) := by
  refine ⟨⟨fun v => if v = 2 then .evaluatorOnly else .neither, fun _ => false⟩, _, _, _, _, rfl, rfl,
    rfl, rfl, ?_, ?_, ?_⟩
  · intro v hv hknows
    match v, hv with
    | 0, _ | 1, _ => cases hknows
    | 2, _ => rfl
  · intro hsame
    have hoperand := (Program.seesSame_iff.mp hsame).2 3 rfl
    revert hoperand
    decide
  · intro hsame
    have hoperand := (Program.seesSame_iff.mp hsame).2 2 rfl
    revert hoperand
    decide

end ParitySystem

end HalfGates
