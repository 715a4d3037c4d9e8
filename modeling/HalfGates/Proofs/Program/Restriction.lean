import Mathlib.Data.List.Forall2
import HalfGates.Proofs.Program.Liveness
import HalfGates.Proofs.Program.Settled

/-!
# Marked gates among themselves

If a mask marks whatever a marked gate reads, rewriting the marked gates looks at no other gates, so it makes
no difference whether the others are dropped before or after. Neither does it make a difference for the live
gates, as long as all that is needed is marked.

## Main definitions

- `Liveness.back?_kept`: where a marked gate ends up
- `Liveness.rewritten_kept`: rewriting the marked gates
- `Liveness.mask_kept`, `Liveness.kept_kept`: the live ones of the marked gates
-/

namespace HalfGates

namespace Liveness

/-- What a marked gate reads is marked. -/
theorem Closed.marked {gates : List Gate} {mask : List Bool} (h : Closed gates mask) {d : Nat} {g : Gate}
    (hg : back? gates d = some g) (hd : back? mask d = some true) :
    ∀ e ∈ g.op.operands, back? mask (d + e) = some true := by
  have hdrop : ∀ e ∈ g.op.operands, back? (mask.drop d) e = some true := by
    induction gates generalizing mask d with
    | nil => cases d <;> simp at hg
    | cons newest older ih =>
      match mask, h with
      | alive :: past, h =>
        match d with
        | 0 => simp at hg
        | 1 =>
          obtain rfl : newest = g := by simpa using hg
          obtain rfl : alive = true := by simpa using hd
          exact h.1 rfl
        | d + 2 =>
          rw [back?_cons newest older (Nat.succ_pos d)] at hg
          rw [back?_cons alive past (Nat.succ_pos d)] at hd
          exact ih h.2 hg hd
  intro e he
  rw [← back?_drop mask d (bounds_of_back? (hdrop e he)).1]
  exact hdrop e he

theorem liveBack_add (mask : List Bool) (d e : Nat) :
    liveBack mask (d + e) = liveBack mask d + liveBack (mask.drop d) e := by
  rw [liveBack, List.take_add, List.count_append]
  rfl

/-- Different marked entries stay apart. -/
theorem liveBack_inj {mask : List Bool} {d e : Nat} (hd : back? mask d = some true)
    (he : back? mask e = some true) : liveBack mask d = liveBack mask e ↔ d = e := by
  constructor
  · intro h
    -- in a list that numbers the entries, the same number is found
    have hnumber : ∀ k, back? mask k = some true → back? (List.range mask.length) k = some (k - 1) := by
      intro k hk
      obtain ⟨hpos, hle⟩ := bounds_of_back? hk
      obtain ⟨k, rfl⟩ := Nat.exists_eq_succ_of_ne_zero (Nat.ne_of_gt hpos)
      exact List.getElem?_range hle
    have hsame : some (d - 1) = some (e - 1) := by
      rw [← hnumber d hd, ← hnumber e he, ← back?_keep hd, h, back?_keep he]
    have hposd := (bounds_of_back? hd).1
    have hpose := (bounds_of_back? he).1
    have hpred := Option.some.inj hsame
    omega
  · intro h
    rw [h]

/-- Where a marked gate ends up, it stands with its offsets closed up. -/
theorem back?_kept {gates : List Gate} {mask : List Bool} {d : Nat} (h : back? mask d = some true) :
    back? (kept gates mask) (liveBack mask d) = (back? gates d).map (close (mask.drop d)) := by
  induction gates generalizing mask d with
  | nil => cases mask <;> cases d <;> cases liveBack _ _ <;> simp [kept]
  | cons g older ih =>
    cases mask with
    | nil => cases d <;> simp at h
    | cons alive past =>
      obtain _ | _ | d := d
      · simp at h
      · obtain rfl : alive = true := by simpa using h
        rfl
      · rw [back?_cons alive past (Nat.succ_pos d)] at h
        have hself : back? (keep past past) (liveBack past (d + 1)) = some true := by
          rw [back?_keep h, h]
        rw [back?_cons g older (Nat.succ_pos d), List.drop_succ_cons, ← ih h]
        cases alive with
        | false => simp [kept, liveBack]
        | true =>
          have hcount : liveBack (true :: past) (d + 2) = liveBack past (d + 1) + 1 := by
            simp [liveBack]
          rw [hcount, kept, back?_cons _ _ (bounds_of_back? hself).1]

end Liveness

/-! ### Rewriting marked gates -/

namespace Rewriting

theorem absorb_map (f : Nat → Nat) (op : Operation Source) :
    absorb (op.map fun x => ⟨f x.offset, x.negated⟩) = (absorb op).map f := by
  cases op <;> rfl

/-- Operands that are the same stay the same, and different ones stay different. -/
theorem merge_map {f : Nat → Nat} {op : Operation Nat}
    (h : ∀ x ∈ op.operands, ∀ y ∈ op.operands, f x = f y ↔ x = y) :
    merge (op.map f) = (merge op).map f := by
  cases op with
  | linear n x y =>
    have hxy := h x (by simp [Operation.operands]) y (by simp [Operation.operands])
    by_cases heq : x = y <;> simp [merge, Operation.map, hxy, heq]
  | conjunction p q n x y =>
    have hxy := h x (by simp [Operation.operands]) y (by simp [Operation.operands])
    by_cases heq : x = y <;> by_cases hpq : p = q <;> simp [merge, Operation.map, hxy, heq, hpq]
  | _ => rfl

theorem foldUnary_map {past past' : List Gate} {f : Nat → Nat} (n : Bool) {x : Nat}
    (h : constantBack past' (f x) = constantBack past x) :
    foldUnary past' n (f x) = (foldUnary past n x).map f := by
  unfold foldUnary
  rw [h]
  cases constantBack past x <;> rfl

theorem foldConstants_map {past past' : List Gate} {f : Nat → Nat} {op : Operation Nat}
    (h : ∀ d ∈ op.operands, constantBack past' (f d) = constantBack past d) :
    foldConstants past' (op.map f) = (foldConstants past op).map f := by
  cases op with
  | unary n x => exact foldUnary_map n (h x (by simp [Operation.operands]))
  | linear n x y =>
    have hx := h x (by simp [Operation.operands])
    have hy := h y (by simp [Operation.operands])
    simp only [Operation.map, foldConstants, hx, hy]
    cases constantBack past x with
    | some v => exact foldUnary_map _ hy
    | none => cases constantBack past y <;> rfl
  | conjunction p q n x y =>
    have hx := h x (by simp [Operation.operands])
    have hy := h y (by simp [Operation.operands])
    simp only [Operation.map, foldConstants, hx, hy]
    cases constantBack past x with
    | some v =>
      by_cases hv : v = p
      · simp only [if_pos hv]
      · simp only [if_neg hv]
        exact foldUnary_map _ hy
    | none =>
      cases constantBack past y with
      | some v => by_cases hv : v = q <;> simp only [hv, if_true, if_false]
      | none => rfl
  | _ => rfl

end Rewriting

namespace Liveness

section

variable {gates : List Gate} {mask : List Bool} (hclosed : Closed gates mask)
include hclosed

/-- A marked operand slides to a marked one. -/
theorem marked_slide {d : Nat} (hd : back? mask d = some true) :
    back? mask (Rewriting.slide gates d).offset = some true := by
  rcases Rewriting.slide_cases gates d with hself | ⟨n, e, scope, hback, hthrough⟩
  · rwa [hself]
  · rw [hthrough]
    exact hclosed.marked hback hd e (List.mem_singleton_self e)

/-- Among the marked gates, a marked operand slides to where it slides among all gates. -/
theorem slide_kept {d : Nat} (hd : back? mask d = some true) :
    Rewriting.slide (kept gates mask) (liveBack mask d) =
      ⟨liveBack mask (Rewriting.slide gates d).offset, (Rewriting.slide gates d).negated⟩ := by
  unfold Rewriting.slide
  rw [back?_kept hd]
  cases hback : back? gates d with
  | none => rfl
  | some g =>
    obtain ⟨op, scope⟩ := g
    cases op with
    | unary n e =>
      have he : back? mask (d + e) = some true :=
        hclosed.marked hback hd e (List.mem_singleton_self e)
      simp only [Option.map_some, close, Operation.map]
      rw [← liveBack_add, scopeBack_kept he]
      split <;> rfl
    | _ => rfl

omit hclosed in
theorem constantBack_kept {d : Nat} (hd : back? mask d = some true) :
    Rewriting.constantBack (kept gates mask) (liveBack mask d) = Rewriting.constantBack gates d := by
  unfold Rewriting.constantBack
  rw [back?_kept hd]
  cases back? gates d with
  | none => rfl
  | some g =>
    obtain ⟨op, scope⟩ := g
    cases op <;> rfl

theorem marked_rewriteOp {op : Operation Nat} (hop : ∀ d ∈ op.operands, back? mask d = some true) :
    ∀ d ∈ (Rewriting.rewriteOp gates op).operands, back? mask d = some true :=
  Rewriting.operands_rewriteOp fun d hd => marked_slide hclosed (hop d hd)

/-- The rewritten operation on marked operands, closed up, is what rewriting makes of the operation
closed up. -/
theorem rewriteOp_kept {op : Operation Nat} (hop : ∀ d ∈ op.operands, back? mask d = some true) :
    Rewriting.rewriteOp (kept gates mask) (op.map (liveBack mask)) =
      (Rewriting.rewriteOp gates op).map (liveBack mask) := by
  have hslide : (op.map (liveBack mask)).map (Rewriting.slide (kept gates mask)) =
      (op.map (Rewriting.slide gates)).map fun x => ⟨liveBack mask x.offset, x.negated⟩ := by
    rw [Operation.map_map, Operation.map_map]
    exact Operation.map_congr fun d hd => slide_kept hclosed (hop d hd)
  have habsorb : ∀ d ∈ (Rewriting.absorb (op.map (Rewriting.slide gates))).operands,
      back? mask d = some true := by
    intro d hd
    rw [Rewriting.operands_absorb, Operation.operands_map, List.map_map] at hd
    obtain ⟨e, he, rfl⟩ := List.mem_map.mp hd
    exact marked_slide hclosed (hop e he)
  rw [Rewriting.rewriteOp, hslide, Rewriting.absorb_map,
    Rewriting.merge_map fun x hx y hy => liveBack_inj (habsorb x hx) (habsorb y hy)]
  exact Rewriting.foldConstants_map fun d hd =>
    constantBack_kept (habsorb d (Rewriting.operands_merge d hd))

theorem rewrite_close {g : Gate} (hg : ∀ d ∈ g.op.operands, back? mask d = some true) :
    Rewriting.rewrite (kept gates mask) (close mask g) =
      close mask (Rewriting.rewrite gates g) := by
  have hfloor : Gate.floor (kept gates mask) ((Rewriting.rewriteOp gates g.op).map (liveBack mask)) =
      Gate.floor gates (Rewriting.rewriteOp gates g.op) :=
    @floor_close gates mask ⟨Rewriting.rewriteOp gates g.op, g.scope⟩ (marked_rewriteOp hclosed hg)
  simp only [Rewriting.rewrite, close, rewriteOp_kept hclosed hg, Gate.widened, hfloor]

end

/-- What a marked gate reads is still marked after rewriting. -/
theorem closed_rewritten {gates : List Gate} {mask : List Bool} (h : Closed gates mask) :
    Closed (Rewriting.rewritten gates) mask := by
  induction gates generalizing mask with
  | nil => exact h
  | cons g older ih =>
    match mask, h with
    | alive :: past, h =>
      have hrest := ih h.2
      exact ⟨fun halive => marked_rewriteOp hrest (h.1 halive), hrest⟩

/-- Rewriting the marked gates gives the marked ones of the rewritten gates. -/
theorem rewritten_kept {gates : List Gate} {mask : List Bool} (h : Closed gates mask) :
    Rewriting.rewritten (kept gates mask) = kept (Rewriting.rewritten gates) mask := by
  induction gates generalizing mask with
  | nil =>
    match mask, h with
    | [], _ => rfl
  | cons g older ih =>
    match mask, h with
    | alive :: past, h =>
      have hrest := ih h.2
      cases alive with
      | false => exact hrest
      | true =>
        have hrewrite := rewrite_close (closed_rewritten h.2) (h.1 rfl)
        simp only [kept, Rewriting.rewritten, hrest, hrewrite]

/-! ### Live ones among the marked gates -/

/-- The position of a past entry does not depend on the entries after it. -/
theorem position_cons (alive : Bool) {past : List Bool} {i : Nat} (h : i ≤ past.length) :
    position (alive :: past) i = position past i := by
  rw [position, position, List.reverse_cons, List.take_append_of_le_length (by simpa using h)]

theorem position_length (mask : List Bool) : position mask mask.length = mask.count true := by
  rw [position, ← List.length_reverse, List.take_length, List.count_reverse]

/-- A position counted from the oldest entry, and an offset counted from the newest. -/
theorem position_sub (mask : List Bool) (d : Nat) :
    position mask (mask.length - d) = mask.count true - liveBack mask d := by
  have hsplit : mask.count true = (mask.take d).count true + (mask.drop d).count true := by
    rw [← List.count_append, List.take_append_drop]
  rw [position, ← List.reverse_drop, List.count_reverse, hsplit, liveBack, Nat.add_sub_cancel_left]

/-- Different marked entries have different positions among the marked ones. -/
theorem position_inj {mask : List Bool} {i j : Nat} (hi : mask.reverse[i]? = some true)
    (hj : mask.reverse[j]? = some true) : position mask i = position mask j ↔ i = j := by
  have hi' : back? mask.reverse (i + 1) = some true := hi
  have hj' : back? mask.reverse (j + 1) = some true := hj
  have hcount : ∀ k, mask.reverse[k]? = some true →
      liveBack mask.reverse (k + 1) = position mask k + 1 := by
    intro k hk
    rw [liveBack, List.take_add_one, List.count_append, hk]
    rfl
  have hinj := liveBack_inj hi' hj'
  rw [hcount i hi, hcount j hj] at hinj
  omega

/-- The entry at an offset, found by its position. -/
theorem getElem?_reverse_of_back? {past : List Bool} {d : Nat} {alive : Bool}
    (h : back? past d = some alive) : past.reverse[past.length - d]? = some alive := by
  obtain ⟨hpos, hle⟩ := bounds_of_back? h
  rw [← back?_length_sub (by omega), Nat.sub_sub_self hle, h]

/-- A marked position is read exactly if it is read where it ends up. -/
theorem position_mem_reads {older : List Gate} {past : List Bool} {g : Gate}
    (hlen : past.length = older.length) (hg : ∀ d ∈ g.op.operands, back? past d = some true) {i : Nat}
    (hi : past.reverse[i]? = some true) :
    position past i ∈ reads (kept older past).length (close past g) ↔ i ∈ reads older.length g := by
  have hread : ∀ d ∈ g.op.operands,
      (past.count true - liveBack past d = position past i ↔ past.length - d = i) := by
    intro d hd
    rw [← position_sub]
    exact position_inj (getElem?_reverse_of_back? (hg d hd)) hi
  rw [reads, reads, length_kept hlen, close, Operation.operands_map, List.map_map, List.mem_map,
    List.mem_map, ← hlen]
  constructor
  · rintro ⟨d, hd, hposition⟩
    exact ⟨d, hd, (hread d hd).mp hposition⟩
  · rintro ⟨d, hd, hposition⟩
    exact ⟨d, hd, (hread d hd).mpr hposition⟩

/-- The needed positions of a history are marked. -/
def Marks (mask : List Bool) (needed : List Nat) : Prop :=
  ∀ i ∈ needed, i < mask.length → mask.reverse[i]? = some true

theorem Marks.of_cons {alive : Bool} {past : List Bool} {needed : List Nat}
    (h : Marks (alive :: past) needed) : Marks past needed := by
  intro i hi hlt
  have hmarked := h i hi (Nat.lt_succ_of_lt hlt)
  rwa [List.reverse_cons, List.getElem?_append_left (by simpa using hlt)] at hmarked

theorem Marks.newest {past : List Bool} {alive : Bool} {needed : List Nat}
    (h : Marks (alive :: past) needed) (hnewest : past.length ∈ needed) : alive = true := by
  have hmarked := h past.length hnewest (Nat.lt_succ_self _)
  simpa using hmarked

theorem marks_reads {older : List Gate} {past : List Bool} {g : Gate}
    (hlen : past.length = older.length) (hg : ∀ d ∈ g.op.operands, back? past d = some true) :
    Marks past (reads older.length g) := by
  intro i hi _
  obtain ⟨d, hd, rfl⟩ := List.mem_map.mp hi
  rw [← hlen]
  exact getElem?_reverse_of_back? (hg d hd)

theorem Marks.append {mask : List Bool} {needed needed' : List Nat} (h : Marks mask needed)
    (h' : Marks mask needed') : Marks mask (needed ++ needed') := by
  intro i hi hlt
  rcases List.mem_append.mp hi with hi | hi
  · exact h i hi hlt
  · exact h' i hi hlt

/-- What is live is marked, if what is needed is. -/
theorem mask_le {gates : List Gate} {marks : List Bool} {needed : List Nat}
    (hclosed : Closed gates marks) (hneeded : Marks marks needed) :
    List.Forall₂ (· ≤ ·) (mask needed gates) marks := by
  induction gates generalizing marks needed with
  | nil =>
    match marks, hclosed with
    | [], _ => exact .nil
  | cons g older ih =>
    match marks, hclosed with
    | alive :: past, hclosed =>
      have hlen := hclosed.2.length_eq
      unfold mask
      split
      · next hmem =>
        have halive : alive = true := hneeded.newest (by simpa [hlen] using hmem)
        have hreads : Marks past (reads older.length g) := marks_reads hlen (hclosed.1 halive)
        exact .cons (fun _ => halive) (ih hclosed.2 (hreads.append hneeded.of_cons))
      · exact .cons (Bool.false_le alive) (ih hclosed.2 hneeded.of_cons)

/-- Of the marked gates those are live that are live among all gates. The needed positions correspond:
a marked position is needed exactly if it is needed where it ends up. -/
theorem mask_kept {gates : List Gate} {marks : List Bool} {needed needed' : List Nat}
    (hclosed : Closed gates marks) (hneeded : Marks marks needed)
    (hiff : ∀ i, marks.reverse[i]? = some true → (position marks i ∈ needed' ↔ i ∈ needed)) :
    mask needed' (kept gates marks) = keep marks (mask needed gates) := by
  induction gates generalizing marks needed needed' with
  | nil =>
    match marks, hclosed with
    | [], _ => rfl
  | cons g older ih =>
    match marks, hclosed with
    | alive :: past, hclosed =>
      have hlen := hclosed.2.length_eq
      have hrest : ∀ i, past.reverse[i]? = some true → (position past i ∈ needed' ↔ i ∈ needed) := by
        intro i hi
        have hlt : i < past.length := by simpa using (List.getElem?_eq_some_iff.mp hi).1
        rw [← position_cons alive (Nat.le_of_lt hlt)]
        apply hiff
        rwa [List.reverse_cons, List.getElem?_append_left (by simpa using hlt)]
      cases alive with
      | false =>
        have hnot : ¬ needed.contains older.length = true := by
          intro hmem
          have htrue : false = true := hneeded.newest (by simpa [hlen] using hmem)
          cases htrue
        rw [mask, if_neg hnot]
        exact ih hclosed.2 hneeded.of_cons hrest
      | true =>
        have hsame : needed'.contains (kept older past).length = needed.contains older.length := by
          have hnewest := hiff past.length (by simp)
          rw [position_cons true (Nat.le_refl _), position_length, ← length_kept hlen, hlen] at hnewest
          rw [Bool.eq_iff_iff, List.contains_iff_mem, List.contains_iff_mem, hnewest]
        rw [kept, mask, mask, hsame]
        split
        · -- the operands of the gate are needed on both sides
          have hreads : Marks past (reads older.length g) := marks_reads hlen (hclosed.1 rfl)
          rw [keep_cons_true]
          refine congrArg (true :: ·) (ih hclosed.2 (hreads.append hneeded.of_cons) fun i hi => ?_)
          rw [List.mem_append, List.mem_append, position_mem_reads hlen (hclosed.1 rfl) hi, hrest i hi]
        · rw [keep_cons_true]
          exact congrArg (false :: ·) (ih hclosed.2 hneeded.of_cons hrest)

/-- A mask that marks less spans as many marks among the entries that the other keeps. -/
theorem liveBack_keep {marks mask : List Bool} (h : List.Forall₂ (· ≤ ·) mask marks) (d : Nat) :
    liveBack (keep marks mask) (liveBack marks d) = liveBack mask d := by
  induction h generalizing d with
  | nil => simp [liveBack]
  | @cons alive mark mask marks hle hrest ih =>
    cases d with
    | zero => rfl
    | succ d =>
      have hd := ih d
      simp only [liveBack] at hd
      cases mark with
      | true => cases alive <;> simp [liveBack, hd]
      | false =>
        obtain rfl : alive = false := Bool.eq_false_of_le_false hle
        simp [liveBack, hd]

theorem position_keep {marks mask : List Bool} (h : List.Forall₂ (· ≤ ·) mask marks) (i : Nat) :
    position (keep marks mask) (position marks i) = position mask i := by
  have hlen := h.length_eq.symm
  have hreverse := liveBack_keep (List.forall₂_reverse_iff.mpr h) i
  rw [← reverse_keep hlen] at hreverse
  exact hreverse

/-- Keeping the live ones of the marked gates is keeping the live gates. -/
theorem kept_kept {gates : List Gate} {marks mask : List Bool} (h : List.Forall₂ (· ≤ ·) mask marks) :
    kept (kept gates marks) (keep marks mask) = kept gates mask := by
  induction h generalizing gates with
  | nil => cases gates <;> rfl
  | @cons alive mark mask marks hle hrest ih =>
    cases gates with
    | nil => cases mark <;> cases alive <;> simp [kept]
    | cons g older =>
      cases mark with
      | false =>
        obtain rfl : alive = false := Bool.eq_false_of_le_false hle
        exact ih
      | true =>
        cases alive with
        | false => exact ih
        | true =>
          have hclose : close (keep marks mask) (close marks g) = close mask g := by
            simp only [close, Operation.map_map]
            rw [Operation.map_congr fun d _ => liveBack_keep hrest d]
          rw [kept, keep_cons_true, kept, kept, ih, hclose]

end Liveness

end HalfGates
