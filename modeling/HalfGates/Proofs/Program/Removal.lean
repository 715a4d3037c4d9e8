import HalfGates.Program.Liveness
import HalfGates.Proofs.Program.Liveness
import Mathlib.Data.Bool.Count

/-!
# The walk keeps the live gates

At every moment of the walk, the slots are not yet what they will be: the wires in the queue say which offsets
are still too long. Once every wire is followed to its start, and each offset is shortened by the number of
gates dropped by then, the last slots hold the live gates with their offsets closed up. The order in which
the wires are followed makes no difference.

## Main definitions

- `Liveness.Ordered`, `Liveness.enqueue_perm`: the queue
- `Liveness.follow`: the slots once the wires of a queue have been followed
- `Liveness.Walk.Ready`, `Liveness.Walk.Arrives`: a walk before and after the gates that it comes to
- `Liveness.Walk.arrives_down`: the walk keeps the live gates and drops the others
- `Program.WellFormed.removeUnused_eq`: removal succeeds and gives the live part
-/

namespace HalfGates

/-! ### Records -/

/-- Shifts add up, in whichever order they are made. -/
theorem GateRecord.shift_comm (r : GateRecord) (i j : Nat) (a b : Int) :
    (r.shift i a).shift j b = (r.shift j b).shift i a := by
  by_cases hij : i = j
  · subst hij
    have hadd : ((· + b) ∘ (· + a) : Int → Int) = (· + a) ∘ (· + b) := by
      funext x
      exact Int.add_right_comm x a b
    simp only [shift, List.modify_modify_eq, hadd]
  · simp only [shift, List.modify_modify_ne _ _ _ hij]

theorem Builder.addRecord_record {b : Builder} {g : Gate} (h : g.Fits b.past) :
    b.addRecord g.record = .ok { b with past := g :: b.past } := by
  have hpositive : g.record.offsets.find? (· ≤ 0) = none := by
    refine List.find?_eq_none.mpr fun offset hoffset => ?_
    obtain ⟨d, hd, rfl⟩ := List.mem_map.mp hoffset
    have hpos := (h.operands d hd).1
    simp only [Int.ofNat_eq_natCast, decide_eq_true_eq]
    omega
  have hoffsets : g.record.offsets.map Int.toNat = g.op.operands := by
    simp [Gate.record, Function.comp_def]
  rw [addRecord, hpositive]
  dsimp only
  rw [hoffsets]
  exact add_request h

/-- The records of gates that fit one behind the other are accepted in order. -/
theorem Builder.addRecords_records {b : Builder} {gates : List Gate}
    (h : Throughout Gate.Fits (gates ++ b.past)) :
    (gates.reverse.map Gate.record).foldlM addRecord b = .ok { b with past := gates ++ b.past } := by
  induction gates with
  | nil => rfl
  | cons g gates ih =>
    have hlast := addRecord_record (b := { b with past := gates ++ b.past }) h.1
    rw [List.reverse_cons, List.map_append, List.foldlM_append, ih h.2]
    show (addRecord _ g.record >>= pure) = _
    rw [hlast]
    rfl

namespace Liveness

/-! ### The queue -/

theorem Wire.start_le_of_isBefore {v w : Wire} (h : v.isBefore w = true) : w.start ≤ v.start := by
  unfold isBefore at h
  split at h
  · next hstart => exact Nat.le_of_eq hstart.symm
  · exact Nat.le_of_lt (of_decide_eq_true h)

theorem Wire.start_le_of_not_isBefore {v w : Wire} (h : ¬ v.isBefore w = true) : v.start ≤ w.start := by
  unfold isBefore at h
  split at h
  · next hstart => exact Nat.le_of_eq hstart
  · exact Nat.not_lt.mp fun hlt => h (decide_eq_true hlt)

theorem enqueue_perm (queue : List Wire) (w : Wire) : (enqueue queue w).Perm (w :: queue) := by
  induction queue with
  | nil => exact .refl _
  | cons v queue ih =>
    unfold enqueue
    split
    · exact (ih.cons v).trans (.swap w v queue)
    · exact .refl _

theorem foldl_enqueue_perm (ws queue : List Wire) : (ws.foldl enqueue queue).Perm (ws ++ queue) := by
  induction ws generalizing queue with
  | nil => exact .refl _
  | cons w ws ih =>
    exact (ih (enqueue queue w)).trans (((enqueue_perm queue w).append_left ws).trans List.perm_middle)

/-- No wire starts after one that is taken before it. -/
def Ordered (queue : List Wire) : Prop :=
  queue.Pairwise fun v w => w.start ≤ v.start

theorem Ordered.enqueue {queue : List Wire} (h : Ordered queue) (w : Wire) : Ordered (enqueue queue w) := by
  induction queue with
  | nil => exact List.pairwise_singleton _ w
  | cons v queue ih =>
    obtain ⟨hfirst, hrest⟩ := List.pairwise_cons.mp h
    unfold Liveness.enqueue
    split
    · next hbefore =>
      refine List.pairwise_cons.mpr ⟨fun u hu => ?_, ih hrest⟩
      rcases List.mem_cons.mp ((enqueue_perm queue w).mem_iff.mp hu) with rfl | hu
      · exact Wire.start_le_of_isBefore hbefore
      · exact hfirst u hu
    · next hbefore =>
      have hle := Wire.start_le_of_not_isBefore hbefore
      refine List.pairwise_cons.mpr ⟨fun u hu => ?_, h⟩
      rcases List.mem_cons.mp hu with rfl | hu
      · exact hle
      · exact Nat.le_trans (hfirst u hu) hle

theorem Ordered.foldl_enqueue {queue : List Wire} (h : Ordered queue) (ws : List Wire) :
    Ordered (ws.foldl Liveness.enqueue queue) := by
  induction ws generalizing queue with
  | nil => exact h
  | cons w ws ih => exact ih (h.enqueue w)

section last

variable {queue : List Wire} {i : Nat}

/-- The wires that start at the last position come first. -/
theorem Ordered.takeWhile_eq (h : Ordered queue) (hle : ∀ w ∈ queue, w.start ≤ i) :
    queue.takeWhile (·.start == i) = queue.filter (·.start == i) ∧
      queue.dropWhile (·.start == i) = queue.filter (·.start != i) := by
  induction queue with
  | nil => exact ⟨rfl, rfl⟩
  | cons w queue ih =>
    obtain ⟨hfirst, hrest⟩ := List.pairwise_cons.mp h
    by_cases hw : w.start = i
    · have hqueue := ih hrest fun v hv => hle v (List.mem_cons_of_mem w hv)
      simp [hw, hqueue]
    · have hlt : w.start < i := Nat.lt_of_le_of_ne (hle w List.mem_cons_self) hw
      have hne : ∀ v ∈ queue, v.start ≠ i := fun v hv =>
        Nat.ne_of_lt (Nat.lt_of_le_of_lt (hfirst v hv) hlt)
      have hnone : queue.filter (·.start == i) = [] := by simpa using hne
      have hall : queue.filter (·.start != i) = queue := by simpa using hne
      simp [hw, hnone, hall]

/-- The first wire starts at the last position if any wire does. -/
theorem Ordered.head?_any (h : Ordered queue) (hle : ∀ w ∈ queue, w.start ≤ i) :
    queue.head?.any (·.start == i) = (queue.map Wire.start).contains i := by
  cases queue with
  | nil => rfl
  | cons w queue =>
    obtain ⟨hfirst, -⟩ := List.pairwise_cons.mp h
    rw [Bool.eq_iff_iff, List.contains_iff_mem]
    simp only [List.head?_cons, Option.any_some, beq_iff_eq, List.map_cons, List.mem_cons]
    constructor
    · intro hw
      exact .inl hw.symm
    · rintro (hw | hmem)
      · exact hw.symm
      · obtain ⟨v, hv, rfl⟩ := List.mem_map.mp hmem
        exact Nat.le_antisymm (hle w List.mem_cons_self) (hfirst v hv)

end last

/-! ### Following wires -/

/-- The slots once the wires of a queue have been followed: the offset at the end of each is shortened by the
number of gates that are dropped by the time the walk comes to its start. -/
def follow (dropped : Nat → Nat) (queue : List Wire) (slots : List GateRecord) : List GateRecord :=
  queue.foldl (fun slots w => slots.modify w.slot (·.shift w.input (-(dropped w.start : Int)))) slots

section follow

variable {dropped dropped' : Nat → Nat} {queue queue' : List Wire} {slots : List GateRecord}

theorem follow_append (ws : List Wire) :
    follow dropped (ws ++ queue) slots = follow dropped queue (follow dropped ws slots) :=
  List.foldl_append

theorem follow_congr (h : ∀ w ∈ queue, dropped w.start = dropped' w.start) :
    follow dropped queue slots = follow dropped' queue slots :=
  List.foldl_ext _ _ _ fun slots w hw => by rw [h w hw]

/-- The order of the wires makes no difference. -/
theorem follow_perm (h : queue.Perm queue') : follow dropped queue slots = follow dropped queue' slots := by
  refine h.foldl_eq' (fun v _ w _ slots => ?_) slots
  by_cases hslot : v.slot = w.slot
  · rw [hslot, List.modify_modify_eq, List.modify_modify_eq]
    congr 1
    funext r
    exact r.shift_comm _ _ _ _
  · exact List.modify_modify_ne _ _ _ hslot

@[simp] theorem length_follow : (follow dropped queue slots).length = slots.length := by
  induction queue generalizing slots with
  | nil => rfl
  | cons w queue ih => rw [follow, List.foldl_cons, ← follow, ih, List.length_modify]

theorem getElem?_follow {n : Nat} (h : ∀ w ∈ queue, w.slot ≠ n) :
    (follow dropped queue slots)[n]? = slots[n]? := by
  induction queue generalizing slots with
  | nil => rfl
  | cons w queue ih =>
    have hw : w.slot ≠ n := h w List.mem_cons_self
    rw [follow, List.foldl_cons, ← follow, ih fun v hv => h v (List.mem_cons_of_mem w hv),
      List.getElem?_modify]
    simp [hw]

/-- Wires that end elsewhere are followed just as well before a slot is filled. -/
theorem follow_set {n : Nat} (h : ∀ w ∈ queue, w.slot ≠ n) (r : GateRecord) :
    follow dropped queue (slots.set n r) = (follow dropped queue slots).set n r := by
  induction queue generalizing slots with
  | nil => rfl
  | cons w queue ih =>
    have hw : n ≠ w.slot := (h w List.mem_cons_self).symm
    rw [follow, List.foldl_cons, List.set_eq_modify, List.modify_modify_ne _ _ _ hw,
      ← List.set_eq_modify, ← follow, ih fun v hv => h v (List.mem_cons_of_mem w hv)]
    rfl

/-- Wires that all end in one slot are followed in the gate that fills it. -/
theorem follow_slot {n : Nat} (h : ∀ w ∈ queue, w.slot = n) (r : GateRecord) :
    follow dropped queue (slots.set n r) =
      slots.set n (queue.foldl (fun r w => r.shift w.input (-(dropped w.start : Int))) r) := by
  induction queue generalizing r with
  | nil => rfl
  | cons w queue ih =>
    have hw : w.slot = n := h w List.mem_cons_self
    have hfirst : (slots.set n r).modify w.slot (·.shift w.input (-(dropped w.start : Int))) =
        slots.set n (r.shift w.input (-(dropped w.start : Int))) := by
      rw [hw, List.set_eq_modify, List.modify_modify_eq, List.set_eq_modify]
      rfl
    rw [follow, List.foldl_cons, hfirst, ← follow, ih fun v hv => h v (List.mem_cons_of_mem w hv),
      List.foldl_cons]

end follow

/-! ### The wires of a gate -/

theorem mem_wiresOf {i n : Nat} {g : Gate} {w : Wire} (h : w ∈ wiresOf i n g.record) :
    w.slot = n ∧ ∃ d ∈ g.op.operands, w.start = i - d := by
  obtain ⟨⟨offset, input⟩, hentry, rfl⟩ := List.mem_map.mp h
  obtain ⟨d, hd, rfl⟩ := List.mem_map.mp (List.fst_mem_of_mem_zipIdx hentry)
  exact ⟨rfl, d, hd, rfl⟩

theorem map_start_wiresOf (i n : Nat) (g : Gate) :
    (wiresOf i n g.record).map Wire.start = reads i g := by
  have hstart : (wiresOf i n g.record).map Wire.start =
      (g.record.offsets.zipIdx.map Prod.fst).map fun offset => i - offset.toNat := by
    rw [wiresOf, List.map_map, List.map_map]
    rfl
  rw [hstart, List.zipIdx_map_fst, Gate.record, List.map_map]
  rfl

/-- With its wires followed, a gate has its offsets closed up. -/
theorem follow_wiresOf {dropped : Nat → Nat} {i n removed : Nat} {past : List Bool} {g : Gate}
    (h : ∀ d ∈ g.op.operands, (d + removed - dropped (i - d) : Int) = liveBack past d) :
    (wiresOf i n g.record).foldl (fun r w => r.shift w.input (-(dropped w.start : Int)))
      (g.record.shiftAll removed) = (close past g).record := by
  obtain ⟨op, scope⟩ := g
  cases op with
  | unary _ x =>
    have hx := h x (by simp [Operation.operands])
    simp [wiresOf, Gate.record, GateRecord.shiftAll, GateRecord.shift, close, Gate.kind, Operation.map,
      Operation.kind, Operation.operands, ← hx, Int.sub_eq_add_neg]
  | linear _ x y =>
    have hx := h x (by simp [Operation.operands])
    have hy := h y (by simp [Operation.operands])
    simp [wiresOf, Gate.record, GateRecord.shiftAll, GateRecord.shift, close, Gate.kind, Operation.map,
      Operation.kind, Operation.operands, ← hx, ← hy, Int.sub_eq_add_neg]
  | conjunction _ _ _ x y =>
    have hx := h x (by simp [Operation.operands])
    have hy := h y (by simp [Operation.operands])
    simp [wiresOf, Gate.record, GateRecord.shiftAll, GateRecord.shift, close, Gate.kind, Operation.map,
      Operation.kind, Operation.operands, ← hx, ← hy, Int.sub_eq_add_neg]
  | _ => rfl

/-! ### The walk -/

/-- The number of gates dropped by the time the walk comes to position `k`, if `removed` gates were dropped
before and `past` says which of the gates ahead are live. -/
def droppedAt (removed : Nat) (past : List Bool) (k : Nat) : Nat :=
  removed + (past.take (past.length - k)).count false

theorem droppedAt_cons_true (removed : Nat) {past : List Bool} {k : Nat} (hk : k ≤ past.length) :
    droppedAt removed (true :: past) k = droppedAt removed past k := by
  rw [droppedAt, List.length_cons, Nat.succ_sub hk, List.take_succ_cons]
  simp [droppedAt]

theorem droppedAt_cons_false (removed : Nat) {past : List Bool} {k : Nat} (hk : k ≤ past.length) :
    droppedAt removed (false :: past) k = droppedAt (removed + 1) past k := by
  rw [droppedAt, List.length_cons, Nat.succ_sub hk, List.take_succ_cons]
  simp only [droppedAt, List.count_cons_self]
  omega

@[simp] theorem droppedAt_length (removed : Nat) (past : List Bool) :
    droppedAt removed past past.length = removed := by
  simp [droppedAt]

/-- The gates that an offset spans are live or dropped. -/
theorem liveBack_add_count {past : List Bool} {d : Nat} (hd : d ≤ past.length) :
    liveBack past d + (past.take d).count false = d := by
  rw [liveBack, List.count_true_add_count_false, List.length_take_of_le hd]

/-- Only needed positions within the history matter. -/
theorem mask_congr {gates : List Gate} {needed needed' : List Nat}
    (h : ∀ i < gates.length, i ∈ needed ↔ i ∈ needed') : mask needed gates = mask needed' gates := by
  induction gates generalizing needed needed' with
  | nil => rfl
  | cons g older ih =>
    have hnewest : needed.contains older.length = needed'.contains older.length := by
      rw [Bool.eq_iff_iff, List.contains_iff_mem, List.contains_iff_mem]
      exact h older.length (Nat.lt_succ_self _)
    have hrest : ∀ i < older.length, i ∈ needed ↔ i ∈ needed' := fun i hi => h i (Nat.lt_succ_of_lt hi)
    have hreads : mask (reads older.length g ++ needed) older =
        mask (reads older.length g ++ needed') older := by
      refine ih fun i hi => ?_
      rw [List.mem_append, List.mem_append, hrest i hi]
    rw [mask, mask, hnewest, hreads, ih hrest]

namespace Walk

variable {s f : Walk} {g : Gate} {older : List Gate}

/-- A walk that is about to come to the gates of `older`, the newest first: they are at their positions, and
the wires lead from gates behind them to one of them. -/
structure Ready (s : Walk) (older : List Gate) : Prop where
  slots : ∀ k < older.length, s.slots[k]? = older.reverse[k]?.map Gate.record
  bound : older.length + s.removed ≤ s.slots.length
  places : older.length ≤ s.places.length
  ordered : Ordered s.queue
  wires : ∀ w ∈ s.queue, w.start < older.length ∧ older.length + s.removed ≤ w.slot

/-- A walk that has been at the gates of `older`, of which those are live that `past` says: they are kept in
front of the gates kept before, the wires of which have been followed. -/
structure Arrives (s f : Walk) (older : List Gate) (past : List Bool) : Prop where
  removed : f.removed = s.removed + past.count false
  slots : f.slots.drop f.removed = (kept older past).reverse.map Gate.record ++
    (follow (droppedAt s.removed past) s.queue s.slots).drop (older.length + s.removed)
  live : ∀ k : Nat, past.reverse[k]? = some true → f.places[k]? = some (k + droppedAt s.removed past k)
  places : ∀ k, older.length ≤ k → f.places[k]? = s.places[k]?

/-- If no wire starts at the next gate, it is dropped. -/
theorem Ready.drop (h : s.Ready (g :: older)) (hnot : older.length ∉ s.queue.map Wire.start) :
    s.step older.length = { s with removed := s.removed + 1 } ∧
      Ready { s with removed := s.removed + 1 } older := by
  have hle : ∀ w ∈ s.queue, w.start ≤ older.length := fun w hw => Nat.le_of_lt_succ (h.wires w hw).1
  have hne : ∀ w ∈ s.queue, w.start ≠ older.length := fun w hw heq =>
    hnot (heq ▸ List.mem_map_of_mem hw)
  obtain ⟨htake, hdrop⟩ := h.ordered.takeWhile_eq hle
  have hnone : s.queue.filter (·.start == older.length) = [] := by simpa using hne
  have hall : s.queue.filter (·.start != older.length) = s.queue := by simpa using hne
  have hhead : s.queue.head?.any (·.start == older.length) = false := by
    rw [h.ordered.head?_any hle]
    simpa using hnot
  refine ⟨?_, ?_⟩
  · rw [step, visit, hhead, settle]
    simp only [Bool.false_eq_true, if_false, htake, hdrop, hnone, hall, List.foldl_nil]
  · have hbound := h.bound
    rw [List.length_cons] at hbound
    refine ⟨fun k hk => ?_, ?_, Nat.le_of_lt h.places, h.ordered, fun w hw => ?_⟩
    · rw [h.slots k (Nat.lt_succ_of_lt hk), List.reverse_cons,
        List.getElem?_append_left (by rwa [List.length_reverse])]
    · show older.length + (s.removed + 1) ≤ s.slots.length
      omega
    · obtain ⟨hstart, hslot⟩ := h.wires w hw
      rw [List.length_cons] at hslot
      refine ⟨Nat.lt_of_le_of_ne (hle w hw) (hne w hw), ?_⟩
      show older.length + (s.removed + 1) ≤ w.slot
      omega

/-- The queue once the wires of a kept gate are added. -/
def queueWith (s : Walk) (index : Nat) (g : Gate) : List Wire :=
  (wiresOf index (index + s.removed) g.record).foldl enqueue s.queue

theorem queueWith_perm (s : Walk) (index : Nat) (g : Gate) :
    (s.queueWith index g).Perm (wiresOf index (index + s.removed) g.record ++ s.queue) :=
  foldl_enqueue_perm _ _

theorem Ready.mem_queueWith (h : s.Ready (g :: older))
    (hoperands : ∀ d ∈ g.op.operands, 0 < d ∧ d ≤ older.length) {w : Wire}
    (hw : w ∈ s.queueWith older.length g) :
    w.start ≤ older.length ∧ older.length + s.removed ≤ w.slot ∧
      (w.start = older.length → older.length + s.removed < w.slot) := by
  rcases List.mem_append.mp ((s.queueWith_perm older.length g).mem_iff.mp hw) with hnew | hold
  · obtain ⟨hslot, d, hd, hstart⟩ := mem_wiresOf hnew
    obtain ⟨hpos, hle⟩ := hoperands d hd
    omega
  · obtain ⟨hstart, hslot⟩ := h.wires w hold
    rw [List.length_cons] at hstart hslot
    omega

/-- If a wire starts at the next gate, it is kept: it goes to its slot, its wires are added, and the wires
that start at it are followed. -/
theorem Ready.step_eq (h : s.Ready (g :: older)) (hmem : older.length ∈ s.queue.map Wire.start)
    (hoperands : ∀ d ∈ g.op.operands, 0 < d ∧ d ≤ older.length) :
    s.step older.length =
      ⟨follow (fun _ => s.removed) ((s.queueWith older.length g).filter (·.start == older.length))
        (s.slots.set (older.length + s.removed) (g.record.shiftAll s.removed)),
        s.places.set older.length (older.length + s.removed),
        (s.queueWith older.length g).filter (·.start != older.length), s.removed⟩ := by
  have hle : ∀ w ∈ s.queue, w.start ≤ older.length := fun w hw => Nat.le_of_lt_succ (h.wires w hw).1
  have hhead : s.queue.head?.any (·.start == older.length) = true := by
    rw [h.ordered.head?_any hle]
    simpa using hmem
  have hslot : s.slots[older.length]? = some g.record := by
    rw [h.slots older.length (Nat.lt_succ_self _)]
    simp
  have hordered : Ordered (s.queueWith older.length g) := h.ordered.foldl_enqueue _
  obtain ⟨htake, hdrop⟩ := hordered.takeWhile_eq fun w hw => (h.mem_queueWith hoperands hw).1
  rw [step, visit, if_pos hhead, hslot]
  show settle ⟨_, _, s.queueWith older.length g, s.removed⟩ older.length = _
  rw [settle]
  dsimp only
  rw [htake, hdrop]
  rfl

theorem Ready.keep (h : s.Ready (g :: older)) (hmem : older.length ∈ s.queue.map Wire.start)
    (hoperands : ∀ d ∈ g.op.operands, 0 < d ∧ d ≤ older.length) :
    (s.step older.length).Ready older := by
  have hbound := h.bound
  have hordered : Ordered (s.queueWith older.length g) := h.ordered.foldl_enqueue _
  rw [List.length_cons] at hbound
  rw [h.step_eq hmem hoperands]
  constructor
  · intro k hk
    -- a wire that is followed ends behind the gate
    have hfree : ∀ w ∈ (s.queueWith older.length g).filter (·.start == older.length), w.slot ≠ k := by
      intro w hw
      have hslot := (h.mem_queueWith hoperands (List.mem_filter.mp hw).1).2.1
      omega
    dsimp only
    rw [getElem?_follow hfree, List.getElem?_set_ne (by omega), h.slots k (Nat.lt_succ_of_lt hk),
      List.reverse_cons, List.getElem?_append_left (by rwa [List.length_reverse])]
  · simp only [length_follow, List.length_set]
    omega
  · have hplaces := h.places
    rw [List.length_cons] at hplaces
    simp only [List.length_set]
    omega
  · exact hordered.filter _
  · intro w hw
    obtain ⟨hqueue, hne⟩ := List.mem_filter.mp hw
    obtain ⟨hle, hslot, -⟩ := h.mem_queueWith hoperands hqueue
    exact ⟨Nat.lt_of_le_of_ne hle (by simpa using hne), hslot⟩

/-- Following the wires of a kept gate with all the others leaves the gate in its slot with its offsets closed
up, and the slots behind it as they would be without it. -/
theorem Ready.follow_keep (h : s.Ready (g :: older)) {past : List Bool} (hlength : past.length = older.length)
    (hlive : ∀ d ∈ g.op.operands, back? past d = some true) :
    follow (droppedAt s.removed past) (s.queueWith older.length g)
      (s.slots.set (older.length + s.removed) (g.record.shiftAll s.removed)) =
      (follow (droppedAt s.removed (true :: past)) s.queue s.slots).set (older.length + s.removed)
        (close past g).record := by
  have hslots : ∀ w ∈ s.queue, w.slot ≠ older.length + s.removed := by
    intro w hw
    have hslot := (h.wires w hw).2
    rw [List.length_cons] at hslot
    omega
  have hsame : ∀ w ∈ s.queue,
      droppedAt s.removed past w.start = droppedAt s.removed (true :: past) w.start := by
    intro w hw
    have hstart := Nat.le_of_lt_succ (h.wires w hw).1
    exact (droppedAt_cons_true s.removed (hlength ▸ hstart)).symm
  have hclosed : ∀ d ∈ g.op.operands,
      (d + s.removed - droppedAt s.removed past (older.length - d) : Int) = liveBack past d := by
    intro d hd
    have hle := (bounds_of_back? (hlive d hd)).2
    have hspan := liveBack_add_count hle
    rw [droppedAt, ← hlength, Nat.sub_sub_self hle]
    omega
  rw [follow_perm (s.queueWith_perm older.length g), follow_append,
    follow_slot fun w hw => (mem_wiresOf hw).1, follow_wiresOf hclosed, follow_set hslots, follow_congr hsame]

/-- What the walk does ahead of a gate that it drops is all that it does. -/
theorem Arrives.of_drop {past : List Bool} (h : Arrives { s with removed := s.removed + 1 } f older past)
    (hready : s.Ready (g :: older)) (hlength : past.length = older.length) :
    s.Arrives f (g :: older) (false :: past) := by
  have hfollow : follow (droppedAt (s.removed + 1) past) s.queue s.slots =
      follow (droppedAt s.removed (false :: past)) s.queue s.slots := by
    refine follow_congr fun w hw => ?_
    have hstart := Nat.le_of_lt_succ (hready.wires w hw).1
    exact (droppedAt_cons_false s.removed (hlength ▸ hstart)).symm
  constructor
  · rw [h.removed, List.count_cons_self]
    exact Nat.add_right_comm s.removed 1 _
  · have hslots := h.slots
    dsimp only at hslots
    rw [hslots, hfollow, List.length_cons, Nat.add_right_comm older.length 1 s.removed, Nat.add_assoc, kept]
  · intro k hk
    obtain hk | ⟨-, ⟨⟩⟩ := getElem?_reverse_cons_eq_some.mp hk
    have hlt : k < past.length := by simpa using (List.getElem?_eq_some_iff.mp hk).1
    rw [h.live k hk, droppedAt_cons_false s.removed (Nat.le_of_lt hlt)]
  · intro k hk
    exact h.places k (Nat.le_of_lt hk)

/-- What the walk does ahead of a gate that it keeps follows the wires of the gate. -/
theorem Arrives.of_keep {past : List Bool} (h : (s.step older.length).Arrives f older past)
    (hready : s.Ready (g :: older)) (hmem : older.length ∈ s.queue.map Wire.start)
    (hlength : past.length = older.length) (hlive : ∀ d ∈ g.op.operands, back? past d = some true) :
    s.Arrives f (g :: older) (true :: past) := by
  have hoperands : ∀ d ∈ g.op.operands, 0 < d ∧ d ≤ older.length := fun d hd =>
    hlength ▸ bounds_of_back? (hlive d hd)
  have hbound := hready.bound
  have hplaces := hready.places
  rw [List.length_cons] at hbound hplaces
  rw [hready.step_eq hmem hoperands] at h
  constructor
  · rw [h.removed]
    simp
  · -- the wires that start at the gate are followed before the others
    have hsplit : ((s.queueWith older.length g).filter (·.start == older.length) ++
        (s.queueWith older.length g).filter (·.start != older.length)).Perm (s.queueWith older.length g) :=
      List.filter_append_perm _ _
    have hnow : follow (fun _ => s.removed) ((s.queueWith older.length g).filter (·.start == older.length))
        (s.slots.set (older.length + s.removed) (g.record.shiftAll s.removed)) =
        follow (droppedAt s.removed past) ((s.queueWith older.length g).filter (·.start == older.length))
          (s.slots.set (older.length + s.removed) (g.record.shiftAll s.removed)) := by
      refine follow_congr fun w hw => ?_
      have hstart : w.start = past.length := by simpa [hlength] using (List.mem_filter.mp hw).2
      rw [hstart, droppedAt_length]
    have hslots := h.slots
    dsimp only at hslots
    rw [hslots, hnow, ← follow_append, follow_perm hsplit, hready.follow_keep hlength hlive,
      List.drop_eq_getElem_cons (by rw [List.length_set, length_follow]; omega), List.getElem_set_self,
      List.drop_set_of_lt (Nat.lt_succ_self _), kept, List.reverse_cons, List.map_append, List.append_assoc,
      List.length_cons, Nat.add_right_comm older.length 1 s.removed]
    rfl
  · intro k hk
    rcases getElem?_reverse_cons_eq_some.mp hk with hk | ⟨rfl, -⟩
    · have hlt : k < past.length := by simpa using (List.getElem?_eq_some_iff.mp hk).1
      rw [h.live k hk, droppedAt_cons_true s.removed (Nat.le_of_lt hlt)]
    · rw [h.places past.length (Nat.le_of_eq hlength.symm), droppedAt_cons_true s.removed (Nat.le_refl _),
        droppedAt_length, hlength]
      exact List.getElem?_set_self (by omega)
  · intro k hk
    rw [List.length_cons] at hk
    rw [h.places k (Nat.le_of_lt hk)]
    exact List.getElem?_set_ne (Nat.ne_of_lt hk)

/-- The walk keeps the live gates and drops the others. -/
theorem Ready.arrives_down (h : s.Ready older)
    (hclosed : Closed older (mask (s.queue.map Wire.start) older)) :
    s.Arrives (s.down older.length) older (mask (s.queue.map Wire.start) older) := by
  induction older generalizing s with
  | nil =>
    have hqueue : s.queue = [] := List.eq_nil_iff_forall_not_mem.mpr fun w hw =>
      absurd (h.wires w hw).1 (Nat.not_lt_zero _)
    refine ⟨rfl, ?_, fun k hk => by simp [mask] at hk, fun k _ => rfl⟩
    simp [down, hqueue, follow, kept, mask]
  | cons g older ih =>
    rw [List.length_cons, down]
    by_cases hmem : older.length ∈ s.queue.map Wire.start
    · have hmask : mask (s.queue.map Wire.start) (g :: older) =
          true :: mask (reads older.length g ++ s.queue.map Wire.start) older := by
        rw [mask, if_pos (by simpa using hmem)]
      rw [hmask] at hclosed ⊢
      have hlive := hclosed.1 rfl
      have hoperands : ∀ d ∈ g.op.operands, 0 < d ∧ d ≤ older.length := fun d hd =>
        length_mask (reads older.length g ++ s.queue.map Wire.start) older ▸ bounds_of_back? (hlive d hd)
      -- the queue of the next step names the same earlier gates as the operands and the queue do
      have hsame : mask ((s.step older.length).queue.map Wire.start) older =
          mask (reads older.length g ++ s.queue.map Wire.start) older := by
        refine mask_congr fun i hi => ?_
        have hperm := (s.queueWith_perm older.length g).map Wire.start
        rw [List.map_append, map_start_wiresOf] at hperm
        rw [h.step_eq hmem hoperands, ← hperm.mem_iff, List.mem_map, List.mem_map]
        simp only [List.mem_filter, bne_iff_ne, and_assoc]
        constructor
        · rintro ⟨w, hw, -, rfl⟩
          exact ⟨w, hw, rfl⟩
        · rintro ⟨w, hw, rfl⟩
          exact ⟨w, hw, Nat.ne_of_lt hi, rfl⟩
      have hrest := ih (h.keep hmem hoperands)
      rw [hsame] at hrest
      exact (hrest hclosed.2).of_keep h hmem (length_mask _ _) hlive
    · obtain ⟨hstep, hready⟩ := h.drop hmem
      have hmask : mask (s.queue.map Wire.start) (g :: older) =
          false :: mask (s.queue.map Wire.start) older := by
        rw [mask, if_neg (by simpa using hmem)]
      rw [hmask] at hclosed ⊢
      rw [hstep]
      exact (ih hready hclosed.2).of_drop h (length_mask _ _)

/-- At the beginning, a wire leads from behind all gates to each output. -/
theorem queue_start_perm (p : Program) :
    (start p).queue.Perm (p.outputs.map fun output => ⟨output, p.length, 0⟩) := by
  have hperm := foldl_enqueue_perm (p.outputs.map fun output => ⟨output, p.length, 0⟩) []
  rwa [List.append_nil] at hperm

theorem ready_start {p : Program} (h : ∀ i ∈ p.outputs, i < p.length) :
    (start p).Ready p.gates.reverse := by
  constructor
  · intro k _
    rw [List.reverse_reverse, start, List.getElem?_map]
  · simp [start]
  · simp [start, Program.length]
  · exact Ordered.foldl_enqueue .nil _
  · intro w hw
    obtain ⟨i, hi, rfl⟩ := List.mem_map.mp ((queue_start_perm p).mem_iff.mp hw)
    rw [List.length_reverse]
    exact ⟨h i hi, Nat.le_refl _⟩

theorem mask_start (p : Program) :
    mask ((start p).queue.map Wire.start) p.gates.reverse = p.liveMask := by
  refine mask_congr fun i _ => ?_
  have hperm := (queue_start_perm p).map Wire.start
  rw [hperm.mem_iff, List.map_map]
  simp

/-- Among the kept gates, a live gate comes after the live ones before it. -/
theorem position_eq {mask : List Bool} {i : Nat} (hi : i ≤ mask.length) :
    i + droppedAt 0 mask i - mask.count false = position mask i := by
  have hsplit : mask.count false =
      (mask.take (mask.length - i)).count false + (mask.drop (mask.length - i)).count false := by
    rw [← List.count_append, List.take_append_drop]
  have hspan := List.count_true_add_count_false (mask.drop (mask.length - i))
  rw [List.length_drop, Nat.sub_sub_self hi] at hspan
  rw [position, List.take_reverse, List.count_reverse, droppedAt, hsplit]
  omega

end Walk

end Liveness

namespace Program

/-- Removal succeeds on a well-formed program and gives its live part. -/
theorem WellFormed.removeUnused_eq {p : Program} (h : p.WellFormed) : p.removeUnused = .ok p.live := by
  have hclosed := h.closed_liveMask
  rw [← Liveness.Walk.mask_start] at hclosed
  have harrives := (Liveness.Walk.ready_start h.outputs).arrives_down hclosed
  rw [Liveness.Walk.mask_start, List.length_reverse, ← length] at harrives
  obtain ⟨s, hs⟩ : ∃ s, s = (Liveness.Walk.start p).down p.length := ⟨_, rfl⟩
  rw [← hs] at harrives
  have hremoved : s.removed = p.liveMask.count false := harrives.removed.trans (Nat.zero_add _)
  -- behind all gates there are no slots
  have hslots : s.slots.drop s.removed =
      (Liveness.kept p.gates.reverse p.liveMask).reverse.map Gate.record := by
    rw [harrives.slots, List.drop_eq_nil_of_le, List.append_nil]
    simp [Liveness.Walk.start]
  have hplaces : p.outputs.map (fun i => s.places.getD i 0 - s.removed) = p.live.outputs := by
    refine List.map_congr_left fun i hi => ?_
    have hle : i ≤ p.liveMask.length := by
      rw [length_liveMask]
      exact Nat.le_of_lt (h.outputs i hi)
    rw [List.getD_eq_getElem?_getD, harrives.live i (h.liveMask_output hi), Option.getD_some, hremoved]
    exact Liveness.Walk.position_eq hle
  have hgates : Throughout Gate.Fits
      (Liveness.kept p.gates.reverse p.liveMask ++ Builder.empty.past) := by
    simpa [Builder.empty] using Liveness.fits_kept h.gates h.closed_liveMask
  rw [removeUnused, ← hs, hslots, Builder.addRecords_records hgates, hplaces]
  refine Builder.build_eq_ok_iff.mpr ⟨?_, ?_⟩
  · simpa [Program.live, length, Builder.empty, Builder.withOutputs] using h.live.outputs
  · simp [Program.live, Builder.empty, Builder.withOutputs]

end Program

end HalfGates
