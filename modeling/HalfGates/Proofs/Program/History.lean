import HalfGates.Program.Evaluation

/-!
# Reading histories

Facts about the entries of a history, which has its newest entry first, and about plain evaluation as a
recursion over the history of the gates read so far.

## Main definitions

- `Throughout`: every entry of a history is related to the entries before it
- `PlainRun.along`: the evaluation of a history of gates
- `PlainRun.bitBack_along`: in a run, every gate that is not a source has the value of its operation
-/

namespace HalfGates

section back

variable {α β : Type}

@[simp] theorem back?_zero (past : List α) : back? past 0 = none := rfl

@[simp] theorem back?_succ (past : List α) (d : Nat) : back? past (d + 1) = past[d]? := rfl

theorem back?_map (f : α → β) (past : List α) (d : Nat) :
    back? (past.map f) d = (back? past d).map f := by
  cases d with
  | zero => rfl
  | succ d => simp only [back?_succ, List.getElem?_map]

theorem back?_cons (a : α) (past : List α) {e : Nat} (he : 0 < e) :
    back? (a :: past) (e + 1) = back? past e := by
  obtain ⟨e, rfl⟩ := Nat.exists_eq_add_of_lt he
  simp only [Nat.zero_add, back?_succ, List.getElem?_cons_succ]

theorem back?_drop (past : List α) (d : Nat) {e : Nat} (he : 0 < e) :
    back? (past.drop d) e = back? past (d + e) := by
  obtain ⟨e, rfl⟩ := Nat.exists_eq_add_of_lt he
  rw [Nat.zero_add, ← Nat.add_assoc, back?_succ, back?_succ, List.getElem?_drop]

/-- An offset reaches an entry exactly if it is positive and not beyond the oldest one. -/
theorem back?_isSome {past : List α} {d : Nat} :
    (back? past d).isSome = true ↔ 0 < d ∧ d ≤ past.length := by
  cases d with
  | zero => simp
  | succ d =>
    rw [back?_succ]
    constructor
    · intro h
      obtain ⟨a, ha⟩ := Option.isSome_iff_exists.mp h
      exact ⟨Nat.succ_pos d, (List.getElem?_eq_some_iff.mp ha).1⟩
    · intro h
      rw [List.getElem?_eq_getElem h.2]
      rfl

theorem bounds_of_back? {past : List α} {d : Nat} {a : α} (h : back? past d = some a) :
    0 < d ∧ d ≤ past.length :=
  back?_isSome.mp (by simp [h])

theorem exists_back? {past : List α} {d : Nat} (h : 0 < d ∧ d ≤ past.length) :
    ∃ a, back? past d = some a :=
  Option.isSome_iff_exists.mp (back?_isSome.mpr h)

/-- Counted from the oldest entry on, the offset of entry `i` is what is missing to the length. -/
theorem back?_length_sub {past : List α} {i : Nat} (hi : i < past.length) :
    back? past (past.length - i) = past.reverse[i]? := by
  have hd : past.length - i = (past.length - 1 - i) + 1 := by omega
  rw [hd, back?_succ, List.getElem?_reverse hi]

/-- Entry `i` of a list, found in the history that the list makes. -/
theorem back?_reverse (xs : List α) (i : Nat) : back? xs.reverse (xs.length - i) = xs[i]? := by
  by_cases hi : i < xs.length
  · have hlt : i < xs.reverse.length := by simpa using hi
    rw [← List.length_reverse, back?_length_sub hlt, List.reverse_reverse]
  · have hle := Nat.not_lt.mp hi
    rw [Nat.sub_eq_zero_of_le hle, back?_zero, List.getElem?_eq_none hle]

/-- Counted from the oldest entry on, a history has the same entries and the newest one at its end. -/
theorem getElem?_reverse_cons_eq_some {a b : α} {past : List α} {i : Nat} :
    (a :: past).reverse[i]? = some b ↔ past.reverse[i]? = some b ∨ i = past.length ∧ a = b := by
  rcases Nat.lt_trichotomy i past.length with hlt | rfl | hgt
  · rw [List.reverse_cons, List.getElem?_append_left (by rwa [List.length_reverse])]
    simp [Nat.ne_of_lt hlt]
  · simp
  · rw [List.getElem?_eq_none (by simpa using Nat.succ_le_of_lt hgt),
      List.getElem?_eq_none (by simpa using Nat.le_of_lt hgt)]
    simp [Nat.ne_of_gt hgt]

/-- Every entry of a history satisfies `P` together with the entries before it. -/
def Throughout (P : List α → α → Prop) : List α → Prop
  | [] => True
  | a :: past => P past a ∧ Throughout P past

theorem Throughout.of_back? {P : List α → α → Prop} {past : List α} (h : Throughout P past)
    {d : Nat} {a : α} (ha : back? past d = some a) : P (past.drop d) a := by
  induction past generalizing d with
  | nil => cases d <;> simp at ha
  | cons b past ih =>
    match d with
    | 0 => simp at ha
    | 1 =>
      obtain rfl : b = a := by simpa using ha
      exact h.1
    | d + 2 =>
      rw [back?_cons b past (Nat.succ_pos d)] at ha
      exact ih h.2 ha

theorem Throughout.mono {P Q : List α → α → Prop} (hPQ : ∀ past a, P past a → Q past a)
    {past : List α} (h : Throughout P past) : Throughout Q past := by
  induction past with
  | nil => trivial
  | cons a past ih => exact ⟨hPQ past a h.1, ih h.2⟩

/-- A property of single entries holds throughout a history if every entry has it. -/
theorem throughout_iff_forall {P : α → Prop} {past : List α} :
    Throughout (fun _ => P) past ↔ ∀ a ∈ past, P a := by
  induction past with
  | nil => simp [Throughout]
  | cons a past ih => simp [Throughout, ih]

end back

namespace Operation

variable {ι κ : Type}

theorem map_congr {f g : ι → κ} {op : Operation ι} (h : ∀ x ∈ op.operands, f x = g x) :
    op.map f = op.map g := by
  cases op <;> simp_all [Operation.map, operands]

theorem map_map {μ : Type} (f : ι → κ) (g : κ → μ) (op : Operation ι) :
    (op.map f).map g = op.map fun x => g (f x) := by
  cases op <;> rfl

theorem map_id' (op : Operation ι) : (op.map fun x => x) = op := by
  cases op <;> rfl

theorem operands_map_congr {μ : Type} {f : ι → μ} {g : κ → μ} {op : Operation ι} {op' : Operation κ}
    (h : op.map f = op'.map g) : op.operands.map f = op'.operands.map g := by
  rw [← operands_map, h, operands_map]

/-- Only sources take the supplied bit. -/
theorem value_supplied {op : Operation Bool} (h : op.kind.isSource = false) (a b : Bool) :
    op.value a = op.value b := by
  cases op <;> first | rfl | simp [kind, GateKind.isSource] at h

/-- A source has the bit supplied for it. -/
theorem value_of_isSource {op : Operation Bool} (h : op.kind.isSource = true) (supplied : Bool) :
    op.value supplied = supplied := by
  cases op <;> first | rfl | simp [kind, GateKind.isSource] at h

end Operation

namespace PlainRun

/-- The run over a history of gates, the oldest of them first. -/
def along (bits : List Bool) : List Gate → PlainRun
  | [] => ⟨[], bits⟩
  | g :: past => (along bits past).step g

theorem foldl_step (bits : List Bool) (gates : List Gate) :
    gates.foldl step ⟨[], bits⟩ = along bits gates.reverse := by
  have hfoldr : ∀ past : List Gate,
      past.foldr (fun g r => step r g) ⟨[], bits⟩ = along bits past := by
    intro past
    induction past with
    | nil => rfl
    | cons g past ih => rw [List.foldr_cons, ih, along]
  rw [← hfoldr, ← List.foldl_reverse, List.reverse_reverse]

@[simp] theorem length_along (bits : List Bool) (past : List Gate) :
    (along bits past).past.length = past.length := by
  induction past with
  | nil => rfl
  | cons g past ih => simp [along, step, ih]

theorem past_along_cons (bits : List Bool) (g : Gate) (past : List Gate) :
    (along bits (g :: past)).past = (along bits past).value g :: (along bits past).past := rfl

/-- The supply is what the sources have left of it. -/
theorem supply_along (bits : List Bool) (past : List Gate) :
    (along bits past).supply = bits.drop (past.countP fun g => g.kind.isSource) := by
  induction past with
  | nil => rfl
  | cons g past ih =>
    cases hg : g.kind.isSource <;> simp [along, step, hg, ih]

theorem bitBack_cons (b : Bool) (past : List Bool) {e : Nat} (he : 0 < e) :
    bitBack (b :: past) (e + 1) = bitBack past e := by
  simp only [bitBack, back?_cons b past he]

/-- In a run, a gate that is not a source has the value of its operation on the gates it reads. -/
theorem bitBack_along (bits : List Bool) {past : List Gate} {d : Nat} {g : Gate}
    (hd : back? past d = some g) (hsource : g.kind.isSource = false)
    (hpos : ∀ e ∈ g.op.operands, 0 < e) (supplied : Bool) :
    bitBack (along bits past).past d =
      (g.op.map fun e => bitBack (along bits past).past (d + e)).value supplied := by
  induction past generalizing d with
  | nil => cases d <;> simp at hd
  | cons newest past ih =>
    match d with
    | 0 => simp at hd
    | 1 =>
      obtain rfl : newest = g := by simpa using hd
      have hop : (newest.op.map fun e => bitBack (along bits (newest :: past)).past (1 + e)) =
          newest.op.map (bitBack (along bits past).past) := by
        refine Operation.map_congr fun e he => ?_
        rw [Nat.add_comm, past_along_cons, bitBack_cons _ _ (hpos e he)]
      rw [hop]
      exact Operation.value_supplied (by simpa [Gate.kind] using hsource) _ _
    | d + 2 =>
      rw [back?_cons newest past (Nat.succ_pos d)] at hd
      rw [past_along_cons, bitBack_cons _ _ (Nat.succ_pos d), ih hd]
      refine congrArg (Operation.value supplied) (Operation.map_congr fun e _ => ?_)
      rw [Nat.add_right_comm (d + 1) 1 e, bitBack_cons _ _ (by omega)]

end PlainRun

namespace Program

theorem values_eq_along (p : Program) (bits : List Bool) :
    p.values bits = (PlainRun.along bits p.gates.reverse).past.reverse := by
  rw [values, PlainRun.foldl_step]

@[simp] theorem length_values (p : Program) (bits : List Bool) :
    (p.values bits).length = p.length := by
  simp [values_eq_along, length]

end Program

end HalfGates
