import HalfGates.Proofs.Program.History

/-!
# Marked entries of a list

A mask marks some entries of a list. The marked ones keep their order, and an offset into a history shrinks
to the number of marks that it spans.

## Main definitions

- `keep`: the marked entries
- `Liveness.liveBack`, `Liveness.position`: offsets and positions among the marked entries
- `getElem?_keep`, `back?_keep`: where a marked entry ends up
-/

namespace HalfGates

variable {α β : Type}

/-- The number of marks among the `d` entries before. -/
def Liveness.liveBack (past : List Bool) (d : Nat) : Nat :=
  (past.take d).count true

/-- The position of entry `i` among the marked ones; the mask has its newest entry first. -/
def Liveness.position (mask : List Bool) (i : Nat) : Nat :=
  (mask.reverse.take i).count true

/-- The entries of a list that a mask marks. -/
def keep : List Bool → List α → List α
  | true :: mask, x :: xs => x :: keep mask xs
  | false :: mask, _ :: xs => keep mask xs
  | _, _ => []

@[simp] theorem keep_nil (mask : List Bool) : keep mask ([] : List α) = [] := by
  cases mask with
  | nil => rfl
  | cons m mask => cases m <;> rfl

@[simp] theorem keep_nil_left (xs : List α) : keep [] xs = [] := rfl

@[simp] theorem keep_cons_true (mask : List Bool) (x : α) (xs : List α) :
    keep (true :: mask) (x :: xs) = x :: keep mask xs := rfl

@[simp] theorem keep_cons_false (mask : List Bool) (x : α) (xs : List α) :
    keep (false :: mask) (x :: xs) = keep mask xs := rfl

theorem keep_sublist (mask : List Bool) (xs : List α) : (keep mask xs).Sublist xs := by
  induction mask generalizing xs with
  | nil => exact List.nil_sublist xs
  | cons m mask ih =>
    cases xs with
    | nil => simp
    | cons x xs =>
      cases m with
      | false => exact (ih xs).cons x
      | true => exact (ih xs).cons_cons x

theorem keep_map (f : α → β) (mask : List Bool) (xs : List α) :
    keep mask (xs.map f) = (keep mask xs).map f := by
  induction mask generalizing xs with
  | nil => rfl
  | cons m mask ih =>
    cases xs with
    | nil => simp
    | cons x xs => cases m <;> simp [ih]

/-- With the test of the entries as the mask, the entries that pass are kept. -/
theorem keep_test (test : α → Bool) (xs : List α) : keep (xs.map test) xs = xs.filter test := by
  induction xs with
  | nil => rfl
  | cons x xs ih => cases hx : test x <;> simp [hx, ih]

/-- A mask that treats all entries alike keeps all of them or none. -/
theorem keep_of_forall {mask : List Bool} {xs : List α} {mark : Bool} (hlength : mask.length = xs.length)
    (h : ∀ m ∈ mask, m = mark) : keep mask xs = if mark then xs else [] := by
  induction mask generalizing xs with
  | nil =>
    obtain rfl : xs = [] := List.eq_nil_of_length_eq_zero hlength.symm
    cases mark <;> rfl
  | cons m mask ih =>
    cases xs with
    | nil => cases hlength
    | cons x xs =>
      obtain rfl : m = mark := h m List.mem_cons_self
      have hrest := ih (Nat.succ.inj hlength) fun m' hm' => h m' (List.mem_cons_of_mem m hm')
      cases m with
      | false => exact hrest
      | true => exact congrArg (x :: ·) hrest

/-- An entry that is not marked does not matter. -/
theorem keep_set {mask : List Bool} {i : Nat} (h : mask[i]? = some false) (x : α) (xs : List α) :
    keep mask (xs.set i x) = keep mask xs := by
  induction mask generalizing i xs with
  | nil => simp at h
  | cons m mask ih =>
    cases xs with
    | nil => rfl
    | cons y ys =>
      cases i with
      | zero =>
        obtain rfl : m = false := by simpa using h
        rfl
      | succ i =>
        have hrest : keep mask (ys.set i x) = keep mask ys := ih (by simpa using h) ys
        cases m <;> simp [hrest]

theorem keep_append {mask mask' : List Bool} {xs ys : List α} (h : mask.length = xs.length) :
    keep (mask ++ mask') (xs ++ ys) = keep mask xs ++ keep mask' ys := by
  induction mask generalizing xs with
  | nil =>
    obtain rfl : xs = [] := List.eq_nil_of_length_eq_zero h.symm
    rfl
  | cons m mask ih =>
    cases xs with
    | nil => simp at h
    | cons x xs =>
      have hrest := ih (Nat.succ.inj h)
      cases m <;> simp [hrest]

theorem reverse_keep {mask : List Bool} {xs : List α} (h : mask.length = xs.length) :
    (keep mask xs).reverse = keep mask.reverse xs.reverse := by
  induction mask generalizing xs with
  | nil =>
    obtain rfl : xs = [] := List.eq_nil_of_length_eq_zero h.symm
    rfl
  | cons m mask ih =>
    cases xs with
    | nil => simp at h
    | cons x xs =>
      have hlen : mask.length = xs.length := Nat.succ.inj h
      rw [List.reverse_cons, List.reverse_cons, keep_append (by simpa using hlen), ← ih hlen]
      cases m <;> simp

theorem length_keep {mask : List Bool} {xs : List α} (h : mask.length = xs.length) :
    (keep mask xs).length = mask.count true := by
  induction mask generalizing xs with
  | nil => rfl
  | cons m mask ih =>
    cases xs with
    | nil => simp at h
    | cons x xs =>
      have hrest := ih (Nat.succ.inj h)
      cases m <;> simp [hrest]

/-- The marks of the entries that pass a test count those of the marked entries that do. -/
theorem count_keep_map (test : α → Bool) (mask : List Bool) (xs : List α) :
    (keep (xs.map test) mask).count true = (keep mask xs).countP test := by
  induction xs generalizing mask with
  | nil => simp
  | cons x xs ih =>
    cases mask with
    | nil => simp
    | cons m mask =>
      have hrest := ih mask
      cases hx : test x <;> cases m <;> simp [hx, hrest]

/-- A marked entry ends up behind the marked ones before it. -/
theorem getElem?_keep {mask : List Bool} {k : Nat} (h : mask[k]? = some true) (xs : List α) :
    (keep mask xs)[(mask.take k).count true]? = xs[k]? := by
  induction mask generalizing k xs with
  | nil => simp at h
  | cons m mask ih =>
    cases xs with
    | nil => simp
    | cons x xs =>
      cases k with
      | zero =>
        obtain rfl : m = true := by simpa using h
        simp
      | succ k =>
        have hrest := ih (by simpa using h) xs
        cases m <;> simp [hrest]

/-- In a history, the offset of a marked entry shrinks to the number of marks that it spans. -/
theorem back?_keep {mask : List Bool} {d : Nat} (h : back? mask d = some true) (xs : List α) :
    back? (keep mask xs) (Liveness.liveBack mask d) = back? xs d := by
  cases d with
  | zero => simp at h
  | succ d =>
    have hcount : Liveness.liveBack mask (d + 1) = (mask.take d).count true + 1 := by
      rw [Liveness.liveBack, List.take_add_one, List.count_append, ← back?_succ, h]
      rfl
    rw [hcount, back?_succ, back?_succ, getElem?_keep h]

end HalfGates
