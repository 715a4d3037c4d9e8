import Mathlib.Data.Nat.Find

/-!
# Work that may fail

A sequence of steps succeeds exactly if every step does, and otherwise fails as its first bad step does.
-/

namespace HalfGates

variable {ε α β : Type}

@[simp] theorem ok_bind (a : α) (f : α → Except ε β) : (Except.ok a >>= f) = f a := rfl

theorem bind_eq_ok {x : Except ε α} {f : α → Except ε β} {b : β} :
    (x >>= f) = .ok b ↔ ∃ a, x = .ok a ∧ f a = .ok b := by
  cases x with
  | error e => simp [bind, Except.bind]
  | ok a => simp [bind, Except.bind]

theorem bind_eq_error {x : Except ε α} {f : α → Except ε β} {e : ε} :
    (x >>= f) = .error e ↔ x = .error e ∨ ∃ a, x = .ok a ∧ f a = .error e := by
  cases x with
  | error e => simp [bind, Except.bind]
  | ok a => simp [bind, Except.bind]

theorem map_eq_ok {x : Except ε α} {f : α → β} {b : β} :
    x.map f = .ok b ↔ ∃ a, x = .ok a ∧ f a = b := by
  cases x with
  | error e => simp [Except.map]
  | ok a => simp [Except.map]

/-- Whether work succeeds can be seen from what is kept of its result. -/
theorem exists_ok_iff_isSome {x : Except ε α} (f : α → β) :
    (∃ a, x = .ok a) ↔ (x.toOption.map f).isSome = true := by
  cases x with
  | error e => simp [Except.toOption]
  | ok a => simp [Except.toOption]

/-- All results of a list are there if each one is. -/
theorem mapM_eq_ok {f : α → Except ε β} {xs : List α} {ys : List β} :
    xs.mapM f = .ok ys ↔ xs.map f = ys.map .ok := by
  induction xs generalizing ys with
  | nil =>
    rw [List.mapM_nil, List.map_nil]
    constructor
    · rintro ⟨⟩
      rfl
    · intro h
      rw [List.map_eq_nil_iff.mp h.symm]
      rfl
  | cons x xs ih =>
    rw [List.mapM_cons, bind_eq_ok]
    constructor
    · rintro ⟨y, hy, hrest⟩
      obtain ⟨zs, hzs, hys⟩ := bind_eq_ok.mp hrest
      cases hys
      rw [List.map_cons, List.map_cons, hy, ih.mp hzs]
    · intro h
      match ys with
      | y :: zs =>
        obtain ⟨hy, hzs⟩ := List.cons.inj h
        exact ⟨y, hy, bind_eq_ok.mpr ⟨zs, ih.mpr hzs, rfl⟩⟩

theorem exists_mapM {f : α → Except ε β} {xs : List α} (h : ∀ x ∈ xs, ∃ y, f x = .ok y) :
    ∃ ys, xs.mapM f = .ok ys := by
  induction xs with
  | nil => exact ⟨[], rfl⟩
  | cons x xs ih =>
    obtain ⟨y, hy⟩ := h x List.mem_cons_self
    obtain ⟨ys, hys⟩ := ih fun z hz => h z (List.mem_cons_of_mem x hz)
    refine ⟨y :: ys, mapM_eq_ok.mpr ?_⟩
    rw [List.map_cons, List.map_cons, hy, mapM_eq_ok.mp hys]

theorem length_of_mapM {f : α → Except ε β} {xs : List α} {ys : List β}
    (h : xs.mapM f = .ok ys) : ys.length = xs.length := by
  have hlen := congrArg List.length (mapM_eq_ok.mp h)
  simpa using hlen.symm

theorem getElem?_of_mapM {f : α → Except ε β} {xs : List α} {ys : List β}
    (h : xs.mapM f = .ok ys) {i : Nat} {y : β} (hy : ys[i]? = some y) :
    ∃ x, xs[i]? = some x ∧ f x = .ok y := by
  have hat := congrArg (·[i]?) (mapM_eq_ok.mp h)
  simp only [List.getElem?_map, hy, Option.map_some, Option.map_eq_some_iff] at hat
  exact hat

/-- A list fails as its first item without a result does. -/
theorem mapM_eq_error_iff {f : α → Except ε β} {xs : List α} {e : ε} :
    xs.mapM f = .error e ↔ ∃ (i : Nat) (x : α), xs[i]? = some x ∧ f x = .error e ∧
      ∀ k < i, ∀ y, xs[k]? = some y → ∃ z, f y = .ok z := by
  induction xs with
  | nil =>
    rw [List.mapM_nil]
    constructor
    · rintro ⟨⟩
    · rintro ⟨i, x, hx, -⟩
      cases hx
  | cons x xs ih =>
    rw [List.mapM_cons, bind_eq_error]
    constructor
    · rintro (hx | ⟨y, hy, hrest⟩)
      · exact ⟨0, x, rfl, hx, fun k hk => absurd hk (Nat.not_lt_zero k)⟩
      · obtain hrest | ⟨_, -, hpure⟩ := bind_eq_error.mp hrest
        · obtain ⟨i, z, hz, hfails, hbefore⟩ := ih.mp hrest
          refine ⟨i + 1, z, hz, hfails, fun k hk w hw => ?_⟩
          cases k with
          | zero =>
            obtain rfl : x = w := Option.some.inj hw
            exact ⟨y, hy⟩
          | succ k => exact hbefore k (Nat.lt_of_succ_lt_succ hk) w hw
        · cases hpure
    · rintro ⟨i, z, hz, hfails, hbefore⟩
      cases i with
      | zero =>
        obtain rfl : x = z := Option.some.inj hz
        exact .inl hfails
      | succ i =>
        obtain ⟨y, hy⟩ := hbefore 0 (Nat.succ_pos i) x rfl
        refine .inr ⟨y, hy, bind_eq_error.mpr (.inl (ih.mpr ⟨i, z, hz, hfails, fun k hk w hw => ?_⟩))⟩
        exact hbefore (k + 1) (Nat.succ_lt_succ hk) w hw

section numbered

variable {f : α → Nat → Except ε β} {xs : List α} {start : Nat}

/-- Work on the items of a list with their numbers is done if it is done for each item. -/
theorem mapM_zipIdx_eq_ok {ys : List β} :
    ((xs.zipIdx start).mapM fun item => f item.1 item.2) = .ok ys ↔
      ys.length = xs.length ∧ ∀ (i : Nat) (x : α) (y : β), xs[i]? = some x → ys[i]? = some y →
        f x (start + i) = .ok y := by
  constructor
  · intro h
    refine ⟨by simpa using length_of_mapM h, fun i x y hx hy => ?_⟩
    obtain ⟨item, hitem, hdone⟩ := getElem?_of_mapM h hy
    rw [List.getElem?_zipIdx, hx] at hitem
    cases hitem
    exact hdone
  · rintro ⟨hlength, hdone⟩
    rw [mapM_eq_ok]
    refine List.ext_getElem? fun i => ?_
    rw [List.getElem?_map, List.getElem?_map, List.getElem?_zipIdx]
    cases hx : xs[i]? with
    | none => rw [List.getElem?_eq_none (hlength ▸ List.getElem?_eq_none_iff.mp hx)]; rfl
    | some x =>
      obtain ⟨y, hy⟩ : ∃ y, ys[i]? = some y :=
        ⟨_, List.getElem?_eq_getElem (hlength ▸ (List.getElem?_eq_some_iff.mp hx).1)⟩
      rw [hy, Option.map_some, Option.map_some, Option.map_some, hdone i x y hx hy]

theorem exists_mapM_zipIdx :
    (∃ ys, ((xs.zipIdx start).mapM fun item => f item.1 item.2) = .ok ys) ↔
      ∀ (i : Nat) (x : α), xs[i]? = some x → ∃ y, f x (start + i) = .ok y := by
  constructor
  · rintro ⟨ys, h⟩ i x hx
    obtain ⟨hlength, hdone⟩ := mapM_zipIdx_eq_ok.mp h
    have hlt : i < ys.length := hlength ▸ (List.getElem?_eq_some_iff.mp hx).1
    exact ⟨ys[i], hdone i x _ hx (List.getElem?_eq_getElem hlt)⟩
  · intro h
    refine exists_mapM fun item hitem => ?_
    obtain ⟨i, hi⟩ := List.getElem?_of_mem hitem
    rw [List.getElem?_zipIdx, Option.map_eq_some_iff] at hi
    obtain ⟨x, hx, rfl⟩ := hi
    exact h i x hx

/-- Such work fails as its first item without a result does. -/
theorem mapM_zipIdx_eq_error_iff {e : ε} :
    ((xs.zipIdx start).mapM fun item => f item.1 item.2) = .error e ↔
      ∃ (i : Nat) (x : α), xs[i]? = some x ∧ f x (start + i) = .error e ∧
        ∀ k < i, ∀ y, xs[k]? = some y → ∃ z, f y (start + k) = .ok z := by
  simp only [mapM_eq_error_iff, List.getElem?_zipIdx, Option.map_eq_some_iff]
  constructor
  · rintro ⟨i, -, ⟨x, hx, rfl⟩, hfails, hbefore⟩
    exact ⟨i, x, hx, hfails, fun k hk y hy => hbefore k hk (y, start + k) ⟨y, hy, rfl⟩⟩
  · rintro ⟨i, x, hx, hfails, hbefore⟩
    refine ⟨i, (x, start + i), ⟨x, hx, rfl⟩, hfails, ?_⟩
    rintro k hk - ⟨y, hy, rfl⟩
    exact hbefore k hk y hy

end numbered

/-- Work that succeeds where other work does, and fails as that does, has the same outcome. -/
theorem same_outcome {ε' : Type} {x : Except ε α} {y : Except ε' β} {fault : ε → ε'}
    (hok : ∀ a, x = .ok a → ∃ b, y = .ok b) (herror : ∀ e, x = .error e → y = .error (fault e)) :
    ((∃ b, y = .ok b) ↔ ∃ a, x = .ok a) ∧ ∀ e', y = .error e' ↔ ∃ e, e' = fault e ∧ x = .error e := by
  cases hx : x with
  | ok a =>
    obtain ⟨b, hb⟩ := hok a hx
    simp [hb]
  | error e => simp [herror e hx, eq_comm]

/-- Work that succeeds without bad positions, and that the first of them makes fail, has no other outcome. -/
theorem outcome_iff {run : Except ε α} {bad : Nat → Prop} {fault : Nat → ε}
    (hok : (∀ i, ¬ bad i) → ∃ a, run = .ok a)
    (herror : ∀ i, bad i → (∀ k < i, ¬ bad k) → run = .error (fault i)) :
    ((∃ a, run = .ok a) ↔ ∀ i, ¬ bad i) ∧
      ∀ e, run = .error e ↔ ∃ i, e = fault i ∧ bad i ∧ ∀ k < i, ¬ bad k := by
  have hfirst : ∀ i, bad i → ∃ j, bad j ∧ ∀ k < j, ¬ bad k := by
    classical
    intro i hi
    exact ⟨Nat.find ⟨i, hi⟩, Nat.find_spec ⟨i, hi⟩, fun k hk => Nat.find_min ⟨i, hi⟩ hk⟩
  refine ⟨⟨?_, hok⟩, fun e => ⟨?_, ?_⟩⟩
  · rintro ⟨a, ha⟩ i hi
    obtain ⟨j, hj, hbefore⟩ := hfirst i hi
    rw [herror j hj hbefore] at ha
    cases ha
  · intro he
    by_cases hall : ∀ i, ¬ bad i
    · obtain ⟨a, ha⟩ := hok hall
      rw [ha] at he
      cases he
    · obtain ⟨i, hi⟩ := not_forall_not.mp hall
      obtain ⟨j, hj, hbefore⟩ := hfirst i hi
      rw [herror j hj hbefore] at he
      cases he
      exact ⟨j, rfl, hj, hbefore⟩
  · rintro ⟨i, rfl, hi, hbefore⟩
    exact herror i hi hbefore

end HalfGates
