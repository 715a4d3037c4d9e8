import HalfGates.Proofs.Program.Keeping
import HalfGates.Proofs.Sequencing

/-!
# Entries at positions

Outputs, variables and inputs of a party are given by positions in the list of gates. At such a list of
positions stands a list of entries, whatever is kept of each gate.

## Main definitions

- `Locates`: at a list of positions stand the given entries
- `Locates.mapM`: looking up all positions
- `exists_locates`: positions within a list
- `Program.locates_positions`: the positions of the gates that pass a test
-/

namespace HalfGates

variable {α β : Type}

/-- At the positions stand the given entries of a list. -/
def Locates (values : List α) (positions : List Nat) (xs : List α) : Prop :=
  positions.map (values[·]?) = xs.map some

namespace Locates

variable {values : List α} {positions : List Nat} {xs : List α}

theorem length_eq (h : Locates values positions xs) : positions.length = xs.length := by
  simpa using congrArg List.length h

theorem nil_left (h : Locates values [] xs) : xs = [] :=
  List.map_eq_nil_iff.mp h.symm

theorem cons {i : Nat} {x : α} (hi : values[i]? = some x) (h : Locates values positions xs) :
    Locates values (i :: positions) (x :: xs) := by
  rw [Locates, List.map_cons, List.map_cons, hi, h]

theorem of_cons {i : Nat} (h : Locates values (i :: positions) xs) :
    ∃ x rest, xs = x :: rest ∧ values[i]? = some x ∧ Locates values positions rest := by
  match xs with
  | x :: rest =>
    obtain ⟨hi, hrest⟩ := List.cons.inj h
    exact ⟨x, rest, rfl, hi, hrest⟩

theorem mono {values' : List α} (h : Locates values positions xs)
    (hle : ∀ (i : Nat) (x : α), values[i]? = some x → values'[i]? = some x) :
    Locates values' positions xs := by
  induction positions generalizing xs with
  | nil => exact h
  | cons i positions ih =>
    obtain ⟨x, rest, rfl, hi, hrest⟩ := h.of_cons
    exact (ih hrest).cons (hle i x hi)

theorem append {positions' : List Nat} {xs' : List α} (h : Locates values positions xs)
    (h' : Locates values positions' xs') : Locates values (positions ++ positions') (xs ++ xs') := by
  unfold Locates at *
  rw [List.map_append, List.map_append, h, h']

theorem getElem? (h : Locates values positions xs) {v : Nat} {x : α} (hx : xs[v]? = some x) :
    ∃ i, positions[v]? = some i ∧ values[i]? = some x := by
  have hat := congrArg (·[v]?) h
  simp only [List.getElem?_map, hx, Option.map_some, Option.map_eq_some_iff] at hat
  exact hat

/-- What stands at the position of an entry is the entry. -/
theorem getElem?_eq (h : Locates values positions xs) {v i : Nat} (hi : positions[v]? = some i) :
    values[i]? = xs[v]? := by
  have hat := congrArg (·[v]?) h
  simp only [List.getElem?_map, hi, Option.map_some] at hat
  obtain ⟨x, hx, hvalue⟩ := Option.map_eq_some_iff.mp hat.symm
  rw [hx, hvalue]

theorem drop (h : Locates values positions xs) (n : Nat) :
    Locates values (positions.drop n) (xs.drop n) := by
  unfold Locates at *
  rw [List.map_drop, List.map_drop, h]

theorem lt_length (h : Locates values positions xs) {i : Nat} (hi : i ∈ positions) :
    i < values.length := by
  obtain ⟨v, hv⟩ := List.getElem?_of_mem hi
  have hat := congrArg (·[v]?) h
  simp only [List.getElem?_map, hv, Option.map_some] at hat
  obtain ⟨x, -, hx⟩ := Option.map_eq_some_iff.mp hat.symm
  exact (List.getElem?_eq_some_iff.mp hx.symm).1

theorem map (h : Locates values positions xs) (f : α → β) :
    Locates (values.map f) positions (xs.map f) := by
  have hmap := congrArg (List.map (Option.map f)) h
  rw [List.map_map, List.map_map] at hmap
  rw [Locates, List.map_map]
  simpa [Function.comp_def] using hmap

/-- A default does not matter where there is an entry. -/
theorem map_getD (h : Locates values positions xs) (d : α) : positions.map (values.getD · d) = xs := by
  have hmap := congrArg (List.map (Option.getD · d)) h
  rw [List.map_map, List.map_map] at hmap
  simpa [List.getD_eq_getElem?_getD, Function.comp_def] using hmap

/-- Looking up all positions succeeds if looking up an entry does. -/
theorem mapM {ε : Type} {f : Nat → Except ε β} {g : α → β} (h : Locates values positions xs)
    (hf : ∀ i ∈ positions, ∀ x, values[i]? = some x → f i = .ok (g x)) :
    positions.mapM f = .ok (xs.map g) := by
  rw [mapM_eq_ok]
  induction positions generalizing xs with
  | nil =>
    obtain rfl := h.nil_left
    rfl
  | cons i positions ih =>
    obtain ⟨x, rest, rfl, hi, hrest⟩ := h.of_cons
    rw [List.map_cons, hf i List.mem_cons_self x hi,
      ih hrest fun j hj => hf j (List.mem_cons_of_mem i hj)]
    rfl

end Locates

/-- Positions within a list are those of some entries. -/
theorem exists_locates {values : List α} {positions : List Nat}
    (h : ∀ i ∈ positions, i < values.length) : ∃ xs, Locates values positions xs := by
  induction positions with
  | nil => exact ⟨[], rfl⟩
  | cons i positions ih =>
    obtain ⟨xs, hxs⟩ := ih fun j hj => h j (List.mem_cons_of_mem i hj)
    have hi : i < values.length := h i List.mem_cons_self
    exact ⟨values[i] :: xs, hxs.cons (List.getElem?_eq_getElem hi)⟩

/-- At the positions of the gates that pass a test stand the entries that the test marks. -/
theorem Program.locates_positions (p : Program) (test : Gate → Bool) {values : List α}
    (h : values.length = p.length) :
    Locates values (p.positions test) (keep (p.gates.map test) values) := by
  -- the gates are numbered from the length of the list before them on
  have hshift : ∀ (gates : List Gate) (before after : List α), after.length = gates.length →
      Locates (before ++ after) (((gates.zipIdx before.length).filter fun entry => test entry.1).map
        Prod.snd) (keep (gates.map test) after) := by
    intro gates
    induction gates with
    | nil =>
      intro before after _
      rfl
    | cons g gates ih =>
      intro before after hlength
      match after with
      | x :: after =>
        have hrest := ih (before ++ [x]) after (Nat.succ.inj hlength)
        rw [List.append_assoc, List.length_append] at hrest
        cases hg : test g with
        | false => simpa [List.zipIdx_cons, hg] using hrest
        | true =>
          have hx : (before ++ x :: after)[before.length]? = some x := by simp
          simpa [List.zipIdx_cons, hg] using hrest.cons hx
  exact hshift p.gates [] values h

theorem Program.length_positions (p : Program) (test : Gate → Bool) :
    (p.positions test).length = p.gates.countP test := by
  have hlocates : Locates p.gates (p.positions test) _ := p.locates_positions test rfl
  rw [hlocates.length_eq, keep_test, List.countP_eq_length_filter]

end HalfGates
