import HalfGates.Aes

/-!
# Tweaked hashing of labels

A row of a garbled table is a label hidden under the hash of another label. The hash takes the place
of the gate as a tweak, so that one label used at two gates gives unrelated pads.

## Main definitions

- `Tweak`: the place of a gate, and of a part of it
- `Query`: a block hashed at a place
- `TweakedHash`: any function from a block and a tweak to a pad
- `Hashing`, `Hashing.run`: a computation that asks for pads, and answering what it asks
- `Hashing.hide`, `Hashing.reveal`: hiding a block under a pad, and the inverse
- `FixedKeyHash`: the hash made from a block cipher under one key

## Design notes

A half gate is a computation that asks. It has no hash at hand, so that it gets a pad in one way only, and
whoever answers it records in the same step what was asked.
-/

namespace HalfGates

/-- The place of a gate in its program, and the number of its part; the gate itself is part zero. -/
structure Tweak where
  gate : Nat
  part : Nat
  deriving DecidableEq

/-- A label that was hashed, and at which place. -/
structure Query where
  key : Block
  place : Tweak
  deriving DecidableEq

/-- A pad for each block and place. -/
abbrev TweakedHash : Type :=
  Block → Tweak → Block

/-- A computation that asks for pads, one after the other, and ends with a result. -/
inductive Hashing (α : Type)
  | done (result : α)
  | ask (query : Query) (next : Block → Hashing α)

namespace Hashing

variable {α β : Type}

/-- Goes on with the result of a computation. -/
def andThen (f : α → Hashing β) : Hashing α → Hashing β
  | .done x => f x
  | .ask query next => .ask query fun pad => (next pad).andThen f

instance : Monad Hashing where
  pure := .done
  bind c f := c.andThen f

/-- The pad of a key at a place. -/
def pad (key : Block) (place : Tweak) : Hashing Block :=
  .ask ⟨key, place⟩ .done

/-- The message hidden under the pad of a key. -/
def hide (key message : Block) (place : Tweak) : Hashing Block := do
  return message ^^^ (← pad key place)

/-- The message that was hidden under the pad of a key. -/
def reveal (key hidden : Block) (place : Tweak) : Hashing Block := do
  return hidden ^^^ (← pad key place)

/-- Has a hash answer what is asked. Every query is put in front of the log as it is answered. -/
def run (hash : TweakedHash) (log : List Query) : Hashing α → α × List Query
  | .done x => (x, log)
  | .ask query next => run hash (query :: log) (next (hash query.key query.place))

/-- The result, if the hash answers. -/
def value (hash : TweakedHash) (c : Hashing α) : α :=
  (c.run hash []).1

/-- What is asked, newest first, if the hash answers. -/
def queries (hash : TweakedHash) (c : Hashing α) : List Query :=
  (c.run hash []).2

variable (hash : TweakedHash) (log : List Query)

/-- The log has no say in the result, and stays behind what is asked. -/
theorem run_eq (c : Hashing α) : c.run hash log = (c.value hash, c.queries hash ++ log) := by
  induction c generalizing log with
  | done x => rfl
  | ask query next ih =>
    have hnext := ih (hash query.key query.place)
    rw [value, queries, run, run, hnext (query :: log), hnext [query], List.append_assoc]
    rfl

theorem run_bind (c : Hashing α) (f : α → Hashing β) :
    (c >>= f).run hash log = (f (c.run hash log).1).run hash (c.run hash log).2 := by
  induction c generalizing log with
  | done x => rfl
  | ask query next ih => exact ih (hash query.key query.place) (query :: log)

@[simp] theorem value_pure (x : α) : (pure x : Hashing α).value hash = x := rfl

@[simp] theorem value_pad (key : Block) (place : Tweak) :
    (pad key place).value hash = hash key place := rfl

@[simp] theorem value_bind (c : Hashing α) (f : α → Hashing β) :
    (c >>= f).value hash = (f (c.value hash)).value hash := by
  rw [value, run_bind, run_eq]
  rfl

@[simp] theorem queries_pure (x : α) : (pure x : Hashing α).queries hash = [] := rfl

@[simp] theorem queries_pad (key : Block) (place : Tweak) :
    (pad key place).queries hash = [⟨key, place⟩] := rfl

@[simp] theorem queries_bind (c : Hashing α) (f : α → Hashing β) :
    (c >>= f).queries hash = (f (c.value hash)).queries hash ++ c.queries hash := by
  rw [queries, run_bind, run_eq]
  rfl

end Hashing

namespace TweakedHash

/-- The message hidden under the pad of a key. -/
def hide (h : TweakedHash) (key message : Block) (t : Tweak) : Block :=
  (Hashing.hide key message t).value h

/-- The message that was hidden under the pad of a key. -/
def reveal (h : TweakedHash) (key hidden : Block) (t : Tweak) : Block :=
  (Hashing.reveal key hidden t).value h

@[simp] theorem reveal_hide (h : TweakedHash) (key message : Block) (t : Tweak) :
    reveal h key (hide h key message t) t = message := by
  show message ^^^ h key t ^^^ h key t = message
  rw [BitVec.xor_assoc, BitVec.xor_self, BitVec.xor_zero]

end TweakedHash

/-- The block of a tweak: the gate in the first half, the part in the second, each modulo `2 ^ 64`. -/
def Tweak.toBlock (t : Tweak) : Block :=
  (BitVec.ofNat 64 t.gate ++ BitVec.ofNat 64 t.part : BitVec 128)

/-- A hash made from the block cipher under a fixed key. -/
structure FixedKeyHash where
  keys : Aes.Schedule

namespace FixedKeyHash

/-- The hash with the given key. -/
def ofKey (key : Block) : FixedKeyHash :=
  ⟨Aes.schedule key⟩

/-- The hash of a block: its encryption xored with the block doubled. -/
def plain (h : FixedKeyHash) (x : Block) : Block :=
  Aes.encrypt h.keys x ^^^ x.doubled

/-- The hash of a block at a place: the hash of the block xored with the tweak. -/
def tweaked (h : FixedKeyHash) : TweakedHash := fun x t =>
  h.plain (x ^^^ t.toBlock)

end FixedKeyHash

end HalfGates
