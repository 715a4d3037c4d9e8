import HalfGates.Gate.Kind
import HalfGates.Gate.Scope

/-!
# Operations on operands

An operation is a kind of gate applied to as many operands as it takes. The type of the operands is
free: positions in a program, bits, or what a party holds of a wire.

## Main definitions

- `Operation`: a kind with its operands
- `Operation.kind`, `Operation.operands`: the parts of an operation
- `Operation.map`, `Operation.mapM?`: the same operation on other operands
- `Operation.value`: its value on bits
- `Operation.floor`: the parties that learn the value because they know every operand
- `Operation.ofKind?`: an operation from a kind and a list of operands
-/

namespace HalfGates

/-- A gate kind applied to its operands. -/
inductive Operation (ι : Type)
  | input
  | random
  | constant (value : Bool)
  | unary (negated : Bool) (x : ι)
  | linear (negated : Bool) (x y : ι)
  | conjunction (first second output : Bool) (x y : ι)
  deriving DecidableEq

namespace Operation

variable {ι κ : Type}

/-- The kind of an operation. -/
def kind : Operation ι → GateKind
  | .input => .input
  | .random => .random
  | .constant v => .constant v
  | .unary n _ => .unary n
  | .linear n _ _ => .linear n
  | .conjunction p q n _ _ => .conjunction p q n

/-- The operands, in order. -/
def operands : Operation ι → List ι
  | .input | .random | .constant _ => []
  | .unary _ x => [x]
  | .linear _ x y | .conjunction _ _ _ x y => [x, y]

/-- The kind applied to the operands, if there are as many as it takes. -/
def ofKind? : GateKind → List ι → Option (Operation ι)
  | .input, [] => some .input
  | .random, [] => some .random
  | .constant v, [] => some (.constant v)
  | .unary n, [x] => some (.unary n x)
  | .linear n, [x, y] => some (.linear n x y)
  | .conjunction p q n, [x, y] => some (.conjunction p q n x y)
  | _, _ => none

/-- The same operation on other operands. -/
def map (f : ι → κ) : Operation ι → Operation κ
  | .input => .input
  | .random => .random
  | .constant v => .constant v
  | .unary n x => .unary n (f x)
  | .linear n x y => .linear n (f x) (f y)
  | .conjunction p q n x y => .conjunction p q n (f x) (f y)

/-- The same operation on what is found for its operands, if something is found for each. -/
def mapM? (f : ι → Option κ) : Operation ι → Option (Operation κ)
  | .input => some .input
  | .random => some .random
  | .constant v => some (.constant v)
  | .unary n x => (f x).map (.unary n)
  | .linear n x y =>
    match f x, f y with
    | some x, some y => some (.linear n x y)
    | _, _ => none
  | .conjunction p q n x y =>
    match f x, f y with
    | some x, some y => some (.conjunction p q n x y)
    | _, _ => none

/-- The value of an operation on bits. A source takes the bit supplied for it. -/
def value (supplied : Bool) : Operation Bool → Bool
  | .input | .random => supplied
  | .constant v => v
  | .unary n x => x ^^ n
  | .linear n x y => (x ^^ y) ^^ n
  | .conjunction p q n x y => ((x ^^ p) && (y ^^ q)) ^^ n

/-- The parties that know every operand. A constant is known to all, and a source to nobody because
of its operands. -/
def floor : Operation Scope → Scope
  | .input | .random => .neither
  | .constant _ => .both
  | .unary _ s => s
  | .linear _ s t | .conjunction _ _ _ s t => s.inter t

@[simp] theorem length_operands (op : Operation ι) : op.operands.length = op.kind.arity := by
  cases op <;> rfl

@[simp] theorem kind_map (f : ι → κ) (op : Operation ι) : (op.map f).kind = op.kind := by
  cases op <;> rfl

@[simp] theorem operands_map (f : ι → κ) (op : Operation ι) :
    (op.map f).operands = op.operands.map f := by
  cases op <;> rfl

@[simp] theorem ofKind?_kind_operands (op : Operation ι) :
    ofKind? op.kind op.operands = some op := by
  cases op <;> rfl

end Operation

namespace GateKind

/-- The value of a kind on a list of bits of the right length. -/
def value? (k : GateKind) (bits : List Bool) : Option Bool :=
  if k.isSource then none else (Operation.ofKind? k bits).map (Operation.value false)

/-- The values of a unary kind on `0` and `1`, or of a binary kind on `00`, `01`, `10` and `11`. -/
def truthTable (k : GateKind) : Option (List Bool) :=
  match k.arity with
  | 0 => none
  | 1 => [[false], [true]].mapM k.value?
  | _ => [[false, false], [false, true], [true, false], [true, true]].mapM k.value?

end GateKind

end HalfGates
