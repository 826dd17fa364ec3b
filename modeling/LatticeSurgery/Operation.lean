import LatticeSurgery.Error

/-! # Operations

The operation kinds of a lattice-surgery program: what they are called, how long they last, how many
ancilla patches they need beside each target, and which boundary they join at each target.
-/

namespace LatticeSurgery

/-- Type of the side that a patch shows to a route. -/
inductive Boundary where
  | z
  | x
  deriving Repr, DecidableEq

/-- The opposite boundary type. -/
def Boundary.flip : Boundary → Boundary
  | z => x
  | x => z

@[simp] theorem Boundary.flip_flip (b : Boundary) : b.flip.flip = b := by cases b <;> rfl

theorem Boundary.flip_ne (b : Boundary) : b.flip ≠ b := by cases b <;> simp [flip]

/-- The kinds of operations. -/
inductive Operation where
  /-- Initialise fresh patches. -/
  | init
  /-- Prepare a patch again, as a magic-state refill does. -/
  | prep
  /-- Reset and give up patches. -/
  | reset
  /-- Measure. -/
  | measure
  /-- Pauli X. -/
  | pauliX
  /-- Pauli Z. -/
  | pauliZ
  /-- Hadamard, which turns the boundaries of its patches. -/
  | hadamard
  /-- Phase gate S. -/
  | phase
  /-- T gate, which consumes a magic state. -/
  | t
  /-- Controlled NOT; the first target controls. -/
  | cnot
  /-- Toffoli; the last target is acted on. -/
  | toffoli
  /-- Move a state from the first target to the second. -/
  | move
  /-- An operation with its own label, duration and number of ancillae. -/
  | custom (label : String) (cycles ancillae : Nat)
  deriving Repr, DecidableEq

namespace Operation

/-- A custom operation that lasts at least one cycle. -/
def lasting (label : String) (cycles ancillae : Nat) : Operation :=
  custom label (max cycles 1) ancillae

/-- Label that texts show. -/
def label : Operation → String
  | init => "INIT"
  | prep => "PREP"
  | reset => "RESET"
  | measure => "MEAS"
  | pauliX => "X"
  | pauliZ => "Z"
  | hadamard => "H"
  | phase => "S"
  | t => "T"
  | cnot => "CNOT"
  | toffoli => "TOFFOLI"
  | move => "MOVE"
  | custom label _ _ => label

/-- Default duration in cycles, at least one. -/
def cycles : Operation → Nat
  | cnot | toffoli => 3
  | custom _ cycles _ => max cycles 1
  | _ => 1

/-- Number of ancilla patches needed for each target. -/
def ancillae : Operation → Nat
  | hadamard | phase => 1
  | custom _ _ ancillae => ancillae
  | _ => 0

/-- Whether finishing the operation turns the boundaries of its patches. -/
def rotates : Operation → Bool
  | hadamard => true
  | _ => false

/-- Whether finishing the operation gives up the external slots of its targets. -/
def releasesSlots : Operation → Bool
  | reset => true
  | _ => false

/-- Whether the operation may introduce resources not known before. -/
def produces : Operation → Bool
  | init | prep => true
  | _ => false

/-- Magic state that the operation consumes by its kind. -/
def magicState : Operation → Option Symbol
  | t => some "T"
  | _ => none

/-- Boundary joined at the target of position `index` among `arity` targets. The last target of a
    controlled operation is joined along X, and so is every target of a move but the first. -/
def boundary (op : Operation) (index arity : Nat) : Boundary :=
  match op with
  | cnot | toffoli => if index + 1 = arity ∧ 1 < arity then .x else .z
  | move => if 0 < index then .x else .z
  | _ => .z

/-- The boundary at any 64-bit position. A controlled operation looks at the position that follows,
    so it has none at the last representable one. -/
def boundaryAt (op : Operation) (index arity : Nat) : Except Error Boundary :=
  match op with
  | cnot | toffoli => do
      let _ ← addWords index 1
      return op.boundary index arity
  | _ => return op.boundary index arity

theorem cycles_pos (op : Operation) : 0 < op.cycles := by
  cases op with
  | custom _ cycles _ => exact Nat.le_max_right cycles 1
  | _ => simp [cycles]

end Operation

end LatticeSurgery
