import LatticeSurgery.Operation
import LatticeSurgery.Layout.Coord

/-! # Patches

A patch is a unit of physical space. A node that uses it holds a lock on it, which lapses by itself
at the end of its term.
-/

namespace LatticeSurgery

/-- Role of a patch. -/
inductive PatchKind where
  /-- Holds a resource. -/
  | register
  /-- Part of a routing channel. -/
  | route
  /-- Border of an external block, such as the output of a factory. -/
  | external
  /-- Not usable. -/
  | blocked
  deriving Repr, DecidableEq

/-- Lock of a node on a patch. -/
structure Lock where
  node : NodeId
  lockedAt : Nat
  /-- First cycle at which others may use the patch again. -/
  freeAt : Nat
  deriving Repr, DecidableEq

/-- A unit of physical space. -/
structure Patch where
  coord : Coord
  kind : PatchKind
  /-- Boundary on the horizontal sides of a register, or on every side of an external patch. -/
  orientation : Boundary
  lock : Option Lock := none
  /-- Cycle at which the latest of all locks ends. -/
  lastUsed : Nat := 0
  deriving Repr, DecidableEq

namespace Patch

/-- Whether a node may use the patch at a cycle. -/
def isFree (patch : Patch) (node : NodeId) (cycle : Nat) : Bool :=
  match patch.lock with
  | none => true
  | some lock => lock.node == node || lock.freeAt ≤ cycle

/-- Boundary shown to a neighbour along an axis. -/
def exposes (patch : Patch) (axis : Axis) : Option Boundary :=
  match patch.kind, axis with
  | .register, .horizontal => some patch.orientation
  | .register, .vertical => some patch.orientation.flip
  | .external, _ => some patch.orientation
  | _, _ => none

/-- Takes a lock. -/
def locked (patch : Patch) (lock : Lock) : Patch :=
  { patch with lock := some lock, lastUsed := max patch.lastUsed lock.freeAt }

/-- Gives up the lock of a node. -/
def unlocked (patch : Patch) (node : NodeId) : Patch :=
  if patch.lock.any (·.node == node) then { patch with lock := none } else patch

/-- Turns the boundaries of a register. -/
def rotated (patch : Patch) : Patch :=
  if patch.kind = .register then { patch with orientation := patch.orientation.flip } else patch

/-- Character of an unlocked patch. -/
def bareMark (patch : Patch) : Char :=
  match patch.kind, patch.orientation with
  | .register, .z => 'Z'
  | .register, .x => 'X'
  | .route, _ => '.'
  | .external, .z => 'E'
  | .external, .x => 'x'
  | .blocked, _ => '#'

/-- Character that stands for the patch in a picture of the layout. -/
def mark (patch : Patch) : Char := if patch.lock.isSome then '*' else patch.bareMark

/-- Kind and orientation named by a character. -/
def ofMark? : Char → Option (PatchKind × Boundary)
  | 'Z' => some (.register, .z)
  | 'X' => some (.register, .x)
  | '.' => some (.route, .z)
  | '#' => some (.blocked, .z)
  | 'E' | 'e' => some (.external, .z)
  | 'x' => some (.external, .x)
  | _ => none

end Patch

end LatticeSurgery
