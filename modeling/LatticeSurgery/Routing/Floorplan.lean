import LatticeSurgery.AddressBook
import LatticeSurgery.Routing.Placement

/-! # Floorplans

A layout together with the places of the resources, and what placing and finishing a node does to
them.
-/

namespace LatticeSurgery

/-- A layout and the places of the resources on it. -/
structure Floorplan where
  layout : Layout
  book : AddressBook
  deriving DecidableEq

namespace Floorplan

/-- Patches that a node would hold if it started at a cycle on the given addresses. -/
def patchesFor (f : Floorplan) (node : Node) (cycle : Nat) (addresses : List Coord) :
    Except Error (Option (List Coord)) :=
  if !addresses.all (f.layout.probe · node.id cycle) then .ok none
  else if node.nonLocal || 0 < node.ancillae then f.layout.findRoute node addresses cycle
  else .ok (some addresses)

/-- Patches that a node would hold if it started at a cycle, and the floorplan with its choice of
    slots pending. -/
def place (f : Floorplan) (node : Node) (cycle : Nat) : Except Error (Option (List Coord)) × Floorplan :=
  let (addresses?, book) := f.book.resolve node
  let f := { f with book }
  match addresses? with
  | none => (.ok none, f)
  | some addresses => (f.patchesFor node cycle addresses, f)

/-- Cycle from which a node placed now counts as running. A factory starts when its places became
    free, but keeps at least one cycle to run. -/
def startOf (f : Floorplan) (node : Node) (cycle : Nat) : Nat :=
  if node.isFactory then cycle - min (node.duration - 1) (cycle - f.book.firstFree node) else cycle

/-- Locks the patches and the places of a node that starts at a cycle. -/
def occupy (f : Floorplan) (node : Node) (patches : List Coord) (start : Nat) : Except Error Floorplan := do
  let layout ← f.layout.lockAll node.id start node.duration patches
  let book ← f.book.lock node start node.duration
  return { layout, book }

/-- Gives up the patches of a finished node. A reset also gives up its external slots, and a Hadamard
    turns its registers. -/
def release (f : Floorplan) (node : Node) (patches : List Coord) : Floorplan :=
  let layout := patches.foldl (·.unlock · node.id) f.layout
  { layout := if node.operation.rotates then patches.foldl .rotate layout else layout
    book := if node.operation.releasesSlots then f.book.free node else f.book }

end Floorplan

end LatticeSurgery
