import LatticeSurgery.Graph.Basic
import LatticeSurgery.Layout.Path

/-! # Placing an operation

An operation on several addresses is joined by a chain of paths from each address to the next, and
every address gets its own ancillae, clear of everything chosen before.
-/

namespace LatticeSurgery

namespace Layout

/-- Boundary that a node joins at an address: an external patch has its own, any other takes the one
    that the operation asks for. -/
def joined (l : Layout) (node : Node) (index arity : Nat) (c : Coord) : Boundary :=
  if l.isExternal c then (l.orientation? c).getD .z else node.operation.boundary index arity

/-- Extends a chain that has reached the address of position `index` through the addresses that
    follow it. -/
def connect (l : Layout) (node : Node) (cycle arity index : Nat) (here : Coord) (chain : List Coord) :
    List Coord → Option (List Coord)
  | [] => some chain
  | next :: rest => do
      let path ← l.route here next node.id cycle
        (l.joined node index arity here) (l.joined node (index + 1) arity next)
      connect l node cycle arity (index + 1) next (appendNew chain (path.drop 1)) rest

/-- Adds the ancillae of each address to a chain. -/
def surround (l : Layout) (node : Node) (cycle : Nat) (chain : List Coord) :
    List Coord → Except Error (Option (List Coord))
  | [] => .ok (some chain)
  | address :: rest =>
      match l.ancillae node.id address node.ancillae cycle chain with
      | .error e => .error e
      | .ok none => .ok none
      | .ok (some spare) => surround l node cycle (chain ++ spare) rest

/-- Patches that join the addresses of a node in order, followed by the ancillae of each address. -/
def findRoute (l : Layout) (node : Node) (addresses : List Coord) (cycle : Nat) :
    Except Error (Option (List Coord)) :=
  match addresses with
  | [] => .ok none
  | anchor :: rest =>
      match l.connect node cycle addresses.length 0 anchor [anchor] rest with
      | none => .ok none
      | some chain => l.surround node cycle chain addresses

end Layout

end LatticeSurgery
