import LatticeSurgery.Graph.Basic
import LatticeSurgery.Layout.Coord

/-! # Addresses

Where each resource lives. Some resources have a fixed place; any other takes the first free external
slot at its first use and keeps it until a reset gives it up. A choice of slots is pending until the
node that asked for it is placed.
-/

namespace LatticeSurgery

/-- Places of the resources. -/
structure AddressBook where
  /-- Fixed places. -/
  bindings : SymbolMap Coord := ∅
  /-- Slots for the other resources, in order of preference. -/
  slots : List Coord := []
  /-- Slots in use. -/
  held : SymbolMap Coord := ∅
  /-- Slots chosen for a node that is not placed yet. -/
  pending : NodeMap (List (Symbol × Coord)) := ∅
  /-- Cycle at which the last use of a place ends. -/
  busyUntil : Std.ExtTreeMap Coord Nat := ∅
  deriving DecidableEq

namespace AddressBook

/-- Gives a resource a fixed place. -/
def bind (book : AddressBook) (symbol : Symbol) (coord : Coord) : AddressBook :=
  { book with bindings := book.bindings.insert symbol coord }

/-- Current place of a resource. -/
def address? (book : AddressBook) (symbol : Symbol) : Option Coord :=
  book.bindings[symbol]?.or book.held[symbol]?

/-- A fixed place takes precedence over a slot in use. -/
theorem address?_bind (book : AddressBook) (symbol other : Symbol) (coord : Coord) :
    (book.bind symbol coord).address? other
      = if symbol = other then some coord else book.address? other := by
  simp only [address?, bind, Std.ExtTreeMap.getElem?_insert, Std.compare_eq_iff_eq]
  split <;> rfl

/-- First slot that no resource holds and that is not among the chosen ones. -/
def freeSlot? (book : AddressBook) (chosen : List (Symbol × Coord)) : Option Coord :=
  book.slots.find? fun slot =>
    !book.held.values.contains slot && !(chosen.map Prod.snd).contains slot

/-- Places for targets in order, and the slots chosen on the way; `chosen` holds earlier choices. -/
def choose (book : AddressBook) (chosen : List (Symbol × Coord)) :
    List Symbol → Option (List Coord × List (Symbol × Coord))
  | [] => some ([], chosen)
  | target :: rest =>
      match book.address? target with
      | some coord => (book.choose chosen rest).map fun (coords, chosen) => (coord :: coords, chosen)
      | none => do
          let slot ← book.freeSlot? chosen
          let (coords, chosen) ← book.choose (chosen ++ [(target, slot)]) rest
          return (slot :: coords, chosen)

/-- Places for the targets of a node, with slots chosen for those that have none; `none` if the slots
    do not suffice. The choice is pending afterwards. -/
def resolve (book : AddressBook) (node : Node) : Option (List Coord) × AddressBook :=
  match book.choose [] node.targets with
  | none => (none, { book with pending := book.pending.erase node.id })
  | some (coords, []) => (some coords, { book with pending := book.pending.erase node.id })
  | some (coords, chosen) => (some coords, { book with pending := book.pending.insert node.id chosen })

/-- Turns the pending choice of a node into slots in use. -/
def commit (book : AddressBook) (id : NodeId) : AddressBook :=
  { book with
    held := (book.pending.getD id []).foldl (fun held (symbol, slot) => held.insert symbol slot) book.held
    pending := book.pending.erase id }

/-- Notes that a place is in use until a cycle. -/
def occupy (book : AddressBook) (freeAt : Nat) (symbol : Symbol) : AddressBook :=
  match book.address? symbol with
  | some coord =>
      { book with busyUntil := book.busyUntil.insert coord (max (book.busyUntil.getD coord 0) freeAt) }
  | none => book

/-- Commits the choice of a node and notes how long its places are in use. -/
def lock (book : AddressBook) (node : Node) (cycle duration : Nat) : Except Error AddressBook := do
  let freeAt ← addWords cycle duration
  return node.targets.foldl (·.occupy freeAt ·) (book.commit node.id)

/-- Gives up the slots of the targets of a node. -/
def free (book : AddressBook) (node : Node) : AddressBook :=
  { book with held := node.targets.foldl (·.erase ·) book.held }

/-- Cycle from which all places of a node are free. -/
def firstFree (book : AddressBook) (node : Node) : Nat :=
  ((node.targets.filterMap book.address?).map (book.busyUntil.getD · 0)).foldl max 0

/-- Slots held by the resources that some node of a graph acts on, by name. -/
def holdings (book : AddressBook) (g : Graph) : List (Symbol × Coord) :=
  book.held.toList.filter fun (symbol, _) => g.nodes.any (·.touches symbol)

end AddressBook

end LatticeSurgery
