import LatticeSurgery.Resource
import LatticeSurgery.Sorting

/-! # Magic-state factories

A factory finishes one unit every `period` cycles. A pool runs several factories side by side, the
fastest first; each holds at most one finished unit and starts again when the unit is taken.
-/

namespace LatticeSurgery

/-- A production line for one magic state. -/
structure Factory where
  symbol : Symbol
  /-- Cycles needed for one unit. -/
  period : Nat
  deriving Repr, DecidableEq

/-- Factories ordered by period, those of equal period as listed. -/
def fastestFirst (factories : List Factory) : List Factory :=
  sortBy (fun a b => a.period ≤ b.period) factories

/-- The longest period. -/
def longestPeriod (factories : List Factory) : Nat := (factories.map (·.period)).foldl max 0

/-- The factory instance that served one unit. -/
structure Draw where
  symbol : Symbol
  /-- Rank of the instance among the factories of its state, the fastest being 0. -/
  rank : Nat
  period : Nat
  deriving Repr, DecidableEq

/-- Name of the instance as a resource of its own. -/
def Draw.instanceSymbol (draw : Draw) : Symbol := draw.symbol ++ "#" ++ toString draw.rank

/-- A running factory. -/
structure Slot where
  factory : Factory
  /-- Rank among the factories of the same state. -/
  rank : Nat
  /-- Cycles spent on the current unit. -/
  progress : Nat := 0
  deriving Repr, DecidableEq

namespace Slot

/-- Whether a finished unit is waiting. -/
def ready (slot : Slot) : Bool := slot.factory.period ≤ slot.progress

/-- Whether a finished unit of the given state is waiting. -/
def serves (slot : Slot) (symbol : Symbol) : Bool := slot.factory.symbol == symbol && slot.ready

/-- One cycle of production; a finished unit waits. -/
def advance (slot : Slot) : Slot := { slot with progress := min (slot.progress + 1) slot.factory.period }

/-- Production starts again. -/
def restart (slot : Slot) : Slot := { slot with progress := 0 }

/-- What taking the unit reports. -/
def draw (slot : Slot) : Draw := ⟨slot.factory.symbol, slot.rank, slot.factory.period⟩

/-- Ranks factories among those of the same state, counting the slots already there. -/
def rankAll (slots : List Slot) : List Factory → List Slot
  | [] => slots
  | factory :: rest =>
      rankAll (slots ++ [⟨factory, slots.countP (·.factory.symbol == factory.symbol), 0⟩]) rest

/-- Takes a unit from the first slot that has one. -/
def takeFirst (symbol : Symbol) : List Slot → Option (Draw × List Slot)
  | [] => none
  | slot :: rest =>
      if slot.serves symbol then some (slot.draw, slot.restart :: rest)
      else (takeFirst symbol rest).map fun (draw, rest) => (draw, slot :: rest)

end Slot

/-- Factories that run side by side. -/
structure Pool where
  slots : List Slot
  deriving Repr, DecidableEq

namespace Pool

/-- All factories at the start of their first unit. -/
def new (factories : List Factory) : Pool := ⟨Slot.rankAll [] (fastestFirst factories)⟩

/-- Whether some factory makes a state. -/
def produces (pool : Pool) (symbol : Symbol) : Bool := pool.slots.any (·.factory.symbol == symbol)

/-- Number of finished units of a state. -/
def inventory (pool : Pool) (symbol : Symbol) : Nat := pool.slots.countP (·.serves symbol)

/-- Takes one finished unit of a state from the fastest factory that has one. -/
def consume (pool : Pool) (symbol : Symbol) : Option (Draw × Pool) :=
  (Slot.takeFirst symbol pool.slots).map fun (draw, slots) => (draw, ⟨slots⟩)

/-- One cycle of production everywhere. -/
def advance (pool : Pool) : Pool := ⟨pool.slots.map Slot.advance⟩

/-- Several cycles of production. -/
def advanceBy (pool : Pool) : Nat → Pool
  | 0 => pool
  | n + 1 => pool.advance.advanceBy n

/-- Whether every factory has a finished unit. -/
def saturated (pool : Pool) : Bool := pool.slots.all Slot.ready

/-- The period of the slowest factory. -/
def slowest (pool : Pool) : Nat := longestPeriod (pool.slots.map (·.factory))

end Pool

end LatticeSurgery
