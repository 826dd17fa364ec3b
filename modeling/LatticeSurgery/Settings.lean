import LatticeSurgery.Error
import LatticeSurgery.Factory

/-! # Settings

What a compilation can be told: the channel capacity, the factories, and how patient the router is.
-/

namespace LatticeSurgery

/-- Settings of the router. -/
structure RouterSettings where
  /-- Cycles in a row without change that are put up with. -/
  stallLimit : Nat := 8
  deriving Repr, DecidableEq

/-- Settings of a compilation. -/
structure Settings where
  /-- Non-local operations admitted per cycle. -/
  channelCapacity : Nat := 1
  factories : List Factory := []
  router : RouterSettings := {}
  deriving Repr, DecidableEq

/-- Refuses settings that no schedule can meet. -/
def Settings.validate (s : Settings) : Except Error Unit :=
  if s.channelCapacity = 0 then .error (.badSetup .noCapacity)
  else
    match s.factories.find? (·.period = 0) with
    | some factory => .error (.badSetup (.zeroPeriod factory.symbol))
    | none => .ok ()

end LatticeSurgery
