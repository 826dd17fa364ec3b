import LatticeSurgery.Layout.Basic

/-! # Paths through free channels

Free channel patches are explored outwards, ring by ring, so that every patch is met along a shortest
path. A route is the first path met that ends beside its goal; spare patches are the first ones met.
-/

namespace LatticeSurgery

/-- A path, by the place it has reached and the places before it, the latest first. -/
structure Trail where
  here : Coord
  back : List Coord := []
  deriving Repr, DecidableEq

/-- Keeps the first trail to each place not seen yet. -/
def Trail.distinct (seen : List Coord) : List Trail → List Trail
  | [] => []
  | trail :: rest =>
      if trail.here ∈ seen then distinct seen rest
      else trail :: distinct (trail.here :: seen) rest

namespace Layout

/-- Trails one step longer, to usable places not seen yet. -/
def ring (l : Layout) (usable : Coord → Bool) (trails : List Trail) (seen : List Coord) : List Trail :=
  Trail.distinct seen <| trails.flatMap fun trail =>
    ((l.adjacent trail.here).filter (usable ·.1)).map fun next => ⟨next.1, trail.here :: trail.back⟩

/-- Everything met beyond some trails, nearest first, at most `bound` rings. -/
def explore (l : Layout) (usable : Coord → Bool) : Nat → List Trail → List Coord → List Trail
  | 0, _, _ => []
  | bound + 1, trails, seen =>
      let next := l.ring usable trails seen
      if next.isEmpty then []
      else next ++ explore l usable bound next (next.map (·.here) ++ seen)

/-- First steps out of a place through sides that show a boundary. -/
def exits (l : Layout) (usable : Coord → Bool) (start : Coord) (boundary : Boundary) : List Trail :=
  ((l.adjacent start).filter fun (next, axis) => l.exposes start axis = some boundary && usable next).map
    fun (next, _) => ⟨next, [start]⟩

/-- Whether a place touches a goal along a side of the goal that shows a boundary. -/
def docks (l : Layout) (goal : Coord) (boundary : Boundary) (c : Coord) : Bool :=
  (l.adjacent c).any fun (next, axis) => next = goal && l.exposes goal axis = some boundary

/-- A shortest path from `start` to `goal` through channel patches that are free for a node, leaving
    and entering through sides that show the given boundaries; both ends are included. -/
def route (l : Layout) (start goal : Coord) (node : NodeId) (cycle : Nat)
    (startBoundary goalBoundary : Boundary) : Option (List Coord) :=
  if start = goal then none
  else
    let usable := l.routable node cycle
    let first := l.exits usable start startBoundary
    let met := first ++ l.explore usable l.patches.length first (first.map (·.here) ++ [start])
    (met.find? fun trail => l.docks goal goalBoundary trail.here).map fun trail =>
      (goal :: trail.here :: trail.back).reverse

/-- The `count` nearest free channel patches around an anchor that are not taken. Taken patches are
    not handed out but may lead to others. -/
def spare (l : Layout) (node : NodeId) (anchor : Coord) (count cycle : Nat) (taken : List Coord) :
    Option (List Coord) :=
  if count = 0 then some []
  else
    let met := l.explore (l.routable node cycle) l.patches.length [⟨anchor, []⟩] [anchor]
    let spare := (met.map (·.here)).filter (!taken.contains ·)
    if spare.length < count then none else some (spare.take count)

/-- Least number of places that a list has no room for: at sixteen bytes each they take 2^63 bytes. -/
def roomLimit : Nat := 576460752303423488

/-- Reserves room for `count` places and then looks for that many spare patches around an anchor. No
    room is reserved around an anchor outside the grid, where nothing can be found. -/
def ancillae (l : Layout) (node : NodeId) (anchor : Coord) (count cycle : Nat) (taken : List Coord) :
    Except Error (Option (List Coord)) :=
  if roomLimit ≤ count ∧ (l.patch? anchor).isSome then .error (.oversized count)
  else .ok (l.spare node anchor count cycle taken)

theorem ancillae_eq_error_iff {l : Layout} {node : NodeId} {anchor : Coord} {count cycle : Nat}
    {taken : List Coord} {e : Error} :
    l.ancillae node anchor count cycle taken = .error e
      ↔ (roomLimit ≤ count ∧ (l.patch? anchor).isSome) ∧ e = .oversized count := by
  unfold ancillae
  split
  next h => simp [h, eq_comm]
  next h => simp [h]

theorem ancillae_eq_spare {l : Layout} {node : NodeId} {anchor : Coord} {count cycle : Nat}
    {taken : List Coord} (room : count < roomLimit) :
    l.ancillae node anchor count cycle taken = .ok (l.spare node anchor count cycle taken) :=
  if_neg fun h => Nat.not_le.mpr room h.1

end Layout

end LatticeSurgery
