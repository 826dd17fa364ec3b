import LatticeSurgery.Resource

/-! # Errors

An error is a cause; the wording of every cause is in one place, `Error.message`.
-/

namespace LatticeSurgery

/-- What can be wrong with a dependency graph or with an operation added to it. -/
inductive GraphFlaw where
  /-- An operation names a target twice. -/
  | repeatedTarget (label : String) (symbol : Symbol)
  /-- A magic state has no node that supplies it. -/
  | sourceless (symbol : Symbol)
  /-- A magic state has the name of an exclusive resource. -/
  | collision (symbol : Symbol)
  /-- Some nodes wait for each other. -/
  | cycle (count : Nat) (name : String)
  deriving Repr, DecidableEq

/-- What can be wrong with a layout or with the settings. -/
inductive SetupFlaw where
  /-- A layout row is longer or shorter than the first one. -/
  | rowLength (row found expected : Nat)
  /-- A layout row holds a character that names no patch. -/
  | unknownPatch (mark : Char) (row col : Nat)
  /-- A coordinate lies outside the layout. -/
  | noPatch (row col : Nat)
  /-- No operation could ever be routed. -/
  | noCapacity
  /-- A factory would produce without taking time. -/
  | zeroPeriod (symbol : Symbol)
  deriving Repr, DecidableEq

/-- Two parts of the state that disagree. -/
inductive Inconsistency where
  /-- An exclusive resource was never written. -/
  | noWriter (symbol : Symbol)
  /-- A unit counted as available could not be taken. -/
  | noInventory (symbol : Symbol)
  /-- A consumer has no producer for a state that was drawn for it. -/
  | lostEdge (node : NodeId) (symbol : Symbol)
  deriving Repr, DecidableEq

/-- Why an operation of the library has no result. -/
inductive Error where
  /-- An operation names a resource that nothing produced. -/
  | unknownResource (symbol : Symbol) (label : String)
  /-- The dependency graph is malformed. -/
  | invalidGraph (flaw : GraphFlaw)
  /-- A magic state is drawn but no factory produces it. -/
  | missingFactory (symbol : Symbol)
  /-- No later cycle of scheduling can differ from this one. -/
  | stalled (cycle : Nat) (pending : List NodeId)
  /-- Routing made no progress for longer than allowed. -/
  | unroutable (cycle : Nat) (waiting : List NodeId)
  /-- The layout or the settings are unusable. -/
  | badSetup (flaw : SetupFlaw)
  /-- A file is missing or is not text. -/
  | unreadable
  /-- A text is not the JSON form of the value that was asked for. -/
  | malformed
  /-- The state contradicts itself. -/
  | inconsistent (cause : Inconsistency)
  /-- A counter left the range of 64-bit unsigned numbers. -/
  | overflow
  /-- More places were asked for than a list can have room for. -/
  | oversized (count : Nat)
  /-- A node that the graph does not have. -/
  | unknownNode (id : NodeId)
  /-- A simulation used up its bound on steps. -/
  | unfinished
  deriving Repr, DecidableEq

/-- The kinds of errors that are worded as a heading and a detail. -/
inductive ErrorKind where
  | invalidGraph
  | missingFactory
  | configuration
  | file
  | serialization
  | internal
  deriving Repr, DecidableEq

/-- An error text: the heading of its kind, then the detail. -/
def ErrorKind.describe : ErrorKind → String → String
  | .invalidGraph, detail => "Invalid graph: " ++ detail
  | .missingFactory, symbol => "No factory registered for magic state '" ++ symbol ++ "'"
  | .configuration, detail => "Configuration error: " ++ detail
  | .file, detail => "I/O error: " ++ detail
  | .serialization, detail => "Serialization error: " ++ detail
  | .internal, detail => "Internal error: " ++ detail

/-- Wording of a graph flaw. -/
def GraphFlaw.message : GraphFlaw → String
  | .repeatedTarget label symbol => s!"{label} targets '{symbol}' more than once"
  | .sourceless symbol => s!"magic state '{symbol}' has no source"
  | .collision symbol => s!"magic state '{symbol}' collides with an exclusive resource"
  | .cycle count name => s!"dependency cycle among {count} nodes in {name}"

/-- Wording of a setup flaw. -/
def SetupFlaw.message : SetupFlaw → String
  | .rowLength row found expected => s!"layout row {row} has {found} patches, expected {expected}"
  | .unknownPatch mark row col => s!"unknown patch '{mark}' at {row},{col}"
  | .noPatch row col => s!"no patch at {row},{col}"
  | .noCapacity => "channel capacity must be at least 1"
  | .zeroPeriod symbol => s!"factory for '{symbol}' has a zero period"

/-- Wording of an inconsistency. -/
def Inconsistency.message : Inconsistency → String
  | .noWriter symbol => s!"'{symbol}' has no recorded writer"
  | .noInventory symbol => s!"inventory of '{symbol}' vanished"
  | .lostEdge node symbol => NodeId.text node ++ s!" lost its '{symbol}' edge"

namespace Error

/-- Wording of an error. -/
def message : Error → String
  | unknownResource symbol label => s!"Unknown resource '{symbol}' referenced by {label}"
  | invalidGraph flaw => ErrorKind.invalidGraph.describe flaw.message
  | missingFactory symbol => ErrorKind.missingFactory.describe symbol
  | stalled cycle pending =>
      s!"Scheduler stalled at cycle {cycle} with {pending.length} pending nodes"
  | unroutable cycle waiting =>
      s!"Routing stalled at cycle {cycle} with {waiting.length} waiting nodes"
  | badSetup flaw => ErrorKind.configuration.describe flaw.message
  | unreadable => ErrorKind.file.describe "no readable text"
  | malformed => ErrorKind.serialization.describe "unexpected text"
  | inconsistent cause => ErrorKind.internal.describe cause.message
  | overflow => "Counter out of range"
  | oversized count => s!"No room for a list of {count} places"
  | unknownNode id => "Unknown node " ++ NodeId.text id
  | unfinished => "Simulation out of steps"

/-- Errors after which no further operation makes sense. The others leave a usable state behind. -/
def isFatal : Error → Bool
  | overflow | oversized _ | unknownNode _ | unfinished => true
  | _ => false

end Error

/-- A failed operation together with the state that it leaves behind. -/
structure Failure (σ : Type) where
  error : Error
  state : σ
  deriving Repr, DecidableEq

/-- A computation succeeds if its first part does and the rest succeeds on what that gives. -/
theorem bind_eq_ok {x : Except ε α} {f : α → Except ε β} {b : β} :
    (x >>= f) = .ok b ↔ ∃ a, x = .ok a ∧ f a = .ok b := by
  cases x <;> simp [bind, Except.bind]

theorem bind_eq_error {x : Except ε α} {f : α → Except ε β} {e : ε} :
    (x >>= f) = .error e ↔ x = .error e ∨ ∃ a, x = .ok a ∧ f a = .error e := by
  cases x <;> simp [bind, Except.bind]

theorem exists_ok_of_any {x : Except ε α} {p : α → Bool} (h : x.toOption.any p) : ∃ a, x = .ok a ∧ p a := by
  cases x with
  | error e => cases h
  | ok a => exact ⟨a, rfl, h⟩

theorem exists_error_of_mapError {x : Except (Failure σ) α} {e : Error} (h : x.mapError (·.error) = .error e) :
    ∃ left, x = .error ⟨e, left⟩ := by
  cases x with
  | ok a => cases h
  | error failure =>
      cases h
      exact ⟨failure.state, rfl⟩

/-- First number that does not fit in 64 bits. -/
def wordLimit : Nat := 18446744073709551616

/-- Sum of two 64-bit numbers, refused when it does not fit in 64 bits. -/
def addWords (a b : Nat) : Except Error Nat :=
  if a + b < wordLimit then .ok (a + b) else .error .overflow

theorem addWords_eq_ok_iff {a b c : Nat} :
    addWords a b = .ok c ↔ a + b < wordLimit ∧ c = a + b := by
  unfold addWords
  split <;> grind

theorem addWords_eq_error_iff {a b : Nat} {e : Error} :
    addWords a b = .error e ↔ wordLimit ≤ a + b ∧ e = .overflow := by
  unfold addWords
  split <;> grind

end LatticeSurgery
