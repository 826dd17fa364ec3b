import Mathlib.Data.List.Forall2
import LatticeSurgery.Proofs.Layout.ShortestPath
import LatticeSurgery.Proofs.Routing.Placement

/-! # The shape of a placement

What is chosen for an operation falls into two parts. The core is made of paths, from each target to the next; each
leaves and enters through sides that show the boundaries that the operation joins there. Paths may cross, and a patch of
several paths is chosen once. After the core come the ancillae, a group for each target.
-/

namespace LatticeSurgery

namespace Layout

/-- The boundary at which an operation joins a place, by the position of the place among the targets: an external patch
    has its own. -/
def Requires (l : Layout) (op : Operation) (index arity : Nat) (c : Coord) (boundary : Boundary) : Prop :=
  if l.isExternal c then l.orientation? c = some boundary else boundary = op.boundary index arity

/-- A step to a neighbour that is a channel patch free for a node. -/
def Steps (l : Layout) (node : NodeId) (cycle : Nat) (c d : Coord) : Prop :=
  l.isOpen c ∧ (c.axisTo? d).isSome ∧ l.routable node cycle d

/-- Paths of a node from each of its targets to the next, where the first target has the position `index`. -/
inductive Linked (l : Layout) (node : Node) (cycle arity : Nat) : Nat → List Coord → List (List Coord) → Prop where
  | last (index : Nat) (a : Coord) : Linked l node cycle arity index [a] []
  | link {index : Nat} {a b : Coord} {rest channel : List Coord} {paths : List (List Coord)} {leave enter : Boundary}
      (leaves : l.Requires node.operation index arity a leave)
      (enters : l.Requires node.operation (index + 1) arity b enter)
      (joins : l.Joins a b node.id cycle leave enter channel)
      (onward : Linked l node cycle arity (index + 1) (b :: rest) paths) :
      Linked l node cycle arity index (a :: b :: rest) ((a :: (channel ++ [b])) :: paths)

/-- Groups of ancillae, one for each target, that can be reached from it through free channel patches. -/
def Surrounded (l : Layout) (node : Node) (cycle : Nat) : List Coord → List (List Coord) → Prop :=
  List.Forall₂ fun address group =>
    group.length = node.ancillae ∧ ∀ c ∈ group, Relation.TransGen (l.Steps node.id cycle) address c

/-- What is chosen for the targets of a node, in the order of choice. -/
structure Shaped (l : Layout) (node : Node) (cycle : Nat) (addresses chain : List Coord) : Prop where
  starts : chain.head? = addresses.head?
  /-- So no group of ancillae shares a patch with a path or with another group. -/
  once : chain.Nodup
  targets : addresses ⊆ chain
  free : ∀ c ∈ chain, c ∉ addresses → l.routable node.id cycle c
  parts : ∃ core paths groups, chain = core ++ groups.flatten ∧
    (∀ c, c ∈ core ↔ addresses.head? = some c ∨ ∃ path ∈ paths, c ∈ path) ∧
    l.Linked node cycle addresses.length 0 addresses paths ∧ l.Surrounded node cycle addresses groups

variable {l : Layout} {node : Node} {cycle arity index : Nat} {here : Coord} {chain rest core : List Coord}

/-! ## Paths -/

theorem requires_joined (l : Layout) (node : Node) (index arity : Nat) (c : Coord) :
    l.Requires node.operation index arity c (l.joined node index arity c) := by
  unfold Requires joined
  split
  next external =>
      rw [isExternal, Option.any_eq_true] at external
      obtain ⟨patch, found, -⟩ := external
      simp [orientation?, found]
  · rfl

theorem joins_of_route {start goal : Coord} {id : NodeId} {leave enter : Boundary} {path : List Coord}
    (h : l.route start goal id cycle leave enter = some path) :
    ∃ channel, path = start :: (channel ++ [goal]) ∧ l.Joins start goal id cycle leave enter channel := by
  by_cases apart : start = goal
  · rw [route, if_pos apart] at h
    cases h
  · rw [route_eq apart] at h
    obtain ⟨trail, found, rfl⟩ := Option.map_eq_some_iff.mp h
    have leaves := leaves_of_mem_sought (List.mem_of_find?_eq_some found)
    have docks : l.docks goal enter trail.here := by simpa using List.find?_some found
    obtain ⟨channel, same, -, joins, -⟩ := joins_of_docks leaves docks apart
    exact ⟨channel, same, joins⟩

theorem prefix_connect (h : l.connect node cycle arity index here chain rest = some core) : chain <+: core := by
  induction rest generalizing index here chain with
  | nil =>
      cases h
      exact List.prefix_refl _
  | cons next rest ih =>
      obtain ⟨path, -, h⟩ := Option.bind_eq_some_iff.mp h
      exact (prefix_appendNew chain (path.drop 1)).trans (ih h)

/-- Connecting adds the patches of paths that link what is left of the targets, and nothing else. -/
theorem exists_linked (h : l.connect node cycle arity index here chain rest = some core) (begun : here ∈ chain) :
    ∃ paths, l.Linked node cycle arity index (here :: rest) paths ∧
      ∀ c, c ∈ core ↔ c ∈ chain ∨ ∃ path ∈ paths, c ∈ path := by
  induction rest generalizing index here chain with
  | nil =>
      cases h
      exact ⟨[], .last index here, by simp⟩
  | cons next rest ih =>
      obtain ⟨path, routed, h⟩ := Option.bind_eq_some_iff.mp h
      obtain ⟨channel, rfl, joins⟩ := joins_of_route routed
      -- the start of the path is left out, but it was reached before
      have added : ∀ c, c ∈ appendNew chain (channel ++ [next]) ↔ c ∈ chain ∨ c ∈ here :: (channel ++ [next]) := by
        intro c
        rw [mem_appendNew, List.mem_cons]
        refine ⟨Or.imp_right .inr, Or.rec .inl (Or.rec ?_ .inr)⟩
        rintro rfl
        exact .inl begun
      obtain ⟨paths, linked, members⟩ := ih h ((added next).mpr (.inr (by simp)))
      refine ⟨_, .link (requires_joined ..) (requires_joined ..) joins linked, fun c => ?_⟩
      simp only [members, List.drop_one, List.tail_cons, added, List.exists_mem_cons_iff, or_assoc]

/-- Every target is the first one or the end of a path. -/
theorem Linked.mem {addresses : List Coord} {paths : List (List Coord)}
    (linked : l.Linked node cycle arity index addresses paths) {c : Coord} (member : c ∈ addresses) :
    addresses.head? = some c ∨ ∃ path ∈ paths, c ∈ path := by
  induction linked with
  | last index a => exact .inl (congrArg some (List.mem_singleton.mp member).symm)
  | @link index a b rest channel paths _ _ _ _ _ _ ih =>
      rcases List.mem_cons.mp member with rfl | member
      · exact .inl rfl
      right
      rcases ih member with first | ⟨path, listed, inside⟩
      · obtain rfl := Option.some.inj first
        exact ⟨_, List.mem_cons_self, by simp⟩
      · exact ⟨path, List.mem_cons_of_mem _ listed, inside⟩

/-! ## Ancillae -/

/-- Everything met around an anchor can be reached from it. -/
theorem steps_of_explore {id : NodeId} {anchor : Coord} {bound : Nat} {trail : Trail}
    (met : trail ∈ l.explore (l.routable id cycle) bound [⟨anchor, []⟩] [anchor]) :
    Relation.TransGen (l.Steps id cycle) anchor trail.here := by
  have reached : Relation.ReflTransGen (l.Steps id cycle) anchor trail.here := by
    refine explore_induction (motive := fun trail => Relation.ReflTransGen (l.Steps id cycle) anchor trail.here)
      ?_ ?_ ?_ met
    · intro previous next axis reached near free _
      obtain ⟨opened, -, along⟩ := mem_adjacent.mp near
      exact reached.tail ⟨opened, Option.isSome_of_eq_some along, free⟩
    · simp [Relation.ReflTransGen.refl]
    · simp
  rcases Relation.reflTransGen_iff_eq_or_transGen.mp reached with same | beyond
  · exact absurd (List.mem_singleton.mpr same) ((nodup_explore ..).2 trail met)
  · exact beyond

theorem steps_of_spare {id : NodeId} {anchor : Coord} {count : Nat} {taken spare : List Coord}
    (h : l.spare id anchor count cycle taken = some spare) :
    spare.length = count ∧ ∀ c ∈ spare, Relation.TransGen (l.Steps id cycle) anchor c := by
  unfold Layout.spare at h
  split at h
  next none =>
      cases h
      exact ⟨none.symm, by simp⟩
  · dsimp only at h
    split at h
    · cases h
    next enough =>
        cases h
        refine ⟨List.length_take_of_le (Nat.not_lt.mp enough), fun c member => ?_⟩
        obtain ⟨trail, met, rfl⟩ := List.mem_map.mp (List.mem_filter.mp (List.mem_of_mem_take member)).1
        exact steps_of_explore met

theorem exists_surrounded {addresses patches : List Coord}
    (h : l.surround node cycle chain addresses = .ok (some patches)) :
    ∃ groups, patches = chain ++ groups.flatten ∧ l.Surrounded node cycle addresses groups := by
  induction addresses generalizing chain with
  | nil =>
      cases h
      exact ⟨[], by simp, .nil⟩
  | cons address rest ih =>
      rw [surround] at h
      split at h
      · cases h
      · cases h
      next spare found =>
          obtain ⟨groups, rfl, surrounded⟩ := ih h
          exact ⟨spare :: groups, by simp, .cons (steps_of_spare (spare_of_ancillae found)) surrounded⟩

/-- The patches that are found for the targets of a node are paths that link the targets in order, and then the ancillae
    of each target. -/
theorem shaped_of_findRoute {l : Layout} {node : Node} {addresses chain : List Coord} {cycle : Nat}
    (h : l.findRoute node addresses cycle = .ok (some chain)) : l.Shaped node cycle addresses chain := by
  have once := nodup_findRoute h
  have free := fun c member outside => (mem_findRoute h (c := c) member).resolve_left outside
  unfold findRoute at h
  split at h
  · cases h
  next anchor rest =>
      split at h
      · cases h
      next core joined =>
          obtain ⟨paths, linked, members⟩ := exists_linked joined (List.mem_singleton.mpr rfl)
          obtain ⟨groups, rfl, surrounded⟩ := exists_surrounded h
          obtain ⟨added, same⟩ := prefix_connect joined
          have members : ∀ c, c ∈ core ↔ (anchor :: rest).head? = some c ∨ ∃ path ∈ paths, c ∈ path := by
            simpa [eq_comm] using members
          refine ⟨?_, once, fun c member => ?_, free, core, paths, groups, rfl, members, linked, surrounded⟩
          · rw [← same]
            rfl
          · exact List.mem_append_left _ ((members c).mpr (linked.mem member))

/-- An operation on three targets that needs one ancilla beside each. -/
def tripleGate : Node := { id := 0, operation := .custom "ANC" 1 1, targets := ["a", "b", "c"] }

/-- Both paths pass through the patch between the two registers. -/
theorem shaped_of_findRoute_crossing :
    ∃ (l : Layout) (chain : List Coord), ofLines ["Z.Z", "...", "x.."] = .ok l ∧
      l.findRoute tripleGate [⟨0, 0⟩, ⟨0, 2⟩, ⟨2, 0⟩] 0 = .ok (some chain) ∧
      chain = [⟨0, 0⟩, ⟨0, 1⟩, ⟨0, 2⟩, ⟨1, 1⟩, ⟨1, 0⟩, ⟨2, 0⟩, ⟨1, 2⟩, ⟨2, 2⟩, ⟨2, 1⟩] ∧
      l.Shaped tripleGate 0 [⟨0, 0⟩, ⟨0, 2⟩, ⟨2, 0⟩] chain := by
  have runs : (ofLines ["Z.Z", "...", "x.."]).toOption.any fun l =>
      (l.findRoute tripleGate [⟨0, 0⟩, ⟨0, 2⟩, ⟨2, 0⟩] 0).toOption.any (·
        == some [⟨0, 0⟩, ⟨0, 1⟩, ⟨0, 2⟩, ⟨1, 1⟩, ⟨1, 0⟩, ⟨2, 0⟩, ⟨1, 2⟩, ⟨2, 2⟩, ⟨2, 1⟩]) := by decide +kernel
  obtain ⟨l, read, runs⟩ := exists_ok_of_any runs
  obtain ⟨found, routed, runs⟩ := exists_ok_of_any runs
  obtain rfl := beq_iff_eq.mp runs
  exact ⟨l, _, read, routed, rfl, shaped_of_findRoute routed⟩

end Layout

end LatticeSurgery
