import Mathlib.Data.List.Chain
import LatticeSurgery.Proofs.Layout.Exploration

/-! # Routes are shortest paths

A channel joins two patches if it leaves the one and enters the other through sides that show given
boundaries, and consists of free channel patches only. A route is the path through such a channel, a
shortest one, and there is none only where nothing joins the two.
-/

namespace LatticeSurgery

namespace Layout

/-- A place shows a boundary on the side that it shares with a neighbour. -/
def Shows (l : Layout) (c neighbour : Coord) (boundary : Boundary) : Prop :=
  ∃ axis, c.axisTo? neighbour = some axis ∧ l.exposes c axis = some boundary

/-- A channel joins two places for a node at a cycle. -/
structure Joins (l : Layout) (start goal : Coord) (node : NodeId) (cycle : Nat) (leave enter : Boundary)
    (channel : List Coord) : Prop where
  apart : start ≠ goal
  /-- Each place is a neighbour of the next one. -/
  touching : (start :: (channel ++ [goal])).IsChain fun a b => (a.axisTo? b).isSome
  /-- Nothing on the way is blocked or off the grid. -/
  opened : ∀ c ∈ start :: (channel ++ [goal]), l.isOpen c
  free : ∀ c ∈ channel, l.routable node cycle c
  leaves : ∃ first, channel.head? = some first ∧ l.Shows start first leave
  enters : ∃ last, channel.getLast? = some last ∧ l.Shows goal last enter

end Layout

/-- A trail out of a place, through a side of it that shows a boundary and then over usable places. -/
structure Trail.Leaves (l : Layout) (usable : Coord → Bool) (start : Coord) (boundary : Boundary)
    (trail : Trail) : Prop where
  opened : l.isOpen start
  steps : (trail.here :: trail.back).IsChain fun a b => (a.axisTo? b).isSome
  once : (trail.here :: trail.back).Nodup
  passed : ∃ channel first, trail.here :: trail.back = channel ++ [start] ∧ (∀ c ∈ channel, usable c) ∧
    channel.getLast? = some first ∧ l.Shows start first boundary

namespace Layout

variable {l : Layout} {usable : Coord → Bool} {start goal : Coord} {node : NodeId} {cycle : Nat}
  {leave enter : Boundary}

theorem isOpen_of_routable {c : Coord} (free : l.routable node cycle c) : l.isOpen c := by
  unfold routable at free
  unfold isOpen
  cases found : l.patch? c <;> simp_all

theorem isSome_patch?_of_isOpen {c : Coord} (opened : l.isOpen c) : (l.patch? c).isSome := by
  unfold isOpen at opened
  cases found : l.patch? c <;> simp_all

/-- A channel patch shows no boundary. -/
theorem Shows.not_routable {c d : Coord} {boundary : Boundary} (shown : l.Shows c d boundary) :
    ¬ l.routable node cycle c := by
  obtain ⟨axis, -, shown⟩ := shown
  unfold exposes at shown
  unfold routable
  cases found : l.patch? c with
  | none => simp
  | some patch =>
      rw [found, Option.bind_some] at shown
      cases kind : patch.kind <;> simp_all [Patch.exposes]

theorem docks_iff {c : Coord} :
    l.docks goal enter c ↔ l.isOpen c ∧ l.isOpen goal ∧ l.Shows goal c enter := by
  simp only [docks, Shows, List.any_eq_true, Bool.and_eq_true, decide_eq_true_eq, Prod.exists]
  constructor
  · rintro ⟨_, axis, near, rfl, shown⟩
    obtain ⟨opened, opened', along⟩ := mem_adjacent.mp near
    exact ⟨opened, opened', axis, Coord.axisTo?_comm .. ▸ along, shown⟩
  · rintro ⟨opened, opened', axis, along, shown⟩
    exact ⟨goal, axis, mem_adjacent.mpr ⟨opened, opened', Coord.axisTo?_comm .. ▸ along⟩, rfl, shown⟩

theorem mem_exits {trail : Trail} :
    trail ∈ l.exits usable start leave ↔ trail.back = [start] ∧ usable trail.here ∧ l.isOpen start ∧
      l.isOpen trail.here ∧ l.Shows start trail.here leave := by
  obtain ⟨here, back⟩ := trail
  simp only [exits, Shows, List.mem_map, List.mem_filter, Prod.exists, mem_adjacent, Bool.and_eq_true,
    decide_eq_true_eq, Trail.mk.injEq]
  constructor
  · rintro ⟨_, axis, ⟨⟨opened, opened', along⟩, shown, free⟩, rfl, rfl⟩
    exact ⟨rfl, free, opened, opened', axis, along, shown⟩
  · rintro ⟨rfl, free, opened, opened', axis, along, shown⟩
    exact ⟨here, axis, ⟨⟨opened, opened', along⟩, shown, free⟩, rfl, rfl⟩

theorem leaves_of_exits {trail : Trail} (h : trail ∈ l.exits (l.routable node cycle) start leave) :
    trail.Leaves l (l.routable node cycle) start leave := by
  obtain ⟨back, free, opened, -, shown⟩ := mem_exits.mp h
  obtain ⟨axis, along, -⟩ := id shown
  have new : trail.here ≠ start := fun same => shown.not_routable (same ▸ free)
  refine ⟨opened, ?_, ?_, [trail.here], trail.here, ?_, ?_, rfl, shown⟩
  · rw [back]
    simp [Coord.axisTo?_comm trail.here, along]
  · simp [back, new]
  · rw [back]; rfl
  · simpa using free

end Layout

theorem Trail.Leaves.extend {l : Layout} {usable : Coord → Bool} {start next : Coord} {leave : Boundary}
    {trail : Trail} {axis : Axis} (leaves : trail.Leaves l usable start leave)
    (near : (next, axis) ∈ l.adjacent trail.here) (free : usable next)
    (new : next ∉ trail.here :: trail.back) :
    (⟨next, trail.here :: trail.back⟩ : Trail).Leaves l usable start leave := by
  obtain ⟨channel, first, split, clear, last, shown⟩ := leaves.passed
  obtain ⟨-, -, along⟩ := Layout.mem_adjacent.mp near
  refine ⟨leaves.opened, ?_, List.nodup_cons.mpr ⟨new, leaves.once⟩, next :: channel, first, ?_, ?_, ?_, shown⟩
  · exact List.isChain_cons_cons.mpr ⟨by simp [Coord.axisTo?_comm next, along], leaves.steps⟩
  · rw [split]; rfl
  · exact List.forall_mem_cons.mpr ⟨free, clear⟩
  · rw [List.getLast?_cons, last]; rfl

theorem Trail.length_le_of_find? {trails : List Trail} {trail rival : Trail} {wanted : Trail → Bool}
    (sorted : trails.Pairwise fun a b => a.back.length ≤ b.back.length)
    (found : trails.find? wanted = some trail) (member : rival ∈ trails) (also : wanted rival) :
    trail.back.length ≤ rival.back.length := by
  obtain ⟨-, before, after, rfl, earlier⟩ := List.find?_eq_some_iff_append.mp found
  rcases List.mem_append.mp member with member | member
  · exact absurd also (by simpa using earlier rival member)
  · rcases List.mem_cons.mp member with rfl | member
    · exact Nat.le_refl _
    · exact List.rel_of_pairwise_cons (List.pairwise_append.mp sorted).2.1 member

namespace Layout

variable {l : Layout} {start goal : Coord} {node : NodeId} {cycle : Nat} {leave enter : Boundary}

/-- Everything that the search for a route meets, nearest first. -/
def sought (l : Layout) (start : Coord) (node : NodeId) (cycle : Nat) (leave : Boundary) : List Trail :=
  let first := l.exits (l.routable node cycle) start leave
  first ++ l.explore (l.routable node cycle) l.patches.length first (first.map (·.here) ++ [start])

theorem route_eq (apart : start ≠ goal) : l.route start goal node cycle leave enter =
    ((l.sought start node cycle leave).find? fun trail => l.docks goal enter trail.here).map fun trail =>
      (goal :: trail.here :: trail.back).reverse :=
  if_neg apart

theorem length_of_mem_exits {usable : Coord → Bool} :
    ∀ trail ∈ l.exits usable start leave, trail.back.length = 1 := by
  intro trail h
  rw [(mem_exits.mp h).1]
  rfl

theorem leaves_of_mem_sought {trail : Trail} (met : trail ∈ l.sought start node cycle leave) :
    trail.Leaves l (l.routable node cycle) start leave := by
  rcases List.mem_append.mp met with met | met
  · exact leaves_of_exits met
  · refine explore_induction (fun _ _ _ leaves near free new => leaves.extend near free new)
      (fun _ => leaves_of_exits) (fun trail member c passed => ?_) met
    rw [(mem_exits.mp member).1] at passed
    rcases List.mem_cons.mp passed with rfl | passed
    · exact List.mem_append_left _ (List.mem_map_of_mem member)
    · exact List.mem_append_right _ passed

/-- The rings do not run out: a trail takes each of its places from the grid. -/
theorem length_lt_of_leaves {trail : Trail} (leaves : trail.Leaves l (l.routable node cycle) start leave) :
    trail.back.length < l.patches.length := by
  obtain ⟨channel, first, split, clear, -⟩ := leaves.passed
  refine length_le_of_nodup leaves.once fun c member => isSome_patch?_of_isOpen ?_
  rw [split] at member
  rcases List.mem_append.mp member with member | member
  · exact isOpen_of_routable (clear c member)
  · rw [List.mem_singleton.mp member]
    exact leaves.opened

theorem exists_sought_next {trail : Trail} (met : trail ∈ l.sought start node cycle leave) {next : Coord}
    (near : (trail.here.axisTo? next).isSome) (opened : l.isOpen trail.here) (free : l.routable node cycle next) :
    ∃ later ∈ l.sought start node cycle leave,
      later.here = next ∧ later.back.length ≤ trail.back.length + 1 := by
  have leaves := leaves_of_mem_sought met
  obtain ⟨axis, along⟩ := Option.isSome_iff_exists.mp near
  obtain ⟨channel, first, split, clear, last, shown⟩ := leaves.passed
  have room : trail.back.length < 1 + l.patches.length := Nat.lt_add_left 1 (length_lt_of_leaves leaves)
  have step := mem_adjacent.mpr ⟨opened, isOpen_of_routable free, along⟩
  rcases exists_mem_explore length_of_mem_exits met room step free with known | ⟨later, member, same, short⟩
  · rcases List.mem_append.mp known with known | known
    · obtain ⟨later, member, same⟩ := List.mem_map.mp known
      refine ⟨later, List.mem_append_left _ member, same, ?_⟩
      rw [length_of_mem_exits later member]
      exact Nat.le_add_left _ _
    · rw [List.mem_singleton.mp known] at free
      exact absurd free shown.not_routable
  · exact ⟨later, List.mem_append_right _ member, same, short⟩

/-- Whatever a channel leads to is met, over no more places than the channel has. -/
theorem exists_sought_of_chain {trail : Trail} {channel : List Coord} {last : Coord}
    (met : trail ∈ l.sought start node cycle leave)
    (touching : (trail.here :: channel).IsChain fun a b => (a.axisTo? b).isSome)
    (free : ∀ c ∈ trail.here :: channel, l.routable node cycle c)
    (ends : (trail.here :: channel).getLast? = some last) :
    ∃ later ∈ l.sought start node cycle leave,
      later.here = last ∧ later.back.length ≤ trail.back.length + channel.length := by
  induction channel generalizing trail with
  | nil => exact ⟨trail, met, Option.some.inj ends, Nat.le_refl _⟩
  | cons next rest ih =>
      obtain ⟨near, onward⟩ := List.isChain_cons_cons.mp touching
      obtain ⟨here, clear⟩ := List.forall_mem_cons.mp free
      obtain ⟨later, member, rfl, short⟩ :=
        exists_sought_next met near (isOpen_of_routable here) (clear next List.mem_cons_self)
      obtain ⟨final, member, same, short'⟩ := ih member onward clear (by simpa using ends)
      refine ⟨final, member, same, ?_⟩
      rw [List.length_cons]
      omega

theorem Joins.exists_sought {channel : List Coord} (joins : l.Joins start goal node cycle leave enter channel) :
    ∃ trail ∈ l.sought start node cycle leave,
      l.docks goal enter trail.here ∧ trail.back.length ≤ channel.length := by
  obtain ⟨first, begins, shown⟩ := joins.leaves
  obtain ⟨last, ends, shown'⟩ := joins.enters
  obtain ⟨rest, rfl⟩ := List.head?_eq_some_iff.mp begins
  obtain ⟨opened, along⟩ := List.forall_mem_cons.mp joins.opened
  have exit : (⟨first, [start]⟩ : Trail) ∈ l.sought start node cycle leave :=
    List.mem_append_left _ (mem_exits.mpr
      ⟨rfl, joins.free first List.mem_cons_self, opened, along first List.mem_cons_self, shown⟩)
  have touching : (first :: rest).IsChain fun a b => (a.axisTo? b).isSome :=
    (List.isChain_append.mp (List.isChain_cons_cons.mp joins.touching).2).1
  obtain ⟨trail, met, rfl, short⟩ := exists_sought_of_chain exit touching joins.free ends
  have clear : l.isOpen trail.here := isOpen_of_routable (joins.free _ (List.mem_of_getLast? ends))
  have final : l.isOpen goal := along goal (List.mem_append_right _ List.mem_cons_self)
  refine ⟨trail, met, docks_iff.mpr ⟨clear, final, shown'⟩, ?_⟩
  rw [List.length_cons, Nat.add_comm]
  exact short

theorem joins_of_docks {trail : Trail} (leaves : trail.Leaves l (l.routable node cycle) start leave)
    (docks : l.docks goal enter trail.here) (apart : start ≠ goal) :
    ∃ channel, (goal :: trail.here :: trail.back).reverse = start :: (channel ++ [goal]) ∧
      (start :: (channel ++ [goal])).Nodup ∧ l.Joins start goal node cycle leave enter channel ∧
      channel.length = trail.back.length := by
  obtain ⟨channel, first, split, clear, last, shown⟩ := leaves.passed
  obtain ⟨opened, opened', shown'⟩ := docks_iff.mp docks
  obtain ⟨axis, along, -⟩ := id shown'
  have reversed : (goal :: trail.here :: trail.back).reverse = start :: (channel.reverse ++ [goal]) := by
    rw [split]; simp
  have new : goal ∉ trail.here :: trail.back := by
    rw [split]
    intro again
    rcases List.mem_append.mp again with again | again
    · exact shown'.not_routable (clear goal again)
    · exact apart (List.mem_singleton.mp again).symm
  refine ⟨channel.reverse, reversed, ?_, ⟨apart, ?_, ?_, ?_, ⟨first, ?_, shown⟩, ⟨trail.here, ?_, shown'⟩⟩, ?_⟩
  · rw [← reversed]
    exact List.pairwise_reverse.mpr ((List.nodup_cons.mpr ⟨new, leaves.once⟩).imp Ne.symm)
  · rw [← reversed, List.isChain_reverse]
    refine List.isChain_cons_cons.mpr ⟨by simp [Coord.axisTo?_comm trail.here, along], ?_⟩
    simpa only [Coord.axisTo?_comm] using leaves.steps
  · intro c member
    rw [← reversed, List.mem_reverse, split] at member
    rcases List.mem_cons.mp member with rfl | member
    · exact opened'
    · rcases List.mem_append.mp member with member | member
      · exact isOpen_of_routable (clear c member)
      · rw [List.mem_singleton.mp member]
        exact leaves.opened
  · exact fun c member => clear c (List.mem_reverse.mp member)
  · rw [List.head?_reverse, last]
  · rw [List.getLast?_reverse]
    cases channel with
    | nil => cases last
    | cons here rest => exact congrArg some (List.cons.inj split).1.symm
  · have := congrArg List.length split
    simpa using this.symm

/-- A search for a route fails only if nothing joins the two places. Otherwise it gives a path through
    a channel that joins them, without a place passed twice, and no channel that joins them is shorter. -/
theorem route_eq_shortest (l : Layout) (start goal : Coord) (node : NodeId) (cycle : Nat)
    (leave enter : Boundary) :
    (l.route start goal node cycle leave enter = none ↔
      ∀ channel, ¬ l.Joins start goal node cycle leave enter channel) ∧
    ∀ path, l.route start goal node cycle leave enter = some path → path.Nodup ∧
      ∃ channel, path = start :: (channel ++ [goal]) ∧ l.Joins start goal node cycle leave enter channel ∧
        ∀ other, l.Joins start goal node cycle leave enter other →
          path.length ≤ (start :: (other ++ [goal])).length := by
  by_cases apart : start = goal
  · have refused : l.route start goal node cycle leave enter = none := if_pos apart
    exact ⟨iff_of_true refused fun channel joins => joins.apart apart, by simp [refused]⟩
  rw [route_eq apart]
  refine ⟨?_, ?_⟩
  · rw [Option.map_eq_none_iff, List.find?_eq_none]
    constructor
    · intro nothing channel joins
      obtain ⟨trail, met, docks, -⟩ := joins.exists_sought
      exact nothing trail met docks
    · intro nothing trail met docks
      obtain ⟨channel, -, -, joins, -⟩ := joins_of_docks (leaves_of_mem_sought met) docks apart
      exact nothing channel joins
  · intro path routed
    obtain ⟨trail, found, rfl⟩ := Option.map_eq_some_iff.mp routed
    have leaves := leaves_of_mem_sought (List.mem_of_find?_eq_some found)
    have docks : l.docks goal enter trail.here := by simpa using List.find?_some found
    obtain ⟨channel, reversed, once, joins, long⟩ := joins_of_docks leaves docks apart
    rw [reversed]
    refine ⟨once, channel, rfl, joins, fun other joins' => ?_⟩
    obtain ⟨rival, met, docks', short⟩ := joins'.exists_sought
    have nearest := Trail.length_le_of_find? (sorted_explore length_of_mem_exits).1 found met docks'
    simp only [List.length_cons, List.length_append]
    omega

end Layout

end LatticeSurgery
