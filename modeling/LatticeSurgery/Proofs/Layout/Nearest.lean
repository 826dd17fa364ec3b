import Mathlib.Data.Set.Card
import Mathlib.Order.Lattice.Nat
import LatticeSurgery.Proofs.Layout.ShortestPath

/-! # Ancillae are the nearest spare patches

From an anchor a node gets to the channel patches that are free for it, over others of the same kind. An exploration
meets exactly those, each of them at the end of a trail that is as short as any path to it. The ancillae are therefore
the first ones met that are not taken, and they are missing only where there are too few.
-/

namespace LatticeSurgery

namespace Layout

/-- A path out of an anchor, over channel patches that are free for a node. The anchor is not part of it. -/
structure Leads (l : Layout) (node : NodeId) (cycle : Nat) (anchor : Coord) (path : List Coord) : Prop where
  /-- Each place is a neighbour of the next one. -/
  touching : (anchor :: path).IsChain fun a b => (a.axisTo? b).isSome
  opened : ∀ c ∈ anchor :: path, l.isOpen c
  free : ∀ c ∈ path, c ≠ anchor ∧ l.routable node cycle c

/-- The patches around an anchor that paths lead to. -/
def around (l : Layout) (node : NodeId) (cycle : Nat) (anchor : Coord) : Set Coord :=
  {c | ∃ path, l.Leads node cycle anchor path ∧ path.getLast? = some c}

/-- Lengths of the paths from an anchor to a patch around it. -/
def lengthsTo (l : Layout) (node : NodeId) (cycle : Nat) (anchor c : Coord) : Set Nat :=
  {n | ∃ path, l.Leads node cycle anchor path ∧ path.getLast? = some c ∧ path.length = n}

/-- Distance of a patch from an anchor, along a shortest path. -/
noncomputable def stepsTo (l : Layout) (node : NodeId) (cycle : Nat) (anchor c : Coord) : Nat :=
  sInf (l.lengthsTo node cycle anchor c)

/-- The patches around an anchor that can be handed out. -/
def spares (l : Layout) (node : NodeId) (cycle : Nat) (anchor : Coord) (taken : List Coord) : Set Coord :=
  {c ∈ l.around node cycle anchor | c ∉ taken}

/-- A number of spare patches, the nearest first, with no nearer one left out. -/
structure Nearest (l : Layout) (node : NodeId) (cycle : Nat) (anchor : Coord) (taken : List Coord) (count : Nat)
    (found : List Coord) : Prop where
  length : found.length = count
  once : found.Nodup
  spare : ∀ c ∈ found, c ∈ l.spares node cycle anchor taken
  sorted : found.Pairwise fun c d => l.stepsTo node cycle anchor c ≤ l.stepsTo node cycle anchor d
  closest : ∀ c ∈ l.spares node cycle anchor taken, ∀ d ∈ found,
    l.stepsTo node cycle anchor c < l.stepsTo node cycle anchor d → c ∈ found

end Layout

/-- A trail that began at an anchor and went on over usable places, none of them twice. -/
structure Trail.Spreads (l : Layout) (usable : Coord → Bool) (anchor : Coord) (trail : Trail) : Prop where
  steps : (trail.here :: trail.back).IsChain fun a b => (a.axisTo? b).isSome
  once : (trail.here :: trail.back).Nodup
  opened : ∀ c ∈ trail.here :: trail.back, l.isOpen c
  passed : ∃ channel, trail.here :: trail.back = channel ++ [anchor] ∧ ∀ c ∈ channel, usable c

theorem Trail.Spreads.extend {l : Layout} {usable : Coord → Bool} {anchor next : Coord} {trail : Trail} {axis : Axis}
    (spreads : trail.Spreads l usable anchor) (near : (next, axis) ∈ l.adjacent trail.here) (free : usable next)
    (new : next ∉ trail.here :: trail.back) :
    (⟨next, trail.here :: trail.back⟩ : Trail).Spreads l usable anchor := by
  obtain ⟨channel, split, clear⟩ := spreads.passed
  obtain ⟨-, opened, along⟩ := Layout.mem_adjacent.mp near
  constructor
  case steps => exact List.isChain_cons_cons.mpr ⟨by simp [Coord.axisTo?_comm next, along], spreads.steps⟩
  case once => exact List.nodup_cons.mpr ⟨new, spreads.once⟩
  case opened => exact List.forall_mem_cons.mpr ⟨opened, spreads.opened⟩
  case passed =>
    refine ⟨next :: channel, ?_, List.forall_mem_cons.mpr ⟨free, clear⟩⟩
    rw [split]
    rfl

namespace Layout

variable {l : Layout} {node : NodeId} {cycle count : Nat} {anchor c : Coord} {taken : List Coord} {trail : Trail}

/-- Everything that the search for ancillae meets, nearest first. -/
def met (l : Layout) (node : NodeId) (cycle : Nat) (anchor : Coord) : List Trail :=
  l.explore (l.routable node cycle) l.patches.length [⟨anchor, []⟩] [anchor]

/-! ## Trails and paths -/

theorem spreads_anchor (opened : l.isOpen anchor) :
    (⟨anchor, []⟩ : Trail).Spreads l (l.routable node cycle) anchor where
  steps := List.isChain_singleton _
  once := List.nodup_singleton _
  opened := by simpa using opened
  passed := ⟨[], rfl, by simp⟩

/-- Nothing is met around a place that is blocked or off the grid. -/
theorem isOpen_of_mem_met (member : trail ∈ l.met node cycle anchor) : l.isOpen anchor := by
  by_contra closed
  have none : l.ring (l.routable node cycle) [⟨anchor, []⟩] [anchor] = [] := by
    simp [ring, adjacent, closed, Trail.distinct]
  unfold met at member
  cases bound : l.patches.length with
  | zero => simp [bound, explore] at member
  | succ n => simp [bound, explore, none] at member

theorem spreads_of_mem_met (member : trail ∈ l.met node cycle anchor) :
    trail.Spreads l (l.routable node cycle) anchor := by
  apply explore_induction _ _ _ member
  · intro previous next axis spreads near free new
    exact spreads.extend near free new
  · intro first begun
    rw [List.mem_singleton.mp begun]
    exact spreads_anchor (isOpen_of_mem_met member)
  · simp

theorem even_anchor : ∀ first ∈ [(⟨anchor, []⟩ : Trail)], first.back.length = 0 := by simp

/-- The trail to a place, turned round, is a path to it. -/
theorem leads_of_mem_met (member : trail ∈ l.met node cycle anchor) :
    ∃ path, l.Leads node cycle anchor path ∧ path.getLast? = some trail.here ∧ path.length = trail.back.length := by
  have spreads := spreads_of_mem_met member
  have elsewhere : trail.here ≠ anchor := by
    have new : trail.here ∉ [anchor] := (nodup_explore ..).2 trail member
    simpa using new
  obtain ⟨channel, split, clear⟩ := spreads.passed
  have turned : (trail.here :: trail.back).reverse = anchor :: channel.reverse := by simp [split]
  have once : anchor ∉ channel := by
    have distinct := spreads.once
    rw [split, List.nodup_append] at distinct
    intro again
    exact distinct.2.2 anchor again anchor List.mem_cons_self rfl
  refine ⟨channel.reverse, ⟨?_, ?_, ?_⟩, ?_, ?_⟩
  · rw [← turned, List.isChain_reverse]
    simpa only [Coord.axisTo?_comm] using spreads.steps
  · intro c member
    rw [← turned, List.mem_reverse] at member
    exact spreads.opened c member
  · intro c member
    have inside := List.mem_reverse.mp member
    exact ⟨fun same => once (same ▸ inside), clear c inside⟩
  · rw [List.getLast?_reverse]
    cases channel with
    | nil => exact absurd (List.cons.inj split).1 elsewhere
    | cons here rest => exact congrArg some (List.cons.inj split).1.symm
  · have long := congrArg List.length split
    simpa using long.symm

/-- The rings do not run out before a place that a path leads to. -/
theorem length_lt_of_spreads (spreads : trail.Spreads l (l.routable node cycle) anchor) :
    trail.back.length < l.patches.length :=
  length_le_of_nodup spreads.once fun c member => isSome_patch?_of_isOpen (spreads.opened c member)

/-- From a trail, a path leads only to places that are met, over no more steps than it has. -/
theorem exists_met_of_chain {path : List Coord} {last : Coord} (opened : l.isOpen anchor)
    (begun : trail ∈ ⟨anchor, []⟩ :: l.met node cycle anchor)
    (touching : (trail.here :: path).IsChain fun a b => (a.axisTo? b).isSome)
    (free : ∀ c ∈ path, c ≠ anchor ∧ l.routable node cycle c)
    (ends : (trail.here :: path).getLast? = some last) :
    ∃ later ∈ ⟨anchor, []⟩ :: l.met node cycle anchor,
      later.here = last ∧ later.back.length ≤ trail.back.length + path.length := by
  induction path generalizing trail with
  | nil => exact ⟨trail, begun, Option.some.inj ends, Nat.le_refl _⟩
  | cons next rest ih =>
      obtain ⟨near, onward⟩ := List.isChain_cons_cons.mp touching
      obtain ⟨⟨elsewhere, clear⟩, others⟩ := List.forall_mem_cons.mp free
      have spreads : trail.Spreads l (l.routable node cycle) anchor := by
        rcases List.mem_cons.mp begun with rfl | member
        · exact spreads_anchor opened
        · exact spreads_of_mem_met member
      have room : trail.back.length < 0 + l.patches.length := by
        rw [Nat.zero_add]
        exact length_lt_of_spreads spreads
      obtain ⟨axis, along⟩ := Option.isSome_iff_exists.mp near
      have step := mem_adjacent.mpr ⟨spreads.opened _ List.mem_cons_self, isOpen_of_routable clear, along⟩
      rcases exists_mem_explore even_anchor begun room step clear with known | ⟨later, member, rfl, short⟩
      · exact absurd (List.mem_singleton.mp known) elsewhere
      · obtain ⟨final, member, same, short'⟩ :=
          ih (List.mem_cons_of_mem _ member) onward others (by simpa using ends)
        refine ⟨final, member, same, ?_⟩
        rw [List.length_cons]
        omega

theorem Leads.exists_met {path : List Coord} (leads : l.Leads node cycle anchor path)
    (ends : path.getLast? = some c) :
    ∃ trail ∈ l.met node cycle anchor, trail.here = c ∧ trail.back.length ≤ path.length := by
  have opened := leads.opened anchor List.mem_cons_self
  have last : (anchor :: path).getLast? = some c := by rw [List.getLast?_cons, ends]; rfl
  obtain ⟨trail, member, rfl, short⟩ :=
    exists_met_of_chain opened List.mem_cons_self leads.touching leads.free last
  rcases List.mem_cons.mp member with rfl | member
  · exact absurd rfl (leads.free _ (List.mem_of_getLast? ends)).1
  · exact ⟨trail, member, rfl, by simpa using short⟩

/-! ## What is met -/

theorem mem_around_iff : c ∈ l.around node cycle anchor ↔ ∃ trail ∈ l.met node cycle anchor, trail.here = c := by
  constructor
  · rintro ⟨path, leads, ends⟩
    obtain ⟨trail, member, same, -⟩ := leads.exists_met ends
    exact ⟨trail, member, same⟩
  · rintro ⟨trail, member, rfl⟩
    obtain ⟨path, leads, ends, -⟩ := leads_of_mem_met member
    exact ⟨path, leads, ends⟩

/-- A trail that is met is as long as a shortest path. -/
theorem stepsTo_eq (member : trail ∈ l.met node cycle anchor) :
    l.stepsTo node cycle anchor trail.here = trail.back.length := by
  have walked : trail.back.length ∈ l.lengthsTo node cycle anchor trail.here := leads_of_mem_met member
  apply Nat.le_antisymm
  · exact Nat.sInf_le walked
  · obtain ⟨shortest, leads, ends, same⟩ := Nat.sInf_mem ⟨_, walked⟩
    obtain ⟨rival, also, here, short⟩ := leads.exists_met ends
    -- a place is met once, so the trail found for the shortest path is this one
    have once : ((l.met node cycle anchor).map (·.here)).Nodup := (nodup_explore ..).1
    obtain rfl := List.inj_on_of_nodup_map once also member here
    rw [stepsTo, ← same]
    exact short

theorem sorted_met (l : Layout) (node : NodeId) (cycle : Nat) (anchor : Coord) :
    ((l.met node cycle anchor).map (·.here)).Pairwise fun c d =>
      l.stepsTo node cycle anchor c ≤ l.stepsTo node cycle anchor d := by
  have sorted : (l.met node cycle anchor).Pairwise fun a b => a.back.length ≤ b.back.length :=
    (List.pairwise_cons.mp (sorted_explore even_anchor).1).2
  apply List.pairwise_map.mpr
  apply sorted.imp_of_mem
  intro a b first second ordered
  rw [stepsTo_eq first, stepsTo_eq second]
  exact ordered

/-! ## What is handed out -/

/-- The patches met that are not taken, nearest first. -/
def offered (l : Layout) (node : NodeId) (cycle : Nat) (anchor : Coord) (taken : List Coord) : List Coord :=
  ((l.met node cycle anchor).map (·.here)).filter (!taken.contains ·)

theorem spare_eq (wanted : 1 ≤ count) : l.spare node anchor count cycle taken =
    if (l.offered node cycle anchor taken).length < count then none
    else some ((l.offered node cycle anchor taken).take count) :=
  if_neg (Nat.ne_of_gt wanted)

theorem mem_offered : c ∈ l.offered node cycle anchor taken ↔ c ∈ l.spares node cycle anchor taken := by
  simp [offered, spares, mem_around_iff]

theorem nodup_offered : (l.offered node cycle anchor taken).Nodup := (nodup_explore ..).1.filter _

theorem encard_spares : (l.spares node cycle anchor taken).encard = (l.offered node cycle anchor taken).length := by
  have listed : l.spares node cycle anchor taken = ↑(l.offered node cycle anchor taken).toFinset := by
    ext c
    simp [mem_offered]
  rw [listed, Set.encard_coe_eq_coe_finsetCard, List.toFinset_card_of_nodup nodup_offered]

theorem nearest_take (enough : count ≤ (l.offered node cycle anchor taken).length) :
    l.Nearest node cycle anchor taken count ((l.offered node cycle anchor taken).take count) where
  length := List.length_take_of_le enough
  once := nodup_offered.sublist (List.take_sublist _ _)
  spare c member := mem_offered.mp (List.mem_of_mem_take member)
  sorted := ((sorted_met l node cycle anchor).filter _).sublist (List.take_sublist _ _)
  closest := by
    intro c spare d member nearer
    have sorted := (sorted_met l node cycle anchor).filter (!taken.contains ·)
    rw [← offered, ← List.take_append_drop count (l.offered node cycle anchor taken)] at sorted
    have listed := mem_offered.mpr spare
    rw [← List.take_append_drop count (l.offered node cycle anchor taken)] at listed
    rcases List.mem_append.mp listed with first | later
    · exact first
    · have farther := (List.pairwise_append.mp sorted).2.2 d member c later
      omega

/-- Around an anchor on the grid the search gives up exactly if there are fewer spare patches than are wanted, and
    otherwise it hands out the nearest ones. That many places must have room in a list, though. -/
theorem ancillae_eq_nearest {l : Layout} {anchor : Coord} {count : Nat} (inside : (l.patch? anchor).isSome)
    (wanted : 1 ≤ count) (node : NodeId) (cycle : Nat) (taken : List Coord) :
    (l.ancillae node anchor count cycle taken = .ok none ↔
      count < roomLimit ∧ (l.spares node cycle anchor taken).encard < count) ∧
    ((∃ found, l.ancillae node anchor count cycle taken = .ok (some found)) ↔
      count < roomLimit ∧ count ≤ (l.spares node cycle anchor taken).encard) ∧
    (∀ found, l.ancillae node anchor count cycle taken = .ok (some found) →
      l.Nearest node cycle anchor taken count found) ∧
    ∀ e, l.ancillae node anchor count cycle taken = .error e ↔ roomLimit ≤ count ∧ e = .oversized count := by
  rw [encard_spares, Nat.cast_lt, Nat.cast_le]
  rcases Nat.lt_or_ge count roomLimit with room | full
  · rw [ancillae_eq_spare room, spare_eq wanted]
    by_cases few : (l.offered node cycle anchor taken).length < count
    · simp [few, room, Nat.not_le.mpr room]
    · have enough := Nat.le_of_not_lt few
      simp only [few, if_false, Except.ok.injEq, Option.some.injEq, reduceCtorEq, and_false, exists_eq', room, enough,
        true_and, Nat.not_le.mpr room, false_and, iff_self, implies_true, and_true]
      rintro found rfl
      exact nearest_take enough
  · have refused : l.ancillae node anchor count cycle taken = .error (.oversized count) :=
      ancillae_eq_error_iff.mpr ⟨⟨full, inside⟩, rfl⟩
    simp [refused, full, Nat.not_lt.mpr full, eq_comm]

/-- A register in the corner of a channel with a hole, where another node holds one more patch. -/
def detour : Except Error Layout := do
  let l ← ofLines ["Z..", ".#.", "..."]
  l.lock ⟨2, 0⟩ 7 0 5

/-- The taken patch leads on to the others, and the held one does not. -/
theorem ancillae_eq_nearest_detour :
    ∃ l : Layout, detour = .ok l ∧ (l.patch? ⟨0, 0⟩).isSome ∧
      l.ancillae 0 ⟨0, 0⟩ 3 3 [⟨0, 1⟩] = .ok (some [⟨1, 0⟩, ⟨0, 2⟩, ⟨1, 2⟩]) ∧
      l.Nearest 0 3 ⟨0, 0⟩ [⟨0, 1⟩] 3 [⟨1, 0⟩, ⟨0, 2⟩, ⟨1, 2⟩] ∧
      l.ancillae 0 ⟨0, 0⟩ 6 3 [⟨0, 1⟩] = .ok none ∧ (l.spares 0 3 ⟨0, 0⟩ [⟨0, 1⟩]).encard < 6 := by
  have runs : detour.toOption.any fun l => (l.patch? ⟨0, 0⟩).isSome
      && l.ancillae 0 ⟨0, 0⟩ 3 3 [⟨0, 1⟩] == .ok (some [⟨1, 0⟩, ⟨0, 2⟩, ⟨1, 2⟩])
      && l.ancillae 0 ⟨0, 0⟩ 6 3 [⟨0, 1⟩] == .ok none := by decide +kernel
  obtain ⟨l, read, runs⟩ := exists_ok_of_any runs
  simp only [Bool.and_eq_true, beq_iff_eq] at runs
  obtain ⟨⟨inside, three⟩, six⟩ := runs
  obtain ⟨-, -, nearest, -⟩ := ancillae_eq_nearest inside (show 1 ≤ 3 by decide) 0 3 [⟨0, 1⟩]
  obtain ⟨few, -⟩ := ancillae_eq_nearest inside (show 1 ≤ 6 by decide) 0 3 [⟨0, 1⟩]
  exact ⟨l, read, inside, three, nearest _ three, six, (few.mp six).2⟩

/-- A row with two spare patches has too few for any larger number, but beyond the limit the search does not say so. -/
theorem ancillae_oversized :
    ∃ l : Layout, ofLines ["Z.."] = .ok l ∧ (l.patch? ⟨0, 0⟩).isSome ∧
      (l.spares 0 0 ⟨0, 0⟩ []).encard < 576460752303423488 ∧
      l.ancillae 0 ⟨0, 0⟩ 1000 0 [] = .ok none ∧
      l.ancillae 0 ⟨0, 0⟩ 576460752303423488 0 [] = .error (.oversized 576460752303423488) := by
  have runs : (ofLines ["Z.."]).toOption.any fun l => (l.patch? ⟨0, 0⟩).isSome
      && (l.offered 0 0 ⟨0, 0⟩ []).length == 2 && l.ancillae 0 ⟨0, 0⟩ 1000 0 [] == .ok none
      && l.ancillae 0 ⟨0, 0⟩ 576460752303423488 0 [] == .error (.oversized 576460752303423488) := by decide +kernel
  obtain ⟨l, read, runs⟩ := exists_ok_of_any runs
  simp only [Bool.and_eq_true, beq_iff_eq] at runs
  obtain ⟨⟨⟨inside, two⟩, few⟩, many⟩ := runs
  refine ⟨l, read, inside, ?_, few, many⟩
  rw [encard_spares, two]
  exact Nat.cast_lt.mpr (show 2 < 576460752303423488 by decide)

end Layout

end LatticeSurgery
