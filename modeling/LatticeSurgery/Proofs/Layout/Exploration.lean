import Mathlib.Data.List.Perm.Subperm
import LatticeSurgery.Proofs.Layout.Search

/-! # Exploration ring by ring

The trails of an exploration are met shortest first, and none of them returns to a place. A place that
can be reached from a place met is met too, one step later at most, as long as rings are left.
-/

namespace LatticeSurgery

namespace Coord

theorem axisTo?_comm (a b : Coord) : a.axisTo? b = b.axisTo? a := by
  simp only [axisTo?, gap, Nat.add_comm]

theorem axisTo?_eq_horizontal {a b : Coord} :
    a.axisTo? b = some .horizontal ↔ gap a.row b.row = 0 ∧ gap a.col b.col = 1 := by
  unfold axisTo?
  split <;> simp_all

theorem axisTo?_eq_vertical {a b : Coord} :
    a.axisTo? b = some .vertical ↔ gap a.row b.row = 1 ∧ gap a.col b.col = 0 := by
  unfold axisTo?
  split <;> simp_all

theorem mem_neighbours {c d : Coord} {axis : Axis} :
    (d, axis) ∈ c.neighbours ↔ c.axisTo? d = some axis := by
  obtain ⟨row, col⟩ := c
  obtain ⟨row', col'⟩ := d
  cases axis with
  | horizontal =>
      rw [axisTo?_eq_horizontal]
      by_cases row = 0 <;> by_cases col = 0 <;> simp_all [neighbours, gap] <;> omega
  | vertical =>
      rw [axisTo?_eq_vertical]
      by_cases row = 0 <;> by_cases col = 0 <;> simp_all [neighbours, gap] <;> omega

end Coord

theorem Trail.exists_mem_distinct {seen : List Coord} {trails : List Trail} {trail : Trail}
    (h : trail ∈ trails) : trail.here ∈ seen ∨ ∃ kept ∈ distinct seen trails, kept.here = trail.here := by
  induction trails generalizing seen with
  | nil => cases h
  | cons head rest ih =>
      rw [distinct]
      rcases List.mem_cons.mp h with rfl | h
      · split
        next old => exact .inl old
        · exact .inr ⟨trail, List.mem_cons_self, rfl⟩
      · split
        · exact ih h
        · obtain old | ⟨kept, member, same⟩ : trail.here ∈ head.here :: seen ∨ _ := ih h
          · rcases List.mem_cons.mp old with same | old
            · exact .inr ⟨head, List.mem_cons_self, same.symm⟩
            · exact .inl old
          · exact .inr ⟨kept, List.mem_cons_of_mem _ member, same⟩

theorem Trail.sorted_of_even {depth : Nat} {trails : List Trail}
    (even : ∀ trail ∈ trails, trail.back.length = depth) :
    trails.Pairwise fun a b => a.back.length ≤ b.back.length :=
  List.pairwise_of_forall_mem_list fun a ha b hb => Nat.le_of_eq ((even a ha).trans (even b hb).symm)

namespace Layout

variable {l : Layout} {usable : Coord → Bool}

theorem mem_adjacent {c d : Coord} {axis : Axis} :
    (d, axis) ∈ l.adjacent c ↔ l.isOpen c ∧ l.isOpen d ∧ c.axisTo? d = some axis := by
  unfold adjacent
  split
  next opened => simp [opened, Coord.mem_neighbours, and_comm]
  next closed => simp [closed]

/-- The places of the grid, row by row. -/
def places (l : Layout) : List Coord :=
  l.rows.zipIdx.flatMap fun entry => (List.range entry.1.length).map fun col => ⟨entry.2, col⟩

theorem length_places (l : Layout) : l.places.length = l.patches.length := by
  have lengths : (l.rows.zipIdx.map fun entry => entry.1.length) = l.rows.map List.length := by
    conv => rhs; rw [← List.zipIdx_map_fst 0 l.rows, List.map_map]
    rfl
  simp [places, patches, List.length_flatMap, List.length_flatten, lengths]

theorem mem_places {c : Coord} (inside : (l.patch? c).isSome) : c ∈ l.places := by
  obtain ⟨patch, found⟩ := Option.isSome_iff_exists.mp inside
  obtain ⟨row, atRow, atCol⟩ := Option.bind_eq_some_iff.mp found
  obtain ⟨within, -⟩ := List.getElem?_eq_some_iff.mp atCol
  refine List.mem_flatMap.mpr ⟨(row, c.row), List.mem_zipIdx_iff_getElem?.mpr atRow, ?_⟩
  exact List.mem_map.mpr ⟨c.col, List.mem_range.mpr within, rfl⟩

/-- No more different places lie on the grid than it has patches. -/
theorem length_le_of_nodup {cs : List Coord} (once : cs.Nodup) (inside : ∀ c ∈ cs, (l.patch? c).isSome) :
    cs.length ≤ l.patches.length := by
  rw [← length_places]
  exact (List.subperm_of_subset once fun c member => mem_places (inside c member)).length_le

theorem mem_ring {trails : List Trail} {seen : List Coord} {trail : Trail}
    (h : trail ∈ l.ring usable trails seen) :
    ∃ previous ∈ trails, ∃ axis, trail = ⟨trail.here, previous.here :: previous.back⟩ ∧
      (trail.here, axis) ∈ l.adjacent previous.here ∧ usable trail.here ∧ trail.here ∉ seen := by
  have fresh := (Trail.nodup_distinct seen _).2 trail h
  obtain ⟨previous, member, h⟩ := List.mem_flatMap.mp (Trail.mem_of_mem_distinct h)
  obtain ⟨next, step, rfl⟩ := List.mem_map.mp h
  obtain ⟨near, free⟩ := List.mem_filter.mp step
  exact ⟨previous, member, next.2, rfl, near, free, fresh⟩

theorem exists_mem_ring {trails : List Trail} {previous : Trail} {next : Coord} {axis : Axis}
    (member : previous ∈ trails) (near : (next, axis) ∈ l.adjacent previous.here) (free : usable next)
    (seen : List Coord) : next ∈ seen ∨ ∃ trail ∈ l.ring usable trails seen, trail.here = next := by
  have step : (⟨next, previous.here :: previous.back⟩ : Trail) ∈ trails.flatMap fun trail =>
      ((l.adjacent trail.here).filter (usable ·.1)).map fun next => ⟨next.1, trail.here :: trail.back⟩ :=
    List.mem_flatMap.mpr ⟨previous, member,
      List.mem_map.mpr ⟨(next, axis), List.mem_filter.mpr ⟨near, free⟩, rfl⟩⟩
  exact Trail.exists_mem_distinct step

/-- What a trail keeps when it goes on to a new place holds of everything met. -/
theorem explore_induction {motive : Trail → Prop}
    (extend : ∀ previous next axis, motive previous → (next, axis) ∈ l.adjacent previous.here →
      usable next → next ∉ previous.here :: previous.back → motive ⟨next, previous.here :: previous.back⟩)
    {bound : Nat} {trails : List Trail} {seen : List Coord} (begins : ∀ trail ∈ trails, motive trail)
    (known : ∀ trail ∈ trails, ∀ c ∈ trail.here :: trail.back, c ∈ seen) {trail : Trail}
    (h : trail ∈ l.explore usable bound trails seen) : motive trail := by
  induction bound generalizing trails seen with
  | zero => cases h
  | succ bound ih =>
      have next : ∀ trail ∈ l.ring usable trails seen, motive trail := by
        intro trail member
        obtain ⟨previous, old, axis, same, near, free, fresh⟩ := mem_ring member
        rw [same]
        exact extend previous _ axis (begins previous old) near free fun again => fresh (known previous old _ again)
      rw [explore] at h
      split at h
      · cases h
      rcases List.mem_append.mp h with h | h
      · exact next trail h
      · refine ih next (fun trail member c passed => ?_) h
        obtain ⟨previous, old, axis, same, -⟩ := mem_ring member
        rw [same] at passed
        rcases List.mem_cons.mp passed with new | passed
        · exact List.mem_append_left _ (List.mem_map.mpr ⟨trail, member, new.symm⟩)
        · exact List.mem_append_right _ (known previous old c passed)

theorem length_of_mem_ring {depth : Nat} {trails : List Trail} {seen : List Coord}
    (even : ∀ trail ∈ trails, trail.back.length = depth) {trail : Trail}
    (h : trail ∈ l.ring usable trails seen) : trail.back.length = depth + 1 := by
  obtain ⟨previous, old, axis, same, -⟩ := mem_ring h
  rw [same]
  exact congrArg (· + 1) (even previous old)

/-- Trails are met shortest first. -/
theorem sorted_explore {depth bound : Nat} {trails : List Trail} {seen : List Coord}
    (even : ∀ trail ∈ trails, trail.back.length = depth) :
    (trails ++ l.explore usable bound trails seen).Pairwise (fun a b => a.back.length ≤ b.back.length) ∧
      ∀ trail ∈ trails ++ l.explore usable bound trails seen, depth ≤ trail.back.length := by
  induction bound generalizing depth trails seen with
  | zero =>
      rw [explore, List.append_nil]
      exact ⟨Trail.sorted_of_even even, fun trail member => Nat.le_of_eq (even trail member).symm⟩
  | succ bound ih =>
      rw [explore]
      split
      · rw [List.append_nil]
        exact ⟨Trail.sorted_of_even even, fun trail member => Nat.le_of_eq (even trail member).symm⟩
      · obtain ⟨sorted, deep⟩ := @ih _ _ ((l.ring usable trails seen).map (·.here) ++ seen)
          fun trail member => length_of_mem_ring even member
        refine ⟨List.pairwise_append.mpr ⟨Trail.sorted_of_even even, sorted, fun a ha b hb => ?_⟩,
          fun trail member => ?_⟩
        · have := even a ha
          have := deep b hb
          omega
        · rcases List.mem_append.mp member with old | new
          · exact Nat.le_of_eq (even trail old).symm
          · exact Nat.le_of_succ_le (deep trail new)

/-- A usable neighbour of a place met is met at most one step later, if a ring is left for it. -/
theorem exists_mem_explore {depth bound : Nat} {trails : List Trail} {seen : List Coord}
    (even : ∀ trail ∈ trails, trail.back.length = depth) {trail : Trail}
    (met : trail ∈ trails ++ l.explore usable bound trails seen) (room : trail.back.length < depth + bound)
    {next : Coord} {axis : Axis} (near : (next, axis) ∈ l.adjacent trail.here) (free : usable next) :
    next ∈ seen ∨ ∃ later ∈ l.explore usable bound trails seen,
      later.here = next ∧ later.back.length ≤ trail.back.length + 1 := by
  induction bound generalizing depth trails seen with
  | zero =>
      have := (sorted_explore even).2 trail met
      omega
  | succ bound ih =>
      have longer : ∀ trail ∈ l.ring usable trails seen, trail.back.length = depth + 1 :=
        fun trail member => length_of_mem_ring even member
      rw [explore] at met ⊢
      split at met
      next nothing =>
          rw [if_pos nothing]
          rw [List.append_nil] at met
          refine (exists_mem_ring met near free seen).imp_right ?_
          rintro ⟨later, member, -⟩
          rw [List.isEmpty_iff.mp nothing] at member
          cases member
      next something =>
          rw [if_neg something]
          rcases List.mem_append.mp met with old | new
          · refine (exists_mem_ring old near free seen).imp_right ?_
            rintro ⟨later, member, same⟩
            refine ⟨later, List.mem_append_left _ member, same, ?_⟩
            exact Nat.le_of_eq ((longer later member).trans (congrArg (· + 1) (even trail old).symm))
          · rcases ih longer new (by omega) with known | ⟨later, member, same, short⟩
            · rcases List.mem_append.mp known with here | known
              · obtain ⟨later, member, same⟩ := List.mem_map.mp here
                refine .inr ⟨later, List.mem_append_left _ member, same, ?_⟩
                have := (sorted_explore longer).2 trail new
                have := longer later member
                omega
              · exact .inl known
            · exact .inr ⟨later, List.mem_append_right _ member, same, short⟩

end Layout

end LatticeSurgery
