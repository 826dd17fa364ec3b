import LatticeSurgery.Layout.Path

/-! # Searching through free channels

An exploration goes through usable places only and meets none of them twice. So what lies between the ends of a path,
and every spare patch, is a channel patch that the node may use.
-/

namespace LatticeSurgery

/-- Every place of a trail but its start is usable. -/
def Trail.Clear (usable : Coord → Bool) (start : Coord) (trail : Trail) : Prop :=
  ∀ c ∈ trail.here :: trail.back, c = start ∨ usable c

theorem Trail.mem_of_mem_distinct {seen : List Coord} {trails : List Trail} {trail : Trail}
    (h : trail ∈ distinct seen trails) : trail ∈ trails := by
  induction trails generalizing seen with
  | nil => cases h
  | cons head rest ih =>
      rw [distinct] at h
      split at h
      · exact List.mem_cons_of_mem _ (ih h)
      · rcases List.mem_cons.mp h with rfl | h
        · exact List.mem_cons_self
        · exact List.mem_cons_of_mem _ (ih h)

theorem Trail.nodup_distinct (seen : List Coord) (trails : List Trail) :
    ((distinct seen trails).map (·.here)).Nodup ∧ ∀ trail ∈ distinct seen trails, trail.here ∉ seen := by
  induction trails generalizing seen with
  | nil => simp [distinct]
  | cons head rest ih =>
      rw [distinct]
      split
      · exact ih seen
      next fresh =>
          obtain ⟨once, new⟩ := ih (head.here :: seen)
          refine ⟨List.nodup_cons.mpr ⟨fun again => ?_, once⟩, fun trail member => ?_⟩
          · obtain ⟨trail, member, same⟩ := List.mem_map.mp again
            exact new trail member (same ▸ List.mem_cons_self)
          · rcases List.mem_cons.mp member with rfl | member
            · exact fresh
            · exact fun old => new trail member (List.mem_cons_of_mem _ old)

namespace Layout

variable {l : Layout} {usable : Coord → Bool} {start : Coord}

theorem clear_ring {trails : List Trail} {seen : List Coord}
    (clear : ∀ trail ∈ trails, trail.Clear usable start) {trail : Trail}
    (h : trail ∈ l.ring usable trails seen) : trail.Clear usable start ∧ usable trail.here := by
  obtain ⟨previous, member, h⟩ := List.mem_flatMap.mp (Trail.mem_of_mem_distinct h)
  obtain ⟨next, step, rfl⟩ := List.mem_map.mp h
  have free : usable next.1 := (List.mem_filter.mp step).2
  refine ⟨fun c hc => ?_, free⟩
  rcases List.mem_cons.mp hc with rfl | hc
  · exact .inr free
  · exact clear previous member c hc

theorem clear_explore {bound : Nat} {trails : List Trail} {seen : List Coord}
    (clear : ∀ trail ∈ trails, trail.Clear usable start) {trail : Trail}
    (h : trail ∈ l.explore usable bound trails seen) : trail.Clear usable start ∧ usable trail.here := by
  induction bound generalizing trails seen with
  | zero => cases h
  | succ bound ih =>
      rw [explore] at h
      split at h
      · cases h
      · rcases List.mem_append.mp h with h | h
        · exact clear_ring clear h
        · exact ih (fun trail member => (clear_ring clear member).1) h

theorem clear_exits {boundary : Boundary} {trail : Trail}
    (h : trail ∈ l.exits usable start boundary) : trail.Clear usable start := by
  obtain ⟨⟨next, axis⟩, step, rfl⟩ := List.mem_map.mp h
  have free := (Bool.and_eq_true_iff.mp (List.mem_filter.mp step).2).2
  intro c hc
  rcases List.mem_cons.mp hc with rfl | hc
  · exact .inr free
  · exact .inl (List.mem_singleton.mp hc)

/-- A path joins its ends through channel patches that the node may use. -/
theorem mem_route {goal : Coord} {node : NodeId} {cycle : Nat} {leave enter : Boundary}
    {path : List Coord} (h : l.route start goal node cycle leave enter = some path) {c : Coord}
    (member : c ∈ path) : c = start ∨ c = goal ∨ l.routable node cycle c := by
  unfold route at h
  split at h
  · cases h
  · obtain ⟨trail, found, rfl⟩ := Option.map_eq_some_iff.mp h
    have clear : trail.Clear (l.routable node cycle) start := by
      rcases List.mem_append.mp (List.mem_of_find?_eq_some found) with met | met
      · exact clear_exits met
      · exact (clear_explore (fun _ => clear_exits) met).1
    rcases List.mem_cons.mp (List.mem_reverse.mp member) with rfl | member
    · exact .inr (.inl rfl)
    · exact (clear c member).imp_right .inr

theorem mem_spare {node : NodeId} {anchor : Coord} {count cycle : Nat} {taken spare : List Coord}
    (h : l.spare node anchor count cycle taken = some spare) {c : Coord} (member : c ∈ spare) :
    l.routable node cycle c := by
  unfold Layout.spare at h
  split at h
  · cases h; cases member
  · dsimp only at h
    split at h
    · cases h
    · cases h
      have first : ∀ trail ∈ [(⟨anchor, []⟩ : Trail)], trail.Clear (l.routable node cycle) anchor := by
        intro trail member c hc
        rw [List.mem_singleton.mp member] at hc
        exact .inl (List.mem_singleton.mp hc)
      have met := (List.mem_filter.mp (List.mem_of_mem_take member)).1
      obtain ⟨trail, found, rfl⟩ := List.mem_map.mp met
      exact (clear_explore first found).2

theorem nodup_explore (bound : Nat) (trails : List Trail) (seen : List Coord) :
    ((l.explore usable bound trails seen).map (·.here)).Nodup ∧
      ∀ trail ∈ l.explore usable bound trails seen, trail.here ∉ seen := by
  induction bound generalizing trails seen with
  | zero => simp [explore]
  | succ bound ih =>
      rw [explore]
      split
      · simp
      · obtain ⟨once, new⟩ : ((l.ring usable trails seen).map (·.here)).Nodup ∧ _ := Trail.nodup_distinct seen _
        obtain ⟨once', new'⟩ := ih (l.ring usable trails seen) ((l.ring usable trails seen).map (·.here) ++ seen)
        refine ⟨?_, fun trail member => ?_⟩
        · rw [List.map_append, List.nodup_append]
          refine ⟨once, once', fun c here d later same => ?_⟩
          obtain ⟨trail, member, rfl⟩ := List.mem_map.mp later
          exact new' trail member (List.mem_append_left _ (same ▸ here))
        · rcases List.mem_append.mp member with member | member
          · exact new trail member
          · exact fun old => new' trail member (List.mem_append_right _ old)

theorem nodup_spare {node : NodeId} {anchor : Coord} {count cycle : Nat} {taken spare : List Coord}
    (h : l.spare node anchor count cycle taken = some spare) : spare.Nodup ∧ ∀ c ∈ spare, c ∉ taken := by
  unfold Layout.spare at h
  split at h
  · cases h
    simp
  · dsimp only at h
    split at h
    · cases h
    · cases h
      refine ⟨((nodup_explore _ _ _).1.filter _).sublist (List.take_sublist _ _), fun c member => ?_⟩
      simpa using (List.mem_filter.mp (List.mem_of_mem_take member)).2

theorem spare_of_ancillae {node : NodeId} {anchor : Coord} {count cycle : Nat} {taken : List Coord}
    {found : Option (List Coord)} (h : l.ancillae node anchor count cycle taken = .ok found) :
    l.spare node anchor count cycle taken = found := by
  unfold ancillae at h
  split at h
  · cases h
  · exact Except.ok.inj h

theorem probe_of_routable {node : NodeId} {cycle : Nat} {c : Coord} (h : l.routable node cycle c) :
    l.probe c node cycle := by
  unfold routable at h
  unfold probe
  cases found : l.patch? c with
  | none => simp [found] at h
  | some patch => simp_all

end Layout

end LatticeSurgery
