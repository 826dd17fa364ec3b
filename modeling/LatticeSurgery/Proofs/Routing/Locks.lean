import LatticeSurgery.Proofs.Routing.Placement

/-! # The lock table

A layout seen as a table of locks, and what locking, unlocking and turning patches do to it.
-/

namespace LatticeSurgery

namespace Layout

/-! ## Changing several patches -/

/-- What a change does not touch is as before. -/
theorem map_patch?_modify {β : Type} {view : Patch → β} {f : Patch → Patch}
    (keeps : ∀ patch, view (f patch) = view patch) (l : Layout) (c d : Coord) :
    ((l.modify c f).patch? d).map view = (l.patch? d).map view := by
  rw [patch?_modify]
  split
  · rw [Option.map_map]
    exact congrFun (congrArg Option.map (funext keeps)) _
  · rfl

theorem map_patch?_modifyAll {β : Type} {view : Patch → β} {f : Patch → Patch}
    (keeps : ∀ patch, view (f patch) = view patch) (l : Layout) (cs : List Coord) (d : Coord) :
    ((cs.foldl (·.modify · f) l).patch? d).map view = (l.patch? d).map view := by
  induction cs generalizing l with
  | nil => rfl
  | cons c cs ih => rw [List.foldl_cons, ih, map_patch?_modify keeps]

/-- Patches that are listed once each change once each. -/
theorem patch?_modifyAll {cs : List Coord} (once : cs.Nodup) (l : Layout) (f : Patch → Patch) (d : Coord) :
    (cs.foldl (·.modify · f) l).patch? d = if d ∈ cs then (l.patch? d).map f else l.patch? d := by
  induction cs generalizing l with
  | nil => simp
  | cons c cs ih =>
      obtain ⟨fresh, once⟩ := List.nodup_cons.mp once
      rw [List.foldl_cons, ih once, patch?_modify]
      by_cases here : d = c
      · simp [here, fresh]
      · simp [here]

/-! ## Locks -/

/-- The lock at a place. -/
def lockAt (l : Layout) (c : Coord) : Option Lock := (l.patch? c).bind (·.lock)

theorem mem_locks_of_lockAt {l : Layout} {c : Coord} {lock : Lock} (h : l.lockAt c = some lock) :
    lock ∈ l.patches.filterMap (·.lock) := by
  obtain ⟨patch, found, held⟩ := Option.bind_eq_some_iff.mp h
  obtain ⟨row, here, found⟩ := Option.bind_eq_some_iff.mp found
  have member := List.mem_flatten.mpr ⟨row, List.mem_of_getElem? here, List.mem_of_getElem? found⟩
  exact List.mem_filterMap.mpr ⟨patch, member, held⟩

theorem lockAt_modify (l : Layout) (c d : Coord) (f : Patch → Patch) :
    (l.modify c f).lockAt d = if d = c then (l.patch? d).bind fun patch => (f patch).lock else l.lockAt d := by
  simp only [lockAt, patch?_modify]
  split
  · cases l.patch? d <;> rfl
  · rfl

theorem lockAt_unlock (l : Layout) (c d : Coord) (node : NodeId) :
    (l.unlock c node).lockAt d
      = if d = c ∧ (l.lockAt d).any (·.node == node) then none else l.lockAt d := by
  rw [unlock, lockAt_modify]
  by_cases here : d = c
  · subst here
    cases found : l.patch? d with
    | none => simp [lockAt, found]
    | some patch =>
        simp only [if_true, lockAt, found, Option.bind_some, Patch.unlocked, true_and]
        split <;> rfl
  · simp [here]

theorem lockAt_unlockAll (l : Layout) (cs : List Coord) (d : Coord) (node : NodeId) :
    (cs.foldl (·.unlock · node) l).lockAt d
      = if d ∈ cs ∧ (l.lockAt d).any (·.node == node) then none else l.lockAt d := by
  induction cs generalizing l with
  | nil => simp
  | cons c cs ih =>
      rw [List.foldl_cons, ih, lockAt_unlock]
      grind

theorem lockAt_rotate (l : Layout) (c d : Coord) : (l.rotate c).lockAt d = l.lockAt d := by
  rw [rotate, lockAt_modify]
  split
  · cases found : l.patch? d with
    | none => simp [lockAt, found]
    | some patch =>
        simp only [lockAt, found, Option.bind_some, Patch.rotated]
        split <;> rfl
  · rfl

theorem lockAt_rotateAll (l : Layout) (cs : List Coord) (d : Coord) :
    (cs.foldl .rotate l).lockAt d = l.lockAt d := by
  induction cs generalizing l with
  | nil => rfl
  | cons c cs ih => rw [List.foldl_cons, ih, lockAt_rotate]

theorem lock_eq_ok {l m : Layout} {c : Coord} {node : NodeId} {cycle duration : Nat}
    (h : l.lock c node cycle duration = .ok m) (inside : (l.patch? c).isSome) :
    m = l.modify c (·.locked ⟨node, cycle, cycle + duration⟩) := by
  unfold lock at h
  rw [if_pos inside] at h
  obtain ⟨freeAt, sum, h⟩ := bind_eq_ok.mp h
  obtain ⟨_, rfl⟩ := addWords_eq_ok_iff.mp sum
  exact (Except.ok.inj h).symm

theorem lockAt_lockAll {l m : Layout} {cs : List Coord} {node : NodeId} {cycle duration : Nat}
    (h : l.lockAll node cycle duration cs = .ok m) (inside : ∀ c ∈ cs, (l.patch? c).isSome) (d : Coord) :
    m.lockAt d = if d ∈ cs then some ⟨node, cycle, cycle + duration⟩ else l.lockAt d := by
  induction cs generalizing l with
  | nil => cases h; simp
  | cons c cs ih =>
      obtain ⟨next, first, h⟩ := bind_eq_ok.mp h
      obtain rfl := lock_eq_ok first (inside c List.mem_cons_self)
      have kept : ∀ c' ∈ cs, ((l.modify c (·.locked ⟨node, cycle, cycle + duration⟩)).patch? c').isSome := by
        intro c' member
        rw [patch?_modify]
        split <;> simp [inside c' (List.mem_cons_of_mem _ member)]
      rw [ih h kept, lockAt_modify]
      have here := inside c List.mem_cons_self
      by_cases same : d = c
      · obtain ⟨patch, found⟩ := Option.isSome_iff_exists.mp here
        simp [same, found, Patch.locked]
      · simp [same]

theorem lockAll_eq_ok {l m : Layout} {cs : List Coord} {node : NodeId} {cycle duration : Nat}
    (h : l.lockAll node cycle duration cs = .ok m) (inside : ∀ c ∈ cs, (l.patch? c).isSome) :
    m = cs.foldl (·.modify · (·.locked ⟨node, cycle, cycle + duration⟩)) l := by
  induction cs generalizing l with
  | nil =>
      cases h
      rfl
  | cons c cs ih =>
      obtain ⟨next, first, h⟩ := bind_eq_ok.mp h
      obtain rfl := lock_eq_ok first (inside c List.mem_cons_self)
      refine ih h fun d member => ?_
      rw [patch?_modify]
      split <;> simp [inside d (List.mem_cons_of_mem _ member)]

end Layout

end LatticeSurgery
