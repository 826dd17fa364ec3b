import LatticeSurgery.Routing.Floorplan
import LatticeSurgery.Proofs.Layout.Search

/-! # Placements use free patches

Whatever a node would hold if it were placed is on the grid and free for it: its own addresses are
probed, and everything else is met by going through free channel patches. A patch that is met twice is held once.
-/

namespace LatticeSurgery

namespace Layout

variable {l : Layout}

theorem mem_connect {node : Node} {cycle arity index : Nat} {here : Coord} {chain rest joined : List Coord}
    (h : l.connect node cycle arity index here chain rest = some joined) {c : Coord}
    (member : c ∈ joined) : c ∈ chain ∨ c ∈ here :: rest ∨ l.routable node.id cycle c := by
  induction rest generalizing index here chain with
  | nil => cases h; exact .inl member
  | cons next rest ih =>
      obtain ⟨path, found, h⟩ := Option.bind_eq_some_iff.mp h
      rcases ih h with old | onward | free
      · rcases mem_appendNew.mp old with old | onPath
        · exact .inl old
        · rcases mem_route found (List.mem_of_mem_drop onPath) with rfl | rfl | free
          · exact .inr (.inl List.mem_cons_self)
          · exact .inr (.inl (List.mem_cons_of_mem _ List.mem_cons_self))
          · exact .inr (.inr free)
      · exact .inr (.inl (List.mem_cons_of_mem _ onward))
      · exact .inr (.inr free)

theorem mem_surround {node : Node} {cycle : Nat} {chain addresses patches : List Coord}
    (h : l.surround node cycle chain addresses = .ok (some patches)) {c : Coord}
    (member : c ∈ patches) : c ∈ chain ∨ l.routable node.id cycle c := by
  induction addresses generalizing chain with
  | nil => cases h; exact .inl member
  | cons address rest ih =>
      rw [surround] at h
      split at h
      · cases h
      · cases h
      next spare found =>
          rcases ih h with old | free
          · exact (List.mem_append.mp old).imp_right (mem_spare (spare_of_ancillae found))
          · exact .inr free

theorem nodup_connect {node : Node} {cycle arity index : Nat} {here : Coord} {chain rest joined : List Coord}
    (once : chain.Nodup) (h : l.connect node cycle arity index here chain rest = some joined) : joined.Nodup := by
  induction rest generalizing index here chain with
  | nil =>
      cases h
      exact once
  | cons next rest ih =>
      obtain ⟨path, _, h⟩ := Option.bind_eq_some_iff.mp h
      exact ih (nodup_appendNew once) h

theorem nodup_surround {node : Node} {cycle : Nat} {chain addresses patches : List Coord} (once : chain.Nodup)
    (h : l.surround node cycle chain addresses = .ok (some patches)) : patches.Nodup := by
  induction addresses generalizing chain with
  | nil =>
      cases h
      exact once
  | cons address rest ih =>
      rw [surround] at h
      split at h
      · cases h
      · cases h
      next spare found =>
          obtain ⟨distinct, clear⟩ := nodup_spare (spare_of_ancillae found)
          refine ih (List.nodup_append.mpr ⟨once, distinct, ?_⟩) h
          rintro c here d member rfl
          exact clear c member here

theorem mem_findRoute {node : Node} {addresses patches : List Coord} {cycle : Nat}
    (h : l.findRoute node addresses cycle = .ok (some patches)) {c : Coord} (member : c ∈ patches) :
    c ∈ addresses ∨ l.routable node.id cycle c := by
  unfold findRoute at h
  split at h
  · cases h
  next anchor rest =>
      split at h
      · cases h
      next chain joined =>
          rcases mem_surround h member with joint | free
          · rcases mem_connect joined joint with first | onward | free
            · exact .inl (List.mem_singleton.mp first ▸ List.mem_cons_self)
            · exact .inl onward
            · exact .inr free
          · exact .inr free

theorem nodup_findRoute {node : Node} {addresses patches : List Coord} {cycle : Nat}
    (h : l.findRoute node addresses cycle = .ok (some patches)) : patches.Nodup := by
  unfold findRoute at h
  split at h
  · cases h
  · split at h
    · cases h
    next joined => exact nodup_surround (nodup_connect (List.pairwise_singleton _ _) joined) h

end Layout

theorem AddressBook.resolve_snd (book : AddressBook) (node : Node) :
    ∃ pending, (book.resolve node).2 = { book with pending } := by
  unfold resolve
  split <;> exact ⟨_, rfl⟩

namespace Floorplan

/-- Placing asks the book for addresses and the layout for patches that join them. -/
theorem place_eq (f : Floorplan) (node : Node) (cycle : Nat) :
    f.place node cycle = ((f.book.resolve node).1.elim (.ok none) (f.patchesFor node cycle),
      { f with book := (f.book.resolve node).2 }) := by
  unfold place
  dsimp only
  cases (f.book.resolve node).1 <;> rfl

theorem place_fst (f : Floorplan) (node : Node) (cycle : Nat) :
    (f.place node cycle).1 = (f.book.resolve node).1.elim (.ok none) (f.patchesFor node cycle) := by
  rw [place_eq]

/-- Asking for a place changes nothing but what is pending. -/
theorem place_snd (f : Floorplan) (node : Node) (cycle : Nat) :
    ∃ pending, (f.place node cycle).2 = { f with book := { f.book with pending } } := by
  obtain ⟨pending, same⟩ := f.book.resolve_snd node
  exact ⟨pending, by rw [place_eq, same]⟩

theorem layout_place (f : Floorplan) (node : Node) (cycle : Nat) : (f.place node cycle).2.layout = f.layout := by
  obtain ⟨pending, same⟩ := f.place_snd node cycle
  rw [same]

/-- The patches offered to a node are its addresses, which are free for it, and channel patches. -/
theorem mem_patchesFor {f : Floorplan} {node : Node} {cycle : Nat} {addresses patches : List Coord}
    (h : f.patchesFor node cycle addresses = .ok (some patches)) {c : Coord} (member : c ∈ patches) :
    (c ∈ addresses ∧ f.layout.probe c node.id cycle) ∨ f.layout.routable node.id cycle c := by
  unfold patchesFor at h
  split at h
  · cases h
  next free =>
      have free : ∀ c ∈ addresses, f.layout.probe c node.id cycle := by simpa using free
      split at h
      · exact (Layout.mem_findRoute h member).imp_left fun address => ⟨address, free c address⟩
      · cases h
        exact .inl ⟨member, free c member⟩

theorem probe_of_place {f floor : Floorplan} {node : Node} {cycle : Nat} {patches : List Coord}
    (h : f.place node cycle = (.ok (some patches), floor)) {c : Coord} (member : c ∈ patches) :
    f.layout.probe c node.id cycle := by
  unfold place at h
  dsimp only at h
  split at h
  · cases h
  · obtain ⟨offered, rfl⟩ := Prod.mk.inj h
    exact (mem_patchesFor offered member).elim (fun address => address.2) Layout.probe_of_routable

/-- A node that is placed has begun, and its time is not up. -/
theorem startOf_le (f : Floorplan) (node : Node) (cycle : Nat) :
    f.startOf node cycle ≤ cycle ∧ cycle < f.startOf node cycle + node.duration := by
  unfold startOf Node.duration
  split <;> omega

end Floorplan

end LatticeSurgery
