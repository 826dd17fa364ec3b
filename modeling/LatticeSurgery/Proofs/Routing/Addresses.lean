import Mathlib.Data.List.Nodup
import LatticeSurgery.Proofs.Routing.Placement

/-! # Addresses and the use of places

A node is placed on the addresses of its targets, and the book notes of each of them how long it is in use. A
target that has no address gets a slot, so a target that is named twice may get two of them, of which the book
remembers one; this is why such targets need fixed places.
-/

namespace LatticeSurgery

namespace AddressBook

variable {book next : AddressBook}

/-! ## Choosing slots -/

theorem choose_eq_some {targets : List Symbol} {chosen all : List (Symbol × Coord)} {coords : List Coord}
    (h : book.choose chosen targets = some (coords, all)) :
    ∃ new, all = chosen ++ new ∧ new.map (·.1) = targets.filter (fun target => (book.address? target).isNone) ∧
      List.Forall₂ (fun target c => book.address? target = some c ∨ (target, c) ∈ new) targets coords := by
  induction targets generalizing chosen coords with
  | nil =>
      cases h
      exact ⟨[], by simp, rfl, .nil⟩
  | cons target rest ih =>
      rw [choose] at h
      split at h
      next coord known =>
          obtain ⟨result, found, same⟩ := Option.map_eq_some_iff.mp h
          cases same
          obtain ⟨new, joined, names, places⟩ := ih found
          exact ⟨new, joined, by simpa [known] using names, .cons (.inl known) places⟩
      next unknown =>
          obtain ⟨slot, _, h⟩ := Option.bind_eq_some_iff.mp h
          obtain ⟨result, found, same⟩ := Option.bind_eq_some_iff.mp h
          cases same
          obtain ⟨new, joined, names, places⟩ := ih found
          refine ⟨(target, slot) :: new, by simp [joined], by simpa [unknown] using names, ?_⟩
          exact .cons (.inr List.mem_cons_self) (places.imp fun _ _ => Or.imp_right (List.mem_cons_of_mem _))

theorem resolve_eq_some {node : Node} {coords : List Coord} (h : (book.resolve node).1 = some coords) :
    ∃ chosen pending, book.choose [] node.targets = some (coords, chosen) ∧
      (book.resolve node).2 = { book with pending } ∧ pending.getD node.id [] = chosen := by
  unfold resolve at h ⊢
  split at h
  · cases h
  next found =>
      cases h
      exact ⟨[], _, found, rfl, by simp⟩
  next chosen found =>
      cases h
      exact ⟨_, _, found, rfl, by simp⟩

theorem choose_pending (book : AddressBook) (pending : NodeMap (List (Symbol × Coord)))
    (chosen : List (Symbol × Coord)) (targets : List Symbol) :
    ({ book with pending } : AddressBook).choose chosen targets = book.choose chosen targets := by
  induction targets generalizing chosen with
  | nil => rfl
  | cons target rest ih =>
      simp only [choose, ih]
      rfl

theorem resolve_pending (book : AddressBook) (pending : NodeMap (List (Symbol × Coord))) (node : Node) :
    (({ book with pending } : AddressBook).resolve node).1 = (book.resolve node).1 := by
  unfold resolve
  rw [choose_pending]
  split <;> rfl

/-! ## Committing a choice -/

/-- The slots in use after some more were taken. -/
def taken (held : SymbolMap Coord) (slots : List (Symbol × Coord)) : SymbolMap Coord :=
  slots.foldl (fun held slot => held.insert slot.1 slot.2) held

theorem held_commit (book : AddressBook) (id : NodeId) :
    (book.commit id).held = taken book.held (book.pending.getD id []) :=
  rfl

theorem getElem?_taken_of_not_mem {slots : List (Symbol × Coord)} {symbol : Symbol} (other : symbol ∉ slots.map (·.1))
    (held : SymbolMap Coord) : (taken held slots)[symbol]? = held[symbol]? := by
  induction slots generalizing held with
  | nil => rfl
  | cons slot slots ih =>
      rw [List.map_cons, List.mem_cons, not_or] at other
      show (taken (held.insert slot.1 slot.2) slots)[symbol]? = _
      rw [ih other.2, Std.ExtTreeMap.getElem?_insert, if_neg]
      simpa using Ne.symm other.1

theorem getElem?_taken_of_mem {slots : List (Symbol × Coord)} {symbol : Symbol} {c : Coord}
    (distinct : (slots.map (·.1)).Nodup) (member : (symbol, c) ∈ slots) (held : SymbolMap Coord) :
    (taken held slots)[symbol]? = some c := by
  induction slots generalizing held with
  | nil => cases member
  | cons slot slots ih =>
      obtain ⟨fresh, distinct⟩ := List.nodup_cons.mp distinct
      show (taken (held.insert slot.1 slot.2) slots)[symbol]? = _
      rcases List.mem_cons.mp member with rfl | member
      · rw [getElem?_taken_of_not_mem fresh, Std.ExtTreeMap.getElem?_insert, if_pos (by simp)]
      · exact ih distinct member _

theorem exists_getElem?_taken {slots : List (Symbol × Coord)} {symbol : Symbol} (named : symbol ∈ slots.map (·.1))
    (held : SymbolMap Coord) : ∃ c, (taken held slots)[symbol]? = some c := by
  induction slots generalizing held with
  | nil => cases named
  | cons slot slots ih =>
      show ∃ c, (taken (held.insert slot.1 slot.2) slots)[symbol]? = some c
      by_cases later : symbol ∈ slots.map (·.1)
      · exact ih later _
      · rw [getElem?_taken_of_not_mem later, Std.ExtTreeMap.getElem?_insert, if_pos]
        · exact ⟨slot.2, rfl⟩
        · rw [Std.compare_eq_iff_eq]
          exact ((List.mem_cons.mp named).resolve_right later).symm

theorem bindings_none_of_address?_none {symbol : Symbol} (unknown : book.address? symbol = none) :
    book.bindings[symbol]? = none :=
  (Option.or_eq_none_iff.mp unknown).1

section Commit

variable {id : NodeId} {targets : List Symbol} {coords : List Coord} {chosen : List (Symbol × Coord)}
  {pending : NodeMap (List (Symbol × Coord))} {symbol : Symbol}

/-- Slots are chosen for targets without an address. -/
theorem unplaced_of_choose (h : book.choose [] targets = some (coords, chosen)) (named : symbol ∈ chosen.map (·.1)) :
    book.address? symbol = none := by
  obtain ⟨new, joined, names, _⟩ := choose_eq_some h
  rw [joined, List.nil_append, names] at named
  exact Option.isNone_iff_eq_none.mp (List.mem_filter.mp named).2

theorem address?_commit (asked : pending.getD id [] = chosen) :
    (commit { book with pending } id).address? symbol
      = book.bindings[symbol]?.or (taken book.held chosen)[symbol]? := by
  rw [address?, held_commit, asked]
  rfl

variable (h : book.choose [] targets = some (coords, chosen)) (asked : pending.getD id [] = chosen)
include h asked

theorem address?_commit_of_some {c : Coord} (known : book.address? symbol = some c) :
    (commit { book with pending } id).address? symbol = some c := by
  have other : symbol ∉ chosen.map (·.1) := by
    intro named
    rw [unplaced_of_choose h named] at known
    cases known
  rw [address?_commit asked, getElem?_taken_of_not_mem other]
  exact known

theorem exists_address?_commit_of_mem (target : symbol ∈ targets) :
    ∃ c, (commit { book with pending } id).address? symbol = some c := by
  cases known : book.address? symbol with
  | some c => exact ⟨c, address?_commit_of_some h asked known⟩
  | none =>
      obtain ⟨new, joined, names, _⟩ := choose_eq_some h
      have named : symbol ∈ chosen.map (·.1) := by
        rw [joined, List.nil_append, names]
        exact List.mem_filter.mpr ⟨target, by rw [known]; rfl⟩
      obtain ⟨c, held⟩ := exists_getElem?_taken named book.held
      refine ⟨c, ?_⟩
      rw [address?_commit asked, bindings_none_of_address?_none known, held]
      rfl

variable (fixed : ∀ symbol, 2 ≤ targets.count symbol → ∃ c, book.bindings[symbol]? = some c)
include fixed

/-- The places that a choice offers are then the addresses of the targets, if targets named twice have fixed places. -/
theorem map_address?_commit : targets.map (commit { book with pending } id).address? = coords.map some := by
  obtain ⟨new, joined, names, places⟩ := choose_eq_some h
  rw [List.nil_append] at joined
  subst joined
  have distinct : (chosen.map (·.1)).Nodup := by
    rw [List.nodup_iff_count_le_one]
    intro symbol
    by_contra more
    have unknown := unplaced_of_choose h (List.count_pos_iff.mp (by omega : 0 < (chosen.map (·.1)).count symbol))
    have fewer : (chosen.map (·.1)).count symbol ≤ targets.count symbol := by
      rw [names]
      exact List.filter_sublist.count_le symbol
    obtain ⟨place, bound⟩ := fixed symbol (by omega)
    rw [bindings_none_of_address?_none unknown] at bound
    cases bound
  rw [← List.forall₂_eq_eq_eq, List.forall₂_map_left_iff, List.forall₂_map_right_iff]
  refine places.imp fun target c placed => ?_
  rcases placed with known | slot
  · exact address?_commit_of_some h asked known
  · have unknown := unplaced_of_choose h (List.mem_map_of_mem slot)
    rw [address?_commit asked, bindings_none_of_address?_none unknown, getElem?_taken_of_mem distinct slot]
    rfl

theorem exists_address?_commit {c : Coord} (member : c ∈ coords) :
    ∃ target ∈ targets, (commit { book with pending } id).address? target = some c := by
  have offered : some c ∈ coords.map some := List.mem_map_of_mem member
  rw [← map_address?_commit h asked fixed] at offered
  exact List.mem_map.mp offered

end Commit

/-! ## Giving up slots -/

theorem getElem?_free (book : AddressBook) (node : Node) (symbol : Symbol) :
    (book.free node).held[symbol]? = if symbol ∈ node.targets then none else book.held[symbol]? := by
  suffices ∀ (targets : List Symbol) (held : SymbolMap Coord), (targets.foldl (·.erase ·) held)[symbol]?
      = if symbol ∈ targets then none else held[symbol]? from this node.targets book.held
  intro targets
  induction targets with
  | nil => simp
  | cons target targets ih =>
      intro held
      rw [List.foldl_cons, ih, Std.ExtTreeMap.getElem?_erase]
      grind

/-- A fixed place is not given up, and nobody gives up the slots of others. -/
theorem address?_free {node : Node} {symbol : Symbol}
    (keeps : (∃ c, book.bindings[symbol]? = some c) ∨ symbol ∉ node.targets) :
    (book.free node).address? symbol = book.address? symbol := by
  rw [address?, getElem?_free, address?]
  rcases keeps with ⟨c, bound⟩ | other
  · rw [show (book.free node).bindings[symbol]? = some c from bound, bound]
    rfl
  · rw [if_neg other]
    rfl

/-! ## Noting the use of places -/

theorem address?_occupy (book : AddressBook) (freeAt : Nat) (symbol : Symbol) :
    (book.occupy freeAt symbol).address? = book.address? := by
  unfold occupy
  split <;> rfl

theorem getD_busyUntil_occupy (book : AddressBook) (freeAt : Nat) (symbol : Symbol) (c : Coord) :
    (book.occupy freeAt symbol).busyUntil.getD c 0
      = if book.address? symbol = some c then max (book.busyUntil.getD c 0) freeAt else book.busyUntil.getD c 0 := by
  unfold occupy
  split
  next coord known =>
      rw [known, Std.ExtTreeMap.getD_insert]
      by_cases here : coord = c
      · simp [here]
      · simp [here]
  next unknown => simp [unknown]

theorem getD_busyUntil_occupyAll (book : AddressBook) (freeAt : Nat) (targets : List Symbol) (c : Coord) :
    (targets.foldl (·.occupy freeAt ·) book).busyUntil.getD c 0
      = if ∃ target ∈ targets, book.address? target = some c then max (book.busyUntil.getD c 0) freeAt
        else book.busyUntil.getD c 0 := by
  induction targets generalizing book with
  | nil => simp
  | cons target targets ih =>
      rw [List.foldl_cons, ih, address?_occupy, getD_busyUntil_occupy]
      by_cases here : book.address? target = some c
      · simp [here]
      · simp [here]

theorem occupyAll_eq (book : AddressBook) (freeAt : Nat) (targets : List Symbol) :
    ∃ busyUntil, targets.foldl (·.occupy freeAt ·) book = { book with busyUntil } := by
  induction targets generalizing book with
  | nil => exact ⟨book.busyUntil, rfl⟩
  | cons target targets ih =>
      obtain ⟨busyUntil, noted⟩ : ∃ busyUntil, book.occupy freeAt target = { book with busyUntil } := by
        unfold occupy
        split
        · exact ⟨_, rfl⟩
        · exact ⟨book.busyUntil, rfl⟩
      obtain ⟨later, same⟩ := ih { book with busyUntil }
      exact ⟨later, by rw [List.foldl_cons, noted, same]⟩

theorem bindings_occupyAll (book : AddressBook) (freeAt : Nat) (targets : List Symbol) :
    (targets.foldl (·.occupy freeAt ·) book).bindings = book.bindings := by
  obtain ⟨busyUntil, same⟩ := occupyAll_eq book freeAt targets
  rw [same]

theorem lock_eq_ok {node : Node} {cycle duration : Nat} (h : book.lock node cycle duration = .ok next) :
    next = node.targets.foldl (·.occupy (cycle + duration) ·) (book.commit node.id) := by
  obtain ⟨freeAt, sum, h⟩ := bind_eq_ok.mp h
  obtain ⟨_, rfl⟩ := addWords_eq_ok_iff.mp sum
  exact (Except.ok.inj h).symm

end AddressBook

namespace Floorplan

variable {f asked : Floorplan} {node : Node} {cycle : Nat} {patches : List Coord}

/-- What a node is placed on: the addresses of its targets, and channel patches. -/
theorem place_eq_some (h : f.place node cycle = (.ok (some patches), asked)) :
    ∃ addresses chosen pending, f.book.choose [] node.targets = some (addresses, chosen) ∧
      asked = { f with book := { f.book with pending } } ∧ pending.getD node.id [] = chosen ∧
      (∀ c ∈ patches, c ∈ addresses ∨ f.layout.routable node.id cycle c) ∧
      (node.nonLocal = false → node.ancillae = 0 → patches = addresses) := by
  unfold place at h
  dsimp only at h
  split at h
  · cases h
  next addresses found =>
      obtain ⟨chosen, pending, choice, same, held⟩ := AddressBook.resolve_eq_some found
      rw [same] at h
      obtain ⟨offered, rfl⟩ := Prod.mk.inj h
      refine ⟨addresses, chosen, pending, choice, rfl, held, ?_, ?_⟩
      · exact fun c member => (mem_patchesFor offered member).imp_left fun address => address.1
      · intro alone bare
        unfold patchesFor at offered
        simp only [alone, bare, Nat.lt_irrefl, decide_false, Bool.or_self, Bool.false_eq_true, if_false] at offered
        split at offered
        · cases offered
        · cases offered
          rfl

/-- No node is placed on a patch twice: a chain goes on through new patches only, and a node without one has at most one
    address. -/
theorem nodup_of_place (h : f.place node cycle = (.ok (some patches), asked)) : patches.Nodup := by
  have offered := congrArg Prod.fst h
  rw [place_fst] at offered
  cases found : (f.book.resolve node).1 with
  | none =>
      rw [found] at offered
      cases offered
  | some addresses =>
      rw [found] at offered
      replace offered : f.patchesFor node cycle addresses = .ok (some patches) := offered
      unfold patchesFor at offered
      split at offered
      · cases offered
      · split at offered
        · exact Layout.nodup_findRoute offered
        next alone =>
            cases offered
            obtain ⟨_, _, choice, _⟩ := AddressBook.resolve_eq_some found
            obtain ⟨_, _, _, places⟩ := AddressBook.choose_eq_some choice
            have few : node.targets.length ≤ 1 := by
              simp only [Bool.or_eq_true, not_or, Node.nonLocal, decide_eq_true_eq] at alone
              omega
            rw [places.length_eq] at few
            rcases patches with _ | ⟨c, _ | ⟨d, more⟩⟩
            · exact List.nodup_nil
            · exact List.nodup_singleton c
            · simp at few

end Floorplan

end LatticeSurgery
