import LatticeSurgery.Proofs.Lists
import LatticeSurgery.Proofs.Routing.Slots

/-! # Enough slots

Targets without an address pick slots one after the other, each the first that nobody holds and that was not picked
before. All together they take the vacant slots from the front, so the picks run out exactly if there are more such
targets than vacant slots, and nothing but the pending choice of the node is touched either way.
-/

namespace LatticeSurgery

namespace AddressBook

variable {book : AddressBook}

/-! ## The first slot that is not taken -/

/-- The slots that nobody holds, each of them once, in order of preference. -/
def vacant (book : AddressBook) : List Coord :=
  appendNew [] (book.slots.filter fun slot => !book.held.values.contains slot)

theorem nodup_vacant (book : AddressBook) : book.vacant.Nodup := nodup_appendNew List.nodup_nil

theorem mem_vacant {c : Coord} : c ∈ book.vacant ↔ c ∈ book.slots ∧ ∀ symbol : Symbol, book.held[symbol]? ≠ some c := by
  simp [vacant, mem_values]

/-- The targets that are neither bound nor hold a slot. -/
def unplaced (book : AddressBook) (targets : List Symbol) : List Symbol :=
  targets.filter fun target => (book.address? target).isNone

/-- The next slot is the first vacant one that was not picked. -/
theorem freeSlot?_eq {chosen : List (Symbol × Coord)} {k : Nat} (picked : chosen.map (·.2) = book.vacant.take k) :
    book.freeSlot? chosen = book.vacant[k]? := by
  have split : book.freeSlot? chosen = book.vacant.find? fun slot => !(chosen.map (·.2)).contains slot := by
    rw [vacant, find?_appendNew, List.nil_append, List.find?_filter, freeSlot?]
    simp
  rw [split, picked, find?_take book.nodup_vacant]

/-! ## Filling the targets -/

/-- Places for targets: those that have an address keep it, the others get the first slots of a list, in order. -/
structure Fills (book : AddressBook) (slots : List Coord) (targets : List Symbol) (coords : List Coord) : Prop where
  length : coords.length = targets.length
  kept : ∀ pair ∈ targets.zip coords, ∀ c, book.address? pair.1 = some c → pair.2 = c
  fresh : ((targets.zip coords).filter fun pair => (book.address? pair.1).isNone).map (·.2)
    = slots.take (book.unplaced targets).length

section

variable {slots : List Coord} {target : Symbol} {rest : List Symbol} {coords : List Coord} {c : Coord}
  (fills : book.Fills slots rest coords)

theorem Fills.nil (book : AddressBook) (slots : List Coord) : book.Fills slots [] [] := ⟨rfl, by simp, rfl⟩

include fills

theorem Fills.known (known : book.address? target = some c) : book.Fills slots (target :: rest) (c :: coords) where
  length := congrArg (· + 1) fills.length
  kept := by
    rw [List.zip_cons_cons, List.forall_mem_cons]
    exact ⟨fun other same => Option.some.inj (known.symm.trans same), fills.kept⟩
  fresh := by simpa [unplaced, known] using fills.fresh

theorem Fills.unknown (unknown : book.address? target = none) :
    book.Fills (c :: slots) (target :: rest) (c :: coords) where
  length := congrArg (· + 1) fills.length
  kept := by
    rw [List.zip_cons_cons, List.forall_mem_cons]
    exact ⟨fun other same => (Option.some_ne_none _ (same.symm.trans unknown)).elim, fills.kept⟩
  fresh := by simpa [unplaced, unknown] using fills.fresh

end

/-- With `k` vacant slots picked already, the picks succeed if the others suffice, and fail if not. -/
theorem choose_spec (targets : List Symbol) {chosen : List (Symbol × Coord)} {k : Nat} (fits : k ≤ book.vacant.length)
    (picked : chosen.map (·.2) = book.vacant.take k) :
    (book.vacant.length < k + (book.unplaced targets).length → book.choose chosen targets = none) ∧
    (k + (book.unplaced targets).length ≤ book.vacant.length → ∃ coords,
      book.choose chosen targets = some (coords, chosen ++ (book.unplaced targets).zip (book.vacant.drop k)) ∧
        book.Fills (book.vacant.drop k) targets coords) := by
  induction targets generalizing chosen k with
  | nil =>
      refine ⟨fun short => absurd short (Nat.not_lt_of_le fits), fun _ => ⟨[], ?_, .nil ..⟩⟩
      simp [choose, unplaced]
  | cons target rest ih =>
      cases address : book.address? target with
      | some c =>
          have same : book.unplaced (target :: rest) = book.unplaced rest := by simp [unplaced, address]
          obtain ⟨short, enough⟩ := ih fits picked
          rw [same]
          refine ⟨fun few => ?_, fun many => ?_⟩
          · simp [choose, address, short few]
          · obtain ⟨coords, found, fills⟩ := enough many
            exact ⟨c :: coords, by simp [choose, address, found], fills.known address⟩
      | none =>
          have more : book.unplaced (target :: rest) = target :: book.unplaced rest := by simp [unplaced, address]
          rw [more, List.length_cons]
          have next := freeSlot?_eq picked
          rcases Nat.lt_or_ge k book.vacant.length with inside | outside
          · rw [List.getElem?_eq_getElem inside] at next
            have further : (chosen ++ [(target, book.vacant[k])]).map (·.2) = book.vacant.take (k + 1) := by
              rw [List.map_append, picked, List.take_add_one, List.getElem?_eq_getElem inside]
              rfl
            obtain ⟨short, enough⟩ := ih inside further
            refine ⟨fun few => ?_, fun many => ?_⟩
            · simp [choose, address, next, short (by omega)]
            · obtain ⟨coords, found, fills⟩ := enough (by omega)
              have step : book.choose chosen (target :: rest) = some (book.vacant[k] :: coords,
                  chosen ++ [(target, book.vacant[k])] ++ (book.unplaced rest).zip (book.vacant.drop (k + 1))) := by
                simp only [choose, address, next, found, Option.bind_eq_bind, Option.bind_some]
                rfl
              rw [List.drop_eq_getElem_cons inside, List.zip_cons_cons, step, List.append_assoc, List.singleton_append]
              exact ⟨_ :: coords, rfl, fills.unknown address⟩
          · rw [List.getElem?_eq_none outside] at next
            refine ⟨fun _ => ?_, fun many => by omega⟩
            simp [choose, address, next]

variable {node : Node} {coords : List Coord}

theorem resolve_fst (book : AddressBook) (node : Node) :
    (book.resolve node).1 = (book.choose [] node.targets).map (·.1) := by
  unfold resolve
  split <;> simp [*]

/-- Only the pending choice of the node changes. -/
theorem pending_resolve (book : AddressBook) (node : Node) : ∃ pending, (book.resolve node).2 = { book with pending } ∧
    pending.getD node.id [] = ((book.choose [] node.targets).map (·.2)).getD [] ∧
    ∀ id, id ≠ node.id → pending[id]? = book.pending[id]? := by
  have apart : ∀ id, id ≠ node.id → ¬compare node.id id = .eq := by
    intro id other
    simpa using Ne.symm other
  unfold resolve
  split
  next found =>
      refine ⟨_, rfl, by simp [found], fun id other => ?_⟩
      rw [Std.ExtTreeMap.getElem?_erase, if_neg (apart id other)]
  next found =>
      refine ⟨_, rfl, by simp [found], fun id other => ?_⟩
      rw [Std.ExtTreeMap.getElem?_erase, if_neg (apart id other)]
  next found =>
      refine ⟨_, rfl, by simp [found], fun id other => ?_⟩
      rw [Std.ExtTreeMap.getElem?_insert, if_neg (apart id other)]

/-- Targets without a fixed place never share one, neither the slots held before nor the new ones. -/
theorem Fills.nodup (fills : book.Fills book.vacant node.targets coords)
    (apart : ∀ (a b : Symbol) (c : Coord), book.held[a]? = some c → book.held[b]? = some c → a = b)
    (distinct : node.targets.Nodup) :
    (((node.targets.zip coords).filter fun pair => book.bindings[pair.1]?.isNone).map (·.2)).Nodup := by
  have named : ((node.targets.zip coords).map (·.1)).Nodup := by
    rw [List.map_fst_zip (Nat.le_of_eq fills.length.symm)]
    exact distinct
  have fresh : (((node.targets.zip coords).filter fun pair => (book.address? pair.1).isNone).map (·.2)).Nodup := by
    rw [fills.fresh]
    exact book.nodup_vacant.sublist (List.take_sublist ..)
  -- a slot is held by its target, or vacant
  have place : ∀ pair ∈ node.targets.zip coords, book.bindings[pair.1]? = none →
      book.held[pair.1]? = some pair.2 ∨ book.address? pair.1 = none ∧ pair.2 ∈ book.vacant := by
    intro pair member unbound
    have same : book.address? pair.1 = book.held[pair.1]? := by rw [address?, unbound, Option.none_or]
    cases held : book.held[pair.1]? with
    | some c => exact .inl (congrArg some (fills.kept pair member c (same.trans held))).symm
    | none =>
        refine .inr ⟨same.trans held, ?_⟩
        have picked : pair.2 ∈ book.vacant.take (book.unplaced node.targets).length := by
          rw [← fills.fresh]
          exact List.mem_map_of_mem (List.mem_filter.mpr ⟨member, by simp [same, held]⟩)
        exact List.mem_of_mem_take picked
  refine List.Nodup.map_on (fun one first two second same => ?_) ((List.Nodup.of_map _ named).filter _)
  simp only [List.mem_filter, Option.isNone_iff_eq_none] at first second
  suffices name : one.1 = two.1 from Prod.ext name same
  rcases place one first.1 first.2 with held | ⟨unplaced, vacant⟩ <;>
    rcases place two second.1 second.2 with held' | ⟨unplaced', vacant'⟩
  · exact apart _ _ _ held (same ▸ held')
  · exact absurd held ((mem_vacant.mp (same ▸ vacant')).2 _)
  · exact absurd held' ((mem_vacant.mp (same ▸ vacant)).2 _)
  · refine congrArg Prod.fst (List.inj_on_of_nodup_map fresh ?_ ?_ same)
    · exact List.mem_filter.mpr ⟨first.1, Option.isNone_iff_eq_none.mpr unplaced⟩
    · exact List.mem_filter.mpr ⟨second.1, Option.isNone_iff_eq_none.mpr unplaced'⟩

end AddressBook

/-- A book has places for a node exactly if its vacant slots suffice for the targets that have none; these get the first
    of them, and the book notes the choice and nothing else. -/
theorem resolve_allocates (book : AddressBook) (node : Node)
    (apart : ∀ (a b : Symbol) (c : Coord), book.held[a]? = some c → book.held[b]? = some c → a = b)
    (distinct : node.targets.Nodup) :
    (book.vacant.Nodup ∧ ∀ c, c ∈ book.vacant ↔ c ∈ book.slots ∧ ∀ symbol : Symbol, book.held[symbol]? ≠ some c) ∧
    ((book.resolve node).1 = none ↔ book.vacant.length < (book.unplaced node.targets).length) ∧
    (∀ coords, (book.resolve node).1 = some coords → book.Fills book.vacant node.targets coords ∧
      (((node.targets.zip coords).filter fun pair => book.bindings[pair.1]?.isNone).map (·.2)).Nodup) ∧
    ∃ pending, (book.resolve node).2 = { book with pending } ∧
      pending.getD node.id [] = (if book.vacant.length < (book.unplaced node.targets).length then []
        else (book.unplaced node.targets).zip book.vacant) ∧
      ∀ id, id ≠ node.id → pending[id]? = book.pending[id]? := by
  have spec := AddressBook.choose_spec node.targets (Nat.zero_le book.vacant.length)
    (List.map_nil.trans List.take_zero.symm)
  rw [Nat.zero_add, List.drop_zero, List.nil_append] at spec
  obtain ⟨short, enough⟩ := spec
  obtain ⟨pending, after, choice, others⟩ := book.pending_resolve node
  refine ⟨⟨book.nodup_vacant, fun c => AddressBook.mem_vacant⟩, ?_⟩
  rw [AddressBook.resolve_fst]
  by_cases few : book.vacant.length < (book.unplaced node.targets).length
  · rw [short few] at choice ⊢
    refine ⟨by simp [few], by simp, pending, after, ?_, others⟩
    rw [choice, if_pos few]
    rfl
  · obtain ⟨coords, chosen, fills⟩ := enough (Nat.le_of_not_lt few)
    rw [chosen] at choice ⊢
    refine ⟨by simp [few], ?_, pending, after, ?_, others⟩
    · intro given same
      obtain rfl := Option.some.inj same
      exact ⟨fills, fills.nodup apart distinct⟩
    · rw [choice, if_neg few]
      rfl

/-- One resource has a fixed place, one holds the second of three slots, and the first slot is listed twice. -/
def sharedBook : AddressBook where
  bindings := (∅ : SymbolMap Coord).insert "a" ⟨0, 0⟩
  slots := [⟨1, 0⟩, ⟨2, 0⟩, ⟨1, 0⟩, ⟨3, 0⟩]
  held := (∅ : SymbolMap Coord).insert "h" ⟨2, 0⟩

/-- The two slots that are left do for two new targets, and not for three. -/
theorem resolve_allocates_shared :
    (∀ (a b : Symbol) (c : Coord), sharedBook.held[a]? = some c → sharedBook.held[b]? = some c → a = b) ∧
    (sharedBook.resolve { id := 4, operation := .measure, targets := ["m", "a", "h", "n"] }).1
      = some [⟨1, 0⟩, ⟨0, 0⟩, ⟨2, 0⟩, ⟨3, 0⟩] ∧
    sharedBook.Fills sharedBook.vacant ["m", "a", "h", "n"] [⟨1, 0⟩, ⟨0, 0⟩, ⟨2, 0⟩, ⟨3, 0⟩] ∧
    (sharedBook.resolve { id := 4, operation := .measure, targets := ["m", "n", "a", "k"] }).1 = none := by
  have apart : ∀ (a b : Symbol) (c : Coord), sharedBook.held[a]? = some c → sharedBook.held[b]? = some c → a = b := by
    have only : ∀ (a : Symbol) (c : Coord), sharedBook.held[a]? = some c → "h" = a := by
      intro a c held
      rw [sharedBook, Std.ExtTreeMap.getElem?_insert] at held
      split at held
      next same => exact Std.compare_eq_iff_eq.mp same
      · simp at held
    exact fun a b c one two => (only a c one).symm.trans (only b c two)
  have given : (sharedBook.resolve { id := 4, operation := .measure, targets := ["m", "a", "h", "n"] }).1
      = some [⟨1, 0⟩, ⟨0, 0⟩, ⟨2, 0⟩, ⟨3, 0⟩] := by decide +kernel
  obtain ⟨-, -, some, -⟩ :=
    resolve_allocates sharedBook { id := 4, operation := .measure, targets := ["m", "a", "h", "n"] } apart (by decide)
  obtain ⟨-, none, -, -⟩ :=
    resolve_allocates sharedBook { id := 4, operation := .measure, targets := ["m", "n", "a", "k"] } apart (by decide)
  exact ⟨apart, given, (some _ given).1, none.mpr (by decide +kernel)⟩

end LatticeSurgery
