import LatticeSurgery.Factory
import LatticeSurgery.Proofs.Lists

/-! # Factory pools

The factories of a pool never change; only their progress does, and it stays within the period. Taking a
unit leaves the stock of every other magic state alone, and a pool that is not saturated comes closer to
it with every cycle.
-/

namespace LatticeSurgery

/-- What a search for a finished unit finds: the first slot that has one, which starts again. -/
theorem Slot.takeFirst_eq_some {symbol : Symbol} {slots rest : List Slot} {unit : Draw}
    (h : takeFirst symbol slots = some (unit, rest)) :
    ∃ before slot after, slots = before ++ slot :: after ∧ slot.serves symbol ∧ unit = slot.draw ∧
      rest = before ++ slot.restart :: after ∧ ∀ other ∈ before, other.serves symbol = false := by
  induction slots generalizing rest with
  | nil => cases h
  | cons head tail ih =>
      rw [takeFirst] at h
      split at h
      next serves =>
          cases h
          exact ⟨[], head, tail, rfl, serves, rfl, rfl, by simp⟩
      next busy =>
          obtain ⟨⟨found, others⟩, inner, same⟩ := Option.map_eq_some_iff.mp h
          cases same
          obtain ⟨before, slot, after, rfl, serves, rfl, rfl, first⟩ := ih inner
          exact ⟨head :: before, slot, after, rfl, serves, rfl, rfl,
            List.forall_mem_cons.mpr ⟨Bool.eq_false_iff.mpr busy, first⟩⟩

theorem Slot.ready_eq_false {slot : Slot} : slot.ready = false ↔ slot.progress < slot.factory.period :=
  decide_eq_false_iff_not.trans Nat.not_le

theorem Slot.symbol_of_serves {slot : Slot} {symbol : Symbol} (serves : slot.serves symbol) :
    slot.factory.symbol = symbol :=
  beq_iff_eq.mp (Bool.and_eq_true_iff.mp serves).1

/-- A factory that is added begins with its first unit. -/
theorem Slot.mem_rankAll {slots : List Slot} {factories : List Factory} {slot : Slot}
    (h : slot ∈ rankAll slots factories) : slot ∈ slots ∨ slot.progress = 0 := by
  induction factories generalizing slots with
  | nil => exact .inl h
  | cons factory rest ih =>
      refine (ih h).elim (fun member => (List.mem_append.mp member).imp_right fun last => ?_) .inr
      rw [List.mem_singleton.mp last]

/-- Factories of one state are ranked in the order in which they stand. -/
theorem Slot.ranked_rankAll {slots : List Slot} {factories : List Factory}
    (below : ∀ slot ∈ slots, slot.rank < slots.countP (·.factory.symbol == slot.factory.symbol))
    (ranked : slots.Pairwise fun a b => a.factory.symbol = b.factory.symbol → a.rank < b.rank) :
    (rankAll slots factories).Pairwise fun a b => a.factory.symbol = b.factory.symbol → a.rank < b.rank := by
  induction factories generalizing slots with
  | nil => exact ranked
  | cons factory rest ih =>
      refine ih ?_ ?_
      · intro slot member
        rw [List.countP_append]
        rcases List.mem_append.mp member with member | member
        · have bound := below slot member
          omega
        · obtain rfl := List.mem_singleton.mp member
          simp
      · refine List.pairwise_append.mpr ⟨ranked, List.pairwise_singleton _ _, fun slot member last here same => ?_⟩
        obtain rfl := List.mem_singleton.mp here
        have bound := below slot member
        rwa [same] at bound

/-- A cycle of production finishes the unit, or brings it one cycle closer. -/
theorem Slot.advance_cases (slot : Slot) :
    slot.advance.ready ∨ slot.ready = false ∧ slot.advance.progress = slot.progress + 1 := by
  rw [ready_eq_false, ready, decide_eq_true_eq]
  dsimp only [advance]
  omega

namespace Pool

variable {pool rest : Pool} {symbol other : Symbol} {unit : Draw}

/-- The unit that each factory delivers. -/
def units (pool : Pool) : List Draw := pool.slots.map Slot.draw

/-- No factory is further than a finished unit. -/
def Within (pool : Pool) : Prop := ∀ slot ∈ pool.slots, slot.progress ≤ slot.factory.period

/-- Factories of one state stand in the order of their ranks. -/
def Ranked (pool : Pool) : Prop := pool.units.Pairwise fun a b => a.symbol = b.symbol → a.rank < b.rank

/-- Cycles until every factory holds a unit, if none is taken. -/
def deficit (pool : Pool) : Nat :=
  (pool.slots.map fun slot => slot.factory.period - slot.progress).foldl max 0

theorem produces_iff : pool.produces symbol ↔ ∃ unit ∈ pool.units, unit.symbol = symbol := by
  simp only [produces, units, List.any_eq_true, beq_iff_eq, List.mem_map]
  constructor
  · rintro ⟨slot, inside, line⟩
    exact ⟨slot.draw, ⟨slot, inside, rfl⟩, line⟩
  · rintro ⟨_, ⟨slot, inside, rfl⟩, line⟩
    exact ⟨slot, inside, line⟩

theorem slowest_eq (pool : Pool) : pool.slowest = (pool.units.map (·.period)).foldl max 0 := by
  simp only [slowest, longestPeriod, units, List.map_map]
  rfl

/-! ## Taking a unit -/

theorem consume_eq_some (h : pool.consume symbol = some (unit, rest)) :
    ∃ before slot after, pool.slots = before ++ slot :: after ∧ slot.serves symbol ∧ unit = slot.draw ∧
      rest.slots = before ++ slot.restart :: after ∧ ∀ other ∈ before, other.serves symbol = false := by
  obtain ⟨⟨_, slots⟩, found, same⟩ := Option.map_eq_some_iff.mp h
  cases same
  exact Slot.takeFirst_eq_some found

/-- Where no unit of a state is there, all its factories are at work. -/
theorem not_ready_of_inventory (empty : pool.inventory symbol = 0) {slot : Slot} (member : slot ∈ pool.slots)
    (named : slot.draw.symbol = symbol) : slot.ready = false := by
  have idle := List.countP_eq_zero.mp empty slot member
  rw [← named] at idle
  simpa [Slot.serves, Slot.draw] using idle

theorem exists_consume (stock : 0 < pool.inventory symbol) : ∃ unit rest, pool.consume symbol = some (unit, rest) := by
  obtain ⟨slots⟩ := pool
  unfold inventory at stock
  unfold consume
  dsimp only at stock ⊢
  induction slots with
  | nil => cases stock
  | cons head tail ih =>
      rw [Slot.takeFirst]
      split
      · exact ⟨_, _, rfl⟩
      next busy =>
          obtain ⟨unit, rest, found⟩ := ih (by simpa [List.countP_cons, busy] using stock)
          obtain ⟨⟨_, slots⟩, inner, _⟩ := Option.map_eq_some_iff.mp found
          exact ⟨_, _, by rw [inner]; rfl⟩

theorem consume_eq_none_iff : pool.consume symbol = none ↔ pool.inventory symbol = 0 := by
  constructor
  · intro refused
    apply Nat.eq_zero_of_not_pos
    intro stock
    obtain ⟨unit, rest, taken⟩ := exists_consume stock
    simp [refused] at taken
  · intro empty
    apply Option.eq_none_iff_forall_ne_some.mpr
    rintro ⟨unit, rest⟩ taken
    obtain ⟨before, slot, after, slots, serves, -⟩ := consume_eq_some taken
    exact List.countP_eq_zero.mp empty slot (by simp [slots]) serves

theorem units_consume (h : pool.consume symbol = some (unit, rest)) : rest.units = pool.units := by
  obtain ⟨before, slot, after, slots, _, _, taken, _⟩ := consume_eq_some h
  simp [units, slots, taken, Slot.restart, Slot.draw]

theorem unit_consume (h : pool.consume symbol = some (unit, rest)) :
    unit ∈ pool.units ∧ unit.symbol = symbol := by
  obtain ⟨before, slot, after, slots, serves, rfl, _, _⟩ := consume_eq_some h
  refine ⟨by simp [units, slots], ?_⟩
  simp only [Slot.serves, Bool.and_eq_true, beq_iff_eq] at serves
  exact serves.1

/-- No other factory is touched. -/
theorem mem_slots_consume (h : pool.consume symbol = some (unit, rest)) {slot : Slot} (member : slot ∈ rest.slots) :
    slot ∈ pool.slots ∨ slot.draw = unit := by
  obtain ⟨before, line, after, slots, _, rfl, taken, _⟩ := consume_eq_some h
  rw [taken] at member
  rw [slots]
  rcases List.mem_append.mp member with member | member
  · exact .inl (List.mem_append_left _ member)
  · rcases List.mem_cons.mp member with rfl | member
    · exact .inr rfl
    · exact .inl (List.mem_append_right _ (List.mem_cons_of_mem _ member))

theorem inventory_consume_other (h : pool.consume symbol = some (unit, rest)) (differs : other ≠ symbol) :
    rest.inventory other = pool.inventory other := by
  obtain ⟨before, slot, after, slots, serves, _, taken, _⟩ := consume_eq_some h
  simp only [Slot.serves, Bool.and_eq_true, beq_iff_eq] at serves
  simp [inventory, slots, taken, Slot.serves, Slot.restart, serves.1, differs.symm]

/-- A unit that took time is missed in the stock of its state. -/
theorem inventory_consume (h : pool.consume symbol = some (unit, rest)) :
    rest.inventory symbol + (if 0 < unit.period then 1 else 0) = pool.inventory symbol := by
  obtain ⟨before, slot, after, slots, serves, rfl, taken, _⟩ := consume_eq_some h
  have again : slot.restart.serves symbol ↔ slot.draw.period = 0 := by
    simp [Slot.serves, Slot.ready, Slot.restart, Slot.draw, Slot.symbol_of_serves serves]
  simp only [inventory, slots, taken, List.countP_append, List.countP_cons, serves, again, if_true]
  grind

theorem within_consume (within : pool.Within) (h : pool.consume symbol = some (unit, rest)) : rest.Within := by
  obtain ⟨before, slot, after, slots, _, _, taken, _⟩ := consume_eq_some h
  intro line member
  rw [taken] at member
  rw [Within, slots] at within
  rcases List.mem_append.mp member with member | member
  · exact within line (List.mem_append_left _ member)
  · rcases List.mem_cons.mp member with rfl | member
    · exact Nat.zero_le _
    · exact within line (List.mem_append_right _ (List.mem_cons_of_mem _ member))

/-- A pool that gives units one after the other. -/
inductive Yields : Pool → List Draw → Pool → Prop where
  | nil {pool : Pool} : Yields pool [] pool
  | cons {pool mid rest : Pool} {unit : Draw} {units : List Draw} (taken : pool.consume unit.symbol = some (unit, mid))
      (onward : Yields mid units rest) : Yields pool (unit :: units) rest

/-! ## Production -/

@[simp] theorem units_advance (pool : Pool) : pool.advance.units = pool.units := by
  simp [units, advance, Slot.advance, Slot.draw]

theorem within_advance (pool : Pool) : pool.advance.Within := by
  intro slot member
  obtain ⟨before, _, rfl⟩ := List.mem_map.mp member
  exact Nat.min_le_right _ _

theorem deficit_le_slowest (pool : Pool) : pool.deficit ≤ pool.slowest := by
  refine foldl_max_le_iff.mpr ⟨Nat.zero_le _, fun x member => ?_⟩
  obtain ⟨slot, inside, rfl⟩ := List.mem_map.mp member
  have longest : slot.factory.period ≤ pool.slowest :=
    le_foldl_max (List.mem_map_of_mem (List.mem_map_of_mem inside)) 0
  omega

theorem deficit_advance_lt (waits : pool.saturated = false) : pool.advance.deficit < pool.deficit := by
  have bound : ∀ slot ∈ pool.slots, slot.factory.period - slot.progress ≤ pool.deficit := by
    intro slot inside
    apply le_foldl_max
    exact List.mem_map.mpr ⟨slot, inside, rfl⟩
  have positive : 0 < pool.deficit := by
    obtain ⟨slot, inside, busy⟩ := List.all_eq_false.mp waits
    have limit := bound slot inside
    simp only [Slot.ready, decide_eq_true_eq] at busy
    omega
  have lower : pool.advance.deficit ≤ pool.deficit - 1 := by
    refine foldl_max_le_iff.mpr ⟨Nat.zero_le _, fun x member => ?_⟩
    obtain ⟨slot, advanced, rfl⟩ := List.mem_map.mp member
    obtain ⟨before, inside, rfl⟩ := List.mem_map.mp advanced
    have limit := bound before inside
    simp only [Slot.advance]
    omega
  omega

theorem inventory_pos_of_saturated (full : pool.saturated) (made : pool.produces symbol) :
    0 < pool.inventory symbol := by
  obtain ⟨slot, inside, line⟩ := List.any_eq_true.mp made
  have ready := List.all_eq_true.mp full slot inside
  exact List.countP_pos_iff.mpr ⟨slot, inside, by rw [Slot.serves, line, ready]; rfl⟩

theorem ranked_new (factories : List Factory) : (new factories).Ranked :=
  List.pairwise_map.mpr (Slot.ranked_rankAll (by simp) .nil)

theorem progress_new {factories : List Factory} {slot : Slot} (member : slot ∈ (new factories).slots) :
    slot.progress = 0 :=
  (Slot.mem_rankAll member).resolve_left List.not_mem_nil

theorem within_new (factories : List Factory) : (new factories).Within := by
  intro slot member
  rw [progress_new member]
  exact Nat.zero_le _

end Pool

end LatticeSurgery
