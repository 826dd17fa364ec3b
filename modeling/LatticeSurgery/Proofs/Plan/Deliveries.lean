import Mathlib.Data.List.Chain
import Mathlib.Data.List.Induction
import Mathlib.Data.List.Nodup
import LatticeSurgery.Proofs.Plan.Pool
import LatticeSurgery.Proofs.Sorting

/-! # Deliveries of a pool

A factory works on a unit from the cycle in which it handed out the last one, or from the start. So the deliveries made
so far tell how far each factory is, and a unit is there once the period has passed. A pool serves every request from
the factory of the lowest rank that has a unit, and therefore no factory faster than its period.
-/

namespace LatticeSurgery

/-- A unit handed out in a cycle. -/
structure Delivery where
  cycle : Nat
  unit : Draw

/-- Periods of the factories that make a state, in ascending order. -/
def periodsOf (factories : List Factory) (symbol : Symbol) : List Nat :=
  sortBy (fun a b => a ≤ b) ((factories.filter (·.symbol = symbol)).map (·.period))

namespace Draw

variable {unit : Draw} {history : List Delivery} {delivery : Delivery} {cycle : Nat}

/-- The factories of a state are numbered by ascending period, and this is the unit of one of them. -/
def IsInstance (factories : List Factory) (unit : Draw) : Prop :=
  (periodsOf factories unit.symbol)[unit.rank]? = some unit.period

/-- Cycles in which the instance delivered, in order. -/
def cyclesIn (unit : Draw) (history : List Delivery) : List Nat := (history.filter (·.unit = unit)).map (·.cycle)

/-- Cycle since which the instance works: that of its last delivery, or the first one. -/
def begunAt (unit : Draw) (history : List Delivery) : Nat := (unit.cyclesIn history).getLast?.getD 0

/-- The instance has had its period by a cycle. -/
def ReadyAt (unit : Draw) (history : List Delivery) (cycle : Nat) : Prop := unit.begunAt history + unit.period ≤ cycle

theorem cyclesIn_append_self (unit : Draw) (history : List Delivery) (cycle : Nat) :
    unit.cyclesIn (history ++ [⟨cycle, unit⟩]) = unit.cyclesIn history ++ [cycle] := by
  simp [cyclesIn]

theorem cyclesIn_append_of_ne (other : delivery.unit ≠ unit) :
    unit.cyclesIn (history ++ [delivery]) = unit.cyclesIn history := by
  simp [cyclesIn, other]

theorem begunAt_append_self (unit : Draw) (history : List Delivery) (cycle : Nat) :
    unit.begunAt (history ++ [⟨cycle, unit⟩]) = cycle := by
  simp [begunAt, cyclesIn_append_self]

theorem begunAt_append_of_ne (other : delivery.unit ≠ unit) :
    unit.begunAt (history ++ [delivery]) = unit.begunAt history := by
  rw [begunAt, cyclesIn_append_of_ne other, begunAt]

theorem begunAt_le (unit : Draw) (past : ∀ delivery ∈ history, delivery.cycle ≤ cycle) :
    unit.begunAt history ≤ cycle := by
  unfold begunAt
  cases last : (unit.cyclesIn history).getLast? with
  | none => exact Nat.zero_le _
  | some found =>
      obtain ⟨delivery, member, rfl⟩ := List.mem_map.mp (List.mem_of_getLast? last)
      exact past delivery (List.mem_of_mem_filter member)

theorem getLast?_cyclesIn (unit : Draw) (history : List Delivery) :
    (0 :: unit.cyclesIn history).getLast? = some (unit.begunAt history) := by
  rw [List.getLast?_cons, begunAt]

end Draw

/-! ## Ranks and periods -/

namespace Slot

/-- Factories of one state are numbered on from those that are there already. -/
theorem filter_rankAll (symbol : Symbol) (slots : List Slot) (factories : List Factory) :
    (rankAll slots factories).filter (·.factory.symbol == symbol)
      = slots.filter (·.factory.symbol == symbol)
        ++ (((factories.filter (·.symbol = symbol)).map (·.period)).zipIdx
          (slots.countP (·.factory.symbol == symbol))).map fun entry => ⟨⟨symbol, entry.1⟩, entry.2, 0⟩ := by
  induction factories generalizing slots with
  | nil => simp [rankAll]
  | cons factory rest ih =>
      rw [rankAll, ih]
      by_cases here : factory.symbol = symbol
      · subst here
        simp [List.zipIdx_cons]
      · simp [here]

end Slot

namespace Pool

variable {pool rest : Pool} {symbol : Symbol} {unit : Draw} {history : List Delivery} {cycle : Nat}

theorem periods_fastestFirst (factories : List Factory) (symbol : Symbol) :
    ((fastestFirst factories).filter (·.symbol = symbol)).map (·.period) = periodsOf factories symbol := by
  have trans : ∀ a b c : Nat, decide (a ≤ b) → decide (b ≤ c) → decide (a ≤ c) := by
    simpa using fun a b c => Nat.le_trans
  have total : ∀ a b : Nat, decide (a ≤ b) || decide (b ≤ a) := by
    simpa using Nat.le_total
  refine (sortBy_eq_of_perm trans total ?_ ?_ ?_).symm
  · simpa using fun a b => Nat.le_antisymm
  · exact ((sortBy_perm _ factories).filter _).map _
  · refine List.pairwise_map.mpr (List.Pairwise.filter _ ?_)
    exact pairwise_sortBy (fun a b c => trans a.period b.period c.period) (fun a b => total a.period b.period) factories

/-- The factories of one state in a new pool, by rank. -/
theorem filter_slots_new (factories : List Factory) (symbol : Symbol) :
    (new factories).slots.filter (·.factory.symbol == symbol)
      = (periodsOf factories symbol).zipIdx.map fun entry => ⟨⟨symbol, entry.1⟩, entry.2, 0⟩ := by
  have slots := Slot.filter_rankAll symbol [] (fastestFirst factories)
  rwa [periods_fastestFirst] at slots

/-- The factories of a new pool are those of the list, each with its number. -/
theorem mem_units_new {factories : List Factory} : unit ∈ (new factories).units ↔ unit.IsInstance factories := by
  have listed : unit ∈ (new factories).units
      ↔ unit ∈ ((new factories).slots.filter (·.factory.symbol == unit.symbol)).map Slot.draw := by
    simp only [units, List.mem_map, List.mem_filter, beq_iff_eq]
    refine exists_congr fun slot => ⟨?_, ?_⟩
    · rintro ⟨inside, same⟩
      exact ⟨⟨inside, congrArg Draw.symbol same⟩, same⟩
    · rintro ⟨⟨inside, _⟩, same⟩
      exact ⟨inside, same⟩
  rw [listed, filter_slots_new]
  simp only [List.map_map, List.mem_map, List.mem_zipIdx_iff_getElem?, Draw.IsInstance]
  constructor
  · rintro ⟨entry, found, same⟩
    rw [← same]
    exact found
  · exact fun found => ⟨(unit.period, unit.rank), found, rfl⟩

theorem Ranked.nodup (ranked : pool.Ranked) : pool.units.Nodup := by
  refine List.Pairwise.imp ?_ ranked
  rintro a b below rfl
  exact Nat.lt_irrefl _ (below rfl)

/-! ## How far the factories are -/

/-- Every factory works since its last delivery, and waits with a finished unit. -/
structure Follows (pool : Pool) (history : List Delivery) (cycle : Nat) : Prop where
  past : ∀ delivery ∈ history, delivery.cycle ≤ cycle
  progress : ∀ slot ∈ pool.slots, slot.progress = min (cycle - slot.draw.begunAt history) slot.factory.period

theorem follows_new (factories : List Factory) : (new factories).Follows [] 0 where
  past := by simp
  progress slot member := by rw [progress_new member, Nat.zero_sub, Nat.zero_min]

theorem Follows.ready_iff (follows : pool.Follows history cycle) {slot : Slot} (member : slot ∈ pool.slots) :
    slot.ready ↔ slot.draw.ReadyAt history cycle := by
  have begun := slot.draw.begunAt_le follows.past
  have period : slot.draw.period = slot.factory.period := rfl
  rw [Slot.ready, decide_eq_true_eq, follows.progress slot member, Draw.ReadyAt, period]
  omega

theorem Follows.advance (follows : pool.Follows history cycle) : pool.advance.Follows history (cycle + 1) where
  past delivery member := Nat.le_succ_of_le (follows.past delivery member)
  progress := by
    intro slot member
    obtain ⟨before, inside, rfl⟩ := List.mem_map.mp member
    have begun := before.draw.begunAt_le follows.past
    have progress := follows.progress before inside
    change min (before.progress + 1) before.factory.period
      = min (cycle + 1 - before.draw.begunAt history) before.factory.period
    omega

theorem Follows.consume (follows : pool.Follows history cycle) (ranked : pool.Ranked)
    (h : pool.consume symbol = some (unit, rest)) : rest.Follows (history ++ [⟨cycle, unit⟩]) cycle := by
  obtain ⟨before, slot, after, slots, _, rfl, taken, _⟩ := consume_eq_some h
  have apart : ∀ line, line ∈ before ∨ line ∈ after → slot.draw ≠ line.draw := by
    have distinct := ranked.nodup
    rw [units, slots, List.map_append, List.map_cons, List.nodup_middle, List.nodup_cons] at distinct
    intro line member same
    refine distinct.1 ?_
    rw [same, ← List.map_append]
    exact List.mem_map_of_mem (List.mem_append.mpr member)
  constructor
  case past =>
    intro delivery member
    rcases List.mem_append.mp member with member | last
    · exact follows.past delivery member
    · exact Nat.le_of_eq (congrArg Delivery.cycle (List.mem_singleton.mp last))
  case progress =>
    intro line member
    have others : line ∈ before ∨ line ∈ after →
        line.progress = min (cycle - line.draw.begunAt (history ++ [⟨cycle, slot.draw⟩])) line.factory.period := by
      intro other
      rw [Draw.begunAt_append_of_ne (apart line other)]
      refine follows.progress line ?_
      rw [slots]
      exact List.mem_append.mpr (other.imp_right (List.mem_cons_of_mem _))
    rw [taken] at member
    rcases List.mem_append.mp member with member | member
    · exact others (.inl member)
    · rcases List.mem_cons.mp member with rfl | member
      · have begun := slot.draw.begunAt_append_self history cycle
        change 0 = min (cycle - slot.draw.begunAt _) _
        rw [begun, Nat.sub_self, Nat.zero_min]
      · exact others (.inr member)

end Pool

/-! ## Who delivers -/

/-- The unit comes from the instance of the lowest rank that has one. -/
structure Delivery.IsFirst (units : List Draw) (history : List Delivery) (delivery : Delivery) : Prop where
  made : delivery.unit ∈ units
  ready : delivery.unit.ReadyAt history delivery.cycle
  lowest : ∀ other ∈ units, other.symbol = delivery.unit.symbol → other.rank < delivery.unit.rank →
    ¬ other.ReadyAt history delivery.cycle

/-- Deliveries in order, each from the instance of the lowest rank that had a unit at that moment. -/
def Rationed (units : List Draw) (history : List Delivery) : Prop :=
  ∀ before delivery after, history = before ++ delivery :: after → delivery.IsFirst units before

namespace Rationed

variable {units : List Draw} {history : List Delivery} {delivery : Delivery}

theorem nil (units : List Draw) : Rationed units [] := by
  intro before delivery after same
  simp at same

theorem append (rationed : Rationed units history) (first : delivery.IsFirst units history) :
    Rationed units (history ++ [delivery]) := by
  intro before last after same
  rcases List.eq_nil_or_concat after with rfl | ⟨after, final, rfl⟩
  · obtain ⟨rfl, single⟩ := List.append_inj' same rfl
    obtain rfl := List.head_eq_of_cons_eq single
    exact first
  · refine rationed before last after ?_
    rw [List.concat_eq_append, ← List.cons_append, ← List.append_assoc] at same
    exact (List.append_inj' same rfl).1

theorem of_append {later : List Delivery} (rationed : Rationed units (history ++ later)) : Rationed units history := by
  intro before delivery after same
  refine rationed before delivery (after ++ later) ?_
  rw [same, List.append_assoc, List.cons_append]

/-- Between two deliveries of an instance lies its period, and so it does before the first one. -/
theorem spaced (rationed : Rationed units history) (unit : Draw) :
    (0 :: unit.cyclesIn history).IsChain fun c d => c + unit.period ≤ d := by
  induction history using List.reverseRecOn with
  | nil => exact .singleton 0
  | append_singleton history delivery ih =>
      have before := ih rationed.of_append
      by_cases own : delivery.unit = unit
      · obtain ⟨cycle, _⟩ := delivery
        obtain rfl : _ = unit := own
        have ready := (rationed history _ [] rfl).ready
        rw [Draw.cyclesIn_append_self, ← List.cons_append]
        refine List.isChain_append.mpr ⟨before, .singleton cycle, fun c last d here => ?_⟩
        rw [Draw.getLast?_cyclesIn, Option.mem_some_iff] at last
        rw [List.head?_cons, Option.mem_some_iff] at here
        rw [← last, ← here]
        exact ready
      · rwa [Draw.cyclesIn_append_of_ne own]

end Rationed

namespace Pool

variable {pool rest : Pool} {symbol : Symbol} {unit : Draw} {units : List Draw} {history : List Delivery} {cycle : Nat}

/-- Whoever asks is served by the factory of the lowest rank that has a unit. -/
theorem Follows.isFirst (follows : pool.Follows history cycle) (ranked : pool.Ranked)
    (h : pool.consume symbol = some (unit, rest)) : (⟨cycle, unit⟩ : Delivery).IsFirst pool.units history := by
  obtain ⟨before, slot, after, slots, serves, rfl, _, first⟩ := consume_eq_some h
  simp only [Slot.serves, Bool.and_eq_true, beq_iff_eq] at serves
  obtain ⟨named, ready⟩ := serves
  have here : slot ∈ pool.slots := by simp [slots]
  refine ⟨List.mem_map_of_mem here, (follows.ready_iff here).mp ready, fun other made same lower => ?_⟩
  obtain ⟨line, inside, rfl⟩ := List.mem_map.mp made
  rw [← follows.ready_iff inside]
  have same : line.factory.symbol = slot.factory.symbol := same
  have lower : line.rank < slot.rank := lower
  rw [slots] at inside
  rcases List.mem_append.mp inside with earlier | later
  · have busy := first line earlier
    simpa [Slot.serves, same, named] using busy
  · rcases List.mem_cons.mp later with rfl | later
    · exact absurd lower (Nat.lt_irrefl _)
    · -- what stands behind the factory has a higher rank
      have order := List.pairwise_map.mp ranked
      rw [slots] at order
      have above := List.rel_of_pairwise_cons (List.pairwise_append.mp order).2.1 later same.symm
      exact absurd lower (Nat.lt_asymm above)

/-- What a pool gives in a cycle goes on with its deliveries. -/
theorem Yields.deliver (yields : pool.Yields units rest) (ranked : pool.Ranked) (follows : pool.Follows history cycle)
    (rationed : Rationed pool.units history) :
    rest.Follows (history ++ units.map (⟨cycle, ·⟩)) cycle ∧
      Rationed pool.units (history ++ units.map (⟨cycle, ·⟩)) := by
  induction yields generalizing history with
  | nil =>
      rw [List.map_nil, List.append_nil]
      exact ⟨follows, rationed⟩
  | @cons pool mid rest unit units taken _ ih =>
      have same := units_consume taken
      have next := ih (by rwa [Ranked, same]) (follows.consume ranked taken)
        (same ▸ rationed.append (follows.isFirst ranked taken))
      rwa [same, List.append_assoc] at next

end Pool

end LatticeSurgery
