import LatticeSurgery.Proofs.Plan.Lines

/-! # Production and what was taken

A pool keeps one capped counter for each factory, all of them in one list. The counter of a factory always tells how
many cycles of production there were since its last delivery, and the list shows the factories by period and then by
place. So whatever a pool answers follows from the listed factories and from the calls that were made.
-/

namespace LatticeSurgery

/-! ## Factories in their places -/

/-- A factory and its place in a list. -/
structure Plant where
  factory : Factory
  place : Nat
  deriving Repr, DecidableEq

namespace Plant

variable {factories : List Factory} {plant other : Plant}

/-- The factories of a list, each with its place. -/
def all (factories : List Factory) : List Plant := factories.zipIdx.map fun entry => ⟨entry.1, entry.2⟩

/-- The faster of two factories comes first, and of two that are equally fast the one listed first. -/
def Before (plant other : Plant) : Prop :=
  plant.factory.period < other.factory.period ∨ plant.factory.period = other.factory.period ∧ plant.place < other.place

instance (plant other : Plant) : Decidable (plant.Before other) := inferInstanceAs (Decidable (_ ∨ _))

/-- Rank of a factory: how many of the same state come first. -/
def rankIn (plants : List Plant) (plant : Plant) : Nat :=
  plants.countP fun other => other.factory.symbol = plant.factory.symbol ∧ other.Before plant

/-- The unit that a factory of the list delivers. -/
def unitIn (factories : List Factory) (plant : Plant) : Draw :=
  ⟨plant.factory.symbol, plant.rankIn (all factories), plant.factory.period⟩

/-- The factories in the order in which they are asked for units. -/
def queue (factories : List Factory) : List Plant :=
  sortBy (fun a b => a.factory.period ≤ b.factory.period) (all factories)

theorem not_before_of_before (first : plant.Before other) : ¬other.Before plant := by
  unfold Before at *
  omega

theorem queue_perm (factories : List Factory) : (queue factories).Perm (all factories) := sortBy_perm _ _

theorem map_factory_all (factories : List Factory) : (all factories).map (·.factory) = factories := by
  simp [all, Function.comp_def, List.zipIdx_map_fst]

theorem map_factory_queue (factories : List Factory) : (queue factories).map (·.factory) = fastestFirst factories := by
  have tagged := sortBy_map (fun a b : Factory => a.period ≤ b.period) Plant.factory (all factories)
  rw [map_factory_all] at tagged
  exact tagged.symm

theorem pairwise_queue (factories : List Factory) : (queue factories).Pairwise Before := by
  have places : (all factories).Pairwise fun a b => a.place < b.place := by
    apply List.pairwise_map.mp
    rw [all, List.map_map]
    change (factories.zipIdx.map (·.2)).Pairwise (· < ·)
    rw [List.zipIdx_map_snd]
    exact List.pairwise_lt_range'
  have sorted : (queue factories).Pairwise fun a b => decide (a.factory.period ≤ b.factory.period) ∧
      (decide (b.factory.period ≤ a.factory.period) → a.place < b.place) := by
    apply stable_sortBy _ _ places
    · simpa using fun a b c => Nat.le_trans
    · simpa using fun a b => Nat.le_total _ _
  apply sorted.imp
  intro a b both
  simp only [decide_eq_true_eq] at both
  unfold Before
  omega

end Plant

/-- In a queue, those of the same state that come first are those that stand in front. -/
theorem Plant.rankIn_append {front behind : List Plant} {plant : Plant}
    (ordered : (front ++ plant :: behind).Pairwise Before) :
    plant.rankIn (front ++ plant :: behind) = front.countP (·.factory.symbol == plant.factory.symbol) := by
  have ⟨_, later, earlier⟩ := List.pairwise_append.mp ordered
  -- neither the factory itself nor one behind it comes first
  have none : (plant :: behind).countP (fun other =>
      decide (other.factory.symbol = plant.factory.symbol ∧ other.Before plant)) = 0 := by
    apply List.countP_eq_zero.mpr
    intro other member both
    have before := (of_decide_eq_true both).2
    rcases List.mem_cons.mp member with rfl | after
    · exact not_before_of_before before before
    · exact not_before_of_before before (List.rel_of_pairwise_cons later after)
  rw [rankIn, List.countP_append, none, Nat.add_zero]
  apply List.countP_congr
  intro other member
  simp [earlier other member plant List.mem_cons_self]

/-- Factories that are added in the order of the queue get their ranks. -/
theorem Slot.map_draw_rankAll {plants front behind : List Plant} {slots : List Slot} {unit : Plant → Draw}
    (unit_eq : ∀ plant, unit plant = ⟨plant.factory.symbol, plant.rankIn plants, plant.factory.period⟩)
    (ordered : plants.Pairwise Plant.Before) (split : plants = front ++ behind)
    (drawn : slots.map draw = front.map unit) :
    (rankAll slots (behind.map (·.factory))).map draw = plants.map unit := by
  induction behind generalizing front slots with
  | nil => simp [rankAll, drawn, split]
  | cons plant behind ih =>
      rw [List.map_cons, rankAll]
      apply @ih (front ++ [plant]) _ (by simp [split])
      have counted : slots.countP (·.factory.symbol == plant.factory.symbol)
          = front.countP (·.factory.symbol == plant.factory.symbol) := by
        have through := congrArg (List.countP (·.symbol == plant.factory.symbol)) drawn
        simpa [List.countP_map, Function.comp_def, draw, unit_eq] using through
      rw [split] at ordered
      have rank := Plant.rankIn_append ordered
      rw [← split] at rank
      simp [drawn, draw, unit_eq, counted, rank]

/-- The instances of a new pool, in the order in which they are asked for units. -/
theorem Pool.units_new (factories : List Factory) :
    (new factories).units = (Plant.queue factories).map (Plant.unitIn factories) := by
  rw [units, new, ← Plant.map_factory_queue]
  apply Slot.map_draw_rankAll _ (Plant.pairwise_queue factories) (List.nil_append _).symm rfl
  intro plant
  rw [Plant.unitIn, Plant.rankIn, Plant.rankIn, (Plant.queue_perm factories).countP_eq]

/-! ## Calls -/

namespace Pool

/-- A call that may change a pool. -/
inductive Call where
  | advance
  | consume (symbol : Symbol)
  deriving Repr, DecidableEq

/-- A pool and what happened to it since it was new. -/
structure Log where
  pool : Pool
  /-- Cycles of production so far. -/
  cycle : Nat := 0
  /-- Units taken so far, each with the number of cycles before it. -/
  history : List Delivery := []

namespace Log

variable {factories : List Factory} {log : Log}

/-- Makes a call and notes what it does. -/
def perform (log : Log) : Call → Log
  | .advance => { log with pool := log.pool.advance, cycle := log.cycle + 1 }
  | .consume symbol =>
      match log.pool.consume symbol with
      | none => log
      | some (unit, pool) => { log with pool, history := log.history ++ [⟨log.cycle, unit⟩] }

/-- The log of a new pool after some calls. -/
def after (factories : List Factory) (calls : List Call) : Log := calls.foldl perform { pool := Pool.new factories }

/-- Cycles of production since an instance last gave a unit, or since the beginning. -/
def idle (log : Log) (unit : Draw) : Nat := log.cycle - unit.begunAt log.history

/-- Whether a factory of the list makes a state and has had its period since it last gave a unit. -/
def Offers (log : Log) (factories : List Factory) (symbol : Symbol) (plant : Plant) : Prop :=
  plant.factory.symbol = symbol ∧ plant.factory.period ≤ log.idle (plant.unitIn factories)

instance (factories : List Factory) (symbol : Symbol) : DecidablePred (log.Offers factories symbol) :=
  fun _ => inferInstanceAs (Decidable (_ ∧ _))

/-- The instances never change, and each works since its last delivery. -/
structure Kept (factories : List Factory) (log : Log) : Prop where
  units : log.pool.units = (Plant.queue factories).map (Plant.unitIn factories)
  follows : log.pool.Follows log.history log.cycle

theorem Kept.ranked (kept : log.Kept factories) : log.pool.Ranked := by
  have ranked := ranked_new factories
  rwa [Ranked, units_new, ← kept.units] at ranked

theorem Kept.perform (kept : log.Kept factories) (call : Call) : (log.perform call).Kept factories := by
  cases call with
  | advance => exact ⟨(units_advance log.pool).trans kept.units, kept.follows.advance⟩
  | consume symbol =>
      rw [Log.perform]
      split
      · exact kept
      next unit rest taken =>
          exact ⟨(units_consume taken).trans kept.units, kept.follows.consume kept.ranked taken⟩

theorem kept_after (factories : List Factory) (calls : List Call) : (after factories calls).Kept factories := by
  have run : ∀ log : Log, log.Kept factories → (calls.foldl Log.perform log).Kept factories := by
    induction calls with
    | nil => exact fun _ kept => kept
    | cons call calls ih => exact fun log kept => ih _ (kept.perform call)
  exact run _ ⟨units_new factories, follows_new factories⟩

/-! ## Answers -/

section

variable {symbol : Symbol} {unit : Draw} {rest : Pool} (kept : log.Kept factories)
include kept

theorem Kept.progress {slot : Slot} (member : slot ∈ log.pool.slots) :
    slot.progress = min slot.factory.period (log.idle slot.draw) := by
  rw [Nat.min_comm]
  exact kept.follows.progress slot member

theorem Kept.perm : log.pool.units.Perm ((Plant.all factories).map (Plant.unitIn factories)) := by
  rw [kept.units]
  exact (Plant.queue_perm factories).map _

theorem Kept.serves_iff {slot : Slot} (member : slot ∈ log.pool.slots) :
    slot.serves symbol ↔ slot.draw.symbol = symbol ∧ slot.draw.period ≤ log.idle slot.draw := by
  have progress := kept.progress member
  have symbol_draw : slot.draw.symbol = slot.factory.symbol := rfl
  have period_draw : slot.draw.period = slot.factory.period := rfl
  simp only [Slot.serves, Slot.ready, Bool.and_eq_true, beq_iff_eq, decide_eq_true_eq, symbol_draw, period_draw]
  apply and_congr_right
  omega

theorem Kept.inventory_eq (symbol : Symbol) :
    log.pool.inventory symbol = (Plant.all factories).countP (log.Offers factories symbol) := by
  have finished : log.pool.inventory symbol
      = log.pool.units.countP fun unit => unit.symbol = symbol ∧ unit.period ≤ log.idle unit := by
    rw [inventory, Pool.units, List.countP_map]
    apply List.countP_congr
    intro slot member
    rw [kept.serves_iff member]
    simp
  rw [finished, kept.perm.countP_eq, List.countP_map]
  rfl

/-- The factory that serves a request is the first of the queue that has a unit. -/
theorem Kept.server (taken : log.pool.consume symbol = some (unit, rest)) :
    ∃ plant ∈ Plant.all factories, unit = plant.unitIn factories ∧ log.Offers factories symbol plant ∧
      ∀ other ∈ Plant.all factories, log.Offers factories symbol other → other = plant ∨ plant.Before other := by
  obtain ⟨earlier, slot, later, slots, serves, rfl, -, first⟩ := consume_eq_some taken
  have queued := kept.units
  rw [Pool.units, slots, List.map_append, List.map_cons] at queued
  -- the queue splits where the slots do
  obtain ⟨front, back, queue, same_front, same_back⟩ := List.map_eq_append_iff.mp queued.symm
  obtain ⟨plant, behind, rfl, same, -⟩ := List.map_eq_cons_iff.mp same_back
  have listed : ∀ other, other ∈ Plant.all factories ↔ other ∈ front ∨ other = plant ∨ other ∈ behind := by
    intro other
    rw [← (Plant.queue_perm factories).mem_iff, queue]
    simp
  refine ⟨plant, (listed plant).mpr (.inr (.inl rfl)), same.symm, ?_, fun other member offers => ?_⟩
  · have offers := (kept.serves_iff (by simp [slots])).mp serves
    rwa [← same] at offers
  · rcases (listed other).mp member with ahead | here | after
    · have drawn : other.unitIn factories ∈ earlier.map Slot.draw := same_front ▸ List.mem_map_of_mem ahead
      obtain ⟨busy, inside, named⟩ := List.mem_map.mp drawn
      have refused := first busy inside
      have ready : busy.serves symbol := by
        rw [kept.serves_iff (by simp [slots, inside]), named]
        exact offers
      simp [refused] at ready
    · exact .inl here
    · have ordered := Plant.pairwise_queue factories
      rw [queue] at ordered
      exact .inr (List.rel_of_pairwise_cons (List.pairwise_append.mp ordered).2.1 after)

theorem Kept.saturated_iff : log.pool.saturated ↔ log.pool.advance = log.pool := by
  have slots : log.pool.advance = log.pool ↔ log.pool.slots.map Slot.advance = log.pool.slots.map id := by
    rw [List.map_id]
    exact ⟨congrArg Pool.slots, congrArg Pool.mk⟩
  rw [slots, List.map_inj_left, saturated, List.all_eq_true]
  apply forall₂_congr
  intro slot member
  have progress := kept.progress member
  cases slot
  simp only [Slot.ready, Slot.advance, decide_eq_true_eq, id_eq, Slot.mk.injEq, true_and]
  dsimp only at progress
  omega

theorem Kept.progress_lt {bound : Nat} (fits : ∀ factory ∈ factories, factory.period + 1 < bound) {slot : Slot}
    (member : slot ∈ log.pool.slots) : slot.progress + 1 < bound := by
  have made : slot.draw ∈ log.pool.units := List.mem_map_of_mem member
  obtain ⟨plant, listed, same⟩ := List.mem_map.mp (kept.perm.mem_iff.mp made)
  have period : plant.factory.period = slot.factory.period := congrArg Draw.period same
  have mentioned : plant.factory ∈ factories := by
    rw [← Plant.map_factory_all factories]
    exact List.mem_map_of_mem listed
  have short := fits plant.factory mentioned
  have progress := kept.progress member
  omega

end

end Log

/-- A pool answers as the listed factories and the calls so far tell. -/
structure Log.Lawful (factories : List Factory) (log : Log) : Prop where
  /-- The instances are the listed factories, ranked within their states. -/
  instances : log.pool.units.Perm ((Plant.all factories).map (Plant.unitIn factories)) ∧ log.pool.units.Nodup
  progress : ∀ slot ∈ log.pool.slots, slot.progress = min slot.factory.period (log.idle slot.draw)
  inventory : ∀ symbol, log.pool.inventory symbol = (Plant.all factories).countP (log.Offers factories symbol)
  refused : ∀ symbol, log.pool.consume symbol = none ↔ log.pool.inventory symbol = 0
  /-- A request is served by the first factory that has a unit. -/
  served : ∀ symbol unit rest, log.pool.consume symbol = some (unit, rest) →
    ∃ plant ∈ Plant.all factories, unit = plant.unitIn factories ∧ log.Offers factories symbol plant ∧
      ∀ other ∈ Plant.all factories, log.Offers factories symbol other → other = plant ∨ plant.Before other
  /-- A unit that took time is missed, and no other. -/
  spent : ∀ symbol unit rest, log.pool.consume symbol = some (unit, rest) →
    rest.inventory symbol + (if 0 < unit.period then 1 else 0) = log.pool.inventory symbol ∧
      ∀ other, other ≠ symbol → rest.inventory other = log.pool.inventory other
  saturated : log.pool.saturated ↔ log.pool.advance = log.pool
  /-- No counter leaves the range of 64-bit numbers if no period comes too close to its end. -/
  fits : (∀ factory ∈ factories, factory.period + 1 < wordLimit) →
    ∀ slot ∈ log.pool.slots, slot.progress + 1 < wordLimit

/-- Whatever is asked of a pool, in whatever order, it keeps account of all of it. -/
theorem lawful_after (factories : List Factory) (calls : List Call) : (Log.after factories calls).Lawful factories := by
  have kept := Log.kept_after factories calls
  constructor
  case instances => exact ⟨kept.perm, kept.ranked.nodup⟩
  case progress => exact fun slot member => kept.progress member
  case inventory => exact kept.inventory_eq
  case refused => exact fun symbol => consume_eq_none_iff
  case served => exact fun symbol unit rest taken => kept.server taken
  case spent =>
    intro symbol unit rest taken
    exact ⟨inventory_consume taken, fun other apart => inventory_consume_other taken apart⟩
  case saturated => exact kept.saturated_iff
  case fits => exact fun fits slot member => kept.progress_lt fits member

-- Of two equally fast factories the one listed first serves first, and one that takes no time serves always.
example : ((Log.after [⟨"T", 2⟩, ⟨"S", 0⟩, ⟨"T", 2⟩]
    [.consume "T", .advance, .advance, .consume "T", .consume "S", .consume "S", .advance, .consume "T"]).history.map
      fun delivery => (delivery.cycle, delivery.unit))
      = [(2, ⟨"T", 0, 2⟩), (2, ⟨"S", 0, 0⟩), (2, ⟨"S", 0, 0⟩), (3, ⟨"T", 1, 2⟩)] := by decide

end Pool

end LatticeSurgery
