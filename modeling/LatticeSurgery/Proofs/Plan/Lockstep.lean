import LatticeSurgery.Proofs.Plan.FactoryOrder
import LatticeSurgery.Proofs.Plan.Feeding

/-! # Blocking lines and pools

A pool keeps all its factories in one list, numbers those of each state, and starts a factory again when its unit is
taken. Blocking lines are kept by state, and a unit that is taken is subtracted. As long as no counter passes its period
these come to the same: whatever is asked of the two, in whatever order, they give the same answers and stand at the
same counters.
-/

namespace LatticeSurgery

/-! ## Supplies that agree -/

/-- Two supplies that answer alike in states that are related, and go on to related states. -/
structure Supply.Agree {σ τ : Type} (supply : Supply σ) (other : Supply τ) (R : σ → τ → Prop) : Prop where
  produces : ∀ s t, R s t → supply.produces s = other.produces t
  serve : ∀ s t, R s t → ∀ symbol, Option.Rel R (supply.serve? s symbol) (other.serve? t symbol)
  advance : ∀ s t, R s t → R (supply.advance s) (other.advance t)

section

variable {σ τ : Type} {supply : Supply σ} {other : Supply τ} {R : σ → τ → Prop} (agree : supply.Agree other R)
include agree

theorem Supply.Agree.serveAll {s : σ} {t : τ} (both : R s t) (queue : List Symbol) :
    (supply.serveAll s queue).1 = (other.serveAll t queue).1 ∧
      R (supply.serveAll s queue).2 (other.serveAll t queue).2 := by
  induction queue generalizing s t with
  | nil => exact ⟨rfl, both⟩
  | cons symbol rest ih =>
      have first := agree.serve s t both symbol
      generalize one : supply.serve? s symbol = answer at first
      generalize two : other.serve? t symbol = answer' at first
      cases first with
      | none =>
          rw [serveAll_of_none one, serveAll_of_none two]
          exact ⟨congrArg (symbol :: ·) (ih both).1, (ih both).2⟩
      | some next =>
          rw [serveAll_of_some one, serveAll_of_some two]
          exact ih next

/-- Feeding does not tell them apart. -/
theorem Supply.Agree.feedDepth {s : σ} {t : τ} (start : R s t) (g : Graph) (bound : Nat) :
    g.feedDepth supply s bound = g.feedDepth other t bound := by
  have steps : ∀ (one : Feeding σ) (two : Feeding τ),
      (one.cycles = two.cycles ∧ one.pending = two.pending ∧ R one.stock two.stock) →
      Next.Agree (fun one two => one.cycles = two.cycles ∧ one.pending = two.pending ∧ R one.stock two.stock) Eq
        (g.feed supply one) (g.feed other two) := by
    rintro ⟨cycles, pending, s⟩ ⟨_, _, t⟩ ⟨rfl, rfl, both⟩
    rw [Graph.feed, Graph.feed]
    split
    · obtain ⟨waiting, later⟩ := agree.serveAll both (pending ++ g.layerDraws cycles)
      exact .again ⟨rfl, waiting, agree.advance _ _ later⟩
    · exact .done rfl
  have same := eq_of_rel (iterate_agree steps bound (s := { stock := s }) (t := { stock := t }) ⟨rfl, rfl, start⟩)
  rw [Graph.feedDepth, agree.produces s t start, same, Graph.feedDepth]

end

/-! ## What is asked of factories -/

/-- A request to factories. -/
inductive Request where
  /-- One unit of a state. -/
  | draw (symbol : Symbol)
  /-- One cycle of production. -/
  | advance
  deriving Repr, DecidableEq

/-- Handles requests in order; gives the unit that serves each draw, or `none` for a draw that is refused. -/
def respond {σ : Type} (consume : σ → Symbol → Option (Draw × σ)) (advance : σ → σ) (s : σ) :
    List Request → List (Option Draw) × σ
  | [] => ([], s)
  | .draw symbol :: rest =>
      match consume s symbol with
      | some (unit, s) =>
          let (answers, s) := respond consume advance s rest
          (some unit :: answers, s)
      | none =>
          let (answers, s) := respond consume advance s rest
          (none :: answers, s)
  | .advance :: rest => respond consume advance (advance s) rest

/-- Related machines that answer every request alike answer all of them alike. -/
theorem respond_agree {σ τ : Type} {consume : σ → Symbol → Option (Draw × σ)} {advance : σ → σ}
    {consume' : τ → Symbol → Option (Draw × τ)} {advance' : τ → τ} {R : σ → τ → Prop}
    (draws : ∀ s t, R s t → ∀ symbol,
      Option.Rel (fun one two => one.1 = two.1 ∧ R one.2 two.2) (consume s symbol) (consume' t symbol))
    (advances : ∀ s t, R s t → R (advance s) (advance' t)) (requests : List Request) {s : σ} {t : τ} (both : R s t) :
    (respond consume advance s requests).1 = (respond consume' advance' t requests).1 ∧
      R (respond consume advance s requests).2 (respond consume' advance' t requests).2 := by
  induction requests generalizing s t with
  | nil => exact ⟨rfl, both⟩
  | cons request rest ih =>
      cases request with
      | advance => exact ih (advances s t both)
      | draw symbol =>
          have first := draws s t both symbol
          rw [respond, respond]
          generalize consume s symbol = one at first
          generalize consume' t symbol = two at first
          cases first with
          | none => exact ⟨congrArg (none :: ·) (ih both).1, (ih both).2⟩
          | @some one two next =>
              obtain ⟨unit, s⟩ := one
              obtain ⟨_, t⟩ := two
              obtain ⟨rfl, next⟩ := next
              exact ⟨congrArg (some unit :: ·) (ih next).1, (ih next).2⟩

/-- Hands out a unit of a state, and tells which line it comes from. -/
def Lines.consume (lines : Lines) (symbol : Symbol) : Option (Draw × Lines) := do
  let rank ← lines.rank? symbol
  let line ← (lines.of symbol)[rank]?
  let next ← lines.serve? symbol
  return (⟨symbol, rank, line.period⟩, next)

theorem Lines.consume_of_serves {lines next : Lines} {symbol : Symbol} (served : lines.serve? symbol = some next)
    {before after : List Line} {line : Line} (serves : lines.Serves symbol before line after next)
    (rank : lines.rank? symbol = some before.length) :
    lines.consume symbol = some (⟨symbol, before.length, line.period⟩, next) := by
  simp [consume, rank, serves.group, served]

theorem Lines.consume_eq_none {lines : Lines} {symbol : Symbol} (refused : lines.serve? symbol = none) :
    lines.consume symbol = none := by
  have none : lines.rank? symbol = none := Option.map_eq_none_iff.mp refused
  simp [consume, none]

theorem Lines.map_consume (lines : Lines) (symbol : Symbol) :
    (lines.consume symbol).map (·.2) = lines.serve? symbol := by
  cases answer : lines.serve? symbol with
  | none =>
      rw [consume_eq_none answer]
      rfl
  | some next =>
      obtain ⟨_, _, _, serves, rank⟩ := serves_of_serve? answer
      rw [consume_of_serves answer serves rank]
      rfl

/-- A pool as a supply. -/
def Pool.supply : Supply Pool := ⟨produces, fun pool symbol => (pool.consume symbol).map (·.2), advance⟩

/-! ## The same counters -/

/-- A line as a slot of a pool. -/
def Line.toSlot (symbol : Symbol) (entry : Line × Nat) : Slot := ⟨⟨symbol, entry.1.period⟩, entry.2, entry.1.progress⟩

/-- The factories of every state, by rank, have the same periods and counters as the lines, and no counter has passed
    its period. -/
structure Lines.Matches (lines : Lines) (pool : Pool) : Prop where
  produces : ∀ symbol, lines.produces symbol = pool.produces symbol
  slots : ∀ symbol, pool.slots.filter (·.factory.symbol == symbol) = (lines.of symbol).zipIdx.map (Line.toSlot symbol)
  within : pool.Within

theorem Lines.matches_new (factories : List Factory) : (Lines.new factories).Matches (Pool.new factories) where
  produces symbol := by rw [Bool.eq_iff_iff, Lines.produces_new, Pool.produces_new]
  slots symbol := by
    rw [Pool.filter_slots_new, Lines.of_new, List.zipIdx_map, List.map_map]
    rfl
  within := Pool.within_new factories

theorem Line.toSlot_advance (symbol : Symbol) {line : Line} {rank : Nat} (within : line.progress ≤ line.period) :
    (toSlot symbol (line, rank)).advance = toSlot symbol (line.advance true, rank) := by
  unfold advance
  split
  next below =>
      have below : line.progress < line.period := by simpa using below
      have free : min (line.progress + 1) line.period = line.progress + 1 := Nat.min_eq_left below
      simp only [toSlot, Slot.advance, free]
  next full =>
      have full : line.period ≤ line.progress := by simpa using full
      have stays : min (line.progress + 1) line.period = line.progress := by omega
      simp only [toSlot, Slot.advance, stays]

theorem Line.toSlot_handOut (symbol : Symbol) {line : Line} {rank : Nat} (within : line.progress ≤ line.period) :
    (toSlot symbol (line, rank)).restart = toSlot symbol (line.handOut, rank) := by
  rw [toSlot, toSlot, handOut, Nat.sub_eq_zero_of_le within, Slot.restart]

theorem Line.serves_toSlot (symbol : Symbol) (entry : Line × Nat) :
    (toSlot symbol entry).serves symbol = entry.1.ready := by
  rw [Slot.serves, toSlot, beq_self_eq_true, Bool.true_and]
  rfl

section

variable {α : Type} {p : α → Bool} {f : α → α} {xs ys : List α} {x : α}

theorem changeFirst?_eq_none (idle : ∀ x ∈ xs, p x = false) : changeFirst? p f xs = none := by
  induction xs with
  | nil => rfl
  | cons first xs ih =>
      obtain ⟨here, later⟩ := List.forall_mem_cons.mp idle
      rw [changeFirst?, ih later]
      simp [here]

theorem changeFirst?_append (idle : ∀ x ∈ xs, p x = false) (picked : p x) :
    changeFirst? p f (xs ++ x :: ys) = some (x, xs ++ f x :: ys) := by
  induction xs with
  | nil => simp [changeFirst?, picked]
  | cons first xs ih =>
      obtain ⟨here, later⟩ := List.forall_mem_cons.mp idle
      rw [List.cons_append, changeFirst?, ih later]
      simp [here]

end

/-- A draw asks the factories of its state only. -/
theorem changeFirst?_own (pool : Pool) (symbol : Symbol) :
    changeFirst? (·.serves symbol) Slot.restart (pool.slots.filter (·.factory.symbol == symbol))
      = (changeFirst? (·.serves symbol) Slot.restart pool.slots).map
        fun found => (found.1, found.2.filter (·.factory.symbol == symbol)) := by
  refine changeFirst?_filter (f := Slot.restart) (fun slot serves => ?_) (fun _ => rfl) pool.slots
  exact beq_iff_eq.mpr (Slot.symbol_of_serves serves)

namespace Lines.Matches

variable {lines : Lines} {pool : Pool} {symbol : Symbol} (both : lines.Matches pool)
include both

theorem progress_le {line : Line} (member : line ∈ lines.of symbol) : line.progress ≤ line.period := by
  obtain ⟨rank, inside, rfl⟩ := List.getElem_of_mem member
  have listed : Line.toSlot symbol ((lines.of symbol)[rank], rank)
      ∈ pool.slots.filter (·.factory.symbol == symbol) := by
    rw [both.slots]
    exact List.mem_map_of_mem (List.mem_zipIdx_iff_getElem?.mpr (List.getElem?_eq_getElem inside))
  exact both.within _ (List.mem_of_mem_filter listed)

theorem advance : (lines.advance true).Matches pool.advance where
  produces symbol := by
    have same : pool.advance.produces symbol = pool.produces symbol := by
      rw [Bool.eq_iff_iff, Pool.produces_iff, Pool.produces_iff, Pool.units_advance]
    rw [same, ← both.produces]
    exact Std.ExtTreeMap.contains_map
  slots symbol := by
    have own : pool.advance.slots.filter (·.factory.symbol == symbol)
        = (pool.slots.filter (·.factory.symbol == symbol)).map Slot.advance := by
      rw [Pool.advance, List.filter_map]
      rfl
    rw [own, both.slots, Lines.of_advance, List.zipIdx_map, List.map_map, List.map_map]
    refine List.map_congr_left fun entry listed => Line.toSlot_advance symbol ?_
    exact both.progress_le (List.mem_of_getElem? (List.mem_zipIdx_iff_getElem?.mp listed))
  within := Pool.within_advance pool

theorem consume_of_refused (refused : lines.serve? symbol = none) : pool.consume symbol = none := by
  have own := changeFirst?_own pool symbol
  have idle : ∀ slot ∈ (lines.of symbol).zipIdx.map (Line.toSlot symbol), slot.serves symbol = false := by
    rw [List.forall_mem_map]
    intro entry listed
    rw [Line.serves_toSlot]
    exact Lines.serve?_eq_none.mp refused _ (List.mem_of_getElem? (List.mem_zipIdx_iff_getElem?.mp listed))
  rw [both.slots, changeFirst?_eq_none idle, eq_comm, Option.map_eq_none_iff] at own
  rw [Pool.consume, Slot.takeFirst_eq, own]
  rfl

theorem consume_of_served {next : Lines} {before after : List Line} {line : Line}
    (serves : lines.Serves symbol before line after next) :
    ∃ rest, pool.consume symbol = some (⟨symbol, before.length, line.period⟩, rest) ∧ next.Matches rest := by
  have own := changeFirst?_own pool symbol
  have idle : ∀ slot ∈ before.zipIdx.map (Line.toSlot symbol), slot.serves symbol = false := by
    rw [List.forall_mem_map]
    intro entry listed
    rw [Line.serves_toSlot]
    exact serves.refused _ (List.mem_of_getElem? (List.mem_zipIdx_iff_getElem?.mp listed))
  have ready : (Line.toSlot symbol (line, before.length)).serves symbol := by
    rw [Line.serves_toSlot]
    exact serves.ready
  have member : line ∈ lines.of symbol := by simp [serves.group]
  rw [both.slots, serves.group, List.zipIdx_append, List.zipIdx_cons, List.map_append, List.map_cons, Nat.zero_add,
    changeFirst?_append idle ready, Line.toSlot_handOut symbol (both.progress_le member)] at own
  obtain ⟨⟨slot, slots⟩, found, same⟩ := Option.map_eq_some_iff.mp own.symm
  obtain ⟨rfl, kept⟩ := Prod.ext_iff.mp same
  have taken : pool.consume symbol = some (⟨symbol, before.length, line.period⟩, ⟨slots⟩) := by
    rw [Pool.consume, Slot.takeFirst_eq, found]
    rfl
  -- the first slot of the pool that serves is the first one of its state, and slots of other states stay
  refine ⟨⟨slots⟩, taken, ?_, fun other => ?_, Pool.within_consume both.within taken⟩
  · intro other
    rw [serves.makes, both.produces, Bool.eq_iff_iff, Pool.produces_iff, Pool.produces_iff, Pool.units_consume taken]
  · by_cases here : other = symbol
    · subst here
      rw [serves.served, List.zipIdx_append, List.zipIdx_cons, List.map_append, List.map_cons, Nat.zero_add]
      exact kept
    · have aside : ∀ slot : Slot, slot.serves symbol → (slot.factory.symbol == other) = false := by
        intro slot picked
        rw [Slot.symbol_of_serves picked]
        exact beq_eq_false_iff_ne.mpr (Ne.symm here)
      rw [filter_of_changeFirst? (f := Slot.restart) aside (fun _ => rfl) found, both.slots, serves.others other here]

/-- A draw is refused by both, or served by both from the same rank. -/
theorem consume (symbol : Symbol) :
    Option.Rel (fun one two => one.1 = two.1 ∧ one.2.Matches two.2) (lines.consume symbol) (pool.consume symbol) := by
  cases answer : lines.serve? symbol with
  | none =>
      rw [Lines.consume_eq_none answer, both.consume_of_refused answer]
      exact .none
  | some next =>
      obtain ⟨before, line, after, serves, rank⟩ := Lines.serves_of_serve? answer
      obtain ⟨rest, taken, later⟩ := both.consume_of_served serves
      rw [Lines.consume_of_serves answer serves rank, taken]
      exact .some ⟨rfl, later⟩

end Lines.Matches

/-- Blocking lines and a pool are the same supply. -/
theorem Lines.agree_pool : (Lines.supply true).Agree Pool.supply Lines.Matches where
  produces _ _ both := funext both.produces
  serve lines pool both symbol := by
    have answers := both.consume symbol
    show Option.Rel _ (lines.serve? symbol) ((pool.consume symbol).map (·.2))
    rw [← lines.map_consume symbol]
    generalize lines.consume symbol = one at answers
    generalize pool.consume symbol = two at answers
    cases answers with
    | none => exact .none
    | some next => exact .some next.2
  advance _ _ both := both.advance

/-- Blocking lines and a pool made of the same factories serve and refuse the same draws, from the same ranks, and stand
    at the same counters after any requests; so the time that it takes to feed a graph can be read off either. -/
theorem lines_match_pool (factories : List Factory) :
    (∀ requests : List Request,
      (respond Lines.consume (Lines.advance true) (Lines.new factories) requests).1
        = (respond Pool.consume Pool.advance (Pool.new factories) requests).1 ∧
      (respond Lines.consume (Lines.advance true) (Lines.new factories) requests).2.Matches
        (respond Pool.consume Pool.advance (Pool.new factories) requests).2) ∧
    ∀ g : Graph, g.depthFactories factories true
      = g.feedDepth Pool.supply (Pool.new factories) (g.feedBound factories) := by
  refine ⟨fun requests => ?_, fun g => Lines.agree_pool.feedDepth (Lines.matches_new factories) g _⟩
  exact respond_agree (fun _ _ both => both.consume) (fun _ _ both => both.advance) requests
    (Lines.matches_new factories)

end LatticeSurgery
