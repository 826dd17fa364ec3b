import Mathlib.Data.List.Find
import LatticeSurgery.Chains
import LatticeSurgery.Proofs.Plan.Lines
import LatticeSurgery.Proofs.Plan.Outcome

/-! # The order of the factories

A request for a magic state looks at the factories of that state only, and these stand by ascending period whatever the
order of the list. So two lists that give the same periods for every state that is drawn lead to the same schedule, and
what factories of other states do is never seen.
-/

namespace LatticeSurgery

/-! ## Lists that agree on some states -/

section

variable {α : Type} {key : α → Symbol} {wanted : Symbol → Prop} {p q : α → Bool} {f : α → α} {xs ys : List α}

/-- The elements that belong to a state that matters are the same and in the same order. -/
def AgreeOn (key : α → Symbol) (wanted : Symbol → Prop) (xs ys : List α) : Prop :=
  ∀ symbol, wanted symbol → xs.filter (key · == symbol) = ys.filter (key · == symbol)

/-- Changes the first element that meets a condition, and gives it as it was. -/
def changeFirst? (p : α → Bool) (f : α → α) : List α → Option (α × List α)
  | [] => none
  | x :: xs => if p x then some (x, f x :: xs) else (changeFirst? p f xs).map fun found => (found.1, x :: found.2)

/-- Elements that cannot be meant may be left out. -/
theorem changeFirst?_filter (inside : ∀ x, p x → q x) (keeps : ∀ x, q (f x) = q x) (xs : List α) :
    changeFirst? p f (xs.filter q) = (changeFirst? p f xs).map fun found => (found.1, found.2.filter q) := by
  induction xs with
  | nil => rfl
  | cons x xs ih =>
      cases picks : p x with
      | true =>
          have stays := inside x picks
          simp [changeFirst?, picks, stays, keeps]
      | false => cases stays : q x <;> simp [changeFirst?, picks, stays, ih, Function.comp_def]

/-- Elements that cannot be meant are left alone. -/
theorem filter_of_changeFirst? (outside : ∀ x, p x → q x = false) (keeps : ∀ x, q (f x) = q x) {x : α}
    (h : changeFirst? p f xs = some (x, ys)) : ys.filter q = xs.filter q := by
  induction xs generalizing ys with
  | nil => cases h
  | cons first xs ih =>
      rw [changeFirst?] at h
      split at h
      next picks =>
          cases h
          simp [keeps, outside _ picks]
      · obtain ⟨⟨found, rest⟩, inner, same⟩ := Option.map_eq_some_iff.mp h
        cases same
        rw [List.filter_cons, List.filter_cons, ih inner]

namespace AgreeOn

theorem changeFirst? (agree : AgreeOn key wanted xs ys) {symbol : Symbol} (matters : wanted symbol)
    (picks : ∀ x, p x → key x = symbol) (keeps : ∀ x, key (f x) = key x) :
    Option.Rel (fun one two => one.1 = two.1 ∧ AgreeOn key wanted one.2 two.2)
      (changeFirst? p f xs) (changeFirst? p f ys) := by
  have own := fun zs : List α => changeFirst?_filter (q := (key · == symbol)) (fun x h => beq_iff_eq.mpr (picks x h))
    (fun x => congrArg (· == symbol) (keeps x)) zs
  have same := own xs
  rw [agree symbol matters, own ys] at same
  cases first : LatticeSurgery.changeFirst? p f xs with
  | none =>
      rw [first, Option.map_none, Option.map_eq_none_iff] at same
      rw [same]
      exact .none
  | some one =>
      rw [first, Option.map_some] at same
      obtain ⟨two, second, equal⟩ := Option.map_eq_some_iff.mp same
      rw [second]
      refine .some ⟨(congrArg Prod.fst equal).symm, fun other counts => ?_⟩
      by_cases here : other = symbol
      · rw [here]
        exact (congrArg Prod.snd equal).symm
      · have aside : ∀ x, p x → (key x == other) = false := by
          intro x h
          rw [picks x h]
          exact beq_eq_false_iff_ne.mpr (Ne.symm here)
        have stays : ∀ x, (key (f x) == other) = (key x == other) := fun x => congrArg (· == other) (keeps x)
        rw [filter_of_changeFirst? aside stays first, filter_of_changeFirst? aside stays second]
        exact agree other counts

theorem map (agree : AgreeOn key wanted xs ys) (keeps : ∀ x, key (f x) = key x) :
    AgreeOn key wanted (xs.map f) (ys.map f) := by
  intro symbol matters
  have through : ∀ zs : List α, (zs.map f).filter (key · == symbol) = (zs.filter (key · == symbol)).map f := by
    intro zs
    simp [List.filter_map, Function.comp_def, keeps]
  rw [through, through, agree symbol matters]

/-- A count that asks for a state sees its elements only. -/
theorem countP_eq (agree : AgreeOn key wanted xs ys) {symbol : Symbol} (matters : wanted symbol)
    (picks : ∀ x, p x → key x = symbol) : xs.countP p = ys.countP p := by
  have own : ∀ zs : List α, (zs.filter (key · == symbol)).countP p = zs.countP p := by
    intro zs
    rw [List.countP_filter]
    refine List.countP_congr fun x _ => ?_
    simpa using picks x
  rw [← own xs, agree symbol matters, own ys]

theorem mem_iff (agree : AgreeOn key wanted xs ys) {x : α} (matters : wanted (key x)) : x ∈ xs ↔ x ∈ ys := by
  have own : ∀ zs : List α, x ∈ zs ↔ x ∈ zs.filter (key · == key x) := by simp
  rw [own xs, agree _ matters, ← own ys]

end AgreeOn

end

/-! ## Pools -/

/-- The states that matter have factories of the same periods. -/
def SamePeriods (wanted : Symbol → Prop) (factories others : List Factory) : Prop :=
  ∀ symbol, wanted symbol → periodsOf factories symbol = periodsOf others symbol

theorem pairwise_periodsOf (factories : List Factory) (symbol : Symbol) :
    (periodsOf factories symbol).Pairwise (· ≤ ·) := by
  have sorted : (periodsOf factories symbol).Pairwise fun a b => decide (a ≤ b) :=
    pairwise_sortBy (by simpa using fun a b c => Nat.le_trans) (by simpa using Nat.le_total) _
  simpa using sorted

theorem periodsOf_perm {factories others : List Factory} (perm : factories.Perm others) (symbol : Symbol) :
    periodsOf factories symbol = periodsOf others symbol := by
  have listed := (perm.filter (·.symbol = symbol)).map (·.period)
  have same : (periodsOf factories symbol).Perm (periodsOf others symbol) :=
    (sortBy_perm _ _).trans (listed.trans (sortBy_perm _ _).symm)
  exact same.eq_of_pairwise (fun _ _ _ _ => Nat.le_antisymm) (pairwise_periodsOf _ _) (pairwise_periodsOf _ _)

theorem Slot.takeFirst_eq (symbol : Symbol) (slots : List Slot) :
    takeFirst symbol slots
      = (changeFirst? (·.serves symbol) restart slots).map fun found => (found.1.draw, found.2) := by
  induction slots with
  | nil => rfl
  | cons slot slots ih =>
      rw [takeFirst, changeFirst?, ih]
      split
      · rfl
      · rw [Option.map_map, Option.map_map]
        rfl

namespace Pool

variable {pool other : Pool} {wanted : Symbol → Prop} {symbol : Symbol}

/-- Pools that agree on the states that matter. -/
def AgreeOn (wanted : Symbol → Prop) (pool other : Pool) : Prop :=
  LatticeSurgery.AgreeOn (·.factory.symbol) wanted pool.slots other.slots

theorem agreeOn_new {factories others : List Factory} (same : SamePeriods wanted factories others) :
    AgreeOn wanted (new factories) (new others) := by
  intro symbol matters
  rw [filter_slots_new, filter_slots_new, same symbol matters]

namespace AgreeOn

theorem inventory (agree : AgreeOn wanted pool other) (matters : wanted symbol) :
    pool.inventory symbol = other.inventory symbol :=
  agree.countP_eq matters fun _ => Slot.symbol_of_serves

theorem consume (agree : AgreeOn wanted pool other) (matters : wanted symbol) :
    Option.Rel (fun one two => one.1 = two.1 ∧ AgreeOn wanted one.2 two.2) (pool.consume symbol)
      (other.consume symbol) := by
  have first := agree.changeFirst? (p := (·.serves symbol)) (f := Slot.restart) matters
    (fun _ => Slot.symbol_of_serves) fun _ => rfl
  rw [Pool.consume, Pool.consume, Slot.takeFirst_eq, Slot.takeFirst_eq]
  generalize changeFirst? (·.serves symbol) Slot.restart pool.slots = one at first
  generalize changeFirst? (·.serves symbol) Slot.restart other.slots = two at first
  cases first with
  | none => exact .none
  | some both => exact .some ⟨congrArg Slot.draw both.1, both.2⟩

theorem advance (agree : AgreeOn wanted pool other) : AgreeOn wanted pool.advance other.advance :=
  agree.map fun _ => rfl

theorem produces (agree : AgreeOn wanted pool other) (matters : wanted symbol) :
    pool.produces symbol = other.produces symbol := by
  have own : ∀ pool : Pool,
      pool.produces symbol = (pool.slots.filter (·.factory.symbol == symbol)).any fun _ => true := by
    simp [Pool.produces, List.any_filter]
  rw [own, own, agree symbol matters]

theorem saturated (agree : AgreeOn wanted pool other) (all : ∀ symbol, wanted symbol) :
    pool.saturated = other.saturated := by
  rw [Bool.eq_iff_iff, Pool.saturated, Pool.saturated, List.all_eq_true, List.all_eq_true]
  exact forall_congr' fun slot => imp_congr_left (agree.mem_iff (all _))

end AgreeOn

end Pool

/-! ## Schedules -/

/-- Two computations that fail alike, or succeed with results related by `R`. -/
inductive Concur {ε α β : Type} (R : α → β → Prop) : Except ε α → Except ε β → Prop where
  | ok {a : α} {b : β} (both : R a b) : Concur R (.ok a) (.ok b)
  | error (e : ε) : Concur R (.error e) (.error e)

theorem Concur.bind {ε α β γ δ : Type} {R : α → β → Prop} {S : γ → δ → Prop} {x : Except ε α} {y : Except ε β}
    {f : α → Except ε γ} {g : β → Except ε δ} (first : Concur R x y) (next : ∀ a b, R a b → Concur S (f a) (g b)) :
    Concur S (x >>= f) (y >>= g) := by
  cases first with
  | ok both => exact next _ _ both
  | error e => exact .error e

/-- All states that nodes of a graph draw matter. -/
def Graph.DrawsWithin (g : Graph) (wanted : Symbol → Prop) : Prop :=
  ∀ id node, g.node? id = some node → ∀ symbol ∈ g.drawn node, wanted symbol

namespace Sweep

variable {g : Graph} {capacity : Nat} {wanted : Symbol → Prop} {s t : Sweep}

/-- Cycles in progress that differ in the factories of states that do not matter. -/
def AgreeOn (wanted : Symbol → Prop) (s t : Sweep) : Prop := ∃ pool, t = { s with pool } ∧ s.pool.AgreeOn wanted pool

namespace AgreeOn

theorem draw (agree : s.AgreeOn wanted t) (id : NodeId) {symbols : List Symbol}
    (matter : ∀ symbol ∈ symbols, wanted symbol) : Concur (AgreeOn wanted) (s.draw id symbols) (t.draw id symbols) := by
  induction symbols generalizing s t with
  | nil => exact .ok agree
  | cons symbol rest ih =>
      obtain ⟨pool, rfl, agree⟩ := agree
      obtain ⟨matters, matter⟩ := List.forall_mem_cons.mp matter
      have taken := agree.consume matters
      rw [Sweep.draw, Sweep.draw]
      dsimp only
      generalize s.pool.consume symbol = one at taken
      generalize pool.consume symbol = two at taken
      cases taken with
      | none => exact .error _
      | @some one two both =>
          obtain ⟨unit, first⟩ := one
          obtain ⟨_, second⟩ := two
          obtain ⟨rfl, agree⟩ := both
          exact ih ⟨second, rfl, agree⟩ matter

theorem admits (agree : s.AgreeOn wanted t) {node : Node} (matter : ∀ symbol ∈ g.drawn node, wanted symbol) :
    s.admits g capacity node = t.admits g capacity node := by
  obtain ⟨pool, rfl, agree⟩ := agree
  have meets : ∀ edge ∈ node.producers, s.meets g edge = { s with pool }.meets g edge := by
    intro edge reads
    unfold Sweep.meets
    split
    next draws => rw [agree.inventory (matter _ (Graph.mem_drawn.mpr ⟨edge, reads, draws, rfl⟩))]
    · rfl
  have all : node.producers.all (s.meets g) = node.producers.all ({ s with pool }.meets g) := by
    rw [Bool.eq_iff_iff, List.all_eq_true, List.all_eq_true]
    exact forall₂_congr fun edge reads => by rw [meets edge reads]
  rw [Sweep.admits, all, Sweep.admits]

theorem turn (agree : s.AgreeOn wanted t) (within : g.DrawsWithin wanted) (capacity : Nat) (id : NodeId) :
    Concur (AgreeOn wanted) (s.turn g capacity id) (t.turn g capacity id) := by
  unfold Sweep.turn
  split
  next node found =>
      have matter := within id node found
      rw [← agree.admits matter]
      split
      · obtain ⟨pool, rfl, agree⟩ := agree
        refine draw ?_ node.id matter
        exact ⟨pool, rfl, agree⟩
      · exact .ok agree
  · exact .ok agree

theorem turns (agree : s.AgreeOn wanted t) (within : g.DrawsWithin wanted) (capacity : Nat) (queue : List NodeId) :
    Concur (AgreeOn wanted) (s.turns g capacity queue) (t.turns g capacity queue) := by
  induction queue generalizing s t with
  | nil => exact .ok agree
  | cons id queue ih => exact (agree.turn within capacity id).bind fun _ _ => ih

end AgreeOn

end Sweep

namespace Scheduling

variable {g : Graph} {capacity : Nat} {wanted : Symbol → Prop} {factories others : List Factory} {s t : Scheduling}

/-- Schedules in progress that differ in the factories of states that do not matter. -/
def AgreeOn (wanted : Symbol → Prop) (s t : Scheduling) : Prop :=
  ∃ pool, t = { s with pool } ∧ s.pool.AgreeOn wanted pool

/-- Two schedules in progress, each with its own factories. -/
structure Parallel (g : Graph) (capacity : Nat) (wanted : Symbol → Prop) (factories others : List Factory)
    (s t : Scheduling) : Prop where
  agree : s.AgreeOn wanted t
  orderly : Orderly g capacity s ∧ Orderly g capacity t
  stocked : Stocked g (Pool.new factories).units s ∧ Stocked g (Pool.new others).units t

theorem parallel_start (wired : g.Wired) (capacity : Nat) (same : SamePeriods wanted factories others) :
    Parallel g capacity wanted factories others { candidates := g.entries, pool := Pool.new factories }
      { candidates := g.entries, pool := Pool.new others } where
  agree := ⟨_, rfl, Pool.agreeOn_new same⟩
  orderly := ⟨orderly_start wired capacity _, orderly_start wired capacity _⟩
  stocked := ⟨stocked_start g (Pool.within_new factories), stocked_start g (Pool.within_new others)⟩

/-- Cycle by cycle the two schedules do the same. A pool can be full while the other is not, if there are factories
    that do not matter; then neither schedule is stalled. -/
theorem Parallel.cycle (both : Parallel g capacity wanted factories others s t) (wired : g.Wired)
    (within : g.DrawsWithin wanted) (supplied : g.Supplied factories ∧ g.Supplied others)
    (free : (∀ symbol, wanted symbol) ∨ 1 ≤ capacity) :
    Next.Agree (Parallel g capacity wanted factories others) Eq (s.cycle g capacity) (t.cycle g capacity) := by
  obtain ⟨⟨pool, rfl, agree⟩, ⟨orderly, orderly'⟩, stocked, stocked'⟩ := both
  by_cases none : s.candidates = []
  · rw [Scheduling.cycle, Scheduling.cycle, none]
    exact .done rfl
  · obtain ⟨u, done, fair, served, members⟩ := turns_eq_ok wired orderly stocked
    obtain ⟨v, done', fair', served', members'⟩ := turns_eq_ok wired orderly' stocked'
    have turns : @Concur Error _ _ (Sweep.AgreeOn wanted) (.ok u) (.ok v) := by
      rw [← done, ← done']
      exact Sweep.AgreeOn.turns ⟨pool, rfl, agree⟩ within capacity _
    cases turns with
    | ok last =>
        have level : (v.admitted.isEmpty && v.pool.saturated) = (u.admitted.isEmpty && u.pool.saturated) := by
          rcases free with all | wide
          · obtain ⟨_, rfl, agree⟩ := last
            rw [agree.saturated all]
          · have open' : ∀ node ∈ g.live, node.nonLocal → 0 < capacity := fun _ _ _ => wide
            rw [Bool.eq_false_iff.mpr (not_stalled wired orderly stocked supplied.1 open' none done),
              Bool.eq_false_iff.mpr (not_stalled wired orderly' stocked' supplied.2 open' none done')]
        rw [cycle_of_turns none done, cycle_of_turns (s := { s with pool }) none done', level]
        have next := And.intro (orderly_next wired orderly fair members) (orderly_next wired orderly' fair' members')
        have stock := And.intro (stocked_next stocked fair served orderly members)
          (stocked_next stocked' fair' served' orderly' members')
        obtain ⟨pool', rfl, agree⟩ := last
        split
        · exact .done rfl
        · exact .again ⟨⟨_, rfl, agree.advance⟩, next, stock⟩

end Scheduling

theorem Graph.undersupplied?_congr {g : Graph} {supplied supplied' : Symbol → Bool}
    (same : ∀ node ∈ g.live, ∀ symbol ∈ g.drawn node, supplied symbol = supplied' symbol) :
    g.undersupplied? supplied = g.undersupplied? supplied' := by
  refine List.find?_congr fun symbol listed => ?_
  obtain ⟨node, live, drawn⟩ := List.mem_flatMap.mp listed
  rw [same node live symbol drawn]

/-- Lists of factories that have the same periods for all states that matter lead to the same schedule. -/
theorem Graph.Wired.schedule_eq {g : Graph} (wired : g.Wired) (wanted : Symbol → Prop) (within : g.DrawsWithin wanted)
    {factories others : List Factory} (same : SamePeriods wanted factories others) {capacity : Nat}
    (free : (∀ symbol, wanted symbol) ∨ 1 ≤ capacity) : g.schedule capacity factories = g.schedule capacity others := by
  have made : g.undersupplied? (Pool.new factories).produces = g.undersupplied? (Pool.new others).produces := by
    refine undersupplied?_congr fun node live symbol drawn => ?_
    exact (Pool.agreeOn_new same).produces (within node.id node (wired.mem_live.mp live) symbol drawn)
  cases missing : g.undersupplied? (Pool.new others).produces with
  | some symbol => simp only [schedule, made, missing]
  | none =>
      have supplied : g.Supplied factories ∧ g.Supplied others :=
        ⟨supplied_iff.mpr (made.trans missing), supplied_iff.mpr missing⟩
      obtain ⟨_, result, _, _, run⟩ := Scheduling.exists_result wired capacity factories
      obtain ⟨_, result', _, _, run'⟩ := Scheduling.exists_result wired capacity others
      have equal : result = result' := by
        have both := iterate_agree (fun _ _ (both : Scheduling.Parallel g capacity wanted factories others _ _) =>
            both.cycle wired within supplied free)
          (max (g.scheduleBound (Pool.new factories)) (g.scheduleBound (Pool.new others)))
          (Scheduling.parallel_start wired capacity same)
        rw [iterate_of_le run (Nat.le_max_left ..), iterate_of_le run' (Nat.le_max_right ..)] at both
        exact Option.some.inj (eq_of_rel both)
      simp only [schedule, made, missing, run, run', equal]

theorem Graph.bindInstances_congr {g : Graph} {capacity : Nat} {factories others : List Factory}
    (same : g.schedule capacity factories = g.schedule capacity others) :
    g.bindInstances capacity factories = g.bindInstances capacity others := by
  rw [bindInstances, same, bindInstances]

/-! ## Estimates -/

theorem Lines.new_perm {factories others : List Factory} (perm : factories.Perm others) :
    Lines.new factories = Lines.new others := by
  refine Lines.ext_of (fun symbol => ?_) fun symbol => ?_
  · rw [Bool.eq_iff_iff, produces_new, produces_new]
    exact exists_congr fun factory => and_congr_left' perm.mem_iff
  · rw [of_new, of_new, periodsOf_perm perm]

theorem Graph.depthFactories_perm {g : Graph} {factories others : List Factory} (perm : factories.Perm others)
    (blocking : Bool) : g.depthFactories factories blocking = g.depthFactories others blocking := by
  have slowest : longestPeriod factories = longestPeriod others := (perm.map _).foldl_eq 0
  have bound : g.feedBound factories = g.feedBound others := by rw [feedBound, slowest, feedBound]
  rw [depthFactories, Lines.new_perm perm, bound, depthFactories]

/-- The order of a list of factories plays no part in any schedule, binding or estimate, and with room in the channel
    factories of states that nobody draws play none in a schedule. -/
theorem factories_unordered {b : Builder} (reachable : b.Reachable) (capacity : Nat) (factories : List Factory) :
    (∀ others, factories.Perm others →
      b.graph.schedule capacity factories = b.graph.schedule capacity others ∧
      b.graph.bindInstances capacity factories = b.graph.bindInstances capacity others ∧
      ∀ blocking, b.graph.depthFactories factories blocking = b.graph.depthFactories others blocking) ∧
    (1 ≤ capacity → ∀ extra, (∀ factory ∈ extra, ∀ node ∈ b.graph.live, factory.symbol ∉ b.graph.drawn node) →
      b.graph.schedule capacity (factories ++ extra) = b.graph.schedule capacity factories) := by
  have wired := reachable.sound.wired
  refine ⟨fun others perm => ?_, fun wide extra idle => ?_⟩
  · have same : b.graph.schedule capacity factories = b.graph.schedule capacity others :=
      wired.schedule_eq (fun _ => True) (fun _ _ _ _ _ => trivial) (fun symbol _ => periodsOf_perm perm symbol)
        (.inl fun _ => trivial)
    exact ⟨same, Graph.bindInstances_congr same, Graph.depthFactories_perm perm⟩
  · -- what matters is what a live node draws, and none of the new factories makes that
    refine wired.schedule_eq (fun symbol => ∃ node ∈ b.graph.live, symbol ∈ b.graph.drawn node) ?_ ?_ (.inr wide)
    · intro id node found symbol drawn
      exact ⟨node, wired.mem_live.mpr ((wired.id_eq found).symm ▸ found), drawn⟩
    · rintro symbol ⟨node, live, drawn⟩
      have none : extra.filter (·.symbol = symbol) = [] := by
        refine List.filter_eq_nil_iff.mpr fun factory member made => ?_
        exact idle factory member node live (of_decide_eq_true made ▸ drawn)
      rw [periodsOf, List.filter_append, none, List.append_nil, periodsOf]

/-- Two factories of T serve the gates alike in either order, and beside one that makes a state nobody draws. -/
theorem factories_unordered_pair :
    ∃ (b : Builder) (plan : Plan), b.Reachable ∧ b.graph.schedule 1 [⟨"T", 3⟩, ⟨"T", 2⟩] = .ok plan ∧
      plan.layers = [[0, 1], [], [3], [4], [5]] ∧ b.graph.schedule 1 [⟨"T", 2⟩, ⟨"T", 3⟩] = .ok plan ∧
      b.graph.schedule 1 [⟨"T", 3⟩, ⟨"T", 2⟩, ⟨"CCZ", 1⟩] = .ok plan ∧
      b.graph.bindInstances 1 [⟨"T", 3⟩, ⟨"T", 2⟩] = b.graph.bindInstances 1 [⟨"T", 2⟩, ⟨"T", 3⟩] ∧
      b.graph.depthFactories [⟨"T", 2⟩, ⟨"T", 3⟩] true = .ok 4 := by
  have runs : pairOfGates.toOption.any fun b => (b.graph.schedule 1 [⟨"T", 3⟩, ⟨"T", 2⟩]).toOption.any fun plan =>
      plan.layers == [[0, 1], [], [3], [4], [5]]
        && b.graph.live.all (fun node => !(b.graph.drawn node).contains "CCZ")
        && decide (b.graph.depthFactories [⟨"T", 3⟩, ⟨"T", 2⟩] true = .ok 4) := by decide +kernel
  obtain ⟨b, built, runs⟩ := exists_ok_of_any runs
  obtain ⟨plan, scheduled, runs⟩ := exists_ok_of_any runs
  simp only [Bool.and_eq_true, beq_iff_eq, List.all_eq_true, Bool.not_eq_true', decide_eq_true_eq] at runs
  obtain ⟨⟨layers, idle⟩, depth⟩ := runs
  have reachable := reachable_pairOfGates built
  obtain ⟨orders, more⟩ := factories_unordered reachable 1 [⟨"T", 3⟩, ⟨"T", 2⟩]
  obtain ⟨same, bound, estimate⟩ := orders [⟨"T", 2⟩, ⟨"T", 3⟩] (.swap ..)
  have beside := more (Nat.le_refl 1) [⟨"CCZ", 1⟩] (by simpa using idle)
  exact ⟨b, plan, reachable, scheduled, layers, same ▸ scheduled, beside.trans scheduled, bound,
    (estimate true).symm.trans depth⟩

end LatticeSurgery
