import Mathlib.Data.List.Sort
import LatticeSurgery.Proofs.Chains.Rebinding
import LatticeSurgery.Proofs.Routing.History

/-! # Life cycles in a timeline

A finished timeline tells the whole life of every live node and of no other, and a node is placed only
when everything it reads from is finished. Operations on an exclusive resource therefore follow each other.
-/

namespace LatticeSurgery

/-- A timeline shows a node placed in one cycle, finished in one cycle, and active in all those of its life,
    even the ones before it was placed. -/
structure Timeline.Tells (t : Timeline) (id : NodeId) (life : Life) : Prop where
  admitted : (t.cycles.filter (·.admitted.contains id)).map (·.cycle) = [life.admitted]
  active : (t.cycles.filter (·.active.contains id)).map (·.cycle) = List.range' life.start (life.finish - life.start)
  resolved : (t.cycles.filter (·.resolved.contains id)).map (·.cycle) = [life.finish]
  once : ∀ record ∈ t.cycles, record.admitted.count id ≤ 1 ∧ record.active.count id ≤ 1 ∧ record.resolved.count id ≤ 1

/-! ## Reading a life off the records -/

section Records

variable {records : Array CycleRecord} {id : NodeId}
  (dated : ∀ (i : Nat) record, records[i]? = some record → record.cycle = i)
include dated

theorem pairwise_cycle_lt : records.toList.Pairwise (·.cycle < ·.cycle) := by
  rw [List.pairwise_iff_getElem]
  intro i j first second below
  have found : ∀ (k : Nat) (inside : k < records.toList.length), (records.toList[k]).cycle = k := by
    intro k inside
    apply dated
    rw [← Array.getElem?_toList]
    exact List.getElem?_eq_getElem inside
  rw [found i first, found j second]
  exact below

theorem cycles_of_listed {names : CycleRecord → List NodeId} {first last : Nat}
    (listed : Listed records names id first last) (within : last ≤ records.size)
    (busy : ∀ record, id ∈ names record → record.isIdle = false) :
    ((records.toList.filter (!·.isIdle)).filter fun record => (names record).contains id).map (·.cycle)
      = List.range' first (last - first) := by
  -- both sides increase, so their members tell them apart
  apply List.Pairwise.eq_of_mem_iff (r := (· < ·))
  · rw [List.pairwise_map]
    exact ((pairwise_cycle_lt dated).filter _).filter _
  · exact List.pairwise_lt_range'
  · intro i
    rw [List.mem_range'_1]
    constructor
    · intro member
      obtain ⟨record, shown, rfl⟩ := List.mem_map.mp member
      obtain ⟨shown, named⟩ := List.mem_filter.mp shown
      obtain ⟨k, found⟩ := Array.getElem?_of_mem (Array.mem_toList_iff.mp (List.mem_of_mem_filter shown))
      have counted := listed k record found
      have named := List.count_pos_iff.mpr (List.contains_iff_mem.mp named)
      rw [dated k record found]
      split at counted <;> omega
    · intro window
      obtain ⟨record, found⟩ : ∃ record, records[i]? = some record :=
        ⟨records[i], Array.getElem?_eq_getElem (by omega)⟩
      have counted := listed i record found
      rw [if_pos (by omega)] at counted
      have named : id ∈ names record := List.count_pos_iff.mp (by omega)
      refine List.mem_map.mpr ⟨record, ?_, dated i record found⟩
      simp only [List.mem_filter, List.contains_iff_mem, Bool.not_eq_true']
      exact ⟨⟨Array.mem_toList_iff.mpr (Array.mem_of_getElem? found), busy record named⟩, named⟩

theorem tells_of_recorded {life : Life} {routes : NodeMap (List Coord)} (recorded : Recorded records id life)
    (placed : life.admitted < life.finish) (finished : life.finish < records.size) :
    Timeline.Tells { cycles := records.toList.filter (!·.isIdle), routes } id life where
  admitted := by
    rw [cycles_of_listed dated recorded.admitted (by omega), Nat.add_sub_cancel_left]
    · rfl
    · intro record named
      simp [CycleRecord.isIdle, List.ne_nil_of_mem named]
  active := by
    apply cycles_of_listed dated recorded.active (by omega)
    intro record named
    simp [CycleRecord.isIdle, List.ne_nil_of_mem named]
  resolved := by
    rw [cycles_of_listed dated recorded.resolved (by omega), Nat.add_sub_cancel_left]
    · rfl
    · intro record named
      simp [CycleRecord.isIdle, List.ne_nil_of_mem named]
  once := by
    intro record member
    obtain ⟨i, found⟩ := Array.getElem?_of_mem (Array.mem_toList_iff.mp (List.mem_of_mem_filter member))
    rw [recorded.admitted i record found, recorded.active i record found, recorded.resolved i record found]
    refine ⟨?_, ?_, ?_⟩ <;> split <;> omega

end Records

theorem Graph.Lives.start_eq {g : Graph} {id : NodeId} {life : Life} (lives : g.Lives id life)
    (operation : g.isFactory id = false) : life.start = life.admitted := by
  obtain ⟨node, found, _, prompt⟩ := lives.lasts
  exact prompt (isFactory_of_node? found ▸ operation)

/-! ## The nodes of a finished run -/

section Finished

variable {g : Graph} {life : NodeId → Life} (joined : g.Joined)
include joined

/-- What is read, directly or not, from a node comes after it. -/
theorem Graph.finish_le_of_feeds (lives : ∀ id ∈ g.liveIds, g.Lives id (life id))
    (follows : ∀ id ∈ g.liveIds, ∀ edge ∈ g.producers id, (life edge.node).finish ≤ (life id).admitted)
    {a b : NodeId} (path : Relation.TransGen g.Feeds a b) : (life a).finish ≤ (life b).admitted := by
  induction path with
  | single edge =>
      obtain ⟨symbol, edge⟩ := edge
      exact follows _ (joined.reader_live edge) _ edge
  | tail _ edge ih =>
      obtain ⟨symbol, edge⟩ := edge
      have last := follows _ (joined.reader_live edge) _ edge
      have short := (lives _ (joined.producer_live edge)).short
      dsimp only at last short
      omega

theorem Graph.finish_le_start (lives : ∀ id ∈ g.liveIds, g.Lives id (life id))
    (follows : ∀ id ∈ g.liveIds, ∀ edge ∈ g.producers id, (life edge.node).finish ≤ (life id).admitted)
    {older younger : NodeId} (alive : younger ∈ g.liveIds) (below : older < younger) {symbol : Symbol}
    (first : symbol ∈ g.targetsOf older) (second : symbol ∈ g.targetsOf younger)
    (kind : g.kind? symbol = some .exclusive) : (life older).finish ≤ (life younger).start := by
  have exclusive : g.isMagic symbol = false := by simp [isMagic, kind]
  have operation : g.isFactory younger = false := by
    rw [Bool.eq_false_iff]
    intro factory
    rw [joined.makes factory second] at exclusive
    cases exclusive
  rw [(lives younger alive).start_eq operation]
  exact finish_le_of_feeds joined lives follows (joined.feeds_of_exclusive below first second exclusive)

variable {r : Run} {lag : Nat} {new gone : List NodeId} (history : r.History g lag new gone life)
include history

theorem Run.History.mem_routes_iff (finished : ∀ id ∈ g.liveIds, r.stages[id]? = some .resolved) (id : NodeId) :
    id ∈ r.routes ↔ id ∈ g.liveIds := by
  rw [Std.ExtTreeMap.mem_iff_isSome_getElem?, Option.isSome_iff_exists]
  constructor
  · rintro ⟨patches, route⟩
    obtain ⟨stage, known, moved⟩ := history.stage_of_route route
    obtain ⟨node, found, _⟩ := (history.lives id stage known moved).1.lasts
    have alive : ∀ {n edge}, edge ∈ g.producers n → g.isRetired edge.node = false :=
      fun member => ((Graph.mem_liveIds joined.numbered).mp (joined.producer_live member)).2
    exact (Graph.mem_liveIds joined.numbered).mpr ⟨Graph.lt_nextId found, history.not_isRetired alive known⟩
  · intro alive
    exact (history.placed id _ (finished id alive) (by simp)).2

end Finished

/-- A timeline places the live nodes and no others. It tells of each of them one life, in which it is placed
    after its producers are finished, so the operations on an exclusive resource run one after the other. -/
theorem lifecycle_of_route {b : Builder} {g : Graph} (reachable : b.Reachable) (plain : b.graph.Plain)
    (rewritten : Relation.ReflTransGen Graph.Rewrites b.graph g) {f left : Floorplan} {limit : Nat} {t : Timeline}
    (routed : f.route g limit = .ok (t, left)) :
    (∀ id, id ∈ t.routes ↔ id ∈ g.liveIds) ∧ t.cycles.Pairwise (·.cycle < ·.cycle) ∧
    ∃ life : NodeId → Life,
      (∀ id ∈ g.liveIds, t.Tells id (life id) ∧ g.Lives id (life id) ∧
        ∀ edge ∈ g.producers id, (life edge.node).finish ≤ (life id).admitted) ∧
      ∀ older ∈ g.liveIds, ∀ younger ∈ g.liveIds, older < younger →
        ∀ symbol ∈ g.targetsOf older, symbol ∈ g.targetsOf younger → g.kind? symbol = some .exclusive →
          (life older).finish ≤ (life younger).start := by
  obtain ⟨level, formed, _⟩ := Graph.formed_of_rewritten reachable plain rewritten
  have joined := formed.joined
  obtain ⟨r, reached, finished, rfl⟩ := Floorplan.reaches_of_route routed
  obtain ⟨life, history⟩ := Run.history_of_reaches reached
  have lives : ∀ id ∈ g.liveIds, g.Lives id (life id) :=
    fun id inside => (history.lives id _ (finished id inside) (by simp)).1
  have follows : ∀ id ∈ g.liveIds, ∀ edge ∈ g.producers id, (life edge.node).finish ≤ (life id).admitted :=
    fun id inside => history.follows id _ (finished id inside) (by simp)
  refine ⟨history.mem_routes_iff joined finished, (pairwise_cycle_lt history.dated).filter _, life, ?_, ?_⟩
  · intro id inside
    have recorded := (history.placed id _ (finished id inside) (by simp)).1
    have ended := history.resolved id (finished id inside)
    rw [← history.timely] at ended
    exact ⟨tells_of_recorded history.dated recorded (lives id inside).short ended, lives id inside, follows id inside⟩
  · intro older _ younger inside below symbol first second kind
    exact Graph.finish_le_start joined lives follows inside below first second kind

def lineOfPatches (row : Nat) (kinds : List PatchKind) : List Patch :=
  kinds.mapIdx fun col kind => { coord := ⟨row, col⟩, kind, orientation := .z }

/-- Two registers with the output of a factory between them, all of them above a channel. -/
def pairFloor : Floorplan where
  layout :=
    { cols := 5
      rows := [lineOfPatches 0 [.register, .route, .external, .route, .register], lineOfPatches 1 (.replicate 5 .route)] }
  book := ((({} : AddressBook).bind "a" ⟨0, 0⟩).bind "b" ⟨0, 4⟩).bind "T#0" ⟨0, 2⟩

/-- The first unit of the factory is asked for in cycle 1, when the registers are ready, and counts as begun in
    cycle 0. -/
theorem lifecycle_of_route_backdated :
    ∃ (b : Builder) (chains : Chains) (g : Graph) (t : Timeline) (left : Floorplan), b.Reachable ∧ b.graph.Plain ∧
      b.graph.bindInstances 1 [⟨"T", 3⟩] = .ok (chains, g) ∧ pairFloor.route g 3 = .ok (t, left) ∧
      ∃ life : NodeId → Life, t.Tells 6 (life 6) ∧ (life 6).admitted = 1 ∧ (life 6).start = 0 ∧ (life 6).finish = 3 ∧
        (life 6).finish ≤ (life 3).admitted ∧ (life 3).finish ≤ (life 5).start := by
  have runs : pairOfGates.toOption.any fun b =>
      (b.graph.bindInstances 1 [⟨"T", 3⟩]).toOption.any fun bound =>
        (pairFloor.route bound.2 3).toOption.any fun routed =>
          decide b.graph.Plain
            && bound.2.liveIds == [0, 1, 3, 4, 5, 6, 7] && (bound.2.node? 6).map (·.duration) == some 3
            && bound.2.producers 3 == [⟨"a", 0⟩, ⟨"T#0", 6⟩]
            && (bound.2.targetsOf 3).contains "a" && (bound.2.targetsOf 5).contains "a"
            && bound.2.kind? "a" == some .exclusive
            && (routed.1.cycles.filter (·.admitted.contains 6)).map (·.cycle) == [1]
            && (routed.1.cycles.filter (·.resolved.contains 6)).map (·.cycle) == [3] := by decide +kernel
  obtain ⟨b, built, runs⟩ := exists_ok_of_any runs
  obtain ⟨⟨chains, g⟩, bound, runs⟩ := exists_ok_of_any runs
  obtain ⟨⟨t, left⟩, routed, runs⟩ := exists_ok_of_any runs
  simp only [Bool.and_eq_true, beq_iff_eq, List.contains_iff_mem, decide_eq_true_eq] at runs
  obtain ⟨⟨⟨⟨⟨⟨⟨⟨plain, alive⟩, duration⟩, producers⟩, first⟩, second⟩, kind⟩, placed⟩, ended⟩ := runs
  have reachable := reachable_pairOfGates built
  obtain ⟨_, _, life, lives, serial⟩ := lifecycle_of_route reachable plain (.tail .refl (.bound bound)) routed
  obtain ⟨tells, ⟨⟨node, found, lasts, _⟩, _, _⟩, _⟩ := lives 6 (by simp [alive])
  have reads := (lives 3 (by simp [alive])).2.2 ⟨"T#0", 6⟩ (by simp [producers])
  have duration : node.duration = 3 := by simpa [found] using duration
  have placed : (life 6).admitted = 1 := List.singleton_inj.mp (tells.admitted.symm.trans placed)
  have ended : (life 6).finish = 3 := List.singleton_inj.mp (tells.resolved.symm.trans ended)
  exact ⟨b, chains, g, t, left, reachable, plain, bound, routed, life, tells, placed, by omega, ended, reads,
    serial 3 (by simp [alive]) 5 (by simp [alive]) (by decide) "a" first second kind⟩

end LatticeSurgery
