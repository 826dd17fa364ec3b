import Mathlib.Data.List.Nodup
import LatticeSurgery.Proofs.Routing.Cycle

/-! # The progress of the nodes

Every node waits, is active for as long as it has left, and is finished. Its life says when: it is placed after its
producers are finished, counts as running for its whole duration from then on or, if it is a factory, from an earlier
cycle, and is finished in the cycle in which its counter runs out. Every action of a cycle keeps the stages in step
with the lives.
-/

namespace LatticeSurgery

/-- When a node is placed, since when it counts as running, and when it is finished. -/
structure Life where
  admitted : Nat
  start : Nat
  finish : Nat

/-- The life of a node that is not placed before a cycle. -/
def Life.after (cycle : Nat) : Life := ⟨cycle, cycle, cycle⟩

/-- A life that a node of the graph can have. -/
structure Graph.Lives (g : Graph) (id : NodeId) (life : Life) : Prop where
  lasts : ∃ node, g.node? id = some node ∧ life.finish = life.start + node.duration ∧
    (node.isFactory = false → life.start = life.admitted)
  begun : life.start ≤ life.admitted
  short : life.admitted < life.finish

namespace Run

variable {g : Graph} {r s : Run} {id : NodeId} {lag : Nat} {new gone : List NodeId} {life : NodeId → Life}

/-- The stages and the lists agree with the lives of the nodes. Those in `new` are placed in this cycle and those in
    `gone` finished in it. Between two cycles the counters lag one behind the clock. -/
structure Progress (g : Graph) (lag : Nat) (new gone : List NodeId) (life : NodeId → Life) (r : Run) : Prop where
  counted : ∀ id, id ∈ r.active ↔ ∃ n, r.stages[id]? = some (.active n)
  distinct : r.active.Nodup ∧ r.waiting.Nodup ∧ new.Nodup ∧ gone.Nodup
  queued : ∀ id ∈ r.waiting, id ∉ new → r.stages[id]? = some .waiting
  started : ∀ id ∈ new, ∃ n, r.stages[id]? = some (.active n)
  wanted : ∀ id stage, r.stages[id]? = some stage → g.isRetired id = false ∨ ∃ n, ∃ edge ∈ g.producers n, edge.node = id
  ready : ∀ id stage, r.stages[id]? = some stage → ∀ edge ∈ g.producers id, r.stages[edge.node]? = some .resolved
  lives : ∀ id stage, r.stages[id]? = some stage → stage ≠ .waiting →
    g.Lives id (life id) ∧ if id ∈ new then (life id).admitted = r.cycle else (life id).admitted < r.cycle
  follows : ∀ id stage, r.stages[id]? = some stage → stage ≠ .waiting → ∀ edge ∈ g.producers id,
    (life edge.node).finish ≤ (life id).admitted
  active : ∀ id n, r.stages[id]? = some (.active n) → 1 ≤ n ∧ (life id).finish + lag = r.cycle + n
  resolved : ∀ id, r.stages[id]? = some .resolved → (life id).finish + lag ≤ r.cycle
  gone : ∀ id, id ∈ gone ↔ r.stages[id]? = some .resolved ∧ (life id).finish = r.cycle

theorem stage_cases (r : Run) (id : NodeId) :
    (r.stages[id]? = none ∨ r.stages[id]? = some .waiting) ∨ ∃ stage, r.stages[id]? = some stage ∧ stage ≠ .waiting := by
  cases found : r.stages[id]? with
  | none => exact .inl (.inl rfl)
  | some stage =>
      by_cases waits : stage = .waiting
      · exact .inl (.inr (congrArg some waits))
      · exact .inr ⟨stage, rfl, waits⟩

theorem progress_start {floor : Floorplan} (life : NodeId → Life) : ({ floor } : Run).Progress g 1 [] [] life where
  counted := by simp
  distinct := ⟨.nil, .nil, .nil, .nil⟩
  queued := by simp
  started := by simp
  wanted := by simp
  ready := by simp
  lives := by simp
  follows := by simp
  active := by simp
  resolved := by simp
  gone := by simp

theorem Progress.floor (progress : r.Progress g lag new gone life) (floor : Floorplan) :
    ({ r with floor } : Run).Progress g lag new gone life :=
  ⟨progress.counted, progress.distinct, progress.queued, progress.started, progress.wanted, progress.ready,
    progress.lives, progress.follows, progress.active, progress.resolved, progress.gone⟩

theorem Progress.opened (progress : r.Progress g lag [] gone life) :
    ({ r with waiting := g.prioritise r.waiting, admitted := [] } : Run).Progress g lag [] gone life := by
  obtain ⟨active, waiting, rest⟩ := progress.distinct
  have order := sortBy_perm g.takesTurn r.waiting
  exact
    { progress with
      distinct := ⟨active, order.nodup_iff.mpr waiting, rest⟩
      queued := fun id member => progress.queued id (order.mem_iff.mp member) }

theorem Progress.not_mem_new (progress : r.Progress g lag new gone life)
    (unplaced : r.stages[id]? = none ∨ r.stages[id]? = some .waiting) : id ∉ new := by
  intro member
  obtain ⟨n, stage⟩ := progress.started id member
  rcases unplaced with none | waits
  · rw [none] at stage
    cases stage
  · rw [waits] at stage
    cases stage

/-- A node that came up was not taken out of a graph in which nothing reads from such nodes. -/
theorem Progress.not_isRetired (progress : r.Progress g lag new gone life)
    (alive : ∀ {n edge}, edge ∈ g.producers n → g.isRetired edge.node = false) {stage : Stage}
    (found : r.stages[id]? = some stage) : g.isRetired id = false := by
  rcases progress.wanted id stage found with here | ⟨n, edge, reads, rfl⟩
  · exact here
  · exact alive reads

/-! ## Waking -/

theorem stage_of_enqueue {n : NodeId} {stage : Stage} (found : (r.enqueue id).stages[n]? = some stage)
    (placed : stage ≠ .waiting) : r.stages[n]? = some stage := by
  rw [getElem?_stages_enqueue] at found
  split at found
  · exact absurd (Option.some.inj found).symm placed
  · exact found

theorem Progress.enqueue (progress : r.Progress g lag new gone life) (wakes : r.Wakes g id) :
    (r.enqueue id).Progress g lag new gone life := by
  have fresh := wakes.fresh
  have stages := r.getElem?_stages_enqueue id
  have kept : ∀ {n : NodeId} {stage : Stage}, r.stages[n]? = some stage → (r.enqueue id).stages[n]? = some stage :=
    fun found => getElem?_stages_enqueue_of_some fresh found
  have unlisted : id ∉ r.waiting := by
    intro member
    have waits := progress.queued id member (progress.not_mem_new (.inl fresh))
    rw [fresh] at waits
    cases waits
  constructor
  case counted =>
    intro n
    rw [show (r.enqueue id).active = r.active from rfl, progress.counted n]
    constructor
    · rintro ⟨k, found⟩
      exact ⟨k, kept found⟩
    · rintro ⟨k, found⟩
      exact ⟨k, stage_of_enqueue found (by simp)⟩
  case distinct =>
    obtain ⟨active, waiting, rest⟩ := progress.distinct
    refine ⟨active, ?_, rest⟩
    exact List.Nodup.append waiting (List.nodup_singleton _) (by simpa using unlisted)
  case queued =>
    intro n member old
    rcases List.mem_append.mp member with member | here
    · exact kept (progress.queued n member old)
    · rw [stages, if_pos (List.mem_singleton.mp here)]
  case started => exact fun n member => (progress.started n member).imp fun _ => kept
  case wanted =>
    intro n stage found
    rw [stages] at found
    split at found
    next here => exact here ▸ wakes.wanted
    · exact progress.wanted n stage found
  case ready =>
    intro n stage found edge member
    rw [stages] at found
    split at found
    next here =>
        rw [here] at member
        exact kept (wakes.ready edge member)
    · exact kept (progress.ready n stage found edge member)
  case lives => exact fun n stage found placed => progress.lives n stage (stage_of_enqueue found placed) placed
  case follows => exact fun n stage found placed => progress.follows n stage (stage_of_enqueue found placed) placed
  case active => exact fun n k found => progress.active n k (stage_of_enqueue found (by simp))
  case resolved => exact fun n found => progress.resolved n (stage_of_enqueue found (by simp))
  case gone =>
    intro n
    rw [progress.gone n]
    constructor
    · rintro ⟨found, ends⟩
      exact ⟨kept found, ends⟩
    · rintro ⟨found, ends⟩
      exact ⟨stage_of_enqueue found (by simp), ends⟩

/-! ## Counting down -/

theorem Progress.stage_countDown (progress : r.Progress g lag new gone life) (id : NodeId) :
    (∃ n, r.stages[id]? = some (.active n) ∧ id ∈ r.active ∧ r.remaining id = n ∧
        r.countDown.stages[id]? = some (if n ≤ 1 then .resolved else .active (n - 1))) ∨
      id ∉ r.active ∧ (∀ n, r.stages[id]? ≠ some (.active n)) ∧ r.countDown.stages[id]? = r.stages[id]? := by
  by_cases active : id ∈ r.active
  · obtain ⟨n, stage⟩ := (progress.counted id).mp active
    have counter : r.remaining id = n := by simp [remaining, stage]
    refine .inl ⟨n, stage, active, counter, ?_⟩
    rw [getElem?_stages_countDown, if_pos active, counter]
  · refine .inr ⟨active, fun n stage => active ((progress.counted id).mpr ⟨n, stage⟩), ?_⟩
    rw [getElem?_stages_countDown, if_neg active]

theorem Progress.stage_before (progress : r.Progress g lag new gone life) {stage : Stage}
    (found : r.countDown.stages[id]? = some stage) :
    ∃ old, r.stages[id]? = some old ∧ (stage ≠ .waiting → old ≠ .waiting) := by
  rcases progress.stage_countDown id with ⟨n, old, _⟩ | ⟨_, _, same⟩
  · exact ⟨.active n, old, by simp⟩
  · exact ⟨stage, same ▸ found, fun moved => moved⟩

theorem Progress.resolved_countDown (progress : r.Progress g lag new gone life)
    (found : r.stages[id]? = some .resolved) : r.countDown.stages[id]? = some .resolved := by
  rcases progress.stage_countDown id with ⟨n, old, _⟩ | ⟨_, _, same⟩
  · rw [found] at old
    cases old
  · exact same ▸ found

theorem Progress.countDown (progress : r.Progress g 1 [] [] life) : r.countDown.Progress g 0 [] r.expiring life := by
  constructor
  case counted =>
    intro id
    rw [mem_active_countDown]
    rcases progress.stage_countDown id with ⟨n, _, active, counter, stage⟩ | ⟨idle, still, stage⟩
    · rw [stage, counter]
      split
      next last => simp [Nat.not_lt.mpr last]
      next more => simp [active, Nat.lt_of_not_le more]
    · rw [stage]
      simp [idle, still]
  case distinct =>
    obtain ⟨active, waiting, _⟩ := progress.distinct
    exact ⟨active.filter _, waiting, .nil, active.filter _⟩
  case queued =>
    intro id member _
    have waits := progress.queued id member List.not_mem_nil
    rcases progress.stage_countDown id with ⟨n, stage, _⟩ | ⟨_, _, stage⟩
    · rw [waits] at stage
      cases stage
    · rw [stage, waits]
  case started => simp
  case wanted =>
    intro id stage found
    obtain ⟨old, found, _⟩ := progress.stage_before found
    exact progress.wanted id old found
  case ready =>
    intro id stage found edge member
    obtain ⟨old, found, _⟩ := progress.stage_before found
    exact progress.resolved_countDown (progress.ready id old found edge member)
  case lives =>
    intro id stage found placed
    obtain ⟨old, found, moved⟩ := progress.stage_before found
    exact progress.lives id old found (moved placed)
  case follows =>
    intro id stage found placed
    obtain ⟨old, found, moved⟩ := progress.stage_before found
    exact progress.follows id old found (moved placed)
  case active =>
    intro id n found
    rcases progress.stage_countDown id with ⟨k, old, _, _, counted⟩ | ⟨_, still, same⟩
    · rw [counted] at found
      have before := progress.active id k old
      have cycle : r.countDown.cycle = r.cycle := rfl
      split at found
      · cases found
      · cases found
        omega
    · exact absurd (same ▸ found) (still n)
  case resolved =>
    intro id found
    have cycle : r.countDown.cycle = r.cycle := rfl
    rcases progress.stage_countDown id with ⟨k, old, _, _, counted⟩ | ⟨_, _, same⟩
    · rw [counted] at found
      have before := progress.active id k old
      split at found
      · omega
      · cases found
    · have before := progress.resolved id (same ▸ found)
      omega
  case gone =>
    intro id
    have cycle : r.countDown.cycle = r.cycle := rfl
    rw [mem_expiring, cycle]
    rcases progress.stage_countDown id with ⟨k, old, active, counter, counted⟩ | ⟨idle, _, same⟩
    · have before := progress.active id k old
      rw [counted, counter]
      split
      next last =>
          simp only [active, true_and]
          omega
      next more => simp [more]
    · constructor
      · intro expires
        exact absurd expires.1 idle
      · rintro ⟨found, ends⟩
        have before := progress.resolved id (same ▸ found)
        omega

/-! ## Placing and closing -/

theorem Progress.settle {node : Node} {patches : List Coord} {start : Nat} {floor : Floorplan}
    (progress : r.Progress g 0 new gone life) (waits : r.stages[id]? = some .waiting)
    (known : g.node? id = some node) (begun : start ≤ r.cycle) (short : r.cycle < start + node.duration)
    (prompt : node.isFactory = false → start = r.cycle) :
    (r.settle id node patches start floor).Progress g 0 (new ++ [id]) gone
      (Function.update life id ⟨r.cycle, start, start + node.duration⟩) := by
  have stages : ∀ n, (r.settle id node patches start floor).stages[n]?
      = if n = id then some (.active (node.duration - (r.cycle - start))) else r.stages[n]? :=
    getElem?_stages_settle
  have cycle : (r.settle id node patches start floor).cycle = r.cycle := rfl
  have fresh := progress.not_mem_new (.inr waits)
  have idle : id ∉ r.active := by
    intro active
    obtain ⟨n, stage⟩ := (progress.counted id).mp active
    rw [waits] at stage
    cases stage
  have past : ∀ {n}, n ≠ id → Function.update life id ⟨r.cycle, start, start + node.duration⟩ n = life n :=
    fun differs => Function.update_of_ne differs _ _
  have apart : ∀ {n : NodeId}, r.stages[n]? = some .resolved → n ≠ id := by
    rintro n found rfl
    rw [waits] at found
    cases found
  have kept : ∀ {n : NodeId}, r.stages[n]? = some .resolved →
      (r.settle id node patches start floor).stages[n]? = some .resolved :=
    fun found => (stages _).trans ((if_neg (apart found)).trans found)
  constructor
  case counted =>
    intro n
    rw [stages]
    have members : n ∈ (r.settle id node patches start floor).active ↔ n ∈ r.active ∨ n = id := by simp [Run.settle]
    rw [members, progress.counted n]
    split
    next here => simp [here]
    next differs => simp [differs]
  case distinct =>
    obtain ⟨active, waiting, new, gone⟩ := progress.distinct
    refine ⟨List.Nodup.append active (List.nodup_singleton _) (by simpa using idle), waiting, ?_, gone⟩
    exact List.Nodup.append new (List.nodup_singleton _) (by simpa using fresh)
  case queued =>
    intro n member old
    rw [List.mem_append, List.mem_singleton, not_or] at old
    rw [stages, if_neg old.2]
    exact progress.queued n member old.1
  case started =>
    intro n member
    rw [stages]
    split
    · exact ⟨_, rfl⟩
    next differs => exact progress.started n (by simpa [differs] using member)
  case wanted =>
    intro n stage found
    rw [stages] at found
    split at found
    next here => exact here ▸ progress.wanted id _ waits
    · exact progress.wanted n stage found
  case ready =>
    intro n stage found edge member
    rw [stages] at found
    split at found
    next here =>
        rw [here] at member
        exact kept (progress.ready id _ waits edge member)
    · exact kept (progress.ready n stage found edge member)
  case lives =>
    intro n stage found placed
    rw [stages] at found
    split at found
    next here =>
        subst here
        rw [Function.update_self, if_pos (by simp)]
        exact ⟨⟨⟨node, known, rfl, prompt⟩, begun, short⟩, rfl⟩
    next differs =>
        obtain ⟨lives, began⟩ := progress.lives n stage found placed
        rw [past differs, cycle]
        exact ⟨lives, by simpa [differs] using began⟩
  case follows =>
    intro n stage found placed edge member
    rw [stages] at found
    split at found
    next here =>
        rw [here] at member
        have finished := progress.ready id _ waits edge member
        rw [here, Function.update_self, past (apart finished)]
        exact progress.resolved edge.node finished
    next differs =>
        rw [past differs, past (apart (progress.ready n stage found edge member))]
        exact progress.follows n stage found placed edge member
  case active =>
    intro n k found
    rw [stages] at found
    split at found
    next here =>
        cases found
        rw [here, Function.update_self, cycle]
        show _ ∧ start + node.duration + 0 = _
        omega
    next differs =>
        rw [past differs]
        exact progress.active n k found
  case resolved =>
    intro n found
    rw [stages] at found
    split at found
    · cases found
    next differs =>
        rw [past differs]
        exact progress.resolved n found
  case gone =>
    intro n
    rw [progress.gone n, stages, cycle]
    split
    next here => simp [here, waits]
    next differs => rw [past differs]

theorem Progress.close {limit : Nat} (progress : r.Progress g 0 r.admitted gone life)
    (h : r.close limit gone = .again s) : s.Progress g 1 [] [] life := by
  obtain ⟨idle, rfl⟩ := close_eq_again h
  constructor
  case counted => exact progress.counted
  case distinct =>
    obtain ⟨active, waiting, _⟩ := progress.distinct
    exact ⟨active, waiting.filter _, .nil, .nil⟩
  case queued =>
    intro id member _
    obtain ⟨listed, old⟩ := List.mem_filter.mp member
    exact progress.queued id listed (by simpa using old)
  case started => simp
  case wanted => exact progress.wanted
  case ready => exact progress.ready
  case lives =>
    intro id stage found placed
    obtain ⟨lives, began⟩ := progress.lives id stage found placed
    refine ⟨lives, ?_⟩
    rw [if_neg List.not_mem_nil]
    dsimp only
    split at began <;> omega
  case follows => exact progress.follows
  case active =>
    intro id n found
    have ends := progress.active id n found
    dsimp only
    omega
  case resolved =>
    intro id found
    have ends := progress.resolved id found
    dsimp only
    omega
  case gone =>
    intro id
    simp only [List.not_mem_nil, false_iff, not_and]
    intro found
    have ends := progress.resolved id found
    omega

end Run

end LatticeSurgery
