import LatticeSurgery.Proofs.Routing.Progress

/-! # The history of a run

The records tell the lives of the nodes at every moment of a run: placing a factory late writes it into records of the
past, and closing a cycle adds one more. Whatever else every action of a run keeps is carried along with the history.
-/

namespace LatticeSurgery

/-- The records name a node once in each cycle from `first` on and before `last`, and in no other. -/
def Listed (records : Array CycleRecord) (names : CycleRecord → List NodeId) (id : NodeId) (first last : Nat) : Prop :=
  ∀ (i : Nat) record, records[i]? = some record → (names record).count id = if first ≤ i ∧ i < last then 1 else 0

structure Recorded (records : Array CycleRecord) (id : NodeId) (life : Life) : Prop where
  admitted : Listed records (·.admitted) id life.admitted (life.admitted + 1)
  active : Listed records (·.active) id life.start life.finish
  resolved : Listed records (·.resolved) id life.finish (life.finish + 1)

theorem Listed.push {records : Array CycleRecord} {names : CycleRecord → List NodeId} {id : NodeId} {first last : Nat}
    (listed : Listed records names id first last) {record : CycleRecord}
    (here : (names record).count id = if first ≤ records.size ∧ records.size < last then 1 else 0) :
    Listed (records.push record) names id first last := by
  intro i found inside
  rw [Array.getElem?_push] at inside
  split at inside
  next same =>
      cases inside
      rw [same]
      exact here
  · exact listed i found inside

theorem Listed.later {records : Array CycleRecord} {names : CycleRecord → List NodeId} {id : NodeId} {first last : Nat}
    (listed : Listed records names id first last) (ahead : records.size ≤ first) (first' last' : Nat)
    (ahead' : records.size ≤ first') : Listed records names id first' last' := by
  intro i record found
  have inside := (Array.getElem?_eq_some_iff.mp found).1
  rw [listed i record found, if_neg (by omega), if_neg (by omega)]

namespace Run

variable {g : Graph} {r s : Run} {id : NodeId} {lag : Nat} {new gone : List NodeId} {life : NodeId → Life}

/-- The records agree with the lives of the nodes, and the placed nodes have routes. -/
structure History (g : Graph) (lag : Nat) (new gone : List NodeId) (life : NodeId → Life) (r : Run) : Prop
    extends Progress g lag new gone life r where
  timely : r.records.size = r.cycle
  dated : ∀ (i : Nat) record, r.records[i]? = some record → record.cycle = i
  unplaced : ∀ id, r.stages[id]? = none ∨ r.stages[id]? = some .waiting →
    Recorded r.records id (.after r.cycle) ∧ r.routes[id]? = none
  placed : ∀ id stage, r.stages[id]? = some stage → stage ≠ .waiting →
    Recorded r.records id (life id) ∧ ∃ patches, r.routes[id]? = some patches

theorem History.stage_of_route (history : r.History g lag new gone life) {patches : List Coord}
    (route : r.routes[id]? = some patches) : ∃ stage, r.stages[id]? = some stage ∧ stage ≠ .waiting := by
  rcases r.stage_cases id with unplaced | placed
  · rw [(history.unplaced id unplaced).2] at route
    cases route
  · exact placed

/-- Who is listed as active in a cycle is placed and lives in that cycle. -/
theorem History.lives_of_mem_active (history : r.History g lag new gone life) {i : Nat} {record : CycleRecord}
    (found : r.records[i]? = some record) (member : id ∈ record.active) :
    (∃ patches, r.routes[id]? = some patches) ∧ (life id).start ≤ i ∧ i < (life id).finish := by
  have listed := List.count_pos_iff.mpr member
  rcases r.stage_cases id with unplaced | ⟨stage, known, placed⟩
  · have unseen : record.active.count id = _ := (history.unplaced id unplaced).1.active i record found
    rw [if_neg (by simp only [Life.after]; omega)] at unseen
    omega
  · obtain ⟨recorded, route⟩ := history.placed id stage known placed
    have window : record.active.count id = _ := recorded.active i record found
    refine ⟨route, ?_⟩
    split at window
    next inside => exact inside
    · omega

/-! ## Before and after waking -/

theorem history_start {floor : Floorplan} (life : NodeId → Life) : ({ floor } : Run).History g 1 [] [] life where
  toProgress := progress_start life
  timely := rfl
  dated := by simp
  unplaced := by
    intro id _
    refine ⟨⟨?_, ?_, ?_⟩, by simp⟩
    all_goals intro i record found
    all_goals simp at found
  placed := by simp

theorem History.floor (history : r.History g lag new gone life) (floor : Floorplan) :
    ({ r with floor } : Run).History g lag new gone life :=
  ⟨history.toProgress.floor floor, history.timely, history.dated, history.unplaced, history.placed⟩

theorem History.opened (history : r.History g lag [] gone life) :
    ({ r with waiting := g.prioritise r.waiting, admitted := [] } : Run).History g lag [] gone life :=
  ⟨history.toProgress.opened, history.timely, history.dated, history.unplaced, history.placed⟩

theorem History.enqueue (history : r.History g lag new gone life) (wakes : r.Wakes g id) :
    (r.enqueue id).History g lag new gone life where
  toProgress := history.toProgress.enqueue wakes
  timely := history.timely
  dated := history.dated
  unplaced := by
    intro n stage
    apply history.unplaced n
    rw [getElem?_stages_enqueue] at stage
    split at stage
    next here => exact .inl (here ▸ wakes.fresh)
    · exact stage
  placed := fun n stage found placed => history.placed n stage (stage_of_enqueue found placed) placed

theorem History.countDown (history : r.History g 1 [] [] life) : r.countDown.History g 0 [] r.expiring life where
  toProgress := history.toProgress.countDown
  timely := history.timely
  dated := history.dated
  unplaced := by
    intro id stage
    apply history.unplaced id
    rcases history.stage_countDown id with ⟨n, _, _, _, counted⟩ | ⟨_, _, same⟩
    · rw [counted] at stage
      split at stage <;> simp at stage
    · exact same ▸ stage
  placed := by
    intro id stage found placed
    obtain ⟨old, found, moved⟩ := history.stage_before found
    exact history.placed id old found (moved placed)

/-! ## Placing -/

theorem getElem?_backdate {start i : Nat} {record : CycleRecord} (found : (r.backdate id start)[i]? = some record) :
    ∃ old, r.records[i]? = some old ∧
      record = { old with active := old.active ++ if start ≤ i then [id] else [] } := by
  rw [backdate, Array.getElem?_mapIdx] at found
  obtain ⟨old, inside, rfl⟩ := Option.map_eq_some_iff.mp found
  refine ⟨old, inside, ?_⟩
  split
  · rfl
  · rw [List.append_nil]

/-- A record of the past changes for the node that is placed only. -/
theorem recorded_backdate {other : NodeId} {past : Life} (recorded : Recorded r.records other past) (differs : other ≠ id)
    (start : Nat) : Recorded (r.backdate id start) other past := by
  constructor
  · intro i record found
    obtain ⟨old, inside, rfl⟩ := getElem?_backdate found
    exact recorded.admitted i old inside
  · intro i record found
    obtain ⟨old, inside, rfl⟩ := getElem?_backdate found
    rw [← recorded.active i old inside, List.count_append]
    split
    · simp [Ne.symm differs]
    · rfl
  · intro i record found
    obtain ⟨old, inside, rfl⟩ := getElem?_backdate found
    exact recorded.resolved i old inside

theorem History.recorded_settle (history : r.History g 0 new gone life) (waits : r.stages[id]? = some .waiting)
    {start finish : Nat} (short : r.cycle < finish) :
    Recorded (r.backdate id start) id ⟨r.cycle, start, finish⟩ := by
  have recorded := (history.unplaced id (.inr waits)).1
  have bound : ∀ {i : Nat} {old}, r.records[i]? = some old → i < r.cycle := by
    intro i old found
    rw [← history.timely]
    exact (Array.getElem?_eq_some_iff.mp found).1
  constructor
  · intro i record found
    obtain ⟨old, inside, rfl⟩ := getElem?_backdate found
    exact recorded.admitted i old inside
  · intro i record found
    obtain ⟨old, inside, rfl⟩ := getElem?_backdate found
    have before := bound inside
    have unseen := recorded.active i old inside
    rw [if_neg (by simp only [Life.after]; omega)] at unseen
    rw [List.count_append, unseen]
    split
    next later => rw [if_pos (by dsimp only; omega)]; simp
    next earlier => rw [if_neg (by dsimp only; omega)]; rfl
  · intro i record found
    obtain ⟨old, inside, rfl⟩ := getElem?_backdate found
    have before := bound inside
    have unseen := recorded.resolved i old inside
    rw [if_neg (by simp only [Life.after]; omega)] at unseen
    rw [unseen, if_neg (by dsimp only; omega)]

theorem History.settle {node : Node} {patches : List Coord} {start : Nat} {floor : Floorplan}
    (history : r.History g 0 new gone life) (waits : r.stages[id]? = some .waiting)
    (known : g.node? id = some node) (begun : start ≤ r.cycle) (short : r.cycle < start + node.duration)
    (prompt : node.isFactory = false → start = r.cycle) :
    (r.settle id node patches start floor).History g 0 (new ++ [id]) gone
      (Function.update life id ⟨r.cycle, start, start + node.duration⟩) where
  toProgress := history.toProgress.settle waits known begun short prompt
  timely := by
    show (r.backdate id start).size = r.cycle
    rw [← history.timely]
    exact Array.size_mapIdx
  dated := by
    intro i record found
    obtain ⟨old, inside, rfl⟩ := getElem?_backdate found
    exact history.dated i old inside
  unplaced := by
    intro n stage
    rw [getElem?_stages_settle] at stage
    split at stage
    · simp at stage
    next differs =>
        obtain ⟨recorded, route⟩ := history.unplaced n stage
        rw [getElem?_routes_settle, if_neg differs]
        exact ⟨recorded_backdate recorded differs start, route⟩
  placed := by
    intro n stage found placed
    rw [getElem?_stages_settle] at found
    rw [getElem?_routes_settle]
    split at found
    next here =>
        subst here
        rw [Function.update_self, if_pos rfl]
        exact ⟨history.recorded_settle waits short, patches, rfl⟩
    next differs =>
        obtain ⟨recorded, route⟩ := history.placed n stage found placed
        rw [Function.update_of_ne differs, if_neg differs]
        exact ⟨recorded_backdate recorded differs start, route⟩

theorem History.admits {node : Node} {patches : List Coord} {asked floor : Floorplan}
    (history : r.History g 0 new gone life) (waits : r.stages[id]? = some .waiting)
    (admits : r.Admits g id node patches asked floor) :
    (r.settle id node patches (asked.startOf node r.cycle) floor).History g 0 (new ++ [id]) gone
      (Function.update life id ⟨r.cycle, asked.startOf node r.cycle, asked.startOf node r.cycle + node.duration⟩) := by
  have fits := admits.fits
  refine history.settle waits admits.known fits.begun fits.short fun operation => ?_
  rw [Floorplan.startOf, operation]
  rfl

/-! ## Closing a cycle -/

theorem History.recorded_close (history : r.History g 0 r.admitted gone life) {stage : Stage}
    (found : r.stages[id]? = some stage) (placed : stage ≠ .waiting) :
    Recorded (r.records.push { cycle := r.cycle, admitted := r.admitted, active := r.active, resolved := gone }) id
      (life id) := by
  obtain ⟨lives, began⟩ := history.lives id stage found placed
  obtain ⟨recorded, _⟩ := history.placed id stage found placed
  obtain ⟨active, _, new, left⟩ := history.distinct
  have begun := lives.begun
  have short := lives.short
  refine ⟨recorded.admitted.push ?_, recorded.active.push ?_, recorded.resolved.push ?_⟩
  · rw [new.count, history.timely]
    split at began
    next here => rw [if_pos here, if_pos (by omega)]
    next earlier => rw [if_neg earlier, if_neg (by omega)]
  · have now : (life id).start ≤ r.cycle := by split at began <;> omega
    rw [active.count, history.timely]
    cases stage with
    | waiting => exact absurd rfl placed
    | active n =>
        have ends := history.active id n found
        rw [if_pos ((history.counted id).mpr ⟨n, found⟩), if_pos (by omega)]
    | resolved =>
        have ends := history.resolved id found
        have idle : id ∉ r.active := by simp [history.counted id, found]
        rw [if_neg idle, if_neg (by omega)]
  · rw [left.count, history.timely]
    by_cases here : id ∈ gone
    · have ends := ((history.gone id).mp here).2
      rw [if_pos here, if_pos (by omega)]
    · rw [if_neg here, if_neg]
      rintro ⟨upto, below⟩
      have ends : (life id).finish = r.cycle := by omega
      cases stage with
      | waiting => exact placed rfl
      | active n =>
          have later := history.active id n found
          omega
      | resolved => exact here ((history.gone id).mpr ⟨found, ends⟩)

theorem History.unplaced_close (history : r.History g 0 r.admitted gone life)
    (unplaced : r.stages[id]? = none ∨ r.stages[id]? = some .waiting) :
    Recorded (r.records.push { cycle := r.cycle, admitted := r.admitted, active := r.active, resolved := gone }) id
      (.after (r.cycle + 1)) := by
  have recorded := (history.unplaced id unplaced).1
  have old := history.not_mem_new unplaced
  have inactive : id ∉ r.active := by
    rw [history.counted id]
    rcases unplaced with none | waits <;> simp [*]
  have stays : id ∉ gone := by
    rw [history.gone id]
    rcases unplaced with none | waits <;> simp [*]
  have size := Nat.le_of_eq history.timely
  have ahead : r.records.size ≤ r.cycle + 1 := by omega
  have timely := history.timely
  constructor
  · refine (recorded.admitted.later size (r.cycle + 1) _ ahead).push ?_
    rw [List.count_eq_zero.mpr old, if_neg (by omega)]
  · refine (recorded.active.later size (r.cycle + 1) _ ahead).push ?_
    rw [List.count_eq_zero.mpr inactive, if_neg (by omega)]
  · refine (recorded.resolved.later size (r.cycle + 1) _ ahead).push ?_
    rw [List.count_eq_zero.mpr stays, if_neg (by omega)]

theorem History.close {limit : Nat} (history : r.History g 0 r.admitted gone life)
    (h : r.close limit gone = .again s) : s.History g 1 [] [] life := by
  have progress := history.toProgress.close h
  obtain ⟨idle, rfl⟩ := close_eq_again h
  refine { progress with timely := ?_, dated := ?_, unplaced := ?_, placed := ?_ }
  · simp [history.timely]
  · intro i record found
    rw [Array.getElem?_push, history.timely] at found
    split at found
    next here => cases found; exact here.symm
    · exact history.dated i record found
  · exact fun id unplaced => ⟨history.unplaced_close unplaced, (history.unplaced id unplaced).2⟩
  · exact fun id stage found placed => ⟨history.recorded_close found placed, (history.placed id stage found placed).2⟩

/-! ## Every cycle of a run -/

/-- Every action of a run keeps a property of the lives and the state, given the history so far. -/
structure Keeps (g : Graph) (I : (NodeId → Life) → Run → Prop) : Prop where
  depends : ∀ life t s, s.floor = t.floor → s.stages = t.stages → s.routes = t.routes → I life t → I life s
  counted : ∀ life t, t.History g 1 [] [] life → I life t → I life t.countDown
  released : ∀ life t gone id node, t.History g 0 [] gone life → I life t → id ∈ gone → g.node? id = some node →
    I life { t with floor := t.floor.release node (t.routes.getD id []) }
  woken : ∀ life t id, I life t → t.Wakes g id → I life (t.enqueue id)
  skipped : ∀ life t pending, I life t →
    I life { t with floor := { t.floor with book := { t.floor.book with pending } } }
  settled : ∀ life t new gone id node patches asked floor, t.History g 0 new gone life → I life t →
    t.stages[id]? = some .waiting → t.Admits g id node patches asked floor →
    I (Function.update life id ⟨t.cycle, asked.startOf node t.cycle, asked.startOf node t.cycle + node.duration⟩)
      (t.settle id node patches (asked.startOf node t.cycle) floor)

theorem keeps_true (g : Graph) : Keeps g fun _ _ => True := by constructor <;> simp

theorem Keeps.turnover {I : (NodeId → Life) → Run → Prop} (keeps : Keeps g I) (history : r.History g 1 [] [] life)
    (holds : I life r) : (r.turnover g).History g 0 [] r.expiring life ∧ I life (r.turnover g) := by
  refine turnover_induction (P := fun t => t.History g 0 [] r.expiring life ∧ I life t) ?_ ?_ ?_
  · exact ⟨history.countDown, keeps.counted life r history holds⟩
  · rintro t id node ⟨history, holds⟩ expires known
    exact ⟨history.floor _, keeps.released life t r.expiring id node history holds expires known⟩
  · rintro t id ⟨history, holds⟩ wakes
    exact ⟨history.enqueue wakes, keeps.woken life t id holds wakes⟩

theorem History.turnover (history : r.History g 1 [] [] life) : (r.turnover g).History g 0 [] r.expiring life :=
  ((keeps_true g).turnover history trivial).1

theorem History.queued_turnover (history : r.History g 1 [] [] life) : (r.turnover g).Queued where
  distinct := (history.turnover (g := g)).distinct.2.1
  waiting id member := (history.turnover (g := g)).queued id member List.not_mem_nil

/-- What the actions keep also holds when only some of the waiting nodes have had their turns. -/
theorem Keeps.admitAll {I : (NodeId → Life) → Run → Prop} {queue : List NodeId} (keeps : Keeps g I)
    (history : r.History g 1 [] [] life) (holds : I life r)
    (part : queue.Sublist (g.prioritise (r.turnover g).waiting))
    (ran : ({ r.turnover g with waiting := g.prioritise (r.turnover g).waiting, admitted := [] } : Run).admitAll g queue
      = .ok s) :
    ∃ life, s.History g 0 s.admitted r.expiring life ∧ I life s := by
  obtain ⟨turned, holds⟩ := keeps.turnover history holds
  have queued : (r.turnover g).Queued := history.queued_turnover
  have order := sortBy_perm g.takesTurn (r.turnover g).waiting
  refine admitAll_induction (P := fun t => ∃ life, t.History g 0 t.admitted r.expiring life ∧ I life t)
    ?_ ?_ ((order.nodup_iff.mpr queued.distinct).sublist part) ?_ ?_ ran
  · rintro t pending ⟨life, history, holds⟩
    exact ⟨life, history.floor _, keeps.skipped life t pending holds⟩
  · rintro t id node patches asked floor ⟨life, history, holds⟩ waits admits
    exact ⟨_, history.admits waits admits, keeps.settled life t _ _ id node patches asked floor history holds waits admits⟩
  · exact fun id member => queued.waiting id (order.mem_iff.mp (part.subset member))
  · exact ⟨life, turned.opened, keeps.depends life (r.turnover g) _ rfl rfl rfl holds⟩

/-- A run keeps its history and whatever else its actions keep. -/
theorem Keeps.of_reaches {I : (NodeId → Life) → Run → Prop} {f : Floorplan} {limit : Nat} (keeps : Keeps g I)
    (begins : I (fun _ => .after 0) { floor := f }) (reached : Reaches (step g limit) (start g f) r) :
    ∃ life, r.History g 1 [] [] life ∧ I life r := by
  refine reached.invariant (P := fun r => ∃ life, r.History g 1 [] [] life ∧ I life r) ?_ ?_
  · rintro r s ⟨life, history, holds⟩ next
    obtain ⟨t, admitted, closed⟩ := step_eq_again next
    obtain ⟨life, history, holds⟩ := keeps.admitAll history holds (.refl _) admitted
    refine ⟨life, history.close closed, ?_⟩
    obtain ⟨idle, rfl⟩ := close_eq_again closed
    exact keeps.depends life t _ rfl rfl rfl holds
  · refine ⟨fun _ => .after 0, ?_⟩
    refine wakeAll_induction (P := fun t => t.History g 1 [] [] (fun _ => .after 0) ∧ I (fun _ => .after 0) t) ?_ ?_ _
    · rintro t id ⟨history, holds⟩ wakes
      exact ⟨history.enqueue wakes, keeps.woken _ t id holds wakes⟩
    · exact ⟨history_start _, begins⟩

theorem history_of_reaches {f : Floorplan} {limit : Nat} (reached : Reaches (step g limit) (start g f) r) :
    ∃ life, r.History g 1 [] [] life := by
  obtain ⟨life, history, _⟩ := (keeps_true g).of_reaches trivial reached
  exact ⟨life, history⟩

end Run

end LatticeSurgery
