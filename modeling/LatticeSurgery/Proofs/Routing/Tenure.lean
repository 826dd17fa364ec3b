import LatticeSurgery.Routing.Run
import LatticeSurgery.Proofs.Graph.Produced
import LatticeSurgery.Proofs.Routing.Locks

/-! # Tenure of the patches

An active node holds a lock on every patch of its route, from the cycle it counts as running since to
the cycle in which it finishes, and no other lock carries the name of a node of the graph. The parts of
a cycle are followed one by one: counting down, giving up patches, waking, placing, closing.
-/

namespace LatticeSurgery

namespace Run

/-- The records name a node as active from a cycle on, and in no earlier cycle. -/
def Since (r : Run) (id : NodeId) (start : Nat) : Prop :=
  start ≤ r.records.size ∧ ∀ (i : Nat) record, r.records[i]? = some record → (id ∈ record.active ↔ start ≤ i)

/-- An active node with `n` cycles left holds its patches since `start`. Between two cycles the counter
    lags one behind the clock. -/
structure Tenure (g : Graph) (lag : Nat) (r : Run) (id : NodeId) (n : Nat) (node : Node)
    (patches : List Coord) (start : Nat) : Prop where
  known : g.node? id = some node
  stage : r.stages[id]? = some (.active n)
  route : r.routes[id]? = some patches
  left : 1 ≤ n
  ends : start + node.duration + lag = r.cycle + n
  begun : start + lag ≤ r.cycle
  since : r.Since id start
  locks : ∀ c ∈ patches, r.floor.layout.lockAt c = some ⟨id, start, start + node.duration⟩

/-- The parts of the state agree on who holds what. The nodes of `leaving` are finished and may still
    hold their patches. -/
structure Coherent (g : Graph) (lag : Nat) (leaving : List NodeId) (r : Run) : Prop where
  timely : r.records.size = r.cycle
  counted : ∀ id, id ∈ r.active ↔ ∃ n, r.stages[id]? = some (.active n)
  held : ∀ id ∈ r.active, ∃ n node patches start, Tenure g lag r id n node patches start
  owned : ∀ c lock, r.floor.layout.lockAt c = some lock → (g.node? lock.node).isSome →
    (lock.node ∈ r.active ∨ lock.node ∈ leaving) ∧ c ∈ r.routes.getD lock.node []
  gone : ∀ id ∈ leaving, r.stages[id]? = some .resolved
  recorded : ∀ (i : Nat) record, r.records[i]? = some record → ∀ id ∈ record.active,
    ∃ stage, r.stages[id]? = some stage ∧ stage ≠ .waiting

/-- The queue holds waiting nodes, each once. -/
structure Queued (r : Run) : Prop where
  distinct : r.waiting.Nodup
  waiting : ∀ id ∈ r.waiting, r.stages[id]? = some .waiting

variable {g : Graph} {r s : Run} {id : NodeId} {lag : Nat} {leaving : List NodeId}

theorem Coherent.not_active (coherent : r.Coherent g lag leaving)
    (idle : ∀ n, r.stages[id]? ≠ some (.active n)) : id ∉ r.active := by
  intro active
  obtain ⟨n, stage⟩ := (coherent.counted id).mp active
  exact idle n stage

theorem Coherent.held_of_stage {n : Nat} (coherent : r.Coherent g lag leaving)
    (stage : r.stages[id]? = some (.active n)) :
    ∃ n node patches start, r.Tenure g lag id n node patches start :=
  coherent.held id ((coherent.counted id).mpr ⟨n, stage⟩)

theorem Tenure.getD_routes {n : Nat} {node : Node} {patches : List Coord} {start : Nat}
    (tenure : r.Tenure g lag id n node patches start) : r.routes.getD id [] = patches := by
  rw [Std.ExtTreeMap.getD_eq_getD_getElem?, tenure.route]
  rfl

theorem Coherent.congr (coherent : r.Coherent g lag leaving) (layout : s.floor.layout = r.floor.layout)
    (cycle : s.cycle = r.cycle) (stages : s.stages = r.stages) (active : s.active = r.active)
    (records : s.records = r.records) (routes : s.routes = r.routes) : s.Coherent g lag leaving := by
  obtain ⟨floor, _, _, waiting, _, admitted, _, _, idle⟩ := s
  subst cycle stages active records routes
  refine { coherent with held := ?_, owned := ?_ }
  · intro id active
    obtain ⟨n, node, patches, start, tenure⟩ := coherent.held id active
    refine ⟨n, node, patches, start, { tenure with locks := ?_ }⟩
    rw [layout]
    exact tenure.locks
  · rw [layout]
    exact coherent.owned

/-! ## Waking -/

theorem getElem?_stages_enqueue (r : Run) (id other : NodeId) :
    (r.enqueue id).stages[other]? = if other = id then some .waiting else r.stages[other]? := by
  rw [enqueue, Std.ExtTreeMap.getElem?_insert]
  simp only [Std.compare_eq_iff_eq, @eq_comm _ id]

theorem getElem?_stages_enqueue_of_some {other : NodeId} {stage : Stage} (fresh : r.stages[id]? = none)
    (known : r.stages[other]? = some stage) : (r.enqueue id).stages[other]? = some stage := by
  rw [getElem?_stages_enqueue, if_neg]
  · exact known
  · rintro rfl
    rw [fresh] at known
    cases known

theorem coherent_enqueue (coherent : r.Coherent g lag leaving) (fresh : r.stages[id]? = none) :
    (r.enqueue id).Coherent g lag leaving where
  timely := coherent.timely
  counted other := by
    rw [getElem?_stages_enqueue]
    split
    next here =>
        have outside : id ∉ r.active := coherent.not_active (by simp [fresh])
        subst here
        refine ⟨fun active => absurd active outside, ?_⟩
        rintro ⟨n, stage⟩
        cases stage
    · exact coherent.counted other
  held other active := by
    obtain ⟨n, node, patches, start, tenure⟩ := coherent.held other active
    exact ⟨n, node, patches, start, { tenure with stage := getElem?_stages_enqueue_of_some fresh tenure.stage }⟩
  owned := coherent.owned
  gone other member := getElem?_stages_enqueue_of_some fresh (coherent.gone other member)
  recorded i record found other member := by
    obtain ⟨stage, known, placed⟩ := coherent.recorded i record found other member
    exact ⟨stage, getElem?_stages_enqueue_of_some fresh known, placed⟩

theorem queued_enqueue (queued : r.Queued) (fresh : r.stages[id]? = none) : (r.enqueue id).Queued where
  distinct := by
    have outside : id ∉ r.waiting := by
      intro member
      have stage := queued.waiting id member
      rw [fresh] at stage
      cases stage
    exact List.nodup_append.mpr ⟨queued.distinct, List.pairwise_singleton _ id, by
      rintro a member b here rfl
      exact outside (List.mem_singleton.mp here ▸ member)⟩
  waiting other member := by
    rw [getElem?_stages_enqueue]
    split
    · rfl
    next differs =>
        rcases List.mem_append.mp member with member | here
        · exact queued.waiting other member
        · exact absurd (List.mem_singleton.mp here) differs

/-- When a node is queued: all its producers are finished, and it is in the graph or something waits for it. -/
structure Wakes (g : Graph) (r : Run) (id : NodeId) : Prop where
  fresh : r.stages[id]? = none
  ready : ∀ edge ∈ g.producers id, r.stages[edge.node]? = some .resolved
  wanted : g.isRetired id = false ∨ ∃ n, ∃ edge ∈ g.producers n, edge.node = id

/-- Waking queues such nodes and does nothing else. -/
theorem wake_induction {P : Run → Prop}
    (keeps : ∀ r id, P r → r.Wakes g id → P (r.enqueue id)) (holds : P r) (id : NodeId) : P (r.wake g id) := by
  have fresh : ∀ {r : Run} {id : NodeId}, r.stages.contains id = false → r.stages[id]? = none :=
    fun missing => Std.ExtTreeMap.getElem?_eq_none_of_contains_eq_false missing
  unfold wake
  split
  · exact holds
  next passed =>
      simp only [Bool.or_eq_true, not_or, Bool.not_eq_true] at passed
      obtain ⟨missing, alive⟩ := passed
      dsimp only
      split
      next none =>
          refine keeps r id holds ⟨fresh missing, fun edge member => ?_, .inl alive⟩
          have finished := List.filter_eq_nil_iff.mp (List.isEmpty_iff.mp none) edge member
          simpa [isResolved] using finished
      next pending =>
          have wanted : ∀ edge ∈ (g.producers id).filter (!r.isResolved ·.node), edge ∈ g.producers id :=
            fun edge member => List.mem_of_mem_filter member
          clear pending missing
          generalize (g.producers id).filter _ = edges at wanted ⊢
          induction edges generalizing r with
          | nil => exact holds
          | cons edge edges ih =>
              refine ih ?_ fun other member => wanted other (List.mem_cons_of_mem _ member)
              dsimp only [request]
              split
              next asked =>
                  simp only [Bool.and_eq_true, Bool.not_eq_true', List.all_eq_true] at asked
                  obtain ⟨⟨_, missing⟩, finished⟩ := asked
                  refine keeps r edge.node holds ⟨fresh missing, fun edge member => ?_, .inr ⟨id, edge, ?_, rfl⟩⟩
                  · simpa [isResolved] using finished edge member
                  · exact wanted edge List.mem_cons_self
              · exact holds

theorem wakeAll_induction {P : Run → Prop}
    (keeps : ∀ r id, P r → r.Wakes g id → P (r.enqueue id)) (holds : P r) (ids : List NodeId) :
    P (ids.foldl (·.wake g ·) r) := by
  induction ids generalizing r with
  | nil => exact holds
  | cons id ids ih => exact ih (wake_induction keeps holds id)

/-! ## Counting down -/

theorem getElem?_stages_countDown (r : Run) (id : NodeId) :
    r.countDown.stages[id]?
      = if id ∈ r.active then
          some (if r.remaining id ≤ 1 then .resolved else .active (r.remaining id - 1))
        else r.stages[id]? :=
  getElem?_foldl_insert r.active _ r.stages id

theorem mem_active_countDown : id ∈ r.countDown.active ↔ id ∈ r.active ∧ 1 < r.remaining id := by
  simp [countDown]

theorem mem_expiring : id ∈ r.expiring ↔ id ∈ r.active ∧ r.remaining id ≤ 1 := by
  simp [expiring]

theorem coherent_countDown (coherent : r.Coherent g 1 []) : r.countDown.Coherent g 0 r.expiring where
  timely := coherent.timely
  counted id := by
    rw [mem_active_countDown, getElem?_stages_countDown]
    by_cases active : id ∈ r.active
    · by_cases last : r.remaining id ≤ 1
      · simp [active, last, Nat.not_lt.mpr last]
      · simp [active, last, Nat.lt_of_not_le last]
    · have outside := mt (coherent.counted id).mpr active
      simpa [active] using outside
  held id active := by
    obtain ⟨active, more⟩ := mem_active_countDown.mp active
    obtain ⟨n, node, patches, start, tenure⟩ := coherent.held id active
    have counter : n = r.remaining id := by simp [remaining, tenure.stage]
    subst counter
    have ends := tenure.ends
    have begun := tenure.begun
    exact ⟨r.remaining id - 1, node, patches, start,
      { tenure with
        stage := by rw [getElem?_stages_countDown, if_pos active, if_neg (by omega)]
        left := by omega
        ends := by show _ = r.cycle + _; omega
        begun := by show _ ≤ r.cycle; omega }⟩
  owned c lock found inside := by
    obtain ⟨owner, member⟩ := coherent.owned c lock found inside
    refine ⟨?_, member⟩
    have active : lock.node ∈ r.active := owner.resolve_right List.not_mem_nil
    rw [mem_active_countDown, mem_expiring]
    rcases Nat.lt_or_ge 1 (r.remaining lock.node) with more | last
    · exact .inl ⟨active, more⟩
    · exact .inr ⟨active, last⟩
  gone id member := by
    obtain ⟨active, last⟩ := mem_expiring.mp member
    rw [getElem?_stages_countDown, if_pos active, if_pos last]
  recorded i record found id member := by
    obtain ⟨stage, known, placed⟩ := coherent.recorded i record found id member
    rw [getElem?_stages_countDown]
    by_cases active : id ∈ r.active
    · rw [if_pos active]
      refine ⟨_, rfl, ?_⟩
      split <;> simp
    · exact ⟨stage, by rw [if_neg active]; exact known, placed⟩

/-! ## Giving up patches -/

theorem lockAt_release (f : Floorplan) (node : Node) (patches : List Coord) (c : Coord) :
    (f.release node patches).layout.lockAt c
      = if c ∈ patches ∧ (f.layout.lockAt c).any (·.node == node.id) then none else f.layout.lockAt c := by
  unfold Floorplan.release
  dsimp only
  split
  · rw [Layout.lockAt_rotateAll, Layout.lockAt_unlockAll]
  · rw [Layout.lockAt_unlockAll]

theorem coherent_release (numbered : g.Numbered) (coherent : r.Coherent g lag (id :: leaving)) :
    (r.release g id).Coherent g lag leaving := by
  have gone := coherent.gone id List.mem_cons_self
  have others : ∀ n, r.stages[id]? ≠ some (.active n) := by simp [gone]
  have rest : ∀ other ∈ leaving, r.stages[other]? = some .resolved :=
    fun other member => coherent.gone other (List.mem_cons_of_mem _ member)
  unfold release
  split
  next node known =>
      have named := numbered id node known
      refine { coherent with held := ?_, owned := ?_, gone := rest }
      · intro other active
        obtain ⟨n, node', patches, start, tenure⟩ := coherent.held other active
        have differs : other ≠ id := fun here => others n (here ▸ tenure.stage)
        refine ⟨n, node', patches, start, { tenure with locks := ?_ }⟩
        intro c member
        rw [lockAt_release, tenure.locks c member, if_neg]
        simp [named, differs]
      · intro c lock found inside
        rw [lockAt_release] at found
        split at found
        · cases found
        next kept =>
            obtain ⟨owner, member⟩ := coherent.owned c lock found inside
            refine ⟨?_, member⟩
            rcases owner with active | leaves
            · exact .inl active
            · rcases List.mem_cons.mp leaves with here | leaves
              -- the patch is on the route of the node, so its lock was given up
              · rw [here] at member
                exact absurd ⟨member, by simp [found, here, named]⟩ kept
              · exact .inr leaves
  next missing =>
      refine { coherent with owned := ?_, gone := rest }
      intro c lock found inside
      obtain ⟨owner, member⟩ := coherent.owned c lock found inside
      refine ⟨?_, member⟩
      rcases owner with active | leaves
      · exact .inl active
      · rcases List.mem_cons.mp leaves with here | leaves
        · rw [here, missing] at inside
          cases inside
        · exact .inr leaves

theorem coherent_releaseAll (numbered : g.Numbered) (coherent : r.Coherent g lag leaving) :
    (leaving.foldl (·.release g ·) r).Coherent g lag [] := by
  induction leaving generalizing r with
  | nil => exact coherent
  | cons id leaving ih => exact ih (coherent_release numbered coherent)

/-! ## Placing -/

/-- The state after a waiting node took its patches. -/
def settle (r : Run) (id : NodeId) (node : Node) (patches : List Coord) (start : Nat) (floor : Floorplan) :
    Run :=
  { r with
    floor
    stages := r.stages.insert id (.active (node.duration - (r.cycle - start)))
    active := r.active ++ [id]
    admitted := r.admitted ++ [id]
    records := r.backdate id start
    routes := r.routes.insert id patches }

/-- What it takes for a node to be placed on some patches. -/
structure Fits (g : Graph) (r : Run) (id : NodeId) (node : Node) (patches : List Coord) (start : Nat)
    (floor : Floorplan) : Prop where
  known : g.node? id = some node
  free : ∀ c ∈ patches, r.floor.layout.probe c node.id r.cycle
  begun : start ≤ r.cycle
  short : r.cycle < start + node.duration
  locked : r.floor.layout.lockAll node.id start node.duration patches = .ok floor.layout

/-- A node is placed on some patches: `asked` is the floorplan with its choice of slots pending, and `floor`
    the one with its locks. -/
structure Admits (g : Graph) (r : Run) (id : NodeId) (node : Node) (patches : List Coord)
    (asked floor : Floorplan) : Prop where
  known : g.node? id = some node
  placed : r.floor.place node r.cycle = (.ok (some patches), asked)
  occupied : asked.occupy node patches (asked.startOf node r.cycle) = .ok floor

theorem Admits.fits {node : Node} {patches : List Coord} {asked floor : Floorplan}
    (admits : r.Admits g id node patches asked floor) :
    r.Fits g id node patches (asked.startOf node r.cycle) floor := by
  have kept := r.floor.layout_place node r.cycle
  rw [admits.placed] at kept
  obtain ⟨layout, locked, occupied⟩ := bind_eq_ok.mp admits.occupied
  obtain ⟨book, _, occupied⟩ := bind_eq_ok.mp occupied
  cases occupied
  obtain ⟨begun, short⟩ := asked.startOf_le node r.cycle
  have same : asked.layout = r.floor.layout := kept
  exact ⟨admits.known, fun c member => Floorplan.probe_of_place admits.placed member, begun, short, same ▸ locked⟩

/-- A turn that places nothing leaves at most a choice of slots behind. -/
theorem tryAdmit_cases (h : r.tryAdmit g id = .ok s) :
    (∃ pending, s = { r with floor := { r.floor with book := { r.floor.book with pending } } }) ∨
      ∃ node patches asked floor, r.Admits g id node patches asked floor ∧
        s = r.settle id node patches (asked.startOf node r.cycle) floor := by
  unfold tryAdmit at h
  split at h
  · cases h
    exact .inl ⟨r.floor.book.pending, rfl⟩
  next node known =>
      split at h
      · cases h
      next floor placed =>
          cases h
          obtain ⟨pending, same⟩ := r.floor.place_snd node r.cycle
          rw [placed] at same
          exact .inl ⟨pending, congrArg (fun floor => { r with floor }) same⟩
      next patches asked placed =>
          dsimp only at h
          split at h
          · cases h
          next floor occupied =>
              cases h
              exact .inr ⟨node, patches, asked, floor, ⟨known, placed, occupied⟩, rfl⟩

theorem tryAdmit_eq_ok (h : r.tryAdmit g id = .ok s) :
    (∃ floor : Floorplan, floor.layout = r.floor.layout ∧ s = { r with floor }) ∨
      ∃ node patches start floor, r.Fits g id node patches start floor ∧
        s = r.settle id node patches start floor := by
  rcases tryAdmit_cases h with ⟨pending, rfl⟩ | ⟨node, patches, asked, floor, admits, rfl⟩
  · exact .inl ⟨{ r.floor with book := { r.floor.book with pending } }, rfl, rfl⟩
  · exact .inr ⟨node, patches, _, floor, admits.fits, rfl⟩

theorem mem_active_backdate {start i : Nat} {record : CycleRecord}
    (found : (r.backdate id start)[i]? = some record) :
    ∃ old, r.records[i]? = some old ∧
      ∀ other, other ∈ record.active ↔ other ∈ old.active ∨ (other = id ∧ start ≤ i) := by
  rw [backdate, Array.getElem?_mapIdx] at found
  obtain ⟨old, inside, rfl⟩ := Option.map_eq_some_iff.mp found
  refine ⟨old, inside, fun other => ?_⟩
  split
  next later => simp [later]
  next earlier => simp [earlier]

section Settle

variable {node : Node} {patches : List Coord} {start : Nat} {floor : Floorplan}

theorem getElem?_stages_settle (other : NodeId) :
    (r.settle id node patches start floor).stages[other]?
      = if other = id then some (.active (node.duration - (r.cycle - start))) else r.stages[other]? := by
  rw [settle, Std.ExtTreeMap.getElem?_insert]
  simp only [Std.compare_eq_iff_eq, @eq_comm _ id]

theorem getElem?_routes_settle (other : NodeId) :
    (r.settle id node patches start floor).routes[other]?
      = if other = id then some patches else r.routes[other]? := by
  rw [settle, Std.ExtTreeMap.getElem?_insert]
  simp only [Std.compare_eq_iff_eq, @eq_comm _ id]

theorem Fits.inside (fits : r.Fits g id node patches start floor) :
    ∀ c ∈ patches, (r.floor.layout.patch? c).isSome := by
  intro c member
  have free := fits.free c member
  unfold Layout.probe at free
  cases found : r.floor.layout.patch? c with
  | none => simp [found] at free
  | some patch => rfl

theorem Fits.lockAt (fits : r.Fits g id node patches start floor) (numbered : g.Numbered) (c : Coord) :
    floor.layout.lockAt c
      = if c ∈ patches then some ⟨id, start, start + node.duration⟩ else r.floor.layout.lockAt c := by
  rw [Layout.lockAt_lockAll fits.locked fits.inside c, numbered id node fits.known]

/-- No patch under a lock that is still in force is offered to another node. -/
theorem Fits.not_mem_of_lockAt (fits : r.Fits g id node patches start floor) (numbered : g.Numbered) {c : Coord}
    {lock : Lock} (held : r.floor.layout.lockAt c = some lock) (differs : lock.node ≠ id)
    (ahead : r.cycle < lock.freeAt) : c ∉ patches := by
  intro offered
  have free := fits.free c offered
  unfold Layout.lockAt at held
  unfold Layout.probe at free
  obtain ⟨patch, found, locked⟩ := Option.bind_eq_some_iff.mp held
  simp only [found, Option.any_some, Patch.isFree, locked, numbered id node fits.known, Bool.or_eq_true,
    beq_iff_eq, decide_eq_true_eq] at free
  rcases free with here | lapsed
  · exact differs here
  · omega

theorem Fits.apart (fits : r.Fits g id node patches start floor) (numbered : g.Numbered)
    {other : NodeId} {n : Nat} {holder : Node} {route : List Coord} {since : Nat}
    (tenure : r.Tenure g 0 other n holder route since) (differs : other ≠ id) {c : Coord}
    (member : c ∈ route) : c ∉ patches := by
  apply fits.not_mem_of_lockAt numbered (tenure.locks c member) differs
  have ends := tenure.ends
  have left := tenure.left
  dsimp only
  omega

theorem tenure_settle (coherent : r.Coherent g 0 []) (numbered : g.Numbered)
    (waits : r.stages[id]? = some .waiting) (fits : r.Fits g id node patches start floor) :
    (r.settle id node patches start floor).Tenure g 0 id (node.duration - (r.cycle - start)) node patches
      start := by
  have begun := fits.begun
  have short := fits.short
  refine
    { known := fits.known
      stage := by rw [getElem?_stages_settle, if_pos rfl]
      route := by rw [getElem?_routes_settle, if_pos rfl]
      left := by omega
      ends := by show _ = r.cycle + _; omega
      begun := fits.begun
      since := ⟨?_, ?_⟩
      locks := ?_ }
  · show start ≤ (r.backdate id start).size
    rw [backdate, Array.size_mapIdx, coherent.timely]
    exact begun
  · intro i record found
    obtain ⟨old, inside, members⟩ := mem_active_backdate found
    have unseen : id ∉ old.active := by
      intro member
      obtain ⟨stage, known, placed⟩ := coherent.recorded i old inside id member
      rw [waits] at known
      exact placed (Option.some.inj known).symm
    simp [members, unseen]
  · intro c member
    exact (fits.lockAt numbered c).trans (if_pos member)

theorem Tenure.settle {other : NodeId} {n : Nat} {holder : Node} {route : List Coord} {since : Nat}
    (tenure : r.Tenure g 0 other n holder route since) (numbered : g.Numbered) (differs : other ≠ id)
    (fits : r.Fits g id node patches start floor) :
    (r.settle id node patches start floor).Tenure g 0 other n holder route since := by
  refine
    { tenure with
      stage := by rw [getElem?_stages_settle, if_neg differs]; exact tenure.stage
      route := by rw [getElem?_routes_settle, if_neg differs]; exact tenure.route
      since := ⟨?_, ?_⟩
      locks := ?_ }
  · show since ≤ (r.backdate id start).size
    rw [backdate, Array.size_mapIdx]
    exact tenure.since.1
  · intro i record found
    obtain ⟨old, inside, members⟩ := mem_active_backdate found
    simpa [members, differs] using tenure.since.2 i old inside
  · intro c member
    exact ((fits.lockAt numbered c).trans (if_neg (fits.apart numbered tenure differs member))).trans
      (tenure.locks c member)

theorem coherent_settle (coherent : r.Coherent g 0 []) (numbered : g.Numbered)
    (waits : r.stages[id]? = some .waiting) (fits : r.Fits g id node patches start floor) :
    (r.settle id node patches start floor).Coherent g 0 [] := by
  have outside : id ∉ r.active := coherent.not_active (by simp [waits])
  have active : ∀ other, other ∈ (r.settle id node patches start floor).active ↔ other ∈ r.active ∨ other = id := by
    simp [settle]
  refine
    { timely := ?_
      counted := ?_
      held := ?_
      owned := ?_
      gone := by simp
      recorded := ?_ }
  · show (r.backdate id start).size = r.cycle
    rw [backdate, Array.size_mapIdx, coherent.timely]
  · intro other
    rw [active, getElem?_stages_settle, coherent.counted other]
    split
    next here => simp [here]
    next differs => simp [differs]
  · intro other member
    rcases (active other).mp member with old | rfl
    · obtain ⟨n, holder, route, since, tenure⟩ := coherent.held other old
      have differs : other ≠ id := fun here => outside (here ▸ old)
      exact ⟨n, holder, route, since, tenure.settle numbered differs fits⟩
    · exact ⟨_, node, patches, start, tenure_settle coherent numbered waits fits⟩
  · intro c lock found inside
    rw [show (r.settle id node patches start floor).floor = floor from rfl, fits.lockAt numbered] at found
    rw [active, Std.ExtTreeMap.getD_eq_getD_getElem?, getElem?_routes_settle]
    split at found
    next member =>
        cases found
        simpa using member
    next =>
        obtain ⟨owner, member⟩ := coherent.owned c lock found inside
        have old : lock.node ∈ r.active := owner.resolve_right List.not_mem_nil
        have differs : lock.node ≠ id := fun here => outside (here ▸ old)
        rw [Std.ExtTreeMap.getD_eq_getD_getElem?] at member
        rw [if_neg differs]
        exact ⟨.inl (.inl old), member⟩
  · intro i record found other member
    obtain ⟨old, inside, members⟩ := mem_active_backdate found
    rw [getElem?_stages_settle]
    split
    · exact ⟨_, rfl, by simp⟩
    next differs =>
        rcases (members other).mp member with earlier | ⟨here, _⟩
        · exact coherent.recorded i old inside other earlier
        · exact absurd here differs

end Settle

/-- What placing does not touch. Only waiting nodes change their stage, and only by being placed. -/
structure Onward (r s : Run) : Prop where
  cycle : s.cycle = r.cycle
  waiting : s.waiting = r.waiting
  active : ∀ id ∈ r.active, id ∈ s.active
  admitted : ∀ id ∈ r.admitted, id ∈ s.admitted
  stages : ∀ id, s.stages[id]? = r.stages[id]? ∨ (r.stages[id]? = some .waiting ∧ id ∈ s.admitted)

theorem Onward.trans {t : Run} (first : r.Onward s) (second : s.Onward t) : r.Onward t where
  cycle := second.cycle.trans first.cycle
  waiting := second.waiting.trans first.waiting
  active id member := second.active id (first.active id member)
  admitted id member := second.admitted id (first.admitted id member)
  stages id := by
    rcases first.stages id with kept | ⟨waits, placed⟩
    · rw [← kept]
      exact second.stages id
    · exact .inr ⟨waits, second.admitted id placed⟩

theorem coherent_tryAdmit (numbered : g.Numbered) (coherent : r.Coherent g 0 [])
    (waits : r.stages[id]? = some .waiting) (h : r.tryAdmit g id = .ok s) :
    s.Coherent g 0 [] ∧ r.Onward s ∧ ∀ other, other ≠ id → s.stages[other]? = r.stages[other]? := by
  rcases tryAdmit_eq_ok h with ⟨floor, kept, rfl⟩ | ⟨node, patches, start, floor, fits, rfl⟩
  · refine ⟨coherent.congr kept rfl rfl rfl rfl rfl, ?_, fun _ _ => rfl⟩
    exact ⟨rfl, rfl, fun _ member => member, fun _ member => member, fun _ => .inl rfl⟩
  · refine ⟨coherent_settle coherent numbered waits fits, ⟨rfl, rfl, ?_, ?_, ?_⟩, ?_⟩
    · exact fun _ member => List.mem_append_left _ member
    · exact fun _ member => List.mem_append_left _ member
    · intro other
      rw [getElem?_stages_settle]
      split
      next here => exact .inr ⟨here ▸ waits, by simp [settle, here]⟩
      next => exact .inl rfl
    · intro other differs
      rw [getElem?_stages_settle, if_neg differs]

theorem coherent_admitAll {queue : List NodeId} (numbered : g.Numbered) (coherent : r.Coherent g 0 [])
    (distinct : queue.Nodup) (waits : ∀ id ∈ queue, r.stages[id]? = some .waiting)
    (h : r.admitAll g queue = .ok s) : s.Coherent g 0 [] ∧ r.Onward s := by
  induction queue generalizing r with
  | nil =>
      cases h
      exact ⟨coherent, rfl, rfl, fun _ member => member, fun _ member => member, fun _ => .inl rfl⟩
  | cons id queue ih =>
      obtain ⟨next, first, h⟩ := bind_eq_ok.mp h
      obtain ⟨fresh, distinct⟩ := List.nodup_cons.mp distinct
      obtain ⟨coherent, onward, others⟩ :=
        coherent_tryAdmit numbered coherent (waits id List.mem_cons_self) first
      have waits : ∀ other ∈ queue, next.stages[other]? = some .waiting := by
        intro other member
        rw [others other (fun here => fresh (here ▸ member))]
        exact waits other (List.mem_cons_of_mem _ member)
      obtain ⟨coherent, rest⟩ := ih coherent distinct waits h
      exact ⟨coherent, onward.trans rest⟩

end Run

end LatticeSurgery
