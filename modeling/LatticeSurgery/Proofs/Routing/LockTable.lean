import LatticeSurgery.Proofs.Routing.Tenure
import LatticeSurgery.Proofs.Sorting

/-! # The lock table at the end of every cycle

Each cycle of routing takes a coherent state to a coherent state, so the lock table can be read off the
active nodes at the end of every cycle: who holds a patch, since when, and until when.
-/

namespace LatticeSurgery

namespace Run

variable {g : Graph} {r s : Run} {id : NodeId} {lag : Nat} {leaving : List NodeId}

theorem turnover_eq (g : Graph) (r : Run) :
    r.turnover g = ((r.expiring.flatMap g.consumers).map (·.node)).foldl (·.wake g ·)
      (r.expiring.foldl (·.release g ·) r.countDown) := by
  rw [turnover, List.foldl_map]

theorem releaseAll_eq (g : Graph) (r : Run) (ids : List NodeId) :
    ∃ floor, ids.foldl (·.release g ·) r = { r with floor } := by
  induction ids generalizing r with
  | nil => exact ⟨r.floor, rfl⟩
  | cons id ids ih =>
      have one : ∃ floor, r.release g id = { r with floor } := by
        unfold release
        split
        · exact ⟨_, rfl⟩
        · exact ⟨r.floor, rfl⟩
      obtain ⟨floor, one⟩ := one
      rw [List.foldl_cons, one]
      exact ih { r with floor }

theorem queued_countDown (coherent : r.Coherent g lag leaving) (queued : r.Queued) : r.countDown.Queued where
  distinct := queued.distinct
  waiting id member := by
    have waits := queued.waiting id member
    rw [getElem?_stages_countDown, if_neg (coherent.not_active (by simp [waits]))]
    exact waits

/-- After the first part of a cycle the finished nodes hold nothing, and the others hold what they
    held. -/
theorem coherent_turnover (numbered : g.Numbered) (coherent : r.Coherent g 1 []) (queued : r.Queued) :
    (r.turnover g).Coherent g 0 [] ∧ (r.turnover g).Queued ∧ (r.turnover g).cycle = r.cycle ∧
      (r.turnover g).active = r.countDown.active ∧
      ∀ id ∈ r.expiring, (r.turnover g).stages[id]? = some .resolved := by
  have counted := coherent_countDown coherent
  have released := coherent_releaseAll numbered counted
  rw [turnover_eq]
  obtain ⟨floor, same⟩ := releaseAll_eq g r.countDown r.expiring
  rw [same] at released ⊢
  have waiting := queued_countDown coherent queued
  refine wakeAll_induction (P := fun t => t.Coherent g 0 [] ∧ t.Queued ∧ t.cycle = r.cycle ∧
    t.active = r.countDown.active ∧ ∀ id ∈ r.expiring, t.stages[id]? = some .resolved) ?_ ?_ _
  · rintro t id ⟨coherent, queued, cycle, active, resolved⟩ ⟨fresh, _, _⟩
    refine ⟨coherent_enqueue coherent fresh, queued_enqueue queued fresh, cycle, active, ?_⟩
    exact fun other member => getElem?_stages_enqueue_of_some fresh (resolved other member)
  · exact ⟨released, ⟨waiting.distinct, waiting.waiting⟩, rfl, rfl, counted.gone⟩

theorem coherent_cycle (numbered : g.Numbered) (coherent : r.Coherent g 1 []) (queued : r.Queued)
    (h : (r.turnover g).admission g = .ok s) :
    s.Coherent g 0 [] ∧ s.cycle = r.cycle ∧ s.waiting.Nodup ∧
      (∀ id ∈ s.waiting, id ∉ s.admitted → s.stages[id]? = some .waiting) ∧
      (∀ id ∈ r.countDown.active, id ∈ s.active) ∧
      ∀ id ∈ r.expiring, s.stages[id]? = some .resolved := by
  obtain ⟨coherent, queued, cycle, active, resolved⟩ := coherent_turnover numbered coherent queued
  generalize r.turnover g = t at *
  unfold admission at h
  dsimp only at h
  have order := sortBy_perm g.takesTurn t.waiting
  obtain ⟨placed, onward⟩ := coherent_admitAll (r := { t with waiting := g.prioritise t.waiting, admitted := [] })
    numbered (coherent.congr rfl rfl rfl rfl rfl rfl) (order.nodup_iff.mpr queued.distinct)
    (fun id member => queued.waiting id (order.mem_iff.mp member)) h
  refine ⟨placed, onward.cycle.trans cycle, ?_, ?_, ?_, ?_⟩
  · rw [onward.waiting]
    exact order.nodup_iff.mpr queued.distinct
  · intro id member unplaced
    rw [onward.waiting] at member
    have waits := queued.waiting id (order.mem_iff.mp member)
    rcases onward.stages id with kept | ⟨_, placed⟩
    · exact kept.trans waits
    · exact absurd placed unplaced
  · intro id member
    exact onward.active id (active ▸ member)
  · intro id member
    rcases onward.stages id with kept | ⟨waits, _⟩
    · exact kept.trans (resolved id member)
    · cases waits.symm.trans (resolved id member)

theorem close_eq_again {limit : Nat} {resolved : List NodeId} (h : r.close limit resolved = .again s) :
    ∃ idle, s =
      { r with
        waiting := r.waiting.filter (!r.admitted.contains ·)
        idle
        records := r.records.push { cycle := r.cycle, admitted := r.admitted, active := r.active, resolved }
        cycle := r.cycle + 1 } := by
  unfold close at h
  dsimp only at h
  generalize (if (r.admitted.isEmpty && resolved.isEmpty && r.active.isEmpty) = true then r.idle + 1 else 0)
    = idle at h
  split at h
  · cases h
  · cases h
    exact ⟨_, rfl⟩

theorem coherent_close {limit : Nat} {resolved : List NodeId} (coherent : r.Coherent g 0 [])
    (h : r.close limit resolved = .again s) : s.Coherent g 1 [] := by
  obtain ⟨idle, rfl⟩ := close_eq_again h
  have pushed : ∀ {i : Nat} {record : CycleRecord} {last : CycleRecord},
      (r.records.push last)[i]? = some record → i = r.cycle ∧ record = last ∨ r.records[i]? = some record := by
    intro i record last found
    rw [Array.getElem?_push, coherent.timely] at found
    split at found
    next here => cases found; exact .inl ⟨here, rfl⟩
    · exact .inr found
  refine
    { timely := by simp [coherent.timely]
      counted := coherent.counted
      held := ?_
      owned := coherent.owned
      gone := by simp
      recorded := ?_ }
  · intro id active
    obtain ⟨n, node, patches, start, tenure⟩ := coherent.held id active
    have ends := tenure.ends
    have begun := tenure.begun
    refine ⟨n, node, patches, start,
      { tenure with
        ends := by show _ = r.cycle + 1 + n; omega
        begun := by show _ ≤ r.cycle + 1; omega
        since := ⟨?_, ?_⟩ }⟩
    · have within := tenure.since.1
      simp only [Array.size_push]
      omega
    · intro i record found
      rcases pushed found with ⟨rfl, rfl⟩ | earlier
      · exact iff_of_true active begun
      · exact tenure.since.2 i record earlier
  · intro i record found id member
    rcases pushed found with ⟨rfl, rfl⟩ | earlier
    · obtain ⟨n, stage⟩ := (coherent.counted id).mp member
      exact ⟨_, stage, by simp⟩
    · exact coherent.recorded i record earlier id member

theorem coherent_step {limit : Nat} (numbered : g.Numbered) (coherent : r.Coherent g 1 []) (queued : r.Queued)
    (h : r.step g limit = .again s) : s.Coherent g 1 [] ∧ s.Queued := by
  unfold step at h
  split at h
  · cases h
  · split at h
    · cases h
    next t done =>
        obtain ⟨coherent, _, distinct, waits, _, _⟩ := coherent_cycle numbered coherent queued done
        refine ⟨coherent_close coherent h, ?_⟩
        obtain ⟨idle, rfl⟩ := close_eq_again h
        refine ⟨distinct.filter _, fun id member => ?_⟩
        obtain ⟨member, unplaced⟩ := List.mem_filter.mp member
        exact waits id member (by simpa using unplaced)

/-- Locks that the layout comes with, held by nobody in the graph, are compatible with a start. -/
theorem coherent_start {floor : Floorplan}
    (foreign : ∀ c lock, floor.layout.lockAt c = some lock → g.node? lock.node = none) :
    (start g floor).Coherent g 1 [] ∧ (start g floor).Queued := by
  refine wakeAll_induction (P := fun t => t.Coherent g 1 [] ∧ t.Queued) ?_ ?_ _
  · rintro t id ⟨coherent, queued⟩ ⟨fresh, _, _⟩
    exact ⟨coherent_enqueue coherent fresh, queued_enqueue queued fresh⟩
  · refine ⟨⟨rfl, by simp, by simp, ?_, by simp, by simp⟩, by simp, by simp⟩
    intro c lock found inside
    rw [foreign c lock found] at inside
    cases inside

theorem coherent_of_reaches {floor : Floorplan} {limit : Nat} (numbered : g.Numbered)
    (foreign : ∀ c lock, floor.layout.lockAt c = some lock → g.node? lock.node = none)
    (reached : Reaches (step g limit) (start g floor) r) : r.Coherent g 1 [] ∧ r.Queued :=
  reached.invariant (P := fun r => r.Coherent g 1 [] ∧ r.Queued)
    (fun _ _ holds next => coherent_step numbered holds.1 holds.2 next) (coherent_start foreign)

/-- A cycle of routing that begins in `before` ends in `after`. -/
structure CycleEnds (g : Graph) (limit : Nat) (floor : Floorplan) (before after : Run) : Prop where
  reached : Reaches (step g limit) (start g floor) before
  goesOn : ¬(before.waiting.isEmpty && before.active.isEmpty)
  ended : (before.turnover g).admission g = .ok after

/-- At the end of every cycle an active node holds the patches of its route, all of them with one lock
    that lasts as long as the node does, and all other locks are foreign to the graph. So active nodes
    hold different patches, and a node gives its patches up in the cycle in which its lock lapses. -/
theorem lockTable_eq_active {limit : Nat} {floor : Floorplan} {before after : Run}
    (produced : g.Produced)
    (foreign : ∀ c lock, floor.layout.lockAt c = some lock → g.node? lock.node = none)
    (ends : CycleEnds g limit floor before after) :
    (∀ id n, after.stages[id]? = some (.active n) →
      ∃ node patches start, g.node? id = some node ∧ after.routes[id]? = some patches ∧
        1 ≤ n ∧ start + node.duration = before.cycle + n ∧ after.Since id start ∧
        ∀ c ∈ patches, after.floor.layout.lockAt c = some ⟨id, start, start + node.duration⟩) ∧
    (∀ c lock, after.floor.layout.lockAt c = some lock → (g.node? lock.node).isSome →
      ∃ n patches, after.stages[lock.node]? = some (.active n) ∧
        after.routes[lock.node]? = some patches ∧ c ∈ patches) ∧
    (∀ a b n m, a ≠ b → after.stages[a]? = some (.active n) → after.stages[b]? = some (.active m) →
      (after.routes.getD a []).Disjoint (after.routes.getD b [])) ∧
    (∀ id n, before.stages[id]? = some (.active n) →
      ∃ start freeAt, (∀ c ∈ before.routes.getD id [],
          before.floor.layout.lockAt c = some ⟨id, start, freeAt⟩) ∧
        ((freeAt = before.cycle ∧ id ∈ before.expiring ∧ after.stages[id]? = some .resolved ∧
            ∀ c lock, after.floor.layout.lockAt c = some lock → lock.node ≠ id) ∨
          (before.cycle < freeAt ∧ id ∉ before.expiring ∧ ∃ m, after.stages[id]? = some (.active m)))) := by
  obtain ⟨coherent, queued⟩ := coherent_of_reaches produced.numbered foreign ends.reached
  obtain ⟨closed, cycle, _, _, stays, resolved⟩ := coherent_cycle produced.numbered coherent queued ends.ended
  refine ⟨fun id n stage => ?_, fun c lock found inside => ?_, fun a b n m differs first second => ?_,
    fun id n stage => ?_⟩
  · obtain ⟨k, node, patches, start, tenure⟩ := closed.held_of_stage stage
    obtain rfl : k = n := by simpa [stage] using tenure.stage.symm
    exact ⟨node, patches, start, tenure.known, tenure.route, tenure.left, cycle ▸ tenure.ends, tenure.since,
      tenure.locks⟩
  · obtain ⟨owner, member⟩ := closed.owned c lock found inside
    obtain ⟨n, node, patches, start, tenure⟩ := closed.held lock.node (owner.resolve_right List.not_mem_nil)
    rw [tenure.getD_routes] at member
    exact ⟨n, patches, tenure.stage, tenure.route, member⟩
  · obtain ⟨_, node, patches, start, tenure⟩ := closed.held_of_stage first
    obtain ⟨_, node', patches', start', tenure'⟩ := closed.held_of_stage second
    rw [tenure.getD_routes, tenure'.getD_routes]
    intro c member member'
    have same := (tenure.locks c member).symm.trans (tenure'.locks c member')
    exact differs (congrArg Lock.node (Option.some.inj same))
  · obtain ⟨k, node, patches, start, tenure⟩ := coherent.held_of_stage stage
    have counter : before.remaining id = k := by simp [remaining, tenure.stage]
    have active := (coherent.counted id).mpr ⟨n, stage⟩
    have ends := tenure.ends
    have left := tenure.left
    refine ⟨start, start + node.duration, ?_, ?_⟩
    · rw [tenure.getD_routes]
      exact tenure.locks
    · rcases Nat.lt_or_ge 1 k with more | last
      · refine .inr ⟨by omega, fun member => ?_, ?_⟩
        · have short := (mem_expiring.mp member).2
          omega
        · exact (closed.counted id).mp (stays id (mem_active_countDown.mpr ⟨active, by omega⟩))
      · have expires : id ∈ before.expiring := mem_expiring.mpr ⟨active, by omega⟩
        refine .inl ⟨by omega, expires, resolved id expires, ?_⟩
        rintro c lock found rfl
        have inside : (g.node? lock.node).isSome := by rw [tenure.known]; rfl
        obtain ⟨owner, _⟩ := closed.owned c lock found inside
        have idle : lock.node ∉ after.active := closed.not_active (by simp [resolved lock.node expires])
        exact idle (owner.resolve_right List.not_mem_nil)

/-- One T gate whose magic state takes three cycles to make. -/
def gateOnInstance : Graph :=
  match ((Builder.new "gate").declareAll ["a"]).addGate .t ["a"] with
  | .error _ => (Builder.new "gate").graph
  | .ok (_, b) =>
      match b.graph.bindInstances 1 [⟨"T", 3⟩] with
      | .error left => left.state
      | .ok (_, g) => g

/-- A register, a channel patch, the output of a factory, and a patch locked by somebody else. -/
def lockedRow : Floorplan where
  layout :=
    { cols := 4
      rows := [[
        { coord := ⟨0, 0⟩, kind := .register, orientation := .z },
        { coord := ⟨0, 1⟩, kind := .route, orientation := .z },
        { coord := ⟨0, 2⟩, kind := .external, orientation := .z },
        { coord := ⟨0, 3⟩, kind := .route, orientation := .z, lock := some ⟨99, 0, 5⟩ }]] }
  book := (({} : AddressBook).bind "a" ⟨0, 0⟩).bind "T#0" ⟨0, 2⟩

theorem produced_gateOnInstance : gateOnInstance.Produced := by
  have start := Builder.Reachable.declareAll ["a"] (.new "gate")
  unfold gateOnInstance
  split
  · exact .built (.new "gate")
  next added =>
      rw [Builder.addGate, Builder.add] at added
      have built := Graph.Produced.built (start.addLasting added)
      split
      next failed => exact .bindingFailed built failed
      next done => exact .bound built done

/-- The factory is placed in cycle 1, runs since cycle 0 and holds its patch until cycle 3. -/
theorem lockTable_eq_active_backdated :
    ∃ before after, CycleEnds gateOnInstance 3 lockedRow before after ∧ before.cycle = 1 ∧
      after.stages[3]? = some (.active 2) ∧
      ∃ patches, after.routes[3]? = some patches ∧
        ∀ c ∈ patches, after.floor.layout.lockAt c = some ⟨3, 0, 3⟩ := by
  have foreign : ∀ c lock, lockedRow.layout.lockAt c = some lock → gateOnInstance.node? lock.node = none := by
    intro c lock found
    have member := Layout.mem_locks_of_lockAt found
    have locks : lockedRow.layout.patches.filterMap (·.lock) = [⟨99, 0, 5⟩] := by decide
    rw [locks, List.mem_singleton] at member
    subst member
    decide +kernel
  have duration : (gateOnInstance.node? 3).map Node.duration = some 3 := by decide +kernel
  have runs : (match step gateOnInstance 3 (start gateOnInstance lockedRow) with
      | .done _ => false
      | .again before =>
          ((before.turnover gateOnInstance).admission gateOnInstance).toOption.any fun after =>
            !(before.waiting.isEmpty && before.active.isEmpty) && before.cycle == 1
              && after.stages[3]? == some (.active 2)) = true := by decide +kernel
  split at runs
  · cases runs
  next before first =>
      obtain ⟨after, ended, runs⟩ := exists_ok_of_any runs
      simp only [Bool.and_eq_true, beq_iff_eq, Bool.not_eq_true'] at runs
      obtain ⟨⟨goesOn, cycle⟩, stage⟩ := runs
      have ends : CycleEnds gateOnInstance 3 lockedRow before after :=
        ⟨.tail .refl first, by simp [goesOn], ended⟩
      obtain ⟨node, patches, start, known, route, _, lasts, _, locks⟩ :=
        (lockTable_eq_active produced_gateOnInstance foreign ends).1 3 2 stage
      rw [known] at duration
      have lasted : node.duration = 3 := Option.some.inj duration
      rw [lasted, cycle] at lasts
      obtain rfl : start = 0 := by omega
      rw [lasted] at locks
      exact ⟨before, after, ends, cycle, stage, patches, route, locks⟩

end Run

end LatticeSurgery
