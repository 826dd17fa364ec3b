import LatticeSurgery.Iteration
import LatticeSurgery.Timeline
import LatticeSurgery.Routing.Floorplan

/-! # Routing

A graph is run against a floorplan, cycle by cycle. Every node waits until its producers are finished
and its patches are free, then holds its patches for its whole duration. A cycle finishes the nodes
whose time is up, wakes the nodes that waited for them, and places those that fit.
-/

namespace LatticeSurgery

/-- The state of routing between two cycles, or between the parts of one. -/
structure Run where
  floor : Floorplan
  cycle : Nat := 0
  stages : NodeMap Stage := ∅
  /-- Nodes queued for placement. -/
  waiting : List NodeId := []
  /-- Nodes that hold patches. -/
  active : List NodeId := []
  /-- Nodes placed in the current cycle. -/
  admitted : List NodeId := []
  /-- What happened in the cycles so far. -/
  records : Array CycleRecord := #[]
  routes : NodeMap (List Coord) := ∅
  /-- Number of cycles in a row in which nothing happened. -/
  idle : Nat := 0

namespace Run

/-- Whether a node is finished. -/
def isResolved (r : Run) (id : NodeId) : Bool := r.stages[id]? == some .resolved

/-- Cycles that an active node has left. -/
def remaining (r : Run) (id : NodeId) : Nat :=
  match r.stages[id]? with
  | some (.active n) => n
  | _ => 0

/-- Queues a node for placement. -/
def enqueue (r : Run) (id : NodeId) : Run :=
  { r with stages := r.stages.insert id .waiting, waiting := r.waiting ++ [id] }

/-- Queues a factory that some node waits for, once its own producers are finished. -/
def request (g : Graph) (r : Run) (id : NodeId) : Run :=
  if g.isFactory id && !r.stages.contains id && (g.producers id).all (r.isResolved ·.node) then r.enqueue id
  else r

/-- Queues a node whose producers are all finished; otherwise requests the factories among them. -/
def wake (g : Graph) (r : Run) (id : NodeId) : Run :=
  if r.stages.contains id || g.isRetired id then r
  else
    let unfinished := (g.producers id).filter (!r.isResolved ·.node)
    if unfinished.isEmpty then r.enqueue id
    else unfinished.foldl (fun r edge => r.request g edge.node) r

/-- The state before the first cycle. -/
def start (g : Graph) (floor : Floorplan) : Run := g.entries.foldl (·.wake g ·) { floor }

/-- Nodes whose time is up in this cycle. -/
def expiring (r : Run) : List NodeId := r.active.filter (r.remaining · ≤ 1)

/-- Counts down the active nodes. -/
def countDown (r : Run) : Run :=
  { r with
    stages := r.active.foldl
      (fun stages id => stages.insert id
        (if r.remaining id ≤ 1 then .resolved else .active (r.remaining id - 1)))
      r.stages
    active := r.active.filter (1 < r.remaining ·) }

/-- Gives up the patches of a finished node. -/
def release (g : Graph) (r : Run) (id : NodeId) : Run :=
  match g.node? id with
  | some node => { r with floor := r.floor.release node (r.routes.getD id []) }
  | none => r

/-- The first part of a cycle: finished nodes give up their patches and wake their consumers. -/
def turnover (g : Graph) (r : Run) : Run :=
  let released := r.expiring.foldl (·.release g ·) r.countDown
  (r.expiring.flatMap g.consumers).foldl (fun r edge => r.wake g edge.node) released

/-- Makes a node placed now run since an earlier cycle. -/
def backdate (r : Run) (id : NodeId) (start : Nat) : Array CycleRecord :=
  r.records.mapIdx fun i record =>
    if start ≤ i then { record with active := record.active ++ [id] } else record

/-- Places one waiting node if it fits. -/
def tryAdmit (g : Graph) (r : Run) (id : NodeId) : Except (Failure Floorplan) Run :=
  match g.node? id with
  | none => .ok r
  | some node =>
      match r.floor.place node r.cycle with
      | (.error e, floor) => .error ⟨e, floor⟩
      | (.ok none, floor) => .ok { r with floor }
      | (.ok (some patches), floor) =>
          let start := floor.startOf node r.cycle
          match floor.occupy node patches start with
          | .error e => .error ⟨e, floor⟩
          | .ok floor =>
              .ok { r with
                floor
                stages := r.stages.insert id (.active (node.duration - (r.cycle - start)))
                active := r.active ++ [id]
                admitted := r.admitted ++ [id]
                records := r.backdate id start
                routes := r.routes.insert id patches }

/-- Places waiting nodes one after the other. -/
def admitAll (g : Graph) (r : Run) : List NodeId → Except (Failure Floorplan) Run
  | [] => .ok r
  | id :: rest => do
      let r ← r.tryAdmit g id
      r.admitAll g rest

/-- The second part of a cycle: the waiting nodes take their turns. -/
def admission (g : Graph) (r : Run) : Except (Failure Floorplan) Run :=
  let waiting := g.prioritise r.waiting
  { r with waiting, admitted := [] }.admitAll g waiting

/-- What ends routing: a timeline and the final floorplan, or a failure. -/
abbrev Outcome := Except (Failure Floorplan) (Timeline × Floorplan)

/-- The end of a cycle: it is recorded, and routing gives up after too many cycles without change. -/
def close (limit : Nat) (resolved : List NodeId) (r : Run) : Next Run Outcome :=
  let waiting := r.waiting.filter (!r.admitted.contains ·)
  let quiet := r.admitted.isEmpty && resolved.isEmpty && r.active.isEmpty
  let idle := if quiet then r.idle + 1 else 0
  if limit < idle then .done (.error ⟨.unroutable r.cycle waiting, r.floor⟩)
  else
    .again { r with
      waiting
      idle
      records := r.records.push
        { cycle := r.cycle, admitted := r.admitted, active := r.active, resolved }
      cycle := r.cycle + 1 }

/-- The end of routing: every live node has to be finished. -/
def finish (g : Graph) (r : Run) : Outcome :=
  let unfinished := g.liveIds.filter (!r.isResolved ·)
  if unfinished.isEmpty then
    .ok ({ cycles := r.records.toList.filter (!·.isIdle), routes := r.routes }, r.floor)
  else .error ⟨.unroutable r.cycle unfinished, r.floor⟩

/-- One cycle. -/
def step (g : Graph) (limit : Nat) (r : Run) : Next Run Outcome :=
  if r.waiting.isEmpty && r.active.isEmpty then .done (r.finish g)
  else
    match (r.turnover g).admission g with
    | .error failure => .done (.error failure)
    | .ok s => s.close limit r.expiring

end Run

/-- A bound on the cycles of routing: every node is placed once and counted down once, and between
    two such events at most `limit` cycles pass. -/
def Graph.routeBound (g : Graph) (limit : Nat) : Nat :=
  ((g.nodes.toList.map (·.duration)).foldr (· + ·) 0 + g.nodes.size + 1) * (limit + 1) + 1

/-- Routes every live node of a graph, giving up after more than `limit` cycles without change. -/
def Floorplan.route (f : Floorplan) (g : Graph) (limit : Nat) : Run.Outcome :=
  (iterate (Run.step g limit) (g.routeBound limit) (Run.start g f)).getD (.error ⟨.unfinished, f⟩)

end LatticeSurgery
