import LatticeSurgery.Resource
import LatticeSurgery.Error
import LatticeSurgery.Operation
import LatticeSurgery.Sorting
import LatticeSurgery.Iteration
import LatticeSurgery.Graph.Urgency
import LatticeSurgery.Graph.Basic
import LatticeSurgery.Graph.Layering
import LatticeSurgery.Graph.Builder
import LatticeSurgery.Graph.Estimate
import LatticeSurgery.Factory
import LatticeSurgery.Plan
import LatticeSurgery.Plan.Scheduler
import LatticeSurgery.Chains
import LatticeSurgery.Layout.Coord
import LatticeSurgery.Layout.Patch
import LatticeSurgery.Layout.Basic
import LatticeSurgery.Layout.Path
import LatticeSurgery.AddressBook
import LatticeSurgery.Timeline
import LatticeSurgery.Routing.Placement
import LatticeSurgery.Routing.Floorplan
import LatticeSurgery.Routing.Run
import LatticeSurgery.Settings
import LatticeSurgery.Block
import LatticeSurgery.Json.Quoted
import LatticeSurgery.Json.Token
import LatticeSurgery.Json.Value
import LatticeSurgery.Json.Form
import LatticeSurgery.Proofs.Lists
import LatticeSurgery.Proofs.Sorting
import LatticeSurgery.Proofs.Graph.Stem
import LatticeSurgery.Proofs.Graph.Numbered
import LatticeSurgery.Proofs.Graph.Wiring
import LatticeSurgery.Proofs.Graph.Construction
import LatticeSurgery.Proofs.Graph.Produced
import LatticeSurgery.Proofs.Graph.LastWriter
import LatticeSurgery.Proofs.Layout.Search
import LatticeSurgery.Proofs.Routing.Locks
import LatticeSurgery.Proofs.Routing.Placement
import LatticeSurgery.Proofs.Routing.Tenure
import LatticeSurgery.Proofs.Routing.LockTable
import LatticeSurgery.Proofs.Graph.Dependence
import LatticeSurgery.Proofs.Graph.Joined
import LatticeSurgery.Proofs.Graph.Settling
import LatticeSurgery.Proofs.Graph.Tiers
import LatticeSurgery.Proofs.Plan.Pool
import LatticeSurgery.Proofs.Plan.Sweep
import LatticeSurgery.Proofs.Plan.Schedule
import LatticeSurgery.Proofs.Plan.Outcome
import LatticeSurgery.Proofs.Plan.Order
import LatticeSurgery.Proofs.Chains.Service
import LatticeSurgery.Proofs.Chains.Binding
import LatticeSurgery.Proofs.Chains.Bound
import LatticeSurgery.Proofs.Chains.Retirement
import LatticeSurgery.Proofs.Chains.Linear
import LatticeSurgery.Proofs.Graph.Extension
import LatticeSurgery.Proofs.Chains.Links
import LatticeSurgery.Proofs.Chains.Rewiring
import LatticeSurgery.Proofs.Chains.Rebinding
import LatticeSurgery.Proofs.Graph.WellFormed
import LatticeSurgery.Proofs.Graph.Relayering
import LatticeSurgery.Proofs.Graph.Refusals
import LatticeSurgery.Proofs.Graph.Drawing
import LatticeSurgery.Proofs.Graph.Interaction
import LatticeSurgery.Proofs.Routing.History
import LatticeSurgery.Proofs.Routing.Lifecycle
import LatticeSurgery.Proofs.Chains.Supply
import LatticeSurgery.Proofs.Chains.Capture
import LatticeSurgery.Proofs.Routing.Addresses
import LatticeSurgery.Proofs.Routing.Occupancy
import LatticeSurgery.Proofs.Plan.FullSweep
import LatticeSurgery.Proofs.Routing.Readiness
import LatticeSurgery.Proofs.Routing.Pipeline
import LatticeSurgery.Proofs.Routing.Termination
import LatticeSurgery.Proofs.Routing.Standstill
import LatticeSurgery.Proofs.Routing.Budget
import LatticeSurgery.Proofs.Plan.Waiting
import LatticeSurgery.Proofs.Plan.Depth
import LatticeSurgery.Proofs.Plan.Congestion
import LatticeSurgery.Proofs.Plan.Deliveries
import LatticeSurgery.Proofs.Plan.Rationing
import LatticeSurgery.Proofs.Plan.Priority
import LatticeSurgery.Proofs.Plan.Levels
import LatticeSurgery.Proofs.Plan.Lines
import LatticeSurgery.Proofs.Plan.Production
import LatticeSurgery.Proofs.Plan.FactoryOrder
import LatticeSurgery.Proofs.Plan.Feeding
import LatticeSurgery.Proofs.Plan.FactoryDepth
import LatticeSurgery.Proofs.Plan.Lockstep
import LatticeSurgery.Proofs.Chains.Collision
import LatticeSurgery.Proofs.Routing.Slots
import LatticeSurgery.Proofs.Routing.Allocation
import LatticeSurgery.Proofs.Routing.Wear
import LatticeSurgery.Proofs.Layout.Exploration
import LatticeSurgery.Proofs.Layout.ShortestPath
import LatticeSurgery.Proofs.Layout.Nearest
import LatticeSurgery.Proofs.Layout.Picture
import LatticeSurgery.Proofs.Routing.Shape
import LatticeSurgery.Proofs.Routing.Backdating
import LatticeSurgery.Proofs.Routing.Lodging
import LatticeSurgery.Proofs.Routing.Makespan
import LatticeSurgery.Proofs.Json.Text
import LatticeSurgery.Proofs.Json.ReadBack
