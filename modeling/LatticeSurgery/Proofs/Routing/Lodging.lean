import LatticeSurgery.Proofs.Routing.Backdating

/-! # Resources that keep their place

A resource that nobody gives up stays where it was first put, so the book knows about every use of its place. Whoever
reads such a resource begins when whoever passed it on has finished, also where the beginning is dated back.
-/

namespace LatticeSurgery

/-- The resource keeps its place: it is a fixed one, or no node that can come up gives up its slots. -/
def Floorplan.Lodges (f : Floorplan) (g : Graph) (symbol : Symbol) : Prop :=
  (∃ c, f.book.bindings[symbol]? = some c) ∨
    ∀ id node, g.node? id = some node → (g.isRetired id = false ∨ ∃ n, ∃ edge ∈ g.producers n, edge.node = id) →
      node.operation.releasesSlots → symbol ∉ node.targets

/-- Lives that wait for each other: a node is placed when its producers have finished, and what is made again is not
    begun before. -/
structure Graph.Paced (g : Graph) (life : NodeId → Life) : Prop where
  lives : ∀ id ∈ g.liveIds, g.Lives id (life id)
  follows : ∀ id ∈ g.liveIds, ∀ edge ∈ g.producers id, (life edge.node).finish ≤ (life id).admitted
  after : ∀ id ∈ g.liveIds, g.isFactory id → ∀ edge ∈ g.producers id, edge.symbol ∈ g.targetsOf edge.node →
    edge.symbol ∈ g.targetsOf id → (life edge.node).finish ≤ (life id).start

namespace Run

variable {g : Graph} {f : Floorplan} {r : Run} {id : NodeId} {new gone : List NodeId} {life : NodeId → Life}

/-- The book knows how long every placed node uses the places of such targets, and a node that reads one of them begins
    when whoever passed it on has finished. -/
structure Lodged (g : Graph) (f : Floorplan) (life : NodeId → Life) (r : Run) : Prop where
  bindings : r.floor.book.bindings = f.book.bindings
  noted : ∀ id patches, r.routes[id]? = some patches → ∀ symbol ∈ g.targetsOf id, f.Lodges g symbol →
    ∃ c, r.floor.book.address? symbol = some c ∧ (life id).finish ≤ r.floor.book.busyUntil.getD c 0
  after : ∀ id patches, r.routes[id]? = some patches → ∀ edge ∈ g.producers id, f.Lodges g edge.symbol →
    edge.symbol ∈ g.targetsOf edge.node → edge.symbol ∈ g.targetsOf id → (life edge.node).finish ≤ (life id).start

theorem Lodged.release {node : Node} (lodged : r.Lodged g f life) (known : g.node? id = some node)
    (wanted : g.isRetired id = false ∨ ∃ n, ∃ edge ∈ g.producers n, edge.node = id) (patches : List Coord) :
    ({ r with floor := r.floor.release node patches } : Run).Lodged g f life where
  bindings := by
    rw [← lodged.bindings]
    unfold Floorplan.release
    dsimp only
    split <;> rfl
  noted := by
    intro n route held symbol target lodges
    obtain ⟨c, address, noted⟩ := lodged.noted n route held symbol target lodges
    unfold Floorplan.release
    dsimp only
    split
    next gives =>
        refine ⟨c, ?_, noted⟩
        rw [AddressBook.address?_free]
        · exact address
        · rw [lodged.bindings]
          exact lodges.imp_right fun kept => kept id node known wanted gives
    · exact ⟨c, address, noted⟩
  after := lodged.after

theorem Lodged.settle {node : Node} {patches : List Coord} {asked floor : Floorplan} (lodged : r.Lodged g f life)
    (history : r.History g 0 new gone life) (waits : r.stages[id]? = some .waiting)
    (admits : r.Admits g id node patches asked floor) :
    (r.settle id node patches (asked.startOf node r.cycle) floor).Lodged g f
      (Function.update life id ⟨r.cycle, asked.startOf node r.cycle, asked.startOf node r.cycle + node.duration⟩) := by
  have past : ∀ {n}, n ≠ id → Function.update life id
      ⟨r.cycle, asked.startOf node r.cycle, asked.startOf node r.cycle + node.duration⟩ n = life n :=
    fun differs => Function.update_of_ne differs _ _
  have targets : g.targetsOf id = node.targets := Graph.targetsOf_of_node? admits.known
  -- whatever a node in play reads from is finished, so it is not the node placed now
  have finished : ∀ {n stage edge}, r.stages[n]? = some stage → edge ∈ g.producers n →
      r.stages[edge.node]? = some .resolved ∧ edge.node ≠ id := by
    intro n stage edge found inside
    have done := history.ready n stage found edge inside
    refine ⟨done, fun same => ?_⟩
    rw [same, waits] at done
    cases done
  constructor
  case bindings => exact admits.bindings_eq.trans lodged.bindings
  case noted =>
    intro n route held symbol target lodges
    rw [getElem?_routes_settle] at held
    split at held
    next here =>
        rw [here, Function.update_self]
        rw [here, targets] at target
        exact admits.noted target
    next differs =>
        rw [past differs]
        obtain ⟨c, address, noted⟩ := lodged.noted n route held symbol target lodges
        exact ⟨c, admits.address?_of_some address, Nat.le_trans noted (admits.busyUntil_le c)⟩
  case after =>
    intro n route held edge inside lodges made read
    rw [getElem?_routes_settle] at held
    split at held
    next here =>
        rw [here] at inside read
        obtain ⟨done, other⟩ := finished waits inside
        obtain ⟨_, patches, placed⟩ := history.placed edge.node _ done (by simp)
        rw [here, Function.update_self, past other]
        rw [targets] at read
        have ended := history.resolved edge.node done
        obtain ⟨c, address, used⟩ := lodged.noted edge.node patches placed edge.symbol made lodges
        have late := admits.min_le_startOf read address
        dsimp only
        omega
    next differs =>
        obtain ⟨stage, found, _⟩ := history.stage_of_route held
        rw [past differs, past (finished found inside).2]
        exact lodged.after n route held edge inside lodges made read

theorem keeps_lodged (g : Graph) (f : Floorplan) : Keeps g (Lodged g f) where
  depends := by
    rintro life t s floor - routes ⟨bindings, noted, after⟩
    rw [← floor] at bindings noted
    rw [← routes] at noted after
    exact ⟨bindings, noted, after⟩
  counted _ _ _ lodged := ⟨lodged.bindings, lodged.noted, lodged.after⟩
  released life t gone id node history lodged member known := by
    have finished := ((history.gone id).mp member).1
    exact lodged.release known (history.wanted id _ finished) _
  woken _ _ _ lodged _ := ⟨lodged.bindings, lodged.noted, lodged.after⟩
  skipped _ _ _ lodged := ⟨lodged.bindings, lodged.noted, lodged.after⟩
  settled _ _ _ _ _ _ _ _ _ history lodged waits admits := lodged.settle history waits admits

theorem lodged_of_reaches {limit : Nat} (reached : Reaches (step g limit) (start g f) r) :
    ∃ life, r.History g 1 [] [] life ∧ r.Lodged g f life :=
  (keeps_lodged g f).of_reaches ⟨rfl, by simp, by simp⟩ reached

theorem Lodged.paced (lodged : r.Lodged g f life) (history : r.History g 1 [] [] life) (numbered : g.Numbered)
    (finished : ∀ id ∈ g.liveIds, r.stages[id]? = some .resolved)
    (stays : ∀ node ∈ g.live, node.isFactory → node.producers ≠ [] → ∀ symbol ∈ node.targets, f.Lodges g symbol) :
    g.Paced life where
  lives id live := (history.lives id _ (finished id live) (by simp)).1
  follows id live := history.follows id _ (finished id live) (by simp)
  after := by
    intro id live factory edge inside made read
    obtain ⟨patches, placed⟩ := (history.placed id _ (finished id live) (by simp)).2
    obtain ⟨node, member, rfl⟩ := List.mem_map.mp live
    obtain ⟨known, _⟩ := (Graph.mem_live_of_numbered numbered).mp member
    have waits : node.producers ≠ [] := List.ne_nil_of_mem (Graph.producers_of_node? known ▸ inside)
    have lodges := stays node member (Graph.isFactory_of_node? known ▸ factory) waits edge.symbol
      (Graph.targetsOf_of_node? known ▸ read)
    exact lodged.after node.id patches placed edge inside lodges made read

end Run

end LatticeSurgery
