import LatticeSurgery.Proofs.Chains.Supply
import LatticeSurgery.Proofs.Routing.Addresses
import LatticeSurgery.Proofs.Routing.Lifecycle

/-! # Occupancy of the patches

Two nodes that are active in the same cycle hold different patches, also where one of them is written into the
records of the past. The locks keep nodes apart that are active at the same moment of the run. A factory that begins in
the past holds one patch, which is no channel, and the book knows until when that patch was in use: every earlier
holder of a patch other than a channel had it as an address.
-/

namespace LatticeSurgery

/-! ## Kinds of patches -/

namespace Layout

def kind? (l : Layout) (c : Coord) : Option PatchKind := (l.patch? c).map (·.kind)

theorem kind?_modify {f : Patch → Patch} (keeps : ∀ patch, (f patch).kind = patch.kind) (l : Layout) (c d : Coord) :
    (l.modify c f).kind? d = l.kind? d :=
  map_patch?_modify keeps l c d

theorem kind?_foldl {step : Layout → Coord → Layout} (keeps : ∀ l c d, (step l c).kind? d = l.kind? d) (l : Layout)
    (cs : List Coord) (d : Coord) : (cs.foldl step l).kind? d = l.kind? d := by
  induction cs generalizing l with
  | nil => rfl
  | cons c cs ih => rw [List.foldl_cons, ih, keeps]

theorem kind?_unlock (l : Layout) (c d : Coord) (node : NodeId) : (l.unlock c node).kind? d = l.kind? d := by
  apply kind?_modify
  intro patch
  unfold Patch.unlocked
  split <;> rfl

theorem kind?_rotate (l : Layout) (c d : Coord) : (l.rotate c).kind? d = l.kind? d := by
  apply kind?_modify
  intro patch
  unfold Patch.rotated
  split <;> rfl

theorem kind?_lockAll {l m : Layout} {node : NodeId} {cycle duration : Nat} {cs : List Coord}
    (h : l.lockAll node cycle duration cs = .ok m) (d : Coord) : m.kind? d = l.kind? d := by
  induction cs generalizing l with
  | nil => cases h; rfl
  | cons c cs ih =>
      obtain ⟨next, first, h⟩ := bind_eq_ok.mp h
      rw [ih h]
      unfold lock at first
      split at first
      · obtain ⟨freeAt, _, first⟩ := bind_eq_ok.mp first
        obtain rfl := Except.ok.inj first
        apply kind?_modify
        exact fun _ => rfl
      · cases first
        rfl

theorem kind?_of_routable {l : Layout} {node : NodeId} {cycle : Nat} {c : Coord} (h : l.routable node cycle c) :
    l.kind? c = some .route := by
  unfold routable at h
  obtain ⟨patch, found, channel⟩ := (Option.any_eq_true _ _).mp h
  have kind : patch.kind = .route := by simpa using (Bool.and_eq_true_iff.mp channel).1
  rw [kind?, found, ← kind]
  rfl

end Layout

theorem Floorplan.kind?_release (f : Floorplan) (node : Node) (patches : List Coord) (c : Coord) :
    (f.release node patches).layout.kind? c = f.layout.kind? c := by
  unfold release
  dsimp only
  split
  · rw [Layout.kind?_foldl Layout.kind?_rotate, Layout.kind?_foldl fun l c d => l.kind?_unlock c d node.id]
  · rw [Layout.kind?_foldl fun l c d => l.kind?_unlock c d node.id]

/-- Every factory makes its resource at a fixed place that is no channel. -/
def Floorplan.Houses (f : Floorplan) (g : Graph) : Prop :=
  ∀ node ∈ g.live, node.isFactory → ∀ symbol ∈ node.targets,
    ∃ c, f.book.bindings[symbol]? = some c ∧ ∀ patch, f.layout.patch? c = some patch → patch.kind ≠ .route

namespace Run

variable {g : Graph} {f : Floorplan} {r s : Run} {id : NodeId} {lag : Nat} {new gone : List NodeId}
  {life : NodeId → Life}

/-- The patches of every node are noted as long as it lives: under its lock while it is active, and in the book for
    later unless they are channels. Lives that overlap use different patches. -/
structure Occupied (f : Floorplan) (life : NodeId → Life) (r : Run) : Prop where
  kinds : ∀ c, r.floor.layout.kind? c = f.layout.kind? c
  bindings : r.floor.book.bindings = f.book.bindings
  locked : ∀ id n patches, r.stages[id]? = some (.active n) → r.routes[id]? = some patches →
    ∀ c ∈ patches, r.floor.layout.lockAt c = some ⟨id, (life id).start, (life id).finish⟩
  busy : ∀ id patches, r.routes[id]? = some patches → ∀ c ∈ patches,
    f.layout.kind? c = some .route ∨ (life id).finish ≤ r.floor.book.busyUntil.getD c 0
  apart : ∀ a b first second, a ≠ b → r.routes[a]? = some first → r.routes[b]? = some second →
    (life a).start < (life b).finish → (life b).start < (life a).finish → first.Disjoint second

theorem Occupied.congr (occupied : r.Occupied f life) (floor : s.floor = r.floor) (stages : s.stages = r.stages)
    (routes : s.routes = r.routes) : s.Occupied f life := by
  obtain ⟨kinds, bindings, locked, busy, apart⟩ := occupied
  rw [← floor] at kinds bindings locked busy
  rw [← stages] at locked
  rw [← routes] at locked busy apart
  exact ⟨kinds, bindings, locked, busy, apart⟩

theorem Occupied.countDown (occupied : r.Occupied f life) (history : r.History g lag new gone life) :
    r.countDown.Occupied f life where
  kinds := occupied.kinds
  bindings := occupied.bindings
  locked := by
    intro id n patches found
    rcases history.stage_countDown id with ⟨k, old, _⟩ | ⟨_, still, same⟩
    · exact occupied.locked id k patches old
    · exact absurd (same ▸ found) (still n)
  busy := occupied.busy
  apart := occupied.apart

theorem Occupied.enqueue (occupied : r.Occupied f life) (id : NodeId) : (r.enqueue id).Occupied f life where
  kinds := occupied.kinds
  bindings := occupied.bindings
  locked := by
    intro n k patches found
    rw [getElem?_stages_enqueue] at found
    split at found
    · cases found
    · exact occupied.locked n k patches found
  busy := occupied.busy
  apart := occupied.apart

/-- Giving up the patches of a finished node takes no lock from an active one. -/
theorem Occupied.release {node : Node} {patches : List Coord} (occupied : r.Occupied f life)
    (finished : r.stages[node.id]? = some .resolved) :
    ({ r with floor := r.floor.release node patches } : Run).Occupied f life where
  kinds c := (r.floor.kind?_release node patches c).trans (occupied.kinds c)
  bindings := by
    rw [← occupied.bindings]
    unfold Floorplan.release
    dsimp only
    split <;> rfl
  locked := by
    intro n k route found held c member
    have lock := occupied.locked n k route found held c member
    rw [lockAt_release, lock, if_neg]
    rintro ⟨_, own⟩
    have own : n = node.id := by simpa using own
    have found : r.stages[n]? = some (.active k) := found
    rw [own, finished] at found
    cases found
  busy := by
    intro n route held c member
    have noted := occupied.busy n route held c member
    unfold Floorplan.release
    dsimp only
    split <;> exact noted
  apart := occupied.apart

theorem Occupied.pending (occupied : r.Occupied f life) (pending : NodeMap (List (Symbol × Coord))) :
    ({ r with floor := { r.floor with book := { r.floor.book with pending } } } : Run).Occupied f life :=
  ⟨occupied.kinds, occupied.bindings, occupied.locked, occupied.busy, occupied.apart⟩

/-! ## Placing -/

section Settle

variable {node : Node} {patches : List Coord} {asked floor : Floorplan}

theorem Occupied.fixed_of_twice (occupied : r.Occupied f life) (stocked : g.Stocked) (houses : f.Houses g)
    (known : g.node? id = some node) (symbol : Symbol) (more : 2 ≤ node.targets.count symbol) :
    ∃ c, r.floor.book.bindings[symbol]? = some c := by
  rw [← Graph.targetsOf_of_node? known] at more
  obtain ⟨maker, factory, makes, listed⟩ := stocked.twice more
  obtain ⟨made, found⟩ := Graph.exists_node?_of_mem_targetsOf makes
  have alive : g.isRetired maker = false := by
    rw [Bool.eq_false_iff]
    intro out
    rw [(stocked.retired out).1] at listed
    cases listed
  rw [Graph.isFactory_of_node? found] at factory
  rw [Graph.targetsOf_of_node? found] at makes
  have inside := Graph.mem_live_of_node? stocked.numbered found alive
  obtain ⟨c, bound, _⟩ := houses made inside factory symbol makes
  exact ⟨c, occupied.bindings ▸ bound⟩

theorem Admits.book_eq (admits : r.Admits g id node patches asked floor) :
    floor.book = node.targets.foldl (·.occupy (asked.startOf node r.cycle + node.duration) ·)
      (asked.book.commit node.id) := by
  obtain ⟨layout, _, occupied⟩ := bind_eq_ok.mp admits.occupied
  obtain ⟨book, noted, occupied⟩ := bind_eq_ok.mp occupied
  cases occupied
  exact AddressBook.lock_eq_ok noted

/-- A place of a node that is placed is a channel, or noted as in use until the node is finished. -/
theorem Admits.busy (admits : r.Admits g id node patches asked floor)
    (fixed : ∀ symbol, 2 ≤ node.targets.count symbol → ∃ c, r.floor.book.bindings[symbol]? = some c) {c : Coord}
    (member : c ∈ patches) : r.floor.layout.kind? c = some .route ∨
      asked.startOf node r.cycle + node.duration ≤ floor.book.busyUntil.getD c 0 := by
  rw [admits.book_eq, AddressBook.getD_busyUntil_occupyAll]
  obtain ⟨addresses, chosen, pending, choice, rfl, held, places, _⟩ := Floorplan.place_eq_some admits.placed
  rcases places c member with address | channel
  · right
    rw [if_pos (AddressBook.exists_address?_commit choice held fixed address)]
    exact Nat.le_max_right _ _
  · exact .inl (Layout.kind?_of_routable channel)

/-- Nothing that was noted about a place is forgotten. -/
theorem Admits.busyUntil_le (admits : r.Admits g id node patches asked floor) (c : Coord) :
    r.floor.book.busyUntil.getD c 0 ≤ floor.book.busyUntil.getD c 0 := by
  rw [admits.book_eq, AddressBook.getD_busyUntil_occupyAll]
  obtain ⟨_, _, pending, _, rfl, _⟩ := Floorplan.place_eq_some admits.placed
  split
  · exact Nat.le_max_left _ _
  · exact Nat.le_refl _

theorem Admits.bindings_eq (admits : r.Admits g id node patches asked floor) :
    floor.book.bindings = r.floor.book.bindings := by
  rw [admits.book_eq, AddressBook.bindings_occupyAll]
  obtain ⟨_, _, pending, _, rfl, _⟩ := Floorplan.place_eq_some admits.placed
  rfl

/-- A resource that has an address keeps it. -/
theorem Admits.address?_of_some (admits : r.Admits g id node patches asked floor) {symbol : Symbol} {c : Coord}
    (known : r.floor.book.address? symbol = some c) : floor.book.address? symbol = some c := by
  obtain ⟨_, _, pending, choice, rfl, held, _⟩ := Floorplan.place_eq_some admits.placed
  have committed := AddressBook.address?_commit_of_some choice held known
  rw [admits.book_eq]
  obtain ⟨busyUntil, same⟩ := AddressBook.occupyAll_eq _ _ node.targets
  rw [same]
  exact committed

/-- Every target has an address then, which is noted as in use until the node is finished. -/
theorem Admits.noted (admits : r.Admits g id node patches asked floor) {symbol : Symbol}
    (target : symbol ∈ node.targets) : ∃ c, floor.book.address? symbol = some c ∧
      asked.startOf node r.cycle + node.duration ≤ floor.book.busyUntil.getD c 0 := by
  rw [admits.book_eq]
  obtain ⟨_, _, pending, choice, rfl, held, _⟩ := Floorplan.place_eq_some admits.placed
  obtain ⟨c, committed⟩ := AddressBook.exists_address?_commit_of_mem choice held target
  refine ⟨c, ?_, ?_⟩
  · obtain ⟨busyUntil, same⟩ := AddressBook.occupyAll_eq _ _ node.targets
    rw [same]
    exact committed
  · rw [AddressBook.getD_busyUntil_occupyAll, if_pos ⟨symbol, target, committed⟩]
    exact Nat.le_max_right _ _

/-- No node begins before the last noted use of an address of its targets, unless that is later than now. -/
theorem Admits.min_le_startOf (admits : r.Admits g id node patches asked floor) {symbol : Symbol} {c : Coord}
    (target : symbol ∈ node.targets) (known : r.floor.book.address? symbol = some c) :
    min r.cycle (r.floor.book.busyUntil.getD c 0) ≤ asked.startOf node r.cycle := by
  obtain ⟨_, _, pending, _, rfl, _⟩ := Floorplan.place_eq_some admits.placed
  have first : r.floor.book.busyUntil.getD c 0 ≤ AddressBook.firstFree { r.floor.book with pending } node := by
    refine le_foldl_max ?_ 0
    exact List.mem_map.mpr ⟨c, List.mem_filterMap.mpr ⟨symbol, target, known⟩, rfl⟩
  rw [Floorplan.startOf]
  dsimp only at first ⊢
  split <;> omega

/-- A factory holds one patch, its fixed place, and begins when nothing uses it any more, unless that is later
    than now. -/
theorem Admits.factory (admits : r.Admits g id node patches asked floor) (occupied : r.Occupied f life)
    (stocked : g.Stocked) (houses : f.Houses g) (alive : g.isRetired id = false) (factory : node.isFactory) :
    ∃ c, patches = [c] ∧ f.layout.kind? c ≠ some .route ∧
      min r.cycle (r.floor.book.busyUntil.getD c 0) ≤ asked.startOf node r.cycle := by
  have known := admits.known
  obtain ⟨⟨symbol, targets⟩, bare⟩ := stocked.makes (Graph.stem?_of_node? known) factory
  have targets : node.targets = [symbol] := targets
  have inside := Graph.mem_live_of_node? stocked.numbered known alive
  obtain ⟨c, bound, solid⟩ := houses node inside factory symbol (by simp [targets])
  have address : r.floor.book.address? symbol = some c := by
    rw [AddressBook.address?, occupied.bindings, bound]
    rfl
  obtain ⟨addresses, chosen, pending, choice, _, _, _, alone⟩ := Floorplan.place_eq_some admits.placed
  have places : addresses = [c] := by
    simp only [targets, AddressBook.choose, address, Option.map_some, Option.some.injEq, Prod.mk.injEq] at choice
    exact choice.1.symm
  refine ⟨c, ?_, ?_, admits.min_le_startOf (by simp [targets]) address⟩
  · rw [← places]
    exact alone (by simp [Node.nonLocal, targets]) bare
  · intro channel
    obtain ⟨patch, found, kind⟩ := Option.map_eq_some_iff.mp channel
    exact solid patch found kind

/-- A node that is placed now meets no node of the past whose life overlaps with its own. -/
theorem Occupied.disjoint_of_admits (occupied : r.Occupied f life) (history : r.History g 0 new gone life)
    (stocked : g.Stocked) (houses : f.Houses g) (admits : r.Admits g id node patches asked floor)
    (alive : g.isRetired id = false) {other : NodeId} {route : List Coord} (differs : other ≠ id)
    (held : r.routes[other]? = some route) (overlaps : asked.startOf node r.cycle < (life other).finish) :
    route.Disjoint patches := by
  intro c member offered
  have fits := admits.fits
  obtain ⟨stage, known, placed⟩ := history.stage_of_route held
  -- the locks tell about the nodes that are active now, and the book about those of the past
  cases stage with
  | waiting => exact placed rfl
  | active n =>
      have lock := occupied.locked other n route known held c member
      have ends := history.active other n known
      refine fits.not_mem_of_lockAt stocked.numbered lock differs ?_ offered
      dsimp only
      omega
  | resolved =>
      have ended := history.resolved other known
      cases factory : node.isFactory with
      | false =>
          rw [Floorplan.startOf, factory] at overlaps
          simp only [Bool.false_eq_true, if_false] at overlaps
          omega
      | true =>
          obtain ⟨place, rfl, solid, late⟩ := admits.factory occupied stocked houses alive factory
          obtain rfl := List.mem_singleton.mp offered
          rcases occupied.busy other route held c member with channel | noted
          · exact solid channel
          · omega

theorem Occupied.settle (occupied : r.Occupied f life) (history : r.History g 0 new gone life)
    (stocked : g.Stocked) (houses : f.Houses g) (waits : r.stages[id]? = some .waiting)
    (admits : r.Admits g id node patches asked floor) :
    (r.settle id node patches (asked.startOf node r.cycle) floor).Occupied f
      (Function.update life id ⟨r.cycle, asked.startOf node r.cycle, asked.startOf node r.cycle + node.duration⟩) := by
  have alive := history.not_isRetired stocked.producer_alive waits
  have fits := admits.fits
  have locks := fits.lockAt stocked.numbered
  have past : ∀ {n}, n ≠ id → Function.update life id
      ⟨r.cycle, asked.startOf node r.cycle, asked.startOf node r.cycle + node.duration⟩ n = life n :=
    fun differs => Function.update_of_ne differs _ _
  have meets : ∀ {other route}, other ≠ id → r.routes[other]? = some route →
      asked.startOf node r.cycle < (life other).finish → route.Disjoint patches :=
    fun differs held => occupied.disjoint_of_admits history stocked houses admits alive differs held
  constructor
  case kinds =>
    intro c
    rw [← occupied.kinds c]
    exact Layout.kind?_lockAll fits.locked c
  case bindings => exact admits.bindings_eq.trans occupied.bindings
  case locked =>
    intro n k route found held c member
    rw [getElem?_stages_settle] at found
    rw [getElem?_routes_settle] at held
    refine (locks c).trans ?_
    split at found
    next here =>
        rw [if_pos here] at held
        cases held
        rw [if_pos member, here, Function.update_self]
    next differs =>
        rw [if_neg differs] at held
        have lock := occupied.locked n k route found held c member
        have ends := history.active n k found
        have apart := fits.not_mem_of_lockAt stocked.numbered lock differs (by dsimp only; omega)
        rw [if_neg apart, past differs]
        exact lock
  case busy =>
    intro n route held c member
    rw [getElem?_routes_settle] at held
    split at held
    next here =>
        cases held
        rw [here, Function.update_self, ← occupied.kinds c]
        exact admits.busy (occupied.fixed_of_twice stocked houses admits.known) member
    next differs =>
        rw [past differs]
        have later := admits.busyUntil_le c
        exact (occupied.busy n route held c member).imp_right fun noted => Nat.le_trans noted later
  case apart =>
    intro a b first second differs one two before after
    rw [getElem?_routes_settle] at one two
    split at one
    next here =>
        cases one
        have other : b ≠ id := fun same => differs (here.trans same.symm)
        rw [if_neg other] at two
        rw [here, Function.update_self, past other] at before
        exact List.disjoint_symm (meets other two before)
    next other =>
        split at two
        next here =>
            cases two
            rw [here, Function.update_self, past other] at after
            exact meets other one after
        next other' =>
            rw [past other, past other'] at before after
            exact occupied.apart a b first second differs one two before after

end Settle

/-! ## Every cycle of a run -/

theorem keeps_occupied (stocked : g.Stocked) (houses : f.Houses g) : Keeps g fun life t => t.Occupied f life where
  depends _ _ _ floor stages routes occupied := occupied.congr floor stages routes
  counted _ _ history occupied := occupied.countDown history
  released life t gone id node history occupied expires known := by
    have finished := ((history.gone id).mp expires).1
    rw [← stocked.numbered id node known] at finished
    exact occupied.release finished
  woken _ _ id occupied _ := occupied.enqueue id
  skipped _ _ pending occupied := occupied.pending pending
  settled _ _ _ _ _ _ _ _ _ history occupied waits admits := occupied.settle history stocked houses waits admits

theorem occupied_of_reaches {limit : Nat} (stocked : g.Stocked) (houses : f.Houses g)
    (reached : Reaches (step g limit) (start g f) r) : ∃ life, r.History g 1 [] [] life ∧ r.Occupied f life :=
  (keeps_occupied stocked houses).of_reaches ⟨fun _ => rfl, rfl, by simp, by simp, by simp⟩ reached

end Run

/-- Two nodes that a timeline lists as active in the same cycle hold different patches. -/
theorem disjoint_of_route {g : Graph} (produced : g.Produced) {f left : Floorplan} (houses : f.Houses g) {limit : Nat}
    {t : Timeline} (routed : f.route g limit = .ok (t, left)) :
    ∀ record ∈ t.cycles, ∀ a ∈ record.active, ∀ b ∈ record.active, a ≠ b →
      ∃ first second, t.routes[a]? = some first ∧ t.routes[b]? = some second ∧ first.Disjoint second := by
  obtain ⟨r, reached, _, rfl⟩ := Floorplan.reaches_of_route routed
  obtain ⟨life, history, occupied⟩ := Run.occupied_of_reaches produced.stocked houses reached
  intro record member a one b two differs
  obtain ⟨i, found⟩ := Array.getElem?_of_mem (Array.mem_toList_iff.mp (List.mem_of_mem_filter member))
  obtain ⟨⟨first, held⟩, begun, lives⟩ := history.lives_of_mem_active found one
  obtain ⟨⟨second, held'⟩, begun', lives'⟩ := history.lives_of_mem_active found two
  exact ⟨first, second, held, held', occupied.apart a b first second differs held held' (by omega) (by omega)⟩

/-- The factory is placed in cycle 1 and listed in cycle 0 as well, next to the preparation of the register; one
    patch of the row is locked by somebody else. -/
theorem disjoint_of_route_backdated :
    Run.gateOnInstance.Produced ∧ Run.lockedRow.Houses Run.gateOnInstance ∧
      ∃ t left, Run.lockedRow.route Run.gateOnInstance 3 = .ok (t, left) ∧
        ∃ record ∈ t.cycles, record.cycle = 0 ∧ record.active = [0, 3] ∧
          ∃ first second, t.routes[0]? = some first ∧ t.routes[3]? = some second ∧ first.Disjoint second := by
  have houses : Run.lockedRow.Houses Run.gateOnInstance := by
    have made : (Run.gateOnInstance.live.filter (·.isFactory)).flatMap (·.targets) = ["T#0"] := by decide +kernel
    intro node inside factory symbol target
    have member : symbol ∈ (Run.gateOnInstance.live.filter (·.isFactory)).flatMap (·.targets) :=
      List.mem_flatMap.mpr ⟨node, List.mem_filter.mpr ⟨inside, factory⟩, target⟩
    rw [made, List.mem_singleton] at member
    subst member
    refine ⟨⟨0, 2⟩, by decide +kernel, fun patch found => ?_⟩
    cases found
    decide
  have runs : (Run.lockedRow.route Run.gateOnInstance 3).toOption.any fun routed =>
      routed.1.cycles.head?.any fun record => record.cycle == 0 && record.active == [0, 3] := by decide +kernel
  obtain ⟨⟨t, left⟩, routed, runs⟩ := exists_ok_of_any runs
  obtain ⟨record, first, runs⟩ := (Option.any_eq_true _ _).mp runs
  simp only [Bool.and_eq_true, beq_iff_eq] at runs
  obtain ⟨cycle, active⟩ := runs
  have member := List.mem_of_head? first
  have apart := disjoint_of_route Run.produced_gateOnInstance houses routed record member 0 (by simp [active]) 3
    (by simp [active]) (by decide)
  exact ⟨Run.produced_gateOnInstance, houses, t, left, routed, record, member, cycle, active, apart⟩

end LatticeSurgery
