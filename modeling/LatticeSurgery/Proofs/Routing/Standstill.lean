import LatticeSurgery.Proofs.Chains.Supply
import LatticeSurgery.Proofs.Routing.Addresses
import LatticeSurgery.Proofs.Routing.Termination

/-! # Standstill

In a cycle in which nothing is placed, finishes or runs every patch is free. The answer to a request for a
place depends on the clock only through locks, so whoever is refused then is refused for ever, and the run
stands still. The limit on such cycles says how long it stands before it gives up, and nothing else.
-/

namespace LatticeSurgery

/-! ## Asking for a place -/

/-- What no floor can give to a node at a cycle: more ancillae than a list has room for, or an end that is not a
    64-bit number. -/
inductive Node.Exceeds (node : Node) (cycle : Nat) : Error → Prop where
  | room : Layout.roomLimit ≤ node.ancillae → Exceeds node cycle (.oversized node.ancillae)
  | time : wordLimit ≤ cycle + node.duration → Exceeds node cycle .overflow

theorem Node.Exceeds.isFatal {node : Node} {cycle : Nat} {e : Error} (exceeds : node.Exceeds cycle e) : e.isFatal := by
  cases exceeds <;> rfl

theorem Node.Exceeds.later {node : Node} {cycle later : Nat} {e : Error} (exceeds : node.Exceeds cycle e)
    (le : cycle ≤ later) : node.Exceeds later e := by
  cases exceeds with
  | room many => exact .room many
  | time long => exact .time (long.trans (Nat.add_le_add_right le _))

namespace Layout

variable {l : Layout}

theorem isFree_of_free (free : ∀ c, l.lockAt c = none) {c : Coord} {patch : Patch} (found : l.patch? c = some patch)
    (node : NodeId) (cycle : Nat) : patch.isFree node cycle := by
  have unlocked := free c
  rw [lockAt, found, Option.bind_some] at unlocked
  simp [Patch.isFree, unlocked]

theorem probe_of_free (free : ∀ c, l.lockAt c = none) (c : Coord) (node : NodeId) (cycle : Nat) :
    l.probe c node cycle = (l.patch? c).isSome := by
  unfold probe
  cases found : l.patch? c with
  | none => rfl
  | some patch => exact isFree_of_free free found node cycle

theorem routable_of_free (free : ∀ c, l.lockAt c = none) (node : NodeId) (cycle : Nat) :
    l.routable node cycle = fun c => (l.patch? c).any (·.kind = .route) := by
  funext c
  unfold routable
  cases found : l.patch? c with
  | none => rfl
  | some patch => simp [isFree_of_free free found]

section Clock

variable {node : Node} {cycle other : Nat} (same : l.routable node.id cycle = l.routable node.id other)
include same

theorem connect_congr (arity index : Nat) (here : Coord) (chain rest : List Coord) :
    l.connect node cycle arity index here chain rest = l.connect node other arity index here chain rest := by
  induction rest generalizing index here chain with
  | nil => rfl
  | cons next rest ih => simp only [connect, route, same, ih]

theorem surround_congr (chain addresses : List Coord) :
    l.surround node cycle chain addresses = l.surround node other chain addresses := by
  induction addresses generalizing chain with
  | nil => rfl
  | cons address rest ih => simp only [surround, ancillae, spare, same, ih]

/-- Of the clock, looking for a route sees only which channel patches are free. -/
theorem findRoute_congr (addresses : List Coord) :
    l.findRoute node addresses cycle = l.findRoute node addresses other := by
  cases addresses with
  | nil => rfl
  | cons anchor rest => simp only [findRoute, connect_congr same, surround_congr same]

end Clock

theorem exceeds_of_surround {node : Node} {cycle : Nat} {chain addresses : List Coord} {e : Error}
    (h : l.surround node cycle chain addresses = .error e) : node.Exceeds cycle e := by
  induction addresses generalizing chain with
  | nil => cases h
  | cons address rest ih =>
      rw [surround] at h
      split at h
      next oversized =>
          cases h
          obtain ⟨⟨many, _⟩, rfl⟩ := ancillae_eq_error_iff.mp oversized
          exact .room many
      · cases h
      · exact ih h

theorem exceeds_of_lockAll {node : Node} {cycle : Nat} {cs : List Coord} {e : Error}
    (h : l.lockAll node.id cycle node.duration cs = .error e) : node.Exceeds cycle e := by
  induction cs generalizing l with
  | nil => cases h
  | cons c cs ih =>
      rcases bind_eq_error.mp h with failed | ⟨next, _, h⟩
      · unfold lock at failed
        split at failed
        · rcases bind_eq_error.mp failed with overflow | ⟨_, _, impossible⟩
          · obtain ⟨long, rfl⟩ := addWords_eq_error_iff.mp overflow
            exact .time long
          · cases impossible
        · cases failed
      · exact ih h

end Layout

namespace Floorplan

variable {f : Floorplan} {node : Node}

/-- Choices that are pending have no part in the answer. -/
theorem place_pending (f : Floorplan) (pending : NodeMap (List (Symbol × Coord))) (node : Node) (cycle : Nat) :
    (({ f with book := { f.book with pending } } : Floorplan).place node cycle).1 = (f.place node cycle).1 := by
  rw [place_fst, place_fst, AddressBook.resolve_pending]
  rfl

/-- On a free floor the answer is the same at all times. -/
theorem place_of_free (free : ∀ c, f.layout.lockAt c = none) (cycle other : Nat) :
    (f.place node cycle).1 = (f.place node other).1 := by
  have same : f.layout.routable node.id cycle = f.layout.routable node.id other := by
    rw [Layout.routable_of_free free, Layout.routable_of_free free]
  have offered : f.patchesFor node cycle = f.patchesFor node other := by
    funext addresses
    simp only [patchesFor, Layout.probe_of_free free, Layout.findRoute_congr same]
  rw [place_fst, place_fst, offered]

theorem exceeds_of_place {cycle : Nat} {e : Error} (h : (f.place node cycle).1 = .error e) : node.Exceeds cycle e := by
  rw [place_fst] at h
  cases resolved : (f.book.resolve node).1 with
  | none =>
      rw [resolved] at h
      cases h
  | some addresses =>
      rw [resolved, Option.elim_some] at h
      unfold patchesFor at h
      split at h
      · cases h
      · split at h
        · unfold Layout.findRoute at h
          split at h
          · cases h
          · split at h
            · cases h
            · exact Layout.exceeds_of_surround h
        · cases h

theorem exceeds_of_occupy {patches : List Coord} {start : Nat} {e : Error}
    (h : f.occupy node patches start = .error e) : node.Exceeds start e := by
  rcases bind_eq_error.mp h with unlocked | ⟨layout, _, h⟩
  · exact Layout.exceeds_of_lockAll unlocked
  · rcases bind_eq_error.mp h with unnoted | ⟨book, _, impossible⟩
    · rcases bind_eq_error.mp unnoted with overflow | ⟨_, _, impossible⟩
      · obtain ⟨long, rfl⟩ := addWords_eq_error_iff.mp overflow
        exact .time long
      · cases impossible
    · cases impossible

/-- Every patch is free, and still each of some nodes is refused a place, whenever it asks. -/
structure Blocks (f : Floorplan) (g : Graph) (ids : List NodeId) : Prop where
  free : ∀ c, f.layout.lockAt c = none
  refused : ∀ id ∈ ids, ∃ node, g.node? id = some node ∧ ∀ cycle, (f.place node cycle).1 = .ok none

theorem Blocks.of_subset {g : Graph} {ids fewer : List NodeId} (blocks : f.Blocks g ids) (subset : fewer ⊆ ids) :
    f.Blocks g fewer :=
  ⟨blocks.free, fun id member => blocks.refused id (subset member)⟩

theorem Blocks.pending {g : Graph} {ids : List NodeId} (blocks : f.Blocks g ids)
    (pending : NodeMap (List (Symbol × Coord))) :
    ({ f with book := { f.book with pending } } : Floorplan).Blocks g ids where
  free := blocks.free
  refused id member := by
    obtain ⟨node, known, refused⟩ := blocks.refused id member
    refine ⟨node, known, fun cycle => ?_⟩
    rw [place_pending]
    exact refused cycle

end Floorplan

namespace Run

variable {g : Graph} {r s : Run} {id : NodeId} {limit : Nat} {f : Floorplan} {queue : List NodeId}

/-! ## Taking turns in vain -/

theorem exceeds_of_tryAdmit {failure : Failure Floorplan} (h : r.tryAdmit g id = .error failure) :
    ∃ node, g.node? id = some node ∧ node.Exceeds r.cycle failure.error := by
  unfold tryAdmit at h
  split at h
  · cases h
  next node known =>
      refine ⟨node, known, ?_⟩
      split at h
      next e floor asked =>
          cases h
          exact Floorplan.exceeds_of_place (congrArg Prod.fst asked)
      · cases h
      next patches floor asked =>
          dsimp only at h
          split at h
          next e failed =>
              cases h
              exact (Floorplan.exceeds_of_occupy failed).later (floor.startOf_le node r.cycle).1
          · cases h

/-- Only a node that asks for more than any floor can give makes the turns fail. -/
theorem exceeds_of_admitAll {failure : Failure Floorplan} (h : r.admitAll g queue = .error failure) :
    ∃ id ∈ queue, ∃ node, g.node? id = some node ∧ node.Exceeds r.cycle failure.error := by
  induction queue generalizing r with
  | nil => cases h
  | cons id queue ih =>
      rcases bind_eq_error.mp h with failed | ⟨next, turn, h⟩
      · exact ⟨id, List.mem_cons_self, exceeds_of_tryAdmit failed⟩
      · obtain ⟨other, member, exceeds⟩ := ih h
        have same : next.cycle = r.cycle := by
          rcases tryAdmit_cases turn with ⟨pending, rfl⟩ | ⟨node, patches, asked, floor, _, rfl⟩ <;> rfl
        exact ⟨other, List.mem_cons_of_mem _ member, same ▸ exceeds⟩

theorem isFatal_of_admitAll {failure : Failure Floorplan} (h : r.admitAll g queue = .error failure) :
    failure.error.isFatal := by
  obtain ⟨_, _, _, _, exceeds⟩ := exceeds_of_admitAll h
  exact exceeds.isFatal

theorem mem_admitted_of_admitAll (h : r.admitAll g queue = .ok s) (member : id ∈ r.admitted) : id ∈ s.admitted := by
  induction queue generalizing r with
  | nil =>
      cases h
      exact member
  | cons first queue ih =>
      obtain ⟨next, turn, h⟩ := bind_eq_ok.mp h
      apply ih h
      rcases tryAdmit_cases turn with ⟨pending, rfl⟩ | ⟨node, patches, asked, floor, _, rfl⟩
      · exact member
      · exact List.mem_append_left _ member

theorem refused_of_tryAdmit {node : Node} (known : g.node? id = some node) (h : r.tryAdmit g id = .ok s)
    (unplaced : id ∉ s.admitted) :
    (r.floor.place node r.cycle).1 = .ok none ∧
      ∃ pending, s = { r with floor := { r.floor with book := { r.floor.book with pending } } } := by
  obtain ⟨pending, same⟩ := r.floor.place_snd node r.cycle
  unfold tryAdmit at h
  rw [known] at h
  dsimp only at h
  split at h
  · cases h
  next floor asked =>
      rw [asked] at same
      cases h
      exact ⟨congrArg Prod.fst asked, pending, congrArg (fun floor => { r with floor }) same⟩
  · split at h
    · cases h
    · cases h
      exact absurd (List.mem_append_right _ (List.mem_singleton_self id)) unplaced

/-- If nobody is placed, everybody was refused by the floor as it was. -/
theorem refused_of_admitAll (known : ∀ id ∈ queue, ∃ node, g.node? id = some node) (h : r.admitAll g queue = .ok s)
    (unplaced : s.admitted = []) (member : id ∈ queue) :
    ∃ node, g.node? id = some node ∧ (r.floor.place node r.cycle).1 = .ok none := by
  induction queue generalizing r with
  | nil => cases member
  | cons first queue ih =>
      obtain ⟨next, turn, h⟩ := bind_eq_ok.mp h
      obtain ⟨node, here⟩ := known first List.mem_cons_self
      have skipped : first ∉ next.admitted := by
        intro placed
        have listed := mem_admitted_of_admitAll h placed
        rw [unplaced] at listed
        cases listed
      -- a refusal changes only what is pending, so the rest of the queue asks the same floor
      obtain ⟨refused, pending, rfl⟩ := refused_of_tryAdmit here turn skipped
      rcases List.mem_cons.mp member with rfl | member
      · exact ⟨node, here, refused⟩
      · obtain ⟨node, found, refused⟩ := ih (fun id member => known id (List.mem_cons_of_mem _ member)) h member
        rw [Floorplan.place_pending] at refused
        exact ⟨node, found, refused⟩

/-- A floor that blocks a queue lets nobody in, and only choices become pending. -/
theorem admitAll_of_blocks (blocks : r.floor.Blocks g queue) :
    ∃ pending, r.admitAll g queue = .ok { r with floor := { r.floor with book := { r.floor.book with pending } } } := by
  induction queue generalizing r with
  | nil => exact ⟨r.floor.book.pending, rfl⟩
  | cons id queue ih =>
      obtain ⟨node, known, refused⟩ := blocks.refused id List.mem_cons_self
      obtain ⟨pending, same⟩ := r.floor.place_snd node r.cycle
      have turn : r.tryAdmit g id = .ok { r with floor := { r.floor with book := { r.floor.book with pending } } } := by
        have asked : r.floor.place node r.cycle = (.ok none, { r.floor with book := { r.floor.book with pending } }) :=
          Prod.ext (refused r.cycle) same
        rw [tryAdmit, known]
        dsimp only
        rw [asked]
      have rest : queue ⊆ id :: queue := fun _ => List.mem_cons_of_mem id
      obtain ⟨later, h⟩ := ih (r := { r with floor := { r.floor with book := { r.floor.book with pending } } })
        ((blocks.of_subset rest).pending pending)
      refine ⟨later, ?_⟩
      rw [admitAll, turn]
      exact h

/-! ## Nobody active, nothing locked -/

/-- Every lock carries the name of a node of the graph. -/
def Native (g : Graph) (r : Run) : Prop :=
  ∀ c lock, r.floor.layout.lockAt c = some lock → ∃ node, g.node? lock.node = some node

theorem Native.release (native : r.Native g) (node : Node) (patches : List Coord) :
    ({ r with floor := r.floor.release node patches } : Run).Native g := by
  intro c lock found
  rw [lockAt_release] at found
  split at found
  · cases found
  · exact native c lock found

theorem Native.settle {node : Node} {patches : List Coord} {start : Nat} {floor : Floorplan} (native : r.Native g)
    (numbered : g.Numbered) (fits : r.Fits g id node patches start floor) :
    (r.settle id node patches start floor).Native g := by
  intro c lock found
  rw [show (r.settle id node patches start floor).floor = floor from rfl, fits.lockAt numbered] at found
  split at found
  · cases found
    exact ⟨node, fits.known⟩
  · exact native c lock found

theorem Native.cycle (native : r.Native g) (numbered : g.Numbered) (queued : (r.turnover g).Queued)
    (h : (r.turnover g).admission g = .ok s) : s.Native g := by
  have turned : (r.turnover g).Native g :=
    turnover_induction (P := Native g) native (fun _ _ _ native _ _ => native.release _ _) (fun _ _ native _ => native)
  exact admission_induction (P := Native g) queued turned (fun _ _ native => native)
    (fun _ _ _ _ _ _ native _ admits => native.settle numbered admits.fits) h

theorem native_of_reaches (numbered : g.Numbered) (free : ∀ c, f.layout.lockAt c = none)
    (reached : Reaches (step g limit) (start g f) r) : r.Native g := by
  induction reached with
  | refl =>
      refine wakeAll_induction (P := Native g) (fun _ _ native _ => native) ?_ g.entries
      intro c lock found
      rw [free c] at found
      cases found
  | @tail before after reached next ih =>
      obtain ⟨life, history⟩ := history_of_reaches reached
      obtain ⟨t, admitted, last⟩ := step_eq_again next
      obtain ⟨idle, rfl⟩ := close_eq_again last
      have placed : t.Native g := ih.cycle numbered history.queued_turnover admitted
      exact placed

theorem Native.free {lag : Nat} (native : r.Native g) (coherent : r.Coherent g lag []) (idle : r.active = [])
    (c : Coord) : r.floor.layout.lockAt c = none := by
  refine Option.eq_none_iff_forall_ne_some.mpr fun lock found => ?_
  obtain ⟨node, known⟩ := native c lock found
  have owner := (coherent.owned c lock found (by rw [known]; rfl)).1
  simp [idle] at owner

theorem coherent_of_free (numbered : g.Numbered) (free : ∀ c, f.layout.lockAt c = none)
    (reached : Reaches (step g limit) (start g f) r) : r.Coherent g 1 [] ∧ r.Queued := by
  refine coherent_of_reaches numbered (fun c lock found => ?_) reached
  rw [free c] at found
  cases found

theorem free_of_idle (numbered : g.Numbered) (free : ∀ c, f.layout.lockAt c = none)
    (reached : Reaches (step g limit) (start g f) r) (idle : r.active = []) (c : Coord) :
    r.floor.layout.lockAt c = none :=
  (native_of_reaches numbered free reached).free (coherent_of_free numbered free reached).1 idle c

/-! ## Standing still -/

/-- Some nodes wait, none is active, and the floor blocks those that wait. -/
structure Deadlocked (g : Graph) (r : Run) : Prop where
  idle : r.active = []
  waits : r.waiting ≠ []
  blocks : r.floor.Blocks g r.waiting

theorem turnover_of_idle (idle : r.active = []) : r.turnover g = r := by
  have none : r.expiring = [] := by simp [expiring, idle]
  have counted : r.countDown = r := by
    rw [countDown, idle]
    exact congrArg (fun active => { r with active }) idle.symm
  rw [turnover, none]
  exact counted

/-- A quiet cycle finds a deadlock. -/
theorem Quiet.deadlocked_of_known (quiet : r.Quiet g) (numbered : g.Numbered)
    (known : ∀ id ∈ r.waiting, ∃ node, g.node? id = some node) (free : ∀ c, f.layout.lockAt c = none)
    (reached : Reaches (step g limit) (start g f) r) : r.Deadlocked g := by
  obtain ⟨life, history⟩ := history_of_reaches reached
  obtain ⟨s, admitted, silent⟩ := quiet.ended
  obtain ⟨idle, unplaced⟩ := (isQuiet_admission_iff history.queued_turnover admitted).mp silent
  have unlocked := free_of_idle numbered free reached idle
  rw [turnover_of_idle idle] at admitted
  refine ⟨idle, fun none => quiet.goesOn (by simp [none, idle]), unlocked, fun id member => ?_⟩
  have queued : ∀ id ∈ g.prioritise r.waiting, ∃ node, g.node? id = some node :=
    fun id member => known id (mem_sortBy.mp member)
  obtain ⟨node, found, refused⟩ := refused_of_admitAll queued admitted unplaced (mem_sortBy.mpr member)
  exact ⟨node, found, fun cycle => (Floorplan.place_of_free unlocked cycle r.cycle).trans refused⟩

theorem Quiet.deadlocked (quiet : r.Quiet g) (joined : g.Joined) (free : ∀ c, f.layout.lockAt c = none)
    (reached : Reaches (step g limit) (start g f) r) : r.Deadlocked g := by
  refine quiet.deadlocked_of_known joined.numbered (fun id member => ?_) free reached
  obtain ⟨life, history⟩ := history_of_reaches reached
  have waits := history.queued id member List.not_mem_nil
  have live := live_of_reaches joined reached ⟨_, waits⟩
  exact Graph.lt_nextId_iff.mp ((Graph.mem_liveIds joined.numbered).mp live).1

/-- In a deadlock the queue is put in order and everybody in it is refused again. -/
theorem Deadlocked.admission (deadlocked : r.Deadlocked g) :
    ∃ s, (r.turnover g).admission g = .ok s ∧ s.isQuiet r.expiring ∧ s.Deadlocked g ∧
      s.waiting = g.prioritise r.waiting ∧ s.cycle = r.cycle ∧ s.idle = r.idle := by
  have blocks : r.floor.Blocks g (g.prioritise r.waiting) :=
    deadlocked.blocks.of_subset (sortBy_perm g.takesTurn r.waiting).subset
  obtain ⟨pending, h⟩ := admitAll_of_blocks (r := { r with waiting := g.prioritise r.waiting, admitted := [] }) blocks
  have unfinished : r.expiring = [] := by simp [expiring, deadlocked.idle]
  rw [turnover_of_idle deadlocked.idle]
  refine ⟨_, h, isQuiet_iff.mpr ⟨rfl, unfinished, deadlocked.idle⟩, ?_, rfl, rfl, rfl⟩
  exact ⟨deadlocked.idle, g.prioritise_ne_nil deadlocked.waits, blocks.pending pending⟩

theorem Deadlocked.quiet (deadlocked : r.Deadlocked g) : r.Quiet g := by
  obtain ⟨s, admitted, silent, _⟩ := deadlocked.admission
  exact ⟨by simp [deadlocked.waits], s, admitted, silent⟩

/-- Another cycle changes the clock and the count of quiet cycles, and ends the run if there are too many. -/
theorem Deadlocked.step (deadlocked : r.Deadlocked g) (limit : Nat) :
    ∃ (left : Floorplan) (t : Run), left.Blocks g (g.prioritise r.waiting) ∧ t.Deadlocked g ∧
      t.waiting = g.prioritise r.waiting ∧ t.cycle = r.cycle + 1 ∧ t.idle = r.idle + 1 ∧
      r.step g limit = if limit < r.idle + 1 then .done (.error ⟨.unroutable r.cycle (g.prioritise r.waiting), left⟩)
        else .again t := by
  obtain ⟨s, admitted, silent, still, waiting, cycle, idle⟩ := deadlocked.admission
  have kept : s.waiting.filter (!s.admitted.contains ·) = s.waiting := by simp [(isQuiet_iff.mp silent).1]
  refine ⟨s.floor, s.closed r.expiring (s.idle + 1), waiting ▸ still.blocks, ⟨still.idle, ?_, ?_⟩, ?_, ?_, ?_, ?_⟩
  · rw [closed, kept]
    exact still.waits
  · rw [closed, kept]
    exact still.blocks
  · exact kept.trans waiting
  · exact congrArg (· + 1) cycle
  · exact congrArg (· + 1) idle
  · rw [step_of_admission deadlocked.quiet.goesOn admitted, close_of_quiet silent, waiting, cycle, idle]

theorem Deadlocked.of_step (deadlocked : r.Deadlocked g) (h : r.step g limit = .again s) : s.Deadlocked g := by
  obtain ⟨left, t, _, still, _, _, _, step⟩ := deadlocked.step limit
  rw [step] at h
  split at h
  · cases h
  · cases h
    exact still

/-- The run gives up after as many cycles as it has to spare, and reports who waits. -/
theorem Deadlocked.iterate {spare : Nat} (deadlocked : r.Deadlocked g) (counted : r.idle + spare = limit) :
    ∃ left : Floorplan, left.Blocks g (g.prioritise r.waiting) ∧
      LatticeSurgery.iterate (Run.step g limit) (spare + 1) r
        = some (.error ⟨.unroutable (r.cycle + spare) (g.prioritise r.waiting), left⟩) := by
  induction spare generalizing r with
  | zero =>
      obtain ⟨left, _, blocks, _, _, _, _, step⟩ := deadlocked.step limit
      rw [if_pos (by omega)] at step
      refine ⟨left, blocks, ?_⟩
      rw [LatticeSurgery.iterate, step]
      rfl
  | succ spare ih =>
      obtain ⟨_, t, _, still, waiting, cycle, idle, step⟩ := deadlocked.step limit
      rw [if_neg (by omega)] at step
      -- the queue is in order from now on, so the report names the same nodes in the same order
      have order : g.prioritise t.waiting = g.prioritise r.waiting := by
        rw [waiting]
        exact g.prioritise_eq_of_perm (.refl _) (g.pairwise_prioritise _)
      obtain ⟨left, blocks, ends⟩ := ih still (by omega)
      rw [order] at blocks ends
      rw [cycle, Nat.add_right_comm, Nat.add_assoc] at ends
      refine ⟨left, blocks, ?_⟩
      rw [LatticeSurgery.iterate, step]
      exact ends

/-! ## The end of a run -/

/-- If something happens in every cycle, the records that tell of something are all of them. -/
theorem filter_eventful (eventful : r.Eventful) : r.records.toList.filter (!·.isIdle) = r.records.toList := by
  refine List.filter_eq_self.mpr fun record member => ?_
  obtain ⟨i, found⟩ := List.getElem?_of_mem member
  rw [Array.getElem?_toList] at found
  simp [eventful i record found]

theorem cycles_eq_range {life : NodeId → Life} (history : r.History g 1 [] [] life) (eventful : r.Eventful) :
    (r.records.toList.filter (!·.isIdle)).map (·.cycle)
      = List.range (r.records.toList.filter (!·.isIdle)).length := by
  rw [filter_eventful eventful]
  refine List.ext_getElem? fun i => ?_
  rw [List.getElem?_map, Array.getElem?_toList]
  cases found : r.records[i]? with
  | none =>
      have past := Array.getElem?_eq_none_iff.mp found
      exact (List.getElem?_eq_none (by simpa using past)).symm
  | some record =>
      have within := (Array.getElem?_eq_some_iff.mp found).1
      rw [List.getElem?_range (by simpa using within), Option.map_some, history.dated i record found]

end Run

/-- Nodes that come up are nodes of the graph, in every graph whose edges lead to nodes of it. -/
theorem Run.known_of_reaches {g : Graph} {f : Floorplan} {limit : Nat} {r : Run} {id : NodeId} (stocked : g.Stocked)
    (reached : Reaches (Run.step g limit) (Run.start g f) r) (came : ∃ stage, r.stages[id]? = some stage) :
    ∃ node, g.node? id = some node := by
  refine Graph.lt_nextId_iff.mp ?_
  rcases named_of_reaches reached came with entry | ⟨n, edge, listed, rfl⟩ | ⟨n, edge, reads, rfl⟩
  · obtain ⟨node, member, rfl⟩ := List.mem_map.mp entry
    have live := List.mem_of_mem_filter member
    exact Graph.lt_nextId ((Graph.mem_live_of_numbered stocked.numbered).mp live).1
  · exact stocked.lists listed
  · exact stocked.producer_lt reads

/-- A run comes to its end without a quiet cycle, fails in a placement, or comes to a standstill, and the limit has no
    part in which. -/
theorem Floorplan.route_of_stop {g : Graph} (stocked : g.Stocked) {f : Floorplan}
    (free : ∀ c, f.layout.lockAt c = none) :
    ∃ r, Reaches (Run.step g 0) (Run.start g f) r ∧
      (r.waiting = [] ∧ r.active = [] ∧ (∀ limit, f.route g limit = r.finish g) ∨
      (∃ failure : Failure Floorplan, failure.error.isFatal ∧ ∀ limit, f.route g limit = .error failure) ∨
      ∃ waiting, waiting ≠ [] ∧ ∀ limit, ∃ left : Floorplan, left.Blocks g waiting ∧
        f.route g limit = .error ⟨.unroutable (r.cycle + limit) waiting, left⟩) := by
  obtain ⟨n, r, within, reached, stops, onward⟩ := Run.exists_stop stocked.numbered f
  have atOnce : ∀ {limit outcome}, r.step g limit = .done outcome → f.route g limit = outcome := by
    intro limit outcome last
    refine route_of_iterate within (onward limit) ?_
    rw [iterate, last]
  refine ⟨r, reached, ?_⟩
  cases stops with
  | drained drained idle =>
      refine .inl ⟨drained, idle, fun limit => atOnce ?_⟩
      rw [Run.step, if_pos (by simp [drained, idle])]
  | @failed failure goesOn failed =>
      refine .inr (.inl ⟨failure, Run.isFatal_of_admitAll failed, fun limit => atOnce ?_⟩)
      rw [Run.step, if_neg goesOn, failed]
  | quiet quiet =>
      have known : ∀ id ∈ r.waiting, ∃ node, g.node? id = some node := by
        intro id member
        obtain ⟨life, history⟩ := Run.history_of_reaches reached
        exact Run.known_of_reaches stocked reached ⟨_, history.queued id member List.not_mem_nil⟩
      have deadlocked := quiet.deadlocked_of_known stocked.numbered known free reached
      have idle := Run.idle_of_reaches reached
      refine .inr (.inr ⟨g.prioritise r.waiting, g.prioritise_ne_nil deadlocked.waits, fun limit => ?_⟩)
      have counted : r.idle + limit = limit := by rw [idle, Nat.zero_add]
      obtain ⟨left, blocks, ends⟩ := deadlocked.iterate counted
      exact ⟨left, blocks, route_of_iterate within (onward limit) ends⟩

/-- The run behind a timeline has no quiet cycle, so the timeline is as long as the run. -/
theorem Floorplan.reaches_of_route_free {g : Graph} (stocked : g.Stocked) {f left : Floorplan}
    (free : ∀ c, f.layout.lockAt c = none) {limit : Nat} {t : Timeline} (h : f.route g limit = .ok (t, left)) :
    ∃ r, Reaches (Run.step g 0) (Run.start g f) r ∧ (∀ id ∈ g.liveIds, r.stages[id]? = some .resolved) ∧
      t.cycles.length = r.cycle := by
  obtain ⟨r, reached, ⟨drained, idle, ends⟩ | ⟨failure, _, fails⟩ | ⟨waiting, _, blocked⟩⟩ := route_of_stop stocked free
  · have last : r.step g limit = .done (.ok (t, left)) := by
      rw [Run.step, if_pos (by simp [drained, idle]), ← ends limit, h]
    obtain ⟨_, finished, rfl, _⟩ := Run.step_eq_ok last
    obtain ⟨life, history⟩ := Run.history_of_reaches reached
    refine ⟨r, reached, finished, ?_⟩
    rw [Run.filter_eventful (Run.eventful_of_reaches reached), Array.length_toList, history.timely]
  · rw [fails limit] at h
    cases h
  · obtain ⟨_, _, ends⟩ := blocked limit
    rw [ends] at h
    cases h

/-- In a graph of plain names the end of a run is a timeline. -/
theorem Floorplan.route_cases {b : Builder} {g : Graph} (reachable : b.Reachable) (plain : b.graph.Plain)
    (yields : b.Yields g) {f : Floorplan} (free : ∀ c, f.layout.lockAt c = none) :
    (∃ result : Timeline × Floorplan, (∀ limit, f.route g limit = .ok result) ∧
      result.1.cycles.map (·.cycle) = List.range result.1.cycles.length) ∨
    (∃ failure : Failure Floorplan, failure.error.isFatal ∧ ∀ limit, f.route g limit = .error failure) ∨
    ∃ cycle waiting, waiting ≠ [] ∧ ∀ limit, ∃ left : Floorplan, left.Blocks g waiting ∧
      f.route g limit = .error ⟨.unroutable (cycle + limit) waiting, left⟩ := by
  have joined := yields.joined reachable plain
  obtain ⟨_, formed⟩ := yields.formed reachable plain
  obtain ⟨rank, ranks⟩ := formed.acyclic
  obtain ⟨r, reached, ⟨drained, idle, ends⟩ | failed | ⟨waiting, some, blocked⟩⟩ :=
    route_of_stop (yields.produced reachable).stocked free
  · obtain ⟨life, history⟩ := Run.history_of_reaches reached
    refine .inl ⟨({ cycles := r.records.toList.filter (!·.isIdle), routes := r.routes }, r.floor),
      fun limit => ?_, Run.cycles_eq_range history (Run.eventful_of_reaches reached)⟩
    rw [ends, Run.finish_of_drained reached drained idle joined ranks (yields.fed reachable plain)]
  · exact .inr (.inl failed)
  · exact .inr (.inr ⟨r.cycle, waiting, some, blocked⟩)

/-- The limit says when a failure is reported and nothing else. After a quiet cycle all cycles are quiet. So
    the same timelines come out, with a record of every cycle, and a run that gives up does so as many cycles
    later as the limit is larger; the nodes it leaves waiting have no place on a floor that is free. -/
theorem route_of_limit {b : Builder} {g : Graph} (reachable : b.Reachable) (plain : b.graph.Plain)
    (yields : b.Yields g) {f : Floorplan} (free : ∀ c, f.layout.lockAt c = none) (limit other : Nat) :
    (∀ r, Reaches (Run.step g limit) (Run.start g f) r → r.Quiet g →
      ∀ s, Reaches (Run.step g other) r s → s.Quiet g) ∧
    (∀ result, f.route g limit = .ok result ↔ f.route g other = .ok result) ∧
    (∀ t left, f.route g limit = .ok (t, left) → t.cycles.map (·.cycle) = List.range t.cycles.length) ∧
    ∀ cycle waiting left, f.route g limit = .error ⟨.unroutable cycle waiting, left⟩ →
      limit ≤ cycle ∧ waiting ≠ [] ∧ left.Blocks g waiting ∧
        ∃ left', f.route g other = .error ⟨.unroutable (cycle - limit + other) waiting, left'⟩ := by
  refine ⟨fun r reached quiet s later => ?_, ?_⟩
  · have deadlocked := quiet.deadlocked (yields.joined reachable plain) free reached
    exact (later.invariant (P := Run.Deadlocked g) (fun _ _ still => still.of_step) deadlocked).quiet
  · rcases Floorplan.route_cases reachable plain yields free with
      ⟨result, through, numbered⟩ | ⟨failure, fatal, fails⟩ | ⟨start, waiting, present, blocked⟩
    · rw [through limit, through other]
      refine ⟨fun _ => Iff.rfl, ?_, ?_⟩
      · rintro t left same
        cases same
        exact numbered
      · rintro _ _ _ ⟨⟩
    · rw [fails limit, fails other]
      refine ⟨fun _ => Iff.rfl, ?_, ?_⟩
      · rintro _ _ ⟨⟩
      · intro cycle waiting left same
        cases same
        cases fatal
    · obtain ⟨left, blocks, ends⟩ := blocked limit
      obtain ⟨left', _, ends'⟩ := blocked other
      rw [ends, ends']
      refine ⟨by simp, by simp, ?_⟩
      intro cycle waits left same
      cases same
      exact ⟨Nat.le_add_left limit start, present, blocks, left', by rw [Nat.add_sub_cancel]⟩

/-- A register, a channel patch and the output of a factory, and another register cut off from them. -/
def cutFloor : Floorplan :=
  { pairFloor with
    layout := { cols := 5, rows := [lineOfPatches 0 [.register, .route, .external, .blocked, .register]] } }

theorem Layout.lockAt_eq_none {l : Layout} (unlocked : l.patches.filterMap (·.lock) = []) (c : Coord) :
    l.lockAt c = none := by
  refine Option.eq_none_iff_forall_ne_some.mpr fun lock found => ?_
  have member := mem_locks_of_lockAt found
  rw [unlocked] at member
  cases member

/-- On the cut floor the gate on the far register is given up in cycle 10 or 13, as far apart as the limits are, and
    on the whole floor both limits give the same timeline. -/
theorem route_of_limit_cut :
    ∃ (b : Builder) (chains : Chains) (g : Graph) (left left' : Floorplan) (t : Timeline) (done : Floorplan),
      b.Reachable ∧ b.graph.Plain ∧
      b.graph.bindInstances 1 [⟨"T", 3⟩] = .ok (chains, g) ∧ (∀ c, cutFloor.layout.lockAt c = none) ∧
      cutFloor.route g 2 = .error ⟨.unroutable 10 [4], left⟩ ∧ left.Blocks g [4] ∧
      cutFloor.route g 5 = .error ⟨.unroutable 13 [4], left'⟩ ∧ (∀ c, pairFloor.layout.lockAt c = none) ∧
      pairFloor.route g 2 = .ok (t, done) ∧ pairFloor.route g 5 = .ok (t, done) ∧
      t.cycles.map (·.cycle) = List.range t.cycles.length := by
  have runs : pairOfGates.toOption.any fun b =>
      (b.graph.bindInstances 1 [⟨"T", 3⟩]).toOption.any fun bound =>
        (pairFloor.route bound.2 2).toOption.any fun _ =>
          decide b.graph.Plain
            && (cutFloor.route bound.2 2).mapError (·.error) == .error (.unroutable 10 [4]) := by decide +kernel
  obtain ⟨b, built, runs⟩ := exists_ok_of_any runs
  obtain ⟨⟨chains, g⟩, bound, runs⟩ := exists_ok_of_any runs
  obtain ⟨⟨t, done⟩, through, runs⟩ := exists_ok_of_any runs
  simp only [Bool.and_eq_true, beq_iff_eq, decide_eq_true_eq] at runs
  obtain ⟨plain, gives⟩ := runs
  obtain ⟨left, stuck⟩ : ∃ left, cutFloor.route g 2 = .error ⟨.unroutable 10 [4], left⟩ := by
    cases ran : cutFloor.route g 2 with
    | ok result =>
        rw [ran] at gives
        cases gives
    | error failure =>
        rw [ran] at gives
        obtain ⟨e, left⟩ := failure
        cases gives
        exact ⟨left, rfl⟩
  have reachable := reachable_pairOfGates built
  have cutFree := Layout.lockAt_eq_none (l := cutFloor.layout) (by decide)
  have pairFree := Layout.lockAt_eq_none (l := pairFloor.layout) (by decide)
  obtain ⟨_, _, _, late⟩ := route_of_limit reachable plain (.bound bound) cutFree 2 5
  obtain ⟨_, same, numbered, _⟩ := route_of_limit reachable plain (.bound bound) pairFree 2 5
  obtain ⟨_, _, blocks, left', later⟩ := late 10 [4] left stuck
  exact ⟨b, chains, g, left, left', t, done, reachable, plain, bound, cutFree, stuck, blocks, later, pairFree, through,
    (same (t, done)).mp through, numbered t done through⟩

end LatticeSurgery
