import Mathlib.Algebra.Ring.Parity
import Mathlib.Order.Bounds.Basic
import LatticeSurgery.Proofs.Chains.Supply
import LatticeSurgery.Proofs.Graph.WellFormed
import LatticeSurgery.Proofs.Routing.Standstill

/-! # What a run leaves behind

A finished run leaves no lock behind, and its timeline tells the rest: a patch was last used when the last of its
holders finished, and a register is turned if an odd number of Hadamards held it. A node holds no patch twice, so it
turns each of its registers once. How a patch looks is followed from release to release; when it is last used is settled
as soon as a node is placed on it.
-/

namespace LatticeSurgery

/-! ## The look of a patch and its last use -/

namespace Patch

/-- A patch as it looks, without its lock and its last use. -/
def bare (patch : Patch) : Patch := { patch with lock := none, lastUsed := 0 }

theorem bare_locked (lock : Lock) (patch : Patch) : (patch.locked lock).bare = patch.bare := rfl

theorem bare_unlocked (node : NodeId) (patch : Patch) : (patch.unlocked node).bare = patch.bare := by
  unfold unlocked
  split <;> rfl

theorem bare_rotated (patch : Patch) : patch.rotated.bare = patch.bare.rotated := by
  unfold rotated
  change _ = if patch.kind = .register then _ else _
  split <;> rfl

theorem lastUsed_unlocked (node : NodeId) (patch : Patch) : (patch.unlocked node).lastUsed = patch.lastUsed := by
  unfold unlocked
  split <;> rfl

theorem lastUsed_rotated (patch : Patch) : patch.rotated.lastUsed = patch.lastUsed := by
  unfold rotated
  split <;> rfl

theorem iterate_rotated (patch : Patch) (n : Nat) :
    rotated^[n] patch
      = if patch.kind = .register ∧ Odd n then { patch with orientation := patch.orientation.flip } else patch := by
  induction n with
  | zero => simp
  | succ n ih =>
      obtain ⟨coord, kind, orientation, lock, lastUsed⟩ := patch
      rw [Function.iterate_succ_apply', ih]
      simp only [Nat.odd_add_one]
      by_cases register : kind = .register
      · by_cases odd : Odd n <;> simp [register, odd, rotated]
      · simp [register, rotated]

end Patch

namespace Layout

def bareAt (l : Layout) (c : Coord) : Option Patch := (l.patch? c).map (·.bare)

def usedAt (l : Layout) (c : Coord) : Option Nat := (l.patch? c).map (·.lastUsed)

variable {l m : Layout} {node : NodeId} {cs : List Coord} {cycle duration : Nat}

theorem bareAt_unlockAll (l : Layout) (cs : List Coord) (node : NodeId) (c : Coord) :
    (cs.foldl (·.unlock · node) l).bareAt c = l.bareAt c :=
  map_patch?_modifyAll (Patch.bare_unlocked node) l cs c

theorem bareAt_rotateAll (once : cs.Nodup) (l : Layout) (c : Coord) :
    (cs.foldl .rotate l).bareAt c = if c ∈ cs then (l.bareAt c).map Patch.rotated else l.bareAt c := by
  have turned : (cs.foldl .rotate l).patch? c = _ := patch?_modifyAll once l Patch.rotated c
  rw [bareAt, bareAt, turned]
  split
  · rw [Option.map_map, Option.map_map]
    exact congrFun (congrArg Option.map (funext Patch.bare_rotated)) _
  · rfl

theorem bareAt_lockAll (inside : ∀ c ∈ cs, (l.patch? c).isSome) (h : l.lockAll node cycle duration cs = .ok m)
    (c : Coord) : m.bareAt c = l.bareAt c := by
  rw [lockAll_eq_ok h inside]
  exact map_patch?_modifyAll (Patch.bare_locked _) l cs c

theorem usedAt_lockAll (once : cs.Nodup) (inside : ∀ c ∈ cs, (l.patch? c).isSome)
    (h : l.lockAll node cycle duration cs = .ok m) (c : Coord) :
    m.usedAt c = if c ∈ cs then (l.usedAt c).map (max · (cycle + duration)) else l.usedAt c := by
  rw [usedAt, usedAt, lockAll_eq_ok h inside, patch?_modifyAll once]
  split
  · rw [Option.map_map, Option.map_map]
    rfl
  · rfl

end Layout

namespace Floorplan

theorem usedAt_release (f : Floorplan) (node : Node) (patches : List Coord) (c : Coord) :
    (f.release node patches).layout.usedAt c = f.layout.usedAt c := by
  have unlocked := Layout.map_patch?_modifyAll (Patch.lastUsed_unlocked node.id) f.layout patches c
  unfold release
  dsimp only
  split
  · exact (Layout.map_patch?_modifyAll Patch.lastUsed_rotated _ patches c).trans unlocked
  · exact unlocked

theorem bareAt_release (f : Floorplan) (node : Node) {patches : List Coord} (once : patches.Nodup) (c : Coord) :
    (f.release node patches).layout.bareAt c
      = (f.layout.bareAt c).map Patch.rotated^[if node.operation.rotates && patches.contains c then 1 else 0] := by
  unfold release
  dsimp only
  by_cases turns : node.operation.rotates
  · rw [if_pos turns, Layout.bareAt_rotateAll once, Layout.bareAt_unlockAll]
    by_cases member : c ∈ patches <;> simp [turns, member]
  · rw [if_neg turns, Layout.bareAt_unlockAll]
    simp [turns]

end Floorplan

/-- How many of some nodes are Hadamards with a place on their routes. -/
def Graph.turnsBy (g : Graph) (routes : NodeMap (List Coord)) (c : Coord) (ids : List NodeId) : Nat :=
  ids.countP fun id => (g.node? id).any (·.operation.rotates) && (routes.getD id []).contains c

theorem Graph.turnsBy_append (g : Graph) (routes : NodeMap (List Coord)) (c : Coord) (first last : List NodeId) :
    g.turnsBy routes c (first ++ last) = g.turnsBy routes c first + g.turnsBy routes c last :=
  List.countP_append

namespace Run

variable {g : Graph} {f : Floorplan} {r s : Run} {id : NodeId} {limit : Nat} {life : NodeId → Life}

/-! ## Turning -/

theorem bareAt_release (once : (r.routes.getD id []).Nodup) (c : Coord) :
    (r.release g id).floor.layout.bareAt c
      = (r.floor.layout.bareAt c).map Patch.rotated^[g.turnsBy r.routes c [id]] := by
  unfold release
  split
  next node known => simp [Floorplan.bareAt_release _ node once, Graph.turnsBy, List.countP_cons, known]
  next unknown => simp [Graph.turnsBy, unknown]

theorem routes_release (g : Graph) (r : Run) (id : NodeId) : (r.release g id).routes = r.routes := by
  unfold release
  split <;> rfl

theorem bareAt_releaseAll (once : ∀ id, (r.routes.getD id []).Nodup) (ids : List NodeId) (c : Coord) :
    (ids.foldl (·.release g ·) r).floor.layout.bareAt c
      = (r.floor.layout.bareAt c).map Patch.rotated^[g.turnsBy r.routes c ids] := by
  induction ids generalizing r with
  | nil => simp [Graph.turnsBy]
  | cons id ids ih =>
      have same := routes_release g r id
      have sum := g.turnsBy_append r.routes c [id] ids
      rw [List.singleton_append, Nat.add_comm] at sum
      rw [List.foldl_cons, ih (same ▸ once), bareAt_release (once id), same]
      rw [Option.map_map, ← Function.iterate_add, sum]

/-- The finished nodes in the order in which they gave up their patches: each of them has turned the registers on its
    route, and nobody else has. -/
structure Turned (g : Graph) (f : Floorplan) (order : List NodeId) (r : Run) : Prop where
  once : order.Nodup
  finished : ∀ id, id ∈ order ↔ r.stages[id]? = some .resolved
  simple : ∀ id, (r.routes.getD id []).Nodup
  bare : ∀ c, r.floor.layout.bareAt c = (f.layout.bareAt c).map Patch.rotated^[g.turnsBy r.routes c order]

variable {order : List NodeId}

theorem turned_start : ({ floor := f } : Run).Turned g f [] where
  once := .nil
  finished := by simp
  simple := by simp
  bare := by simp [Graph.turnsBy]

theorem Turned.enqueue (turned : r.Turned g f order) (fresh : r.stages[id]? = none) :
    (r.enqueue id).Turned g f order := by
  refine { turned with finished := fun n => ?_ }
  rw [turned.finished, getElem?_stages_enqueue]
  split
  next here => simp [here, fresh]
  · rfl

theorem Turned.wakeAll (turned : r.Turned g f order) (ids : List NodeId) :
    (ids.foldl (·.wake g ·) r).Turned g f order :=
  wakeAll_induction (P := Turned g f order) (fun _ _ turned wakes => turned.enqueue wakes.fresh) turned ids

theorem getD_routes_settle {node : Node} {patches : List Coord} {start : Nat} {floor : Floorplan} (other : NodeId) :
    (r.settle id node patches start floor).routes.getD other []
      = if other = id then patches else r.routes.getD other [] := by
  rw [Std.ExtTreeMap.getD_eq_getD_getElem?, getElem?_routes_settle, Std.ExtTreeMap.getD_eq_getD_getElem?]
  split <;> rfl

theorem Turned.settle {node : Node} {patches : List Coord} {asked floor : Floorplan} (turned : r.Turned g f order)
    (waits : r.stages[id]? = some .waiting) (admits : r.Admits g id node patches asked floor) :
    (r.settle id node patches (asked.startOf node r.cycle) floor).Turned g f order := by
  have later : id ∉ order := by simp [turned.finished, waits]
  constructor
  case once => exact turned.once
  case finished =>
    intro n
    rw [getElem?_stages_settle]
    split
    next here => simp [here, later]
    · exact turned.finished n
  case simple =>
    intro n
    rw [getD_routes_settle]
    split
    · exact Floorplan.nodup_of_place admits.placed
    · exact turned.simple n
  case bare =>
    intro c
    have same : g.turnsBy (r.settle id node patches (asked.startOf node r.cycle) floor).routes c order
        = g.turnsBy r.routes c order := by
      refine List.countP_congr fun n member => ?_
      have other : n ≠ id := fun here => later (here ▸ member)
      rw [getD_routes_settle, if_neg other]
    rw [same, ← turned.bare]
    exact Layout.bareAt_lockAll admits.fits.inside admits.fits.locked c

theorem Turned.turnover (turned : r.Turned g f order) (history : r.History g 1 [] [] life) :
    (r.turnover g).Turned g f (order ++ r.expiring) := by
  rw [turnover_eq]
  apply Turned.wakeAll
  obtain ⟨floor, released⟩ := releaseAll_eq g r.countDown r.expiring
  have look := bareAt_releaseAll (g := g) (r := r.countDown) turned.simple r.expiring
  rw [released] at look ⊢
  constructor
  case once =>
    -- who gives up its patches now was active before, so it has not given them up yet
    refine turned.once.append (history.distinct.1.filter _) fun id before now => ?_
    obtain ⟨n, stage⟩ := (history.counted id).mp (mem_expiring.mp now).1
    rw [(turned.finished id).mp before] at stage
    cases stage
  case finished =>
    intro id
    rw [List.mem_append, turned.finished]
    exact (history.resolved_countDown_iff id).symm
  case simple => exact turned.simple
  case bare =>
    intro c
    have before : r.countDown.floor.layout.bareAt c = _ := turned.bare c
    rw [look, before, Option.map_map, ← Function.iterate_add, g.turnsBy_append, Nat.add_comm]
    rfl

theorem turned_of_reaches (reached : Reaches (step g limit) (start g f) r) : ∃ order, r.Turned g f order := by
  induction reached with
  | refl => exact ⟨[], turned_start.wakeAll g.entries⟩
  | @tail before after reached next ih =>
      obtain ⟨order, turned⟩ := ih
      obtain ⟨life, history⟩ := history_of_reaches reached
      obtain ⟨t, admitted, last⟩ := step_eq_again next
      obtain ⟨idle, rfl⟩ := close_eq_again last
      have released := turned.turnover history
      have placed : t.Turned g f (order ++ before.expiring) :=
        admission_induction (P := Turned g f (order ++ before.expiring)) history.queued_turnover
          { released with } (fun _ _ turned => { turned with })
          (fun _ _ _ _ _ _ turned waits admits => turned.settle waits admits) admitted
      exact ⟨order ++ before.expiring, { placed with }⟩

/-! ## Last uses -/

/-- A node that holds a place is finished at a cycle. -/
def Uses (life : NodeId → Life) (r : Run) (c : Coord) (cycle : Nat) : Prop :=
  ∃ id, c ∈ r.routes.getD id [] ∧ (life id).finish = cycle

/-- A patch that was in use is known by the latest end of a use, even of one that is not over yet. -/
def Worn (f : Floorplan) (life : NodeId → Life) (r : Run) : Prop :=
  ∀ c before, f.layout.usedAt c = some before →
    ∃ now, r.floor.layout.usedAt c = some now ∧ IsGreatest (insert before {cycle | r.Uses life c cycle}) now

theorem uses_settle {node : Node} {patches : List Coord} {start : Nat} {floor : Floorplan} {new : Life}
    (unplaced : r.routes[id]? = none) (c : Coord) (cycle : Nat) :
    (r.settle id node patches start floor).Uses (Function.update life id new) c cycle
      ↔ (c ∈ patches ∧ new.finish = cycle) ∨ r.Uses life c cycle := by
  constructor
  · rintro ⟨n, member, ends⟩
    rw [getD_routes_settle] at member
    split at member
    next here =>
        rw [here, Function.update_self] at ends
        exact .inl ⟨member, ends⟩
    next other =>
        rw [Function.update_of_ne other] at ends
        exact .inr ⟨n, member, ends⟩
  · rintro (⟨member, ends⟩ | ⟨n, member, ends⟩)
    · exact ⟨id, by rwa [getD_routes_settle, if_pos rfl], by rwa [Function.update_self]⟩
    · have other : n ≠ id := by
        rintro rfl
        simp [Std.ExtTreeMap.getD_eq_getD_getElem?, unplaced] at member
      exact ⟨n, by rwa [getD_routes_settle, if_neg other], by rwa [Function.update_of_ne other]⟩

theorem Worn.settle {node : Node} {patches : List Coord} {asked floor : Floorplan} (worn : r.Worn f life)
    (unplaced : r.routes[id]? = none) (admits : r.Admits g id node patches asked floor) :
    (r.settle id node patches (asked.startOf node r.cycle) floor).Worn f
      (Function.update life id ⟨r.cycle, asked.startOf node r.cycle, asked.startOf node r.cycle + node.duration⟩) := by
  intro c before found
  obtain ⟨now, used, greatest⟩ := worn c before found
  have fits := admits.fits
  have locked := Layout.usedAt_lockAll (Floorplan.nodup_of_place admits.placed) fits.inside fits.locked c
  simp only [uses_settle unplaced]
  by_cases member : c ∈ patches
  · rw [if_pos member, used] at locked
    have more := greatest.insert (asked.startOf node r.cycle + node.duration)
    rw [max_comm] at more
    have same : insert before {cycle | c ∈ patches ∧ asked.startOf node r.cycle + node.duration = cycle ∨
        r.Uses life c cycle} = insert (asked.startOf node r.cycle + node.duration)
          (insert before {cycle | r.Uses life c cycle}) := by
      ext cycle
      simp only [Set.mem_insert_iff, Set.mem_ofPred_eq, member, true_and, @eq_comm _ cycle]
      exact or_left_comm
    exact ⟨_, locked, same ▸ more⟩
  · rw [if_neg member, used] at locked
    refine ⟨now, locked, ?_⟩
    simpa [member] using greatest

theorem keeps_worn (g : Graph) (f : Floorplan) : Keeps g fun life t => t.Worn f life where
  depends := by
    intro life t s floor _ routes worn c before found
    rw [floor]
    unfold Uses
    rw [routes]
    exact worn c before found
  counted _ _ _ worn := worn
  released := by
    intro life t gone id node _ worn _ _ c before found
    rw [Floorplan.usedAt_release]
    exact worn c before found
  woken _ _ _ worn _ := worn
  skipped _ _ _ worn := worn
  settled _ _ _ _ id _ _ _ _ history worn waits admits := worn.settle (history.unplaced id (.inr waits)).2 admits

theorem worn_of_reaches (reached : Reaches (step g limit) (start g f) r) :
    ∃ life, r.History g 1 [] [] life ∧ r.Worn f life := by
  refine (keeps_worn g f).of_reaches (fun c before found => ?_) reached
  refine ⟨before, found, Set.mem_insert _ _, ?_⟩
  rintro cycle (rfl | ⟨id, member, _⟩)
  · exact Nat.le_refl _
  · simp at member

/-! ## The end -/

theorem History.tells_of_idle (history : r.History g 1 [] [] life) (idle : r.active = []) {patches : List Coord}
    (route : r.routes[id]? = some patches) :
    Timeline.Tells { cycles := r.records.toList.filter (!·.isIdle), routes := r.routes } id (life id) := by
  obtain ⟨stage, known, moved⟩ := history.stage_of_route route
  have resolved : stage = .resolved := by
    cases stage with
    | waiting => exact absurd rfl moved
    | active n =>
        have active := (history.counted id).mpr ⟨n, known⟩
        simp [idle] at active
    | resolved => rfl
  subst resolved
  have recorded := (history.placed id _ known moved).1
  have ended := history.resolved id known
  rw [← history.timely] at ended
  exact tells_of_recorded history.dated recorded (history.lives id _ known moved).1.short ended

theorem free_of_unroutable (numbered : g.Numbered) (free : ∀ c, f.layout.lockAt c = none)
    (reached : Reaches (step g limit) (start g f) r) {cycle : Nat} {waiting : List NodeId} {left : Floorplan}
    (h : r.step g limit = .done (.error ⟨.unroutable cycle waiting, left⟩)) (c : Coord) :
    left.layout.lockAt c = none := by
  unfold step at h
  split at h
  next ended =>
      have idle := List.isEmpty_iff.mp (Bool.and_eq_true_iff.mp ended).2
      have outcome := Next.done.inj h
      unfold finish at outcome
      dsimp only at outcome
      split at outcome
      · cases outcome
      · cases outcome
        exact free_of_idle numbered free reached idle c
  · split at h
    next failure failed =>
        cases h
        have fatal := isFatal_of_admitAll failed
        cases fatal
    next s admitted =>
        obtain ⟨life, history⟩ := history_of_reaches reached
        by_cases quiet : s.isQuiet r.expiring
        · rw [close_of_quiet quiet] at h
          split at h
          · cases h
            -- nobody is active after a quiet cycle, and no lock is left without its holder
            obtain ⟨coherent, queued⟩ := coherent_of_free numbered free reached
            have native := (native_of_reaches numbered free reached).cycle numbered history.queued_turnover admitted
            exact native.free (coherent_cycle numbered coherent queued admitted).1 (isQuiet_iff.mp quiet).2.2 c
          · cases h
        · rw [close_of_busy quiet] at h
          cases h

end Run

namespace Timeline

/-- Cycles in which a holder of a place is finished. -/
def releases (t : Timeline) (c : Coord) : List Nat :=
  (t.cycles.filter fun record => record.resolved.any fun id => (t.routes.getD id []).contains c).map (·.cycle)

/-- Number of live Hadamards with a place on their routes. -/
def turns (g : Graph) (t : Timeline) (c : Coord) : Nat :=
  g.live.countP fun node => decide (node.operation = .hadamard) && (t.routes.getD node.id []).contains c

/-- What a timeline makes of a patch. -/
structure Leaves (g : Graph) (t : Timeline) (c : Coord) (before after : Patch) : Prop where
  coord : after.coord = before.coord
  kind : after.kind = before.kind
  unlocked : after.lock = none
  lastUsed : after.lastUsed = (t.releases c).foldl max before.lastUsed
  turned : after.orientation ≠ before.orientation ↔ before.kind = .register ∧ Odd (t.turns g c)

theorem Leaves.of_bare {g : Graph} {t : Timeline} {c : Coord} {before after : Patch}
    (look : after.bare = Patch.rotated^[t.turns g c] before.bare) (unlocked : after.lock = none)
    (lastUsed : after.lastUsed = (t.releases c).foldl max before.lastUsed) : t.Leaves g c before after := by
  rw [Patch.iterate_rotated] at look
  refine ⟨?_, ?_, unlocked, lastUsed, ?_⟩
  · have coord := congrArg Patch.coord look
    split at coord <;> exact coord
  · have kind := congrArg Patch.kind look
    split at kind <;> exact kind
  · have orientation := congrArg Patch.orientation look
    split at orientation
    next odd => exact iff_of_true (fun same => before.orientation.flip_ne (orientation.symm.trans same)) odd
    next even => exact iff_of_false (not_not_intro orientation) even

end Timeline

theorem Run.History.uses_iff {g : Graph} {r : Run} {life : NodeId → Life} (history : r.History g 1 [] [] life)
    (idle : r.active = []) {t : Timeline}
    (told : t = { cycles := r.records.toList.filter (!·.isIdle), routes := r.routes }) (c : Coord) (cycle : Nat) :
    r.Uses life c cycle ↔ cycle ∈ t.releases c := by
  have tells : ∀ {id}, c ∈ r.routes.getD id [] → t.Tells id (life id) := by
    intro id member
    rw [Std.ExtTreeMap.getD_eq_getD_getElem?] at member
    cases route : r.routes[id]? with
    | none => simp [route] at member
    | some patches => exact told ▸ history.tells_of_idle idle route
  have routes : t.routes = r.routes := by rw [told]
  simp only [Timeline.releases, List.mem_map, List.mem_filter, List.any_eq_true, List.contains_iff_mem, routes]
  constructor
  · rintro ⟨id, member, rfl⟩
    have listed : (life id).finish ∈ (t.cycles.filter (·.resolved.contains id)).map (·.cycle) := by
      rw [(tells member).resolved]
      exact List.mem_singleton_self _
    obtain ⟨record, shown, same⟩ := List.mem_map.mp listed
    obtain ⟨shown, named⟩ := List.mem_filter.mp shown
    exact ⟨record, ⟨shown, id, List.contains_iff_mem.mp named, member⟩, same⟩
  · rintro ⟨record, ⟨shown, id, named, member⟩, rfl⟩
    have listed : record.cycle ∈ (t.cycles.filter (·.resolved.contains id)).map (·.cycle) :=
      List.mem_map_of_mem (List.mem_filter.mpr ⟨shown, List.contains_iff_mem.mpr named⟩)
    rw [(tells member).resolved] at listed
    exact ⟨id, member, (List.mem_singleton.mp listed).symm⟩

theorem Run.Turned.turnsBy_eq {g : Graph} {f : Floorplan} {r : Run} {order : List NodeId} {life : NodeId → Life}
    (turned : r.Turned g f order) (stocked : g.Stocked) (history : r.History g 1 [] [] life)
    (finished : ∀ id ∈ g.liveIds, r.stages[id]? = some .resolved) {t : Timeline} (routes : t.routes = r.routes)
    (c : Coord) : g.turnsBy r.routes c order = t.turns g c := by
  have numbered := stocked.numbered
  -- at the end the finished nodes are the live ones, in some order
  have all : order.Perm g.liveIds := by
    refine (List.perm_ext_iff_of_nodup turned.once (Graph.nodup_liveIds numbered)).mpr fun id => ?_
    rw [turned.finished]
    refine ⟨fun resolved => ?_, finished id⟩
    obtain ⟨node, known, _⟩ := (history.lives id _ resolved (by simp)).1.lasts
    exact (Graph.mem_liveIds numbered).mpr
      ⟨Graph.lt_nextId known, history.not_isRetired stocked.producer_alive resolved⟩
  rw [Graph.turnsBy, all.countP_eq, Graph.liveIds, List.countP_map, Timeline.turns, routes]
  refine List.countP_congr fun node member => ?_
  have known := ((Graph.mem_live_of_numbered numbered).mp member).1
  have hadamard : node.operation.rotates = decide (node.operation = .hadamard) := by
    cases node.operation <;> rfl
  simp [known, hadamard]

/-- What a run leaves behind is told by its timeline. Every patch is where it was and of the kind that it was, and is
    not locked; it was last used when the last of its holders was finished, and it is turned if it is a register that an
    odd number of Hadamards held. A run that finds no place for its nodes leaves no lock behind either. -/
theorem leaves_of_route {g : Graph} (produced : g.Produced) {f : Floorplan}
    (free : ∀ c, f.layout.lockAt c = none) (limit : Nat) :
    (∀ t left, f.route g limit = .ok (t, left) →
      ∀ c, Option.Rel (t.Leaves g c) (f.layout.patch? c) (left.layout.patch? c)) ∧
    ∀ cycle waiting left, f.route g limit = .error ⟨.unroutable cycle waiting, left⟩ →
      ∀ c, left.layout.lockAt c = none := by
  have stocked := produced.stocked
  refine ⟨fun t left routed c => ?_, fun cycle waiting left failed c => ?_⟩
  · obtain ⟨r, reached, last⟩ := Floorplan.reaches_last routed (by simp)
    obtain ⟨idle, finished, told, rfl⟩ := Run.step_eq_ok last
    obtain ⟨order, turned⟩ := Run.turned_of_reaches reached
    obtain ⟨life, history, worn⟩ := Run.worn_of_reaches reached
    have unlocked := Run.free_of_idle stocked.numbered free reached idle c
    have look := turned.bare c
    rw [turned.turnsBy_eq stocked history finished (t := t) (by rw [told]) c] at look
    cases before : f.layout.patch? c with
    | none =>
        have none : r.floor.layout.patch? c = none := by simpa [Layout.bareAt, before] using look
        rw [none]
        exact .none
    | some p =>
        obtain ⟨now, used, greatest⟩ := worn c p.lastUsed (by rw [Layout.usedAt, before]; rfl)
        obtain ⟨q, after, rfl⟩ := Option.map_eq_some_iff.mp used
        rw [Layout.bareAt, Layout.bareAt, before, after, Option.map_some, Option.map_some, Option.map_some] at look
        rw [Layout.lockAt, after] at unlocked
        simp only [history.uses_iff idle told] at greatest
        rw [after]
        exact .some (.of_bare (Option.some.inj look) unlocked (greatest.unique (isGreatest_foldl_max _ _)))
  · obtain ⟨r, reached, last⟩ := Floorplan.reaches_last failed (by simp)
    exact Run.free_of_unroutable stocked.numbered free reached last c

/-- One register is turned once, and the other twice after both of them are joined. -/
def turningPair : Except Error Builder :=
  ((Builder.new "turning").declareAll ["a", "b"]).addGates
    [(.hadamard, ["a"]), (.cnot, ["a", "b"]), (.hadamard, ["b"]), (.hadamard, ["b"])]

/-- The first register ends up turned, and the second one as it was, last used in cycle 7. Where the registers cannot be
    joined, the run is given up and leaves no lock. -/
theorem leaves_of_route_turning :
    ∃ (b : Builder) (t : Timeline) (left left' : Floorplan) (one two : Patch), b.Reachable ∧
      (∀ c, pairFloor.layout.lockAt c = none) ∧ pairFloor.route b.graph 3 = .ok (t, left) ∧
      t.turns b.graph ⟨0, 0⟩ = 1 ∧ t.turns b.graph ⟨0, 4⟩ = 2 ∧ t.releases ⟨0, 4⟩ = [1, 5, 6, 7] ∧
      left.layout.patch? ⟨0, 0⟩ = some one ∧ one.orientation ≠ .z ∧
      left.layout.patch? ⟨0, 4⟩ = some two ∧ two.orientation = .z ∧ two.lastUsed = 7 ∧
      (∀ c, cutFloor.layout.lockAt c = none) ∧ cutFloor.route b.graph 3 = .error ⟨.unroutable 6 [3], left'⟩ ∧
      ∀ c, left'.layout.lockAt c = none := by
  have runs : turningPair.toOption.any fun b => (pairFloor.route b.graph 3).toOption.any fun routed =>
      routed.1.turns b.graph ⟨0, 0⟩ == 1 && routed.1.turns b.graph ⟨0, 4⟩ == 2
        && routed.1.releases ⟨0, 4⟩ == [1, 5, 6, 7]
        && (cutFloor.route b.graph 3).mapError (·.error) == .error (.unroutable 6 [3]) := by decide +kernel
  obtain ⟨b, built, runs⟩ := exists_ok_of_any runs
  obtain ⟨⟨t, left⟩, routed, runs⟩ := exists_ok_of_any runs
  simp only [Bool.and_eq_true, beq_iff_eq] at runs
  obtain ⟨⟨⟨odd, even⟩, last⟩, stuck⟩ := runs
  obtain ⟨left', stuck⟩ := exists_error_of_mapError stuck
  have reachable := (Builder.Reachable.declareAll ["a", "b"] (.new "turning")).addGates built
  have pairFree := Layout.lockAt_eq_none (l := pairFloor.layout) (by decide)
  have cutFree := Layout.lockAt_eq_none (l := cutFloor.layout) (by decide)
  have leaves := (leaves_of_route (.built reachable) pairFree 3).1 t left routed
  obtain ⟨one, here, first⟩ := exists_of_rel (leaves ⟨0, 0⟩) rfl
  obtain ⟨two, there, second⟩ := exists_of_rel (leaves ⟨0, 4⟩) rfl
  have turned : one.orientation ≠ .z := first.turned.mpr ⟨rfl, by rw [odd]; exact odd_one⟩
  have same : two.orientation = .z := by
    by_contra changed
    have odd := (second.turned.mp changed).2
    rw [even] at odd
    exact absurd odd (by decide)
  have used : two.lastUsed = 7 := by
    rw [second.lastUsed, last]
    rfl
  have unlocked := (leaves_of_route (.built reachable) cutFree 3).2 6 [3] left' stuck
  exact ⟨b, t, left, left', one, two, reachable, pairFree, routed, odd, even, last, here, turned, there, same, used,
    cutFree, stuck, unlocked⟩

end LatticeSurgery
