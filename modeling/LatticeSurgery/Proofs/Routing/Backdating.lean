import LatticeSurgery.Proofs.Routing.Occupancy

/-! # Factories that begin in the past

A factory that is placed late counts as running since its patch became free, as far as the book can tell when the
factory asks for it. If the address of its resource is known by then, nobody else has held the patch since.
A factory that takes a slot at this moment has no address yet: it is dated back as far as its duration
allows, whoever held the slot in the meantime.
-/

namespace LatticeSurgery

namespace Run

variable {g : Graph} {f : Floorplan} {r t : Run} {id : NodeId} {limit : Nat} {life : NodeId → Life}

/-! ## The turns of a cycle -/

/-- In the cycle that begins in `r` a waiting node takes its turn in the state `t`. -/
def Turn (g : Graph) (r : Run) (id : NodeId) (t : Run) : Prop :=
  ∃ before after, g.prioritise (r.turnover g).waiting = before ++ id :: after ∧
    ({ r.turnover g with waiting := g.prioritise (r.turnover g).waiting, admitted := [] } : Run).admitAll g before
      = .ok t

/-- What a run keeps holds whenever a node takes its turn. -/
theorem Keeps.of_turn {I : (NodeId → Life) → Run → Prop} (keeps : Keeps g I)
    (begins : I (fun _ => .after 0) { floor := f }) (reached : Reaches (step g limit) (start g f) r)
    (turn : r.Turn g id t) : ∃ life, t.History g 0 t.admitted r.expiring life ∧ I life t := by
  obtain ⟨life, history, holds⟩ := keeps.of_reaches begins reached
  obtain ⟨before, after, queue, ran⟩ := turn
  exact keeps.admitAll history holds (queue ▸ List.sublist_append_left before _) ran

/-! ## What the book knows about a place -/

/-- Every place that a node has held is a channel, or is noted as in use until the node was finished. A node that
    names a target twice is left out: it may hold two slots for it, of which one is noted. -/
structure Marked (g : Graph) (f : Floorplan) (life : NodeId → Life) (r : Run) : Prop where
  kinds : ∀ c, r.floor.layout.kind? c = f.layout.kind? c
  noted : ∀ id patches, r.routes[id]? = some patches → (g.targetsOf id).Nodup → ∀ c ∈ patches,
    f.layout.kind? c = some .route ∨ (life id).finish ≤ r.floor.book.busyUntil.getD c 0

theorem Marked.release (marked : r.Marked g f life) (node : Node) (patches : List Coord) :
    ({ r with floor := r.floor.release node patches } : Run).Marked g f life where
  kinds c := (r.floor.kind?_release node patches c).trans (marked.kinds c)
  noted := by
    intro id route held once c member
    have known := marked.noted id route held once c member
    unfold Floorplan.release
    dsimp only
    split <;> exact known

theorem Marked.settle {node : Node} {patches : List Coord} {asked floor : Floorplan} (marked : r.Marked g f life)
    (admits : r.Admits g id node patches asked floor) :
    (r.settle id node patches (asked.startOf node r.cycle) floor).Marked g f
      (Function.update life id ⟨r.cycle, asked.startOf node r.cycle, asked.startOf node r.cycle + node.duration⟩) where
  kinds c := (Layout.kind?_lockAll admits.fits.locked c).trans (marked.kinds c)
  noted := by
    intro n route held once c member
    rw [getElem?_routes_settle] at held
    split at held
    next here =>
        cases held
        subst here
        rw [Graph.targetsOf_of_node? admits.known] at once
        rw [Function.update_self, ← marked.kinds c]
        refine admits.busy (fun symbol more => ?_) member
        have := List.nodup_iff_count_le_one.mp once symbol
        omega
    next differs =>
        rw [Function.update_of_ne differs]
        have later := admits.busyUntil_le c
        exact (marked.noted n route held once c member).imp_right fun before => Nat.le_trans before later

theorem keeps_marked (g : Graph) (f : Floorplan) : Keeps g (Marked g f) where
  depends := by
    rintro life t s floor - routes ⟨kinds, noted⟩
    rw [← floor] at kinds noted
    rw [← routes] at noted
    exact ⟨kinds, noted⟩
  counted _ _ _ marked := ⟨marked.kinds, marked.noted⟩
  released _ _ _ _ node _ marked _ _ := marked.release node _
  woken _ _ _ marked _ := ⟨marked.kinds, marked.noted⟩
  skipped _ _ _ marked := ⟨marked.kinds, marked.noted⟩
  settled _ _ _ _ _ _ _ _ _ _ marked _ admits := marked.settle admits

/-- A factory is placed on one patch. It begins when the patch became free, if its resource has an address, and
    otherwise as early as it can. -/
theorem Admits.startOf_factory {node : Node} {patches : List Coord} {asked floor : Floorplan}
    (admits : r.Admits g id node patches asked floor) (stocked : g.Stocked) (factory : node.isFactory) :
    ∃ symbol c, node.targets = [symbol] ∧ patches = [c] ∧
      (r.floor.book.address? symbol = none →
        asked.startOf node r.cycle = r.cycle - min (node.duration - 1) r.cycle) ∧
      (r.floor.book.address? symbol ≠ none →
        min r.cycle (r.floor.book.busyUntil.getD c 0) ≤ asked.startOf node r.cycle) := by
  obtain ⟨⟨symbol, targets⟩, bare⟩ := stocked.makes (Graph.stem?_of_node? admits.known) factory
  have targets : node.targets = [symbol] := targets
  obtain ⟨addresses, chosen, pending, choice, same, _, _, single⟩ := Floorplan.place_eq_some admits.placed
  have patched := single (by simp [Node.nonLocal, targets]) bare
  obtain ⟨new, -, names, places⟩ := AddressBook.choose_eq_some choice
  rw [targets] at names places
  obtain ⟨c, rest, given, alone, rfl⟩ := List.forall₂_cons_left_iff.mp places
  cases alone
  refine ⟨symbol, c, targets, patched, fun unknown => ?_, fun known => ?_⟩
  · have first : asked.book.firstFree node = 0 := by
      have place : asked.book.address? symbol = none := by rw [same]; exact unknown
      simp [AddressBook.firstFree, targets, place]
    rw [Floorplan.startOf, if_pos factory, first, Nat.sub_zero]
  · have here : r.floor.book.address? symbol = some c := by
      rcases given with here | slot
      · exact here
      · have named := List.mem_map_of_mem (f := Prod.fst) slot
        rw [names] at named
        exact absurd (Option.isNone_iff_eq_none.mp (List.mem_filter.mp named).2) known
    exact admits.min_le_startOf (by simp [targets]) here

end Run

open Run

/-- A factory that takes its turn in a cycle and is placed counts as begun when its patch became free, if its
    resource has an address at that moment and the patch is no channel: in no cycle since then has another node held
    the patch. Without an address the factory is dated back as far as its duration allows. -/
theorem startOf_of_turn {g : Graph} (produced : g.Produced) {f : Floorplan} {limit : Nat} {r t : Run}
    (reached : Reaches (step g limit) (start g f) r) {id : NodeId} (turn : r.Turn g id t) {node : Node}
    {patches : List Coord} {asked floor : Floorplan} (admits : t.Admits g id node patches asked floor)
    (factory : node.isFactory) :
    ∃ symbol c, node.targets = [symbol] ∧ patches = [c] ∧
      (t.floor.book.address? symbol = none →
        asked.startOf node t.cycle = t.cycle - min (node.duration - 1) t.cycle) ∧
      (t.floor.book.address? symbol ≠ none → f.layout.kind? c ≠ some .route →
        ∀ (i : Nat) record, asked.startOf node t.cycle ≤ i → t.records[i]? = some record →
          ∀ other ∈ record.active, (g.targetsOf other).Nodup → ∀ route, t.routes[other]? = some route → c ∉ route) := by
  obtain ⟨symbol, c, targets, patched, unknown, known⟩ := admits.startOf_factory produced.stocked factory
  refine ⟨symbol, c, targets, patched, unknown, ?_⟩
  intro addressed solid i record since found other active once route held member
  have begins : Run.Marked g f (fun _ => .after 0) { floor := f } := ⟨fun _ => rfl, by simp⟩
  obtain ⟨life, history, marked⟩ := (keeps_marked g f).of_turn begins reached turn
  obtain ⟨-, -, lives⟩ := history.lives_of_mem_active found active
  have past : i < t.cycle := history.timely ▸ (Array.getElem?_eq_some_iff.mp found).1
  have free := known addressed
  rcases marked.noted other route held once c member with channel | noted
  · exact solid channel
  · omega

/-- A resource that is given up again, and a gate whose magic state is asked for after that. -/
def lateGate : Except Error Builder :=
  ((Builder.new "late").declareAll ["a"]).addGates
    [(.init, ["m"]), (.reset, ["m"]), (.pauliX, ["a"]), (.pauliX, ["a"]), (.t, ["a"])]

/-- A register, a channel patch and the output of a factory. -/
def shortRow (book : AddressBook) : Floorplan where
  layout := { cols := 3, rows := [lineOfPatches 0 [.register, .route, .external]] }
  book := book.bind "a" ⟨0, 0⟩

/-- A fixed place for the resource and for the product of the factory. -/
def samePlace : AddressBook := (({} : AddressBook).bind "m" ⟨0, 2⟩).bind "T#0" ⟨0, 2⟩

/-- The factory is placed in cycle 3 and counts as begun in cycle 2, when the resource had left; the other node of
    that cycle is elsewhere. -/
theorem startOf_of_turn_fixed :
    ∃ (b : Builder) (chains : Chains) (g : Graph) (r t : Run) (node : Node) (patches : List Coord)
      (asked floor : Floorplan), b.Reachable ∧ b.graph.bindInstances 1 [⟨"T", 4⟩] = .ok (chains, g) ∧
      Reaches (step g 3) (start g (shortRow samePlace)) r ∧
      r.Turn g 7 t ∧ t.Admits g 7 node patches asked floor ∧ node.isFactory ∧ t.cycle = 3 ∧
      asked.startOf node t.cycle = 2 ∧ patches = [⟨0, 2⟩] ∧
      ∃ record, t.records[2]? = some record ∧ record.active = [4] ∧
        ∀ route, t.routes[4]? = some route → (⟨0, 2⟩ : Coord) ∉ route := by
  have runs : lateGate.toOption.any fun b =>
      (b.graph.bindInstances 1 [⟨"T", 4⟩]).toOption.any fun bound =>
        (advance (step bound.2 3) 3 (start bound.2 (shortRow samePlace))).any fun r =>
          (bound.2.prioritise (r.turnover bound.2).waiting) == [7] && (r.turnover bound.2).cycle == 3
            && ((r.turnover bound.2).floor.book.address? "T#0").isSome
            && ((r.turnover bound.2).records[2]?.map (·.active)) == some [4]
            && (bound.2.node? 7).any (fun node => node.isFactory && node.duration == 4 && node.targets == ["T#0"])
            && bound.2.targetsOf 4 == ["a"]
            && (({ r.turnover bound.2 with
                  waiting := bound.2.prioritise (r.turnover bound.2).waiting, admitted := [] } : Run).tryAdmit
                bound.2 7).toOption.any fun s =>
              s.admitted == [7] && s.stages[7]? == some (.active 3) && s.routes[7]? == some [⟨0, 2⟩] := by
    decide +kernel
  obtain ⟨b, built, runs⟩ := exists_ok_of_any runs
  obtain ⟨⟨chains, g⟩, bound, runs⟩ := exists_ok_of_any runs
  obtain ⟨r, advanced, runs⟩ := (Option.any_eq_true _ _).mp runs
  rw [Bool.and_eq_true] at runs
  obtain ⟨facts, runs⟩ := runs
  obtain ⟨s, tried, runs⟩ := exists_ok_of_any runs
  simp only [Bool.and_eq_true, beq_iff_eq, Option.any_eq_true, Option.map_eq_some_iff] at facts runs
  obtain ⟨⟨⟨⟨⟨queue, cycle⟩, addressed⟩, record, found, active⟩, node', known, ⟨factory, lasts⟩, makes⟩, once⟩ := facts
  obtain ⟨⟨placed, stage⟩, route⟩ := runs
  have reachable := (Builder.Reachable.declareAll ["a"] (.new "late")).addGates built
  have reached := reaches_of_advance advanced
  rcases tryAdmit_cases tried with ⟨pending, rfl⟩ | ⟨node, patches, asked, floor, admits, rfl⟩
  · cases placed
  have turn : r.Turn g 7 { r.turnover g with waiting := g.prioritise (r.turnover g).waiting, admitted := [] } :=
    ⟨[], [], queue, rfl⟩
  obtain rfl : node = node' := Option.some.inj (admits.known.symm.trans known)
  rw [getElem?_stages_settle, if_pos rfl, Option.some.injEq, Stage.active.injEq, lasts] at stage
  rw [getElem?_routes_settle, if_pos rfl, Option.some.injEq] at route
  have begun := admits.fits.begun
  simp only [cycle] at begun stage
  have late : asked.startOf node 3 = 2 := by omega
  obtain ⟨symbol, c, targets, patched, -, apart⟩ :=
    startOf_of_turn (.bound (.built reachable) bound) reached turn admits factory
  rw [makes, List.cons.injEq] at targets
  rw [route, List.cons.injEq] at patched
  rw [← targets.1, ← patched.1] at apart
  refine ⟨b, chains, g, r, _, node, patches, asked, floor, reachable, bound, reached, turn, admits, factory, cycle, ?_,
    route, record, found, active, ?_⟩
  · simp only [cycle]
    exact late
  · have since : asked.startOf node (r.turnover g).cycle ≤ 2 := by
      rw [cycle]
      omega
    exact apart (Option.isSome_iff_ne_none.mp addressed) (by decide) 2 record since found 4 (by simp [active])
      (by simp [once])

/-- The same with a slot for both. The factory takes it in cycle 3 and counts as begun in cycle 0, while the
    resource was made there. -/
theorem backdated_into_slot :
    ∃ (b : Builder) (chains : Chains) (g : Graph) (t : Timeline) (left : Floorplan), b.Reachable ∧
      b.graph.bindInstances 1 [⟨"T", 4⟩] = .ok (chains, g) ∧
      (shortRow { slots := [⟨0, 2⟩] }).route g 3 = .ok (t, left) ∧ g.isFactory 7 ∧
      (t.cycles.filter (·.admitted.contains 7)).map (·.cycle) = [3] ∧
      t.routes[1]? = some [⟨0, 2⟩] ∧ t.routes[7]? = some [⟨0, 2⟩] ∧
      ∃ record ∈ t.cycles, record.cycle = 0 ∧ 1 ∈ record.active ∧ 7 ∈ record.active := by
  have runs : lateGate.toOption.any fun b =>
      (b.graph.bindInstances 1 [⟨"T", 4⟩]).toOption.any fun bound =>
        ((shortRow { slots := [⟨0, 2⟩] }).route bound.2 3).toOption.any fun routed =>
          bound.2.isFactory 7 && (routed.1.cycles.filter (·.admitted.contains 7)).map (·.cycle) == [3]
            && routed.1.routes[1]? == some [⟨0, 2⟩] && routed.1.routes[7]? == some [⟨0, 2⟩]
            && routed.1.cycles.any fun record =>
              record.cycle == 0 && record.active.contains 1 && record.active.contains 7 := by decide +kernel
  obtain ⟨b, built, runs⟩ := exists_ok_of_any runs
  obtain ⟨⟨chains, g⟩, bound, runs⟩ := exists_ok_of_any runs
  obtain ⟨⟨t, left⟩, routed, runs⟩ := exists_ok_of_any runs
  simp only [Bool.and_eq_true, beq_iff_eq, List.any_eq_true, List.contains_iff_mem] at runs
  obtain ⟨⟨⟨⟨factory, placed⟩, first⟩, second⟩, record, member, ⟨cycle, one⟩, two⟩ := runs
  have reachable := (Builder.Reachable.declareAll ["a"] (.new "late")).addGates built
  exact ⟨b, chains, g, t, left, reachable, bound, routed, factory, placed, first, second, record, member, cycle, one,
    two⟩

end LatticeSurgery
