import LatticeSurgery.Proofs.Chains.Rebinding
import LatticeSurgery.Proofs.Routing.Addresses
import LatticeSurgery.Proofs.Routing.Cycle

/-! # Slots

The book is asked for addresses, told that a node is placed on them, and told that a node gives its slots up. A node is
placed only on what it was offered last, so a choice is never committed against a book that has changed since. Whatever
the order of the calls, no slot is held twice, and a resource stays where it is until somebody resets it.
-/

namespace LatticeSurgery

namespace AddressBook

variable {book next : AddressBook} {node : Node}

/-! ## Who holds what -/

/-- Distinct resources hold distinct slots of the list, and none of them has a fixed place. -/
structure Exclusive (book : AddressBook) : Prop where
  distinct : ∀ {a b : Symbol} {c}, book.held[a]? = some c → book.held[b]? = some c → a = b
  listed : ∀ {symbol : Symbol} {c}, book.held[symbol]? = some c → c ∈ book.slots
  unbound : ∀ {symbol : Symbol} {c}, book.held[symbol]? = some c → book.bindings[symbol]? = none

/-- The slots of a choice are free and distinct. -/
theorem slots_of_choose {targets : List Symbol} {chosen all : List (Symbol × Coord)} {coords : List Coord}
    (h : book.choose chosen targets = some (coords, all)) (distinct : (chosen.map (·.2)).Nodup) :
    (all.map (·.2)).Nodup ∧ ∀ slot ∈ all, slot ∈ chosen ∨ slot.2 ∈ book.slots ∧ slot.2 ∉ book.held.values := by
  induction targets generalizing chosen coords with
  | nil =>
      cases h
      exact ⟨distinct, fun _ => .inl⟩
  | cons target rest ih =>
      rw [choose] at h
      split at h
      next coord known =>
          obtain ⟨result, found, same⟩ := Option.map_eq_some_iff.mp h
          cases same
          exact ih found distinct
      next unknown =>
          obtain ⟨slot, free, h⟩ := Option.bind_eq_some_iff.mp h
          obtain ⟨result, found, same⟩ := Option.bind_eq_some_iff.mp h
          cases same
          have inside := List.mem_of_find?_eq_some free
          have unused := List.find?_some free
          simp only [Bool.and_eq_true, Bool.not_eq_true', List.contains_eq_mem, decide_eq_false_iff_not] at unused
          have more : ((chosen ++ [(target, slot)]).map (·.2)).Nodup := by
            rw [List.map_append, List.map_singleton]
            exact List.Nodup.append distinct (List.nodup_singleton _) (by simpa using unused.2)
          obtain ⟨once, places⟩ := ih found more
          refine ⟨once, fun place member => ?_⟩
          rcases places place member with earlier | free
          · rcases List.mem_append.mp earlier with earlier | here
            · exact .inl earlier
            · cases List.mem_singleton.mp here
              exact .inr ⟨inside, unused.1⟩
          · exact .inr free

theorem getElem?_taken {new : List (Symbol × Coord)} (names : (new.map (·.1)).Nodup) {held : SymbolMap Coord}
    {symbol : Symbol} {c : Coord} (found : (taken held new)[symbol]? = some c) :
    (symbol, c) ∈ new ∨ held[symbol]? = some c := by
  by_cases named : symbol ∈ new.map (·.1)
  · obtain ⟨⟨_, slot⟩, member, rfl⟩ := List.mem_map.mp named
    rw [getElem?_taken_of_mem names member] at found
    cases found
    exact .inl member
  · rw [getElem?_taken_of_not_mem named] at found
    exact .inr found

/-- Taking free slots for resources that have no address. -/
theorem Exclusive.taken {new : List (Symbol × Coord)} (exclusive : book.Exclusive) (names : (new.map (·.1)).Nodup)
    (slots : (new.map (·.2)).Nodup) (unplaced : ∀ slot ∈ new, book.address? slot.1 = none)
    (free : ∀ slot ∈ new, slot.2 ∈ book.slots ∧ slot.2 ∉ book.held.values) :
    ({ book with held := taken book.held new } : AddressBook).Exclusive where
  distinct := by
    intro a b c first second
    rcases getElem?_taken names first with one | one <;> rcases getElem?_taken names second with two | two
    · exact congrArg Prod.fst (List.inj_on_of_nodup_map slots one two rfl)
    · exact absurd (mem_values.mpr ⟨_, two⟩) (free _ one).2
    · exact absurd (mem_values.mpr ⟨_, one⟩) (free _ two).2
    · exact exclusive.distinct one two
  listed := by
    intro symbol c found
    rcases getElem?_taken names found with here | before
    · exact (free _ here).1
    · exact exclusive.listed before
  unbound := by
    intro symbol c found
    rcases getElem?_taken names found with here | before
    · have bound : book.bindings[symbol]? = none := bindings_none_of_address?_none (unplaced _ here)
      exact bound
    · exact exclusive.unbound before

theorem Exclusive.free (exclusive : book.Exclusive) (node : Node) : (book.free node).Exclusive := by
  have kept : ∀ {symbol : Symbol} {c}, (book.free node).held[symbol]? = some c → book.held[symbol]? = some c := by
    intro symbol c found
    rw [getElem?_free] at found
    split at found
    · cases found
    · exact found
  exact ⟨fun first second => exclusive.distinct (kept first) (kept second), fun found => exclusive.listed (kept found),
    fun found => exclusive.unbound (kept found)⟩

/-! ## Choices that are committed -/

/-- What is pending for a node is what it would choose now. -/
structure Offers (book : AddressBook) (node : Node) (coords : List Coord) : Prop where
  distinct : node.targets.Nodup
  chosen : book.choose [] node.targets = some (coords, book.pending.getD node.id [])

theorem offers_of_resolve {coords : List Coord} (distinct : node.targets.Nodup)
    (h : (book.resolve node).1 = some coords) : (book.resolve node).2.Offers node coords := by
  obtain ⟨chosen, pending, choice, same, asked⟩ := resolve_eq_some h
  rw [same]
  exact ⟨distinct, by rw [choose_pending, choice, asked]⟩

theorem Offers.unplaced {coords : List Coord} (offers : book.Offers node coords) :
    ((book.pending.getD node.id []).map (·.1)).Nodup ∧
      ∀ slot ∈ book.pending.getD node.id [], book.address? slot.1 = none := by
  obtain ⟨new, joined, names, _⟩ := choose_eq_some offers.chosen
  rw [List.nil_append] at joined
  rw [joined]
  refine ⟨names ▸ offers.distinct.filter _, fun slot member => ?_⟩
  have named : slot.1 ∈ new.map (·.1) := List.mem_map_of_mem member
  rw [names] at named
  exact Option.isNone_iff_eq_none.mp (List.mem_filter.mp named).2

theorem lock_eq {cycle duration : Nat} (h : book.lock node cycle duration = .ok next) :
    ∃ pending busyUntil,
      next = { book with held := taken book.held (book.pending.getD node.id []), pending, busyUntil } := by
  rw [lock_eq_ok h]
  obtain ⟨busyUntil, same⟩ := occupyAll_eq (book.commit node.id) (cycle + duration) node.targets
  exact ⟨_, busyUntil, same⟩

theorem Offers.exclusive_of_lock {cycle duration : Nat} {coords : List Coord} (offers : book.Offers node coords)
    (exclusive : book.Exclusive) (h : book.lock node cycle duration = .ok next) : next.Exclusive := by
  obtain ⟨names, unplaced⟩ := offers.unplaced
  obtain ⟨slots, places⟩ := slots_of_choose offers.chosen List.nodup_nil
  have after := exclusive.taken names slots unplaced fun slot member =>
    (places slot member).resolve_left List.not_mem_nil
  obtain ⟨pending, busyUntil, rfl⟩ := lock_eq h
  exact ⟨after.distinct, after.listed, after.unbound⟩

theorem Offers.map_address?_of_lock {cycle duration : Nat} {coords : List Coord} (offers : book.Offers node coords)
    (h : book.lock node cycle duration = .ok next) : node.targets.map next.address? = coords.map some := by
  rw [lock_eq_ok h]
  obtain ⟨busyUntil, same⟩ := occupyAll_eq (book.commit node.id) (cycle + duration) node.targets
  have committed : node.targets.map (commit { book with pending := book.pending } node.id).address?
      = coords.map some := by
    refine map_address?_commit offers.chosen rfl fun symbol twice => ?_
    have once := List.nodup_iff_count_le_one.mp offers.distinct symbol
    omega
  rw [same]
  exact committed

/-- A resource that holds a slot keeps it when a choice is committed. -/
theorem Offers.held_of_lock {cycle duration : Nat} {coords : List Coord} (offers : book.Offers node coords)
    (h : book.lock node cycle duration = .ok next) {symbol : Symbol} {c : Coord}
    (found : book.held[symbol]? = some c) : next.held[symbol]? = some c := by
  obtain ⟨pending, busyUntil, rfl⟩ := lock_eq h
  refine (getElem?_taken_of_not_mem (fun named => ?_) book.held).trans found
  obtain ⟨slot, member, rfl⟩ := List.mem_map.mp named
  have unknown := (Option.or_eq_none_iff.mp (offers.unplaced.2 slot member)).2
  rw [found] at unknown
  cases unknown

/-- A target that has an address is offered this one. -/
theorem getElem?_of_resolve {coords : List Coord} (h : (book.resolve node).1 = some coords) {symbol : Symbol}
    {c : Coord} (known : book.address? symbol = some c) {i : Nat} (named : node.targets[i]? = some symbol) :
    coords[i]? = some c := by
  obtain ⟨chosen, _, choice, _⟩ := resolve_eq_some h
  obtain ⟨new, _, names, places⟩ := choose_eq_some choice
  obtain ⟨length, each⟩ := List.forall₂_iff_get.mp places
  obtain ⟨inside, rfl⟩ := List.getElem?_eq_some_iff.mp named
  refine List.getElem?_eq_some_iff.mpr ⟨length ▸ inside, ?_⟩
  rcases each i inside (length ▸ inside) with here | chosen
  · exact Option.some.inj (here.symm.trans known)
  · have listed := List.mem_map_of_mem (f := Prod.fst) chosen
    rw [names] at listed
    simp [known] at listed

end AddressBook

/-! ## Calls in any order -/

/-- A call to the book on behalf of a node. -/
inductive Call where
  /-- Asks for the addresses of the targets. -/
  | resolve (id : NodeId)
  /-- Places the node on the addresses that it was offered. -/
  | lock (id : NodeId) (cycle duration : Nat)
  /-- Gives the slots of the targets up. -/
  | free (id : NodeId)
  deriving Repr, DecidableEq

/-- The book between two calls, and what the last call offered to whom. -/
structure Desk where
  book : AddressBook
  offer : Option (NodeId × List Coord) := none
  deriving DecidableEq

namespace Desk

/-- Answers a call. A node can be placed only if the call before offered addresses to it. -/
def serve (g : Graph) (d : Desk) : Call → Option Desk
  | .resolve id => (g.node? id).map fun node =>
      { book := (d.book.resolve node).2, offer := (d.book.resolve node).1.map (id, ·) }
  | .lock id cycle duration => (g.node? id).bind fun node =>
      if d.offer.map (·.1) = some id then (d.book.lock node cycle duration).toOption.map fun book => { book } else none
  | .free id => (g.node? id).map fun node => { book := d.book.free node }

/-- Answers calls in order. -/
def serveAll (g : Graph) (d : Desk) : List Call → Option Desk
  | [] => some d
  | call :: calls => (d.serve g call).bind (·.serveAll g calls)

variable {g : Graph} {d e : Desk} {calls : List Call} {symbol : Symbol} {c : Coord}

/-- What a call can do. -/
inductive Serves (g : Graph) (d : Desk) : Call → Desk → Prop where
  | resolve {id : NodeId} {node : Node} : g.node? id = some node →
      Serves g d (.resolve id) { book := (d.book.resolve node).2, offer := (d.book.resolve node).1.map (id, ·) }
  | lock {id : NodeId} {node : Node} {cycle duration : Nat} {coords : List Coord} {book : AddressBook} :
      g.node? id = some node → d.offer = some (id, coords) → d.book.lock node cycle duration = .ok book →
      Serves g d (.lock id cycle duration) { book }
  | free {id : NodeId} {node : Node} : g.node? id = some node → Serves g d (.free id) { book := d.book.free node }

theorem serves_of_serve {call : Call} (h : d.serve g call = some e) : d.Serves g call e := by
  cases call with
  | resolve id =>
      obtain ⟨node, found, rfl⟩ := Option.map_eq_some_iff.mp h
      exact .resolve found
  | lock id cycle duration =>
      obtain ⟨node, found, noted⟩ := Option.bind_eq_some_iff.mp h
      split at noted
      next offered =>
          obtain ⟨⟨_, coords⟩, offer, rfl⟩ := Option.map_eq_some_iff.mp offered
          cases locked : d.book.lock node cycle duration with
          | error e =>
              rw [locked] at noted
              cases noted
          | ok book =>
              rw [locked] at noted
              cases noted
              exact .lock found offer locked
      · cases noted
  | free id =>
      obtain ⟨node, found, rfl⟩ := Option.map_eq_some_iff.mp h
      exact .free found

/-- Nobody holds what belongs to somebody else, and the last offer still stands. -/
structure Valid (g : Graph) (bindings : SymbolMap Coord) (slots : List Coord) (d : Desk) : Prop where
  bindings : d.book.bindings = bindings
  slots : d.book.slots = slots
  exclusive : d.book.Exclusive
  offered : ∀ id node coords, g.node? id = some node → d.offer = some (id, coords) → d.book.Offers node coords

section Calls

variable {bindings : SymbolMap Coord} {slots : List Coord} (distinct : ∀ id, (g.targetsOf id).Nodup)
include distinct

theorem valid_serve (valid : d.Valid g bindings slots) {call : Call} (h : d.serve g call = some e) :
    e.Valid g bindings slots := by
  cases serves_of_serve h with
  | @resolve id node found =>
      obtain ⟨pending, same⟩ := d.book.resolve_snd node
      refine ⟨?_, ?_, ?_, fun other node' coords found' offered => ?_⟩
      · rw [same]
        exact valid.bindings
      · rw [same]
        exact valid.slots
      · rw [same]
        exact ⟨valid.exclusive.distinct, valid.exclusive.listed, valid.exclusive.unbound⟩
      · obtain ⟨coords, resolved, pair⟩ := Option.map_eq_some_iff.mp offered
        cases pair
        cases Option.some.inj (found.symm.trans found')
        exact AddressBook.offers_of_resolve (Graph.targetsOf_of_node? found ▸ distinct id) resolved
  | @lock id node cycle duration coords book found offer locked =>
      have offers := valid.offered id node coords found offer
      have exclusive := offers.exclusive_of_lock valid.exclusive locked
      obtain ⟨pending, busyUntil, rfl⟩ := AddressBook.lock_eq locked
      exact ⟨valid.bindings, valid.slots, exclusive, by simp⟩
  | free found => exact ⟨valid.bindings, valid.slots, valid.exclusive.free _, by simp⟩

theorem valid_serveAll (valid : d.Valid g bindings slots) (h : d.serveAll g calls = some e) :
    e.Valid g bindings slots := by
  induction calls generalizing d with
  | nil =>
      cases h
      exact valid
  | cons call calls ih =>
      obtain ⟨next, first, h⟩ := Option.bind_eq_some_iff.mp h
      exact ih (valid_serve distinct valid first) h

/-- A slot is kept over every call but one that frees it. -/
theorem held_of_serveAll (valid : d.Valid g bindings slots) (h : d.serveAll g calls = some e)
    (kept : ∀ id, .free id ∈ calls → symbol ∉ g.targetsOf id) (found : d.book.held[symbol]? = some c) :
    e.book.held[symbol]? = some c := by
  induction calls generalizing d with
  | nil =>
      cases h
      exact found
  | cons call calls ih =>
      obtain ⟨next, first, h⟩ := Option.bind_eq_some_iff.mp h
      refine ih (valid_serve distinct valid first) h (fun id member => kept id (List.mem_cons_of_mem _ member)) ?_
      cases serves_of_serve first with
      | @resolve id node _ =>
          obtain ⟨pending, same⟩ := d.book.resolve_snd node
          rw [same]
          exact found
      | lock known offer locked => exact (valid.offered _ _ _ known offer).held_of_lock locked found
      | @free id node known =>
          have other := kept id List.mem_cons_self
          rw [Graph.targetsOf_of_node? known] at other
          rw [AddressBook.getElem?_free, if_neg other]
          exact found

end Calls

theorem serveAll_append (g : Graph) (d : Desk) (calls more : List Call) :
    d.serveAll g (calls ++ more) = (d.serveAll g calls).bind (·.serveAll g more) := by
  induction calls generalizing d with
  | nil => rfl
  | cons call calls ih =>
      rw [List.cons_append, serveAll, serveAll, Option.bind_assoc]
      exact congrArg _ (funext ih)

/-- A node that is offered addresses can be placed at once, and is where it was told. -/
theorem placed_of_resolve {id : NodeId} {node : Node} {coords : List Coord} {cycle duration : Nat}
    (known : g.node? id = some node) (distinct : node.targets.Nodup) (resolved : (d.book.resolve node).1 = some coords)
    (bounded : cycle + duration < wordLimit) :
    ∃ e, d.serveAll g [.resolve id, .lock id cycle duration] = some e ∧
      node.targets.map e.book.address? = coords.map some := by
  have sum : addWords cycle duration = .ok (cycle + duration) := addWords_eq_ok_iff.mpr ⟨bounded, rfl⟩
  obtain ⟨book, locked⟩ : ∃ book, (d.book.resolve node).2.lock node cycle duration = .ok book := ⟨_, by
    rw [AddressBook.lock, sum]
    rfl⟩
  refine ⟨{ book }, ?_, (AddressBook.offers_of_resolve distinct resolved).map_address?_of_lock locked⟩
  simp [serveAll, serve, known, resolved, locked, Except.toOption]

end Desk

/-! ## The calls of a run -/

namespace Run

variable {g : Graph} {r s : Run} {book : AddressBook}

/-- The book of a run is as a sequence of calls leaves it. -/
def Handled (g : Graph) (book : AddressBook) (r : Run) : Prop :=
  ∃ calls d, Desk.serveAll g { book } calls = some d ∧ d.book = r.floor.book

theorem Handled.append (handled : r.Handled g book) (calls : List Call)
    (more : ∀ d : Desk, d.book = r.floor.book → ∃ e, d.serveAll g calls = some e ∧ e.book = s.floor.book) :
    s.Handled g book := by
  obtain ⟨earlier, d, served, same⟩ := handled
  obtain ⟨e, later, last⟩ := more d same
  exact ⟨earlier ++ calls, e, by rw [Desk.serveAll_append, served]; exact later, last⟩

theorem Handled.release {id : NodeId} {node : Node} (handled : r.Handled g book) (known : g.node? id = some node)
    (patches : List Coord) : ({ r with floor := r.floor.release node patches } : Run).Handled g book := by
  by_cases resets : node.operation.releasesSlots
  · refine handled.append [.free id] fun d same => ⟨{ book := d.book.free node }, ?_, ?_⟩
    · simp [Desk.serveAll, Desk.serve, known]
    · simp [Floorplan.release, resets, same]
  · refine handled.append [] fun d same => ⟨d, rfl, ?_⟩
    simp [Floorplan.release, resets, same]

theorem Handled.resolve {id : NodeId} {node : Node} (handled : r.Handled g book) (known : g.node? id = some node)
    (asked : s.floor.book = (r.floor.book.resolve node).2) : s.Handled g book := by
  refine handled.append [.resolve id] fun d same =>
    ⟨⟨(d.book.resolve node).2, (d.book.resolve node).1.map (id, ·)⟩, ?_, ?_⟩
  · simp [Desk.serveAll, Desk.serve, known]
  · rw [asked, same]

theorem Handled.lock {id : NodeId} {node : Node} {coords : List Coord} {start : Nat} (handled : r.Handled g book)
    (known : g.node? id = some node) (resolved : (r.floor.book.resolve node).1 = some coords)
    (locked : (r.floor.book.resolve node).2.lock node start node.duration = .ok s.floor.book) : s.Handled g book := by
  refine handled.append [.resolve id, .lock id start node.duration] fun d same => ⟨{ book := s.floor.book }, ?_, rfl⟩
  simp [Desk.serveAll, Desk.serve, known, same, resolved, locked, Except.toOption]

theorem Handled.tryAdmit {id : NodeId} (handled : r.Handled g book) (h : r.tryAdmit g id = .ok s) :
    s.Handled g book := by
  unfold Run.tryAdmit at h
  split at h
  · cases h
    exact handled
  next node known =>
      rw [Floorplan.place_eq] at h
      split at h
      · cases h
      next floor asked =>
          cases h
          obtain ⟨_, rfl⟩ := Prod.mk.inj asked
          exact handled.resolve known rfl
      next patches floor asked =>
          obtain ⟨offered, rfl⟩ := Prod.mk.inj asked
          dsimp only at h
          split at h
          · cases h
          next floor occupied =>
              cases h
              obtain ⟨layout, _, noted⟩ := bind_eq_ok.mp occupied
              obtain ⟨after, locked, noted⟩ := bind_eq_ok.mp noted
              cases noted
              cases resolved : (r.floor.book.resolve node).1 with
              | none =>
                  rw [resolved] at offered
                  cases offered
              | some coords => exact handled.lock known resolved locked

theorem Handled.admitAll {queue : List NodeId} (handled : r.Handled g book) (h : r.admitAll g queue = .ok s) :
    s.Handled g book := by
  induction queue generalizing r with
  | nil =>
      cases h
      exact handled
  | cons id queue ih =>
      obtain ⟨next, turn, h⟩ := bind_eq_ok.mp h
      exact ih (handled.tryAdmit turn) h

/-- A run makes its calls in such an order: who is offered addresses is placed at once, or asks again later. -/
theorem handled_of_reaches {f : Floorplan} {limit : Nat} (reached : Reaches (step g limit) (start g f) r) :
    r.Handled g f.book := by
  refine reached.invariant (P := Handled g f.book) (fun before after handled next => ?_) ?_
  · obtain ⟨t, admitted, last⟩ := step_eq_again next
    obtain ⟨idle, rfl⟩ := close_eq_again last
    have turned : (before.turnover g).Handled g f.book := turnover_induction (P := Handled g f.book) handled
      (fun _ _ _ handled _ known => handled.release known _) (fun _ _ handled _ => handled)
    have placed : t.Handled g f.book := Handled.admitAll (r := { before.turnover g with
      waiting := g.prioritise (before.turnover g).waiting, admitted := [] }) turned admitted
    exact placed
  · exact wakeAll_induction (P := Handled g f.book) (fun _ _ handled _ => handled) ⟨[], _, rfl, rfl⟩ g.entries

end Run

/-- No slot is held by two resources, by one with a fixed place, or without being on the list, whatever the calls were;
    a node that is placed on what it was offered is where it was told, and a resource that holds a slot is found there
    until a node that acts on it gives it up. These are the calls that every run makes. -/
theorem slots_of_serveAll {b : Builder} {g : Graph} (reachable : b.Reachable) (plain : b.graph.Plain)
    (rewritten : Relation.ReflTransGen Graph.Rewrites b.graph g) (bindings : SymbolMap Coord) (slots : List Coord)
    {calls : List Call} {d : Desk} (served : Desk.serveAll g { book := { bindings, slots } } calls = some d) :
    (∀ (one two : Symbol) c, d.book.held[one]? = some c → d.book.held[two]? = some c → one = two) ∧
    (∀ (symbol : Symbol) c, d.book.held[symbol]? = some c → c ∈ slots ∧ bindings[symbol]? = none) ∧
    (∀ id node coords cycle duration, g.node? id = some node → (d.book.resolve node).1 = some coords →
      cycle + duration < wordLimit → ∃ next, d.serveAll g [.resolve id, .lock id cycle duration] = some next ∧
        node.targets.map next.book.address? = coords.map some) ∧
    (∀ (symbol : Symbol) c, d.book.held[symbol]? = some c → ∀ later last, d.serveAll g later = some last →
      (∀ id, .free id ∈ later → symbol ∉ g.targetsOf id) → last.book.address? symbol = some c ∧
        ∀ (node : Node) coords (i : Nat), (last.book.resolve node).1 = some coords → node.targets[i]? = some symbol →
          coords[i]? = some c) ∧
    ∀ layout limit r, Reaches (Run.step g limit) (Run.start g ⟨layout, { bindings, slots }⟩) r →
      r.Handled g { bindings, slots } := by
  obtain ⟨level, formed, _⟩ := Graph.formed_of_rewritten reachable plain rewritten
  have distinct := formed.joined.distinct
  have start : ({ book := { bindings, slots } } : Desk).Valid g bindings slots :=
    ⟨rfl, rfl, ⟨by simp, by simp, by simp⟩, by simp⟩
  have valid := Desk.valid_serveAll distinct start served
  refine ⟨fun _ _ _ => valid.exclusive.distinct, fun symbol c found => ⟨?_, ?_⟩, ?_, ?_, ?_⟩
  · exact valid.slots ▸ valid.exclusive.listed found
  · exact valid.bindings ▸ valid.exclusive.unbound found
  · intro id node coords cycle duration known resolved bounded
    exact Desk.placed_of_resolve known (Graph.targetsOf_of_node? known ▸ distinct id) resolved bounded
  · intro symbol c found later last served kept
    have held := Desk.held_of_serveAll distinct valid served kept found
    have after := Desk.valid_serveAll distinct valid served
    have address : last.book.address? symbol = some c := by
      rw [AddressBook.address?, after.exclusive.unbound held, held]
      rfl
    exact ⟨address, fun node coords i resolved named => AddressBook.getElem?_of_resolve resolved address named⟩
  · exact fun layout limit r reached => Run.handled_of_reaches reached

/-- Two resources start together, one of them ends, and a third one starts. -/
def succession : Except Error Builder :=
  (Builder.new "succession").addGates [(.init, ["m", "n"]), (.reset, ["m"]), (.init, ["p"])]

/-- A slot listed twice is held once: the third resource finds none, asks again, and follows the first one into its
    slot, while the second one stays. -/
theorem slots_of_serveAll_succession :
    ∃ (b : Builder) (d : Desk), b.Reachable ∧ b.graph.Plain ∧
      Desk.serveAll b.graph { book := { slots := [⟨2, 2⟩, ⟨2, 2⟩, ⟨2, 3⟩] } }
        [.resolve 0, .lock 0 0 1, .resolve 2, .free 1, .resolve 2, .lock 2 4 1] = some d ∧
      d.book.held["p"]? = some ⟨2, 2⟩ ∧ d.book.held["n"]? = some ⟨2, 3⟩ ∧
      (∀ symbol : Symbol, d.book.held[symbol]? = some ⟨2, 2⟩ → symbol = "p") ∧
      ∀ later last, d.serveAll b.graph later = some last → (∀ id, .free id ∈ later → "n" ∉ b.graph.targetsOf id) →
        last.book.address? "n" = some ⟨2, 3⟩ := by
  have runs : succession.toOption.any fun b =>
      decide b.graph.Plain
        && (Desk.serveAll b.graph { book := { slots := [⟨2, 2⟩, ⟨2, 2⟩, ⟨2, 3⟩] } }
          [.resolve 0, .lock 0 0 1, .resolve 2, .free 1, .resolve 2, .lock 2 4 1]).any fun d =>
            d.book.held["p"]? == some ⟨2, 2⟩ && d.book.held["n"]? == some ⟨2, 3⟩ := by decide +kernel
  obtain ⟨b, built, runs⟩ := exists_ok_of_any runs
  simp only [Bool.and_eq_true, Option.any_eq_true, beq_iff_eq, decide_eq_true_eq] at runs
  obtain ⟨plain, d, served, p, n⟩ := runs
  have reachable := (Builder.Reachable.new "succession").addGates built
  obtain ⟨distinct, _, _, stable, _⟩ := slots_of_serveAll reachable plain .refl ∅ _ served
  exact ⟨b, d, reachable, plain, served, p, n, fun symbol found => distinct symbol "p" _ found p,
    fun later last more kept => (stable "n" _ n later last more kept).1⟩

end LatticeSurgery
