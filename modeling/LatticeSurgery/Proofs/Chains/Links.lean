import Mathlib.Data.List.Induction
import Mathlib.Data.List.Perm.Basic
import LatticeSurgery.Proofs.Chains.Service

/-! # What services ask for

A list of services determines the chains. The service at position `i` is answered by the node at position
`i` behind the old ones, so an instance gets a link for each of its services, and a consumer renames what
it drew and reads it from the new node.
-/

namespace LatticeSurgery

/-- One unit of an instance: who makes it, who gets it, and how long it takes. -/
structure Link where
  producer : NodeId
  consumer : NodeId
  period : Nat
  deriving Repr, DecidableEq

namespace Service

variable (first : NodeId) (served : List (NodeId × Draw))

/-- The units of an instance in the order in which they are served. The producers of all services are
    numbered from `first` on. -/
def links (own : Symbol) : List Link :=
  (served.zipIdx first).filterMap fun (entry, producer) =>
    if entry.2.instanceSymbol = own then some ⟨producer, entry.1, entry.2.period⟩ else none

/-- Edges through which a node reads the units that it was served. -/
def edgesOf (id : NodeId) : List Edge :=
  (served.zipIdx first).filterMap fun (entry, producer) =>
    if entry.1 = id then some ⟨entry.2.instanceSymbol, producer⟩ else none

/-- Whether a node was served a magic state. -/
def drew (id : NodeId) (symbol : Symbol) : Bool :=
  served.any fun entry => entry.1 == id && entry.2.symbol == symbol

/-- What a node calls one of its targets after its services. -/
def nameFor (id : NodeId) (symbol : Symbol) : Symbol :=
  ((served.find? fun entry => entry.1 == id && entry.2.symbol == symbol).map (·.2.instanceSymbol)).getD symbol

/-- A node of the graph before, after its services. -/
def rebound (node : Node) : Node :=
  { node with
    targets := node.targets.map (nameFor served node.id)
    producers := node.producers.filter (!drew served node.id ·.symbol) ++ edgesOf first served node.id }

end Service

/-- The node that makes a unit, if the previous unit went to `previous`. -/
def Link.maker (own : Symbol) (previous : Option NodeId) (link : Link) : Node where
  id := link.producer
  operation := if previous.isSome then .prep else .init
  targets := [own]
  cycles := max link.period 1
  isFactory := true
  producers := previous.toList.map (⟨own, ·⟩)

namespace Service

variable {first : NodeId} {served : List (NodeId × Draw)} {consumer id : NodeId} {unit : Draw}
  {own symbol : Symbol}

/-- No instance that serves is called like a magic state of the graph. -/
def Apart (g : Graph) (served : List (NodeId × Draw)) : Prop :=
  ∀ entry ∈ served, g.isMagic entry.2.instanceSymbol = false

theorem Apart.ne {g : Graph} (apart : Apart g served) (magic : g.isMagic symbol) :
    ∀ entry ∈ served, entry.2.instanceSymbol ≠ symbol := by
  rintro entry member rfl
  rw [apart entry member] at magic
  cases magic

theorem Apart.of_plain {g : Graph} (plain : g.Plain) (served : List (NodeId × Draw)) : Apart g served := by
  intro entry _
  refine Bool.eq_false_iff.mpr fun magic => ?_
  exact plain _ (Graph.known_of_isMagic magic) entry.2.mark_mem_instanceSymbol

/-! ## One more service -/

theorem links_append :
    links first (served ++ [(consumer, unit)]) own
      = links first served own
        ++ if unit.instanceSymbol = own then [⟨first + served.length, consumer, unit.period⟩] else [] := by
  simp only [links, List.zipIdx_append, List.filterMap_append]
  split <;> simp [*]

theorem edgesOf_append :
    edgesOf first (served ++ [(consumer, unit)]) id
      = edgesOf first served id
        ++ if consumer = id then [⟨unit.instanceSymbol, first + served.length⟩] else [] := by
  simp only [edgesOf, List.zipIdx_append, List.filterMap_append]
  split <;> simp [*]

theorem drew_append :
    drew (served ++ [(consumer, unit)]) id symbol
      = (drew served id symbol || (consumer == id && unit.symbol == symbol)) := by
  simp [drew]

theorem find?_eq_none_of_drew (unserved : drew served id symbol = false) :
    served.find? (fun entry => entry.1 == id && entry.2.symbol == symbol) = none :=
  List.find?_eq_none.mpr fun entry member => by simpa using List.any_eq_false.mp unserved entry member

theorem nameFor_of_drew (unserved : drew served id symbol = false) : nameFor served id symbol = symbol := by
  simp [nameFor, find?_eq_none_of_drew unserved]

theorem exists_of_drew (h : drew served id symbol) :
    ∃ unit, (id, unit) ∈ served ∧ unit.symbol = symbol ∧ nameFor served id symbol = unit.instanceSymbol := by
  cases found : served.find? (fun entry => entry.1 == id && entry.2.symbol == symbol) with
  | none =>
      obtain ⟨entry, member, matching⟩ := List.any_eq_true.mp h
      exact absurd matching (List.find?_eq_none.mp found entry member)
  | some entry =>
      have matching := List.find?_some found
      simp only [Bool.and_eq_true, beq_iff_eq] at matching
      obtain ⟨rfl, rfl⟩ := matching
      exact ⟨entry.2, List.mem_of_find?_eq_some found, rfl, by simp [nameFor, found]⟩

theorem nameFor_append :
    nameFor (served ++ [(consumer, unit)]) id symbol
      = if drew served id symbol then nameFor served id symbol
        else if consumer = id ∧ unit.symbol = symbol then unit.instanceSymbol else symbol := by
  cases drawn : drew served id symbol with
  | true =>
      have found : (served.find? fun entry => entry.1 == id && entry.2.symbol == symbol).isSome := by
        rw [List.find?_isSome]
        exact List.any_eq_true.mp drawn
      obtain ⟨entry, found⟩ := Option.isSome_iff_exists.mp found
      simp [nameFor, List.find?_append, found]
  | false =>
      have missing := find?_eq_none_of_drew drawn
      by_cases here : consumer = id ∧ unit.symbol = symbol
      · simp [nameFor, List.find?_append, missing, here.1, here.2]
      · rw [not_and] at here
        simp only [nameFor, List.find?_append, missing, Option.none_or]
        by_cases same : consumer = id
        · simp [same, here same]
        · simp [same]

theorem instance_of_mem_edgesOf {edge : Edge} (member : edge ∈ edgesOf first served id) :
    ∃ entry ∈ served, entry.2.instanceSymbol = edge.symbol := by
  obtain ⟨⟨entry, producer⟩, inside, here⟩ := List.mem_filterMap.mp member
  dsimp only at here
  split at here
  · cases here
    exact ⟨entry, (List.mem_zipIdx inside).2.2 ▸ List.getElem_mem _, rfl⟩
  · cases here

theorem mark_of_mem_edgesOf {edge : Edge} (member : edge ∈ edgesOf first served id) : '#' ∈ edge.symbol.toList := by
  obtain ⟨entry, _, named⟩ := instance_of_mem_edgesOf member
  exact named ▸ entry.2.mark_mem_instanceSymbol

theorem rebound_append_of_ne {node : Node} (differs : consumer ≠ node.id) :
    rebound first (served ++ [(consumer, unit)]) node = rebound first served node := by
  have names : nameFor (served ++ [(consumer, unit)]) node.id = nameFor served node.id := by
    funext symbol
    rw [nameFor_append]
    split
    · rfl
    next unserved =>
        rw [nameFor_of_drew (Bool.eq_false_iff.mpr unserved), if_neg (fun both => differs both.1)]
  simp only [rebound, names, drew_append, edgesOf_append, if_neg differs, List.append_nil,
    beq_eq_false_iff_ne.mpr differs, Bool.false_and, Bool.or_false]

/-- Redirecting a consumer is what its next service asks for. -/
theorem rebound_append_of_eq {node : Node} (here : consumer = node.id)
    (apart : ∀ entry ∈ served, entry.2.instanceSymbol ≠ unit.symbol)
    (fresh : drew served consumer unit.symbol = false) :
    rebound first (served ++ [(consumer, unit)]) node
      = (rebound first served node).redirect unit.symbol unit.instanceSymbol (first + served.length) := by
  subst here
  have names : (fun target => if target = unit.symbol then unit.instanceSymbol else target)
      ∘ nameFor served node.id = nameFor (served ++ [(node.id, unit)]) node.id := by
    funext symbol
    rw [Function.comp_apply, nameFor_append]
    cases drawn : drew served node.id symbol with
    | true =>
        obtain ⟨other, member, _, name⟩ := exists_of_drew drawn
        rw [name, if_neg (apart _ member), if_pos rfl]
    | false =>
        rw [nameFor_of_drew drawn]
        simp only [true_and, Bool.false_eq_true, if_false, eq_comm]
  have own : (edgesOf first served node.id).filter (·.symbol != unit.symbol) = edgesOf first served node.id := by
    refine List.filter_eq_self.mpr fun edge member => bne_iff_ne.mpr ?_
    obtain ⟨entry, inside, named⟩ := instance_of_mem_edgesOf member
    rw [← named]
    exact apart entry inside
  simp only [rebound, Node.redirect, List.map_map, names, edgesOf_append, if_true, List.filter_append, own,
    List.filter_filter, drew_append, beq_self_eq_true, Bool.true_and, Bool.not_or, List.append_assoc]
  congr 2
  apply List.filter_congr
  intro edge _
  rw [Bool.and_comm, bne, BEq.comm]

theorem exists_head_append :
    (∃ own, (links first (served ++ [(consumer, unit)]) own).head?.map (·.producer) = some id) ↔
      (∃ own, (links first served own).head?.map (·.producer) = some id) ∨
        links first served unit.instanceSymbol = [] ∧ id = first + served.length := by
  constructor
  · rintro ⟨own, head⟩
    rw [links_append] at head
    cases old : links first served own with
    | nil =>
        rw [old, List.nil_append] at head
        split at head
        next named => exact .inr ⟨named ▸ old, (Option.some.inj head).symm⟩
        · cases head
    | cons link rest =>
        rw [old] at head
        exact .inl ⟨own, old ▸ head⟩
  · rintro (⟨own, head⟩ | ⟨empty, rfl⟩)
    · refine ⟨own, ?_⟩
      rw [links_append]
      cases old : links first served own with
      | nil =>
          rw [old] at head
          cases head
      | cons link rest =>
          rw [old] at head
          exact head
    · refine ⟨unit.instanceSymbol, ?_⟩
      rw [links_append, empty, if_pos rfl]
      rfl

theorem exists_tail_append :
    (∃ own, id ∈ (links first (served ++ [(consumer, unit)]) own).tail.map (·.producer)) ↔
      (∃ own, id ∈ (links first served own).tail.map (·.producer)) ∨
        links first served unit.instanceSymbol ≠ [] ∧ id = first + served.length := by
  constructor
  · rintro ⟨own, later⟩
    rw [links_append] at later
    cases old : links first served own with
    | nil =>
        rw [old, List.nil_append] at later
        split at later <;> cases later
    | cons link rest =>
        rw [old, List.cons_append, List.tail_cons, List.map_append] at later
        rcases List.mem_append.mp later with later | last
        · exact .inl ⟨own, by rw [old]; exact later⟩
        · split at last
          next named => exact .inr ⟨by rw [named, old]; simp, List.mem_singleton.mp last⟩
          · cases last
  · rintro (⟨own, later⟩ | ⟨filled, rfl⟩)
    · refine ⟨own, ?_⟩
      rw [links_append]
      cases old : links first served own with
      | nil =>
          rw [old] at later
          cases later
      | cons link rest =>
          rw [old] at later
          rw [List.cons_append, List.tail_cons, List.map_append]
          exact List.mem_append_left _ later
    · refine ⟨unit.instanceSymbol, ?_⟩
      obtain ⟨link, rest, old⟩ := List.exists_cons_of_ne_nil filled
      rw [links_append, old, if_pos rfl]
      simp

/-! ## Links by position -/

section Position

variable {link : Link} {edge : Edge}

theorem mem_links : link ∈ links first served own ↔
    ∃ (i : Nat) (unit : Draw), served[i]? = some (link.consumer, unit) ∧ unit.instanceSymbol = own ∧
      link.producer = first + i ∧ link.period = unit.period := by
  simp only [links, List.mem_filterMap, Prod.exists, List.mk_mem_zipIdx_iff_le_and_getElem?_sub]
  constructor
  · rintro ⟨consumer, unit, producer, ⟨above, found⟩, here⟩
    split at here
    next named =>
        cases here
        exact ⟨producer - first, unit, found, named, by lia, rfl⟩
    · cases here
  · rintro ⟨i, unit, found, named, producer, period⟩
    refine ⟨link.consumer, unit, first + i, ⟨Nat.le_add_right _ _, ?_⟩, ?_⟩
    · rwa [Nat.add_sub_cancel_left]
    · rw [if_pos named, ← producer, ← period]

theorem producer_lt (member : link ∈ links first served own) :
    first ≤ link.producer ∧ link.producer < first + served.length := by
  obtain ⟨i, unit, found, _, producer, _⟩ := mem_links.mp member
  have inside := (List.getElem?_eq_some_iff.mp found).1
  lia

theorem consumer_mem (member : link ∈ links first served own) : ∃ unit, (link.consumer, unit) ∈ served := by
  obtain ⟨i, unit, found, _⟩ := mem_links.mp member
  exact ⟨unit, List.mem_of_getElem? found⟩

theorem links_eq_nil (apart : ∀ entry ∈ served, entry.2.instanceSymbol ≠ symbol) : links first served symbol = [] := by
  refine List.eq_nil_iff_forall_not_mem.mpr fun link member => ?_
  obtain ⟨_, unit, found, named, _⟩ := mem_links.mp member
  exact apart _ (List.mem_of_getElem? found) named

theorem map_consumer_links :
    (links first served own).map (·.consumer) = (served.filter (·.2.instanceSymbol = own)).map (·.1) := by
  induction served using List.reverseRecOn with
  | nil => rfl
  | append_singleton served entry ih =>
      obtain ⟨consumer, unit⟩ := entry
      rw [links_append, List.map_append, ih, List.filter_append, List.map_append]
      by_cases named : unit.instanceSymbol = own <;> simp [named]

/-- Links come in the order of the services. -/
theorem rel_of_lt {R : Link → Link → Prop} (ordered : (links first served own).Pairwise R) {i j : Nat} {a b : NodeId}
    {u v : Draw} (one : served[i]? = some (a, u)) (two : served[j]? = some (b, v)) (below : i < j)
    (named : u.instanceSymbol = own) (named' : v.instanceSymbol = own) :
    R ⟨first + i, a, u.period⟩ ⟨first + j, b, v.period⟩ := by
  obtain ⟨inside, here⟩ := List.getElem?_eq_some_iff.mp one
  obtain ⟨inside', there⟩ := List.getElem?_eq_some_iff.mp two
  have entries := List.pairwise_iff_getElem.mp (List.pairwise_filterMap.mp ordered) i j
    (by rwa [List.length_zipIdx]) (by rwa [List.length_zipIdx]) below
  rw [List.getElem_zipIdx, List.getElem_zipIdx, here, there] at entries
  exact entries _ (if_pos named) _ (if_pos named')

theorem mem_edgesOf : edge ∈ edgesOf first served id ↔
    ∃ (i : Nat) (unit : Draw), served[i]? = some (id, unit) ∧ unit.instanceSymbol = edge.symbol ∧
      edge.node = first + i := by
  simp only [edgesOf, List.mem_filterMap, Prod.exists, List.mk_mem_zipIdx_iff_le_and_getElem?_sub]
  constructor
  · rintro ⟨consumer, unit, producer, ⟨above, found⟩, here⟩
    split at here
    next same =>
        cases here
        obtain rfl : consumer = id := same
        exact ⟨producer - first, unit, found, rfl, by lia⟩
    · cases here
  · rintro ⟨i, unit, found, named, producer⟩
    refine ⟨id, unit, first + i, ⟨Nat.le_add_right _ _, ?_⟩, ?_⟩
    · rwa [Nat.add_sub_cancel_left]
    · rw [if_pos rfl, named, ← producer]

section Distinct

variable (distinct : (served.map fun entry => (entry.1, entry.2.symbol)).Nodup)
include distinct

theorem index_inj {i j : Nat} {a b : Draw} (one : served[i]? = some (id, a)) (two : served[j]? = some (id, b))
    (same : a.symbol = b.symbol) : i = j := by
  have inside := (List.getElem?_eq_some_iff.mp one).1
  apply (List.getElem?_inj (by rwa [List.length_map]) distinct).mp
  simp [one, two, same]

theorem pairwise_zipIdx : (served.zipIdx first).Pairwise fun a b =>
    a.2 < b.2 ∧ ¬ (a.1.1 = b.1.1 ∧ a.1.2.symbol = b.1.2.symbol) := by
  rw [List.pairwise_iff_getElem]
  intro i j one two below
  rw [List.getElem_zipIdx, List.getElem_zipIdx]
  refine ⟨Nat.add_lt_add_left below first, fun same => Nat.ne_of_lt below ?_⟩
  rw [List.length_zipIdx] at one two
  refine index_inj distinct (a := served[i].2) (b := served[j].2) (List.getElem?_eq_getElem one) ?_ same.2
  rw [List.getElem?_eq_getElem two]
  exact congrArg some (Prod.ext same.1.symm rfl)

theorem pairwise_links : (links first served own).Pairwise fun a b =>
    a.producer < b.producer ∧ a.consumer ≠ b.consumer := by
  refine List.pairwise_filterMap.mpr ((pairwise_zipIdx distinct).imp ?_)
  rintro ⟨⟨one, a⟩, p⟩ ⟨⟨two, b⟩, q⟩ ⟨below, apart⟩ _ first _ second
  dsimp only at first second below apart
  split at first
  next here =>
      split at second
      next there =>
          cases first
          cases second
          refine ⟨below, fun same => apart ⟨same, ?_⟩⟩
          exact (Draw.instanceSymbol_eq_iff.mp (here.trans there.symm)).1
      · cases second
  · cases first

theorem nodup_edgesOf : (edgesOf first served id).Nodup := by
  refine List.pairwise_filterMap.mpr ((pairwise_zipIdx distinct).imp ?_)
  rintro ⟨⟨one, a⟩, p⟩ ⟨⟨two, b⟩, q⟩ ⟨below, _⟩ _ first _ second same
  dsimp only at first second below
  split at first
  · split at second
    · cases first
      cases second
      exact Nat.ne_of_lt below (congrArg Edge.node same)
    · cases second
  · cases first

/-- A consumer reads each instance that serves it from one node. -/
theorem filter_edgesOf (member : link ∈ links first served own) :
    (edgesOf first served link.consumer).filter (·.symbol == own) = [⟨own, link.producer⟩] := by
  obtain ⟨i, unit, found, named, producer, _⟩ := mem_links.mp member
  refine List.perm_singleton.mp ((List.perm_ext_iff_of_nodup ?_ (List.nodup_singleton _)).mpr fun edge => ?_)
  · exact (nodup_edgesOf distinct).filter _
  rw [List.mem_filter, mem_edgesOf, List.mem_singleton, beq_iff_eq]
  constructor
  · rintro ⟨⟨j, other, there, name, node⟩, rfl⟩
    have symbols := (Draw.instanceSymbol_eq_iff.mp (named.trans name.symm)).1
    obtain rfl := index_inj distinct found there symbols
    rw [producer, ← node]
  · rintro rfl
    exact ⟨⟨i, unit, found, named, producer⟩, rfl⟩

theorem nameFor_of_mem (member : (id, unit) ∈ served) : nameFor served id unit.symbol = unit.instanceSymbol := by
  have drawn : drew served id unit.symbol := List.any_eq_true.mpr ⟨_, member, by simp⟩
  obtain ⟨other, inside, symbols, name⟩ := exists_of_drew drawn
  obtain ⟨i, found⟩ := List.getElem?_of_mem member
  obtain ⟨j, there⟩ := List.getElem?_of_mem inside
  obtain rfl := index_inj distinct found there symbols.symm
  rw [found] at there
  cases there
  exact name

end Distinct

end Position

end Service

end LatticeSurgery
