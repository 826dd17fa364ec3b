import Mathlib.Order.Bounds.Defs
import LatticeSurgery.Proofs.Graph.Construction
import LatticeSurgery.Proofs.Graph.Joined

/-! # Dependence on the last writer

The edges of a built graph can be read off a scan of the older nodes. An operation reads an exclusive target from the
latest older node that acts on it, and from nobody if it is the first; it reads a magic state from the one factory
that makes it. Whatever calls follow, failing ones among them, a resource stays of its kind and a node reads what it
read.
-/

namespace LatticeSurgery

namespace Graph

/-- The one factory that makes a magic state. -/
structure SoleSource (g : Graph) (symbol : Symbol) (source : NodeId) : Prop where
  registered : g.sources[symbol]? = some source
  only : ∀ n, g.isFactory n ∧ symbol ∈ g.targetsOf n ↔ n = source

/-- The edges of a node at a position, target by target. -/
inductive Resolves (g : Graph) (id : NodeId) : List Symbol → List Edge → Prop where
  | nil : Resolves g id [] []
  /-- Nobody acted on the resource before, so there is nothing to wait for. -/
  | first {symbol targets edges} (exclusive : g.kind? symbol = some .exclusive)
      (new : ∀ n < id, symbol ∉ g.targetsOf n) (rest : Resolves g id targets edges) :
      Resolves g id (symbol :: targets) edges
  | written {symbol targets edges} {writer : NodeId} (exclusive : g.kind? symbol = some .exclusive)
      (last : IsGreatest {n | n < id ∧ symbol ∈ g.targetsOf n} writer) (rest : Resolves g id targets edges) :
      Resolves g id (symbol :: targets) (⟨symbol, writer⟩ :: edges)
  | drawn {symbol targets edges} {source : NodeId} (magic : g.kind? symbol = some .magicState)
      (makes : g.SoleSource symbol source) (rest : Resolves g id targets edges) :
      Resolves g id (symbol :: targets) (⟨symbol, source⟩ :: edges)

/-- Operations depend on those that acted on their resources last. -/
structure Causal (g : Graph) : Prop where
  resolves : ∀ {id node}, g.node? id = some node → node.isFactory = false →
    g.Resolves id node.targets node.producers
  older : ∀ {id node}, g.node? id = some node → ∀ edge ∈ node.producers, edge.node < id
  connected : ∀ {symbol} {older newer : NodeId}, g.kind? symbol = some .exclusive → older < newer →
    symbol ∈ g.targetsOf older → symbol ∈ g.targetsOf newer → Relation.TransGen g.Feeds older newer

theorem isGreatest_of_writerBefore? {g : Graph} {symbol : Symbol} {bound writer : NodeId}
    (h : g.writerBefore? symbol bound = some writer) :
    IsGreatest {n | n < bound ∧ symbol ∈ g.targetsOf n} writer := by
  obtain ⟨below, acts, latest⟩ := writerBefore?_eq_some h
  refine ⟨⟨below, acts⟩, ?_⟩
  rintro n ⟨inside, there⟩
  exact Nat.le_of_not_lt fun above => latest n above inside there

namespace Wired

variable {g : Graph} (wired : g.Wired)
include wired

theorem soleSource {symbol : Symbol} {source : NodeId} (found : g.sources[symbol]? = some source) :
    g.SoleSource symbol source := by
  refine ⟨found, fun n => ⟨?_, ?_⟩⟩
  · rintro ⟨factory, makes⟩
    obtain ⟨node, here⟩ := exists_node?_of_mem_targetsOf makes
    rw [isFactory_of_node? here] at factory
    rw [targetsOf_of_node? here] at makes
    -- what a factory makes is its one target, and the registry has one source for it
    obtain ⟨own, registered, targets, _⟩ := wired.of_isFactory here factory
    rw [targets, List.mem_singleton] at makes
    rw [makes, registered] at found
    exact Option.some.inj found
  · rintro rfl
    refine ⟨(wired.isMagic_of_source found).2, ?_⟩
    rw [targetsOf_eq_stem, wired.source found]
    exact List.mem_singleton_self symbol

theorem resolves_origins (id : NodeId) {targets : List Symbol} (known : ∀ symbol ∈ targets, g.kind? symbol ≠ none) :
    g.Resolves id targets (targets.filterMap (g.origin? id)) := by
  induction targets with
  | nil => exact .nil
  | cons symbol targets ih =>
      obtain ⟨here, others⟩ := List.forall_mem_cons.mp known
      have rest := ih others
      obtain ⟨kind, is⟩ := Option.ne_none_iff_exists'.mp here
      cases kind with
      | exclusive =>
          have exclusive : g.isMagic symbol = false := by simp [isMagic, is]
          cases latest : g.writerBefore? symbol id with
          | none =>
              have new : ∀ n < id, symbol ∉ g.targetsOf n := fun n below acts => by
                obtain ⟨writer, found⟩ := exists_writerBefore? below acts
                rw [latest] at found
                cases found
              rw [List.filterMap_cons_none (by simp [origin?, exclusive, latest])]
              exact .first is new rest
          | some writer =>
              have origin : g.origin? id symbol = some ⟨symbol, writer⟩ := by simp [origin?, exclusive, latest]
              rw [List.filterMap_cons_some origin]
              exact .written is (isGreatest_of_writerBefore? latest) rest
      | magicState =>
          obtain ⟨source, found⟩ := wired.supplied.mp is
          have origin : g.origin? id symbol = some ⟨symbol, source⟩ := by simp [origin?, isMagic, is, found]
          rw [List.filterMap_cons_some origin]
          exact .drawn is (wired.soleSource found) rest

theorem causal : g.Causal where
  resolves := by
    intro id node found operation
    rw [wired.producers_eq found operation]
    exact wired.resolves_origins id fun symbol target => wired.known (stem?_of_node? found) target
  older := by
    intro id node found edge member
    rw [← producers_of_node? found] at member
    exact wired.older member
  connected := by
    intro symbol older newer exclusive below first second
    exact wired.joined.feeds_of_exclusive below first second (by simp [isMagic, exclusive])

end Wired

end Graph

/-! ## Further calls -/

namespace Builder

/-- A call of a builder. -/
inductive Call where
  | declare (symbols : List Symbol)
  | add (op : Operation) (targets : List Symbol) (magic : Bool) (cycles : Nat)

/-- The builder after a call. One that fails leaves it as it is. -/
def perform (b : Builder) : Call → Builder
  | .declare symbols => b.declareAll symbols
  | .add op targets magic cycles => (b.addLasting op targets magic cycles).toOption.elim b Prod.snd

/-- The builder after several calls. -/
def performAll (b : Builder) (calls : List Call) : Builder := calls.foldl perform b

/-- What was known in one builder is known in another, as of the same kind. -/
def KeepsKinds (b c : Builder) : Prop :=
  ∀ symbol kind, b.graph.kind? symbol = some kind → c.graph.kind? symbol = some kind

/-- A builder in which everything of an earlier one is still there. -/
structure Keeps (b c : Builder) : Prop where
  kinds : b.KeepsKinds c
  nodes : ∀ id node, b.graph.stem? id = some node → c.graph.stem? id = some node

theorem Keeps.refl (b : Builder) : b.Keeps b := ⟨fun _ _ known => known, fun _ _ found => found⟩

theorem Keeps.trans {b c d : Builder} (first : b.Keeps c) (second : c.Keeps d) : b.Keeps d where
  kinds symbol kind known := second.kinds symbol kind (first.kinds symbol kind known)
  nodes id node found := second.nodes id node (first.nodes id node found)

theorem keeps_attach (b : Builder) (op : Operation) (targets : List Symbol) (producers : List Edge) (cycles : Nat) :
    b.Keeps (b.attach op targets producers cycles).2 where
  kinds := by
    intro symbol kind known
    rw [kind?_attach, known]
    rfl
  nodes := by
    intro id node found
    obtain ⟨_, inside, _⟩ := Option.map_eq_some_iff.mp found
    rw [stem?_attach, if_neg (Nat.ne_of_lt (Graph.lt_nextId inside)), found]

theorem keeps_withSource {b : Builder} {symbol : Symbol} (wired : b.graph.Wired) (unknown : b.graph.kind? symbol = none) :
    b.Keeps { b with graph := b.graph.withSource symbol } where
  kinds := by
    intro s kind known
    rw [(Graph.extends_withSource wired unknown).kinds (by simp [known])]
    exact known
  nodes := fun _ _ found => (Graph.extends_withSource wired unknown).stem?_of_old found

theorem keeps_declareAll {b : Builder} (sound : b.Sound) (symbols : List Symbol) : b.Keeps (b.declareAll symbols) := by
  induction symbols generalizing b with
  | nil => exact .refl b
  | cons symbol symbols ih =>
      refine Keeps.trans ?_ (ih (sound_declare sound symbol))
      obtain same | ⟨base, _, alike, h⟩ := declare_cases sound symbol
      · rw [same]
        exact .refl b
      · have noted : b.Keeps base := by
          refine ⟨fun s kind known => ?_, fun id node found => ?_⟩
          · rwa [alike.kind?]
          · rwa [alike.stem?]
        rw [h]
        exact noted.trans (keeps_attach base _ _ _ _)

theorem keeps_addLasting {b c : Builder} {op : Operation} {targets : List Symbol} {magic : Bool} {cycles : Nat}
    {id : NodeId} (sound : b.Sound) (h : b.addLasting op targets magic cycles = .ok (id, c)) : b.Keeps c := by
  obtain ⟨base, acting, _, _, origin, _, rfl⟩ := addLasting_eq_ok sound h
  refine Keeps.trans ?_ (keeps_attach base _ _ _ _)
  rcases origin with rfl | ⟨state, _, unknown, rfl⟩
  · exact .refl base
  · exact keeps_withSource sound.wired unknown

theorem keeps_perform {b : Builder} (reachable : b.Reachable) (call : Call) :
    b.Keeps (b.perform call) ∧ (b.perform call).Reachable := by
  cases call with
  | declare symbols => exact ⟨keeps_declareAll reachable.sound symbols, reachable.declareAll symbols⟩
  | add op targets magic cycles =>
      cases h : b.addLasting op targets magic cycles with
      | error e =>
          have same : b.perform (.add op targets magic cycles) = b := by simp [perform, h, Except.toOption]
          rw [same]
          exact ⟨.refl b, reachable⟩
      | ok added =>
          obtain ⟨id, c⟩ := added
          have next : b.perform (.add op targets magic cycles) = c := by simp [perform, h, Except.toOption]
          rw [next]
          exact ⟨keeps_addLasting reachable.sound h, reachable.addLasting h⟩

theorem keeps_performAll {b : Builder} (reachable : b.Reachable) (calls : List Call) :
    b.Keeps (b.performAll calls) ∧ (b.performAll calls).Reachable := by
  induction calls generalizing b with
  | nil => exact ⟨.refl b, reachable⟩
  | cons call calls ih =>
      obtain ⟨first, next⟩ := keeps_perform reachable call
      obtain ⟨others, last⟩ := ih next
      exact ⟨first.trans others, last⟩

theorem keepsKinds_performAll {b : Builder} (reachable : b.Reachable) (calls : List Call) :
    b.KeepsKinds (b.performAll calls) := (keeps_performAll reachable calls).1.kinds

end Builder

/-- In every graph that a builder made, an operation depends on the last writer of each exclusive target and on the
    one source of each magic state. No later call changes the kind of a resource. -/
theorem causal_of_reachable {b : Builder} (reachable : b.Reachable) :
    b.graph.Causal ∧ ∀ (calls : List Builder.Call) (symbol : Symbol) (kind : ResourceKind),
      b.graph.kind? symbol = some kind → (b.performAll calls).graph.kind? symbol = some kind :=
  ⟨reachable.sound.wired.causal, Builder.keepsKinds_performAll reachable⟩

/-- A fresh resource next to a known one, and two draws of one state. Afterwards a call fails, and the state is
    declared as an input in vain. -/
theorem causal_of_reachable_mixed :
    ∃ b : Builder, b.Reachable ∧ b.graph.targetsOf 3 = ["c", "a"] ∧ b.graph.producers 3 = [⟨"a", 2⟩] ∧
      b.graph.producers 5 = [⟨"c", 4⟩, ⟨"T", 1⟩] ∧ b.graph.Causal ∧ b.graph.kind? "T" = some .magicState ∧
      (b.performAll [.add .cnot ["a", "ghost"] false 3, .declare ["T"]]).graph.kind? "T" = some .magicState := by
  have runs : (((Builder.new "mixed").declareAll ["a"]).addGates
      [(.t, ["a"]), (.init, ["c", "a"]), (.cnot, ["c", "a"]), (.t, ["c"])]).toOption.any fun b =>
        b.graph.targetsOf 3 == ["c", "a"] && b.graph.producers 3 == [⟨"a", 2⟩]
          && b.graph.producers 5 == [⟨"c", 4⟩, ⟨"T", 1⟩] && b.graph.kind? "T" == some .magicState := by decide +kernel
  obtain ⟨b, built, runs⟩ := exists_ok_of_any runs
  simp only [Bool.and_eq_true, beq_iff_eq] at runs
  obtain ⟨⟨⟨targets, fresh⟩, draws⟩, magic⟩ := runs
  have reachable := (Builder.Reachable.declareAll ["a"] (.new "mixed")).addGates built
  obtain ⟨causal, kinds⟩ := causal_of_reachable reachable
  exact ⟨b, reachable, targets, fresh, draws, causal, magic, kinds _ "T" .magicState magic⟩

end LatticeSurgery
