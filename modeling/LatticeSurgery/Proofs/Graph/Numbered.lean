import LatticeSurgery.Proofs.Graph.Stem

/-! # Numbered graphs

The nodes of a numbered graph carry their positions. The live ones are then found under their own numbers, and they are
listed in the order of these.
-/

namespace LatticeSurgery

namespace Graph

def Numbered (g : Graph) : Prop := ∀ id node, g.node? id = some node → node.id = id

namespace Numbered

theorem of_alike {g h : Graph} (numbered : h.Numbered) (alike : g.Alike h) : g.Numbered := by
  intro id node found
  have stem := stem?_of_node? found
  rw [alike.stem?] at stem
  obtain ⟨other, inside, same⟩ := Option.map_eq_some_iff.mp stem
  calc
    node.id = node.stem.id := rfl
    _ = other.stem.id := by rw [same]
    _ = id := numbered id other inside

theorem modify {g : Graph} {f : Node → Node} (numbered : g.Numbered)
    (keeps : ∀ node, (f node).id = node.id) (id : NodeId) : (g.modify id f).Numbered := by
  intro n node found
  rw [node?_modify] at found
  split at found
  · obtain ⟨other, inside, rfl⟩ := Option.map_eq_some_iff.mp found
    rw [keeps]
    exact numbered n other inside
  · exact numbered n node found

theorem push {g : Graph} {node : Node} (numbered : g.Numbered) (next : node.id = g.nextId) :
    (g.push node).Numbered := by
  intro n other found
  rw [node?_push] at found
  split at found
  next here => cases found; rw [next, here]
  · exact numbered n other found

end Numbered

theorem isRetired_of_node? {g : Graph} {id : NodeId} {node : Node} (found : g.node? id = some node) :
    g.isRetired id = node.retired := by
  simp [isRetired, found]

section

variable {g : Graph} (numbered : g.Numbered) {id : NodeId} {node : Node}
include numbered

theorem mem_nodes : node ∈ g.nodes.toList ↔ g.node? node.id = some node := by
  rw [Array.mem_toList_iff, Array.mem_iff_getElem?]
  constructor
  · rintro ⟨id, found⟩
    exact (numbered id node found).symm ▸ found
  · exact fun found => ⟨node.id, found⟩

theorem mem_live_of_numbered : node ∈ g.live ↔ g.node? node.id = some node ∧ node.retired = false := by
  rw [live, List.mem_filter, mem_nodes numbered, Bool.not_eq_true']

theorem mem_live_of_node? (found : g.node? id = some node) (alive : g.isRetired id = false) : node ∈ g.live := by
  rw [isRetired_of_node? found] at alive
  exact (mem_live_of_numbered numbered).mpr ⟨(numbered id node found).symm ▸ found, alive⟩

theorem mem_liveIds : id ∈ g.liveIds ↔ id < g.nextId ∧ g.isRetired id = false := by
  simp only [liveIds, List.mem_map, mem_live_of_numbered numbered, lt_nextId_iff]
  constructor
  · rintro ⟨node, ⟨found, alive⟩, rfl⟩
    exact ⟨⟨node, found⟩, isRetired_of_node? found ▸ alive⟩
  · rintro ⟨⟨node, found⟩, alive⟩
    obtain rfl := numbered id node found
    exact ⟨node, ⟨found, isRetired_of_node? found ▸ alive⟩, rfl⟩

theorem pairwise_live : g.live.Pairwise fun a b => a.id < b.id := by
  refine List.Pairwise.filter _ (List.pairwise_iff_getElem.mpr fun i j _ _ below => ?_)
  have here : ∀ (k : Nat) (inside : k < g.nodes.toList.length), (g.nodes.toList[k]).id = k := by
    intro k inside
    apply numbered k
    simp only [node?, Array.getElem_toList]
    exact Array.getElem?_eq_getElem _
  rw [here, here]
  exact below

theorem pairwise_liveIds : g.liveIds.Pairwise (· < ·) := List.pairwise_map.mpr (pairwise_live numbered)

theorem nodup_liveIds : g.liveIds.Nodup := (pairwise_liveIds numbered).imp Nat.ne_of_lt

end

end Graph

end LatticeSurgery
