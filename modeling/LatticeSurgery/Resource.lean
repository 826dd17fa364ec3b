import Std.Data.ExtTreeMap

/-! # Resources and node identifiers

The names that operations share, and the maps keyed by them. Maps are extensional: two maps with the
same entries are equal, and their entries are listed in ascending key order.
-/

namespace LatticeSurgery

/-- Name of a resource. Names are ordered by their code points. -/
abbrev Symbol := String

/-- Position of a node in its graph, which is also its construction order. -/
abbrev NodeId := Nat

/-- A map keyed by resource names. -/
abbrev SymbolMap (α : Type) := Std.ExtTreeMap Symbol α

/-- A map keyed by nodes. -/
abbrev NodeMap (α : Type) := Std.ExtTreeMap NodeId α

/-- Entries made one after the other show at their own keys only. -/
theorem getElem?_foldl_insert [Ord κ] [Std.TransOrd κ] [Std.LawfulEqOrd κ] [DecidableEq κ]
    (keys : List κ) (value : κ → α) (table : Std.ExtTreeMap κ α) (k : κ) :
    (keys.foldl (fun acc key => acc.insert key (value key)) table)[k]?
      = if k ∈ keys then some (value k) else table[k]? := by
  induction keys generalizing table with
  | nil => simp
  | cons key keys ih =>
      rw [List.foldl_cons, ih, Std.ExtTreeMap.getElem?_insert]
      simp only [Std.compare_eq_iff_eq]
      grind

/-- The values of a map are those that it has at some name. -/
theorem mem_values {table : SymbolMap α} {value : α} :
    value ∈ table.values ↔ ∃ symbol : Symbol, table[symbol]? = some value := by
  have values : table.values = table.toList.map (·.2) := by
    obtain ⟨⟨q⟩⟩ := table
    induction q using Quotient.ind with
    | _ t =>
        change t.inner.values = (Std.DTreeMap.Internal.Impl.Const.toList t.inner).map (·.2)
        rw [Std.DTreeMap.Internal.Impl.values_eq_map_snd, Std.DTreeMap.Internal.Impl.Const.toList_eq_toListModel_map,
          List.map_map]
        rfl
  simp [values, Std.ExtTreeMap.mem_toList_iff_getElem?_eq_some]

/-- A key is tallied as often as it occurs. -/
theorem getElem?_tally {κ : Type} [BEq κ] [LawfulBEq κ] {cmp : κ → κ → Ordering} [Std.TransCmp cmp]
    [Std.LawfulEqCmp cmp] (keys : List κ) (counts : Std.ExtTreeMap κ Nat cmp) (k : κ) :
    (keys.foldl (fun counts key => counts.insert key (counts.getD key 0 + 1)) counts)[k]?
      = if k ∈ keys then some (counts.getD k 0 + keys.count k) else counts[k]? := by
  induction keys generalizing counts with
  | nil => simp
  | cons key keys ih =>
      rw [List.foldl_cons, ih, Std.ExtTreeMap.getElem?_insert, Std.ExtTreeMap.getD_insert]
      simp only [Std.LawfulEqCmp.compare_eq_iff_eq, List.mem_cons, List.count_cons, beq_iff_eq]
      by_cases here : key = k
      · subst here
        by_cases again : key ∈ keys
        · simp [again, Nat.add_assoc, Nat.add_comm 1]
        · simp [again, List.count_eq_zero_of_not_mem again]
      · simp [here, Ne.symm here]

namespace NodeMap

variable {α : Type} {a b : NodeMap α} {id : NodeId}

theorem getD_congr (same : a[id]? = b[id]?) (fallback : α) : a.getD id fallback = b.getD id fallback := by
  rw [Std.ExtTreeMap.getD_eq_getD_getElem?, same, ← Std.ExtTreeMap.getD_eq_getD_getElem?]

theorem getD_of_none (none : a[id]? = none) (fallback : α) : a.getD id fallback = fallback := by
  rw [Std.ExtTreeMap.getD_eq_getD_getElem?, none, Option.getD_none]

/-- A map is made again of its entries. -/
theorem insertMany_toList (entries : NodeMap α) : (∅ : NodeMap α).insertMany entries.toList = entries := by
  apply Std.ExtTreeMap.ext_getElem?
  intro id
  cases found : entries[id]? with
  | some a =>
      exact Std.ExtTreeMap.getElem?_insertMany_list_of_mem Std.ReflCmp.compare_self
        Std.ExtTreeMap.distinct_keys_toList (Std.ExtTreeMap.mem_toList_iff_getElem?_eq_some.mpr found)
  | none =>
      rw [Std.ExtTreeMap.getElem?_insertMany_list_of_contains_eq_false]
      · simp
      · rw [Std.ExtTreeMap.map_fst_toList_eq_keys]
        simpa using found

end NodeMap

/-- How a resource is shared between operations. -/
inductive ResourceKind where
  /-- One writer at a time. -/
  | exclusive
  /-- A fungible magic state: any unit serves any consumer. -/
  | magicState
  deriving Repr, DecidableEq

/-- Written form of a node identifier. -/
def NodeId.text (id : NodeId) : String := "#" ++ toString id

end LatticeSurgery
