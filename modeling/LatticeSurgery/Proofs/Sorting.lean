import Mathlib.Data.List.Sort
import LatticeSurgery.Graph.Basic

/-! # Sorting

Sorting by a Boolean order is insertion sort, so its theory is that of `List.insertionSort`. The order in which nodes
take their turns is the instance that planning and routing share.
-/

namespace LatticeSurgery

variable {α β : Type}

theorem insertBy_eq_orderedInsert (le : α → α → Bool) (x : α) (xs : List α) :
    insertBy le x xs = xs.orderedInsert (fun a b => le a b) x := by
  induction xs with
  | nil => rfl
  | cons y ys ih => rw [insertBy, List.orderedInsert_cons, ih]

theorem sortBy_eq_insertionSort (le : α → α → Bool) (xs : List α) :
    sortBy le xs = xs.insertionSort fun a b => le a b := by
  induction xs with
  | nil => rfl
  | cons x xs ih => rw [sortBy, List.insertionSort_cons, ih, insertBy_eq_orderedInsert]

theorem sortBy_perm (le : α → α → Bool) (xs : List α) : (sortBy le xs).Perm xs := by
  rw [sortBy_eq_insertionSort]
  exact List.perm_insertionSort _ xs

@[simp, grind =] theorem mem_sortBy {le : α → α → Bool} {x : α} {xs : List α} : x ∈ sortBy le xs ↔ x ∈ xs := by
  rw [sortBy_eq_insertionSort, List.mem_insertionSort]

theorem sortBy_map (le : β → β → Bool) (f : α → β) (xs : List α) :
    sortBy le (xs.map f) = (sortBy (fun a b => le (f a) (f b)) xs).map f := by
  rw [sortBy_eq_insertionSort, sortBy_eq_insertionSort]
  exact (List.map_insertionSort _ _ f xs fun _ _ _ _ => Iff.rfl).symm

section Ordered

variable {le : α → α → Bool} (trans : ∀ a b c, le a b → le b c → le a c) (total : ∀ a b, le a b || le b a)
include trans total

/-- The result is in order, provided the order is transitive and total. -/
theorem pairwise_sortBy (xs : List α) : (sortBy le xs).Pairwise fun a b => le a b := by
  have : IsTrans α fun a b => le a b := ⟨trans⟩
  have : Std.Total fun a b => le a b = true := ⟨fun a b => Bool.or_eq_true .. ▸ total a b⟩
  rw [sortBy_eq_insertionSort]
  exact List.pairwise_insertionSort _ xs

/-- Nothing else that is in order has the same elements, provided the order is also antisymmetric. -/
theorem sortBy_eq_of_perm (antisymm : ∀ a b, le a b → le b a → a = b) {xs ys : List α} (perm : ys.Perm xs)
    (sorted : ys.Pairwise fun a b => le a b) : sortBy le xs = ys :=
  ((sortBy_perm le xs).trans perm.symm).eq_of_pairwise (fun a b _ _ => antisymm a b)
    (pairwise_sortBy trans total xs) sorted

variable {r : α → α → Prop}

theorem stable_insertBy {x : α} {xs : List α} (sorted : xs.Pairwise fun a b => le a b ∧ (le b a → r a b))
    (first : ∀ y ∈ xs, r x y) : (insertBy le x xs).Pairwise fun a b => le a b ∧ (le b a → r a b) := by
  induction xs with
  | nil => exact List.pairwise_singleton _ x
  | cons y ys ih =>
      have ⟨head, tail⟩ := List.pairwise_cons.mp sorted
      rw [insertBy]
      split
      next before =>
          apply List.Pairwise.cons _ sorted
          intro z member
          refine ⟨?_, fun _ => first z member⟩
          rcases List.mem_cons.mp member with rfl | later
          · exact before
          · exact trans x y z before (head z later).1
      next after =>
          apply List.Pairwise.cons _ (ih tail fun z later => first z (List.mem_cons_of_mem y later))
          intro z member
          rw [insertBy_eq_orderedInsert, List.mem_orderedInsert] at member
          rcases member with rfl | later
          · have either := total y z
            simp_all
          · exact head z later

/-- Elements that are equal in the order stay in the order in which they came. -/
theorem stable_sortBy {xs : List α} (listed : xs.Pairwise r) :
    (sortBy le xs).Pairwise fun a b => le a b ∧ (le b a → r a b) := by
  induction listed with
  | nil => exact .nil
  | cons first _ ih =>
      apply stable_insertBy trans total ih
      intro y member
      exact first y (mem_sortBy.mp member)

end Ordered

namespace Graph

/-! ## Turns -/

theorem pairwise_prioritise (g : Graph) (ids : List NodeId) :
    (g.prioritise ids).Pairwise (fun a b => g.takesTurn a b) :=
  pairwise_sortBy g.takesTurn_trans g.takesTurn_total ids

/-- There is one order of the turns. -/
theorem prioritise_eq_of_perm (g : Graph) {ids turns : List NodeId} (perm : turns.Perm ids)
    (sorted : turns.Pairwise (fun a b => g.takesTurn a b)) : g.prioritise ids = turns :=
  sortBy_eq_of_perm g.takesTurn_trans g.takesTurn_total g.takesTurn_antisymm perm sorted

theorem prioritise_ne_nil (g : Graph) {ids : List NodeId} (present : ids ≠ []) : g.prioritise ids ≠ [] := by
  have perm : (g.prioritise ids).Perm ids := sortBy_perm g.takesTurn ids
  exact fun none => present (List.nil_perm.mp (none ▸ perm))

end Graph

end LatticeSurgery
