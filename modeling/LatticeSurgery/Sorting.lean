/-! # Sorting and merging lists

A stable sort by a Boolean order, and appending without repetition. The sort recurses on the list, so that what uses it
can be evaluated in proofs, where `List.mergeSort` is stuck.
-/

namespace LatticeSurgery

/-- Puts an element in front of the first one that does not come strictly before it. -/
def insertBy (le : α → α → Bool) (x : α) : List α → List α
  | [] => [x]
  | y :: ys => if le x y then x :: y :: ys else y :: insertBy le x ys

/-- Sorts a list. Elements that are equal in the order keep their places relative to each other. -/
def sortBy (le : α → α → Bool) : List α → List α
  | [] => []
  | x :: xs => insertBy le x (sortBy le xs)

/-- Appends the elements that are not in the list yet, each of them once. -/
def appendNew [DecidableEq α] (xs : List α) : List α → List α
  | [] => xs
  | y :: ys => appendNew (if y ∈ xs then xs else xs ++ [y]) ys

@[simp, grind =] theorem mem_appendNew [DecidableEq α] {x : α} {xs ys : List α} :
    x ∈ appendNew xs ys ↔ x ∈ xs ∨ x ∈ ys := by
  induction ys generalizing xs with
  | nil => simp [appendNew]
  | cons y ys ih =>
      simp only [appendNew, ih]
      split <;> grind

theorem nodup_appendNew [DecidableEq α] {xs ys : List α} (h : xs.Nodup) :
    (appendNew xs ys).Nodup := by
  induction ys generalizing xs with
  | nil => exact h
  | cons y ys ih =>
      simp only [appendNew]
      split
      · exact ih h
      next fresh => exact ih (by simp [List.nodup_append, h]; grind)

theorem prefix_appendNew [DecidableEq α] (xs ys : List α) : xs <+: appendNew xs ys := by
  induction ys generalizing xs with
  | nil => exact List.prefix_refl xs
  | cons y ys ih =>
      simp only [appendNew]
      split
      · exact ih xs
      · exact (List.prefix_append xs [y]).trans (ih _)

/-- A search does not notice what was left out. -/
theorem find?_appendNew [DecidableEq α] (p : α → Bool) (xs ys : List α) :
    (appendNew xs ys).find? p = (xs ++ ys).find? p := by
  induction ys generalizing xs with
  | nil => rw [appendNew, List.append_nil]
  | cons y ys ih =>
      rw [appendNew, ih]
      split
      next old =>
          rw [List.find?_append, List.find?_append, List.find?_cons]
          cases picked : p y with
          | false => rfl
          | true =>
              have found : (xs.find? p).isSome := List.find?_isSome.mpr ⟨y, old, picked⟩
              rw [Option.or_of_isSome found, Option.or_of_isSome found]
      · rw [List.append_assoc, List.singleton_append]

end LatticeSurgery
