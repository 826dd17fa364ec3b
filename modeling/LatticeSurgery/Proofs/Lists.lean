import Mathlib.Data.List.Nodup
import Mathlib.Order.Bounds.Defs

/-! # Lists

Maxima, searches and parts of lists, as the proofs about plans and runs need them.
-/

namespace LatticeSurgery

variable {α β : Type}

/-! ## The greatest element -/

theorem foldl_max_le_iff {xs : List Nat} {a b : Nat} : xs.foldl max a ≤ b ↔ a ≤ b ∧ ∀ x ∈ xs, x ≤ b := by
  rw [List.max?_le_iff List.max?_cons', List.forall_mem_cons]

theorem le_foldl_max {xs : List Nat} {x : Nat} (member : x ∈ xs) (a : Nat) : x ≤ xs.foldl max a :=
  (foldl_max_le_iff.mp (Nat.le_refl _)).2 x member

theorem isGreatest_foldl_max (first : Nat) (rest : List Nat) :
    IsGreatest (insert first {n | n ∈ rest}) (rest.foldl max first) := by
  obtain ⟨member, upper⟩ := List.max?_eq_some_iff.mp (List.max?_cons' : (first :: rest).max? = _)
  exact ⟨List.mem_cons.mp member, fun n inside => upper n (List.mem_cons.mpr inside)⟩

/-! ## Searches -/

/-- Behind the elements that are taken comes the next one. -/
theorem find?_take [DecidableEq α] {xs : List α} (once : xs.Nodup) (k : Nat) :
    xs.find? (fun x => !(xs.take k).contains x) = xs[k]? := by
  rcases Nat.lt_or_ge k xs.length with inside | outside
  · rw [List.getElem?_eq_getElem inside, List.find?_eq_some_iff_getElem]
    refine ⟨?_, k, inside, rfl, fun j before => ?_⟩
    · simp only [List.contains_eq_mem, Bool.not_eq_true', decide_eq_false_iff_not]
      intro again
      obtain ⟨j, before, same⟩ := List.mem_take_iff_getElem.mp again
      have twice := once.getElem_inj_iff.mp same
      omega
    · have taken : xs[j] ∈ xs.take k := List.mem_take_iff_getElem.mpr ⟨j, by omega, rfl⟩
      simp [taken]
  · rw [List.getElem?_eq_none outside, List.take_of_length_le outside, List.find?_eq_none]
    simp

/-! ## Parts -/

/-- A list can be split at the last occurrence of an element in one way only. -/
theorem append_cons_inj_of_not_mem {xs ys us vs : List α} {a : α} (first : a ∉ us) (second : a ∉ vs)
    (same : xs ++ a :: us = ys ++ a :: vs) : xs = ys ∧ us = vs := by
  rcases List.append_eq_append_iff.mp same with ⟨gap, rfl, rest⟩ | ⟨gap, rfl, rest⟩
  · cases gap with
    | nil => exact ⟨(List.append_nil _).symm, List.tail_eq_of_cons_eq rest⟩
    | cons _ gap => exact absurd (by rw [List.tail_eq_of_cons_eq rest]; simp) first
  · cases gap with
    | nil => exact ⟨List.append_nil _, (List.tail_eq_of_cons_eq rest).symm⟩
    | cons _ gap => exact absurd (by rw [List.tail_eq_of_cons_eq rest]; simp) second

theorem flatMap_filter_of_nil {p : α → Bool} {f : α → List β} (none : ∀ x, p x = false → f x = []) (xs : List α) :
    (xs.filter p).flatMap f = xs.flatMap f := by
  induction xs with
  | nil => rfl
  | cons x xs ih =>
      cases picked : p x with
      | true => rw [List.filter_cons_of_pos picked, List.flatMap_cons, List.flatMap_cons, ih]
      | false => rw [List.filter_cons_of_neg (by simp [picked]), List.flatMap_cons, none x picked, List.nil_append, ih]

/-- A list is taken apart by a key and put together again. -/
theorem perm_flatMap_filter (key : α → Nat) (n : Nat) (xs : List α) (all : ∀ x ∈ xs, key x < n) :
    ((List.range n).flatMap fun i => xs.filter (key · == i)).Perm xs := by
  induction n generalizing xs with
  | zero =>
      have none : xs = [] := List.eq_nil_iff_forall_not_mem.mpr fun x member => Nat.not_lt_zero _ (all x member)
      rw [none]
      exact .refl _
  | succ n ih =>
      have lower : (List.range n).flatMap (fun i => xs.filter (key · == i))
          = (List.range n).flatMap fun i => (xs.filter (key · != n)).filter (key · == i) := by
        refine List.flatMap_congr fun i inside => ?_
        rw [List.filter_filter]
        refine List.filter_congr fun x _ => ?_
        have below := List.mem_range.mp inside
        by_cases here : key x = i
        · simp [here, Nat.ne_of_lt below]
        · simp [here]
      have rest := ih (xs.filter (key · != n)) fun x member => by
        have bound := all x (List.mem_of_mem_filter member)
        have apart : key x ≠ n := by simpa using (List.mem_filter.mp member).2
        omega
      rw [List.range_succ, List.flatMap_append, List.flatMap_singleton, lower]
      refine (rest.append_right _).trans ?_
      have both := List.filter_append_perm (key · != n) xs
      simpa [bne] using both

/-- An element occurs as often as there are parts that hold it, if none holds it twice. -/
theorem count_flatMap_of_nodup [BEq β] [LawfulBEq β] {f : α → List β} {xs : List α}
    (once : ∀ x ∈ xs, (f x).Nodup) (y : β) : (xs.flatMap f).count y = xs.countP fun x => y ∈ f x := by
  induction xs with
  | nil => rfl
  | cons x xs ih =>
      obtain ⟨head, tail⟩ := List.forall_mem_cons.mp once
      rw [List.flatMap_cons, List.count_append, ih tail, List.countP_cons, head.count, Nat.add_comm]
      simp

/-! ## Related optional values -/

theorem eq_of_rel {x y : Option α} (both : Option.Rel Eq x y) : x = y := by
  cases both with
  | none => rfl
  | some same => rw [same]

theorem exists_of_rel {R : α → β → Prop} {x : Option α} {y : Option β} (rel : Option.Rel R x y) {a : α}
    (found : x = some a) : ∃ b, y = some b ∧ R a b := by
  cases rel with
  | none => cases found
  | some holds =>
      cases found
      exact ⟨_, rfl, holds⟩

end LatticeSurgery
