/-! # Urgency

How soon the output of a node is wanted. A node whose nearest consumer is `gap` layers away has the
weight `1 / gap`, and one without consumers has weight zero, so comparing weights is comparing gaps.
-/

namespace LatticeSurgery

/-- How soon a node is wanted. -/
inductive Urgency where
  /-- Nothing waits for the node. -/
  | idle
  /-- The nearest consumer is `gap` layers away. -/
  | within (gap : Nat)
  deriving Repr, DecidableEq

namespace Urgency

/-- Takes note of a consumer. -/
def raise : Urgency → Nat → Urgency
  | idle, gap => within gap
  | within nearest, gap => within (min nearest gap)

/-- Strictly more urgent. -/
def above : Urgency → Urgency → Bool
  | within a, within b => a < b
  | within _, idle => true
  | idle, _ => false

/-- The weight as a double. -/
def weight : Urgency → Float
  | idle => 0.0
  | within gap => 1.0 / gap.toFloat

@[simp] theorem not_above_self (u : Urgency) : u.above u = false := by
  cases u <;> simp [above]

theorem above_trans {u v w : Urgency} (h₁ : u.above v) (h₂ : v.above w) : u.above w := by
  cases u <;> cases v <;> cases w <;> grind [above]

/-- Any two urgencies are comparable. -/
theorem above_or_eq (u v : Urgency) : u.above v ∨ u = v ∨ v.above u := by
  cases u <;> cases v <;> grind [above]

end Urgency

end LatticeSurgery
