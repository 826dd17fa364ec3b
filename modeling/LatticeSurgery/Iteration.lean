/-! # Bounded iteration

A simulation is a step that either goes on with a new state or ends with a result. Running it needs a
bound on the number of steps, and `isSome_iterate` is how a falling measure shows that a bound is
large enough. What holds of every result is read off the states that the steps reach.
-/

namespace LatticeSurgery

/-- Outcome of one step of a simulation. -/
inductive Next (σ ρ : Type) where
  | again (state : σ)
  | done (result : ρ)
  deriving Repr, DecidableEq

variable {σ ρ : Type}

/-- Repeats a step until it gives a result, at most `bound` times. -/
def iterate (step : σ → Next σ ρ) : Nat → σ → Option ρ
  | 0, _ => none
  | bound + 1, s =>
      match step s with
      | .again t => iterate step bound t
      | .done r => some r

/-- The states that follow from `s` by steps that go on. -/
inductive Reaches (step : σ → Next σ ρ) (s : σ) : σ → Prop where
  | refl : Reaches step s s
  | tail : Reaches step s t → step t = .again u → Reaches step s u

theorem Reaches.head {step : σ → Next σ ρ} {s t u : σ} (first : step s = .again t)
    (rest : Reaches step t u) : Reaches step s u := by
  induction rest with
  | refl => exact .tail .refl first
  | tail _ next ih => exact .tail ih next

/-- What a step keeps holds of every state that is reached. -/
theorem Reaches.invariant {step : σ → Next σ ρ} {P : σ → Prop}
    (keeps : ∀ s t, P s → step s = .again t → P t) {s t : σ} (reach : Reaches step s t)
    (start : P s) : P t := by
  induction reach with
  | refl => exact start
  | tail _ next ih => exact keeps _ _ ih next

/-- The state after a number of steps, if all of them go on. -/
def advance (step : σ → Next σ ρ) : Nat → σ → Option σ
  | 0, s => some s
  | n + 1, s =>
      match step s with
      | .again t => advance step n t
      | .done _ => none

theorem reaches_of_advance {step : σ → Next σ ρ} {n : Nat} {s t : σ} (h : advance step n s = some t) :
    Reaches step s t := by
  induction n generalizing s with
  | zero => cases h; exact .refl
  | succ n ih =>
      rw [advance] at h
      split at h
      next first => exact (ih h).head first
      · cases h

/-- Steps that go on where others do advance as they do. -/
theorem advance_of_again {step step' : σ → Next σ ρ} (goes : ∀ s t, step s = .again t → step' s = .again t)
    {n : Nat} {s t : σ} (h : advance step n s = some t) : advance step' n s = some t := by
  induction n generalizing s with
  | zero => exact h
  | succ n ih =>
      rw [advance] at h
      split at h
      next first =>
          rw [advance, goes _ _ first]
          exact ih h
      · cases h

theorem iterate_of_advance {step : σ → Next σ ρ} {n : Nat} {s t : σ} (h : advance step n s = some t) (bound : Nat) :
    iterate step (n + bound) s = iterate step bound t := by
  induction n generalizing s with
  | zero =>
      cases h
      rw [Nat.zero_add]
  | succ n ih =>
      rw [advance] at h
      split at h
      next first =>
          rw [Nat.add_right_comm, iterate, first]
          exact ih h
      · cases h

/-- A result is given by the last of a number of steps. -/
theorem advance_of_iterate {step : σ → Next σ ρ} {bound : Nat} {s : σ} {r : ρ}
    (h : iterate step bound s = some r) : ∃ n t, n < bound ∧ advance step n s = some t ∧ step t = .done r := by
  induction bound generalizing s with
  | zero => simp [iterate] at h
  | succ bound ih =>
      rw [iterate] at h
      split at h
      next t first =>
          obtain ⟨n, u, within, onward, last⟩ := ih h
          refine ⟨n + 1, u, Nat.succ_lt_succ within, ?_, last⟩
          rw [advance, first]
          exact onward
      next last =>
          obtain rfl := Option.some.inj h
          exact ⟨0, s, Nat.succ_pos bound, rfl, last⟩

/-- A result is given by a step from a state that is reached. -/
theorem reaches_of_iterate {step : σ → Next σ ρ} {bound : Nat} {s : σ} {r : ρ}
    (h : iterate step bound s = some r) : ∃ t, Reaches step s t ∧ step t = .done r := by
  obtain ⟨n, t, _, onward, last⟩ := advance_of_iterate h
  exact ⟨t, reaches_of_advance onward, last⟩

/-- A result does not change with a larger bound. -/
theorem iterate_of_le {step : σ → Next σ ρ} {bound more : Nat} {s : σ} {r : ρ} (h : iterate step bound s = some r)
    (le : bound ≤ more) : iterate step more s = some r := by
  obtain ⟨n, t, within, onward, last⟩ := advance_of_iterate h
  obtain ⟨rest, rfl⟩ : ∃ rest, more = n + (rest + 1) := ⟨more - n - 1, by omega⟩
  rw [iterate_of_advance onward, iterate, last]

/-- Two outcomes that go on to states related by `R`, or end with results related by `Q`. -/
inductive Next.Agree {τ ρ' : Type} (R : σ → τ → Prop) (Q : ρ → ρ' → Prop) : Next σ ρ → Next τ ρ' → Prop where
  | again : R s t → Agree R Q (.again s) (.again t)
  | done : Q r r' → Agree R Q (.done r) (.done r')

/-- Two simulations whose steps agree run side by side and end together. -/
theorem iterate_agree {τ ρ' : Type} {step : σ → Next σ ρ} {step' : τ → Next τ ρ'} {R : σ → τ → Prop}
    {Q : ρ → ρ' → Prop} (agree : ∀ s t, R s t → Next.Agree R Q (step s) (step' t)) (bound : Nat) {s : σ} {t : τ}
    (start : R s t) : Option.Rel Q (iterate step bound s) (iterate step' bound t) := by
  induction bound generalizing s t with
  | zero => exact .none
  | succ bound ih =>
      have first := agree s t start
      rw [iterate, iterate]
      generalize step s = one at first
      generalize step' t = two at first
      cases first with
      | again both => exact ih both
      | done both => exact .some both

/-- A bound above a measure that every step lowers is large enough. -/
theorem isSome_iterate {step : σ → Next σ ρ} {P : σ → Prop} (μ : σ → Nat)
    (lowers : ∀ s t, P s → step s = .again t → P t ∧ μ t < μ s)
    {bound : Nat} {s : σ} (start : P s) (enough : μ s < bound) :
    (iterate step bound s).isSome := by
  induction bound generalizing s with
  | zero => omega
  | succ bound ih =>
      rw [iterate]
      split
      next t next =>
          obtain ⟨keeps, lower⟩ := lowers s t start next
          exact ih keeps (by omega)
      next => rfl

end LatticeSurgery
