import LatticeSurgery.Proofs.Routing.LockTable

/-! # A cycle of routing, action by action

A cycle counts down, gives up patches, wakes nodes, lets the waiting ones take their turns and is recorded. What each
of these actions keeps holds after the cycle, and a timeline is what the records tell at the end of a run.
-/

namespace LatticeSurgery

namespace Run

variable {g : Graph} {r s : Run}

theorem turnover_induction {P : Run → Prop} (counted : P r.countDown)
    (released : ∀ t id node, P t → id ∈ r.expiring → g.node? id = some node →
      P { t with floor := t.floor.release node (t.routes.getD id []) })
    (woken : ∀ t id, P t → t.Wakes g id → P (t.enqueue id)) : P (r.turnover g) := by
  rw [turnover_eq]
  refine wakeAll_induction woken ?_ _
  suffices ∀ ids : List NodeId, (∀ id ∈ ids, id ∈ r.expiring) → ∀ t, P t → P (ids.foldl (·.release g ·) t) from
    this r.expiring (fun _ member => member) r.countDown counted
  intro ids expire
  induction ids with
  | nil => exact fun t holds => holds
  | cons id ids ih =>
      intro t holds
      apply ih fun other member => expire other (List.mem_cons_of_mem _ member)
      show P (t.release g id)
      unfold release
      split
      next node known => exact released t id node holds (expire id List.mem_cons_self) known
      · exact holds

theorem admitAll_induction {P : Run → Prop} {queue : List NodeId}
    (skipped : ∀ t pending, P t → P { t with floor := { t.floor with book := { t.floor.book with pending } } })
    (settled : ∀ t id node patches asked floor, P t → t.stages[id]? = some .waiting →
      t.Admits g id node patches asked floor → P (t.settle id node patches (asked.startOf node t.cycle) floor))
    (distinct : queue.Nodup) (waits : ∀ id ∈ queue, r.stages[id]? = some .waiting) (holds : P r)
    (h : r.admitAll g queue = .ok s) : P s := by
  induction queue generalizing r with
  | nil => cases h; exact holds
  | cons id queue ih =>
      obtain ⟨next, first, h⟩ := bind_eq_ok.mp h
      obtain ⟨fresh, distinct⟩ := List.nodup_cons.mp distinct
      have later := fun other member => waits other (List.mem_cons_of_mem _ member)
      rcases tryAdmit_cases first with ⟨pending, rfl⟩ | ⟨node, patches, asked, floor, admits, rfl⟩
      · refine ih distinct ?_ (skipped r pending holds) h
        exact later
      · refine ih distinct ?_ (settled r id node patches asked floor holds (waits id List.mem_cons_self) admits) h
        intro other member
        have differs : other ≠ id := fun here => fresh (here ▸ member)
        rw [getElem?_stages_settle, if_neg differs]
        exact later other member

/-- The waiting nodes take their turns, each once. -/
theorem admission_induction {P : Run → Prop} (queued : r.Queued)
    (opened : P { r with waiting := g.prioritise r.waiting, admitted := [] })
    (skipped : ∀ t pending, P t → P { t with floor := { t.floor with book := { t.floor.book with pending } } })
    (settled : ∀ t id node patches asked floor, P t → t.stages[id]? = some .waiting →
      t.Admits g id node patches asked floor → P (t.settle id node patches (asked.startOf node t.cycle) floor))
    (h : r.admission g = .ok s) : P s := by
  have order := sortBy_perm g.takesTurn r.waiting
  refine admitAll_induction skipped settled (order.nodup_iff.mpr queued.distinct) ?_ opened h
  exact fun id member => queued.waiting id (order.mem_iff.mp member)

theorem step_eq_again {limit : Nat} (h : r.step g limit = .again s) :
    ∃ t, (r.turnover g).admission g = .ok t ∧ t.close limit r.expiring = .again s := by
  unfold step at h
  split at h
  · cases h
  · split at h
    · cases h
    next t admitted => exact ⟨t, admitted, h⟩

/-- A cycle is made of a few actions. What each of them keeps, or turns into the next thing to be kept,
    holds after the cycle. -/
theorem step_induction {P Q R : Run → Prop} {limit : Nat} (h : r.step g limit = .again s)
    (counted : Q r.countDown)
    (released : ∀ t id node, Q t → id ∈ r.expiring → g.node? id = some node →
      Q { t with floor := t.floor.release node (t.routes.getD id []) })
    (woken : ∀ t id, Q t → t.Wakes g id → Q (t.enqueue id))
    (queued : ∀ t, Q t → t.Queued)
    (opened : ∀ t, Q t → R { t with waiting := g.prioritise t.waiting, admitted := [] })
    (skipped : ∀ t pending, R t → R { t with floor := { t.floor with book := { t.floor.book with pending } } })
    (settled : ∀ t id node patches asked floor, R t → t.stages[id]? = some .waiting →
      t.Admits g id node patches asked floor → R (t.settle id node patches (asked.startOf node t.cycle) floor))
    (closed : ∀ t u, R t → t.close limit r.expiring = .again u → P u) : P s := by
  have turned : Q (r.turnover g) := turnover_induction counted released woken
  obtain ⟨t, admitted, last⟩ := step_eq_again h
  exact closed t s (admission_induction (queued _ turned) (opened _ turned) skipped settled admitted) last

/-! ## The end of a run -/

theorem close_ne_ok {limit : Nat} {resolved : List NodeId} {result : Timeline × Floorplan} :
    r.close limit resolved ≠ .done (.ok result) := by
  unfold close
  dsimp only
  generalize (if (r.admitted.isEmpty && resolved.isEmpty && r.active.isEmpty) = true then r.idle + 1 else 0) = idle
  split <;> simp

/-- A timeline is what the records tell when every live node is finished and nothing waits or runs. -/
theorem step_eq_ok {limit : Nat} {t : Timeline} {left : Floorplan} (h : r.step g limit = .done (.ok (t, left))) :
    r.active = [] ∧ (∀ id ∈ g.liveIds, r.stages[id]? = some .resolved) ∧
      t = { cycles := r.records.toList.filter (!·.isIdle), routes := r.routes } ∧ left = r.floor := by
  unfold step at h
  split at h
  next ended =>
      have idle := (Bool.and_eq_true_iff.mp ended).2
      have outcome := Next.done.inj h
      unfold finish at outcome
      dsimp only at outcome
      split at outcome
      next none =>
          cases outcome
          refine ⟨List.isEmpty_iff.mp idle, fun id alive => ?_, rfl, rfl⟩
          have finished := List.filter_eq_nil_iff.mp (List.isEmpty_iff.mp none) id alive
          simpa [isResolved] using finished
      · cases outcome
  · split at h
    · cases h
    · exact absurd h close_ne_ok

end Run

/-- An answer is given by the last step of a run, unless the bound on its cycles is too small. -/
theorem Floorplan.reaches_last {f : Floorplan} {g : Graph} {limit : Nat} {outcome : Run.Outcome}
    (h : f.route g limit = outcome) (within : outcome ≠ .error ⟨.unfinished, f⟩) :
    ∃ r, Reaches (Run.step g limit) (Run.start g f) r ∧ r.step g limit = .done outcome := by
  unfold route at h
  cases ran : iterate (Run.step g limit) (g.routeBound limit) (Run.start g f) with
  | none =>
      rw [ran] at h
      exact absurd h.symm within
  | some result =>
      rw [ran, Option.getD_some] at h
      exact h ▸ reaches_of_iterate ran

theorem Floorplan.reaches_of_route {f left : Floorplan} {g : Graph} {limit : Nat} {t : Timeline}
    (h : f.route g limit = .ok (t, left)) :
    ∃ r, Reaches (Run.step g limit) (Run.start g f) r ∧ (∀ id ∈ g.liveIds, r.stages[id]? = some .resolved) ∧
      t = { cycles := r.records.toList.filter (!·.isIdle), routes := r.routes } := by
  obtain ⟨r, reached, last⟩ := reaches_last h (by simp)
  obtain ⟨_, finished, same, _⟩ := Run.step_eq_ok last
  exact ⟨r, reached, finished, same⟩

end LatticeSurgery
