import LatticeSurgery.Proofs.Graph.Construction

/-! # Operations that are refused

Adding an operation can fail for three reasons, and the first that applies is the one reported: a target is named twice,
a target is not known, the magic state has the name of an exclusive resource. Everything known has a writer or a source,
so nothing else goes wrong. The checks come before the writes: a call that changes the builder in place leaves it as it
was if it fails.
-/

namespace LatticeSurgery

theorem Operation.produces_iff (op : Operation) : op.produces = true ↔ op = .init ∨ op = .prep := by
  cases op <;> simp [produces]

theorem Operation.produces_eq_false (op : Operation) : op.produces = false ↔ op ≠ .init ∧ op ≠ .prep := by
  rw [← Bool.not_eq_true, op.produces_iff, not_or]

/-! ## The first target that is repeated -/

theorem firstRepeated?_append [DecidableEq α] {seen earlier : List α} (distinct : earlier.Nodup)
    (apart : ∀ x ∈ earlier, x ∉ seen) (later : List α) :
    firstRepeated? seen (earlier ++ later) = firstRepeated? (seen ++ earlier) later := by
  induction earlier generalizing seen with
  | nil => simp
  | cons x earlier ih =>
      obtain ⟨fresh, distinct⟩ := List.nodup_cons.mp distinct
      have unseen : x ∉ seen := apart x (by simp)
      have apart : ∀ y ∈ earlier, y ∉ seen ++ [x] := by
        intro y member
        have different : y ≠ x := by
          rintro rfl
          exact fresh member
        simp [apart y (List.mem_cons_of_mem x member), different]
      rw [List.cons_append, firstRepeated?, if_neg unseen, ih distinct apart, List.append_assoc, List.singleton_append]

theorem firstRepeated?_eq_none [DecidableEq α] {xs : List α} (distinct : xs.Nodup) : firstRepeated? [] xs = none := by
  have apart : ∀ x ∈ xs, x ∉ ([] : List α) := by simp
  have none := firstRepeated?_append distinct apart []
  rw [List.append_nil] at none
  exact none

theorem exists_of_firstRepeated? [DecidableEq α] {seen xs : List α} {x : α} (found : firstRepeated? seen xs = some x) :
    ∃ earlier later, xs = earlier ++ x :: later ∧ earlier.Nodup ∧ (∀ y ∈ earlier, y ∉ seen) ∧ x ∈ seen ++ earlier := by
  induction xs generalizing seen with
  | nil => cases found
  | cons y xs ih =>
      rw [firstRepeated?] at found
      split at found
      next again =>
          cases found
          exact ⟨[], xs, rfl, .nil, by simp, by simpa using again⟩
      next unseen =>
          obtain ⟨earlier, later, rfl, distinct, apart, again⟩ := ih found
          refine ⟨y :: earlier, later, rfl, List.nodup_cons.mpr ⟨?_, distinct⟩, ?_, by simpa using again⟩
          · intro member
            exact apart y member (by simp)
          · intro z member
            rcases List.mem_cons.mp member with rfl | member
            · exact unseen
            · exact fun old => apart z member (List.mem_append_left _ old)

namespace Builder

variable {b : Builder} {op : Operation} {targets : List Symbol} {magic : Bool} {e : Error}

/-- Why an operation is refused, the first reason that applies. -/
inductive Refuses (b : Builder) (op : Operation) (targets : List Symbol) (magic : Bool) : Error → Prop where
  | repeated {earlier later : List Symbol} {target : Symbol} : targets = earlier ++ target :: later →
      earlier.Nodup → target ∈ earlier → Refuses b op targets magic (.invalidGraph (.repeatedTarget op.label target))
  | unknown {earlier later : List Symbol} {target : Symbol} : targets.Nodup → op ≠ .init → op ≠ .prep →
      targets = earlier ++ target :: later → (∀ known ∈ earlier, b.graph.kind? known ≠ none) →
      b.graph.kind? target = none → Refuses b op targets magic (.unknownResource target op.label)
  | collision : targets.Nodup → (op = .init ∨ op = .prep ∨ ∀ target ∈ targets, b.graph.kind? target ≠ none) →
      magic = true → op.stateSymbol ∉ targets → b.graph.kind? op.stateSymbol = some .exclusive →
      Refuses b op targets magic (.invalidGraph (.collision op.stateSymbol))

/-! ## Where the targets come from -/

/-- What is known has a writer or a source. -/
theorem Sound.exists_origin (sound : b.Sound) (op : Operation) {target : Symbol}
    (known : b.graph.kind? target ≠ none) : ∃ edge, b.origin op target = .ok (some edge) := by
  unfold origin
  cases kind : b.graph.kind? target with
  | none => exact absurd kind known
  | some kind' =>
      cases kind' with
      | magicState =>
          obtain ⟨source, supplied⟩ := sound.wired.supplied.mp kind
          exact ⟨⟨target, source⟩, by simp [supplied]⟩
      | exclusive =>
          obtain ⟨writer, written, -⟩ := sound.written kind
          exact ⟨⟨target, writer⟩, by simp [written]⟩

theorem origin_of_unknown {target : Symbol} (unknown : b.graph.kind? target = none) :
    b.origin op target = if op.produces then .ok none else .error (.unknownResource target op.label) := by
  simp only [origin, unknown]

theorem Sound.origins_of_unknown (sound : b.Sound) {earlier : List Symbol} {target : Symbol}
    (consumes : op.produces = false) (known : ∀ symbol ∈ earlier, b.graph.kind? symbol ≠ none)
    (unknown : b.graph.kind? target = none) (later : List Symbol) :
    b.origins op (earlier ++ target :: later) = .error (.unknownResource target op.label) := by
  induction earlier with
  | nil =>
      refine bind_eq_error.mpr (.inl ?_)
      rw [origin_of_unknown unknown, if_neg (by simp [consumes])]
  | cons symbol earlier ih =>
      obtain ⟨here, others⟩ := List.forall_mem_cons.mp known
      obtain ⟨edge, found⟩ := sound.exists_origin op here
      exact bind_eq_error.mpr (.inr ⟨_, found, bind_eq_error.mpr (.inl (ih others))⟩)

/-- Either all targets come from somewhere or there is a first one that does not. -/
theorem Sound.origins_cases (sound : b.Sound) (op : Operation) (targets : List Symbol) :
    ((∃ edges, b.origins op targets = .ok edges) ∧
      (op.produces = true ∨ ∀ target ∈ targets, b.graph.kind? target ≠ none)) ∨
    op.produces = false ∧ ∃ earlier target later, targets = earlier ++ target :: later ∧
      (∀ known ∈ earlier, b.graph.kind? known ≠ none) ∧ b.graph.kind? target = none := by
  induction targets with
  | nil => exact .inl ⟨⟨[], rfl⟩, .inr (by simp)⟩
  | cons target rest ih =>
      by_cases known : b.graph.kind? target = none
      · cases produces : op.produces with
        | false => exact .inr ⟨rfl, [], target, rest, rfl, by simp, known⟩
        | true =>
            obtain ⟨⟨edges, found⟩, -⟩ | ⟨consumes, -⟩ := ih
            · refine .inl ⟨⟨_, bind_eq_ok.mpr ⟨none, ?_, bind_eq_ok.mpr ⟨edges, found, rfl⟩⟩⟩, .inl rfl⟩
              rw [origin_of_unknown known, if_pos produces]
            · cases produces.symm.trans consumes
      · obtain ⟨edge, here⟩ := sound.exists_origin op known
        obtain ⟨⟨edges, found⟩, why⟩ | ⟨consumes, earlier, first, later, rfl, before, unknown⟩ := ih
        · refine .inl ⟨⟨_, bind_eq_ok.mpr ⟨_, here, bind_eq_ok.mpr ⟨edges, found, rfl⟩⟩⟩, why.imp_right ?_⟩
          exact fun others => List.forall_mem_cons.mpr ⟨known, others⟩
        · exact .inr ⟨consumes, target :: earlier, first, later, rfl, List.forall_mem_cons.mpr ⟨known, before⟩, unknown⟩

/-! ## Why adding fails -/

theorem addLasting_eq_error {cycles : Nat} : b.addLasting op targets magic cycles = .error e ↔
    (∃ target, firstRepeated? [] targets = some target ∧ e = .invalidGraph (.repeatedTarget op.label target)) ∨
    firstRepeated? [] targets = none ∧ (b.origins op targets = .error e ∨
      (∃ edges, b.origins op targets = .ok edges) ∧ magic = true ∧ op.stateSymbol ∉ targets ∧
        b.graph.kind? op.stateSymbol = some .exclusive ∧ e = .invalidGraph (.collision op.stateSymbol)) := by
  unfold addLasting
  cases again : firstRepeated? [] targets with
  | some target => simp [eq_comm]
  | none =>
      simp only [reduceCtorEq, false_and, exists_false, true_and, false_or]
      rw [bind_eq_error]
      refine or_congr_right ?_
      rw [← exists_and_right]
      refine exists_congr fun edges => and_congr_right fun _ => ?_
      by_cases draws : magic = true ∧ op.stateSymbol ∉ targets
      · by_cases exclusive : b.graph.kind? op.stateSymbol = some .exclusive
        · simp [draws, exclusive, eq_comm]
        · simp [draws, exclusive, pure, Except.pure]
      · have skips : (magic && !targets.contains op.stateSymbol) = false := by
          simpa using draws
        simp only [skips, Bool.false_eq_true, if_false]
        constructor
        · intro done
          cases done
        · rintro ⟨set, absent, -⟩
          exact absurd ⟨set, absent⟩ draws

theorem Sound.addLasting_eq_error_iff (sound : b.Sound) (op : Operation) (targets : List Symbol) (magic : Bool)
    (cycles : Nat) (e : Error) : b.addLasting op targets magic cycles = .error e ↔ b.Refuses op targets magic e := by
  rw [addLasting_eq_error]
  constructor
  · rintro (⟨target, found, rfl⟩ | ⟨found, missing | ⟨⟨edges, origins⟩, set, absent, exclusive, rfl⟩⟩)
    · obtain ⟨earlier, later, split, distinct, -, again⟩ := exists_of_firstRepeated? found
      exact .repeated split distinct again
    · have distinct := (nodup_of_firstRepeated? found).1
      obtain ⟨⟨edges, origins⟩, -⟩ | ⟨consumes, earlier, target, later, rfl, known, unknown⟩ :=
        sound.origins_cases op targets
      · cases missing.symm.trans origins
      · cases missing.symm.trans (sound.origins_of_unknown consumes known unknown later)
        obtain ⟨init, prep⟩ := op.produces_eq_false.mp consumes
        exact .unknown distinct init prep rfl known unknown
    · refine .collision (nodup_of_firstRepeated? found).1 ?_ set absent exclusive
      obtain ⟨-, why⟩ | ⟨consumes, earlier, target, later, rfl, known, unknown⟩ := sound.origins_cases op targets
      · rw [op.produces_iff, or_assoc] at why
        exact why
      · cases origins.symm.trans (sound.origins_of_unknown consumes known unknown later)
  · rintro (⟨rfl, distinct, again⟩ | ⟨distinct, init, prep, rfl, known, unknown⟩ |
      ⟨distinct, known, set, absent, exclusive⟩)
    · refine .inl ⟨_, ?_, rfl⟩
      rw [firstRepeated?_append distinct (by simp), firstRepeated?, if_pos (by simpa using again)]
    · refine .inr ⟨firstRepeated?_eq_none distinct, .inl ?_⟩
      exact sound.origins_of_unknown (op.produces_eq_false.mpr ⟨init, prep⟩) known unknown _
    · refine .inr ⟨firstRepeated?_eq_none distinct, .inr ⟨?_, set, absent, exclusive, rfl⟩⟩
      obtain ⟨found, -⟩ | ⟨consumes, earlier, target, later, rfl, -, unknown⟩ := sound.origins_cases op targets
      · exact found
      · obtain ⟨init, prep⟩ := op.produces_eq_false.mp consumes
        rcases known with same | same | known
        · exact absurd same init
        · exact absurd same prep
        · exact absurd unknown (known target (by simp))

theorem Sound.exists_addLasting_iff (sound : b.Sound) (cycles : Nat) :
    (∃ id c, b.addLasting op targets magic cycles = .ok (id, c)) ↔
      targets.Nodup ∧ (op = .init ∨ op = .prep ∨ ∀ target ∈ targets, b.graph.kind? target ≠ none) ∧
      (magic = true → op.stateSymbol ∈ targets ∨ b.graph.kind? op.stateSymbol ≠ some .exclusive) := by
  have refused := sound.addLasting_eq_error_iff op targets magic cycles
  constructor
  · rintro ⟨id, c, added⟩
    have accepted : ∀ e, ¬ b.Refuses op targets magic e := by
      intro e refuses
      cases added.symm.trans ((refused e).mpr refuses)
    have distinct : targets.Nodup := by
      cases found : firstRepeated? [] targets with
      | none => exact (nodup_of_firstRepeated? found).1
      | some target =>
          obtain ⟨earlier, later, split, distinct, -, again⟩ := exists_of_firstRepeated? found
          exact absurd (.repeated split distinct again) (accepted _)
    have known : op = .init ∨ op = .prep ∨ ∀ target ∈ targets, b.graph.kind? target ≠ none := by
      obtain ⟨-, why⟩ | ⟨consumes, earlier, target, later, split, known, unknown⟩ := sound.origins_cases op targets
      · rwa [op.produces_iff, or_assoc] at why
      · obtain ⟨init, prep⟩ := op.produces_eq_false.mp consumes
        exact absurd (.unknown distinct init prep split known unknown) (accepted _)
    refine ⟨distinct, known, fun set => or_iff_not_imp_left.mpr fun absent exclusive => ?_⟩
    exact accepted _ (.collision distinct known set absent exclusive)
  · rintro ⟨distinct, known, apart⟩
    cases done : b.addLasting op targets magic cycles with
    | ok added => exact ⟨added.1, added.2, rfl⟩
    | error e =>
        exfalso
        cases (refused e).mp done with
        | repeated split _ again =>
            rw [split, List.nodup_append] at distinct
            exact distinct.2.2 _ again _ (by simp) rfl
        | unknown _ init prep split _ unknown =>
            rcases known with rfl | rfl | known
            · exact init rfl
            · exact prep rfl
            · exact known _ (by simp [split]) unknown
        | collision _ _ set absent exclusive =>
            rcases apart set with member | other
            · exact absent member
            · exact other exclusive

/-! ## Adding in place -/

/-- A change of a builder in place. A failure stops it halfway: what has been written by then stays written. -/
abbrev Edit := EStateM Error Builder

namespace Edit

/-- Where a target comes from in the graph as it stands. -/
def locate (op : Operation) (target : Symbol) : Edit (Option Edge) := do
  ofExcept ((← get).origin op target)

/-- Locates targets one after the other. -/
def locateAll (op : Operation) (targets : List Symbol) : Edit (List Edge) := do
  return (← targets.mapM (locate op)).flatMap Option.toList

/-- Draws a magic state from its source, which is written at its first use. -/
def draw (state : Symbol) : Edit Edge := do
  if (← get).graph.kind? state = some .exclusive then throw (.invalidGraph (.collision state))
  -- the first write of the whole call, and nothing fails after it
  let found := (← get).graph.sourceOf state
  modify ({ · with graph := found.2 })
  return ⟨state, found.1⟩

/-- Writes a node whose producers are known. -/
def write (op : Operation) (targets : List Symbol) (producers : List Edge) (cycles : Nat) : Edit NodeId := do
  let before := (← get).graph
  modify ({ · with graph := before.registerAll (targets.filter fun target => (before.kind? target).isNone) })
  let known := (← get).graph
  let id := known.nextId
  let node := { operationNode id op targets producers cycles with layer := known.layerAbove producers }
  let written := targets.filter fun target => known.kind? target == some .exclusive
  modify fun b => { b with lastWriter := written.foldl (fun acc target => acc.insert target id) b.lastWriter }
  modify fun b => { b with graph := b.graph.link id producers }
  modify fun b => { b with graph := b.graph.push node }
  modify fun b => { b with graph := b.graph.raiseProducers id }
  return id

/-- Adds an operation as `addLasting` does. -/
def add (op : Operation) (targets : List Symbol) (magic : Bool) (cycles : Nat) : Edit NodeId := do
  (firstRepeated? [] targets).forM fun target => throw (.invalidGraph (.repeatedTarget op.label target))
  let producers ← locateAll op targets
  if magic && !targets.contains op.stateSymbol then
    let edge ← draw op.stateSymbol
    write op (targets ++ [edge.symbol]) (producers ++ [edge]) cycles
  else
    write op targets producers cycles

theorem run_write (b : Builder) (op : Operation) (targets : List Symbol) (producers : List Edge) (cycles : Nat) :
    (write op targets producers cycles).run b
      = .ok (b.attach op targets producers cycles).1 (b.attach op targets producers cycles).2 := rfl

theorem locateAll_cons (op : Operation) (target : Symbol) (rest : List Symbol) :
    locateAll op (target :: rest) = do
      let edge ← locate op target
      let edges ← locateAll op rest
      return edge.toList ++ edges := by
  simp [locateAll, List.mapM_cons]

/-- Locating writes nothing. -/
theorem run_locateAll (b : Builder) (op : Operation) (targets : List Symbol) :
    (locateAll op targets).run b = (ofExcept (b.origins op targets) : Edit (List Edge)).run b := by
  induction targets with
  | nil => rfl
  | cons target rest ih =>
      have first : (locate op target).run b = (ofExcept (b.origin op target) : Edit (Option Edge)).run b := rfl
      rw [locateAll_cons, EStateM.run_bind, first, origins]
      cases b.origin op target with
      | error e => rfl
      | ok edge =>
          change ((locateAll op rest) >>= fun edges => pure (edge.toList ++ edges)).run b = _
          rw [EStateM.run_bind, ih]
          cases b.origins op rest <;> rfl

theorem run_draw (b : Builder) (state : Symbol) : (draw state).run b
    = if b.graph.kind? state = some .exclusive then .error (.invalidGraph (.collision state)) b
      else .ok ⟨state, (b.graph.sourceOf state).1⟩ { b with graph := (b.graph.sourceOf state).2 } := by
  unfold draw
  rw [EStateM.run_bind, EStateM.run_get]
  dsimp only
  split <;> rfl

/-- What a call leads to whose failures leave the builder as it was. -/
def outcome (b : Builder) : Except Error (NodeId × Builder) → EStateM.Result Error Builder NodeId
  | .ok added => .ok added.1 added.2
  | .error e => .error e b

theorem run_add (b : Builder) (op : Operation) (targets : List Symbol) (magic : Bool) (cycles : Nat) :
    (add op targets magic cycles).run b = outcome b (b.addLasting op targets magic cycles) := by
  unfold add addLasting
  cases firstRepeated? [] targets with
  | some target => rfl
  | none =>
      change (locateAll op targets >>= _).run b = _
      rw [EStateM.run_bind, run_locateAll]
      cases b.origins op targets with
      | error e => rfl
      | ok producers =>
          change (ite _ _ _ : Edit NodeId).run b = outcome b (ite _ _ _)
          split
          · rw [EStateM.run_bind, run_draw]
            by_cases exclusive : b.graph.kind? op.stateSymbol = some .exclusive
            · rw [if_pos exclusive, if_pos exclusive]
              rfl
            · rw [if_neg exclusive, if_neg exclusive]
              exact run_write ..
          · exact run_write ..

end Edit

/-- Adding an operation fails with the first reason that applies and for no other, and succeeds if there is none: no
    resource lacks its source or its writer. Done in place, the call leaves the whole builder as it was whenever it
    fails. -/
theorem addLasting_refused_iff {b : Builder} (reachable : b.Reachable) (op : Operation) (targets : List Symbol)
    (magic : Bool) (cycles : Nat) :
    (∀ e, b.addLasting op targets magic cycles = .error e ↔ b.Refuses op targets magic e) ∧
    ((∃ id c, b.addLasting op targets magic cycles = .ok (id, c)) ↔
      targets.Nodup ∧ (op = .init ∨ op = .prep ∨ ∀ target ∈ targets, b.graph.kind? target ≠ none) ∧
      (magic = true → op.stateSymbol ∈ targets ∨ b.graph.kind? op.stateSymbol ≠ some .exclusive)) ∧
    (∀ symbol, b.addLasting op targets magic cycles ≠ .error (.invalidGraph (.sourceless symbol)) ∧
      b.addLasting op targets magic cycles ≠ .error (.inconsistent (.noWriter symbol))) ∧
    (∀ id c, (Edit.add op targets magic cycles).run b = .ok id c ↔
      b.addLasting op targets magic cycles = .ok (id, c)) ∧
    ∀ e left, (Edit.add op targets magic cycles).run b = .error e left ↔ b.Refuses op targets magic e ∧ left = b := by
  have refused := reachable.sound.addLasting_eq_error_iff op targets magic cycles
  refine ⟨refused, reachable.sound.exists_addLasting_iff cycles, fun symbol => ⟨?_, ?_⟩, fun id c => ?_, fun e left => ?_⟩
  · intro failed
    cases (refused _).mp failed
  · intro failed
    cases (refused _).mp failed
  · rw [Edit.run_add]
    cases b.addLasting op targets magic cycles <;> simp [Edit.outcome, Prod.ext_iff]
  · rw [Edit.run_add, ← refused]
    cases b.addLasting op targets magic cycles <;> simp [Edit.outcome, eq_comm]

/-- An input that is named like the state of a gate. -/
def namesake : Builder := (new "namesake").declareAll ["a", "T"]

/-- A repeated target is reported before one that is not known, and each failure leaves the builder as it was. -/
theorem addLasting_refused_iff_namesake :
    namesake.Reachable ∧
    (Edit.add .cnot ["a", "z", "a"] false 3).run namesake
      = .error (.invalidGraph (.repeatedTarget "CNOT" "a")) namesake ∧
    (Edit.add .cnot ["a", "z"] false 3).run namesake = .error (.unknownResource "z" "CNOT") namesake ∧
    (Edit.add .t ["a"] true 1).run namesake = .error (.invalidGraph (.collision "T")) namesake ∧
    ∃ id c, namesake.addLasting .cnot ["a", "T"] false 3 = .ok (id, c) := by
  have reachable : namesake.Reachable := .declareAll ["a", "T"] (.new "namesake")
  have known : ∀ symbol ∈ ["a", "T"], namesake.graph.kind? symbol = some .exclusive := by decide +kernel
  have fails := fun op targets magic cycles => (addLasting_refused_iff reachable op targets magic cycles).2.2.2.2
  refine ⟨reachable, (fails ..).mpr ⟨?_, rfl⟩, (fails ..).mpr ⟨?_, rfl⟩, (fails ..).mpr ⟨?_, rfl⟩, ?_⟩
  · exact .repeated (show ["a", "z", "a"] = ["a", "z"] ++ "a" :: [] from rfl) (by decide) (by decide)
  · exact .unknown (by decide) (by decide) (by decide) (show ["a", "z"] = ["a"] ++ "z" :: [] from rfl) (by simp [known])
      (by decide +kernel)
  · exact .collision (by decide) (.inr (.inr (by simp [known]))) rfl (by decide) (known "T" (by decide))
  · apply (addLasting_refused_iff reachable .cnot ["a", "T"] false 3).2.1.mpr
    exact ⟨by decide, .inr (.inr (by simp [known])), by simp⟩

end Builder

end LatticeSurgery
