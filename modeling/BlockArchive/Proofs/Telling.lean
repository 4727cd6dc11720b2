import BlockArchive.Proofs.Ends

/-!
# What a step tells

The records that a step has written stay written when it fails. To reason about them the log is made
a part of the failure; what is known of how a step ends then includes what it has told before.

## Main definitions

- `WriteM.exposed`: the step, with the log as a part of its failure
- `WriteM.Silent`: the step tells nothing
- `WriteM.Tells`: the step tells the records and does nothing else

## Main statements

- `WriteM.exposed_bind`: parts that follow each other
- `WriteM.stage_bind`: the failure of a stage is told where its part fails
- `WriteM.ends_of_exposed`: the failure without the log
-/

namespace BlockArchive

namespace WriteM

variable {α β : Type}

/-- The step, with the log as a part of its failure. -/
def exposed (step : WriteM α) : EStateM (Failure × List LogEvent) Session α := fun session =>
  match step session with
  | .ok answer after => .ok answer after
  | .error failure after => .error (failure, after.log) after

theorem exposed_of_ok {step : WriteM α} {session after : Session} {answer : α}
    (h : step session = .ok answer after) : step.exposed session = .ok answer after := by
  rw [exposed, h]

theorem exposed_of_error {step : WriteM α} {session after : Session} {failure : Failure}
    (h : step session = .error failure after) :
    step.exposed session = .error (failure, after.log) after := by
  rw [exposed, h]

theorem exposed_bind (x : WriteM α) (f : α → WriteM β) :
    (x >>= f).exposed = x.exposed >>= fun answer => (f answer).exposed := by
  funext session
  cases hx : x session with
  | ok answer after =>
    rw [exposed, bind_of_ok hx, bind_of_ok (exposed_of_ok hx)]
    rfl
  | error failure after =>
    rw [exposed_of_error (bind_of_error hx), bind_of_error (exposed_of_error hx)]

section Ends

variable {φ : Type} {tells : φ → Failure × List LogEvent → Prop} {step : WriteM α}
  {session : Session} {fault : Option φ} {Q : α → Session → Prop}

theorem ends_exposed_some {f : φ} :
    Ends tells step.exposed session (some f) Q ↔
      ∃ failure after, step session = .error failure after ∧ tells f (failure, after.log) := by
  constructor
  · rintro ⟨told, after, hexposed, htells⟩
    cases hstep : step session with
    | ok answer after =>
      rw [exposed_of_ok hstep] at hexposed
      cases hexposed
    | error failure after =>
      rw [exposed_of_error hstep] at hexposed
      cases hexposed
      exact ⟨failure, after, rfl, htells⟩
  · rintro ⟨failure, after, hstep, htells⟩
    exact Ends.error (exposed_of_error hstep) htells

theorem ends_exposed_none :
    Ends tells step.exposed session none Q ↔
      ∃ answer after, step session = .ok answer after ∧ Q answer after := by
  constructor
  · rintro ⟨answer, after, hexposed, hQ⟩
    cases hstep : step session with
    | ok answer after =>
      rw [exposed_of_ok hstep] at hexposed
      cases hexposed
      exact ⟨answer, after, rfl, hQ⟩
    | error failure after =>
      rw [exposed_of_error hstep] at hexposed
      cases hexposed
  · rintro ⟨answer, after, hstep, hQ⟩
    exact Ends.ok (exposed_of_ok hstep) hQ

/-- The step fails with the same faults where the log is not a part of the failure. -/
theorem ends_of_exposed (h : Ends tells step.exposed session fault Q) :
    Ends (fun fault failure => ∃ log, tells fault (failure, log)) step session fault Q := by
  cases fault with
  | some fault =>
    obtain ⟨failure, after, hstep, htells⟩ := ends_exposed_some.1 h
    exact Ends.error hstep ⟨after.log, htells⟩
  | none => exact ends_exposed_none.1 h

/-- What is told of a transaction stays told when it is taken back. -/
theorem ends_exposed_transaction (h : Ends tells step.exposed session fault Q) :
    Ends tells (WriteM.transaction step).exposed session fault Q := by
  cases fault with
  | some fault =>
    obtain ⟨failure, after, hstep, htells⟩ := ends_exposed_some.1 h
    refine ends_exposed_some.2
      ⟨failure, { after with store := session.store.rollback after.store }, ?_, htells⟩
    rw [WriteM.transaction, hstep]
  | none =>
    obtain ⟨answer, after, hstep, hQ⟩ := ends_exposed_none.1 h
    refine ends_exposed_none.2 ⟨answer, after, ?_, hQ⟩
    rw [WriteM.transaction, hstep]

end Ends

/-! ## Steps that tell nothing -/

/-- The step tells nothing, whether it fails or not. -/
def Silent (step : WriteM α) : Prop :=
  Moves (fun session after => after.log = session.log) step

theorem silent_query (statement : StoreM α) : Silent (WriteM.query statement) := by
  intro session
  unfold WriteM.query
  split <;> rfl

theorem silent_ofExcept (made : Except Failure α) : Silent (WriteM.ofExcept made) := by
  intro session
  cases made <;> rfl

theorem Silent.bind {x : WriteM α} {f : α → WriteM β} (hx : Silent x)
    (hf : ∀ answer, Silent (f answer)) : Silent (x >>= f) :=
  Moves.bind (fun _ _ _ h h' => h'.trans h) hx hf

/-! ## Steps that only tell -/

/-- The step tells the records and does nothing else. -/
def Tells (step : WriteM Unit) (told : List LogEvent) : Prop :=
  ∀ session, step session = .ok () { session with log := session.log ++ told }

theorem tells_nothing : Tells (pure ()) [] := by
  intro session
  rw [List.append_nil]
  rfl

theorem tells_log {event event' : LogEvent} (h : event = event') :
    Tells (WriteM.log event) [event'] := by
  subst h
  exact fun _ => rfl

/-- A record that is told only under a condition. -/
theorem tells_if {event : LogEvent} {c : Prop} [Decidable c] :
    Tells (if c then WriteM.log event else pure ()) (if c then [event] else []) := by
  split
  · exact tells_log rfl
  · exact tells_nothing

/-! ## Stages -/

/-- Parts of one stage can be taken as stages of their own. -/
theorem stage_bind (stage : Stage) (block : Block) (x : WriteM α) (f : α → WriteM β) :
    WriteM.stage stage block (x >>= f) =
      WriteM.stage stage block x >>= fun answer => WriteM.stage stage block (f answer) := by
  funext session
  cases hx : x session with
  | ok answer after =>
    have hstage : WriteM.stage stage block x session = .ok answer after := by
      rw [WriteM.stage, onFailure, hx]
    rw [bind_of_ok hstage, WriteM.stage, onFailure, bind_of_ok hx]
    rfl
  | error failure after =>
    have hstage : WriteM.stage stage block x session =
        .error failure { after with log := after.log ++ [.failedStage stage block failure] } := by
      rw [WriteM.stage, onFailure, hx]
    rw [bind_of_error hstage, WriteM.stage, onFailure, bind_of_error hx]

/-- What only tells does not fail. -/
theorem Tells.stage {step : WriteM Unit} {told : List LogEvent} (h : Tells step told)
    (stage : Stage) (block : Block) : Tells (WriteM.stage stage block step) told := by
  intro session
  rw [WriteM.stage, onFailure, h session]

end WriteM

end BlockArchive
