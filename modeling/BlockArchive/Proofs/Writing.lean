import BlockArchive.Proofs.Agreement
import BlockArchive.Proofs.Ends
import BlockArchive.Proofs.Reachable

/-!
# Steps that write

Most steps carry out one change of a session and do nothing else. Whether such a step succeeds and
the store that it leads to are those of the change.

## Main definitions

- `Step.Does`: the step carries out a change and nothing else

## Main statements

- `Step.Does.succeeds_iff`, `Step.Does.next_eq`: what comes of the step
- `Step.Does.agree`, `Step.Does.ends`: steps whose changes agree, and how a step ends
-/

namespace BlockArchive

theorem SetupM.ok_of_ofWrite {α : Type} {part : WriteM α} {session after : Session} {answer : α}
    (h : SetupM.ofWrite part session = .ok answer after) : part session = .ok answer after := by
  unfold SetupM.ofWrite at h
  split at h
  · next he =>
    cases h
    exact he
  · cases h

theorem SetupM.error_of_ofWrite {α : Type} {part : WriteM α} {session after : Session}
    {cause : ArchiveError} (h : SetupM.ofWrite part session = .error cause after) :
    ∃ failure, part session = .error failure after := by
  unfold SetupM.ofWrite at h
  split at h
  · cases h
  · next failure _ he =>
    cases h
    exact ⟨failure, he⟩

namespace Step

/-- A step that succeeds comes to its end. -/
theorem exists_run {step : Step} {s : Store} (h : step.Succeeds s) :
    ∃ answer after, step.run { store := s } = .ok answer after ∧
      step.outcome s = ⟨.ok answer, after.store, after.log⟩ := by
  obtain ⟨answer, hanswer⟩ := h
  unfold outcome at hanswer ⊢
  cases hrun : step.run { store := s } with
  | ok answer' after => exact ⟨answer', after, rfl, rfl⟩
  | error cause after =>
    rw [hrun] at hanswer
    cases hanswer

/-- The step carries out the part and does nothing else. -/
def Does {α : Type} (step : Step) (part : WriteM α) : Prop :=
  ∃ tell : α → Option Id, step.run = SetupM.ofWrite part >>= fun answer => pure (tell answer)

theorem does_registerChain (chain : Chain) :
    (registerChain chain).Does (BlockArchive.registerChain chain) :=
  ⟨some, rfl⟩

theorem does_persist (block : Block) (txs : List Tx) :
    (persist block txs).Does (BlockArchive.persist block txs) :=
  ⟨fun _ => none, rfl⟩

theorem does_markEventsIndexed (block : Block) :
    (markEventsIndexed block).Does (BlockArchive.markEventsIndexed block) :=
  ⟨fun _ => none, rfl⟩

theorem does_markFailed (pipeline : Pipeline) (chain : Chain) (height : Int64) :
    (markFailed pipeline chain height).Does (BlockArchive.markFailed pipeline chain height) :=
  ⟨fun _ => none, rfl⟩

theorem does_upsertDenoms (entries : List DenomWithUnits) :
    (upsertDenoms entries).Does (BlockArchive.upsertDenoms entries) :=
  ⟨fun _ => none, rfl⟩

theorem does_upsertIbcDenoms (denoms : List IbcDenom) :
    (upsertIbcDenoms denoms).Does (BlockArchive.upsertIbcDenoms denoms) :=
  ⟨fun _ => none, rfl⟩

namespace Does

variable {α β : Type} {step step' : Step} {part : WriteM α} {part' : WriteM β} {s : Store}

theorem outcome_of_ok (h : step.Does part) {answer : α} {after : Session}
    (hpart : part { store := s } = .ok answer after) :
    ∃ told, step.outcome s = ⟨.ok told, after.store, after.log⟩ := by
  obtain ⟨tell, hrun⟩ := h
  have hwrite : SetupM.ofWrite part { store := s } = .ok answer after := by
    rw [SetupM.ofWrite, hpart]
  have hstep : step.run { store := s } = .ok (tell answer) after := by
    rw [hrun, bind_of_ok hwrite]
    rfl
  rw [outcome, hstep]
  exact ⟨_, rfl⟩

theorem outcome_of_error (h : step.Does part) {failure : Failure} {after : Session}
    (hpart : part { store := s } = .error failure after) :
    step.outcome s = ⟨.error (.repo failure), after.store, after.log⟩ := by
  obtain ⟨tell, hrun⟩ := h
  have hwrite : SetupM.ofWrite part { store := s } = .error (.repo failure) after := by
    rw [SetupM.ofWrite, hpart]
  have hstep : step.run { store := s } = .error (.repo failure) after := by
    rw [hrun, bind_of_error hwrite]
  rw [outcome, hstep]

theorem of_ok (h : step.Does part) {answer : α} {after : Session}
    (hpart : part { store := s } = .ok answer after) :
    step.Succeeds s ∧ step.next s = after.store := by
  obtain ⟨told, houtcome⟩ := h.outcome_of_ok hpart
  rw [Succeeds, next, houtcome]
  exact ⟨⟨told, rfl⟩, rfl⟩

theorem of_error (h : step.Does part) {failure : Failure} {after : Session}
    (hpart : part { store := s } = .error failure after) :
    (step.outcome s).answer = .error (.repo failure) ∧ step.next s = after.store := by
  rw [next, h.outcome_of_error hpart]
  exact ⟨rfl, rfl⟩

/-- A step that succeeds has its change carried out. -/
theorem exists_ok (h : step.Does part) (hok : step.Succeeds s) :
    ∃ answer after, part { store := s } = .ok answer after ∧ step.next s = after.store := by
  cases hpart : part { store := s } with
  | ok answer after => exact ⟨answer, after, rfl, (h.of_ok hpart).2⟩
  | error failure after =>
    rw [Succeeds, (h.of_error hpart).1] at hok
    obtain ⟨_, hok⟩ := hok
    cases hok

theorem succeeds_iff (h : step.Does part) :
    step.Succeeds s ↔ (observed (part { store := s })).1.isSome := by
  cases hpart : part { store := s } with
  | ok answer after => simp [observed, (h.of_ok hpart).1]
  | error failure after => simp [observed, Succeeds, (h.of_error hpart).1]

theorem next_eq (h : step.Does part) : step.next s = (observed (part { store := s })).2 := by
  cases hpart : part { store := s } with
  | ok answer after => exact (h.of_ok hpart).2
  | error failure after => exact (h.of_error hpart).2

/-- Steps whose changes agree succeed in the same stores and lead to the same stores. -/
theorem agree {part' : WriteM α} (h : step.Does part) (h' : step'.Does part')
    (hagree : Agree part part') :
    (step.Succeeds s ↔ step'.Succeeds s) ∧ step.next s = step'.next s := by
  have hseen := hagree { store := s } { store := s } rfl
  rw [h.succeeds_iff, h'.succeeds_iff, h.next_eq, h'.next_eq, hseen]
  exact ⟨Iff.rfl, rfl⟩

/-- A step succeeds unless its change has a fault. -/
theorem ends {ε : Type} {tells : ε → Failure → Prop} {fault : Option ε} {Q : α → Session → Prop}
    (h : step.Does part) (hends : Ends tells part { store := s } fault Q) :
    (step.Succeeds s ↔ fault = none) ∧
      (fault = none → ∃ answer after, Q answer after ∧ step.next s = after.store) := by
  cases fault with
  | none =>
    obtain ⟨answer, after, hpart, hQ⟩ := hends
    have hstep := h.of_ok hpart
    exact ⟨⟨fun _ => rfl, fun _ => hstep.1⟩, fun _ => ⟨answer, after, hQ, hstep.2⟩⟩
  | some fault =>
    obtain ⟨failure, after, hpart, _⟩ := hends
    have hstep := (h.of_error hpart).1
    simp [Succeeds, hstep]

/-- What holds of the change holds once the step has succeeded. -/
theorem of_succeeds {ε : Type} {tells : ε → Failure → Prop} {fault : Option ε}
    {Q : α → Session → Prop} (h : step.Does part)
    (hends : Ends tells part { store := s } fault Q) (hok : step.Succeeds s) :
    ∃ answer after, Q answer after ∧ step.next s = after.store :=
  (h.ends hends).2 ((h.ends hends).1.1 hok)

/-- A step that is one transaction leaves all rows as they were, unless it succeeds. -/
theorem rollback {part : WriteM α} {event : α → LogEvent}
    (h : step.Does (WriteM.transaction part >>= fun answer => WriteM.log (event answer)))
    (hfails : ¬ step.Succeeds s) : ∃ t, step.next s = s.rollback t := by
  cases hpart : (WriteM.transaction part >>= fun answer => WriteM.log (event answer))
      { store := s } with
  | ok answer after => exact absurd (h.of_ok hpart).1 hfails
  | error failure after =>
    obtain ⟨t, ht⟩ := WriteM.rollback_of_logged hpart
    exact ⟨t, (h.of_error hpart).2.trans ht⟩

end Does

end Step

end BlockArchive
