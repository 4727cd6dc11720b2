import BlockArchive.Proofs.Moves

/-!
# How a step ends

A step that may fail either has a fault that is known beforehand, and then fails with it, or has
none, and then answers. The faults of steps that follow each other are those of the first and, where
it has none, those of the next; so the order of the parts of a step is the order in which its faults
count.

## Main definitions

- `Ends`: the step fails with the fault if there is one, and answers otherwise

## Main statements

- `Ends.bind`: parts that follow each other
- `WriteM.ends_query`, `WriteM.ends_transaction`: statements and transactions
-/

namespace BlockArchive

/-- If there is a fault the step fails and tells of it; otherwise it answers, and `Q` holds of the
answer and of the state in which it ends. -/
def Ends {ε σ α φ : Type} (tells : φ → ε → Prop) (step : EStateM ε σ α) (s : σ) (fault : Option φ)
    (Q : α → σ → Prop) : Prop :=
  match fault with
  | some fault => ∃ failure t, step s = .error failure t ∧ tells fault failure
  | none => ∃ answer t, step s = .ok answer t ∧ Q answer t

namespace Ends

variable {ε σ α β φ : Type} {tells : φ → ε → Prop} {x : EStateM ε σ α} {s : σ} {fault : Option φ}
  {Q : α → σ → Prop}

theorem ok {answer : α} {t : σ} (h : x s = .ok answer t) (hQ : Q answer t) :
    Ends tells x s none Q :=
  ⟨answer, t, h, hQ⟩

theorem error {f : φ} {failure : ε} {t : σ} (h : x s = .error failure t) (hf : tells f failure) :
    Ends tells x s (some f) Q :=
  ⟨failure, t, h, hf⟩

theorem pure {answer : α} (hQ : Q answer s) :
    Ends tells (pure answer : EStateM ε σ α) s none Q :=
  ok (pure_run answer s) hQ

/-- Where the first part has no fault, the faults are those of the second. -/
theorem bind {g : Option φ} {f : α → EStateM ε σ β} {P : β → σ → Prop} (hx : Ends tells x s fault Q)
    (hf : fault = none → ∀ answer t, Q answer t → Ends tells (f answer) t g P) :
    Ends tells (x >>= f) s (fault.or g) P := by
  cases fault with
  | some fault =>
    obtain ⟨failure, t, h, htells⟩ := hx
    exact error (bind_of_error h) htells
  | none =>
    obtain ⟨answer, t, h, hQ⟩ := hx
    have hnext := hf rfl answer t hQ
    rw [Option.none_or]
    cases g with
    | some g =>
      obtain ⟨failure, u, hu, htells⟩ := hnext
      exact error ((bind_of_ok h).trans hu) htells
    | none =>
      obtain ⟨next, u, hu, hP⟩ := hnext
      exact ok ((bind_of_ok h).trans hu) hP

/-- A first part without faults adds none. -/
theorem next {g : Option φ} {f : α → EStateM ε σ β} {P : β → σ → Prop} (hx : Ends tells x s none Q)
    (hf : ∀ answer t, Q answer t → Ends tells (f answer) t g P) : Ends tells (x >>= f) s g P :=
  hx.bind fun _ => hf

/-- A last part without faults adds none. -/
theorem last {f : α → EStateM ε σ β} {P : β → σ → Prop} (hx : Ends tells x s fault Q)
    (hf : fault = none → ∀ answer t, Q answer t → Ends tells (f answer) t none P) :
    Ends tells (x >>= f) s fault P := by
  rw [← Option.or_none (o := fault)]
  exact hx.bind hf

theorem mono {P : α → σ → Prop} (hx : Ends tells x s fault Q)
    (h : fault = none → ∀ answer t, Q answer t → P answer t) : Ends tells x s fault P := by
  cases fault with
  | some fault => exact hx
  | none =>
    obtain ⟨answer, t, ht, hQ⟩ := hx
    exact ok ht (h rfl answer t hQ)

/-- A fault may be told in other words. -/
theorem map {ψ : Type} {tells' : ψ → ε → Prop} (hx : Ends tells x s fault Q) (f : φ → ψ)
    (hf : ∀ fault failure, tells fault failure → tells' (f fault) failure) :
    Ends tells' x s (fault.map f) Q := by
  cases fault with
  | some fault =>
    obtain ⟨failure, t, ht, htells⟩ := hx
    exact error ht (hf fault failure htells)
  | none => exact hx

end Ends

namespace WriteM

variable {α φ : Type} {tells : φ → Failure → Prop} {session : Session} {fault : Option φ}
  {Q : α → Session → Prop}

theorem ends_log (event : LogEvent) :
    Ends tells (WriteM.log event) session none fun _ after => after.store = session.store :=
  Ends.ok rfl rfl

/-- What a statement is refused for is what the step fails with. -/
theorem ends_query {statement : StoreM α} {cause : Option QueryError} {P : α → Store → Prop}
    (refused : QueryError → φ) (hrefused : ∀ cause, tells (refused cause) (.query cause))
    (h : Ends (fun fault cause => cause = fault) statement session.store cause P) :
    Ends tells (WriteM.query statement) session (cause.map refused)
      fun answer after => P answer after.store := by
  cases cause with
  | some cause =>
    obtain ⟨failure, t, ht, rfl⟩ := h
    have hquery : WriteM.query statement session =
        .error (.query failure) { session with store := t } := by
      rw [WriteM.query, ht]
    exact Ends.error hquery (hrefused failure)
  | none =>
    obtain ⟨answer, t, ht, hP⟩ := h
    have hquery : WriteM.query statement session = .ok answer { session with store := t } := by
      rw [WriteM.query, ht]
    exact Ends.ok hquery hP

/-- A statement as the only part whose faults are told. -/
theorem ends_query_cause {statement : StoreM α} {cause : Option QueryError} {P : α → Store → Prop}
    (h : Ends (fun fault cause => cause = fault) statement session.store cause P) :
    Ends (fun cause failure => failure = .query cause) (WriteM.query statement) session cause
      fun answer after => P answer after.store := by
  have hmap : cause.map id = cause := congrFun Option.map_id cause
  rw [← hmap]
  exact ends_query id (fun _ => rfl) h

theorem ends_ofExcept_ok {answer : α} (hQ : Q answer session) :
    Ends tells (WriteM.ofExcept (.ok answer)) session none Q :=
  Ends.pure hQ

theorem ends_ofExcept_error {f : φ} {failure : Failure} (h : tells f failure) :
    Ends tells (WriteM.ofExcept (.error failure : Except Failure α)) session (some f) Q :=
  Ends.error (throw_run failure session) h

theorem ends_onFailure {part : WriteM α} {event : Failure → LogEvent}
    (h : Ends tells part session fault Q) : Ends tells (part.onFailure event) session fault Q := by
  cases fault with
  | some fault =>
    obtain ⟨failure, t, ht, htells⟩ := h
    have hpart : part.onFailure event session =
        .error failure { t with log := t.log ++ [event failure] } := by
      rw [WriteM.onFailure, ht]
    exact Ends.error hpart htells
  | none =>
    obtain ⟨answer, t, ht, hQ⟩ := h
    refine Ends.ok ?_ hQ
    rw [WriteM.onFailure, ht]

theorem ends_stage {stage : Stage} {block : Block} {part : WriteM α}
    (h : Ends tells part session fault Q) :
    Ends tells (WriteM.stage stage block part) session fault Q :=
  ends_onFailure h

theorem ends_transaction {part : WriteM α} (h : Ends tells part session fault Q) :
    Ends tells (WriteM.transaction part) session fault Q := by
  cases fault with
  | some fault =>
    obtain ⟨failure, t, ht, htells⟩ := h
    have hstep : WriteM.transaction part session =
        .error failure { t with store := session.store.rollback t.store } := by
      rw [WriteM.transaction, ht]
    exact Ends.error hstep htells
  | none =>
    obtain ⟨answer, t, ht, hQ⟩ := h
    refine Ends.ok ?_ hQ
    rw [WriteM.transaction, ht]

end WriteM

end BlockArchive
