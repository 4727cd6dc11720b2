import BlockArchive.Session

/-!
# What a step leads to

A step that may fail leads to a state whether it fails or not. A relation that every part of a step
keeps to is one that the step keeps to, and so is a relation between stores when it survives that
the store is rolled back.

## Main definitions

- `Moves`: the step keeps to a relation between states
- `StepRelation`: the relations between stores that survive composition and rollback

## Main statements

- `Moves.bind`: parts that follow each other
- `WriteM.moves_query`, `WriteM.moves_transaction`: statements and transactions
-/

namespace BlockArchive

open EStateM (Result)

/-- The state in which a step ends, be it with an answer or with a failure. -/
def finalState {ε σ α : Type} : Result ε σ α → σ
  | .ok _ state => state
  | .error _ state => state

/-- The state in which the step ends is related to the one in which it starts. -/
def Moves {ε σ α : Type} (R : σ → σ → Prop) (step : EStateM ε σ α) : Prop :=
  ∀ state, R state (finalState (step state))

section Running

variable {ε σ α β : Type}

@[simp] theorem finalState_ok (answer : α) (state : σ) :
    finalState (.ok answer state : Result ε σ α) = state := rfl

theorem bind_of_ok {x : EStateM ε σ α} {f : α → EStateM ε σ β} {s t : σ} {answer : α}
    (h : x s = .ok answer t) : (x >>= f) s = f answer t := by
  show EStateM.bind x f s = f answer t
  simp only [EStateM.bind, h]

theorem bind_of_error {x : EStateM ε σ α} {f : α → EStateM ε σ β} {s t : σ} {failure : ε}
    (h : x s = .error failure t) : (x >>= f) s = .error failure t := by
  show EStateM.bind x f s = .error failure t
  simp only [EStateM.bind, h]

/-- Parts that follow each other answer only if each of them does. -/
theorem exists_of_bind {x : EStateM ε σ α} {f : α → EStateM ε σ β} {s u : σ} {answer : β}
    (h : (x >>= f) s = .ok answer u) :
    ∃ first t, x s = .ok first t ∧ f first t = .ok answer u := by
  cases hx : x s with
  | ok first t =>
    rw [bind_of_ok hx] at h
    exact ⟨first, t, rfl, h⟩
  | error failure t =>
    rw [bind_of_error hx] at h
    cases h

/-- They fail only if the first of them fails or the second one does. -/
theorem error_of_bind {x : EStateM ε σ α} {f : α → EStateM ε σ β} {s u : σ} {failure : ε}
    (h : (x >>= f) s = .error failure u) :
    x s = .error failure u ∨ ∃ first t, x s = .ok first t ∧ f first t = .error failure u := by
  cases hx : x s with
  | ok first t =>
    rw [bind_of_ok hx] at h
    exact Or.inr ⟨first, t, rfl, h⟩
  | error failure' t =>
    rw [bind_of_error hx] at h
    cases h
    exact Or.inl rfl

theorem pure_run (answer : α) (s : σ) : (pure answer : EStateM ε σ α) s = .ok answer s := rfl

theorem throw_run (failure : ε) (s : σ) :
    (throw failure : EStateM ε σ α) s = .error failure s := rfl

theorem read_bind (f : σ → EStateM ε σ β) (s : σ) : (getThe σ >>= f) s = f s s := rfl

end Running

namespace Moves

variable {ε σ α β : Type} {R : σ → σ → Prop}

theorem of_ok {x : EStateM ε σ α} (h : Moves R x) {s t : σ} {answer : α} (hx : x s = .ok answer t) :
    R s t := by
  have hmoves := h s
  rwa [hx] at hmoves

theorem pure (hrefl : ∀ s, R s s) (answer : α) : Moves R (pure answer : EStateM ε σ α) :=
  fun s => hrefl s

theorem throw (hrefl : ∀ s, R s s) (failure : ε) : Moves R (throw failure : EStateM ε σ α) :=
  fun s => hrefl s

theorem bind (htrans : ∀ s t u, R s t → R t u → R s u) {x : EStateM ε σ α}
    {f : α → EStateM ε σ β} (hx : Moves R x) (hf : ∀ answer, Moves R (f answer)) :
    Moves R (x >>= f) := by
  intro s
  have hfirst := hx s
  cases h : x s with
  | ok answer t =>
    rw [h] at hfirst
    rw [bind_of_ok h]
    exact htrans _ _ _ hfirst (hf answer t)
  | error failure t =>
    rw [h] at hfirst
    rw [bind_of_error h]
    exact hfirst

/-- Parts of one kind that follow each other, whose answers are gathered. -/
theorem mapM (hrefl : ∀ s, R s s) (htrans : ∀ s t u, R s t → R t u → R s u) {γ : Type}
    {f : γ → EStateM ε σ α} {l : List γ} (h : ∀ a ∈ l, Moves R (f a)) : Moves R (l.mapM f) := by
  induction l with
  | nil => exact Moves.pure hrefl []
  | cons a rest ih =>
    rw [List.mapM_cons]
    refine bind htrans (h a List.mem_cons_self) fun first => ?_
    refine bind htrans (ih fun b hb => h b (List.mem_cons_of_mem _ hb)) fun others => ?_
    exact Moves.pure hrefl (first :: others)

/-- Parts of one kind that follow each other. -/
theorem forM (hrefl : ∀ s, R s s) (htrans : ∀ s t u, R s t → R t u → R s u) {γ : Type}
    {f : γ → EStateM ε σ PUnit} {l : List γ} (h : ∀ a ∈ l, Moves R (f a)) : Moves R (l.forM f) := by
  induction l with
  | nil => exact Moves.pure hrefl PUnit.unit
  | cons a rest ih =>
    rw [List.forM_eq_forM, List.forM_cons, ← List.forM_eq_forM]
    exact bind htrans (h a List.mem_cons_self) fun _ =>
      ih fun b hb => h b (List.mem_cons_of_mem _ hb)

end Moves

/-! ## Relations between stores -/

/-- A relation between the stores before and after a part of a step: parts may follow each other,
and a store may be rolled back. -/
structure StepRelation (R : Store → Store → Prop) : Prop where
  refl : ∀ s, R s s
  trans : ∀ {s t u}, R s t → R t u → R s u
  /-- A part may be taken back. -/
  rollback : ∀ {s t}, R s t → R s (s.rollback t)

/-- The relation between sessions whose stores are related. -/
def OnStores (R : Store → Store → Prop) (a b : Session) : Prop :=
  R a.store b.store

namespace WriteM

variable {R : Store → Store → Prop} {α β : Type}

theorem moves_pure (hR : StepRelation R) (answer : α) :
    Moves (OnStores R) (pure answer : WriteM α) :=
  Moves.pure (fun a => hR.refl a.store) answer

theorem moves_bind (hR : StepRelation R) {x : WriteM α} {f : α → WriteM β}
    (hx : Moves (OnStores R) x) (hf : ∀ answer, Moves (OnStores R) (f answer)) :
    Moves (OnStores R) (x >>= f) :=
  Moves.bind (R := OnStores R) (fun _ _ _ => hR.trans) hx hf

theorem moves_log (hR : StepRelation R) (event : LogEvent) :
    Moves (OnStores R) (WriteM.log event) :=
  fun a => hR.refl a.store

theorem moves_query {statement : StoreM α} (h : Moves R statement) :
    Moves (OnStores R) (WriteM.query statement) := by
  intro session
  have := h session.store
  unfold WriteM.query
  split
  · next answer store he => rwa [he] at this
  · next cause store he => rwa [he] at this

theorem moves_ofExcept (hR : StepRelation R) (answer : Except Failure α) :
    Moves (OnStores R) (WriteM.ofExcept answer) := by
  cases answer with
  | ok answer => exact moves_pure hR answer
  | error failure => exact Moves.throw (fun a => hR.refl a.store) failure

theorem moves_onFailure {part : WriteM α} {event : Failure → LogEvent}
    (h : Moves (OnStores R) part) : Moves (OnStores R) (part.onFailure event) := by
  intro session
  have := h session
  unfold WriteM.onFailure
  split
  · next answer after he => rwa [he] at this
  · next failure after he =>
    rw [he] at this
    exact this

theorem moves_stage {stage : Stage} {block : Block} {part : WriteM α}
    (h : Moves (OnStores R) part) : Moves (OnStores R) (WriteM.stage stage block part) :=
  moves_onFailure h

theorem moves_transaction (hR : StepRelation R) {step : WriteM α} (h : Moves (OnStores R) step) :
    Moves (OnStores R) (WriteM.transaction step) := by
  intro session
  have := h session
  unfold WriteM.transaction
  split
  · next answer after he => rwa [he] at this
  · next failure after he =>
    rw [he] at this
    exact hR.rollback this

/-! What has answered has done so by its parts. -/

theorem ok_of_query {statement : StoreM α} {session after : Session} {answer : α}
    (h : WriteM.query statement session = .ok answer after) :
    statement session.store = .ok answer after.store ∧ after.log = session.log := by
  unfold WriteM.query at h
  split at h
  · next he =>
    cases h
    exact ⟨he, rfl⟩
  · cases h

theorem ok_of_ofExcept {made : Except Failure α} {session after : Session} {answer : α}
    (h : WriteM.ofExcept made session = .ok answer after) : made = .ok answer ∧ after = session := by
  cases made with
  | ok made =>
    cases h
    exact ⟨rfl, rfl⟩
  | error failure => cases h

theorem ok_of_onFailure {part : WriteM α} {event : Failure → LogEvent} {session after : Session}
    {answer : α} (h : part.onFailure event session = .ok answer after) :
    part session = .ok answer after := by
  unfold WriteM.onFailure at h
  split at h
  · next he =>
    cases h
    exact he
  · cases h

theorem ok_of_transaction {step : WriteM α} {session after : Session} {answer : α}
    (h : WriteM.transaction step session = .ok answer after) : step session = .ok answer after := by
  unfold WriteM.transaction at h
  split at h
  · next he =>
    cases h
    exact he
  · cases h

/-- A transaction that fails leaves the rows as they were. -/
theorem rollback_of_transaction {step : WriteM α} {session after : Session} {failure : Failure}
    (h : WriteM.transaction step session = .error failure after) :
    ∃ t, after.store = session.store.rollback t := by
  unfold WriteM.transaction at h
  split at h
  · cases h
  · next failure' middle _ =>
    cases h
    exact ⟨middle.store, rfl⟩

/-- So does a transaction after which something is told to the log. -/
theorem rollback_of_logged {step : WriteM α} {event : α → LogEvent} {session after : Session}
    {failure : Failure}
    (h : (WriteM.transaction step >>= fun answer => WriteM.log (event answer)) session =
      .error failure after) : ∃ t, after.store = session.store.rollback t := by
  cases hstep : WriteM.transaction step session with
  | ok answer middle =>
    rw [bind_of_ok hstep] at h
    cases h
  | error failure' middle =>
    rw [bind_of_error hstep] at h
    cases h
    exact rollback_of_transaction hstep

end WriteM

end BlockArchive
