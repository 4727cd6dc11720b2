import BlockArchive.Proofs.Moves

/-!
# Two runs side by side

Two steps agree when they cannot be told apart from outside, the log and the reason of a failure
aside: started on the same store they both answer, alike, or both fail, and they end with the same
store.

## Main definitions

- `observed`: the answer of a step, if there is one, and the store after it
- `Agree`: the steps cannot be told apart

## Main statements

- `Agree.bind`: parts that follow each other
- `agree_query`, `Agree.transaction`: statements and transactions
-/

namespace BlockArchive

open EStateM (Result)

/-- What can be seen of a step from outside. -/
def observed {α : Type} : Result Failure Session α → Option α × Store
  | .ok answer session => (some answer, session.store)
  | .error _ session => (none, session.store)

/-- Started on the same store, the two steps end alike. -/
def Agree {α : Type} (x y : WriteM α) : Prop :=
  ∀ a b : Session, a.store = b.store → observed (x a) = observed (y b)

section

variable {α β : Type} {x y : WriteM α}

theorem agree_pure (answer : α) : Agree (pure answer) (pure answer) := by
  intro a b hab
  simp [pure_run, observed, hab]

theorem Agree.bind {f g : α → WriteM β} (hxy : Agree x y)
    (hfg : ∀ answer, Agree (f answer) (g answer)) : Agree (x >>= f) (y >>= g) := by
  intro a b hab
  have hfirst := hxy a b hab
  cases hx : x a with
  | ok answer a' =>
    cases hy : y b with
    | ok other b' =>
      simp only [hx, hy, observed, Prod.mk.injEq, Option.some.injEq] at hfirst
      obtain ⟨rfl, hstore⟩ := hfirst
      rw [bind_of_ok hx, bind_of_ok hy]
      exact hfg answer a' b' hstore
    | error => simp [hx, hy, observed] at hfirst
  | error failure a' =>
    cases hy : y b with
    | ok => simp [hx, hy, observed] at hfirst
    | error other b' =>
      simp only [hx, hy, observed, Prod.mk.injEq] at hfirst
      rw [bind_of_error hx, bind_of_error hy]
      simp only [observed, hfirst.2]

theorem agree_log (event event' : LogEvent) : Agree (WriteM.log event) (WriteM.log event') :=
  fun _ _ hab => Prod.ext rfl hab

theorem agree_log_pure (event : LogEvent) : Agree (WriteM.log event) (pure ()) :=
  fun _ _ hab => Prod.ext rfl hab

theorem Agree.symm (h : Agree x y) : Agree y x :=
  fun a b hab => (h b a hab.symm).symm

theorem agree_query (statement : StoreM α) :
    Agree (WriteM.query statement) (WriteM.query statement) := by
  intro a b hab
  simp only [WriteM.query, hab]
  cases statement b.store <;> rfl

/-- Answers that are known beforehand agree if they are the same or both are failures. -/
theorem agree_ofExcept {x y : Except Failure α} (h : ∀ answer, x = .ok answer ↔ y = .ok answer) :
    Agree (WriteM.ofExcept x) (WriteM.ofExcept y) := by
  intro a b hab
  cases x with
  | ok answer =>
    rw [(h answer).1 rfl]
    exact agree_pure answer a b hab
  | error failure =>
    cases y with
    | ok answer => cases (h answer).2 rfl
    | error other => exact Prod.ext rfl hab

theorem Agree.onFailure (h : Agree x y) (event event' : Failure → LogEvent) :
    Agree (x.onFailure event) (y.onFailure event') := by
  intro a b hab
  have hpart := h a b hab
  unfold WriteM.onFailure
  cases hx : x a <;> cases hy : y b <;> simp_all [observed]

theorem Agree.stage (h : Agree x y) (stage : Stage) (block : Block) :
    Agree (WriteM.stage stage block x) (WriteM.stage stage block y) :=
  h.onFailure _ _

theorem Agree.transaction (h : Agree x y) : Agree (WriteM.transaction x) (WriteM.transaction y) := by
  intro a b hab
  have hstep := h a b hab
  unfold WriteM.transaction
  cases hx : x a <;> cases hy : y b <;> simp_all [observed]

end

end BlockArchive
