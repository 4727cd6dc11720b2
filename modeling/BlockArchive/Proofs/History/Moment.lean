import BlockArchive.Proofs.Reachable

/-!
# The history of a run

A step of a run is carried out on the store that the steps before it have left. What a run leaves
behind at its end is told by these moments: by those of a kind that there are, or by the latest.

## Main definitions

- `Moment`: a step and the store on which it is carried out
- `Store.history`: the moments of a run, the first one first
- `IsLatest`: the last one of a kind

## Main statements

- `Store.history_concat`: the moments of a run that goes on for another step
- `Store.Reachable.of_mem_history`: the store of every moment is reached
- `isLatest_concat`: the last one of a kind in a list that goes on
-/

namespace BlockArchive

/-- A step and the store on which it is carried out. -/
structure Moment where
  store : Store
  step : Step

namespace Moment

/-- The store that the step leaves. -/
def next (m : Moment) : Store :=
  m.step.next m.store

/-- The step is carried out. -/
def Succeeds (m : Moment) : Prop :=
  m.step.Succeeds m.store

theorem sound_next {m : Moment} (hs : m.store.Sound) : m.next.Sound :=
  (m.step.keeps_next m.store hs).1

end Moment

namespace Store

/-- The moments of a run, the first one first. -/
def history (s : Store) : List Step → List Moment
  | [] => []
  | step :: rest => ⟨s, step⟩ :: (step.next s).history rest

theorem after_append (s : Store) (earlier later : List Step) :
    s.after (earlier ++ later) = (s.after earlier).after later :=
  List.foldl_append

theorem after_concat (s : Store) (steps : List Step) (step : Step) :
    s.after (steps ++ [step]) = Moment.next ⟨s.after steps, step⟩ :=
  s.after_append steps [step]

theorem history_append (s : Store) (earlier later : List Step) :
    s.history (earlier ++ later) = s.history earlier ++ (s.after earlier).history later := by
  induction earlier generalizing s with
  | nil => rfl
  | cons step rest ih => exact congrArg _ (ih (step.next s))

/-- A run that goes on for another step has one moment more. -/
theorem history_concat (s : Store) (steps : List Step) (step : Step) :
    s.history (steps ++ [step]) = s.history steps ++ [⟨s.after steps, step⟩] :=
  s.history_append steps [step]

/-- The moments of a run are its steps, each with the store that the steps before it have left. -/
theorem exists_of_mem_history {s : Store} {steps : List Step} {m : Moment}
    (h : m ∈ s.history steps) :
    ∃ earlier later, steps = earlier ++ m.step :: later ∧ m.store = s.after earlier := by
  induction steps generalizing s with
  | nil => cases h
  | cons step rest ih =>
    rcases List.mem_cons.1 h with rfl | h
    · exact ⟨[], rest, rfl, rfl⟩
    · obtain ⟨earlier, later, hsteps, hstore⟩ := ih h
      exact ⟨step :: earlier, later, congrArg _ hsteps, hstore⟩

/-- A run goes on from each of its moments. -/
theorem exists_after_of_mem_history {s : Store} {steps : List Step} {m : Moment}
    (h : m ∈ s.history steps) : ∃ later, s.after steps = m.next.after later := by
  obtain ⟨earlier, later, rfl, hstore⟩ := exists_of_mem_history h
  refine ⟨later, ?_⟩
  rw [after_append, Moment.next, hstore]
  rfl

/-- The store of every moment of a run is reached. -/
theorem Reachable.of_mem_history {s : Store} (h : s.Reachable) {steps : List Step} {m : Moment}
    (hm : m ∈ s.history steps) : m.store.Reachable := by
  obtain ⟨earlier, _, _, hstore⟩ := exists_of_mem_history hm
  rw [hstore]
  exact h.after earlier

end Store

/-! ## The latest of a kind -/

section Latest

variable {α : Type} {P : α → Prop} {a : α}

/-- The last one of a kind in a list. -/
def IsLatest (P : α → Prop) (a : α) (l : List α) : Prop :=
  P a ∧ ∃ earlier later, l = earlier ++ a :: later ∧ ∀ other ∈ later, ¬ P other

theorem IsLatest.mem {l : List α} (h : IsLatest P a l) : a ∈ l := by
  obtain ⟨_, earlier, later, rfl, _⟩ := h
  exact List.mem_append_cons_self

/-- In a list that goes on the last one of a kind is the new one, if this is of the kind, and the
same as before otherwise. -/
theorem isLatest_concat {l : List α} {last : α} :
    IsLatest P a (l ++ [last]) ↔ (P last ∧ a = last) ∨ (¬ P last ∧ IsLatest P a l) := by
  constructor
  · rintro ⟨hP, earlier, later, hl, hlater⟩
    rcases List.eq_nil_or_concat later with rfl | ⟨rest, other, rfl⟩
    · have hlast : last = a := by simpa using (List.append_inj' hl rfl).2
      exact Or.inl ⟨hlast ▸ hP, hlast.symm⟩
    · rw [List.concat_eq_append] at hl hlater
      have hl : l ++ [last] = (earlier ++ a :: rest) ++ [other] := by simpa using hl
      obtain ⟨rfl, hother⟩ := List.append_inj' hl rfl
      cases hother
      exact Or.inr ⟨hlater last (by simp), hP, earlier, rest, rfl,
        fun other hother => hlater other (List.mem_append_left _ hother)⟩
  · rintro (⟨hP, rfl⟩ | ⟨hlast, hP, earlier, later, rfl, hlater⟩)
    · exact ⟨hP, l, [], rfl, by simp⟩
    · refine ⟨hP, earlier, later ++ [last], by simp, fun other hother => ?_⟩
      rcases List.mem_append.1 hother with hother | hother
      · exact hlater other hother
      · cases List.mem_singleton.1 hother
        exact hlast

end Latest

end BlockArchive
