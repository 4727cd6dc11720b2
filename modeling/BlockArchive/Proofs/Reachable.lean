import BlockArchive.Proofs.Statements

/-!
# Runs of the archive

The stores that are reached from the empty one by carrying out steps, whether they succeed or fail,
are sound, and no id is given twice.

## Main definitions

- `Store.after`: the store after a run of steps
- `Store.Reachable`: a run from the empty store leads to the store

## Main statements

- `Step.keeps_next`: a step leads from a sound store to a sound one
- `Store.Reachable.sound`: every store that is reached is sound
-/

namespace BlockArchive

/-- The store after a run of steps, whether they succeed or fail. -/
def Store.after (s : Store) (steps : List Step) : Store :=
  steps.foldl (fun t step => step.next t) s

/-- A run of steps from the empty store leads to the store. -/
inductive Store.Reachable : Store → Prop
  | empty : Store.Reachable ∅
  /-- Any step may follow, whether it succeeds or fails. -/
  | step {s : Store} (h : Store.Reachable s) (step : Step) : Store.Reachable (step.next s)

namespace Step

/-- A step offers only blocks that a pipeline has seen to. -/
theorem warranted_of_offers {step : Step} {n : TableName} {row : n.Row} (h : step.Offers n row) :
    n.Warranted row := by
  cases n
  case blocks =>
    cases step
    case persist => exact Or.inl (by rw [show row = Block.row _ .txs from h]; rfl)
    case markEventsIndexed => exact Or.inr (by rw [show row = Block.row _ .events from h]; rfl)
    all_goals simp [Offers] at h
  all_goals trivial

theorem statementRelation_keeps (step : Step) {Takes : (n : TableName) → Entry n.Row → Prop} :
    StatementRelation Store.Keeps step.Offers Takes where
  toStepRelation := Store.stepRelation_keeps
  upsert n _ hrows := Store.keeps_upsert n fun row hrow => warranted_of_offers (hrows row hrow)
  insertAbsent n _ hrows :=
    Store.keeps_insertAbsent n fun row hrow => warranted_of_offers (hrows row hrow)
  delete n doomed _ := Store.keeps_delete n doomed

/-- A step leads from a sound store to a sound one and takes no id back. -/
theorem keeps_next (step : Step) (s : Store) : s.Keeps (step.next s) :=
  step.related_next step.statementRelation_keeps

end Step

/-- Every store that is reached is sound. -/
theorem Store.Reachable.sound {s : Store} (h : s.Reachable) : s.Sound := by
  induction h with
  | empty => exact Store.sound_empty
  | @step s _ step ih => exact (step.keeps_next s ih).1

/-- A run leads from a store that is reached to one that is reached. -/
theorem Store.Reachable.after {s : Store} (h : s.Reachable) (steps : List Step) :
    (s.after steps).Reachable := by
  induction steps generalizing s with
  | nil => exact h
  | cons step rest ih => exact ih (.step h step)

end BlockArchive
