import BlockArchive.Proofs.Gap
import BlockArchive.Proofs.History.Block

/-!
# Progress

A height that counts for a pipeline goes on to count. A block that is stored again sets the flag of
its pipeline, leaves the other flag as it is and brings a new time, so only a block whose time is
not known takes back what has been reached, and only at its own height.

## Main definitions

- `Step.Dates`: the times of the blocks that a step stores are known
- `Store.FlaggedAt`: a pipeline has seen to a height, be its time known or not
- `Store.Advances`: nothing that is told about the progress of a chain has gone back

## Main statements

- `Step.indexedAt_next_iff`: what counts after a block has been stored
- `Step.indexedAt_next`: the heights that go on to count
- `Store.advances_of_indexedAt`: what the queries tell when heights go on to count
- `Store.Reachable.advances_next`: progress after one step
-/

namespace BlockArchive

/-- The times of the blocks that the step stores are known, as they are stored. -/
def Step.Dates (step : Step) : Prop :=
  ∀ pipeline block, step.stored? = some (pipeline, block) →
    block.time.toTimestamp ≠ Timestamp.zero

/-- The flag of a pipeline is set at a height, be the time of the height known or not. -/
def Store.FlaggedAt (s : Store) (pipeline : Pipeline) (chain : Id) (height : Int64) : Prop :=
  ∃ entry ∈ s.blocks.entries,
    entry.row.chain = chain ∧ entry.row.height = height ∧ entry.row.flag pipeline = true

instance (s : Store) (pipeline : Pipeline) (chain : Id) (height : Int64) :
    Decidable (s.FlaggedAt pipeline chain height) :=
  inferInstanceAs (Decidable (∃ _ ∈ _, _))

/-- What is told about the progress of the chain in `t` has not gone back from what is told in
`s`. -/
structure Store.Advances (s t : Store) (chain : Id) : Prop where
  /-- The heights that count for a pipeline go on to count. -/
  indexedAt : ∀ pipeline height, s.IndexedAt pipeline chain height →
    t.IndexedAt pipeline chain height
  /-- The query for the highest block of a pipeline reads one that lies as high or higher. -/
  highestIndexed : ∀ pipeline highest, s.highestIndexed? pipeline chain = some highest →
    ∃ next, highest.row.height ≤ next.row.height ∧
      t.highestIndexed pipeline chain = TableName.blocks.readOption (some next)
  /-- While a height is missing the scan tells one that lies as high or higher, or it tells that the
  highest block cannot be read back. -/
  firstMissing : ∀ start stop stop' log log' height after,
    firstMissing chain start stop ⟨s, log⟩ = .ok height after →
    (∃ other, start ≤ other ∧ ¬ t.IndexedAt .txs chain other) →
    (∃ next told, height ≤ next ∧ firstMissing chain start stop' ⟨t, log'⟩ = .ok next ⟨t, told⟩) ∨
      (¬ t.Scannable chain ∧
        firstMissing chain start stop' ⟨t, log'⟩ = .error (.query .timeTooLarge) ⟨t, log'⟩)

variable {s t : Store} {step : Step} {pipeline : Pipeline} {chain : Id} {height : Int64}

/-! ## Single steps -/

/-- A block that is refreshed by one whose time is known goes on to count. -/
theorem BlockRow.isIndexed_refresh {stored offered : BlockRow} (h : stored.IsIndexed pipeline)
    (hdated : offered.IsDated) :
    BlockRow.IsIndexed (TableName.blocks.refresh stored offered) pipeline :=
  ⟨(flag_refresh stored offered pipeline).2 (Or.inl h.1), hdated⟩

/-- In a sound store a height counts if its row does. -/
theorem Store.Sound.indexedAt_iff (hs : s.Sound) :
    s.IndexedAt pipeline chain height ↔
      ∃ entry, s.find? .blocks (.slot ⟨chain, height⟩) = some entry ∧
        entry.row.IsIndexed pipeline := by
  simp only [IndexedAt, hs.find?_block, and_assoc]

theorem Store.Sound.flaggedAt_iff (hs : s.Sound) :
    s.FlaggedAt pipeline chain height ↔
      ∃ entry, s.find? .blocks (.slot ⟨chain, height⟩) = some entry ∧
        entry.row.flag pipeline = true := by
  simp only [FlaggedAt, hs.find?_block, and_assoc]

namespace Step

/-- A block that is offered is one that the step stores. -/
theorem exists_stored_of_offers {row : BlockRow} (h : step.Offers .blocks row) :
    ∃ pipeline block, step.stored? = some (pipeline, block) ∧ row = block.row pipeline := by
  cases step with
  | persist block txs => exact ⟨.txs, block, rfl, h⟩
  | markEventsIndexed block => exact ⟨.events, block, rfl, h⟩
  | upsertDenoms | upsertIbcDenoms => simp [Offers] at h
  | _ => exact h.elim

/-- Blocks are taken only with their chain. -/
theorem not_takes_block (hstays : ∀ chainId, step ≠ .removeChain chainId) (entry : Entry BlockRow) :
    ¬ step.Takes s .blocks entry := by
  cases step with
  | removeChain chainId => exact absurd rfl (hstays chainId)
  | _ => exact id

/-- A step that stores a block leaves all other heights alone. -/
theorem find?_block_next (hs : s.Sound) {block : Block}
    (hstored : step.stored? = some (pipeline, block)) {slot : Slot}
    (hne : slot ≠ ⟨block.chain, block.height⟩) :
    (step.next s).find? .blocks (.slot slot) = s.find? .blocks (.slot slot) := by
  have hstays : ∀ chainId, step ≠ .removeChain chainId := by
    rintro chainId rfl
    cases hstored
  apply find?_next hs
  · intro row hrow hkey
    obtain ⟨_, other, hother, rfl⟩ := exists_stored_of_offers hrow
    cases hstored.symm.trans hother
    exact hne (Key.slot.inj hkey).symm
  · exact fun entry _ _ => not_takes_block hstays entry

/-- After a block has been stored its height counts for the pipelines that have seen to it, now or
before, if the time of the block is known. All other heights count as before. -/
theorem indexedAt_next_iff (hs : s.Sound) {counted : Pipeline} {block : Block}
    (hstored : step.stored? = some (pipeline, block)) (hok : step.Succeeds s) :
    (step.next s).IndexedAt counted chain height ↔
      if chain = block.chain ∧ height = block.height then
        (counted = pipeline ∨ s.FlaggedAt counted chain height) ∧
          block.time.toTimestamp ≠ Timestamp.zero
      else s.IndexedAt counted chain height := by
  rw [(step.keeps_next s hs).1.indexedAt_iff]
  split
  · next hown =>
    obtain ⟨rfl, rfl⟩ := hown
    obtain ⟨entry, hfind, hsettles⟩ := Moment.find?_stored (m := ⟨s, step⟩) hs ⟨hok, hstored⟩
    have hfind : (step.next s).find? .blocks (.slot ⟨block.chain, block.height⟩) = some entry :=
      hfind
    obtain ⟨_, htime, hflag⟩ := BlockRow.of_settles hsettles
    rw [hs.flaggedAt_iff]
    simp only [hfind, Option.some.injEq, exists_eq_left', BlockRow.IsIndexed, BlockRow.IsDated,
      htime, hflag]
    exact Iff.rfl
  · next hother =>
    have hne : (⟨chain, height⟩ : Slot) ≠ ⟨block.chain, block.height⟩ := fun h =>
      hother (Slot.mk.injEq .. ▸ h)
    rw [find?_block_next hs hstored hne, hs.indexedAt_iff]

/-- A height that counts goes on to count, unless the step stores a block at it whose time is not
known. -/
theorem indexedAt_next (hs : s.Sound) (hstays : ∀ chainId, step ≠ .removeChain chainId)
    (hdated : ∀ other block, step.stored? = some (other, block) → block.chain = chain →
      block.height = height → block.time.toTimestamp ≠ Timestamp.zero)
    (h : s.IndexedAt pipeline chain height) : (step.next s).IndexedAt pipeline chain height := by
  obtain ⟨entry, hentry, hcounts⟩ := h
  have hsurvives : Store.Survives
      (fun s => ∃ other ∈ (s.get .blocks).entries, other.id = entry.id ∧
        other.row.chain = chain ∧ other.row.height = height ∧ other.row.IsIndexed pipeline)
      step.Offers (step.Takes s) := by
    apply Store.survives_row (n := .blocks)
      (Q := fun row => row.chain = chain ∧ row.height = height ∧ row.IsIndexed pipeline)
    · rintro stored row hrow hkey ⟨hchain, hheight, hindexed⟩
      obtain ⟨other, block, hstored, rfl⟩ := exists_stored_of_offers hrow
      have hslot : (block.row other).slot = stored.slot := Key.slot.inj hkey
      have htime := hdated other block hstored ((congrArg Slot.parent hslot).trans hchain)
        ((congrArg Slot.index hslot).trans hheight)
      exact ⟨hchain, hheight, BlockRow.isIndexed_refresh hindexed htime⟩
    · exact fun other _ => not_takes_block hstays other
  obtain ⟨kept, hkept, _, hcounts⟩ := preserves_next hsurvives hs ⟨entry, hentry, rfl, hcounts⟩
  exact ⟨kept, hkept, hcounts⟩

end Step

/-! ## The queries -/

namespace Store

/-- Where a height counts there is a highest one. -/
theorem exists_highestIndexed? (h : s.IndexedAt pipeline chain height) :
    ∃ highest, s.highestIndexed? pipeline chain = some highest ∧ height ≤ highest.row.height := by
  cases hhighest : s.highestIndexed? pipeline chain with
  | none => exact absurd h (not_indexedAt_of_highestIndexed? hhighest height)
  | some highest => exact ⟨highest, rfl, (le_of_highestIndexed? hhighest).2 height h⟩

/-- Where more heights count the first missing one does not lie lower, as long as there is one. -/
theorem IsFirstMissing.le_of_indexedAt {start height' : Int64}
    (h : s.IsFirstMissing chain start height) (h' : t.IsFirstMissing chain start height')
    (hindexed : ∀ other, s.IndexedAt .txs chain other → t.IndexedAt .txs chain other)
    (hgap : ∃ other, start ≤ other ∧ ¬ t.IndexedAt .txs chain other) : height ≤ height' := by
  obtain ⟨other, hother, hmissing⟩ := hgap
  have hleast : IsLeast {other | start ≤ other ∧ ¬ t.IndexedAt .txs chain other} height' :=
    h'.resolve_right fun hall => hmissing (hall.2 other hother)
  rcases h with h | ⟨_, hall⟩
  · exact h.2 ⟨hleast.1.1, fun hcounts => hleast.1.2 (hindexed _ hcounts)⟩
  · exact absurd (hindexed _ (hall other hother)) hmissing

/-- Where the heights that count go on to count, no query goes back. -/
theorem advances_of_indexedAt
    (h : ∀ pipeline height, s.IndexedAt pipeline chain height →
      t.IndexedAt pipeline chain height) : s.Advances t chain where
  indexedAt := h
  highestIndexed pipeline highest hhighest := by
    have hcounts := h pipeline _ (le_of_highestIndexed? hhighest).1
    obtain ⟨next, hnext, hle⟩ := exists_highestIndexed? hcounts
    exact ⟨next, hle, congrArg TableName.blocks.readOption hnext⟩
  firstMissing start stop stop' log log' height after hanswer hgap := by
    have hfirst := (isFirstMissing_of_firstMissing hanswer).2
    by_cases hscan : t.Scannable chain
    · have hnext := t.isFirstMissing_scan chain start stop'
      obtain ⟨told, hrun⟩ := firstMissing_of_scannable hscan hnext stop' log'
      exact Or.inl ⟨_, told, hfirst.le_of_indexedAt hnext (h .txs) hgap, hrun⟩
    · exact Or.inr ⟨hscan, firstMissing_of_not_scannable hscan start stop' log'⟩

/-- Progress does not go back by a step that takes no chain out, be it carried out or not, as long
as it stores no block whose time is not known. A step that does can stop a height from counting, and
this is the height of its own block. -/
theorem Reachable.advances_next (h : s.Reachable) {step : Step}
    (hstays : ∀ chainId, step ≠ .removeChain chainId) :
    (step.Dates → ∀ chain, s.Advances (step.next s) chain) ∧
      ∀ pipeline chain height, s.IndexedAt pipeline chain height →
        ¬ (step.next s).IndexedAt pipeline chain height →
        ∃ other block, step.stored? = some (other, block) ∧
          block.time.toTimestamp = Timestamp.zero ∧ block.chain = chain ∧ block.height = height := by
  constructor
  · intro hdates chain
    exact advances_of_indexedAt fun pipeline height hcounts =>
      Step.indexedAt_next h.sound hstays
        (fun other block hstored _ _ => hdates other block hstored) hcounts
  · intro pipeline chain height hcounts hstops
    by_contra hnone
    push Not at hnone
    refine hstops (Step.indexedAt_next h.sound hstays ?_ hcounts)
    intro other block hstored hchain hheight htime
    exact hnone other block hstored htime hchain hheight

/-- A step fills a gap, and another one stores the time of a height as unknown. -/
theorem advances_next_past_filled_gap :
    let time : Instant := { Instant.zero with nano := 1000, nano_lt := by decide }
    let s := (∅ : Store).after
      [.registerChain ⟨"a-1", "A"⟩, .persist ⟨1, 5, time⟩ [], .persist ⟨1, 7, time⟩ []]
    let fill : Step := .persist ⟨1, 6, time⟩ []
    let forget : Step := .markEventsIndexed (.placeholder 1 7)
    (∀ chain, s.Advances (fill.next s) chain) ∧
      s.IndexedAt .txs 1 7 ∧ ¬ (forget.next s).IndexedAt .txs 1 7 ∧
      ∃ pipeline block, forget.stored? = some (pipeline, block) ∧
        block.time.toTimestamp = Timestamp.zero ∧ block.chain = 1 ∧ block.height = 7 := by
  intro time s fill forget
  have hs : s.Reachable := Reachable.empty.after _
  have hdates : fill.Dates := by
    intro pipeline block hstored
    cases hstored
    decide
  have hcounts : s.IndexedAt .txs 1 7 := by decide +kernel
  have hstops : ¬ (forget.next s).IndexedAt .txs 1 7 := by decide +kernel
  have hfill : ∀ chainId, fill ≠ .removeChain chainId := fun _ => Step.noConfusion
  have hforget : ∀ chainId, forget ≠ .removeChain chainId := fun _ => Step.noConfusion
  exact ⟨(hs.advances_next hfill).1 hdates, hcounts, hstops,
    (hs.advances_next hforget).2 _ _ _ hcounts hstops⟩

end Store

end BlockArchive
