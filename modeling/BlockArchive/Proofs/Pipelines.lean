import BlockArchive.Proofs.Isolation
import BlockArchive.Proofs.Progress

/-!
# Two pipelines beside each other

The pipelines have a flag each in the row of a block, but its time they share, and the latest block
brings it. So what one of them stores does not count for the other and takes nothing from it, as
long as the time of the height does not become known or unknown by it. Where it does, the height
starts or stops to count for a pipeline that had seen to it before.

## Main definitions

- `Store.highestHeight`: the height of the highest block that counts, as it is told
- `Store.KeepsCount`, `Store.KeepsHighest`: storing a block does not disturb a pipeline

## Main statements

- `Store.highestHeight_congr`: stores in which the same heights count
- `Store.Reachable.pipelines_apart`: what one pipeline stores and the other is told
-/

namespace BlockArchive

namespace Store

/-- The height of the highest block of a chain that counts for a pipeline, as it is told. -/
def highestHeight (s : Store) (pipeline : Pipeline) (chain : Id) :
    Except Failure (Option Int64) :=
  (s.highestIndexed pipeline chain).map fun highest => highest.map (·.row.height)

/-- If the pipeline has seen to the height of the block, the time that the block brings is known or
unknown like the one that is stored. -/
def KeepsCount (s : Store) (pipeline : Pipeline) (block : Block) : Prop :=
  s.FlaggedAt pipeline block.chain block.height →
    (s.IndexedAt pipeline block.chain block.height ↔ block.time.toTimestamp ≠ Timestamp.zero)

/-- A higher block counts for the pipeline, or the time that the block brings can be read back if
and only if the one that is stored can. -/
def KeepsHighest (s : Store) (pipeline : Pipeline) (block : Block) : Prop :=
  (∃ height, block.height < height ∧ s.IndexedAt pipeline block.chain height) ∨
    ∀ stored ∈ s.blocks.entries, stored.row.chain = block.chain →
      stored.row.height = block.height → stored.row.IsIndexed pipeline →
      (block.time.toTimestamp.IsReadable ↔ stored.row.time.IsReadable)

variable {s t : Store} {pipeline : Pipeline} {chain : Id} {height : Int64}

theorem FlaggedAt.of_indexedAt (h : s.IndexedAt pipeline chain height) :
    s.FlaggedAt pipeline chain height := by
  obtain ⟨entry, hentry, hchain, hheight, hindexed⟩ := h
  exact ⟨entry, hentry, hchain, hheight, hindexed.1⟩

/-! ## The queries -/

/-- The highest height is told if its row can be read back. -/
theorem highestHeight_eq {highest : Entry BlockRow}
    (h : s.highestIndexed? pipeline chain = some highest) :
    s.highestHeight pipeline chain =
      if highest.row.time.IsReadable then .ok (some highest.row.height)
      else .error (.query .timeTooLarge) := by
  rw [highestHeight]
  split
  · next hread =>
    have honly : ∀ other, s.highestIndexed? pipeline chain = some other →
        other.row.time.IsReadable := by
      intro other hother
      cases h.symm.trans hother
      exact hread
    rw [highestIndexed_of_readable honly, h]
    rfl
  · next hunread =>
    rw [highestIndexed_of_not_readable h hunread]
    rfl

/-- Where the same heights count, the highest of them is the same. -/
theorem height_eq_of_highestIndexed?
    (hcounts : ∀ height, t.IndexedAt pipeline chain height ↔ s.IndexedAt pipeline chain height)
    {old new : Entry BlockRow} (hold : s.highestIndexed? pipeline chain = some old)
    (hnew : t.highestIndexed? pipeline chain = some new) : new.row.height = old.row.height := by
  obtain ⟨holdCounts, holdTop⟩ := le_of_highestIndexed? hold
  obtain ⟨hnewCounts, hnewTop⟩ := le_of_highestIndexed? hnew
  exact Int64.le_antisymm (holdTop _ ((hcounts _).1 hnewCounts))
    (hnewTop _ ((hcounts _).2 holdCounts))

/-- Where the same heights count and the highest rows can be read back alike, the same highest
height is told. -/
theorem highestHeight_congr
    (hcounts : ∀ height, t.IndexedAt pipeline chain height ↔ s.IndexedAt pipeline chain height)
    (hreadable : ∀ old new, s.highestIndexed? pipeline chain = some old →
      t.highestIndexed? pipeline chain = some new →
      (new.row.time.IsReadable ↔ old.row.time.IsReadable)) :
    t.highestHeight pipeline chain = s.highestHeight pipeline chain := by
  cases hold : s.highestIndexed? pipeline chain with
  | none =>
    have hnew : t.highestIndexed? pipeline chain = none := by
      cases hnew : t.highestIndexed? pipeline chain with
      | none => rfl
      | some new =>
        have hcount := (hcounts _).1 (le_of_highestIndexed? hnew).1
        exact absurd hcount (not_indexedAt_of_highestIndexed? hold _)
    rw [highestHeight, highestHeight, highestIndexed, highestIndexed, hold, hnew]
  | some old =>
    obtain ⟨new, hnew, _⟩ :=
      exists_highestIndexed? ((hcounts _).2 (le_of_highestIndexed? hold).1)
    have hheight := height_eq_of_highestIndexed? hcounts hold hnew
    rw [highestHeight_eq hold, highestHeight_eq hnew, hheight]
    simp only [hreadable old new hold hnew]

/-- What the scan tells depends on the heights that count and on the highest height that is told. -/
theorem answer_firstMissing_congr
    (hcounts : ∀ height, t.IndexedAt .txs chain height ↔ s.IndexedAt .txs chain height)
    (hhighest : t.highestHeight .txs chain = s.highestHeight .txs chain) (start stop : Int64)
    (log log' : List LogEvent) :
    (firstMissing chain start stop).answer ⟨t, log'⟩ =
      (firstMissing chain start stop).answer ⟨s, log⟩ := by
  have hanswer : ∀ (u : Store) (log : List LogEvent),
      (firstMissing chain start stop).answer ⟨u, log⟩ =
        (u.highestHeight .txs chain).map fun top =>
          (u.firstMissing? chain (gapScanRange start stop top).1
            (gapScanRange start stop top).2).getD (gapScanRange start stop top).1 := by
    intro u log
    rw [answer_firstMissing, highestHeight]
    cases u.highestIndexed .txs chain <;> rfl
  rw [hanswer, hanswer, hhighest]
  simp only [firstMissing?_congr hcounts]

/-! ## What the other pipeline stores -/

section Stored

variable {step : Step} {block : Block} {other : Pipeline}

/-- The heights that count for a pipeline are the same after the other one has stored a block that
does not disturb them. -/
theorem KeepsCount.indexedAt_next_iff (hs : s.Sound)
    (hstored : step.stored? = some (pipeline, block)) (hok : step.Succeeds s)
    (hother : other ≠ pipeline) (hkeeps : chain = block.chain → s.KeepsCount other block)
    (height : Int64) :
    (step.next s).IndexedAt other chain height ↔ s.IndexedAt other chain height := by
  rw [Step.indexedAt_next_iff hs hstored hok]
  split
  · next hown =>
    obtain ⟨rfl, rfl⟩ := hown
    have hcount := hkeeps rfl
    constructor
    · rintro ⟨hflagged, hdated⟩
      exact (hcount (hflagged.resolve_left hother)).2 hdated
    · intro hindexed
      have hflagged := FlaggedAt.of_indexedAt hindexed
      exact ⟨Or.inr hflagged, (hcount hflagged).1 hindexed⟩
  · exact Iff.rfl

/-- The highest row can be read back as before. -/
theorem KeepsHighest.isReadable_iff (hs : s.Sound)
    (hstored : step.stored? = some (pipeline, block)) (hok : step.Succeeds s)
    (hcounts : ∀ height,
      (step.next s).IndexedAt other chain height ↔ s.IndexedAt other chain height)
    (hkeeps : chain = block.chain → s.KeepsHighest other block) {old new : Entry BlockRow}
    (hold : s.highestIndexed? other chain = some old)
    (hnew : (step.next s).highestIndexed? other chain = some new) :
    new.row.time.IsReadable ↔ old.row.time.IsReadable := by
  have hheight := height_eq_of_highestIndexed? hcounts hold hnew
  obtain ⟨holdMem, holdChain, holdIndexed⟩ := mem_filter_indexed.1 (List.maxOn?_mem hold)
  obtain ⟨hnewMem, hnewChain, _⟩ := mem_filter_indexed.1 (List.maxOn?_mem hnew)
  have hnewFind := (step.keeps_next s hs).1.find?_block.2 ⟨hnewMem, hnewChain, hheight⟩
  by_cases hown : (⟨chain, old.row.height⟩ : Slot) = ⟨block.chain, block.height⟩
  · -- the block is stored at the highest height itself
    rw [Slot.mk.injEq] at hown
    obtain ⟨rfl, hownHeight⟩ := hown
    rw [hownHeight] at hnewFind
    obtain ⟨entry, hfind, hsettles⟩ := Moment.find?_stored (m := ⟨s, step⟩) hs ⟨hok, hstored⟩
    cases hnewFind.symm.trans hfind
    rw [(BlockRow.of_settles hsettles).2.1]
    rcases hkeeps rfl with ⟨higher, hlt, hcount⟩ | hreadable
    · have hle := (le_of_highestIndexed? hold).2 higher hcount
      rw [hownHeight] at hle
      exact absurd hlt (Int64.not_lt.2 hle)
    · exact hreadable old holdMem holdChain hownHeight holdIndexed
  · rw [Step.find?_block_next hs hstored hown,
      hs.find?_block.2 ⟨holdMem, holdChain, rfl⟩] at hnewFind
    cases hnewFind
    exact Iff.rfl

end Stored

/-- What one pipeline stores and the other is told, in every store that is reached. At the height of
the block that is stored the other pipeline counts it if it has seen to the height before and the
block brings a time that is known; at all other heights it counts what it counted. So if the time
has not become known or unknown for it, the same heights of every chain count, and if the highest of
them can be read back as before, the same highest height and the same missing heights are told. -/
theorem Reachable.pipelines_apart (h : s.Reachable) {step : Step} {pipeline other : Pipeline}
    {block : Block} (hstored : step.stored? = some (pipeline, block)) (hok : step.Succeeds s)
    (hother : other ≠ pipeline) :
    (∀ chain height, (step.next s).IndexedAt other chain height ↔
      if chain = block.chain ∧ height = block.height then
        s.FlaggedAt other chain height ∧ block.time.toTimestamp ≠ Timestamp.zero
      else s.IndexedAt other chain height) ∧
    ∀ chain, (chain = block.chain → s.KeepsCount other block) →
      (∀ height, (step.next s).IndexedAt other chain height ↔ s.IndexedAt other chain height) ∧
      ((chain = block.chain → s.KeepsHighest other block) →
        (step.next s).highestHeight other chain = s.highestHeight other chain ∧
        (other = .txs → ∀ start stop log log',
          (firstMissing chain start stop).answer ⟨step.next s, log'⟩ =
            (firstMissing chain start stop).answer ⟨s, log⟩)) := by
  refine ⟨fun chain height => ?_, fun chain hcount => ?_⟩
  · rw [Step.indexedAt_next_iff h.sound hstored hok]
    simp only [hother, false_or]
  · have hcounts := KeepsCount.indexedAt_next_iff h.sound hstored hok hother hcount
    refine ⟨hcounts, fun hhighest => ?_⟩
    have hsame : (step.next s).highestHeight other chain = s.highestHeight other chain :=
      highestHeight_congr hcounts fun old new hold hnew =>
        KeepsHighest.isReadable_iff h.sound hstored hok hcounts hhighest hold hnew
    refine ⟨hsame, ?_⟩
    rintro rfl start stop log log'
    exact answer_firstMissing_congr hcounts hsame start stop log log'

/-- The events of a block are indexed whose transactions have been stored with an earlier time. -/
theorem Reachable.pipelines_apart_of_later_time :
    let earlier : Instant := { Instant.zero with nano := 1000, nano_lt := by decide }
    let later : Instant := { Instant.zero with nano := 2000, nano_lt := by decide }
    let s := (∅ : Store).after [.registerChain ⟨"a-1", "A"⟩, .persist ⟨1, 5, earlier⟩ []]
    let step : Step := .markEventsIndexed ⟨1, 5, later⟩
    step.Succeeds s ∧
      (∀ height, (step.next s).IndexedAt .txs 1 height ↔ s.IndexedAt .txs 1 height) ∧
      (step.next s).highestHeight .txs 1 = s.highestHeight .txs 1 ∧
      ∀ start stop log log', (firstMissing 1 start stop).answer ⟨step.next s, log'⟩ =
        (firstMissing 1 start stop).answer ⟨s, log⟩ := by
  intro earlier later s step
  have hs : s.Reachable := Reachable.empty.after _
  have hok : step.Succeeds s := by decide +kernel
  have hstored : step.stored? = some (.events, ⟨1, 5, later⟩) := rfl
  have hcounts : s.IndexedAt .txs 1 5 := by decide +kernel
  have hcount : s.KeepsCount .txs ⟨1, 5, later⟩ := fun _ => iff_of_true hcounts (by decide)
  have hreadable : ∀ stored ∈ s.blocks.entries,
      (later.toTimestamp.IsReadable ↔ stored.row.time.IsReadable) := by decide +kernel
  obtain ⟨hsame, hanswers⟩ :=
    (hs.pipelines_apart hstored hok (by decide : Pipeline.txs ≠ .events)).2 1 fun _ => hcount
  obtain ⟨hhighest, hmissing⟩ := hanswers fun _ =>
    Or.inr fun stored hmem _ _ _ => hreadable stored hmem
  exact ⟨hok, hsame, hhighest, hmissing rfl⟩

/-- A block whose transactions have been stored as those of a placeholder starts to count for them
when its events are indexed with a time, and what is told about the transactions changes. -/
theorem Reachable.pipelines_apart_fails_of_placeholder :
    let time : Instant := { Instant.zero with nano := 1000, nano_lt := by decide }
    let s := (∅ : Store).after
      [.registerChain ⟨"a-1", "A"⟩, .persist (.placeholder 1 5) []]
    let step : Step := .markEventsIndexed ⟨1, 5, time⟩
    s.Reachable ∧ step.Succeeds s ∧
      s.highestHeight .txs 1 = .ok none ∧ (step.next s).highestHeight .txs 1 = .ok (some 5) ∧
      (firstMissing 1 5 5).answer ⟨s, []⟩ = .ok 5 ∧
      (firstMissing 1 5 5).answer ⟨step.next s, []⟩ = .ok 6 := by
  intro time s step
  refine ⟨Reachable.empty.after _, ?_⟩
  decide +kernel

end Store

end BlockArchive
