import BlockArchive.Gap
import BlockArchive.Proofs.Effects
import BlockArchive.Proofs.History.Identity
import BlockArchive.Proofs.Removal

/-!
# The history of a height

The row of a block is made by the steps that see to its height and by nothing else: the first of
them brings it, each of them sets the flag of its pipeline and leaves the other alone, and the
latest gives the time. As long as the chain is there the row is never taken out.

## Main definitions

- `Step.stored?`: the block that a step stores, and for which pipeline
- `Moment.Stores`, `Moment.SeesTo`: a step sees to a block, or to a height of a chain
- `BlockRow.Tells`, `FoundTells`: what a height tells about the moments of a run

## Main statements

- `Moment.find?_stored`, `Moment.find?_unseen`: the row of a height after one step
- `FoundTells.concat_seen`, `FoundTells.concat_unseen`: what the height tells after one step
- `Store.foundTells_after`: what it tells after a run
- `Store.block_follows_history`: the block rows of a run
-/

namespace BlockArchive

open Persist

/-- The block that the step stores, and the pipeline that has seen to it. -/
def Step.stored? : Step → Option (Pipeline × Block)
  | persist block _ => some (.txs, block)
  | markEventsIndexed block => some (.events, block)
  | _ => none

namespace Moment

/-- The step stores that the pipeline has seen to the block, and succeeds. -/
def Stores (m : Moment) (pipeline : Pipeline) (block : Block) : Prop :=
  m.Succeeds ∧ m.step.stored? = some (pipeline, block)

/-- The step succeeds in storing that the pipeline has seen to the height of the chain. -/
def SeesTo (m : Moment) (pipeline : Pipeline) (chain : Id) (height : Int64) : Prop :=
  ∃ block, m.Stores pipeline block ∧ block.chain = chain ∧ block.height = height

variable {m : Moment} {pipeline : Pipeline} {block : Block} {chain : Id} {height : Int64}

/-- A step sees to blocks for one pipeline only. -/
theorem Stores.pipeline_eq {other : Pipeline} {block' : Block} (h : m.Stores pipeline block)
    (h' : m.Stores other block') : other = pipeline := by
  have hsame := h'.2.symm.trans h.2
  cases hsame
  rfl

/-- The block of a step that sees to it settles in its row. -/
theorem find?_stored (hs : m.store.Sound) (h : m.Stores pipeline block) :
    ∃ entry, m.next.find? .blocks (.slot ⟨block.chain, block.height⟩) = some entry ∧
      m.store.blocks.Settles TableName.blocks.key TableName.blocks.refresh (block.row pipeline)
        entry := by
  obtain ⟨s, step⟩ := m
  obtain ⟨hok, hstored⟩ := h
  cases step with
  | persist block' txs =>
    cases hstored
    exact (Step.stored_of_succeeds hs hok).settles hs (by decide) (mem_written_block _ _ _)
  | markEventsIndexed block' =>
    cases hstored
    obtain ⟨_, after, hafter, hnext⟩ := (Step.does_markEventsIndexed block).of_succeeds
      (ends_markEventsIndexed hs block rfl) hok
    have hnext : next ⟨s, .markEventsIndexed block⟩ = s.withEvents block := hnext.trans hafter
    rw [hnext]
    exact ⟨_, Store.find?_offer_singleton (hs.unmarked .events block.marker) .blocks _,
      Table.settles_offer s.blocks _ _ _⟩
  | _ => cases hstored

end Moment

/-- The id of a chain that has been taken out names nothing any more. -/
theorem Step.spent_removeChain {s : Store} (hs : s.Sound) {chainId : String} {chain : Entry Chain}
    (hchain : s.findChain? chainId = some chain) :
    ((removeChain chainId).next s).Spent .chains chain.id := by
  have hwithout := next_removeChain hs hchain
  refine ⟨?_, fun hrows => ?_⟩
  · rw [hwithout.nextId]
    exact (hs.keyed .chains).lt_nextId (Table.mem_of_find? hchain).1
  · obtain ⟨entry, hentry, hid⟩ := Table.mem_rows_iff.1 hrows
    exact ((hwithout.mem_entries .chains entry).1 hentry).2 hid

/-- A writing step that fails leaves what is stored under a key. -/
theorem Step.find?_next_of_fails {s : Store} {step : Step} (hw : step.Writes)
    (hfails : ¬ step.Succeeds s) (n : TableName) (k : Key) :
    (step.next s).find? n k = s.find? n k := by
  have hrows := rows_next hw hfails n
  simp only [Store.find?, Table.find?, Table.entries, hrows]

namespace Moment

variable {chain : Id} {height : Int64}

/-- The row of a height stays as it is if the step does not see to it, as long as the chain is
there. -/
theorem find?_unseen {m : Moment} (hs : m.store.Sound) (hlasts : ¬ m.next.Spent .chains chain)
    (h : ∀ pipeline, ¬ m.SeesTo pipeline chain height) :
    m.next.find? .blocks (.slot ⟨chain, height⟩) =
      m.store.find? .blocks (.slot ⟨chain, height⟩) := by
  obtain ⟨s, step⟩ := m
  by_cases hfails : step.Writes ∧ ¬ step.Succeeds s
  · exact Step.find?_next_of_fails hfails.1 hfails.2 _ _
  · -- a block that is stored lies elsewhere, and so does one that goes with a chain
    rw [not_and, not_not] at hfails
    apply Step.find?_next hs
    · intro row hrow hkey
      cases step with
      | persist block txs =>
        cases hrow
        cases hkey
        exact h .txs ⟨block, ⟨hfails trivial, rfl⟩, rfl, rfl⟩
      | markEventsIndexed block =>
        cases hrow
        cases hkey
        exact h .events ⟨block, ⟨hfails trivial, rfl⟩, rfl, rfl⟩
      | upsertDenoms | upsertIbcDenoms => simp [Step.Offers] at hrow
      | _ => exact hrow
    · intro entry hentry hkey htakes
      cases step with
      | removeChain chainId =>
        obtain ⟨removed, hremoved, hbelongs⟩ := htakes
        have hchain : entry.row.chain = removed.id :=
          of_decide_eq_true ((Table.mem_idsWhere hentry).1 hbelongs)
        cases hkey
        rw [hchain] at hlasts
        exact hlasts (Step.spent_removeChain hs hremoved)
      | _ => exact htakes

end Moment

/-! ## What a run leaves at a height -/

namespace BlockRow

/-- What the row of a height tells about the moments of a run. -/
structure Tells (row : BlockRow) (history : List Moment) (chain : Id) (height : Int64) : Prop where
  /-- A flag tells whether the pipeline has seen to the height. -/
  flag : ∀ pipeline, row.flag pipeline = true ↔ ∃ m ∈ history, m.SeesTo pipeline chain height
  /-- The time is that of the last block of the height. -/
  time : ∃ m pipeline block,
    IsLatest (fun m => ∃ pipeline, m.SeesTo pipeline chain height) m history ∧
      m.Stores pipeline block ∧ row.time = block.time.toTimestamp

theorem flag_row (block : Block) (pipeline other : Pipeline) :
    (block.row pipeline).flag other = true ↔ other = pipeline := by
  cases other <;> simp [Block.row, flag, eq_comm]

theorem flag_refresh (stored offered : BlockRow) (pipeline : Pipeline) :
    BlockRow.flag (TableName.blocks.refresh stored offered) pipeline = true ↔
      stored.flag pipeline = true ∨ offered.flag pipeline = true := by
  cases pipeline <;> exact Bool.or_eq_true_iff

/-- A block that settles lies at its height and has its time, and its pipeline is added to those that
have seen to the height. -/
theorem of_settles {t : Table BlockRow} {pipeline : Pipeline} {block : Block}
    {entry : Entry BlockRow}
    (h : t.Settles TableName.blocks.key TableName.blocks.refresh (block.row pipeline) entry) :
    entry.row.slot = ⟨block.chain, block.height⟩ ∧ entry.row.time = block.time.toTimestamp ∧
      ∀ other, entry.row.flag other = true ↔ other = pipeline ∨
        ∃ stored, t.find? TableName.blocks.key (.slot ⟨block.chain, block.height⟩) = some stored ∧
          stored.row.flag other = true := by
  cases hfind : t.find? TableName.blocks.key (.slot ⟨block.chain, block.height⟩) with
  | none =>
    rw [(h.of_find?_none hfind).2]
    refine ⟨rfl, rfl, fun other => ?_⟩
    rw [flag_row]
    simp
  | some stored =>
    rw [h.of_find? hfind]
    refine ⟨Key.slot.inj (Table.mem_of_find? hfind).2, rfl, fun other => ?_⟩
    rw [flag_refresh, flag_row, or_comm]
    simp

variable {row : BlockRow} {history : List Moment} {m : Moment} {chain : Id} {height : Int64}

/-- A moment that does not see to the height tells nothing about it. -/
theorem Tells.concat_unseen (h : row.Tells history chain height)
    (hunseen : ∀ pipeline, ¬ m.SeesTo pipeline chain height) :
    row.Tells (history ++ [m]) chain height where
  flag pipeline := by
    rw [h.flag]
    simp [or_and_right, exists_or, hunseen]
  time := by
    obtain ⟨latest, pipeline, block, hlatest, hstores, htime⟩ := h.time
    have hnone : ¬ ∃ pipeline, m.SeesTo pipeline chain height := fun ⟨p, hp⟩ => hunseen p hp
    exact ⟨latest, pipeline, block, isLatest_concat.2 (Or.inr ⟨hnone, hlatest⟩), hstores, htime⟩

/-- A moment that sees to the height tells the time and sets the flag of its pipeline. -/
theorem tells_concat {pipeline : Pipeline} {block : Block} (hstores : m.Stores pipeline block)
    (hflag : ∀ other, row.flag other = true ↔
      (∃ m ∈ history, m.SeesTo other block.chain block.height) ∨ other = pipeline)
    (htime : row.time = block.time.toTimestamp) :
    row.Tells (history ++ [m]) block.chain block.height where
  flag other := by
    have hseen : m.SeesTo other block.chain block.height ↔ other = pipeline := by
      constructor
      · rintro ⟨_, hother, _⟩
        exact hstores.pipeline_eq hother
      · rintro rfl
        exact ⟨block, hstores, rfl, rfl⟩
    rw [hflag]
    simp [or_and_right, exists_or, hseen]
  time := ⟨m, pipeline, block,
    isLatest_concat.2 (Or.inl ⟨⟨pipeline, block, hstores, rfl, rfl⟩, rfl⟩), hstores, htime⟩

end BlockRow

/-- What is found at a height tells the moments of a run: without a row no pipeline has seen to
it. -/
def FoundTells (history : List Moment) (chain : Id) (height : Int64) :
    Option (Entry BlockRow) → Prop
  | none => ∀ m ∈ history, ∀ pipeline, ¬ m.SeesTo pipeline chain height
  | some entry => entry.row.Tells history chain height

namespace FoundTells

variable {history : List Moment} {m : Moment} {chain : Id} {height : Int64}

/-- After a step that sees to the height. -/
theorem concat_seen (hs : m.store.Sound) {pipeline : Pipeline} {block : Block}
    (hstores : m.Stores pipeline block)
    (h : FoundTells history block.chain block.height
      (m.store.find? .blocks (.slot ⟨block.chain, block.height⟩))) :
    FoundTells (history ++ [m]) block.chain block.height
      (m.next.find? .blocks (.slot ⟨block.chain, block.height⟩)) := by
  obtain ⟨entry, hfind, hsettles⟩ := Moment.find?_stored hs hstores
  rw [hfind]
  cases hstored : m.store.find? .blocks (.slot ⟨block.chain, block.height⟩) with
  | none =>
    rw [hstored] at h
    have hrow : entry.row = block.row pipeline := (hsettles.of_find?_none hstored).2
    refine BlockRow.tells_concat hstores (fun other => ?_) (by rw [hrow]; rfl)
    rw [hrow, BlockRow.flag_row]
    exact ⟨Or.inr, fun hor => hor.resolve_left fun ⟨m, hm, hsees⟩ => h m hm other hsees⟩
  | some stored =>
    rw [hstored] at h
    rw [hsettles.of_find? hstored]
    refine BlockRow.tells_concat hstores (fun other => ?_) rfl
    rw [BlockRow.flag_refresh, BlockRow.flag_row, h.flag]

/-- After a step that does not. -/
theorem concat_unseen (hunseen : ∀ pipeline, ¬ m.SeesTo pipeline chain height)
    {found : Option (Entry BlockRow)} (h : FoundTells history chain height found) :
    FoundTells (history ++ [m]) chain height found := by
  cases found with
  | none =>
    intro other hother
    rcases List.mem_append.1 hother with hother | hother
    · exact h other hother
    · cases List.mem_singleton.1 hother
      exact hunseen
  | some entry => exact BlockRow.Tells.concat_unseen h hunseen

end FoundTells

namespace Store

variable {steps : List Step} {chain : Id} {height : Int64}

theorem Sound.find?_block {s : Store} (hs : s.Sound) {entry : Entry BlockRow} :
    s.find? .blocks (.slot ⟨chain, height⟩) = some entry ↔
      entry ∈ s.blocks.entries ∧ entry.row.chain = chain ∧ entry.row.height = height := by
  rw [hs.find?_eq_some]
  simp [get, TableName.key, BlockRow.slot]

/-- As long as the chain is there, what is found at a height tells the moments of the run. -/
theorem foundTells_after (height : Int64)
    (hlasts : ¬ ((∅ : Store).after steps).Spent .chains chain) :
    FoundTells ((∅ : Store).history steps) chain height
      (((∅ : Store).after steps).find? .blocks (.slot ⟨chain, height⟩)) := by
  induction steps using List.reverseRecOn with
  | nil =>
    intro m hm
    cases hm
  | append_singleton steps step ih =>
    have hs := (Reachable.empty.after steps).sound
    have hbefore := ih (Reachable.empty.not_spent_of_append hlasts)
    rw [after_concat] at hlasts ⊢
    rw [history_concat]
    by_cases hseen : ∃ pipeline, Moment.SeesTo ⟨(∅ : Store).after steps, step⟩ pipeline chain height
    · obtain ⟨pipeline, block, hstores, rfl, rfl⟩ := hseen
      exact FoundTells.concat_seen hs hstores hbefore
    · have hunseen := not_exists.1 hseen
      rw [Moment.find?_unseen hs hlasts hunseen]
      exact FoundTells.concat_unseen hunseen hbefore

/-- A height to which a pipeline has seen has a row. -/
theorem exists_block_of_seen (hlasts : ¬ ((∅ : Store).after steps).Spent .chains chain)
    (hseen : ∃ m ∈ (∅ : Store).history steps, ∃ pipeline, m.SeesTo pipeline chain height) :
    ∃ entry, ((∅ : Store).after steps).find? .blocks (.slot ⟨chain, height⟩) = some entry := by
  obtain ⟨m, hm, pipeline, hsees⟩ := hseen
  have htold := foundTells_after height hlasts
  cases hfind : ((∅ : Store).after steps).find? .blocks (.slot ⟨chain, height⟩) with
  | none =>
    rw [hfind] at htold
    exact absurd hsees (htold m hm pipeline)
  | some entry => exact ⟨entry, rfl⟩

/-- As long as the chain is there, the row of a height keeps its id. -/
theorem Sound.id_block_after {s : Store} (hs : s.Sound)
    (hlasts : ¬ (s.after steps).Spent .chains chain) {old : Entry BlockRow}
    (hold : s.find? .blocks (.slot ⟨chain, height⟩) = some old) :
    ∃ entry, (s.after steps).find? .blocks (.slot ⟨chain, height⟩) = some entry ∧
      entry.id = old.id := by
  induction steps generalizing s old with
  | nil => exact ⟨old, hold, rfl⟩
  | cons step rest ih =>
    have hnext := (step.keeps_next s hs).1
    have hlastsNext : ¬ (Moment.next ⟨s, step⟩).Spent .chains chain :=
      fun hspent => hlasts (Store.Spent.after hnext hspent rest)
    by_cases hseen : ∃ pipeline, Moment.SeesTo ⟨s, step⟩ pipeline chain height
    · obtain ⟨pipeline, block, hstores, rfl, rfl⟩ := hseen
      obtain ⟨entry, hfind, hsettles⟩ := Moment.find?_stored hs hstores
      obtain ⟨last, hlast, hid⟩ := ih hnext hlasts hfind
      refine ⟨last, hlast, ?_⟩
      rw [hid, hsettles.of_find? hold]
    · have hsame := Moment.find?_unseen hs hlastsNext (not_exists.1 hseen)
      exact ih hnext hlasts (hsame.trans hold)

/-- The block rows of a run, for every chain that is there at its end and every height. There is a
row exactly if a pipeline has seen to the height. It has the flag of a pipeline exactly if this
pipeline has, and the time of the latest block, and since the first of them it has had the same
id. -/
theorem block_follows_history (steps : List Step) {chain : Id}
    (h : chain ∈ ((∅ : Store).after steps).chains.rows) (height : Int64) :
    let s := (∅ : Store).after steps
    let history := (∅ : Store).history steps
    ((∃ entry ∈ s.blocks.entries, entry.row.chain = chain ∧ entry.row.height = height) ↔
      ∃ m ∈ history, ∃ pipeline, m.SeesTo pipeline chain height) ∧
    ∀ entry ∈ s.blocks.entries, entry.row.chain = chain → entry.row.height = height →
      (entry.row.txIndexed = true ↔ ∃ m ∈ history, m.SeesTo .txs chain height) ∧
      (entry.row.eventsIndexed = true ↔ ∃ m ∈ history, m.SeesTo .events chain height) ∧
      (∃ m pipeline block,
        IsLatest (fun m => ∃ pipeline, m.SeesTo pipeline chain height) m history ∧
          m.Stores pipeline block ∧ entry.row.time = block.time.toTimestamp) ∧
      ∀ earlier later, steps = earlier ++ later →
        (∃ m ∈ (∅ : Store).history earlier, ∃ pipeline, m.SeesTo pipeline chain height) →
        ∃ old ∈ ((∅ : Store).after earlier).blocks.entries,
          old.id = entry.id ∧ old.row.chain = chain ∧ old.row.height = height := by
  intro s history
  have hs : s.Sound := (Reachable.empty.after steps).sound
  have hlasts : ¬ s.Spent .chains chain := fun hspent => hspent.2 h
  have htells : ∀ entry ∈ s.blocks.entries, entry.row.chain = chain → entry.row.height = height →
      entry.row.Tells history chain height := by
    intro entry hentry hchain hheight
    have htold := foundTells_after height hlasts
    rwa [hs.find?_block.2 ⟨hentry, hchain, hheight⟩] at htold
  refine ⟨⟨?_, fun hseen => ?_⟩, fun entry hentry hchain hheight => ?_⟩
  · rintro ⟨entry, hentry, hchain, hheight⟩
    obtain ⟨m, _, _, hlatest, _⟩ := (htells entry hentry hchain hheight).time
    exact ⟨m, hlatest.mem, hlatest.1⟩
  · obtain ⟨entry, hfind⟩ := exists_block_of_seen hlasts hseen
    exact ⟨entry, hs.find?_block.1 hfind⟩
  · have htold := htells entry hentry hchain hheight
    refine ⟨htold.flag .txs, htold.flag .events, htold.time, ?_⟩
    rintro earlier later rfl hseen
    have hsearlier := (Reachable.empty.after earlier).sound
    obtain ⟨old, hold⟩ := exists_block_of_seen (Reachable.empty.not_spent_of_append hlasts) hseen
    have hend : s = ((∅ : Store).after earlier).after later := after_append _ _ _
    have hfind := hs.find?_block.2 ⟨hentry, hchain, hheight⟩
    rw [hend] at hlasts hfind
    obtain ⟨last, hlast, hid⟩ := hsearlier.id_block_after hlasts hold
    cases hfind.symm.trans hlast
    exact ⟨old, (hsearlier.find?_block.1 hold).1, hid.symm, (hsearlier.find?_block.1 hold).2⟩

/-- The events of a block are indexed, its transactions cannot be stored, and then they can. -/
theorem block_follows_history_of_both_pipelines :
    let dated : Instant := { Instant.zero with nano := 1000, nano_lt := by decide }
    let broken : Tx := { Tx.new "h1" 0 none [⟨"vote", 0, []⟩] with messageTypes := ∅ }
    let steps : List Step :=
      [.registerChain ⟨"a-1", "A"⟩, .markEventsIndexed ⟨1, 7, Instant.zero⟩,
        .persist ⟨1, 7, Instant.zero⟩ [broken], .persist ⟨1, 7, dated⟩ []]
    let entry : Entry BlockRow := ⟨1, ⟨7, 1, dated.toTimestamp, true, true⟩⟩
    1 ∈ ((∅ : Store).after steps).chains.rows ∧
      entry ∈ ((∅ : Store).after steps).blocks.entries ∧
      (∃ m ∈ (∅ : Store).history steps, m.SeesTo .txs 1 7) ∧
      (∃ m ∈ (∅ : Store).history steps, m.SeesTo .events 1 7) ∧
      ∃ m pipeline block,
        IsLatest (fun m => ∃ pipeline, m.SeesTo pipeline 1 7) m ((∅ : Store).history steps) ∧
          m.Stores pipeline block ∧ dated.toTimestamp = block.time.toTimestamp := by
  intro dated broken steps entry
  have hchain : 1 ∈ ((∅ : Store).after steps).chains.rows := by decide +kernel
  have hentry : entry ∈ ((∅ : Store).after steps).blocks.entries := by decide +kernel
  obtain ⟨htxs, hevents, htime, _⟩ :=
    (block_follows_history steps hchain 7).2 entry hentry rfl rfl
  exact ⟨hchain, hentry, htxs.1 rfl, hevents.1 rfl, htime⟩

end Store

end BlockArchive
