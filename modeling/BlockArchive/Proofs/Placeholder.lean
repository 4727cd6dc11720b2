import BlockArchive.Proofs.History.Block
import BlockArchive.Proofs.Store.Listing

/-!
# Placeholders as they are stored

A block is a placeholder if it carries the time that is not known. Its row is a placeholder if that
time is the stored one, and what is stored has lost all that is less than a microsecond. So there
are a few moments, all of them right before the year 1, that a block may carry without being a
placeholder and whose row is one.

## Main definitions

- `Instant.RoundsUpToZero`: the moments that are stored as the time that is not known

## Main statements

- `Instant.toTimestamp_eq_zero_iff`: the moments whose stored form is the time that is not known
- `Step.blocks_next`: the blocks after one has been stored, in any store
- `Store.stored_undated_iff`: the blocks whose rows are placeholders
-/

namespace BlockArchive

/-! ## Rounding -/

/-- The moment lies less than a microsecond before the year 1, or it is the beginning of the leap
second right before it. -/
def Instant.RoundsUpToZero (t : Instant) : Prop :=
  t.second = -1 ∧ if t.leap then t.nano = 0 else 999999000 < t.nano

instance (t : Instant) : Decidable t.RoundsUpToZero :=
  inferInstanceAs (Decidable (_ ∧ _))

/-- Below zero it is upwards that less than a thousand is cut off. -/
theorem tdiv_eq_neg_iff {a b : Int} (hb : 0 < b) :
    Int.tdiv a 1000 = -b ↔ -(1000 * (b + 1)) < a ∧ a ≤ -(1000 * b) := by
  by_cases ha : 0 ≤ a
  · have hnonneg := Int.tdiv_nonneg (b := 1000) ha (by decide)
    omega
  · have hneg : Int.tdiv a 1000 = -(-a / 1000) := by
      rw [← Int.tdiv_eq_ediv_of_nonneg (by omega), Int.neg_tdiv, Int.neg_neg]
    omega

/-- The beginning of the year 1 lies before the moment from which stored times are counted, so what
is cut off from an earlier time moves it up. -/
theorem Instant.toTimestamp_eq_zero_iff (t : Instant) :
    t.toTimestamp = Timestamp.zero ↔ t = zero ∨ t.RoundsUpToZero := by
  have hzero : Timestamp.zero = ⟨-63082281600000000⟩ := by decide
  have hepoch : Timestamp.epoch = 63082281600 := by decide
  rw [hzero, toTimestamp, hepoch, Timestamp.mk.injEq, tdiv_eq_neg_iff (by decide), Instant.ext_iff,
    RoundsUpToZero]
  have hnano := t.nano_lt
  have hleap := t.second_mod_of_leap
  cases h : t.leap <;> simp [zero, h] at * <;> omega

/-! ## The blocks after one has been stored -/

section Writing

variable {pipeline : Pipeline} {block : Block} {session after : Session}

theorem blocks_of_clearMarker {stage : Stage} {marker : MarkerRow}
    (h : WriteM.stage stage block (WriteM.query (clearMarker pipeline marker)) session =
      .ok () after) : after.store.blocks = session.store.blocks := by
  obtain ⟨hquery, _⟩ := WriteM.ok_of_query (WriteM.ok_of_onFailure h)
  obtain ⟨_, t, hclear, ht⟩ := ends_clearMarker pipeline marker session.store
  rw [hquery] at hclear
  cases hclear
  rw [ht]
  cases pipeline <;> rfl

theorem blocks_of_upsertOne {stage : Stage} {row : BlockRow} {id : Id}
    (h : WriteM.stage stage block (WriteM.query (Store.upsertOne .blocks row)) session =
      .ok id after) :
    after.store.blocks =
      (session.store.blocks.offer TableName.blocks.key TableName.blocks.refresh row).2 := by
  obtain ⟨hquery, _⟩ := WriteM.ok_of_query (WriteM.ok_of_onFailure h)
  rw [(Store.ok_of_upsertOne hquery).2]
  rfl

/-- What lies below a block is stored without touching the blocks. -/
theorem blocks_of_storeBelow {txs : List Tx} {blockId : Id}
    (h : Persist.storeBelow block txs blockId session = .ok () after) :
    after.store.blocks = session.store.blocks := by
  have hoffers : ∀ n ∈ [TableName.addresses, .txes, .messageTypes, .messages, .eventTypes, .events,
      .attributeKeys, .attributes], ∀ _ : n.Row, n ≠ .blocks := by
    rintro n hn - rfl
    simp at hn
  exact ((Store.statementRelation_leaves .blocks).storeBelow hoffers block txs blockId).of_ok h

end Writing

/-- A step that stores a block offers its row to the blocks, and there is no other change to
them. -/
theorem Step.blocks_next {s : Store} {step : Step} {pipeline : Pipeline} {block : Block}
    (hstored : step.stored? = some (pipeline, block)) (hok : step.Succeeds s) :
    (step.next s).blocks =
      (s.blocks.offer TableName.blocks.key TableName.blocks.refresh (block.row pipeline)).2 := by
  cases step with
  | persist block' txs =>
    cases hstored
    obtain ⟨_, after, hpart, hnext⟩ := (does_persist block txs).exists_ok hok
    obtain ⟨_, middle, htransaction, hlog⟩ := exists_of_bind hpart
    have hstages := WriteM.ok_of_transaction htransaction
    obtain ⟨_, cleared, hclear, hrest⟩ := exists_of_bind hstages
    obtain ⟨blockId, written, hblock, hbelow⟩ := exists_of_bind hrest
    cases hlog
    rw [hnext]
    show middle.store.blocks = _
    rw [blocks_of_storeBelow hbelow, blocks_of_upsertOne hblock, blocks_of_clearMarker hclear]
  | markEventsIndexed block' =>
    cases hstored
    obtain ⟨_, after, hpart, hnext⟩ := (does_markEventsIndexed block).exists_ok hok
    obtain ⟨_, middle, htransaction, hlog⟩ := exists_of_bind hpart
    obtain ⟨_, cleared, hclear, hrest⟩ := exists_of_bind (WriteM.ok_of_transaction htransaction)
    obtain ⟨blockId, written, hblock, hend⟩ := exists_of_bind hrest
    cases hend
    cases hlog
    rw [hnext]
    show middle.store.blocks = _
    rw [blocks_of_upsertOne hblock, blocks_of_clearMarker hclear]
  | _ => cases hstored

namespace Store

variable {s : Store} {step : Step} {pipeline : Pipeline} {block : Block}

/-- A block that has been stored is found with its own time, whatever else the store holds. -/
theorem exists_stored (hstored : step.stored? = some (pipeline, block)) (hok : step.Succeeds s) :
    ∃ entry, (step.next s).find? .blocks (.slot ⟨block.chain, block.height⟩) = some entry ∧
      s.blocks.Settles TableName.blocks.key TableName.blocks.refresh (block.row pipeline)
        entry := by
  have hfind := s.blocks.find?_offer_self TableName.blocks.keepsKey_refresh (block.row pipeline)
  rw [← Step.blocks_next hstored hok] at hfind
  exact ⟨_, hfind, s.blocks.settles_offer _ _ _⟩

/-- In any store the row of a block that has been stored is a placeholder if the block was one, or
if its time lies so close before the one that is not known that it is stored as this. The row has
the flag of the pipeline. The list of dated blocks has it unless it is a placeholder, and so the
height counts for the pipelines whose flags the row has. -/
theorem stored_undated_iff (s : Store) {step : Step} {pipeline : Pipeline} {block : Block}
    (hstored : step.stored? = some (pipeline, block)) (hok : step.Succeeds s) :
    ∃ entry, (step.next s).find? .blocks (.slot ⟨block.chain, block.height⟩) = some entry ∧
      (¬ entry.row.IsDated ↔ block.IsPlaceholder ∨ block.time.RoundsUpToZero) ∧
      entry.row.flag pipeline = true ∧
      (∀ start stop, entry ∈ (step.next s).datedBlocks block.chain start stop ↔
        start ≤ block.height ∧ entry.row.IsDated ∧ stop.all fun bound => block.height ≤ bound) ∧
      (s.blocks.Keyed TableName.blocks.key → ∀ other,
        (step.next s).IndexedAt other block.chain block.height ↔
          entry.row.flag other = true ∧ entry.row.IsDated) := by
  obtain ⟨entry, hfind, hsettles⟩ := exists_stored hstored hok
  obtain ⟨hslot, htime, hflag⟩ := BlockRow.of_settles hsettles
  obtain ⟨hmem, _⟩ := Store.mem_of_find? hfind
  have hchain : entry.row.chain = block.chain := congrArg Slot.parent hslot
  have hheight : entry.row.height = block.height := congrArg Slot.index hslot
  refine ⟨entry, hfind, ?_, (hflag pipeline).2 (Or.inl rfl), fun start stop => ?_,
    fun hkeyed other => ?_⟩
  · rw [BlockRow.IsDated, not_not, htime]
    exact block.time.toTimestamp_eq_zero_iff
  · have hmem : entry ∈ (step.next s).blocks.entries := hmem
    simp [datedBlocks, hmem, hchain, hheight]
  · have hnext : (step.next s).blocks.Keyed TableName.blocks.key := by
      rw [Step.blocks_next hstored hok]
      exact hkeyed.offer TableName.blocks.keepsKey_refresh _
    constructor
    · rintro ⟨found, hfound, hchain', hheight', hindexed⟩
      have hkey : TableName.blocks.key found.row = TableName.blocks.key entry.row := by
        rw [TableName.key, TableName.key, BlockRow.slot, hchain', hheight', hslot]
      rwa [← hnext.eq_of_key hfound hmem hkey]
    · exact fun hindexed => ⟨entry, hmem, hchain, hheight, hindexed⟩

/-- The beginning of the leap second right before the year 1 takes the place of a time that is
known. -/
theorem stored_undated_iff_of_leap :
    let known : Instant := { Instant.zero with nano := 1000, nano_lt := by decide }
    let leap : Instant := ⟨-1, 0, true, by decide, by decide, by decide, by decide⟩
    let s := (∅ : Store).after [.registerChain ⟨"a-1", "A"⟩, .persist ⟨1, 5, known⟩ []]
    let step : Step := .markEventsIndexed ⟨1, 5, leap⟩
    step.Succeeds s ∧
      ∃ entry, (step.next s).find? .blocks (.slot ⟨1, 5⟩) = some entry ∧ ¬ entry.row.IsDated ∧
        entry.row.flag .events = true ∧
        ∀ start stop, entry ∉ (step.next s).datedBlocks 1 start stop := by
  intro known leap s step
  have hok : step.Succeeds s := by decide +kernel
  have hstored : step.stored? = some (.events, ⟨1, 5, leap⟩) := rfl
  obtain ⟨entry, hfind, hundated, hflag, hlisted, _⟩ := stored_undated_iff s hstored hok
  have hplaceholder := hundated.2 (Or.inr (by decide))
  exact ⟨hok, entry, hfind, hplaceholder, hflag, fun start stop hmem =>
    hplaceholder ((hlisted start stop).1 hmem).2.1⟩

/-- A block that is no placeholder, a tenth of a microsecond before the year 1, is stored as one. -/
theorem stored_undated_fails_of_fraction :
    let block : Block :=
      ⟨1, 5, ⟨-1, 999999900, false, by decide, by decide, by decide, by decide⟩⟩
    let s := (Step.registerChain ⟨"a-1", "A"⟩).next ∅
    (Step.markEventsIndexed block).Succeeds s ∧ ¬ block.IsPlaceholder ∧
      ∃ entry, ((Step.markEventsIndexed block).next s).find? .blocks (.slot ⟨1, 5⟩) = some entry ∧
        ¬ entry.row.IsDated := by
  intro block s
  have hok : (Step.markEventsIndexed block).Succeeds s := by decide +kernel
  obtain ⟨entry, hfind, hsettles⟩ := exists_stored rfl hok
  refine ⟨hok, by decide, entry, hfind, ?_⟩
  rw [BlockRow.IsDated, not_not, (BlockRow.of_settles hsettles).2.1]
  decide

end Store

end BlockArchive
