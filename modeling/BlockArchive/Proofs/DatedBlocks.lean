import BlockArchive.Proofs.Gap
import BlockArchive.Proofs.Store.Listing

/-!
# The dated blocks of a chain

The blocks of a chain whose time is known are a list in the order of the heights, and the queries
about gaps are views of this one list: the blocks of a range are a part of it, the highest block
that counts for a pipeline is the last of those with its flag, and a height is indexed if one of
them stands at it. A query tells what it has found only if all of it can be read back.

## Main definitions

- `BlockRow.IsIn`: the height of a block lies in a range

## Main statements

- `Store.mem_datedBlocks`, `Store.Sound.pairwise_datedBlocks`: the list of dated blocks
- `Store.Sound.datedBlocks_eq_filter`, `Store.Sound.datedBlocks_append`: the blocks of a range
- `Store.Sound.highestIndexed?_eq_getLast?`: the highest block that counts
- `Store.Reachable.queries_view_dated`: the queries about gaps are views of one list
- `Store.queries_view_dated_fails_of_last_leap`: a list that cannot be read back
-/

namespace BlockArchive

/-- The height of the block lies between `start` and `stop`, if there is an end. -/
def BlockRow.IsIn (row : BlockRow) (start : Int64) (stop : Option Int64) : Prop :=
  start ≤ row.height ∧ stop.all fun bound => row.height ≤ bound

instance (row : BlockRow) (start : Int64) (stop : Option Int64) : Decidable (row.IsIn start stop) :=
  inferInstanceAs (Decidable (_ ∧ _))

namespace TableName

theorem read_of_readable {entry : Entry BlockRow} (h : entry.row.time.IsReadable) :
    blocks.read entry = .ok entry := by
  simp only [read, unreadable?, if_pos h]

theorem read_of_not_readable {entry : Entry BlockRow} (h : ¬ entry.row.time.IsReadable) :
    blocks.read entry = .error (.query .timeTooLarge) := by
  simp only [read, unreadable?, if_neg h]

/-- Blocks are told if all of them can be read back. -/
theorem readAll_eq (entries : List (Entry BlockRow)) :
    blocks.readAll entries =
      if ∀ entry ∈ entries, entry.row.time.IsReadable then .ok entries
      else .error (.query .timeTooLarge) := by
  induction entries with
  | nil => rfl
  | cons entry rest ih =>
    rw [readAll, List.mapM_cons, ← readAll]
    simp only [List.forall_mem_cons]
    by_cases hentry : entry.row.time.IsReadable
    · rw [read_of_readable hentry, ih]
      by_cases hrest : ∀ entry ∈ rest, entry.row.time.IsReadable
      · rw [if_pos hrest, if_pos ⟨hentry, hrest⟩]
        rfl
      · rw [if_neg hrest, if_neg fun h => hrest h.2]
        rfl
    · rw [read_of_not_readable hentry, if_neg fun h => hentry h.1]
      rfl

/-- A block is told if it can be read back. -/
theorem readOption_eq (entry : Option (Entry BlockRow)) :
    blocks.readOption entry =
      if ∀ found ∈ entry, found.row.time.IsReadable then .ok entry
      else .error (.query .timeTooLarge) := by
  cases entry with
  | none => rfl
  | some entry =>
    rw [readOption, Option.mapM_some]
    by_cases h : entry.row.time.IsReadable
    · rw [read_of_readable h, if_pos (by simpa using h)]
      rfl
    · rw [read_of_not_readable h, if_neg (by simpa using h)]
      rfl

/-- Rows that are read one part after the other are read together. -/
theorem readAll_append (entries more : List (Entry BlockRow)) :
    (do return (← blocks.readAll entries) ++ (← blocks.readAll more)) =
      blocks.readAll (entries ++ more) := by
  rw [readAll, readAll, readAll, List.mapM_append]

end TableName

namespace Store

variable {s : Store} {chain : Id} {start : Int64} {stop : Option Int64} {entry : Entry BlockRow}

/-! ## The list -/

theorem mem_datedBlocks :
    entry ∈ s.datedBlocks chain start stop ↔
      entry ∈ s.blocks.entries ∧ entry.row.chain = chain ∧ entry.row.IsDated ∧
        entry.row.IsIn start stop := by
  rw [datedBlocks, Table.mem_listed, decide_eq_true_eq, BlockRow.IsIn]
  tauto

theorem minValue_le (height : Int64) : Int64.minValue ≤ height :=
  Int64.le_iff_toInt_le.2 height.minValue_le_toInt

/-- All dated blocks of a chain. -/
theorem mem_allDated :
    entry ∈ s.datedBlocks chain Int64.minValue none ↔
      entry ∈ s.blocks.entries ∧ entry.row.chain = chain ∧ entry.row.IsDated := by
  rw [mem_datedBlocks]
  have hin : entry.row.IsIn Int64.minValue none := ⟨minValue_le _, rfl⟩
  simp only [hin, and_true]

namespace Sound

variable (hs : s.Sound)

include hs

/-- No two dated blocks of a chain share their height, so they are listed in strictly ascending
order. -/
theorem pairwise_datedBlocks (chain : Id) (start : Int64) (stop : Option Int64) :
    (s.datedBlocks chain start stop).Pairwise fun a b => a.row.height < b.row.height := by
  apply Table.pairwise_listed
  intro a ha b hb hwanted hwanted' hheight
  rw [decide_eq_true_eq] at hwanted hwanted'
  apply (hs.keyed .blocks).eq_of_key ha hb
  rw [TableName.key, TableName.key, BlockRow.slot, BlockRow.slot, hwanted.1, hwanted'.1, hheight]

/-- The blocks of a range are those of the list whose heights lie in it. -/
theorem datedBlocks_eq_filter (chain : Id) (start : Int64) (stop : Option Int64) :
    s.datedBlocks chain start stop =
      (s.datedBlocks chain Int64.minValue none).filter fun entry => entry.row.IsIn start stop := by
  refine Table.eq_of_ascending (hs.pairwise_datedBlocks chain start stop)
    ((hs.pairwise_datedBlocks chain _ _).filter _) fun entry => ?_
  rw [List.mem_filter, decide_eq_true_eq, mem_allDated, mem_datedBlocks, and_assoc, and_assoc]

/-- The blocks up to a height and those above it are the blocks of the whole range. -/
theorem datedBlocks_append {middle : Int64} (hroom : middle < Int64.maxValue)
    (hstart : start ≤ middle + 1) (hstop : stop.all fun bound => middle ≤ bound) :
    s.datedBlocks chain start (some middle) ++ s.datedBlocks chain (middle + 1) stop =
      s.datedBlocks chain start stop := by
  have hnext := toInt_add_one hroom
  have habove : ∀ height : Int64, middle + 1 ≤ height ↔ ¬ height ≤ middle := by
    intro height
    rw [Int64.le_iff_toInt_le, Int64.le_iff_toInt_le]
    omega
  refine Table.eq_of_ascending ?_ (hs.pairwise_datedBlocks chain start stop) fun entry => ?_
  · refine List.pairwise_append.2 ⟨hs.pairwise_datedBlocks .., hs.pairwise_datedBlocks ..,
      fun below hbelow above habove' => ?_⟩
    have hle : below.row.height ≤ middle := by
      simpa using (mem_datedBlocks.1 hbelow).2.2.2.2
    have hlt := (habove _).1 (mem_datedBlocks.1 habove').2.2.2.1
    exact Int64.lt_of_le_of_lt hle (Int64.not_le.1 hlt)
  · rw [List.mem_append, mem_datedBlocks, mem_datedBlocks, mem_datedBlocks]
    simp only [← and_or_left]
    refine and_congr_right fun _ => and_congr_right fun _ => and_congr_right fun _ => ?_
    simp only [BlockRow.IsIn, Option.all_some, decide_eq_true_eq]
    by_cases hle : entry.row.height ≤ middle
    · have hbound : stop.all fun bound => entry.row.height ≤ bound := by
        cases stop with
        | none => rfl
        | some bound =>
          simp only [Option.all_some, decide_eq_true_eq] at hstop ⊢
          exact Int64.le_trans hle hstop
      simp [hle, hbound, (habove _)]
    · have hge : start ≤ entry.row.height := Int64.le_trans hstart ((habove _).2 hle)
      simp [hle, hge, (habove _)]

end Sound

/-! ## The highest block -/

/-- The last one of a list in ascending order is the highest. -/
theorem getLast?_eq_some_iff {l : List (Entry BlockRow)}
    (h : l.Pairwise fun a b => a.row.height < b.row.height) :
    l.getLast? = some entry ↔ entry ∈ l ∧ ∀ other ∈ l, other.row.height ≤ entry.row.height := by
  rcases List.eq_nil_or_concat l with rfl | ⟨before, last, rfl⟩
  · simp
  · rw [List.concat_eq_append] at h ⊢
    rw [List.getLast?_concat, Option.some_inj]
    have hbefore : ∀ other ∈ before, other.row.height < last.row.height := fun other hother =>
      (List.pairwise_append.1 h).2.2 other hother last (List.mem_singleton_self last)
    constructor
    · rintro rfl
      refine ⟨List.mem_append_right _ (List.mem_singleton_self _), fun other hother => ?_⟩
      rcases List.mem_append.1 hother with hother | hother
      · exact Int64.le_of_lt (hbefore other hother)
      · cases List.mem_singleton.1 hother
        exact Int64.le_refl _
    · rintro ⟨hmem, hhighest⟩
      rcases List.mem_append.1 hmem with hmem | hmem
      · have hle := hhighest last (List.mem_append_right _ (List.mem_singleton_self _))
        exact absurd (hbefore entry hmem) (Int64.not_lt.2 hle)
      · exact (List.mem_singleton.1 hmem).symm

theorem mem_filter_flag {pipeline : Pipeline} :
    (entry ∈ (s.datedBlocks chain Int64.minValue none).filter fun entry =>
      entry.row.flag pipeline) ↔
      entry ∈ s.blocks.entries ∧ entry.row.chain = chain ∧ entry.row.IsIndexed pipeline := by
  rw [List.mem_filter, mem_allDated, BlockRow.IsIndexed]
  tauto

/-- The highest block that counts is the last one with the flag. -/
theorem Sound.highestIndexed?_eq_getLast? (hs : s.Sound) (pipeline : Pipeline) (chain : Id) :
    s.highestIndexed? pipeline chain =
      ((s.datedBlocks chain Int64.minValue none).filter fun entry =>
        entry.row.flag pipeline).getLast? := by
  have hordered := (hs.pairwise_datedBlocks chain Int64.minValue none).filter
    fun entry => entry.row.flag pipeline
  cases hhighest : s.highestIndexed? pipeline chain with
  | none =>
    symm
    rw [List.getLast?_eq_none_iff, List.eq_nil_iff_forall_not_mem]
    intro entry hentry
    obtain ⟨hmem, hchain, hindexed⟩ := mem_filter_flag.1 hentry
    exact not_indexedAt_of_highestIndexed? hhighest _ ⟨entry, hmem, hchain, rfl, hindexed⟩
  | some highest =>
    symm
    rw [getLast?_eq_some_iff hordered]
    refine ⟨mem_filter_flag.2 (mem_filter_indexed.1 (List.maxOn?_mem hhighest)),
      fun other hother => ?_⟩
    obtain ⟨hmem, hchain, hindexed⟩ := mem_filter_flag.1 hother
    exact (le_of_highestIndexed? hhighest).2 _ ⟨other, hmem, hchain, rfl, hindexed⟩

/-! ## The queries -/

/-- In every store that is reached the queries about gaps are views of one list, that of the dated
blocks of the chain in strictly ascending order of the heights: the query without bounds tells the
list, a query with bounds the blocks of the list between them, the highest block of a pipeline is
the last with its flag, and the events of a height are indexed if the list has a block at it with
that flag. Where a query has found a block whose time cannot be read back it fails, and it tells all
that it has found otherwise. A range may be split at any height, and the two answers in a row are
the answer for the whole range. -/
theorem Reachable.queries_view_dated (h : s.Reachable) (chain : Id) :
    let dated := s.datedBlocks chain Int64.minValue none
    (dated.Pairwise fun a b => a.row.height < b.row.height) ∧
    (∀ entry, entry ∈ dated ↔
      entry ∈ s.blocks.entries ∧ entry.row.chain = chain ∧ entry.row.IsDated) ∧
    (s.blocksFrom chain Int64.minValue none =
      if ∀ entry ∈ dated, entry.row.time.IsReadable then .ok dated
      else .error (.query .timeTooLarge)) ∧
    (∀ start stop,
      let found := dated.filter fun entry => entry.row.IsIn start stop
      s.blocksFrom chain start stop =
        if ∀ entry ∈ found, entry.row.time.IsReadable then .ok found
        else .error (.query .timeTooLarge)) ∧
    (∀ pipeline,
      let highest := (dated.filter fun entry => entry.row.flag pipeline).getLast?
      s.highestIndexed pipeline chain =
        if ∀ entry ∈ highest, entry.row.time.IsReadable then .ok highest
        else .error (.query .timeTooLarge)) ∧
    (∀ height, s.IndexedAt .events chain height ↔
      ∃ entry ∈ dated, entry.row.height = height ∧ entry.row.eventsIndexed = true) ∧
    ∀ start middle stop, middle < Int64.maxValue → start ≤ middle + 1 →
      (stop.all fun bound => middle ≤ bound) →
      (do return (← s.blocksFrom chain start (some middle)) ++
        (← s.blocksFrom chain (middle + 1) stop)) = s.blocksFrom chain start stop := by
  intro dated
  refine ⟨h.sound.pairwise_datedBlocks .., fun entry => mem_allDated, TableName.readAll_eq _,
    fun start stop => ?_, fun pipeline => ?_, fun height => ?_,
    fun start middle stop hroom hstart hstop => ?_⟩
  · rw [blocksFrom, h.sound.datedBlocks_eq_filter, TableName.readAll_eq]
  · rw [highestIndexed, h.sound.highestIndexed?_eq_getLast?, TableName.readOption_eq]
  · constructor
    · rintro ⟨entry, hmem, hchain, hheight, hflag, hdated⟩
      exact ⟨entry, mem_allDated.2 ⟨hmem, hchain, hdated⟩, hheight, hflag⟩
    · rintro ⟨entry, hentry, hheight, hflag⟩
      obtain ⟨hmem, hchain, hdated⟩ := mem_allDated.1 hentry
      exact ⟨entry, hmem, hchain, hheight, hflag, hdated⟩
  · rw [blocksFrom, blocksFrom, blocksFrom, ← h.sound.datedBlocks_append hroom hstart hstop]
    exact TableName.readAll_append _ _

/-- One height has its transactions indexed and a higher one its events, and two placeholders lie
around them. -/
theorem Reachable.queries_view_dated_of_placeholders :
    let time : Instant := { Instant.zero with nano := 1000, nano_lt := by decide }
    let s := (∅ : Store).after
      [.registerChain ⟨"a-1", "A"⟩, .persist (.placeholder 1 9) [], .markEventsIndexed ⟨1, 7, time⟩,
        .persist ⟨1, 5, time⟩ [], .markEventsIndexed (.placeholder 1 3)]
    let low : Entry BlockRow := ⟨3, Block.row ⟨1, 5, time⟩ .txs⟩
    let high : Entry BlockRow := ⟨2, Block.row ⟨1, 7, time⟩ .events⟩
    s.blocksFrom 1 Int64.minValue none = .ok [low, high] ∧
      s.highestIndexed .txs 1 = .ok (some low) ∧ s.highestIndexed .events 1 = .ok (some high) ∧
      s.IndexedAt .events 1 7 ∧ ¬ s.IndexedAt .events 1 3 ∧
      (do return (← s.blocksFrom 1 5 (some 6)) ++ (← s.blocksFrom 1 7 (some 9))) =
        s.blocksFrom 1 5 (some 9) := by
  intro time s low high
  have hs : s.Reachable := Reachable.empty.after _
  have hentries : s.blocks.entries =
      [⟨1, Block.row (.placeholder 1 9) .txs⟩, high, low,
        ⟨4, Block.row (.placeholder 1 3) .events⟩] := by decide +kernel
  have hdated : s.datedBlocks 1 Int64.minValue none = [low, high] := by
    have hfilter : (s.blocks.entries.filter fun entry => entry.row.chain = 1 ∧
        Int64.minValue ≤ entry.row.height ∧ entry.row.IsDated ∧
          (none : Option Int64).all fun bound => entry.row.height ≤ bound) = [high, low] := by
      rw [hentries]
      decide +kernel
    have horder : decide (high.row.height ≤ low.row.height) = false := by decide
    rw [datedBlocks, hfilter]
    simp [List.mergeSort, horder]
  obtain ⟨_, _, hall, _, hhighest, hindexed, hsplit⟩ := hs.queries_view_dated 1
  rw [hdated] at hall hhighest hindexed
  refine ⟨?_, ?_, ?_, ?_, ?_, hsplit 5 6 (some 9) (by decide) (by decide) (by decide)⟩
  · rw [hall]
    decide +kernel
  · rw [hhighest]
    decide +kernel
  · rw [hhighest]
    decide +kernel
  · rw [hindexed]
    decide +kernel
  · rw [hindexed]
    decide +kernel

/-- A chain whose only block is stored at the leap second after which no year is an instant: the
block is dated, and yet there is no list of the dated blocks that a query would tell, while a query
that does not find the block tells that there is none. -/
theorem queries_view_dated_fails_of_last_leap :
    let s := (Step.persist ⟨1, 5, lastLeap⟩ []).next
      ((Step.registerChain ⟨"a-1", "A"⟩).next ∅)
    s.Reachable ∧
      (∃ entry ∈ s.blocks.entries, entry.row.chain = 1 ∧ entry.row.height = 5 ∧
        entry.row.IsDated) ∧
      (¬ ∃ dated, s.blocksFrom 1 Int64.minValue none = .ok dated) ∧
      s.blocksFrom 1 6 none = .ok [] := by
  intro s
  refine ⟨.step (.step .empty _) _, by decide +kernel, ?_, by decide +kernel⟩
  rintro ⟨dated, hdated⟩
  have hfails : s.blocksFrom 1 Int64.minValue none = .error (.query .timeTooLarge) := by
    decide +kernel
  rw [hfails] at hdated
  cases hdated

end Store

end BlockArchive
