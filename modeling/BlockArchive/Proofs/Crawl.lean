import BlockArchive.Proofs.Progress
import Mathlib.Data.Set.Card

/-!
# Crawls

A crawl goes from round to round: it asks the scan for a missing height and stores a block at it.
Of the heights that are missing a round takes away its own one and no other, so the rounds visit the
missing heights in ascending order and leave none out. A round that stores a placeholder takes
nothing away, and the next one is told the same height.

## Main definitions

- `Round`: where a scan is told to stop, and the block that is stored then
- `Store.missing`: the heights of a chain that are missing
- `Store.Plays`, `Store.Crawls`: a round is played on a store, and a list of them
- `AreLowest`: the first heights of a set, in ascending order

## Main statements

- `Store.Plays.indexedAt_next`, `Store.Plays.scannable_next`: what a round changes
- `Store.Plays.missing_next`: the heights that are missing after a round
- `Store.Crawls.areLowest`: the dated blocks of a crawl
- `Store.Reachable.crawl_takes_lowest`: the crawls of a store that is reached
-/

namespace BlockArchive

/-! ## Rounds -/

/-- A round of a crawl. -/
structure Round where
  /-- Where the scan is told to stop. -/
  stop : Int64
  /-- The block that is stored at the height that the scan tells. -/
  block : Block
  txs : List Tx

namespace Round

/-- The step that stores the block of the round. -/
def step (round : Round) : Step :=
  .persist round.block round.txs

theorem stored?_step (round : Round) : round.step.stored? = some (.txs, round.block) := rfl

/-- The time of the block is known, as it is stored. -/
def IsDated (round : Round) : Prop :=
  round.block.time.toTimestamp ≠ Timestamp.zero

instance : DecidablePred IsDated :=
  fun _ => inferInstanceAs (Decidable (_ ≠ _))

end Round

/-- The heights in the list are the first ones of the set, in ascending order. -/
structure AreLowest (heights : List Int64) (among : Set Int64) : Prop where
  ascending : heights.Pairwise (· < ·)
  mem : ∀ height ∈ heights, height ∈ among
  /-- All others of the set lie above them. -/
  lt : ∀ height ∈ heights, ∀ other ∈ among, other ∉ heights → height < other

theorem areLowest_nil (among : Set Int64) : AreLowest [] among where
  ascending := List.Pairwise.nil
  mem _ h := absurd h List.not_mem_nil
  lt _ h := absurd h List.not_mem_nil

/-- The least of a set comes before the first ones of the others. -/
theorem AreLowest.cons {least : Int64} {heights : List Int64} {among : Set Int64}
    (hleast : IsLeast among least) (h : AreLowest heights (among \ {least})) :
    AreLowest (least :: heights) among := by
  have habove : ∀ other ∈ among, other ≠ least → least < other := fun other hother hne =>
    Int64.lt_of_le_of_ne (hleast.2 hother) (Ne.symm hne)
  refine ⟨List.pairwise_cons.2 ⟨fun height hheight => ?_, h.ascending⟩, fun height hheight => ?_,
    fun height hheight other hother hnot => ?_⟩
  · have hmem := h.mem height hheight
    exact habove height hmem.1 hmem.2
  · rcases List.mem_cons.1 hheight with rfl | hheight
    · exact hleast.1
    · exact (h.mem height hheight).1
  · have hne : other ≠ least := fun heq => hnot (heq ▸ List.mem_cons_self)
    rcases List.mem_cons.1 hheight with rfl | hheight
    · exact habove other hother hne
    · exact h.lt height hheight other ⟨hother, hne⟩ fun hmem => hnot (List.mem_cons_of_mem _ hmem)

namespace Store

/-- The heights of a chain from the start on that are missing. -/
def missing (s : Store) (chain : Id) (start : Int64) : Set Int64 :=
  {height | start ≤ height ∧ ¬ s.IndexedAt .txs chain height}

/-- The round can be played: the scan tells the height of its block, and this can be stored. -/
structure Plays (s : Store) (chain : Id) (start : Int64) (round : Round) : Prop where
  chain_eq : round.block.chain = chain
  answered : ∃ log after, firstMissing chain start round.stop ⟨s, log⟩ =
    .ok round.block.height after
  succeeds : round.step.Succeeds s

/-- The rounds can be played one after the other. -/
def Crawls (chain : Id) (start : Int64) : Store → List Round → Prop
  | _, [] => True
  | s, round :: rest =>
    s.Plays chain start round ∧ Crawls chain start (round.step.next s) rest

variable {s : Store} {chain : Id} {start : Int64} {round : Round}

theorem crawls_cons {rest : List Round} : Crawls chain start s (round :: rest) ↔
    s.Plays chain start round ∧ Crawls chain start (round.step.next s) rest := Iff.rfl

/-- A round is played where the scan can look its height up. -/
theorem Plays.of_scan (hchain : round.block.chain = chain)
    (hreadable : ∀ highest ∈ s.highestIndexed? .txs chain, highest.row.time.IsReadable)
    (hheight : (s.firstMissing? chain start (gapScanRange start round.stop
      ((s.highestIndexed? .txs chain).map (·.row.height))).2).getD start = round.block.height)
    (hok : round.step.Succeeds s) : s.Plays chain start round where
  chain_eq := hchain
  answered := by
    obtain ⟨told, hanswer⟩ := firstMissing_run start round.stop [] hreadable
    exact ⟨[], _, hheight ▸ hanswer⟩
  succeeds := hok

/-! ## What a round changes -/

namespace Plays

/-- The row of the height has the time of the round. -/
theorem find?_next_self (hs : s.Sound) (h : s.Plays chain start round) :
    ∃ entry, (round.step.next s).find? .blocks (.slot ⟨chain, round.block.height⟩) = some entry ∧
      entry.row.time = round.block.time.toTimestamp := by
  obtain ⟨entry, hfind, hsettles⟩ :=
    Moment.find?_stored (m := ⟨s, round.step⟩) hs ⟨h.succeeds, round.stored?_step⟩
  rw [h.chain_eq] at hfind
  exact ⟨entry, hfind, (BlockRow.of_settles hsettles).2.1⟩

/-- The rows of all other heights stay as they are. -/
theorem find?_next_of_ne (hs : s.Sound) {height : Int64} (hne : height ≠ round.block.height) :
    (round.step.next s).find? .blocks (.slot ⟨chain, height⟩) =
      s.find? .blocks (.slot ⟨chain, height⟩) :=
  Step.find?_block_next hs round.stored?_step fun h => hne (congrArg Slot.index h)

/-- After the round its height counts if the time is known, and all others count as before. -/
theorem indexedAt_next (hs : s.Sound) (h : s.Plays chain start round) (height : Int64) :
    (round.step.next s).IndexedAt .txs chain height ↔
      if height = round.block.height then round.IsDated else s.IndexedAt .txs chain height := by
  rw [Step.indexedAt_next_iff hs round.stored?_step h.succeeds, h.chain_eq]
  simp [Round.IsDated]

variable (h : s.Plays chain start round) (hgap : (s.missing chain start).Nonempty)

include h hgap in
/-- As long as a height is missing the round is about the least of them. -/
theorem isLeast : IsLeast (s.missing chain start) round.block.height := by
  obtain ⟨log, after, hanswer⟩ := h.answered
  obtain ⟨other, hother, hmissing⟩ := hgap
  exact (isFirstMissing_of_firstMissing hanswer).2.resolve_right fun hall =>
    hmissing (hall.2 other hother)

include h in
theorem scannable : s.Scannable chain := by
  obtain ⟨log, after, hanswer⟩ := h.answered
  exact (isFirstMissing_of_firstMissing hanswer).1

include h hgap in
/-- A round takes its own height from those that are missing, unless the time is not known. -/
theorem missing_next (hs : s.Sound) :
    (round.step.next s).missing chain start =
      if round.IsDated then s.missing chain start \ {round.block.height}
      else s.missing chain start := by
  have hmem := (h.isLeast hgap).1
  ext height
  have hcounts := h.indexedAt_next hs height
  by_cases heq : height = round.block.height
  · subst heq
    rw [if_pos rfl] at hcounts
    by_cases hdated : round.IsDated
    · simp [missing, hcounts, hdated]
    · rw [if_neg hdated]
      exact iff_of_true ⟨hmem.1, hcounts.not.2 hdated⟩ hmem
  · rw [if_neg heq] at hcounts
    split <;> simp [missing, hcounts, heq]

include h hgap in
/-- The chain can still be scanned after the round, if the time of its block can be read back. -/
theorem scannable_next (hs : s.Sound)
    (hreadable : round.IsDated → round.block.time.toTimestamp.IsReadable) :
    (round.step.next s).Scannable chain := by
  intro highest hhighest
  have hnext := (round.step.keeps_next s hs).1
  obtain ⟨hcounts, htop⟩ := le_of_highestIndexed? hhighest
  obtain ⟨entry, hfind, hindexed⟩ := hnext.indexedAt_iff.1 hcounts
  obtain ⟨hmem, hchain, _⟩ := mem_filter_indexed.1 (List.maxOn?_mem hhighest)
  have hfindHighest : (round.step.next s).find? .blocks (.slot ⟨chain, highest.row.height⟩) =
      some highest := hnext.find?_block.2 ⟨hmem, hchain, rfl⟩
  by_cases heq : highest.row.height = round.block.height
  · -- the new row is the highest, and its time is that of the block
    obtain ⟨stored, hstored, htime⟩ := h.find?_next_self hs
    rw [← heq, hfindHighest] at hstored
    cases hstored
    rw [htime]
    have hdated := (h.indexedAt_next hs _).1 hcounts
    rw [if_pos heq] at hdated
    exact hreadable hdated
  · -- the highest row is the one that it was before
    have hbefore := (h.indexedAt_next hs _).1 hcounts
    rw [if_neg heq] at hbefore
    cases hold : s.highestIndexed? .txs chain with
    | none => exact absurd hbefore (not_indexedAt_of_highestIndexed? hold _)
    | some old =>
      obtain ⟨holdCounts, holdTop⟩ := le_of_highestIndexed? hold
      obtain ⟨holdMem, holdChain, _⟩ := mem_filter_indexed.1 (List.maxOn?_mem hold)
      have hne : old.row.height ≠ round.block.height := by
        intro hsame
        rw [hsame] at holdCounts
        exact (h.isLeast hgap).1.2 holdCounts
      have hkept := (h.indexedAt_next hs old.row.height).2 (by rwa [if_neg hne])
      have hheight := Int64.le_antisymm (holdTop _ hbefore) (htop _ hkept)
      rw [find?_next_of_ne hs heq, hheight,
        hs.find?_block.2 ⟨holdMem, holdChain, rfl⟩] at hfindHighest
      cases hfindHighest
      exact h.scannable _ hold

end Plays

/-! ## Crawls -/

/-- Where there are heights for another round, one of them is missing. -/
theorem nonempty_missing_of_lt {count : ℕ}
    (h : ((count + 1 : ℕ) : ℕ∞) ≤ (s.missing chain start).encard) :
    (s.missing chain start).Nonempty := by
  rw [← Set.one_le_encard_iff_nonempty]
  exact le_trans (by simp) h

/-- A round leaves heights that are missing for those that follow it. -/
theorem Plays.le_encard_next (hs : s.Sound) (h : s.Plays chain start round) {count : ℕ}
    (hcount : ((count + 1 : ℕ) : ℕ∞) ≤ (s.missing chain start).encard) :
    (count : ℕ∞) ≤ ((round.step.next s).missing chain start).encard := by
  have hgap := nonempty_missing_of_lt hcount
  rw [h.missing_next hgap hs]
  split
  · rw [← Set.encard_sdiff_singleton_add_one (h.isLeast hgap).1] at hcount
    simpa using hcount
  · exact le_trans (by simp) hcount

namespace Crawls

variable {rounds earlier later : List Round}

/-- The dated blocks of a crawl are stored at the first of the missing heights, in their order. -/
theorem areLowest (hs : s.Sound) (h : Crawls chain start s rounds)
    (hcount : (rounds.length : ℕ∞) ≤ (s.missing chain start).encard) :
    AreLowest ((rounds.filter fun round => round.IsDated).map (·.block.height))
      (s.missing chain start) := by
  induction rounds generalizing s with
  | nil => exact areLowest_nil _
  | cons round rest ih =>
    obtain ⟨hplays, hrest⟩ := h
    have hgap := nonempty_missing_of_lt hcount
    have hlowest := ih (round.step.keeps_next s hs).1 hrest (hplays.le_encard_next hs hcount)
    rw [hplays.missing_next hgap hs] at hlowest
    by_cases hdated : round.IsDated
    · rw [if_pos hdated] at hlowest
      rw [List.filter_cons_of_pos (by simpa using hdated)]
      exact AreLowest.cons (hplays.isLeast hgap) hlowest
    · rw [if_neg hdated] at hlowest
      rwa [List.filter_cons_of_neg (by simpa using hdated)]

/-- A crawl goes on from each of its rounds, with heights that are missing for those to come. -/
theorem of_append (hs : s.Sound) (h : Crawls chain start s (earlier ++ later))
    (hcount : ((earlier ++ later).length : ℕ∞) ≤ (s.missing chain start).encard) :
    Crawls chain start (s.after (earlier.map Round.step)) later ∧
      (later.length : ℕ∞) ≤ ((s.after (earlier.map Round.step)).missing chain start).encard := by
  induction earlier generalizing s with
  | nil => exact ⟨h, hcount⟩
  | cons round rest ih =>
    obtain ⟨hplays, hrest⟩ := h
    exact ih (round.step.keeps_next s hs).1 hrest (hplays.le_encard_next hs hcount)

/-- A crawl whose times can be read back leaves a chain that can be scanned. -/
theorem scannable_after (hs : s.Sound) (h : Crawls chain start s rounds)
    (hcount : (rounds.length : ℕ∞) ≤ (s.missing chain start).encard)
    (hreadable : ∀ round ∈ rounds, round.IsDated → round.block.time.toTimestamp.IsReadable)
    (hscan : s.Scannable chain) : (s.after (rounds.map Round.step)).Scannable chain := by
  induction rounds generalizing s with
  | nil => exact hscan
  | cons round rest ih =>
    obtain ⟨hplays, hrest⟩ := h
    exact ih (round.step.keeps_next s hs).1 hrest (hplays.le_encard_next hs hcount)
      (fun other hother => hreadable other (List.mem_cons_of_mem round hother))
      (hplays.scannable_next (nonempty_missing_of_lt hcount) hs
        (hreadable round List.mem_cons_self))

end Crawls

/-- In a crawl with no more rounds than there are missing heights the dated rounds take these from
the lowest on, in ascending order and without leaving one out. After a round that stores a
placeholder every scan tells the same height again, and after a crawl whose times can be read back
every scan is answered. -/
theorem Reachable.crawl_takes_lowest (h : s.Reachable) {rounds : List Round}
    (hcrawls : Crawls chain start s rounds)
    (hcount : (rounds.length : ℕ∞) ≤ (s.missing chain start).encard) :
    AreLowest ((rounds.filter fun round => round.IsDated).map (·.block.height))
        (s.missing chain start) ∧
      (∀ earlier round later, rounds = earlier ++ round :: later → ¬ round.IsDated →
        ∀ stop log, ∃ after,
          firstMissing chain start stop ⟨s.after ((earlier ++ [round]).map Round.step), log⟩ =
            .ok round.block.height after) ∧
      (s.Scannable chain →
        (∀ round ∈ rounds, round.IsDated → round.block.time.toTimestamp.IsReadable) →
        ∀ stop log, ∃ height after,
          firstMissing chain start stop ⟨s.after (rounds.map Round.step), log⟩ =
            .ok height after) := by
  refine ⟨hcrawls.areLowest h.sound hcount, ?_, ?_⟩
  · rintro earlier round later rfl hplaceholder stop log
    obtain ⟨⟨hplays, _⟩, hleft⟩ := hcrawls.of_append h.sound hcount
    have ht := (h.after (earlier.map Round.step)).sound
    have hgap := nonempty_missing_of_lt hleft
    have hsame := hplays.missing_next hgap ht
    rw [if_neg hplaceholder] at hsame
    have hscan := hplays.scannable_next hgap ht fun hdated => absurd hdated hplaceholder
    have hleast := hplays.isLeast hgap
    rw [← hsame] at hleast
    rw [List.map_append, after_append]
    obtain ⟨told, hanswer⟩ := firstMissing_of_scannable hscan (Or.inl hleast) stop log
    exact ⟨_, hanswer⟩
  · intro hscan hreadable stop log
    have hend := hcrawls.scannable_after h.sound hcount hreadable hscan
    obtain ⟨told, hanswer⟩ := firstMissing_of_scannable hend (isFirstMissing_scan _ _ _ stop) stop log
    exact ⟨_, _, hanswer⟩

/-- A height between two blocks is first stored as a placeholder, and then with its time. -/
theorem crawl_takes_lowest_past_placeholder :
    let time : Instant := { Instant.zero with nano := 1000, nano_lt := by decide }
    let s := (∅ : Store).after
      [.registerChain ⟨"a-1", "A"⟩, .persist ⟨1, 5, time⟩ [], .persist ⟨1, 7, time⟩ []]
    let rounds : List Round :=
      [⟨5, .placeholder 1 6, []⟩, ⟨100, ⟨1, 6, time⟩, []⟩, ⟨0, ⟨1, 8, time⟩, [.new "h1" 0 none []]⟩]
    AreLowest [6, 8] (s.missing 1 5) ∧
      (∀ stop log, ∃ after, firstMissing 1 5 stop
        ⟨s.after [.persist (.placeholder 1 6) []], log⟩ = .ok 6 after) ∧
      ∀ stop log, ∃ height after,
        firstMissing 1 5 stop ⟨s.after (rounds.map Round.step), log⟩ = .ok height after := by
  intro time s rounds
  have hs : s.Reachable := Reachable.empty.after _
  have hcrawls : Crawls 1 5 s rounds := by
    rw [crawls_cons, crawls_cons, crawls_cons]
    refine ⟨.of_scan ?_ ?_ ?_ ?_, .of_scan ?_ ?_ ?_ ?_, .of_scan ?_ ?_ ?_ ?_, trivial⟩
    all_goals decide +kernel
  have hmissing : (({6, 8, 9} : Finset Int64) : Set Int64) ⊆ s.missing 1 5 := by
    intro height hheight
    rw [Finset.mem_coe, Finset.mem_insert, Finset.mem_insert, Finset.mem_singleton] at hheight
    rcases hheight with rfl | rfl | rfl
    all_goals exact ⟨by decide, by decide +kernel⟩
  have hcount : (rounds.length : ℕ∞) ≤ (s.missing 1 5).encard := by
    have hcard : rounds.length = ({6, 8, 9} : Finset Int64).card := by decide
    rw [hcard, ← Set.encard_coe_eq_coe_finsetCard]
    exact Set.encard_le_encard hmissing
  have hscan : s.Scannable 1 := by
    have hread : ∀ highest ∈ s.highestIndexed? .txs 1, highest.row.time.IsReadable := by
      decide +kernel
    exact hread
  have hheights : (rounds.filter fun round => round.IsDated).map (·.block.height) = [6, 8] := by
    decide +kernel
  have hreadable : ∀ round ∈ rounds, round.block.time.toTimestamp.IsReadable := by decide +kernel
  obtain ⟨hlowest, hagain, hends⟩ := hs.crawl_takes_lowest hcrawls hcount
  rw [hheights] at hlowest
  have hplaceholder := hagain [] ⟨5, .placeholder 1 6, []⟩ _ rfl (by decide +kernel)
  exact ⟨hlowest, hplaceholder, hends hscan fun round hround _ => hreadable round hround⟩

end Store

end BlockArchive
