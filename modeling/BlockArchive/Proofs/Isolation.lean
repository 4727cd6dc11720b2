import BlockArchive.Proofs.History.Marker

/-!
# Chains beside each other

The chains of an archive share its tables, and blocks of different chains may have the same height.
Nevertheless a step that is addressed to one of them changes nothing that is told about another,
but that a block takes the transactions it brings from wherever they were stored before.

## Main definitions

- `Step.AddressedTo`: the chain that a step is about
- `Step.storedHashes`: the transactions that a step stores
- `Store.Undisturbed`: the queries about a chain have the same answers in two stores

## Main statements

- `Store.undisturbed_of_rows`: the answers depend on the blocks and the markers of the chain alone
- `Store.Sound.undisturbed_next`: a step that is not addressed to the chain
- `Step.mem_txes_next`: the transactions in the blocks of another chain
- `Store.Reachable.others_undisturbed`: chains do not disturb each other
-/

namespace BlockArchive

open Persist

/-- What a part of a step answers. -/
def WriteM.answer {α : Type} (part : WriteM α) (session : Session) : Except Failure α :=
  match part session with
  | .ok answer _ => .ok answer
  | .error failure _ => .error failure

/-- The step is told the chain, be it by its id or by its text. -/
def Step.AddressedTo (chain : Entry Chain) : Step → Prop
  | persist block _ | markEventsIndexed block => block.chain = chain.id
  | markFailed _ named _ => named.chainId = chain.row.chainId
  | removeChain chainId => chainId = chain.row.chainId
  | _ => False

/-- The hashes of the transactions that the step stores. -/
def Step.storedHashes (s : Store) : Step → List String
  | persist block txs => if (persist block txs).Succeeds s then txs.map (·.hash) else []
  | _ => []

/-- Whatever is asked about the heights of the chain is answered alike in both stores. -/
structure Store.Undisturbed (s t : Store) (chain : Id) : Prop where
  highestIndexed : ∀ pipeline, t.highestIndexed pipeline chain = s.highestIndexed pipeline chain
  firstMissing : ∀ start stop log,
    (firstMissing chain start stop).answer ⟨t, log⟩ =
      (firstMissing chain start stop).answer ⟨s, log⟩
  indexedAt : ∀ pipeline height,
    t.IndexedAt pipeline chain height ↔ s.IndexedAt pipeline chain height
  blocksFrom : ∀ start stop, t.blocksFrom chain start stop = s.blocksFrom chain start stop
  failedHeights : ∀ pipeline, t.failedHeights pipeline chain = s.failedHeights pipeline chain

variable {s t : Store} {step : Step} {chain : Id}

/-! ## Answers and rows -/

theorem answer_firstMissing (s : Store) (chain : Id) (start stop : Int64) (log : List LogEvent) :
    (firstMissing chain start stop).answer ⟨s, log⟩ =
      (s.highestIndexed .txs chain).map fun highest =>
        let range := gapScanRange start stop (highest.map (·.row.height))
        (s.firstMissing? chain range.1 range.2).getD range.1 := by
  have hget : (MonadState.get : WriteM Session) ⟨s, log⟩ = .ok ⟨s, log⟩ ⟨s, log⟩ := rfl
  rw [WriteM.answer, firstMissing, bind_of_ok hget]
  cases hhighest : s.highestIndexed .txs chain with
  | error failure =>
    have hread : (WriteM.ofExcept (.error failure) : WriteM (Option (Entry BlockRow))) ⟨s, log⟩ =
        .error failure ⟨s, log⟩ := rfl
    rw [bind_of_error hread]
    rfl
  | ok highest =>
    have hread : (WriteM.ofExcept (.ok highest) : WriteM _) ⟨s, log⟩ = .ok highest ⟨s, log⟩ := rfl
    rw [bind_of_ok hread]
    simp only [Except.map]
    cases s.firstMissing? chain _ _ <;> rfl

/-- Where the same heights count the same one is found missing. -/
theorem Store.firstMissing?_congr
    (h : ∀ height, t.IndexedAt .txs chain height ↔ s.IndexedAt .txs chain height)
    (start stop : Int64) : t.firstMissing? chain start stop = s.firstMissing? chain start stop := by
  have hsame : (fun height => decide (t.IndexedAt .txs chain height)) =
      fun height => decide (s.IndexedAt .txs chain height) :=
    funext fun height => decide_eq_decide.2 (h height)
  rw [firstMissing?, firstMissing?, hsame]

/-- Where the blocks and the markers of a chain are the same all answers are. -/
theorem Store.undisturbed_of_rows
    (hblocks : ∀ entry : Entry BlockRow, entry.row.chain = chain →
      (entry ∈ t.blocks.entries ↔ entry ∈ s.blocks.entries))
    (hmarkers : ∀ pipeline, ∀ entry : Entry MarkerRow, entry.row.chain = chain →
      (entry ∈ (t.markers pipeline).entries ↔ entry ∈ (s.markers pipeline).entries)) :
    s.Undisturbed t chain := by
  have hindexed : ∀ pipeline height,
      t.IndexedAt pipeline chain height ↔ s.IndexedAt pipeline chain height := by
    intro pipeline height
    refine exists_congr fun entry => ?_
    rw [and_comm, @and_comm (entry ∈ s.blocks.entries)]
    exact and_congr_right fun h => hblocks entry h.1
  have hhighest : ∀ pipeline, t.highestIndexed pipeline chain = s.highestIndexed pipeline chain := by
    intro pipeline
    rw [highestIndexed, highestIndexed, highestIndexed?, highestIndexed?]
    rw [Table.filter_entries_eq fun entry hentry => hblocks entry (of_decide_eq_true hentry).1]
  refine ⟨hhighest, fun start stop log => ?_, hindexed, fun start stop => ?_, fun pipeline => ?_⟩
  · rw [answer_firstMissing, answer_firstMissing, hhighest]
    simp only [firstMissing?_congr (hindexed .txs)]
  · rw [blocksFrom, blocksFrom, datedBlocks, datedBlocks]
    rw [Table.filter_entries_eq fun entry hentry => hblocks entry (of_decide_eq_true hentry).1]
  · rw [failedHeights, failedHeights]
    rw [Table.filter_entries_eq fun entry hentry =>
      hmarkers pipeline entry (of_decide_eq_true hentry)]

/-- Where the row of a key is the same in two sound stores, both have a row of it or neither. -/
theorem Store.Sound.mem_iff_of_find? (hs : s.Sound) (ht : t.Sound) {n : TableName}
    {entry : Entry n.Row} (h : t.find? n (n.key entry.row) = s.find? n (n.key entry.row)) :
    entry ∈ (t.get n).entries ↔ entry ∈ (s.get n).entries := by
  rw [← and_iff_left (a := entry ∈ (t.get n).entries) rfl, ← ht.find?_eq_some, h, hs.find?_eq_some,
    and_iff_left rfl]

/-! ## Steps that are addressed to another chain -/

section Elsewhere

variable {other : Entry Chain}

/-- No step is addressed to two chains. -/
theorem Step.AddressedTo.unique (hs : s.Sound) {addressed : Entry Chain}
    (haddressed : addressed ∈ s.chains.entries) (hother : other ∈ s.chains.entries)
    (h : step.AddressedTo addressed) (h' : step.AddressedTo other) : addressed = other := by
  cases step with
  | persist | markEventsIndexed => exact Table.eq_of_mem_entries haddressed hother (h.symm.trans h')
  | markFailed | removeChain =>
    exact (hs.keyed .chains).eq_of_key haddressed hother (congrArg Key.text (h.symm.trans h'))
  | _ => exact h.elim

variable (hs : s.Sound) (hother : other ∈ s.chains.entries) (h : ¬ step.AddressedTo other)

namespace Moment

include hs hother h

/-- Such a step does not take the chain out. -/
theorem not_removesChain : ¬ RemovesChain ⟨s, step⟩ other.id := by
  rintro ⟨chainId, removed, rfl, hremoved, hid⟩
  obtain ⟨hmem, rfl⟩ := hs.findChain?_eq_some.1 hremoved
  cases Table.eq_of_mem_entries hmem hother hid
  exact h rfl

/-- The chain stays as it is. -/
theorem chain_mem_next : other ∈ (next ⟨s, step⟩).chains.entries := by
  refine Step.mem_next hs (n := .chains) hother (fun _ _ _ => rfl) fun htakes => ?_
  cases step with
  | removeChain chainId =>
    obtain ⟨removed, hremoved, hid⟩ := htakes
    exact not_removesChain hs hother h ⟨chainId, removed, rfl, hremoved, Eq.symm hid⟩
  | _ => exact htakes

omit hs hother in
/-- Such a step does not see to a height of the chain. -/
theorem not_seesTo (pipeline : Pipeline) (height : Int64) :
    ¬ SeesTo ⟨s, step⟩ pipeline other.id height := by
  rintro ⟨block, ⟨_, hstored⟩, hchain, _⟩
  cases step with
  | persist | markEventsIndexed =>
    cases hstored
    exact h hchain
  | _ => cases hstored

/-- Nor does it mark one. -/
theorem not_marks (pipeline : Pipeline) (height : Int64) :
    ¬ Marks ⟨s, step⟩ pipeline other.id height := by
  rintro ⟨_, named, rfl, hmarked⟩
  obtain ⟨found, hfound, hid⟩ := Option.map_eq_some_iff.1 hmarked
  obtain ⟨hmem, htext⟩ := (sound_next hs).findChain?_eq_some.1 hfound
  cases Table.eq_of_mem_entries hmem (chain_mem_next hs hother h) hid
  exact h htext.symm

end Moment

include hs hother h

/-- The blocks of the chain stay as they are, and no others come. -/
theorem Step.mem_blocks_next {entry : Entry BlockRow} (hchain : entry.row.chain = other.id) :
    entry ∈ (step.next s).blocks.entries ↔ entry ∈ s.blocks.entries := by
  have hlasts : ¬ (step.next s).Spent .chains other.id := fun hspent =>
    hspent.2 (Table.mem_rows_iff.2 ⟨other, Moment.chain_mem_next hs hother h, rfl⟩)
  have hfind := Moment.find?_unseen (m := ⟨s, step⟩) hs hlasts
    fun pipeline => Moment.not_seesTo h pipeline entry.row.height
  rw [← hchain] at hfind
  exact hs.mem_iff_of_find? (n := .blocks) (step.keeps_next s hs).1 hfind

/-- What is told about a chain does not depend on steps that are not addressed to it. -/
theorem Store.Sound.undisturbed_next : s.Undisturbed (step.next s) other.id := by
  refine undisturbed_of_rows (fun entry => Step.mem_blocks_next hs hother h)
    fun pipeline entry hchain => ⟨fun hafter => ?_, fun hbefore => ?_⟩
  · by_contra hbefore
    have hmarks := Moment.marks_of_added (m := ⟨s, step⟩) hs hafter hbefore
    rw [hchain] at hmarks
    exact Moment.not_marks hs hother h pipeline _ hmarks
  · apply Moment.marker_kept (m := ⟨s, step⟩) hs hbefore
    · rw [hchain]
      exact Moment.not_seesTo h pipeline _
    · rw [hchain]
      exact Moment.not_removesChain hs hother h

end Elsewhere

/-! ## Transactions -/

theorem Store.mem_txesOf {block : Id} {entry : Entry TxRow} :
    entry ∈ s.txesOf block ↔ entry ∈ s.txes.entries ∧ entry.row.block = block := by
  rw [txesOf, Table.mem_listed, decide_eq_true_eq]

/-- The transactions of a block are listed once each and in ascending order of the hashes. -/
theorem Store.Sound.pairwise_txesOf (hs : s.Sound) (block : Id) :
    (s.txesOf block).Pairwise fun a b => a.row.hash < b.row.hash := by
  apply Table.pairwise_listed
  intro a ha b hb _ _ hhash
  exact (hs.keyed .txes).eq_of_key ha hb (congrArg Key.text hhash)

section Stored

variable {block : Block} {txs : List Tx} {entry : Entry TxRow}

/-- A transaction that the block brings is stored in that block, under the id that its hash had. -/
theorem Persist.Stored.find?_tx (hs : s.Sound) (h : Stored block (Tx.uniqueByHash txs) s t)
    {hash : String} (hhash : hash ∈ txs.map (·.hash)) :
    ∃ moved target, t.find? .txes (.text hash) = some moved ∧
      (∀ stored, s.find? .txes (.text hash) = some stored → moved.id = stored.id) ∧
      t.find? .blocks (.slot ⟨block.chain, block.height⟩) = some target ∧
      moved.row.block = target.id := by
  obtain ⟨tx, htx, rfl⟩ := Tx.exists_mem_uniqueByHash hhash
  obtain ⟨moved, hmoved, hsettles⟩ := h.settles hs (n := .txes) (by decide)
    (List.mem_map_of_mem htx : _ ∈ written block (Tx.uniqueByHash txs) t .txes)
  obtain ⟨target, htarget, _⟩ :=
    h.settles hs (by decide) (mem_written_block block (Tx.uniqueByHash txs) t)
  have hrow := hsettles.row_eq fun _ _ => rfl
  refine ⟨moved, target, hmoved, fun stored hstored => ?_, htarget, ?_⟩
  · rw [hsettles.of_find? hstored]
  · rw [hrow]
    exact Store.idOf_eq htarget

/-- A transaction that the block does not bring is left alone. -/
theorem Persist.Stored.find?_tx_of_not_mem (hs : s.Sound)
    (h : Stored block (Tx.uniqueByHash txs) s t) {hash : String}
    (hhash : hash ∉ txs.map (·.hash)) : t.find? .txes (.text hash) = s.find? .txes (.text hash) := by
  apply h.find?_of_free hs (by decide)
  intro row hrow hkey
  obtain ⟨tx, htx, rfl⟩ := List.mem_map.1 hrow
  cases hkey
  exact hhash (List.mem_map_of_mem (Tx.mem_of_mem_uniqueByHash htx))

end Stored

section Pulled

variable {other : Entry Chain} {held : Entry BlockRow} {entry : Entry TxRow}

/-- A step that is addressed elsewhere and stores no transactions leaves those of a block of the
chain alone. -/
theorem Step.mem_txes_next_of_idle (hs : s.Sound) (hother : other ∈ s.chains.entries)
    (h : ¬ step.AddressedTo other) (hheld : held ∈ s.blocks.entries)
    (hchain : held.row.chain = other.id)
    (hidle : ∀ block txs, step = .persist block txs → ¬ step.Succeeds s)
    (hentry : entry.row.block = held.id) :
    entry ∈ (step.next s).txes.entries ↔ entry ∈ s.txes.entries := by
  by_cases hfails : step.Writes ∧ ¬ step.Succeeds s
  · exact hs.mem_iff_of_find? (n := .txes) (step.keeps_next s hs).1
      (Step.find?_next_of_fails hfails.1 hfails.2 _ _)
  rw [not_and, not_not] at hfails
  have hoffers : ∀ row, ¬ step.Offers .txes row := by
    intro row hrow
    cases step with
    | persist block txs => exact hidle block txs rfl (hfails trivial)
    | upsertDenoms | upsertIbcDenoms => simp [Offers] at hrow
    | _ => exact hrow
  refine ⟨Step.of_mem_next hs (n := .txes) hoffers, fun hbefore => ?_⟩
  refine Step.mem_next hs (n := .txes) hbefore (fun row hrow => absurd hrow (hoffers row)) ?_
  intro htakes
  cases step with
  | removeChain chainId =>
    -- the transaction would go with its block, and the block with its chain
    obtain ⟨removed, hremoved, hbelongs⟩ := htakes
    have hblock := of_decide_eq_true ((Table.mem_idsWhere hbefore).1 hbelongs)
    rw [hentry] at hblock
    have hgone := of_decide_eq_true ((Table.mem_idsWhere hheld).1 hblock)
    exact Moment.not_removesChain hs hother h
      ⟨chainId, removed, rfl, hremoved, hgone.symm.trans hchain⟩
  | _ => exact htakes

/-- Of the transactions in a block of another chain a step takes those that it stores. -/
theorem Step.mem_txes_next (hs : s.Sound) (hother : other ∈ s.chains.entries)
    (h : ¬ step.AddressedTo other) (hheld : held ∈ s.blocks.entries)
    (hchain : held.row.chain = other.id) (hentry : entry.row.block = held.id) :
    entry ∈ (step.next s).txes.entries ↔
      entry ∈ s.txes.entries ∧ entry.row.hash ∉ step.storedHashes s := by
  have hnext := (step.keeps_next s hs).1
  by_cases hstores : ∃ block txs, step = .persist block txs ∧ step.Succeeds s
  · obtain ⟨block, txs, rfl, hok⟩ := hstores
    have hstored := stored_of_succeeds hs hok
    rw [storedHashes, if_pos hok]
    by_cases hhash : entry.row.hash ∈ txs.map (·.hash)
    · refine iff_of_false (fun hafter => ?_) fun hbefore => hbefore.2 hhash
      obtain ⟨moved, target, hmoved, _, htarget, hblock⟩ := hstored.find?_tx hs hhash
      cases (hnext.find?_eq_some.2 ⟨hafter, rfl⟩).symm.trans hmoved
      -- it would lie in the block that is stored, which is of the chain that the step is told
      obtain ⟨htargetMem, htargetKey⟩ := Store.mem_of_find? htarget
      have hheldNext := (mem_blocks_next hs hother h hchain).2 hheld
      cases Table.eq_of_mem_entries hheldNext htargetMem (hentry.symm.trans hblock)
      exact h ((congrArg Slot.parent (Key.slot.inj htargetKey)).symm.trans hchain)
    · rw [and_iff_left hhash]
      exact hs.mem_iff_of_find? (n := .txes) hnext (hstored.find?_tx_of_not_mem hs hhash)
  · have hidle : ∀ block txs, step = .persist block txs → ¬ step.Succeeds s :=
      fun block txs hstep hok => hstores ⟨block, txs, hstep, hok⟩
    have hnone : step.storedHashes s = [] := by
      cases step with
      | persist block txs => exact if_neg (hidle block txs rfl)
      | _ => rfl
    rw [hnone, and_iff_left List.not_mem_nil]
    exact mem_txes_next_of_idle hs hother h hheld hchain hidle hentry

/-- The transactions of a block are listed without those that a step stores elsewhere. -/
theorem Store.Sound.txesOf_next (hs : s.Sound) (hother : other ∈ s.chains.entries)
    (h : ¬ step.AddressedTo other) (hheld : held ∈ s.blocks.entries)
    (hchain : held.row.chain = other.id) :
    (step.next s).txesOf held.id =
      (s.txesOf held.id).filter fun tx => tx.row.hash ∉ step.storedHashes s := by
  have hnext := (step.keeps_next s hs).1
  refine Table.eq_of_ascending (hnext.pairwise_txesOf _) ((hs.pairwise_txesOf _).filter _)
    fun entry => ?_
  rw [mem_txesOf, List.mem_filter, mem_txesOf, decide_eq_true_eq, and_right_comm]
  exact and_congr_left fun hentry => Step.mem_txes_next hs hother h hheld hchain hentry

/-- A transaction that a step stores is found in a block of the chain that the step is told, under
the id that it had. -/
theorem Step.findTx?_next (hs : s.Sound) {addressed : Entry Chain}
    (haddressed : step.AddressedTo addressed) (hentry : entry ∈ s.txes.entries)
    (hstored : entry.row.hash ∈ step.storedHashes s) :
    ∃ moved, (step.next s).findTx? entry.row.hash = some moved ∧ moved.id = entry.id ∧
      ∃ target ∈ (step.next s).blocks.entries,
        target.id = moved.row.block ∧ target.row.chain = addressed.id := by
  cases step with
  | persist block txs =>
    rw [storedHashes] at hstored
    split at hstored
    · next hok =>
      obtain ⟨moved, target, hmoved, hid, htarget, hblock⟩ :=
        (stored_of_succeeds hs hok).find?_tx hs hstored
      obtain ⟨htargetMem, htargetKey⟩ := Store.mem_of_find? htarget
      refine ⟨moved, ?_, hid entry (hs.find?_eq_some.2 ⟨hentry, rfl⟩), target, htargetMem,
        hblock.symm, (congrArg Slot.parent (Key.slot.inj htargetKey)).trans haddressed⟩
      rw [← hmoved]
      simp [Store.findTx?, Store.find?, Table.find?, Store.get, TableName.key]
    · cases hstored
  | _ => cases hstored

end Pulled

/-- Chains do not disturb each other. Whatever is asked about the heights of one chain is answered
as before when a step has been told another one, be the step carried out or not. The blocks of the
chain keep their transactions, except for those that the step stores: these are found in the other
chain from then on, under the ids that they had. -/
theorem Store.Reachable.others_undisturbed (h : s.Reachable) {addressed other : Entry Chain}
    (haddressed : addressed ∈ s.chains.entries) (hother : other ∈ s.chains.entries)
    (hne : addressed ≠ other) (hstep : step.AddressedTo addressed) :
    s.Undisturbed (step.next s) other.id ∧
      ∀ held ∈ s.blocks.entries, held.row.chain = other.id →
        (step.next s).txesOf held.id =
          ((s.txesOf held.id).filter fun tx => tx.row.hash ∉ step.storedHashes s) ∧
        ∀ tx ∈ s.txesOf held.id, tx.row.hash ∈ step.storedHashes s →
          ∃ moved, (step.next s).findTx? tx.row.hash = some moved ∧ moved.id = tx.id ∧
            ∃ target ∈ (step.next s).blocks.entries,
              target.id = moved.row.block ∧ target.row.chain = addressed.id := by
  have hs := h.sound
  have helsewhere : ¬ step.AddressedTo other := fun hsame =>
    hne (hstep.unique hs haddressed hother hsame)
  refine ⟨hs.undisturbed_next hother helsewhere, fun held hheld hchain => ⟨?_, ?_⟩⟩
  · exact hs.txesOf_next hother helsewhere hheld hchain
  · exact fun tx htx hstored => Step.findTx?_next hs hstep (mem_txesOf.1 htx).1 hstored

/-- A block of one chain takes a transaction from a block of the other that has the same height. -/
theorem Store.Reachable.others_undisturbed_by_moved_tx :
    let s := (∅ : Store).after
      [.registerChain ⟨"a-1", "A"⟩, .registerChain ⟨"b-1", "B"⟩,
        .persist ⟨2, 5, Instant.zero⟩ [.new "h1" 0 none [], .new "h2" 0 none []]]
    let step : Step := .persist ⟨1, 5, Instant.zero⟩ [.new "h1" 7 none []]
    let first : Entry TxRow := ⟨1, ⟨"h1", 0, 1, none⟩⟩
    let second : Entry TxRow := ⟨2, ⟨"h2", 0, 1, none⟩⟩
    s.Undisturbed (step.next s) 2 ∧
      (∀ tx, tx ∈ s.txesOf 1 ↔ tx = first ∨ tx = second) ∧
      (∀ tx, tx ∈ (step.next s).txesOf 1 ↔ tx = second) ∧
      ∃ moved, (step.next s).findTx? "h1" = some moved ∧ moved.id = 1 ∧
        ∃ target ∈ (step.next s).blocks.entries,
          target.id = moved.row.block ∧ target.row.chain = 1 := by
  intro s step first second
  have hs : s.Reachable := Reachable.empty.after _
  let held : Entry BlockRow := ⟨1, Block.row ⟨2, 5, Instant.zero⟩ .txs⟩
  have haddressed : (⟨1, ⟨"a-1", "A"⟩⟩ : Entry Chain) ∈ s.chains.entries := by decide +kernel
  have hother : (⟨2, ⟨"b-1", "B"⟩⟩ : Entry Chain) ∈ s.chains.entries := by decide +kernel
  have hheld : held ∈ s.blocks.entries := by decide +kernel
  have htxes : s.txes.entries = [first, second] := by decide +kernel
  have hhashes : step.storedHashes s = ["h1"] := by decide +kernel
  have hstep : step.AddressedTo ⟨1, ⟨"a-1", "A"⟩⟩ := by
    show Block.chain ⟨1, 5, Instant.zero⟩ = 1
    decide
  have hlisted : ∀ tx, tx ∈ s.txesOf 1 ↔ tx = first ∨ tx = second := by
    intro tx
    rw [mem_txesOf, htxes, List.mem_pair]
    exact and_iff_left_of_imp fun h => by rcases h with rfl | rfl <;> rfl
  obtain ⟨hundisturbed, hblocks⟩ := hs.others_undisturbed haddressed hother (by decide) hstep
  obtain ⟨hleft, hmoved⟩ := hblocks held hheld (by decide)
  rw [hhashes] at hleft hmoved
  refine ⟨hundisturbed, hlisted, fun tx => ?_, ?_⟩
  · show tx ∈ (step.next s).txesOf held.id ↔ tx = second
    rw [hleft, List.mem_filter, hlisted]
    constructor
    · rintro ⟨rfl | rfl, hkept⟩
      · exact absurd hkept (by decide)
      · rfl
    · rintro rfl
      exact ⟨Or.inr rfl, by decide⟩
  · exact hmoved first ((hlisted first).2 (Or.inl rfl)) List.mem_cons_self

end BlockArchive
