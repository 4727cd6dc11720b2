import BlockArchive.Proofs.Changes
import BlockArchive.Proofs.Persist.Below
import BlockArchive.Proofs.Persist.Outcome

/-!
# Storing a block lays it over what the store tells

What a store tells after a block has been stored is what it told before with the block laid over it.
Ids have no part in it: rows that are new and rows that were there, under whatever ids and whatever
blocks, come out in the same way.

## Main statements

- `Persist.txView_of_mem`, `Persist.txView_of_rest`: transactions that a block brings, and others
- `Persist.view_of_stored`: what is told after a block has been stored
- `Store.Reachable.view_persist`: storing a block refines laying it over
-/

namespace BlockArchive

open Persist

/-- Laying a block over a view stores the block itself as any pipeline does. -/
theorem View.blocks_persist (view : View) (chain : String) (block : Block) (txs : List Tx) :
    (view.persist chain block txs).blocks = (view.index .txs chain block).blocks := by
  funext chainId height
  simp [View.persist, View.index]

namespace Persist

variable {block : Block} {txs all : List Tx} {s t : Store}

section Stored

variable (hs : s.Sound) (h : Stored block txs s t) (hhashes : (txs.map (·.hash)).Nodup)
  (hfault : levelFault? (ReferenceData.collect txs) txs = none)

include hs h hhashes hfault

/-! ## Transactions -/

omit hs hhashes hfault in
theorem Stored.get_chains : t.get .chains = s.get .chains := h.rest .chains (by decide)

omit hhashes hfault in
theorem Stored.exists_kept {n : TableName} (hn : n ∈ storedTables) {entry : Entry n.Row}
    (hentry : entry ∈ (s.get n).entries) :
    ∃ kept ∈ (t.get n).entries, kept.id = entry.id ∧ n.key kept.row = n.key entry.row := by
  rw [h.tables n hn]
  exact (hs.keyed n).exists_mem_offerAll n.keepsKey_refresh _ hentry

/-- A transaction that the block does not bring is told as before. -/
theorem txView_of_rest {entry : Entry TxRow} (hentry : entry ∈ s.txes.entries)
    (hfind : t.find? .txes (.text entry.row.hash) = some entry)
    (hfree : ∀ tx ∈ txs, tx.hash ≠ entry.row.hash) : t.txView entry = s.txView entry := by
  obtain ⟨block', chain, signer, hblock, hchain, hsigner, hview⟩ := hs.txView_eq hentry
  -- its block is still there, at the same height of the same chain
  have hblockEntry : (⟨entry.row.block, block'⟩ : Entry BlockRow) ∈ s.blocks.entries :=
    Table.mem_entries.2 hblock
  obtain ⟨kept, hkept, hid, hkey⟩ := Stored.exists_kept hs h (n := .blocks) (by decide) hblockEntry
  have hkeptRow : t.blocks.rows[entry.row.block]? = some kept.row := by
    have := Table.mem_entries.1 hkept
    rwa [hid] at this
  have hslot : kept.row.slot = block'.slot := Key.slot.inj hkey
  have hheight : kept.row.height = block'.height := congrArg Slot.index hslot
  have hchainId : kept.row.chain = block'.chain := congrArg Slot.parent hslot
  have hchains : t.chains = s.chains := h.get_chains
  have hsigners : (entry.row.signer.mapM fun id => t.addresses.rows[id]?) = some signer := by
    cases hcase : entry.row.signer with
    | none => rw [hcase] at hsigner; exact hsigner
    | some id =>
      rw [hcase, Option.mapM_some] at hsigner
      cases haddress : s.addresses.rows[id]? with
      | none => rw [haddress] at hsigner; cases hsigner
      | some address =>
        have haddressEntry : (⟨id, address⟩ : Entry String) ∈ s.addresses.entries :=
          Table.mem_entries.2 haddress
        have hkeptAddress : t.addresses.rows[id]? = some address := Table.mem_entries.1
          (h.kept hs (n := .addresses) (by decide) (fun _ _ => rfl) haddressEntry)
        rw [haddress] at hsigner
        rw [Option.mapM_some, hkeptAddress]
        exact hsigner
  have hparents : ∀ tx ∈ txs, t.txId tx ≠ entry.id := by
    intro tx htx he
    obtain ⟨other, hother, _⟩ := h.settles_tx hs (by decide) htx
    rw [← Store.idOf_eq hfind] at he
    exact hfree tx htx (Key.text.inj (Store.key_eq_of_idOf hother hfind he))
  rw [hview]
  simp only [Store.txView, hkeptRow, hchains, hchainId, hchain, hsigners, hheight,
    Option.bind_eq_bind, Option.bind_some, messageViews_other hs h hhashes hfault hparents]
  rfl

/-- A transaction that the block brings is laid over the one with its hash. -/
theorem txView_of_mem {chain : Chain} (hchain : s.chains.rows[block.chain]? = some chain) {tx : Tx}
    (htx : tx ∈ txs) :
    (t.find? .txes (.text tx.hash)).bind t.txView =
      some (tx.over chain.chainId block.height
        ((s.find? .txes (.text tx.hash)).bind s.txView)) := by
  obtain ⟨entry, hfind, hsettles⟩ := h.settles hs (n := .txes) (by decide)
    (List.mem_map_of_mem htx : _ ∈ written block txs t .txes)
  have hrow := hsettles.row_eq fun _ _ => rfl
  obtain ⟨blockEntry, hblockFind, _⟩ := h.settles hs (by decide) (mem_written_block block txs t)
  have hblock : t.blocks.rows[entry.row.block]? = some blockEntry.row := by
    rw [hrow]
    exact Store.getElem?_idOf hblockFind
  have hslot : blockEntry.row.slot = (block.row .txs).slot :=
    Key.slot.inj (Store.mem_of_find? hblockFind).2
  have hheight : blockEntry.row.height = block.height := congrArg Slot.index hslot
  have hchainId : blockEntry.row.chain = block.chain := congrArg Slot.parent hslot
  have hchains : t.chains = s.chains := h.get_chains
  have hsigners : (entry.row.signer.mapM fun id => t.addresses.rows[id]?) = some tx.signer := by
    rw [hrow]
    cases hsigner : tx.signer with
    | none => rfl
    | some address =>
      obtain ⟨addressEntry, haddress, _⟩ := h.settles hs (n := .addresses) (by decide)
        (mem_written_address htx hsigner)
      have haddressRow : t.addresses.rows[t.idOf .addresses (.text address)]? = some address := by
        have hsame : addressEntry.row = address := Key.text.inj (Store.mem_of_find? haddress).2
        exact hsame ▸ Store.getElem?_idOf haddress
      rw [Option.map_some, Option.mapM_some, haddressRow]
      rfl
  have hid : t.txId tx = entry.id := Store.idOf_eq hfind
  have hbelow := messageViews_member hs h hhashes hfault htx
  have hgives := Store.Gives.of_settles hsettles
  rw [hid, hs.viewsBelow_of_gives Level.messages hgives] at hbelow
  have hcode : entry.row.code = tx.code := by rw [hrow]
  have hfind : t.find? .txes (.text tx.hash) = some entry := hfind
  rw [hfind, Option.bind_some]
  simp only [Store.txView, hblock, hchains, hchainId, hchain, hsigners, hheight, hcode,
    Option.bind_eq_bind, Option.bind_some, hbelow]
  simp only [Tx.over, hs.messages_of_txView]
  rfl

omit hs hhashes hfault in
theorem find?_chains (k : Key) : t.find? .chains k = s.find? .chains k := by
  rw [Store.find?, h.get_chains, Store.find?]

omit hhashes hfault in
theorem view_blocks {chain : Chain} (hchain : s.chains.rows[block.chain]? = some chain) :
    t.view.blocks = (s.view.persist chain.chainId block all).blocks := by
  have hblocks := Store.blocks_of_offer hs hchain h.get_chains (h.tables .blocks (by decide))
  rw [hblocks, View.blocks_persist]

omit hhashes hfault in
theorem view_marked {chain : Chain} (hchain : s.chains.rows[block.chain]? = some chain) :
    t.view.marked = (s.view.persist chain.chainId block all).marked := by
  have hentry : (⟨block.chain, chain⟩ : Entry Chain) ∈ s.chains.entries := Table.mem_entries.2 hchain
  have hmarkers : t.markers .txs = (s.markers .txs).remove fun entry => entry.row = block.marker :=
    (h.rest .failedBlocks h.markers).trans (Store.get_set_self ..)
  have hrest : ∀ other ≠ Pipeline.txs, t.markers other = s.markers other := by
    intro other hother
    cases other with
    | txs => exact absurd rfl hother
    | events => exact h.get_other (n := .failedEventBlocks) (by decide) (by decide)
  exact Store.marked_of_remove hs hentry h.get_chains hmarkers hrest

omit hhashes hfault in
theorem view_addresses (address : String) :
    t.view.addresses address =
      (s.view.addresses address || txs.any fun tx => tx.signer = some address) := by
  simp only [Store.view, h.isSome_find? hs (n := .addresses) (by decide)]
  congr 1
  rw [Bool.eq_iff_iff]
  simp [written, TableName.key, ReferenceData.mem_signers_collect]

omit hhashes hfault in
theorem view_texts (kind : ReferenceKind) (text : String) :
    t.view.texts kind text =
      (s.view.texts kind text || decide (text ∈ (ReferenceData.collect txs).texts kind)) := by
  have hn : kind.table ∈ storedTables := by
    cases kind <;> decide
  simp only [Store.view, h.isSome_find? hs hn]
  congr 1
  rw [Bool.eq_iff_iff]
  cases kind <;> simp [written, TableName.key]

end Stored

theorem view_txes (hs : s.Sound) (h : Stored block (Tx.uniqueByHash all) s t)
    (hhashes : ((Tx.uniqueByHash all).map (·.hash)).Nodup)
    (hfault : levelFault? (ReferenceData.collect (Tx.uniqueByHash all))
      (Tx.uniqueByHash all) = none)
    {chain : Chain} (hchain : s.chains.rows[block.chain]? = some chain) (hash : String) :
    t.view.txes hash = (s.view.persist chain.chainId block all).txes hash := by
  simp only [Store.view, View.persist]
  cases hlast : Tx.last? all hash with
  | some tx =>
    have hhash := (Tx.hash_of_last? hlast).2
    subst hhash
    exact txView_of_mem hs h hhashes hfault hchain (Tx.mem_uniqueByHash.2 hlast)
  | none =>
    have hfree : ∀ tx ∈ Tx.uniqueByHash all, tx.hash ≠ hash := by
      rintro tx htx rfl
      rw [Tx.mem_uniqueByHash, hlast] at htx
      cases htx
    have hsame : t.find? .txes (.text hash) = s.find? .txes (.text hash) := by
      apply h.find?_of_free hs (n := .txes) (by decide)
      intro row hrow he
      obtain ⟨tx, htx, rfl⟩ := List.mem_map.1 hrow
      exact hfree tx htx (Key.text.inj he)
    rw [hsame]
    cases hfind : s.find? .txes (.text hash) with
    | none => rfl
    | some entry =>
      obtain ⟨hmem, hkey⟩ := Store.mem_of_find? hfind
      have hhash : entry.row.hash = hash := Key.text.inj hkey
      subst hhash
      exact txView_of_rest hs h hhashes hfault hmem (hsame.trans hfind) hfree

/-- After the survivors of a list of transactions have been stored with their block, the store tells
what it told before with the block laid over it. -/
theorem view_of_stored (hs : s.Sound) {all : List Tx} (h : Stored block (Tx.uniqueByHash all) s t)
    (hfault : levelFault? (ReferenceData.collect (Tx.uniqueByHash all))
      (Tx.uniqueByHash all) = none)
    {chain : Chain} (hchain : s.chains.rows[block.chain]? = some chain) :
    t.view = s.view.persist chain.chainId block all := by
  have hhashes := Tx.nodup_hashes all
  apply View.ext
  · funext chainId
    simp only [Store.view, View.persist, find?_chains h]
  · exact view_blocks hs h hchain
  · exact view_marked hs h hchain
  · funext address
    exact view_addresses hs h address
  · funext kind text
    exact view_texts hs h kind text
  · funext hash
    exact view_txes hs h hhashes hfault hchain hash
  · simp only [Store.view, View.persist, Store.find?,
      h.get_other (n := .denoms) (by decide) (by decide),
      h.get_other (n := .denomUnits) (by decide) (by decide)]
  · simp only [Store.view, View.persist, Store.find?,
      h.get_other (n := .ibcDenoms) (by decide) (by decide)]

end Persist

/-- In every store that is reached, storing a block lays it over what the store tells and changes
nothing else. -/
theorem Store.Reachable.view_persist {s : Store} (h : s.Reachable) {block : Block} {txs : List Tx}
    (hok : (Step.persist block txs).Succeeds s) :
    ∃ chain, s.chains.rows[block.chain]? = some chain ∧
      ((Step.persist block txs).next s).view = s.view.persist chain.chainId block txs := by
  have hstored := Step.stored_of_succeeds h.sound hok
  rw [Step.succeeds_persist_iff h.sound, fault?_eq_none] at hok
  obtain ⟨_, hfits⟩ := hok
  obtain ⟨chain, hchain⟩ := Option.isSome_iff_exists.1
    (Std.ExtTreeMap.mem_iff_isSome_getElem?.1 hfits.chain)
  have hfault := levelFault?_eq_none.2 ⟨hfits.messages, hfits.events, hfits.attributes⟩
  exact ⟨chain, hchain, view_of_stored h.sound hstored hfault hchain⟩

/-- A transaction that is brought again by a later block loses its signer and gains a message, and
keeps the message that it had. -/
theorem Store.Reachable.view_persist_of_moved_tx :
    let s := (Step.persist ⟨1, 7, Instant.zero⟩
        [Tx.new "h1" 0 (some "alice") [⟨"send", 0, [⟨"transfer", 0, [⟨"amount", 0, "5"⟩]⟩]⟩]]).next
      ((Step.registerChain ⟨"a-1", "A"⟩).next ∅)
    let block : Block := ⟨1, 8, Instant.zero⟩
    let txs := [Tx.new "h1" 3 none [⟨"vote", 1, []⟩]]
    let t := (Step.persist block txs).next s
    t.view = s.view.persist "a-1" block txs ∧
      (t.view.txes "h1").map (fun view => (view.code, view.height, view.signer)) =
        some (3, 8, none) ∧
      ((t.view.txes "h1").bind fun view => (view.messages 0).map (·.messageType)) = some "send" ∧
      ((t.view.txes "h1").bind fun view => (view.messages 1).map (·.messageType)) =
        some "vote" := by
  intro s block txs t
  have hs : s.Reachable := .step (.step .empty _) _
  have hok : (Step.persist block txs).Succeeds s := ⟨none, by decide +kernel⟩
  obtain ⟨chain, hchain, hview⟩ := hs.view_persist hok
  have hname : s.chains.rows[block.chain]? = some ⟨"a-1", "A"⟩ := by decide +kernel
  rw [hname] at hchain
  cases hchain
  exact ⟨hview, by decide +kernel, by decide +kernel, by decide +kernel⟩

end BlockArchive
