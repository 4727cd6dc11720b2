import BlockArchive.Proofs.Marking
import BlockArchive.Proofs.View

/-!
# Changes of what a store tells

What becomes of the view of a store when a chain is registered, a height is marked or cleared, a
block is stored, or denominations are. Each change of the store is one of what it tells, and which
ids the rows have plays no part in it.

## Main definitions

- `View.register`, `View.mark`, `View.unmark`, `View.index`: the changes of chains and heights

## Main statements

- `Store.view_offer_chain`: registering a chain
- `Store.view_withMarker`, `Store.view_unmarked`: marking and clearing a height
- `Store.view_offer_block`: storing a block
-/

namespace BlockArchive

namespace View

/-- A chain goes by the name that it has or, if it is new, by the one that it brings. -/
def register (view : View) (chain : Chain) : View :=
  { view with
    chains := fun chainId =>
      if chainId = chain.chainId then some ((view.chains chainId).getD chain.name)
      else view.chains chainId }

/-- A pipeline has to try a height again. -/
def mark (view : View) (pipeline : Pipeline) (chain : String) (height : Int64) : View :=
  { view with
    marked := fun other chainId otherHeight =>
      view.marked other chainId otherHeight ||
        decide (other = pipeline ∧ chainId = chain ∧ otherHeight = height) }

/-- A pipeline need not try a height again. -/
def unmark (view : View) (pipeline : Pipeline) (chain : String) (height : Int64) : View :=
  { view with
    marked := fun other chainId otherHeight =>
      view.marked other chainId otherHeight &&
        !decide (other = pipeline ∧ chainId = chain ∧ otherHeight = height) }

/-- A pipeline has seen to a block. -/
def index (view : View) (pipeline : Pipeline) (chain : String) (block : Block) : View :=
  { view with
    blocks := fun chainId height =>
      if chainId = chain ∧ height = block.height then
        some {
          time := block.time.toTimestamp
          txIndexed := (view.blocks chainId height).any (·.txIndexed) || pipeline = .txs
          eventsIndexed :=
            (view.blocks chainId height).any (·.eventsIndexed) || pipeline = .events }
      else view.blocks chainId height }

end View

namespace Store

variable {s t : Store}

theorem find?_congr {n : TableName} (h : t.get n = s.get n) (k : Key) :
    t.find? n k = s.find? n k := by
  rw [find?, h, find?]

/-! ## Chains -/

theorem Sound.id_eq_iff (hs : s.Sound) {a b : Entry Chain} (ha : a ∈ s.chains.entries)
    (hb : b ∈ s.chains.entries) : a.id = b.id ↔ a.row.chainId = b.row.chainId := by
  constructor
  · intro hid
    rw [Table.eq_of_mem_entries ha hb hid]
  · intro htext
    rw [(hs.keyed .chains).eq_of_key ha hb (congrArg Key.text htext)]

theorem Sound.find?_chain (hs : s.Sound) {chain : Entry Chain} (hchain : chain ∈ s.chains.entries) :
    s.find? .chains (.text chain.row.chainId) = some chain :=
  hs.find?_eq_some.2 ⟨hchain, rfl⟩

/-- Under a chain that is not there no row has its place. -/
theorem Sound.find?_eq_none_of_chain (hs : s.Sound) {n : TableName} {id : Id} {height : Int64}
    (href : ∀ row, n.key row = .slot ⟨id, height⟩ →
      ∃ column, ⟨column, .chains, id⟩ ∈ n.references row)
    (hid : id ∉ s.chains.rows) : s.find? n (.slot ⟨id, height⟩) = none := by
  cases hfind : s.find? n (.slot ⟨id, height⟩) with
  | none => rfl
  | some entry =>
    obtain ⟨hmem, hkey⟩ := mem_of_find? hfind
    obtain ⟨column, href⟩ := href entry.row hkey
    exact absurd (hs.resolves n entry hmem _ href) hid

theorem Sound.find?_block_eq_none (hs : s.Sound) {id : Id} (hid : id ∉ s.chains.rows)
    (height : Int64) : s.find? .blocks (.slot ⟨id, height⟩) = none := by
  apply hs.find?_eq_none_of_chain _ hid
  intro row hkey
  have hchain : row.chain = id := congrArg Slot.parent (Key.slot.inj hkey)
  exact ⟨"blockchain_id", hchain ▸ List.mem_cons_self⟩

theorem Sound.find?_marker_eq_none (hs : s.Sound) (pipeline : Pipeline) {id : Id}
    (hid : id ∉ s.chains.rows) (height : Int64) :
    s.find? pipeline.table (.slot ⟨id, height⟩) = none := by
  cases pipeline <;>
  · apply hs.find?_eq_none_of_chain _ hid
    intro row hkey
    have hchain : row.chain = id := congrArg Slot.parent (Key.slot.inj hkey)
    exact ⟨"blockchain_id", hchain ▸ List.mem_cons_self⟩

theorem Sound.not_mem_of_nextId_le (hs : s.Sound) {n : TableName} {id : Id}
    (h : (s.get n).nextId ≤ id) : id ∉ (s.get n).rows := by
  intro hmem
  obtain ⟨entry, hentry, rfl⟩ := Table.mem_rows_iff.1 hmem
  exact Int.not_lt.2 h ((hs.keyed n).lt_nextId hentry)

/-- What is found under the text of a chain once it is registered. -/
theorem find?_offer_chain (hs : s.Sound) (chain : Chain) (chainId : String) :
    (s.offer .chains [chain]).find? .chains (.text chainId) =
      if chainId = chain.chainId then
        some ((s.find? .chains (.text chainId)).getD ⟨s.chains.nextId, chain⟩)
      else s.find? .chains (.text chainId) := by
  have hfind := (hs.keyed .chains).find?_offer TableName.chains.keepsKey_refresh chain
    (.text chainId)
  have hkey : TableName.key .chains chain = .text chainId ↔ chainId = chain.chainId := by
    simp [TableName.key, eq_comm]
  rw [find?, get_offer_self]
  refine hfind.trans ?_
  by_cases h : chainId = chain.chainId
  · subst h
    rw [if_pos (hkey.2 rfl), if_pos rfl]
    cases hstored : s.find? .chains (.text chain.chainId) with
    | some stored => rw [Table.offer_of_find? _ hstored]; rfl
    | none => rw [Table.offer_of_find?_none _ hstored]; rfl
  · rw [if_neg (mt hkey.1 h), if_neg h]
    rfl

/-! ## Transactions that stay as they are -/

theorem viewsBelow_congr {ν : Type} {n : TableName} (h : t.get n = s.get n)
    (read : Entry n.Row → Option ν) (parent : Id) :
    t.viewsBelow n read parent = s.viewsBelow n read parent := by
  funext index
  rw [viewsBelow, find?_congr h, viewsBelow]

/-- The tables that hold what is told of transactions, besides blocks and chains. -/
abbrev txTables : List TableName :=
  [.addresses, .txes, .messageTypes, .messages, .eventTypes, .events, .attributeKeys, .attributes]

/-- Transactions are told as before when their rows are, the chains that were there are, and the
blocks that were there are still in their places. -/
theorem view_txes_congr (hs : s.Sound) (hrest : ∀ n ∈ txTables, t.get n = s.get n)
    (hchains : ∀ entry ∈ s.chains.entries, entry ∈ t.chains.entries)
    (hblocks : ∀ entry ∈ s.blocks.entries,
      ∃ kept ∈ t.blocks.entries, kept.id = entry.id ∧ kept.row.slot = entry.row.slot) :
    t.view.txes = s.view.txes := by
  have haddresses : t.addresses = s.addresses := hrest .addresses (by decide)
  have hmessageTypes : t.messageTypes = s.messageTypes := hrest .messageTypes (by decide)
  have heventTypes : t.eventTypes = s.eventTypes := hrest .eventTypes (by decide)
  have hattributeKeys : t.attributeKeys = s.attributeKeys := hrest .attributeKeys (by decide)
  have hattribute : t.attributeView = s.attributeView := by
    funext entry
    simp only [attributeView, textOf, hattributeKeys]
  have hevent : t.eventView = s.eventView := by
    funext entry
    simp only [eventView, textOf, heventTypes, hattribute,
      viewsBelow_congr (hrest .attributes (by decide))]
  have hmessage : t.messageView = s.messageView := by
    funext entry
    simp only [messageView, textOf, hmessageTypes, hevent,
      viewsBelow_congr (hrest .events (by decide))]
  have hbelow : ∀ id, t.viewsBelow .messages t.messageView id =
      s.viewsBelow .messages s.messageView id := by
    intro id
    rw [hmessage, viewsBelow_congr (hrest .messages (by decide))]
  funext hash
  show (t.find? .txes (.text hash)).bind t.txView = (s.find? .txes (.text hash)).bind s.txView
  rw [find?_congr (hrest .txes (by decide))]
  cases hfind : s.find? .txes (.text hash) with
  | none => rfl
  | some entry =>
    obtain ⟨block, chain, signer, hblock, hchain, hsigner, hview⟩ :=
      hs.txView_eq (mem_of_find? hfind).1
    obtain ⟨kept, hkept, hid, hslot⟩ := hblocks ⟨_, block⟩ (Table.mem_entries.2 hblock)
    have hkeptRow : t.blocks.rows[entry.row.block]? = some kept.row := by
      have := Table.mem_entries.1 hkept
      rwa [hid] at this
    have hkeptChain : t.chains.rows[kept.row.chain]? = some chain := by
      rw [show kept.row.chain = block.chain from congrArg Slot.parent hslot]
      exact Table.mem_entries.1 (hchains ⟨_, chain⟩ (Table.mem_entries.2 hchain))
    have hheight : kept.row.height = block.height := congrArg Slot.index hslot
    rw [Option.bind_some, Option.bind_some, hview]
    simp only [txView, hkeptRow, hkeptChain, haddresses, hsigner, hheight, hbelow,
      Option.bind_eq_bind, Option.bind_some]
    rfl

/-! ## Registering a chain -/

theorem mem_offer_chain (hs : s.Sound) (chain : Chain) {entry : Entry Chain}
    (hentry : entry ∈ s.chains.entries) : entry ∈ (s.offer .chains [chain]).chains.entries :=
  (hs.keyed .chains).mem_offerAll_of_fixed TableName.chains.keepsKey_refresh hentry
    fun _ _ _ => rfl

theorem view_offer_chain (hs : s.Sound) (chain : Chain) :
    (s.offer .chains [chain]).view = s.view.register chain := by
  have hnew : s.chains.nextId ∉ s.chains.rows := hs.not_mem_of_nextId_le (n := .chains) (Int.le_refl _)
  apply View.ext
  · funext chainId
    simp only [view, View.register, find?_offer_chain hs]
    split
    · cases s.find? .chains (.text chainId) <;> rfl
    · rfl
  · funext chainId height
    simp only [view, View.register, find?_offer_chain hs, find?_offer_of_ne s [chain]
      (show .blocks ≠ TableName.chains by decide)]
    split
    · cases s.find? .chains (.text chainId) with
      | some stored => rfl
      | none => simp [hs.find?_block_eq_none hnew]
    · rfl
  · funext pipeline chainId height
    have hmarkers : ∀ k, (s.offer .chains [chain]).find? pipeline.table k =
        s.find? pipeline.table k := by
      cases pipeline <;> exact fun k => rfl
    simp only [view, View.register, find?_offer_chain hs, hmarkers]
    split
    · cases s.find? .chains (.text chainId) with
      | some stored => rfl
      | none => simp [hs.find?_marker_eq_none pipeline hnew]
    · rfl
  · rfl
  · funext kind text
    cases kind <;> rfl
  · have hrest : ∀ n ∈ txTables, (s.offer .chains [chain]).get n = s.get n := by
      intro n hn
      apply get_offer_of_ne
      rintro rfl
      revert hn
      decide
    have hblocks : (s.offer .chains [chain]).blocks = s.blocks := rfl
    apply view_txes_congr hs hrest fun _ => mem_offer_chain hs chain
    rw [hblocks]
    exact fun entry hentry => ⟨entry, hentry, rfl, rfl⟩
  · rfl
  · rfl

/-! ## Markers -/

/-- The key of a marker, whichever pipeline it is of. -/
def markerKey (row : MarkerRow) : Key :=
  .slot row.slot

theorem view_marked_eq (s : Store) (pipeline : Pipeline) (chainId : String) (height : Int64) :
    s.view.marked pipeline chainId height =
      ((s.find? .chains (.text chainId)).bind fun chain =>
        (s.markers pipeline).find? markerKey (.slot ⟨chain.id, height⟩)).isSome := by
  cases pipeline <;> rfl

theorem Sound.keyed_markers (hs : s.Sound) (pipeline : Pipeline) :
    (s.markers pipeline).Keyed markerKey := by
  cases pipeline with
  | txs => exact hs.keyed .failedBlocks
  | events => exact hs.keyed .failedEventBlocks

theorem markerKey_eq_iff {row : MarkerRow} {id : Id} {height : Int64} :
    markerKey row = .slot ⟨id, height⟩ ↔ row = ⟨height, id⟩ := by
  obtain ⟨rowHeight, rowChain⟩ := row
  simp [markerKey, MarkerRow.slot, and_comm]

section Marking

variable {pipeline : Pipeline} {chain : Entry Chain} {height : Int64}

/-- What is told of markers depends on one entry per chain and height. -/
theorem marked_of_find? (hs : s.Sound) (hchain : chain ∈ s.chains.entries)
    (hchains : t.chains = s.chains) (f : Bool → Bool → Bool)
    (hmarkers : ∀ id otherHeight,
      ((t.markers pipeline).find? markerKey (.slot ⟨id, otherHeight⟩)).isSome =
        f ((s.markers pipeline).find? markerKey (.slot ⟨id, otherHeight⟩)).isSome
          (decide (id = chain.id ∧ otherHeight = height)))
    (hf : f false false = false) (chainId : String) (otherHeight : Int64) :
    t.view.marked pipeline chainId otherHeight =
      f (s.view.marked pipeline chainId otherHeight)
        (decide (chainId = chain.row.chainId ∧ otherHeight = height)) := by
  have hfind : t.find? .chains (.text chainId) = s.find? .chains (.text chainId) :=
    find?_congr (n := .chains) hchains _
  rw [view_marked_eq, view_marked_eq, hfind]
  cases hother : s.find? .chains (.text chainId) with
  | none =>
    have hne : chainId ≠ chain.row.chainId := by
      rintro rfl
      rw [hs.find?_chain hchain] at hother
      cases hother
    simp [hne, hf]
  | some other =>
    obtain ⟨hmem, hkey⟩ := mem_of_find? hother
    have hid := hs.id_eq_iff hmem hchain
    rw [show other.row.chainId = chainId from Key.text.inj hkey] at hid
    simp only [Option.bind_some, hmarkers, hid]

theorem markers_withMarker (s : Store) (pipeline : Pipeline) (marker : MarkerRow) :
    (s.withMarker pipeline marker).markers pipeline =
        ((s.markers pipeline).offer markerKey (fun stored _ => stored) marker).2 ∧
      ∀ other ≠ pipeline, (s.withMarker pipeline marker).markers other = s.markers other := by
  cases pipeline <;> refine ⟨rfl, fun other hne => ?_⟩ <;>
    cases other <;> first | rfl | exact absurd rfl hne

theorem markers_unmarked (s : Store) (pipeline : Pipeline) (marker : MarkerRow) :
    (s.unmarked pipeline marker).markers pipeline =
        (s.markers pipeline).remove (fun entry => entry.row = marker) ∧
      ∀ other ≠ pipeline, (s.unmarked pipeline marker).markers other = s.markers other := by
  cases pipeline <;> refine ⟨rfl, fun other hne => ?_⟩ <;>
    cases other <;> first | rfl | exact absurd rfl hne

theorem marked_of_offer (hs : s.Sound) (hchain : chain ∈ s.chains.entries)
    (hchains : t.chains = s.chains)
    (hmarkers : t.markers pipeline =
      ((s.markers pipeline).offer markerKey (fun stored _ => stored) ⟨height, chain.id⟩).2)
    (hrest : ∀ other ≠ pipeline, t.markers other = s.markers other) :
    t.view.marked = (s.view.mark pipeline chain.row.chainId height).marked := by
  have hkeep : Table.KeepsKey markerKey fun stored _ => stored := fun _ _ _ => rfl
  funext other chainId otherHeight
  by_cases hother : other = pipeline
  · subst hother
    simp only [View.mark, true_and]
    refine marked_of_find? hs hchain hchains (· || ·) (fun id otherHeight => ?_) rfl _ _
    rw [hmarkers, (hs.keyed_markers other).find?_offer hkeep]
    by_cases hhere : id = chain.id ∧ otherHeight = height
    · obtain ⟨rfl, rfl⟩ := hhere
      simp [markerKey, MarkerRow.slot]
    · have hne : markerKey ⟨height, chain.id⟩ ≠ .slot ⟨id, otherHeight⟩ := by
        intro he
        cases markerKey_eq_iff.1 he
        exact hhere ⟨rfl, rfl⟩
      simp [hne, hhere]
  · simp only [View.mark, hother, false_and, decide_false, Bool.or_false]
    rw [view_marked_eq, view_marked_eq, hrest other hother, find?_congr (n := .chains) hchains]

theorem marked_of_remove (hs : s.Sound) (hchain : chain ∈ s.chains.entries)
    (hchains : t.chains = s.chains)
    (hmarkers : t.markers pipeline =
      (s.markers pipeline).remove fun entry => entry.row = ⟨height, chain.id⟩)
    (hrest : ∀ other ≠ pipeline, t.markers other = s.markers other) :
    t.view.marked = (s.view.unmark pipeline chain.row.chainId height).marked := by
  funext other chainId otherHeight
  by_cases hother : other = pipeline
  · subst hother
    simp only [View.unmark, true_and]
    refine marked_of_find? hs hchain hchains (· && !·) (fun id otherHeight => ?_) rfl _ _
    rw [hmarkers, (hs.keyed_markers other).find?_remove]
    cases hfind : (s.markers other).find? markerKey (.slot ⟨id, otherHeight⟩) with
    | none => rfl
    | some entry =>
      have hrow := markerKey_eq_iff.1 (Table.mem_of_find? hfind).2
      simp only [Option.filter_some, hrow, MarkerRow.mk.injEq, Option.isSome_some, Bool.true_and]
      by_cases hhere : id = chain.id ∧ otherHeight = height
      · simp [hhere]
      · simp [hhere, mt And.symm hhere]
  · simp only [View.unmark, hother, false_and, decide_false, Bool.not_false, Bool.and_true]
    rw [view_marked_eq, view_marked_eq, hrest other hother, find?_congr (n := .chains) hchains]

theorem view_withMarker (hs : s.Sound) (hchain : chain ∈ s.chains.entries) :
    (s.withMarker pipeline ⟨height, chain.id⟩).view =
      s.view.mark pipeline chain.row.chainId height := by
  obtain ⟨hmarkers, hrest⟩ := s.markers_withMarker pipeline ⟨height, chain.id⟩
  apply View.ext
  case marked =>
    exact marked_of_offer hs hchain (by cases pipeline <;> rfl) hmarkers hrest
  all_goals cases pipeline <;> first | rfl | (funext kind text; cases kind <;> rfl)

theorem view_unmarked (hs : s.Sound) (hchain : chain ∈ s.chains.entries) :
    (s.unmarked pipeline ⟨height, chain.id⟩).view =
      s.view.unmark pipeline chain.row.chainId height := by
  obtain ⟨hmarkers, hrest⟩ := s.markers_unmarked pipeline ⟨height, chain.id⟩
  apply View.ext
  case marked =>
    exact marked_of_remove hs hchain (by cases pipeline <;> rfl) hmarkers hrest
  all_goals cases pipeline <;> first | rfl | (funext kind text; cases kind <;> rfl)

end Marking

/-! ## Blocks -/

/-- A block that a pipeline has seen to is told of. -/
theorem blocks_of_offer (hs : s.Sound) {pipeline : Pipeline} {block : Block} {chain : Chain}
    (hchain : s.chains.rows[block.chain]? = some chain) (hchains : t.chains = s.chains)
    (hblocks : t.get .blocks = ((s.get .blocks).offer (TableName.key .blocks)
      (TableName.refresh .blocks) (block.row pipeline)).2) :
    t.view.blocks = (s.view.index pipeline chain.chainId block).blocks := by
  have hentry : (⟨block.chain, chain⟩ : Entry Chain) ∈ s.chains.entries :=
    Table.mem_entries.2 hchain
  have hslot : TableName.key .blocks (block.row pipeline) = .slot ⟨block.chain, block.height⟩ := rfl
  funext chainId height
  simp only [view, View.index, find?_congr (n := .chains) hchains]
  cases hfind : s.find? .chains (.text chainId) with
  | none =>
    have hne : chainId ≠ chain.chainId := by
      rintro rfl
      rw [hs.find?_chain hentry] at hfind
      cases hfind
    simp [hne]
  | some other =>
    obtain ⟨hmem, hkey⟩ := mem_of_find? hfind
    have hid := hs.id_eq_iff hmem hentry
    rw [show other.row.chainId = chainId from Key.text.inj hkey] at hid
    have hoffer := (hs.keyed .blocks).find?_offer TableName.blocks.keepsKey_refresh
      (block.row pipeline) (.slot ⟨other.id, height⟩)
    rw [← hblocks, hslot] at hoffer
    simp only [Option.bind_eq_bind, Option.bind_some, ← hid]
    by_cases hhere : other.id = block.chain ∧ height = block.height
    · obtain ⟨hchainId, rfl⟩ := hhere
      rw [hchainId, if_pos rfl] at hoffer
      rw [hchainId, if_pos ⟨rfl, rfl⟩, find?, hoffer, Option.bind_some]
      have hsettles := Table.settles_offer (s.get .blocks) (TableName.key .blocks)
        (TableName.refresh .blocks) (block.row pipeline)
      cases hold : s.find? .blocks (.slot ⟨block.chain, block.height⟩) with
      | some stored =>
        rw [hsettles.of_find? hold]
        simp [TableName.refresh, Block.row]
      | none =>
        rw [(hsettles.of_find?_none hold).2]
        simp [Block.row]
    · have hne : ¬ Key.slot ⟨block.chain, block.height⟩ = .slot ⟨other.id, height⟩ := by
        intro he
        obtain ⟨hparent, hindex⟩ := Slot.mk.inj (Key.slot.inj he)
        exact hhere ⟨hparent.symm, hindex.symm⟩
      rw [if_neg hne] at hoffer
      rw [if_neg hhere, find?, hoffer]
      rfl

theorem view_offer_block (hs : s.Sound) {pipeline : Pipeline} {block : Block} {chain : Chain}
    (hchain : s.chains.rows[block.chain]? = some chain) :
    (s.offer .blocks [block.row pipeline]).view = s.view.index pipeline chain.chainId block := by
  have hblocks : ∀ entry ∈ s.blocks.entries,
      ∃ kept ∈ (s.offer .blocks [block.row pipeline]).blocks.entries,
        kept.id = entry.id ∧ kept.row.slot = entry.row.slot := by
    intro entry hentry
    obtain ⟨kept, hkept, hid, hkey⟩ := (hs.keyed .blocks).exists_mem_offerAll
      TableName.blocks.keepsKey_refresh [block.row pipeline] hentry
    exact ⟨kept, hkept, hid, Key.slot.inj hkey⟩
  have hrest : ∀ n ∈ txTables, (s.offer .blocks [block.row pipeline]).get n = s.get n := by
    intro n hn
    apply get_offer_of_ne
    rintro rfl
    revert hn
    decide
  apply View.ext
  case blocks => exact blocks_of_offer hs hchain rfl rfl
  case txes => exact view_txes_congr hs hrest (fun _ hentry => hentry) hblocks
  case marked =>
    funext other
    cases other <;> rfl
  case texts =>
    funext kind
    cases kind <;> rfl
  all_goals rfl

end Store

end BlockArchive
