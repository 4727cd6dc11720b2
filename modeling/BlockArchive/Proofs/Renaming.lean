import BlockArchive.Proofs.Changes

/-!
# Stores that tell the same

Nothing but the ids is lost when a store is told. Two sound stores that tell the same hold the same
rows, table by table, under other ids, and a row of the one refers to the counterparts of what the
row refers to in the other.

## Main definitions

- `TableName.rename`: a row with other ids for what it refers to
- `Store.Renames`: the rows of a store are in another, under other ids
- `Store.SameButIds`: two stores differ only in their ids
- `Store.counterpart`: the ids that the rows of a store have in another

## Main statements

- `Store.renames_of_view`: the rows of a store are in every store that tells the same
- `Store.sameButIds_of_view`: two stores that tell the same differ only in their ids
-/

namespace BlockArchive

/-- The key under another id of the parent, if there is a parent. -/
def Key.under (name : Id → Id) : Key → Key
  | .text of => .text of
  | .slot place => .slot ⟨name place.parent, place.index⟩
  | .named parent of => .named (name parent) of

/-- The id of the parent, if there is one. -/
def Key.parent? : Key → Option Id
  | .text _ => none
  | .slot place => some place.parent
  | .named parent _ => some parent

theorem Key.under_under (f g : Id → Id) (k : Key) :
    (k.under f).under g = k.under fun id => g (f id) := by
  cases k <;> rfl

theorem Key.under_eq_self {f : Id → Id} {k : Key} (h : ∀ parent ∈ k.parent?, f parent = parent) :
    k.under f = k := by
  cases k with
  | text of => rfl
  | slot place => rw [under, h place.parent rfl]
  | named parent of => rw [under, h parent rfl]

namespace TableName

/-- The row with other ids for what it refers to. -/
def rename (name : TableName → Id → Id) : (n : TableName) → n.Row → n.Row
  | blocks, row => { row with chain := name chains row.chain }
  | txes, row =>
    { row with block := name blocks row.block, signer := row.signer.map (name addresses) }
  | messages, row =>
    { row with tx := name txes row.tx, messageType := name messageTypes row.messageType }
  | events, row =>
    { row with message := name messages row.message, eventType := name eventTypes row.eventType }
  | attributes, row =>
    { row with event := name events row.event, key := name attributeKeys row.key }
  | failedBlocks, row => { row with chain := name chains row.chain }
  | failedEventBlocks, row => { row with chain := name chains row.chain }
  | denomUnits, row => { row with denom := name denoms row.denom }
  | chains, row | addresses, row | messageTypes, row | eventTypes, row | attributeKeys, row
  | denoms, row | ibcDenoms, row => row

/-- The table of the rows under which those of a table have their places. -/
def above : TableName → TableName
  | blocks | failedBlocks | failedEventBlocks => chains
  | messages => txes
  | events => messages
  | attributes => events
  | denomUnits => denoms
  | n => n

theorem key_rename (name : TableName → Id → Id) (n : TableName) (row : n.Row) :
    n.key (n.rename name row) = (n.key row).under (name n.above) := by
  cases n <;> rfl

theorem exists_above {n : TableName} {row : n.Row} {parent : Id}
    (h : parent ∈ (n.key row).parent?) : ∃ column, ⟨column, n.above, parent⟩ ∈ n.references row := by
  cases n <;> cases h
  all_goals exact ⟨_, List.mem_cons_self⟩

end TableName

theorem ReferenceKind.key_table (kind : ReferenceKind) (row : kind.table.Row) :
    ∃ of, kind.table.key row = .text of ∧ ∀ other, kind.table.key other = .text of → other = row := by
  cases kind <;> exact ⟨row, rfl, fun _ => Key.text.inj⟩

namespace Store

variable {s t : Store} {n : TableName}

/-- The rows of the store are in the other, under other ids. -/
def Renames (name : TableName → Id → Id) (s t : Store) : Prop :=
  ∀ n, ∀ entry ∈ (s.get n).entries,
    ⟨name n entry.id, n.rename name entry.row⟩ ∈ (t.get n).entries

/-- The stores hold the same rows, table by table, under other ids. -/
def SameButIds (s t : Store) : Prop :=
  ∃ name back, Renames name s t ∧ Renames back t s ∧
    (∀ n, ∀ id ∈ (s.get n).rows, back n (name n id) = id) ∧
    ∀ n, ∀ id ∈ (t.get n).rows, name n (back n id) = id

/-- The id that a row has in the other store, given those of the rows above it. -/
def idIn (s t : Store) (n : TableName) (name : Id → Id) (id : Id) : Id :=
  ((s.get n).rows[id]?).elim id fun row => t.idOf n ((n.key row).under name)

/-- The ids that the rows of the store have in the other. -/
def counterpart (s t : Store) : TableName → Id → Id
  | .blocks => s.idIn t .blocks (s.idIn t .chains id)
  | .failedBlocks => s.idIn t .failedBlocks (s.idIn t .chains id)
  | .failedEventBlocks => s.idIn t .failedEventBlocks (s.idIn t .chains id)
  | .messages => s.idIn t .messages (s.idIn t .txes id)
  | .events => s.idIn t .events (s.idIn t .messages (s.idIn t .txes id))
  | .attributes =>
    s.idIn t .attributes (s.idIn t .events (s.idIn t .messages (s.idIn t .txes id)))
  | .denomUnits => s.idIn t .denomUnits (s.idIn t .denoms id)
  | n => s.idIn t n id

theorem counterpart_eq (s t : Store) (n : TableName) :
    s.counterpart t n = s.idIn t n (s.counterpart t n.above) := by
  cases n <;> rfl

theorem counterpart_of_key (ht : t.Sound) {entry entry' : Entry n.Row}
    (hentry : entry ∈ (s.get n).entries) (hentry' : entry' ∈ (t.get n).entries)
    (hkey : n.key entry'.row = (n.key entry.row).under (s.counterpart t n.above)) :
    s.counterpart t n entry.id = entry'.id := by
  rw [counterpart_eq, idIn, Table.mem_entries.1 hentry, Option.elim_some]
  exact idOf_eq (ht.find?_eq_some.2 ⟨hentry', hkey⟩)

theorem counterpart_of_row (ht : t.Sound) {entry entry' : Entry n.Row}
    (hentry : entry ∈ (s.get n).entries) (hentry' : entry' ∈ (t.get n).entries)
    (hrow : entry'.row = n.rename (s.counterpart t) entry.row) :
    s.counterpart t n entry.id = entry'.id := by
  apply counterpart_of_key ht hentry hentry'
  rw [hrow, TableName.key_rename]

theorem counterpart_of_text (ht : t.Sound) {entry entry' : Entry n.Row}
    (hentry : entry ∈ (s.get n).entries) (hentry' : entry' ∈ (t.get n).entries) {of : String}
    (hkey : n.key entry.row = .text of) (hkey' : n.key entry'.row = .text of) :
    s.counterpart t n entry.id = entry'.id := by
  apply counterpart_of_key ht hentry hentry'
  rw [hkey, hkey', Key.under]

theorem counterpart_of_textOf (ht : t.Sound) {kind : ReferenceKind} {id id' : Id} {of : String}
    (hid : s.textOf kind id = some of) (hid' : t.textOf kind id' = some of) :
    s.counterpart t kind.table id = id' := by
  obtain ⟨entry, hentry, rfl, hkey⟩ := textOf_eq_some.1 hid
  obtain ⟨entry', hentry', rfl, hkey'⟩ := textOf_eq_some.1 hid'
  exact counterpart_of_text ht hentry hentry' hkey hkey'

/-- Every row of the table is in the other store, with other ids for what it refers to. -/
def Follows (s t : Store) (n : TableName) : Prop :=
  ∀ entry ∈ (s.get n).entries, ∃ entry' ∈ (t.get n).entries,
    entry'.row = n.rename (s.counterpart t) entry.row

theorem Follows.mem (h : s.Follows t n) (ht : t.Sound) {entry : Entry n.Row}
    (hentry : entry ∈ (s.get n).entries) :
    ⟨s.counterpart t n entry.id, n.rename (s.counterpart t) entry.row⟩ ∈ (t.get n).entries := by
  obtain ⟨entry', hentry', hrow⟩ := h entry hentry
  rw [counterpart_of_row ht hentry hentry' hrow, ← hrow]
  exact hentry'

/-- A table follows if in the place of every row there is one like it. -/
theorem follows_of_find?
    (hfind : ∀ entry ∈ (s.get n).entries, ∃ entry',
      t.find? n ((n.key entry.row).under (s.counterpart t n.above)) = some entry' ∧
        (n.key entry'.row = (n.key entry.row).under (s.counterpart t n.above) →
          entry'.row = n.rename (s.counterpart t) entry.row)) : s.Follows t n := by
  intro entry hentry
  obtain ⟨entry', hfind, hrow⟩ := hfind entry hentry
  obtain ⟨hentry', hkey⟩ := mem_of_find? hfind
  exact ⟨entry', hentry', hrow hkey⟩

section View

variable (hs : s.Sound) (ht : t.Sound) (h : s.view = t.view)

include hs ht h

/-! ## Tables whose rows stand alone -/

omit ht in
theorem follows_chains : s.Follows t .chains := by
  refine follows_of_find? fun entry hentry => ?_
  have hsame := congrFun (congrArg View.chains h) entry.row.chainId
  simp only [view, hs.find?_chain hentry, Option.map_some] at hsame
  obtain ⟨entry', hfind, hname⟩ := Option.map_eq_some_iff.1 hsame.symm
  refine ⟨entry', hfind, fun hkey => ?_⟩
  obtain ⟨id, chainId, name⟩ := entry
  obtain ⟨id', chainId', name'⟩ := entry'
  cases hkey
  cases hname
  rfl

omit ht in
theorem follows_addresses : s.Follows t .addresses := by
  refine follows_of_find? fun entry hentry => ?_
  have hsame := congrFun (congrArg View.addresses h) entry.row
  have hthere : s.find? .addresses (.text entry.row) = some entry :=
    hs.find?_eq_some.2 ⟨hentry, rfl⟩
  simp only [view, hthere] at hsame
  obtain ⟨entry', hfind⟩ := Option.isSome_iff_exists.1 hsame.symm
  exact ⟨entry', hfind, Key.text.inj⟩

omit ht in
theorem follows_texts (kind : ReferenceKind) : s.Follows t kind.table := by
  refine follows_of_find? fun entry hentry => ?_
  obtain ⟨of, hkey, hrow⟩ := kind.key_table entry.row
  have hsame := congrFun (congrFun (congrArg View.texts h) kind) of
  have hthere : s.find? kind.table (.text of) = some entry := hs.find?_eq_some.2 ⟨hentry, hkey⟩
  simp only [view, hthere] at hsame
  obtain ⟨entry', hfind⟩ := Option.isSome_iff_exists.1 hsame.symm
  rw [hkey]
  refine ⟨entry', hfind, fun hkey' => ?_⟩
  rw [hrow entry'.row hkey']
  cases kind <;> rfl

omit ht in
theorem follows_denoms : s.Follows t .denoms := by
  refine follows_of_find? fun entry hentry => ?_
  have hsame := congrFun (congrArg View.denoms h) entry.row.base
  have hthere : s.find? .denoms (.text entry.row.base) = some entry :=
    hs.find?_eq_some.2 ⟨hentry, rfl⟩
  simp only [view, hthere, Option.map_some] at hsame
  obtain ⟨entry', hfind, hdenom⟩ := Option.map_eq_some_iff.1 hsame.symm
  refine ⟨entry', hfind, fun hkey => ?_⟩
  obtain ⟨hname, hsymbol, _⟩ := DenomView.mk.inj hdenom
  obtain ⟨id, base, name, symbol⟩ := entry
  obtain ⟨id', base', name', symbol'⟩ := entry'
  cases hkey
  cases hname
  cases hsymbol
  rfl

omit ht in
theorem follows_ibcDenoms : s.Follows t .ibcDenoms := by
  refine follows_of_find? fun entry hentry => ?_
  have hsame := congrFun (congrArg View.ibcDenoms h) entry.row.hash
  have hthere : s.find? .ibcDenoms (.text entry.row.hash) = some entry :=
    hs.find?_eq_some.2 ⟨hentry, rfl⟩
  simp only [view, hthere, Option.map_some] at hsame
  obtain ⟨entry', hfind, hrow⟩ := Option.map_eq_some_iff.1 hsame.symm
  exact ⟨entry', hfind, fun _ => hrow⟩

/-! ## Tables whose rows have their places under others -/

theorem follows_denomUnits : s.Follows t .denomUnits := by
  refine follows_of_find? fun entry hentry => ?_
  obtain ⟨denom, hdenom⟩ := hs.exists_row (n := .denomUnits) hentry
    ⟨"denom_id", .denoms, entry.row.denom⟩ List.mem_cons_self
  have hparent : (⟨entry.row.denom, denom⟩ : Entry Denom) ∈ s.denoms.entries :=
    Table.mem_entries.2 hdenom
  have hparent' := (follows_denoms hs h).mem ht hparent
  have hthere : s.find? .denoms (.text denom.base) = some ⟨entry.row.denom, denom⟩ :=
    hs.find?_eq_some.2 ⟨hparent, rfl⟩
  have hthere' : t.find? .denoms (.text denom.base) =
      some ⟨s.counterpart t .denoms entry.row.denom, denom⟩ :=
    ht.find?_eq_some.2 ⟨hparent', rfl⟩
  have hsame := congrFun (congrArg View.denoms h) denom.base
  simp only [view, hthere, hthere', Option.map_some, Option.some.injEq, DenomView.mk.injEq] at hsame
  have hunit := congrFun hsame.2.2 entry.row.name
  have hfind : s.find? .denomUnits (.named entry.row.denom entry.row.name) = some entry :=
    hs.find?_eq_some.2 ⟨hentry, rfl⟩
  rw [hfind, Option.map_some] at hunit
  obtain ⟨entry', hfind', hexponent⟩ := Option.map_eq_some_iff.1 hunit.symm
  refine ⟨entry', hfind', fun hkey => ?_⟩
  obtain ⟨id, denom, exponent, name⟩ := entry
  obtain ⟨id', denom', exponent', name'⟩ := entry'
  cases hkey
  cases hexponent
  rfl

theorem find?_chain_counterpart {id : Id} {chain : Chain} (hchain : s.chains.rows[id]? = some chain) :
    s.find? .chains (.text chain.chainId) = some ⟨id, chain⟩ ∧
      t.find? .chains (.text chain.chainId) = some ⟨s.counterpart t .chains id, chain⟩ := by
  have hentry : (⟨id, chain⟩ : Entry Chain) ∈ s.chains.entries := Table.mem_entries.2 hchain
  have hentry' := (follows_chains hs h).mem ht hentry
  exact ⟨hs.find?_chain hentry, ht.find?_chain hentry'⟩

theorem follows_blocks : s.Follows t .blocks := by
  refine follows_of_find? fun entry hentry => ?_
  obtain ⟨chain, hchain⟩ := hs.exists_row (n := .blocks) hentry
    ⟨"blockchain_id", .chains, entry.row.chain⟩ List.mem_cons_self
  obtain ⟨hthere, hthere'⟩ := find?_chain_counterpart hs ht h hchain
  have hfind : s.find? .blocks (.slot ⟨entry.row.chain, entry.row.height⟩) = some entry :=
    hs.find?_eq_some.2 ⟨hentry, rfl⟩
  have hsame := congrFun (congrFun (congrArg View.blocks h) chain.chainId) entry.row.height
  simp only [view, hthere, hthere', hfind, Option.bind_eq_bind, Option.bind_some] at hsame
  obtain ⟨entry', hfind', hblock⟩ := Option.bind_eq_some_iff.1 hsame.symm
  refine ⟨entry', hfind', fun hkey => ?_⟩
  obtain ⟨id, height, chain, time, txIndexed, eventsIndexed⟩ := entry
  obtain ⟨id', height', chain', time', txIndexed', eventsIndexed'⟩ := entry'
  cases hkey
  cases hblock
  rfl

theorem follows_markers (pipeline : Pipeline) : s.Follows t pipeline.table := by
  refine follows_of_find? fun entry hentry => ?_
  have hplace : ∃ chain height, s.chains.rows[chain]?.isSome ∧
      pipeline.table.key entry.row = .slot ⟨chain, height⟩ := by
    cases pipeline
    case' txs => have hresolves := hs.resolves .failedBlocks entry hentry
    case' events => have hresolves := hs.resolves .failedEventBlocks entry hentry
    all_goals
      have hchain := hresolves ⟨"blockchain_id", .chains, entry.row.chain⟩ List.mem_cons_self
      exact ⟨_, _, Std.ExtTreeMap.mem_iff_isSome_getElem?.1 hchain, rfl⟩
  obtain ⟨id, height, hsome, hkey⟩ := hplace
  obtain ⟨chain, hchain⟩ := Option.isSome_iff_exists.1 hsome
  obtain ⟨hthere, hthere'⟩ := find?_chain_counterpart hs ht h hchain
  have hfind : s.find? pipeline.table (.slot ⟨id, height⟩) = some entry :=
    hs.find?_eq_some.2 ⟨hentry, hkey⟩
  have hmarked := congrFun (congrArg View.marked h) pipeline
  have hsame := congrFun (congrFun hmarked chain.chainId) height
  simp only [view, hthere, hthere', hfind, Option.bind_some] at hsame
  obtain ⟨entry', hfind'⟩ := Option.isSome_iff_exists.1 hsame.symm
  rw [hkey]
  cases pipeline <;>
  · refine ⟨entry', hfind', fun hkey' => ?_⟩
    rw [markerKey_eq_iff.1 hkey', TableName.rename, markerKey_eq_iff.1 hkey]
    rfl

omit hs h in
theorem signer_counterpart {id id' : Option Id} {signer : Option String}
    (hsigner : (id.mapM fun id => s.addresses.rows[id]?) = some signer)
    (hsigner' : (id'.mapM fun id => t.addresses.rows[id]?) = some signer) :
    id' = id.map (s.counterpart t .addresses) := by
  cases id with
  | none =>
    cases hsigner
    cases id' with
    | none => rfl
    | some id' =>
      rw [Option.mapM_some] at hsigner'
      obtain ⟨_, _, hnone⟩ := Option.map_eq_some_iff.1 hsigner'
      cases hnone
  | some id =>
    rw [Option.mapM_some] at hsigner
    obtain ⟨address, haddress, rfl⟩ := Option.map_eq_some_iff.1 hsigner
    cases id' with
    | none => cases hsigner'
    | some id' =>
      rw [Option.mapM_some] at hsigner'
      obtain ⟨address', haddress', hsame⟩ := Option.map_eq_some_iff.1 hsigner'
      cases hsame
      have hentry : (⟨id, address⟩ : Entry String) ∈ s.addresses.entries :=
        Table.mem_entries.2 haddress
      have hentry' : (⟨id', address⟩ : Entry String) ∈ t.addresses.entries :=
        Table.mem_entries.2 haddress'
      exact congrArg some (counterpart_of_text (n := .addresses) ht hentry hentry' rfl rfl).symm

/-- A transaction is in the other store, with what lies below it. -/
theorem mem_tx {entry : Entry TxRow} (hentry : entry ∈ s.txes.entries) :
    ∃ entry' ∈ t.txes.entries, entry'.row = TableName.txes.rename (s.counterpart t) entry.row ∧
      s.viewsBelow .messages s.messageView entry.id =
        t.viewsBelow .messages t.messageView entry'.id := by
  have hfind : s.find? .txes (.text entry.row.hash) = some entry :=
    hs.find?_eq_some.2 ⟨hentry, rfl⟩
  obtain ⟨block, chain, signer, hblock, hchain, hsigner, hview⟩ := hs.txView_eq hentry
  have hsame := congrFun (congrArg View.txes h) entry.row.hash
  simp only [view, hfind, Option.bind_some, hview] at hsame
  obtain ⟨entry', hfind', htx⟩ := Option.bind_eq_some_iff.1 hsame.symm
  obtain ⟨hentry', hkey⟩ := mem_of_find? hfind'
  obtain ⟨block', chain', signer', hblock', hchain', hsigner', hview'⟩ := ht.txView_eq hentry'
  rw [hview', Option.some.injEq, TxView.mk.injEq] at htx
  obtain ⟨hcode, hchainId, hheight, rfl, hmessages⟩ := htx
  -- the blocks tell the same chain and height, so the one is the counterpart of the other
  have hchainIds : s.counterpart t .chains block.chain = block'.chain := by
    have hmem : (⟨block.chain, chain⟩ : Entry Chain) ∈ s.chains.entries := Table.mem_entries.2 hchain
    have hmem' : (⟨block'.chain, chain'⟩ : Entry Chain) ∈ t.chains.entries :=
      Table.mem_entries.2 hchain'
    exact counterpart_of_text (n := .chains) ht hmem hmem' rfl (congrArg Key.text hchainId)
  have hblockIds : s.counterpart t .blocks entry.row.block = entry'.row.block := by
    have hmem : (⟨entry.row.block, block⟩ : Entry BlockRow) ∈ s.blocks.entries :=
      Table.mem_entries.2 hblock
    have hmem' : (⟨entry'.row.block, block'⟩ : Entry BlockRow) ∈ t.blocks.entries :=
      Table.mem_entries.2 hblock'
    refine counterpart_of_key (n := .blocks) ht hmem hmem' ?_
    exact congrArg Key.slot (congr (congrArg Slot.mk hchainIds.symm) hheight)
  refine ⟨entry', hentry', ?_, hmessages.symm⟩
  have hsigners := signer_counterpart ht hsigner hsigner'
  obtain ⟨id, hash, code, block, signer⟩ := entry
  obtain ⟨id', hash', code', block', signer'⟩ := entry'
  cases hkey
  cases hcode
  cases hblockIds
  cases hsigners
  rfl

omit hs h in
/-- What lies in a place below a row lies in that place below its counterpart. -/
theorem exists_below {ν : Type} {kind : ReferenceKind} {used : n.Row → Id}
    {tell tell' : Entry n.Row → String → ν} {parent parent' : Id} {index : Int64}
    (hbelow :
      s.viewsBelow n (fun entry => (s.textOf kind (used entry.row)).map (tell entry)) parent =
        t.viewsBelow n (fun entry => (t.textOf kind (used entry.row)).map (tell' entry)) parent')
    (htells : ∀ {a b of of'}, tell' a of = tell b of' → of = of')
    {entry : Entry n.Row} (hfind : s.find? n (.slot ⟨parent, index⟩) = some entry) {of : String}
    (hof : s.textOf kind (used entry.row) = some of) :
    ∃ entry' ∈ (t.get n).entries, n.key entry'.row = .slot ⟨parent', index⟩ ∧
      s.counterpart t kind.table (used entry.row) = used entry'.row ∧
      tell' entry' of = tell entry of := by
  have hsame := congrFun hbelow index
  simp only [viewsBelow, hfind, Option.bind_some, hof, Option.map_some] at hsame
  obtain ⟨entry', hfind', hview⟩ := Option.bind_eq_some_iff.1 hsame.symm
  obtain ⟨of', hof', htell⟩ := Option.map_eq_some_iff.1 hview
  obtain ⟨hentry', hkey⟩ := mem_of_find? hfind'
  cases htells htell
  exact ⟨entry', hentry', hkey, counterpart_of_textOf ht hof hof', htell⟩

/-- A message is in the other store, with what lies below it. -/
theorem mem_message {entry : Entry MessageRow} (hentry : entry ∈ s.messages.entries) :
    ∃ entry' ∈ t.messages.entries,
      entry'.row = TableName.messages.rename (s.counterpart t) entry.row ∧
      s.viewsBelow .events s.eventView entry.id =
        t.viewsBelow .events t.eventView entry'.id := by
  obtain ⟨tx, htx⟩ := hs.exists_row (n := .messages) hentry ⟨"tx_id", .txes, entry.row.tx⟩
    List.mem_cons_self
  have hparent : (⟨entry.row.tx, tx⟩ : Entry TxRow) ∈ s.txes.entries := Table.mem_entries.2 htx
  obtain ⟨parent', hparent', hrow, hbelow⟩ := mem_tx hs ht h hparent
  have hid := counterpart_of_row (n := .txes) ht hparent hparent' hrow
  obtain ⟨of, hof⟩ := hs.exists_messageType hentry
  have hfind : s.find? .messages (.slot ⟨entry.row.tx, entry.row.index⟩) = some entry :=
    hs.find?_eq_some.2 ⟨hentry, rfl⟩
  obtain ⟨entry', hentry', hkey, htype, htell⟩ := exists_below (n := .messages) ht hbelow
    (fun h => congrArg MessageView.messageType h) hfind hof
  refine ⟨entry', hentry', ?_, (congrArg MessageView.events htell).symm⟩
  rw [← hid] at hkey
  obtain ⟨id, tx, messageType, index⟩ := entry
  obtain ⟨id', tx', messageType', index'⟩ := entry'
  cases hkey
  cases htype
  rfl

theorem mem_event {entry : Entry EventRow} (hentry : entry ∈ s.events.entries) :
    ∃ entry' ∈ t.events.entries,
      entry'.row = TableName.events.rename (s.counterpart t) entry.row ∧
      s.viewsBelow .attributes s.attributeView entry.id =
        t.viewsBelow .attributes t.attributeView entry'.id := by
  obtain ⟨message, hmessage⟩ := hs.exists_row (n := .events) hentry
    ⟨"message_id", .messages, entry.row.message⟩ List.mem_cons_self
  have hparent : (⟨entry.row.message, message⟩ : Entry MessageRow) ∈ s.messages.entries :=
    Table.mem_entries.2 hmessage
  obtain ⟨parent', hparent', hrow, hbelow⟩ := mem_message hs ht h hparent
  have hid := counterpart_of_row (n := .messages) ht hparent hparent' hrow
  obtain ⟨of, hof⟩ := hs.exists_eventType hentry
  have hfind : s.find? .events (.slot ⟨entry.row.message, entry.row.index⟩) = some entry :=
    hs.find?_eq_some.2 ⟨hentry, rfl⟩
  obtain ⟨entry', hentry', hkey, htype, htell⟩ := exists_below (n := .events) ht hbelow
    (fun h => congrArg EventView.eventType h) hfind hof
  refine ⟨entry', hentry', ?_, (congrArg EventView.attributes htell).symm⟩
  rw [← hid] at hkey
  obtain ⟨id, message, eventType, index⟩ := entry
  obtain ⟨id', message', eventType', index'⟩ := entry'
  cases hkey
  cases htype
  rfl

theorem mem_attribute {entry : Entry AttributeRow} (hentry : entry ∈ s.attributes.entries) :
    ∃ entry' ∈ t.attributes.entries,
      entry'.row = TableName.attributes.rename (s.counterpart t) entry.row := by
  obtain ⟨event, hevent⟩ := hs.exists_row (n := .attributes) hentry
    ⟨"message_event_id", .events, entry.row.event⟩ List.mem_cons_self
  have hparent : (⟨entry.row.event, event⟩ : Entry EventRow) ∈ s.events.entries :=
    Table.mem_entries.2 hevent
  obtain ⟨parent', hparent', hrow, hbelow⟩ := mem_event hs ht h hparent
  have hid := counterpart_of_row (n := .events) ht hparent hparent' hrow
  obtain ⟨of, hof⟩ := hs.exists_attributeKey hentry
  have hfind : s.find? .attributes (.slot ⟨entry.row.event, entry.row.index⟩) = some entry :=
    hs.find?_eq_some.2 ⟨hentry, rfl⟩
  obtain ⟨entry', hentry', hkey, htype, htell⟩ := exists_below (n := .attributes) ht hbelow
    (fun h => congrArg AttributeView.key h) hfind hof
  refine ⟨entry', hentry', ?_⟩
  have hvalue := congrArg AttributeView.value htell
  rw [← hid] at hkey
  obtain ⟨id, event, key, index, value⟩ := entry
  obtain ⟨id', event', key', index', value'⟩ := entry'
  cases hkey
  cases htype
  cases hvalue
  rfl

/-! ## All tables -/

/-- The rows of a store are in every store that tells the same, under other ids. -/
theorem renames_of_view : Renames (s.counterpart t) s t := by
  have hfollows : ∀ n, s.Follows t n := by
    intro n
    cases n with
    | chains => exact follows_chains hs h
    | blocks => exact follows_blocks hs ht h
    | addresses => exact follows_addresses hs h
    | messageTypes => exact follows_texts hs h .messageType
    | eventTypes => exact follows_texts hs h .eventType
    | attributeKeys => exact follows_texts hs h .attributeKey
    | failedBlocks => exact follows_markers hs ht h .txs
    | failedEventBlocks => exact follows_markers hs ht h .events
    | denoms => exact follows_denoms hs h
    | denomUnits => exact follows_denomUnits hs ht h
    | ibcDenoms => exact follows_ibcDenoms hs h
    | attributes => exact fun _ => mem_attribute hs ht h
    | txes =>
      intro entry hentry
      obtain ⟨entry', hentry', hrow, _⟩ := mem_tx hs ht h hentry
      exact ⟨entry', hentry', hrow⟩
    | messages =>
      intro entry hentry
      obtain ⟨entry', hentry', hrow, _⟩ := mem_message hs ht h hentry
      exact ⟨entry', hentry', hrow⟩
    | events =>
      intro entry hentry
      obtain ⟨entry', hentry', hrow, _⟩ := mem_event hs ht h hentry
      exact ⟨entry', hentry', hrow⟩
  exact fun n entry hentry => (hfollows n).mem ht hentry

/-- There and back, an id is the one that it was, if that holds of the ids of the rows above. -/
theorem counterpart_counterpart_of_above
    (habove : (∀ row, (n.key row).parent? = none) ∨
      ∀ id ∈ (s.get n.above).rows, t.counterpart s n.above (s.counterpart t n.above id) = id) :
    ∀ id ∈ (s.get n).rows, t.counterpart s n (s.counterpart t n id) = id := by
  intro id hid
  obtain ⟨entry, hentry, rfl⟩ := Table.mem_rows_iff.1 hid
  have hthere := renames_of_view hs ht h n entry hentry
  have hback := renames_of_view ht hs h.symm n _ hthere
  -- there and back the row has its old key, and only one row has that
  have hkey : n.key (n.rename (t.counterpart s) (n.rename (s.counterpart t) entry.row)) =
      n.key entry.row := by
    rw [TableName.key_rename, TableName.key_rename, Key.under_under]
    apply Key.under_eq_self
    intro parent hparent
    rcases habove with hnone | habove
    · rw [hnone] at hparent
      cases hparent
    · obtain ⟨column, href⟩ := TableName.exists_above hparent
      exact habove parent (hs.resolves n entry hentry _ href)
  exact congrArg Entry.id ((hs.keyed n).eq_of_key hback hentry hkey)

theorem counterpart_counterpart (n : TableName) :
    ∀ id ∈ (s.get n).rows, t.counterpart s n (s.counterpart t n id) = id := by
  have hstep := fun {n} => counterpart_counterpart_of_above (n := n) hs ht h
  have hchains := hstep (n := .chains) (Or.inl fun _ => rfl)
  have htxes := hstep (n := .txes) (Or.inl fun _ => rfl)
  have hmessages := hstep (n := .messages) (Or.inr htxes)
  have hevents := hstep (n := .events) (Or.inr hmessages)
  have hdenoms := hstep (n := .denoms) (Or.inl fun _ => rfl)
  cases n with
  | blocks | failedBlocks | failedEventBlocks => exact hstep (Or.inr hchains)
  | messages => exact hmessages
  | events => exact hevents
  | attributes => exact hstep (Or.inr hevents)
  | denomUnits => exact hstep (Or.inr hdenoms)
  | _ => exact hstep (Or.inl fun _ => rfl)

end View

/-- Two sound stores that tell the same differ only in their ids. -/
theorem sameButIds_of_view (hs : s.Sound) (ht : t.Sound) (h : s.view = t.view) :
    s.SameButIds t :=
  ⟨s.counterpart t, t.counterpart s, renames_of_view hs ht h, renames_of_view ht hs h.symm,
    counterpart_counterpart hs ht h, counterpart_counterpart ht hs h.symm⟩

end Store

end BlockArchive
