import BlockArchive.Proofs.History.Marker
import BlockArchive.Proofs.History.Reference

/-!
# What goes with a chain

The statements that take a chain out collect four lists of ids and delete in eight steps. What goes
is nevertheless told without them: the chain and the rows that depend on it by what they refer to,
directly or through other rows. So whatever is left still refers to rows that are there.

## Main definitions

- `Store.DependsOn`: a row refers to another one, directly or through other rows
- `Store.untouched`: the tables of which nothing goes with a chain

## Main statements

- `Store.Sound.belongs_iff`: what goes with a chain is what depends on it
- `Store.belongs_of_dependsOn`: what lies below a row that stays is not taken with the chain
- `Store.Sound.deleteChain_eq`: no statement is refused
- `Store.Reachable.removeChain_takes_subtree`: taking a chain out
-/

namespace BlockArchive

namespace Store

/-- The row is the one of the id, or it refers to a stored row that depends on that one. -/
inductive DependsOn (s : Store) (target : TableName) (id : Id) :
    (n : TableName) → Entry n.Row → Prop
  | itself (entry : Entry target.Row) (hid : entry.id = id) : DependsOn s target id target entry
  | through {n : TableName} {entry : Entry n.Row} {ref : Reference}
      (href : ref ∈ n.references entry.row) {parent : Entry ref.target.Row}
      (hparent : parent ∈ (s.get ref.target).entries) (hid : parent.id = ref.id)
      (h : DependsOn s target id ref.target parent) : DependsOn s target id n entry

variable {s t : Store} {chain : Id} {n : TableName} {entry : Entry n.Row}

/-! ## What belongs to a chain -/

/-- A shared text refers to nothing. -/
theorem references_of_shared (h : n ∈ TableName.shared) (row : n.Row) : n.references row = [] := by
  simp only [TableName.shared, List.mem_cons, List.not_mem_nil, or_false] at h
  rcases h with rfl | rfl | rfl | rfl <;> rfl

/-- Shared texts depend on no row but themselves. -/
theorem DependsOn.not_shared {m : TableName} {id : Id} (h : s.DependsOn m id n entry)
    (hm : m ∉ TableName.shared) : n ∉ TableName.shared := by
  cases h with
  | itself => exact hm
  | through href =>
    intro hn
    rw [references_of_shared hn] at href
    cases href

/-- The row under which a row that belongs to the chain lies belongs to the chain as well. -/
theorem belongs_parent (h : s.Belongs chain n entry) (hentry : entry ∈ (s.get n).entries)
    {ref : Reference} (href : ref ∈ n.references entry.row) (howner : ref.target ∉ TableName.shared)
    {parent : Entry ref.target.Row} (hid : parent.id = ref.id) :
    s.Belongs chain ref.target parent := by
  obtain ⟨_, row⟩ := parent
  cases hid
  cases n <;>
    simp only [TableName.references, List.mem_cons, List.mem_map, List.not_mem_nil,
      or_false] at href
  case blocks =>
    subst href
    have hchain : entry.row.chain = chain := of_decide_eq_true ((Table.mem_idsWhere hentry).1 h)
    exact hchain
  case txes =>
    rcases href with rfl | ⟨_, _, rfl⟩
    · have hblock : entry.row.block ∈ s.blockIds chain :=
        of_decide_eq_true ((Table.mem_idsWhere hentry).1 h)
      exact hblock
    · exact absurd (by simp [TableName.shared]) howner
  case messages =>
    rcases href with rfl | rfl
    · have htx : entry.row.tx ∈ s.txIds chain :=
        of_decide_eq_true ((Table.mem_idsWhere hentry).1 h)
      exact htx
    · exact absurd (by simp [TableName.shared]) howner
  case events =>
    rcases href with rfl | rfl
    · have hmessage : entry.row.message ∈ s.messageIds chain :=
        of_decide_eq_true ((Table.mem_idsWhere hentry).1 h)
      exact hmessage
    · exact absurd (by simp [TableName.shared]) howner
  case attributes =>
    rcases href with rfl | rfl
    · exact h
    · exact absurd (by simp [TableName.shared]) howner
  case failedBlocks | failedEventBlocks =>
    subst href
    exact h
  case denomUnits => exact h.elim

/-- Every row that belongs to the chain lies under another one, the chain apart. -/
theorem exists_owner (h : s.Belongs chain n entry) (hn : n ≠ .chains) :
    ∃ ref ∈ n.references entry.row, ref.target ∉ TableName.shared := by
  cases n with
  | chains => exact absurd rfl hn
  | blocks | txes | messages | events | attributes | failedBlocks | failedEventBlocks =>
    exact ⟨_, List.mem_cons_self, by simp [TableName.shared]⟩
  | _ => exact h.elim

/-- What depends on a chain belongs to it. -/
theorem DependsOn.belongs (h : s.DependsOn .chains chain n entry)
    (hentry : entry ∈ (s.get n).entries) : s.Belongs chain n entry := by
  induction h with
  | itself entry hid => exact hid
  | through href hparent hid _ ih => exact belongs_of_reference hentry href hid (ih hparent)

/-- A row that belongs to a chain has the row that it depends on belong to it, unless this is a
shared text. -/
theorem belongs_of_dependsOn {m : TableName} (hm : m ∉ TableName.shared) {root : Entry m.Row}
    (hroot : root ∈ (s.get m).entries) (h : s.DependsOn m root.id n entry)
    (hentry : entry ∈ (s.get n).entries) (hbelongs : s.Belongs chain n entry) :
    s.Belongs chain m root := by
  induction h with
  | itself entry hid =>
    cases Table.eq_of_mem_entries hentry hroot hid
    exact hbelongs
  | through href hparent hid hdepends ih =>
    exact ih hparent (belongs_parent hbelongs hentry href (hdepends.not_shared hm) hid)

/-- A table comes before those whose rows refer to it. -/
theorem ctorIdx_lt_of_mem_referring {m : TableName} (h : m ∈ n.referring) :
    n.ctorIdx < m.ctorIdx := by
  revert m
  cases n <;> decide

/-- What belongs to a chain depends on it, as the row under which it lies does. -/
theorem Sound.dependsOn_of_belongs (hs : s.Sound) (h : s.Belongs chain n entry)
    (hentry : entry ∈ (s.get n).entries) : s.DependsOn .chains chain n entry := by
  induction hindex : n.ctorIdx using Nat.strong_induction_on generalizing n with
  | _ index ih =>
    by_cases hn : n = .chains
    · subst hn
      exact .itself entry h
    · obtain ⟨ref, href, howner⟩ := exists_owner h hn
      obtain ⟨parent, hparent, hid⟩ := Table.mem_rows_iff.1 (hs.resolves n entry hentry ref href)
      have hlt := ctorIdx_lt_of_mem_referring (TableName.mem_referring href)
      exact .through href hparent hid
        (ih _ (hindex ▸ hlt) (belongs_parent h hentry href howner hid) hparent rfl)

/-- What goes with a chain is what depends on it. -/
theorem Sound.belongs_iff (hs : s.Sound) (hentry : entry ∈ (s.get n).entries) :
    s.Belongs chain n entry ↔ s.DependsOn .chains chain n entry :=
  ⟨fun h => hs.dependsOn_of_belongs h hentry, fun h => h.belongs hentry⟩

/-! ## The statements -/

theorem deleteChain_of_find?_none {chainId : String} (h : s.findChain? chainId = none) :
    deleteChain chainId s = .ok () s := by
  have hread : (getThe Store : StoreM Store) s = .ok s s := rfl
  rw [deleteChain, bind_of_ok hread, h]
  rfl

/-- No statement that takes a chain out is refused, and the step does what they do. -/
theorem Sound.deleteChain_eq (hs : s.Sound) (chainId : String) :
    deleteChain chainId s = .ok () ((Step.removeChain chainId).next s) := by
  obtain ⟨⟨⟩, t, hdelete⟩ : ∃ answer t, deleteChain chainId s = .ok answer t := by
    cases hchain : s.findChain? chainId with
    | none => exact ⟨(), s, deleteChain_of_find?_none hchain⟩
    | some chain =>
      obtain ⟨answer, t, hdelete, _⟩ := ends_deleteChain hs hchain
      exact ⟨answer, t, hdelete⟩
  have hremove : removeChain chainId { store := s } = .ok () { store := t } := by
    simp only [removeChain, WriteM.transaction, WriteM.query, hdelete]
  rw [hdelete, ((Step.does_removeChain chainId).of_ok hremove).2]

/-- A chain that has been taken out is not found again. -/
theorem Without.findChain?_eq_none (h : s.Without chain t) (hs : s.Sound) (ht : t.Sound)
    {chainId : String} {removed : Entry Chain} (hfind : s.findChain? chainId = some removed)
    (hid : removed.id = chain) : t.findChain? chainId = none := by
  cases hleft : t.findChain? chainId with
  | none => rfl
  | some left =>
    obtain ⟨hmem, htext⟩ := ht.findChain?_eq_some.1 hleft
    obtain ⟨hold, hstays⟩ := (h.mem_entries .chains left).1 hmem
    rw [hs.findChain?_eq_some.2 ⟨hold, htext⟩] at hfind
    cases hfind
    exact absurd hid hstays

/-- A table to which nothing of the chain belongs stays as it is. -/
theorem Without.get_eq (h : s.Without chain t) (hnone : ∀ entry, ¬ s.Belongs chain n entry) :
    t.get n = s.get n := by
  refine Table.ext (Table.rows_eq_of_entries fun entry => ?_) (h.nextId n)
  rw [h.mem_entries]
  exact and_iff_left (hnone entry)

/-- The tables of which nothing goes with a chain. -/
def untouched : List TableName :=
  TableName.shared ++ [.denoms, .denomUnits, .ibcDenoms]

theorem not_belongs_of_untouched (h : n ∈ untouched) (entry : Entry n.Row) :
    ¬ s.Belongs chain n entry := by
  cases n <;> first | exact id | exact absurd h (by decide)

/-- A transaction that is in a block of another chain stays with all that lies below it. -/
theorem Without.mem_of_dependsOn_tx (h : s.Without chain t) {tx : Entry TxRow}
    (htx : tx ∈ s.txes.entries) {block : Entry BlockRow} (hblock : block ∈ s.blocks.entries)
    (hid : block.id = tx.row.block) (hchain : block.row.chain ≠ chain)
    (hentry : entry ∈ (s.get n).entries) (hdepends : s.DependsOn .txes tx.id n entry) :
    entry ∈ (t.get n).entries := by
  refine (h.mem_entries n entry).2 ⟨hentry, fun hbelongs => ?_⟩
  have hgone := belongs_of_dependsOn (m := .txes) (by decide) htx hdepends hentry hbelongs
  have hparent := belongs_parent hgone htx (List.mem_cons_self ..) (by simp [TableName.shared]) hid
  have hwanted := (Table.mem_idsWhere hblock).1 hparent
  exact hchain (of_decide_eq_true hwanted)

/-- Taking a chain out, whatever the text by which it is known. No statement is refused. The chain
goes with all rows that depend on it, and all others stay as they are: those of the tables that are
not about chains, and the transactions that are in blocks of other chains with all that depends on
them. What the rows that are left refer to is there, and to take the chain out again changes
nothing. -/
theorem Reachable.removeChain_takes_subtree (h : s.Reachable) (chainId : String) :
    let t := (Step.removeChain chainId).next s
    deleteChain chainId s = .ok () t ∧
      (s.findChain? chainId = none → t = s) ∧
      (∀ chain, s.findChain? chainId = some chain →
        (∀ n entry, entry ∈ (t.get n).entries ↔
          entry ∈ (s.get n).entries ∧ ¬ s.DependsOn .chains chain.id n entry) ∧
        (∀ n ∈ untouched, t.get n = s.get n) ∧
        ∀ tx ∈ s.txes.entries, ∀ block ∈ s.blocks.entries, block.id = tx.row.block →
          block.row.chain ≠ chain.id → ∀ n, ∀ entry ∈ (s.get n).entries,
            s.DependsOn .txes tx.id n entry → entry ∈ (t.get n).entries) ∧
      (∀ n, ∀ entry ∈ (t.get n).entries, ∀ ref ∈ n.references entry.row, t.Resolves ref) ∧
      deleteChain chainId t = .ok () t := by
  intro t
  have hs := h.sound
  have ht : t.Sound := (h.step (.removeChain chainId)).sound
  have hdelete : deleteChain chainId s = .ok () t := hs.deleteChain_eq chainId
  have hnone : s.findChain? chainId = none → t = s := by
    intro hfind
    rw [deleteChain_of_find?_none hfind] at hdelete
    injection hdelete with _ hsame
    exact hsame.symm
  refine ⟨hdelete, hnone, fun chain hchain => ?_, ht.resolves, ?_⟩
  · have hwithout : s.Without chain.id t := Step.next_removeChain hs hchain
    refine ⟨fun n entry => ?_, fun n hn => ?_, ?_⟩
    · rw [hwithout.mem_entries]
      exact and_congr_right fun hentry => not_congr (hs.belongs_iff hentry)
    · exact hwithout.get_eq (not_belongs_of_untouched hn)
    · intro tx htx block hblock hid hother n entry hentry hdepends
      exact hwithout.mem_of_dependsOn_tx htx hblock hid hother hentry hdepends
  · apply deleteChain_of_find?_none
    cases hchain : s.findChain? chainId with
    | none => rwa [hnone hchain]
    | some chain => exact (Step.next_removeChain hs hchain).findChain?_eq_none hs ht hchain rfl

/-- Of two transactions of a chain one is stored in a block of another chain before the first chain
is taken out. It stays with its message, and the other one goes. -/
theorem removeChain_takes_subtree_but_moved_tx :
    let s := (∅ : Store).after
      [.registerChain ⟨"a-1", "A"⟩, .registerChain ⟨"b-1", "B"⟩,
        .persist ⟨1, 5, Instant.zero⟩
          [.new "h1" 0 none [⟨"vote", 0, []⟩], .new "h2" 0 none [⟨"vote", 0, []⟩]],
        .persist ⟨2, 9, Instant.zero⟩ [.new "h1" 0 none []]]
    let t := (Step.removeChain "a-1").next s
    deleteChain "a-1" s = .ok () t ∧ deleteChain "a-1" t = .ok () t ∧
      (⟨1, ⟨1, 1, 0⟩⟩ : Entry MessageRow) ∈ t.messages.entries ∧
      (⟨2, ⟨2, 1, 0⟩⟩ : Entry MessageRow) ∈ s.messages.entries ∧
      (⟨2, ⟨2, 1, 0⟩⟩ : Entry MessageRow) ∉ t.messages.entries ∧
      t.get .messageTypes = s.get .messageTypes := by
  intro s t
  have hs : s.Reachable := Reachable.empty.after _
  have hchain : s.findChain? "a-1" = some ⟨1, ⟨"a-1", "A"⟩⟩ := by decide +kernel
  have hchainMem : (⟨1, ⟨"a-1", "A"⟩⟩ : Entry Chain) ∈ s.chains.entries := by decide +kernel
  have hblock : (⟨1, ⟨5, 1, Timestamp.zero, true, false⟩⟩ : Entry BlockRow) ∈ s.blocks.entries := by
    decide +kernel
  have hother : (⟨2, ⟨9, 2, Timestamp.zero, true, false⟩⟩ : Entry BlockRow) ∈ s.blocks.entries := by
    decide +kernel
  have hmoved : (⟨1, ⟨"h1", 0, 2, none⟩⟩ : Entry TxRow) ∈ s.txes.entries := by decide +kernel
  have htx : (⟨2, ⟨"h2", 0, 1, none⟩⟩ : Entry TxRow) ∈ s.txes.entries := by decide +kernel
  have hkept : (⟨1, ⟨1, 1, 0⟩⟩ : Entry MessageRow) ∈ s.messages.entries := by decide +kernel
  have hgone : (⟨2, ⟨2, 1, 0⟩⟩ : Entry MessageRow) ∈ s.messages.entries := by decide +kernel
  have hbelow : s.DependsOn .txes 1 .messages ⟨1, ⟨1, 1, 0⟩⟩ :=
    .through List.mem_cons_self hmoved rfl (.itself _ rfl)
  have hdepends : s.DependsOn .chains 1 .messages ⟨2, ⟨2, 1, 0⟩⟩ :=
    .through List.mem_cons_self htx rfl <| .through List.mem_cons_self hblock rfl <|
      .through List.mem_cons_self hchainMem rfl (.itself _ rfl)
  obtain ⟨hdelete, _, hfound, _, hagain⟩ := hs.removeChain_takes_subtree "a-1"
  obtain ⟨hrows, hshared, htxes⟩ := hfound _ hchain
  refine ⟨hdelete, hagain, ?_, hgone, fun hleft => ?_, hshared .messageTypes (by decide)⟩
  · exact htxes _ hmoved _ hother rfl (by decide) .messages _ hkept hbelow
  · exact ((hrows .messages _).1 hleft).2 hdepends

end Store

end BlockArchive
