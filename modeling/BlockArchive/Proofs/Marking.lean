import BlockArchive.Proofs.Store.Naming
import BlockArchive.Proofs.Writing

/-!
# Registering chains and marking heights

A chain is registered, and a height of it is marked, unless the texts of the chain cannot be sent.
Then the height is marked under the id that the text of the chain has from then on.

## Main definitions

- `Store.marked`: the store after a height has been marked
- `Store.withMarker`, `Store.unmarked`: a marker comes or goes

## Main statements

- `ends_registerChain`, `ends_markFailed`: registering a chain and marking a height
- `Step.next_markFailed`: the store after a height has been marked
- `Store.marked_eq`: the marker names the row that the chain has from then on
-/

namespace BlockArchive

/-- The store after a height of a chain has been marked. -/
def Store.marked (s : Store) (pipeline : Pipeline) (chain : Chain) (height : Int64) : Store :=
  let registered := s.offer .chains [chain]
  let marker : MarkerRow := ⟨height, registered.idOf .chains (.text chain.chainId)⟩
  match pipeline with
  | .txs => registered.offerAbsent .failedBlocks [marker]
  | .events => registered.offerAbsent .failedEventBlocks [marker]

variable {s : Store}

/-- A chain is registered unless its texts cannot be sent, and its id is told. -/
theorem ends_registerChain (hs : s.Sound) (chain : Chain) {session : Session}
    (ht : session.store = s) :
    Ends (fun cause failure => failure = .query cause) (registerChain chain) session
      (TableName.refusal? .chains chain)
      fun id after => after.store = s.offer .chains [chain] ∧
        id = (s.offer .chains [chain]).idOf .chains (.text chain.chainId) := by
  subst ht
  have hrefs : ∀ ref ∈ TableName.references .chains chain, session.store.Resolves ref := by
    intro ref href
    cases href
  have hid : (TableName.refusal? .chains chain).map id = TableName.refusal? .chains chain :=
    congrFun Option.map_id _
  apply WriteM.ends_onFailure
  rw [← hid]
  apply (WriteM.ends_query id (fun _ => rfl) (Store.ends_upsertOne hs hrefs)).mono
  rintro - id after ⟨hstore, rfl⟩
  exact ⟨hstore, by rw [hstore]; rfl⟩

theorem exists_registered (hs : s.Sound) (chain : Chain) :
    ∃ entry, (s.offer .chains [chain]).find? .chains (.text chain.chainId) = some entry :=
  ⟨_, Store.find?_offer_singleton hs .chains chain⟩

theorem sound_registered (hs : s.Sound) (chain : Chain) : (s.offer .chains [chain]).Sound :=
  hs.offer (fun _ _ => trivial) fun _ _ _ href => by cases href

/-! ## Markers -/

/-- The store with a marker. -/
def Store.withMarker (s : Store) (pipeline : Pipeline) (marker : MarkerRow) : Store :=
  match pipeline with
  | .txs => s.offerAbsent .failedBlocks [marker]
  | .events => s.offerAbsent .failedEventBlocks [marker]

/-- The store without a marker. -/
def Store.unmarked (s : Store) (pipeline : Pipeline) (marker : MarkerRow) : Store :=
  match pipeline with
  | .txs =>
    s.set .failedBlocks ((s.get .failedBlocks).remove fun entry => entry.row = marker)
  | .events =>
    s.set .failedEventBlocks ((s.get .failedEventBlocks).remove fun entry => entry.row = marker)

/-- A height is marked under the id that the chain has once it is registered. -/
theorem Store.marked_eq {pipeline : Pipeline} {chain : Chain} {height : Int64} {entry : Entry Chain}
    (h : (s.offer .chains [chain]).find? .chains (.text chain.chainId) = some entry) :
    s.marked pipeline chain height =
      (s.offer .chains [chain]).withMarker pipeline ⟨height, entry.id⟩ := by
  rw [← idOf_eq h]
  cases pipeline <;> rfl

theorem ends_addMarker (hs : s.Sound) (pipeline : Pipeline) (marker : MarkerRow)
    (hchain : marker.chain ∈ s.chains.rows) :
    Ends (fun fault cause => cause = fault) (addMarker pipeline marker) s none
      fun _ t => t = s.withMarker pipeline marker := by
  cases pipeline with
  | txs =>
    have hrefs : ∀ row ∈ [marker], ∀ ref ∈ TableName.references .failedBlocks row,
        s.Resolves ref := by
      intro row hrow ref href
      cases List.mem_singleton.1 hrow
      cases List.mem_singleton.1 href
      exact hchain
    exact Store.ends_insertAbsent hs (n := .failedBlocks) hrefs
  | events =>
    have hrefs : ∀ row ∈ [marker], ∀ ref ∈ TableName.references .failedEventBlocks row,
        s.Resolves ref := by
      intro row hrow ref href
      cases List.mem_singleton.1 hrow
      cases List.mem_singleton.1 href
      exact hchain
    exact Store.ends_insertAbsent hs (n := .failedEventBlocks) hrefs

/-- No row refers to a marker. -/
theorem target_ne_marker {n : TableName} {row : n.Row} {ref : Reference}
    (h : ref ∈ n.references row) :
    ref.target ≠ .failedBlocks ∧ ref.target ≠ .failedEventBlocks := by
  cases n <;> simp only [TableName.references, List.mem_cons, List.mem_map, List.not_mem_nil,
    or_false] at h
  case txes =>
    rcases h with rfl | ⟨_, _, rfl⟩ <;> exact ⟨TableName.noConfusion, TableName.noConfusion⟩
  case messages | events | attributes =>
    rcases h with rfl | rfl <;> exact ⟨TableName.noConfusion, TableName.noConfusion⟩
  case blocks | failedBlocks | failedEventBlocks | denomUnits =>
    subst h
    exact ⟨TableName.noConfusion, TableName.noConfusion⟩

/-- Rows to which no row can refer are taken out without a fault. -/
theorem ends_delete {n : TableName} (doomed : Entry n.Row → Bool) (s : Store)
    (h : ∀ (m : TableName) (row : m.Row), ∀ ref ∈ m.references row, ref.target ≠ n) :
    Ends (fun fault cause => cause = fault) (Store.delete n doomed) s none
      fun _ t => t = s.set n ((s.get n).remove doomed) := by
  have hfree : (s.set n ((s.get n).remove doomed)).stillReferred? n = none := by
    rw [Store.stillReferred?_eq_none]
    intro m entry _ ref href htarget
    exact absurd htarget (h m entry.row ref href)
  have hdelete : Store.delete n doomed s = .ok () (s.set n ((s.get n).remove doomed)) := by
    simp only [Store.delete, hfree]
  exact Ends.ok hdelete rfl

theorem ends_clearMarker (pipeline : Pipeline) (marker : MarkerRow) (s : Store) :
    Ends (fun fault cause => cause = fault) (clearMarker pipeline marker) s none
      fun _ t => t = s.unmarked pipeline marker := by
  cases pipeline with
  | txs => exact ends_delete _ s fun _ _ _ href => (target_ne_marker href).1
  | events => exact ends_delete _ s fun _ _ _ href => (target_ne_marker href).2

theorem Store.Sound.unmarked (hs : s.Sound) (pipeline : Pipeline) (marker : MarkerRow) :
    (s.unmarked pipeline marker).Sound := by
  obtain ⟨_, t, hclear, rfl⟩ := ends_clearMarker pipeline marker s
  cases pipeline with
  | txs =>
    have hkept := Store.keeps_delete .failedBlocks (fun entry => decide (entry.row = marker)) s hs
    rw [show Store.delete .failedBlocks _ s = _ from hclear] at hkept
    exact hkept.1
  | events =>
    have hkept := Store.keeps_delete .failedEventBlocks (fun entry => decide (entry.row = marker))
      s hs
    rw [show Store.delete .failedEventBlocks _ s = _ from hclear] at hkept
    exact hkept.1

/-! ## Marking a height -/

/-- A height is marked unless the texts of its chain cannot be sent. -/
theorem ends_markFailed (hs : s.Sound) (pipeline : Pipeline) (chain : Chain) (height : Int64)
    {session : Session} (ht : session.store = s) :
    Ends (fun cause failure => failure = .query cause) (markFailed pipeline chain height) session
      (TableName.refusal? .chains chain)
      fun _ after => after.store = s.marked pipeline chain height := by
  unfold markFailed
  refine Ends.last (Q := fun _ after => after.store = s.marked pipeline chain height)
    (WriteM.ends_transaction ?_) fun _ _ after hafter => ?_
  · apply (ends_registerChain hs chain ht).last
    rintro - _ after ⟨hstore, rfl⟩
    obtain ⟨entry, hentry⟩ := exists_registered hs chain
    have hmark := ends_addMarker (sound_registered hs chain) pipeline
      ⟨height, (s.offer .chains [chain]).idOf .chains (.text chain.chainId)⟩
      (Store.resolves_idOf hentry "")
    rw [← hstore] at hmark ⊢
    apply (WriteM.ends_query id (fun _ => rfl) hmark).next
    rintro _ marked hmarked
    refine Ends.pure ?_
    rw [hmarked, hstore]
    cases pipeline <;> rfl
  · exact (WriteM.ends_log _).mono fun _ _ _ hlog => hlog.trans hafter

/-- After a step that marks a height the height is marked, or all rows are as they were. -/
theorem Step.next_markFailed (hs : s.Sound) (pipeline : Pipeline) (chain : Chain) (height : Int64) :
    (markFailed pipeline chain height).next s = s.marked pipeline chain height ∨
      ∃ t, (markFailed pipeline chain height).next s = s.rollback t := by
  have hdoes := does_markFailed pipeline chain height
  by_cases hok : (markFailed pipeline chain height).Succeeds s
  · obtain ⟨_, after, hafter, hnext⟩ :=
      hdoes.of_succeeds (ends_markFailed hs pipeline chain height rfl) hok
    exact Or.inl (hnext.trans hafter)
  · exact Or.inr (hdoes.rollback hok)

end BlockArchive
