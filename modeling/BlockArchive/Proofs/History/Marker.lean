import BlockArchive.Proofs.History.Block
import BlockArchive.Proofs.Store.Listing

/-!
# The history of a marker

A height is marked for a pipeline from the step that marks it to the step by which this pipeline
sees to it. As long as the chain is there no other step adds a marker or takes one out.

## Main definitions

- `Moment.Marks`, `Moment.RemovesChain`: a step marks a height, or takes out a chain
- `Store.IsMarked`: a height of a chain is marked

## Main statements

- `Moment.marks_of_added`, `Moment.marker_kept`: how markers come and go
- `Store.isMarked_iff`: the heights that are marked after a run
- `Store.markers_follow_history`: the markers that are listed after a run
-/

namespace BlockArchive

open Persist

namespace Moment

/-- The step succeeds in marking the height of the chain for the pipeline. -/
def Marks (m : Moment) (pipeline : Pipeline) (chain : Id) (height : Int64) : Prop :=
  m.Succeeds ∧ ∃ named, m.step = .markFailed pipeline named height ∧
    (m.next.findChain? named.chainId).map (·.id) = some chain

/-- The step takes out the chain. -/
def RemovesChain (m : Moment) (chain : Id) : Prop :=
  ∃ chainId removed, m.step = .removeChain chainId ∧
    m.store.findChain? chainId = some removed ∧ removed.id = chain

end Moment

/-- The height of the chain is marked for the pipeline. -/
def Store.IsMarked (s : Store) (pipeline : Pipeline) (chain : Id) (height : Int64) : Prop :=
  ∃ entry ∈ (s.markers pipeline).entries, entry.row.chain = chain ∧ entry.row.height = height

variable {s : Store} {step : Step} {pipeline : Pipeline}

/-! ## Single steps -/

theorem Store.findChain?_eq (s : Store) (chainId : String) :
    s.findChain? chainId = s.find? .chains (.text chainId) := by
  simp [findChain?, find?, Table.find?, get, TableName.key]

/-- The chain of a text is the one that is stored with it. -/
theorem Store.Sound.findChain?_eq_some (hs : s.Sound) {chainId : String} {chain : Entry Chain} :
    s.findChain? chainId = some chain ↔
      chain ∈ s.chains.entries ∧ chain.row.chainId = chainId := by
  rw [findChain?_eq, hs.find?_eq_some]
  exact and_congr_right fun _ => ⟨Key.text.inj, congrArg Key.text⟩

/-- The marker that is told when one is offered is that marker, be it new or not. -/
theorem Store.row_offer_marker (t : Table MarkerRow) (marker : MarkerRow) :
    (t.offer markerKey (fun stored _ => stored) marker).1.row = marker := by
  have hkey : markerKey (t.offer markerKey (fun stored _ => stored) marker).1.row =
      markerKey marker := Table.Keyed.key_offer (fun _ _ _ => rfl) t marker
  exact markerKey_eq_iff.1 hkey

namespace Step

/-- A writing step that fails leaves the markers as they were. -/
theorem entries_markers_of_fails (hw : step.Writes) (hfails : ¬ step.Succeeds s)
    (pipeline : Pipeline) :
    ((step.next s).markers pipeline).entries = (s.markers pipeline).entries := by
  have hrows : ((step.next s).markers pipeline).rows = (s.markers pipeline).rows := by
    cases pipeline with
    | txs => exact rows_next hw hfails .failedBlocks
    | events => exact rows_next hw hfails .failedEventBlocks
  simp only [Table.entries, hrows]

/-- A height is marked under the id that the text of its chain has from then on. -/
theorem markers_markFailed (hs : s.Sound) {named : Chain} {height : Int64}
    (hok : (markFailed pipeline named height).Succeeds s) :
    ∃ id, (((markFailed pipeline named height).next s).findChain? named.chainId).map (·.id) =
        some id ∧
      ((markFailed pipeline named height).next s).markers pipeline =
        ((s.markers pipeline).offer Store.markerKey (fun stored _ => stored) ⟨height, id⟩).2 := by
  obtain ⟨_, after, hafter, hnext⟩ := (does_markFailed pipeline named height).of_succeeds
    (ends_markFailed hs pipeline named height rfl) hok
  obtain ⟨entry, hfind⟩ := exists_registered hs named
  have hmarked := (hnext.trans hafter).trans (Store.marked_eq hfind)
  refine ⟨entry.id, ?_, ?_⟩
  · have hchains : ((markFailed pipeline named height).next s).find? .chains
        (.text named.chainId) = some entry := by
      rw [hmarked]
      cases pipeline <;> exact hfind
    rw [Store.findChain?_eq, hchains]
    rfl
  · rw [hmarked, (Store.markers_withMarker _ pipeline _).1]
    cases pipeline <;> rfl

/-- No other step brings markers to the table of a pipeline. -/
theorem eq_markFailed_of_offers {row : pipeline.table.Row} (h : step.Offers pipeline.table row) :
    ∃ named height, step = .markFailed pipeline named height := by
  cases step with
  | markFailed other named height =>
    cases pipeline <;> cases other <;> first | exact ⟨named, height, rfl⟩ | exact h.elim
  | persist block txs => cases pipeline <;> simp [Offers] at h
  | upsertDenoms | upsertIbcDenoms => cases pipeline <;> simp [Offers] at h
  | _ => cases pipeline <;> exact h.elim

end Step

namespace Moment

variable {m : Moment} {chain : Id} {height : Int64}

/-- A marker that is there only after a step is one that the step has made. -/
theorem marks_of_added (hs : m.store.Sound) {entry : Entry MarkerRow}
    (hafter : entry ∈ (m.next.markers pipeline).entries)
    (hbefore : entry ∉ (m.store.markers pipeline).entries) :
    m.Marks pipeline entry.row.chain entry.row.height := by
  obtain ⟨s, step⟩ := m
  by_cases hstep : ∃ named height, step = .markFailed pipeline named height
  · obtain ⟨named, height, rfl⟩ := hstep
    have hok : (Step.markFailed pipeline named height).Succeeds s := by
      by_contra hfails
      have hw : (Step.markFailed pipeline named height).Writes := trivial
      exact hbefore (Step.entries_markers_of_fails hw hfails pipeline ▸ hafter)
    obtain ⟨id, hid, hmarkers⟩ := Step.markers_markFailed hs hok
    have hafter : entry ∈ (((Step.markFailed pipeline named height).next s).markers
      pipeline).entries := hafter
    rw [hmarkers, (hs.keyed_markers pipeline).mem_entries_offer] at hafter
    rcases hafter with rfl | ⟨hold, _⟩
    · rw [Store.row_offer_marker]
      exact ⟨hok, named, rfl, hid⟩
    · exact absurd hold hbefore
  · have hnone : ∀ row, ¬ step.Offers pipeline.table row :=
      fun row hrow => hstep (Step.eq_markFailed_of_offers hrow)
    cases pipeline with
    | txs => exact absurd (Step.of_mem_next hs hnone hafter) hbefore
    | events => exact absurd (Step.of_mem_next hs hnone hafter) hbefore

/-- A marker stays as it is unless its pipeline sees to the height or its chain goes. -/
theorem marker_kept (hs : m.store.Sound) {entry : Entry MarkerRow}
    (hentry : entry ∈ (m.store.markers pipeline).entries)
    (hunseen : ¬ m.SeesTo pipeline entry.row.chain entry.row.height)
    (hstays : ¬ m.RemovesChain entry.row.chain) : entry ∈ (m.next.markers pipeline).entries := by
  obtain ⟨s, step⟩ := m
  by_cases hfails : step.Writes ∧ ¬ step.Succeeds s
  · show entry ∈ ((step.next s).markers pipeline).entries
    rwa [Step.entries_markers_of_fails hfails.1 hfails.2]
  rw [not_and, not_not] at hfails
  have hseen : ∀ block, step.Writes → step.stored? = some (pipeline, block) →
      entry.row ≠ block.marker := by
    intro block hw hstored hrow
    rw [hrow] at hunseen
    exact hunseen ⟨block, ⟨hfails hw, hstored⟩, rfl, rfl⟩
  have hgone : ∀ chainId removed, step = .removeChain chainId →
      s.findChain? chainId = some removed → entry.row.chain ≠ removed.id :=
    fun chainId removed hstep hremoved hchain =>
      hstays ⟨chainId, removed, hstep, hremoved, hchain.symm⟩
  cases pipeline with
  | txs =>
    show entry ∈ ((step.next s).get .failedBlocks).entries
    refine Step.mem_next hs hentry (fun _ _ _ => rfl) fun htakes => ?_
    cases step with
    | persist block txs => exact hseen block trivial rfl htakes
    | removeChain chainId =>
      obtain ⟨removed, hremoved, hbelongs⟩ := htakes
      exact hgone chainId removed rfl hremoved hbelongs
    | _ => exact htakes
  | events =>
    show entry ∈ ((step.next s).get .failedEventBlocks).entries
    refine Step.mem_next hs hentry (fun _ _ _ => rfl) fun htakes => ?_
    cases step with
    | markEventsIndexed block => exact hseen block trivial rfl htakes
    | removeChain chainId =>
      obtain ⟨removed, hremoved, hbelongs⟩ := htakes
      exact hgone chainId removed rfl hremoved hbelongs
    | _ => exact htakes

/-- A height is marked once it has been marked. -/
theorem isMarked_of_marks (hs : m.store.Sound) (h : m.Marks pipeline chain height) :
    m.next.IsMarked pipeline chain height := by
  obtain ⟨s, step⟩ := m
  obtain ⟨hok, named, rfl, hchain⟩ := h
  obtain ⟨id, hid, hmarkers⟩ := Step.markers_markFailed hs hok
  cases hid.symm.trans hchain
  have hrow := Store.row_offer_marker (s.markers pipeline) ⟨height, chain⟩
  refine ⟨_, ?_, congrArg MarkerRow.chain hrow, congrArg MarkerRow.height hrow⟩
  show _ ∈ (((Step.markFailed pipeline named height).next s).markers pipeline).entries
  rw [hmarkers]
  exact (hs.keyed_markers pipeline).mem_entries_offer.2 (Or.inl rfl)

/-- A step by which a pipeline sees to a block takes its marker. -/
theorem markers_of_stores (hs : m.store.Sound) {block : Block} (h : m.Stores pipeline block) :
    m.next.markers pipeline =
      (m.store.markers pipeline).remove fun entry => entry.row = block.marker := by
  obtain ⟨s, step⟩ := m
  obtain ⟨hok, hstored⟩ := h
  cases step with
  | persist block' txs =>
    cases hstored
    have hstored := Step.stored_of_succeeds hs hok
    exact (hstored.rest .failedBlocks hstored.markers).trans (Store.get_set_self ..)
  | markEventsIndexed block' =>
    cases hstored
    obtain ⟨_, after, hafter, hnext⟩ := (Step.does_markEventsIndexed block).of_succeeds
      (ends_markEventsIndexed hs block rfl) hok
    have hnext : next ⟨s, .markEventsIndexed block⟩ = s.withEvents block := hnext.trans hafter
    rw [hnext]
    exact (s.markers_unmarked .events block.marker).1
  | _ => cases hstored

/-- A height is not marked once its pipeline has seen to it. -/
theorem not_isMarked_of_seesTo (hs : m.store.Sound) (h : m.SeesTo pipeline chain height) :
    ¬ m.next.IsMarked pipeline chain height := by
  obtain ⟨block, hstores, rfl, rfl⟩ := h
  rintro ⟨entry, hentry, hchain, hheight⟩
  rw [markers_of_stores hs hstores, Table.mem_entries_remove] at hentry
  have hrow : entry.row = block.marker := by
    cases hentryRow : entry.row
    simp_all [Block.marker]
  exact absurd hrow (of_decide_eq_false hentry.2)

theorem spent_of_removesChain (hs : m.store.Sound) (h : m.RemovesChain chain) :
    m.next.Spent .chains chain := by
  obtain ⟨s, step⟩ := m
  obtain ⟨chainId, removed, rfl, hremoved, rfl⟩ := h
  exact Step.spent_removeChain hs hremoved

/-- A step that neither marks a height nor sees to it leaves it marked or unmarked, as long as the
chain is there. -/
theorem isMarked_next_iff (hs : m.store.Sound) (hlasts : ¬ m.next.Spent .chains chain)
    (hmarks : ¬ m.Marks pipeline chain height) (hunseen : ¬ m.SeesTo pipeline chain height) :
    m.next.IsMarked pipeline chain height ↔ m.store.IsMarked pipeline chain height := by
  constructor
  · rintro ⟨entry, hentry, rfl, rfl⟩
    by_contra hbefore
    exact hmarks (marks_of_added hs hentry fun hold => hbefore ⟨entry, hold, rfl, rfl⟩)
  · rintro ⟨entry, hentry, rfl, rfl⟩
    have hstays : ¬ m.RemovesChain entry.row.chain :=
      fun hremoves => hlasts (spent_of_removesChain hs hremoves)
    exact ⟨entry, marker_kept hs hentry hunseen hstays, rfl, rfl⟩

end Moment

/-! ## Runs -/

namespace Store

variable {steps : List Step} {chain : Id}

/-- As long as the chain is there, a height is marked if the last step that marks it or sees to it
is one that marks it. -/
theorem isMarked_iff (height : Int64) (hlasts : ¬ ((∅ : Store).after steps).Spent .chains chain) :
    ((∅ : Store).after steps).IsMarked pipeline chain height ↔
      ∃ m, IsLatest (fun m => m.Marks pipeline chain height ∨ m.SeesTo pipeline chain height) m
        ((∅ : Store).history steps) ∧ m.Marks pipeline chain height := by
  induction steps using List.reverseRecOn with
  | nil =>
    constructor
    · rintro ⟨entry, hentry, _⟩
      cases pipeline <;> cases hentry
    · rintro ⟨m, hlatest, _⟩
      cases hlatest.mem
  | append_singleton steps step ih =>
    have hs := (Reachable.empty.after steps).sound
    specialize ih (Reachable.empty.not_spent_of_append hlasts)
    rw [after_concat] at hlasts ⊢
    rw [history_concat]
    generalize (∅ : Store).after steps = s at *
    generalize (∅ : Store).history steps = history at *
    simp only [isLatest_concat]
    by_cases hmarks : Moment.Marks ⟨s, step⟩ pipeline chain height
    · refine iff_of_true (Moment.isMarked_of_marks hs hmarks)
        ⟨_, Or.inl ⟨Or.inl hmarks, rfl⟩, hmarks⟩
    by_cases hseen : Moment.SeesTo ⟨s, step⟩ pipeline chain height
    · refine iff_of_false (Moment.not_isMarked_of_seesTo hs hseen) ?_
      rintro ⟨m, ⟨_, rfl⟩ | ⟨hnone, _⟩, hm⟩
      · exact hmarks hm
      · exact hnone (Or.inr hseen)
    · rw [Moment.isMarked_next_iff hs hlasts hmarks hseen, ih]
      simp [hmarks, hseen]

theorem mem_failedHeights {s : Store} {entry : Entry MarkerRow} :
    entry ∈ s.failedHeights pipeline chain ↔
      entry ∈ (s.markers pipeline).entries ∧ entry.row.chain = chain := by
  rw [failedHeights, Table.mem_listed, decide_eq_true_eq]

/-- The markers of a chain are listed once each and in ascending order of the heights. -/
theorem Sound.pairwise_failedHeights (hs : s.Sound) (pipeline : Pipeline) (chain : Id) :
    (s.failedHeights pipeline chain).Pairwise fun a b => a.row.height < b.row.height := by
  apply Table.pairwise_listed
  intro a ha b hb hchain hchain' hheight
  apply (hs.keyed_markers pipeline).eq_of_key ha hb
  rw [decide_eq_true_eq] at hchain hchain'
  simp only [markerKey, MarkerRow.slot, hchain, hchain', hheight]

/-- The markers of a run, for every chain that is there at its end. A pipeline lists, once each and
in ascending order, the heights at which the last step that marks the height or sees to it is one
that marks it. No other step adds a marker of the pipeline or takes one out, but that a chain takes
its markers with it. -/
theorem markers_follow_history (steps : List Step) (pipeline : Pipeline) {chain : Id}
    (h : chain ∈ ((∅ : Store).after steps).chains.rows) :
    let s := (∅ : Store).after steps
    let history := (∅ : Store).history steps
    (∀ entry ∈ s.failedHeights pipeline chain, entry.row.chain = chain) ∧
    (s.failedHeights pipeline chain).Pairwise (fun a b => a.row.height < b.row.height) ∧
    (∀ height, (∃ entry ∈ s.failedHeights pipeline chain, entry.row.height = height) ↔
      ∃ m, IsLatest (fun m => m.Marks pipeline chain height ∨ m.SeesTo pipeline chain height) m
        history ∧ m.Marks pipeline chain height) ∧
    ∀ m ∈ history, ∀ entry : Entry MarkerRow,
      (entry ∈ (m.next.markers pipeline).entries → entry ∉ (m.store.markers pipeline).entries →
        m.Marks pipeline entry.row.chain entry.row.height) ∧
      (entry ∈ (m.store.markers pipeline).entries → entry ∉ (m.next.markers pipeline).entries →
        m.SeesTo pipeline entry.row.chain entry.row.height ∨
          entry.row.chain ≠ chain ∧ m.RemovesChain entry.row.chain) := by
  intro s history
  have hs : s.Sound := (Reachable.empty.after steps).sound
  have hlasts : ¬ s.Spent .chains chain := fun hspent => hspent.2 h
  refine ⟨fun entry hentry => (mem_failedHeights.1 hentry).2,
    hs.pairwise_failedHeights pipeline chain, fun height => ?_, fun m hm entry => ⟨?_, ?_⟩⟩
  · rw [← isMarked_iff height hlasts, IsMarked]
    simp only [mem_failedHeights, and_assoc]
    rfl
  · exact Moment.marks_of_added (Reachable.empty.of_mem_history hm).sound
  · intro hbefore hafter
    have hms := (Reachable.empty.of_mem_history hm).sound
    by_contra hnot
    rw [not_or, not_and] at hnot
    by_cases hremoves : m.RemovesChain entry.row.chain
    · -- the chain that goes is not one that is there at the end
      have hchain : entry.row.chain = chain := by
        by_contra hne
        exact hnot.2 hne hremoves
      obtain ⟨later, hlater⟩ := exists_after_of_mem_history hm
      have hspent := (Moment.spent_of_removesChain hms hremoves).after
        (Moment.sound_next hms) later
      rw [hchain, ← hlater] at hspent
      exact hlasts hspent
    · exact hafter (Moment.marker_kept hms hbefore hnot.1 hremoves)

/-- A height stays marked when its block cannot be stored, and another one does not when it can. -/
theorem markers_follow_history_of_failed_block :
    let broken : Tx := { Tx.new "h1" 0 none [⟨"vote", 0, []⟩] with messageTypes := ∅ }
    let steps : List Step :=
      [.markFailed .txs ⟨"a-1", "A"⟩ 5, .markFailed .txs ⟨"a-1", "A"⟩ 3,
        .persist ⟨1, 5, Instant.zero⟩ [broken], .persist ⟨1, 3, Instant.zero⟩ []]
    1 ∈ ((∅ : Store).after steps).chains.rows ∧
      ((∅ : Store).after steps).failedBlocks.entries = [⟨1, ⟨5, 1⟩⟩] ∧
      (∃ m, IsLatest (fun m => m.Marks .txs 1 5 ∨ m.SeesTo .txs 1 5) m
        ((∅ : Store).history steps) ∧ m.Marks .txs 1 5) ∧
      ¬ ∃ m, IsLatest (fun m => m.Marks .txs 1 3 ∨ m.SeesTo .txs 1 3) m
        ((∅ : Store).history steps) ∧ m.Marks .txs 1 3 := by
  intro broken steps
  have hchain : 1 ∈ ((∅ : Store).after steps).chains.rows := by decide +kernel
  have hentries : ((∅ : Store).after steps).failedBlocks.entries = [⟨1, ⟨5, 1⟩⟩] := by
    decide +kernel
  have hlisted : ∀ entry, entry ∈ ((∅ : Store).after steps).failedHeights .txs 1 ↔
      entry = ⟨1, ⟨5, 1⟩⟩ := by
    intro entry
    rw [mem_failedHeights, show ((∅ : Store).after steps).markers .txs =
      ((∅ : Store).after steps).failedBlocks from rfl, hentries, List.mem_singleton]
    exact and_iff_left_of_imp fun he => he ▸ rfl
  obtain ⟨_, _, hheights, _⟩ := markers_follow_history steps .txs hchain
  refine ⟨hchain, hentries, ?_, ?_⟩
  · rw [← hheights]
    exact ⟨_, (hlisted _).2 rfl, rfl⟩
  · rw [← hheights]
    rintro ⟨entry, hentry, hheight⟩
    rw [(hlisted entry).1 hentry] at hheight
    exact absurd hheight (by decide)

end Store

end BlockArchive
