import BlockArchive.Proofs.Effects
import BlockArchive.Proofs.Renaming
import Mathlib.Data.List.Pairwise

/-!
# Blocks come in any order

Steps that see to blocks share the tables of addresses and of texts and take their ids from the same
sequences, so the ids that rows get depend on the order of the steps. What the store tells does not,
as long as the steps neither disagree on the time of a height nor bring the same transactions. For
whether such a step succeeds depends on the chains alone, which none of them changes, and laid over
a view any two of them come to the same in either order.

## Main definitions

- `Step.block?`, `Step.hashes`: the block that a step sees to, and the transactions that it brings
- `Step.Independent`: two steps do not meddle with one another

## Main statements

- `Step.layOver_comm`: two independent steps, laid over a view, come in either order
- `Store.view_after_blocks`, `Store.view_after_perm`: what is told after a run of such steps
- `Store.Reachable.any_order`: independent steps that see to blocks come in any order
-/

namespace BlockArchive

/-! ## Views -/

namespace View

variable (view : View) {pipeline pipeline' : Pipeline} {chain chain' : String}
  {height height' : Int64} {block block' : Block} {txs txs' : List Tx}

theorem unmark_comm :
    (view.unmark pipeline chain height).unmark pipeline' chain' height' =
      (view.unmark pipeline' chain' height').unmark pipeline chain height := by
  apply View.ext
  case marked =>
    funext other chainId otherHeight
    exact Bool.and_right_comm ..
  all_goals rfl

/-- Blocks come in either order unless they tell different times of one height. -/
theorem index_comm
    (h : chain = chain' → block.height = block'.height → block.time = block'.time) :
    (view.index pipeline chain block).index pipeline' chain' block' =
      (view.index pipeline' chain' block').index pipeline chain block := by
  apply View.ext
  case blocks =>
    funext chainId height
    simp only [index]
    by_cases hhere : chainId = chain ∧ height = block.height <;>
      by_cases hthere : chainId = chain' ∧ height = block'.height
    · have htime := h (hhere.1.symm.trans hthere.1) (hhere.2.symm.trans hthere.2)
      simp only [if_pos hhere, if_pos hthere, htime, Option.any_some, Bool.or_right_comm]
    · simp only [if_pos hhere, if_neg hthere]
    · simp only [if_neg hhere, if_pos hthere]
    · simp only [if_neg hhere, if_neg hthere]
  all_goals rfl

theorem index_unmark_comm :
    (view.index pipeline chain block).unmark pipeline' chain' height =
      (view.unmark pipeline' chain' height).index pipeline chain block :=
  rfl

theorem blocks_index_congr {view view' : View} (h : view.blocks = view'.blocks) :
    (view.index pipeline chain block).blocks = (view'.index pipeline chain block).blocks := by
  simp only [index, h]

theorem persist_index_comm
    (h : chain = chain' → block.height = block'.height → block.time = block'.time) :
    (view.persist chain block txs).index pipeline chain' block' =
      (view.index pipeline chain' block').persist chain block txs := by
  apply View.ext
  case blocks =>
    rw [blocks_persist, blocks_index_congr (blocks_persist ..), index_comm view h]
  all_goals rfl

theorem persist_unmark_comm :
    (view.persist chain block txs).unmark pipeline chain' height =
      (view.unmark pipeline chain' height).persist chain block txs := by
  apply View.ext
  case marked =>
    funext other chainId otherHeight
    exact Bool.and_right_comm ..
  all_goals rfl

/-- Blocks come in either order with their transactions, unless they tell different times of one
height or bring the same transaction. -/
theorem persist_comm
    (h : chain = chain' → block.height = block'.height → block.time = block'.time)
    (hhashes : ∀ hash, Tx.last? txs hash = none ∨ Tx.last? txs' hash = none) :
    (view.persist chain block txs).persist chain' block' txs' =
      (view.persist chain' block' txs').persist chain block txs := by
  apply View.ext
  case blocks =>
    rw [blocks_persist, blocks_persist, blocks_index_congr (blocks_persist ..),
      blocks_index_congr (blocks_persist ..), index_comm view h]
  case marked =>
    funext other chainId otherHeight
    exact Bool.and_right_comm ..
  case addresses =>
    funext address
    exact Bool.or_right_comm ..
  case texts =>
    funext kind text
    exact Bool.or_right_comm ..
  case txes =>
    funext hash
    rcases hhashes hash with hnone | hnone <;> simp only [persist, hnone]
  all_goals rfl

end View

/-! ## Independent steps -/

theorem Tx.last?_eq_none_or_of_disjoint {txs txs' : List Tx}
    (h : (txs.map (·.hash)).Disjoint (txs'.map (·.hash))) (hash : String) :
    last? txs hash = none ∨ last? txs' hash = none := by
  cases hlast : last? txs hash with
  | none => exact Or.inl rfl
  | some tx =>
    cases hlast' : last? txs' hash with
    | none => exact Or.inr rfl
    | some tx' =>
      obtain ⟨hmem, rfl⟩ := hash_of_last? hlast
      obtain ⟨hmem', hhash⟩ := hash_of_last? hlast'
      exact absurd (hhash ▸ List.mem_map_of_mem hmem') (h (List.mem_map_of_mem hmem))

namespace Step

/-- The block that the step sees to, if it sees to one. -/
def block? : Step → Option Block
  | persist block _ | markEventsIndexed block => some block
  | _ => none

/-- The hashes of the transactions that the step brings. -/
def hashes : Step → List String
  | persist _ txs => txs.map (·.hash)
  | _ => []

/-- The steps do not tell different times of one height and have no transaction in common. -/
structure Independent (step other : Step) : Prop where
  time : ∀ block ∈ step.block?, ∀ block' ∈ other.block?,
    block.blockchainId = block'.blockchainId → block.height = block'.height →
      block.time = block'.time
  hashes : step.hashes.Disjoint other.hashes

instance : Std.Symm Independent where
  symm _ _ h :=
    { time := fun block hblock block' hblock' hchain hheight =>
        (h.time block' hblock' block hblock hchain.symm hheight.symm).symm
      hashes := List.disjoint_comm.1 h.hashes }

variable {step other : Step} {s : Store}

theorem writes_of_block? (h : step.block?.isSome) : step.Writes := by
  cases step <;> first | exact trivial | cases h

/-- Independent steps come in either order when they are laid over a view, if different chains have
different texts. -/
theorem layOver_comm {text : Id → String} (view : View) (h : Independent step other)
    (htext : ∀ block ∈ step.block?, ∀ block' ∈ other.block?,
      text block.chain = text block'.chain → block.chain = block'.chain)
    (hstep : step.block?.isSome) (hother : other.block?.isSome) :
    other.layOver text (step.layOver text view) = step.layOver text (other.layOver text view) := by
  have htime : ∀ block ∈ step.block?, ∀ block' ∈ other.block?,
      text block.chain = text block'.chain → block.height = block'.height →
        block.time = block'.time := by
    intro block hblock block' hblock' hchain
    exact h.time block hblock block' hblock'
      (Int64.toInt_inj.1 (htext block hblock block' hblock' hchain))
  cases step with
  | persist block txs =>
    have htime := htime block rfl
    cases other with
    | persist block' txs' =>
      apply View.persist_comm view (htime block' rfl)
      exact Tx.last?_eq_none_or_of_disjoint h.hashes
    | markEventsIndexed block' =>
      simp only [layOver]
      rw [View.persist_unmark_comm, View.persist_index_comm _ (htime block' rfl)]
    | _ => cases hother
  | markEventsIndexed block =>
    have htime := htime block rfl
    cases other with
    | persist block' txs' =>
      simp only [layOver]
      rw [View.persist_unmark_comm, View.persist_index_comm]
      intro hchain hheight
      exact (htime block' rfl hchain.symm hheight.symm).symm
    | markEventsIndexed block' =>
      simp only [layOver]
      rw [View.index_unmark_comm, View.index_comm _ (htime block' rfl), View.unmark_comm,
        View.index_unmark_comm]
    | _ => cases hother
  | _ => cases hstep

theorem chains_next (hs : s.Sound) (hblock : step.block?.isSome) :
    (step.next s).chains.rows = s.chains.rows := by
  have hw := writes_of_block? hblock
  by_cases hok : step.Succeeds s
  · cases step with
    | persist block txs =>
      have hchains := (stored_of_succeeds hs hok).get_chains
      exact congrArg Table.rows hchains
    | markEventsIndexed block =>
      obtain ⟨_, after, hafter, hnext⟩ :=
        (does_markEventsIndexed block).of_succeeds (ends_markEventsIndexed hs block rfl) hok
      rw [hnext, hafter]
      rfl
    | _ => cases hblock
  · exact rows_next hw hok .chains

theorem mem_chains_of_succeeds (hs : s.Sound) {block : Block} (hblock : block ∈ step.block?)
    (hok : step.Succeeds s) : block.chain ∈ s.chains.rows := by
  have hw := writes_of_block? (Option.isSome_of_mem hblock)
  apply ((succeeds_iff hs hw).1 hok).2
  cases step with
  | persist | markEventsIndexed =>
    cases hblock
    exact rfl
  | _ => cases hblock

/-- Whether a writing step succeeds depends on the chains alone. -/
theorem succeeds_congr {t : Store} (hs : s.Sound) (ht : t.Sound)
    (hchains : t.chains.rows = s.chains.rows) (hw : step.Writes) :
    step.Succeeds t ↔ step.Succeeds s := by
  rw [succeeds_iff ht hw, succeeds_iff hs hw, hchains]

end Step

/-! ## Runs of steps that see to blocks -/

namespace Store

variable {s : Store} {steps : List Step}

theorem chains_after (hs : s.Sound) (hsteps : ∀ step ∈ steps, step.block?.isSome) :
    (s.after steps).Sound ∧ (s.after steps).chains.rows = s.chains.rows := by
  induction steps generalizing s with
  | nil => exact ⟨hs, rfl⟩
  | cons step rest ih =>
    have hnext := Step.chains_next hs (hsteps step List.mem_cons_self)
    have hrest := ih (step.keeps_next s hs).1
      fun other hother => hsteps other (List.mem_cons_of_mem _ hother)
    exact ⟨hrest.1, hrest.2.trans hnext⟩

/-- After a run of steps that see to blocks, the store tells what it told before with those laid
over it that succeed. -/
theorem view_after_blocks (hs : s.Sound) (hsteps : ∀ step ∈ steps, step.block?.isSome) :
    (s.after steps).view =
      (steps.filter (·.Succeeds s)).foldl (fun view step => step.layOver s.chainText view)
        s.view := by
  induction steps generalizing s with
  | nil => rfl
  | cons step rest ih =>
    have hblock := hsteps step List.mem_cons_self
    have hrest : ∀ other ∈ rest, other.block?.isSome :=
      fun other hother => hsteps other (List.mem_cons_of_mem _ hother)
    have hw := Step.writes_of_block? hblock
    have hnext := (step.keeps_next s hs).1
    have hchains := Step.chains_next hs hblock
    -- the rest of the run sees the chains that the first step saw
    have htext : (step.next s).chainText = s.chainText := by
      funext id
      rw [chainText, hchains, chainText]
    have hfilter : rest.filter (·.Succeeds (step.next s)) = rest.filter (·.Succeeds s) := by
      apply List.filter_congr
      intro other hother
      have hiff := Step.succeeds_congr hs hnext hchains (Step.writes_of_block? (hrest other hother))
      exact decide_eq_decide.2 hiff
    have hview := ih hnext hrest
    rw [htext, hfilter] at hview
    by_cases hok : step.Succeeds s
    · rw [List.filter_cons_of_pos (by simpa using hok), List.foldl_cons,
        ← Step.view_next hs hw hok]
      exact hview
    · rw [List.filter_cons_of_neg (by simpa using hok), ← Step.view_next_of_fails hw hok]
      exact hview

theorem Sound.chainText_inj (hs : s.Sound) {id id' : Id} (hid : id ∈ s.chains.rows)
    (hid' : id' ∈ s.chains.rows) (h : s.chainText id = s.chainText id') : id = id' := by
  obtain ⟨chain, hchain, rfl⟩ := Table.mem_rows_iff.1 hid
  obtain ⟨chain', hchain', rfl⟩ := Table.mem_rows_iff.1 hid'
  rw [chainText_eq (Table.mem_entries.1 hchain), chainText_eq (Table.mem_entries.1 hchain')] at h
  exact (hs.id_eq_iff hchain hchain').2 h

theorem succeeds_after_blocks (hs : s.Sound) (hsteps : ∀ step ∈ steps, step.block?.isSome)
    {step : Step} (hw : step.Writes) : step.Succeeds (s.after steps) ↔ step.Succeeds s := by
  obtain ⟨hsound, hchains⟩ := chains_after hs hsteps
  exact Step.succeeds_congr hs hsound hchains hw

/-- What is told after a run of independent steps does not depend on their order. -/
theorem view_after_perm (hs : s.Sound) {steps' : List Step} (hperm : steps.Perm steps')
    (hsteps : ∀ step ∈ steps, step.block?.isSome) (hfree : steps.Pairwise Step.Independent) :
    (s.after steps).view = (s.after steps').view := by
  have hsteps' : ∀ step ∈ steps', step.block?.isSome :=
    fun step hstep => hsteps step (hperm.mem_iff.2 hstep)
  rw [view_after_blocks hs hsteps, view_after_blocks hs hsteps']
  -- the same steps are laid over one view, and any two of them come in either order
  apply (hperm.filter _).foldl_eq'
  intro step hstep other hother view
  obtain ⟨hmem, hok⟩ := List.mem_filter.1 hstep
  obtain ⟨hmem', hok'⟩ := List.mem_filter.1 hother
  by_cases hsame : step = other
  · rw [hsame]
  · apply Step.layOver_comm view (hfree.forall hmem hmem' hsame) _ (hsteps step hmem)
      (hsteps other hmem')
    intro block hblock block' hblock' htext
    have hchain := Step.mem_chains_of_succeeds hs hblock (by simpa using hok)
    have hchain' := Step.mem_chains_of_succeeds hs hblock' (by simpa using hok')
    exact hs.chainText_inj hchain hchain' htext

/-- Steps that see to blocks and are independent of one another come in any order: each of them
succeeds or fails as it does in any other order, and in the end the store tells the same and differs
only in its ids. -/
theorem Reachable.any_order (h : s.Reachable) {steps steps' : List Step}
    (hperm : steps.Perm steps') (hsteps : ∀ step ∈ steps, step.block?.isSome)
    (hfree : steps.Pairwise Step.Independent) :
    (∀ earlier step later earlier' later', steps = earlier ++ step :: later →
        steps' = earlier' ++ step :: later' →
        (step.Succeeds (s.after earlier) ↔ step.Succeeds (s.after earlier'))) ∧
      (s.after steps).view = (s.after steps').view ∧
      (s.after steps).SameButIds (s.after steps') := by
  have hview := view_after_perm h.sound hperm hsteps hfree
  have hsame := sameButIds_of_view (h.after steps).sound (h.after steps').sound hview
  refine ⟨?_, hview, hsame⟩
  rintro earlier step later earlier' later' rfl rfl
  have hw := Step.writes_of_block? (hsteps step (by simp))
  have hearlier := succeeds_after_blocks h.sound
    (fun other hother => hsteps other (List.mem_append_left _ hother)) hw
  have hearlier' := succeeds_after_blocks h.sound
    (fun other hother => hsteps other (hperm.mem_iff.2 (List.mem_append_left _ hother))) hw
  exact hearlier.trans hearlier'.symm

/-- Two blocks of one chain, one of a chain that is not there and the events of the first come in
reverse. The ids differ: it was bob and not alice whose address came first. -/
theorem Reachable.any_order_of_reversed_blocks :
    let s := (Step.registerChain ⟨"a-1", "A"⟩).next ∅
    let block (chain height : Int64) : Block := ⟨chain, height, Instant.zero⟩
    let steps : List Step := [
      .persist (block 1 7) [Tx.new "h1" 0 (some "alice") [⟨"send", 0, []⟩]],
      .persist (block 1 8) [Tx.new "h2" 0 (some "bob") [⟨"send", 0, []⟩, ⟨"vote", 1, []⟩]],
      .persist (block 2 7) [Tx.new "h3" 0 none []],
      .markEventsIndexed (block 1 7)]
    (s.after steps).addresses.rows[(1 : Id)]? = some "alice" ∧
      (s.after steps.reverse).addresses.rows[(1 : Id)]? = some "bob" ∧
      (s.after steps).view = (s.after steps.reverse).view := by
  intro s block steps
  have hs : s.Reachable := .step .empty _
  have htime : ∀ step ∈ steps, ∀ block ∈ step.block?, block.time = Instant.zero := by
    decide +kernel
  have hhashes : steps.Pairwise fun step other => ∀ hash ∈ step.hashes, hash ∉ other.hashes := by
    decide +kernel
  have hfree : steps.Pairwise Step.Independent := by
    refine hhashes.imp_of_mem fun {step other} hstep hother hdisjoint => ⟨?_, hdisjoint⟩
    intro block hblock block' hblock' _ _
    rw [htime step hstep block hblock, htime other hother block' hblock']
  have hblocks : ∀ step ∈ steps, step.block?.isSome := by decide +kernel
  exact ⟨by decide +kernel, by decide +kernel,
    (hs.any_order (List.reverse_perm steps).symm hblocks hfree).2.1⟩

end Store

end BlockArchive
