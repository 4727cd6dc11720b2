import BlockArchive.Proofs.Effects
import BlockArchive.Proofs.Frame
import BlockArchive.Proofs.Renaming

/-!
# Steps that fail are not seen

A writing step that fails leaves all rows as they were, but it may have taken ids. So the steps that
follow give other ids than they would have given without it. Two stores that tell the same and have
chains in common are tied: writing steps that are told only these chains succeed in both or in
neither, and leave them tied. In this way ids that have been taken for nothing are never seen.

## Main definitions

- `Store.Tied`: the stores tell the same and have chains in common

## Main statements

- `Store.Tied.next`, `Store.Tied.after`: writing steps leave stores tied
- `Store.Reachable.unseen_of_fails`: a writing step that fails is not seen by those that follow
-/

namespace BlockArchive

variable {s t : Store} {step : Step}

namespace Step

/-- A step is laid over a view in one way by all who know the chain that it is told. -/
theorem layOver_congr {text text' : Id → String} (view : View)
    (h : ∀ id ∈ step.chainId?, text id = text' id) :
    step.layOver text view = step.layOver text' view := by
  cases step with
  | persist block txs => rw [layOver, h block.chain rfl, layOver]
  | markEventsIndexed block => rw [layOver, h block.chain rfl, layOver]
  | _ => rfl

theorem mem_chains_next (hs : s.Sound) (hw : step.Writes) {chain : Entry Chain}
    (hchain : chain ∈ s.chains.entries) : chain ∈ (step.next s).chains.entries := by
  have htakes : ¬ step.Takes s .chains chain := by
    cases step <;> first | exact id | cases hw
  exact step.preserves_next (Store.survives_mem (n := .chains) (fun _ _ _ => rfl) htakes) hs hchain

end Step

/-! ## Tied stores -/

/-- The stores tell the same, and both have the chains. -/
structure Store.Tied (chains : Table Chain) (s t : Store) : Prop where
  sound_left : s.Sound
  sound_right : t.Sound
  view : s.view = t.view
  mem_left : ∀ chain ∈ chains.entries, chain ∈ s.chains.entries
  mem_right : ∀ chain ∈ chains.entries, chain ∈ t.chains.entries

namespace Store.Tied

variable {chains : Table Chain}

/-- A writing step that is told only chains that both stores have succeeds in both or in neither. -/
theorem succeeds_iff (h : Tied chains s t) (hw : step.Writes)
    (hid : ∀ id ∈ step.chainId?, id ∈ chains.rows) : step.Succeeds s ↔ step.Succeeds t := by
  have hthere : ∀ u : Store, (∀ chain ∈ chains.entries, chain ∈ u.chains.entries) →
      ∀ id ∈ step.chainId?, id ∈ u.chains.rows := by
    intro u hu id hmem
    obtain ⟨chain, hchain, rfl⟩ := Table.mem_rows_iff.1 (hid id hmem)
    exact Table.mem_rows_iff.2 ⟨chain, hu chain hchain, rfl⟩
  rw [Step.succeeds_iff h.sound_left hw, Step.succeeds_iff h.sound_right hw]
  exact and_congr_right fun _ => iff_of_true (hthere s h.mem_left) (hthere t h.mem_right)

/-- A writing step leaves tied stores tied. -/
theorem next (h : Tied chains s t) (hw : step.Writes)
    (hid : ∀ id ∈ step.chainId?, id ∈ chains.rows) :
    Tied chains (step.next s) (step.next t) where
  sound_left := (step.keeps_next s h.sound_left).1
  sound_right := (step.keeps_next t h.sound_right).1
  view := by
    by_cases hok : step.Succeeds s
    · have htext : ∀ id ∈ step.chainId?, s.chainText id = t.chainText id := by
        intro id hmem
        obtain ⟨chain, hchain, rfl⟩ := Table.mem_rows_iff.1 (hid id hmem)
        rw [chainText_eq (Table.mem_entries.1 (h.mem_left chain hchain)),
          chainText_eq (Table.mem_entries.1 (h.mem_right chain hchain))]
      rw [Step.view_next h.sound_left hw hok,
        Step.view_next h.sound_right hw ((h.succeeds_iff hw hid).1 hok), h.view,
        Step.layOver_congr _ htext]
    · have hnot : ¬ step.Succeeds t := mt (h.succeeds_iff hw hid).2 hok
      rw [Step.view_next_of_fails hw hok, Step.view_next_of_fails hw hnot, h.view]
  mem_left chain hchain := Step.mem_chains_next h.sound_left hw (h.mem_left chain hchain)
  mem_right chain hchain := Step.mem_chains_next h.sound_right hw (h.mem_right chain hchain)

theorem after (h : Tied chains s t) {steps : List Step}
    (hsteps : ∀ step ∈ steps, step.Writes ∧ ∀ id ∈ step.chainId?, id ∈ chains.rows) :
    Tied chains (s.after steps) (t.after steps) := by
  induction steps generalizing s t with
  | nil => exact h
  | cons step rest ih =>
    obtain ⟨hw, hid⟩ := hsteps step List.mem_cons_self
    exact ih (h.next hw hid) fun other hother => hsteps other (List.mem_cons_of_mem _ hother)

theorem of_fails (hs : s.Sound) (hw : step.Writes) (hfails : ¬ step.Succeeds s) :
    Tied s.chains (step.next s) s where
  sound_left := (step.keeps_next s hs).1
  sound_right := hs
  view := Step.view_next_of_fails hw hfails
  mem_left _ hchain := Step.mem_chains_next hs hw hchain
  mem_right _ hchain := hchain

end Store.Tied

/-- A writing step that fails changes no row, and no writing steps that follow can tell that it was
tried, as long as the chains that they are told are there: each of them succeeds or fails as it
would have without it, and in the end the store tells the same and differs only in its ids. -/
theorem Store.Reachable.unseen_of_fails (h : s.Reachable) (hw : step.Writes)
    (hfails : ¬ step.Succeeds s) :
    (∀ n, ((step.next s).get n).rows = (s.get n).rows) ∧
      ∀ later : List Step,
        (∀ other ∈ later, other.Writes ∧ ∀ id ∈ other.chainId?, id ∈ s.chains.rows) →
        (∀ earlier other rest, later = earlier ++ other :: rest →
          (other.Succeeds ((step.next s).after earlier) ↔ other.Succeeds (s.after earlier))) ∧
        ((step.next s).after later).view = (s.after later).view ∧
        ((step.next s).after later).SameButIds (s.after later) := by
  have htied := Tied.of_fails h.sound hw hfails
  refine ⟨Step.rows_next hw hfails, fun later hlater => ?_⟩
  have hend := htied.after hlater
  refine ⟨?_, hend.view, sameButIds_of_view hend.sound_left hend.sound_right hend.view⟩
  rintro earlier other rest rfl
  have hother := hlater other (by simp)
  have hearlier : Tied s.chains ((step.next s).after earlier) (s.after earlier) :=
    htied.after fun step hstep => hlater step (List.mem_append_left _ hstep)
  exact hearlier.succeeds_iff hother.1 hother.2

/-- A block whose second stage of texts fails has taken ids, and yet neither storing the block after
all nor marking a height of another chain can tell. -/
theorem Store.Reachable.unseen_of_fails_of_unregistered_event :
    let s := (Step.markFailed .txs ⟨"a-1", "A"⟩ 7).next ∅
    let tx := Tx.new "h1" 0 (some "alice") [⟨"send", 0, [⟨"transfer", 0, []⟩]⟩]
    let failed := Step.persist ⟨1, 7, Instant.zero⟩ [{ tx with eventTypes := ∅ }]
    let later := [Step.persist ⟨1, 7, Instant.zero⟩ [tx], Step.markFailed .events ⟨"b-1", "B"⟩ 3]
    (failed.next s).failedBlocks.rows = s.failedBlocks.rows ∧
      (failed.next s).after later ≠ s.after later ∧
      ((failed.next s).after later).view = (s.after later).view := by
  intro s tx failed later
  have hs : s.Reachable := .step .empty _
  have hanswer : (failed.outcome s).answer =
      .error (.repo (.unregisteredReference .eventType "transfer")) := by decide +kernel
  have hfails : ¬ failed.Succeeds s := by
    rintro ⟨answer, hok⟩
    rw [hanswer] at hok
    cases hok
  have hw : failed.Writes := trivial
  obtain ⟨hrows, hlater⟩ := hs.unseen_of_fails hw hfails
  have hwrites : ∀ other ∈ later, other.Writes ∧ ∀ id ∈ other.chainId?, id ∈ s.chains.rows := by
    have hone : (1 : Id) ∈ s.chains.rows := by decide +kernel
    intro other hother
    rcases List.mem_pair.1 hother with rfl | rfl
    · exact ⟨trivial, fun id hid => by cases hid; exact hone⟩
    · exact ⟨trivial, fun id hid => by cases hid⟩
  exact ⟨hrows .failedBlocks, by decide +kernel, (hlater later hwrites).2.1⟩

end BlockArchive
