import BlockArchive.Proofs.Writing

/-!
# Taking a chain out

With a chain goes all that belongs to it and nothing else. Whatever refers to a row that goes goes
itself, and goes first, so none of the statements is refused.

## Main definitions

- `Store.Cleared`: what belongs to a chain has gone from some of the tables
- `Store.Without`: it has gone from all of them

## Main statements

- `Store.belongs_of_reference`: what refers to a row that goes goes itself
- `ends_deleteChain`: taking a chain out of a sound store
- `Step.next_removeChain`: the store after a chain has been taken out
-/

namespace BlockArchive

namespace Table

/-- The rows that are wanted, by their ids. -/
theorem mem_idsWhere {ρ : Type} {t : Table ρ} {wanted : ρ → Bool} {entry : Entry ρ}
    (h : entry ∈ t.entries) : entry.id ∈ t.idsWhere wanted ↔ wanted entry.row = true := by
  simp only [idsWhere, List.mem_map, List.mem_filter]
  constructor
  · rintro ⟨other, ⟨hother, hwanted⟩, hid⟩
    rwa [← eq_of_mem_entries hother h hid]
  · exact fun hwanted => ⟨entry, ⟨h, hwanted⟩, rfl⟩

end Table

namespace TableName

/-- The tables whose rows may refer to rows of a table. -/
def referring : TableName → List TableName
  | chains => [blocks, failedBlocks, failedEventBlocks]
  | blocks => [txes]
  | addresses => [txes]
  | txes => [messages]
  | messageTypes => [messages]
  | messages => [events]
  | eventTypes => [events]
  | events => [attributes]
  | attributeKeys => [attributes]
  | denoms => [denomUnits]
  | attributes | failedBlocks | failedEventBlocks | denomUnits | ibcDenoms => []

theorem mem_referring {m : TableName} {row : m.Row} {ref : Reference}
    (h : ref ∈ m.references row) : m ∈ ref.target.referring := by
  cases m <;> simp only [references, List.mem_cons, List.mem_map, List.not_mem_nil, or_false] at h
  case txes => rcases h with rfl | ⟨_, _, rfl⟩ <;> simp [referring]
  case messages | events | attributes => rcases h with rfl | rfl <;> simp [referring]
  case blocks | failedBlocks | failedEventBlocks | denomUnits =>
    subst h
    simp [referring]

end TableName

namespace Store

variable {s u : Store} {chain : Id}

/-- What refers to a row that goes goes itself. -/
theorem belongs_of_reference {m : TableName} {entry : Entry m.Row}
    (hentry : entry ∈ (s.get m).entries) {ref : Reference} (href : ref ∈ m.references entry.row)
    {gone : Entry ref.target.Row} (hid : gone.id = ref.id)
    (hbelongs : s.Belongs chain ref.target gone) : s.Belongs chain m entry := by
  obtain ⟨_, row⟩ := gone
  cases hid
  cases m <;>
    simp only [TableName.references, List.mem_cons, List.mem_map, List.not_mem_nil,
      or_false] at href
  case blocks =>
    subst href
    exact (Table.mem_idsWhere hentry).2 (decide_eq_true hbelongs)
  case txes =>
    rcases href with rfl | ⟨_, _, rfl⟩
    · exact (Table.mem_idsWhere hentry).2 (decide_eq_true hbelongs)
    · exact hbelongs.elim
  case messages =>
    rcases href with rfl | rfl
    · exact (Table.mem_idsWhere hentry).2 (decide_eq_true hbelongs)
    · exact hbelongs.elim
  case events =>
    rcases href with rfl | rfl
    · exact (Table.mem_idsWhere hentry).2 (decide_eq_true hbelongs)
    · exact hbelongs.elim
  case attributes =>
    rcases href with rfl | rfl
    · exact hbelongs
    · exact hbelongs.elim
  case failedBlocks | failedEventBlocks =>
    subst href
    exact hbelongs
  case denomUnits =>
    subst href
    exact hbelongs.elim

/-- What belongs to a chain has gone from the tables that are done, and nothing else has. -/
structure Cleared (s : Store) (chain : Id) (done : List TableName) (u : Store) : Prop where
  sound : u.Sound
  nextId : ∀ n, (u.get n).nextId = (s.get n).nextId
  mem_entries : ∀ n entry, entry ∈ (u.get n).entries ↔
    entry ∈ (s.get n).entries ∧ ¬ (n ∈ done ∧ s.Belongs chain n entry)

theorem Cleared.start (hs : s.Sound) : s.Cleared chain [] s where
  sound := hs
  nextId _ := rfl
  mem_entries n entry := by simp

/-- Another table is cleared once those are whose rows refer to it. -/
theorem Cleared.delete {done : List TableName} (h : s.Cleared chain done u) (n : TableName)
    (doomed : Entry n.Row → Prop) [DecidablePred doomed]
    (hdoomed : ∀ entry, doomed entry ↔ s.Belongs chain n entry)
    (hdone : ∀ m ∈ n.referring, m ∈ done) :
    Ends (fun fault cause => cause = fault) (Store.delete n fun entry => decide (doomed entry)) u
      none fun _ t => s.Cleared chain (n :: done) t := by
  have hfree : (u.set n ((u.get n).remove fun entry => decide (doomed entry))).stillReferred? n =
      none := by
    rw [stillReferred?_eq_none]
    intro m entry hentry ref href htarget
    have hmem : entry ∈ (u.get m).entries := by
      by_cases hm : m = n
      · subst hm
        rw [get_set_self] at hentry
        exact (Table.mem_entries_remove.1 hentry).1
      · rwa [get_set_of_ne u _ hm] at hentry
    obtain ⟨kept, hkept, hid⟩ := Table.mem_rows_iff.1 (h.sound.resolves m entry hmem ref href)
    obtain ⟨hold, hstays⟩ := (h.mem_entries m entry).1 hmem
    -- the row that is referred to does not go, or the one that refers to it would have gone
    have hnot : ¬ s.Belongs chain ref.target kept := fun hbelongs =>
      hstays ⟨hdone m (htarget ▸ TableName.mem_referring href),
        belongs_of_reference hold href hid hbelongs⟩
    obtain ⟨column, target, id⟩ := ref
    cases htarget
    rw [Resolves, get_set_self]
    refine Table.mem_rows_iff.2 ⟨kept, Table.mem_entries_remove.2 ⟨hkept, ?_⟩, hid⟩
    exact decide_eq_false fun he => hnot ((hdoomed kept).1 he)
  have hdelete : Store.delete n (fun entry => decide (doomed entry)) u =
      .ok () (u.set n ((u.get n).remove fun entry => decide (doomed entry))) := by
    simp only [Store.delete, hfree]
  refine Ends.ok hdelete ⟨?_, fun m => ?_, fun m entry => ?_⟩
  · have hkeeps := keeps_delete n (fun entry => decide (doomed entry)) u h.sound
    rw [hdelete] at hkeeps
    exact hkeeps.1
  · by_cases hm : m = n
    · subst hm
      rw [get_set_self]
      exact h.nextId m
    · rw [get_set_of_ne u _ hm]
      exact h.nextId m
  · by_cases hm : m = n
    · subst hm
      rw [get_set_self, Table.mem_entries_remove, h.mem_entries, decide_eq_false_iff_not, hdoomed]
      simp only [List.mem_cons, true_or, true_and]
      tauto
    · rw [get_set_of_ne u _ hm, h.mem_entries]
      simp [hm]

/-- All that belongs to a chain has gone, and nothing else. -/
structure Without (s : Store) (chain : Id) (t : Store) : Prop where
  nextId : ∀ n, (t.get n).nextId = (s.get n).nextId
  mem_entries : ∀ n entry, entry ∈ (t.get n).entries ↔
    entry ∈ (s.get n).entries ∧ ¬ s.Belongs chain n entry

theorem Cleared.without {done : List TableName} (h : s.Cleared chain done u)
    (hdone : ∀ n entry, s.Belongs chain n entry → n ∈ done) : s.Without chain u where
  nextId := h.nextId
  mem_entries n entry := by
    rw [h.mem_entries]
    exact and_congr_right fun _ => not_congr ⟨fun hb => hb.2, fun hb => ⟨hdone n entry hb, hb⟩⟩

end Store

/-- A chain of a sound store is taken out with all that belongs to it, and no statement is
refused. -/
theorem ends_deleteChain {s : Store} (hs : s.Sound) {chainId : String} {chain : Entry Chain}
    (hchain : s.findChain? chainId = some chain) :
    Ends (fun fault cause => cause = fault) (Store.deleteChain chainId) s none
      fun _ t => s.Without chain.id t := by
  unfold Store.deleteChain
  have hread : Ends (fun fault cause => cause = fault) (getThe Store : StoreM Store) s none
      fun t u => s = t ∧ s = u := Ends.ok rfl ⟨rfl, rfl⟩
  refine hread.next ?_
  rintro _ _ ⟨rfl, rfl⟩
  rw [hchain]
  refine ((Store.Cleared.start hs).delete .attributes (·.row.event ∈ s.eventIds chain.id)
    (fun _ => Iff.rfl) (by decide)).next fun _ _ h => ?_
  refine (h.delete .events (·.id ∈ s.eventIds chain.id) (fun _ => Iff.rfl) (by decide)).next
    fun _ _ h => ?_
  refine (h.delete .messages (·.id ∈ s.messageIds chain.id) (fun _ => Iff.rfl) (by decide)).next
    fun _ _ h => ?_
  refine (h.delete .txes (·.id ∈ s.txIds chain.id) (fun _ => Iff.rfl) (by decide)).next
    fun _ _ h => ?_
  refine (h.delete .blocks (·.id ∈ s.blockIds chain.id) (fun _ => Iff.rfl) (by decide)).next
    fun _ _ h => ?_
  refine (h.delete .failedBlocks (·.row.chain = chain.id) (fun _ => Iff.rfl) (by decide)).next
    fun _ _ h => ?_
  refine (h.delete .failedEventBlocks (·.row.chain = chain.id) (fun _ => Iff.rfl)
    (by decide)).next fun _ _ h => ?_
  refine (h.delete .chains (·.id = chain.id) (fun _ => Iff.rfl) (by decide)).mono
    fun _ _ _ h => h.without fun n entry hbelongs => ?_
  cases n <;> first | decide | exact hbelongs.elim

theorem Step.does_removeChain (chainId : String) :
    (removeChain chainId).Does (BlockArchive.removeChain chainId) :=
  ⟨fun _ => none, rfl⟩

/-- A step that takes a chain out takes all that belongs to it and nothing else. -/
theorem Step.next_removeChain {s : Store} (hs : s.Sound) {chainId : String} {chain : Entry Chain}
    (hchain : s.findChain? chainId = some chain) :
    s.Without chain.id ((removeChain chainId).next s) := by
  have hends : Ends (fun cause failure => failure = .query cause)
      (BlockArchive.removeChain chainId) { store := s } none
      fun _ after => s.Without chain.id after.store :=
    WriteM.ends_transaction (WriteM.ends_query_cause (ends_deleteChain hs hchain))
  obtain ⟨_, after, hwithout, hnext⟩ := ((does_removeChain chainId).ends hends).2 rfl
  rw [hnext]
  exact hwithout

end BlockArchive
