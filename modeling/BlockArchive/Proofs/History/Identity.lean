import BlockArchive.Proofs.Frame
import BlockArchive.Proofs.History.Moment

/-!
# Ids last

An id is given once. It names the row of one key as long as that row is there, and nothing after it
is gone, whatever is offered, taken out or rolled back. A key that is offered again while its row is
there keeps its id; only a row that has been taken out in between comes back under another one.

## Main definitions

- `Store.Continues`: the rows that are not new have their ids and keys from before
- `Store.Spent`: an id that has been given and names nothing any more
- `Step.MayRemove`, `Moment.Removes`: the steps by which the rows of a table go

## Main statements

- `Step.continues_next`: no step gives an id to another key
- `Store.Spent.after`: an id that names nothing any more stays so
- `Step.named_next`: a key that has a row before and after a step keeps its id
- `Store.Reachable.lasting_ids`: ids along a run
-/

namespace BlockArchive

namespace Store

variable {s t : Store} {n : TableName}

/-- The rows of `t` whose ids had been given in `s` were there in `s`, under the same keys. -/
def Continues (s t : Store) : Prop :=
  ∀ n, ∀ entry ∈ (t.get n).entries, entry.id < (s.get n).nextId →
    ∃ old ∈ (s.get n).entries, old.id = entry.id ∧ n.key old.row = n.key entry.row

theorem continues_of_entries (h : ∀ n, (t.get n).entries = (s.get n).entries) : s.Continues t :=
  fun n entry hentry _ => ⟨entry, h n ▸ hentry, rfl, rfl⟩

theorem Continues.trans {u : Store} (hst : s.Continues t) (htu : t.Continues u)
    (hle : ∀ n, (s.get n).nextId ≤ (t.get n).nextId) : s.Continues u := by
  intro n entry hentry hid
  obtain ⟨middle, hmiddle, hsame, hkey⟩ := htu n entry hentry (Int.lt_of_lt_of_le hid (hle n))
  obtain ⟨old, hold, hids, hkeys⟩ := hst n middle hmiddle (hsame ▸ hid)
  exact ⟨old, hold, hids.trans hsame, hkeys.trans hkey⟩

/-- It is enough to look at the table that is set. -/
theorem continues_set {table : Table n.Row}
    (h : ∀ entry ∈ table.entries, entry.id < (s.get n).nextId →
      ∃ old ∈ (s.get n).entries, old.id = entry.id ∧ n.key old.row = n.key entry.row) :
    s.Continues (s.set n table) := by
  intro m entry hentry hid
  by_cases hm : m = n
  · subst hm
    rw [get_set_self] at hentry
    exact h entry hentry hid
  · rw [get_set_of_ne s _ hm] at hentry
    exact ⟨entry, hentry, rfl, rfl⟩

theorem continues_skip (s : Store) (n : TableName) (count : Nat) :
    s.Continues (s.set n ((s.get n).skip count)) :=
  continues_set fun entry hentry _ => ⟨entry, hentry, rfl, rfl⟩

theorem continues_offerAll (hs : s.Sound) {refresh : n.Row → n.Row → n.Row}
    (hkeep : Table.KeepsKey n.key refresh) (rows : List n.Row) :
    s.Continues (s.set n ((s.get n).offerAll n.key refresh rows).2) :=
  continues_set fun _ hentry hid => (hs.keyed n).exists_of_mem_offerAll hkeep rows hentry hid

theorem continues_remove (s : Store) (doomed : Entry n.Row → Bool) :
    s.Continues (s.set n ((s.get n).remove doomed)) :=
  continues_set fun entry hentry _ => ⟨entry, (Table.mem_entries_remove.1 hentry).1, rfl, rfl⟩

/-- No statement gives an id to another key. -/
theorem statementRelation_continues {Offers : (n : TableName) → n.Row → Prop}
    {Takes : (n : TableName) → Entry n.Row → Prop}
    (hwarranted : ∀ n row, Offers n row → n.Warranted row) :
    StatementRelation (fun s t => s.Keeps t ∧ (s.Sound → s.Continues t)) Offers Takes where
  refl s := ⟨Keeps.refl s, fun _ => continues_of_entries fun _ => rfl⟩
  trans hst htu := ⟨hst.1.trans htu.1, fun hs =>
    (hst.2 hs).trans (htu.2 (hst.1 hs).1) (hst.1 hs).2⟩
  rollback hst := ⟨hst.1.rollback, fun _ => continues_of_entries fun n => by simp⟩
  upsert n rows hrows s := by
    refine ⟨keeps_upsert n (fun row hrow => hwarranted n row (hrows row hrow)) s, fun hs => ?_⟩
    rcases upsert_cases (hs.keyed n) rows with ⟨cause, count, -, hend⟩ | ⟨-, -, hend⟩
    · rw [hend]
      exact continues_skip s n count
    · rw [hend]
      exact continues_offerAll hs n.keepsKey_refresh rows
  insertAbsent n rows hrows s := by
    refine ⟨keeps_insertAbsent n (fun row hrow => hwarranted n row (hrows row hrow)) s,
      fun hs => ?_⟩
    unfold Store.insertAbsent
    split
    · exact continues_of_entries fun _ => rfl
    · simp only
      split
      · exact continues_skip s n _
      · exact continues_offerAll hs n.keepsKey_stored rows
  delete n doomed _ s := by
    refine ⟨keeps_delete n doomed s, fun _ => ?_⟩
    unfold Store.delete
    simp only
    split
    · exact continues_of_entries fun _ => rfl
    · exact continues_remove s doomed

end Store

/-- No step gives an id to another key. -/
theorem Step.continues_next {s : Store} (hs : s.Sound) (step : Step) : s.Continues (step.next s) :=
  (step.related_next (Store.statementRelation_continues fun _ _ => Step.warranted_of_offers)).2 hs

namespace Store

variable {s : Store} {n : TableName}

/-- Nor does a run. -/
theorem Sound.after (hs : s.Sound) (steps : List Step) :
    (s.after steps).Sound ∧ (∀ n, (s.get n).nextId ≤ ((s.after steps).get n).nextId) ∧
      s.Continues (s.after steps) := by
  induction steps generalizing s with
  | nil => exact ⟨hs, fun _ => Int.le_refl _, continues_of_entries fun _ => rfl⟩
  | cons step rest ih =>
    obtain ⟨hnext, hle⟩ := step.keeps_next s hs
    obtain ⟨hafter, hle', hcontinues⟩ := ih hnext
    exact ⟨hafter, fun n => Int.le_trans (hle n) (hle' n),
      (step.continues_next hs).trans hcontinues hle⟩

/-! ## Ids that name nothing any more -/

/-- The id has been given and names no row. -/
def Spent (s : Store) (n : TableName) (id : Id) : Prop :=
  id < (s.get n).nextId ∧ id ∉ (s.get n).rows

/-- An id that names nothing any more stays so. -/
theorem Spent.after (hs : s.Sound) {id : Id} (h : s.Spent n id) (steps : List Step) :
    (s.after steps).Spent n id := by
  obtain ⟨_, hle, hcontinues⟩ := hs.after steps
  refine ⟨Int.lt_of_lt_of_le h.1 (hle n), fun hid => h.2 ?_⟩
  obtain ⟨entry, hentry, rfl⟩ := Table.mem_rows_iff.1 hid
  obtain ⟨old, hold, hsame, _⟩ := hcontinues n entry hentry h.1
  exact Table.mem_rows_iff.2 ⟨old, hold, hsame⟩

/-- What still names something at the end of a run did so all along, or had not been given. -/
theorem Reachable.not_spent_of_append (h : s.Reachable) {earlier later : List Step} {id : Id}
    (hlasts : ¬ (s.after (earlier ++ later)).Spent n id) : ¬ (s.after earlier).Spent n id := by
  rw [after_append] at hlasts
  exact fun hspent => hlasts (hspent.after (h.after earlier).sound later)

end Store

/-! ## Rows that stay -/

namespace Step

/-- Rows of the table may go by the step: every row may go with its chain, and a marker goes when
its pipeline has seen to the height. -/
def MayRemove : Step → TableName → Prop
  | removeChain _, _ => True
  | persist _ _, n => n = .failedBlocks
  | markEventsIndexed _, n => n = .failedEventBlocks
  | _, _ => False

variable {step : Step} {s : Store} {n : TableName}

theorem mayRemove_of_takes {entry : Entry n.Row} (h : step.Takes s n entry) : step.MayRemove n := by
  cases step with
  | removeChain => exact trivial
  | persist =>
    cases n with
    | failedBlocks => exact rfl
    | _ => exact h.elim
  | markEventsIndexed =>
    cases n with
    | failedEventBlocks => exact rfl
    | _ => exact h.elim
  | _ => exact h.elim

theorem not_offers_of_mayRemove (h : step.MayRemove n) (row : n.Row) : ¬ step.Offers n row := by
  cases step with
  | removeChain => exact id
  | persist =>
    cases h
    simp [Offers]
  | markEventsIndexed =>
    cases h
    exact id
  | _ => exact h.elim

/-- A key that has a row before a step and after it keeps its id. -/
theorem named_next (step : Step) (hs : s.Sound) {entry : Entry n.Row}
    (hentry : entry ∈ (s.get n).entries)
    (hkept : step.MayRemove n →
      ∃ kept ∈ ((step.next s).get n).entries, n.key kept.row = n.key entry.row) :
    ∃ kept ∈ ((step.next s).get n).entries,
      kept.id = entry.id ∧ n.key kept.row = n.key entry.row := by
  by_cases hmay : step.MayRemove n
  · -- nothing comes to the table, so the row was there before
    obtain ⟨kept, hmem, hkey⟩ := hkept hmay
    have hold := Step.of_mem_next hs (not_offers_of_mayRemove hmay) hmem
    exact ⟨kept, hmem, congrArg _ ((hs.keyed n).eq_of_key hold hentry hkey), hkey⟩
  · exact Step.preserves_next
      (Store.survives_named fun other _ h => hmay (mayRemove_of_takes h)) hs
      ⟨entry, hentry, rfl, rfl⟩

end Step

/-- The row of the key goes by the step. -/
def Moment.Removes (m : Moment) (n : TableName) (k : Key) : Prop :=
  m.step.MayRemove n ∧ (∃ entry ∈ (m.store.get n).entries, n.key entry.row = k) ∧
    ∀ entry ∈ (m.next.get n).entries, n.key entry.row ≠ k

namespace Store

variable {s : Store} {n : TableName}

/-- A row that does not go keeps its id. -/
theorem Sound.named_after (hs : s.Sound) {entry : Entry n.Row} (hentry : entry ∈ (s.get n).entries)
    {steps : List Step} (hkept : ∀ m ∈ s.history steps, ¬ m.Removes n (n.key entry.row)) :
    ∃ kept ∈ ((s.after steps).get n).entries,
      kept.id = entry.id ∧ n.key kept.row = n.key entry.row := by
  induction steps generalizing s entry with
  | nil => exact ⟨entry, hentry, rfl, rfl⟩
  | cons step rest ih =>
    have hfirst : ¬ Moment.Removes ⟨s, step⟩ n (n.key entry.row) := hkept _ List.mem_cons_self
    obtain ⟨middle, hmiddle, hid, hkey⟩ := step.named_next hs hentry fun hmay => by
      by_contra hgone
      exact hfirst ⟨hmay, ⟨entry, hentry, rfl⟩, fun kept hkept hk => hgone ⟨kept, hkept, hk⟩⟩
    obtain ⟨kept, hmem, hid', hkey'⟩ := ih (step.keeps_next s hs).1 hmiddle fun m hm =>
      hkey ▸ hkept m (List.mem_cons_of_mem _ hm)
    exact ⟨kept, hmem, hid'.trans hid, hkey'.trans hkey⟩

/-- An id that names rows at two points of a run names rows of one key, and it names a row at every
point between. A key that has rows at two points has them under one id, unless its row goes in
between: with its chain or, if it is a marker, because its pipeline has seen to the height. -/
theorem Reachable.lasting_ids (h : s.Reachable) (between : List Step) {a b : Entry n.Row}
    (ha : a ∈ (s.get n).entries) (hb : b ∈ ((s.after between).get n).entries) :
    (a.id = b.id → n.key a.row = n.key b.row ∧
      ∀ earlier later, between = earlier ++ later → a.id ∈ ((s.after earlier).get n).rows) ∧
    (n.key a.row = n.key b.row → (∀ m ∈ s.history between, ¬ m.Removes n (n.key a.row)) →
      a.id = b.id) := by
  have hs := h.sound
  have hgiven : a.id < (s.get n).nextId := (hs.keyed n).lt_nextId ha
  obtain ⟨hafter, _, hcontinues⟩ := hs.after between
  refine ⟨fun hid => ⟨?_, ?_⟩, fun hkey hkept => ?_⟩
  · obtain ⟨old, hold, hsame, hkey⟩ := hcontinues n b hb (hid ▸ hgiven)
    rw [Table.eq_of_mem_entries ha hold (hid.trans hsame.symm), hkey]
  · rintro earlier later rfl
    by_contra hgone
    obtain ⟨_, hle, _⟩ := hs.after earlier
    have hthere : a.id ∈ ((s.after (earlier ++ later)).get n).rows :=
      Table.mem_rows_iff.2 ⟨b, hb, hid.symm⟩
    exact h.not_spent_of_append (fun hspent => hspent.2 hthere)
      ⟨Int.lt_of_lt_of_le hgiven (hle n), hgone⟩
  · obtain ⟨kept, hmem, hid, hsame⟩ := hs.named_after ha hkept
    rw [← hid, (hafter.keyed n).eq_of_key hmem hb (hsame.trans hkey)]

/-- A message keeps its id when another chain goes, when a block cannot be stored and when its own
block is stored again. -/
theorem Reachable.lasting_ids_of_repeated_block :
    let block : Block := ⟨1, 7, Instant.zero⟩
    let tx := Tx.new "h1" 0 (some "alice") [⟨"send", 0, []⟩]
    let broken : Tx := { Tx.new "h2" 0 none [⟨"vote", 0, []⟩] with messageTypes := ∅ }
    let s := (∅ : Store).after
      [.registerChain ⟨"a-1", "A"⟩, .registerChain ⟨"b-1", "B"⟩, .persist block [tx]]
    let between : List Step := [.removeChain "b-1", .persist block [broken], .persist block [tx]]
    let a : Entry MessageRow := ⟨1, ⟨1, 1, 0⟩⟩
    ∃ b ∈ ((s.after between).get .messages).entries,
      a ∈ (s.get .messages).entries ∧ TableName.messages.key a.row = TableName.messages.key b.row ∧
      (∀ m ∈ s.history between, ¬ m.Removes .messages (TableName.messages.key a.row)) ∧
      a.id = b.id := by
  intro block tx broken s between a
  have ha : a ∈ (s.get .messages).entries := by decide +kernel
  have hb : a ∈ ((s.after between).get .messages).entries := by decide +kernel
  have hthere : ∀ m ∈ s.history between, ∃ entry ∈ (m.next.get .messages).entries,
      TableName.messages.key entry.row = TableName.messages.key a.row := by decide +kernel
  have hstays : ∀ m ∈ s.history between, ¬ m.Removes .messages (TableName.messages.key a.row) := by
    rintro m hm ⟨_, _, hgone⟩
    obtain ⟨entry, hentry, hkey⟩ := hthere m hm
    exact hgone entry hentry hkey
  have hs : s.Reachable := Reachable.empty.after _
  exact ⟨a, hb, ha, rfl, hstays, (hs.lasting_ids between ha hb).2 rfl hstays⟩

/-- A marker that has been cleared comes back under another id, although no chain has gone. -/
theorem Reachable.lasting_ids_fails_of_cleared_marker :
    ¬ ∀ s : Store, s.Reachable → ∀ (between : List Step) (n : TableName) (a b : Entry n.Row),
      a ∈ (s.get n).entries → b ∈ ((s.after between).get n).entries → n.key a.row = n.key b.row →
      (∀ m ∈ s.history between, ∀ chainId, m.step = .removeChain chainId →
        ¬ m.Removes n (n.key a.row)) → a.id = b.id := by
  intro h
  let mark : Step := .markFailed .txs ⟨"a-1", "A"⟩ 5
  let clear : Step := .persist ⟨1, 5, Instant.zero⟩ []
  have hids := h ((∅ : Store).after [mark]) (Reachable.empty.after _) [clear, mark] .failedBlocks
    ⟨1, ⟨5, 1⟩⟩ ⟨2, ⟨5, 1⟩⟩ (by decide +kernel) (by decide +kernel) rfl
    (by
      intro m hm chainId hstep
      rcases List.mem_cons.1 hm with rfl | hm
      · cases hstep
      · cases List.mem_singleton.1 hm
        cases hstep)
  exact absurd hids (by decide)

end Store

end BlockArchive
