import BlockArchive.Proofs.Ends
import BlockArchive.Proofs.Store.Batch

/-!
# Sound stores

A store is sound when every table is keyed, every reference points at a row that is there, and every
block is there because a pipeline has seen to it. Each statement keeps a store sound, whether it is
carried out or refused, and no table ever gives an id twice.

## Main definitions

- `Store.Sound`: the store is consistent in itself
- `Store.offer`, `Store.told`: the store after a batch has been offered, and the rows it tells
- `Store.Keeps`: a sound store leads to a sound one and takes no id back

## Main statements

- `Store.keeps_upsert`, `Store.keeps_insertAbsent`, `Store.keeps_delete`: statements keep a store
  sound
- `Store.upsert_cases`: what becomes of the rows of a statement
- `Store.ends_upsert`: a statement whose rows fit stores them
-/

namespace BlockArchive

namespace TableName

/-- A block is stored only because one of the pipelines has seen to it. -/
def Warranted : (n : TableName) → n.Row → Prop
  | blocks, row => row.txIndexed = true ∨ row.eventsIndexed = true
  | _, _ => True

theorem keepsKey_refresh (n : TableName) : Table.KeepsKey n.key n.refresh :=
  n.key_refresh

theorem keepsKey_stored (n : TableName) : Table.KeepsKey n.key fun stored _ => stored :=
  fun _ _ _ => rfl

theorem absorbs_refresh (n : TableName) : Table.Absorbs n.refresh where
  again stored row := by
    cases n
    case blocks => simp only [refresh, Bool.or_assoc, Bool.or_self]
    all_goals rfl
  self row := by
    cases n
    case blocks => simp only [refresh, Bool.or_self]
    all_goals rfl

theorem Warranted.refresh {n : TableName} {stored offered : n.Row} (h : n.Warranted stored)
    (h' : n.Warranted offered) : n.Warranted (n.refresh stored offered) := by
  cases n
  case blocks =>
    simp only [Warranted, TableName.refresh, Bool.or_eq_true] at h ⊢
    rcases h with h | h
    · exact Or.inl (Or.inl h)
    · exact Or.inr (Or.inl h)
  all_goals trivial

/-- A refreshed row refers to what the stored row or the offered one refers to. -/
theorem references_refresh (n : TableName) (stored offered : n.Row) :
    n.references (n.refresh stored offered) = n.references stored ∨
      n.references (n.refresh stored offered) = n.references offered := by
  cases n
  case txes | messages | events | attributes | denoms | ibcDenoms => exact Or.inr rfl
  all_goals exact Or.inl rfl

end TableName

namespace Store

/-- The store is consistent in itself. -/
structure Sound (s : Store) : Prop where
  keyed : ∀ n, (s.get n).Keyed n.key
  /-- What a row refers to is there. -/
  resolves : ∀ n, ∀ entry ∈ (s.get n).entries, ∀ ref ∈ n.references entry.row, s.Resolves ref
  /-- A pipeline has seen to every block. -/
  warranted : ∀ n, ∀ entry ∈ (s.get n).entries, n.Warranted entry.row

theorem sound_empty : (∅ : Store).Sound where
  keyed n := by
    rw [get_empty]
    exact Table.Keyed.empty _
  resolves n entry h := by simp at h
  warranted n entry h := by simp at h

/-- A sound store leads to a sound one, and no id is taken back. -/
def Keeps (s t : Store) : Prop :=
  s.Sound → t.Sound ∧ ∀ n, (s.get n).nextId ≤ (t.get n).nextId

theorem Keeps.refl (s : Store) : s.Keeps s :=
  fun h => ⟨h, fun _ => Int.le_refl _⟩

theorem Keeps.trans {s t u : Store} (h : s.Keeps t) (h' : t.Keeps u) : s.Keeps u := by
  intro hs
  obtain ⟨ht, hst⟩ := h hs
  obtain ⟨hu, htu⟩ := h' ht
  exact ⟨hu, fun n => Int.le_trans (hst n) (htu n)⟩

/-- Which ids come next has no part in soundness, as long as none of them has been given. -/
theorem Sound.of_entries {s t : Store} (h : s.Sound)
    (hentries : ∀ n, (t.get n).entries = (s.get n).entries)
    (hle : ∀ n, (s.get n).nextId ≤ (t.get n).nextId) : t.Sound where
  keyed n := (h.keyed n).of_entries (hentries n) (hle n)
  resolves n entry hentry ref href := by
    rw [hentries] at hentry
    have := h.resolves n entry hentry ref href
    rw [Resolves, Table.mem_rows_iff] at this ⊢
    rwa [hentries]
  warranted n entry hentry := by
    rw [hentries] at hentry
    exact h.warranted n entry hentry

theorem Keeps.rollback {s t : Store} (h : s.Keeps t) : s.Keeps (s.rollback t) := by
  intro hs
  have hle := (h hs).2
  refine ⟨hs.of_entries (fun n => by simp) fun n => ?_, fun n => ?_⟩ <;>
    (rw [get_rollback]; exact hle n)

theorem keeps_skip (s : Store) (n : TableName) (count : Nat) :
    s.Keeps (s.set n ((s.get n).skip count)) := by
  have hle : ∀ m, (s.get m).nextId ≤ ((s.set n ((s.get n).skip count)).get m).nextId := by
    intro m
    by_cases h : m = n
    · subst h
      rw [get_set_self]
      exact Int.le_add_of_nonneg_right (Int.natCast_nonneg count)
    · exact Int.le_of_eq (by rw [get_set_of_ne s _ h])
  refine fun hs => ⟨hs.of_entries (fun m => ?_) hle, hle⟩
  by_cases h : m = n
  · subst h
    rw [get_set_self, Table.entries_skip]
  · rw [get_set_of_ne s _ h]

/-! ## The checks of a statement -/

theorem missingReferent?_eq_none {s : Store} {n : TableName} {entries : List (Entry n.Row)} :
    s.missingReferent? n entries = none ↔
      ∀ entry ∈ entries, ∀ ref ∈ n.references entry.row, s.Resolves ref := by
  simp only [missingReferent?, List.findSome?_eq_none_iff, List.mem_flatMap, ite_eq_left_iff,
    reduceCtorEq, imp_false, not_not, forall_exists_index, and_imp]
  exact ⟨fun h entry he ref hr => h ref entry he hr, fun h ref entry he hr => h entry he ref hr⟩

theorem stillReferred?_eq_none {s : Store} {n : TableName} :
    s.stillReferred? n = none ↔
      ∀ m, ∀ entry ∈ (s.get m).entries, ∀ ref ∈ m.references entry.row,
        ref.target = n → s.Resolves ref := by
  simp only [stillReferred?, List.findSome?_eq_none_iff, List.mem_flatMap, ite_eq_right_iff,
    reduceCtorEq, imp_false, not_and, not_not, forall_exists_index, and_imp]
  constructor
  · intro h m entry he ref hr
    exact h m m.mem_all ref entry he hr
  · intro h m _ ref entry he hr
    exact h m entry he ref hr

/-! ## Offering a batch -/

/-- The store after a batch has been offered to a table. -/
def offer (s : Store) (n : TableName) (rows : List n.Row) : Store :=
  s.set n ((s.get n).offerAll n.key n.refresh rows).2

/-- The store after a batch has been offered to a table, stored rows being left alone. -/
def offerAbsent (s : Store) (n : TableName) (rows : List n.Row) : Store :=
  s.set n ((s.get n).offerAll n.key (fun stored _ => stored) rows).2

/-- The rows that a batch tells, as they are stored. -/
def told (s : Store) (n : TableName) (rows : List n.Row) : List (Entry n.Row) :=
  ((s.get n).offerAll n.key n.refresh rows).1

@[simp] theorem get_offer_self (s : Store) (n : TableName) (rows : List n.Row) :
    (s.offer n rows).get n = ((s.get n).offerAll n.key n.refresh rows).2 :=
  get_set_self ..

@[simp] theorem get_offer_of_ne (s : Store) {n m : TableName} (rows : List n.Row) (h : m ≠ n) :
    (s.offer n rows).get m = s.get m :=
  get_set_of_ne s _ h

theorem Resolves.mono {s t : Store} {ref : Reference} (h : s.Resolves ref)
    (hrows : ∀ n id, id ∈ (s.get n).rows → id ∈ (t.get n).rows) : t.Resolves ref :=
  hrows ref.target ref.id h

theorem mem_rows_set {s : Store} {n : TableName} {t : Table n.Row}
    (h : ∀ id, id ∈ (s.get n).rows → id ∈ t.rows) (m : TableName) (id : Id)
    (hid : id ∈ (s.get m).rows) : id ∈ ((s.set n t).get m).rows := by
  by_cases hm : m = n
  · subst hm
    rw [get_set_self]
    exact h id hid
  · rwa [get_set_of_ne s t hm]

/-- Offering a batch whose rows refer to what is there keeps the store sound. -/
theorem keeps_offerAll (s : Store) (n : TableName) {refresh : n.Row → n.Row → n.Row}
    (hkeep : Table.KeepsKey n.key refresh)
    (hwarranted : ∀ stored offered, n.Warranted stored → n.Warranted offered →
      n.Warranted (refresh stored offered))
    {rows : List n.Row} (hrows : ∀ row ∈ rows, n.Warranted row)
    (hrefs : (s.set n ((s.get n).offerAll n.key refresh rows).2).missingReferent? n
      ((s.get n).offerAll n.key refresh rows).1 = none) :
    s.Keeps (s.set n ((s.get n).offerAll n.key refresh rows).2) := by
  intro hs
  have hids := mem_rows_set (s := s) fun _ => Table.mem_rows_offerAll n.key refresh rows
  refine ⟨⟨fun m => ?_, fun m entry hentry ref href => ?_, fun m entry hentry => ?_⟩, fun m => ?_⟩
  · by_cases h : m = n
    · subst h
      rw [get_set_self]
      exact (hs.keyed m).offerAll hkeep rows
    · rw [get_set_of_ne s _ h]
      exact hs.keyed m
  · by_cases h : m = n
    · subst h
      rw [get_set_self] at hentry
      rcases Table.mem_or_mem_of_mem_offerAll hentry with hold | htold
      · exact (hs.resolves m entry hold ref href).mono hids
      · exact missingReferent?_eq_none.1 hrefs entry htold ref href
    · rw [get_set_of_ne s _ h] at hentry
      exact (hs.resolves m entry hentry ref href).mono hids
  · by_cases h : m = n
    · subst h
      rw [get_set_self] at hentry
      rcases Table.mem_or_mem_of_mem_offerAll hentry with hold | htold
      · exact hs.warranted m entry hold
      · exact Table.forall_mem_offerAll (hs.warranted m) hrows hwarranted entry htold
    · rw [get_set_of_ne s _ h] at hentry
      exact hs.warranted m entry hentry
  · by_cases h : m = n
    · subst h
      rw [get_set_self, Table.nextId_offerAll]
      exact Int.le_add_of_nonneg_right (Int.natCast_nonneg rows.length)
    · exact Int.le_of_eq (by rw [get_set_of_ne s _ h])

theorem stepRelation_keeps : StepRelation Keeps :=
  ⟨Keeps.refl, Keeps.trans, Keeps.rollback⟩

theorem set_skip_zero (s : Store) (n : TableName) : s.set n ((s.get n).skip 0) = s := by
  apply ext_get
  intro m
  by_cases hm : m = n
  · subst hm
    rw [get_set_self]
    exact Table.ext rfl (Int.add_zero _)
  · rw [get_set_of_ne s _ hm]

/-- Why the rows of a statement are refused before it is known what they refer to. -/
def statementFault? (n : TableName) (rows : List n.Row) : Option QueryError :=
  (rows.findSome? n.refusal?).or (if (rows.map n.key).Nodup then none else some .repeatedKey)

/-- What becomes of the rows of a statement: it is refused for its first fault and takes some ids
for nothing, or it has no fault and all of them are offered. -/
theorem upsert_cases_of_offerBatch_eq {s : Store} {n : TableName} {rows : List n.Row}
    (hoffered : (rows.map n.key).Nodup →
      (s.get n).offerBatch n.key n.refresh rows = (s.get n).offerAll n.key n.refresh rows) :
    (∃ cause count, (statementFault? n rows).or
        ((s.offer n rows).missingReferent? n (s.told n rows)) = some cause ∧
      upsert n rows s = .error cause (s.set n ((s.get n).skip count))) ∨
    (statementFault? n rows = none ∧
      (s.offer n rows).missingReferent? n (s.told n rows) = none ∧
      upsert n rows s = .ok (s.told n rows) (s.offer n rows)) := by
  rw [statementFault?]
  cases hsent : rows.findSome? n.refusal? with
  | some cause =>
    refine Or.inl ⟨cause, 0, rfl, ?_⟩
    rw [set_skip_zero, upsert, hsent]
  | none =>
    cases hrepeat : firstRepeat? (rows.map n.key) with
    | some place =>
      have hnodup : ¬ (rows.map n.key).Nodup := by
        rw [← firstRepeat?_eq_none, hrepeat]
        exact Option.some_ne_none place
      rw [if_neg hnodup]
      exact Or.inl ⟨.repeatedKey, place + 1, rfl, by simp only [upsert, hsent, hrepeat]⟩
    | none =>
      have hnodup := firstRepeat?_eq_none.1 hrepeat
      have hoffered := hoffered hnodup
      rw [if_pos hnodup, offer, told]
      cases hmissing : (s.set n ((s.get n).offerAll n.key n.refresh rows).2).missingReferent? n
          ((s.get n).offerAll n.key n.refresh rows).1 with
      | some cause =>
        refine Or.inl ⟨cause, rows.length, rfl, ?_⟩
        simp only [upsert, hsent, hrepeat, hoffered, hmissing]
      | none =>
        refine Or.inr ⟨rfl, rfl, ?_⟩
        simp only [upsert, hsent, hrepeat, hoffered, hmissing]

theorem upsert_cases {s : Store} {n : TableName} (hkeyed : (s.get n).Keyed n.key)
    (rows : List n.Row) :
    (∃ cause count, (statementFault? n rows).or
        ((s.offer n rows).missingReferent? n (s.told n rows)) = some cause ∧
      upsert n rows s = .error cause (s.set n ((s.get n).skip count))) ∨
    (statementFault? n rows = none ∧
      (s.offer n rows).missingReferent? n (s.told n rows) = none ∧
      upsert n rows s = .ok (s.told n rows) (s.offer n rows)) :=
  upsert_cases_of_offerBatch_eq (hkeyed.offerBatch_eq n.keepsKey_refresh)

theorem keeps_upsert (n : TableName) {rows : List n.Row} (hrows : ∀ row ∈ rows, n.Warranted row) :
    Moves Keeps (upsert n rows) := by
  intro s hs
  rcases upsert_cases (hs.keyed n) rows with ⟨cause, count, -, h⟩ | ⟨-, hrefs, h⟩
  · rw [h]
    exact keeps_skip s n count hs
  · rw [h]
    exact keeps_offerAll s n n.keepsKey_refresh (fun _ _ => TableName.Warranted.refresh)
      hrows hrefs hs

theorem keeps_insertAbsent (n : TableName) {rows : List n.Row}
    (hrows : ∀ row ∈ rows, n.Warranted row) :
    Moves Keeps (insertAbsent n rows) := by
  intro s
  unfold insertAbsent
  split
  · exact Keeps.refl s
  · simp only
    split
    · exact keeps_skip s n _
    · next hrefs =>
      exact keeps_offerAll s n n.keepsKey_stored (fun _ _ h _ => h) hrows hrefs

theorem keeps_delete (n : TableName) (doomed : Entry n.Row → Bool) :
    Moves Keeps (delete n doomed) := by
  intro s
  unfold delete
  simp only
  split
  · exact Keeps.refl s
  · next hrefs =>
    rw [stillReferred?_eq_none] at hrefs
    have hkept : ∀ m, ∀ entry ∈ ((s.set n ((s.get n).remove doomed)).get m).entries,
        entry ∈ (s.get m).entries := by
      intro m entry hentry
      by_cases h : m = n
      · subst h
        rw [get_set_self] at hentry
        exact (Table.mem_entries_remove.1 hentry).1
      · rwa [get_set_of_ne s _ h] at hentry
    intro hs
    refine ⟨⟨fun m => ?_, fun m entry hentry ref href => ?_, fun m entry hentry => ?_⟩, fun m => ?_⟩
    · by_cases h : m = n
      · subst h
        rw [finalState_ok, get_set_self]
        exact (hs.keyed m).remove doomed
      · rw [finalState_ok, get_set_of_ne s _ h]
        exact hs.keyed m
    · -- only references to the table that rows are taken from can be lost
      by_cases ht : ref.target = n
      · exact hrefs m entry hentry ref href ht
      · have := hs.resolves m entry (hkept m entry hentry) ref href
        rw [Resolves] at this ⊢
        rwa [finalState_ok, get_set_of_ne s _ ht]
    · exact hs.warranted m entry (hkept m entry hentry)
    · by_cases h : m = n
      · subst h
        exact Int.le_of_eq (by rw [finalState_ok, get_set_self]; rfl)
      · exact Int.le_of_eq (by rw [finalState_ok, get_set_of_ne s _ h])

/-! ## Rows that fit -/

/-- No reference is missing after a batch whose rows refer to what is there. -/
theorem missingReferent?_offerAll {s : Store} (hs : s.Sound) {n : TableName}
    {refresh : n.Row → n.Row → n.Row}
    (hrefresh : ∀ stored offered, n.references (refresh stored offered) = n.references stored ∨
      n.references (refresh stored offered) = n.references offered)
    {rows : List n.Row} (hrefs : ∀ row ∈ rows, ∀ ref ∈ n.references row, s.Resolves ref) :
    (s.set n ((s.get n).offerAll n.key refresh rows).2).missingReferent? n
      ((s.get n).offerAll n.key refresh rows).1 = none := by
  rw [missingReferent?_eq_none]
  intro entry hentry ref href
  refine Resolves.mono ?_ (mem_rows_set fun _ => Table.mem_rows_offerAll n.key refresh rows)
  -- what a refreshed row refers to is told by the stored row or by the offered one
  refine Table.forall_mem_offerAll (P := fun row => ∀ ref ∈ n.references row, s.Resolves ref)
    (hs.resolves n) hrefs ?_ entry hentry ref href
  intro stored offered hstored hoffered
  rcases hrefresh stored offered with he | he
  · rwa [he]
  · rwa [he]

theorem Sound.offer {s : Store} (hs : s.Sound) {n : TableName} {rows : List n.Row}
    (hwarranted : ∀ row ∈ rows, n.Warranted row)
    (hrefs : ∀ row ∈ rows, ∀ ref ∈ n.references row, s.Resolves ref) : (s.offer n rows).Sound :=
  (keeps_offerAll s n n.keepsKey_refresh (fun _ _ => TableName.Warranted.refresh) hwarranted
    (missingReferent?_offerAll hs n.references_refresh hrefs) hs).1

/-- The rows of a statement that refer to what is there are stored as it is told, unless one of them
cannot be sent or two of them share their key. -/
theorem ends_upsert {s : Store} (hs : s.Sound) {n : TableName} {rows : List n.Row}
    (hrefs : ∀ row ∈ rows, ∀ ref ∈ n.references row, s.Resolves ref) :
    Ends (fun fault cause => cause = fault) (upsert n rows) s (statementFault? n rows)
      fun told t => told = s.told n rows ∧ t = s.offer n rows := by
  have hmissing : (s.offer n rows).missingReferent? n (s.told n rows) = none :=
    missingReferent?_offerAll hs n.references_refresh hrefs
  rcases upsert_cases (hs.keyed n) rows with ⟨cause, count, hfault, h⟩ | ⟨hfault, -, h⟩
  · rw [hmissing, Option.or_none] at hfault
    rw [hfault]
    exact Ends.error h rfl
  · rw [hfault]
    exact Ends.ok h ⟨rfl, rfl⟩

/-- A statement that leaves stored rows alone and whose rows refer to what is there is carried out,
unless one of the rows cannot be sent. -/
theorem ends_insertAbsent {s : Store} (hs : s.Sound) {n : TableName} {rows : List n.Row}
    (hrefs : ∀ row ∈ rows, ∀ ref ∈ n.references row, s.Resolves ref) :
    Ends (fun fault cause => cause = fault) (insertAbsent n rows) s (rows.findSome? n.refusal?)
      fun _ t => t = s.offerAbsent n rows := by
  have hmissing : (s.offerAbsent n rows).missingReferent? n
      ((s.get n).offerAll n.key (fun stored _ => stored) rows).1 = none :=
    missingReferent?_offerAll hs (fun _ _ => Or.inl rfl) hrefs
  cases hsent : rows.findSome? n.refusal? with
  | some cause => exact Ends.error (t := s) (by rw [insertAbsent, hsent]) rfl
  | none =>
    have hinsert : insertAbsent n rows s = .ok () (s.offerAbsent n rows) := by
      rw [offerAbsent] at hmissing ⊢
      simp only [insertAbsent, hsent, hmissing]
    exact Ends.ok hinsert rfl

end Store

end BlockArchive
