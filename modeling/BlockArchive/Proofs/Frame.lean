import BlockArchive.Proofs.Reachable
import BlockArchive.Proofs.Store.Naming

/-!
# What a step leaves alone

A fact about the rows of a store survives a step if it survives every row that the step may offer
and every row that it may take. So a step leaves alone every row whose key it does not offer and
that it does not take, and brings no row under a key that it does not offer.

## Main definitions

- `Store.Survives`: a fact that survives whatever rows are offered and taken
- `Store.Leaves`: a table that stays as it is, in a sound store or any other

## Main statements

- `Step.preserves_next`: a fact that survives the rows of a step survives the step
- `Store.survives_mem`: a row that stays as it is
- `Store.survives_free`: a key under which there is no row
- `Store.survives_row`, `Store.survives_named`: what goes on to hold of the row of an id
- `Step.mem_next`, `Step.of_mem_next`: rows that stay, and tables to which none come
- `Step.find?_next`: what is stored under a key that a step leaves alone
-/

namespace BlockArchive

namespace Store

/-- A fact about the rows of a store that survives whatever such rows are offered and taken. -/
structure Survives (P : Store → Prop) (Offers : (n : TableName) → n.Row → Prop)
    (Takes : (n : TableName) → Entry n.Row → Prop) : Prop where
  /-- Nothing but the rows counts. -/
  congr : ∀ {s t : Store}, (∀ n, (t.get n).entries = (s.get n).entries) → P s → P t
  /-- Rows are offered, which refresh stored rows or leave them alone. -/
  offer : ∀ {s : Store} {n : TableName} {refresh : n.Row → n.Row → n.Row} {rows : List n.Row},
    s.Sound → P s → (refresh = n.refresh ∨ refresh = fun stored _ => stored) →
    (∀ row ∈ rows, Offers n row) → P (s.set n ((s.get n).offerAll n.key refresh rows).2)
  /-- Rows are taken out. -/
  remove : ∀ {s : Store} {n : TableName} {doomed : Entry n.Row → Bool}, s.Sound → P s →
    (∀ entry, doomed entry = true → Takes n entry) → P (s.set n ((s.get n).remove doomed))

variable {P : Store → Prop} {Offers : (n : TableName) → n.Row → Prop}
  {Takes : (n : TableName) → Entry n.Row → Prop}

/-- Ids that are taken for nothing change no row. -/
theorem Survives.skip (h : Survives P Offers Takes) {s : Store} (hs : P s) (n : TableName)
    (count : Nat) : P (s.set n ((s.get n).skip count)) := by
  apply h.congr (fun m => ?_) hs
  by_cases hm : m = n
  · subst hm
    rw [get_set_self, Table.entries_skip]
  · rw [get_set_of_ne s _ hm]

/-- A fact that survives the rows of a statement survives the statement. -/
theorem Survives.statementRelation (h : Survives P Offers Takes)
    (hwarranted : ∀ n row, Offers n row → n.Warranted row) :
    StatementRelation (fun s t => s.Keeps t ∧ (s.Sound → P s → P t)) Offers Takes where
  refl s := ⟨Keeps.refl s, fun _ hp => hp⟩
  trans hst htu := ⟨hst.1.trans htu.1, fun hs hp => htu.2 (hst.1 hs).1 (hst.2 hs hp)⟩
  rollback hst := ⟨hst.1.rollback, fun _ hp => h.congr (fun n => by simp) hp⟩
  upsert n rows hrows s := by
    refine ⟨keeps_upsert n (fun row hrow => hwarranted n row (hrows row hrow)) s, fun hs hp => ?_⟩
    rcases upsert_cases (hs.keyed n) rows with ⟨cause, count, -, hend⟩ | ⟨-, -, hend⟩
    · rw [hend]
      exact h.skip hp n count
    · rw [hend]
      exact h.offer hs hp (Or.inl rfl) hrows
  insertAbsent n rows hrows s := by
    refine ⟨keeps_insertAbsent n (fun row hrow => hwarranted n row (hrows row hrow)) s,
      fun hs hp => ?_⟩
    unfold Store.insertAbsent
    split
    · exact hp
    · simp only
      split
      · exact h.skip hp n _
      · exact h.offer hs hp (Or.inr rfl) hrows
  delete n doomed hdoomed s := by
    refine ⟨keeps_delete n doomed s, fun hs hp => ?_⟩
    unfold Store.delete
    simp only
    split
    · exact hp
    · exact h.remove hs hp hdoomed

/-- A row stays as it is if nothing that is offered under its key changes it and it is not taken. -/
theorem survives_mem {n : TableName} {entry : Entry n.Row}
    (hoffers : ∀ row, Offers n row → n.key row = n.key entry.row →
      n.refresh entry.row row = entry.row) (htakes : ¬ Takes n entry) :
    Survives (fun s => entry ∈ (s.get n).entries) Offers Takes where
  congr hentries hmem := by rwa [hentries]
  offer {s m refresh rows} hs hmem hrefresh hrows := by
    by_cases hm : n = m
    · subst hm
      rw [get_set_self]
      rcases hrefresh with rfl | rfl
      · exact (hs.keyed n).mem_offerAll_of_fixed n.keepsKey_refresh hmem
          fun row hrow => hoffers row (hrows row hrow)
      · exact (hs.keyed n).mem_offerAll_of_fixed n.keepsKey_stored hmem fun _ _ _ => rfl
    · rwa [get_set_of_ne s _ hm]
  remove {s m doomed} _ hmem hdoomed := by
    by_cases hm : n = m
    · subst hm
      rw [get_set_self, Table.mem_entries_remove]
      exact ⟨hmem, Bool.eq_false_iff.2 fun he => htakes (hdoomed entry he)⟩
    · rwa [get_set_of_ne s _ hm]

/-- No row comes under a key that is not offered. -/
theorem survives_free {n : TableName} {k : Key} (hoffers : ∀ row, Offers n row → n.key row ≠ k) :
    Survives (fun s => s.find? n k = none) Offers Takes where
  congr hentries hfree := by rwa [find?, Table.find?, hentries]
  offer {s m refresh rows} hs hfree hrefresh hrows := by
    by_cases hm : n = m
    · subst hm
      have hkeep : Table.KeepsKey n.key refresh := by
        rcases hrefresh with rfl | rfl
        · exact n.keepsKey_refresh
        · exact n.keepsKey_stored
      rw [find?, get_set_self, (hs.keyed n).find?_offerAll_of_not_mem hkeep
        fun row hrow => hoffers row (hrows row hrow)]
      exact hfree
    · rwa [find?, get_set_of_ne s _ hm]
  remove {s m doomed} hs hfree _ := by
    by_cases hm : n = m
    · subst hm
      have hfree : (s.get n).find? n.key k = none := hfree
      rw [find?, get_set_self, (hs.keyed n).find?_remove, hfree]
      rfl
    · rwa [find?, get_set_of_ne s _ hm]

/-- What holds of the row of an id goes on to hold of it unless that row is taken, if it holds of a
row that is refreshed by one that is offered under its key. -/
theorem survives_row {n : TableName} {id : Id} {Q : n.Row → Prop}
    (hoffers : ∀ stored row, Offers n row → n.key row = n.key stored → Q stored →
      Q (n.refresh stored row))
    (htakes : ∀ entry, entry.id = id → ¬ Takes n entry) :
    Survives (fun s => ∃ entry ∈ (s.get n).entries, entry.id = id ∧ Q entry.row) Offers Takes where
  congr hentries hrow := by rwa [hentries]
  offer {s m refresh rows} hs hrow hrefresh hrows := by
    by_cases hm : n = m
    · subst hm
      obtain ⟨entry, hentry, rfl, hQ⟩ := hrow
      rw [get_set_self]
      rcases hrefresh with rfl | rfl
      · exact (hs.keyed n).exists_mem_offerAll_of_kept n.keepsKey_refresh
          (fun stored row hrow => hoffers stored row (hrows row hrow)) hentry hQ
      · exact (hs.keyed n).exists_mem_offerAll_of_kept n.keepsKey_stored
          (fun _ _ _ _ hstored => hstored) hentry hQ
    · rwa [get_set_of_ne s _ hm]
  remove {s m doomed} _ hrow hdoomed := by
    by_cases hm : n = m
    · subst hm
      obtain ⟨entry, hentry, rfl, hQ⟩ := hrow
      refine ⟨entry, ?_, rfl, hQ⟩
      rw [get_set_self, Table.mem_entries_remove]
      exact ⟨hentry, Bool.eq_false_iff.2 fun he => htakes entry rfl (hdoomed entry he)⟩
    · rwa [get_set_of_ne s _ hm]

/-- A row keeps its id and its key unless the row of that id is taken. -/
theorem survives_named {n : TableName} {id : Id} {k : Key}
    (htakes : ∀ entry, entry.id = id → ¬ Takes n entry) :
    Survives (fun s => ∃ entry ∈ (s.get n).entries, entry.id = id ∧ n.key entry.row = k)
      Offers Takes :=
  survives_row (fun stored row _ hkey hstored => (n.key_refresh stored row hkey).trans hstored)
    htakes

/-- A table to which nothing is offered has no other rows than it had. -/
theorem survives_subset {n : TableName} {rows : List (Entry n.Row)}
    (hoffers : ∀ row, ¬ Offers n row) :
    Survives (fun s => ∀ entry ∈ (s.get n).entries, entry ∈ rows) Offers Takes where
  congr hentries hsubset := by rwa [hentries]
  offer {s m refresh batch} _ hsubset _ hbatch := by
    by_cases hm : n = m
    · subst hm
      have hempty : batch = [] := List.eq_nil_iff_forall_not_mem.2 fun row hrow =>
        hoffers row (hbatch row hrow)
      subst hempty
      rwa [get_set_self]
    · rwa [get_set_of_ne s _ hm]
  remove {s m doomed} _ hsubset _ := by
    by_cases hm : n = m
    · subst hm
      intro entry hentry
      rw [get_set_self, Table.mem_entries_remove] at hentry
      exact hsubset entry hentry.1
    · rwa [get_set_of_ne s _ hm]

/-- The table stays as it is. -/
def Leaves (n : TableName) (s t : Store) : Prop :=
  t.get n = s.get n

theorem leaves_set {s : Store} {n m : TableName} {table : Table m.Row}
    (h : m = n → table = s.get m) : s.Leaves n (s.set m table) := by
  by_cases hm : m = n
  · subst hm
    rw [Leaves, get_set_self, h rfl]
  · exact get_set_of_ne s table (Ne.symm hm)

/-- A table to which nothing is offered and from which nothing is taken stays as it is. -/
theorem statementRelation_leaves (n : TableName) :
    StatementRelation (Leaves n) (fun m _ => m ≠ n) (fun m _ => m ≠ n) where
  refl _ := rfl
  trans hst htu := htu.trans hst
  rollback {s t} h := by
    rw [Leaves, get_rollback, show t.get n = s.get n from h]
    rfl
  upsert m rows hrows s := by
    -- a batch for the table itself is empty
    have hnil : m = n → rows = [] := fun hm =>
      List.eq_nil_iff_forall_not_mem.2 fun row hrow => hrows row hrow hm
    unfold upsert
    split
    · rfl
    · split
      · next place hrepeat =>
        refine leaves_set fun hm => ?_
        rw [hnil hm] at hrepeat
        cases hrepeat
      · simp only
        split <;> refine leaves_set fun hm => ?_ <;> cases hnil hm
        · exact Table.ext rfl (Int.add_zero _)
        · rfl
  insertAbsent m rows hrows s := by
    have hnil : m = n → rows = [] := fun hm =>
      List.eq_nil_iff_forall_not_mem.2 fun row hrow => hrows row hrow hm
    unfold insertAbsent
    split
    · rfl
    · simp only
      split <;> refine leaves_set fun hm => ?_ <;> cases hnil hm
      · exact Table.ext rfl (Int.add_zero _)
      · rfl
  delete m doomed hdoomed s := by
    unfold delete
    simp only
    split
    · rfl
    · refine leaves_set fun hm => Table.ext ?_ rfl
      apply Table.rows_eq_of_entries
      intro entry
      rw [Table.mem_entries_remove, and_iff_left]
      by_contra h
      exact hdoomed entry (by simpa using h) hm

end Store

/-- A fact that survives the rows of a step survives the step. -/
theorem Step.preserves_next {P : Store → Prop} {step : Step} {s : Store}
    (h : Store.Survives P step.Offers (step.Takes s)) (hs : s.Sound) (hp : P s) : P (step.next s) :=
  (step.related_next (h.statementRelation fun _ _ => Step.warranted_of_offers)).2 hs hp

/-- A row stays as it is if no row that the step offers under its key changes it and the step does
not take it. -/
theorem Step.mem_next {step : Step} {s : Store} (hs : s.Sound) {n : TableName}
    {entry : Entry n.Row} (hentry : entry ∈ (s.get n).entries)
    (hoffers : ∀ row, step.Offers n row → n.key row = n.key entry.row →
      n.refresh entry.row row = entry.row) (htakes : ¬ step.Takes s n entry) :
    entry ∈ ((step.next s).get n).entries :=
  Step.preserves_next (Store.survives_mem hoffers htakes) hs hentry

/-- A table to which a step offers nothing has no rows but those it had. -/
theorem Step.of_mem_next {step : Step} {s : Store} (hs : s.Sound) {n : TableName}
    (hoffers : ∀ row, ¬ step.Offers n row) {entry : Entry n.Row}
    (hentry : entry ∈ ((step.next s).get n).entries) : entry ∈ (s.get n).entries :=
  Step.preserves_next (Store.survives_subset hoffers) hs (fun _ h => h) entry hentry

/-- What is stored under a key stays as it is if the step neither offers the key nor takes it. -/
theorem Step.find?_next {step : Step} {s : Store} (hs : s.Sound) {n : TableName} {k : Key}
    (hoffers : ∀ row, step.Offers n row → n.key row ≠ k)
    (htakes : ∀ entry ∈ (s.get n).entries, n.key entry.row = k → ¬ step.Takes s n entry) :
    (step.next s).find? n k = s.find? n k := by
  cases hfind : s.find? n k with
  | none => exact Step.preserves_next (Store.survives_free hoffers) hs hfind
  | some entry =>
    obtain ⟨hmem, rfl⟩ := Store.mem_of_find? hfind
    have hstays : entry ∈ ((step.next s).get n).entries :=
      Step.mem_next hs hmem (fun row hrow he => absurd he (hoffers row hrow))
        (htakes entry hmem rfl)
    exact (step.keeps_next s hs).1.find?_eq_some.2 ⟨hstays, rfl⟩

end BlockArchive
