import BlockArchive.Proofs.Store.Sound
import BlockArchive.Store.Cut

/-!
# Batches in parts

What becomes of a batch that is sent statement by statement. Each statement finds what the ones
before it have left, so the rows are offered one after the other, however they are cut. The cut
matters for rows of one key only: they are refused where they are in one part.

## Main definitions

- `Store.batchFault?`: why a batch is refused before it is known what its rows refer to

## Main statements

- `Carrier.moves_all`: what every statement of a batch keeps to
- `TableName.length_mul_le_of_mem_statements`: no statement carries more values than it can
- `Store.batchFault?_of_nodup`: a batch that repeats no key is refused for single rows only
- `Store.ends_upsertAll`, `Store.ends_insertAllAbsent`: when a batch is stored
- `Store.upsertAll_eq_ok_iff`: it makes no difference that a batch without repeated keys is cut
- `Store.told_of_upsertAll`: what a batch that is stored tells
-/

namespace BlockArchive

theorem findSome?_congr {α β : Type} {f g : α → Option β} {l : List α} (h : ∀ a ∈ l, f a = g a) :
    l.findSome? f = l.findSome? g := by
  rw [← List.head?_filterMap, List.filterMap_congr h, List.head?_filterMap]

/-- What is found first in the parts is found first in the whole. -/
theorem findSome?_flatten {α β : Type} (f : α → Option β) (parts : List (List α)) :
    parts.flatten.findSome? f = parts.findSome? fun part => part.findSome? f := by
  induction parts with
  | nil => rfl
  | cons part rest ih =>
    rw [List.flatten_cons, List.findSome?_append, ih, List.findSome?_cons]
    cases part.findSome? f <;> rfl

namespace TableName

variable {n : TableName} {rows part : List n.Row}

theorem sublist_of_mem_statements (h : part ∈ n.statements rows) : part.Sublist rows :=
  sublist_of_mem_cut h

theorem mem_of_mem_statements (h : part ∈ n.statements rows) {row : n.Row} (hrow : row ∈ part) :
    row ∈ rows :=
  (sublist_of_mem_statements h).subset hrow

theorem rowsPerStatement_pos (n : TableName) : 0 < n.rowsPerStatement := by
  cases n <;> decide

/-- No statement carries more values than it can. -/
theorem length_mul_le_of_mem_statements (h : part ∈ n.statements rows) :
    part.length * n.columns.length ≤ maxValues := by
  have hlength := length_le_of_mem_cut n.rowsPerStatement_pos h
  exact (Nat.mul_le_mul_right _ hlength).trans (Nat.div_mul_le_self maxValues _)

end TableName

/-- What every statement of a batch keeps to, the batch keeps to. -/
theorem Carrier.moves_all {R : Store → Store → Prop} (hR : StepRelation R) {carry : Carrier}
    {n : TableName} {rows : List n.Row}
    (h : ∀ part ∈ n.statements rows, Moves R (carry n part)) : Moves R (carry.all n rows) := by
  have htrans : ∀ s t u, R s t → R t u → R s u := fun _ _ _ => hR.trans
  exact Moves.bind htrans (Moves.mapM hR.refl htrans h) fun _ => Moves.pure hR.refl _

namespace Store

variable {s t : Store} {n : TableName} {rows : List n.Row}

/-! ## Offering in parts -/

theorem set_set (s : Store) (n : TableName) (t u : Table n.Row) :
    (s.set n t).set n u = s.set n u := by
  cases n <;> rfl

theorem set_get (s : Store) (n : TableName) : s.set n (s.get n) = s := by
  cases n <;> rfl

theorem offer_nil (s : Store) (n : TableName) : s.offer n [] = s :=
  set_get s n

theorem offer_append (s : Store) (n : TableName) (rows rows' : List n.Row) :
    s.offer n (rows ++ rows') = (s.offer n rows).offer n rows' := by
  simp only [offer, Table.offerAll_append, get_set_self, set_set]

theorem told_append (s : Store) (n : TableName) (rows rows' : List n.Row) :
    s.told n (rows ++ rows') = s.told n rows ++ (s.offer n rows).told n rows' := by
  simp only [offer, told, Table.offerAll_append, get_set_self]

theorem offerAbsent_append (s : Store) (n : TableName) (rows rows' : List n.Row) :
    s.offerAbsent n (rows ++ rows') = (s.offerAbsent n rows).offerAbsent n rows' := by
  simp only [offerAbsent, Table.offerAll_append, get_set_self, set_set]

/-! ## The faults of a batch -/

/-- Why a batch is refused before it is known what its rows refer to: for the first fault of one of
its statements. -/
def batchFault? (n : TableName) (rows : List n.Row) : Option QueryError :=
  (n.statements rows).findSome? (statementFault? n)

theorem batchFault?_of_nodup (h : (rows.map n.key).Nodup) :
    batchFault? n rows = rows.findSome? n.refusal? := by
  -- a statement of such a batch repeats no key either
  have hpart : ∀ part ∈ n.statements rows, statementFault? n part = part.findSome? n.refusal? := by
    intro part hmem
    have hnodup := h.sublist ((TableName.sublist_of_mem_statements hmem).map n.key)
    rw [statementFault?, if_pos hnodup, Option.or_none]
  conv_rhs => rw [← n.flatten_statements rows, findSome?_flatten]
  exact findSome?_congr hpart

/-! ## When a batch is stored -/

/-- What is there goes on to be there when rows are offered. -/
theorem Resolves.offerAll {ref : Reference} (h : s.Resolves ref) (refresh : n.Row → n.Row → n.Row) :
    (s.set n ((s.get n).offerAll n.key refresh rows).2).Resolves ref :=
  h.mono (mem_rows_set fun _ => Table.mem_rows_offerAll n.key refresh rows)

/-- Statements whose rows refer to what is there are carried out one after the other, up to the
first fault. -/
theorem ends_mapM_upsert (hs : s.Sound) {parts : List (List n.Row)}
    (hwarranted : ∀ row ∈ parts.flatten, n.Warranted row)
    (hrefs : ∀ row ∈ parts.flatten, ∀ ref ∈ n.references row, s.Resolves ref) :
    Ends (fun fault cause => cause = fault) (parts.mapM (upsert n)) s
      (parts.findSome? (statementFault? n))
      fun told t => told.flatten = s.told n parts.flatten ∧ t = s.offer n parts.flatten := by
  -- each statement starts from the store that those before it have left, so the store varies
  induction parts generalizing s with
  | nil => exact Ends.pure ⟨rfl, (offer_nil s n).symm⟩
  | cons part rest ih =>
    rw [List.flatten_cons, List.forall_mem_append] at hwarranted hrefs
    have hfault : (part :: rest).findSome? (statementFault? n) =
        (statementFault? n part).or (rest.findSome? (statementFault? n)) := by
      rw [List.findSome?_cons]
      cases statementFault? n part <;> rfl
    rw [hfault, List.mapM_cons, List.flatten_cons, told_append, offer_append]
    apply (ends_upsert hs hrefs.1).bind
    rintro - first t ⟨rfl, rfl⟩
    -- the other rows still find what they refer to, as nothing goes away
    apply (ih (hs.offer hwarranted.1 hrefs.1) hwarranted.2
      fun row hrow ref href => (hrefs.2 row hrow ref href).offerAll n.refresh).last
    rintro - others u ⟨hothers, rfl⟩
    refine Ends.pure ⟨?_, rfl⟩
    rw [List.flatten_cons, hothers]

/-- A batch whose rows refer to what is there is stored, unless one of its statements has a
fault. -/
theorem ends_upsertAll (hs : s.Sound) (hwarranted : ∀ row ∈ rows, n.Warranted row)
    (hrefs : ∀ row ∈ rows, ∀ ref ∈ n.references row, s.Resolves ref) :
    Ends (fun fault cause => cause = fault) (upsertAll n rows) s (batchFault? n rows)
      fun told t => told = s.told n rows ∧ t = s.offer n rows := by
  rw [← n.flatten_statements rows] at hwarranted hrefs
  have hends := ends_mapM_upsert hs hwarranted hrefs
  rw [n.flatten_statements] at hends
  exact hends.last fun _ told t h => Ends.pure h

/-- A batch that repeats no key is stored in parts exactly if it is stored as a whole, and with the
same rows told and the same store left. -/
theorem upsertAll_eq_ok_iff (hs : s.Sound) (hwarranted : ∀ row ∈ rows, n.Warranted row)
    (hrefs : ∀ row ∈ rows, ∀ ref ∈ n.references row, s.Resolves ref)
    (hnodup : (rows.map n.key).Nodup) {told : List (Entry n.Row)} :
    upsertAll n rows s = .ok told t ↔ upsert n rows s = .ok told t := by
  have hparts := ends_upsertAll hs hwarranted hrefs
  have hwhole := ends_upsert hs hrefs
  rw [batchFault?_of_nodup hnodup] at hparts
  rw [statementFault?, if_pos hnodup, Option.or_none] at hwhole
  cases hfault : rows.findSome? n.refusal? with
  | none =>
    rw [hfault] at hparts hwhole
    obtain ⟨_, _, hparts, rfl, rfl⟩ := hparts
    obtain ⟨_, _, hwhole, rfl, rfl⟩ := hwhole
    rw [hparts, hwhole]
  | some fault =>
    rw [hfault] at hparts hwhole
    obtain ⟨_, _, hparts, _⟩ := hparts
    obtain ⟨_, _, hwhole, _⟩ := hwhole
    rw [hparts, hwhole]
    constructor <;> rintro ⟨⟩

/-- Statements that leave stored rows alone are carried out one after the other, up to the first row
that cannot be sent. -/
theorem ends_forM_insertAbsent (hs : s.Sound) {parts : List (List n.Row)}
    (hwarranted : ∀ row ∈ parts.flatten, n.Warranted row)
    (hrefs : ∀ row ∈ parts.flatten, ∀ ref ∈ n.references row, s.Resolves ref) :
    Ends (fun fault cause => cause = fault) (parts.forM (insertAbsent n)) s
      (parts.flatten.findSome? n.refusal?) fun _ t => t = s.offerAbsent n parts.flatten := by
  induction parts generalizing s with
  | nil => exact Ends.pure (set_get s n).symm
  | cons part rest ih =>
    rw [List.flatten_cons, List.forall_mem_append] at hwarranted hrefs
    rw [List.forM_eq_forM, List.forM_cons, List.flatten_cons, List.findSome?_append,
      offerAbsent_append]
    apply (ends_insertAbsent hs hrefs.1).bind
    rintro - - t rfl
    have ht : (s.offerAbsent n part).Sound :=
      (keeps_offerAll s n n.keepsKey_stored (fun _ _ h _ => h) hwarranted.1
        (missingReferent?_offerAll hs (fun _ _ => Or.inl rfl) hrefs.1) hs).1
    exact ih ht hwarranted.2 fun row hrow ref href => (hrefs.2 row hrow ref href).offerAll _

/-- A batch that leaves stored rows alone and whose rows refer to what is there is stored, unless
one of the rows cannot be sent. -/
theorem ends_insertAllAbsent (hs : s.Sound) (hwarranted : ∀ row ∈ rows, n.Warranted row)
    (hrefs : ∀ row ∈ rows, ∀ ref ∈ n.references row, s.Resolves ref) :
    Ends (fun fault cause => cause = fault) ((n.statements rows).forM (insertAbsent n)) s
      (rows.findSome? n.refusal?) fun _ t => t = s.offerAbsent n rows := by
  rw [← n.flatten_statements rows] at hwarranted hrefs
  have hends := ends_forM_insertAbsent hs hwarranted hrefs
  rwa [n.flatten_statements] at hends

/-! ## What a stored batch tells -/

/-- A statement that is carried out tells how its rows are stored, and offers them. -/
theorem told_of_upsert (hkeyed : (s.get n).Keyed n.key) {told : List (Entry n.Row)}
    (h : upsert n rows s = .ok told t) : told = s.told n rows ∧ t = s.offer n rows := by
  rcases upsert_cases hkeyed rows with ⟨cause, count, -, herror⟩ | ⟨-, -, hok⟩
  · rw [herror] at h
    cases h
  · rw [hok] at h
    cases h
    exact ⟨rfl, rfl⟩

/-- Statements that are carried out one after the other tell how their rows are stored. -/
theorem told_of_mapM_upsert (hkeyed : (s.get n).Keyed n.key) {parts : List (List n.Row)}
    {told : List (List (Entry n.Row))} (h : parts.mapM (upsert n) s = .ok told t) :
    told.flatten = s.told n parts.flatten ∧ t = s.offer n parts.flatten := by
  induction parts generalizing s told with
  | nil =>
    cases h
    exact ⟨rfl, (offer_nil t n).symm⟩
  | cons part rest ih =>
    rw [List.mapM_cons] at h
    obtain ⟨first, u, hfirst, hrest⟩ := exists_of_bind h
    obtain ⟨others, v, hothers, hend⟩ := exists_of_bind hrest
    cases hend
    obtain ⟨rfl, rfl⟩ := told_of_upsert hkeyed hfirst
    have hnext : ((s.offer n part).get n).Keyed n.key := by
      rw [get_offer_self]
      exact hkeyed.offerAll n.keepsKey_refresh part
    obtain ⟨htold, ht⟩ := ih hnext hothers
    rw [List.flatten_cons, List.flatten_cons, told_append, offer_append, htold]
    exact ⟨rfl, ht⟩

/-- A batch that is stored tells how its rows are stored, and offers them. -/
theorem told_of_upsertAll (hkeyed : (s.get n).Keyed n.key) {told : List (Entry n.Row)}
    (h : upsertAll n rows s = .ok told t) : told = s.told n rows ∧ t = s.offer n rows := by
  obtain ⟨parts, u, hall, hend⟩ := exists_of_bind h
  cases hend
  have htold := told_of_mapM_upsert hkeyed hall
  rwa [n.flatten_statements] at htold

end Store

end BlockArchive
