import BlockArchive.Proofs.Persist.Fault
import Mathlib.Data.List.Perm.Basic
import Mathlib.Data.Set.List

/-!
# Placing the entities of a level

The rows of a level are made family by family. If the ids of the parents are different, a place can
be taken only by one of the same family, so placing the rows fails with the first fault of the
level, and where there is none all rows are placed.

## Main definitions

- `inOrder`: rows in the order of their places
- `Persist.Level.candidate`, `Persist.Level.rows`: the rows that want a place

## Main statements

- `Persist.Level.placeAll_families`: placing a level fails with its first fault
- `Persist.Level.nodup_slots`: in a level without a fault no place is taken twice
-/

namespace BlockArchive

/-- Rows in the order of their places. -/
def inOrder {ρ : Type} (slot : ρ → Slot) (rows : List ρ) : List ρ :=
  (Std.ExtTreeMap.ofList (rows.map fun row => (slot row, row))).values

theorem mem_inOrder {ρ : Type} {slot : ρ → Slot} {rows : List ρ} (h : (rows.map slot).Nodup)
    {row : ρ} :
    row ∈ inOrder slot rows ↔ row ∈ rows := by
  rw [inOrder, OrderedMap.mem_values]
  constructor
  · rintro ⟨place, hplace⟩
    obtain ⟨pair, hpair, _, rfl⟩ := OrderedMap.exists_of_getElem?_ofList hplace
    obtain ⟨other, hother, rfl⟩ := List.mem_map.1 hpair
    exact hother
  · intro hrow
    refine ⟨slot row, OrderedMap.getElem?_ofList_of_nodup ?_ (List.mem_map_of_mem hrow)⟩
    rwa [List.map_map]

theorem nodup_inOrder {ρ : Type} (slot : ρ → Slot) (rows : List ρ) :
    ((inOrder slot rows).map slot).Nodup :=
  OrderedMap.nodup_values_ofList_map slot rows

/-- Rows that want different places are only put in another order. -/
theorem inOrder_perm {ρ : Type} {slot : ρ → Slot} {rows : List ρ} (h : (rows.map slot).Nodup) :
    (inOrder slot rows).Perm rows :=
  (List.perm_ext_iff_of_nodup (nodup_inOrder slot rows).of_map h.of_map).2 fun _ => mem_inOrder h

theorem place_of_mem {ρ : Type} {entity : String} {slot : ρ → Slot} {placed : Std.ExtTreeMap Slot ρ}
    {row : ρ} (h : slot row ∈ placed) :
    place entity slot placed (.ok row) = .error (.duplicateIndex entity (slot row).text) := by
  show (if slot row ∈ placed then _ else _) = _
  rw [if_pos h]
  rfl

theorem place_of_not_mem {ρ : Type} {entity : String} {slot : ρ → Slot}
    {placed : Std.ExtTreeMap Slot ρ} {row : ρ} (h : slot row ∉ placed) :
    place entity slot placed (.ok row) = .ok (placed.insert (slot row) row) := by
  show (if slot row ∈ placed then _ else _) = _
  rw [if_neg h]
  rfl

/-- Candidates can be placed if all of them have rows and these want different places that are
free. -/
theorem foldlM_place_eq_ok_iff {ρ : Type} {entity : String} {slot : ρ → Slot}
    {candidates : List (Candidate ρ)} {placed after : Std.ExtTreeMap Slot ρ} :
    candidates.foldlM (place entity slot) placed = .ok after ↔
      ∃ rows : List ρ, candidates = rows.map .ok ∧ (rows.map slot).Nodup ∧
        (∀ row ∈ rows, slot row ∉ placed) ∧
        after = placed.insertMany (rows.map fun row => (slot row, row)) := by
  induction candidates generalizing placed with
  | nil =>
    constructor
    · rintro ⟨⟩
      exact ⟨[], rfl, List.nodup_nil, by simp, by simp⟩
    · rintro ⟨rows, hrows, _, _, rfl⟩
      cases List.map_eq_nil_iff.1 hrows.symm
      simp [pure, Except.pure]
  | cons candidate rest ih =>
    rw [List.foldlM_cons]
    cases candidate with
    | error failure =>
      constructor
      · rintro ⟨⟩
      · rintro ⟨rows, hrows, _⟩
        cases rows <;> simp at hrows
    | ok row =>
      by_cases htaken : slot row ∈ placed
      · rw [place_of_mem htaken]
        constructor
        · rintro ⟨⟩
        · rintro ⟨rows, hrows, _, hfree, _⟩
          cases rows with
          | nil => cases hrows
          | cons first others =>
            cases (List.cons.inj hrows).1
            exact absurd htaken (hfree row List.mem_cons_self)
      · rw [place_of_not_mem htaken]
        show List.foldlM (place entity slot) (placed.insert (slot row) row) rest = _ ↔ _
        rw [ih]
        constructor
        · rintro ⟨rows, rfl, hnodup, hfree, rfl⟩
          simp only [Std.ExtTreeMap.mem_insert, not_or] at hfree
          refine ⟨row :: rows, rfl, ?_, ?_, by rw [List.map_cons, Std.ExtTreeMap.insertMany_cons]⟩
          · rw [List.map_cons, List.nodup_cons]
            refine ⟨fun hmem => ?_, hnodup⟩
            obtain ⟨other, hother, hplace⟩ := List.mem_map.1 hmem
            exact (hfree other hother).1 (by rw [hplace, Std.ReflOrd.compare_self])
          · exact List.forall_mem_cons.2 ⟨htaken, fun other hother => (hfree other hother).2⟩
        · rintro ⟨rows, hrows, hnodup, hfree, rfl⟩
          cases rows with
          | nil => cases hrows
          | cons first others =>
            obtain ⟨hfirst, rfl⟩ := List.cons.inj hrows
            cases hfirst
            rw [List.map_cons, List.nodup_cons] at hnodup
            refine ⟨others, rfl, hnodup.2, fun other hother hmem => ?_,
              by rw [List.map_cons, Std.ExtTreeMap.insertMany_cons]⟩
            rcases Std.ExtTreeMap.mem_insert.1 hmem with hplace | hmem
            · apply hnodup.1
              rw [Std.LawfulEqOrd.eq_of_compare hplace]
              exact List.mem_map_of_mem hother
            · exact hfree other (List.mem_cons_of_mem _ hother) hmem

/-- Placing candidates is putting their rows in order, if they want different places. -/
theorem placeAll_eq_ok_iff {ρ : Type} {entity : String} {slot : ρ → Slot}
    {candidates : List (Candidate ρ)} {placed : List ρ} :
    placeAll entity slot candidates = .ok placed ↔
      ∃ rows : List ρ, candidates = rows.map .ok ∧ (rows.map slot).Nodup ∧
        placed = inOrder slot rows := by
  have hmap : placeAll entity slot candidates = .ok placed ↔
      ∃ after, candidates.foldlM (place entity slot) ∅ = .ok after ∧ placed = after.values := by
    rw [placeAll]
    cases candidates.foldlM (place entity slot) ∅ <;> simp [Except.map, eq_comm]
  simp only [hmap, foldlM_place_eq_ok_iff, inOrder, Std.ExtTreeMap.ofList_eq_insertMany_empty]
  constructor
  · rintro ⟨_, ⟨rows, hrows, hnodup, _, rfl⟩, hplaced⟩
    exact ⟨rows, hrows, hnodup, hplaced⟩
  · rintro ⟨rows, hrows, hnodup, hplaced⟩
    exact ⟨_, ⟨rows, hrows, hnodup, by simp, rfl⟩, hplaced⟩

/-- Rows that want different places come in the same order whatever order they are in before. -/
theorem inOrder_eq_of_perm {ρ : Type} {slot : ρ → Slot} {rows rows' : List ρ} (h : rows.Perm rows')
    (hnodup : (rows.map slot).Nodup) : inOrder slot rows = inOrder slot rows' := by
  rw [inOrder, inOrder, OrderedMap.ofList_eq_of_perm (h.map _)]
  rwa [List.map_map]

/-- The order of the candidates has no part in how they are placed, save that it tells which of them
fails first. -/
theorem placeAll_eq_ok_iff_of_perm {ρ : Type} {entity : String} {slot : ρ → Slot}
    {candidates candidates' : List (Candidate ρ)} (h : candidates.Perm candidates')
    (placed : List ρ) :
    placeAll entity slot candidates = .ok placed ↔ placeAll entity slot candidates' = .ok placed := by
  have himp : ∀ {candidates candidates' : List (Candidate ρ)}, candidates.Perm candidates' →
      placeAll entity slot candidates = .ok placed →
        placeAll entity slot candidates' = .ok placed := by
    intro candidates candidates' h hplaced
    obtain ⟨rows, rfl, hnodup, rfl⟩ := placeAll_eq_ok_iff.1 hplaced
    obtain ⟨rows', rfl⟩ : candidates' ∈ Set.range (List.map Except.ok) := by
      rw [Set.range_list_map]
      intro candidate hcandidate
      obtain ⟨row, _, rfl⟩ := List.mem_map.1 (h.mem_iff.2 hcandidate)
      exact ⟨row, rfl⟩
    have hrows : rows.Perm rows' := (List.map_perm_map_iff fun _ _ he => Except.ok.inj he).1 h
    exact placeAll_eq_ok_iff.2
      ⟨rows', rfl, (hrows.map slot).nodup hnodup, inOrder_eq_of_perm hrows hnodup⟩
  exact ⟨himp h, himp h.symm⟩

namespace Persist.Level

variable {α : Type} (L : Level α) (known : List String) (name : Parent → Id) (textId : String → Id)

/-- The row of an entity below a parent, once its text has been looked up. -/
def candidate (lookup : String → Except Failure Id) (parent : Id) (a : α) : Candidate L.table.Row :=
  (lookup (L.text a)).map fun text => L.row parent text a

/-- The rows of the entities below a parent. -/
def rowsBelow (parent : Id) (members : List α) : List L.table.Row :=
  members.map fun a => L.row parent (textId (L.text a)) a

/-- The rows of a level. -/
def rows (families : List (Family α)) : List L.table.Row :=
  families.flatMap fun family => L.rowsBelow textId (name family.parent) family.members

/-- Rows with their places. -/
def placed (rows : List L.table.Row) : List (Slot × L.table.Row) :=
  rows.map fun row => (L.slot row, row)

theorem parent_slot {parent : Id} {members : List α} {row : L.table.Row}
    (h : row ∈ L.rowsBelow textId parent members) : (L.slot row).parent = parent := by
  obtain ⟨a, _, rfl⟩ := List.mem_map.1 h
  rw [L.slot_row]

theorem mem_rows {families : List (Family α)} {row : L.table.Row} :
    row ∈ L.rows name textId families ↔
      ∃ family ∈ families, ∃ a ∈ family.members,
        row = L.row (name family.parent) (textId (L.text a)) a := by
  simp only [rows, rowsBelow, List.mem_flatMap, List.mem_map, eq_comm]

theorem length_rows (families : List (Family α)) :
    (L.rows name textId families).length =
      (families.flatMap fun family => family.members).length := by
  simp only [rows, rowsBelow, List.length_flatMap, List.length_map]

/-- In a level without a fault no place is taken twice. -/
theorem nodup_slots {families : List (Family α)} (hnames : (families.map (name ·.parent)).Nodup)
    (h : L.fault? known families = none) : ((L.rows name textId families).map L.slot).Nodup := by
  have hbelow : ∀ family ∈ families,
      ((L.rowsBelow textId (name family.parent) family.members).map L.slot).Nodup := by
    intro family hfamily
    have hindexes := ((L.fault?_eq_none known).1 h family hfamily).2
    rw [rowsBelow, List.map_map]
    apply List.Nodup.of_map Slot.index
    rw [List.map_map]
    simpa only [Function.comp_def, L.slot_row] using hindexes
  induction families with
  | nil => exact List.nodup_nil
  | cons family rest ih =>
    rw [List.map_cons, List.nodup_cons] at hnames
    have hrest : L.fault? known rest = none := by
      rw [fault?_eq_none] at h ⊢
      exact fun other hother => h other (List.mem_cons_of_mem _ hother)
    rw [rows, List.flatMap_cons, List.map_append, List.nodup_append']
    refine ⟨hbelow family List.mem_cons_self, ih hnames.2 hrest fun other hother =>
      hbelow other (List.mem_cons_of_mem _ hother), ?_⟩
    -- rows of different families have different parents
    intro place hfirst hlater
    obtain ⟨row, hrow, rfl⟩ := List.mem_map.1 hfirst
    obtain ⟨other, hother, hplace⟩ := List.mem_map.1 hlater
    obtain ⟨family', hfamily', hother⟩ := List.mem_flatMap.1 hother
    apply hnames.1
    have hparent := L.parent_slot textId hrow
    rw [← hplace, L.parent_slot textId hother] at hparent
    rw [← hparent]
    exact List.mem_map_of_mem (f := (name ·.parent)) hfamily'

variable {known textId} {lookup : String → Except Failure Id}
  (hlookup : ∀ text, lookup text =
    if text ∈ known then .ok (textId text) else .error (.unregisteredReference L.kind text))

include hlookup in
/-- Placing those below a parent fails with their first fault, given the indexes that are taken. -/
theorem foldlM_place_members (parent : Parent) (taken : List Int64) (members : List α)
    {rowsSoFar : Std.ExtTreeMap Slot L.table.Row}
    (htaken : ∀ index, (⟨name parent, index⟩ : Slot) ∈ rowsSoFar ↔ index ∈ taken) :
    (members.map (L.candidate lookup (name parent))).foldlM (place L.kind.entity L.slot) rowsSoFar =
      match L.faultAmong? known parent taken members with
      | some fault => .error (fault.failure name)
      | none =>
        .ok (rowsSoFar.insertMany (L.placed (L.rowsBelow textId (name parent) members))) := by
  induction members generalizing taken rowsSoFar with
  | nil => rfl
  | cons a rest ih =>
    rw [List.map_cons, List.foldlM_cons, faultAmong?]
    by_cases hknown : L.text a ∈ known
    · have hcandidate : L.candidate lookup (name parent) a =
          .ok (L.row (name parent) (textId (L.text a)) a) := by
        rw [candidate, hlookup, if_pos hknown]
        rfl
      rw [hcandidate, if_neg (not_not_intro hknown)]
      have hslot := L.slot_row (name parent) (textId (L.text a)) a
      by_cases hindex : L.index a ∈ taken
      · have hmem := (htaken _).2 hindex
        rw [← hslot] at hmem
        rw [if_pos hindex, place_of_mem hmem, hslot]
        rfl
      · have hmem := mt (htaken _).1 hindex
        rw [← hslot] at hmem
        rw [if_neg hindex, place_of_not_mem hmem]
        refine (ih (L.index a :: taken) fun index => ?_).trans ?_
        · rw [Std.ExtTreeMap.mem_insert, htaken, hslot, Std.LawfulEqOrd.compare_eq_iff_eq,
            Slot.mk.injEq, List.mem_cons]
          simp [eq_comm]
        · have hplaced : L.placed (L.rowsBelow textId (name parent) (a :: rest)) =
              (L.slot (L.row (name parent) (textId (L.text a)) a),
                L.row (name parent) (textId (L.text a)) a) ::
                L.placed (L.rowsBelow textId (name parent) rest) := rfl
          rw [hplaced, Std.ExtTreeMap.insertMany_cons]
    · rw [candidate, hlookup, if_neg hknown, if_pos hknown]
      rfl

include hlookup in
/-- Placing a level fails with its first fault, if the parents have different ids. -/
theorem placeAll_families {families : List (Family α)}
    (hnames : (families.map (name ·.parent)).Nodup) :
    placeAll L.kind.entity L.slot
        (families.flatMap fun family =>
          family.members.map (L.candidate lookup (name family.parent))) =
      match L.fault? known families with
      | some fault => .error (fault.failure name)
      | none => .ok (inOrder L.slot (L.rows name textId families)) := by
  -- no place below a parent that is still to come is taken
  have hfold : ∀ (rowsSoFar : Std.ExtTreeMap Slot L.table.Row),
      (∀ family ∈ families, ∀ index, (⟨name family.parent, index⟩ : Slot) ∉ rowsSoFar) →
      (families.flatMap fun family =>
          family.members.map (L.candidate lookup (name family.parent))).foldlM
          (place L.kind.entity L.slot) rowsSoFar =
        match L.fault? known families with
        | some fault => .error (fault.failure name)
        | none => .ok (rowsSoFar.insertMany (L.placed (L.rows name textId families))) := by
    induction families with
    | nil => intro rowsSoFar _; rfl
    | cons family rest ih =>
      intro rowsSoFar hfree
      rw [List.map_cons, List.nodup_cons] at hnames
      have hmembers := L.foldlM_place_members name hlookup family.parent [] family.members
        fun index =>
          ⟨fun h => absurd h (hfree family List.mem_cons_self index), fun h => by cases h⟩
      rw [List.flatMap_cons, List.foldlM_append, hmembers, fault?, List.findSome?_cons]
      cases hfault : L.faultAmong? known family.parent [] family.members with
      | some fault => rfl
      | none =>
        refine (ih hnames.2 _ fun other hother index hmem => ?_).trans ?_
        · rw [Std.ExtTreeMap.mem_insertMany_list] at hmem
          rcases hmem with hmem | hmem
          · exact hfree other (List.mem_cons_of_mem _ hother) index hmem
          · have hmem := List.contains_iff_mem.1 hmem
            rw [placed, List.map_map] at hmem
            obtain ⟨row, hrow, hslot⟩ := List.mem_map.1 hmem
            have hparent := L.parent_slot textId hrow
            simp only [Function.comp_apply] at hslot
            rw [hslot] at hparent
            simp only at hparent
            apply hnames.1
            rw [← hparent]
            exact List.mem_map_of_mem (f := (name ·.parent)) hother
        · have hplaced : L.placed (L.rows name textId (family :: rest)) =
              L.placed (L.rowsBelow textId (name family.parent) family.members) ++
                L.placed (L.rows name textId rest) := by
            rw [rows, List.flatMap_cons, placed, List.map_append]
            rfl
          rw [hplaced, Std.ExtTreeMap.insertMany_append]
          rfl
  rw [placeAll, hfold ∅ fun family _ index => Std.ExtTreeMap.not_mem_empty]
  cases L.fault? known families with
  | some fault => rfl
  | none =>
    rw [inOrder, Std.ExtTreeMap.ofList_eq_insertMany_empty]
    rfl

end Persist.Level

end BlockArchive
