import BlockArchive.Gap
import BlockArchive.Proofs.Reachable
import Mathlib.Algebra.Group.Int.Defs
import Mathlib.Order.Bounds.Defs

/-!
# The gap scan

The scan for a missing height is told where to stop, but the stop does not matter: the range is
stretched past the highest height that counts, and above that height everything is missing. So the
scan tells the least height from its start on that is missing, and its start where none is.

## Main definitions

- `Store.IsFirstMissing`: the height that a scan is to tell
- `Store.Scannable`: the scan of a chain can be answered

## Main statements

- `firstUnindexed?_eq_some`, `firstUnindexed?_eq_none`: looking through a range of heights
- `Store.le_of_highestIndexed?`: no height that counts lies above the highest row
- `Store.firstMissing_of_scannable`, `Store.isFirstMissing_of_firstMissing`: what the scan tells
- `Store.firstMissing_isLeast`: the scan tells the least missing height
- `Store.firstMissing_fails_of_last_leap`: a store that is reached and cannot be scanned
-/

namespace BlockArchive

/-! ## Heights in a row -/

/-- Below another height there is room for the next one. -/
theorem toInt_add_one {height other : Int64} (h : height < other) :
    (height + 1).toInt = height.toInt + 1 := by
  have hroom := other.toInt_lt
  have hlow := height.le_toInt
  have hone : (1 : Int64).toInt = 1 := by decide
  rw [Int64.lt_iff_toInt_lt] at h
  rw [Int64.toInt_add, hone]
  apply Int.bmod_eq_of_le <;> omega

theorem le_maxValue (height : Int64) : height ≤ Int64.maxValue := by
  have hlt := height.toInt_lt
  have hmax : Int64.maxValue.toInt = 2 ^ 63 - 1 := by decide
  rw [Int64.le_iff_toInt_le]
  omega

theorem lt_nextHeight {height : Int64} (h : height ≠ Int64.maxValue) :
    height < nextHeight height := by
  have hlt : height < Int64.maxValue :=
    Int64.lt_of_le_of_ne (le_maxValue height) h
  rw [nextHeight, if_neg h, Int64.lt_iff_toInt_lt, toInt_add_one hlt]
  omega

section Scan

variable {indexed : Int64 → Bool} {height found other : Int64} {count : Nat}

/-- What the scan finds is missing, and everything before it is there. -/
theorem firstUnindexed?_eq_some (hcount : height.toInt + count ≤ 2 ^ 63)
    (h : firstUnindexed? indexed height count = some found) :
    height ≤ found ∧ indexed found = false ∧
      ∀ other, height ≤ other → other < found → indexed other = true := by
  induction count generalizing height with
  | zero => cases h
  | succ count ih =>
    rw [firstUnindexed?] at h
    split at h
    · next hindexed =>
      -- the scan goes on only if there is a next height
      have hpos : count ≠ 0 := by
        rintro rfl
        cases h
      have hmax : Int64.maxValue.toInt = 2 ^ 63 - 1 := by decide
      have hroom : height < Int64.maxValue := Int64.lt_iff_toInt_lt.2 (by omega)
      have hnext := toInt_add_one hroom
      obtain ⟨hle, hmissing, hbefore⟩ := ih (by omega) h
      rw [Int64.le_iff_toInt_le] at hle
      refine ⟨Int64.le_iff_toInt_le.2 (by omega), hmissing, fun other hother hlt => ?_⟩
      by_cases hsame : other = height
      · rwa [hsame]
      · rw [← Int64.toInt_inj] at hsame
        rw [Int64.le_iff_toInt_le] at hother
        exact hbefore other (Int64.le_iff_toInt_le.2 (by omega)) hlt
    · next hindexed =>
      cases h
      refine ⟨Int64.le_refl _, by simpa using hindexed, fun other hother hlt => ?_⟩
      exact absurd hlt (Int64.not_lt.2 hother)

/-- The scan finds nothing only if nothing is missing in its range. -/
theorem firstUnindexed?_eq_none (hcount : height.toInt + count ≤ 2 ^ 63)
    (h : firstUnindexed? indexed height count = none) (hle : height ≤ other)
    (hlt : other.toInt < height.toInt + count) : indexed other = true := by
  rw [Int64.le_iff_toInt_le] at hle
  induction count generalizing height with
  | zero => omega
  | succ count ih =>
    rw [firstUnindexed?] at h
    split at h
    · next hindexed =>
      by_cases hsame : other = height
      · rwa [hsame]
      · rw [← Int64.toInt_inj] at hsame
        have hnext : (height + 1).toInt = height.toInt + 1 :=
          toInt_add_one (Int64.lt_iff_toInt_lt.2 (by omega : height.toInt < other.toInt))
        exact ih (by omega) h (by omega) (by omega)
    · cases h

end Scan

namespace Store

variable {s : Store} {pipeline : Pipeline} {chain : Id}

/-! ## The highest row that counts -/

theorem mem_filter_indexed {entry : Entry BlockRow} :
    (entry ∈ s.blocks.entries.filter fun entry =>
      entry.row.chain = chain ∧ entry.row.IsIndexed pipeline) ↔
      entry ∈ s.blocks.entries ∧ entry.row.chain = chain ∧ entry.row.IsIndexed pipeline := by
  simp

/-- The highest row counts, and no height that counts lies above it. -/
theorem le_of_highestIndexed? {highest : Entry BlockRow}
    (h : s.highestIndexed? pipeline chain = some highest) :
    s.IndexedAt pipeline chain highest.row.height ∧
      ∀ height, s.IndexedAt pipeline chain height → height ≤ highest.row.height := by
  unfold highestIndexed? at h
  obtain ⟨hmem, hchain, hindexed⟩ := mem_filter_indexed.1 (List.maxOn?_mem h)
  refine ⟨⟨highest, hmem, hchain, rfl, hindexed⟩, ?_⟩
  rintro _ ⟨entry, hentry, hchain, rfl, hindexed⟩
  have hle := List.le_apply_get_maxOn?_of_mem (f := fun entry : Entry BlockRow => entry.row.height)
    (mem_filter_indexed.2 ⟨hentry, hchain, hindexed⟩)
  simpa only [h, Option.get_some] using hle

theorem not_indexedAt_of_highestIndexed? (h : s.highestIndexed? pipeline chain = none)
    (height : Int64) : ¬ s.IndexedAt pipeline chain height := by
  rintro ⟨entry, hentry, hchain, rfl, hindexed⟩
  unfold highestIndexed? at h
  have hsome := List.isSome_maxOn?_of_mem (f := fun entry : Entry BlockRow => entry.row.height)
    (mem_filter_indexed.2 ⟨hentry, hchain, hindexed⟩)
  rw [h] at hsome
  cases hsome

/-! ## The scan of a chain -/

/-- The stretched range reaches past the highest height, or to the greatest height there is. -/
theorem lt_or_eq_gapScanRange (start stop highest : Int64) :
    highest < (gapScanRange start stop (some highest)).2 ∨
      (gapScanRange start stop (some highest)).2 = Int64.maxValue := by
  have hend : nextHeight highest ≤ (gapScanRange start stop (some highest)).2 := by
    simp only [gapScanRange]
    split
    · exact Int64.le_refl _
    · next h => exact Int64.not_lt.1 h
  by_cases h : highest = Int64.maxValue
  · right
    rw [nextHeight, if_pos h, h] at hend
    rw [h]
    exact Int64.le_antisymm (le_maxValue _) hend
  · left
    exact Int64.lt_of_lt_of_le (lt_nextHeight h) hend

/-- Where the scan finds nothing and starts at a height that counts, all heights from there on do:
the heights that count end with the stretched range, so it ends with the greatest height. -/
theorem indexedAt_of_firstMissing?_eq_none {start stop : Int64} {highest : Option Int64}
    (hhighest : ∀ height, s.IndexedAt .txs chain height →
      ∃ top, highest = some top ∧ height ≤ top ∧ s.IndexedAt .txs chain top)
    (h : s.firstMissing? chain start (gapScanRange start stop highest).2 = none)
    (hstart : s.IndexedAt .txs chain start) {height : Int64} (hle : start ≤ height) :
    s.IndexedAt .txs chain height := by
  obtain ⟨top, rfl, hstartTop, htop⟩ := hhighest start hstart
  have hbound := (gapScanRange start stop (some top)).2.toInt_lt
  have hlow := start.toInt_lt
  have hall : ∀ other, start ≤ other → other ≤ (gapScanRange start stop (some top)).2 →
      s.IndexedAt .txs chain other := by
    intro other hother hend
    rw [Int64.le_iff_toInt_le] at hend
    have hother' := Int64.le_iff_toInt_le.1 hother
    have hfound := firstUnindexed?_eq_none (by omega) h hother (by omega)
    simpa using hfound
  rcases lt_or_eq_gapScanRange start stop top with hlt | hend
  · -- the end of the range would count, but it lies above all that do
    have hend := hall _ (Int64.le_of_lt (Int64.lt_of_le_of_lt hstartTop hlt)) (Int64.le_refl _)
    obtain ⟨_, htop', hle', _⟩ := hhighest _ hend
    cases htop'
    exact absurd hlt (Int64.not_lt.2 hle')
  · exact hall height hle (hend ▸ le_maxValue height)

/-- The height is the least one from the start on that is missing, or the start if none is. -/
def IsFirstMissing (s : Store) (chain : Id) (start height : Int64) : Prop :=
  IsLeast {other | start ≤ other ∧ ¬ s.IndexedAt .txs chain other} height ∨
    height = start ∧ ∀ other, start ≤ other → s.IndexedAt .txs chain other

theorem IsFirstMissing.unique {start height height' : Int64} (h : s.IsFirstMissing chain start height)
    (h' : s.IsFirstMissing chain start height') : height = height' := by
  rcases h with ⟨hmem, hleast⟩ | ⟨rfl, hall⟩
  · rcases h' with ⟨hmem', hleast'⟩ | ⟨_, hall⟩
    · exact Int64.le_antisymm (hleast hmem') (hleast' hmem)
    · exact absurd (hall height hmem.1) hmem.2
  · rcases h' with ⟨hmem', _⟩ | ⟨rfl, _⟩
    · exact absurd (hall height' hmem'.1) hmem'.2
    · rfl

/-- What is found in the stretched range is the first missing height, and where nothing is found the
start is. -/
theorem isFirstMissing_scan (s : Store) (chain : Id) (start stop : Int64) :
    s.IsFirstMissing chain start
      ((s.firstMissing? chain start (gapScanRange start stop
        ((s.highestIndexed? .txs chain).map (·.row.height))).2).getD start) := by
  cases hscan : s.firstMissing? chain start (gapScanRange start stop
      ((s.highestIndexed? .txs chain).map (·.row.height))).2 with
  | some found =>
    have hbound := (gapScanRange start stop
      ((s.highestIndexed? .txs chain).map (·.row.height))).2.toInt_lt
    have hlow := start.toInt_lt
    obtain ⟨hle, hmissing, hbefore⟩ := firstUnindexed?_eq_some (by omega) hscan
    refine Or.inl ⟨⟨hle, by simpa using hmissing⟩, ?_⟩
    rintro other ⟨hother, hgap⟩
    apply Int64.not_lt.1
    intro hlt
    exact hgap (by simpa using hbefore other hother hlt)
  | none =>
    by_cases hstart : s.IndexedAt .txs chain start
    · refine Or.inr ⟨rfl, fun other hle =>
        indexedAt_of_firstMissing?_eq_none (fun height hheight => ?_) hscan hstart hle⟩
      cases htop : s.highestIndexed? .txs chain with
      | none => exact absurd hheight (not_indexedAt_of_highestIndexed? htop height)
      | some top =>
        obtain ⟨hindexed, hhighest⟩ := le_of_highestIndexed? htop
        exact ⟨top.row.height, rfl, hhighest height hheight, hindexed⟩
    · exact Or.inl ⟨⟨Int64.le_refl _, hstart⟩, fun _ hother => hother.1⟩

/-! ## The answer -/

theorem highestIndexed_of_readable
    (h : ∀ highest, s.highestIndexed? pipeline chain = some highest →
      highest.row.time.IsReadable) :
    s.highestIndexed pipeline chain = .ok (s.highestIndexed? pipeline chain) := by
  rw [highestIndexed]
  cases hhighest : s.highestIndexed? pipeline chain with
  | none => rfl
  | some highest =>
    have hread : TableName.blocks.read highest = .ok highest := by
      simp only [TableName.read, TableName.unreadable?, if_pos (h highest hhighest)]
    rw [TableName.readOption, Option.mapM_some, hread]
    rfl

theorem highestIndexed_of_not_readable {highest : Entry BlockRow}
    (hhighest : s.highestIndexed? pipeline chain = some highest)
    (h : ¬ highest.row.time.IsReadable) :
    s.highestIndexed pipeline chain = .error (.query .timeTooLarge) := by
  have hread : TableName.blocks.read highest = .error (.query .timeTooLarge) := by
    simp only [TableName.read, TableName.unreadable?, if_neg h]
  rw [highestIndexed, hhighest, TableName.readOption, Option.mapM_some, hread]
  rfl

/-- Where the highest row can be read back the scan answers, and only tells the log what range it
has looked through. -/
theorem firstMissing_run (start stop : Int64) (log : List LogEvent)
    (h : ∀ highest, s.highestIndexed? .txs chain = some highest → highest.row.time.IsReadable) :
    ∃ told, firstMissing chain start stop ⟨s, log⟩ =
      .ok ((s.firstMissing? chain start (gapScanRange start stop
        ((s.highestIndexed? .txs chain).map (·.row.height))).2).getD start) ⟨s, told⟩ := by
  have hstart : ∀ highest, (gapScanRange start stop highest).1 = start := by
    intro highest
    unfold gapScanRange
    split
    · split <;> rfl
    · rfl
  have hread : (WriteM.ofExcept (s.highestIndexed .txs chain) : WriteM _) ⟨s, log⟩ =
      .ok (s.highestIndexed? .txs chain) ⟨s, log⟩ := by
    rw [highestIndexed_of_readable h]
    rfl
  have hrun : (MonadState.get : WriteM Session) ⟨s, log⟩ = .ok ⟨s, log⟩ ⟨s, log⟩ := rfl
  rw [firstMissing, bind_of_ok hrun, bind_of_ok hread]
  simp only [hstart]
  cases s.firstMissing? chain start _ with
  | some height => exact ⟨_, rfl⟩
  | none => exact ⟨_, rfl⟩

/-- Where the highest row cannot be read back the scan fails. -/
theorem firstMissing_of_not_readable {highest : Entry BlockRow}
    (hhighest : s.highestIndexed? .txs chain = some highest)
    (hunreadable : ¬ highest.row.time.IsReadable) (start stop : Int64) (log : List LogEvent) :
    firstMissing chain start stop ⟨s, log⟩ = .error (.query .timeTooLarge) ⟨s, log⟩ := by
  have hread : (WriteM.ofExcept (s.highestIndexed .txs chain) : WriteM _) ⟨s, log⟩ =
      .error (.query .timeTooLarge) ⟨s, log⟩ := by
    rw [highestIndexed_of_not_readable hhighest hunreadable]
    rfl
  have hrun : (MonadState.get : WriteM Session) ⟨s, log⟩ = .ok ⟨s, log⟩ ⟨s, log⟩ := rfl
  rw [firstMissing, bind_of_ok hrun, bind_of_error hread]

/-- The highest row of the chain can be read back. -/
def Scannable (s : Store) (chain : Id) : Prop :=
  ∀ highest, s.highestIndexed? .txs chain = some highest → highest.row.time.IsReadable

/-- A chain that can be scanned has its first missing height told, wherever the scan is to stop. -/
theorem firstMissing_of_scannable (h : s.Scannable chain) {start height : Int64}
    (hfirst : s.IsFirstMissing chain start height) (stop : Int64) (log : List LogEvent) :
    ∃ told, firstMissing chain start stop ⟨s, log⟩ = .ok height ⟨s, told⟩ := by
  rw [hfirst.unique (s.isFirstMissing_scan chain start stop)]
  exact firstMissing_run start stop log h

/-- A chain that cannot be scanned has none told. -/
theorem firstMissing_of_not_scannable (h : ¬ s.Scannable chain) (start stop : Int64)
    (log : List LogEvent) :
    firstMissing chain start stop ⟨s, log⟩ = .error (.query .timeTooLarge) ⟨s, log⟩ := by
  unfold Scannable at h
  push Not at h
  obtain ⟨highest, hhighest, hunreadable⟩ := h
  exact firstMissing_of_not_readable hhighest hunreadable start stop log

/-- A height that is told is the first missing one of a chain that can be scanned. -/
theorem isFirstMissing_of_firstMissing {start stop height : Int64} {log : List LogEvent}
    {after : Session} (h : firstMissing chain start stop ⟨s, log⟩ = .ok height after) :
    s.Scannable chain ∧ s.IsFirstMissing chain start height := by
  have hscan : s.Scannable chain := by
    by_contra hscan
    rw [firstMissing_of_not_scannable hscan] at h
    cases h
  have hfirst := s.isFirstMissing_scan chain start stop
  obtain ⟨told, hanswer⟩ := firstMissing_of_scannable hscan hfirst stop log
  rw [hanswer] at h
  cases h
  exact ⟨hscan, hfirst⟩

/-- In any store whose highest row of a chain can be read back, the scan tells the least missing
height from the start on, or the start if no height is missing, wherever it is told to stop. If that
row cannot be read back the scan fails. -/
theorem firstMissing_isLeast (s : Store) (chain : Id) (start : Int64) :
    ((∀ highest, s.highestIndexed? .txs chain = some highest → highest.row.time.IsReadable) →
      ∃ height,
        (∀ stop log, ∃ told, firstMissing chain start stop ⟨s, log⟩ = .ok height ⟨s, told⟩) ∧
        ((∃ other, start ≤ other ∧ ¬ s.IndexedAt .txs chain other) →
          IsLeast {other | start ≤ other ∧ ¬ s.IndexedAt .txs chain other} height) ∧
        ((∀ other, start ≤ other → s.IndexedAt .txs chain other) → height = start) ∧
        (∀ other, start ≤ other → other < height → s.IndexedAt .txs chain other) ∧
        (height = start → s.IndexedAt .txs chain start →
          ∀ other, start ≤ other → s.IndexedAt .txs chain other)) ∧
    ∀ highest, s.highestIndexed? .txs chain = some highest → ¬ highest.row.time.IsReadable →
      ∀ stop log, firstMissing chain start stop ⟨s, log⟩ =
        .error (.query .timeTooLarge) ⟨s, log⟩ := by
  constructor
  · intro hreadable
    obtain ⟨height, hfirst⟩ : ∃ height, s.IsFirstMissing chain start height :=
      ⟨_, s.isFirstMissing_scan chain start start⟩
    refine ⟨height, fun stop log => ?_, ?_, ?_, ?_, ?_⟩
    · -- two stops cannot lead to different heights, as each is the first that is missing
      rw [hfirst.unique (s.isFirstMissing_scan chain start stop)]
      exact firstMissing_run start stop log hreadable
    all_goals rcases hfirst with hleast | ⟨hheight, hall⟩
    · exact fun _ => hleast
    · rintro ⟨other, hother, hgap⟩
      exact absurd (hall other hother) hgap
    · exact fun hall => absurd (hall _ hleast.1.1) hleast.1.2
    · exact fun _ => hheight
    · intro other hother hlt
      by_contra hgap
      exact Int64.not_lt.2 (hleast.2 ⟨hother, hgap⟩) hlt
    · exact fun other hother _ => hall other hother
    · intro hheight hstart
      rw [hheight] at hleast
      exact absurd hstart hleast.1.2
    · exact fun _ _ => hall
  · intro highest hhighest hunreadable
    exact firstMissing_of_not_readable hhighest hunreadable start

/-- Between two stored heights the scan finds the one that is missing, wherever it is to stop. -/
theorem firstMissing_isLeast_between_blocks :
    let time : Instant := { Instant.zero with nano := 1000, nano_lt := by decide }
    let s := (Step.persist ⟨1, 7, time⟩ []).next
      ((Step.persist ⟨1, 5, time⟩ []).next ((Step.registerChain ⟨"a-1", "A"⟩).next ∅))
    ∀ stop log, ∃ told, firstMissing 1 5 stop ⟨s, log⟩ = .ok 6 ⟨s, told⟩ := by
  intro time s
  have hhighest : s.highestIndexed? .txs 1 = some ⟨2, Block.row ⟨1, 7, time⟩ .txs⟩ := by
    decide +kernel
  have hreadable : ∀ highest, s.highestIndexed? .txs 1 = some highest →
      highest.row.time.IsReadable := by
    intro highest h
    rw [hhighest] at h
    cases h
    decide +kernel
  obtain ⟨height, hanswer, hleast, _⟩ := (firstMissing_isLeast s 1 5).1 hreadable
  have hgap : (5 : Int64) ≤ 6 ∧ ¬ s.IndexedAt .txs 1 6 := ⟨by decide, by decide +kernel⟩
  obtain ⟨⟨hstart, hmissing⟩, hbelow⟩ := hleast ⟨6, hgap⟩
  have hheight : height = 6 := by
    have hne : height ≠ 5 := by
      rintro rfl
      exact hmissing (by decide +kernel)
    have hle := hbelow hgap
    rw [Int64.le_iff_toInt_le] at hstart hle
    rw [ne_eq, ← Int64.toInt_inj] at hne
    rw [← Int64.toInt_inj]
    have hfive : (5 : Int64).toInt = 5 := by decide
    have hsix : (6 : Int64).toInt = 6 := by decide
    omega
  exact hheight ▸ hanswer

/-- The leap second at the very end of the years of an instant. -/
def lastLeap : Instant where
  second := Date.daysBeforeYear 262143 * 86400 - 1
  nano := 0
  leap := true
  nano_lt := Instant.zero.nano_lt
  second_mod_of_leap := by decide
  le_second := by decide
  second_lt := by decide

/-- A chain whose only block is stored at the leap second after which no year is an instant: the
next height is missing and the scan does not tell it. -/
theorem firstMissing_fails_of_last_leap :
    let s := (Step.persist ⟨1, 5, lastLeap⟩ []).next
      ((Step.registerChain ⟨"a-1", "A"⟩).next ∅)
    s.Reachable ∧ s.IndexedAt .txs 1 5 ∧ ¬ s.IndexedAt .txs 1 6 ∧
      ¬ ∃ height after, firstMissing 1 5 6 ⟨s, []⟩ = .ok height after := by
  intro s
  refine ⟨.step (.step .empty _) _, by decide +kernel, by decide +kernel, ?_⟩
  rintro ⟨height, after, hanswer⟩
  have hhighest : s.highestIndexed? .txs 1 =
      some ⟨1, (Block.row ⟨1, 5, lastLeap⟩ .txs)⟩ := by decide +kernel
  rw [firstMissing_of_not_readable hhighest (by decide +kernel)] at hanswer
  cases hanswer

end Store

end BlockArchive
