import BlockArchive.Proofs.Persist.Run
import BlockArchive.Proofs.Writing
import Mathlib.Data.String.Basic

/-!
# The answer to a block

A block whose time and texts can be sent is stored exactly if it fits. Otherwise the answer is its
first defect: the missing chain, the first kind with two texts that are the same, and then the first
defect of the messages, of the events and of the attributes, of which a level counts only when all
levels above it are without one. Two texts are a defect only where one statement sends both.

## Main definitions

- `crowdedTx`: a transaction that has one text in two statements

## Main statements

- `Step.persist_cases`: the answer to a block and the store after it
- `Store.Reachable.persist_answer`: when a block is stored, and why it is not
- `Store.Reachable.persist_answer_fails_of_distant_repeat`: a text in two statements is no defect
-/

namespace BlockArchive

open Persist

namespace Step

variable {block : Block} {txs : List Tx} {s : Store}

/-- A block without a fault is stored, and one with a fault leaves all rows as they were. -/
theorem persist_cases (hs : s.Sound) (block : Block) (txs : List Tx) :
    (fault? s block (Tx.uniqueByHash txs) = none ∧ (persist block txs).Succeeds s ∧
      Stored block (Tx.uniqueByHash txs) s ((persist block txs).next s)) ∨
    (∃ fault failure, fault? s block (Tx.uniqueByHash txs) = some fault ∧ fault.Tells s failure ∧
      ((persist block txs).outcome s).answer = .error (.repo failure) ∧
      ∃ t, (persist block txs).next s = s.rollback t) := by
  have hdoes := does_persist block txs
  have hsession : ({ store := s } : Session).store = s := rfl
  have hends := ends_persist hs block txs hsession
  cases hfault : fault? s block (Tx.uniqueByHash txs) with
  | none =>
    rw [hfault] at hends
    obtain ⟨_, after, hpersist, hstored⟩ := hends
    obtain ⟨hok, hnext⟩ := hdoes.of_ok hpersist
    exact Or.inl ⟨rfl, hok, hnext ▸ hstored⟩
  | some fault =>
    rw [hfault] at hends
    obtain ⟨failure, after, hpersist, htells⟩ := hends
    obtain ⟨hanswer, hnext⟩ := hdoes.of_error hpersist
    obtain ⟨t, ht⟩ := WriteM.rollback_of_logged hpersist
    exact Or.inr ⟨fault, failure, rfl, htells, hanswer, t, hnext.trans ht⟩

theorem succeeds_persist_iff (hs : s.Sound) :
    (persist block txs).Succeeds s ↔ fault? s block (Tx.uniqueByHash txs) = none :=
  ((does_persist block txs).ends (ends_persist hs block txs rfl)).1

theorem stored_of_succeeds (hs : s.Sound) (h : (persist block txs).Succeeds s) :
    Stored block (Tx.uniqueByHash txs) s ((persist block txs).next s) := by
  rw [succeeds_persist_iff hs] at h
  rcases persist_cases hs block txs with ⟨_, _, hstored⟩ | ⟨fault, _, hfault, _⟩
  · exact hstored
  · rw [h] at hfault
    cases hfault

end Step

/-- A block whose time and texts can be sent is stored exactly if it fits: the chain is there, no
two texts that one statement sends are the same, every text that is used is brought along, and no
two messages of a transaction, events of a message or attributes of an event share their index.
Otherwise it fails with its first defect. -/
theorem Store.Reachable.persist_answer {s : Store} (h : s.Reachable) {block : Block} {txs : List Tx}
    (haccepted : Accepted block (Tx.uniqueByHash txs)) :
    ((Step.persist block txs).Succeeds s ↔ Fits s block (Tx.uniqueByHash txs)) ∧
      (¬ Fits s block (Tx.uniqueByHash txs) →
        ∃ fault failure, defect? s block (Tx.uniqueByHash txs) = some fault ∧
          fault.Tells s failure ∧
          ((Step.persist block txs).outcome s).answer = .error (.repo failure)) := by
  have hfault := fault?_of_accepted (s := s) haccepted
  constructor
  · rw [Step.succeeds_persist_iff h.sound, hfault, defect?_eq_none]
  · intro hfits
    rcases Step.persist_cases h.sound block txs with ⟨hnone, _⟩ |
      ⟨fault, failure, hsome, htells, hanswer, _⟩
    · rw [hfault, defect?_eq_none] at hnone
      exact absurd hnone hfits
    · exact ⟨fault, failure, by rw [← hfault, hsome], htells, hanswer⟩

/-- A message that claims a taken place counts before an event without a type in an earlier
transaction. -/
theorem Store.Reachable.persist_answer_of_repeated_message :
    let s := (Step.registerChain ⟨"a-1", "A"⟩).next ∅
    let block : Block := ⟨1, 7, Instant.zero⟩
    let first : Tx :=
      { Tx.new "h1" 0 none [⟨"send", 0, [⟨"transfer", 0, []⟩]⟩] with eventTypes := ∅ }
    let second := Tx.new "h2" 0 (some "alice") [⟨"send", 0, []⟩, ⟨"vote", 0, []⟩]
    ∃ fault failure, Persist.defect? s block (Tx.uniqueByHash [first, second]) = some fault ∧
      fault.Tells s failure ∧
      ((Step.persist block [first, second]).outcome s).answer = .error (.repo failure) ∧
      failure = .duplicateIndex "message" "2/0" := by
  intro s block first second
  have hs : s.Reachable := .step .empty _
  have haccepted : Persist.Accepted block (Tx.uniqueByHash [first, second]) := by
    refine ⟨by decide +kernel, by decide +kernel, by decide +kernel, fun kind => ?_,
      by decide +kernel⟩
    cases kind <;> decide +kernel
  have hfits : ¬ Persist.Fits s block (Tx.uniqueByHash [first, second]) := by
    intro h
    have hmessages := (h.messages second (by decide +kernel)).2
    exact absurd hmessages (by decide +kernel)
  obtain ⟨fault, failure, hdefect, htells, hanswer⟩ := (hs.persist_answer haccepted).2 hfits
  refine ⟨fault, failure, hdefect, htells, hanswer, ?_⟩
  have hrun : ((Step.persist block [first, second]).outcome s).answer =
      .error (.repo (.duplicateIndex "message" "2/0")) := by decide +kernel
  rw [hanswer] at hrun
  cases hrun
  rfl

/-! ## A text in two statements -/

/-- Texts of one character, in ascending order. -/
def charText (i : Nat) : String :=
  String.singleton (Char.ofNat (0x10000 + i))

section CharText

variable {size i j : Nat} (hsize : size ≤ maxValues)

theorem toNat_charText (h : i ≤ maxValues) : (Char.ofNat (0x10000 + i)).toNat = 0x10000 + i := by
  -- these code points lie above those that stand for no character
  rw [maxValues] at h
  rw [Char.ofNat, dif_pos (Or.inr (by omega))]
  rfl

theorem charText_lt (hij : i < j) (hj : j ≤ maxValues) : charText i < charText j := by
  rw [String.lt_iff_toList_lt, charText, charText, String.toList_singleton,
    String.toList_singleton, List.cons_lt_cons_iff, Char.lt_def, UInt32.lt_iff_toNat_lt,
    Char.toNat_val, Char.toNat_val, toNat_charText (by omega), toNat_charText hj]
  exact Or.inl (by omega)

theorem not_hasZero_charText (h : i ≤ maxValues) : ¬ HasZero (charText i) := by
  rw [HasZero, charText, String.toList_singleton, List.mem_singleton]
  intro he
  have hzero := congrArg Char.toNat he
  rw [toNat_charText h] at hzero
  have : '\x00'.toNat = 0 := rfl
  omega

/-- A text under each of `size + 1` keys, of which the first and the last have the same text. -/
def textsInCircle (size : Nat) : TextMap :=
  .ofList ((List.range (size + 1)).map fun i => (charText i, charText (i % size)))

include hsize

theorem values_textsInCircle :
    (textsInCircle size).values = (List.range size).map charText ++ [charText 0] := by
  have hascending : ((List.range (size + 1)).map
      fun i => (charText i, charText (i % size))).Pairwise fun a b => compare a.1 b.1 = .lt := by
    rw [List.pairwise_map]
    refine List.pairwise_lt_range.imp_of_mem fun {i j} _ hj hlt => ?_
    rw [List.mem_range] at hj
    exact compareOfLessAndEq_eq_lt.2 (charText_lt hlt (by omega))
  have hfront : (List.range size).map (fun i => charText (i % size)) =
      (List.range size).map charText := by
    apply List.map_congr_left
    intro i hi
    rw [Nat.mod_eq_of_lt (List.mem_range.1 hi)]
  rw [OrderedMap.values_eq_map_toList, textsInCircle,
    OrderedMap.toList_ofList_of_ascending hascending, List.map_map, List.range_succ,
    List.map_append, List.map_singleton]
  -- the last key comes round to the first text
  show (List.range size).map (fun i => charText (i % size)) ++ [charText (size % size)] = _
  rw [hfront, Nat.mod_self]

theorem nodup_charTexts : ((List.range size).map charText).Nodup := by
  rw [List.Nodup, List.pairwise_map]
  refine List.pairwise_lt_range.imp_of_mem fun {i j} _ hj hlt => ?_
  rw [List.mem_range] at hj
  exact ne_of_lt (charText_lt hlt (by omega))

end CharText

/-- A transaction whose attribute keys need two statements, with one text in each of them. -/
def crowdedTx (messages : List Message) : Tx :=
  ⟨"h", 0, none, [], messages, ∅, ∅, textsInCircle maxValues⟩

section CrowdedTx

variable (messages : List Message)

/-- What the transaction brings along. -/
theorem texts_crowdedTx (kind : ReferenceKind) :
    (ReferenceData.collect [crowdedTx messages]).texts kind =
      if kind = .attributeKey then (List.range maxValues).map charText ++ [charText 0] else [] := by
  rw [ReferenceData.collect_singleton]
  cases kind
  case attributeKey =>
    have htexts : (ReferenceData.ofTx (crowdedTx messages)).texts .attributeKey =
        (textsInCircle maxValues).values := rfl
    rw [if_pos rfl, htexts, values_textsInCircle (Nat.le_refl maxValues)]
  all_goals rfl

/-- The text stands in the first part and in the second. -/
theorem statements_crowdedTx :
    ReferenceKind.attributeKey.statements
        ((ReferenceData.collect [crowdedTx messages]).texts .attributeKey) =
      [(List.range maxValues).map charText, [charText 0]] := by
  have hfront : ((List.range maxValues).map charText).length = maxValues := by
    rw [List.length_map, List.length_range]
  have hne : (List.range maxValues).map charText ≠ [] := by
    rw [← List.length_pos_iff, hfront]
    decide
  have hrows : ReferenceKind.attributeKey.table.rowsPerStatement = maxValues := by decide
  rw [texts_crowdedTx, if_pos rfl, ReferenceKind.statements, hrows, cut_append hne hfront, cut_cons,
    List.take_nil, List.drop_nil, cut_nil]

theorem textsFault?_crowdedTx :
    textsFault? repeatFault? (ReferenceData.collect [crowdedTx messages]) = none := by
  rw [textsFault?_eq_none]
  intro kind part hpart
  rw [repeatFault?_eq_none]
  cases kind
  case attributeKey =>
    rw [statements_crowdedTx] at hpart
    rcases List.mem_pair.1 hpart with hpart | hpart
    · rw [hpart]
      exact nodup_charTexts (Nat.le_refl maxValues)
    · rw [hpart]
      exact List.nodup_singleton _
  all_goals
    have hsub := ReferenceKind.sublist_of_mem_statements hpart
    rw [texts_crowdedTx, if_neg (by decide)] at hsub
    exact List.nodup_nil.sublist hsub

theorem not_nodup_crowdedTx :
    ¬ ((ReferenceData.collect [crowdedTx messages]).texts .attributeKey).Nodup := by
  rw [texts_crowdedTx, if_pos rfl]
  intro h
  have hmem : charText 0 ∈ (List.range maxValues).map charText :=
    List.mem_map_of_mem (List.mem_range.2 (by decide))
  exact (List.nodup_append.1 h).2.2 _ hmem _ List.mem_cons_self rfl

theorem accepted_crowdedTx {block : Block} (htime : block.time.toTimestamp.InRange)
    (hmessages : ∀ message ∈ messages, message.events = []) :
    Accepted block [crowdedTx messages] := by
  refine ⟨htime, ?_, ?_, ?_, ?_⟩
  · rw [List.forall_mem_singleton]
    show ¬ HasZero "h"
    decide
  · rw [List.forall_mem_singleton]
    rintro address ⟨⟩
  · intro kind text htext
    rw [texts_crowdedTx] at htext
    split at htext
    · rcases List.mem_append.1 htext with hmem | hmem
      · obtain ⟨i, hi, rfl⟩ := List.mem_map.1 hmem
        exact not_hasZero_charText (List.mem_range.1 hi).le
      · rw [List.mem_singleton.1 hmem]
        exact not_hasZero_charText (Nat.zero_le _)
    · cases htext
  · rw [List.forall_mem_singleton]
    intro message hmessage event hevent
    rw [hmessages message hmessage] at hevent
    cases hevent

/-- The transaction has no defect but those of its messages. -/
theorem defect?_crowdedTx {s : Store} {block : Block} (hchain : block.chain ∈ s.chains.rows) :
    defect? s block [crowdedTx messages] =
      levelFault? (ReferenceData.collect [crowdedTx messages]) [crowdedTx messages] := by
  simp only [defect?, chainFault?, if_pos hchain, textsFault?_crowdedTx, Option.map_none,
    Option.none_or]

end CrowdedTx

/-- Two attribute keys of a block are the same, but they are sent in different statements. So the
block is stored, or it fails with a later defect. -/
theorem Store.Reachable.persist_answer_fails_of_distant_repeat :
    let s := (Step.registerChain ⟨"c", "C"⟩).next ∅
    let block : Block := ⟨1, 5, { Instant.zero with nano := 1000, nano_lt := by decide }⟩
    s.Reachable ∧
    (Accepted block (Tx.uniqueByHash [crowdedTx []]) ∧
      ¬ ((ReferenceData.collect (Tx.uniqueByHash [crowdedTx []])).texts .attributeKey).Nodup ∧
      (Step.persist block [crowdedTx []]).Succeeds s) ∧
    (Accepted block (Tx.uniqueByHash [crowdedTx [⟨"m", 0, []⟩]]) ∧
      ¬ ((ReferenceData.collect (Tx.uniqueByHash [crowdedTx [⟨"m", 0, []⟩]])).texts
        .attributeKey).Nodup ∧
      ((Step.persist block [crowdedTx [⟨"m", 0, []⟩]]).outcome s).answer =
        .error (.repo (.unregisteredReference .messageType "m"))) := by
  intro s block
  have hs : s.Reachable := .step .empty _
  have hchain : block.chain ∈ s.chains.rows := by decide +kernel
  have htime : block.time.toTimestamp.InRange := by decide +kernel
  have hfault : ∀ messages : List Message, (∀ message ∈ messages, message.events = []) →
      fault? s block (Tx.uniqueByHash [crowdedTx messages]) =
        levelFault? (ReferenceData.collect [crowdedTx messages]) [crowdedTx messages] := by
    intro messages hmessages
    rw [Tx.uniqueByHash_singleton, fault?_of_accepted (accepted_crowdedTx messages htime hmessages),
      defect?_crowdedTx messages hchain]
  simp only [Tx.uniqueByHash_singleton]
  refine ⟨hs, ⟨?_, not_nodup_crowdedTx _, ?_⟩, ?_, not_nodup_crowdedTx _, ?_⟩
  · exact accepted_crowdedTx [] htime (by simp)
  · rw [Step.succeeds_persist_iff hs.sound, hfault [] (by simp)]
    rfl
  · exact accepted_crowdedTx _ htime (by simp)
  · rcases Step.persist_cases hs.sound block [crowdedTx [⟨"m", 0, []⟩]] with ⟨hnone, _⟩ |
      ⟨fault, failure, hsome, htells, hanswer, _⟩
    · rw [hfault _ (by simp)] at hnone
      cases hnone
    · rw [hfault _ (by simp)] at hsome
      have hfirst : fault = .unregistered .messageType "m" := (Option.some.inj hsome).symm
      rw [hfirst] at htells
      rw [hanswer, htells]

end BlockArchive
