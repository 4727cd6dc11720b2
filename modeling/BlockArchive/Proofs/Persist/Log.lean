import BlockArchive.Proofs.Persist.Outcome

/-!
# What the log tells of a block

The log of a block tells what has become of it: the stage that has failed, or that the block has
been stored and how much of it. That hashes are repeated and that fees are left out is told after
the block itself, so it is not told where the block itself cannot be stored.

## Main definitions

- `LogEvent.isCount`: the record tells how much has been stored
- `Persist.Opened`: the block itself is stored
- `Persist.Account`: the log tells what has become of a block

## Main statements

- `Step.persist_log`: the log of a block
- `Store.Reachable.persist_account`: what it tells
-/

namespace BlockArchive

open Persist

/-! ## Records -/

namespace LogEvent

/-- The record tells how much has been stored. -/
def isCount : LogEvent → Bool
  | upsertedAddresses .. | upsertedTxes .. | upsertedMessages .. | upsertedEvents ..
  | upsertedAttributes .. => true
  | _ => false

theorem level_of_isCount {event : LogEvent} (h : event.isCount) : event.level = .debug := by
  cases event <;> first | rfl | cases h

theorem message_of_isCount {event : LogEvent} (h : event.isCount) :
    event.message ≠ "Persisted block" := by
  cases event <;> simp [isCount, message] at h ⊢

end LogEvent

namespace Persist

variable {s : Store} {block : Block} {txs unique : List Tx}

theorem mem_remarks {event : LogEvent} :
    event ∈ remarks block txs unique ↔
      block.IsPlaceholder ∧ event = .placeholder block.height ∨
      unique.length ≠ txs.length ∧ event = .repeatedHashes txs.length unique.length ∨
      (unique.flatMap fun tx => tx.fees) ≠ [] ∧
        event = .droppedFees (unique.flatMap fun tx => tx.fees).length block.height := by
  have hif : ∀ (c : Prop) [Decidable c] (other : LogEvent),
      event ∈ (if c then [other] else []) ↔ c ∧ event = other := by
    intro c _ other
    split <;> simp [*]
  simp only [remarks, List.mem_append, hif]
  generalize (unique.flatMap fun tx => tx.fees) = fees
  cases fees <;> simp

theorem of_mem_remarks {event : LogEvent} (h : event ∈ remarks block txs unique) :
    event.level ≠ .error ∧ event.message ≠ "Persisted block" ∧ ¬ event.isCount := by
  rcases mem_remarks.1 h with ⟨_, rfl⟩ | ⟨_, rfl⟩ | ⟨_, rfl⟩ <;>
    simp [LogEvent.level, LogEvent.message, LogEvent.isCount]

/-- What is told of the parts below the block is how much has been stored. -/
theorem isCount_of_parts : ∀ event ∈ (partsBelow block txs).flatMap (·.told), event.isCount := by
  simp [partsBelow, levelParts, LogEvent.isCount]

/-- Neither a failure nor the success is told before the end. -/
theorem filter_log {p : LogEvent → Bool}
    (hp : ∀ event, event.level ≠ .error → event.message ≠ "Persisted block" → p event = false)
    {counted last : List LogEvent} (h : ∀ event ∈ counted, event.isCount) :
    (remarks block txs unique ++ counted ++ last).filter p = last.filter p := by
  rw [List.filter_append, List.append_left_eq_self, List.filter_eq_nil_iff]
  intro event hevent
  have hquiet : event.level ≠ .error ∧ event.message ≠ "Persisted block" := by
    rcases List.mem_append.1 hevent with hremark | hcount
    · exact ⟨(of_mem_remarks hremark).1, (of_mem_remarks hremark).2.1⟩
    · have hlevel := LogEvent.level_of_isCount (h event hcount)
      exact ⟨by rw [hlevel]; decide, LogEvent.message_of_isCount (h event hcount)⟩
  rw [hp event hquiet.1 hquiet.2]
  exact Bool.false_ne_true

/-! ## The stage that fails -/

/-- The block itself is stored: if a stage fails it is one that comes later. -/
def Opened (s : Store) (block : Block) (txs : List Tx) : Prop :=
  ∀ stage fault, failing? s block txs = some (stage, fault) →
    stage ∉ [Stage.clearFailedBlock, .block]

theorem failing?_eq (s : Store) (block : Block) (txs : List Tx) :
    failing? s block txs =
      (report? [] (parts s block txs)).map fun report => (report.stage, report.fault) :=
  (map_report? Prod.mk [] (parts s block txs)).symm

theorem report?_parts (s : Store) (block : Block) (txs : List Tx) :
    report? [] (parts s block txs) =
      ((((timeFault? block).or (chainFault? s block)).map .refused).map
        fun fault => ⟨.block, fault, []⟩).or
      (report? (remarks block txs (Tx.uniqueByHash txs))
        (partsBelow block (Tx.uniqueByHash txs))) := by
  simp only [parts, report?, Option.map_none, Option.none_or, List.nil_append]

/-- Where a stage below the block fails, how much has been stored by then is all that has been told
below the block. -/
theorem of_report?_below {before : List LogEvent} {report : Report}
    (h : report? before (partsBelow block txs) = some report) :
    report.stage ∉ [Stage.clearFailedBlock, .block] ∧
      ∃ counted, report.before = before ++ counted ∧ ∀ event ∈ counted, event.isCount := by
  obtain ⟨done, part, rest, hparts, hstage, hbefore⟩ := exists_of_report? h
  have hbelow : ∀ part ∈ partsBelow block txs,
      part.stage ∉ [Stage.clearFailedBlock, .block] := by
    simp [partsBelow, levelParts]
  refine ⟨hstage ▸ hbelow part (hparts ▸ by simp), _, hbefore, fun event hevent => ?_⟩
  have hmem : event ∈ (partsBelow block txs).flatMap (·.told) := by
    rw [hparts, List.flatMap_append]
    exact List.mem_append_left _ hevent
  exact isCount_of_parts event hmem

end Persist

/-! ## The log of a block -/

namespace Step

variable {s : Store}

/-- A block that cannot be stored is told with the stage that has failed, after all that is told of
the parts before. A block that is stored is told last. -/
theorem persist_report (hs : s.Sound) (block : Block) (txs : List Tx) :
    (∃ report failure, report? [] (parts s block txs) = some report ∧
      report.fault.Tells s failure ∧
      ((persist block txs).outcome s).answer = .error (.repo failure) ∧
      ((persist block txs).outcome s).log =
        report.before ++ [.failedStage report.stage block failure]) ∨
    (report? [] (parts s block txs) = none ∧ (persist block txs).Succeeds s ∧
      ((persist block txs).outcome s).log =
        (parts s block txs).flatMap (·.told) ++ [.persisted block txs.length]) := by
  have hdoes := does_persist block txs
  have hends : Ends (Report.Tells s block) (BlockArchive.persist block txs).exposed { store := s }
      (report? [] (parts s block txs)) fun _ after =>
        after.log = (parts s block txs).flatMap (·.told) ++ [.persisted block txs.length] := by
    have hstages := follows_stages hs block txs (rfl : ({ store := s } : Session).store = s)
    rw [BlockArchive.persist, persistBy, WriteM.exposed_bind]
    apply (WriteM.ends_exposed_transaction hstages).last
    rintro - _ after ⟨_, hlog⟩
    refine Ends.ok (WriteM.exposed_of_ok (WriteM.tells_log rfl after)) ?_
    rw [hlog]
    rfl
  cases hreport : report? [] (parts s block txs) with
  | some report =>
    rw [hreport] at hends
    obtain ⟨failure, after, hpersist, htells, hlog⟩ := WriteM.ends_exposed_some.1 hends
    refine Or.inl ⟨report, failure, rfl, htells, ?_⟩
    rw [hdoes.outcome_of_error hpersist]
    exact ⟨rfl, hlog⟩
  | none =>
    rw [hreport] at hends
    obtain ⟨_, after, hpersist, hlog⟩ := WriteM.ends_exposed_none.1 hends
    obtain ⟨told, houtcome⟩ := hdoes.outcome_of_ok hpersist
    refine Or.inr ⟨rfl, (hdoes.of_ok hpersist).1, ?_⟩
    rw [houtcome]
    exact hlog

/-- The log of a block: where the block itself cannot be stored only that is told; where a later
stage fails it is told after the remarks and some of the counts; and of a block that is stored all
counts are told, and that it is stored. -/
theorem persist_log (hs : s.Sound) (block : Block) (txs : List Tx) :
    (∃ fault failure, failing? s block txs = some (.block, fault) ∧ fault.Tells s failure ∧
      ((persist block txs).outcome s).answer = .error (.repo failure) ∧
      ((persist block txs).outcome s).log = [.failedStage .block block failure]) ∨
    (∃ stage fault failure counted, failing? s block txs = some (stage, fault) ∧
      stage ∉ [Stage.clearFailedBlock, .block] ∧ fault.Tells s failure ∧
      ((persist block txs).outcome s).answer = .error (.repo failure) ∧
      (∀ event ∈ counted, event.isCount) ∧
      ((persist block txs).outcome s).log =
        remarks block txs (Tx.uniqueByHash txs) ++ counted ++
          [.failedStage stage block failure]) ∨
    (failing? s block txs = none ∧ (persist block txs).Succeeds s ∧
      ((persist block txs).outcome s).log =
        remarks block txs (Tx.uniqueByHash txs) ++
          (partsBelow block (Tx.uniqueByHash txs)).flatMap (·.told) ++
            [.persisted block txs.length]) := by
  rw [failing?_eq]
  rcases persist_report hs block txs with
    ⟨report, failure, hreport, htells, hanswer, hlog⟩ | ⟨hreport, hok, hlog⟩
  · rw [hreport]
    rw [report?_parts] at hreport
    cases hblock : (timeFault? block).or (chainFault? s block) with
    | some cause =>
      rw [hblock] at hreport
      cases hreport
      exact Or.inl ⟨_, failure, rfl, htells, hanswer, hlog⟩
    | none =>
      rw [hblock] at hreport
      obtain ⟨hstage, counted, hbefore, hcounted⟩ := of_report?_below hreport
      rw [hbefore] at hlog
      exact Or.inr (Or.inl ⟨_, _, failure, counted, rfl, hstage, htells, hanswer, hcounted, hlog⟩)
  · rw [hreport]
    refine Or.inr (Or.inr ⟨rfl, hok, ?_⟩)
    rw [hlog]
    rfl

end Step

/-! ## What the log tells -/

namespace Persist

/-- The log tells what has become of a block. -/
structure Account (s : Store) (block : Block) (txs : List Tx) (out : Outcome) : Prop where
  /-- A failure is told once, with the stage that has failed, and no success is. -/
  failed : ∀ cause, out.answer = .error cause → ∃ stage fault failure,
    failing? s block txs = some (stage, fault) ∧ fault.Tells s failure ∧ cause = .repo failure ∧
      out.log.filter (·.level = .error) = [.failedStage stage block failure] ∧
      out.log.filter (·.message = "Persisted block") = []
  /-- A success is told once, with the number of transactions that have been given, and no failure
  is. Counted are the different signers, and the transactions, messages, events and attributes that
  survive. -/
  stored : ∀ id, out.answer = .ok id →
    let unique := Tx.uniqueByHash txs
    failing? s block txs = none ∧
      out.log.filter (·.level = .error) = [] ∧
      out.log.filter (·.message = "Persisted block") = [.persisted block txs.length] ∧
      out.log.filter (·.isCount) = [
        .upsertedAddresses (unique.filterMap fun tx => tx.signer).dedup.length block.height,
        .upsertedTxes unique.length block.height,
        .upsertedMessages (unique.flatMap fun tx => tx.messages).length,
        .upsertedEvents
          (unique.flatMap fun tx => tx.messages.flatMap fun message => message.events).length,
        .upsertedAttributes (unique.flatMap fun tx => tx.messages.flatMap fun message =>
          message.events.flatMap fun event => event.attributes).length]
  /-- Once the block itself is stored, it is told if a hash is repeated. -/
  repeats : ∀ n m, .repeatedHashes n m ∈ out.log ↔
    Opened s block txs ∧ ¬ (txs.map (·.hash)).Nodup ∧ n = txs.length ∧
      m = (Tx.uniqueByHash txs).length
  /-- Once the block itself is stored, it is told if a transaction that survives has fees. -/
  fees : ∀ n height, .droppedFees n height ∈ out.log ↔
    Opened s block txs ∧ (∃ tx ∈ Tx.uniqueByHash txs, tx.fees ≠ []) ∧
      n = ((Tx.uniqueByHash txs).flatMap fun tx => tx.fees).length ∧ height = block.height

end Persist

section Account

variable {s : Store}

/-- A warning is told exactly if it is remarked and the block itself is stored. -/
theorem Step.mem_log_of_warn (hs : s.Sound) (block : Block) (txs : List Tx) {event : LogEvent}
    (hwarn : event.level = .warn) :
    event ∈ ((persist block txs).outcome s).log ↔
      Opened s block txs ∧ event ∈ remarks block txs (Tx.uniqueByHash txs) := by
  -- neither the counts nor what is told last is a warning
  have hcounted : ∀ {counted : List LogEvent}, (∀ other ∈ counted, other.isCount) →
      event ∉ counted := by
    intro counted hall hmem
    have hlevel := LogEvent.level_of_isCount (hall event hmem)
    rw [hwarn] at hlevel
    cases hlevel
  have hfailed : ∀ stage failure, event ≠ .failedStage stage block failure := by
    rintro stage failure rfl
    cases hwarn
  have hstored : event ≠ .persisted block txs.length := by
    rintro rfl
    cases hwarn
  rcases persist_log hs block txs with
    ⟨fault, failure, hfailing, _, _, hlog⟩ |
      ⟨stage, fault, failure, counted, hfailing, hstage, _, _, hall, hlog⟩ | ⟨hnone, _, hlog⟩
  · rw [hlog, List.mem_singleton]
    refine iff_of_false (hfailed _ _) fun ⟨hopened, _⟩ => ?_
    exact hopened _ _ hfailing (by decide)
  · have hopened : Opened s block txs := by
      intro other _ hother
      rw [hfailing] at hother
      cases hother
      exact hstage
    simp only [hlog, List.mem_append, List.mem_singleton, hcounted hall, hfailed, hopened, or_false,
      true_and]
  · have hopened : Opened s block txs := by
      intro other _ hother
      rw [hnone] at hother
      cases hother
    simp only [hlog, List.mem_append, List.mem_singleton, hcounted isCount_of_parts, hstored,
      hopened, or_false, true_and]

/-- Whatever store has been reached, the log of a block tells what has become of it: which stage has
failed and why, or that the block is stored and how much of it, and of what has been given that is
not stored once the block itself is. -/
theorem Store.Reachable.persist_account (h : s.Reachable) (block : Block) (txs : List Tx) :
    Account s block txs ((Step.persist block txs).outcome s) where
  failed := by
    intro cause hcause
    rcases Step.persist_log h.sound block txs with
      ⟨fault, failure, hfailing, htells, hanswer, hlog⟩ |
        ⟨stage, fault, failure, counted, hfailing, hstage, htells, hanswer, hall, hlog⟩ |
          ⟨_, ⟨_, hok⟩, _⟩
    · cases hcause.symm.trans hanswer
      refine ⟨_, _, failure, hfailing, htells, rfl, ?_⟩
      rw [hlog]
      exact ⟨rfl, rfl⟩
    · cases hcause.symm.trans hanswer
      refine ⟨_, _, failure, hfailing, htells, rfl, ?_⟩
      rw [hlog, filter_log (fun _ hlevel _ => decide_eq_false hlevel) hall,
        filter_log (fun _ _ hmessage => decide_eq_false hmessage) hall]
      exact ⟨rfl, rfl⟩
    · cases hcause.symm.trans hok
  stored := by
    intro id hid
    rcases Step.persist_log h.sound block txs with
      ⟨_, _, _, _, hanswer, _⟩ | ⟨_, _, _, _, _, _, _, hanswer, _⟩ | ⟨hnone, _, hlog⟩
    · cases hid.symm.trans hanswer
    · cases hid.symm.trans hanswer
    · have hremarks : (remarks block txs (Tx.uniqueByHash txs)).filter (·.isCount) = [] :=
        List.filter_eq_nil_iff.2 fun _ hevent => (of_mem_remarks hevent).2.2
      refine ⟨hnone, ?_⟩
      rw [hlog, filter_log (fun _ hlevel _ => decide_eq_false hlevel) isCount_of_parts,
        filter_log (fun _ _ hmessage => decide_eq_false hmessage) isCount_of_parts,
        List.filter_append, List.filter_append, hremarks, List.filter_eq_self.2 isCount_of_parts]
      exact ⟨rfl, rfl, rfl⟩
  repeats n m := by
    rw [Step.mem_log_of_warn h.sound block txs rfl, mem_remarks, ← Tx.length_uniqueByHash_eq_iff]
    simp
  fees n height := by
    rw [Step.mem_log_of_warn h.sound block txs rfl, mem_remarks]
    simp

end Account

/-- A hash is repeated, and the transaction that goes has another signer, a message and fees of its
own. -/
theorem Store.Reachable.persist_account_of_repeated_hash :
    let send : Message := ⟨"send", 0, [⟨"transfer", 0, [⟨"amount", 0, "5"⟩, ⟨"amount", 1, "7"⟩]⟩]⟩
    let s := (Step.registerChain ⟨"a-1", "A"⟩).next ∅
    let block : Block := ⟨1, 7, Instant.zero⟩
    let txs := [(Tx.new "h1" 0 (some "bob") [send]).withFees [⟨"1", "uatom", none⟩],
      Tx.new "h2" 0 (some "alice") [send],
      (Tx.new "h1" 0 (some "alice") [send, ⟨"vote", 1, []⟩]).withFees
        [⟨"2", "uatom", none⟩, ⟨"3", "uosmo", none⟩]]
    let out := (Step.persist block txs).outcome s
    s.Reachable ∧ Account s block txs out ∧
      out.log.filter (·.isCount) = [.upsertedAddresses 1 7, .upsertedTxes 2 7, .upsertedMessages 3,
        .upsertedEvents 2, .upsertedAttributes 4] ∧
      .repeatedHashes 3 2 ∈ out.log ∧ .droppedFees 2 7 ∈ out.log := by
  intro send s block txs out
  have hs : s.Reachable := .step .empty _
  have haccount : Account s block txs out := hs.persist_account block txs
  have hok : (Step.persist block txs).Succeeds s := by decide +kernel
  obtain ⟨id, hid⟩ := hok
  obtain ⟨hnone, _, _, hcounts⟩ := haccount.stored id hid
  have hopened : Opened s block txs := by
    intro stage fault hfailing
    rw [hnone] at hfailing
    cases hfailing
  refine ⟨hs, haccount, hcounts.trans (by decide +kernel), ?_, ?_⟩
  · exact (haccount.repeats 3 2).2 ⟨hopened, by decide, rfl, by decide +kernel⟩
  · exact (haccount.fees 2 7).2 ⟨hopened, by decide +kernel, by decide +kernel, rfl⟩

/-- Where the chain is not there neither warning is told, though a hash is repeated and a
transaction that survives has a fee. -/
theorem Store.Reachable.persist_account_fails_of_missing_chain :
    let block : Block :=
      ⟨1, 5, 63835596800, 0, false, by decide, by decide, by decide, by decide⟩
    let txs := [Tx.new "h" 0 none [], (Tx.new "h" 0 none []).withFees [⟨"1", "u", none⟩]]
    let out := (Step.persist block txs).outcome ∅
    (∅ : Store).Reachable ∧
      ¬ ((∃ n m, .repeatedHashes n m ∈ out.log) ↔ ¬ (txs.map (·.hash)).Nodup) ∧
      ¬ ((∃ n height, .droppedFees n height ∈ out.log) ↔
        ∃ tx ∈ Tx.uniqueByHash txs, tx.fees ≠ []) := by
  intro block txs out
  have hlog : out.log = [.failedStage .block block
      (.query (.missingReferent .blocks "blockchain_id"))] := by
    decide +kernel
  refine ⟨.empty, fun h => ?_, fun h => ?_⟩
  · obtain ⟨n, m, hmem⟩ := h.2 (by decide)
    rw [hlog, List.mem_singleton] at hmem
    cases hmem
  · obtain ⟨n, height, hmem⟩ := h.2 (by decide +kernel)
    rw [hlog, List.mem_singleton] at hmem
    cases hmem

end BlockArchive
