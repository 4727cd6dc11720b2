import BlockArchive.Proofs.Persist.Written
import BlockArchive.Proofs.Telling

/-!
# The parts of storing a block

A block is stored part by part. Each part belongs to a stage and may have a fault, and when it has
been carried out something is told. Storing the block fails with the fault of the first part that
has one; what has been told by then is what is told of the parts before, and the stage comes last.

## Main definitions

- `Persist.Part`: a part of storing a block
- `Persist.parts`: the parts, in the order in which they are carried out
- `Persist.Report`, `Persist.report?`: the first part with a fault, and what is told before it
- `Persist.Follows`: a step carries out the parts and tells of each

## Main statements

- `Persist.map_fault_report?`: the first fault of the parts is that of the block
- `Persist.exists_of_report?`: the parts before the one that fails
- `Persist.Follows.part`, `Persist.Follows.tells`: a part is carried out, and something is told
-/

namespace BlockArchive

namespace Persist

/-- A part of storing a block. -/
structure Part where
  stage : Stage
  /-- The fault by which the part fails. -/
  fault : Option Fault
  /-- What is told when the part has been carried out. -/
  told : List LogEvent

/-- What is told of the block once it is stored, before what lies below it: that its time is not
known, that hashes are repeated, and that fees are left out. -/
def remarks (block : Block) (txs unique : List Tx) : List LogEvent :=
  let fees := unique.flatMap fun tx => tx.fees
  (if block.IsPlaceholder then [.placeholder block.height] else []) ++
    ((if unique.length ≠ txs.length then [.repeatedHashes txs.length unique.length] else []) ++
      if fees.isEmpty then [] else [.droppedFees fees.length block.height])

/-- The parts of the last stage: the messages, the events and the attributes. -/
def levelParts (txs : List Tx) : List Part :=
  let data := ReferenceData.collect txs
  [{ stage := .messages
     fault := Level.messages.fault? (data.texts .messageType) (messageFamilies txs)
     told := [.upsertedMessages (txs.flatMap fun tx => tx.messages).length] },
   { stage := .messages
     fault := Level.events.fault? (data.texts .eventType) (eventFamilies txs)
     told := [.upsertedEvents
      (txs.flatMap fun tx => tx.messages.flatMap fun message => message.events).length] },
   { stage := .messages
     fault := (Level.attributes.fault? (data.texts .attributeKey) (attributeFamilies txs)).or
      ((unsentFault? (attributeValues txs)).map .refused)
     told := [.upsertedAttributes (txs.flatMap fun tx => tx.messages.flatMap fun message =>
      message.events.flatMap fun event => event.attributes).length] }]

/-- The parts that follow the block itself, if `txs` are the transactions that survive. -/
def partsBelow (block : Block) (txs : List Tx) : List Part :=
  let data := ReferenceData.collect txs
  { stage := .signerAddresses
    fault := (unsentFault? data.signers.toList).map .refused
    told := [.upsertedAddresses (txs.filterMap fun tx => tx.signer).dedup.length block.height] } ::
  { stage := .txes
    fault := (unsentFault? (txs.map (·.hash))).map .refused
    told := [.upsertedTxes txs.length block.height] } ::
  { stage := .referenceData
    fault := (textsFault? (fun texts => (unsentFault? texts).or (repeatFault? texts)) data).map
      .refused
    told := [] } ::
  levelParts txs

/-- The parts of storing a block with its transactions, in the order in which they are carried
out. -/
def parts (s : Store) (block : Block) (txs : List Tx) : List Part :=
  let unique := Tx.uniqueByHash txs
  { stage := .clearFailedBlock, fault := none, told := [] } ::
  { stage := .block
    fault := ((timeFault? block).or (chainFault? s block)).map .refused
    told := remarks block txs unique } ::
  partsBelow block unique

/-- The stage that fails, and its fault. -/
def failing? (s : Store) (block : Block) (txs : List Tx) : Option (Stage × Fault) :=
  (parts s block txs).findSome? fun part => part.fault.map fun fault => (part.stage, fault)

/-! ## Reports -/

/-- Where a block cannot be stored, and why. -/
structure Report where
  stage : Stage
  fault : Fault
  /-- What has been told before. -/
  before : List LogEvent

/-- The first of the parts that has a fault, where something has been told before. -/
def report? (before : List LogEvent) : List Part → Option Report
  | [] => none
  | part :: rest =>
    (part.fault.map fun fault => ⟨part.stage, fault, before⟩).or
      (report? (before ++ part.told) rest)

/-- The failure and the log by which a report is told. -/
def Report.Tells (s : Store) (block : Block) (report : Report)
    (told : Failure × List LogEvent) : Prop :=
  report.fault.Tells s told.1 ∧
    told.2 = report.before ++ [.failedStage report.stage block told.1]

theorem map_report? {α : Type} (tell : Stage → Fault → α) (before : List LogEvent)
    (parts : List Part) :
    (report? before parts).map (fun report => tell report.stage report.fault) =
      parts.findSome? fun part => part.fault.map fun fault => tell part.stage fault := by
  induction parts generalizing before with
  | nil => rfl
  | cons part rest ih =>
    rw [report?, List.findSome?_cons]
    cases part.fault with
    | some fault => rfl
    | none => exact ih _

/-- The fault of the first part that has one is the fault of the block. -/
theorem map_fault_report? (s : Store) (block : Block) (txs : List Tx) (before : List LogEvent) :
    (report? before (parts s block txs)).map (·.fault) = fault? s block (Tx.uniqueByHash txs) := by
  simp only [parts, partsBelow, levelParts, report?, fault?, levelFault?, Option.map_or,
    Option.map_map, Function.comp_def, Option.map_id', Option.map_none, Option.none_or,
    Option.or_none, Option.or_assoc]

/-- The parts before the one that fails have no fault, and have been told of. -/
theorem exists_of_report? {before : List LogEvent} {parts : List Part} {report : Report}
    (h : report? before parts = some report) :
    ∃ done part rest, parts = done ++ part :: rest ∧ part.stage = report.stage ∧
      report.before = before ++ done.flatMap (·.told) := by
  induction parts generalizing before with
  | nil => cases h
  | cons part rest ih =>
    rw [report?] at h
    cases hfault : part.fault with
    | some fault =>
      rw [hfault] at h
      cases h
      exact ⟨[], part, rest, rfl, rfl, by simp⟩
    | none =>
      rw [hfault] at h
      obtain ⟨done, failing, later, rfl, hstage, hbefore⟩ := ih h
      refine ⟨part :: done, failing, later, rfl, hstage, ?_⟩
      rw [hbefore, List.flatMap_cons, List.append_assoc]

/-! ## Steps that follow the plan -/

section Follows

variable {s : Store} {block : Block} {α β γ : Type}

/-- The step tells the records that are due, carries out the parts and tells of each. It fails with
the fault of the first part that has one, and then the stage of that part is told last. -/
def Follows (s : Store) (block : Block) (step : WriteM α) (session : Session)
    (due : List LogEvent) (parts : List Part) (Q : α → Store → Prop) : Prop :=
  Ends (Report.Tells s block) step.exposed session (report? (session.log ++ due) parts)
    fun answer after => Q answer after.store ∧
      after.log = session.log ++ due ++ parts.flatMap (·.told)

namespace Follows

variable {session : Session} {due : List LogEvent} {rest : List Part} {P : β → Store → Prop}

/-- Something that is due is told. -/
theorem tells {told : List LogEvent} {x : WriteM Unit} {f : Unit → WriteM β}
    (hx : x.Tells told)
    (hf : ∀ after, after.store = session.store → Follows s block (f ()) after due rest P) :
    Follows s block (x >>= f) session (told ++ due) rest P := by
  have htold : Ends (Report.Tells s block) x.exposed session none
      fun _ after => after = { session with log := session.log ++ told } :=
    Ends.ok (WriteM.exposed_of_ok (hx session)) rfl
  rw [Follows, WriteM.exposed_bind, ← List.append_assoc]
  apply htold.next
  rintro _ _ rfl
  exact hf _ rfl

/-- A part is carried out: it fails with its fault, or what is told of it is due. -/
theorem part {stage : Stage} {fault : Option Fault} {told : List LogEvent} {x : WriteM α}
    {f : α → WriteM β} {Q : α → Session → Prop} (hx : Ends (Fault.Tells s) x session fault Q)
    (hsilent : x.Silent)
    (hf : ∀ answer after, Q answer after → Follows s block (f answer) after told rest P) :
    Follows s block (WriteM.stage stage block x >>= f) session []
      (⟨stage, fault, told⟩ :: rest) P := by
  have hstage : Ends (Report.Tells s block) (WriteM.stage stage block x).exposed session
      (fault.map fun fault => ⟨stage, fault, session.log⟩)
      fun answer after => Q answer after ∧ after.log = session.log := by
    have hsilent := hsilent session
    cases fault with
    | some fault =>
      obtain ⟨failure, after, herror, htells⟩ := hx
      have hlog : after.log = session.log := by rwa [herror] at hsilent
      have hfails : WriteM.stage stage block x session = .error failure
          { after with log := session.log ++ [.failedStage stage block failure] } := by
        rw [WriteM.stage, WriteM.onFailure, herror, ← hlog]
      exact Ends.error (WriteM.exposed_of_error hfails) ⟨htells, rfl⟩
    | none =>
      obtain ⟨answer, after, hok, hQ⟩ := hx
      have hlog : after.log = session.log := by rwa [hok] at hsilent
      have hstage : WriteM.stage stage block x session = .ok answer after := by
        rw [WriteM.stage, WriteM.onFailure, hok]
      exact Ends.ok (WriteM.exposed_of_ok hstage) ⟨hQ, hlog⟩
  rw [Follows, WriteM.exposed_bind, List.append_nil, report?]
  apply hstage.bind
  rintro - answer after ⟨hQ, hlog⟩
  have hnext := hf answer after hQ
  rw [Follows, hlog] at hnext
  rw [List.flatMap_cons, ← List.append_assoc]
  exact hnext

/-- A part of a stage is carried out, and the stage goes on. -/
theorem partOfStage {stage : Stage} {fault : Option Fault} {told : List LogEvent} {x : WriteM γ}
    {y : γ → WriteM α} {f : α → WriteM β} {Q : α → Session → Prop}
    (hxy : Ends (Fault.Tells s) (x >>= y) session fault Q) (hsilent : WriteM.Silent (x >>= y))
    (hf : ∀ answer after, Q answer after →
      Follows s block (WriteM.stage stage block (f answer)) after told rest P) :
    Follows s block (WriteM.stage stage block (x >>= fun a => y a >>= f)) session []
      (⟨stage, fault, told⟩ :: rest) P := by
  rw [← bind_assoc, WriteM.stage_bind]
  exact part hxy hsilent hf

/-- All that is due is told. -/
theorem tellsAll {told : List LogEvent} {x : WriteM Unit} {f : Unit → WriteM β} (hx : x.Tells told)
    (hf : ∀ after, after.store = session.store → Follows s block (f ()) after [] rest P) :
    Follows s block (x >>= f) session told rest P := by
  rw [← List.append_nil told]
  exact tells hx hf

/-- All that is due is told within a stage, and the stage goes on. -/
theorem tellsInStage {stage : Stage} {told : List LogEvent} {x : WriteM Unit} {f : Unit → WriteM β}
    (hx : x.Tells told)
    (hf : ∀ after, after.store = session.store →
      Follows s block (WriteM.stage stage block (f ())) after [] rest P) :
    Follows s block (WriteM.stage stage block (x >>= f)) session told rest P := by
  rw [WriteM.stage_bind]
  exact tellsAll (hx.stage stage block) hf

/-- What is due is told last. -/
theorem tellsLast {told : List LogEvent} {x : WriteM Unit} {P : Unit → Store → Prop}
    (hx : x.Tells told) (hP : P () session.store) : Follows s block x session told [] P := by
  refine Ends.ok (WriteM.exposed_of_ok (hx session)) ⟨hP, ?_⟩
  rw [List.flatMap_nil, List.append_nil]

/-- A step that follows a plan fails with the fault of the first part that has one. -/
theorem ends {step : WriteM β} {parts : List Part} (h : Follows s block step session due parts P) :
    Ends (Fault.Tells s) step session ((report? (session.log ++ due) parts).map (·.fault))
      fun answer after => P answer after.store := by
  refine ((WriteM.ends_of_exposed h).map Report.fault ?_).mono fun _ _ _ hQ => hQ.1
  rintro report failure ⟨log, htells, -⟩
  exact htells

end Follows

end Follows

end Persist

end BlockArchive
