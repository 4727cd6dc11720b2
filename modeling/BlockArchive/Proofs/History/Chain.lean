import BlockArchive.Proofs.Subtree

/-!
# The history of a chain

A chain is registered by every step that names it: by one that asks for its id, by one that marks a
height of it, and by one that sets the archive up for it. From the first of these steps to the one
that takes the chain out, all of them tell the same id, and the name stays that of the first.

## Main definitions

- `Step.named?`: the chain that a step names
- `Moment.Registers`, `Moment.resolved?`: a step registers a chain, and the id that it tells
- `Unregistered`: a text that no chain has after the steps of a run

## Main statements

- `Moment.findChain?_registered`: the chain that a step registers, and the id that it tells
- `Moment.findChain?_removed`, `Moment.findChain?_next`: what other steps do to the chain of a text
- `Store.findChain?_eq_none_iff`: the texts that no chain has after a run
- `Store.chains_follow_history`: the ids and the names of the chains of a run
-/

namespace BlockArchive

/-- The chain that the step names, and that it registers if it succeeds. -/
def Step.named? : Step → Option Chain
  | registerChain chain | markFailed _ chain _ => some chain
  | setup _ config => config.chain
  | _ => none

/-- No other chain is offered by the step. -/
theorem Step.named?_of_offers {step : Step} {row : Chain} (h : step.Offers .chains row) :
    step.named? = some row := by
  cases step with
  | registerChain => exact congrArg some (Eq.symm h)
  | markFailed pipeline => cases pipeline <;> exact congrArg some (Eq.symm h)
  | setup => exact h
  | _ => simp [Offers] at h

/-- The id of a chain that a record tells with a height that is to be tried again. -/
def LogEvent.markedId? : LogEvent → Option Id
  | markedFailed _ chain _ => some chain
  | _ => none

namespace Moment

/-- The step succeeds and names the chain. -/
def Registers (m : Moment) (chain : Chain) : Prop :=
  m.Succeeds ∧ m.step.named? = some chain

instance (m : Moment) (chain : Chain) : Decidable (m.Registers chain) :=
  inferInstanceAs (Decidable (m.step.Succeeds m.store ∧ _))

/-- The id that the step tells of the chain that it names: in its answer or, where it marks a
height, in the record of it. -/
def resolved? (m : Moment) : Option Id :=
  match m.step with
  | .markFailed _ _ _ => (m.step.outcome m.store).log.findSome? LogEvent.markedId?
  | _ => (m.step.outcome m.store).answer.toOption.join

/-- The step registers a chain under the text, whatever its name. -/
def RegistersText (m : Moment) (chainId : String) : Prop :=
  ∃ chain, m.Registers chain ∧ chain.chainId = chainId

end Moment

/-- No chain has the text after these moments: of those that register it or take its chain out, the
last one takes it out, or there are none. -/
def Unregistered (chainId : String) (history : List Moment) : Prop :=
  ∀ m, IsLatest (fun m => m.RegistersText chainId ∨ m.step = .removeChain chainId) m history →
    ¬ m.RegistersText chainId

variable {s : Store} {chain : Chain}

/-! ## Setting up -/

section SettingUp

variable {connection : Except String Unit} {config : Config} {session after : Session}

/-- Connecting changes nothing. -/
theorem session_of_connect (h : connect connection session = .ok () after) :
    after = session := by
  unfold connect at h
  split at h
  · cases h
    rfl
  · cases h

/-- An archive that is set up has the configured chain registered. -/
theorem ok_of_setup (hchain : config.chain = some chain) {answer : Option Id}
    (h : setup connection config session = .ok answer after) :
    ∃ id registered, registerChain chain session = .ok id registered ∧ answer = some id ∧
      after.store = registered.store := by
  unfold setup at h
  cases hvalid : config.validate with
  | error cause =>
    rw [hvalid] at h
    cases h
  | ok =>
    rw [hvalid] at h
    obtain ⟨_, connected, hconnect, hrest⟩ := exists_of_bind h
    cases session_of_connect hconnect
    obtain ⟨told, registered, hregister, hlog⟩ := exists_of_bind hrest
    have hregister := SetupM.ok_of_ofWrite hregister
    rw [hchain] at hregister
    obtain ⟨id, middle, hid, hpure⟩ := exists_of_bind hregister
    cases hpure
    cases hlog
    exact ⟨id, registered, hid, rfl, rfl⟩

/-- Setting up that fails leaves the chains as they were. -/
theorem chains_of_setup {cause : ArchiveError}
    (h : setup connection config session = .error cause after) :
    after.store.chains.rows = session.store.chains.rows := by
  unfold setup at h
  cases hvalid : config.validate with
  | error cause =>
    rw [hvalid] at h
    cases h
    rfl
  | ok =>
    rw [hvalid] at h
    rcases error_of_bind h with hconnect | ⟨_, connected, hconnect, hrest⟩
    · unfold connect at hconnect
      split at hconnect <;> cases hconnect
      rfl
    · cases session_of_connect hconnect
      rcases error_of_bind hrest with hregister | ⟨_, _, _, hlog⟩
      · obtain ⟨failure, hregister⟩ := SetupM.error_of_ofWrite hregister
        cases hchain : config.chain with
        | none =>
          rw [hchain] at hregister
          cases hregister
        | some chain =>
          rw [hchain] at hregister
          rcases error_of_bind hregister with hfails | ⟨_, _, _, hpure⟩
          · exact rows_of_registerChain hfails .chains
          · cases hpure
      · cases hlog

end SettingUp

/-! ## Steps that register a chain -/

/-- A marker that comes leaves the chains alone. -/
theorem leaves_addMarker (pipeline : Pipeline) (marker : MarkerRow) :
    Moves (Store.Leaves .chains) (addMarker pipeline marker) := by
  apply (Store.statementRelation_leaves .chains).addMarker pipeline
  cases pipeline <;> decide

/-- A height is marked once its chain has been registered, and what is told to the log is the id of
the chain. -/
theorem ok_of_markFailed {pipeline : Pipeline} {height : Int64} {session after : Session}
    (h : markFailed pipeline chain height session = .ok () after) :
    ∃ id registered, registerChain chain session = .ok id registered ∧
      after.store.chains = registered.store.chains ∧
      after.log = registered.log ++ [.markedFailed pipeline id height] := by
  obtain ⟨told, marked, htransaction, hlog⟩ := exists_of_bind h
  obtain ⟨id, registered, hregister, hrest⟩ :=
    exists_of_bind (WriteM.ok_of_transaction htransaction)
  obtain ⟨_, middle, hadd, hend⟩ := exists_of_bind hrest
  obtain ⟨hadded, hsilent⟩ := WriteM.ok_of_query hadd
  cases hend
  cases hlog
  exact ⟨told, registered, hregister, (leaves_addMarker pipeline _).of_ok hadded,
    congrArg (· ++ _) hsilent⟩

namespace Moment

variable {m : Moment}

/-- The chain is offered, and the id under which it is stored is told. -/
theorem offer_of_registers (h : m.Registers chain) :
    m.next.chains = (m.store.offer .chains [chain]).chains ∧
      m.resolved? = some (m.store.chains.offer TableName.chains.key TableName.chains.refresh
        chain).1.id := by
  obtain ⟨s, step⟩ := m
  obtain ⟨hok, hnamed⟩ := h
  obtain ⟨answer, after, hrun, houtcome⟩ := Step.exists_run hok
  have hnext : next ⟨s, step⟩ = after.store := congrArg Outcome.store houtcome
  rw [hnext]
  cases step with
  | registerChain named =>
    cases hnamed
    obtain ⟨id, registered, hregister, hpure⟩ := exists_of_bind hrun
    obtain ⟨hid, hstore, _⟩ := ok_of_registerChain (SetupM.ok_of_ofWrite hregister)
    cases hpure
    refine ⟨congrArg Store.chains hstore, ?_⟩
    rw [resolved?, houtcome, hid]
    rfl
  | markFailed pipeline named height =>
    cases hnamed
    obtain ⟨_, marked, hmark, hpure⟩ := exists_of_bind hrun
    obtain ⟨id, registered, hregister, hkept, hlog⟩ :=
      ok_of_markFailed (SetupM.ok_of_ofWrite hmark)
    obtain ⟨hid, hstore, hsilent⟩ := ok_of_registerChain hregister
    cases hpure
    refine ⟨hkept.trans (congrArg Store.chains hstore), ?_⟩
    rw [resolved?, houtcome]
    show after.log.findSome? _ = _
    rw [hlog, hsilent]
    exact congrArg some hid
  | setup connection config =>
    obtain ⟨id, registered, hregister, rfl, hafter⟩ := ok_of_setup hnamed hrun
    obtain ⟨hid, hstore, _⟩ := ok_of_registerChain hregister
    refine ⟨congrArg Store.chains (hafter.trans hstore), ?_⟩
    rw [resolved?, houtcome, hid]
    rfl
  | _ => cases hnamed

/-- A chain that is registered is found under the id that is told. It is the one that has the text
already or, if there is none, the one that is named. -/
theorem findChain?_registered (hs : m.store.Sound) (h : m.Registers chain) :
    let entry := (m.store.findChain? chain.chainId).getD ⟨m.store.chains.nextId, chain⟩
    m.next.findChain? chain.chainId = some entry ∧ m.resolved? = some entry.id := by
  intro entry
  obtain ⟨hchains, hresolved⟩ := offer_of_registers h
  have hfind := Store.find?_offer_chain hs chain chain.chainId
  rw [if_pos rfl, ← m.store.findChain?_eq] at hfind
  have hoffered : some (m.store.chains.offer TableName.chains.key TableName.chains.refresh
      chain).1 = some entry :=
    (Store.find?_offer_singleton hs .chains chain).symm.trans hfind
  refine ⟨?_, ?_⟩
  · rw [Store.findChain?_eq, Store.find?_congr (n := .chains) hchains, hfind]
  · rw [hresolved, Option.some.inj hoffered]

/-! ## All other steps -/

/-- A step that names a chain and fails leaves the chains as they were. -/
theorem chains_of_fails (hnamed : m.step.named? = some chain) (hfails : ¬ m.Succeeds) :
    m.next.chains.rows = m.store.chains.rows := by
  obtain ⟨s, step⟩ := m
  cases step with
  | registerChain named =>
    have hw : (Step.registerChain named).Writes := trivial
    exact Step.rows_next hw hfails .chains
  | markFailed pipeline named height =>
    have hw : (Step.markFailed pipeline named height).Writes := trivial
    exact Step.rows_next hw hfails .chains
  | setup connection config =>
    cases hrun : setup connection config { store := s } with
    | ok answer after =>
      refine absurd ⟨answer, ?_⟩ hfails
      rw [Step.outcome, Step.run, hrun]
    | error cause after =>
      show (Step.outcome (.setup connection config) s).store.chains.rows = s.chains.rows
      rw [Step.outcome, Step.run, hrun]
      exact chains_of_setup hrun
  | _ => cases hnamed

/-- The chain of a text stays as it is unless the text is registered or its chain is taken out. -/
theorem findChain?_next (hs : m.store.Sound) {chainId : String}
    (hregisters : ¬ m.RegistersText chainId) (hstays : m.step ≠ .removeChain chainId) :
    m.next.findChain? chainId = m.store.findChain? chainId := by
  by_cases hfailed : ∃ chain, m.step.named? = some chain ∧ ¬ m.Succeeds
  · obtain ⟨chain, hnamed, hfails⟩ := hfailed
    have hrows := chains_of_fails hnamed hfails
    simp only [Store.findChain?, Table.find?, Table.entries, hrows]
  rw [Store.findChain?_eq, Store.findChain?_eq]
  refine Step.find?_next hs (fun row hoffers hkey => ?_) fun entry hentry hkey htakes => ?_
  · have hnamed := Step.named?_of_offers hoffers
    have hok : m.Succeeds := by_contra fun hfails => hfailed ⟨row, hnamed, hfails⟩
    exact hregisters ⟨row, ⟨hok, hnamed⟩, Key.text.inj hkey⟩
  · obtain ⟨s, step⟩ := m
    cases step with
    | removeChain removedId =>
      obtain ⟨removed, hremoved, hid⟩ := htakes
      obtain ⟨hmem, rfl⟩ := hs.findChain?_eq_some.1 hremoved
      cases Table.eq_of_mem_entries hentry hmem hid
      exact hstays (congrArg Step.removeChain (Key.text.inj hkey))
    | _ => exact htakes

/-- No chain has a text whose chain is taken out. -/
theorem findChain?_removed (hs : m.store.Sound) {chainId : String}
    (hstep : m.step = .removeChain chainId) : m.next.findChain? chainId = none := by
  obtain ⟨s, step⟩ := m
  cases hstep
  cases hchain : s.findChain? chainId with
  | none =>
    have hdelete := hs.deleteChain_eq chainId
    rw [Store.deleteChain_of_find?_none hchain] at hdelete
    injection hdelete with _ hsame
    show ((Step.removeChain chainId).next s).findChain? chainId = none
    rw [← hsame, hchain]
  | some chain =>
    have hnext := (Step.keeps_next (.removeChain chainId) s hs).1
    exact (Step.next_removeChain hs hchain).findChain?_eq_none hs hnext hchain rfl

/-- A chain stays as it is as long as it is not taken out. -/
theorem findChain?_kept (hs : m.store.Sound) {entry : Entry Chain} {chainId : String}
    (hentry : m.store.findChain? chainId = some entry) (hstays : m.step ≠ .removeChain chainId) :
    m.next.findChain? chainId = some entry := by
  by_cases hregisters : m.RegistersText chainId
  · obtain ⟨chain, hregisters, rfl⟩ := hregisters
    rw [(findChain?_registered hs hregisters).1, hentry]
    rfl
  · rw [findChain?_next hs hregisters hstays, hentry]

end Moment

/-! ## Runs -/

theorem unregistered_nil (chainId : String) : Unregistered chainId [] :=
  fun _ hlatest => nomatch hlatest.mem

/-- In a run that goes on a text is without a chain if the last step takes its chain out, or if it
was without one and the last step does not register it. -/
theorem unregistered_concat {chainId : String} {history : List Moment} {last : Moment} :
    Unregistered chainId (history ++ [last]) ↔
      ¬ last.RegistersText chainId ∧
        (last.step = .removeChain chainId ∨ Unregistered chainId history) := by
  simp only [Unregistered, isLatest_concat]
  constructor
  · intro h
    by_cases hkind : last.RegistersText chainId ∨ last.step = .removeChain chainId
    · have hnot := h last (Or.inl ⟨hkind, rfl⟩)
      exact ⟨hnot, Or.inl (hkind.resolve_left hnot)⟩
    · exact ⟨fun hregisters => hkind (Or.inl hregisters),
        Or.inr fun m hlatest => h m (Or.inr ⟨hkind, hlatest⟩)⟩
  · rintro ⟨hnot, hbefore⟩ m (⟨_, rfl⟩ | ⟨hkind, hlatest⟩)
    · exact hnot
    · exact hbefore.resolve_left (fun hremoves => hkind (Or.inr hremoves)) m hlatest

namespace Store

/-- A text has no chain after a run if, of the steps that register it or take its chain out, the
last one takes it out, or if there are none. -/
theorem findChain?_eq_none_iff (steps : List Step) (chainId : String) :
    ((∅ : Store).after steps).findChain? chainId = none ↔
      Unregistered chainId ((∅ : Store).history steps) := by
  induction steps using List.reverseRecOn with
  | nil => exact iff_of_true rfl (unregistered_nil chainId)
  | append_singleton steps step ih =>
    have hs := (Reachable.empty.after steps).sound
    rw [after_concat, history_concat, unregistered_concat, ← ih]
    generalize (∅ : Store).after steps = s at *
    by_cases hregisters : Moment.RegistersText ⟨s, step⟩ chainId
    · have hfound : (Moment.next ⟨s, step⟩).findChain? chainId ≠ none := by
        obtain ⟨chain, hregisters, rfl⟩ := hregisters
        rw [(Moment.findChain?_registered hs hregisters).1]
        exact Option.some_ne_none _
      exact iff_of_false hfound fun h => h.1 hregisters
    by_cases hremoves : step = .removeChain chainId
    · exact iff_of_true (Moment.findChain?_removed hs hremoves) ⟨hregisters, Or.inl hremoves⟩
    · rw [Moment.findChain?_next hs hregisters hremoves]
      simp [hregisters, hremoves]

/-- A chain stays as it is along a run that does not take it out. -/
theorem Sound.findChain?_after (hs : s.Sound) {entry : Entry Chain} {chainId : String}
    (hentry : s.findChain? chainId = some entry) {steps : List Step}
    (hstays : .removeChain chainId ∉ steps) : (s.after steps).findChain? chainId = some entry := by
  induction steps generalizing s with
  | nil => exact hentry
  | cons step rest ih =>
    rw [List.mem_cons, not_or] at hstays
    have hnext := (step.keeps_next s hs).1
    have hstep : step ≠ .removeChain chainId := Ne.symm hstays.1
    exact ih hnext (Moment.findChain?_kept (m := ⟨s, step⟩) hs hentry hstep) hstays.2

/-- An id that is told for one text is never told for another, not even when its chain has been
taken out. -/
theorem Sound.text_of_resolved (hs : s.Sound) {entry : Entry Chain}
    (hentry : entry ∈ s.chains.entries) {between : List Step} {step : Step} {other : Chain}
    (h : Moment.Registers ⟨s.after between, step⟩ other)
    (hid : Moment.resolved? ⟨s.after between, step⟩ = some entry.id) :
    other.chainId = entry.row.chainId := by
  obtain ⟨hfind, hresolved⟩ := Moment.findChain?_registered (hs.after between).1 h
  obtain ⟨hnext, _, hcontinues⟩ := hs.after (between ++ [step])
  rw [after_concat] at hnext hcontinues
  obtain ⟨hmem, htext⟩ := hnext.findChain?_eq_some.1 hfind
  have hsame := Option.some.inj (hresolved.symm.trans hid)
  -- the id had been given before, so the chain that has it now is the one that had it then
  have hgiven : entry.id < s.chains.nextId := (hs.keyed .chains).lt_nextId hentry
  obtain ⟨old, hold, holdId, hkey⟩ := hcontinues .chains _ hmem (hsame ▸ hgiven)
  cases Table.eq_of_mem_entries hold hentry (holdId.trans hsame)
  rw [← htext]
  exact (Key.text.inj hkey).symm

/-- The chains of a run. Every step that registers a chain tells an id, and it is under this id that
it marks a height, if it does. A later step that registers the same text tells the same id, whatever
name it is given, unless the chain is taken out in between; and a later step that tells this id
registers this text. If the text has no chain when it is registered, then the id is one that no
chain ever had, and until the chain is taken out it is found under this id with the name that it was
registered with. -/
theorem chains_follow_history (earlier : List Step) {step : Step} {chain : Chain}
    (h : Moment.Registers ⟨(∅ : Store).after earlier, step⟩ chain) :
    let m : Moment := ⟨(∅ : Store).after earlier, step⟩
    ∃ id, m.resolved? = some id ∧
      (∀ pipeline named height, step = .markFailed pipeline named height →
        m.next.IsMarked pipeline id height) ∧
      (∀ between later other, Moment.Registers ⟨m.next.after between, later⟩ other →
        (Moment.resolved? ⟨m.next.after between, later⟩ = some id →
          other.chainId = chain.chainId) ∧
        (other.chainId = chain.chainId → .removeChain chain.chainId ∉ between →
          Moment.resolved? ⟨m.next.after between, later⟩ = some id)) ∧
      (Unregistered chain.chainId ((∅ : Store).history earlier) →
        (∀ before rest, earlier = before ++ rest → id ∉ ((∅ : Store).after before).chains.rows) ∧
        ∀ between, .removeChain chain.chainId ∉ between →
          (m.next.after between).findChain? chain.chainId = some ⟨id, chain⟩) := by
  intro m
  have hs : m.store.Sound := (Reachable.empty.after earlier).sound
  have hnext : m.next.Sound := Moment.sound_next hs
  obtain ⟨hfind, hresolved⟩ := Moment.findChain?_registered hs h
  generalize hentry : (m.store.findChain? chain.chainId).getD ⟨m.store.chains.nextId, chain⟩ = entry
    at hfind hresolved
  obtain ⟨hmem, htext⟩ := hnext.findChain?_eq_some.1 hfind
  refine ⟨entry.id, hresolved, ?_, fun between later other hother => ⟨fun hid => ?_, ?_⟩, ?_⟩
  · rintro pipeline named height rfl
    cases h.2
    have hmarked := congrArg (Option.map (·.id)) hfind
    exact Moment.isMarked_of_marks hs ⟨h.1, chain, rfl, hmarked⟩
  · exact (hnext.text_of_resolved hmem hother hid).trans htext
  · intro hsame hstays
    have hkept := hnext.findChain?_after hfind hstays
    obtain ⟨_, hlater⟩ := Moment.findChain?_registered (hnext.after between).1 hother
    rw [hlater, hsame, hkept]
    rfl
  · intro hout
    have hnone : m.store.findChain? chain.chainId = none :=
      (findChain?_eq_none_iff earlier _).2 hout
    rw [hnone, Option.getD_none] at hentry
    subst hentry
    refine ⟨?_, fun between hstays => hnext.findChain?_after hfind hstays⟩
    rintro before rest rfl
    have hbefore := (Reachable.empty.after before).sound
    have hle := (hbefore.after rest).2.1 .chains
    rw [← after_append] at hle
    exact hbefore.not_mem_of_nextId_le (n := .chains) hle

/-- A chain that has been taken out comes back by a height that is marked, under a new id and with
another name. It keeps both when the archive is set up for it with a third name. -/
theorem chains_follow_history_of_return :
    let earlier : List Step :=
      [.registerChain ⟨"a-1", "A"⟩, .registerChain ⟨"b-1", "B"⟩, .removeChain "a-1"]
    let m : Moment := ⟨(∅ : Store).after earlier, .markFailed .events ⟨"a-1", "C"⟩ 5⟩
    let between : List Step := [.registerChain ⟨"a-1", "\x00"⟩, .removeChain "b-1"]
    let later : Moment :=
      ⟨m.next.after between, .setup (.ok ()) { Config.new "db" with chain := some ⟨"a-1", "D"⟩ }⟩
    m.Registers ⟨"a-1", "C"⟩ ∧ m.resolved? = some 3 ∧ m.next.IsMarked .events 3 5 ∧
      later.Registers ⟨"a-1", "D"⟩ ∧ later.resolved? = some 3 ∧
      3 ∉ ((∅ : Store).after earlier).chains.rows ∧
      later.store.findChain? "a-1" = some ⟨3, ⟨"a-1", "C"⟩⟩ := by
  intro earlier m between later
  have hregisters : m.Registers ⟨"a-1", "C"⟩ := by decide +kernel
  have hlater : later.Registers ⟨"a-1", "D"⟩ := by decide +kernel
  have hid : m.resolved? = some 3 := by decide +kernel
  have hout : Unregistered "a-1" ((∅ : Store).history earlier) := by
    have hlast := (∅ : Store).history_concat
      [.registerChain ⟨"a-1", "A"⟩, .registerChain ⟨"b-1", "B"⟩] (.removeChain "a-1")
    rw [List.cons_append, List.cons_append, List.nil_append] at hlast
    rw [hlast, unregistered_concat]
    refine ⟨?_, Or.inl rfl⟩
    rintro ⟨chain, ⟨_, hnamed⟩, _⟩
    cases hnamed
  have hstays : .removeChain "a-1" ∉ between := by simp [between]
  obtain ⟨id, hresolved, hmarked, hagain, hnew⟩ := chains_follow_history earlier hregisters
  cases hid.symm.trans hresolved
  obtain ⟨hnever, hkept⟩ := hnew hout
  refine ⟨hregisters, hid, hmarked _ _ _ rfl, hlater, ?_, ?_, hkept between hstays⟩
  · exact (hagain between _ _ hlater).2 rfl hstays
  · exact hnever earlier [] (List.append_nil _).symm

end Store

end BlockArchive
