import BlockArchive.Proofs.Effects
import BlockArchive.Proofs.Persist.Made

/-!
# Ids of registered texts

The texts that a block brings along are stored kind by kind, and what the statements tell is all
that the rows of the messages are made from. A text can be looked up if it is brought along as a
text of the kind, under whatever key, and is then found under the id of the one row that has it. A
text that is only stored, or is brought along as one of another kind, is not found.

## Main definitions

- `Store.TellsTexts`: what is told of a table to which texts have been offered

## Main statements

- `Store.Sound.tellsTexts_of_upsert`: a batch of texts that is stored
- `Persist.tellsTexts_of_stored`: what is told of the texts of each kind
- `Store.Reachable.texts_resolve`: the texts that can be looked up, and their ids
-/

namespace BlockArchive

open Persist

namespace Store

/-- The ids are those under which the texts are stored in `t`, and they tell nothing of other texts.
A text that was stored in `s` has the id that it had there. -/
structure TellsTexts (s t : Store) (n : TableName) (texts : List String)
    (ids : Std.ExtTreeMap String Id) : Prop where
  getElem? : ∀ text, ids[text]? = if text ∈ texts then some (t.idOf n (.text text)) else none
  stored : ∀ text ∈ texts, ∃ entry, t.find? n (.text text) = some entry ∧
    ∀ old, s.find? n (.text text) = some old → old.id = entry.id

/-- What is told of a table is told of that table alone. -/
theorem TellsTexts.congr {s t s' t' : Store} {n : TableName} {texts : List String}
    {ids : Std.ExtTreeMap String Id} (h : TellsTexts s t n texts ids) (hs : s'.get n = s.get n)
    (ht : t'.get n = t.get n) : TellsTexts s' t' n texts ids where
  getElem? text := by
    rw [h.getElem?, idOf_congr (congrArg Table.entries ht)]
  stored text htext := by
    obtain ⟨entry, hfind, hold⟩ := h.stored text htext
    refine ⟨entry, ?_, fun old hfindOld => hold old ?_⟩
    · rwa [find?, ht]
    · rwa [find?, hs] at hfindOld

/-- A batch of texts that is stored leaves the other tables alone, and tells of the texts. -/
theorem Sound.tellsTexts_of_upsertAll {s t : Store} (hs : s.Sound) {n : TableName}
    {rows : List n.Row} {told : List (Entry n.Row)} (part : n.Row → String)
    (hkey : ∀ row, n.key row = .text (part row)) (hone : Table.OneByKey n.key rows)
    (hwarranted : ∀ row, n.Warranted row) (hrefs : ∀ row, n.references row = [])
    (h : upsertAll n rows s = .ok told t) :
    t.Sound ∧ (∀ m, m ≠ n → t.get m = s.get m) ∧
      TellsTexts s t n (rows.map part) (Entry.idsBy part told) := by
  obtain ⟨rfl, rfl⟩ := told_of_upsertAll (hs.keyed n) h
  have hnone : ∀ row ∈ rows, ∀ ref ∈ n.references row, s.Resolves ref := by
    intro row _ ref href
    rw [hrefs] at href
    cases href
  refine ⟨hs.offer (fun row _ => hwarranted row) hnone, fun m hm => get_offer_of_ne s rows hm,
    ?_, ?_⟩
  · exact getElem?_idsBy_told hs text_injective hkey hone
  · intro text htext
    obtain ⟨row, hrow, rfl⟩ := List.mem_map.1 htext
    obtain ⟨entry, _, hfind, hsettles⟩ :=
      (hs.keyed n).find?_offerAll_of_mem n.keepsKey_refresh n.absorbs_refresh hone hrow
    rw [← get_offer_self] at hfind
    rw [← hkey]
    refine ⟨entry, hfind, fun old hold => ?_⟩
    rw [hsettles.of_find? hold]

end Store

/-! ## The texts of a block -/

/-- When the texts of a block are stored, the ids of those of each kind are told. -/
theorem Persist.tellsTexts_of_stored {s u : Store} (hs : s.Sound) {data : ReferenceData}
    {refs : ResolvedReferences} (h : storeReferences data s = .ok refs u) :
    u.Sound ∧ ∀ kind : ReferenceKind,
      s.TellsTexts u kind.table (data.texts kind) (refs.ids kind) := by
  obtain ⟨messageTypes, t₁, h₁, h⟩ := exists_of_bind h
  obtain ⟨eventTypes, t₂, h₂, h⟩ := exists_of_bind h
  obtain ⟨attributeKeys, t₃, h₃, h⟩ := exists_of_bind h
  cases h
  -- a text is its own key
  have hone : ∀ texts, Table.OneByKey Key.text texts := fun _ _ _ _ _ hkey => Key.text.inj hkey
  obtain ⟨hs₁, hrest₁, htells₁⟩ := hs.tellsTexts_of_upsertAll (n := .messageTypes)
    (fun text => text) (fun _ => rfl) (hone _) (fun _ => trivial) (fun _ => rfl) h₁
  obtain ⟨hs₂, hrest₂, htells₂⟩ := hs₁.tellsTexts_of_upsertAll (n := .eventTypes)
    (fun text => text) (fun _ => rfl) (hone _) (fun _ => trivial) (fun _ => rfl) h₂
  obtain ⟨hs₃, hrest₃, htells₃⟩ := hs₂.tellsTexts_of_upsertAll (n := .attributeKeys)
    (fun text => text) (fun _ => rfl) (hone _) (fun _ => trivial) (fun _ => rfl) h₃
  rw [List.map_id'] at htells₁ htells₂ htells₃
  -- each table is left alone by the statements for the other kinds
  refine ⟨hs₃, fun kind => ?_⟩
  cases kind with
  | messageType =>
    have hlater := (hrest₃ .messageTypes (by decide)).trans (hrest₂ .messageTypes (by decide))
    exact htells₁.congr rfl hlater
  | eventType =>
    exact htells₂.congr (hrest₁ .eventTypes (by decide)).symm (hrest₃ .eventTypes (by decide))
  | attributeKey =>
    have hearlier := (hrest₂ .attributeKeys (by decide)).trans (hrest₁ .attributeKeys (by decide))
    exact htells₃.congr hearlier.symm rfl

theorem ReferenceData.mem_texts {data : ReferenceData} {kind : ReferenceKind} {text : String} :
    text ∈ data.texts kind ↔ ∃ key : String, (data.registered kind)[key]? = some text := by
  rw [texts_eq, OrderedMap.mem_values]

/-- When the texts of a block have been stored, a text of a kind can be looked up exactly if it is
registered as one of that kind, whatever its key. Then its id is that of the one row of the kind's
table that has it, and is the id that it had before if it was stored. Any other text is told to be
unregistered, also if it is stored or is registered as one of another kind. -/
theorem Store.Reachable.texts_resolve {s u : Store} (h : s.Reachable) {data : ReferenceData}
    {refs : ResolvedReferences} (hstored : storeReferences data s = .ok refs u)
    (kind : ReferenceKind) (text : String) :
    ((∃ id, refs.id kind text = .ok id) ↔
      ∃ key : String, (data.registered kind)[key]? = some text) ∧
    (∀ id, refs.id kind text = .ok id →
      (∃! entry, entry ∈ (u.get kind.table).entries ∧ kind.table.key entry.row = .text text) ∧
      (∀ entry ∈ (u.get kind.table).entries, kind.table.key entry.row = .text text →
        entry.id = id) ∧
      ∀ old ∈ (s.get kind.table).entries, kind.table.key old.row = .text text → old.id = id) ∧
    ((¬ ∃ key : String, (data.registered kind)[key]? = some text) →
      refs.id kind text = .error (.unregisteredReference kind text)) := by
  obtain ⟨hu, htells⟩ := tellsTexts_of_stored h.sound hstored
  have hid := id_eq_of_getElem?_ids ((htells kind).getElem? text)
  rw [← ReferenceData.mem_texts]
  by_cases htext : text ∈ data.texts kind
  · rw [if_pos htext] at hid
    refine ⟨⟨fun _ => htext, fun _ => ⟨_, hid⟩⟩, ?_, fun hnone => absurd htext hnone⟩
    intro id hid'
    cases hid.symm.trans hid'
    obtain ⟨entry, hfind, hold⟩ := (htells kind).stored text htext
    obtain ⟨hentry, hkey⟩ := mem_of_find? hfind
    have hunique : ∀ other ∈ (u.get kind.table).entries, kind.table.key other.row = .text text →
        other = entry :=
      fun other hother hsame => (hu.keyed _).eq_of_key hother hentry (hsame.trans hkey.symm)
    rw [idOf_eq hfind]
    refine ⟨⟨entry, ⟨hentry, hkey⟩, fun other hother => hunique other hother.1 hother.2⟩, ?_, ?_⟩
    · intro other hother hsame
      rw [hunique other hother hsame]
    · intro old hmem hsame
      exact hold old (h.sound.find?_eq_some.2 ⟨hmem, hsame⟩)
  · rw [if_neg htext] at hid
    refine ⟨⟨fun ⟨_, hok⟩ => ?_, fun hknown => absurd hknown htext⟩, ?_, fun _ => hid⟩
    · rw [hid] at hok
      cases hok
    · intro id hok
      rw [hid] at hok
      cases hok

/-- A text that is stored already is registered under another key, and one that is stored as a
message type is registered as an event type only. -/
theorem Store.Reachable.texts_resolve_of_other_key :
    let earlier := Tx.new "h1" 0 none [⟨"send", 0, []⟩, ⟨"vote", 1, []⟩]
    let s := (Step.persist ⟨1, 7, Instant.zero⟩ [earlier]).next
      ((Step.registerChain ⟨"a-1", "A"⟩).next ∅)
    let data : ReferenceData := {
      messageTypes := .ofList [("a", "burn"), ("b", "send")]
      eventTypes := .ofList [("vote", "vote")] }
    (s.get .messageTypes).entries = [⟨1, "send"⟩, ⟨2, "vote"⟩] ∧
    ∃ refs u, storeReferences data s = .ok refs u ∧
      refs.id .messageType "send" = .ok 1 ∧
      refs.id .messageType "vote" = .error (.unregisteredReference .messageType "vote") := by
  intro earlier s data
  have hs : s.Reachable := .step (.step .empty _) _
  have hentries : (s.get .messageTypes).entries = [⟨1, "send"⟩, ⟨2, "vote"⟩] := by decide +kernel
  have hok : (match storeReferences data s with
      | .ok _ _ => true
      | .error _ _ => false) = true := by
    decide +kernel
  have hsend : ∃ key : String, (data.registered .messageType)[key]? = some "send" :=
    ReferenceData.mem_texts.1 (by decide +kernel)
  have hvote : ¬ ∃ key : String, (data.registered .messageType)[key]? = some "vote" :=
    mt ReferenceData.mem_texts.2 (by decide +kernel)
  refine ⟨hentries, ?_⟩
  cases hrun : storeReferences data s with
  | error cause u =>
    rw [hrun] at hok
    cases hok
  | ok refs u =>
    obtain ⟨hfound, hids, _⟩ := hs.texts_resolve hrun .messageType "send"
    obtain ⟨_, _, hmissing⟩ := hs.texts_resolve hrun .messageType "vote"
    obtain ⟨id, hid⟩ := hfound.2 hsend
    have hold : 1 = id := by
      refine (hids id hid).2.2 ⟨1, "send"⟩ ?_ rfl
      show (⟨1, "send"⟩ : Entry String) ∈ (s.get .messageTypes).entries
      rw [hentries]
      exact List.mem_cons_self
    exact ⟨refs, u, rfl, hold ▸ hid, hmissing hvote⟩

end BlockArchive
