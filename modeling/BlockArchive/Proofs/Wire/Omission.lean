import BlockArchive.Proofs.Json.Notation
import BlockArchive.Wire.Block
import BlockArchive.Wire.Tx
import Mathlib.Data.List.Nodup
import Mathlib.Logic.Relation

/-!
# Defaults may be left out

Some parts of a written transaction may be left out where they hold their default. Leaving out one
of them, anywhere in a document, changes nothing in what is read: each reader either does not look
at the part, or takes the same value for it when it is missing.

## Main definitions

- `Json.defaults`: the parts that may be left out, with the values they then have
- `Json.Omission`: one default is left out of a document
- `Json.Abridged`: any number of defaults are left out of a document
- `Keeps`: what a reader finds does not change

## Main statements

- `Record.keeps_required`, `Record.keeps_defaulted`, `Record.keeps_optional`: the parts of a record
- `Tx.keeps_ofJson?`, `Block.keeps_ofJson?`: no omission changes what is read
-/

namespace BlockArchive

namespace Json

/-- The parts that may be left out, each with the value that it has where it is. -/
def defaults : List (String × Json) :=
  [("signer_address", .null), ("payer_address", .null), ("fees", .arr []), ("messages", .arr []),
    ("events", .arr []), ("attributes", .arr []), ("unique_message_types", .obj []),
    ("unique_message_event_types", .obj []), ("unique_message_attribute_keys", .obj [])]

/-- The second document is the first with one default left out, be it of the document itself or of
one that it holds. -/
inductive Omission : Json → Json → Prop
  | here {before after : List (String × Json)} {name : String} {j : Json}
      (is_default : (name, j) ∈ defaults) :
      Omission (.obj (before ++ (name, j) :: after)) (.obj (before ++ after))
  | inItem {before after : List Json} {j j' : Json} (inside : Omission j j') :
      Omission (.arr (before ++ j :: after)) (.arr (before ++ j' :: after))
  | inField {before after : List (String × Json)} {name : String} {j j' : Json}
      (inside : Omission j j') :
      Omission (.obj (before ++ (name, j) :: after)) (.obj (before ++ (name, j') :: after))

/-- A default is left out of a clean document. -/
structure CleanOmission (j j' : Json) : Prop where
  clean : j.Clean
  omission : j.Omission j'

/-- What is left of a clean document is clean. -/
theorem Omission.clean {j j' : Json} (h : j.Omission j') (hclean : j.Clean) : j'.Clean := by
  induction h with
  | @here before after name j _ =>
    have hsublist : (before ++ after).Sublist (before ++ (name, j) :: after) :=
      (List.sublist_cons_self _ _).append_left before
    refine .obj (hclean.names_nodup.sublist (hsublist.map Prod.fst)) fun field hfield => ?_
    exact hclean.of_mem_fields field (hsublist.subset hfield)
  | @inItem before after j j' _ ih =>
    have hitems := hclean.of_mem_items
    rw [List.forall_mem_append, List.forall_mem_cons] at hitems
    refine .arr ?_
    rw [List.forall_mem_append, List.forall_mem_cons]
    exact ⟨hitems.1, ih hitems.2.1, hitems.2.2⟩
  | @inField before after name j j' _ ih =>
    have hfields := hclean.of_mem_fields
    have hnames := hclean.names_nodup
    rw [List.forall_mem_append, List.forall_mem_cons] at hfields
    refine .obj ?_ ?_
    · rw [List.map_append, List.map_cons] at hnames ⊢
      exact hnames
    · rw [List.forall_mem_append, List.forall_mem_cons]
      exact ⟨hfields.1, ih hfields.2.1, hfields.2.2⟩

/-- An omission leaves lists lists and objects objects, and there is none in anything else. -/
theorem Omission.is_container {j j' : Json} (h : j.Omission j') :
    (∃ items, j = .arr items) ∨ ∃ fields, j = .obj fields := by
  cases h with
  | here _ => exact .inr ⟨_, rfl⟩
  | inItem _ => exact .inl ⟨_, rfl⟩
  | inField _ => exact .inr ⟨_, rfl⟩

end Json

/-! ## Readers -/

/-- What the reader finds does not change from the first source to the second. -/
def Keeps {σ α : Type} (change : σ → σ → Prop) (read : σ → Option α) : Prop :=
  ∀ ⦃s s' : σ⦄ ⦃a : α⦄, change s s' → read s = some a → read s' = some a

section Keeps

variable {σ α β : Type} {change : σ → σ → Prop}

theorem Keeps.pure (a : α) : Keeps change fun _ => some a :=
  fun _ _ _ _ h => h

theorem Keeps.bind {first : σ → Option α} {next : α → σ → Option β} (hfirst : Keeps change first)
    (hnext : ∀ a, Keeps change (next a)) : Keeps change fun s => first s >>= fun a => next a s := by
  intro s s' b hchange h
  obtain ⟨a, ha, hb⟩ := Option.bind_eq_some_iff.1 h
  exact Option.bind_eq_some_iff.2 ⟨a, hfirst hchange ha, hnext a hchange hb⟩

end Keeps

namespace Json

variable {α : Type} {read : Json → Option α}

/-- A reader that takes no lists and no objects never sees an omission. -/
theorem keeps_of_scalar (harr : ∀ items, read (.arr items) = none)
    (hobj : ∀ fields, read (.obj fields) = none) : Keeps CleanOmission read := by
  intro j j' a h hread
  rcases h.omission.is_container with ⟨items, rfl⟩ | ⟨fields, rfl⟩
  · rw [harr] at hread
    cases hread
  · rw [hobj] at hread
    cases hread

theorem keeps_str? : Keeps CleanOmission str? :=
  keeps_of_scalar (fun _ => rfl) fun _ => rfl

theorem keeps_int64? : Keeps CleanOmission int64? :=
  keeps_of_scalar (fun _ => rfl) fun _ => rfl

theorem keeps_int32? : Keeps CleanOmission int32? :=
  keeps_of_scalar (fun _ => rfl) fun _ => rfl

theorem keeps_nullable?_str? : Keeps CleanOmission (nullable? str?) :=
  keeps_of_scalar (fun _ => rfl) fun _ => rfl

/-- What is read of a list is read of what stands before an item, of the item and of what stands
after it. -/
theorem mapM_append_cons_eq_some_iff {β : Type} {f : β → Option α} {before after : List β} {b : β}
    {as : List α} :
    (before ++ b :: after).mapM f = some as ↔
      ∃ left a right, before.mapM f = some left ∧ f b = some a ∧ after.mapM f = some right ∧
        left ++ a :: right = as := by
  simp only [List.mapM_append, List.mapM_cons, Option.bind_eq_bind, Option.bind_eq_some_iff,
    Option.pure_def, Option.some.injEq]
  constructor
  · rintro ⟨left, hleft, _, ⟨a, ha, right, hright, rfl⟩, has⟩
    exact ⟨left, a, right, hleft, ha, hright, has⟩
  · rintro ⟨left, a, right, hleft, ha, hright, has⟩
    exact ⟨left, hleft, _, ⟨a, ha, right, hright, rfl⟩, has⟩

/-- What is read of the items of a list is kept if it is kept of each. -/
theorem mapM_items {β : Type} {f : β → Option α} {before after : List β} {b b' : β} {as : List α}
    (hf : ∀ a, f b = some a → f b' = some a) (h : (before ++ b :: after).mapM f = some as) :
    (before ++ b' :: after).mapM f = some as := by
  obtain ⟨left, a, right, hleft, ha, hright, has⟩ := mapM_append_cons_eq_some_iff.1 h
  exact mapM_append_cons_eq_some_iff.2 ⟨left, a, right, hleft, hf a ha, hright, has⟩

theorem keeps_list? (h : Keeps CleanOmission read) : Keeps CleanOmission (list? read) := by
  rintro j j' as ⟨hclean, homission⟩ hread
  cases homission with
  | here _ => cases hread
  | inField _ => cases hread
  | inItem inside =>
    have hitem := hclean.of_mem_items _ (List.mem_append_right _ List.mem_cons_self)
    exact mapM_items (fun a => h ⟨hitem, inside⟩) hread

end Json

/-! ## Records -/

namespace Record

/-- A default is left out of a record. -/
inductive Omission : Record → Record → Prop
  | named {fields fields' : List (String × Json)}
      (omission : Json.CleanOmission (.obj fields) (.obj fields')) :
      Omission (.named fields) (.named fields')
  | listed {values values' : List Json}
      (omission : Json.CleanOmission (.arr values) (.arr values')) :
      Omission (.listed values) (.listed values')

/-- What is written for the part `name` once a default is left out. -/
inductive PartOmission (name : String) : Option Json → Option Json → Prop
  | same (value : Option Json) : PartOmission name value value
  | inside {j j' : Json} (omission : j.CleanOmission j') : PartOmission name (some j) (some j')
  | left {j : Json} (is_default : (name, j) ∈ Json.defaults) : PartOmission name (some j) none

section Lookup

variable {before after : List (String × Json)} {name other : String} {j : Json}

theorem lookup_of_ne (h : name ≠ other) :
    (before ++ (other, j) :: after).lookup name = (before ++ after).lookup name := by
  rw [List.lookup_append, List.lookup_append, List.lookup_cons, beq_false_of_ne h]

theorem lookup_of_nodup (h : ((before ++ (name, j) :: after).map Prod.fst).Nodup) :
    (before ++ (name, j) :: after).lookup name = some j ∧ (before ++ after).lookup name = none := by
  rw [List.map_append, List.map_cons, List.nodup_middle, List.nodup_cons, ← List.map_append] at h
  have hname : name ∉ (before ++ after).map Prod.fst := h.1
  have hnew : ∀ field ∈ before ++ after, (name != field.1) = true := by
    intro field hfield
    rw [bne_iff_ne]
    rintro rfl
    exact hname (List.mem_map_of_mem hfield)
  refine ⟨List.lookup_eq_some_iff.2 ⟨before, after, rfl, ?_⟩, List.lookup_eq_none_iff.2 hnew⟩
  exact fun field hfield => hnew field (List.mem_append_left after hfield)

end Lookup

/-- A field that is left out was a default, and no other field changes but from the inside. -/
theorem lookup_omission {fields fields' : List (String × Json)}
    (h : Json.CleanOmission (.obj fields) (.obj fields')) (name : String) :
    PartOmission name (fields.lookup name) (fields'.lookup name) := by
  have hnames := h.clean.names_nodup
  have hnames' := (h.omission.clean h.clean).names_nodup
  have hfields := h.clean.of_mem_fields
  cases h.omission with
  | @here before after other j is_default =>
    by_cases hname : name = other
    · subst hname
      rw [(lookup_of_nodup hnames).1, (lookup_of_nodup hnames).2]
      exact .left is_default
    · rw [lookup_of_ne hname]
      exact .same _
  | @inField before after other j j' inside =>
    by_cases hname : name = other
    · subst hname
      rw [(lookup_of_nodup hnames).1, (lookup_of_nodup hnames').1]
      exact .inside ⟨hfields (name, j) (List.mem_append_right _ List.mem_cons_self), inside⟩
    · rw [lookup_of_ne hname, lookup_of_ne hname]
      exact .same _

/-- No value of a list is left out, and at most one changes, from the inside. -/
theorem getElem?_omission {values values' : List Json}
    (h : Json.CleanOmission (.arr values) (.arr values')) (place : Nat) :
    values'[place]? = values[place]? ∨
      ∃ j j', values[place]? = some j ∧ values'[place]? = some j' ∧ j.CleanOmission j' := by
  have hitems := h.clean.of_mem_items
  cases h.omission with
  | @inItem before after j j' inside =>
    rcases Nat.lt_trichotomy place before.length with hlt | rfl | hgt
    · rw [List.getElem?_append_left hlt, List.getElem?_append_left hlt]
      exact .inl rfl
    · rw [List.getElem?_append_right (Nat.le_refl _), List.getElem?_append_right (Nat.le_refl _),
        Nat.sub_self]
      exact .inr ⟨j, j', rfl, rfl, hitems j (List.mem_append_right _ List.mem_cons_self), inside⟩
    · rw [List.getElem?_append_right hgt.le, List.getElem?_append_right hgt.le,
        List.getElem?_cons, List.getElem?_cons, if_neg (Nat.sub_ne_zero_of_lt hgt),
        if_neg (Nat.sub_ne_zero_of_lt hgt)]
      exact .inl rfl

theorem Omission.part {record record' : Record} (h : record.Omission record') (part : Part) :
    PartOmission part.name (record.get? part) (record'.get? part) := by
  cases h with
  | named omission => exact lookup_omission omission part.name
  | @listed values values' omission =>
    show PartOmission part.name values[part.place]? values'[part.place]?
    rcases getElem?_omission omission part.place with heq | ⟨j, j', hj, hj', inside⟩
    · rw [heq]
      exact .same _
    · rw [hj, hj']
      exact .inside inside

variable {α : Type} {read : Json → Option α} {part : Part}

/-- A part that has to be written is not among those that may be left out. -/
theorem keeps_required (hread : Keeps Json.CleanOmission read)
    (hname : part.name ∉ Json.defaults.map Prod.fst) :
    Keeps Omission fun record => record.required part read := by
  intro record record' a h ha
  simp only [required] at ha ⊢
  generalize record.get? part = value, record'.get? part = value', h.part part = hpart at ha ⊢
  cases hpart with
  | same => exact ha
  | inside omission => exact hread omission ha
  | left is_default => exact absurd (List.mem_map_of_mem is_default) hname

/-- A name has one default at most. -/
theorem eq_of_mem_defaults {name : String} {j d : Json} (h : (name, j) ∈ Json.defaults)
    (hd : Json.defaults.lookup name = some d) : j = d := by
  have hnames : (Json.defaults.map Prod.fst).Nodup := by decide
  obtain ⟨before, after, heq⟩ := List.append_of_mem h
  rw [heq] at hnames hd
  rw [(lookup_of_nodup hnames).1] at hd
  exact Option.some.inj hd

/-- A part that has a default is read as it where it is left out. -/
theorem keeps_defaulted {default : α} {d : Json} (hread : Keeps Json.CleanOmission read)
    (hd : Json.defaults.lookup part.name = some d) (hdefault : read d = some default) :
    Keeps Omission fun record => record.defaulted part read default := by
  intro record record' a h ha
  simp only [defaulted] at ha ⊢
  generalize record.get? part = value, record'.get? part = value', h.part part = hpart at ha ⊢
  cases hpart with
  | same => exact ha
  | inside omission => exact hread omission ha
  | left is_default =>
    rw [eq_of_mem_defaults is_default hd] at ha
    exact hdefault.symm.trans ha

theorem optional_named (fields : List (String × Json)) :
    optional (.named fields) part read =
      (fields.lookup part.name).elim (some none) (Json.nullable? read) := by
  simp only [optional, get?]
  cases fields.lookup part.name <;> rfl

theorem optional_listed (values : List Json) :
    optional (.listed values) part read = values[part.place]?.bind (Json.nullable? read) := by
  simp only [optional, get?]
  cases values[part.place]? <;> rfl

/-- A part that may be missing where the parts are named is read as missing where it is left out. -/
theorem keeps_optional (hread : Keeps Json.CleanOmission (Json.nullable? read))
    (hd : Json.defaults.lookup part.name = some .null) :
    Keeps Omission fun record => record.optional part read := by
  intro record record' a h ha
  cases h with
  | @named fields fields' omission =>
    simp only [optional_named] at ha ⊢
    have hpart := lookup_omission omission part.name
    generalize fields.lookup part.name = value, fields'.lookup part.name = value' at ha hpart ⊢
    cases hpart with
    | same => exact ha
    | inside omission => exact hread omission ha
    | left is_default =>
      rw [eq_of_mem_defaults is_default hd] at ha
      exact ha
  | @listed values values' omission =>
    simp only [optional_listed] at ha ⊢
    rcases getElem?_omission omission part.place with heq | ⟨j, j', hj, hj', inside⟩
    · rwa [heq]
    · rw [hj] at ha
      rw [hj']
      exact hread inside ha

/-- A document that is a record still is one, with the same parts but for a default. -/
theorem keeps_ofJson? {build : Record → Option α} {size : Nat} (hbuild : Keeps Omission build) :
    Keeps Json.CleanOmission fun j => ofJson? size j >>= build := by
  intro j j' a h ha
  obtain ⟨record, hrecord, hread⟩ := Option.bind_eq_some_iff.1 ha
  have hrecord' : ∃ record', ofJson? size j' = some record' ∧ record.Omission record' := by
    cases h.omission with
    | here _ =>
      cases hrecord
      exact ⟨_, rfl, .named h⟩
    | inField _ =>
      cases hrecord
      exact ⟨_, rfl, .named h⟩
    | @inItem before after j j' _ =>
      have hlength : (before ++ j' :: after).length = (before ++ j :: after).length := by
        rw [List.length_append, List.length_append, List.length_cons, List.length_cons]
      rw [ofJson?] at hrecord ⊢
      split at hrecord
      · next hsize =>
        cases hrecord
        exact ⟨_, if_pos (hlength.trans_le hsize), .listed h⟩
      · cases hrecord
  obtain ⟨record', hrecord', homission⟩ := hrecord'
  exact Option.bind_eq_some_iff.2 ⟨record', hrecord', hbuild homission hread⟩

end Record

/-! ## Blocks and transactions -/

theorem Fee.keeps_ofJson? : Keeps Json.CleanOmission Fee.ofJson? := by
  refine Record.keeps_ofJson? ?_
  refine Keeps.bind (Record.keeps_required Json.keeps_str? (by decide)) fun amount => ?_
  refine Keeps.bind (Record.keeps_required Json.keeps_str? (by decide)) fun denom => ?_
  exact Keeps.bind (Record.keeps_optional Json.keeps_nullable?_str? rfl) fun payer => Keeps.pure _

theorem Attribute.keeps_ofJson? : Keeps Json.CleanOmission Attribute.ofJson? := by
  refine Record.keeps_ofJson? ?_
  refine Keeps.bind (Record.keeps_required Json.keeps_str? (by decide)) fun key => ?_
  refine Keeps.bind (Record.keeps_required Json.keeps_int64? (by decide)) fun index => ?_
  exact Keeps.bind (Record.keeps_required Json.keeps_str? (by decide)) fun value => Keeps.pure _

theorem Event.keeps_ofJson? : Keeps Json.CleanOmission Event.ofJson? := by
  refine Record.keeps_ofJson? ?_
  refine Keeps.bind (Record.keeps_required Json.keeps_str? (by decide)) fun eventType => ?_
  refine Keeps.bind (Record.keeps_required Json.keeps_int64? (by decide)) fun index => ?_
  have hattributes := Json.keeps_list? Attribute.keeps_ofJson?
  exact Keeps.bind (Record.keeps_defaulted hattributes rfl rfl) fun attributes => Keeps.pure _

theorem Message.keeps_ofJson? : Keeps Json.CleanOmission Message.ofJson? := by
  refine Record.keeps_ofJson? ?_
  refine Keeps.bind (Record.keeps_required Json.keeps_str? (by decide)) fun messageType => ?_
  refine Keeps.bind (Record.keeps_required Json.keeps_int64? (by decide)) fun index => ?_
  have hevents := Json.keeps_list? Event.keeps_ofJson?
  exact Keeps.bind (Record.keeps_defaulted hevents rfl rfl) fun events => Keeps.pure _

namespace TextMap

variable {name : String}

theorem keeps_textOfJson? (hname : name ∉ Json.defaults.map Prod.fst) :
    Keeps Json.CleanOmission (textOfJson? name) :=
  Record.keeps_ofJson? (Record.keeps_required Json.keeps_str? hname)

/-- No default is a record with a reference text. -/
theorem textOfJson?_default {key : String} {j : Json} (h : (key, j) ∈ Json.defaults) :
    textOfJson? name j = none := by
  simp only [Json.defaults, List.mem_cons, Prod.mk.injEq, List.not_mem_nil, or_false] at h
  rcases h with ⟨_, rfl⟩ | ⟨_, rfl⟩ | ⟨_, rfl⟩ | ⟨_, rfl⟩ | ⟨_, rfl⟩ | ⟨_, rfl⟩ | ⟨_, rfl⟩ |
    ⟨_, rfl⟩ | ⟨_, rfl⟩ <;> rfl

theorem keeps_ofJson? (name : String) (hname : name ∉ Json.defaults.map Prod.fst) :
    Keeps Json.CleanOmission (ofJson? name) := by
  rintro j j' texts ⟨hclean, homission⟩ hread
  cases homission with
  | inItem _ => cases hread
  | @here before after key j is_default =>
    obtain ⟨read, hmapM, _⟩ := Option.bind_eq_some_iff.1 hread
    obtain ⟨_, _, _, _, hentry, _⟩ := Json.mapM_append_cons_eq_some_iff.1 hmapM
    rw [textOfJson?_default is_default] at hentry
    cases hentry
  | @inField before after key j j' inside =>
    have hfield := hclean.of_mem_fields (key, j) (List.mem_append_right _ List.mem_cons_self)
    obtain ⟨read, hmapM, htexts⟩ := Option.bind_eq_some_iff.1 hread
    refine Option.bind_eq_some_iff.2 ⟨read, Json.mapM_items (fun entry hentry => ?_) hmapM, htexts⟩
    obtain ⟨text, htext, rfl⟩ := Option.map_eq_some_iff.1 hentry
    exact Option.map_eq_some_iff.2 ⟨text, keeps_textOfJson? hname ⟨hfield, inside⟩ htext, rfl⟩

end TextMap

theorem Tx.keeps_ofJson? : Keeps Json.CleanOmission Tx.ofJson? := by
  have hfees := Json.keeps_list? Fee.keeps_ofJson?
  have hmessages := Json.keeps_list? Message.keeps_ofJson?
  have hmessageTypes := TextMap.keeps_ofJson? "message_type" (by decide)
  have heventTypes := TextMap.keeps_ofJson? "event_type" (by decide)
  have hattributeKeys := TextMap.keeps_ofJson? "key" (by decide)
  refine Record.keeps_ofJson? ?_
  refine Keeps.bind (Record.keeps_required Json.keeps_str? (by decide)) fun hash => ?_
  refine Keeps.bind (Record.keeps_required Json.keeps_int32? (by decide)) fun code => ?_
  refine Keeps.bind (Record.keeps_defaulted Json.keeps_nullable?_str? rfl rfl) fun signer => ?_
  refine Keeps.bind (Record.keeps_defaulted hfees rfl rfl) fun fees => ?_
  refine Keeps.bind (Record.keeps_defaulted hmessages rfl rfl) fun messages => ?_
  refine Keeps.bind (Record.keeps_defaulted hmessageTypes rfl rfl) fun messageTypes => ?_
  refine Keeps.bind (Record.keeps_defaulted heventTypes rfl rfl) fun eventTypes => ?_
  exact Keeps.bind (Record.keeps_defaulted hattributeKeys rfl rfl) fun keys => Keeps.pure _

theorem Block.keeps_ofJson? : Keeps Json.CleanOmission Block.ofJson? := by
  refine Record.keeps_ofJson? ?_
  refine Keeps.bind (Record.keeps_required Json.keeps_int64? (by decide)) fun blockchainId => ?_
  refine Keeps.bind (Record.keeps_required Json.keeps_int64? (by decide)) fun height => ?_
  have htime : Keeps Json.CleanOmission Instant.ofJson? :=
    Json.keeps_of_scalar (fun _ => rfl) fun _ => rfl
  exact Keeps.bind (Record.keeps_required htime (by decide)) fun time => Keeps.pure _

end BlockArchive
