import BlockArchive.Proofs.Batches
import BlockArchive.Proofs.GeneratedIds
import BlockArchive.Proofs.Persist.Made
import Mathlib.Data.List.Sort

/-!
# The order of a batch

The rows of a batch come in strictly ascending order of the keys by which the table tells them
apart: each batch is taken from a container that is sorted by them. So no statement touches a row
twice, and two blocks write the rows that they share in one order.

## Main definitions

- `Key.Before`: the order of keys
- `Ascending`: the rows of a batch come in the order of their keys
- `ShareOrder`: two batches have the rows that they share in one order
- `Persist.Ordered`: a batch of a block is in order

## Main statements

- `Ascending.nodup`, `Ascending.shareOrder`: what the order of batches is good for
- `Persist.makes_ordered`: the batches of a block are in order
- `Persist.answer_ne_repeatedKey`: no statement of a block is refused for a repeated key
- `nodup_of_unitRows`: the batch of the units repeats none
- `Store.Reachable.batches_in_order`: all that is sent is in order
-/

namespace BlockArchive

open Persist

/-! ## The order of keys -/

/-- The order of keys: texts by their characters, places by the parent and then the index, names by
the parent and then the characters. -/
def Key.Before : Key → Key → Prop
  | .text a, .text b => a < b
  | .slot a, .slot b => a.parent < b.parent ∨ a.parent = b.parent ∧ a.index < b.index
  | .named parent a, .named parent' b => parent < parent' ∨ parent = parent' ∧ a < b
  | _, _ => False

instance : (k l : Key) → Decidable (k.Before l)
  | .text _, .text _ => inferInstanceAs (Decidable (_ < _))
  | .slot _, .slot _ => inferInstanceAs (Decidable (_ ∨ _))
  | .named _ _, .named _ _ => inferInstanceAs (Decidable (_ ∨ _))
  | .text _, .slot _ | .text _, .named _ _ | .slot _, .text _ | .slot _, .named _ _
  | .named _ _, .text _ | .named _ _, .slot _ => inferInstanceAs (Decidable False)

/-- A pair goes before another by the first components or, where they are the same, by the second;
then the other does not go before it. -/
theorem not_before_of_before {κ : Type} [LT κ] [Std.Asymm fun a b : κ => a < b] {p q : Id} {a b : κ}
    (h : p < q ∨ p = q ∧ a < b) : ¬ (q < p ∨ q = p ∧ b < a) := by
  rintro (hback | ⟨hsame, hback⟩)
  · rcases h with hlt | ⟨rfl, _⟩
    · exact Int.lt_irrefl _ (Int.lt_trans hlt hback)
    · exact Int.lt_irrefl _ hback
  · rcases h with hlt | ⟨_, hlt⟩
    · exact Int.lt_irrefl _ (hsame ▸ hlt)
    · exact Std.Asymm.asymm a b hlt hback

theorem Key.Before.asymm {k l : Key} (h : k.Before l) : ¬ l.Before k := by
  cases k <;> cases l
  case text.text => exact String.lt_asymm h
  case slot.slot => exact not_before_of_before h
  case named.named => exact not_before_of_before h
  all_goals exact h.elim

/-- The rows of the batch come in strictly ascending order of their keys. -/
def Ascending (n : TableName) (rows : List n.Row) : Prop :=
  (rows.map n.key).Pairwise Key.Before

instance (n : TableName) (rows : List n.Row) : Decidable (Ascending n rows) :=
  inferInstanceAs (Decidable (List.Pairwise _ _))

/-- The batches have the rows that they share in the same order. -/
def ShareOrder (n : TableName) (rows rows' : List n.Row) : Prop :=
  (rows.map n.key).filter (· ∈ rows'.map n.key) = (rows'.map n.key).filter (· ∈ rows.map n.key)

namespace Ascending

variable {n : TableName} {rows rows' : List n.Row}

/-- No row of a batch in order is touched twice. -/
theorem nodup (h : Ascending n rows) : (rows.map n.key).Nodup :=
  h.imp fun {k l} hbefore hsame => by
    subst hsame
    exact hbefore.asymm hbefore

theorem shareOrder (h : Ascending n rows) (h' : Ascending n rows') : ShareOrder n rows rows' := by
  have hirrefl : Std.Irrefl Key.Before := ⟨fun _ hbefore => hbefore.asymm hbefore⟩
  have hantisymm : Std.Antisymm Key.Before := ⟨fun _ _ hkl hlk => absurd hlk hkl.asymm⟩
  refine (h.filter _).eq_of_mem_iff (h'.filter _) fun k => ?_
  rw [List.mem_filter, List.mem_filter, decide_eq_true_eq, decide_eq_true_eq, and_comm]

theorem of_text (part : n.Row → String) (hkey : ∀ row, n.key row = .text (part row))
    (h : rows.Pairwise fun a b => compare (part a) (part b) = .lt) : Ascending n rows := by
  rw [Ascending, List.pairwise_map]
  refine h.imp fun {a b} hlt => ?_
  rw [hkey, hkey]
  exact compareOfLessAndEq_eq_lt.1 hlt

theorem of_slot (part : n.Row → Slot) (hkey : ∀ row, n.key row = .slot (part row))
    (h : rows.Pairwise fun a b => compare (part a) (part b) = .lt) : Ascending n rows := by
  rw [Ascending, List.pairwise_map]
  refine h.imp fun {a b} hlt => ?_
  rw [hkey, hkey]
  -- the parents decide, and the indexes only where the parents are the same
  rcases Ordering.then_eq_lt.1 hlt with hparent | ⟨hparent, hindex⟩
  · exact Or.inl (Std.compare_eq_lt.1 hparent)
  · exact Or.inr ⟨Std.LawfulEqOrd.eq_of_compare hparent, Std.compare_eq_lt.1 hindex⟩

/-- Rows are placed in order. -/
theorem of_placeAll {entity : String} {part : n.Row → Slot} {candidates : List (Candidate n.Row)}
    (hkey : ∀ row, n.key row = .slot (part row)) (h : placeAll entity part candidates = .ok rows) :
    Ascending n rows := by
  obtain ⟨placed, _, _, rfl⟩ := placeAll_eq_ok_iff.1 h
  exact of_slot part hkey (OrderedMap.pairwise_values_ofList_map part placed)

end Ascending

theorem ofParts_ascending : OfParts Ascending :=
  fun n _ _ h hpart => List.Pairwise.sublist (hpart.map n.key) h

/-! ## The batches of a block -/

namespace Persist

/-- The batch is in order, where it is of texts that are shared if they are registered under
themselves. -/
def Ordered (data : ReferenceData) (n : TableName) (rows : List n.Row) : Prop :=
  (∀ kind, n = kind.table → (data.registered kind).KeyedByText) → Ascending n rows

theorem ofParts_ordered (data : ReferenceData) : OfParts (Ordered data) :=
  fun n rows part h hpart hkeyed => ofParts_ascending n rows part (h hkeyed) hpart

theorem makes_ordered (txs : List Tx) :
    Makes (Ordered (ReferenceData.collect (Tx.uniqueByHash txs))) (Tx.uniqueByHash txs) where
  addresses _ := .of_text (fun row => row) (fun _ => rfl) Std.ExtTreeSet.ordered_toList
  txes block addresses rows hrows _ := by
    have hhashes : (rows.map (·.hash)).Pairwise fun a b => compare a b = .lt := by
      rw [map_hash_of_txRows hrows, List.pairwise_map]
      exact OrderedMap.pairwise_values_ofList_map Tx.hash txs
    exact .of_text TxRow.hash (fun _ => rfl) (List.pairwise_map.1 hhashes)
  messageTypes h := .of_text (fun row => row) (fun _ => rfl) (h .messageType rfl).pairwise_values
  eventTypes h := .of_text (fun row => row) (fun _ => rfl) (h .eventType rfl).pairwise_values
  attributeKeys h := .of_text (fun row => row) (fun _ => rfl) (h .attributeKey rfl).pairwise_values
  messages _ _ _ hrows _ := .of_placeAll (fun _ => rfl) hrows
  events _ _ _ hrows _ := .of_placeAll (fun _ => rfl) hrows
  attributes _ _ _ hrows _ := .of_placeAll (fun _ => rfl) hrows

/-! ## Keys that are refused -/

theorem or_ne_some {α : Type} {a b : Option α} {x : α} (ha : a ≠ some x) (hb : b ≠ some x) :
    a.or b ≠ some x := by
  cases a with
  | none => exact hb
  | some y => exact ha

theorem map_refused_ne {fault? : Option QueryError} {cause : QueryError}
    (h : fault? ≠ some cause) : fault?.map Fault.refused ≠ some (.refused cause) := by
  intro hmap
  obtain ⟨other, hother, hsame⟩ := Option.map_eq_some_iff.1 hmap
  cases hsame
  exact h hother

theorem unsentFault?_ne_repeatedKey (texts : List String) :
    unsentFault? texts ≠ some .repeatedKey := by
  unfold unsentFault?
  split <;> exact nofun

theorem Level.faultAmong?_ne_refused {α : Type} {L : Level α} {known : List String}
    {parent : Parent} {taken : List Int64} {members : List α} (cause : QueryError) :
    L.faultAmong? known parent taken members ≠ some (.refused cause) := by
  induction members generalizing taken with
  | nil => rintro ⟨⟩
  | cons a rest ih =>
    rw [faultAmong?]
    split
    · rintro ⟨⟩
    · split
      · rintro ⟨⟩
      · exact ih

theorem Level.fault?_ne_refused {α : Type} {L : Level α} {known : List String}
    {families : List (Family α)} (cause : QueryError) :
    L.fault? known families ≠ some (.refused cause) := by
  intro h
  obtain ⟨family, _, hamong⟩ := List.exists_of_findSome?_eq_some h
  exact faultAmong?_ne_refused cause hamong

/-- Where no two texts of a kind are the same no statement is refused for a key that it repeats. -/
theorem fault?_ne_repeatedKey {s : Store} {block : Block} {txs : List Tx}
    (h : ∀ kind, ((ReferenceData.collect txs).texts kind).Nodup) :
    fault? s block txs ≠ some (.refused .repeatedKey) := by
  have htime : timeFault? block ≠ some .repeatedKey := by
    unfold timeFault?
    split <;> exact nofun
  have hchain : chainFault? s block ≠ some .repeatedKey := by
    unfold chainFault?
    split <;> exact nofun
  have hunsent := fun texts => map_refused_ne (unsentFault?_ne_repeatedKey texts)
  have hkind : ∀ kind : ReferenceKind,
      (kind.statements ((ReferenceData.collect txs).texts kind)).findSome?
        (fun texts => (unsentFault? texts).or (repeatFault? texts)) ≠ some .repeatedKey := by
    intro kind hfault
    obtain ⟨part, hpart, hfault⟩ := List.exists_of_findSome?_eq_some hfault
    have hnodup := (h kind).sublist (ReferenceKind.sublist_of_mem_statements hpart)
    rw [repeatFault?_eq_none.2 hnodup, Option.or_none] at hfault
    exact unsentFault?_ne_repeatedKey part hfault
  have htexts := or_ne_some (hkind .messageType)
    (or_ne_some (hkind .eventType) (hkind .attributeKey))
  have hlevel : levelFault? (ReferenceData.collect txs) txs ≠ some (.refused .repeatedKey) :=
    or_ne_some (Level.fault?_ne_refused _)
      (or_ne_some (Level.fault?_ne_refused _) (Level.fault?_ne_refused _))
  -- stage by stage
  refine or_ne_some (map_refused_ne (or_ne_some htime hchain)) (or_ne_some (hunsent _) ?_)
  refine or_ne_some (hunsent _) (or_ne_some (map_refused_ne htexts) ?_)
  exact or_ne_some hlevel (hunsent _)

/-- A block whose shared texts are registered under themselves is never refused for a key that a
batch repeats. -/
theorem answer_ne_repeatedKey {s : Store} (hs : s.Sound) {block : Block} {txs : List Tx}
    (h : ∀ kind, ((ReferenceData.collect (Tx.uniqueByHash txs)).registered kind).KeyedByText) :
    ((Step.persist block txs).outcome s).answer ≠ .error (.repo (.query .repeatedKey)) := by
  intro hanswer
  rcases Step.persist_cases hs block txs with
    ⟨_, ⟨_, hok⟩, _⟩ | ⟨fault, failure, hfault, htells, hfails, _⟩
  · rw [hok] at hanswer
    cases hanswer
  · rw [hfails] at hanswer
    cases hanswer
    cases fault with
    | refused cause =>
      cases show Failure.query .repeatedKey = .query cause from htells
      refine fault?_ne_repeatedKey (fun kind => ?_) hfault
      rw [ReferenceData.texts_eq]
      exact (h kind).nodup_values
    | unregistered kind text => cases htells
    | repeated kind parent index =>
      obtain ⟨_, _, htells⟩ := htells
      cases htells

end Persist

/-! ## The batches of denominations -/

/-- No unit comes twice, whatever the entries repeat: different denominations have different ids. -/
theorem nodup_of_unitRows {s t : Store} (hs : s.Sound) {entries : List DenomWithUnits}
    {stored : List (Entry Denom)} {units : List (List DenomUnitRow)}
    (hstored : Store.upsertAll .denoms ((DenomWithUnits.uniqueByBase entries).map (·.denom)) s =
      .ok stored t)
    (hunits : (DenomWithUnits.uniqueByBase entries).mapM
      (DenomWithUnits.unitRows (Entry.idsBy Denom.base stored)) = .ok units) :
    (units.flatten.map (TableName.key .denomUnits)).Nodup := by
  obtain ⟨rfl, -⟩ := Store.told_of_upsertAll (hs.keyed .denoms) hstored
  obtain ⟨rows, hrows, hflat⟩ := mapM_unitRows fun _ => getElem?_idsBy_base hs
  rw [hrows] at hunits
  cases hunits
  rw [hflat]
  exact nodup_unitRows hs entries

theorem ascending_denoms (entries : List DenomWithUnits) :
    Ascending .denoms ((DenomWithUnits.uniqueByBase entries).map (·.denom)) := by
  refine .of_text Denom.base (fun _ => rfl) (List.pairwise_map.2 ?_)
  exact OrderedMap.pairwise_values_ofList_map (fun entry => entry.denom.base) entries

theorem ascending_ibcDenoms (denoms : List IbcDenom) :
    Ascending .ibcDenoms (IbcDenom.uniqueByHash denoms) :=
  .of_text IbcDenom.hash (fun _ => rfl) (OrderedMap.pairwise_values_ofList_map IbcDenom.hash denoms)

/-! ## All that is sent -/

/-- Every batch of a block comes in strictly ascending order of its keys, where it is of texts that
are shared as long as each of them is registered under itself: the stages make no other batches,
whatever ids the rows above them have, and the block comes out the same with whatever does with
batches in order what the store does. So do the batches of denominations, and the batch of their
units repeats none. So no statement touches a row twice, however a batch may be cut into statements,
and any two batches for a table have the rows that they share in the same order. -/
theorem Store.Reachable.batches_in_order {s : Store} (h : s.Reachable) :
    (∀ block txs, let unique := Tx.uniqueByHash txs
      let data := ReferenceData.collect unique
      Makes (Ordered data) unique ∧
        (∀ carry, AgreeOn (Ordered data) carry Store.upsert →
          persistBy carry block txs = persist block txs) ∧
        ((∀ kind, (data.registered kind).KeyedByText) →
          ((Step.persist block txs).outcome s).answer ≠ .error (.repo (.query .repeatedKey)))) ∧
    (∀ entries carry carryAbsent, AgreeOn Ascending carry Store.upsert →
      AgreeOn (fun n rows => (rows.map n.key).Nodup) carryAbsent Store.insertAbsent →
        upsertDenomsBy carry carryAbsent entries { store := s } =
          upsertDenoms entries { store := s }) ∧
    (∀ denoms carry, AgreeOn Ascending carry Store.upsert →
      upsertIbcDenomsBy carry denoms = upsertIbcDenoms denoms) ∧
    (∀ n rows, Ascending n rows → ∀ part, List.Sublist part rows → (part.map n.key).Nodup) ∧
    ∀ n rows rows', Ascending n rows → Ascending n rows' → ShareOrder n rows rows' := by
  refine ⟨fun block txs => ⟨makes_ordered txs, fun carry hcarry => ?_, ?_⟩,
    fun entries carry carryAbsent hcarry hcarryAbsent => ?_, fun denoms carry hcarry => ?_,
    fun n rows hrows part hpart => ?_, fun n rows rows' hrows hrows' => hrows.shareOrder hrows'⟩
  · exact persistBy_eq (ofParts_ordered _) hcarry (fun _ => List.pairwise_singleton ..)
      (makes_ordered txs)
  · exact answer_ne_repeatedKey h.sound
  · exact upsertDenomsBy_eq ofParts_ascending
      (fun n _ _ hrows hpart => hrows.sublist (hpart.map n.key)) hcarry hcarryAbsent
      (ascending_denoms entries) fun _ _ _ => nodup_of_unitRows h.sound
  · exact upsertIbcDenomsBy_eq ofParts_ascending hcarry (ascending_ibcDenoms denoms)
  · exact hrows.nodup.sublist (hpart.map n.key)

/-- Where batches out of order are refused, denominations of which one is stored already and comes
twice are stored all the same, and so is a block. Its messages come by the ids of their
transactions, which are not in the order of the hashes, and then by their indexes, which are not in
the order in which the block lists them. -/
theorem Store.Reachable.batches_in_order_of_reversed_messages :
    let block : Block := ⟨1, 7, Instant.zero⟩
    let txs := [Tx.new "h2" 0 (some "bob") [⟨"vote", 1, []⟩, ⟨"send", 0, []⟩],
      Tx.new "h1" 0 (some "alice") [⟨"send", 0, []⟩]]
    let s := (Step.upsertDenoms [⟨⟨"uatom", "Atom", "ATOM"⟩, [⟨0, "uatom"⟩]⟩]).next ∅
    let entries : List DenomWithUnits := [⟨⟨"uatom", "Old", "OLD"⟩, []⟩,
      ⟨⟨"uosmo", "Osmo", "OSMO"⟩, [⟨0, "uosmo"⟩]⟩, ⟨⟨"uatom", "Cosmos", "ATOM"⟩, [⟨6, "atom"⟩]⟩]
    let carry : Carrier := fun n rows =>
      if Ascending n rows then Store.upsert n rows else throw .notFound
    let carryAbsent := fun (n : TableName) (rows : List n.Row) =>
      if (rows.map n.key).Nodup then Store.insertAbsent n rows else throw .notFound
    let ids : ParentIds := { txes := .ofList [("h1", (5 : Id)), ("h2", 4)] }
    let refs : ResolvedReferences := { messageTypes := .ofList [("send", (1 : Id)), ("vote", 2)] }
    let rows : List MessageRow := [⟨4, 1, 0⟩, ⟨4, 2, 1⟩, ⟨5, 1, 0⟩]
    upsertDenomsBy carry carryAbsent entries { store := s } =
        upsertDenoms entries { store := s } ∧
      persistBy carry block txs = persist block txs ∧
      messageRows ids refs (Tx.uniqueByHash txs) = .ok rows ∧ Ascending .messages rows := by
  intro block txs s entries carry carryAbsent ids refs rows
  have hs : s.Reachable := .step .empty _
  obtain ⟨hblocks, hdenoms, _⟩ := hs.batches_in_order
  obtain ⟨hmakes, hstores, _⟩ := hblocks block txs
  have hkeyed : ∀ kind,
      ((ReferenceData.collect (Tx.uniqueByHash txs)).registered kind).KeyedByText := by
    refine fun kind => ReferenceData.keyedByText_collect fun tx htx => ?_
    have hmem := Tx.mem_of_mem_uniqueByHash htx
    simp only [txs, List.mem_cons, List.not_mem_nil, or_false] at hmem
    rcases hmem with rfl | rfl <;> exact ((Tx.Made.new ..).registers.isOf kind).keyedByText
  have hrows : messageRows ids refs (Tx.uniqueByHash txs) = .ok rows := by decide +kernel
  refine ⟨hdenoms entries carry carryAbsent (fun _ _ hrows => if_pos hrows)
      fun _ _ hrows => if_pos hrows,
    hstores carry fun n rows hordered => ?_, hrows,
    hmakes.messages ids refs rows hrows fun kind _ => hkeyed kind⟩
  exact if_pos (hordered fun kind _ => hkeyed kind)

end BlockArchive
