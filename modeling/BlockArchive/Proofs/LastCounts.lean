import BlockArchive.Proofs.History.Moment
import BlockArchive.Proofs.Persist.Made

/-!
# The last one counts

Of transactions with one hash the last survives, and of texts that transactions bring along under
one key the last is right. So what becomes of a list of transactions is told by the last one of each
hash and of each key. Where every text is registered under itself there is nothing to choose from,
and neither the order of the list nor how often it has a transaction matters.

## Main statements

- `Tx.isLatest_iff_last?`: the last transaction of a hash, told by where it stands
- `Tx.last?_uniqueByHash`: the survivors have the same last transactions
- `Tx.uniqueByHash_keeps_last`: the survivors are in order, and are told by the last transactions
- `ReferenceData.registered_collect_append`: what two lists bring along together
- `ReferenceData.ext_registered`: what is brought along, told by its keys
- `ReferenceData.collect_is_union`: what is brought along is a union, in which later ones are right
-/

namespace BlockArchive

/-! ## Survivors -/

/-- Texts are ordered by the code points of their characters. -/
theorem codePoints_lt {a b : String} (h : a < b) :
    a.toList.map Char.toNat < b.toList.map Char.toNat :=
  List.map_lt (fun _ _ hlt => hlt) h

namespace Tx

variable {txs others : List Tx} {hash : String} {tx : Tx}

/-- The last transaction of a hash is the one after which the hash does not occur. -/
theorem isLatest_iff_last? :
    IsLatest (fun other : Tx => other.hash = hash) tx txs ↔ last? txs hash = some tx := by
  induction txs using List.reverseRecOn with
  | nil =>
    exact iff_of_false (fun h => List.not_mem_nil h.mem) (Option.some_ne_none tx).symm
  | append_singleton txs last ih =>
    have hlast : last? (txs ++ [last]) hash =
        if last.hash = hash then some last else last? txs hash := by
      rw [last?, List.reverse_concat, List.find?_cons]
      by_cases h : last.hash = hash <;> simp [h, last?]
    rw [isLatest_concat, ih, hlast]
    by_cases h : last.hash = hash
    · simp [h, eq_comm]
    · simp [h]

theorem last?_eq_some_iff :
    last? txs hash = some tx ↔ tx ∈ uniqueByHash txs ∧ tx.hash = hash := by
  rw [mem_uniqueByHash]
  constructor
  · intro h
    obtain ⟨_, rfl⟩ := hash_of_last? h
    exact ⟨h, rfl⟩
  · rintro ⟨h, rfl⟩
    exact h

theorem last?_append (earlier later : List Tx) (hash : String) :
    last? (earlier ++ later) hash = (last? later hash).or (last? earlier hash) := by
  rw [last?, List.reverse_append, List.find?_append, last?, last?]

/-- The survivors are in the order of their hashes. -/
theorem ascending_uniqueByHash (txs : List Tx) :
    (uniqueByHash txs).Pairwise fun a b => a.hash < b.hash :=
  (OrderedMap.pairwise_values_ofList_map Tx.hash txs).imp compareOfLessAndEq_eq_lt.1

/-- In a list in which no hash is repeated each transaction is the last of its hash. -/
theorem last?_of_nodup (hnodup : (txs.map (·.hash)).Nodup) (h : tx ∈ txs) :
    last? txs tx.hash = some tx := by
  obtain ⟨last, hlast, hhash⟩ :=
    exists_mem_uniqueByHash (List.mem_map_of_mem (f := (·.hash)) h)
  have hsame : last = tx :=
    List.inj_on_of_nodup_map hnodup (mem_of_mem_uniqueByHash hlast) h hhash
  rw [mem_uniqueByHash] at hlast
  rwa [hsame] at hlast

/-- Nothing is lost with the transactions that do not survive. -/
theorem last?_uniqueByHash (txs : List Tx) (hash : String) :
    last? (uniqueByHash txs) hash = last? txs hash := by
  apply Option.ext
  intro tx
  rw [last?_eq_some_iff, last?_eq_some_iff, mem_uniqueByHash]
  refine and_congr_left fun _ => ⟨fun h => (hash_of_last? h).1, fun h => ?_⟩
  exact last?_of_nodup (nodup_hashes txs) h

/-- The survivors are told by the last transactions. -/
theorem uniqueByHash_eq_iff :
    uniqueByHash txs = uniqueByHash others ↔ ∀ hash, last? txs hash = last? others hash := by
  constructor
  · intro h hash
    rw [← last?_uniqueByHash txs, h, last?_uniqueByHash]
  · intro h
    have hsame : (Std.ExtTreeMap.ofList (txs.map fun tx => (tx.hash, tx))) =
        Std.ExtTreeMap.ofList (others.map fun tx => (tx.hash, tx)) := by
      apply Std.ExtTreeMap.ext_getElem?
      intro hash
      rw [getElem?_byHash, getElem?_byHash, h]
    rw [uniqueByHash, hsame, uniqueByHash]

/-- The survivors of a list come in strictly ascending order of the code points of their hashes, and
they are the transactions after which their hash does not occur in the list, one for every hash that
does. So nothing more goes when they are taken once again, what follows may be added before or after
they have been taken, and two lists have the same survivors exactly if they have the same last
transaction of every hash. -/
theorem uniqueByHash_keeps_last (txs : List Tx) :
    ((uniqueByHash txs).Pairwise fun a b =>
      a.hash.toList.map Char.toNat < b.hash.toList.map Char.toNat) ∧
    (∀ tx, tx ∈ uniqueByHash txs ↔ IsLatest (fun other => other.hash = tx.hash) tx txs) ∧
    (∀ hash, (∃! tx, tx ∈ uniqueByHash txs ∧ tx.hash = hash) ↔ ∃ tx ∈ txs, tx.hash = hash) ∧
    uniqueByHash (uniqueByHash txs) = uniqueByHash txs ∧
    (∀ more, uniqueByHash (txs ++ more) = uniqueByHash (uniqueByHash txs ++ more)) ∧
    ∀ others, uniqueByHash txs = uniqueByHash others ↔
      ∀ hash tx, IsLatest (fun other => other.hash = hash) tx txs ↔
        IsLatest (fun other => other.hash = hash) tx others := by
  refine ⟨(ascending_uniqueByHash txs).imp codePoints_lt, fun tx => ?_, fun hash => ?_, ?_,
    fun more => ?_, fun others => ?_⟩
  · rw [isLatest_iff_last?, mem_uniqueByHash]
  · constructor
    · rintro ⟨tx, ⟨htx, hhash⟩, _⟩
      exact ⟨tx, mem_of_mem_uniqueByHash htx, hhash⟩
    · rintro ⟨tx, htx, rfl⟩
      obtain ⟨last, hlast, hhash⟩ :=
        exists_mem_uniqueByHash (List.mem_map_of_mem (f := (·.hash)) htx)
      refine ⟨last, ⟨hlast, hhash⟩, fun other ⟨hother, hhash'⟩ => ?_⟩
      exact List.inj_on_of_nodup_map (nodup_hashes txs) hother hlast (hhash'.trans hhash.symm)
  · exact uniqueByHash_eq_iff.2 (last?_uniqueByHash txs)
  · refine uniqueByHash_eq_iff.2 fun hash => ?_
    rw [last?_append, last?_append, last?_uniqueByHash]
  · simp only [uniqueByHash_eq_iff, isLatest_iff_last?]
    exact forall_congr' fun hash => Option.ext_iff

example : uniqueByHash [.new "b" 0 none [], .new "a" 0 none [], .new "b" 5 none []] =
    [.new "a" 0 none [], .new "b" 5 none []] := by decide +kernel

end Tx

/-! ## What is brought along -/

/-- Texts that are registered under themselves are told by their keys. -/
theorem TextMap.KeyedByText.ext {texts more : TextMap} (h : texts.KeyedByText)
    (h' : more.KeyedByText) (hkeys : ∀ key : String, key ∈ texts ↔ key ∈ more) : texts = more := by
  have hself : ∀ {t : TextMap}, t.KeyedByText → ∀ key : String,
      t[key]? = if key ∈ t then some key else none := by
    intro t ht key
    split
    · next hmem =>
      obtain ⟨text, htext⟩ := Option.isSome_iff_exists.1
        (Std.ExtTreeMap.mem_iff_isSome_getElem?.1 hmem)
      rw [htext, ht key text htext]
    · next hmem => exact Std.ExtTreeMap.getElem?_eq_none hmem
  apply Std.ExtTreeMap.ext_getElem?
  intro key
  rw [hself h, hself h']
  simp only [hkeys]

namespace ReferenceData

variable {xs ys : List Tx} {kind : ReferenceKind} {key : String}

theorem registered_collect_nil (kind : ReferenceKind) : (collect []).registered kind = ∅ := by
  cases kind <;> rfl

/-- What the first list brings along is overridden by what the second one does. -/
theorem registered_collect_append (xs ys : List Tx) (kind : ReferenceKind) (key : String) :
    ((collect (xs ++ ys)).registered kind)[key]? =
      (((collect ys).registered kind)[key]?).or ((collect xs).registered kind)[key]? := by
  induction ys using List.reverseRecOn with
  | nil =>
    rw [List.append_nil, registered_collect_nil, Std.ExtTreeMap.getElem?_empty, Option.none_or]
  | append_singleton ys tx ih =>
    rw [← List.append_assoc, registered_collect_concat, registered_collect_concat,
      Std.ExtTreeMap.getElem?_union, Std.ExtTreeMap.getElem?_union, ih, Option.or_assoc]

/-- A key is brought along by a transaction of the list. -/
theorem mem_registered_collect :
    key ∈ (collect xs).registered kind ↔ ∃ tx ∈ xs, key ∈ tx.registered kind := by
  induction xs using List.reverseRecOn with
  | nil =>
    rw [registered_collect_nil]
    simp
  | append_singleton xs tx ih =>
    rw [registered_collect_concat, Std.ExtTreeMap.mem_union_iff, ih]
    simp [or_and_right, exists_or]

/-- What is brought along is told by its kinds and the signers. -/
theorem ext_registered {a b : ReferenceData}
    (hregistered : ∀ kind, a.registered kind = b.registered kind)
    (hsigners : ∀ address, address ∈ a.signers ↔ address ∈ b.signers) : a = b := by
  have hsigners : a.signers = b.signers := Std.ExtTreeSet.ext_mem hsigners
  have hmessageTypes := hregistered .messageType
  have heventTypes := hregistered .eventType
  have hattributeKeys := hregistered .attributeKey
  cases a; cases b
  rw [mk.injEq]
  exact ⟨hmessageTypes, heventTypes, hattributeKeys, hsigners⟩

/-- Where every text is registered under itself, lists of the same transactions bring along the
same. -/
theorem collect_eq_of_mem_iff (hkeyed : ∀ tx ∈ xs, ∀ kind, (tx.registered kind).KeyedByText)
    (hmem : ∀ tx, tx ∈ ys ↔ tx ∈ xs) : collect ys = collect xs := by
  apply ext_registered
  · intro kind
    have hys : ((collect ys).registered kind).KeyedByText :=
      keyedByText_collect fun tx htx => hkeyed tx ((hmem tx).1 htx) kind
    refine hys.ext (keyedByText_collect fun tx htx => hkeyed tx htx kind) fun key => ?_
    simp only [mem_registered_collect, hmem]
  · intro address
    simp only [mem_signers_collect, hmem]

/-- What two lists bring along together is what the first one does, overridden by what the second
one does; the keys are those of the transactions, and the signers all who signed. If every
transaction registers each text under itself, only the set of the transactions matters, not their
order and not how often each of them is listed, and no text of a kind is brought along twice. -/
theorem collect_is_union :
    (∀ (xs ys : List Tx) kind (key : String),
      ((collect (xs ++ ys)).registered kind)[key]? =
        (((collect ys).registered kind)[key]?).or ((collect xs).registered kind)[key]?) ∧
    (∀ (xs : List Tx) kind (key : String),
      key ∈ (collect xs).registered kind ↔ ∃ tx ∈ xs, key ∈ tx.registered kind) ∧
    (∀ (xs : List Tx) (address : String),
      address ∈ (collect xs).signers ↔ ∃ tx ∈ xs, tx.signer = some address) ∧
    ∀ xs : List Tx, (∀ tx ∈ xs, ∀ kind, (tx.registered kind).KeyedByText) →
      (∀ ys : List Tx, (∀ tx, tx ∈ ys ↔ tx ∈ xs) → collect ys = collect xs) ∧
        ∀ kind, ((collect xs).registered kind).values.Nodup := by
  refine ⟨registered_collect_append, fun _ _ _ => mem_registered_collect,
    fun _ _ => mem_signers_collect, fun xs hkeyed => ⟨fun ys hmem => ?_, fun kind => ?_⟩⟩
  · exact collect_eq_of_mem_iff hkeyed hmem
  · exact (keyedByText_collect fun tx htx => hkeyed tx htx kind).nodup_values

/-- Two transactions that share a message type are listed the other way round, one of them twice. -/
theorem collect_is_union_of_repeated_tx :
    let a := Tx.new "h1" 0 (some "alice") [⟨"send", 0, []⟩]
    let b := Tx.new "h2" 0 none [⟨"send", 0, [⟨"transfer", 0, []⟩]⟩, ⟨"vote", 1, []⟩]
    (∀ tx ∈ [a, b], ∀ kind, (tx.registered kind).KeyedByText) ∧
      collect [b, a, b] = collect [a, b] ∧
      ((collect [a, b]).registered .messageType).values.Nodup := by
  intro a b
  have hkeyed : ∀ tx ∈ [a, b], ∀ kind, (tx.registered kind).KeyedByText := by
    have hmade : ∀ tx ∈ [a, b], ∃ messages, Tx.Made messages tx := by
      simp only [List.mem_cons, List.not_mem_nil, or_false]
      rintro tx (rfl | rfl)
      · exact ⟨_, .new ..⟩
      · exact ⟨_, .new ..⟩
    intro tx htx kind
    obtain ⟨_, h⟩ := hmade tx htx
    exact (h.registers.isOf kind).keyedByText
  obtain ⟨hsame, hnodup⟩ := collect_is_union.2.2.2 [a, b] hkeyed
  have hmem : ∀ tx, tx ∈ [b, a, b] ↔ tx ∈ [a, b] := by
    intro tx
    simp only [List.mem_cons, List.not_mem_nil, or_false]
    tauto
  exact ⟨hkeyed, hsame _ hmem, hnodup .messageType⟩

end ReferenceData

end BlockArchive
