import Mathlib.Data.List.Forall2
import Mathlib.Data.List.Induction
import Mathlib.Data.List.Sort
import Mathlib.Data.Option.Basic
import Std.Data.DTreeMap.Internal.WF.Lemmas
import Std.Data.ExtTreeMap

/-!
# Ordered maps made of lists

A map that is made of a list of pairs keeps, for every key, the last value that the list gives it.

## Main statements

- `OrderedMap.getElem?_ofList`: the last value of a key counts
- `OrderedMap.mem_values`: the values of a map are those of its keys
- `OrderedMap.pairwise_values`: the values come in the order of their keys
- `OrderedMap.toList_ofList_of_ascending`: pairs in the order of their keys are listed as they are
- `OrderedMap.forall₂_values`: maps that are related key by key have related values
- `OrderedMap.ofList_eq_of_perm`: pairs with different keys make the same map in any order
-/

namespace BlockArchive.OrderedMap

variable {κ β : Type} [Ord κ] [Std.TransOrd κ]

theorem values_eq_map_toList (t : Std.ExtTreeMap κ β) : t.values = t.toList.map Prod.snd := by
  obtain ⟨⟨q⟩⟩ := t
  induction q using Quotient.ind with
  | _ m =>
    show m.inner.values = (Std.DTreeMap.Internal.Impl.Const.toList m.inner).map Prod.snd
    rw [Std.DTreeMap.Internal.Impl.values_eq_map_snd,
      Std.DTreeMap.Internal.Impl.Const.toList_eq_toListModel_map, List.map_map]
    rfl

section Ascending

variable {α : Type} (key : α → κ) {l m : List α}

theorem nodup_of_ascending (h : l.Pairwise fun a b => compare (key a) (key b) = .lt) : l.Nodup := by
  refine h.imp fun {a b} hlt he => ?_
  rw [he, Std.ReflOrd.compare_self] at hlt
  cases hlt

/-- Lists in the order of their keys are equal if they have the same members. -/
theorem eq_of_ascending (hl : l.Pairwise fun a b => compare (key a) (key b) = .lt)
    (hm : m.Pairwise fun a b => compare (key a) (key b) = .lt) (h : ∀ a, a ∈ l ↔ a ∈ m) :
    l = m := by
  have hasymm : Std.Asymm fun a b : α => compare (key a) (key b) = .lt := by
    refine ⟨fun a b hab hba => ?_⟩
    rw [Std.OrientedOrd.eq_swap, hba] at hab
    cases hab
  exact hl.eq_of_mem_iff hm h

end Ascending

variable [Std.LawfulEqOrd κ]

theorem mem_values {t : Std.ExtTreeMap κ β} {value : β} :
    value ∈ t.values ↔ ∃ k : κ, t[k]? = some value := by
  rw [values_eq_map_toList, List.mem_map]
  constructor
  · rintro ⟨⟨k, v⟩, h, rfl⟩
    exact ⟨k, Std.ExtTreeMap.mem_toList_iff_getElem?_eq_some.1 h⟩
  · rintro ⟨k, h⟩
    exact ⟨(k, value), Std.ExtTreeMap.mem_toList_iff_getElem?_eq_some.2 h, rfl⟩

/-- Looking up the keys in order finds the values in order. -/
theorem map_getElem?_keys (t : Std.ExtTreeMap κ β) :
    t.keys.map (fun k => t[k]?) = t.values.map some := by
  rw [values_eq_map_toList, ← Std.ExtTreeMap.map_fst_toList_eq_keys, List.map_map, List.map_map]
  apply List.map_congr_left
  intro pair hpair
  exact Std.ExtTreeMap.mem_toList_iff_getElem?_eq_some.1 hpair

/-- Where every value tells the key that it is kept under, the values come in the order of the
keys. -/
theorem pairwise_values {t : Std.ExtTreeMap κ β} {key : β → κ}
    (h : ∀ (k : κ) value, t[k]? = some value → key value = k) :
    t.values.Pairwise fun a b => compare (key a) (key b) = .lt := by
  rw [values_eq_map_toList, List.pairwise_map]
  have hordered := Std.ExtTreeMap.ordered_keys_toList (t := t)
  refine List.Pairwise.imp_of_mem (fun {a b} ha hb hlt => ?_) hordered
  rw [h a.1 a.2 (Std.ExtTreeMap.mem_toList_iff_getElem?_eq_some.1 ha),
    h b.1 b.2 (Std.ExtTreeMap.mem_toList_iff_getElem?_eq_some.1 hb)]
  exact hlt

/-- Maps that are related key by key have related values, one after the other. -/
theorem forall₂_values {γ : Type} {R : β → γ → Prop} {t : Std.ExtTreeMap κ β}
    {u : Std.ExtTreeMap κ γ} (h : ∀ k : κ, Option.Rel R t[k]? u[k]?) :
    List.Forall₂ R t.values u.values := by
  have hmem : ∀ k, k ∈ t.keys ↔ k ∈ u.keys := by
    intro k
    simp only [Std.ExtTreeMap.mem_keys, Std.ExtTreeMap.mem_iff_isSome_getElem?]
    have hk := h k
    generalize t[k]? = a, u[k]? = b at hk ⊢
    cases hk <;> rfl
  have ht := Std.ExtTreeMap.ordered_keys (t := t)
  have hu := Std.ExtTreeMap.ordered_keys (t := u)
  have hkeys : t.keys = u.keys := eq_of_ascending id ht hu hmem
  have hlookups : List.Forall₂ (Option.Rel R) (t.keys.map (t[·]?)) (u.keys.map (u[·]?)) := by
    rw [List.forall₂_map_left_iff, List.forall₂_map_right_iff, hkeys]
    exact List.forall₂_same.2 fun k _ => h k
  rw [map_getElem?_keys, map_getElem?_keys, List.forall₂_map_left_iff,
    List.forall₂_map_right_iff] at hlookups
  exact hlookups.imp fun _ _ => Option.rel_some_some.1

omit [Std.TransOrd κ] in
theorem distinct_of_nodup {l : List (κ × β)} (hnodup : (l.map Prod.fst).Nodup) :
    l.Pairwise fun a b => ¬ compare a.1 b.1 = .eq := by
  rw [List.Nodup, List.pairwise_map] at hnodup
  exact hnodup.imp fun {a b} hne hc => hne (Std.LawfulEqOrd.eq_of_compare hc)

theorem size_ofList_of_nodup {l : List (κ × β)} (hnodup : (l.map Prod.fst).Nodup) :
    (Std.ExtTreeMap.ofList l).size = l.length :=
  Std.ExtTreeMap.size_ofList (distinct_of_nodup hnodup)

theorem getElem?_ofList_of_nodup {l : List (κ × β)} (hnodup : (l.map Prod.fst).Nodup) {k : κ}
    {value : β} (h : (k, value) ∈ l) : (Std.ExtTreeMap.ofList l)[k]? = some value :=
  Std.ExtTreeMap.getElem?_ofList_of_mem Std.ReflOrd.compare_self (distinct_of_nodup hnodup) h

variable [DecidableEq κ]

/-- The last value that the list gives to a key counts. -/
theorem getElem?_ofList (l : List (κ × β)) (k : κ) :
    (Std.ExtTreeMap.ofList l)[k]? = (l.reverse.find? fun pair => pair.1 = k).map Prod.snd := by
  rw [Std.ExtTreeMap.ofList_eq_insertMany_empty]
  induction l using List.reverseRecOn with
  | nil => simp
  | append_singleton l pair ih =>
    rw [Std.ExtTreeMap.insertMany_append, Std.ExtTreeMap.insertMany_list_singleton,
      Std.ExtTreeMap.getElem?_insert, List.reverse_append, List.reverse_singleton,
      List.singleton_append, List.find?_cons]
    by_cases h : pair.1 = k
    · rw [if_pos (Std.LawfulEqOrd.compare_eq_iff_eq.2 h)]
      simp [h]
    · rw [if_neg (fun hc => h (Std.LawfulEqOrd.compare_eq_iff_eq.1 hc)), ih]
      simp [h]

theorem exists_of_getElem?_ofList {l : List (κ × β)} {k : κ} {value : β}
    (h : (Std.ExtTreeMap.ofList l)[k]? = some value) :
    ∃ pair ∈ l, pair.1 = k ∧ pair.2 = value := by
  rw [getElem?_ofList, Option.map_eq_some_iff] at h
  obtain ⟨pair, hfind, hvalue⟩ := h
  refine ⟨pair, List.mem_reverse.1 (List.mem_of_find?_eq_some hfind), ?_, hvalue⟩
  simpa using List.find?_some hfind

theorem getElem?_ofList_eq_some_iff {l : List (κ × β)} (hnodup : (l.map Prod.fst).Nodup) {k : κ}
    {value : β} : (Std.ExtTreeMap.ofList l)[k]? = some value ↔ (k, value) ∈ l := by
  refine ⟨fun h => ?_, getElem?_ofList_of_nodup hnodup⟩
  obtain ⟨pair, hpair, rfl, rfl⟩ := exists_of_getElem?_ofList h
  exact hpair

/-- Pairs in the order of their keys are listed as they are. -/
theorem toList_ofList_of_ascending {l : List (κ × β)}
    (h : l.Pairwise fun a b => compare a.1 b.1 = .lt) : (Std.ExtTreeMap.ofList l).toList = l := by
  have hnodup : (l.map Prod.fst).Nodup :=
    nodup_of_ascending id (List.pairwise_map.2 h)
  apply eq_of_ascending Prod.fst Std.ExtTreeMap.ordered_keys_toList h
  rintro ⟨k, value⟩
  rw [Std.ExtTreeMap.mem_toList_iff_getElem?_eq_some, getElem?_ofList_eq_some_iff hnodup]

/-- Pairs with different keys make the same map in any order. -/
theorem ofList_eq_of_perm {l m : List (κ × β)} (h : l.Perm m) (hnodup : (l.map Prod.fst).Nodup) :
    Std.ExtTreeMap.ofList l = Std.ExtTreeMap.ofList m := by
  apply Std.ExtTreeMap.ext_getElem?
  intro k
  apply Option.ext
  intro value
  rw [getElem?_ofList_eq_some_iff hnodup, h.mem_iff,
    getElem?_ofList_eq_some_iff ((h.map Prod.fst).nodup hnodup)]

/-! ## The last of each key -/

section Last

variable {α : Type} {key : α → κ} {l : List α}

theorem getElem?_ofList_map (key : α → κ) (l : List α) (k : κ) :
    (Std.ExtTreeMap.ofList (l.map fun a => (key a, a)))[k]? =
      l.reverse.find? fun a => key a = k := by
  rw [getElem?_ofList, ← List.map_reverse, List.find?_map, Option.map_map]
  exact Option.map_id'

theorem mem_values_ofList_map {a : α} :
    a ∈ (Std.ExtTreeMap.ofList (l.map fun a => (key a, a))).values ↔
      (l.reverse.find? fun b => key b = key a) = some a := by
  simp only [mem_values, getElem?_ofList_map]
  refine ⟨?_, fun h => ⟨key a, h⟩⟩
  rintro ⟨k, h⟩
  have hk : key a = k := by simpa using List.find?_some h
  rwa [hk]

/-- The last values come in the order of their keys. -/
theorem pairwise_values_ofList_map (key : α → κ) (l : List α) :
    (Std.ExtTreeMap.ofList (l.map fun a => (key a, a))).values.Pairwise
      fun a b => compare (key a) (key b) = .lt := by
  apply pairwise_values
  intro k a h
  rw [getElem?_ofList_map] at h
  simpa using List.find?_some h

/-- No two of the last values share their key. -/
theorem nodup_values_ofList_map (key : α → κ) (l : List α) :
    ((Std.ExtTreeMap.ofList (l.map fun a => (key a, a))).values.map key).Nodup :=
  nodup_of_ascending id (List.pairwise_map.2 (pairwise_values_ofList_map key l))

end Last

end BlockArchive.OrderedMap
