import BlockArchive.Proofs.Effects
import BlockArchive.Proofs.History.Moment
import BlockArchive.Proofs.Renaming

/-!
# Denominations that come in parts

Of the entries of a hash the last counts, within a call and from one call to the next. So a list of
denominations that came over IBC may be split into calls in any way: under every hash is the last
entry of the whole list in the end, and what differs are the ids of hashes that are new.

## Main definitions

- `IbcDenom.Accepted`: the store takes the texts of the denomination
- `Store.TakesIbcDenoms`: a store takes in denominations that came over IBC

## Main statements

- `Step.takes_upsertIbcDenoms`: what one call does
- `Store.takes_parts`: what calls one after the other do
- `Store.Reachable.ibcDenoms_in_parts`: the calls into which a list is split do not matter
-/

namespace BlockArchive

open Persist (unsentFault?_eq_none)

/-! ## Entries -/

namespace IbcDenom

/-- The store takes the texts of the denomination. -/
def Accepted (denom : IbcDenom) : Prop :=
  ∀ text ∈ TableName.texts .ibcDenoms denom, ¬ HasZero text

instance (denom : IbcDenom) : Decidable denom.Accepted :=
  inferInstanceAs (Decidable (∀ text ∈ _, _))

theorem fault?_eq_none_of_accepted {denoms : List IbcDenom}
    (h : ∀ denom ∈ denoms, denom.Accepted) : ibcDenomFault? denoms = none := by
  refine unsentFault?_eq_none.2 fun text htext => ?_
  obtain ⟨denom, hdenom, htext⟩ := List.mem_flatMap.1 htext
  have hmem := List.mem_of_find?_eq_some (mem_uniqueByHash.1 hdenom)
  exact h denom (List.mem_reverse.1 hmem) text htext

/-- The last entry of a hash is in the later list, if there is one. -/
theorem last?_append (earlier later : List IbcDenom) (hash : String) :
    last? (earlier ++ later) hash = (last? later hash).or (last? earlier hash) := by
  rw [last?, List.reverse_append, List.find?_append, last?, last?]

end IbcDenom

namespace Store

variable {s t u : Store}

/-- The store `t` is the store `s` with the denominations taken in. -/
structure TakesIbcDenoms (s : Store) (denoms : List IbcDenom) (t : Store) : Prop where
  /-- Under a hash is its last entry, or what was there if it has none. -/
  row : ∀ hash, (t.find? .ibcDenoms (.text hash)).map (·.row) =
    (IbcDenom.last? denoms hash).or ((s.find? .ibcDenoms (.text hash)).map (·.row))
  /-- A hash that was there keeps its id. -/
  id : ∀ hash old, s.find? .ibcDenoms (.text hash) = some old →
    ∃ new, t.find? .ibcDenoms (.text hash) = some new ∧ new.id = old.id
  /-- No other table changes. -/
  rest : ∀ n, n ≠ .ibcDenoms → t.get n = s.get n

namespace TakesIbcDenoms

theorem nil (s : Store) : s.TakesIbcDenoms [] s where
  row _ := rfl
  id _ old hold := ⟨old, hold, rfl⟩
  rest _ _ := rfl

/-- What is taken in later counts. -/
theorem trans {earlier later : List IbcDenom} (h : s.TakesIbcDenoms earlier t)
    (h' : t.TakesIbcDenoms later u) : s.TakesIbcDenoms (earlier ++ later) u where
  row hash := by rw [h'.row, h.row, IbcDenom.last?_append, Option.or_assoc]
  id hash old hold := by
    obtain ⟨middle, hmiddle, hid⟩ := h.id hash old hold
    obtain ⟨new, hnew, hid'⟩ := h'.id hash middle hmiddle
    exact ⟨new, hnew, hid'.trans hid⟩
  rest n hn := (h'.rest n hn).trans (h.rest n hn)

theorem view_eq {denoms : List IbcDenom} (h : s.TakesIbcDenoms denoms t) :
    t.view = s.view.upsertIbcDenoms denoms := by
  have hset : t = s.set .ibcDenoms (t.get .ibcDenoms) := by
    apply ext_get
    intro n
    by_cases hn : n = .ibcDenoms
    · subst hn
      rw [get_set_self]
    · rw [get_set_of_ne _ _ hn, h.rest n hn]
  apply View.ext
  case ibcDenoms =>
    funext hash
    exact h.row hash
  all_goals rw [hset]
  case texts =>
    funext kind
    cases kind <;> rfl
  case marked =>
    funext pipeline
    cases pipeline <;> rfl
  all_goals rfl

end TakesIbcDenoms

theorem takesIbcDenoms_withIbcDenoms (hs : s.Sound) (denoms : List IbcDenom) :
    s.TakesIbcDenoms denoms (s.withIbcDenoms denoms) where
  row hash := congrFun (congrArg View.ibcDenoms (view_withIbcDenoms hs denoms)) hash
  id hash old hold := by
    obtain ⟨hmem, hkey⟩ := mem_of_find? hold
    obtain ⟨new, hnew, hid, hkeys⟩ := (hs.keyed .ibcDenoms).exists_mem_offerAll
      TableName.ibcDenoms.keepsKey_refresh (IbcDenom.uniqueByHash denoms) hmem
    have hkeyed := (hs.keyed .ibcDenoms).offerAll TableName.ibcDenoms.keepsKey_refresh
      (IbcDenom.uniqueByHash denoms)
    exact ⟨new, hkeyed.find?_eq_some.2 ⟨hnew, hkeys.trans hkey⟩, hid⟩
  rest _ hn := get_set_of_ne s _ hn

end Store

/-! ## Calls -/

variable {s : Store}

/-- A call with denominations that the store accepts succeeds and takes them in. -/
theorem Step.takes_upsertIbcDenoms (hs : s.Sound) {denoms : List IbcDenom}
    (h : ∀ denom ∈ denoms, denom.Accepted) :
    (upsertIbcDenoms denoms).Succeeds s ∧
      s.TakesIbcDenoms denoms ((upsertIbcDenoms denoms).next s) := by
  have hsession : ({ store := s } : Session).store = s := rfl
  obtain ⟨hok, hstore⟩ := (does_upsertIbcDenoms denoms).ends
    (ends_upsertIbcDenoms hs denoms hsession)
  have hfault := IbcDenom.fault?_eq_none_of_accepted h
  obtain ⟨_, after, hafter, hnext⟩ := hstore hfault
  refine ⟨hok.2 hfault, ?_⟩
  rw [hnext, hafter]
  exact Store.takesIbcDenoms_withIbcDenoms hs denoms

namespace Store

/-- Calls with parts of a list, one after the other, succeed and take in the whole list. -/
theorem takes_parts (hs : s.Sound) {parts : List (List IbcDenom)}
    (h : ∀ denom ∈ parts.flatten, denom.Accepted) :
    (∀ m ∈ s.history (parts.map .upsertIbcDenoms), m.Succeeds) ∧
      s.TakesIbcDenoms parts.flatten (s.after (parts.map .upsertIbcDenoms)) := by
  induction parts generalizing s with
  | nil => exact ⟨fun _ hm => (List.not_mem_nil hm).elim, TakesIbcDenoms.nil s⟩
  | cons part rest ih =>
    have hpart : ∀ denom ∈ part, denom.Accepted :=
      fun denom hdenom => h denom (List.mem_append_left _ hdenom)
    have hrest : ∀ denom ∈ rest.flatten, denom.Accepted :=
      fun denom hdenom => h denom (List.mem_append_right _ hdenom)
    obtain ⟨hok, htakes⟩ := Step.takes_upsertIbcDenoms hs hpart
    obtain ⟨hoks, htakesRest⟩ := ih ((Step.upsertIbcDenoms part).keeps_next s hs).1 hrest
    refine ⟨fun m hm => ?_, htakes.trans htakesRest⟩
    rcases List.mem_cons.1 hm with rfl | hm
    · exact hok
    · exact hoks m hm

/-- Denominations that came over IBC may be sent together or one part after the other, however the
list is split into calls: every call succeeds, under every hash is in the end its last entry in the
whole list, or what was stored if it has none, what was stored keeps its id, and the stores that the
calls lead to differ at most in the ids of hashes that are new. -/
theorem Reachable.ibcDenoms_in_parts (h : s.Reachable) {xs ys : List IbcDenom}
    (haccepted : ∀ denom ∈ xs ++ ys, denom.Accepted) :
    let whole := (Step.upsertIbcDenoms (xs ++ ys)).next s
    ((Step.upsertIbcDenoms (xs ++ ys)).Succeeds s ∧ s.TakesIbcDenoms (xs ++ ys) whole) ∧
    ((Step.upsertIbcDenoms xs).Succeeds s ∧
      (Step.upsertIbcDenoms ys).Succeeds ((Step.upsertIbcDenoms xs).next s) ∧
      s.TakesIbcDenoms (xs ++ ys)
        ((Step.upsertIbcDenoms ys).next ((Step.upsertIbcDenoms xs).next s))) ∧
    ∀ parts : List (List IbcDenom), parts.flatten = xs ++ ys →
      (∀ m ∈ s.history (parts.map .upsertIbcDenoms), m.Succeeds) ∧
      s.TakesIbcDenoms (xs ++ ys) (s.after (parts.map .upsertIbcDenoms)) ∧
      whole.SameButIds (s.after (parts.map .upsertIbcDenoms)) := by
  intro whole
  have hwhole := Step.takes_upsertIbcDenoms h.sound haccepted
  have hparts : ∀ parts : List (List IbcDenom), parts.flatten = xs ++ ys →
      (∀ m ∈ s.history (parts.map .upsertIbcDenoms), m.Succeeds) ∧
        s.TakesIbcDenoms (xs ++ ys) (s.after (parts.map .upsertIbcDenoms)) := by
    intro parts hflat
    rw [← hflat] at haccepted ⊢
    exact takes_parts h.sound haccepted
  refine ⟨hwhole, ?_, fun parts hflat => ?_⟩
  · obtain ⟨hoks, htakes⟩ := hparts [xs, ys] (by simp)
    exact ⟨hoks ⟨s, _⟩ List.mem_cons_self,
      hoks ⟨_, _⟩ (List.mem_cons_of_mem _ List.mem_cons_self), htakes⟩
  · obtain ⟨hoks, htakes⟩ := hparts parts hflat
    have hview := hwhole.2.view_eq.trans htakes.view_eq.symm
    exact ⟨hoks, htakes,
      sameButIds_of_view (Step.keeps_next _ s h.sound).1 (h.after _).sound hview⟩

/-- One hash is stored already, another comes in both lists. Sent one list after the other, the new
hashes get other ids than when they are sent together. -/
theorem Reachable.ibcDenoms_in_parts_of_repeated_hash :
    let s := (Step.upsertIbcDenoms [⟨"H1", "transfer/channel-1", "uatom"⟩]).next ∅
    let xs : List IbcDenom := [⟨"H3", "transfer/channel-0", "uosmo"⟩]
    let ys : List IbcDenom :=
      [⟨"H2", "transfer/channel-2", "ustars"⟩, ⟨"H1", "transfer/channel-9", "uatom"⟩,
        ⟨"H3", "transfer/channel-3", "uosmo"⟩]
    let whole := (Step.upsertIbcDenoms (xs ++ ys)).next s
    let halves := (Step.upsertIbcDenoms ys).next ((Step.upsertIbcDenoms xs).next s)
    s.TakesIbcDenoms (xs ++ ys) whole ∧ s.TakesIbcDenoms (xs ++ ys) halves ∧
      whole.find? .ibcDenoms (.text "H3") =
        some ⟨4, ⟨"H3", "transfer/channel-3", "uosmo"⟩⟩ ∧
      halves.find? .ibcDenoms (.text "H3") =
        some ⟨2, ⟨"H3", "transfer/channel-3", "uosmo"⟩⟩ := by
  intro s xs ys whole halves
  have hs : s.Reachable := .step .empty _
  have haccepted : ∀ denom ∈ xs ++ ys, denom.Accepted := by decide +kernel
  obtain ⟨hwhole, hhalves, _⟩ := hs.ibcDenoms_in_parts haccepted
  exact ⟨hwhole.2, hhalves.2.2, by decide +kernel, by decide +kernel⟩

end Store

end BlockArchive
