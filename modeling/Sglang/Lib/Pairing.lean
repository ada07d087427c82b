/-
# Partial injections between two finite stocks

`Pairing live image partner` says that `partner` is a partial injection defined on part
of `live` and onto `image`. Adding fresh pairs, dropping partners and retiring elements
without a partner keep it; these are the moves of two resources that are handed out
together and may be given back apart.
-/

import Mathlib.Data.Finset.Basic

namespace Sglang.Lib

open List

variable {α β : Type*} [DecidableEq α] [DecidableEq β] {as : List α} {bs : List β} {a : α}

/-- `partner` is a partial injection from `live` onto `image`. -/
structure Pairing (live : Finset α) (image : Finset β) (partner : α → Option β) : Prop where
  dom : ∀ a b, partner a = some b → a ∈ live
  range : ∀ b, b ∈ image ↔ ∃ a, partner a = some b
  inj : ∀ a a' b, partner a = some b → partner a' = some b → a = a'

/-- Pair the `k`-th element of `as` with the `k`-th of `bs`. -/
def pairUp (partner : α → Option β) (as : List α) (bs : List β) (a : α) : Option β :=
  if a ∈ as then bs[as.idxOf a]? else partner a

/-- Forget the partners of `as`. -/
def unpair (partner : α → Option β) (as : List α) (a : α) : Option β :=
  if a ∈ as then none else partner a

omit [DecidableEq β] in
lemma pairUp_of_not_mem {partner : α → Option β}
    (fresh : a ∉ as) : pairUp partner as bs a = partner a := if_neg fresh

omit [DecidableEq β] in
lemma pairUp_getElem? {partner : α → Option β} {k : Nat}
    (nodup : as.Nodup) (at_k : as[k]? = some a) : pairUp partner as bs a = bs[k]? := by
  obtain ⟨lt, rfl⟩ := List.getElem?_eq_some_iff.mp at_k
  rw [pairUp, if_pos (getElem_mem lt), nodup.idxOf_getElem]

omit [DecidableEq β] in
lemma unpair_eq_some {partner : α → Option β} {b : β} :
    unpair partner as a = some b ↔ a ∉ as ∧ partner a = some b := by
  unfold unpair
  split <;> simp_all

namespace Pairing

variable {live live' : Finset α} {image : Finset β} {partner : α → Option β}

omit [DecidableEq α] [DecidableEq β] in
lemma empty : Pairing (∅ : Finset α) (∅ : Finset β) (fun _ => none) :=
  ⟨by simp, by simp, by simp⟩

variable (pairing : Pairing live image partner)
include pairing

/-- Fresh elements on both sides, paired in order. -/
lemma extend (length : as.length = bs.length) (nodup : as.Nodup) (nodup' : bs.Nodup)
    (fresh : ∀ a ∈ as, a ∉ live) (fresh' : ∀ b ∈ bs, b ∉ image) :
    Pairing (live ∪ as.toFinset) (image ∪ bs.toFinset) (pairUp partner as bs) := by
  have cases_ : ∀ a b, pairUp partner as bs a = some b →
      (a ∉ as ∧ partner a = some b) ∨ ∃ k : Nat, as[k]? = some a ∧ bs[k]? = some b := by
    intro a b h
    by_cases new : a ∈ as
    · obtain ⟨k, lt, rfl⟩ := getElem_of_mem new
      have at_k : as[k]? = some as[k] := getElem?_eq_getElem lt
      exact .inr ⟨k, at_k, (pairUp_getElem? nodup at_k).symm.trans h⟩
    · exact .inl ⟨new, (pairUp_of_not_mem new).symm.trans h⟩
  refine ⟨?_, ?_, ?_⟩
  · intro a b h
    rw [Finset.mem_union, mem_toFinset]
    rcases cases_ a b h with ⟨-, old⟩ | ⟨k, at_k, -⟩
    · exact .inl (pairing.dom a b old)
    · exact .inr (mem_of_getElem? at_k)
  · intro b
    rw [Finset.mem_union, mem_toFinset, pairing.range]
    constructor
    · rintro (⟨a, old⟩ | new)
      · have notNew : a ∉ as := fun mem => fresh a mem (pairing.dom a b old)
        exact ⟨a, (pairUp_of_not_mem notNew).trans old⟩
      · obtain ⟨k, lt, rfl⟩ := getElem_of_mem new
        have at_k : as[k]? = some as[k] := getElem?_eq_getElem (length ▸ lt)
        exact ⟨as[k], (pairUp_getElem? nodup at_k).trans (getElem?_eq_getElem lt)⟩
    · rintro ⟨a, h⟩
      rcases cases_ a b h with ⟨-, old⟩ | ⟨k, -, at_k⟩
      · exact .inl ⟨a, old⟩
      · exact .inr (mem_of_getElem? at_k)
  · intro a a' b h h'
    have clash : ∀ {x : α} {k : Nat}, partner x = some b → bs[k]? = some b → False :=
      fun old at_k => fresh' b (mem_of_getElem? at_k) ((pairing.range b).mpr ⟨_, old⟩)
    rcases cases_ a b h with ⟨-, old⟩ | ⟨k, at_k, hit⟩
    · rcases cases_ a' b h' with ⟨-, old'⟩ | ⟨k', -, hit'⟩
      · exact pairing.inj a a' b old old'
      · exact (clash old hit').elim
    · rcases cases_ a' b h' with ⟨-, old'⟩ | ⟨k', at_k', hit'⟩
      · exact (clash old' hit).elim
      · obtain ⟨lt, e⟩ := List.getElem?_eq_some_iff.mp hit
        obtain ⟨lt', e'⟩ := List.getElem?_eq_some_iff.mp hit'
        have same : k = k' := (nodup'.getElem_inj_iff).mp (e.trans e'.symm)
        subst same
        exact Option.some.inj (at_k.symm.trans at_k')

/-- The partners of `as` are given back. -/
lemma drop (as : List α) :
    Pairing live (image \ (as.filterMap partner).toFinset) (unpair partner as) where
  dom := fun a b h => pairing.dom a b (unpair_eq_some.mp h).2
  range := by
    intro b
    simp only [Finset.mem_sdiff, mem_toFinset, mem_filterMap, not_exists, not_and,
      pairing.range, unpair_eq_some]
    constructor
    · rintro ⟨⟨a, h⟩, kept⟩
      exact ⟨a, fun mem => kept a mem h, h⟩
    · rintro ⟨a, kept, h⟩
      refine ⟨⟨a, h⟩, fun a' mem h' => kept ?_⟩
      rwa [pairing.inj a a' b h h']
  inj := fun a a' b h h' =>
    pairing.inj a a' b (unpair_eq_some.mp h).2 (unpair_eq_some.mp h').2

omit [DecidableEq α] [DecidableEq β] in
/-- Elements without a partner come and go freely. -/
lemma live_of_dom (dom : ∀ a b, partner a = some b → a ∈ live') : Pairing live' image partner :=
  ⟨dom, pairing.range, pairing.inj⟩

end Pairing

end Sglang.Lib
