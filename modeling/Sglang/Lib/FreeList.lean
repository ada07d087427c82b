/-
# Free lists over a finite stock

A stock of identifiers is split between a free list and the set handed out. The
rules here say how taking from the list and giving back to it keep the split; they
name no allocator and are used for page lists and for identifier lists alike.
-/

import Mathlib.Data.Finset.Card

namespace Sglang.Lib

open List

open Finset (mem_sdiff mem_union)

variable {α : Type*}

/-- `free` without repetition and `held` partition `stock`. -/
structure Splits (stock : Finset α) (free : List α) (held : Finset α) : Prop where
  nodup : free.Nodup
  disjoint : ∀ x ∈ free, x ∉ held
  cover : ∀ x, x ∈ stock ↔ x ∈ free ∨ x ∈ held

namespace Splits

variable {stock held : Finset α} {free free' xs ys : List α}

/-- Everything is free at the start. -/
lemma all (nodup : free.Nodup) (cover : ∀ x, x ∈ stock ↔ x ∈ free) : Splits stock free ∅ where
  nodup := nodup
  disjoint := by simp
  cover := by simpa using cover

lemma perm (split : Splits stock free held) (p : free.Perm free') : Splits stock free' held where
  nodup := p.nodup_iff.mp split.nodup
  disjoint := fun x mem => split.disjoint x (p.mem_iff.mpr mem)
  cover := fun x => by rw [split.cover x, p.mem_iff]

/-- Handing out a front part of the list. -/
lemma take [DecidableEq α] (split : Splits stock (xs ++ free) held) :
    Splits stock free (held ∪ xs.toFinset) where
  nodup := split.nodup.of_append_right
  disjoint := by
    intro x mem
    have apart := nodup_append.mp split.nodup
    simp only [mem_union, mem_toFinset, not_or]
    exact ⟨split.disjoint x (mem_append_right _ mem), fun taken => apart.2.2 x taken x mem rfl⟩
  cover := by
    intro x
    rw [split.cover x, mem_append, mem_union, mem_toFinset]
    tauto

/-- Giving back distinct elements that are held. -/
lemma give [DecidableEq α] (split : Splits stock free held) (nodup : xs.Nodup) (sub : ∀ x ∈ xs, x ∈ held) :
    Splits stock (xs ++ free) (held \ xs.toFinset) where
  nodup := by
    refine nodup_append.mpr ⟨nodup, split.nodup, ?_⟩
    rintro x mem y free rfl
    exact split.disjoint x free (sub x mem)
  disjoint := by
    intro x mem
    rw [mem_sdiff, mem_toFinset, not_and, not_not]
    intro still
    rcases mem_append.mp mem with given | free
    · exact given
    · exact absurd still (split.disjoint x free)
  cover := by
    intro x
    rw [split.cover x, mem_append, mem_sdiff, mem_toFinset]
    tauto

/-- Handing out a front part of the list for elements that come back. -/
lemma exchange [DecidableEq α] (split : Splits stock (xs ++ free) held) (nodup : ys.Nodup)
    (sub : ∀ y ∈ ys, y ∈ held) : Splits stock (ys ++ free) (held \ ys.toFinset ∪ xs.toFinset) := by
  have given := split.take.give nodup fun y mem => Finset.mem_union_left _ (sub y mem)
  have apart : Disjoint xs.toFinset ys.toFinset := by
    rw [Finset.disjoint_left]
    intro x mem mem'
    exact split.disjoint x (mem_append_left _ (mem_toFinset.mp mem))
      (sub x (mem_toFinset.mp mem'))
  rwa [Finset.union_sdiff_distrib, Finset.sdiff_eq_self_of_disjoint apart] at given

/-- New elements join the stock as held ones. -/
lemma grow [DecidableEq α] (split : Splits stock free held) (fresh : ∀ x ∈ xs, x ∉ stock) :
    Splits (stock ∪ xs.toFinset) free (held ∪ xs.toFinset) where
  nodup := split.nodup
  disjoint := by
    intro x mem
    rw [mem_union, mem_toFinset, not_or]
    exact ⟨split.disjoint x mem, fun new => fresh x new ((split.cover x).mpr (.inl mem))⟩
  cover := by
    intro x
    rw [mem_union, mem_union, split.cover x]
    tauto

/-- Free elements leave the stock. -/
lemma shrink [DecidableEq α] (split : Splits stock (xs ++ free) held) :
    Splits (stock \ xs.toFinset) free held where
  nodup := split.nodup.of_append_right
  disjoint := fun x mem => split.disjoint x (mem_append_right _ mem)
  cover := by
    intro x
    have apart := nodup_append.mp split.nodup
    rw [mem_sdiff, mem_toFinset, split.cover x, mem_append]
    constructor
    · tauto
    · rintro (mem | mem)
      · exact ⟨.inl (.inr mem), fun gone => apart.2.2 x gone x mem rfl⟩
      · exact ⟨.inr mem, fun gone => split.disjoint x (mem_append_left _ gone) mem⟩

variable (split : Splits stock free held)
include split

lemma card [DecidableEq α] : stock.card = free.length + held.card := by
  have union : stock = free.toFinset ∪ held := by
    ext x
    rw [split.cover x, mem_union, mem_toFinset]
  have apart : Disjoint free.toFinset held := by
    rw [Finset.disjoint_left]
    exact fun x mem => split.disjoint x (mem_toFinset.mp mem)
  rw [union, Finset.card_union_of_disjoint apart, toFinset_card_of_nodup split.nodup]

lemma held_sub : held ⊆ stock :=
  fun x mem => (split.cover x).mpr (.inr mem)

lemma free_mem {x : α} (mem : x ∈ free) : x ∈ stock :=
  (split.cover x).mpr (.inl mem)

lemma not_free {x : α} (mem : x ∈ held) : x ∉ free :=
  fun free => split.disjoint x free mem

end Splits

end Sglang.Lib
