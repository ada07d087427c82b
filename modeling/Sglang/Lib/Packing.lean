/-
# Packing a band

A band of positions loses as many positions at one end as there are free ones anywhere in
it. The survivors of the vacated end move into the free positions of the kept part.

* `exchange_card`, `exchange_eq` — there are exactly as many survivors as free positions
  to put them in, and afterwards the kept part is full.
* `mem_final_iff` — relocating a list element by element onto another one.
* `takeWhile_zip_split` — walking the survivors from the outside and the free positions
  from the inside until the two cross finds exactly these pairs.
-/

import Mathlib.Data.Finset.Card
import Mathlib.Data.List.Pairwise

namespace Sglang.Lib

open List

variable {α β : Type*} [DecidableEq α] {kept vacated free : Finset α} {as xs : List α} {bs : List β}

/-- As many elements of the vacated part survive as the kept part has free ones. -/
theorem exchange_card (apart : Disjoint kept vacated) (sub : free ⊆ kept ∪ vacated)
    (card : free.card = vacated.card) : (vacated \ free).card = (free ∩ kept).card := by
  have inVacated : (vacated \ free).card + (vacated ∩ free).card = vacated.card :=
    Finset.card_sdiff_add_card_inter ..
  have rest : free \ kept = free ∩ vacated := by
    ext x
    have := @sub x
    have : x ∈ kept → x ∉ vacated := fun h => Finset.disjoint_left.mp apart h
    simp only [Finset.mem_sdiff, Finset.mem_inter, Finset.mem_union] at *
    tauto
  have inFree : (free \ kept).card + (free ∩ kept).card = free.card :=
    Finset.card_sdiff_add_card_inter ..
  rw [rest, Finset.inter_comm] at inFree
  omega

/-- After the exchange the kept part is exactly what is held. -/
theorem exchange_eq (free : Finset α) (apart : Disjoint kept vacated) :
    ((kept ∪ vacated) \ free) \ (vacated \ free) ∪ (free ∩ kept) = kept := by
  ext x
  have : x ∈ kept → x ∉ vacated := fun h => Finset.disjoint_left.mp apart h
  simp
  tauto

/-! ### The walk that finds the pairs -/

omit [DecidableEq α] in
/-- The two sides of the first pairs of a zip. -/
lemma map_of_prefix_zip {pairs : List (α × β)} (front : pairs <+: as.zip bs) :
    pairs.map Prod.fst = as.take pairs.length ∧ pairs.map Prod.snd = bs.take pairs.length := by
  induction pairs generalizing as bs with
  | nil => simp
  | cons pair pairs ih =>
    cases as with
    | nil => simp at front
    | cons a as =>
      cases bs with
      | nil => simp at front
      | cons b bs =>
        rw [zip_cons_cons, cons_prefix_cons] at front
        obtain ⟨rfl, rest⟩ := front
        obtain ⟨lefts, rights⟩ := ih rest
        simp [lefts, rights]

omit [DecidableEq α] in
/-- A list whose elements satisfy `p` up to some point only. -/
lemma filter_append_filter_not {p : α → Bool}
    (sorted : xs.Pairwise fun a b => p b = true → p a = true) :
    xs.filter p ++ xs.filter (fun x => !p x) = xs := by
  induction sorted with
  | nil => rfl
  | @cons x xs head _ ih =>
    by_cases here : p x = true
    · rw [filter_cons_of_pos here, filter_cons_of_neg (by simp [here]), cons_append, ih]
    · have outside : xs.filter p = [] :=
        filter_eq_nil_iff.mpr fun y mem later => here (head y mem later)
      rw [filter_cons_of_neg here, filter_cons_of_pos (by simp [here]), outside,
        nil_append]
      rw [outside, nil_append] at ih
      rw [ih]

omit [DecidableEq α] in
/-- Pairs are taken from the front while they are good. -/
theorem takeWhile_zip_split {good : α × β → Bool} {as' : List α} {bs' : List β}
    (length : as.length = bs.length) (before : ∀ a ∈ as, ∀ b ∈ bs, good (a, b) = true)
    (after : ∀ a ∈ as', ∀ b ∈ bs', good (a, b) = false) :
    ((as ++ as').zip (bs ++ bs')).takeWhile good = as.zip bs := by
  have stop : (as'.zip bs').takeWhile good = [] := by
    cases as' with
    | nil => rfl
    | cons a as' =>
      cases bs' with
      | nil => rfl
      | cons b bs' =>
        simp [after a mem_cons_self b mem_cons_self]
  rw [zip_append length, takeWhile_append_of_pos, stop, append_nil]
  rintro ⟨a, b⟩ mem
  obtain ⟨memA, memB⟩ := of_mem_zip mem
  exact before a memA b memB

omit [DecidableEq α] in
/-- Two sorted lists, side by side. -/
lemma pairwise_zip {r : α → α → Prop} {r' : β → β → Prop} (left : as.Pairwise r)
    (right : bs.Pairwise r') : (as.zip bs).Pairwise fun x y => r x.1 y.1 ∧ r' x.2 y.2 := by
  induction left generalizing bs with
  | nil => exact .nil
  | cons head _ ih =>
    cases right with
    | nil => exact .nil
    | cons head' right =>
      refine .cons (fun y mem => ?_) (ih right)
      obtain ⟨memA, memB⟩ := of_mem_zip mem
      exact ⟨head _ memA, head' _ memB⟩

/-! ### Relocating a list onto another one -/

/-- The elements that change their place when `live` goes to `final`, with their goals. -/
def shifts (live final : List α) : List (α × α) :=
  (live.zip final).filter fun pair => pair.1 ≠ pair.2

variable {final live : List α} {pair x y : α × α} {start p stop : Nat}

lemma mem_shifts : pair ∈ shifts live final ↔ pair ∈ live.zip final ∧ pair.1 ≠ pair.2 := by
  rw [shifts, mem_filter, decide_eq_true_eq]

omit [DecidableEq α] in
/-- In a zip of lists without repetition either side determines a pair. -/
lemma eq_of_zip (nodup : live.Nodup) (nodup' : final.Nodup) (memX : x ∈ live.zip final)
    (memY : y ∈ live.zip final) (same : x.1 = y.1 ∨ x.2 = y.2) : x = y := by
  by_contra different
  have : Std.Symm fun x y : α × α => x.1 ≠ y.1 ∧ x.2 ≠ y.2 := ⟨fun _ _ h => ⟨h.1.symm, h.2.symm⟩⟩
  have apart := (pairwise_zip nodup nodup').forall memX memY different
  exact same.elim apart.1 apart.2

omit [DecidableEq α] in
lemma exists_pair_left (length : live.length = final.length) {a : α} (mem : a ∈ live) :
    ∃ b, (a, b) ∈ live.zip final := by
  rw [← map_fst_zip length.le, mem_map] at mem
  obtain ⟨⟨_, b⟩, mem, rfl⟩ := mem
  exact ⟨b, mem⟩

section

variable (nodup : live.Nodup) (nodup' : final.Nodup) (length : live.length = final.length)
include nodup nodup' length

/-- A goal that is taken is one that its element leaves. -/
lemma leaves_of_taken (mem : pair ∈ shifts live final) (taken : pair.2 ∈ live) :
    pair.2 ∈ (shifts live final).map Prod.fst := by
  obtain ⟨inZip, moves⟩ := mem_shifts.mp mem
  obtain ⟨goal, here⟩ := exists_pair_left length taken
  refine mem_map.mpr ⟨(pair.2, goal), mem_shifts.mpr ⟨here, fun stays => moves ?_⟩, rfl⟩
  exact congrArg Prod.fst (eq_of_zip nodup nodup' inZip here (.inr stays))

/-- After the relocation exactly `final` is occupied. -/
theorem mem_final_iff {a : α} : a ∈ final ↔
      a ∈ live ∧ a ∉ (shifts live final).map Prod.fst ∨ a ∈ (shifts live final).map Prod.snd := by
  constructor
  · intro mem
    rw [← map_snd_zip length.ge, mem_map] at mem
    obtain ⟨⟨src, a⟩, here, rfl⟩ := mem
    by_cases stays : src = a
    · subst stays
      refine .inl ⟨(of_mem_zip here).1, fun leaves => ?_⟩
      obtain ⟨pair, moved, same⟩ := mem_map.mp leaves
      obtain ⟨inZip, moves⟩ := mem_shifts.mp moved
      rw [eq_of_zip nodup nodup' inZip here (.inl same)] at moves
      exact moves rfl
    · exact .inr (mem_map.mpr ⟨(src, a), mem_shifts.mpr ⟨here, stays⟩, rfl⟩)
  · rintro (⟨mem, stays⟩ | arrives)
    · obtain ⟨goal, here⟩ := exists_pair_left length mem
      by_cases same : a = goal
      · exact same ▸ (of_mem_zip here).2
      · exact absurd (mem_map.mpr ⟨(a, goal), mem_shifts.mpr ⟨here, same⟩, rfl⟩) stays
    · obtain ⟨pair, moved, rfl⟩ := mem_map.mp arrives
      exact (of_mem_zip (mem_shifts.mp moved).1).2

end

/-- A block that starts at or before every element lies before them, one by one. -/
lemma zip_range_le {live : List Nat} (sorted : live.Pairwise (· < ·))
    (before : ∀ p ∈ live, start ≤ p) :
    ∀ pair ∈ live.zip (range' start live.length), pair.2 ≤ pair.1 := by
  induction sorted generalizing start with
  | nil => simp
  | @cons p live head _ ih =>
    rintro pair (_ | mem)
    · exact before p mem_cons_self
    · refine ih (fun q later => ?_) pair (by assumption)
      exact (before p mem_cons_self).trans_lt (head q later)

lemma head_add_length_lt {live : List Nat} (sorted : (p :: live).Pairwise (· < ·))
    (after : ∀ q ∈ p :: live, q < stop) : p + live.length < stop := by
  induction live generalizing p with
  | nil => simpa using after
  | cons q live ih =>
    rw [pairwise_cons] at sorted
    have := ih sorted.2 fun r mem => after r (mem_cons_of_mem _ mem)
    have := sorted.1 q mem_cons_self
    rw [length_cons]
    omega

/-- A block that ends at or after every element lies after them, one by one. -/
lemma le_zip_range {live : List Nat} (sorted : live.Pairwise (· < ·))
    (after : ∀ p ∈ live, p < start + live.length) :
    ∀ pair ∈ live.zip (range' start live.length), pair.1 ≤ pair.2 := by
  induction live generalizing start with
  | nil => simp
  | cons p live ih =>
    have first := head_add_length_lt sorted after
    rw [pairwise_cons] at sorted
    rw [length_cons] at after first
    rintro pair (_ | mem)
    · omega
    · refine ih sorted.2 (fun q later => ?_) pair (by assumption)
      have := after q (mem_cons_of_mem _ later)
      omega

end Sglang.Lib
