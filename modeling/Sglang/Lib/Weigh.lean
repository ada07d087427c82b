/-
# Sums over the nodes of an arena

How the sum of a weight over the nodes of a `Links` arena changes when nodes are rewritten in
place, split, added or removed. A counter that every operation moves by these differences is
at all times the sum itself.
-/

import Mathlib.Algebra.Order.BigOperators.Group.List
import Mathlib.Algebra.Order.Group.Int
import Mathlib.Algebra.Ring.Int.Defs
import Mathlib.Algebra.Ring.Nat
import Mathlib.Data.List.Perm.Lattice
import Sglang.Lib.Arena

namespace Sglang.Lib

open List

namespace Links

variable {δ ι : Type*} {k : Links δ ι} {ds seg : List δ} {d : δ}

/-- The sum of a weight. -/
def weigh (w : δ → Int) (ds : List δ) : Int := (ds.map w).sum

@[simp] lemma weigh_nil (w : δ → Int) : weigh w [] = 0 := rfl

@[simp] lemma weigh_cons (w : δ → Int) (d : δ) : weigh w (d :: ds) = w d + weigh w ds := by
  simp [weigh]

lemma weigh_congr {w w' : δ → Int} (same : ∀ d ∈ ds, w d = w' d) : weigh w ds = weigh w' ds := by
  unfold weigh
  rw [map_congr_left same]

lemma le_weigh {w : δ → Int} (nonneg : ∀ d ∈ ds, 0 ≤ w d) (mem : d ∈ ds) : w d ≤ weigh w ds := by
  refine single_le_sum (fun x inside => ?_) (w d) (mem_map_of_mem mem)
  obtain ⟨e, old, rfl⟩ := mem_map.mp inside
  exact nonneg e old

lemma weigh_map (w : δ → Int) (f : δ → δ) : weigh w (ds.map f) = weigh (w ∘ f) ds := by
  simp [weigh]

lemma weigh_add (w w' : δ → Int) : weigh (fun d => w d + w' d) ds = weigh w ds + weigh w' ds := by
  simp [weigh]

lemma weigh_filter (keep : δ → Bool) (w : δ → Int) :
    weigh w (ds.filter keep) = weigh (fun d => if keep d then w d else 0) ds := by
  induction ds with
  | nil => rfl
  | cons d ds ih => cases kept : keep d <;> simp [kept, ih]

variable (nodup : (k.tags ds).Nodup)
include nodup

/-- A weight that is zero outside a part of the arena. -/
lemma weigh_part [DecidableEq ι] (sub : seg ⊆ ds) (segNodup : (k.tags seg).Nodup) (w : δ → Int) :
    weigh (fun d => if k.tag d ∈ k.tags seg then w d else 0) ds = weigh w seg := by
  have perm : (ds.filter fun d => decide (k.tag d ∈ k.tags seg)).Perm seg := by
    apply (perm_ext_iff_of_nodup (nodup.of_map.filter _) segNodup.of_map).mpr
    intro d
    rw [mem_filter, decide_eq_true_eq]
    constructor
    · rintro ⟨mem, inside⟩
      obtain ⟨e, mem', same⟩ := mem_map.mp inside
      exact inj_on_of_nodup_map nodup (sub mem') mem same ▸ mem'
    · exact fun mem => ⟨sub mem, mem_tags mem⟩
  refine .trans ?_ (perm.map w).sum_eq
  change _ = weigh w (ds.filter _)
  simp [weigh_filter]

/-- Nodes of a part are rewritten in place. -/
lemma weigh_rewrite [DecidableEq ι] (seg : List δ) (sub : seg ⊆ ds)
    (segNodup : (k.tags seg).Nodup) (f : δ → δ) (w : δ → Int) :
    weigh w (ds.map fun d => if k.tag d ∈ k.tags seg then f d else d) =
      weigh w ds + weigh (fun d => w (f d) - w d) seg := by
  rw [← weigh_part nodup sub segNodup, ← weigh_add, weigh_map]
  apply weigh_congr
  intro d _
  rw [Function.comp_apply]
  split
  · omega
  · omega

lemma weigh_one [DecidableEq ι] (mem : d ∈ ds) (w : δ → Int) :
    weigh (fun e => if k.tag e = k.tag d then w e else 0) ds = w d := by
  have sub : [d] ⊆ ds := by simpa using mem
  simpa [tags] using weigh_part nodup sub (nodup_singleton (k.tag d)) w

lemma weigh_expand [DecidableEq ι] {lower upper : δ → δ} (mem : d ∈ ds) (w : δ → Int) :
    weigh w (k.expand (k.tag d) lower upper ds) =
      weigh w ds + (w (lower d) + w (upper d) - w d) := by
  rw [← weigh_one nodup mem fun e => w (lower e) + w (upper e) - w e, ← weigh_add]
  clear mem nodup
  induction ds with
  | nil => rfl
  | cons e ds ih =>
    by_cases here : k.tag e = k.tag d
    · rw [expand_cons_self here, weigh_cons, weigh_cons, weigh_cons, if_pos here]
      omega
    · rw [expand_cons_ne here, weigh_cons, weigh_cons, ih, if_neg here, add_zero]

lemma weigh_remove [DecidableEq ι] (mem : d ∈ ds) (w : δ → Int) :
    weigh w (ds.filter fun e => decide (k.tag e ≠ k.tag d)) = weigh w ds - w d := by
  rw [eq_sub_iff_add_eq, weigh_filter, ← weigh_one nodup mem w, ← weigh_add]
  apply weigh_congr
  intro e _
  by_cases here : k.tag e = k.tag d <;> simp [here]

end Links

end Sglang.Lib
