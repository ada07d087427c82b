/-
# Tables written in batches, and pairs of tables inverse to each other

* `scatter` — a batch of writes `table[keys] = values`, in order.
* `Linked` — a forward and a backward table that are inverse to each other on a finite
  set of bound entries; binding, unbinding and relocating entries keep them so.
* `Stored` — what is read through the forward table is what was last stored there;
  copying the contents along with a relocation keeps it.
-/

import Mathlib.Data.Finset.Lattice.Lemmas
import Sglang.Lib.Pairing

namespace Sglang.Lib

open List Option Function

variable {α β γ : Type*} {keys as : List α} {bs srcs dsts : List β}

/-! ### Lookups of a list of keys -/

lemma exists_of_mem_left {R : α → β → Prop}
    {a : α} (related : List.Forall₂ R as bs) (mem : a ∈ as) : ∃ b ∈ bs, R a b := by
  induction related with
  | nil => cases mem
  | cons head _ ih =>
    rcases mem_cons.mp mem with rfl | later
    · exact ⟨_, mem_cons_self, head⟩
    · obtain ⟨b, mem', h⟩ := ih later
      exact ⟨b, mem_cons_of_mem _ mem', h⟩

/-- A lookup of all keys that succeeds. -/
lemma forall₂_of_mapM {table : α → Option β} {values : List β}
    (found : keys.mapM table = some values) :
    List.Forall₂ (fun a b => table a = some b) keys values := by
  induction keys generalizing values with
  | nil =>
    cases found
    exact .nil
  | cons a keys ih =>
    rw [mapM_cons] at found
    obtain ⟨b, here, rest⟩ := bind_eq_some_iff.mp found
    obtain ⟨bs, later, same⟩ := bind_eq_some_iff.mp rest
    cases same
    exact .cons here (ih later)

/-- A lookup of keys that are all there. -/
lemma mapM_isSome {table : α → Option β} (found : ∀ a ∈ keys, ∃ b, table a = some b) :
    ∃ values, keys.mapM table = some values := by
  induction keys with
  | nil => exact ⟨[], rfl⟩
  | cons a keys ih =>
    rw [forall_mem_cons] at found
    obtain ⟨b, here⟩ := found.1
    obtain ⟨values, later⟩ := ih found.2
    exact ⟨b :: values, by rw [mapM_cons, here, later]; rfl⟩

/-- Keys with distinct values are distinct. -/
lemma nodup_keys {forward : α → Option β} {values : List β}
    (bound : List.Forall₂ (fun a b => forward a = some b) keys values) (nodup : values.Nodup) :
    keys.Nodup := by
  induction bound with
  | nil => exact nodup_nil
  | cons head tail ih =>
    rw [nodup_cons] at nodup ⊢
    refine ⟨fun again => nodup.1 ?_, ih nodup.2⟩
    obtain ⟨b, mem, same⟩ := exists_of_mem_left tail again
    rw [head] at same
    exact some_injective _ same ▸ mem

variable [DecidableEq α] [DecidableEq β]

/-! ### Batches of writes -/

/-- `table[keys] = values`: the writes one after the other. -/
def scatter (table : α → γ) (writes : List (α × γ)) : α → γ :=
  writes.foldl (fun t write => Function.update t write.1 write.2) table

lemma scatter_cons (table : α → γ) (a : α) (x : γ) (writes : List (α × γ)) :
    scatter table ((a, x) :: writes) = scatter (update table a x) writes := rfl

variable {a a' : α} {table table' : α → γ} {writes : List (α × γ)} {values : List γ} {mem : β → γ}
  {moves : List (β × β)}

lemma scatter_of_not_mem (untouched : a ∉ writes.map Prod.fst) :
    scatter table writes a = table a := by
  induction writes generalizing table with
  | nil => rfl
  | cons write writes ih =>
    simp only [map_cons, mem_cons, not_or] at untouched
    change scatter (update table write.1 write.2) writes a = table a
    rw [ih untouched.2, update_of_ne untouched.1]

/-- Writes that agree on an entry leave their common value. -/
lemma scatter_of_mem {value : γ} (touched : a ∈ writes.map Prod.fst)
    (agree : ∀ x, (a, x) ∈ writes → x = value) : scatter table writes a = value := by
  induction writes generalizing table with
  | nil => simp at touched
  | cons write writes ih =>
    change scatter (update table write.1 write.2) writes a = value
    by_cases later : a ∈ writes.map Prod.fst
    · exact ih later fun x mem => agree x (mem_cons_of_mem _ mem)
    · rw [scatter_of_not_mem later]
      simp only [map_cons, mem_cons, later, or_false] at touched
      subst touched
      rw [update_self]
      exact agree write.2 mem_cons_self

/-- An entry depends only on its own old value. -/
lemma scatter_apply_congr (same : table a = table' a) :
    scatter table writes a = scatter table' writes a := by
  induction writes generalizing table table' with
  | nil => exact same
  | cons write writes ih =>
    apply ih
    dsimp only
    by_cases here : a = write.1
    · rw [here, update_self, update_self]
    · rw [update_of_ne here, update_of_ne here, same]

/-- An overwritten entry does not depend on the table. -/
lemma scatter_touched (touched : a ∈ writes.map Prod.fst) :
    scatter table writes a = scatter table' writes a := by
  induction writes generalizing table table' with
  | nil => simp at touched
  | cons write writes ih =>
    by_cases later : a ∈ writes.map Prod.fst
    · exact ih later
    · simp only [map_cons, mem_cons, later, or_false] at touched
      subst touched
      change scatter (update table write.1 write.2) writes write.1
        = scatter (update table' write.1 write.2) writes write.1
      rw [scatter_of_not_mem later, scatter_of_not_mem later, update_self,
        update_self]

/-- Entries that are overwritten do not matter. -/
lemma scatter_congr (same : ∀ a, a ∉ writes.map Prod.fst → table a = table' a) :
    scatter table writes = scatter table' writes := by
  funext a
  by_cases touched : a ∈ writes.map Prod.fst
  · exact scatter_touched touched
  · exact scatter_apply_congr (same a touched)

/-- Writing every entry several times over writes it once. -/
lemma scatter_flatMap_replicate {n : Nat} (pos : 0 < n) (table : α → γ) (writes : List (α × γ)) :
    scatter table (writes.flatMap (replicate n)) = scatter table writes := by
  induction writes generalizing table with
  | nil => rfl
  | cons write writes ih =>
    have again : ∀ k, scatter (update table write.1 write.2) (replicate k write)
        = update table write.1 write.2 := by
      intro k
      induction k with
      | zero => rfl
      | succ k ihk => rwa [replicate_succ, scatter_cons, update_idem]
    obtain ⟨k, rfl⟩ := Nat.exists_eq_succ_of_ne_zero pos.ne'
    calc scatter table ((write :: writes).flatMap (replicate (k + 1)))
        = scatter (scatter (update table write.1 write.2) (replicate k write))
            (writes.flatMap (replicate (k + 1))) := by
          rw [flatMap_cons, scatter, foldl_append]
          rfl
      _ = scatter table (write :: writes) := by rw [again, ih]; rfl

/-! ### Linked tables -/

/-- `forward` and `backward` are inverse to each other, and `bound` is where `backward`
has an entry. -/
structure Linked (forward : α → Option β) (backward : β → Option α) (bound : Finset β) : Prop where
  inverse : ∀ a b, forward a = some b ↔ backward b = some a
  range : ∀ b, b ∈ bound ↔ ∃ a, backward b = some a

/-- The writes that bind `keys` to `values` in order. -/
def bindings (keys : List α) (values : List γ) : List (α × Option γ) := keys.zip (values.map some)

omit [DecidableEq α] in
lemma map_fst_bindings (length : keys.length ≤ values.length) :
    (bindings keys values).map Prod.fst = keys :=
  map_fst_zip (by rwa [length_map])

lemma scatter_bindings {table : α → Option γ} {k : Nat} {x : γ}
    (nodup : keys.Nodup) (key : keys[k]? = some a) (value : values[k]? = some x) :
    scatter table (bindings keys values) a = some x := by
  have written : (bindings keys values)[k]? = some (a, some x) := by
    simp [bindings, getElem?_zip_eq_some, key, value]
  apply scatter_of_mem (mem_map.mpr ⟨_, mem_of_getElem? written, rfl⟩)
  intro y mem
  obtain ⟨j, at_j⟩ := getElem?_of_mem mem
  simp only [bindings, getElem?_zip_eq_some, getElem?_map] at at_j
  have same : j = k := by
    obtain ⟨lt, rfl⟩ := List.getElem?_eq_some_iff.mp key
    exact ((getElem?_inj lt nodup).mp (key.trans at_j.1.symm)).symm
  rw [same, value] at at_j
  exact (some_injective _ at_j.2).symm

/-- Binding keys leaves no key unbound that was bound. -/
lemma scatter_bindings_bound {table : α → Option γ}
    (bound : ∃ x, table a = some x) : ∃ x, scatter table (bindings keys values) a = some x := by
  induction keys generalizing table values with
  | nil => exact bound
  | cons key keys ih =>
    cases values with
    | nil => exact bound
    | cons value values =>
      have still : ∃ x, update table key (some value) a = some x := by
        by_cases here : a = key
        · exact ⟨value, by rw [here, update_self]⟩
        · rwa [update_of_ne here]
      exact ih still

namespace Linked

variable {forward : α → Option β} {backward : β → Option α} {bound : Finset β}

variable {b : β}

omit [DecidableEq α] [DecidableEq β] in
lemma mem_bound (linked : Linked forward backward bound) (h : forward a = some b) : b ∈ bound :=
  (linked.range b).mpr ⟨a, (linked.inverse a b).mp h⟩

omit [DecidableEq α] [DecidableEq β] in
lemma injective (linked : Linked forward backward bound) (h : forward a = some b)
    (h' : forward a' = some b) : a = a' := by
  rw [linked.inverse] at h h'
  exact some_injective _ (h.symm.trans h')

variable (linked : Linked forward backward bound)
include linked

lemma bind_one (fresh : forward a = none) (fresh' : b ∉ bound) :
    Linked (update forward a (some b)) (update backward b (some a)) (insert b bound) where
  inverse := by
    intro x y
    by_cases hx : x = a
    · subst hx
      by_cases hy : y = b
      · simp [hy]
      · have unbound : backward y ≠ some x := by
          intro h
          rw [← linked.inverse, fresh] at h
          cases h
        simp [hy, unbound, Ne.symm hy]
    · by_cases hy : y = b
      · subst hy
        have unbound : forward x ≠ some y := fun h => fresh' (linked.mem_bound h)
        simp [hx, unbound, Ne.symm hx]
      · simp [hx, hy, linked.inverse]
  range := by
    intro y
    by_cases hy : y = b
    · simp [hy]
    · simp [hy, linked.range]

/-- Binding fresh keys to fresh values, in order. -/
lemma bind (length : as.length = bs.length) (nodup : as.Nodup)
    (nodup' : bs.Nodup) (fresh : ∀ a ∈ as, forward a = none) (fresh' : ∀ b ∈ bs, b ∉ bound) :
    Linked (scatter forward (bindings as bs)) (scatter backward (bindings bs as))
      (bound ∪ bs.toFinset) := by
  induction as generalizing bs forward backward bound with
  | nil =>
    obtain rfl := eq_nil_of_length_eq_zero length.symm
    rw [toFinset_nil, Finset.union_empty]
    exact linked
  | cons a as ih =>
    obtain _ | ⟨b, bs⟩ := bs
    · simp at length
    rw [nodup_cons] at nodup nodup'
    rw [forall_mem_cons] at fresh fresh'
    have one := linked.bind_one fresh.1 fresh'.1
    have rest := ih one (Nat.succ_injective length) nodup.2 nodup'.2
      (fun x mem => by
        have other : x ≠ a := fun same => nodup.1 (same ▸ mem)
        rw [update_of_ne other]
        exact fresh.2 x mem)
      (fun y mem => by
        rw [Finset.mem_insert, not_or]
        exact ⟨fun same => nodup'.1 (same ▸ mem), fresh'.2 y mem⟩)
    have sameSet : bound ∪ (b :: bs).toFinset = insert b bound ∪ bs.toFinset := by
      ext y
      simp only [Finset.mem_union, Finset.mem_insert, toFinset_cons]
      tauto
    rw [sameSet]
    exact rest

/-- Clearing bound keys in both tables. -/
lemma unbind (values : List.Forall₂ (fun a b => forward a = some b) as bs) :
    Linked (unpair forward as) (unpair backward bs) (bound \ bs.toFinset) := by
  have same : ∀ a b, forward a = some b → (a ∈ as ↔ b ∈ bs) := by
    intro a b h
    constructor
    · intro mem
      obtain ⟨b', mem', h'⟩ := exists_of_mem_left values mem
      rw [h] at h'
      exact some_injective _ h' ▸ mem'
    · intro mem
      obtain ⟨a', mem', h'⟩ := exists_of_mem_left values.flip mem
      exact linked.injective h h' ▸ mem'
  refine ⟨fun a b => ?_, fun b => ?_⟩
  · rw [unpair_eq_some, unpair_eq_some, ← linked.inverse]
    refine and_congr_left fun h => not_congr (same a b h)
  · rw [Finset.mem_sdiff, List.mem_toFinset, linked.range]
    simp only [unpair_eq_some]
    tauto

/-- Relocating entries: `keys` are bound to `srcs` and get `dsts` instead. -/
lemma move (values : List.Forall₂ (fun a b => forward a = some b) keys srcs) (nodup : srcs.Nodup)
    (nodup' : dsts.Nodup) (length : srcs.length = dsts.length) (fresh : ∀ d ∈ dsts, d ∉ bound) :
    Linked (scatter forward (bindings keys dsts))
      (unpair (scatter backward (bindings dsts keys)) srcs)
      (bound \ srcs.toFinset ∪ dsts.toFinset) := by
  have lengths : keys.length = dsts.length := values.length_eq.trans length
  have keysNodup := nodup_keys values nodup
  -- the relocation is an unbinding followed by a binding
  have bound' := (linked.unbind values).bind lengths keysNodup nodup'
    (fun a mem => if_pos mem) (fun d mem gone => fresh d mem (Finset.mem_sdiff.mp gone).1)
  have forwardSame : scatter (unpair forward keys) (bindings keys dsts)
      = scatter forward (bindings keys dsts) := by
    refine scatter_congr fun a untouched => if_neg ?_
    rwa [map_fst_bindings lengths.le] at untouched
  have backwardSame : scatter (unpair backward srcs) (bindings dsts keys)
      = unpair (scatter backward (bindings dsts keys)) srcs := by
    funext b
    by_cases moved : b ∈ srcs
    · have notDst : b ∉ dsts := by
        intro mem
        obtain ⟨a, -, h⟩ := exists_of_mem_left values.flip moved
        exact fresh b mem (linked.mem_bound h)
      rw [scatter_of_not_mem (by rwa [map_fst_bindings lengths.ge]), unpair, unpair,
        if_pos moved, if_pos moved]
    · rw [unpair, if_neg moved]
      exact scatter_apply_congr (if_neg moved)
  rw [forwardSame, backwardSame] at bound'
  exact bound'

end Linked

/-! ### Contents behind a table -/

/-- Copy the contents from each source to its destination, in order. -/
def copyAll (mem : β → γ) (moves : List (β × β)) : β → γ :=
  moves.foldl (fun m move => Function.update m move.2 (m move.1)) mem

lemma copyAll_of_not_mem {b : β}
    (untouched : b ∉ moves.map Prod.snd) : copyAll mem moves b = mem b := by
  induction moves generalizing mem with
  | nil => rfl
  | cons move moves ih =>
    simp only [map_cons, mem_cons, not_or] at untouched
    change copyAll (update mem move.2 (mem move.1)) moves b = mem b
    rw [ih untouched.2, update_of_ne untouched.1]

/-- When no destination is a source, every destination gets its source's old contents. -/
lemma copyAll_of_mem {s d : β} (mem_moves : (s, d) ∈ moves) (nodup : (moves.map Prod.snd).Nodup)
    (apart : ∀ move ∈ moves, ∀ move' ∈ moves, move.1 ≠ move'.2) : copyAll mem moves d = mem s := by
  induction moves generalizing mem with
  | nil => cases mem_moves
  | cons move moves ih =>
    rw [map_cons, nodup_cons] at nodup
    change copyAll (update mem move.2 (mem move.1)) moves d = mem s
    rcases mem_cons.mp mem_moves with rfl | later
    · rw [copyAll_of_not_mem nodup.1, update_self]
    · rw [ih later nodup.2 fun m hm m' hm' =>
        apart m (mem_cons_of_mem _ hm) m' (mem_cons_of_mem _ hm')]
      exact update_of_ne (apart (s, d) mem_moves move mem_cons_self) _ _

/-- What is read through the table is what was stored there last, for the keys under
which something was stored. -/
def Stored (forward : α → Option β) (mem : β → γ) (written : α → Option γ) : Prop :=
  ∀ a b x, forward a = some b → written a = some x → mem b = x

/-- Contents copied along with a relocation are read under the same keys. -/
lemma Stored.move {forward : α → Option β} {backward : β → Option α} {bound : Finset β}
    {written : α → Option γ}
    (stored : Stored forward mem written) (linked : Linked forward backward bound)
    (values : List.Forall₂ (fun a b => forward a = some b) keys srcs) (nodup : srcs.Nodup)
    (nodup' : dsts.Nodup) (length : srcs.length = dsts.length) (fresh : ∀ d ∈ dsts, d ∉ bound) :
    Stored (scatter forward (bindings keys dsts)) (copyAll mem (srcs.zip dsts)) written := by
  have lengths : keys.length = dsts.length := values.length_eq.trans length
  have srcBound : ∀ s ∈ srcs, s ∈ bound := by
    intro s moved
    obtain ⟨a, -, h⟩ := exists_of_mem_left values.flip moved
    exact linked.mem_bound h
  intro a b x read stored_a
  by_cases moved : a ∈ keys
  · obtain ⟨k, key⟩ := getElem?_of_mem moved
    have lt : k < keys.length := (List.getElem?_eq_some_iff.mp key).1
    have ltSrc : k < srcs.length := by omega
    have ltDst : k < dsts.length := by omega
    rw [scatter_bindings (nodup_keys values nodup) key (getElem?_eq_getElem ltDst)] at read
    cases read
    have pair : (srcs[k], dsts[k]) ∈ srcs.zip dsts := by
      apply mem_of_getElem? (i := k)
      simp [ltSrc, ltDst]
    rw [copyAll_of_mem pair]
    · refine stored a srcs[k] x ?_ stored_a
      obtain ⟨_, rfl⟩ := List.getElem?_eq_some_iff.mp key
      exact (forall₂_iff_get.mp values).2 k lt ltSrc
    · rwa [map_snd_zip length.ge]
    · intro m hm m' hm' same
      exact fresh _ (same ▸ (of_mem_zip hm').2) (srcBound _ (of_mem_zip hm).1)
  · rw [scatter_of_not_mem (by rwa [map_fst_bindings lengths.le])] at read
    rw [copyAll_of_not_mem]
    · exact stored a b x read stored_a
    · rw [map_snd_zip length.ge]
      exact fun mem => fresh b mem (linked.mem_bound read)

end Sglang.Lib
