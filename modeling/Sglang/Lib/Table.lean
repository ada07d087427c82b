/-
# Tables

A hash map as an association list without repeated keys, with the three ways code writes to
one: through `entry(k).or_default()` (`Table.update`), through `get_mut` (`Table.modify`) and
to every value (`Table.mapValues`). Each is known by its lookups.
-/

import Mathlib.Data.List.AList

namespace Sglang.Lib

open List

/-- A finite map from `κ` to `ν`. -/
abbrev Table (κ ν : Type) := AList fun _ : κ => ν

namespace Table

variable {κ ν : Type} [DecidableEq κ] {k k' : κ} {f : ν → ν}

variable (t : Table κ ν)

/-- Rewrite the value of a key, starting from a default where there is none. -/
def update [Inhabited ν] (t : Table κ ν) (k : κ) (f : ν → ν) : Table κ ν :=
  t.insert k (f ((t.lookup k).getD default))

/-- Rewrite the value of a key that is there. -/
def modify (k : κ) (f : ν → ν) : Table κ ν :=
  (t.lookup k).elim t fun v => t.insert k (f v)

omit [DecidableEq κ] in
lemma keys_map (f : ν → ν) (entries : List (Sigma fun _ : κ => ν)) :
    (entries.map fun e => (⟨e.1, f e.2⟩ : Sigma fun _ : κ => ν)).keys = entries.keys := by
  simp [keys]

/-- Rewrite every value. -/
def mapValues (f : ν → ν) : Table κ ν :=
  ⟨t.entries.map fun e => ⟨e.1, f e.2⟩, by
    rw [List.NodupKeys, keys_map]
    exact t.nodupKeys⟩

lemma lookup_update [Inhabited ν] (t : Table κ ν) : (t.update k f).lookup k' =
    if k' = k then some (f ((t.lookup k).getD default)) else t.lookup k' := by
  unfold update
  split
  · rename_i same
    rw [same, AList.lookup_insert]
  · rename_i other
    exact AList.lookup_insert_ne other

lemma lookup_modify : (t.modify k f).lookup k' =
    if k' = k then (t.lookup k).map f else t.lookup k' := by
  unfold modify
  cases found : t.lookup k with
  | none =>
    split
    · rename_i same
      rw [same]
      exact found
    · rfl
  | some v =>
    dsimp only [Option.elim]
    split
    · rename_i same
      rw [same, AList.lookup_insert]
      rfl
    · rename_i other
      exact AList.lookup_insert_ne other

lemma length_modify : (t.modify k f).keys.length = t.keys.length := by
  unfold modify
  cases found : t.lookup k with
  | none => rfl
  | some v =>
    have mem : k ∈ t.keys := AList.mem_keys.mp (AList.lookup_isSome.mp (by simp [found]))
    have pos := length_pos_of_mem mem
    dsimp only [Option.elim]
    rw [AList.keys_insert, length_cons, length_erase_of_mem mem]
    omega

lemma dlookup_map (f : ν → ν) (k : κ) (entries : List (Sigma fun _ : κ => ν)) :
    (entries.map fun e => (⟨e.1, f e.2⟩ : Sigma fun _ : κ => ν)).dlookup k =
      (entries.dlookup k).map f := by
  induction entries with
  | nil => rfl
  | cons e entries ih =>
    obtain ⟨k', v⟩ := e
    by_cases same : k = k'
    · subst same
      simp
    · rw [map_cons, dlookup_cons_ne _ _ same, dlookup_cons_ne _ _ same]
      exact ih

/-- A table without entries has no values. -/
lemma isEmpty_iff : t.entries.isEmpty = true ↔ ∀ k, t.lookup k = none := by
  rw [List.isEmpty_iff]
  refine ⟨fun empty k => AList.lookup_eq_none.mpr fun mem => ?_, fun missing => ?_⟩
  · rw [AList.mem_keys, AList.keys, empty] at mem
    simp [keys] at mem
  · apply eq_nil_iff_forall_not_mem.mpr
    intro e mem
    have found := AList.mem_lookup_iff.mpr (show (⟨e.1, e.2⟩ : Sigma fun _ => ν) ∈ _ from mem)
    rw [missing] at found
    cases found

lemma lookup_erase_eq : (t.erase k).lookup k' = if k' = k then none else t.lookup k' := by
  split
  · rename_i same
    rw [same, AList.lookup_erase]
  · rename_i other
    exact AList.lookup_erase_ne other

lemma lookup_mapValues : (t.mapValues f).lookup k = (t.lookup k).map f :=
  dlookup_map f k t.entries

end Table

end Sglang.Lib
