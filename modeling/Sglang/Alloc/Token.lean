/-
# `TokenToKVPoolAllocator`

The slot free list of `allocator/token.py`, used where a page is one slot. It neither
sorts out duplicates nor checks what it is given, so its callers free each slot once.

* `Token.Inv` — free, released and handed-out slots split `1 .. size`; slots deferred by
  an open group are distinct and still held.
* One lemma per operation: `alloc_cases`, `Inv.free_closed` and `Inv.free_open`,
  `Inv.freeGroupBegin`, `Inv.freeGroupEnd`.
-/

import Mathlib.Order.Interval.Finset.Nat
import Sglang.Lib.FreeList

namespace Sglang.Alloc

open List

/-- The allocator's fields. -/
structure Token where
  freePages : List Nat
  releasePages : List Nat
  freeGroup : Option (List (List Nat))
  deriving DecidableEq, Repr

namespace Token

/-- `clear` of a pool of `size` slots: slot 0 takes the dummy writes. -/
def clear (size : Nat) : Token := ⟨range' 1 size, [], none⟩

variable (a : Token)

def availableSize : Nat := a.freePages.length + a.releasePages.length

def getAllFreePages : List Nat := a.freePages ++ a.releasePages

def mergeAndSortFree : Token :=
  if a.releasePages.isEmpty then a
  else { a with freePages := a.getAllFreePages.insertionSort (· ≤ ·), releasePages := [] }

variable (needSort : Bool)

/-- `alloc`, of a pool that sorts its frees when `needSort` is set. -/
def alloc (a : Token) (needSize : Nat) : Token × Option (List Nat) :=
  let a := if needSort && decide (needSize > a.freePages.length) then a.mergeAndSortFree else a
  if needSize > a.freePages.length then (a, none)
  else ({ a with freePages := a.freePages.drop needSize }, some (a.freePages.take needSize))

def free (a : Token) (freeIndex : List Nat) : Token :=
  if freeIndex.isEmpty then a
  else match a.freeGroup with
    | none =>
      if needSort then { a with releasePages := a.releasePages ++ freeIndex }
      else { a with freePages := a.freePages ++ freeIndex }
    | some group => { a with freeGroup := some (group ++ [freeIndex]) }

/-- `free_group_begin`; `none` when a group is already open. -/
def freeGroupBegin : Option Token :=
  match a.freeGroup with
  | none => some { a with freeGroup := some [] }
  | some _ => none

def freeGroupEnd (a : Token) : Token :=
  let closed := { a with freeGroup := none }
  match a.freeGroup with
  | none => closed
  | some pending => if pending.isEmpty then closed else closed.free needSort pending.flatten

/-- Slots deferred by an open group. -/
def queued : List Nat := (a.freeGroup.getD []).flatten

/-- The split of the slots, with the deferred ones distinct and still held. -/
structure Inv (size : Nat) (a : Token) (held : Finset Nat) : Prop where
  split : Lib.Splits (Finset.Icc 1 size) a.getAllFreePages held
  queued_nodup : a.queued.Nodup
  queued_held : ∀ slot ∈ a.queued, slot ∈ held

variable {size : Nat} {a b : Token} {held : Finset Nat} {slots : List Nat}

lemma Inv.clear : Inv size (clear size) ∅ where
  split := by
    refine Lib.Splits.all ?_ ?_
    · simpa [Token.clear, getAllFreePages] using nodup_range'
    · intro slot
      simp only [Finset.mem_Icc, Token.clear, getAllFreePages, append_nil, mem_range'_1]
      omega
  queued_nodup := by simp [queued, Token.clear]
  queued_held := by simp [queued, Token.clear]

/-- `b` has the free slots of `a`, perhaps sorted, and its group. -/
lemma mergeAndSortFree_perm (a : Token) :
    a.getAllFreePages.Perm a.mergeAndSortFree.getAllFreePages ∧
      a.mergeAndSortFree.freeGroup = a.freeGroup := by
  unfold mergeAndSortFree
  split
  · exact ⟨.refl _, rfl⟩
  · refine ⟨?_, rfl⟩
    simpa [getAllFreePages] using (perm_insertionSort (· ≤ ·) a.getAllFreePages).symm

/-- What `alloc` returns: nothing, or the front of a rearranged free list. -/
lemma alloc_cases (a : Token) (needSize : Nat) :
    ∃ b : Token, a.getAllFreePages.Perm b.getAllFreePages ∧ b.freeGroup = a.freeGroup ∧
      (a.alloc needSort needSize = (b, none) ∨ needSize ≤ b.freePages.length ∧
          a.alloc needSort needSize = ({ b with freePages := b.freePages.drop needSize },
            some (b.freePages.take needSize))) := by
  obtain ⟨b, hb, perm, group⟩ : ∃ b,
      b = (if needSort && decide (needSize > a.freePages.length) then a.mergeAndSortFree else a) ∧
        a.getAllFreePages.Perm b.getAllFreePages ∧ b.freeGroup = a.freeGroup := by
    refine ⟨_, rfl, ?_⟩
    split
    · exact mergeAndSortFree_perm a
    · exact ⟨.refl _, rfl⟩
  refine ⟨b, perm, group, ?_⟩
  simp only [alloc, ← hb]
  split
  · exact .inl rfl
  · exact .inr ⟨by omega, rfl⟩

lemma Inv.regroup (inv : Inv size a held) (perm : a.getAllFreePages.Perm b.getAllFreePages)
    (group : b.freeGroup = a.freeGroup) : Inv size b held where
  split := inv.split.perm perm
  queued_nodup := by simpa only [queued, group] using inv.queued_nodup
  queued_held := by simpa only [queued, group] using inv.queued_held

lemma Inv.takePages (inv : Inv size a held) (n : Nat) :
    Inv size { a with freePages := a.freePages.drop n }
      (held ∪ (a.freePages.take n).toFinset) where
  split := by
    apply Lib.Splits.take
    simpa only [getAllFreePages, ← append_assoc, take_append_drop] using inv.split
  queued_nodup := inv.queued_nodup
  queued_held := fun slot mem => Finset.mem_union_left _ (inv.queued_held slot mem)

lemma free_freeGroup (needSort : Bool) (slots : List Nat)
    (closed : a.freeGroup = none) : (a.free needSort slots).freeGroup = none := by
  unfold Token.free
  split
  · exact closed
  · simp only [closed]
    split <;> rfl

lemma Inv.free_closed (needSort : Bool) (inv : Inv size a held) (closed : a.freeGroup = none)
    (nodup : slots.Nodup) (sub : ∀ slot ∈ slots, slot ∈ held) :
    Inv size (a.free needSort slots) (held \ slots.toFinset) := by
  have given := inv.split.give nodup sub
  unfold Token.free
  cases slots with
  | nil => simpa using inv
  | cons slot slots =>
    simp only [isEmpty_cons, Bool.false_eq_true, if_false, closed]
    split
    · refine ⟨given.perm ?_, by simp [queued], by simp [queued]⟩
      simp only [getAllFreePages]
      rw [← append_assoc a.freePages]
      exact perm_append_comm
    · refine ⟨given.perm ?_, by simp [queued], by simp [queued]⟩
      simp only [getAllFreePages, ← append_assoc]
      exact perm_append_comm.append_right a.releasePages

lemma Inv.free_open (needSort : Bool) (inv : Inv size a held) (opened : a.freeGroup ≠ none)
    (nodup : slots.Nodup) (sub : ∀ slot ∈ slots, slot ∈ held ∧ slot ∉ a.queued) :
    Inv size (a.free needSort slots) held ∧ (a.free needSort slots).queued = a.queued ++ slots := by
  unfold Token.free
  cases slots with
  | nil => simpa using inv
  | cons slot slots =>
    cases group : a.freeGroup with
    | none => exact absurd group opened
    | some waiting =>
      have queue : (waiting ++ [slot :: slots]).flatten = a.queued ++ (slot :: slots) := by
        simp [queued, group]
      refine ⟨⟨inv.split, ?_, ?_⟩, queue⟩
      · change (waiting ++ [slot :: slots]).flatten.Nodup
        rw [queue]
        refine nodup_append.mpr ⟨inv.queued_nodup, nodup, ?_⟩
        rintro x before _ new rfl
        exact (sub x new).2 before
      · change ∀ x ∈ (waiting ++ [slot :: slots]).flatten, x ∈ held
        intro x mem
        rw [queue, mem_append] at mem
        exact mem.elim (inv.queued_held x) fun new => (sub x new).1

theorem Inv.freeGroupBegin (inv : Inv size a held)
    (ran : a.freeGroupBegin = some b) : Inv size b held ∧ b.queued = [] := by
  unfold Token.freeGroupBegin at ran
  cases group : a.freeGroup with
  | none =>
    rw [group] at ran
    cases ran
    exact ⟨⟨inv.split, by simp [queued], by simp [queued]⟩, by simp [queued]⟩
  | some waiting =>
    rw [group] at ran
    cases ran

theorem Inv.freeGroupEnd (needSort : Bool) (inv : Inv size a held) :
    Inv size (a.freeGroupEnd needSort) (held \ a.queued.toFinset) ∧
      (a.freeGroupEnd needSort).queued = [] := by
  have closed : Inv size { a with freeGroup := none } held :=
    ⟨inv.split, by simp [queued], by simp [queued]⟩
  unfold Token.freeGroupEnd
  cases group : a.freeGroup with
  | none => simpa [queued, group] using closed
  | some pending =>
    cases pending with
    | nil => simpa [queued, group] using closed
    | cons first rest =>
      have queue : (first :: rest).flatten = a.queued := by simp [queued, group]
      simp only [queue]
      refine ⟨closed.free_closed needSort rfl inv.queued_nodup inv.queued_held, ?_⟩
      simp [queued, free_freeGroup]

end Token

end Sglang.Alloc
